import StyleMiner.Proofs.SinglePath

/-! What projections stand for. The paths of a projection count a set of items before its stem as
often as the transactions have it with the stem, as far as that is often enough. The first projection
does, and extending a projection by an item keeps that, so every projection of a run does; and
between them the projections of a run offer each set that enough transactions have. -/

namespace StyleMiner

namespace Projection

open WeightedPath

/-- whether a projection counts as the transactions do, its tree standing for `ps` -/
structure Shows (data : DataSet) (minimum : Nat) (p : Projection) (ps : List WeightedPath) : Prop where
  represents : p.tree.Represents ps
  ascending : ∀ q ∈ ps, q.items.Pairwise (· < ·)
  below : ∀ q ∈ ps, ∀ i ∈ q.items, ∀ j ∈ p.stem, i < j
  enough : ∀ q ∈ ps, ∀ i ∈ q.items, minimum ≤ occurrences ps i
  share_eq : ∀ x, (∃ i, i ∈ x) → minimum ≤ share ps x → share ps x = data.count (p.stem.union x)
  complete : ∀ x, (∃ i, i ∈ x) → (∀ i ∈ x, ∀ j ∈ p.stem, i < j) →
    minimum ≤ data.count (p.stem.union x) → minimum ≤ share ps x

variable {data : DataSet} {minimum : Nat} {p : Projection} {ps : List WeightedPath} {x : IdSet}
  {i : ItemId} {c : Config}

theorem pairwise_of_mem_pruned {q : WeightedPath} (hasc : ∀ q ∈ ps, q.items.Pairwise (· < ·))
    (hq : q ∈ pruned ps minimum) : q.items.Pairwise (· < ·) := by
  obtain ⟨r, hr, rfl⟩ := List.mem_map.1 hq
  exact (hasc r hr).filter _

theorem mem_of_mem_pruned {q : WeightedPath} (hq : q ∈ pruned ps minimum) (hi : i ∈ q.items) :
    ∃ r ∈ ps, i ∈ r.items := by
  obtain ⟨r, hr, rfl⟩ := List.mem_map.1 hq
  exact ⟨r, hr, (List.mem_filter.1 hi).1⟩

theorem shows_ofDataSet (data : DataSet) (hpos : 0 < minimum) :
    (ofDataSet data minimum).Shows data minimum
      (pruned (data.transactions.map fun t => ⟨t.items.toList, 1⟩) minimum) := by
  have hasc : ∀ q ∈ data.transactions.map fun t => (⟨t.items.toList, 1⟩ : WeightedPath),
      q.items.Pairwise (· < ·) := by
    intro q hq
    obtain ⟨t, -, rfl⟩ := List.mem_map.1 hq
    exact t.items.ascending
  have hcount : ∀ q ∈ data.transactions.map fun t => (⟨t.items.toList, 1⟩ : WeightedPath),
      0 < q.count := by
    intro q hq
    obtain ⟨t, -, rfl⟩ := List.mem_map.1 hq
    exact Nat.one_pos
  have hrep := PrefixTree.represents_ofBase hcount fun q hq => (hasc q hq).imp Nat.ne_of_lt
  refine ⟨hrep.prune minimum, fun q hq => pairwise_of_mem_pruned hasc hq,
    fun _ _ _ _ j hj => absurd hj IdSet.not_mem_empty, fun q hq i hi => occurrences_pruned hq hi,
    fun x _ hmin => ?_, fun x _ _ hmin => ?_⟩
  · rw [share_pruned_eq (le_share_of_pruned hpos hmin), share_transactions]
    exact congrArg data.count (IdSet.empty_union x).symm
  · have hshare : minimum ≤ share (data.transactions.map fun t => ⟨t.items.toList, 1⟩) x := by
      rw [share_transactions]
      exact IdSet.empty_union x ▸ hmin
    rwa [share_pruned_eq hshare]

namespace Shows

variable (hp : p.Shows data minimum ps)
include hp

/-- A set below an item is shared in the item's base as the set with the item is shared here. -/
theorem share_conditionalBase (hx : ∃ j, j ∈ x) :
    share (p.tree.conditionalBase i) x =
      if ∀ j ∈ x.toList, j < i then share ps (x.insert i) else 0 := by
  rw [← share_baseOf hp.ascending hx]
  exact hp.represents.weigh_conditionalBase _ i

theorem mem_conditionalBase {q : WeightedPath} (hq : q ∈ p.tree.conditionalBase i) :
    q.items.Pairwise (· < ·) ∧ ∃ r ∈ ps, ∀ j ∈ q.items, j ∈ r.items ∧ j < i := by
  obtain ⟨y, hchain, rfl⟩ := List.mem_map.1 (List.mem_filter.1 hq).1
  obtain ⟨hy, hitem⟩ := List.mem_filter.1 (List.mem_mergeSort.1 hchain)
  obtain rfl : y.item = i := by simpa using hitem
  obtain ⟨r, hr, rest, heq⟩ := hp.represents.exists_path hy
  have hasc := hp.ascending r hr
  rw [heq] at hasc
  have hsplit := List.pairwise_append.1 hasc
  refine ⟨hsplit.1, r, hr, fun j hj => ⟨?_, hsplit.2.2 j hj _ List.mem_cons_self⟩⟩
  rw [heq]
  exact List.mem_append_left _ hj

theorem exists_path_of_le (hpos : 0 < minimum) (hi : minimum ≤ occurrences ps i) :
    ∃ q ∈ ps, i ∈ q.items := by
  rw [← share_singleton] at hi
  obtain ⟨q, hq, hall⟩ := (share_pos hp.represents.path_pos).1 (Nat.lt_of_lt_of_le hpos hi)
  exact ⟨q, hq, hall i (IdSet.mem_insert.2 (.inl rfl))⟩

theorem mem_frequent (hpos : 0 < minimum) : i ∈ p.frequent minimum ↔ minimum ≤ occurrences ps i := by
  unfold frequent
  rw [List.mem_filter, decide_eq_true_eq, hp.represents.itemCount_eq, ← IdSet.mem_def,
    hp.represents.mem_header]
  exact and_iff_right_of_imp fun hi => hp.exists_path_of_le hpos hi

/-- A projection extended by an item counts as the transactions do. -/
theorem extend (hpos : 0 < minimum) (hi : minimum ≤ occurrences ps i) :
    (p.extend minimum i).Shows data minimum (pruned (p.tree.conditionalBase i) minimum) := by
  have hbase {q : WeightedPath} (hq : q ∈ p.tree.conditionalBase i) := hp.mem_conditionalBase hq
  have hrep := PrefixTree.represents_ofBase (PrefixTree.conditionalBase_pos hp.represents.node_pos)
    fun q hq => (hbase hq).1.imp Nat.ne_of_lt
  obtain ⟨r, hr, hir⟩ := hp.exists_path_of_le hpos hi
  refine ⟨hrep.prune minimum, fun q hq => pairwise_of_mem_pruned (fun q hq => (hbase hq).1) hq,
    fun q hq j hj k hk => ?_, fun q hq j hj => occurrences_pruned hq hj, fun x hx hmin => ?_,
    fun x hx hlow hmin => ?_⟩
  · obtain ⟨q', hq', hj⟩ := mem_of_mem_pruned hq hj
    obtain ⟨-, r', hr', hall⟩ := hbase hq'
    rcases IdSet.mem_insert.1 hk with rfl | hk
    · exact (hall j hj).2
    · exact hp.below r' hr' j (hall j hj).1 k hk
  · have hbaseMin := le_share_of_pruned hpos hmin
    rw [share_pruned_eq hbaseMin]
    rw [hp.share_conditionalBase hx] at hbaseMin ⊢
    split at hbaseMin
    · next hlow =>
      rw [if_pos hlow, hp.share_eq _ ⟨i, IdSet.mem_insert.2 (.inl rfl)⟩ hbaseMin, IdSet.union_insert]
      rfl
    · omega
  · have hbelow : ∀ j ∈ x.toList, j < i := fun j hj => hlow j hj i (IdSet.mem_insert.2 (.inl rfl))
    have hwith : minimum ≤ share ps (x.insert i) := by
      refine hp.complete _ ⟨i, IdSet.mem_insert.2 (.inl rfl)⟩ (fun j hj k hk => ?_) ?_
      · rcases IdSet.mem_insert.1 hj with rfl | hj
        · exact hp.below r hr _ hir k hk
        · exact hlow j hj k (IdSet.mem_insert.2 (.inr hk))
      · rw [IdSet.union_insert]
        exact hmin
    have hshare := hp.share_conditionalBase (i := i) hx
    rw [if_pos hbelow] at hshare
    rw [share_pruned_eq (hshare ▸ hwith), hshare]
    exact hwith

end Shows
end Projection
end StyleMiner
