import StyleMiner.Mining.DataSet
import StyleMiner.Proofs.Transactions
import StyleMiner.Proofs.TreeRefinement

/-! How many transactions share all items of a set. Pruning changes this number only for sets that
too few transactions share, and the base of an item counts the sets before the item as the whole list
counts them with the item. These two facts carry the growing of sets. -/

namespace StyleMiner.WeightedPath

/-- whether a path has all items of a set -/
def holds (x : IdSet) (items : List ItemId) : Bool := x.subset (.ofList items)

/-- how many transactions have all items of a set -/
def share (ps : List WeightedPath) (x : IdSet) : Nat := weigh (fun q => if holds x q then 1 else 0) ps

variable {ps : List WeightedPath} {p : WeightedPath} {x y : IdSet} {i j : ItemId} {q : List ItemId}
  {minimum : Nat}

theorem holds_iff : holds x q = true ↔ ∀ i ∈ x, i ∈ q := by
  simp only [holds, IdSet.subset_iff, IdSet.mem_ofList]

theorem share_congr (h : ∀ p ∈ ps, (∀ i ∈ x, i ∈ p.items) ↔ ∀ i ∈ y, i ∈ p.items) :
    share ps x = share ps y := by
  refine weigh_congr fun p hp => ?_
  simp only [holds_iff, h p hp]

theorem share_anti (h : x ⊆ y) : share ps y ≤ share ps x := by
  refine weigh_mono fun p _ => ?_
  by_cases hy : holds y p.items = true
  · have hx : holds x p.items = true := holds_iff.2 fun i hi => holds_iff.1 hy i (h i hi)
    rw [if_pos hy, if_pos hx]
  · rw [if_neg hy]
    exact Nat.zero_le _

theorem share_pos (hc : ∀ p ∈ ps, 0 < p.count) :
    0 < share ps x ↔ ∃ p ∈ ps, ∀ i ∈ x, i ∈ p.items := by
  rw [share, weigh_pos hc]
  refine exists_congr fun p => and_congr_right fun _ => ?_
  by_cases h : holds x p.items = true
  · simp only [h, ↓reduceIte, Nat.one_pos, true_iff]
    exact holds_iff.1 h
  · simp only [h, Bool.false_eq_true, ↓reduceIte, Nat.lt_irrefl, false_iff]
    exact fun h' => h (holds_iff.2 h')

theorem share_singleton : share ps (IdSet.empty.insert i) = occurrences ps i := by
  rw [occurrences_eq]
  refine weigh_congr fun p _ => ?_
  simp only [holds_iff, IdSet.mem_insert, IdSet.not_mem_empty, or_false, forall_eq]

theorem share_le_occurrences (hi : i ∈ x) : share ps x ≤ occurrences ps i := by
  rw [← share_singleton]
  refine share_anti fun j hj => ?_
  rcases IdSet.mem_insert.1 hj with rfl | hj
  · exact hi
  · exact absurd hj IdSet.not_mem_empty

theorem share_pruned (ps : List WeightedPath) (minimum : Nat) (x : IdSet) :
    share (pruned ps minimum) x =
      if ∀ i ∈ x.toList, minimum ≤ occurrences ps i then share ps x else 0 := by
  rw [share, weigh_pruned]
  by_cases h : ∀ i ∈ x.toList, minimum ≤ occurrences ps i
  · rw [if_pos h]
    refine weigh_congr fun p _ => ?_
    have hiff : (∀ i ∈ x, i ∈ p.items.filter (minimum ≤ occurrences ps ·)) ↔ ∀ i ∈ x, i ∈ p.items :=
      forall₂_congr fun i hi => by
        rw [List.mem_filter]
        exact and_iff_left (decide_eq_true (h i hi))
    simp only [holds_iff, hiff]
  · rw [if_neg h, weigh, List.sum_eq_zero_iff]
    intro n hn
    obtain ⟨p, hp, rfl⟩ := List.mem_map.1 hn
    have hno : ¬ holds x (p.items.filter (minimum ≤ occurrences ps ·)) = true := fun hall =>
      h fun i hi => of_decide_eq_true (List.mem_filter.1 (holds_iff.1 hall i hi)).2
    rw [if_neg hno, Nat.mul_zero]

theorem share_pruned_eq (h : minimum ≤ share ps x) : share (pruned ps minimum) x = share ps x := by
  have hall : ∀ i ∈ x.toList, minimum ≤ occurrences ps i := fun i hi =>
    Nat.le_trans h (share_le_occurrences hi)
  rw [share_pruned, if_pos hall]

theorem le_share_of_pruned (hpos : 0 < minimum) (h : minimum ≤ share (pruned ps minimum) x) :
    minimum ≤ share ps x := by
  rw [share_pruned] at h
  split at h
  · exact h
  · omega

/-- What pruning leaves is in enough of the paths that it leaves. -/
theorem occurrences_pruned (hp : p ∈ pruned ps minimum) (hi : i ∈ p.items) :
    minimum ≤ occurrences (pruned ps minimum) i := by
  obtain ⟨q, -, rfl⟩ := List.mem_map.1 hp
  have hmin := of_decide_eq_true (List.mem_filter.1 hi).2
  rw [← share_singleton] at hmin ⊢
  rwa [share_pruned_eq hmin]

/-- In ascending paths the items before an item are those below it. -/
theorem mem_takeWhile_ne (h : q.Pairwise (· < ·)) (hi : i ∈ q) :
    j ∈ q.takeWhile (· ≠ i) ↔ j ∈ q ∧ j < i := by
  obtain ⟨a, b, rfl⟩ := List.append_of_mem hi
  obtain ⟨-, hib, hab⟩ := List.pairwise_append.1 h
  have hlow : ∀ k ∈ a, k < i := fun k hk => hab k hk i List.mem_cons_self
  have hhigh := (List.pairwise_cons.1 hib).1
  have htake : (a ++ i :: b).takeWhile (· ≠ i) = a := by
    rw [List.takeWhile_append_of_pos fun k hk => decide_eq_true (Nat.ne_of_lt (hlow k hk)),
      List.takeWhile_cons_of_neg (by simp), List.append_nil]
  rw [htake, List.mem_append, List.mem_cons]
  refine ⟨fun hj => ⟨.inl hj, hlow j hj⟩, ?_⟩
  rintro ⟨hj | rfl | hj, hlt⟩
  · exact hj
  · exact absurd hlt (Nat.lt_irrefl _)
  · exact absurd hlt (Nat.lt_asymm (hhigh j hj))

/-- The base of an item counts sets below the item as the list counts them with the item. -/
theorem share_baseOf (hasc : ∀ p ∈ ps, p.items.Pairwise (· < ·)) (hx : ∃ j, j ∈ x) :
    share (baseOf ps i) x = if ∀ j ∈ x.toList, j < i then share ps (x.insert i) else 0 := by
  have hvalue : ∀ p ∈ ps, (if i ∈ p.items then
      if (p.items.takeWhile (· ≠ i)).isEmpty then 0
      else if holds x (p.items.takeWhile (· ≠ i)) then 1 else 0 else 0) =
      if (∀ j ∈ x.toList, j < i) ∧ holds (x.insert i) p.items = true then 1 else 0 := by
    intro p hp
    simp only [holds_iff, IdSet.mem_insert, forall_eq_or_imp]
    by_cases hi : i ∈ p.items
    · have hmem (j : ItemId) := mem_takeWhile_ne (j := j) (hasc p hp) hi
      have hiff : (∀ j ∈ x, j ∈ p.items.takeWhile (· ≠ i)) ↔
          (∀ j ∈ x.toList, j < i) ∧ i ∈ p.items ∧ ∀ j ∈ x, j ∈ p.items := by
        simp only [hmem, IdSet.mem_def]
        grind
      rw [if_pos hi]
      by_cases hempty : (p.items.takeWhile (· ≠ i)).isEmpty = true
      · obtain ⟨j, hj⟩ := hx
        rw [if_pos hempty, if_neg]
        rw [← hiff]
        intro h
        have hj := h j hj
        rw [List.isEmpty_iff.1 hempty] at hj
        exact absurd hj List.not_mem_nil
      · rw [if_neg hempty]
        simp only [hiff]
    · rw [if_neg hi, if_neg fun h => hi h.2.1]
  rw [share, weigh_baseOf, weigh_congr (k := fun q =>
    if (∀ j ∈ x.toList, j < i) ∧ holds (x.insert i) q = true then 1 else 0) hvalue]
  by_cases h : ∀ j ∈ x.toList, j < i
  · rw [if_pos h]
    exact weigh_congr fun p _ => if_congr (and_iff_right h) rfl rfl
  · rw [if_neg h, weigh_congr (k := fun _ => 0) fun p _ => if_neg fun hp => h hp.1]
    simp [weigh]

/-- The transactions of a sheet, each counted once. -/
theorem share_transactions (data : DataSet) (x : IdSet) :
    share (data.transactions.map fun t => ⟨t.items.toList, 1⟩) x = data.count x := by
  rw [share, weigh, List.map_map, DataSet.count, ← List.countP_eq_length_filter]
  induction data.transactions with
  | nil => rfl
  | cons t ts ih =>
    rw [List.map_cons, List.sum_cons, ih, List.countP_cons, Nat.add_comm]
    congr 1
    have hiff : holds x t.items.toList = true ↔ x ⊆ t.items := holds_iff
    change 1 * (if holds x t.items.toList = true then 1 else 0) = _
    rw [Nat.one_mul]
    by_cases hx : x ⊆ t.items
    · rw [if_pos (hiff.2 hx), if_pos (decide_eq_true hx)]
    · rw [if_neg fun h => hx (hiff.1 h), if_neg fun h => hx (of_decide_eq_true h)]

end StyleMiner.WeightedPath
