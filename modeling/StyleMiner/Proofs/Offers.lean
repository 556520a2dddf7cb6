import Mathlib.Data.List.Sublists
import StyleMiner.Proofs.Projections

/-! What a run offers. Each offer is a set that enough transactions have, counted as they do. Each such
set is offered, or, where runs alone are offered of a single path, one is offered that has all
its items and is counted alike. The induction follows the projections: a set is split at its
greatest item, which extends the stem, and what is below it is found in that item's projection. -/

namespace StyleMiner

/-- whether an offer is of a set that enough transactions have, counted as they do -/
structure Offer.Sound (data : DataSet) (minimum : Nat) (o : Offer) : Prop where
  frequent : data.Frequent minimum (.ofList o.members)
  count_eq : o.count = data.count (.ofList o.members)

namespace Projection

open WeightedPath

variable {data : DataSet} {p : Projection} {ps : List WeightedPath} {x : IdSet} {i : ItemId} {n : Nat}
  {c : Config} {path a b : List (ItemId × Nat)} {f : Offer}

theorem combinations_eq_sublists (xs : List (ItemId × Nat)) : combinations xs = xs.sublists := by
  induction xs with
  | nil => rfl
  | cons x xs ih =>
    rw [combinations, ih, List.sublists_cons]
    rfl

theorem mem_combinations {xs ys : List (ItemId × Nat)} : ys ∈ combinations xs ↔ ys.Sublist xs := by
  rw [combinations_eq_sublists, List.mem_sublists]

theorem split_at_last {zs : List (ItemId × Nat)} (h : (zs ++ [(i, n)]).Sublist path) :
    ∃ a b, path = a ++ (i, n) :: b ∧ ∀ z ∈ zs, z ∈ a := by
  obtain ⟨u, v, rfl, hzs, hlast⟩ := List.append_sublist_iff.1 h
  obtain ⟨s, b, rfl⟩ := List.append_of_mem (List.singleton_sublist.1 hlast)
  exact ⟨u ++ s, b, by simp, fun z hz => List.mem_append_left _ (hzs.subset hz)⟩

/-- A set of items of a path is that of a choice of its nodes. -/
theorem exists_choice (hx : ∃ j, j ∈ x) (hpath : ∀ j ∈ x, j ∈ path.map (·.1)) :
    ∃ zs i n, (zs ++ [(i, n)]).Sublist path ∧ IdSet.ofList ((zs ++ [(i, n)]).map (·.1)) = x := by
  have hmem (j : ItemId) : j ∈ (path.filter (·.1 ∈ x)).map (·.1) ↔ j ∈ x := by
    rw [List.mem_map]
    refine ⟨?_, fun hj => ?_⟩
    · intro ⟨y, hy, hyj⟩
      exact hyj ▸ of_decide_eq_true (List.mem_filter.1 hy).2
    · obtain ⟨y, hy, rfl⟩ := List.mem_map.1 (hpath j hj)
      exact ⟨y, List.mem_filter.2 ⟨hy, decide_eq_true hj⟩, rfl⟩
  obtain hnil | ⟨zs, ⟨i, n⟩, hzs⟩ := (path.filter (·.1 ∈ x)).eq_nil_or_concat'
  · obtain ⟨j, hj⟩ := hx
    rw [← hmem, hnil] at hj
    exact absurd hj List.not_mem_nil
  · refine ⟨zs, i, n, hzs ▸ List.filter_sublist, IdSet.ext fun j => ?_⟩
    rw [IdSet.mem_ofList, ← hzs, hmem]

theorem mem_runs {before : List ItemId} :
    f ∈ runs before path ↔ ∃ a i n b, path = a ++ (i, n) :: b ∧ b.head?.all (·.2 < n) = true ∧
      f = ⟨before ++ a.map (·.1) ++ [i], n, true⟩ := by
  induction path generalizing before with
  | nil => simp [runs]
  | cons y ys ih =>
    have hsplit : f ∈ runs before (y :: ys) ↔
        (ys.head?.all (·.2 < y.2) = true ∧ f = ⟨before ++ [y.1], y.2, true⟩) ∨
          f ∈ runs (before ++ [y.1]) ys := by
      rw [runs]
      by_cases h : ys.head?.all (·.2 < y.2) = true
      · simp only [h, ↓reduceIte, List.mem_cons, true_and]
      · simp only [h, ↓reduceIte, Bool.false_eq_true, false_and, false_or]
    rw [hsplit, ih]
    refine ⟨?_, ?_⟩
    · rintro (⟨hend, rfl⟩ | ⟨a, i, n, b, rfl, hend, rfl⟩)
      · exact ⟨[], y.1, y.2, ys, rfl, hend, by simp⟩
      · exact ⟨y :: a, i, n, b, rfl, hend, by simp⟩
    · rintro ⟨a, i, n, b, heq, hend, rfl⟩
      cases a with
      | nil =>
        obtain ⟨rfl, rfl⟩ := List.cons.inj heq
        exact .inl ⟨hend, by simp⟩
      | cons z a =>
        obtain ⟨rfl, rfl⟩ := List.cons.inj heq
        exact .inr ⟨a, i, n, b, rfl, hend, by simp⟩

theorem deepest_of_mem_pathOffers (hf : f ∈ pathOffers c path) :
    ∃ a i b, path = a ++ (i, f.count) :: b ∧ i ∈ f.members ∧
      ∀ j ∈ f.members, j = i ∨ j ∈ a.map (·.1) := by
  unfold pathOffers at hf
  split at hf
  · obtain ⟨a, i, n, b, rfl, -, rfl⟩ := mem_runs.1 hf
    exact ⟨a, i, b, rfl, by simp, fun j hj => by simpa [or_comm] using hj⟩
  · obtain ⟨ys, hys, hoffer⟩ := List.mem_filterMap.1 hf
    rw [mem_combinations] at hys
    obtain rfl | ⟨zs, ⟨i, n⟩, rfl⟩ := ys.eq_nil_or_concat'
    · cases hoffer
    · simp only [combinationOffer?, List.getLast?_append, List.getLast?_singleton, Option.some_or,
        Option.map_some, Option.some.injEq] at hoffer
      subst hoffer
      obtain ⟨a, b, rfl, hzs⟩ := split_at_last hys
      refine ⟨a, i, b, rfl, by simp, fun j hj => ?_⟩
      simp only [List.map_append, List.map_cons, List.map_nil, List.mem_append, List.mem_map,
        List.mem_singleton] at hj
      rcases hj with ⟨z, hz, rfl⟩ | rfl
      · exact .inr (List.mem_map_of_mem (hzs z hz))
      · exact .inl rfl

theorem exists_run_end
    (hfall : ∀ a i n j k b, path = a ++ (i, n) :: (j, k) :: b → k ≤ n) (h : path = a ++ (i, n) :: b) :
    ∃ a' j b', path = a' ++ (j, n) :: b' ∧ b'.head?.all (·.2 < n) = true ∧
      ∀ y, y ∈ a ∨ y = (i, n) → y ∈ a' ∨ y = (j, n) := by
  induction b generalizing a i with
  | nil => exact ⟨a, i, [], h, rfl, fun _ hy => hy⟩
  | cons z b ih =>
    obtain ⟨j, k⟩ := z
    have hle := hfall a i n j k b h
    by_cases hlt : k < n
    · exact ⟨a, i, (j, k) :: b, h, by simpa using hlt, fun _ hy => hy⟩
    · obtain rfl : k = n := by omega
      obtain ⟨a', j', b', heq, hend, hall⟩ := ih (a := a ++ [(i, k)]) (i := j) (by simpa using h)
      refine ⟨a', j', b', heq, hend, fun y hy => hall y (.inl ?_)⟩
      simpa using hy

namespace Shows

variable {minimum : Nat} (hp : p.Shows data minimum ps)
include hp

theorem sound (hx : ∃ j, j ∈ x) (hmin : minimum ≤ share ps x) {o : Offer}
    (hmem : IdSet.ofList o.members = p.stem.union x) (hcount : o.count = share ps x) :
    o.Sound data minimum := by
  have heq := hp.share_eq x hx hmin
  obtain ⟨j, hj⟩ := hx
  refine ⟨?_, ?_⟩
  · rw [hmem]
    exact ⟨⟨j, IdSet.mem_union.2 (.inr hj)⟩, heq ▸ hmin⟩
  · rw [hmem]
    exact hcount.trans heq

theorem share_pathOffer (h : p.tree.singlePath? = some path) (hf : f ∈ pathOffers c path) :
    share ps (.ofList f.members) = f.count ∧ minimum ≤ f.count := by
  obtain ⟨a, i, b, rfl, hi, hall⟩ := deepest_of_mem_pathOffers hf
  refine ⟨hp.represents.share_path hp.ascending h (IdSet.mem_ofList.2 hi) fun j hj =>
    hall j (IdSet.mem_ofList.1 hj), ?_⟩
  rw [← hp.represents.occurrences_path hp.ascending h]
  obtain ⟨q, hq, hiq⟩ := hp.represents.exists_path_of_mem h (i := i) (by simp)
  exact hp.enough q hq i hiq

/-- On a single path each choice of items is offered, or a run of it that is shared by as many. -/
theorem exists_pathOffer (h : p.tree.singlePath? = some path) (hx : ∃ j, j ∈ x)
    (hpath : ∀ j ∈ x, j ∈ path.map (·.1)) :
    ∃ f ∈ pathOffers c path, x ⊆ .ofList f.members ∧ f.count = share ps x ∧
      (c.removeSubsumed = false → .ofList f.members = x) := by
  obtain ⟨zs, i, n, hsub, hsame⟩ := exists_choice hx hpath
  obtain ⟨a, b, hsplit, hza⟩ := split_at_last hsub
  have hmem (j : ItemId) : j ∈ x ↔ j ∈ (zs ++ [(i, n)]).map (·.1) := by rw [← hsame, IdSet.mem_ofList]
  have hchoice : ∀ j ∈ x, j = i ∨ j ∈ a.map (·.1) := by
    intro j hj
    rw [hmem, List.map_append, List.mem_append] at hj
    rcases hj with hj | hj
    · obtain ⟨z, hz, rfl⟩ := List.mem_map.1 hj
      exact .inr (List.mem_map_of_mem (hza z hz))
    · exact .inl (by simpa using hj)
  have hi : i ∈ x := (hmem i).2 (by simp)
  have hshare : share ps x = n := hp.represents.share_path hp.ascending (hsplit ▸ h) hi hchoice
  cases hrem : c.removeSubsumed with
  | false =>
    refine ⟨⟨(zs ++ [(i, n)]).map (·.1), n, true⟩, ?_, ?_, hshare.symm, fun _ => hsame⟩
    · rw [pathOffers, hrem, if_neg Bool.false_ne_true]
      exact List.mem_filterMap.2 ⟨_, mem_combinations.2 hsub, by simp [combinationOffer?]⟩
    · exact hsame ▸ IdSet.subset_refl x
  | true =>
    have hfall : ∀ a i n j k b, path = a ++ (i, n) :: (j, k) :: b → k ≤ n :=
      fun a i n j k b heq => hp.represents.count_le_of_path hp.ascending (heq ▸ h)
    obtain ⟨a', j, b', heq, hend, hall⟩ := exists_run_end hfall hsplit
    refine ⟨⟨a'.map (·.1) ++ [j], n, true⟩, ?_, fun k hk => ?_, hshare.symm, fun h => nomatch h⟩
    · rw [pathOffers, hrem, if_pos rfl]
      exact mem_runs.2 ⟨a', j, n, b', heq, hend, by simp⟩
    · have hk' : ∃ y, (y ∈ a ∨ y = (i, n)) ∧ y.1 = k := by
        rcases hchoice k hk with rfl | hka
        · exact ⟨_, .inr rfl, rfl⟩
        · obtain ⟨y, hy, rfl⟩ := List.mem_map.1 hka
          exact ⟨y, .inl hy, rfl⟩
      obtain ⟨y, hy, rfl⟩ := hk'
      rw [IdSet.mem_ofList, List.mem_append, List.mem_singleton]
      rcases hall y hy with hy | rfl
      · exact .inl (List.mem_map_of_mem hy)
      · exact .inr rfl

end Shows
end Projection
end StyleMiner
