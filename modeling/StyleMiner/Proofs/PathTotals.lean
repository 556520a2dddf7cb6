import Mathlib.Algebra.Order.BigOperators.Group.List
import Mathlib.Algebra.Order.Ring.Nat
import Mathlib.Algebra.BigOperators.Ring.List
import StyleMiner.Mining.PrefixTree

/-! Totals over weighted paths and over forests. A path is read step by step; a step is an item with
the items above it. The total of a function of steps, weighted by counts, is the same for a list of
paths and for the forest that shares their beginnings, whatever is shared: an insertion adds the total
of the inserted path, and pruning changes the function alone. No order of the items and no
relation between the counts is needed for this. -/

namespace StyleMiner

/-- the total of a function over the steps of a path below `above` -/
def stepTotal (f : List ItemId → ItemId → Nat) (above : List ItemId) : List ItemId → Nat
  | [] => 0
  | i :: is => f above i + stepTotal f (above ++ [i]) is

variable {f g : List ItemId → ItemId → Nat} {above items q : List ItemId} {i j : ItemId}

theorem stepTotal_pos :
    0 < stepTotal f above items ↔ ∃ q i r, items = q ++ i :: r ∧ 0 < f (above ++ q) i := by
  induction items generalizing above with
  | nil => simp [stepTotal]
  | cons j js ih =>
    rw [stepTotal, Nat.add_pos_iff_pos_or_pos, ih]
    constructor
    · rintro (h | ⟨q, i, r, rfl, h⟩)
      · exact ⟨[], j, js, rfl, by simpa using h⟩
      · exact ⟨j :: q, i, r, rfl, by simpa using h⟩
    · rintro ⟨q, i, r, heq, h⟩
      cases q with
      | nil =>
        obtain ⟨rfl, rfl⟩ := List.cons.inj heq
        exact .inl (by simpa using h)
      | cons k q =>
        obtain ⟨rfl, rfl⟩ := List.cons.inj heq
        exact .inr ⟨q, i, r, rfl, by simpa using h⟩

/-- Leaving items out of a path takes their steps, and takes them from above all others. -/
theorem stepTotal_filter (keep : ItemId → Bool) (above : List ItemId) :
    stepTotal f (above.filter keep) (items.filter keep) =
      stepTotal (fun q i => if keep i then f (q.filter keep) i else 0) above items := by
  induction items generalizing above with
  | nil => rfl
  | cons j js ih =>
    cases hj : keep j with
    | true =>
      have hsnoc : (above ++ [j]).filter keep = above.filter keep ++ [j] := by simp [hj]
      rw [List.filter_cons_of_pos hj, stepTotal, stepTotal, ← hsnoc, ih, if_pos hj]
    | false =>
      have hsnoc : (above ++ [j]).filter keep = above.filter keep := by simp [hj]
      rw [List.filter_cons_of_neg (by simp [hj]), stepTotal, ← ih, hsnoc, hj]
      simp

/-- A path without repetition has at most one step to an item. -/
theorem stepTotal_at {h : List ItemId → Nat} (hn : items.Nodup) :
    stepTotal (fun q j => if j = i then h q else 0) above items =
      if i ∈ items then h (above ++ items.takeWhile (· ≠ i)) else 0 := by
  induction items generalizing above with
  | nil => rfl
  | cons j js ih =>
    obtain ⟨hj, hjs⟩ := List.nodup_cons.1 hn
    rw [stepTotal, ih hjs]
    by_cases hji : j = i
    · subst hji
      simp [hj]
    · have hij : ¬ i = j := fun h => hji h.symm
      simp [hji, hij]

theorem sum_map_filter {α : Type} (xs : List α) (keep : α → Bool) (k : α → Nat) :
    ((xs.filter keep).map k).sum = (xs.map fun x => if keep x then k x else 0).sum := by
  induction xs with
  | nil => rfl
  | cons x xs ih => cases hx : keep x <;> simp [hx, ih]

namespace WeightedPath

/-- the total of a function of paths -/
def weigh (h : List ItemId → Nat) (ps : List WeightedPath) : Nat :=
  (ps.map fun p => p.count * h p.items).sum

variable {h k : List ItemId → Nat} {ps ps' : List WeightedPath} {p : WeightedPath}

theorem weigh_append : weigh h (ps ++ ps') = weigh h ps + weigh h ps' := by
  simp [weigh]

theorem weigh_singleton : weigh h [p] = p.count * h p.items := by simp [weigh]

theorem weigh_congr (hh : ∀ p ∈ ps, h p.items = k p.items) : weigh h ps = weigh k ps := by
  unfold weigh
  rw [List.map_congr_left fun p hp => by rw [hh p hp]]

theorem weigh_mono (hh : ∀ p ∈ ps, h p.items ≤ k p.items) : weigh h ps ≤ weigh k ps :=
  List.sum_le_sum fun p hp => Nat.mul_le_mul_left _ (hh p hp)

theorem weigh_pos (hc : ∀ p ∈ ps, 0 < p.count) : 0 < weigh h ps ↔ ∃ p ∈ ps, 0 < h p.items := by
  rw [Nat.pos_iff_ne_zero, weigh, ne_eq, List.sum_eq_zero_iff]
  simp only [List.mem_map, forall_exists_index, and_imp, forall_apply_eq_imp_iff₂, not_forall,
    Nat.mul_eq_zero, not_or, Nat.pos_iff_ne_zero]
  constructor
  · rintro ⟨p, hp, -, hne⟩
    exact ⟨p, hp, hne⟩
  · rintro ⟨p, hp, hne⟩
    exact ⟨p, hp, Nat.pos_iff_ne_zero.1 (hc p hp), hne⟩

theorem weigh_map_items (k : List ItemId → List ItemId) :
    weigh h (ps.map fun p => ⟨k p.items, p.count⟩) = weigh (fun q => h (k q)) ps := by
  simp only [weigh, List.map_map]
  rfl

/-- A list that is cut down weighs what the rest of it weighs. -/
theorem weigh_filter (ps : List WeightedPath) (keep : List ItemId → Bool) :
    weigh h (ps.filter (keep ·.items)) = weigh (fun q => if keep q then h q else 0) ps := by
  simp only [weigh, sum_map_filter, mul_ite, mul_zero]

theorem sum_count_filter (ps : List WeightedPath) (keep : List ItemId → Bool) :
    ((ps.filter (keep ·.items)).map (·.count)).sum = weigh (fun q => if keep q then 1 else 0) ps := by
  simp only [weigh, sum_map_filter, mul_ite, mul_zero, mul_one]

end WeightedPath

namespace Forest

/-- the total of a function over the nodes of a forest that stands below `above` -/
def total (f : List ItemId → ItemId → Nat) (above : List ItemId) : Forest → Nat
  | nil => 0
  | node _ item count children siblings =>
    count * f above item + (children.total f (above ++ [item]) + siblings.total f above)

variable {t : Forest}

theorem sum_nodes (parent : Nat) :
    ((t.nodes parent above).map fun x => x.count * f x.above x.item).sum = t.total f above := by
  induction t generalizing parent above with
  | nil => rfl
  | node id item count children siblings ihc ihs =>
    simp only [nodes, total, List.map_cons, List.sum_cons, List.map_append, List.sum_append, ihc, ihs]

theorem total_append (s : Forest) : (t.append s).total f above = t.total f above + s.total f above := by
  induction t with
  | nil => simp [append, total]
  | node id item count children siblings _ ih => simp only [append, total, ih]; omega

theorem total_path (count fresh : Nat) :
    (path count fresh items).total f above = count * stepTotal f above items := by
  induction items generalizing fresh above with
  | nil => rfl
  | cons i is ih => simp only [path, total, ih, stepTotal, Nat.mul_add, Nat.add_zero]

theorem total_insert (count fresh : Nat) :
    (t.insert count fresh items).total f above =
      t.total f above + count * stepTotal f above items := by
  induction t generalizing items above with
  | nil => rw [insert, total_path, total, Nat.zero_add]
  | node id item n children siblings ihc ihs =>
    unfold insert
    cases items with
    | nil => simp [stepTotal]
    | cons i is =>
      simp only []
      split
      · next h =>
        subst h
        simp only [total, ihc, stepTotal, Nat.add_mul, Nat.mul_add]
        omega
      · simp only [total, ihs]
        omega

/-- A kept node keeps its count and loses from above it what is not kept. -/
theorem total_prune (keep : ItemId → Bool) (above : List ItemId) :
    (t.prune keep).total f (above.filter keep) =
      t.total (fun q i => if keep i then f (q.filter keep) i else 0) above := by
  induction t generalizing above with
  | nil => rfl
  | node id item count children siblings ihc ihs =>
    unfold prune
    cases hk : keep item with
    | true =>
      have hsnoc : (above ++ [item]).filter keep = above.filter keep ++ [item] := by simp [hk]
      simp only [↓reduceIte, total, hk, ← ihc, ← ihs, hsnoc]
    | false =>
      have hsnoc : (above ++ [item]).filter keep = above.filter keep := by simp [hk]
      simp only [Bool.false_eq_true, ↓reduceIte, total, total_append, hk, ← ihc, ← ihs, hsnoc]
      omega

theorem pos_path {count fresh parent : Nat} (hc : 0 < count) :
    ∀ x ∈ (path count fresh items).nodes parent above, 0 < x.count := by
  induction items generalizing fresh parent above with
  | nil => exact fun _ h => nomatch h
  | cons i is ih =>
    intro x hx
    simp only [path, nodes, List.append_nil, List.mem_cons] at hx
    rcases hx with rfl | hx
    · exact hc
    · exact ih x hx

theorem pos_insert {count fresh parent : Nat} (hc : 0 < count)
    (h : ∀ x ∈ t.nodes parent above, 0 < x.count) :
    ∀ x ∈ (t.insert count fresh items).nodes parent above, 0 < x.count := by
  induction t generalizing items parent above with
  | nil => exact pos_path hc
  | node id item n children siblings ihc ihs =>
    simp only [nodes, List.forall_mem_cons, List.forall_mem_append] at h
    unfold insert
    cases items with
    | nil => simpa only [nodes, List.forall_mem_cons, List.forall_mem_append] using h
    | cons i is =>
      simp only []
      split
      · simp only [nodes, List.forall_mem_cons, List.forall_mem_append]
        exact ⟨Nat.add_pos_right _ hc, ihc h.2.1, h.2.2⟩
      · simp only [nodes, List.forall_mem_cons, List.forall_mem_append]
        exact ⟨h.1, h.2.1, ihs h.2.2⟩

theorem nodes_append (s : Forest) (parent : Nat) :
    (t.append s).nodes parent above = t.nodes parent above ++ s.nodes parent above := by
  induction t with
  | nil => rfl
  | node id item count children siblings _ ih =>
    simp only [append, nodes, ih, List.cons_append, List.append_assoc]

theorem pos_prune {parent parent' : Nat} {above' : List ItemId} (keep : ItemId → Bool)
    (h : ∀ x ∈ t.nodes parent above, 0 < x.count) :
    ∀ x ∈ (t.prune keep).nodes parent' above', 0 < x.count := by
  induction t generalizing parent parent' above above' with
  | nil => exact fun _ h => nomatch h
  | node id item count children siblings ihc ihs =>
    simp only [nodes, List.forall_mem_cons, List.forall_mem_append] at h
    unfold prune
    split
    · simp only [nodes, List.forall_mem_cons, List.forall_mem_append]
      exact ⟨h.1, ihc h.2.1, ihs h.2.2⟩
    · rw [nodes_append, List.forall_mem_append]
      exact ⟨ihc h.2.1, ihs h.2.2⟩

end Forest
end StyleMiner
