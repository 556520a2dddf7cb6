import Mathlib.Data.List.Sort
import StyleMiner.Mining.IdSet

/-! Inclusion and union of id sets, and their order. Inclusion bounds the size, and a set that lies in
another of no larger size is that set. The order is total and tells two sets apart, so a list of sets
in strict order is known by what it holds. -/

namespace StyleMiner.IdSet

instance : HasSubset IdSet := ⟨fun s t => ∀ x ∈ s, x ∈ t⟩

instance : HasSSubset IdSet := ⟨fun s t => s ⊆ t ∧ ¬ t ⊆ s⟩

instance (s t : IdSet) : Decidable (s ⊆ t) := inferInstanceAs (Decidable (∀ x ∈ s.toList, x ∈ t))

instance (s t : IdSet) : Decidable (s ⊂ t) := inferInstanceAs (Decidable (s ⊆ t ∧ ¬ t ⊆ s))

variable {s t u : IdSet} {x y : Nat}

theorem subset_eq_true : s.subset t = true ↔ s ⊆ t := subset_iff

theorem subset_refl (s : IdSet) : s ⊆ s := fun _ h => h

theorem subset_trans (hst : s ⊆ t) (htu : t ⊆ u) : s ⊆ u := fun x hx => htu x (hst x hx)

theorem subset_antisymm (hst : s ⊆ t) (hts : t ⊆ s) : s = t := ext fun x => ⟨hst x, hts x⟩

theorem not_mem_empty : x ∉ empty := List.not_mem_nil

theorem isEmpty_eq_false : s.isEmpty = false ↔ ∃ x, x ∈ s := by
  unfold isEmpty
  cases h : s.toList with
  | nil => simp [mem_def, h]
  | cons x xs => simp [mem_def, h]

theorem nodup (s : IdSet) : s.toList.Nodup := s.ascending.imp Nat.ne_of_lt

theorem size_le_of_subset (h : s ⊆ t) : s.size ≤ t.size :=
  (List.subperm_of_subset s.nodup h).length_le

theorem eq_of_subset_of_size_le (h : s ⊆ t) (hle : t.size ≤ s.size) : s = t := by
  have hperm : s.toList.Perm t.toList :=
    (List.subperm_of_subset s.nodup h).perm_of_length_le hle
  exact ext fun x => hperm.mem_iff

theorem ssubset_iff_size : s ⊂ t ↔ s.size < t.size ∧ s ⊆ t := by
  constructor
  · rintro ⟨hst, hts⟩
    refine ⟨?_, hst⟩
    by_contra hle
    have heq := eq_of_subset_of_size_le hst (Nat.le_of_not_lt hle)
    exact hts (heq ▸ subset_refl t)
  · rintro ⟨hlt, hst⟩
    exact ⟨hst, fun hts => Nat.not_lt.2 (size_le_of_subset hts) hlt⟩

theorem ssubset_trans (hst : s ⊂ t) (htu : t ⊂ u) : s ⊂ u :=
  ⟨subset_trans hst.1 htu.1, fun hus => hst.2 (subset_trans htu.1 hus)⟩

theorem ssubset_of_subset_of_ne (h : s ⊆ t) (hne : s ≠ t) : s ⊂ t :=
  ⟨h, fun hts => hne (subset_antisymm h hts)⟩

def union (s t : IdSet) : IdSet := ofList (s.toList ++ t.toList)

theorem mem_union : x ∈ s.union t ↔ x ∈ s ∨ x ∈ t := by
  rw [union, mem_ofList, List.mem_append]; rfl

theorem ofList_toList (s : IdSet) : ofList s.toList = s := ext fun _ => mem_ofList

theorem ofList_append (xs ys : List Nat) : ofList (xs ++ ys) = (ofList xs).union (ofList ys) :=
  ext fun x => by simp [mem_ofList, mem_union]

theorem empty_union (s : IdSet) : empty.union s = s :=
  ext fun x => by simp [mem_union, not_mem_empty]

theorem union_insert (s t : IdSet) (x : Nat) : s.union (t.insert x) = (s.insert x).union t :=
  ext fun y => by simp only [mem_union, mem_insert]; tauto

theorem union_subset_union_left (h : t ⊆ u) : s.union t ⊆ s.union u := fun x hx => by
  rw [mem_union] at hx ⊢
  exact hx.imp_right (h x)

theorem exists_greatest (h : ∃ x, x ∈ s) : ∃ x ∈ s, ∀ y ∈ s, y ≤ x := by
  obtain ⟨x, hx⟩ := h
  obtain hnil | ⟨ys, z, hys⟩ := s.toList.eq_nil_or_concat'
  · rw [mem_def, hnil] at hx
    exact absurd hx List.not_mem_nil
  · refine ⟨z, by simp [mem_def, hys], fun y hy => ?_⟩
    have hasc := s.ascending
    rw [hys] at hasc
    rw [mem_def, hys, List.mem_append, List.mem_singleton] at hy
    rcases hy with hy | rfl
    · exact Nat.le_of_lt ((List.pairwise_append.1 hasc).2.2 y hy z List.mem_cons_self)
    · exact Nat.le_refl _

theorem insert_erase (h : x ∈ s) : (s.erase x).insert x = s :=
  ext fun y => by
    rw [mem_insert, mem_erase]
    by_cases hy : y = x
    · subst hy
      simp [h]
    · simp [hy]

instance : Std.TransOrd IdSet := inferInstanceAs (Std.TransCmp (compareOn toList))

theorem compare_def : compare s t = compare s.toList t.toList := rfl

instance : Std.LawfulEqOrd IdSet where
  compare_self := by
    intro s
    rw [compare_def, Std.ReflOrd.compare_self]
  eq_of_compare := by
    intro s t h
    have hlist : s.toList = t.toList := Std.LawfulEqOrd.eq_of_compare (compare_def.symm.trans h)
    exact ext fun x => by rw [mem_def, mem_def, hlist]

end StyleMiner.IdSet
