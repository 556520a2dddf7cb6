import Mathlib.Algebra.Order.BigOperators.Group.List
import Mathlib.Algebra.Order.Ring.Nat
import Mathlib.Data.List.Nodup
import StyleMiner.Proofs.LinkedCells

/-! What holds of the links of a linked tree: parents and children are each other's, and a parent comes
before its children. A new child keeps this, and so does taking a cell out. The counts below a cell fit into
its own as long as no sum of counts is too large for a word. -/

namespace StyleMiner.LinkedTree

variable {a b : LinkedTree} {id parent : Nat} {item : ItemId} {count n spare : Nat}

/-- Cells with an item hang below a parent that comes before them, and each is a child of that alone.
What hangs nowhere counts nothing. -/
structure Tree (a : LinkedTree) : Prop where
  size_pos : 0 < a.cells.size
  root_parent : (a.cell 0).parent = none
  item_iff : ∀ id, (a.cell id).item.isSome ↔ (a.cell id).parent.isSome
  parent_lt : ∀ id p, (a.cell id).parent = some p → p < id
  parent_live : ∀ id p, (a.cell id).parent = some p → p = 0 ∨ (a.cell p).parent.isSome
  child_iff : ∀ id p, id ∈ (a.cell p).children ↔ (a.cell id).parent = some p
  nodup : ∀ id, (a.cell id).children.Nodup
  blank : ∀ id, id ≠ 0 → (a.cell id).parent = none → (a.cell id).count = 0

theorem cell_empty (id : Nat) : empty.cell id = .blank := by
  cases id with
  | zero => rfl
  | succ id => exact cell_of_le (Nat.le_add_left 1 id)

theorem tree_empty : Tree empty where
  size_pos := Nat.zero_lt_one
  root_parent := by rw [cell_empty]; rfl
  item_iff id := by rw [cell_empty]; exact Iff.rfl
  parent_lt id p h := by rw [cell_empty] at h; cases h
  parent_live id p h := by rw [cell_empty] at h; cases h
  child_iff id p := by
    rw [cell_empty, cell_empty]
    exact ⟨nofun, nofun⟩
  nodup id := by rw [cell_empty]; exact List.nodup_nil
  blank id _ _ := by rw [cell_empty]; rfl

/-- what the children of a cell count together -/
def below (a : LinkedTree) (id : Nat) : Nat := ((a.cell id).children.map fun k => (a.cell k).count).sum

/-- A cell in the tree counts something, and what its children count fits into that; in the cell `id`
there is `spare` room besides. -/
structure Weighed (a : LinkedTree) (id spare : Nat) : Prop where
  pos : ∀ k, (a.cell k).parent.isSome → 0 < (a.cell k).count
  below_le : ∀ k, a.below k + (if k = id then spare else 0) ≤ (a.cell k).count

theorem weighed_empty : Weighed empty 0 0 where
  pos k h := by rw [cell_empty] at h; cases h
  below_le k := by simp [below, cell_empty, Cell.blank]

theorem Weighed.full (h : a.Weighed id spare) : a.Weighed 0 0 where
  pos := h.pos
  below_le k := by
    have := h.below_le k
    split <;> omega

namespace Recounted

variable (h : Recounted a id n b)
include h

theorem tree (ht : a.Tree) (hlive : id = 0 ∨ (a.cell id).parent.isSome) : b.Tree where
  size_pos := h.size ▸ ht.size_pos
  root_parent := by rw [h.cell]; exact ht.root_parent
  item_iff k := by rw [h.cell]; exact ht.item_iff k
  parent_lt k p hp := ht.parent_lt k p (by rwa [h.cell] at hp)
  parent_live k p hp := by
    rw [h.cell] at hp ⊢
    exact ht.parent_live k p hp
  child_iff k p := by
    rw [h.cell, h.cell]
    exact ht.child_iff k p
  nodup k := by rw [h.cell]; exact ht.nodup k
  blank k hk hnone := by
    rw [h.cell] at hnone ⊢
    have hkid : k ≠ id := by
      rintro rfl
      obtain hzero | hsome := hlive
      · exact hk hzero
      · rw [hnone] at hsome
        cases hsome
    simp only [ht.blank k hk hnone, hkid, if_false]

theorem below_eq (ht : a.Tree) (hn : n = (a.cell id).count + count) (k : Nat) :
    b.below k = a.below k + if id ∈ (a.cell k).children then count else 0 := by
  have hsum : ∀ ids : List Nat, ids.Nodup →
      (ids.map fun k => (b.cell k).count).sum =
        (ids.map fun k => (a.cell k).count).sum + if id ∈ ids then count else 0 := by
    intro ids hids
    induction ids with
    | nil => rfl
    | cons k ids ih =>
      obtain ⟨hk, hids⟩ := List.nodup_cons.1 hids
      rw [List.map_cons, List.sum_cons, List.map_cons, List.sum_cons, ih hids, h.cell]
      by_cases hkid : k = id
      · subst hkid
        simp only [hk, hn, if_true, if_false, List.mem_cons, true_or]
        omega
      · simp only [hkid, Ne.symm hkid, if_false, List.mem_cons, false_or]
        omega
  have hchildren : (b.cell k).children = (a.cell k).children := by rw [h.cell]
  rw [below, hchildren]
  exact hsum _ (ht.nodup k)

/-- A count may be raised at the root, or below a cell with room for it, and makes as much room. -/
theorem weighed (ht : a.Tree) (hw : a.Weighed parent spare) (hn : n = (a.cell id).count + count)
    (hroom : id = 0 ∨ (a.cell id).parent = some parent ∧ spare = count) : b.Weighed id count where
  pos k hk := by
    rw [h.cell] at hk ⊢
    have hpos := hw.pos k hk
    dsimp only
    split
    · next hkid =>
      subst hkid
      omega
    · exact hpos
  below_le k := by
    rw [h.below_eq ht hn, h.cell]
    have hle := hw.below_le k
    have hself : id ∈ (a.cell k).children → k ≠ id := by
      rintro hmem rfl
      exact Nat.lt_irrefl _ (ht.parent_lt k k ((ht.child_iff k k).1 hmem))
    by_cases hmem : id ∈ (a.cell k).children
    · rw [if_pos hmem, if_neg (hself hmem)]
      have hparent := (ht.child_iff id k).1 hmem
      obtain rfl | ⟨hparent', rfl⟩ := hroom
      · rw [ht.root_parent] at hparent
        cases hparent
      · rw [hparent] at hparent'
        cases hparent'
        simpa [hself hmem] using hle
    · rw [if_neg hmem]
      dsimp only
      by_cases hkid : k = id
      · subst hkid
        rw [if_pos rfl, if_pos rfl]
        omega
      · rw [if_neg hkid, if_neg hkid]
        omega

end Recounted

namespace Pushed

variable (h : Pushed a parent item count b)
include h

theorem parent_eq (k : Nat) :
    (b.cell k).parent = if k = a.cells.size then some parent else (a.cell k).parent := by
  split
  · next hk => rw [hk, h.new]
  · next hk => rw [h.old k hk]

theorem item_eq (k : Nat) :
    (b.cell k).item = if k = a.cells.size then some item else (a.cell k).item := by
  split
  · next hk => rw [hk, h.new]
  · next hk => rw [h.old k hk]

theorem count_eq (k : Nat) :
    (b.cell k).count = if k = a.cells.size then count else (a.cell k).count := by
  split
  · next hk => rw [hk, h.new]
  · next hk => rw [h.old k hk]

theorem children_eq (hin : parent < a.cells.size) (k : Nat) :
    (b.cell k).children = (a.cell k).children ++ if k = parent then [a.cells.size] else [] := by
  by_cases hk : k = a.cells.size
  · rw [hk, h.new, cell_of_le (Nat.le_refl _), if_neg (Nat.ne_of_gt hin)]
    rfl
  · rw [h.old k hk]

theorem tree (ht : a.Tree) (hin : parent < a.cells.size)
    (hlive : parent = 0 ∨ (a.cell parent).parent.isSome) : b.Tree where
  size_pos := by rw [h.size]; exact Nat.succ_pos _
  root_parent := by
    rw [h.parent_eq, if_neg (Nat.ne_of_lt ht.size_pos)]
    exact ht.root_parent
  item_iff k := by
    rw [h.item_eq, h.parent_eq]
    split
    · exact Iff.rfl
    · exact ht.item_iff k
  parent_lt k p hp := by
    rw [h.parent_eq] at hp
    split at hp
    · next hk =>
      cases hp
      exact hk ▸ hin
    · exact ht.parent_lt k p hp
  parent_live k p hp := by
    have hp' : p = 0 ∨ (a.cell p).parent.isSome := by
      rw [h.parent_eq] at hp
      split at hp
      · cases hp
        exact hlive
      · exact ht.parent_live k p hp
    refine hp'.imp_right fun hp => ?_
    rw [h.parent_eq]
    split
    · rfl
    · exact hp
  child_iff k p := by
    have hnone : (a.cell a.cells.size).parent = none := by rw [cell_of_le (Nat.le_refl _)]; rfl
    rw [h.children_eq hin, h.parent_eq, List.mem_append, ht.child_iff]
    by_cases hk : k = a.cells.size
    · rw [hk, if_pos rfl, hnone]
      by_cases hp : p = parent
      · simp [hp]
      · simp [hp, Ne.symm hp]
    · rw [if_neg hk]
      split <;> simp [hk]
  nodup k := by
    have hfresh : a.cells.size ∉ (a.cell k).children := by
      rw [ht.child_iff, cell_of_le (Nat.le_refl _)]
      exact nofun
    rw [h.children_eq hin]
    split
    · exact (ht.nodup k).append (List.nodup_singleton _) (by simpa using hfresh)
    · rw [List.append_nil]
      exact ht.nodup k
  blank k hk hnone := by
    rw [h.parent_eq] at hnone
    split at hnone
    · cases hnone
    · next hne =>
      rw [h.count_eq, if_neg hne]
      exact ht.blank k hk hnone

/-- A new child may count what there is room for in the cell above, and has as much room itself. -/
theorem weighed (ht : a.Tree) (hw : a.Weighed parent count) (hin : parent < a.cells.size)
    (hpos : 0 < count) : b.Weighed a.cells.size count where
  pos k hk := by
    rw [h.count_eq]
    rw [h.parent_eq] at hk
    split
    · exact hpos
    · next hne => exact hw.pos k (by rwa [if_neg hne] at hk)
  below_le k := by
    have hsame : ((a.cell k).children.map fun c => (b.cell c).count).sum = a.below k := by
      refine congrArg List.sum (List.map_congr_left fun c hc => ?_)
      have hlt := lt_size_of_parent ((ht.child_iff c k).1 hc)
      rw [h.count_eq, if_neg (Nat.ne_of_lt hlt)]
    have hle := hw.below_le k
    rw [below, h.children_eq hin, List.map_append, List.sum_append, hsame, h.count_eq]
    by_cases hk : k = a.cells.size
    · subst hk
      have hne : a.cells.size ≠ parent := Nat.ne_of_gt hin
      have hzero : a.below a.cells.size = 0 := by rw [below, cell_of_le (Nat.le_refl _)]; rfl
      simp [hne, hzero]
    · by_cases hp : k = parent
      · subst hp
        simpa [hk, h.count_eq] using hle
      · simpa [hk, hp] using hle

end Pushed

theorem replaceFirst_perm {x : Nat} (others : List Nat) {ys : List Nat} (h : x ∈ ys) :
    (x :: replaceFirst x others ys).Perm (others ++ ys) := by
  induction ys with
  | nil => cases h
  | cons y ys ih =>
    unfold replaceFirst
    split
    · next hy =>
      rw [hy]
      exact List.perm_middle.symm
    · next hy =>
      have hys : x ∈ ys := (List.mem_cons.1 h).resolve_left (Ne.symm hy)
      have hrest : (y :: x :: replaceFirst x others ys).Perm (y :: (others ++ ys)) := (ih hys).cons y
      exact (List.Perm.swap ..).trans (hrest.trans List.perm_middle.symm)

namespace Spliced

variable (h : Spliced a id parent b)
include h

theorem parent_eq (ht : a.Tree) (k : Nat) : (b.cell k).parent = if k = id then none else
    if (a.cell k).parent = some id then some parent else (a.cell k).parent := by
  split
  · next hk =>
    rw [hk, h.gone]
    rfl
  · next hk =>
    rw [h.kept k hk]
    simp only [ht.child_iff]

theorem item_eq (k : Nat) : (b.cell k).item = if k = id then none else (a.cell k).item := by
  split
  · next hk =>
    rw [hk, h.gone]
    rfl
  · next hk => rw [h.kept k hk]

theorem count_eq (k : Nat) : (b.cell k).count = if k = id then 0 else (a.cell k).count := by
  split
  · next hk =>
    rw [hk, h.gone]
    rfl
  · next hk => rw [h.kept k hk]

theorem next_eq (k : Nat) : (b.cell k).next = (a.cell k).next := by
  by_cases hk : k = id
  · rw [hk, h.gone]
  · rw [h.kept k hk]

/-- The children of the cell above are its others and those of the cell that was taken out. -/
theorem children_perm (ht : a.Tree) (hparent : (a.cell id).parent = some parent) :
    (id :: (b.cell parent).children).Perm ((a.cell id).children ++ (a.cell parent).children) := by
  have hne : parent ≠ id := Nat.ne_of_lt (ht.parent_lt id parent hparent)
  rw [h.kept parent hne, if_pos rfl]
  exact replaceFirst_perm _ ((ht.child_iff id parent).2 hparent)

theorem children_of_ne {k : Nat} (hk : k ≠ id) (hp : k ≠ parent) :
    (b.cell k).children = (a.cell k).children := by
  rw [h.kept k hk, if_neg hp]

theorem cons_nodup (ht : a.Tree) (hparent : (a.cell id).parent = some parent) :
    (id :: (b.cell parent).children).Nodup := by
  rw [(h.children_perm ht hparent).nodup_iff]
  refine (ht.nodup id).append (ht.nodup parent) fun k hk hk' => ?_
  rw [ht.child_iff] at hk hk'
  have hlt := ht.parent_lt id parent hparent
  rw [hk] at hk'
  cases hk'
  exact Nat.lt_irrefl _ hlt

theorem child_iff (ht : a.Tree) (hparent : (a.cell id).parent = some parent) (k p : Nat) :
    k ∈ (b.cell p).children ↔ (b.cell k).parent = some p := by
  have hne : parent ≠ id := Nat.ne_of_lt (ht.parent_lt id parent hparent)
  rw [h.parent_eq ht]
  by_cases hpid : p = id
  · subst hpid
    rw [h.gone]
    simp only [Cell.blank, List.not_mem_nil, false_iff]
    split
    · exact nofun
    · split <;> simp_all
  by_cases hpp : p = parent
  · subst hpp
    have hnodup := List.nodup_cons.1 (h.cons_nodup ht hparent)
    have hmem : k ∈ id :: (b.cell p).children ↔
        k ∈ (a.cell id).children ++ (a.cell p).children := (h.children_perm ht hparent).mem_iff
    rw [List.mem_cons, List.mem_append, ht.child_iff, ht.child_iff] at hmem
    by_cases hk : k = id
    · subst hk
      simp [hnodup.1]
    · rw [if_neg hk]
      rw [or_iff_right hk] at hmem
      rw [hmem]
      split <;> simp_all
  · rw [h.children_of_ne hpid hpp, ht.child_iff]
    by_cases hk : k = id
    · subst hk
      simp [hparent, Ne.symm hpp]
    · rw [if_neg hk]
      split
      · next hkid =>
        rw [hkid]
        simp [Ne.symm hpid, Ne.symm hpp]
      · exact Iff.rfl

theorem tree (ht : a.Tree) (hparent : (a.cell id).parent = some parent) : b.Tree where
  size_pos := h.size ▸ ht.size_pos
  root_parent := by
    rw [h.parent_eq ht, ht.root_parent]
    simp
  item_iff k := by
    rw [h.item_eq, h.parent_eq ht]
    split
    · exact Iff.rfl
    · rw [ht.item_iff k]
      split
      · next hk => simp [hk]
      · exact Iff.rfl
  parent_lt k p hp := by
    rw [h.parent_eq ht] at hp
    split at hp
    · cases hp
    split at hp
    · next hk =>
      cases hp
      exact Nat.lt_trans (ht.parent_lt id _ hparent) (ht.parent_lt k id hk)
    · exact ht.parent_lt k p hp
  parent_live k p hp := by
    have hlive : p ≠ id ∧ (p = 0 ∨ (a.cell p).parent.isSome) := by
      rw [h.parent_eq ht] at hp
      split at hp
      · cases hp
      split at hp
      · cases hp
        exact ⟨Nat.ne_of_lt (ht.parent_lt id _ hparent), ht.parent_live id _ hparent⟩
      · next hk => exact ⟨fun hpid => hk (hpid ▸ hp), ht.parent_live k p hp⟩
    refine hlive.2.imp_right fun hsome => ?_
    rw [h.parent_eq ht, if_neg hlive.1]
    split
    · rfl
    · exact hsome
  child_iff := h.child_iff ht hparent
  nodup k := by
    by_cases hk : k = id
    · rw [hk, h.gone]
      exact List.nodup_nil
    by_cases hp : k = parent
    · rw [hp]
      exact (List.nodup_cons.1 (h.cons_nodup ht hparent)).2
    · rw [h.children_of_ne hk hp]
      exact ht.nodup k
  blank k hk hnone := by
    rw [h.parent_eq ht] at hnone
    rw [h.count_eq]
    split
    · rfl
    · next hne =>
      rw [if_neg hne] at hnone
      split at hnone
      · cases hnone
      · exact ht.blank k hk hnone

theorem below_le (ht : a.Tree) (hw : a.Weighed 0 0) (hparent : (a.cell id).parent = some parent)
    (k : Nat) : b.below k ≤ a.below k := by
  have hsame : ∀ ids : List Nat, id ∉ ids →
      (ids.map fun c => (b.cell c).count).sum = (ids.map fun c => (a.cell c).count).sum := by
    intro ids hids
    refine congrArg List.sum (List.map_congr_left fun c hc => ?_)
    rw [h.count_eq, if_neg fun hcid : c = id => hids (hcid ▸ hc)]
  by_cases hk : k = id
  · subst hk
    rw [below, h.gone]
    exact Nat.zero_le _
  by_cases hp : k = parent
  · subst hp
    have hnodup := List.nodup_cons.1 (h.cons_nodup ht hparent)
    have hsum := ((h.children_perm ht hparent).map fun c => (a.cell c).count).sum_eq
    rw [List.map_cons, List.sum_cons, List.map_append, List.sum_append, ← hsame _ hnodup.1] at hsum
    have hle := hw.below_le id
    simp only [below, ite_self, Nat.add_zero] at hle hsum ⊢
    omega
  · have hmem : id ∉ (a.cell k).children := by
      rw [ht.child_iff, hparent]
      simpa using Ne.symm hp
    rw [below, h.children_of_ne hk hp, hsame _ hmem, below]

theorem weighed (ht : a.Tree) (hw : a.Weighed 0 0) (hparent : (a.cell id).parent = some parent) :
    b.Weighed 0 0 where
  pos k hk := by
    rw [h.parent_eq ht] at hk
    rw [h.count_eq]
    split at hk
    · cases hk
    · next hne =>
      rw [if_neg hne]
      apply hw.pos k
      split at hk
      · next hkid => rw [hkid]; rfl
      · exact hk
  below_le k := by
    have hle := h.below_le ht hw hparent k
    have hfull := hw.below_le k
    rw [h.count_eq]
    simp only [ite_self, Nat.add_zero] at hfull ⊢
    split
    · next hk =>
      rw [below, hk, h.gone]
      exact Nat.le_refl _
    · omega

end Spliced

end StyleMiner.LinkedTree
