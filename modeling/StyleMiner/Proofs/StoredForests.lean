import StyleMiner.Proofs.ForestIds
import StyleMiner.Proofs.LinkedRuns

/-! Forests in the cells of a linked tree. A forest is stored below a cell when each node lies at the
position that its id says, linked to its parent and to its children. Insertion and splicing of cells are
insertion and removal of nodes then. -/

namespace StyleMiner

/-- a cell without its place in a chain -/
def Cell.unchained (c : Cell) : Cell := { c with next := none }

namespace Forest

variable {f g : Forest} {a b : LinkedTree} {k parent : Nat} {above : List ItemId}

/-- The nodes of a forest lie at their positions, those at its top below `parent`. Of a count there is
what a word keeps of it. -/
def Stored (a : LinkedTree) (parent : Nat) : Forest → Prop
  | nil => True
  | node id item count children siblings =>
    (a.cell id).unchained = ⟨some item, Word.wrap count, some parent, children.tops, none⟩ ∧
      children.Stored a id ∧ siblings.Stored a parent

theorem stored_append : (f.append g).Stored a parent ↔ f.Stored a parent ∧ g.Stored a parent := by
  induction f with
  | nil => simp [append, Stored]
  | node id item count children siblings _ ih => simp only [append, Stored, ih, and_assoc]

namespace Stored

variable (h : f.Stored a parent)
include h

theorem congr (hsame : ∀ k ∈ f.ids, (b.cell k).unchained = (a.cell k).unchained) :
    f.Stored b parent := by
  induction f generalizing parent with
  | nil => trivial
  | node id item count children siblings ihc ihs =>
    simp only [ids, List.forall_mem_cons, List.forall_mem_append] at hsame
    obtain ⟨hid, hchildren, hsiblings⟩ := hsame
    exact ⟨hid.trans h.1, ihc h.2.1 hchildren, ihs h.2.2 hsiblings⟩

theorem cell_node {x : ForestNode} (hx : x ∈ f.nodes parent above) :
    (a.cell x.id).unchained = ⟨some x.item, Word.wrap x.count, some x.parent, x.children, none⟩ := by
  induction f generalizing parent above with
  | nil => cases hx
  | node id item count children siblings ihc ihs =>
    simp only [nodes, List.mem_cons, List.mem_append] at hx
    obtain rfl | hx | hx := hx
    · exact h.1
    · exact ihc h.2.1 hx
    · exact ihs h.2.2 hx

theorem lt_size (hk : k ∈ f.ids) : k < a.cells.size := by
  obtain ⟨x, hx, rfl⟩ := (mem_ids parent []).1 hk
  have hitem : (a.cell x.id).item = some x.item := congrArg Cell.item (h.cell_node hx)
  exact LinkedTree.lt_size_of_item hitem

end Stored

end Forest

namespace LinkedTree

open Forest

variable {f children siblings : Forest} {a b c : LinkedTree} {id k parent count n : Nat}
  {item i : ItemId} {items is : List ItemId} {pre : List Nat}

theorem Recounted.unchained_eq (h : Recounted a id n b) (k : Nat) : (b.cell k).unchained =
    { (a.cell k).unchained with count := if k = id then n else (a.cell k).count } := by
  rw [h.cell]
  rfl

theorem Pushed.unchained_eq (h : Pushed a parent item count b) (hk : k ≠ a.cells.size) :
    (b.cell k).unchained = { (a.cell k).unchained with
      children := (a.cell k).children ++ if k = parent then [a.cells.size] else [] } := by
  rw [h.old k hk]
  rfl

/-- `b` is `a` after items went into the forest `f`, whose top cells are the last below `parent`, behind
`pre`. -/
structure Grown (a : LinkedTree) (count parent : Nat) (items : List ItemId) (pre : List Nat) (f : Forest)
    (b : LinkedTree) : Prop where
  stored : (f.insert count a.cells.size items).Stored b parent
  size : b.cells.size = a.cells.size + f.missing items
  above : (b.cell parent).unchained =
    { (a.cell parent).unchained with children := pre ++ (f.insert count a.cells.size items).tops }
  frame : ∀ k < a.cells.size, k ≠ parent → k ∉ f.ids → (b.cell k).unchained = (a.cell k).unchained

theorem grown_nil_items (hf : f.Stored a parent) (hchildren : (a.cell parent).children = pre ++ f.tops) :
    Grown a count parent [] pre f a where
  stored := by rwa [insert_nil_items]
  size := by rw [missing_nil_items, Nat.add_zero]
  above := by rw [insert_nil_items, ← hchildren]; rfl
  frame k _ _ _ := rfl

theorem grow_path (hfits : count < Word.size) (hc : a.Chained) (hin : parent < a.cells.size)
    (hchildren : ∀ k ∈ (a.cell parent).children, k < a.cells.size)
    (hother : ∀ i ∈ items.head?, ∀ k ∈ (a.cell parent).children, (a.cell k).item ≠ some i) :
    ∃ b, a.insertBelow count parent items = some b ∧
      Grown a count parent items (a.cell parent).children .nil b := by
  induction items generalizing a parent with
  | nil => exact ⟨a, rfl, grown_nil_items trivial (List.append_nil _).symm⟩
  | cons i is ih =>
    have hfind : (a.cell parent).children.find? (fun k => (a.cell k).item = some i) = none := by
      simpa using hother i rfl
    obtain ⟨b, hb, hpushed⟩ := pushChild_ok hin i count fun chain => hc.tail_lt
    have hempty : (b.cell a.cells.size).children = [] := by rw [hpushed.new]
    have hnew : a.cells.size < b.cells.size := by rw [hpushed.size]; exact Nat.lt_succ_self _
    obtain ⟨c, hrun, hgrown⟩ := ih (hpushed.chained hc) hnew
      (by rw [hempty]; exact nofun) (by rw [hempty]; exact fun _ _ => nofun)
    have hne : parent ≠ a.cells.size := Nat.ne_of_lt hin
    have hframe : ∀ k < a.cells.size, (c.cell k).unchained = (b.cell k).unchained := fun k hk =>
      hgrown.frame k (Nat.lt_trans hk hnew) (Nat.ne_of_lt hk) List.not_mem_nil
    refine ⟨c, ?_, ⟨⟨?_, ?_, trivial⟩, ?_, ?_, fun k hk hkp _ => ?_⟩⟩
    · simp only [insertBelow, getElem?_cells hin, find_eq hchildren, hfind, hb, hrun, Option.bind_eq_bind,
        Option.bind_some]
    · rw [hgrown.above, hpushed.new]
      simp only [Forest.insert, hpushed.size, Word.wrap_of_lt hfits]
      rfl
    · have hstored := hgrown.stored
      rwa [hpushed.size] at hstored
    · rw [hgrown.size, hpushed.size]
      simp only [missing, List.length_cons]
      omega
    · rw [hframe parent hin, hpushed.unchained_eq hne, if_pos rfl]
      rfl
    · rw [hframe k hk, hpushed.unchained_eq (Nat.ne_of_lt hk), if_neg hkp, List.append_nil]
      rfl

theorem Grown.pass
    (h : Grown a count parent (i :: is) (pre ++ [id]) siblings b) (hi : item ≠ i)
    (hf : (Forest.node id item n children siblings).Stored a parent)
    (hn : (parent :: (Forest.node id item n children siblings).ids).Nodup) :
    Grown a count parent (i :: is) pre (Forest.node id item n children siblings) b := by
  simp only [ids, List.nodup_cons, List.nodup_append, List.mem_cons, List.mem_append, not_or] at hn
  obtain ⟨⟨hpid, hpc, -⟩, ⟨-, hids⟩, -, -, hdisjoint⟩ := hn
  have hin : ∀ k ∈ id :: children.ids, k < a.cells.size := fun k hk =>
    hf.lt_size (List.mem_append_left siblings.ids hk)
  have hid : (b.cell id).unchained = (a.cell id).unchained :=
    h.frame id (hin id List.mem_cons_self) (Ne.symm hpid) hids
  have hchildren : children.Stored b id := hf.2.1.congr fun k hk =>
    h.frame k (hin k (List.mem_cons_of_mem id hk)) (fun heq => hpc (heq ▸ hk))
      fun hks => hdisjoint k hk k hks rfl
  have hinsert : (Forest.node id item n children siblings).insert count a.cells.size (i :: is) =
      Forest.node id item n children (siblings.insert count a.cells.size (i :: is)) := if_neg hi
  refine ⟨?_, ?_, ?_, fun k hk hkp hkf => ?_⟩
  · rw [hinsert]
    exact ⟨hid.trans hf.1, hchildren, h.stored⟩
  · rw [h.size]
    simp only [missing, hi, if_false]
  · rw [h.above, hinsert, tops, List.append_assoc]
    rfl
  · simp only [ids, List.mem_cons, List.mem_append, not_or] at hkf
    exact h.frame k hk hkp hkf.2.2

theorem Grown.descend
    (hcount : Recounted a id (Word.add (a.cell id).count count) b) (h : Grown b count id is [] children c)
    (hf : (Forest.node id item n children siblings).Stored a parent)
    (hn : (parent :: (Forest.node id item n children siblings).ids).Nodup) (hin : parent < a.cells.size)
    (htops : (a.cell parent).children = pre ++ (Forest.node id item n children siblings).tops) :
    Grown a count parent (item :: is) pre (Forest.node id item n children siblings) c := by
  simp only [ids, List.nodup_cons, List.nodup_append, List.mem_cons, List.mem_append, not_or] at hn
  obtain ⟨⟨hpid, hpc, -⟩, ⟨-, hids⟩, -, -, hdisjoint⟩ := hn
  have hframe : ∀ k < a.cells.size, k ≠ id → k ∉ children.ids →
      (c.cell k).unchained = (a.cell k).unchained := by
    intro k hk hkid hkc
    rw [h.frame k (hcount.size ▸ hk) hkid hkc, hcount.unchained_eq, if_neg hkid]
    rfl
  have hid : (c.cell id).unchained = ⟨some item, Word.wrap (n + count), some parent,
      (children.insert count a.cells.size is).tops, none⟩ := by
    have hn : (a.cell id).count = Word.wrap n := congrArg Cell.count hf.1
    rw [h.above, hcount.unchained_eq, hf.1, if_pos rfl, hn, Word.add_wrap, hcount.size]
    rfl
  have hsiblings : siblings.Stored c parent := hf.2.2.congr fun k hk =>
    hframe k (hf.2.2.lt_size hk) (fun heq => hids (heq ▸ hk)) fun hkc => hdisjoint k hkc k hk rfl
  have hinsert : (Forest.node id item n children siblings).insert count a.cells.size (item :: is) =
      Forest.node id item (n + count) (children.insert count a.cells.size is) siblings := if_pos rfl
  refine ⟨?_, ?_, ?_, fun k hk _ hkf => ?_⟩
  · rw [hinsert]
    exact ⟨hid, hcount.size ▸ h.stored, hsiblings⟩
  · rw [h.size, hcount.size]
    simp only [missing, if_true]
  · rw [hframe parent hin hpid hpc, hinsert, tops]
    exact congrArg (fun ids => { (a.cell parent).unchained with children := ids }) htops
  · simp only [ids, List.mem_cons, List.mem_append, not_or] at hkf
    exact hframe k hk hkf.1 hkf.2.1

theorem find_top (hf : (Forest.node id item n children siblings).Stored a parent)
    (htops : (a.cell parent).children = pre ++ (Forest.node id item n children siblings).tops)
    (hpre : ∀ k ∈ pre, k < a.cells.size) (hother : ∀ k ∈ pre, (a.cell k).item ≠ some item) :
    a.find item (a.cell parent).children = some (some id) := by
  have hchildren : ∀ k ∈ (a.cell parent).children, k < a.cells.size := by
    rw [htops, List.forall_mem_append]
    exact ⟨hpre, fun k hk => hf.lt_size (tops_subset hk)⟩
  have hnone : pre.find? (fun k => (a.cell k).item = some item) = none := by simpa using hother
  have hitem : (a.cell id).item = some item := congrArg Cell.item hf.1
  rw [find_eq hchildren, htops, List.find?_append, hnone, tops,
    List.find?_cons_of_pos (by simpa using hitem)]
  rfl

/-- The walk down through the cells is that down the forest: it goes on below the first child that has the
next item, which is none of those in `pre`. -/
theorem grow_stored (hfits : count < Word.size) (hf : f.Stored a parent) (hn : (parent :: f.ids).Nodup) (hc : a.Chained)
    (hin : parent < a.cells.size) (htops : (a.cell parent).children = pre ++ f.tops)
    (hpre : ∀ k ∈ pre, k < a.cells.size)
    (hother : ∀ i ∈ items.head?, ∀ k ∈ pre, (a.cell k).item ≠ some i) :
    ∃ b, a.insertBelow count parent items = some b ∧ Grown a count parent items pre f b := by
  induction f generalizing a parent pre items with
  | nil =>
    have heq : (a.cell parent).children = pre := htops.trans (List.append_nil pre)
    exact heq ▸ grow_path hfits hc hin (heq ▸ hpre) (heq ▸ hother)
  | node id item n children siblings ihc ihs =>
    cases items with
    | nil => exact ⟨a, rfl, grown_nil_items hf htops⟩
    | cons i is =>
      have hiditem : (a.cell id).item = some item := congrArg Cell.item hf.1
      have hidin := lt_size_of_item hiditem
      have hnall := hn
      simp only [ids, List.nodup_cons, List.nodup_append, List.mem_cons, List.mem_append, not_or] at hn
      obtain ⟨⟨-, -, hps⟩, ⟨hidc, -⟩, hnc, hns, -⟩ := hn
      by_cases hitem : item = i
      · subst hitem
        obtain ⟨b, hb, hcount⟩ := recount_ok hidin count
        have hstored : children.Stored b id := hf.2.1.congr fun k hk => by
          rw [hcount.unchained_eq, if_neg fun heq : k = id => hidc (heq ▸ hk)]
          rfl
        have hbtops : (b.cell id).children = [] ++ children.tops := by
          rw [hcount.cell]
          exact congrArg Cell.children hf.1
        have hempty : ∀ k ∈ ([] : List Nat), k < b.cells.size := fun _ hk => absurd hk List.not_mem_nil
        have hnone : ∀ j ∈ is.head?, ∀ k ∈ ([] : List Nat), (b.cell k).item ≠ some j :=
          fun _ _ _ hk => absurd hk List.not_mem_nil
        obtain ⟨c, hrun, hgrown⟩ := ihc hstored (List.nodup_cons.2 ⟨hidc, hnc⟩) (hcount.chained hc)
          (hcount.size ▸ hidin) hbtops hempty hnone
        refine ⟨c, ?_, hgrown.descend hcount hf hnall hin htops⟩
        simp only [insertBelow, getElem?_cells hin, find_top hf htops hpre (hother item rfl), hb, hrun,
          Option.bind_eq_bind, Option.bind_some]
      · have hpre' : ∀ k ∈ pre ++ [id], k < a.cells.size :=
          List.forall_mem_append.2 ⟨hpre, List.forall_mem_singleton.2 hidin⟩
        have hother' : ∀ j ∈ (i :: is).head?, ∀ k ∈ pre ++ [id], (a.cell k).item ≠ some j := by
          intro j hj
          refine List.forall_mem_append.2 ⟨hother j hj, List.forall_mem_singleton.2 ?_⟩
          rw [hiditem]
          rintro ⟨⟩
          exact hitem (Option.some.inj hj).symm
        obtain ⟨c, hrun, hgrown⟩ := ihs hf.2.2 (List.nodup_cons.2 ⟨hps, hns⟩) hc hin
          (htops.trans (List.append_cons ..)) hpre' hother'
        exact ⟨c, hrun, hgrown.pass hitem hf hnall⟩

theorem replaceFirst_of_notMem {x : Nat} {others ys : List Nat} (h : x ∉ ys) :
    replaceFirst x others ys = ys := by
  induction ys with
  | nil => rfl
  | cons y ys ih =>
    rw [List.mem_cons, not_or] at h
    rw [replaceFirst, if_neg (Ne.symm h.1), ih h.2]

theorem Spliced.children_eq (h : Spliced a id parent b) (ht : a.Tree)
    (hparent : (a.cell id).parent = some parent) (hk : k ≠ id) :
    (b.cell k).children = replaceFirst id (a.cell id).children (a.cell k).children := by
  rw [h.kept k hk]
  dsimp only
  split
  · rfl
  · next hkp =>
    refine (replaceFirst_of_notMem ?_).symm
    rw [ht.child_iff, hparent]
    exact fun heq => hkp (Option.some.inj heq).symm

theorem Spliced.unchained_eq (h : Spliced a id parent b) (ht : a.Tree)
    (hparent : (a.cell id).parent = some parent) (hk : k ≠ id) (hkp : (a.cell k).parent ≠ some id) :
    (b.cell k).unchained = { (a.cell k).unchained with
      children := replaceFirst id (a.cell id).children (a.cell k).children } := by
  have hsame : (b.cell k).parent = (a.cell k).parent := by rw [h.parent_eq ht, if_neg hk, if_neg hkp]
  rw [Cell.unchained, h.children_eq ht hparent hk, hsame, h.item_eq, if_neg hk, h.count_eq, if_neg hk]
  rfl

theorem tops_select_ne (hf : f.Stored a parent) (hn : f.ids.Nodup) :
    (f.select fun k _ => k ≠ id).tops = replaceFirst id (a.cell id).children f.tops := by
  induction f with
  | nil => rfl
  | node k item count children siblings _ ih =>
    simp only [ids, List.nodup_cons, List.nodup_append, List.mem_append, not_or] at hn
    obtain ⟨⟨hkc, hks⟩, -, hns, -⟩ := hn
    by_cases hk : k = id
    · subst hk
      have hchildren : (a.cell k).children = children.tops := congrArg Cell.children hf.1
      rw [select_of_eq_false (decide_eq_false (not_not_intro rfl)), select_ne_of_notMem hkc,
        select_ne_of_notMem hks, tops_append, tops, replaceFirst, if_pos rfl, hchildren]
    · rw [select_of_eq_true (decide_eq_true hk), tops, tops, replaceFirst, if_neg hk, ih hf.2.2 hns]

namespace Spliced

variable (h : Spliced a id parent b) (ht : a.Tree) (hparent : (a.cell id).parent = some parent)
include h ht hparent

theorem stored_of_notMem {p : Nat} (hf : f.Stored a p) (hp : p ≠ id) (hid : id ∉ f.ids)
    (hparentf : parent ∉ f.ids) : f.Stored b p := by
  induction f generalizing p with
  | nil => trivial
  | node k item count children siblings ihc ihs =>
    simp only [ids, List.mem_cons, List.mem_append, not_or] at hid hparentf
    have hkp : (a.cell k).parent = some p := congrArg Cell.parent hf.1
    have hcell : (b.cell k).unchained = (a.cell k).unchained := by
      rw [h.unchained_eq ht hparent (Ne.symm hid.1)
        (by rw [hkp]; exact fun heq => hp (Option.some.inj heq)),
        ← h.children_eq ht hparent (Ne.symm hid.1), h.children_of_ne (Ne.symm hid.1) (Ne.symm hparentf.1)]
      rfl
    exact ⟨hcell.trans hf.1, ihc hf.2.1 (Ne.symm hid.1) hid.2.1 hparentf.2.1,
      ihs hf.2.2 hp hid.2.2 hparentf.2.2⟩

theorem stored_below (hf : f.Stored a id) (hid : id ∉ f.ids) (hparentf : parent ∉ f.ids) :
    f.Stored b parent := by
  induction f with
  | nil => trivial
  | node k item count children siblings _ ih =>
    simp only [ids, List.mem_cons, List.mem_append, not_or] at hid hparentf
    have hk : k ≠ id := Ne.symm hid.1
    have hcell : (b.cell k).unchained = { (a.cell k).unchained with parent := some parent } := by
      have hkparent : (a.cell k).parent = some id := congrArg Cell.parent hf.1
      have hmoved : (b.cell k).parent = some parent := by
        rw [h.parent_eq ht, if_neg hk, if_pos hkparent]
      rw [Cell.unchained, hmoved, h.children_of_ne hk (Ne.symm hparentf.1), h.item_eq, if_neg hk,
        h.count_eq, if_neg hk]
      rfl
    refine ⟨?_, ?_, ih hf.2.2 hid.2.2 hparentf.2.2⟩
    · rw [hcell, hf.1]
    · exact h.stored_of_notMem ht hparent hf.2.1 hk hid.2.1 hparentf.2.1

/-- The cells hold the forest without the node. -/
theorem stored_select {p : Nat} (hf : f.Stored a p) (hn : (p :: f.ids).Nodup) (hp : p ≠ id) :
    (f.select fun k _ => k ≠ id).Stored b p := by
  induction f generalizing p with
  | nil => trivial
  | node k item count children siblings ihc ihs =>
    simp only [ids, List.nodup_cons, List.nodup_append, List.mem_cons, List.mem_append, not_or] at hn
    obtain ⟨⟨-, hpc, hps⟩, ⟨hkc, hks⟩, hnc, hns, -⟩ := hn
    have hkp : (a.cell k).parent = some p := congrArg Cell.parent hf.1
    have hsiblings := ihs hf.2.2 (List.nodup_cons.2 ⟨hps, hns⟩) hp
    by_cases hk : k = id
    · subst hk
      obtain rfl : parent = p := Option.some.inj (hparent.symm.trans hkp)
      rw [select_of_eq_false (decide_eq_false (not_not_intro rfl)), select_ne_of_notMem hkc]
      exact stored_append.2 ⟨h.stored_below ht hparent hf.2.1 hkc hpc, hsiblings⟩
    · have hchildren : (a.cell k).children = children.tops := congrArg Cell.children hf.1
      rw [select_of_eq_true (decide_eq_true hk)]
      refine ⟨?_, ihc hf.2.1 (List.nodup_cons.2 ⟨hkc, hnc⟩) hk, hsiblings⟩
      rw [h.unchained_eq ht hparent hk (by rw [hkp]; exact fun heq => hp (Option.some.inj heq)), hf.1,
        hchildren, tops_select_ne hf.2.1 hnc]

end Spliced

end LinkedTree
end StyleMiner
