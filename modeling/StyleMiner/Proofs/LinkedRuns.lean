import StyleMiner.Proofs.LinkedChains
import StyleMiner.Proofs.TreeRefinement

/-! Runs of insertions and prunings on a linked tree. Each step has a result and keeps the links and the
chains in order. It keeps the counts in order as well while the root's count, which is the greatest, still
fits into a word. -/

namespace StyleMiner.LinkedTree

variable {a b c : LinkedTree} {id current : Nat} {item : ItemId} {count minimum : Nat} {ids : List Nat}

/-- links and chains that are in order -/
structure Sound (a : LinkedTree) : Prop where
  tree : a.Tree
  chained : a.Chained

theorem sound_empty : Sound empty := ⟨tree_empty, chained_empty⟩

/-- What is no node in `a` is none in `b`. -/
structure Keeps (a b : LinkedTree) : Prop where
  size_le : a.cells.size ≤ b.cells.size
  item_none : ∀ k < a.cells.size, (a.cell k).item = none → (b.cell k).item = none

theorem Keeps.refl (a : LinkedTree) : a.Keeps a := ⟨Nat.le_refl _, fun _ _ h => h⟩

theorem Keeps.trans (hab : a.Keeps b) (hbc : b.Keeps c) : a.Keeps c where
  size_le := Nat.le_trans hab.size_le hbc.size_le
  item_none k hk h := hbc.item_none k (Nat.lt_of_lt_of_le hk hab.size_le) (hab.item_none k hk h)

theorem Recounted.keeps (h : Recounted a id count b) : a.Keeps b where
  size_le := Nat.le_of_eq h.size.symm
  item_none k _ hk := by rw [h.cell]; exact hk

theorem Pushed.keeps (h : Pushed a current item count b) : a.Keeps b where
  size_le := by rw [h.size]; exact Nat.le_succ _
  item_none k hlt hk := by rw [h.item_eq, if_neg (Nat.ne_of_lt hlt)]; exact hk

/-- From `a` to `b` the root counts `count` more, and the counts stay in order, unless a word is too small. -/
def Weighs (a : LinkedTree) (count : Nat) (b : LinkedTree) : Prop :=
  (a.cell 0).count + count < Word.size → a.Weighed 0 0 →
    b.Weighed 0 0 ∧ (b.cell 0).count = (a.cell 0).count + count

theorem Weighs.refl (a : LinkedTree) : a.Weighs 0 a := fun _ hw => ⟨hw, rfl⟩

theorem Weighs.trans {m n : Nat} (hab : a.Weighs m b) (hbc : b.Weighs n c) : a.Weighs (m + n) c := by
  intro hfits hw
  obtain ⟨hbw, hbroot⟩ := hab (by omega) hw
  obtain ⟨hcw, hcroot⟩ := hbc (by omega) hbw
  exact ⟨hcw, by omega⟩

theorem find_eq (h : ∀ id ∈ ids, id < a.cells.size) :
    a.find item ids = some (ids.find? fun id => (a.cell id).item = some item) := by
  induction ids with
  | nil => rfl
  | cons id ids ih =>
    obtain ⟨hid, hids⟩ := List.forall_mem_cons.1 h
    simp only [find, getElem?_cells hid, Option.bind_eq_bind, Option.bind_some, ih hids]
    by_cases hitem : (a.cell id).item = some item
    · rw [if_pos hitem, List.find?_cons_of_pos (by simpa using hitem)]
    · rw [if_neg hitem, List.find?_cons_of_neg (by simpa using hitem)]

theorem insertBelow_ok (items : List ItemId) (count : Nat) (ht : a.Tree) (hc : a.Chained)
    (hin : current < a.cells.size) (hlive : current = 0 ∨ (a.cell current).parent.isSome) :
    ∃ b, a.insertBelow count current items = some b ∧ b.Sound ∧ a.Keeps b ∧
      (0 < count → (a.cell current).count < Word.size → a.Weighed current count →
        b.Weighed 0 0 ∧ (b.cell 0).count = (a.cell 0).count) := by
  induction items generalizing a current with
  | nil => exact ⟨a, rfl, ⟨ht, hc⟩, .refl a, fun _ _ hw => ⟨hw.full, rfl⟩⟩
  | cons item items ih =>
    have hchildren : ∀ k ∈ (a.cell current).children, k < a.cells.size := fun k hk =>
      lt_size_of_parent ((ht.child_iff k current).1 hk)
    simp only [insertBelow, getElem?_cells hin, find_eq hchildren, Option.bind_eq_bind, Option.bind_some]
    cases hfind : (a.cell current).children.find? fun k => (a.cell k).item = some item with
    | some child =>
      have hmem := List.mem_of_find?_eq_some hfind
      have hparent := (ht.child_iff child current).1 hmem
      have hchild := lt_size_of_parent hparent
      obtain ⟨b, hb, hcount⟩ := recount_ok hchild count
      have hlive' : (b.cell child).parent.isSome := by
        rw [hcount.cell, hparent]
        rfl
      obtain ⟨c, hrun, hsound, hkeeps, hweighs⟩ := ih (hcount.tree ht (.inr (by rw [hparent]; rfl)))
        (hcount.chained hc) (hcount.size ▸ hchild) (.inr hlive')
      refine ⟨c, ?_, hsound, hcount.keeps.trans hkeeps, fun hpos hfits hw => ?_⟩
      · simp only [hb, Option.bind_some, hrun]
      -- what is below `current` fits into it, and there is room for `count` besides
      · have hle : (a.cell child).count ≤ a.below current :=
          List.le_sum_of_mem (List.mem_map_of_mem hmem)
        have hroom := hw.below_le current
        rw [if_pos rfl] at hroom
        have hsum := Word.add_of_lt (show (a.cell child).count + count < Word.size by omega)
        have hne : 0 ≠ child := by
          rintro rfl
          rw [ht.root_parent] at hparent
          cases hparent
        have hself : (b.cell child).count = (a.cell child).count + count := by
          rw [hcount.cell, if_pos rfl, hsum]
        obtain ⟨hcw, hroot⟩ := hweighs hpos (by omega) (hcount.weighed ht hw hsum (.inr ⟨hparent, rfl⟩))
        exact ⟨hcw, by rw [hroot, hcount.cell, if_neg hne]⟩
    | none =>
      obtain ⟨b, hb, hpushed⟩ := pushChild_ok hin item count fun chain => hc.tail_lt
      have hlive' : (b.cell a.cells.size).parent.isSome := by
        rw [hpushed.new]
        rfl
      obtain ⟨c, hrun, hsound, hkeeps, hweighs⟩ := ih (hpushed.tree ht hin hlive) (hpushed.chained hc)
        (by rw [hpushed.size]; omega) (.inr hlive')
      refine ⟨c, ?_, hsound, hpushed.keeps.trans hkeeps, fun hpos hfits hw => ?_⟩
      · simp only [hb, Option.bind_some, hrun]
      · have hroom := hw.below_le current
        rw [if_pos rfl] at hroom
        have hself : (b.cell a.cells.size).count = count := by rw [hpushed.new]
        obtain ⟨hcw, hroot⟩ := hweighs hpos (by omega) (hpushed.weighed ht hw hin hpos)
        exact ⟨hcw, by rw [hroot, hpushed.count_eq, if_neg (Nat.ne_of_lt ht.size_pos)]⟩

namespace Sound

variable (h : a.Sound)
include h

theorem insert_ok (items : List ItemId) (count : Nat) :
    ∃ b, a.insert items count = some b ∧ b.Sound ∧ a.Keeps b ∧ a.Weighs count b := by
  unfold insert
  split
  · next hcount => exact ⟨a, rfl, h, .refl a, hcount ▸ .refl a⟩
  · next hpos =>
    obtain ⟨b, hb, hcount⟩ := recount_ok h.tree.size_pos count
    obtain ⟨c, hrun, hsound, hkeeps, hweighs⟩ := insertBelow_ok items count
      (hcount.tree h.tree (.inl rfl)) (hcount.chained h.chained) (hcount.size ▸ h.tree.size_pos) (.inl rfl)
    refine ⟨c, ?_, hsound, hcount.keeps.trans hkeeps, fun hfits hw => ?_⟩
    · simp only [hb, Option.bind_eq_bind, Option.bind_some, hrun]
    · have hsum := Word.add_of_lt hfits
      have hself : (b.cell 0).count = (a.cell 0).count + count := by rw [hcount.cell, if_pos rfl, hsum]
      rw [← hself] at hfits ⊢
      exact hweighs (Nat.pos_of_ne_zero hpos) hfits (hcount.weighed h.tree hw hsum (.inl rfl))

end Sound

/-- `b` is `a` without the cells that are `gone`; the others keep their items and their counts. -/
structure Without (a : LinkedTree) (gone : Nat → Prop) (b : LinkedTree) : Prop where
  size : b.cells.size = a.cells.size
  item_gone : ∀ k, gone k → (b.cell k).item = none
  item_kept : ∀ k, ¬ gone k → (b.cell k).item = (a.cell k).item
  count_kept : ∀ k, ¬ gone k → (b.cell k).count = (a.cell k).count

theorem Without.keeps {gone : Nat → Prop} (h : Without a gone b) : a.Keeps b where
  size_le := Nat.le_of_eq h.size.symm
  item_none k _ hk := by
    by_cases hgone : gone k
    · exact h.item_gone k hgone
    · rw [h.item_kept k hgone, hk]

theorem Without.trans {gone gone' : Nat → Prop} (hab : Without a gone b) (hbc : Without b gone' c) :
    Without a (fun k => gone k ∨ gone' k) c where
  size := hbc.size.trans hab.size
  item_gone k hk := by
    by_cases hgone' : gone' k
    · exact hbc.item_gone k hgone'
    · rw [hbc.item_kept k hgone', hab.item_gone k (hk.resolve_right hgone')]
  item_kept k hk := by
    rw [not_or] at hk
    rw [hbc.item_kept k hk.2, hab.item_kept k hk.1]
  count_kept k hk := by
    rw [not_or] at hk
    rw [hbc.count_kept k hk.2, hab.count_kept k hk.1]

theorem Without.congr {gone gone' : Nat → Prop} (h : Without a gone b) (hgone : ∀ k, gone k ↔ gone' k) :
    Without a gone' b := by
  rwa [← show gone = gone' from funext fun k => propext (hgone k)]

theorem Spliced.without {parent : Nat} (h : Spliced a id parent b) : Without a (· = id) b where
  size := h.size
  item_gone k hk := by rw [h.item_eq, if_pos hk]
  item_kept k hk := by rw [h.item_eq, if_neg hk]
  count_kept k hk := by rw [h.count_eq, if_neg hk]

/-- A cell with an item can be taken out. -/
theorem Tree.splice_ok (ht : a.Tree) (hitem : (a.cell id).item = some item) :
    ∃ b parent, a.splice id = some b ∧ (a.cell id).parent = some parent ∧ Spliced a id parent b := by
  obtain ⟨parent, hparent⟩ : ∃ parent, (a.cell id).parent = some parent := by
    rw [← Option.isSome_iff_exists, ← ht.item_iff, hitem]
    rfl
  have hlt := ht.parent_lt id parent hparent
  have hin : parent < a.cells.size := Nat.lt_trans hlt (lt_size_of_parent hparent)
  obtain ⟨b, hb, hs⟩ := LinkedTree.splice_ok hparent hin (Nat.ne_of_lt hlt)
    fun k hk => lt_size_of_parent ((ht.child_iff k id).1 hk)
  exact ⟨b, parent, hb, hparent, hs⟩

theorem spliceAll_ok (ht : a.Tree) (hids : ids.Nodup) (hitem : ∀ k ∈ ids, (a.cell k).item = some item) :
    ∃ b, ids.foldlM splice a = some b ∧ b.Tree ∧ (a.Weighed 0 0 → b.Weighed 0 0) ∧
      b.header = a.header ∧ Without a (· ∈ ids) b ∧ ∀ i ≠ item, ∀ js, a.ChainOf i js → b.ChainOf i js := by
  induction ids generalizing a with
  | nil =>
    refine ⟨a, rfl, ht, id, rfl, ⟨rfl, nofun, fun _ _ => rfl, fun _ _ => rfl⟩, fun _ _ _ h => h⟩
  | cons id ids ih =>
    obtain ⟨hfirst, hrest⟩ := List.forall_mem_cons.1 hitem
    obtain ⟨hid, hids⟩ := List.nodup_cons.1 hids
    obtain ⟨b, parent, hb, hparent, hs⟩ := ht.splice_ok hfirst
    have hrest' : ∀ k ∈ ids, (b.cell k).item = some item := by
      intro k hk
      rw [hs.item_eq, if_neg fun h : k = id => hid (h ▸ hk)]
      exact hrest k hk
    obtain ⟨c, hc, hct, hcw, hheader, hwithout, hchains⟩ :=
      ih (hs.tree ht hparent) hids hrest'
    refine ⟨c, ?_, hct, fun hw => hcw (hs.weighed ht hw hparent), hheader.trans hs.header, ?_,
      fun i hi js hjs => ?_⟩
    · rw [List.foldlM_cons, hb]
      exact hc
    · exact (hs.without.trans hwithout).congr fun k => List.mem_cons.symm
    · refine hchains i hi js (hjs.spliced hs ?_)
      rw [hfirst]
      exact fun h => hi (Option.some.inj h).symm

theorem Sound.removeItem_ok (h : a.Sound) (item : ItemId) :
    ∃ b, a.removeItem item = some b ∧ b.Sound ∧ (a.Weighed 0 0 → b.Weighed 0 0) ∧
      Without a (fun k => (a.cell k).item = some item) b := by
  obtain ⟨ids, hids⟩ := h.chained item
  obtain ⟨b, hb, ht, hw, hheader, hwithout, hchains⟩ :=
    spliceAll_ok h.tree hids.nodup fun k => (hids.mem_iff k).1
  refine ⟨{ b with header := b.header.erase item }, ?_, ⟨?_, fun i => ?_⟩, fun h => { hw h with }, ?_⟩
  · unfold removeItem
    simp only [hids.occurrences_eq, hb, Option.bind_eq_bind, Option.bind_some]
  · exact { ht with }
  · by_cases hi : i = item
    · subst hi
      refine ⟨[], ⟨.nil, fun k => ?_, ?_, ?_⟩⟩
      · rw [← show (b.cell k).item = ((⟨b.cells, b.header.erase i⟩ : LinkedTree).cell k).item from rfl]
        by_cases hk : k ∈ ids
        · rw [hwithout.item_gone k hk]
          simp
        · rw [hwithout.item_kept k hk, ← hids.mem_iff]
          simp [hk]
      · simp [Threads]
      · simp
    · obtain ⟨js, hjs⟩ := h.chained i
      have hb := hchains i hi js hjs
      have hheader : (b.header.erase item)[i]? = b.header[i]? := by
        simp [Std.TreeMap.getElem?_erase, Ne.symm hi]
      refine ⟨js, ⟨hb.ascending, hb.mem_iff, ?_, ?_⟩⟩
      · rw [hheader]
        exact hb.threads.congr fun _ _ => rfl
      · rw [hheader]
        exact hb.tail
  · exact { hwithout.congr hids.mem_iff with }

theorem mapM_some {α β : Type} {f : α → Option β} {g : α → β} {xs : List α}
    (h : ∀ x ∈ xs, f x = some (g x)) : xs.mapM f = some (xs.map g) := by
  induction xs with
  | nil => rfl
  | cons x xs ih =>
    obtain ⟨hx, hxs⟩ := List.forall_mem_cons.1 h
    rw [List.mapM_cons, hx, ih hxs]
    rfl

theorem filterM_some {α : Type} {f : α → Option Bool} {g : α → Bool} {xs : List α}
    (h : ∀ x ∈ xs, f x = some (g x)) : xs.filterM f = some (xs.filter g) := by
  suffices haux : ∀ acc, List.filterAuxM f xs acc = some ((xs.filter g).reverse ++ acc) by
    unfold List.filterM
    rw [haux]
    simp
  induction xs with
  | nil => exact fun _ => rfl
  | cons x xs ih =>
    intro acc
    obtain ⟨hx, hxs⟩ := List.forall_mem_cons.1 h
    simp only [List.filterAuxM, hx, Option.bind_eq_bind, Option.bind_some, ih hxs]
    cases hg : g x <;> simp [hg]

theorem ChainOf.itemSupport_eq (h : a.ChainOf item ids) :
    a.itemSupport item = some ((ids.map fun id => (a.cell id).count).foldr Word.add 0) := by
  have hcounts : (ids.mapM fun id => (·.count) <$> a.cells[id]?) =
      some (ids.map fun id => (a.cell id).count) :=
    mapM_some fun id hid => by rw [getElem?_cells (h.lt_size hid)]; rfl
  unfold itemSupport
  simp only [h.occurrences_eq, hcounts, Option.bind_eq_bind, Option.bind_some]

theorem Sound.infrequent_ok (h : a.Sound) (minimum : Nat) : ∃ items, a.infrequent minimum = some items ∧
    ∀ item, item ∈ items ↔ item ∈ a.header ∧ ∃ n < minimum, a.itemSupport item = some n := by
  have hsupport : ∀ item, a.itemSupport item = some ((a.itemSupport item).getD 0) := by
    intro item
    obtain ⟨ids, hids⟩ := h.chained item
    rw [hids.itemSupport_eq]
    rfl
  refine ⟨a.header.keys.filter fun item => (a.itemSupport item).getD 0 < minimum, ?_, fun item => ?_⟩
  · refine filterM_some fun item _ => ?_
    rw [hsupport item]
    rfl
  · rw [List.mem_filter, Std.TreeMap.mem_keys, hsupport item]
    simp

theorem Sound.removeAll_ok (h : a.Sound) (items : List ItemId) :
    ∃ b, items.foldlM removeItem a = some b ∧ b.Sound ∧ (a.Weighed 0 0 → b.Weighed 0 0) ∧
      Without a (fun k => ∃ item ∈ items, (a.cell k).item = some item) b := by
  induction items generalizing a with
  | nil => exact ⟨a, rfl, h, id, ⟨rfl, nofun, fun _ _ => rfl, fun _ _ => rfl⟩⟩
  | cons item items ih =>
    obtain ⟨b, hb, hsound, hw, hwithout⟩ := h.removeItem_ok item
    obtain ⟨c, hc, hcsound, hcw, hcwithout⟩ := ih hsound
    refine ⟨c, ?_, hcsound, fun h => hcw (hw h), (hwithout.trans hcwithout).congr fun k => ?_⟩
    · rw [List.foldlM_cons, hb]
      exact hc
    · rw [List.exists_mem_cons_iff]
      by_cases hk : (a.cell k).item = some item
      · simp [hk]
      · simp [hk, hwithout.item_kept k hk]

/-- Pruning takes out the cells of the items that too few transactions have, and no others. -/
theorem Sound.prune_ok (h : a.Sound) (minimum : Nat) :
    ∃ b, a.prune minimum = some b ∧ b.Sound ∧ (a.Weighed 0 0 → b.Weighed 0 0) ∧ Without a
      (fun k => ∃ item, (a.cell k).item = some item ∧ ∃ n < minimum, a.itemSupport item = some n) b := by
  obtain ⟨items, hitems, hmem⟩ := h.infrequent_ok minimum
  obtain ⟨b, hb, hsound, hw, hwithout⟩ := h.removeAll_ok items
  refine ⟨b, ?_, hsound, hw, hwithout.congr fun k => ?_⟩
  · unfold prune
    simp only [hitems, hb, Option.bind_eq_bind, Option.bind_some]
  · simp only [hmem]
    constructor
    · rintro ⟨item, ⟨-, hsupport⟩, hitem⟩
      exact ⟨item, hitem, hsupport⟩
    · rintro ⟨item, hitem, hsupport⟩
      obtain ⟨ids, hids⟩ := h.chained item
      have hk := (hids.mem_iff k).2 hitem
      exact ⟨item, ⟨hids.mem_header.2 (List.ne_nil_of_mem hk), hsupport⟩, hitem⟩

def step (a : LinkedTree) : TreeStep → Option LinkedTree
  | .insert items count => a.insert items count
  | .prune minimum => a.prune minimum

/-- the tree after a run from the empty one on -/
def run (steps : List TreeStep) : Option LinkedTree := steps.foldlM step empty

/-- The root carries no item, so no pruning takes it out. -/
theorem Sound.root_item (h : a.Sound) : (a.cell 0).item = none := by
  rw [← Option.not_isSome_iff_eq_none, h.tree.item_iff, h.tree.root_parent]
  simp

theorem Sound.step_ok (h : a.Sound) (s : TreeStep) :
    ∃ b, a.step s = some b ∧ b.Sound ∧ a.Keeps b ∧ a.Weighs s.count b := by
  cases s with
  | insert items count => exact h.insert_ok items count
  | prune minimum =>
    obtain ⟨b, hb, hsound, hw, hwithout⟩ := h.prune_ok minimum
    have hroot := hwithout.count_kept 0 fun ⟨item, hitem, _⟩ => by
      rw [h.root_item] at hitem
      cases hitem
    exact ⟨b, hb, hsound, hwithout.keeps, fun _ h => ⟨hw h, hroot⟩⟩

theorem Sound.foldlM_ok (h : a.Sound) (steps : List TreeStep) :
    ∃ b, steps.foldlM step a = some b ∧ b.Sound ∧ a.Keeps b ∧ a.Weighs (steps.map (·.count)).sum b := by
  induction steps generalizing a with
  | nil => exact ⟨a, rfl, h, .refl a, .refl a⟩
  | cons s steps ih =>
    obtain ⟨b, hb, hsound, hkeeps, hweighs⟩ := h.step_ok s
    obtain ⟨c, hc, hcsound, hckeeps, hcweighs⟩ := ih hsound
    refine ⟨c, ?_, hcsound, hkeeps.trans hckeeps, ?_⟩
    · rw [List.foldlM_cons, hb]
      exact hc
    · rw [List.map_cons, List.sum_cons]
      exact hweighs.trans hcweighs

/-- The counts are in order after a run if those of all its insertions add up to a word. -/
theorem run_ok (steps : List TreeStep) : ∃ a, run steps = some a ∧ a.Sound ∧
    ((steps.map (·.count)).sum < Word.size → a.Weighed 0 0) := by
  obtain ⟨a, ha, hsound, -, hweighs⟩ := sound_empty.foldlM_ok steps
  have hroot : (empty.cell 0).count = 0 := by rw [cell_empty]; rfl
  exact ⟨a, ha, hsound, fun hfits => (hweighs (by omega) weighed_empty).1⟩

end StyleMiner.LinkedTree
