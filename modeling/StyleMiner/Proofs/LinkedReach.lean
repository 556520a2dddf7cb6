import StyleMiner.Proofs.LinkedRuns

/-! What can be reached in a linked tree after any run: the cells that carry items, each once among the
children of its parent and once in the chain of its item. What was pruned stays out of reach. The counts fit
into each other while a word holds the sum of all that were inserted; where it does not, they need not. -/

namespace StyleMiner.LinkedTree

variable {a b : LinkedTree} {k : Nat} {item : ItemId}

/-- The children lead to a cell from the root. -/
inductive Reachable (a : LinkedTree) : Nat → Prop where
  | root : a.Reachable 0
  | child {id k : Nat} {cell : Cell} (hid : a.Reachable id) (hcell : a.cells[id]? = some cell)
    (hk : k ∈ cell.children) : a.Reachable k

/-- the cell at a position carries an item -/
def Carries (a : LinkedTree) (k : Nat) (item : ItemId) : Prop :=
  ∃ cell, a.cells[k]? = some cell ∧ cell.item = some item

theorem carries_iff : a.Carries k item ↔ (a.cell k).item = some item := by
  constructor
  · rintro ⟨cell, hcell, hitem⟩
    rwa [LinkedTree.cell, hcell]
  · exact fun hitem => ⟨_, getElem?_cells (lt_size_of_item hitem), hitem⟩

/-- The links of a tree agree, and every walk along them ends. -/
structure WellLinked (a : LinkedTree) : Prop where
  parent : ∀ k, a.Reachable k → k ≠ 0 → ∃ cell p, a.cells[k]? = some cell ∧ cell.item.isSome ∧
    cell.parent = some p ∧ p < k ∧ a.Reachable p ∧
      ∀ q, a.Reachable q → ∃ above, a.cells[q]? = some above ∧
        above.children.count k = if q = p then 1 else 0
  chain : ∀ item, ∃ ids, a.occurrences item = some ids ∧ ids.Pairwise (· < ·) ∧
    (∀ k, k ∈ ids ↔ a.Reachable k ∧ a.Carries k item) ∧
      (item ∈ a.header ↔ ∃ k, a.Reachable k ∧ a.Carries k item)
  gone : ∀ k cell, a.cells[k]? = some cell → ¬ a.Reachable k →
    cell.item = none ∧ cell.parent = none ∧ cell.count = 0 ∧ cell.children = []
  path : ∃ single path, a.hasSinglePath = some single ∧ a.singlePath? = some path ∧ path.isSome = single
  climb : ∀ k cell, a.Reachable k → a.cells[k]? = some cell → ∃ ids, a.ancestors cell = some ids ∧
    (k :: ids).Pairwise (· > ·) ∧ (k :: ids).getLast? = some 0

/-- Each cell counts something and as much as its children together, so along a path the counts fall. -/
structure WellCounted (a : LinkedTree) : Prop where
  count : ∀ k, a.Reachable k → ∃ cell counts, a.cells[k]? = some cell ∧ (k ≠ 0 → 0 < cell.count) ∧
    (cell.children.mapM fun c => (·.count) <$> a.cells[c]?) = some counts ∧ counts.sum ≤ cell.count
  path : ∃ path, a.singlePath? = some path ∧ ∀ steps ∈ path, (steps.map (·.2)).Pairwise (· ≥ ·)

namespace Sound

variable (h : a.Sound)
include h

theorem reachable_of_parent (hk : (a.cell k).parent.isSome) : a.Reachable k := by
  induction k using Nat.strong_induction_on with
  | _ k ih =>
    obtain ⟨p, hp⟩ := Option.isSome_iff_exists.1 hk
    have hlt := h.tree.parent_lt k p hp
    have hreach : a.Reachable p := by
      obtain rfl | hp := h.tree.parent_live k p hp
      · exact .root
      · exact ih p hlt hp
    exact hreach.child (getElem?_cells (Nat.lt_trans hlt (lt_size_of_parent hp)))
      ((h.tree.child_iff k p).2 hp)

/-- Apart from the root it is the cells with a parent that can be reached. -/
theorem reachable_iff : a.Reachable k ↔ k = 0 ∨ (a.cell k).parent.isSome := by
  constructor
  · intro hk
    cases hk with
    | root => exact .inl rfl
    | @child id _ cell _ hcell hk =>
      have hmem : k ∈ (a.cell id).children := by rwa [LinkedTree.cell, hcell]
      rw [(h.tree.child_iff k id).1 hmem]
      exact .inr rfl
  · rintro (rfl | hk)
    · exact .root
    · exact h.reachable_of_parent hk

theorem lt_size (hk : a.Reachable k) : k < a.cells.size := by
  obtain rfl | hk := h.reachable_iff.1 hk
  · exact h.tree.size_pos
  · obtain ⟨p, hp⟩ := Option.isSome_iff_exists.1 hk
    exact lt_size_of_parent hp

theorem reachable_of_item (hitem : (a.cell k).item = some item) : a.Reachable k := by
  apply h.reachable_of_parent
  rw [← h.tree.item_iff, hitem]
  rfl

theorem walk_parent {fuel : Nat} (hfuel : k ≤ fuel) (hk : a.Reachable k) :
    ∃ ids, a.walk (·.parent) fuel (a.cell k).parent = some ids ∧ (k :: ids).Pairwise (· > ·) ∧
      (k :: ids).getLast? = some 0 := by
  induction fuel generalizing k with
  | zero =>
    obtain rfl := Nat.le_zero.1 hfuel
    exact ⟨[], by rw [h.tree.root_parent]; rfl, List.pairwise_singleton _ _, rfl⟩
  | succ fuel ih =>
    obtain rfl | hparent := h.reachable_iff.1 hk
    · exact ⟨[], by rw [h.tree.root_parent]; rfl, List.pairwise_singleton _ _, rfl⟩
    obtain ⟨p, hp⟩ := Option.isSome_iff_exists.1 hparent
    have hlt := h.tree.parent_lt k p hp
    have hreach : a.Reachable p := h.reachable_iff.2 (h.tree.parent_live k p hp)
    obtain ⟨ids, hwalk, hdown, hlast⟩ := ih (by omega) hreach
    refine ⟨p :: ids, ?_, List.pairwise_cons.2 ⟨fun q hq => ?_, hdown⟩, ?_⟩
    · simp only [hp, walk, getElem?_cells (h.lt_size hreach), hwalk, Option.bind_eq_bind,
        Option.bind_some]
    · obtain rfl | hq := List.mem_cons.1 hq
      · exact hlt
      · exact Nat.lt_trans ((List.pairwise_cons.1 hdown).1 q hq) hlt
    · rwa [List.getLast?_cons_cons]

theorem path_ok {fuel : Nat} (hfuel : a.cells.size ≤ k + fuel) (hk : k < a.cells.size) :
    ∃ single path, a.isPathFrom fuel k = some single ∧ a.pathFrom fuel k = some path ∧
      path.isSome = single ∧ (a.Weighed 0 0 →
        ∀ steps ∈ path, ((a.cell k).count :: steps.map (·.2)).Pairwise (· ≥ ·)) := by
  induction fuel generalizing k with
  | zero => omega
  | succ fuel ih =>
    simp only [isPathFrom, pathFrom, getElem?_cells hk, Option.bind_eq_bind, Option.bind_some]
    match hchildren : (a.cell k).children with
    | [] => exact ⟨true, some [], rfl, rfl, rfl, by simp⟩
    | _ :: _ :: _ => exact ⟨false, none, rfl, rfl, rfl, by simp⟩
    | [child] =>
      have hparent : (a.cell child).parent = some k := by rw [← h.tree.child_iff, hchildren]; simp
      have hlt := h.tree.parent_lt child k hparent
      have hin := lt_size_of_parent hparent
      obtain ⟨item, hitem⟩ : ∃ item, (a.cell child).item = some item := by
        rw [← Option.isSome_iff_exists, h.tree.item_iff, hparent]
        rfl
      have hcount (hw : a.Weighed 0 0) : (a.cell child).count ≤ (a.cell k).count := by
        have hle := hw.below_le k
        simpa [below, hchildren] using hle
      obtain ⟨single, path, hsingle, hpath, hsome, hdown⟩ := ih (by omega) hin
      refine ⟨single, path.map ((item, (a.cell child).count) :: ·), hsingle, ?_, ?_, ?_⟩
      · simp only [getElem?_cells hin, Option.bind_some, hitem, hpath]
        rfl
      · rw [Option.isSome_map, hsome]
      · intro hw steps hsteps
        obtain ⟨rest, hrest, rfl⟩ := Option.map_eq_some_iff.1 hsteps
        have hdown := hdown hw rest hrest
        refine List.pairwise_cons.2 ⟨fun n hn => ?_, hdown⟩
        obtain rfl | hn := List.mem_cons.1 hn
        · exact hcount hw
        · exact Nat.le_trans ((List.pairwise_cons.1 hdown).1 n hn) (hcount hw)

theorem gone_of_not_reachable (hk : ¬ a.Reachable k) : (a.cell k).item = none ∧
    (a.cell k).parent = none ∧ (a.cell k).count = 0 ∧ (a.cell k).children = [] := by
  rw [h.reachable_iff, not_or, Option.not_isSome_iff_eq_none] at hk
  refine ⟨?_, hk.2, h.tree.blank k hk.1 hk.2, List.eq_nil_iff_forall_not_mem.2 fun c hc => ?_⟩
  · rw [← Option.not_isSome_iff_eq_none, h.tree.item_iff, hk.2]
    simp
  · obtain hzero | hlive := h.tree.parent_live c k ((h.tree.child_iff c k).1 hc)
    · exact hk.1 hzero
    · rw [hk.2] at hlive
      cases hlive

theorem wellLinked : a.WellLinked where
  parent k hk hne := by
    obtain ⟨p, hp⟩ := Option.isSome_iff_exists.1 ((h.reachable_iff.1 hk).resolve_left hne)
    refine ⟨_, p, getElem?_cells (h.lt_size hk), ?_, hp, h.tree.parent_lt k p hp,
      h.reachable_iff.2 (h.tree.parent_live k p hp), fun q hq => ⟨_, getElem?_cells (h.lt_size hq), ?_⟩⟩
    · rw [h.tree.item_iff, hp]
      rfl
    · rw [(h.tree.nodup q).count]
      simp only [h.tree.child_iff, hp, Option.some.injEq, eq_comm]
  chain item := by
    obtain ⟨ids, hids⟩ := h.chained item
    have hmem : ∀ k, k ∈ ids ↔ a.Reachable k ∧ a.Carries k item := fun k => by
      rw [hids.mem_iff, carries_iff]
      exact ⟨fun hitem => ⟨h.reachable_of_item hitem, hitem⟩, And.right⟩
    refine ⟨ids, hids.occurrences_eq, hids.ascending, hmem, ?_⟩
    rw [hids.mem_header, ← exists_congr hmem]
    exact ⟨List.exists_mem_of_ne_nil ids, fun ⟨_, hk⟩ => List.ne_nil_of_mem hk⟩
  gone k cell hcell hk := by
    have heq : a.cell k = cell := by rw [LinkedTree.cell, hcell]; rfl
    exact heq ▸ h.gone_of_not_reachable hk
  path := by
    obtain ⟨single, path, hsingle, hpath, hsome, -⟩ := h.path_ok (Nat.le_add_left _ _) h.tree.size_pos
    exact ⟨single, path, hsingle, hpath, hsome⟩
  climb k cell hk hcell := by
    have heq : a.cell k = cell := by rw [LinkedTree.cell, hcell]; rfl
    rw [ancestors, ← heq]
    exact h.walk_parent (Nat.le_of_lt (h.lt_size hk)) hk

theorem wellCounted (hw : a.Weighed 0 0) : a.WellCounted where
  count k hk := by
    have hchildren : ∀ c ∈ (a.cell k).children, c < a.cells.size := fun c hc =>
      lt_size_of_parent ((h.tree.child_iff c k).1 hc)
    refine ⟨_, (a.cell k).children.map fun c => (a.cell c).count, getElem?_cells (h.lt_size hk),
      fun hne => hw.pos k ((h.reachable_iff.1 hk).resolve_left hne), ?_, ?_⟩
    · exact mapM_some fun c hc => by rw [getElem?_cells (hchildren c hc)]; rfl
    · have hle := hw.below_le k
      simpa [below] using hle
  path := by
    obtain ⟨-, path, -, hpath, -, hdown⟩ := h.path_ok (Nat.le_add_left _ _) h.tree.size_pos
    exact ⟨path, hpath, fun steps hsteps => (hdown hw steps hsteps).of_cons⟩

end Sound

/-- A cell whose item was pruned is in no later tree and in no later chain. -/
theorem Sound.pruned (h : a.Sound) {minimum n : Nat} (hitem : (a.cell k).item = some item)
    (hsupport : a.itemSupport item = some n) (hn : n < minimum) (more : List TreeStep) :
    ∃ c, (TreeStep.prune minimum :: more).foldlM step a = some c ∧ ¬ c.Reachable k ∧
      ∀ i ids, c.occurrences i = some ids → k ∉ ids := by
  obtain ⟨b, hb, hsound, -, hwithout⟩ := h.prune_ok minimum
  obtain ⟨c, hc, hcsound, hkeeps, -⟩ := hsound.foldlM_ok more
  have hgone : (c.cell k).item = none := by
    apply hkeeps.item_none k
    · rw [hwithout.size]
      exact lt_size_of_item hitem
    · exact hwithout.item_gone k ⟨item, hitem, n, hn, hsupport⟩
  refine ⟨c, ?_, ?_, fun i ids hids hk => ?_⟩
  · rw [List.foldlM_cons, step, hb]
    exact hc
  · rw [hcsound.reachable_iff, ← hcsound.tree.item_iff, hgone]
    rintro (rfl | hsome)
    · rw [h.root_item] at hitem
      cases hitem
    · cases hsome
  · obtain ⟨js, hjs⟩ := hcsound.chained i
    rw [hjs.occurrences_eq] at hids
    cases hids
    rw [hjs.mem_iff, hgone] at hk
    cases hk

/-- Every run of insertions and prunings has a result. In it all links agree and all walks end; the counts
are in order if a word holds the sum of all that were inserted; and a cell with an item that the next step
would prune can not be reached after that step or any later one. -/
theorem run_wellLinked (steps : List TreeStep) : ∃ a, run steps = some a ∧ a.WellLinked ∧
    ((steps.map (·.count)).sum < Word.size → a.WellCounted) ∧
    ∀ minimum more k item n, a.Carries k item → a.itemSupport item = some n → n < minimum →
      ∃ c, run (steps ++ .prune minimum :: more) = some c ∧ ¬ c.Reachable k ∧
        ∀ i ids, c.occurrences i = some ids → k ∉ ids := by
  obtain ⟨a, ha, hsound, hweighed⟩ := run_ok steps
  refine ⟨a, ha, hsound.wellLinked, fun hfits => hsound.wellCounted (hweighed hfits),
    fun minimum more k item n hitem hsupport hn => ?_⟩
  obtain ⟨c, hc, hgone⟩ := hsound.pruned (carries_iff.1 hitem) hsupport hn more
  refine ⟨c, ?_, hgone⟩
  unfold run at ha ⊢
  rw [List.foldlM_append, ha]
  exact hc

/-- a path whose count needs all 64 bits, and another with a repeated item -/
def nearlyFull : List TreeStep := [.insert [0, 1] (2 ^ 64 - 2), .insert [0, 0] 1, .prune (2 ^ 63)]

theorem run_wellLinked_nearlyFull : (nearlyFull.map (·.count)).sum < Word.size ∧
    ∃ a, run nearlyFull = some a ∧ a.WellCounted := by
  have hfits : (nearlyFull.map (·.count)).sum < Word.size := by decide
  obtain ⟨a, ha, -, hcounted, -⟩ := run_wellLinked nearlyFull
  exact ⟨hfits, a, ha, hcounted hfits⟩

/-- one path so often that its count comes back to zero -/
def overflowing : List TreeStep :=
  [.insert [0] (2 ^ 63 - 1), .insert [0] (2 ^ 63 - 1), .insert [0] 2]

theorem not_wellCounted_overflowing : ∃ a, run overflowing = some a ∧ ¬ a.WellCounted := by
  have hcells : (run overflowing).map (·.cells.toList) =
      some [⟨none, 0, none, [1], none⟩, ⟨some 0, 0, some 0, [], none⟩] := by decide
  obtain ⟨a, ha, hcells⟩ := Option.map_eq_some_iff.1 hcells
  have hcell (k : Nat) : a.cells[k]? = [⟨none, 0, none, [1], none⟩, ⟨some 0, 0, some 0, [], none⟩][k]? := by
    rw [← Array.getElem?_toList, hcells]
  refine ⟨a, ha, fun h => ?_⟩
  obtain ⟨cell, -, hchild, hpos, -⟩ := h.count 1 (.child .root (hcell 0) List.mem_cons_self)
  rw [hcell 1] at hchild
  cases hchild
  exact Nat.lt_irrefl 0 (hpos nofun)

end StyleMiner.LinkedTree
