import StyleMiner.Mining.LinkedTree

/-! What the single operations on a linked tree do to each of its cells. Each of them has a result when the
positions that it is given are in the array. -/

namespace StyleMiner.LinkedTree

variable {a b : LinkedTree} {id k parent : Nat} {item : ItemId} {count : Nat}

/-- the cell at a position; outside of the array it is blank -/
def cell (a : LinkedTree) (id : Nat) : Cell := a.cells[id]?.getD .blank

theorem getElem?_cells (h : id < a.cells.size) : a.cells[id]? = some (a.cell id) := by
  rw [cell, Array.getElem?_eq_getElem h, Option.getD_some]

theorem cell_of_le (h : a.cells.size ≤ id) : a.cell id = .blank := by
  rw [cell, Array.getElem?_eq_none h, Option.getD_none]

theorem lt_size_of_parent (h : (a.cell id).parent = some k) : id < a.cells.size := by
  apply Nat.lt_of_not_le
  intro hle
  rw [cell_of_le hle] at h
  cases h

theorem lt_size_of_item (h : (a.cell id).item = some item) : id < a.cells.size := by
  apply Nat.lt_of_not_le
  intro hle
  rw [cell_of_le hle] at h
  cases h

theorem modify_ok (h : id < a.cells.size) (f : Cell → Cell) : ∃ b, a.modify id f = some b ∧
    b.header = a.header ∧ b.cells.size = a.cells.size ∧
      ∀ k, b.cell k = if k = id then f (a.cell k) else a.cell k := by
  refine ⟨_, if_pos h, rfl, Array.size_modify, fun k => ?_⟩
  simp only [cell, Array.getElem?_modify]
  by_cases hk : k = id
  · subst hk
    rw [if_pos rfl, if_pos rfl, Array.getElem?_eq_getElem h]
    rfl
  · rw [if_neg (Ne.symm hk), if_neg hk]

/-- `b` is `a` with the count `n` in a cell. -/
structure Recounted (a : LinkedTree) (id n : Nat) (b : LinkedTree) : Prop where
  header : b.header = a.header
  size : b.cells.size = a.cells.size
  cell : ∀ k, b.cell k = { a.cell k with count := if k = id then n else (a.cell k).count }

theorem recount_ok (h : id < a.cells.size) (count : Nat) :
    ∃ b, a.modify id (fun cell => { cell with count := Word.add cell.count count }) = some b ∧
      Recounted a id (Word.add (a.cell id).count count) b := by
  obtain ⟨b, hb, hheader, hsize, hcell⟩ :=
    modify_ok h fun cell => { cell with count := Word.add cell.count count }
  refine ⟨b, hb, hheader, hsize, fun k => ?_⟩
  rw [hcell]
  by_cases hk : k = id
  · rw [if_pos hk, if_pos hk, hk]
  · rw [if_neg hk, if_neg hk]

/-- `b` is `a` with a new last child of `parent`. -/
structure Pushed (a : LinkedTree) (parent : Nat) (item : ItemId) (count : Nat) (b : LinkedTree) :
    Prop where
  size : b.cells.size = a.cells.size + 1
  header : ∀ i, b.header[i]? = if i = item then
    some ⟨(a.header[item]?.map (·.head)).getD a.cells.size, a.cells.size⟩ else a.header[i]?
  new : b.cell a.cells.size = ⟨some item, count, some parent, [], none⟩
  old : ∀ k, k ≠ a.cells.size → b.cell k = { a.cell k with
    children := (a.cell k).children ++ if k = parent then [a.cells.size] else []
    next := if a.header[item]?.map (·.tail) = some k then some a.cells.size else (a.cell k).next }

/-- a cell more, among the children of `parent` but in no chain yet -/
theorem push_ok (new : Cell) (hparent : parent < a.cells.size) :
    ∃ b, ({ a with cells := a.cells.push new } : LinkedTree).modify parent
        (fun cell => { cell with children := cell.children ++ [a.cells.size] }) = some b ∧
      b.header = a.header ∧ b.cells.size = a.cells.size + 1 ∧ b.cell a.cells.size = new ∧
      ∀ k, k ≠ a.cells.size → b.cell k = { a.cell k with
        children := (a.cell k).children ++ if k = parent then [a.cells.size] else [] } := by
  let grown : LinkedTree := { a with cells := a.cells.push new }
  have hgrown : ∀ k, grown.cell k = if k = a.cells.size then new else a.cell k := by
    intro k
    simp only [grown, cell, Array.getElem?_push]
    split <;> rfl
  have hsize : grown.cells.size = a.cells.size + 1 := Array.size_push _
  have hin : parent < grown.cells.size := by omega
  obtain ⟨b, hb, hheader, hbsize, hcell⟩ :=
    modify_ok hin fun cell => { cell with children := cell.children ++ [a.cells.size] }
  refine ⟨b, hb, hheader, hbsize.trans hsize, ?_, fun k hk => ?_⟩
  · rw [hcell, if_neg (Nat.ne_of_gt hparent), hgrown, if_pos rfl]
  · rw [hcell, hgrown, if_neg hk]
    split
    · rfl
    · rw [List.append_nil]

theorem pushChild_ok (hparent : parent < a.cells.size) (item : ItemId) (count : Nat)
    (htail : ∀ chain, a.header[item]? = some chain → chain.tail < a.cells.size) :
    ∃ b, a.pushChild parent item count = some b ∧ Pushed a parent item count b := by
  obtain ⟨b, hb, hheader, hsize, hnew, hold⟩ :=
    push_ok ⟨some item, count, some parent, [], none⟩ hparent
  unfold pushChild
  simp only [hb, Option.bind_eq_bind, Option.bind_some, hheader]
  cases hchain : a.header[item]? with
  | none =>
    refine ⟨{ b with header := a.header.insert item ⟨a.cells.size, a.cells.size⟩ }, rfl, hsize, ?_,
      hnew, ?_⟩
    · intro i
      simp only [Std.TreeMap.getElem?_insert, hchain, Nat.compare_eq_eq, eq_comm (a := i)]
      rfl
    · intro k hk
      rw [hchain]
      exact hold k hk
  | some chain =>
    have htail := htail chain hchain
    have hbtail : chain.tail < b.cells.size := by omega
    obtain ⟨c, hc, hcheader, hcsize, hccell⟩ :=
      modify_ok hbtail fun cell => { cell with next := some a.cells.size }
    refine ⟨{ c with header := a.header.insert item { chain with tail := a.cells.size } }, ?_, ?_,
      ?_, ?_, ?_⟩
    · simp only [hc, hcheader, hheader, Option.bind_some]
    · rw [hcsize, hsize]
    · intro i
      simp only [Std.TreeMap.getElem?_insert, hchain, Nat.compare_eq_eq, eq_comm (a := i)]
      rfl
    · exact (hccell _).trans (by rw [if_neg (Nat.ne_of_gt htail), hnew])
    · intro k hk
      refine (hccell k).trans ?_
      rw [hold k hk, hchain]
      by_cases htk : k = chain.tail
      · simp [htk]
      · simp [htk, Ne.symm htk]

/-- `b` is `a` without a cell whose children take its place below `parent`. -/
structure Spliced (a : LinkedTree) (id parent : Nat) (b : LinkedTree) : Prop where
  header : b.header = a.header
  size : b.cells.size = a.cells.size
  gone : b.cell id = { Cell.blank with next := (a.cell id).next }
  kept : ∀ k, k ≠ id → b.cell k = { a.cell k with
    parent := if k ∈ (a.cell id).children then some parent else (a.cell k).parent
    children := if k = parent then replaceFirst id (a.cell id).children (a.cell k).children
      else (a.cell k).children }

/-- moving cells below another parent -/
theorem reparent_ok {ids : List Nat} (hids : ∀ k ∈ ids, k < a.cells.size) (parent : Nat) :
    ∃ b, ids.foldlM (fun (a : LinkedTree) child =>
        a.modify child fun cell => { cell with parent := some parent }) a = some b ∧
      b.header = a.header ∧ b.cells.size = a.cells.size ∧ ∀ k, b.cell k =
        { a.cell k with parent := if k ∈ ids then some parent else (a.cell k).parent } := by
  induction ids generalizing a with
  | nil => exact ⟨a, rfl, rfl, rfl, fun k => rfl⟩
  | cons id ids ih =>
    obtain ⟨hid, hids⟩ := List.forall_mem_cons.1 hids
    obtain ⟨b, hb, hheader, hsize, hcell⟩ := modify_ok hid fun cell => { cell with parent := some parent }
    obtain ⟨c, hc, hcheader, hcsize, hccell⟩ := ih fun k hk => hsize ▸ hids k hk
    refine ⟨c, ?_, hcheader.trans hheader, hcsize.trans hsize, fun k => ?_⟩
    · rw [List.foldlM_cons, hb]
      exact hc
    · rw [hccell, hcell]
      by_cases hk : k = id
      · simp [hk]
      · simp [hk]

theorem splice_ok (hparent : (a.cell id).parent = some parent) (hin : parent < a.cells.size)
    (hne : parent ≠ id) (hchildren : ∀ k ∈ (a.cell id).children, k < a.cells.size) :
    ∃ b, a.splice id = some b ∧ Spliced a id parent b := by
  have hid := lt_size_of_parent hparent
  obtain ⟨b, hb, hbheader, hbsize, hbcell⟩ := modify_ok hid fun cell => { cell with children := [] }
  obtain ⟨c, hc, hcheader, hcsize, hccell⟩ :=
    reparent_ok (a := b) (fun k hk => hbsize ▸ hchildren k hk) parent
  obtain ⟨d, hd, hdheader, hdsize, hdcell⟩ := modify_ok (a := c) (hcsize ▸ hbsize ▸ hin)
    fun above => { above with children := replaceFirst id (a.cell id).children above.children }
  obtain ⟨e, he, heheader, hesize, hecell⟩ := modify_ok (a := d) (hdsize ▸ hcsize ▸ hbsize ▸ hid)
    fun cell => { cell with item := none, count := 0, parent := none }
  refine ⟨e, ?_, ?_, ?_, ?_, ?_⟩
  · unfold splice
    simp only [getElem?_cells hid, hparent, hb, hc, hd, he, Option.bind_eq_bind, Option.bind_some]
  · rw [heheader, hdheader, hcheader, hbheader]
  · rw [hesize, hdsize, hcsize, hbsize]
  · rw [hecell, if_pos rfl, hdcell, if_neg (Ne.symm hne), hccell, hbcell, if_pos rfl]
    rfl
  · intro k hk
    rw [hecell, if_neg hk, hdcell, hccell, hbcell, if_neg hk]
    split <;> rfl

end StyleMiner.LinkedTree
