import Mathlib.Data.List.Induction
import StyleMiner.Proofs.Occurrences

/-! How declarations come to be items. One pass over a sheet, in which each declaration joins the item of its
shape or begins a new one, gathers for every shape the selectors and the places that it has; ranking puts
these items in strict order. So an item is found by its shape and by nothing else, and as the items with the
widest support come first, those that enough selectors declare are a front part of the table. -/

namespace StyleMiner

/-- In a list where `p` holds before each place where it holds, what it holds of is its front part. -/
theorem takeWhile_eq_filter {α : Type} {p : α → Bool} {xs : List α}
    (h : xs.Pairwise fun x y => p y = true → p x = true) : xs.takeWhile p = xs.filter p := by
  induction xs with
  | nil => rfl
  | cons x xs ih =>
    obtain ⟨hx, hxs⟩ := List.pairwise_cons.1 h
    by_cases hpx : p x = true
    · rw [List.takeWhile_cons_of_pos hpx, List.filter_cons_of_pos hpx, ih hxs]
    · rw [List.takeWhile_cons_of_neg hpx, List.filter_cons_of_neg hpx, eq_comm, List.filter_eq_nil_iff]
      exact fun y hy hpy => hpx (hx y hy hpy)

/-- whether a place comes before another in the document -/
def Occurrence.Before (o o' : Occurrence) : Prop :=
  o.selector < o'.selector ∨ o.selector = o'.selector ∧ o.index < o'.index

namespace Item

variable {ps : List (Shape × Occurrence)} {p : Shape × Occurrence} {shape : Shape} {shapes : List Shape}

/-- the item with a place more -/
def addPlace (item : Item) (o : Occurrence) : Item :=
  { item with support := item.support.insert o.selector, occurrences := item.occurrences ++ [o] }

/-- Enters a declaration: it joins the item of its shape, or begins a new one behind the others. -/
def enter : List Item → Shape × Occurrence → List Item
  | [], p => [addPlace ⟨0, p.1, .empty, []⟩ p.2]
  | item :: items, p => if item.shape = p.1 then item.addPlace p.2 :: items else item :: enter items p

theorem ofShape_concat_self (ps : List (Shape × Occurrence)) (p : Shape × Occurrence) :
    ofShape (ps ++ [p]) p.1 = (ofShape ps p.1).addPlace p.2 := by
  have hfilter : (ps ++ [p]).filter (·.1 == p.1) = ps.filter (·.1 == p.1) ++ [p] := by simp
  simp only [ofShape, addPlace, hfilter, List.map_append, List.map_cons, List.map_nil, IdSet.ofList,
    List.foldl_append, List.foldl_cons, List.foldl_nil]

theorem ofShape_concat_of_ne (h : shape ≠ p.1) : ofShape (ps ++ [p]) shape = ofShape ps shape := by
  have hfilter : (ps ++ [p]).filter (·.1 == shape) = ps.filter (·.1 == shape) := by simp [h.symm]
  simp only [ofShape, hfilter]

theorem ofShape_of_notMem (h : shape ∉ ps.map (·.1)) : ofShape ps shape = ⟨0, shape, .empty, []⟩ := by
  have hfilter : ps.filter (·.1 == shape) = [] := List.filter_eq_nil_iff.2 fun q hq heq => by
    exact h (List.mem_map.2 ⟨q, hq, by simpa using heq⟩)
  simp only [ofShape, hfilter]
  rfl

/-- Entering a declaration changes the item of its shape and no other. -/
theorem enter_items (hnodup : shapes.Nodup) : enter (shapes.map (ofShape ps)) p =
    if p.1 ∈ shapes then shapes.map (ofShape (ps ++ [p]))
    else shapes.map (ofShape (ps ++ [p])) ++ [addPlace ⟨0, p.1, .empty, []⟩ p.2] := by
  induction shapes with
  | nil => rfl
  | cons shape shapes ih =>
    obtain ⟨hshape, hrest⟩ := List.nodup_cons.1 hnodup
    have hself : (ofShape ps shape).shape = shape := rfl
    rw [List.map_cons, List.map_cons, enter, hself]
    by_cases heq : shape = p.1
    · subst heq
      have hothers : shapes.map (ofShape (ps ++ [p])) = shapes.map (ofShape ps) :=
        List.map_congr_left fun s hs => ofShape_concat_of_ne fun h => hshape (h ▸ hs)
      rw [if_pos rfl, if_pos List.mem_cons_self, ofShape_concat_self, hothers]
    · rw [if_neg heq, ih hrest, ofShape_concat_of_ne heq]
      by_cases hmem : p.1 ∈ shapes
      · rw [if_pos hmem, if_pos (List.mem_cons_of_mem _ hmem)]
      · have hout : p.1 ∉ shape :: shapes := fun h => (List.mem_cons.1 h).elim (heq ·.symm) hmem
        rw [if_neg hmem, if_neg hout]
        rfl

/-- One pass gathers the items of all shapes, each where it first came up. -/
theorem foldl_enter (ps : List (Shape × Occurrence)) :
    ps.foldl enter [] = (ps.map (·.1)).eraseDups.map (ofShape ps) := by
  induction ps using List.reverseRecOn with
  | nil => rfl
  | append_singleton ps p ih =>
    rw [List.foldl_concat, ih, enter_items (ItemTable.nodup_eraseDups _), List.map_append, List.map_singleton,
      List.eraseDups_append]
    simp only [List.mem_eraseDups]
    by_cases hmem : p.1 ∈ ps.map (·.1)
    · have hnone : [p.1].removeAll (ps.map (·.1)) = [] := by
        simpa [List.removeAll] using hmem
      rw [if_pos hmem, hnone, List.eraseDups_nil, List.append_nil]
    · have hnew : [p.1].removeAll (ps.map (·.1)) = [p.1] := by
        simpa [List.removeAll] using hmem
      rw [if_neg hmem, hnew, List.map_append, ← ofShape_of_notMem hmem, ← ofShape_concat_self]
      rfl

theorem size_le_of_compare {a b : Item} (h : a.compare b = .lt) : b.support.size ≤ a.support.size := by
  by_contra hlt
  have hfirst : Ord.compare b.support.size a.support.size = .gt := Nat.compare_eq_gt.2 (Nat.lt_of_not_le hlt)
  rw [compare, compareLex, hfirst] at h
  cases h

end Item

namespace Stylesheet

variable {sheet : Stylesheet} {shape : Shape} {o : Occurrence} {x : Selector}

theorem id_of_get? {id : SelectorId} (h : sheet.get? id = some x) : x ∈ sheet.selectors ∧ x.id = id := by
  obtain ⟨hlt, rfl⟩ := List.getElem?_eq_some_iff.1 h
  exact ⟨List.getElem_mem hlt, id_getElem hlt⟩

theorem mem_places_iff : (shape, o) ∈ sheet.places ↔ ∃ d, sheet.declarationAt? o = some d ∧ d.shape = shape := by
  rw [ItemTable.mem_places]
  constructor
  · rintro ⟨x, hx, i, hi, heq⟩
    obtain ⟨rfl, rfl⟩ := Prod.mk.inj heq
    exact ⟨x.declarations[i], by simp [declarationAt?, get?_id hx, hi], rfl⟩
  · rintro ⟨d, hd, rfl⟩
    obtain ⟨x, hx, hd⟩ := Option.bind_eq_some_iff.1 hd
    obtain ⟨hi, rfl⟩ := List.getElem?_eq_some_iff.1 hd
    obtain ⟨hx, hid⟩ := id_of_get? hx
    exact ⟨x, hx, o.index, hi, by rw [hid]⟩

theorem places_ascend (sheet : Stylesheet) : sheet.places.Pairwise fun p q => p.2.Before q.2 := by
  have hids : (sheet.selectors.map (·.id)).Pairwise (· < ·) := sheet.numbered ▸ List.pairwise_lt_range
  refine List.pairwise_flatMap.2 ⟨fun x _ => ?_, (List.pairwise_map.1 hids).imp fun hlt p hp q hq => ?_⟩
  · refine List.pairwise_iff_getElem.2 fun i j hi hj hij => .inr ?_
    simpa using hij
  · obtain ⟨i, -, rfl⟩ := List.mem_mapIdx.1 hp
    obtain ⟨j, -, rfl⟩ := List.mem_mapIdx.1 hq
    exact .inl hlt

end Stylesheet

namespace ItemTable

variable {sheet : Stylesheet} {shape : Shape} {item : Item}

theorem mem_shapes_iff : shape ∈ (ofSheet sheet).shapes ↔ ∃ d ∈ sheet.declarations, d.shape = shape := by
  rw [mem_shapes]
  simp only [Stylesheet.mem_declarers, Stylesheet.declarations, List.mem_flatMap, List.mem_map]
  constructor
  · rintro ⟨_, x, hx, -, d, hd, rfl⟩
    exact ⟨d, ⟨x, hx, hd⟩, rfl⟩
  · rintro ⟨d, ⟨x, hx, hd⟩, rfl⟩
    exact ⟨x.id, x, hx, rfl, d, hd, rfl⟩

theorem mem_occurrences (h : item ∈ (ofSheet sheet).items) {o : Occurrence} :
    o ∈ item.occurrences ↔ ∃ d, sheet.declarationAt? o = some d ∧ d.shape = item.shape := by
  rw [occurrences_eq h, ← Stylesheet.mem_places_iff, List.mem_map]
  simp only [List.mem_filter, beq_iff_eq]
  constructor
  · rintro ⟨⟨_, _⟩, ⟨hp, rfl⟩, rfl⟩
    exact hp
  · exact fun hp => ⟨_, ⟨hp, rfl⟩, rfl⟩

theorem occurrences_ascend (h : item ∈ (ofSheet sheet).items) : item.occurrences.Pairwise Occurrence.Before := by
  rw [occurrences_eq h]
  exact List.pairwise_map.2 (sheet.places_ascend.filter _)

theorem occurrences_ne_nil (h : item ∈ (ofSheet sheet).items) : item.occurrences ≠ [] := by
  obtain ⟨d, hd, -⟩ := exists_declaration h
  rintro hnil
  rw [Item.declaration?, hnil] at hd
  cases hd

theorem find?_eq_none : (ofSheet sheet).find? shape = none ↔ ∀ d ∈ sheet.declarations, d.shape ≠ shape := by
  have hshapes : (ofSheet sheet).find? shape = none ↔ shape ∉ (ofSheet sheet).shapes := by
    simp [find?, shapes, List.find?_eq_none]
  rw [hshapes, mem_shapes_iff]
  simp only [not_exists, not_and, ne_eq]

/-- The items that enough selectors declare are those in front of the first that too few declare. -/
theorem frequent_eq_filter (sheet : Stylesheet) (n : Nat) :
    (ofSheet sheet).frequent n = (ofSheet sheet).items.filter (n ≤ ·.support.size) := by
  refine takeWhile_eq_filter ((items_ascending sheet).imp fun {a b} h hb => ?_)
  exact decide_eq_true (Nat.le_trans (of_decide_eq_true hb) (Item.size_le_of_compare h))

/-- The table of a sheet says what the sheet declares. It has one item for each shape that a declaration has
and no others; an item's support are the selectors that declare its shape, however often each does, and its
occurrences are the places of all declarations of the shape, from the first to the last. Items are numbered by
rank, each strictly before the next; an item is found by its shape, and nothing is found by any other; and the
items that enough selectors declare are a front part of the table. All this comes of one pass over the
declarations and of sorting what it gathers. -/
theorem ofSheet_exact (sheet : Stylesheet) :
    ((ofSheet sheet).items.map (·.shape)).Nodup ∧
    (∀ shape, shape ∈ (ofSheet sheet).items.map (·.shape) ↔ ∃ d ∈ sheet.declarations, d.shape = shape) ∧
    (∀ item ∈ (ofSheet sheet).items,
      (∀ s, s ∈ item.support ↔
        ∃ x ∈ sheet.selectors, x.id = s ∧ ∃ d ∈ x.declarations, d.shape = item.shape) ∧
      (∀ o, o ∈ item.occurrences ↔ ∃ d, sheet.declarationAt? o = some d ∧ d.shape = item.shape) ∧
      item.occurrences.Pairwise Occurrence.Before ∧ item.occurrences ≠ [] ∧
      (ofSheet sheet).find? item.shape = some item) ∧
    (∀ (rank : Nat) (item : Item), (ofSheet sheet).items[rank]? = some item → item.id = rank) ∧
    ((ofSheet sheet).items.Pairwise fun a b => a.compare b = .lt) ∧
    (∀ shape, (∀ d ∈ sheet.declarations, d.shape ≠ shape) → (ofSheet sheet).find? shape = none) ∧
    (∀ n, (ofSheet sheet).frequent n = (ofSheet sheet).items.filter (n ≤ ·.support.size) ∧
      (ofSheet sheet).frequent n <+: (ofSheet sheet).items) ∧
    (ofSheet sheet).items = ((sheet.places.foldl Item.enter []).mergeSort fun a b => (a.compare b).isLE).mapIdx
      fun rank item => { item with id := rank } := by
  refine ⟨nodup_shapes sheet, fun shape => mem_shapes_iff, fun item h => ⟨fun s => mem_support h,
    fun o => mem_occurrences h, occurrences_ascend h, occurrences_ne_nil h, find?_eq_some.2 ⟨h, rfl⟩⟩,
    fun rank item hget => ?_, items_ascending sheet, fun shape => find?_eq_none.2,
    fun n => ⟨frequent_eq_filter sheet n, List.takeWhile_prefix _⟩, ?_⟩
  · obtain ⟨hlt, rfl⟩ := List.getElem?_eq_some_iff.1 hget
    exact id_getElem hlt
  · rw [Item.foldl_enter]
    rfl

/-- a rule that declares one thing twice, and another that declares it once -/
def repeating : Stylesheet where
  selectors :=
    let declare (selector : SelectorId) : Declaration :=
      ⟨['x'], [⟨['0'], .number, ⟨.number, ['0']⟩⟩], false, selector, .start⟩
    [⟨0, ['p'], none, .start, [declare 0, declare 0]⟩, ⟨1, ['q'], none, .start, [declare 1]⟩]
  numbered := rfl

theorem ofSheet_exact_repeating : ∃ item ∈ (ofSheet repeating).items,
    (∀ s ∈ [0, 1], s ∈ item.support) ∧ (∀ o ∈ [⟨0, 0⟩, ⟨0, 1⟩, ⟨1, 0⟩], o ∈ item.occurrences) ∧
    item ∈ (ofSheet repeating).frequent 2 ∧ (ofSheet repeating).find? ⟨['y'], [], false⟩ = none := by
  obtain ⟨-, hshapes, hitems, -, -, habsent, hfrequent, -⟩ := ofSheet_exact repeating
  obtain ⟨item, hitem, hshape⟩ := List.mem_map.1
    ((hshapes ⟨['x'], [⟨.number, ['0']⟩], false⟩).2 (by decide))
  obtain ⟨hsupport, hoccurrences, -⟩ := hitems item hitem
  rw [hshape] at hsupport hoccurrences
  have hboth : ∀ s ∈ [0, 1], s ∈ item.support := fun s hs => (hsupport s).2 (by revert s; decide)
  refine ⟨item, hitem, hboth, fun o ho => (hoccurrences o).2 ?_, ?_, habsent _ (by decide)⟩
  · have hplaces : ∀ o ∈ ([⟨0, 0⟩, ⟨0, 1⟩, ⟨1, 0⟩] : List Occurrence),
        (repeating.declarationAt? o).any (·.shape = ⟨['x'], [⟨.number, ['0']⟩], false⟩) = true := by decide
    simpa [Option.any_eq_true] using hplaces o ho
  · rw [(hfrequent 2).1]
    exact List.mem_filter.2 ⟨hitem, decide_eq_true (IdSet.size_le_of_subset (s := .ofList [0, 1]) hboth)⟩

end ItemTable
end StyleMiner
