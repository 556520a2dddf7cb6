import StyleMiner.Mining.DataSet
import StyleMiner.Proofs.CommonSupport

/-! Supports and transactions are two views of one sheet. The table of a sheet has one item for each
shape, supported by the selectors that declare it; the transactions of the sheet count a set of items
as often as the items have selectors in common, as far as the transactions know the items. This is all
that mining needs to know about a sheet. -/

namespace StyleMiner

namespace ItemTable

variable {sheet : Stylesheet} {item : Item} {shape : Shape} {s : SelectorId}

theorem nodup_eraseDups {α : Type} [DecidableEq α] (xs : List α) : xs.eraseDups.Nodup := by
  induction hn : xs.length using Nat.strongRecOn generalizing xs with
  | _ n ih =>
    cases xs with
    | nil => exact List.nodup_nil
    | cons x xs =>
      rw [List.eraseDups_cons, List.nodup_cons]
      refine ⟨fun hx => ?_, ih _ ?_ _ rfl⟩
      · have := (List.mem_filter.1 (List.mem_eraseDups.1 hx)).2
        simp at this
      · have := List.length_filter_le (fun y => !y == x) xs
        simp only [List.length_cons] at hn
        omega

theorem map_shape_items (sheet : Stylesheet) :
    ((ofSheet sheet).items.map (·.shape)).Perm (sheet.places.map (·.1)).eraseDups := by
  have hshape : (ofSheet sheet).items.map (·.shape) = (ranked sheet).map (·.shape) :=
    List.ext_getElem (by simp [ofSheet]) fun i _ _ => by simp [ofSheet]
  rw [hshape]
  refine ((List.mergeSort_perm _ _).map _).trans (List.Perm.of_eq ?_)
  rw [List.map_map]
  exact List.map_id'' (fun _ => rfl) _

theorem nodup_shapes (sheet : Stylesheet) : ((ofSheet sheet).items.map (·.shape)).Nodup :=
  (map_shape_items sheet).nodup_iff.2 (nodup_eraseDups _)

theorem mem_places {p : Shape × Occurrence} :
    p ∈ sheet.places ↔ ∃ x ∈ sheet.selectors, ∃ i, ∃ h : i < x.declarations.length,
      p = (x.declarations[i].shape, ⟨x.id, i⟩) := by
  simp only [Stylesheet.places, List.mem_flatMap, List.mem_mapIdx, eq_comm]

theorem mem_support (h : item ∈ (ofSheet sheet).items) :
    s ∈ item.support ↔ ∃ x ∈ sheet.selectors, x.id = s ∧ ∃ d ∈ x.declarations, d.shape = item.shape := by
  obtain ⟨i, hi, rfl⟩ := List.mem_mapIdx.1 h
  obtain ⟨shape, -, heq⟩ := List.mem_map.1 (List.mem_mergeSort.1 (List.getElem_mem hi))
  rw [← heq]
  simp only [Item.ofShape, IdSet.mem_ofList, List.mem_map, List.mem_filter, beq_iff_eq]
  refine ⟨?_, ?_⟩
  · rintro ⟨_, ⟨p, ⟨hp, rfl⟩, rfl⟩, rfl⟩
    obtain ⟨x, hx, j, hj, rfl⟩ := mem_places.1 hp
    exact ⟨x, hx, rfl, _, List.getElem_mem hj, rfl⟩
  · rintro ⟨x, hx, rfl, d, hd, rfl⟩
    obtain ⟨j, hj, rfl⟩ := List.mem_iff_getElem.1 hd
    exact ⟨_, ⟨_, ⟨mem_places.2 ⟨x, hx, j, hj, rfl⟩, rfl⟩, rfl⟩, rfl⟩

theorem find?_eq_some : (ofSheet sheet).find? shape = some item ↔
    item ∈ (ofSheet sheet).items ∧ item.shape = shape := by
  unfold find?
  refine ⟨fun h => ⟨List.mem_of_find?_eq_some h, by simpa using List.find?_some h⟩, ?_⟩
  rintro ⟨hitem, rfl⟩
  cases hf : (ofSheet sheet).items.find? (·.shape == item.shape) with
  | none => simpa using List.find?_eq_none.1 hf item hitem
  | some j =>
    have hshape : j.shape = item.shape := by simpa using List.find?_some hf
    rw [List.inj_on_of_nodup_map (nodup_shapes sheet) (List.mem_of_find?_eq_some hf) hitem hshape]

end ItemTable

namespace Stylesheet

variable {sheet : Stylesheet} {x y : Selector}

theorem eq_of_id_eq (hx : x ∈ sheet.selectors) (hy : y ∈ sheet.selectors) (h : x.id = y.id) : x = y := by
  have hnodup : (sheet.selectors.map (·.id)).Nodup := sheet.numbered ▸ List.nodup_range
  exact List.inj_on_of_nodup_map hnodup hx hy h

theorem exists_selector {s : SelectorId} (h : s < sheet.size) : ∃ x ∈ sheet.selectors, x.id = s := by
  have hmem : s ∈ sheet.selectors.map (·.id) := sheet.numbered ▸ List.mem_range.2 h
  exact List.mem_map.1 hmem

end Stylesheet

namespace DataSet

/-- how many transactions have all items of a set -/
def count (data : DataSet) (x : IdSet) : Nat :=
  (data.transactions.filter fun t => x ⊆ t.items).length

/-- whether a set has items and enough transactions have them all -/
def Frequent (data : DataSet) (minimum : Nat) (x : IdSet) : Prop :=
  (∃ i, i ∈ x) ∧ minimum ≤ data.count x

/-- whether transactions count what the supports of a table say -/
structure Agrees (data : DataSet) (table : ItemTable) : Prop where
  has : ∀ i ∈ data.items, i < table.size
  count_eq : ∀ x, (∃ i, i ∈ x) → (∀ i ∈ x, i ∈ data.items) → data.count x = (table.common x).size

variable {data : DataSet} {table : ItemTable} {sheet : Stylesheet} {minimum : Nat} {x y : IdSet}
  {i : ItemId}

theorem mem_items : i ∈ data.items ↔ ∃ t ∈ data.transactions, i ∈ t.items := by
  rw [items, IdSet.mem_ofList, List.mem_flatMap]
  rfl

theorem count_pos : 0 < data.count x ↔ ∃ t ∈ data.transactions, x ⊆ t.items := by
  simp only [count, List.length_pos_iff_exists_mem, List.mem_filter, decide_eq_true_eq]

theorem count_anti (h : x ⊆ y) : data.count y ≤ data.count x := by
  unfold count
  rw [← List.countP_eq_length_filter, ← List.countP_eq_length_filter]
  refine List.countP_mono_left fun t _ ht => ?_
  rw [decide_eq_true_eq] at ht ⊢
  exact IdSet.subset_trans h ht

theorem mem_items_of_count_pos (h : 0 < data.count x) (hi : i ∈ x) : i ∈ data.items := by
  obtain ⟨t, ht, hx⟩ := count_pos.1 h
  exact mem_items.2 ⟨t, ht, hx i hi⟩

theorem Frequent.subset (hx : data.Frequent minimum x) (hy : ∃ i, i ∈ y) (h : y ⊆ x) :
    data.Frequent minimum y := ⟨hy, Nat.le_trans hx.2 (count_anti h)⟩

theorem not_frequent_of_isEmpty (h : data.isEmpty = true) (hpos : 0 < minimum) :
    ¬ data.Frequent minimum x := by
  intro hx
  obtain ⟨t, ht, -⟩ := count_pos.1 (Nat.lt_of_lt_of_le hpos hx.2)
  rw [List.isEmpty_iff.1 h] at ht
  exact absurd ht List.not_mem_nil

namespace Agrees

variable (hd : data.Agrees table)
include hd

/-- A frequent set is one of the table, counted by its support. -/
theorem of_frequent (hpos : 0 < minimum) (hx : data.Frequent minimum x) :
    table.Has x ∧ data.count x = (table.common x).size := by
  obtain ⟨hne, hmin⟩ := hx
  have hknown : ∀ i ∈ x, i ∈ data.items := fun i hi =>
    mem_items_of_count_pos (Nat.lt_of_lt_of_le hpos hmin) hi
  exact ⟨fun i hi => hd.has i (hknown i hi), hd.count_eq x hne hknown⟩

end Agrees

theorem mem_itemsOf {s : Selector} (hs : s ∈ sheet.selectors) :
    i ∈ itemsOf (.ofSheet sheet) minimum s ↔ ∃ item ∈ (ItemTable.ofSheet sheet).items,
      item.id = i ∧ minimum ≤ item.support.size ∧ s.id ∈ item.support := by
  simp only [itemsOf, IdSet.mem_ofList, List.mem_map, List.mem_filterMap, Option.filter_eq_some_iff,
    decide_eq_true_eq, ItemTable.find?_eq_some]
  refine ⟨?_, ?_⟩
  · rintro ⟨item, ⟨d, hd, ⟨hitem, hshape⟩, hmin⟩, rfl⟩
    exact ⟨item, hitem, rfl, hmin, (ItemTable.mem_support hitem).2 ⟨s, hs, rfl, d, hd, hshape.symm⟩⟩
  · rintro ⟨item, hitem, rfl, hmin, hsup⟩
    obtain ⟨x, hx, hid, d, hd, hshape⟩ := (ItemTable.mem_support hitem).1 hsup
    obtain rfl := Stylesheet.eq_of_id_eq hx hs hid
    exact ⟨item, ⟨d, hd, ⟨hitem, hshape.symm⟩, hmin⟩, rfl⟩

theorem mem_transactions {t : Transaction} :
    t ∈ (ofSheet sheet table minimum).transactions ↔
      ∃ s ∈ sheet.selectors, t = ⟨s.id, itemsOf table minimum s⟩ ∧ ∃ i, i ∈ t.items := by
  simp only [ofSheet, List.mem_filter, List.mem_map, Bool.not_eq_true', IdSet.isEmpty_eq_false]
  refine ⟨?_, ?_⟩
  · rintro ⟨⟨s, hs, rfl⟩, hi⟩
    exact ⟨s, hs, rfl, hi⟩
  · rintro ⟨s, hs, rfl, hi⟩
    exact ⟨⟨s, hs, rfl⟩, hi⟩

/-- The transactions stand in the order of their selectors, none of which has two. -/
theorem selectors_sublist (sheet : Stylesheet) (table : ItemTable) (minimum : Nat) :
    ((ofSheet sheet table minimum).transactions.map (·.selector)).Sublist (sheet.selectors.map (·.id)) := by
  have hsub := (List.filter_sublist (p := (!·.items.isEmpty)) (l := sheet.selectors.map fun s =>
    (⟨s.id, itemsOf table minimum s⟩ : Transaction))).map (·.selector)
  rwa [List.map_map] at hsub

theorem selectors_ascend (sheet : Stylesheet) (table : ItemTable) (minimum : Nat) :
    ((ofSheet sheet table minimum).transactions.map (·.selector)).Pairwise (· < ·) := by
  have hids : (sheet.selectors.map (·.id)).Pairwise (· < ·) := sheet.numbered ▸ List.pairwise_lt_range
  exact hids.sublist (selectors_sublist sheet table minimum)

/-- The transactions know the items that enough selectors declare. -/
theorem mem_items_ofSheet :
    i ∈ (ofSheet sheet (.ofSheet sheet) minimum).items ↔ ∃ item ∈ (ItemTable.ofSheet sheet).items,
      item.id = i ∧ minimum ≤ item.support.size ∧ ∃ s, s ∈ item.support := by
  rw [mem_items]
  refine ⟨?_, ?_⟩
  · rintro ⟨t, ht, hi⟩
    obtain ⟨s, hs, rfl, -⟩ := mem_transactions.1 ht
    obtain ⟨item, hitem, hid, hmin, hsup⟩ := (mem_itemsOf hs).1 hi
    exact ⟨item, hitem, hid, hmin, s.id, hsup⟩
  · rintro ⟨item, hitem, hid, hmin, s, hsup⟩
    obtain ⟨x, hx, rfl, -⟩ := (ItemTable.mem_support hitem).1 hsup
    have hi : i ∈ itemsOf (.ofSheet sheet) minimum x :=
      (mem_itemsOf hx).2 ⟨item, hitem, hid, hmin, hsup⟩
    exact ⟨_, mem_transactions.2 ⟨x, hx, rfl, i, hi⟩, hi⟩

/-- A selector declares all items of a set if it has a transaction and all of them are in it, as far as
enough selectors declare each of the items. -/
theorem mem_common_iff (hx : ∃ i, i ∈ x) (hknown : ∀ i ∈ x, ∃ item ∈ (ItemTable.ofSheet sheet).items,
    item.id = i ∧ minimum ≤ item.support.size) {s : SelectorId} :
    s ∈ (ItemTable.ofSheet sheet).common x ↔
      ∃ t ∈ (ofSheet sheet (.ofSheet sheet) minimum).transactions, x ⊆ t.items ∧ t.selector = s := by
  rw [ItemTable.mem_common]
  constructor
  · rintro ⟨hs, hsup⟩
    obtain ⟨y, hy, rfl⟩ := Stylesheet.exists_selector hs
    have hxy : x ⊆ itemsOf (.ofSheet sheet) minimum y := by
      intro i hi
      obtain ⟨item, hitem, rfl, hmin⟩ := hknown i hi
      exact (mem_itemsOf hy).2 ⟨item, hitem, rfl, hmin, hsup item hitem hi⟩
    obtain ⟨i, hi⟩ := hx
    exact ⟨_, mem_transactions.2 ⟨y, hy, rfl, i, hxy i hi⟩, hxy, rfl⟩
  · rintro ⟨t, ht, hxt, rfl⟩
    obtain ⟨y, hy, rfl, -⟩ := mem_transactions.1 ht
    refine ⟨Stylesheet.id_lt_size hy, fun item hitem hi => ?_⟩
    obtain ⟨j, hj, hid, -, hsup⟩ := (mem_itemsOf hy).1 (hxt _ hi)
    exact ItemTable.eq_of_id_eq hj hitem hid ▸ hsup

/-- So the selectors of the transactions with all of them are the support of the set, each once. -/
theorem selectors_eq_common (hx : ∃ i, i ∈ x) (hknown : ∀ i ∈ x, ∃ item ∈ (ItemTable.ofSheet sheet).items,
    item.id = i ∧ minimum ≤ item.support.size) :
    ((ofSheet sheet (.ofSheet sheet) minimum).transactions.filter fun t => x ⊆ t.items).map (·.selector) =
      ((ItemTable.ofSheet sheet).common x).toList := by
  have hasc := (selectors_ascend sheet (.ofSheet sheet) minimum).sublist
    ((List.filter_sublist (p := fun t : Transaction => decide (x ⊆ t.items))).map (·.selector))
  refine congrArg IdSet.toList (IdSet.ext (s := ⟨_, hasc⟩) fun s => ?_)
  rw [mem_common_iff hx hknown, IdSet.mem_def, List.mem_map]
  simp only [List.mem_filter, decide_eq_true_eq, and_assoc]

theorem agrees_ofSheet (sheet : Stylesheet) (minimum : Nat) :
    (ofSheet sheet (.ofSheet sheet) minimum).Agrees (.ofSheet sheet) := by
  refine ⟨fun i hi => ?_, fun x hx hknown => ?_⟩
  · obtain ⟨item, hitem, rfl, -⟩ := mem_items_ofSheet.1 hi
    exact ItemTable.id_lt_size hitem
  have hselectors := selectors_eq_common hx fun i hi => by
    obtain ⟨item, hitem, hid, hmin, -⟩ := mem_items_ofSheet.1 (hknown i hi)
    exact ⟨item, hitem, hid, hmin⟩
  rw [count, IdSet.size, ← hselectors, List.length_map]

/-- As long as the transactions know all items that can matter, frequent sets are those of the table
that enough selectors share, whatever else the transactions know. -/
theorem frequent_ofSheet {least : Nat} (hle : least ≤ minimum) (hpos : 0 < minimum) :
    (ofSheet sheet (.ofSheet sheet) least).Frequent minimum x ↔
      (∃ i, i ∈ x) ∧ (ItemTable.ofSheet sheet).Has x ∧
        minimum ≤ ((ItemTable.ofSheet sheet).common x).size := by
  have hagrees := agrees_ofSheet sheet least
  refine and_congr_right fun hx => ⟨fun hmin => ?_, ?_⟩
  · obtain ⟨hhas, heq⟩ := hagrees.of_frequent hpos ⟨hx, hmin⟩
    exact ⟨hhas, heq ▸ hmin⟩
  · rintro ⟨hhas, hmin⟩
    rwa [hagrees.count_eq x hx fun i hi => ?_]
    obtain ⟨item, hitem, rfl, -⟩ := ItemTable.get_ok (hhas i hi)
    have hsub : (ItemTable.ofSheet sheet).common x ⊆ item.support := fun s hs =>
      (ItemTable.mem_common.1 hs).2 item hitem hi
    have hsize := Nat.le_trans hmin (IdSet.size_le_of_subset hsub)
    refine mem_items_ofSheet.2 ⟨item, hitem, rfl, Nat.le_trans hle hsize, ?_⟩
    exact List.exists_mem_of_length_pos (Nat.lt_of_lt_of_le hpos hsize)

end DataSet
end StyleMiner
