import StyleMiner.Proofs.ShapeOrder
import StyleMiner.Proofs.Transactions

/-! The ranking of items. The order of ranks tells apart any two items of distinct shapes, and no two
items of a sheet have one shape, so each item of its table stands strictly before the next. The table
is known by which selectors declare which shapes: the more selectors declare a shape the earlier it
comes, and among equals the order of shapes decides. Nothing else of the sheet goes into it. -/

namespace StyleMiner

/-- Sorting by a total order leaves each element no greater than those behind it. -/
theorem pairwise_mergeSort_isLE {α : Type} (cmp : α → α → Ordering) [Std.TransCmp cmp] (xs : List α) :
    (xs.mergeSort fun a b => (cmp a b).isLE).Pairwise fun a b => (cmp a b).isLE = true := by
  apply List.pairwise_mergeSort
  · intro a b c
    exact Std.TransCmp.isLE_trans
  · intro a b
    have hswap : cmp b a = (cmp a b).swap := Std.OrientedCmp.eq_swap
    rw [hswap]
    cases cmp a b <;> rfl

namespace Item

variable {a b : Item}

instance : Std.TransCmp Item.compare :=
  have : Std.TransCmp fun a b : Item => Ord.compare b.support.size a.support.size :=
    @Std.TransCmp.opposite _ (compareOn fun a : Item => a.support.size) inferInstance
  inferInstanceAs (Std.TransCmp (compareLex (fun a b : Item => Ord.compare b.support.size a.support.size)
    (compareOn shape)))

theorem shape_eq_of_compare (h : a.compare b = .eq) : a.shape = b.shape :=
  Std.LawfulEqOrd.eq_of_compare (compareLex_eq_eq.1 h).2

end Item

namespace Stylesheet

/-- the selectors that have a declaration of a shape -/
def declarers (sheet : Stylesheet) (shape : Shape) : Support :=
  .ofList ((sheet.selectors.filter fun x => shape ∈ x.declarations.map (·.shape)).map (·.id))

/-- the order of shapes in a sheet: by how many selectors declare them, the most first, then their own -/
def compareShapes (sheet : Stylesheet) : Shape → Shape → Ordering :=
  compareLex (fun s t => compare (sheet.declarers t).size (sheet.declarers s).size) compare

def RanksBefore (sheet : Stylesheet) (s t : Shape) : Prop := sheet.compareShapes s t = .lt

variable {sheet : Stylesheet} {shape : Shape} {s : SelectorId}

instance : Std.TransCmp sheet.compareShapes :=
  have : Std.TransCmp fun s t => compare (sheet.declarers t).size (sheet.declarers s).size :=
    @Std.TransCmp.opposite _ (compareOn fun s => (sheet.declarers s).size) inferInstance
  inferInstanceAs (Std.TransCmp (compareLex _ compare))

instance : Std.Irrefl sheet.RanksBefore where
  irrefl s h := by
    have hself : sheet.compareShapes s s = .eq := Std.ReflCmp.compare_self
    rw [RanksBefore, hself] at h
    cases h

instance : Std.Antisymm sheet.RanksBefore where
  antisymm _ _ h h' := absurd h' (Std.OrientedCmp.not_lt_of_lt h)

theorem mem_declarers : s ∈ sheet.declarers shape ↔
    ∃ x ∈ sheet.selectors, x.id = s ∧ shape ∈ x.declarations.map (·.shape) := by
  simp only [declarers, IdSet.mem_ofList, List.mem_map, List.mem_filter, decide_eq_true_eq]
  exact exists_congr fun x => by tauto

theorem lt_size_of_mem_declarers (h : s ∈ sheet.declarers shape) : s < sheet.size := by
  obtain ⟨x, hx, rfl, -⟩ := mem_declarers.1 h
  exact id_lt_size hx

end Stylesheet

namespace ItemTable

variable {sheet : Stylesheet} {item : Item} {shape : Shape}

/-- the shapes of the items by rank -/
def shapes (t : ItemTable) : List Shape := t.items.map (·.shape)

theorem support_eq_declarers (h : item ∈ (ofSheet sheet).items) :
    item.support = sheet.declarers item.shape := by
  refine IdSet.ext fun s => ?_
  rw [mem_support h, Stylesheet.mem_declarers]
  simp only [List.mem_map]

theorem mem_shapes : shape ∈ (ofSheet sheet).shapes ↔ ∃ s, s ∈ sheet.declarers shape := by
  simp only [shapes, (map_shape_items sheet).mem_iff, List.mem_eraseDups, List.mem_map,
    Stylesheet.mem_declarers]
  constructor
  · rintro ⟨p, hp, rfl⟩
    obtain ⟨x, hx, i, hi, rfl⟩ := mem_places.1 hp
    exact ⟨x.id, x, hx, rfl, _, List.getElem_mem hi, rfl⟩
  · rintro ⟨s, x, hx, rfl, d, hd, rfl⟩
    obtain ⟨i, hi, rfl⟩ := List.mem_iff_getElem.1 hd
    exact ⟨_, mem_places.2 ⟨x, hx, i, hi, rfl⟩, rfl⟩

/-- Each item ranks strictly before those behind it. -/
theorem items_ascending (sheet : Stylesheet) :
    (ofSheet sheet).items.Pairwise fun a b => a.compare b = .lt := by
  have hranked : (ranked sheet).Pairwise fun a b => (a.compare b).isLE = true :=
    pairwise_mergeSort_isLE Item.compare _
  have hsorted : (ofSheet sheet).items.Pairwise fun a b => (a.compare b).isLE = true := by
    rw [List.pairwise_iff_getElem] at hranked ⊢
    intro i j hi hj hij
    simp only [ofSheet, List.length_mapIdx, List.getElem_mapIdx] at hi hj ⊢
    exact hranked i j hi hj hij
  have hne : (ofSheet sheet).items.Pairwise fun a b => a.shape ≠ b.shape :=
    List.pairwise_map.1 (nodup_shapes sheet)
  refine hsorted.imp₂ (fun a b hle hne => ?_) hne
  cases h : a.compare b with
  | lt => rfl
  | eq => exact absurd (Item.shape_eq_of_compare h) hne
  | gt => simp [h] at hle

theorem shapes_ascending (sheet : Stylesheet) : (ofSheet sheet).shapes.Pairwise sheet.RanksBefore := by
  refine List.pairwise_map.2 ((items_ascending sheet).imp_of_mem fun {a b} ha hb h => ?_)
  rw [Item.compare, compareLex, support_eq_declarers ha, support_eq_declarers hb] at h
  exact h

theorem length_shapes (t : ItemTable) : t.shapes.length = t.size := List.length_map _

/-- The items are the shapes in order, each with its rank and the selectors that declare it. -/
theorem items_eq (sheet : Stylesheet) :
    (ofSheet sheet).items.map (fun item => (item.id, item.shape, item.support)) =
      (ofSheet sheet).shapes.mapIdx fun rank shape => (rank, shape, sheet.declarers shape) := by
  apply List.ext_getElem
  · simp [shapes]
  · intro i hi _
    have hi' : i < (ofSheet sheet).items.length := by simpa using hi
    simp [shapes, id_getElem hi', support_eq_declarers (List.getElem_mem hi')]

theorem lt_size_of_mem_common {x : IdSet} : ∀ s ∈ (ofSheet sheet).common x, s < sheet.size :=
  fun _ hs => (mem_common.1 hs).1

/-- The selectors in a common support are those that declare the shapes of all its items. -/
theorem mem_common_ofSheet {x : IdSet} {s : SelectorId} : s ∈ (ofSheet sheet).common x ↔
    s < sheet.size ∧ ∀ i ∈ x, ∀ shape ∈ (ofSheet sheet).shapes[i]?, s ∈ sheet.declarers shape := by
  have hcount : (ofSheet sheet).selectorCount = sheet.size := rfl
  rw [mem_common, hcount]
  refine and_congr_right fun _ => ?_
  constructor
  · intro h i hi shape hshape
    obtain ⟨item, hitem, rfl⟩ := Option.map_eq_some_iff.1 (List.getElem?_map ▸ hshape)
    obtain ⟨hlt, rfl⟩ := List.getElem?_eq_some_iff.1 hitem
    have hmem := List.getElem_mem hlt
    rw [← support_eq_declarers hmem]
    exact h _ hmem ((id_getElem hlt).symm ▸ hi)
  · intro h item hitem hi
    rw [support_eq_declarers hitem]
    apply h _ hi
    obtain ⟨i, hlt, rfl⟩ := List.mem_iff_getElem.1 hitem
    simp [shapes, id_getElem hlt, hlt]

end ItemTable
end StyleMiner
