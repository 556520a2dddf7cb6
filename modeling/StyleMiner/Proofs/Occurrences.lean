import Mathlib.Data.List.Forall2
import StyleMiner.Proofs.Ranking

/-! Where the declarations of an item stand. Each place that a table records holds a declaration of the
item's shape, and the places go through the sheet as its declarations do. So the first place of an
item holds the first declaration of its shape, and there is one. Shapes are equal exactly where
declarations are equivalent. -/

namespace StyleMiner

variable {sheet : Stylesheet}

namespace Stylesheet

theorem get?_id {x : Selector} (h : x ∈ sheet.selectors) : sheet.get? x.id = some x := by
  obtain ⟨i, hi, rfl⟩ := List.mem_iff_getElem.1 h
  rw [id_getElem hi]
  exact List.getElem?_eq_getElem hi

/-- the declaration at a place, if there is one -/
def declarationAt? (sheet : Stylesheet) (o : Occurrence) : Option Declaration := do
  let selector ← sheet.get? o.selector
  selector.declarations[o.index]?

theorem forall₂_places (sheet : Stylesheet) :
    List.Forall₂ (fun p d => p.1 = d.shape ∧ sheet.declarationAt? p.2 = some d) sheet.places
      sheet.declarations := by
  have hself : List.Forall₂ (fun x y => x ∈ sheet.selectors ∧ x = y) sheet.selectors sheet.selectors :=
    List.forall₂_same.2 fun x hx => ⟨hx, rfl⟩
  refine List.rel_flatMap hself ?_
  rintro x _ ⟨hx, rfl⟩
  rw [List.forall₂_iff_get]
  refine ⟨List.length_mapIdx, fun i hi hi' => ?_⟩
  simp [declarationAt?, get?_id hx, hi']

/-- The first place of a shape holds the first declaration of it. -/
theorem find?_places (sheet : Stylesheet) (shape : Shape) :
    (sheet.places.find? (·.1 == shape)).bind (fun p => sheet.declarationAt? p.2) =
      sheet.declarations.find? (·.shape == shape) := by
  have hall := sheet.forall₂_places
  generalize sheet.places = ps, sheet.declarations = ds at hall ⊢
  induction hall with
  | nil => rfl
  | @cons p d ps ds h _ ih =>
    obtain ⟨hshape, hat⟩ := h
    rw [List.find?_cons, List.find?_cons, hshape]
    cases d.shape == shape
    · exact ih
    · exact hat

end Stylesheet

namespace ItemTable

variable {item : Item}

theorem occurrences_eq (h : item ∈ (ofSheet sheet).items) :
    item.occurrences = (sheet.places.filter (·.1 == item.shape)).map (·.2) := by
  obtain ⟨i, hi, rfl⟩ := List.mem_mapIdx.1 h
  obtain ⟨shape, -, heq⟩ := List.mem_map.1 (List.mem_mergeSort.1 (List.getElem_mem hi))
  rw [← heq]
  rfl

/-- An item stands for the first declaration of its shape. -/
theorem declaration?_eq (h : item ∈ (ofSheet sheet).items) :
    item.declaration? sheet = sheet.declarations.find? (·.shape == item.shape) := by
  rw [← Stylesheet.find?_places, Item.declaration?, occurrences_eq h, List.head?_map, List.head?_filter]
  cases sheet.places.find? (·.1 == item.shape) <;> rfl

theorem exists_declaration (h : item ∈ (ofSheet sheet).items) :
    ∃ d, item.declaration? sheet = some d ∧ d.shape = item.shape := by
  have hshape : item.shape ∈ (ofSheet sheet).shapes := List.mem_map_of_mem h
  obtain ⟨s, hs⟩ := mem_shapes.1 hshape
  obtain ⟨x, hx, -, hd⟩ := Stylesheet.mem_declarers.1 hs
  obtain ⟨d, hd, hdshape⟩ := List.mem_map.1 hd
  have hmem : d ∈ sheet.declarations := List.mem_flatMap.2 ⟨x, hx, hd⟩
  rw [declaration?_eq h]
  cases hf : sheet.declarations.find? (·.shape == item.shape) with
  | none => simpa [hdshape] using List.find?_eq_none.1 hf d hmem
  | some e => exact ⟨e, rfl, by simpa using List.find?_some hf⟩

end ItemTable
end StyleMiner
