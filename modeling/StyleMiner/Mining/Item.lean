import StyleMiner.Mining.Fault
import StyleMiner.Sheet.Basic

/-! Items: the shapes that the declarations of a sheet have, each with the selectors that declare
it. They are ranked by support, the widest first, and by shape among equals; the id of an item is
its rank. -/

namespace StyleMiner

abbrev ItemId := Nat

/-- the place of a declaration: its selector, and how many declarations of that stand before it -/
structure Occurrence where
  selector : SelectorId
  index : Nat
  deriving DecidableEq, Repr

structure Item where
  id : ItemId
  shape : Shape
  support : Support
  occurrences : List Occurrence
  deriving DecidableEq, Repr

/-- Items are numbered by rank, and only selectors of the sheet declare them. -/
structure ItemTable where
  items : List Item
  selectorCount : Nat
  numbered : items.map (·.id) = List.range items.length
  supported : ∀ item ∈ items, ∀ s ∈ item.support, s < selectorCount

namespace Item

/-- the order of ranks -/
def compare : Item → Item → Ordering :=
  compareLex (fun a b => Ord.compare b.support.size a.support.size) (compareOn (·.shape))

/-- the first declaration of the item, in a sheet that has one there -/
def declaration? (item : Item) (sheet : Stylesheet) : Option Declaration := do
  let first ← item.occurrences.head?
  let selector ← sheet.get? first.selector
  selector.declarations[first.index]?

/-- the item of a shape among all declarations with their places, without its rank -/
def ofShape (places : List (Shape × Occurrence)) (shape : Shape) : Item :=
  let occurrences := (places.filter (·.1 == shape)).map (·.2)
  ⟨0, shape, .ofList (occurrences.map (·.selector)), occurrences⟩

end Item

/-- the shapes of all declarations of a sheet with their places, in document order -/
def Stylesheet.places (sheet : Stylesheet) : List (Shape × Occurrence) :=
  sheet.selectors.flatMap fun s => s.declarations.mapIdx fun i d => (d.shape, ⟨s.id, i⟩)

theorem Stylesheet.selector_lt_of_mem_places {sheet : Stylesheet} {p : Shape × Occurrence}
    (h : p ∈ sheet.places) : p.2.selector < sheet.size := by
  obtain ⟨s, hs, hp⟩ := List.mem_flatMap.1 h
  obtain ⟨i, hi, rfl⟩ := List.mem_mapIdx.1 hp
  exact id_lt_size hs

namespace ItemTable

def empty : ItemTable := ⟨[], 0, rfl, fun _ h => nomatch h⟩

/-- the items of a sheet in the order of their ranks, not yet numbered -/
def ranked (sheet : Stylesheet) : List Item :=
  let places := sheet.places
  (((places.map (·.1)).eraseDups).map (Item.ofShape places)).mergeSort fun a b => (a.compare b).isLE

theorem support_of_mem_ranked {sheet : Stylesheet} {item : Item} (h : item ∈ ranked sheet)
    {s : SelectorId} (hs : s ∈ item.support) : s < sheet.size := by
  obtain ⟨shape, -, rfl⟩ := List.mem_map.1 (List.mem_mergeSort.1 h)
  obtain ⟨o, ho, rfl⟩ := List.mem_map.1 (IdSet.mem_ofList.1 hs)
  obtain ⟨p, hp, rfl⟩ := List.mem_map.1 ho
  exact Stylesheet.selector_lt_of_mem_places (List.mem_filter.1 hp).1

def ofSheet (sheet : Stylesheet) : ItemTable where
  items := (ranked sheet).mapIdx fun rank item => { item with id := rank }
  selectorCount := sheet.size
  numbered := by
    apply List.ext_getElem <;> simp
  supported := by
    intro item h s hs
    obtain ⟨i, hi, rfl⟩ := List.mem_mapIdx.1 h
    exact support_of_mem_ranked (List.getElem_mem hi) hs

def size (t : ItemTable) : Nat := t.items.length

def get (t : ItemTable) (id : ItemId) : Except Fault Item :=
  (OutOfBounds.get t.items id).mapError .outOfBounds

def find? (t : ItemTable) (shape : Shape) : Option Item := t.items.find? (·.shape == shape)

/-- the items that at least so many selectors declare -/
def frequent (t : ItemTable) (minimum : Nat) : List Item :=
  t.items.takeWhile (minimum ≤ ·.support.size)

/-- the support of no item at all: every selector -/
def everySelector (t : ItemTable) : Support := .below t.selectorCount

end ItemTable
end StyleMiner
