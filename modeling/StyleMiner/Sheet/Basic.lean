import StyleMiner.Source.Bounds
import StyleMiner.Value.Canonical

/-! Stylesheets: selectors in document order, each with the declarations of its block. A selector is
known by its place in the sheet; the same text at another place is another selector. Declarations
are equivalent when property, importance and the canonical forms of all values agree. -/

namespace StyleMiner

abbrev SelectorId := Nat

/-- a value as it was written, the kind it was read as, and its canonical form -/
structure Value where
  raw : Text
  kind : Kind
  canonical : Canonical
  deriving DecidableEq, Repr

structure Declaration where
  property : Text
  values : List Value
  important : Bool
  selector : SelectorId
  location : Location
  deriving DecidableEq, Repr

/-- a rule's selector list with the conditions around it, outermost first, and its block -/
structure Selector where
  id : SelectorId
  text : Text
  media : Option Text
  location : Location
  declarations : List Declaration
  deriving DecidableEq, Repr

/-- Selectors are numbered in document order. -/
structure Stylesheet where
  selectors : List Selector
  numbered : selectors.map (·.id) = List.range selectors.length
  deriving DecidableEq, Repr

/-- what a declaration declares, apart from where and in which words -/
structure Shape where
  property : Text
  values : List Canonical
  important : Bool
  deriving DecidableEq, Repr

/-- appends a value to the values in front of it, a space between them except before a comma -/
def joinValue (out : Text) (v : Kind × Text) : Text :=
  if out ≠ [] ∧ ¬(v.1 = .separator ∧ v.2 = [',']) then out ++ ' ' :: v.2 else out ++ v.2

def joinValues (vs : List (Kind × Text)) : Text := vs.foldl joinValue []

def declarationText (property values : Text) (important : Bool) : Text :=
  property ++ ": ".toList ++ values ++ if important then " !important".toList else []

namespace Shape

/-- the shape as a declaration, which need not tell it from all others -/
def key (s : Shape) : Text :=
  declarationText s.property (joinValues (s.values.map fun v => (v.kind, v.text))) s.important

/-- by key, then by values -/
instance : Ord Shape := ⟨compareLex (compareOn key) (compareOn (·.values))⟩

end Shape

namespace Value

def ofRaw (property raw : Text) (kind : Kind) : Value :=
  ⟨raw, kind, Canonical.ofValue property raw kind⟩

def equivalent (a b : Value) : Bool := a.canonical == b.canonical

end Value

namespace Declaration

/-- Property and values are trimmed, and the property's letters are small. -/
def ofRaw (property : Text) (values : List (Text × Kind)) (important : Bool) (selector : SelectorId)
    (location : Location) : Declaration :=
  let property := property.trim.lower
  ⟨property, values.map fun v => .ofRaw property v.1.trim v.2, important, selector, location⟩

/-- the warnings that the values of a declaration are worth -/
def warnings (property : Text) (values : List (Text × Kind)) : List Warning :=
  values.filterMap fun v => Canonical.unknownUnit? property v.1 v.2

def equivalent (a b : Declaration) : Bool :=
  a.property == b.property && a.important == b.important &&
    a.values.length == b.values.length && (a.values.zip b.values).all fun v => v.1.equivalent v.2

def shape (d : Declaration) : Shape := ⟨d.property, d.values.map (·.canonical), d.important⟩

/-- the values as they were written -/
def valueText (d : Declaration) : Text := joinValues (d.values.map fun v => (v.kind, v.raw))

def render (d : Declaration) : Text := declarationText d.property d.valueText d.important

end Declaration

/-- the conditions, the selector list and the place, which no two selectors share -/
def Selector.identity (s : Selector) : Text :=
  s.media.elim [] (· ++ [' ']) ++ s.text ++ " (".toList ++ s.location.render ++ [')']

namespace Stylesheet

def empty : Stylesheet := ⟨[], rfl⟩

def size (s : Stylesheet) : Nat := s.selectors.length

def get? (s : Stylesheet) (id : SelectorId) : Option Selector := s.selectors[id]?

def declarations (s : Stylesheet) : List Declaration := s.selectors.flatMap (·.declarations)

/-- adds a selector without declarations, whose id is the size of the sheet -/
def addSelector (s : Stylesheet) (text : Text) (media : Option Text) (location : Location) :
    Stylesheet where
  selectors := s.selectors ++ [⟨s.size, text, media, location, []⟩]
  numbered := by
    rw [List.map_append, s.numbered, List.length_append, List.length_singleton, List.range_succ]
    rfl

/-- the selector with a declaration more, if it is the declaration's -/
def appendTo (d : Declaration) (x : Selector) : Selector :=
  if x.id = d.selector then { x with declarations := x.declarations ++ [d] } else x

theorem appendTo_id (d : Declaration) (x : Selector) : (appendTo d x).id = x.id := by
  unfold appendTo; split <;> rfl

/-- adds a declaration to its selector -/
def addDeclaration (s : Stylesheet) (d : Declaration) : Except OutOfBounds Stylesheet :=
  if d.selector < s.size then
    .ok {
      selectors := s.selectors.map (appendTo d)
      numbered := by
        rw [List.map_map, List.length_map, ← s.numbered]
        exact List.map_congr_left fun x _ => appendTo_id d x }
  else .error ⟨s.size, d.selector⟩

theorem id_getElem {s : Stylesheet} {i : Nat} (h : i < s.selectors.length) : s.selectors[i].id = i := by
  have hid : (s.selectors.map (·.id))[i]? = some i := by
    rw [s.numbered, List.getElem?_range h]
  simpa [h] using hid

theorem id_lt_size {s : Stylesheet} {x : Selector} (h : x ∈ s.selectors) : x.id < s.size := by
  have hx := List.mem_map_of_mem (f := (·.id)) h
  rw [s.numbered] at hx
  exact List.mem_range.1 hx

end Stylesheet
end StyleMiner
