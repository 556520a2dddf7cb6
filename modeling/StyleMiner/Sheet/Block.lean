import StyleMiner.Component.Tree
import StyleMiner.Sheet.Notice
import StyleMiner.Source.Slice
import StyleMiner.Value.Reading

/-! Reading the block of a rule: declarations parted by semicolons, up to the brace that closes it.
A piece that is no declaration is skipped to the next semicolon outside brackets. -/

namespace StyleMiner

/-- a declaration as written: its values are slices of the source with the kinds they are read as -/
structure RawDeclaration where
  property : Text
  values : List (Text × Kind)
  important : Bool
  location : Location
  deriving DecidableEq, Repr

/-- a piece of a block: a declaration, or what was there instead -/
inductive BlockItem where
  | declaration (d : RawDeclaration)
  | notice (n : Notice)
  deriving DecidableEq, Repr

namespace BlockItem

def endsDeclaration (t : Token) : Bool := t == .semicolon || t == .closing .curly

def isBang : Component → Bool
  | .token (.delim '!') => true
  | _ => false

def isImportant : Component → Bool
  | .token (.ident name) => name.sameLetters "important".toList
  | _ => false

/-- takes `!important` off the end of the values -/
def splitImportant (vs : List Spanned) : List Spanned × Bool :=
  match vs.reverse with
  | word :: bang :: before =>
    if isBang bang.component && isImportant word.component then (before.reverse, true)
    else (vs, false)
  | _ => (vs, false)

/-- what the components between colon and semicolon make of a declaration -/
def ofValues (source : Source) (property : Text) (location : Location) (cs : List Spanned) :
    BlockItem :=
  let r := splitImportant (cs.filter (!·.component.isWhitespace))
  if r.1.isEmpty then .notice (.missingValue property location)
  else
    let values := r.1.map fun v => (source.slice v.start v.stop, v.component.kind)
    .declaration ⟨property, values, r.2, location⟩

/-- reads on after the name of a property -/
def readDeclaration (source : Source) (property : Text) (location : Location) (ts : List Located) :
    BlockItem × List Located :=
  match ts.dropWhile (·.token == .whitespace) with
  | t :: ts =>
    if t.token = .colon then
      let r := Component.takeUntil endsDeclaration ts
      (ofValues source property location r.1, r.2)
    else
      (.notice (.missingColon property location), (Component.takeUntil endsDeclaration (t :: ts)).2)
  | [] => (.notice (.missingColon property location), [])

theorem readDeclaration_suffix (source : Source) (property : Text) (location : Location)
    (ts : List Located) : (readDeclaration source property location ts).2 <:+ ts := by
  have h := List.dropWhile_suffix (l := ts) (·.token == .whitespace)
  unfold readDeclaration
  split
  · next t rest hr =>
    rw [hr] at h
    split
    · exact (Component.takeUntil_suffix _ _).trans ((List.suffix_cons t rest).trans h)
    · exact (Component.takeUntil_suffix _ _).trans h
  · exact List.nil_suffix

/-- the pieces of a block whose opening brace has been read, and the tokens behind its end -/
def readBlock (source : Source) : List Located → List BlockItem × List Located
  | [] => ([], [])
  | t :: ts =>
    if t.token = .eof then ([], t :: ts)
    else if t.token = .closing .curly then ([], ts)
    else if t.token = .whitespace ∨ t.token = .semicolon then readBlock source ts
    else
      match t.token with
      | .ident property =>
        let d := readDeclaration source property t.start ts
        let r := readBlock source d.2
        (d.1 :: r.1, r.2)
      | _ =>
        let skipped := Component.takeUntil endsDeclaration (t :: ts)
        let r := readBlock source skipped.2
        (.notice (.invalidDeclaration t.start) :: r.1, r.2)
termination_by ts => ts.length
decreasing_by
  · exact Nat.lt_succ_self _
  · exact Nat.lt_succ_of_le (readDeclaration_suffix ..).length_le
  · have h := Component.takeUntil_cons_suffix endsDeclaration t ts ‹_› (by
      simp only [endsDeclaration, Bool.or_eq_false_iff, beq_eq_false_iff_ne]
      exact ⟨fun h => ‹¬(_ ∨ _)› (.inr h), ‹_›⟩)
    exact Nat.lt_succ_of_le h.length_le

theorem readBlock_suffix (source : Source) (ts : List Located) :
    (readBlock source ts).2 <:+ ts := by
  fun_induction readBlock source ts with
  | case1 => exact List.suffix_refl _
  | case2 => exact List.suffix_refl _
  | case3 t ts => exact List.suffix_cons t ts
  | case4 t ts _ _ _ ih => exact ih.trans (List.suffix_cons t ts)
  | case5 t ts _ _ _ property _ _ _ ih =>
    exact ih.trans ((readDeclaration_suffix ..).trans (List.suffix_cons t ts))
  | case6 t ts _ _ _ _ _ _ ih => exact ih.trans (Component.takeUntil_suffix _ _)

end BlockItem
end StyleMiner
