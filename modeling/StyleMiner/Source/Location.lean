import StyleMiner.Text.Ascii

/-! Places in a source text: an offset in code points from zero, a line and a column from one. Only
a line feed starts a new line. The order is by offset first. -/

namespace StyleMiner

structure Location where
  offset : Nat
  line : Nat
  column : Nat
  deriving DecidableEq, Repr, Ord

namespace Location

def start : Location := ⟨0, 1, 1⟩

/-- the place after the code point `c` that stands at `l` -/
def advance (l : Location) (c : Char) : Location :=
  if c = '\n' then ⟨l.offset + 1, l.line + 1, 1⟩ else ⟨l.offset + 1, l.line, l.column + 1⟩

def advanceOver (l : Location) (t : Text) : Location := t.foldl advance l

/-- a place as shown to people, `line:column` -/
def render (l : Location) : Text := Text.decimal l.line ++ ':' :: Text.decimal l.column

theorem advance_offset (l : Location) (c : Char) : (l.advance c).offset = l.offset + 1 := by
  unfold advance; split <;> rfl

theorem advanceOver_append (l : Location) (a b : Text) :
    l.advanceOver (a ++ b) = (l.advanceOver a).advanceOver b := List.foldl_append

theorem advanceOver_offset (l : Location) (t : Text) :
    (l.advanceOver t).offset = l.offset + t.length := by
  induction t generalizing l with
  | nil => rfl
  | cons c t ih =>
    rw [advanceOver, List.foldl_cons, ← advanceOver, ih, advance_offset, List.length_cons]
    omega

end Location
end StyleMiner
