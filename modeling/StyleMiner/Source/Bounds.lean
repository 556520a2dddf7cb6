import StyleMiner.Text.Ascii

/-! A position that a list does not have. -/

namespace StyleMiner

structure OutOfBounds where
  length : Nat
  index : Nat
  deriving DecidableEq, Repr

namespace OutOfBounds

def message (e : OutOfBounds) : Text :=
  "index out of bounds: the len is ".toList ++ Text.decimal e.length ++
    " but the index is ".toList ++ Text.decimal e.index

/-- the element at a position, or why there is none -/
def get (xs : List α) (i : Nat) : Except OutOfBounds α :=
  match xs[i]? with
  | some x => .ok x
  | none => .error ⟨xs.length, i⟩

end OutOfBounds
end StyleMiner
