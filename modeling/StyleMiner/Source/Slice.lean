import StyleMiner.Text.Ascii

/-! A source text whose parts are found by their offsets, which count code points. -/

namespace StyleMiner

abbrev Source := Array Char

/-- the part between two offsets, as far as the text goes -/
def Source.slice (s : Source) (start stop : Nat) : Text := (s.extract start stop).toList

theorem Source.slice_toArray (t : Text) (start stop : Nat) :
    Source.slice t.toArray start stop = (t.drop start).take (stop - start) := by
  simp [Source.slice]

end StyleMiner
