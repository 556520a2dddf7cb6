/-! Text is a list of code points. Letter case and digits are read here in ASCII alone: a code point
above 127 is its own lower case and is never a digit. -/

namespace StyleMiner

abbrev Text := List Char

namespace Text

def lower (t : Text) : Text := t.map Char.toLower

/-- equal up to the case of ASCII letters -/
def sameLetters (a b : Text) : Bool := a.lower == b.lower

def isHexDigit (c : Char) : Bool :=
  c.isDigit || ('a' ≤ c && c ≤ 'f') || ('A' ≤ c && c ≤ 'F')

/-- the value of one hexadecimal digit -/
def hexDigit (c : Char) : Nat :=
  if c.isDigit then c.toNat - 48 else c.toLower.toNat - 87

def ofHex (ds : Text) : Nat := ds.foldl (fun n c => 16 * n + hexDigit c) 0

def ofDecimal (ds : Text) : Nat := ds.foldl (fun n c => 10 * n + (c.toNat - 48)) 0

def decimal (n : Nat) : Text := Nat.toDigits 10 n

/-- the decimal digits of a number, zeros in front up to the given width -/
def paddedDecimal (width n : Nat) : Text :=
  List.replicate (width - (decimal n).length) '0' ++ decimal n

/-- without the longest run of `c` at the end -/
def dropEnd (c : Char) (t : Text) : Text := (t.reverse.dropWhile (· == c)).reverse

theorem length_lower (t : Text) : t.lower.length = t.length := List.length_map _

theorem lower_append (a b : Text) : (a ++ b).lower = a.lower ++ b.lower := List.map_append

theorem sameLetters_iff (a b : Text) : a.sameLetters b = true ↔ a.lower = b.lower := beq_iff_eq

end Text
end StyleMiner
