import StyleMiner.Decimal.Double
import StyleMiner.Text.Ascii

/-! Decimal numerals: an optional sign, digits with at most one point among or beside them, and an
optional power of ten. The number a numeral stands for is its exact value, rounded once. -/

namespace StyleMiner

/-- the number `± digits * 10 ^ scale` -/
structure Numeral where
  negative : Bool
  digits : Nat
  scale : Int
  deriving DecidableEq, Repr

namespace Numeral

/-- splits off a sign, if there is one -/
def sign : Text → Bool × Text
  | '-' :: t => (true, t)
  | '+' :: t => (false, t)
  | t => (false, t)

/-- reads what follows the digits: nothing, or a power of ten -/
def exponent? : Text → Option Int
  | [] => some 0
  | c :: t =>
    if c = 'e' ∨ c = 'E' then
      let (negative, ds) := sign t
      if ds ≠ [] ∧ ds.all Char.isDigit then
        some (if negative then -(Text.ofDecimal ds : Int) else Text.ofDecimal ds)
      else none
    else none

def ofText? (t : Text) : Option Numeral :=
  let (negative, t) := sign t
  let whole := t.takeWhile Char.isDigit
  let rest := t.drop whole.length
  let fraction := if rest.head? = some '.' then rest.tail.takeWhile Char.isDigit else []
  let rest := if rest.head? = some '.' then rest.tail.drop fraction.length else rest
  if whole = [] ∧ fraction = [] then none
  else (exponent? rest).map fun e =>
    ⟨negative, Text.ofDecimal (whole ++ fraction), e - fraction.length⟩

/-- how many decimal digits a number has -/
def width (n : Nat) : Nat := (Nat.toDigits 10 n).length

/-- A value of 10 ^ 310 or more is beyond the largest number and one below 10 ^ (-330) is nearest to
zero, so powers of ten stay small. -/
def toDouble (x : Numeral) : Double :=
  let top : Int := width x.digits + x.scale
  if x.digits = 0 ∨ top < -330 then .zero x.negative
  else if 310 < top then .infinite x.negative
  else .roundQuotient x.negative (x.digits * Nat.pow 10 x.scale.toNat) (Nat.pow 10 (-x.scale).toNat)

end Numeral

/-- reads a numeral, or the name of an infinity or of a NaN in any case -/
def Double.ofText? (t : Text) : Option Double :=
  match Numeral.ofText? t with
  | some x => some x.toDouble
  | none =>
    let (negative, name) := Numeral.sign t
    if name.lower = "inf".toList ∨ name.lower = "infinity".toList then some (.infinite negative)
    else if name.lower = "nan".toList then some .nan
    else none

end StyleMiner
