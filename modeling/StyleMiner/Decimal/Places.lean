import StyleMiner.Decimal.Double
import StyleMiner.Text.Ascii

/-! Printing with a fixed number of decimal places. The digits are those of the exact value, a half
going to the even neighbour. -/

namespace StyleMiner.Double

def fixed (places : Nat) : Double → Text
  | .nan => "NaN".toList
  | .infinite s => if s then "-inf".toList else "inf".toList
  | .finite s m e =>
    let n := nearest (m * Nat.pow 2 e.toNat * Nat.pow 10 places) (Nat.pow 2 (-e).toNat)
    (if s then ['-'] else []) ++ Text.decimal (n / Nat.pow 10 places) ++
      '.' :: Text.paddedDecimal places (n % Nat.pow 10 places)

/-- the number rounded to four decimal places, by way of its ten-thousandfold -/
def toPlaces (x : Double) : Double := div (roundHalfUp (mul x (ofNat 10000))) (ofNat 10000)

/-- At most four decimal places, without zeros at the end; zero has no sign. -/
def render (x : Double) : Text :=
  let t := Text.dropEnd '.' (Text.dropEnd '0' (x.toPlaces.fixed 4))
  if t = "-0".toList then ['0'] else t

end StyleMiner.Double
