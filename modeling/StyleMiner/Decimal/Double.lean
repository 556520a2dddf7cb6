/-! Binary floating point with 53 significant bits. A finite number is a significand times a power
of two, and every operation is the exact rational result rounded once: to the nearest such number,
of two equally near to the one with the even significand, and to an infinity beyond the largest.
Zero has a sign, which the order does not see; a NaN compares with nothing. -/

namespace StyleMiner

inductive Double where
  | nan
  | infinite (negative : Bool)
  | finite (negative : Bool) (significand : Nat) (exponent : Int)
  deriving DecidableEq, Repr

namespace Double

def precision : Nat := 53

def minExponent : Int := -1074

def maxExponent : Int := 971

def zero (negative : Bool) : Double := .finite negative 0 minExponent

/-- the natural number nearest to `n / d`, the even one of two -/
def nearest (n d : Nat) : Nat :=
  let q := n / d
  let r := n % d
  if 2 * r < d then q else if d < 2 * r then q + 1 else if q % 2 = 0 then q else q + 1

/-- the greatest `k` with `2 ^ k ≤ n / d`, for positive `n` and `d` -/
def magnitude (n d : Nat) : Int :=
  let k : Int := (n.log2 : Int) - d.log2
  if d * Nat.pow 2 k.toNat ≤ n * Nat.pow 2 (-k).toNat then k else k - 1

def pack (negative : Bool) (m : Nat) (e : Int) : Double :=
  if maxExponent < e then .infinite negative else .finite negative m e

/-- rounds `n / d`, for positive `n` and `d` -/
def roundQuotient (negative : Bool) (n d : Nat) : Double :=
  let e := max minExponent (magnitude n d - (precision - 1))
  let m := nearest (n * Nat.pow 2 (-e).toNat) (d * Nat.pow 2 e.toNat)
  if m = Nat.pow 2 precision then pack negative (Nat.pow 2 (precision - 1)) (e + 1)
  else pack negative m e

/-- rounds a rational number; an exact zero takes the given sign -/
def round (zeroNegative : Bool) (q : Rat) : Double :=
  if q = 0 then zero zeroNegative else roundQuotient (q < 0) q.num.natAbs q.den

def ofNat (n : Nat) : Double := round false n

/-- the nearest number to `n / d` -/
def ofRatio (n d : Nat) : Double := round false (mkRat n d)

/-- the number itself; zero for an infinity or a NaN -/
def value : Double → Rat
  | .finite s m e =>
    let q : Rat := mkRat (m * Nat.pow 2 e.toNat : Nat) (Nat.pow 2 (-e).toNat)
    if s then -q else q
  | _ => 0

def isNan : Double → Bool
  | .nan => true
  | _ => false

def isFinite : Double → Bool
  | .finite .. => true
  | _ => false

def isNegative : Double → Bool
  | .nan => false
  | .infinite s => s
  | .finite s _ _ => s

def isZero : Double → Bool
  | .finite _ m _ => m == 0
  | _ => false

def neg : Double → Double
  | .nan => .nan
  | .infinite s => .infinite !s
  | .finite s m e => .finite (!s) m e

def abs : Double → Double
  | .nan => .nan
  | .infinite _ => .infinite false
  | .finite _ m e => .finite false m e

def add : Double → Double → Double
  | .nan, _ | _, .nan => .nan
  | .infinite s, .infinite t => if s = t then .infinite s else .nan
  | .infinite s, _ => .infinite s
  | _, .infinite t => .infinite t
  | x, y => round (x.isNegative && y.isNegative) (x.value + y.value)

def sub (x y : Double) : Double := add x (neg y)

def mul : Double → Double → Double
  | .nan, _ | _, .nan => .nan
  | .infinite s, y => if y.isZero then .nan else .infinite (s ^^ y.isNegative)
  | x, .infinite t => if x.isZero then .nan else .infinite (x.isNegative ^^ t)
  | x, y => round (x.isNegative ^^ y.isNegative) (x.value * y.value)

def div : Double → Double → Double
  | .nan, _ | _, .nan => .nan
  | .infinite _, .infinite _ => .nan
  | .infinite s, y => .infinite (s ^^ y.isNegative)
  | x, .infinite t => zero (x.isNegative ^^ t)
  | x, y =>
    if y.isZero then if x.isZero then .nan else .infinite (x.isNegative ^^ y.isNegative)
    else round (x.isNegative ^^ y.isNegative) (x.value / y.value)

/-- the remainder of a division that truncates; it has the sign of the dividend -/
def rem : Double → Double → Double
  | .nan, _ | _, .nan | .infinite _, _ => .nan
  | x, .infinite _ => x
  | x, y =>
    if y.isZero then .nan
    else
      let q := x.value / y.value
      round x.isNegative (x.value - y.value * (q.num.tdiv q.den : Int))

def lt : Double → Double → Bool
  | .nan, _ | _, .nan => false
  | .infinite s, .infinite t => s && !t
  | .infinite s, _ => s
  | _, .infinite t => !t
  | x, y => x.value < y.value

/-- the remainder of a division that rounds down for a positive divisor; one that is just below zero
may be rounded up to the divisor itself -/
def modulo (x y : Double) : Double :=
  let r := rem x y
  if lt r (zero false) then add r y.abs else r

/-- brings a number between two bounds; a NaN stays -/
def clamp (x low high : Double) : Double :=
  let x := if lt x low then low else x
  if lt high x then high else x

/-- the magnitude without its fraction -/
def floorMagnitude (m : Nat) (e : Int) : Nat := m * Nat.pow 2 e.toNat / Nat.pow 2 (-e).toNat

/-- the nearest integer, a half going away from zero -/
def roundHalfUp : Double → Double
  | .finite s m e =>
    if 0 ≤ e then .finite s m e
    else round s (if s then -(floorMagnitude (2 * m + Nat.pow 2 (-e).toNat) (e - 1) : Rat)
      else floorMagnitude (2 * m + Nat.pow 2 (-e).toNat) (e - 1))
  | x => x

/-- the integer part of a finite number that is not negative; else zero -/
def toNat : Double → Nat
  | .finite false m e => floorMagnitude m e
  | _ => 0

/-- the interchange form in 64 bits: sign, biased exponent, fraction -/
def toBits : Double → Nat
  | .nan => 0x7FF8000000000000
  | .infinite s => s.toNat * Nat.pow 2 63 + 0x7FF0000000000000
  | .finite s m e =>
    s.toNat * Nat.pow 2 63 +
      if m < Nat.pow 2 (precision - 1) then m
      else (e + 1075).toNat * Nat.pow 2 (precision - 1) + (m - Nat.pow 2 (precision - 1))

end Double
end StyleMiner
