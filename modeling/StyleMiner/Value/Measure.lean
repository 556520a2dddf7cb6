import StyleMiner.Decimal.Double
import StyleMiner.Value.Kind

/-! Units. What a unit measures is known for the units listed here, in any letter case; those that
are not relative to a context convert to one base unit for each measure. -/

namespace StyleMiner

inductive Measure where
  | length
  | angle
  | time
  | frequency
  | resolution
  deriving DecidableEq, Repr

namespace Measure

def kind : Measure → Kind
  | length => .length
  | angle => .angle
  | time => .time
  | frequency => .frequency
  | resolution => .resolution

/-- an inch is 96 pixels and 2.54 centimetres -/
def pixelsPerInch : Double := .ofNat 96

def pixelsPerCentimetre : Double := pixelsPerInch.div (.ofRatio 254 100)

/-- half a turn is 180 degrees and π radians -/
def pi : Double := .ofRatio 884279719003555 281474976710656

/-- the units that convert: what they measure, their factor, and their base unit -/
def convertible : List (String × Measure × Double × String) := [
  ("px", length, .ofNat 1, "px"),
  ("in", length, pixelsPerInch, "px"),
  ("cm", length, pixelsPerCentimetre, "px"),
  ("mm", length, pixelsPerCentimetre.div (.ofNat 10), "px"),
  ("q", length, pixelsPerCentimetre.div (.ofNat 40), "px"),
  ("pt", length, pixelsPerInch.div (.ofNat 72), "px"),
  ("pc", length, pixelsPerInch.div (.ofNat 6), "px"),
  ("deg", angle, .ofNat 1, "deg"),
  ("grad", angle, .ofRatio 9 10, "deg"),
  ("rad", angle, (Double.ofNat 180).div pi, "deg"),
  ("turn", angle, .ofNat 360, "deg"),
  ("ms", time, .ofNat 1, "ms"),
  ("s", time, .ofNat 1000, "ms"),
  ("hz", frequency, .ofNat 1, "hz"),
  ("khz", frequency, .ofNat 1000, "hz"),
  ("dppx", resolution, .ofNat 1, "dppx"),
  ("x", resolution, .ofNat 1, "dppx"),
  ("dpi", resolution, (Double.ofNat 1).div pixelsPerInch, "dppx"),
  ("dpcm", resolution, (Double.ofNat 1).div pixelsPerCentimetre, "dppx")]

/-- lengths relative to a font, a viewport or a container -/
def relativeLengths : List String := [
  "em", "rem", "ex", "rex", "cap", "rcap", "ch", "rch", "ic", "ric", "lh", "rlh", "vw", "vh",
  "vi", "vb", "vmin", "vmax", "svw", "svh", "lvw", "lvh", "dvw", "dvh", "cqw", "cqh", "cqi",
  "cqb", "cqmin", "cqmax"]

def conversion? (unit : Text) : Option (Measure × Double × String) :=
  (convertible.find? (·.1.toList == unit.lower)).map (·.2)

/-- what a unit measures -/
def ofUnit? (unit : Text) : Option Measure :=
  match conversion? unit with
  | some (m, _) => some m
  | none => if relativeLengths.any (·.toList == unit.lower) then some length else none

/-- A value in its base unit; without a conversion only the unit's letters become small. -/
def toBase (value : Double) (unit : Text) : Double × Text :=
  match conversion? unit with
  | some (_, factor, base) => (value.mul factor, base.toList)
  | none => (value, unit.lower)

def degrees? (value : Double) (unit : Text) : Option Double :=
  if ofUnit? unit = some angle then some (toBase value unit).1 else none

end Measure
end StyleMiner
