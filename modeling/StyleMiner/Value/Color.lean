import StyleMiner.Component.Basic
import StyleMiner.Decimal.Places
import StyleMiner.Value.ColorName
import StyleMiner.Value.Measure

/-! Colors in eight bits a channel, whatever notation they are written in: hexadecimal digits, a
name, or the functions for red, green and blue or for hue, saturation and lightness. -/

namespace StyleMiner

structure Color where
  red : UInt8
  green : UInt8
  blue : UInt8
  alpha : UInt8
  deriving DecidableEq, Repr

namespace Color

def transparent : Color := ⟨0, 0, 0, 0⟩

def hexByte (high low : Char) : UInt8 := .ofNat (Text.ofHex [high, low])

/-- three or four digits stand for themselves doubled; a `#` in front does not count -/
def ofHex? (t : Text) : Option Color :=
  let ds := if t.head? = some '#' then t.tail else t
  if ds.all Text.isHexDigit then
    match ds with
    | [r, g, b] => some ⟨hexByte r r, hexByte g g, hexByte b b, 255⟩
    | [r, g, b, a] => some ⟨hexByte r r, hexByte g g, hexByte b b, hexByte a a⟩
    | [r, r1, g, g1, b, b1] => some ⟨hexByte r r1, hexByte g g1, hexByte b b1, 255⟩
    | [r, r1, g, g1, b, b1, a, a1] => some ⟨hexByte r r1, hexByte g g1, hexByte b b1, hexByte a a1⟩
    | _ => none
  else none

def ofName? (name : Text) : Option Color :=
  if name.lower = "transparent".toList then some transparent
  else (namedColors.find? (·.1.toList == name.lower)).map fun (_, r, g, b) => ⟨r, g, b, 255⟩

/-- a number among the arguments of a color function -/
inductive Argument where
  | number (value : Double)
  | percentage (value : Double)
  | degrees (value : Double)

/-- The arguments of a color function. Blanks, commas and slashes only separate; any other thing
that is not a number, a percentage or an angle spoils them all. -/
def arguments? : List Component → Option (List Argument)
  | [] => some []
  | c :: cs =>
    match c with
    | .token (.number v) => (arguments? cs).map (.number v :: ·)
    | .token (.percentage v) => (arguments? cs).map (.percentage v :: ·)
    | .token (.dimension v unit) =>
      match Measure.degrees? v unit with
      | some d => (arguments? cs).map (.degrees d :: ·)
      | none => none
    | .token .whitespace | .token .comma | .token (.delim '/') => arguments? cs
    | _ => none

def byte (x : Double) : UInt8 :=
  .ofNat (x.roundHalfUp.clamp (.zero false) (.ofNat 255)).toNat

/-- a share of 255 -/
def ofPercentage (p : Double) : UInt8 := byte ((p.mul (.ofNat 255)).div (.ofNat 100))

def channel? : Argument → Option UInt8
  | .number n => some (byte n)
  | .percentage p => some (ofPercentage p)
  | .degrees _ => none

def alpha? : Argument → Option UInt8
  | .number n => some (byte (n.mul (.ofNat 255)))
  | .percentage p => some (ofPercentage p)
  | .degrees _ => none

def hue? : Argument → Option Double
  | .number v | .degrees v => some v
  | .percentage _ => none

/-- a percentage as a fraction, the percent sign left out or not -/
def fraction? : Argument → Option Double
  | .number v | .percentage v => some (v.div (.ofNat 100))
  | .degrees _ => none

/-- Red, green and blue of a hue in degrees, which wraps, and of a saturation and a lightness, which
are clamped to the interval from 0 to 1. -/
def ofHue (hue saturation lightness : Double) : UInt8 × UInt8 × UInt8 :=
  let one := Double.ofNat 1
  let zero := Double.zero false
  let saturation := saturation.clamp zero one
  let lightness := lightness.clamp zero one
  let chroma := (one.sub ((lightness.mul (.ofNat 2)).sub one).abs).mul saturation
  let sextant := (hue.modulo (.ofNat 360)).div (.ofNat 60)
  let second := chroma.mul (one.sub ((sextant.rem (.ofNat 2)).sub one).abs)
  let lift := lightness.sub (chroma.div (.ofNat 2))
  let (r, g, b) := match sextant.toNat with
    | 0 => (chroma, second, zero)
    | 1 => (second, chroma, zero)
    | 2 => (zero, chroma, second)
    | 3 => (zero, second, chroma)
    | 4 => (second, zero, chroma)
    | _ => (chroma, zero, second)
  let toByte (v : Double) : UInt8 := byte ((v.add lift).mul (.ofNat 255))
  (toByte r, toByte g, toByte b)

def ofChannels? (r g b : Argument) (alpha : UInt8) : Option Color := do
  return ⟨← channel? r, ← channel? g, ← channel? b, alpha⟩

def ofHue? (h s l : Argument) (alpha : UInt8) : Option Color := do
  let (r, g, b) := ofHue (← hue? h) (← fraction? s) (← fraction? l)
  return ⟨r, g, b, alpha⟩

/-- without a fourth argument a color is opaque -/
def withAlpha? (f : Argument → Argument → Argument → UInt8 → Option Color) :
    List Argument → Option Color
  | [x, y, z] => f x y z 255
  | [x, y, z, a] => (alpha? a).bind (f x y z)
  | _ => none

def isChannelFunction (name : Text) : Bool :=
  name.lower == "rgb".toList || name.lower == "rgba".toList

def isHueFunction (name : Text) : Bool :=
  name.lower == "hsl".toList || name.lower == "hsla".toList

def ofFunction? (name : Text) (cs : List Component) : Option Color :=
  if isChannelFunction name then (arguments? cs).bind (withAlpha? ofChannels?)
  else if isHueFunction name then (arguments? cs).bind (withAlpha? ofHue?)
  else none

def ofComponent? : Component → Option Color
  | .token (.hash digits) => ofHex? digits
  | .token (.ident name) => ofName? name
  | .function name cs => ofFunction? name cs
  | _ => none

/-- `rgba(r, g, b, a)` with the alpha channel from 0 to 1 -/
def render (c : Color) : Text :=
  let channel (n : UInt8) : Text := Text.decimal n.toNat ++ ", ".toList
  let alpha := (Double.ofNat c.alpha.toNat).div (.ofNat 255)
  "rgba(".toList ++ channel c.red ++ channel c.green ++ channel c.blue ++ alpha.render ++ [')']

end Color
end StyleMiner
