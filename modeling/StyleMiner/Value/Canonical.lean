import StyleMiner.Component.Tree
import StyleMiner.Source.Warning
import StyleMiner.Text.Quoted
import StyleMiner.Value.Reading

/-! The canonical form of a declaration value: a kind and a text, equal for values that mean the
same. Colors take one notation, convertible units their base unit, keywords small letters; what is
not understood keeps its text, with small letters outside quotes and its white space collapsed. -/

namespace StyleMiner

structure Canonical where
  kind : Kind
  text : Text
  deriving DecidableEq, Repr

namespace Canonical

/-- by kind, then by text -/
instance : Ord Canonical := ⟨compareLex (compareOn (·.kind)) (compareOn (·.text))⟩

/-- properties whose numbers have no unit -/
def unitless : List String := [
  "column-count", "fill-opacity", "flex", "flex-grow", "flex-shrink", "font-weight", "line-height",
  "opacity", "order", "orphans", "stroke-opacity", "widows", "z-index", "zoom"]

def timed : List String := [
  "animation-delay", "animation-duration", "transition-delay", "transition-duration"]

def angled : List String := ["image-orientation", "offset-rotate", "rotate"]

/-- properties whose keywords for sides and for the centre are percentages -/
def positioned : List String := [
  "background-position", "background-position-x", "background-position-y", "object-position",
  "perspective-origin", "transform-origin"]

/-- what the properties that take colors begin with -/
def colorStems : List String := [
  "background", "border", "box-shadow", "caret", "column-rule", "fill", "flood", "lighting",
  "outline", "stop", "stroke", "text-decoration", "text-emphasis", "text-shadow"]

def among (names : List String) (property : Text) : Bool := names.any (·.toList == property)

/-- whether a zero is a length, with or without a unit -/
def zeroIsLength (property : Text) : Bool :=
  !among unitless property && !among timed property && !among angled property &&
    property != "color".toList

def acceptsColor (property : Text) : Bool :=
  property == "color".toList || "-color".toList.isSuffixOf property ||
    colorStems.any (·.toList.isPrefixOf property)

def ofUrl (address : Text) : Canonical :=
  ⟨.url, "url(".toList ++ address.trim.quoted ++ [')']⟩

def zeroLength : Canonical := ⟨.length, "0px".toList⟩

def ofNumber (property : Text) (value : Double) : Canonical :=
  if value.isZero && among timed property then ⟨.time, "0ms".toList⟩
  else if value.isZero && among angled property then ⟨.angle, "0deg".toList⟩
  else if value.isZero && zeroIsLength property then zeroLength
  else ⟨.number, value.render⟩

def ofPercentage (property : Text) (value : Double) : Canonical :=
  if value.isZero && zeroIsLength property then zeroLength
  else ⟨.percentage, value.render ++ ['%']⟩

def ofDimension (value : Double) (unit : Text) : Canonical :=
  let measure := Measure.ofUnit? unit
  if value.isZero && measure == some .length then zeroLength
  else
    let base := Measure.toBase value unit
    ⟨measure.elim .dimension Measure.kind, base.1.render ++ base.2⟩

def ofColor (c : Color) : Canonical := ⟨.color, c.render⟩

/-- the percentage that a keyword for a side or for the centre stands for -/
def position? (keyword : Text) : Option Double :=
  if keyword = "left".toList ∨ keyword = "top".toList then some (.zero false)
  else if keyword = "center".toList then some (.ofNat 50)
  else if keyword = "right".toList ∨ keyword = "bottom".toList then some (.ofNat 100)
  else none

/-- the number that a keyword for the weight of a font stands for -/
def weight? (keyword : Text) : Option Text :=
  if keyword = "normal".toList then some "400".toList
  else if keyword = "bold".toList then some "700".toList
  else none

/-- Keywords are equal by name, but for positions, font weights and the names of colors. -/
def ofKeyword (property name : Text) : Canonical :=
  let keyword := name.lower
  let position := if among positioned property then position? keyword else none
  let weight := if property = "font-weight".toList then weight? keyword else none
  let color := if acceptsColor property then Color.ofName? keyword else none
  match position, weight, color with
  | some p, _, _ => ofPercentage property p
  | none, some w, _ => ⟨.number, w⟩
  | none, none, some c => ofColor c
  | none, none, none => ⟨.keyword, keyword⟩

/-- The canonical form of a single component. `raw` is its text and `kind` the kind it was read as,
which stand for it where it is not understood. -/
def ofComponent (property raw : Text) (kind : Kind) (c : Component) : Canonical :=
  let asIs (kind : Kind) : Canonical := ⟨kind, raw.layout⟩
  match c with
  | .token (.number v) => if v.isFinite then ofNumber property v else asIs kind
  | .token (.percentage v) => if v.isFinite then ofPercentage property v else asIs kind
  | .token (.dimension v unit) => if v.isFinite then ofDimension v unit else asIs kind
  | .token (.ident name) => ofKeyword property name
  | .token (.hash _) => (Color.ofComponent? c).elim (asIs kind) ofColor
  | .token (.string content) => ⟨.string, content.quoted⟩
  | .token (.url address) => ofUrl address
  | .function name arguments =>
    if name.lower = "url".toList then
      match arguments.find? (!·.isWhitespace) with
      | some (.token (.string address)) => ofUrl address
      | _ => asIs .url
    else (Color.ofComponent? c).elim (asIs .function) ofColor
  | _ => asIs kind

/-- the canonical form of a value of a property, read as the given kind -/
def ofValue (property raw : Text) (kind : Kind) : Canonical :=
  let raw := raw.trim
  if kind = .separator then ⟨.separator, raw⟩
  else
    match Component.single? (Component.ofText raw) with
    | some c => ofComponent property.trim.lower raw kind c
    | none => ⟨kind, raw.layout⟩

/-- A unit that measures nothing known is worth a warning, unless it is a share of free space. -/
def unknownUnit? (property raw : Text) (kind : Kind) : Option Warning :=
  if kind = .separator then none
  else
    match Component.single? (Component.ofText raw.trim) with
    | some (.token (.dimension v unit)) =>
      if v.isFinite && (Measure.ofUnit? unit).isNone && !unit.sameLetters "fr".toList then
        some ⟨"CSS".toList,
          "unknown unit '".toList ++ unit ++ "' in ".toList ++ property.trim.lower⟩
      else none
    | _ => none

end Canonical
end StyleMiner
