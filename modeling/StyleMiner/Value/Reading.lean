import StyleMiner.Value.Color

/-! The kind that a component is read as, from its own text and without regard to the property. -/

namespace StyleMiner

def Token.kind : Token → Kind
  | .number _ => .number
  | .percentage _ => .percentage
  | .dimension _ unit => (Measure.ofUnit? unit).elim .dimension Measure.kind
  | .hash digits => if (Color.ofHex? digits).isSome then .color else .keyword
  | .ident name => if (Color.ofName? name).isSome then .color else .keyword
  | .string _ => .string
  | .url _ => .url
  | .comma | .delim '/' => .separator
  | _ => .keyword

def Component.kind : Component → Kind
  | .token t => t.kind
  | .function name _ =>
    if Color.isChannelFunction name || Color.isHueFunction name then .color
    else if name.lower = "url".toList then .url
    else .function
  | .block .. => .function

end StyleMiner
