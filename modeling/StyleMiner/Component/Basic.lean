import StyleMiner.Token.Scan

/-! Component values: a token kept as it is, a function with its arguments, or a block with its
contents. -/

namespace StyleMiner

inductive Component where
  | token (t : Token)
  | function (name : Text) (arguments : List Component)
  | block (bracket : Bracket) (contents : List Component)
  deriving Repr

namespace Component

def isWhitespace : Component → Bool
  | .token .whitespace => true
  | _ => false

/-- the component that stands alone among white space -/
def single? (cs : List Component) : Option Component :=
  match cs.filter (!·.isWhitespace) with
  | [c] => some c
  | _ => none

mutual

/-- the tokens of a component, closed -/
def flatten : Component → List Token
  | .token t => [t]
  | .function name arguments => .function name :: flattenAll arguments ++ [.closing .paren]
  | .block bracket contents => .opening bracket :: flattenAll contents ++ [.closing bracket]

def flattenAll : List Component → List Token
  | [] => []
  | c :: cs => flatten c ++ flattenAll cs

end

end Component
end StyleMiner
