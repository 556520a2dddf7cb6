import StyleMiner.Decimal.Double
import StyleMiner.Source.Location

/-! The tokens of a stylesheet, and tokens with the span of text they were read from. -/

namespace StyleMiner

inductive Bracket where
  | paren
  | square
  | curly
  deriving DecidableEq, Repr

inductive Token where
  | ident (name : Text)
  | function (name : Text)
  | atKeyword (name : Text)
  | hash (name : Text)
  | string (content : Text)
  | badString
  | url (address : Text)
  | badUrl
  | delim (c : Char)
  | number (value : Double)
  | percentage (value : Double)
  | dimension (value : Double) (unit : Text)
  | whitespace
  | colon
  | semicolon
  | comma
  | opening (b : Bracket)
  | closing (b : Bracket)
  | eof
  deriving DecidableEq, Repr

/-- a token with the place of its first code point and the offset behind its last -/
structure Located where
  token : Token
  start : Location
  stop : Nat
  deriving DecidableEq, Repr

namespace Bracket

def openChar : Bracket → Char
  | paren => '('
  | square => '['
  | curly => '{'

def closeChar : Bracket → Char
  | paren => ')'
  | square => ']'
  | curly => '}'

end Bracket
end StyleMiner
