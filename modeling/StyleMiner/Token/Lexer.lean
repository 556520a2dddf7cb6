import StyleMiner.Decimal.Numeral
import StyleMiner.Text.Quoted
import StyleMiner.Token.Basic

/-! Reading tokens. Each reader takes the text that is left and gives back what it read there and
how many code points that took, so a token is read from a beginning of the text and nothing behind
it is lost. -/

namespace StyleMiner.Token

def isBlank (c : Char) : Bool :=
  c == '\n' || c == '\t' || c == ' ' || c == '\r' || c == '\x0C'

def isNameStart (c : Char) : Bool := c.isAlpha || c == '_' || 128 ≤ c.toNat

def isNameChar (c : Char) : Bool := isNameStart c || c.isDigit || c == '-'

/-- how many blanks stand in front -/
def blanks (t : Text) : Nat := (t.takeWhile isBlank).length

/-- the code point that hexadecimal digits write; where there is none, U+FFFD -/
def codePoint (ds : Text) : Char :=
  let n := Text.ofHex ds
  if n ≠ 0 ∧ n.isValidChar then Char.ofNat n else '\uFFFD'

/-- the longest run of hexadecimal digits in front, of at most six -/
def hexRun (t : Text) : Text := (t.take 6).takeWhile Text.isHexDigit

/-- Reads on after a backslash. Hexadecimal digits give a code point and take one blank after them
along; a line feed is not escaped, and any other code point is itself. -/
def escape? : Text → Option (Char × Nat)
  | [] => none
  | c :: t =>
    if c = '\n' then none
    else if Text.isHexDigit c then
      let ds := hexRun (c :: t)
      let blank := if ((c :: t).drop ds.length).head?.any isBlank then 1 else 0
      some (codePoint ds, ds.length + blank)
    else some (c, 1)

/-- the escape that `c` begins, its backslash not counted -/
def escapeAt? (c : Char) (t : Text) : Option (Char × Nat) := if c = '\\' then escape? t else none

def startsEscape : Text → Bool
  | [] => false
  | c :: t => (escapeAt? c t).isSome

def startsName : Text → Bool
  | [] => false
  | c :: t =>
    if c = '-' then t.head?.any (fun d => isNameStart d || d == '-') || startsEscape t
    else isNameStart c || startsEscape (c :: t)

/-- the longest name in front, its escapes decoded -/
def readName : Text → Text × Nat
  | [] => ([], 0)
  | c :: t =>
    if isNameChar c then
      let r := readName t
      (c :: r.1, r.2 + 1)
    else
      match escapeAt? c t with
      | some x =>
        let r := readName (t.drop x.2)
        (x.1 :: r.1, r.2 + x.2 + 1)
      | none => ([], 0)
termination_by t => t.length
decreasing_by all_goals simp only [List.length_drop, List.length_cons]; omega

def startsDigit (t : Text) : Bool := t.head?.any Char.isDigit

/-- the sign in front, if there is one -/
def signOf : Text → Text
  | c :: _ => if c = '+' ∨ c = '-' then [c] else []
  | [] => []

def startsNumber (t : Text) : Bool :=
  let t := t.drop (signOf t).length
  startsDigit t || (t.head? == some '.' && startsDigit t.tail)

def digitsOf (t : Text) : Text := t.takeWhile Char.isDigit

/-- the point and the digits in front; both or nothing -/
def fractionOf : Text → Text
  | c :: t => if c = '.' ∧ startsDigit t then c :: digitsOf t else []
  | [] => []

/-- the power of ten in front, with at least one digit or not at all -/
def powerOf : Text → Text
  | c :: t =>
    if (c = 'e' ∨ c = 'E') ∧ startsDigit (t.drop (signOf t).length) then
      c :: signOf t ++ digitsOf (t.drop (signOf t).length)
    else []
  | [] => []

/-- the numeral at the front of a text that starts with a number -/
def numeralOf (t : Text) : Text :=
  let sign := signOf t
  let t := t.drop sign.length
  let whole := digitsOf t
  let t := t.drop whole.length
  let fraction := fractionOf t
  let t := t.drop fraction.length
  sign ++ whole ++ fraction ++ powerOf t

/-- a number, with the percent sign or the unit right after it -/
def readNumeric (t : Text) : Token × Nat :=
  let numeral := numeralOf t
  let n := numeral.length
  let value := (Double.ofText? numeral).getD (.zero false)
  let t := t.drop n
  if startsName t then
    let unit := readName t
    (.dimension value unit.1, n + unit.2)
  else if t.head? = some '%' then (.percentage value, n + 1)
  else (.number value, n)

/-- The content of a string up to its closing quote or the end of the text. A line feed makes it bad
and is not taken; after a backslash it only continues the string. -/
def readString (quote : Char) : Text → Option Text × Nat
  | [] => (some [], 0)
  | c :: t =>
    if c = quote then (some [], 1)
    else if c = '\n' then (none, 0)
    else
      match escapeAt? c t with
      | some x =>
        let r := readString quote (t.drop x.2)
        (r.1.map (x.1 :: ·), r.2 + x.2 + 1)
      | none =>
        if c = '\\' then
          match t with
          | [] => (some [], 1)
          | _ :: t =>
            let r := readString quote t
            (r.1, r.2 + 2)
        else
          let r := readString quote t
          (r.1.map (c :: ·), r.2 + 1)
termination_by t => t.length
decreasing_by all_goals simp only [List.length_drop, List.length_cons]; omega

/-- how far an address that went wrong goes on, its parenthesis included -/
def badUrlRest : Text → Nat
  | [] => 0
  | c :: t =>
    if c = ')' then 1
    else
      match escapeAt? c t with
      | some x => badUrlRest (t.drop x.2) + x.2 + 1
      | none => badUrlRest t + 1
termination_by t => t.length
decreasing_by all_goals simp only [List.length_drop, List.length_cons]; omega

/-- The address up to its parenthesis or the end of the text; blanks may only stand at its end. -/
def readUrl : Text → Option Text × Nat
  | [] => (some [], 0)
  | c :: t =>
    if c = ')' then (some [], 1)
    else if isBlank c then
      let n := blanks t + 1
      match t.drop (blanks t) with
      | [] => (some [], n)
      | d :: u => if d = ')' then (some [], n + 1) else (none, n + badUrlRest (d :: u))
    else if Text.isQuote c ∨ c = '(' then (none, badUrlRest t + 1)
    else
      match escapeAt? c t with
      | some x =>
        let r := readUrl (t.drop x.2)
        (r.1.map (x.1 :: ·), r.2 + x.2 + 1)
      | none =>
        if c = '\\' then (none, badUrlRest t + 1)
        else
          let r := readUrl t
          (r.1.map (c :: ·), r.2 + 1)
termination_by t => t.length
decreasing_by all_goals simp only [List.length_drop, List.length_cons]; omega

/-- a function whose parenthesis `t` follows, or an address if it is named so and no quote comes
next -/
def readFunction (name t : Text) : Token × Nat :=
  if name.lower = "url".toList then
    let n := blanks t
    let t := t.drop n
    if t.head?.any Text.isQuote then (.function name, n)
    else
      let address := readUrl t
      (address.1.elim .badUrl .url, n + address.2)
  else (.function name, 0)

/-- a name, or a function if a parenthesis follows it -/
def readNamed (t : Text) : Token × Nat :=
  let name := readName t
  match t.drop name.2 with
  | '(' :: u =>
    let r := readFunction name.1 u
    (r.1, name.2 + 1 + r.2)
  | _ => (.ident name.1, name.2)

def punctuation? : Char → Option Token
  | '(' => some (.opening .paren)
  | ')' => some (.closing .paren)
  | '[' => some (.opening .square)
  | ']' => some (.closing .square)
  | '{' => some (.opening .curly)
  | '}' => some (.closing .curly)
  | ',' => some .comma
  | ':' => some .colon
  | ';' => some .semicolon
  | _ => none

/-- the token that starts with `c`, and how many code points of the text after `c` it takes -/
def read (c : Char) (t : Text) : Token × Nat :=
  if isBlank c then (.whitespace, blanks t)
  else if Text.isQuote c then
    let content := readString c t
    (content.1.elim .badString .string, content.2)
  else if c = '#' ∧ (t.head?.any isNameChar ∨ startsEscape t) then
    let name := readName t
    (.hash name.1, name.2)
  else if c = '@' ∧ startsName t then
    let name := readName t
    (.atKeyword name.1, name.2)
  else if startsNumber (c :: t) then
    let r := readNumeric (c :: t)
    (r.1, r.2 - 1)
  else if startsName (c :: t) then
    let r := readNamed (c :: t)
    (r.1, r.2 - 1)
  else ((punctuation? c).getD (.delim c), 0)

end StyleMiner.Token
