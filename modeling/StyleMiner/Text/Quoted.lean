import StyleMiner.Text.Blank

/-! Quoted text, and text laid out around quotes. -/

namespace StyleMiner.Text

def isQuote (c : Char) : Bool := c == '"' || c == '\''

/-- text between double quotes, with a backslash before a double quote or a backslash in it -/
def quoted (t : Text) : Text :=
  '"' :: t.flatMap (fun c => if c = '"' ∨ c = '\\' then ['\\', c] else [c]) ++ ['"']

/-- Lays out the rest of a text: `quote` is the quotation mark that is open, `gap` says that white
space came before, and `last` is the code point written last. -/
def layoutFrom (quote : Option Char) (gap : Bool) (last : Option Char) : Text → Text
  | [] => []
  | c :: t =>
    match quote with
    | some q => c :: layoutFrom (if c = q then none else some q) false (some c) t
    | none =>
      if isSpace c then layoutFrom none true last t
      else
        let spaced := gap && last.any (fun l => l != '(' && l != ',') && c != ')' && c != ','
        let rest :=
          c.toLower :: layoutFrom (if isQuote c then some c else none) false (some c.toLower) t
        if spaced then ' ' :: rest else rest

/-- Small letters outside quotes, and white space collapsed there to one space or, at the ends,
around commas and inside parentheses next to them, to none. -/
def layout (t : Text) : Text := layoutFrom none false none t

end StyleMiner.Text
