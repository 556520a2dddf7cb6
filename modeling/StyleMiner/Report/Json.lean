import StyleMiner.Report.Basic

/-! Reports as JSON: one member or element to a line, two spaces for each level. Only quotation
marks, backslashes and control characters are escaped in strings. -/

namespace StyleMiner

inductive Json where
  | number (n : Nat)
  | bool (b : Bool)
  | string (t : Text)
  | array (elements : List Json)
  | object (members : List (String × Json))

namespace Json

def escape (c : Char) : Text :=
  match c with
  | '"' => ['\\', '"']
  | '\\' => ['\\', '\\']
  | '\n' => ['\\', 'n']
  | '\r' => ['\\', 'r']
  | '\t' => ['\\', 't']
  | '\x08' => ['\\', 'b']
  | '\x0C' => ['\\', 'f']
  | c =>
    if c.toNat < 32 then
      "\\u00".toList ++ [Nat.digitChar (c.toNat / 16), Nat.digitChar (c.toNat % 16)]
    else [c]

def quote (t : Text) : Text := '"' :: t.flatMap escape ++ ['"']

def newline (depth : Nat) : Text := '\n' :: List.replicate (2 * depth) ' '

/-- brackets around lines, or right around nothing -/
def enclose (opening closing : Char) (depth : Nat) (lines : List Text) : Text :=
  if lines.isEmpty then [opening, closing]
  else
    opening :: newline (depth + 1) ++ (',' :: newline (depth + 1)).intercalate lines ++
      newline depth ++ [closing]

mutual

def render (depth : Nat) : Json → Text
  | number n => Text.decimal n
  | bool b => if b then "true".toList else "false".toList
  | string t => quote t
  | array elements => enclose '[' ']' depth (renderAll (depth + 1) elements)
  | object members => enclose '\x7b' '\x7d' depth (renderMembers (depth + 1) members)

def renderAll (depth : Nat) : List Json → List Text
  | [] => []
  | j :: js => render depth j :: renderAll depth js

def renderMembers (depth : Nat) : List (String × Json) → List Text
  | [] => []
  | (name, j) :: ms =>
    (quote name.toList ++ ": ".toList ++ render depth j) :: renderMembers depth ms

end

def ofLocation (l : Location) : Json :=
  .object [("offset", .number l.offset), ("line", .number l.line), ("column", .number l.column)]

def ofDeclaration (r : DeclarationReport) : Json :=
  .object [("declaration", .string r.declaration), ("location", ofLocation r.location)]

def ofSelector (r : SelectorReport) : Json :=
  .object ([("selector", .string r.selector)] ++
    (r.media.map fun m => ("media", .string m)).toList ++ [("location", ofLocation r.location)])

def ofSet (r : SetReport) : Json :=
  .object [("support", .number r.support),
    ("declarations", .array (r.declarations.map ofDeclaration)),
    ("selectors", .array (r.selectors.map ofSelector))]

def ofList (r : ListReport) : Json :=
  .object [("cardinality", .number r.cardinality), ("max_support", .number r.maxSupport),
    ("itemsets", .array (r.sets.map ofSet))]

/-- A report without warnings does not mention them. -/
def ofReport (r : Report) : Json :=
  .object ([("algorithm", .string r.algorithm.name.toList), ("min_support", .number r.minSupport),
    ("remove_subsumed_subsets", .bool r.removeSubsumed), ("selectors", .number r.selectors),
    ("declarations", .number r.declarations), ("items", .number r.items),
    ("lists", .array (r.lists.map ofList))] ++
    if r.warnings.isEmpty then [] else [("warnings", .array (r.warnings.map .string))])

end Json

def Report.json (r : Report) : Text := Json.render 0 (.ofReport r)

end StyleMiner
