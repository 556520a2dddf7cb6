import StyleMiner.Report.Basic

/-! Reports for a terminal, with color and weight as escape sequences. -/

namespace StyleMiner.Terminal

/-- a text between the sequences that switch a style on and off -/
def styled (on off : Nat) (t : Text) : Text :=
  "\x1b[".toList ++ Text.decimal on ++ 'm' :: t ++ "\x1b[".toList ++ Text.decimal off ++ ['m']

def bold (t : Text) : Text := styled 1 0 t

def dimmed (t : Text) : Text := styled 2 0 t

def green (t : Text) : Text := styled 32 39 t

def yellow (t : Text) : Text := styled 33 39 t

def magenta (t : Text) : Text := styled 35 39 t

def cyan (t : Text) : Text := styled 36 39 t

def declarationLine (r : DeclarationReport) : Text :=
  "    ".toList ++ cyan r.declaration ++ "  ".toList ++ dimmed r.location.render

def selectorLine (r : SelectorReport) : Text :=
  "      ".toList ++ r.selector ++ [' '] ++ r.media.elim [] (fun m => magenta m ++ [' ']) ++
    dimmed r.location.render

def setLines (r : SetReport) : List Text :=
  [[], "  ".toList ++ bold (yellow (Text.decimal r.support)) ++ " selectors".toList] ++
    r.declarations.map declarationLine ++ r.selectors.map selectorLine

/-- a list under its heading, and how many of its sets the limit hides -/
def listLines (limit : Option Nat) (r : ListReport) : List Text :=
  let noun := if r.cardinality = 1 then "declaration".toList else "declarations".toList
  let shown := limit.getD r.sets.length
  let hidden := r.sets.length - shown
  [[], bold "===".toList ++ ' ' :: bold (Text.decimal r.cardinality) ++ ' ' :: bold noun ++
      " (max support ".toList ++ Text.decimal r.maxSupport ++ [')']] ++
    (r.sets.take shown).flatMap setLines ++
    if 0 < hidden then
      ["  ".toList ++ dimmed ("... ".toList ++ Text.decimal hidden ++ " more".toList)]
    else []

def lines (limit : Option Nat) (r : Report) : List Text :=
  [bold "===".toList ++ ' ' :: Text.decimal r.selectors ++ " selectors, ".toList ++
      Text.decimal r.declarations ++ " declarations, ".toList ++
      Text.decimal r.items ++ " distinct".toList,
    "    min support ".toList ++ Text.decimal r.minSupport ++ ", ".toList ++
      r.algorithm.name.toList ++ if r.removeSubsumed then [] else ", keeping subsets".toList] ++
    if r.lists.isEmpty then [[], green "No duplicated declarations found.".toList]
    else
      r.lists.flatMap (listLines limit) ++
        [[], bold (Text.decimal r.setCount) ++ " groups of duplicated declarations".toList]

end Terminal

/-- the lines of a report for a terminal, with at most so many sets to a list -/
def Report.terminal (limit : Option Nat) (r : Report) : Text :=
  (Terminal.lines limit r).flatMap (· ++ ['\n'])

end StyleMiner
