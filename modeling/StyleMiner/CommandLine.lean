import StyleMiner.Disk
import StyleMiner.Report.Json
import StyleMiner.Report.Terminal
import StyleMiner.Sheet.Rules

/-! The command line. Arguments are read one by one, and the first that does not fit ends the
reading; then the stylesheet is loaded, mined and reported. -/

namespace StyleMiner.CommandLine

structure Options where
  path : Option Text
  css : Option Text
  minSupport : Option Nat
  keepSubsets : Bool
  algorithm : Option Algorithm
  json : Bool
  limit : Option Nat
  deriving DecidableEq, Repr

def Options.none : Options := ⟨.none, .none, .none, false, .none, false, .none⟩

/-- what a program ends with: output and success, or a message and failure -/
inductive Outcome where
  | success (output : Text)
  | failure (message : Text)
  | usage
  deriving DecidableEq, Repr

/-- an option that takes a value -/
inductive Valued where
  | css
  | minSupport
  | algorithm
  | limit
  deriving DecidableEq, Repr

/-- an option that takes none -/
inductive Switch where
  | keepSubsets
  | json
  | help
  | version
  deriving DecidableEq, Repr

def valued? (name : Text) : Option Valued :=
  ([("css", .css), ("min-support", .minSupport), ("algorithm", .algorithm), ("limit", .limit)].find?
    (·.1.toList == name)).map (·.2)

def switch? (name : Text) : Option Switch :=
  ([("keep-subsets", .keepSubsets), ("json", .json), ("help", .help), ("version", .version)].find?
    (·.1.toList == name)).map (·.2)

/-- a number of at most 64 bits; a plus sign in front is allowed -/
def number? (t : Text) : Option Nat :=
  let ds := if t.head? = some '+' then t.tail else t
  let n := Text.ofDecimal ds
  if ds ≠ [] ∧ ds.all Char.isDigit ∧ n < UInt64.size then some n else none

/-- gives an option its value, once -/
def setValue? (o : Options) (name : Valued) (value : Text) : Option Options :=
  match name with
  | .css => if o.css.isSome then .none else some { o with css := value }
  | .minSupport =>
    if o.minSupport.isSome then .none
    else (number? value).map fun n => { o with minSupport := some n }
  | .algorithm =>
    if o.algorithm.isSome then .none
    else (Algorithm.ofName? (String.ofList value)).map fun a => { o with algorithm := some a }
  | .limit =>
    if o.limit.isSome then .none else (number? value).map fun n => { o with limit := some n }

def setPath? (o : Options) (path : Text) : Option Options :=
  if o.path.isSome then .none else some { o with path }

def versionText : Text := "magpie 0.1.0\n".toList

def helpText : Text :=
  "Usage: magpie [OPTIONS] [FILE]\n".toList

/-- whether an argument is an option and not a value; a lone hyphen is a value -/
def isOption (arg : Text) : Bool := arg.head? == some '-' && arg != ['-']

/-- Reads arguments into options. After `--` all of them are paths. -/
def readOptions (o : Options) : List Text → Except Outcome Options
  | [] => if o.path.isSome && o.css.isSome then throw .usage else return o
  | arg :: args =>
    if arg = "--".toList then
      match args with
      | [] => readOptions o []
      | [path] => (setPath? o path).elim (throw .usage) (readOptions · [])
      | _ => throw .usage
    else if "--".toList.isPrefixOf arg then
      let body := arg.drop 2
      let name := body.takeWhile (· ≠ '=')
      let value? := if name.length < body.length then some (body.drop (name.length + 1)) else none
      match valued? name, switch? name, value? with
      | some v, _, some value => (setValue? o v value).elim (throw .usage) (readOptions · args)
      | some v, _, none =>
        match args with
        | value :: args =>
          if isOption value then throw .usage
          else (setValue? o v value).elim (throw .usage) (readOptions · args)
        | [] => throw .usage
      | none, some .help, none => throw (.success helpText)
      | none, some .version, none => throw (.success versionText)
      | none, some .keepSubsets, none =>
        if o.keepSubsets then throw .usage else readOptions { o with keepSubsets := true } args
      | none, some .json, none =>
        if o.json then throw .usage else readOptions { o with json := true } args
      | _, _, _ => throw .usage
    else if isOption arg then
      if "-h".toList.isPrefixOf arg then throw (.success helpText)
      else if "-V".toList.isPrefixOf arg then throw (.success versionText)
      else throw .usage
    else (setPath? o arg).elim (throw .usage) (readOptions · args)

def failure (message : Text) : Outcome := .failure ("Error: ".toList ++ message)

/-- the stylesheet that the options name -/
def load (readFile : Text → Except ReadFailure Text) (o : Options) : Except Outcome Text :=
  match o.css, o.path with
  | some css, _ => return css
  | none, some path =>
    (readFile path).mapError fun cause =>
      failure ("failed to read ".toList ++ path ++ "\n\nCaused by:\n    ".toList ++ cause.message)
  | none, none => throw (failure "a CSS file path or --css is required".toList)

/-- the file that has to be read for a run, if there is one -/
def file? (args : List Text) : Option Text :=
  match readOptions .none args with
  | .ok o => if o.css.isSome then none else o.path
  | .error _ => none

/-- the report that the options ask for -/
def report (o : Options) (css : Text) : Except MiningError Report := do
  let config ← Config.ofMinSupport (o.minSupport.getD Config.leastSupport)
  let sheet := Stylesheet.ofText css
  let outcome ← findDuplicates sheet { config with removeSubsumed := !o.keepSubsets }
    (o.algorithm.getD .fpGrowth)
  return .ofOutcome outcome sheet (Warning.log (Stylesheet.textWarnings css))

def render (o : Options) (r : Report) : Text :=
  if o.json then r.json ++ ['\n'] else r.terminal o.limit

/-- the whole program, but for the reading of files and the writing of its output -/
def run (readFile : Text → Except ReadFailure Text) (args : List Text) : Outcome :=
  let result : Except Outcome Text := do
    let o ← readOptions .none args
    let css ← load readFile o
    let r ← (report o css).mapError fun e => failure e.message
    return render o r
  match result with
  | .ok output => .success output
  | .error outcome => outcome

end StyleMiner.CommandLine
