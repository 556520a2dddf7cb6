import StyleMiner.Mining.Run

/-! The report of a run: for each result list its sets, the widest first, with their declarations as
first written and the selectors that declare them all. -/

namespace StyleMiner

structure DeclarationReport where
  declaration : Text
  location : Location
  deriving DecidableEq, Repr

structure SelectorReport where
  selector : Text
  media : Option Text
  location : Location
  deriving DecidableEq, Repr

structure SetReport where
  support : Nat
  declarations : List DeclarationReport
  selectors : List SelectorReport
  deriving DecidableEq, Repr

structure ListReport where
  cardinality : Nat
  maxSupport : Nat
  sets : List SetReport
  deriving DecidableEq, Repr

structure Report where
  algorithm : Algorithm
  minSupport : Nat
  removeSubsumed : Bool
  selectors : Nat
  declarations : Nat
  items : Nat
  lists : List ListReport
  warnings : List Text
  deriving DecidableEq, Repr

/-- an item as its first declaration in the sheet, or as its key if the sheet has none -/
def DeclarationReport.ofItem (sheet : Stylesheet) (item : Item) : DeclarationReport :=
  match item.declaration? sheet with
  | some d => ⟨d.render, d.location⟩
  | none => ⟨item.shape.key, .start⟩

namespace SetReport

def ofSet (table : ItemTable) (sheet : Stylesheet) (s : ItemSet) : SetReport :=
  ⟨s.support.size,
    (s.items.toList.filterMap (table.items[·]?)).map (DeclarationReport.ofItem sheet),
    (s.support.toList.filterMap sheet.get?).map fun x => ⟨x.text, x.media, x.location⟩⟩

/-- the declarations in one text -/
def sortKey (r : SetReport) : Text := "; ".toList.intercalate (r.declarations.map (·.declaration))

/-- by support, the widest first, then by the declarations -/
def compare : SetReport → SetReport → Ordering :=
  compareLex (fun a b => Ord.compare b.support a.support) (compareOn sortKey)

end SetReport

def ListReport.ofList (table : ItemTable) (sheet : Stylesheet) (l : ItemSetList) : ListReport :=
  ⟨l.cardinality, l.maxSupport,
    (l.sets.map (SetReport.ofSet table sheet)).mergeSort fun a b => (a.compare b).isLE⟩

namespace Report

/-- the report of a run on a sheet, with the warnings that came up -/
def ofOutcome (o : Outcome) (sheet : Stylesheet) (warnings : List Text) : Report :=
  ⟨o.algorithm, o.config.minSupport, o.config.removeSubsumed, sheet.size, sheet.declarations.length,
    o.table.size, o.results.kept.map (ListReport.ofList o.table sheet), warnings⟩

def setCount (r : Report) : Nat := (r.lists.map (·.sets.length)).foldr (· + ·) 0

end Report
end StyleMiner
