import StyleMiner.Mining.Item

/-! A sheet as transactions: for each selector the items that it declares, as far as enough
selectors declare them. A selector without any has no transaction. -/

namespace StyleMiner

structure Transaction where
  selector : SelectorId
  items : IdSet
  deriving DecidableEq, Repr

structure DataSet where
  transactions : List Transaction

namespace DataSet

/-- the items of a selector that at least `minimum` selectors declare -/
def itemsOf (table : ItemTable) (minimum : Nat) (s : Selector) : IdSet :=
  .ofList ((s.declarations.filterMap fun d =>
    (table.find? d.shape).filter (minimum ≤ ·.support.size)).map (·.id))

def ofSheet (sheet : Stylesheet) (table : ItemTable) (minimum : Nat) : DataSet :=
  ⟨(sheet.selectors.map fun s => ⟨s.id, itemsOf table minimum s⟩).filter (!·.items.isEmpty)⟩

def size (d : DataSet) : Nat := d.transactions.length

def isEmpty (d : DataSet) : Bool := d.transactions.isEmpty

/-- the items that occur in any transaction -/
def items (d : DataSet) : IdSet := .ofList (d.transactions.flatMap (·.items.toList))

end DataSet
end StyleMiner
