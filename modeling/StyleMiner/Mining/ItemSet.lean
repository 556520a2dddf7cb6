import StyleMiner.Mining.Item

/-! Item sets with the selectors that declare all their members. A set is known by its members; the
support it carries is narrowed as members come in and built anew when one goes. -/

namespace StyleMiner

structure ItemSet where
  items : IdSet
  support : Support
  deriving DecidableEq, Repr

namespace ItemSet

/-- by members alone -/
instance : Ord ItemSet := ⟨compareOn (·.items)⟩

def size (s : ItemSet) : Nat := s.items.size

def isEmpty (s : ItemSet) : Bool := s.items.isEmpty

def sameMembers (a b : ItemSet) : Bool := a.items == b.items

/-- no items, which every selector declares -/
def empty (table : ItemTable) : ItemSet := ⟨.empty, table.everySelector⟩

/-- the set with an item more, if it is not a member already -/
def insert? (s : ItemSet) (item : Item) : Option ItemSet :=
  (s.items.insert? item.id).map fun items => ⟨items, s.support.inter item.support⟩

def insert (s : ItemSet) (item : Item) : ItemSet := (s.insert? item).getD s

def insertId (table : ItemTable) (s : ItemSet) (id : ItemId) : Except Fault ItemSet := do
  return s.insert (← table.get id)

def ofIds (table : ItemTable) (ids : List ItemId) : Except Fault ItemSet :=
  ids.foldlM (insertId table) (empty table)

/-- the selectors that declare all of some items -/
def intersection (table : ItemTable) (ids : IdSet) : Except Fault Support :=
  ids.toList.foldlM (fun s id => do return s.inter (← table.get id).support) table.everySelector

/-- the set without an item, if that is a member -/
def erase? (table : ItemTable) (s : ItemSet) (id : ItemId) : Except Fault (Option ItemSet) := do
  if id ∈ s.items then
    let items := s.items.erase id
    return some ⟨items, ← intersection table items⟩
  else return none

def subset (a b : ItemSet) : Bool := a.items.subset b.items

/-- whether `b` has more members than `a`, all of `a`, and no other support -/
def subsumedBy (a b : ItemSet) : Bool :=
  a.size < b.size && a.support == b.support && a.subset b

/-- refuses a set whose support is not that of its members -/
def checkSupport (table : ItemTable) (s : ItemSet) : Except Fault Unit := do
  let expected ← intersection table s.items
  if s.support = expected then return () else throw (.staleSupport s.items s.support expected)

/-- the keys of the members between braces -/
def render (table : ItemTable) (s : ItemSet) : Text :=
  let keys := s.items.toList.map fun id => (table.items[id]?).elim [] (·.shape.key)
  '\x7b' :: "; ".toList.intercalate keys ++ ['\x7d']

end ItemSet
end StyleMiner
