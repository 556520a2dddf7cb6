import Std.Data.TreeMap
import StyleMiner.Mining.PrefixTree

/-! The tree of counted transactions as it lies in memory: cells in an array, linked by their
positions. A cell has its parent, its children and the next cell with its item; a table has the first and
the last cell of each item. The links say the same things in several ways, and each operation
changes some of them. Where a link leads out of the array or links lead in a circle there is no result.
Counts are words of 64 bits: a sum that is too large for a word loses its upper bits. -/

namespace StyleMiner

namespace Word

/-- how many words there are -/
def size : Nat := UInt64.size

/-- what a word keeps of a number -/
def wrap (n : Nat) : Nat := n % size

def add (m n : Nat) : Nat := wrap (m + n)

variable {m n : Nat}

theorem wrap_of_lt (h : n < size) : wrap n = n := Nat.mod_eq_of_lt h

theorem add_of_lt (h : m + n < size) : add m n = m + n := wrap_of_lt h

theorem add_wrap (m n : Nat) : add (wrap m) n = wrap (m + n) := Nat.mod_add_mod m size n

end Word

/-- a node, or the root, which has no item and no parent -/
structure Cell where
  item : Option ItemId
  count : Nat
  parent : Option Nat
  children : List Nat
  next : Option Nat
  deriving DecidableEq, Repr

namespace Cell

def blank : Cell := ⟨none, 0, none, [], none⟩

end Cell

/-- the ends of the chain of one item -/
structure Chain where
  head : Nat
  tail : Nat
  deriving DecidableEq, Repr

/-- The root is at position zero. A position is never given away twice. -/
structure LinkedTree where
  cells : Array Cell
  header : Std.TreeMap ItemId Chain

namespace LinkedTree

def empty : LinkedTree := ⟨#[.blank], ∅⟩

def modify (a : LinkedTree) (id : Nat) (f : Cell → Cell) : Option LinkedTree :=
  if id < a.cells.size then some { a with cells := a.cells.modify id f } else none

/-- the first of some cells that carries an item, if one of them does -/
def find (a : LinkedTree) (item : ItemId) : List Nat → Option (Option Nat)
  | [] => some none
  | id :: ids => do
    let cell ← a.cells[id]?
    if cell.item = some item then some (some id) else a.find item ids

/-- a cell more, the last child of `parent` and the last of its item -/
def pushChild (a : LinkedTree) (parent : Nat) (item : ItemId) (count : Nat) : Option LinkedTree := do
  let id := a.cells.size
  let a := { a with cells := a.cells.push ⟨some item, count, some parent, [], none⟩ }
  let a ← a.modify parent fun cell => { cell with children := cell.children ++ [id] }
  match a.header[item]? with
  | some chain =>
    let a ← a.modify chain.tail fun cell => { cell with next := some id }
    some { a with header := a.header.insert item { chain with tail := id } }
  | none => some { a with header := a.header.insert item ⟨id, id⟩ }

/-- raises the counts along a path below `current`, and makes the cells that are missing on it -/
def insertBelow (a : LinkedTree) (count current : Nat) : List ItemId → Option LinkedTree
  | [] => some a
  | item :: items => do
    let cell ← a.cells[current]?
    match ← a.find item cell.children with
    | some child =>
      let a ← a.modify child fun cell => { cell with count := Word.add cell.count count }
      a.insertBelow count child items
    | none =>
      let id := a.cells.size
      let a ← a.pushChild current item count
      a.insertBelow count id items

/-- adds a path that `count` transactions share -/
def insert (a : LinkedTree) (items : List ItemId) (count : Nat) : Option LinkedTree :=
  if count = 0 then some a
  else do
    let a ← a.modify 0 fun cell => { cell with count := Word.add cell.count count }
    a.insertBelow count 0 items

def ofBase (base : List WeightedPath) : Option LinkedTree :=
  base.foldlM (fun a p => a.insert p.items p.count) empty

/-- the positions that a link leads to one after the other, the first at `start?`, of at most so many
cells -/
def walk (a : LinkedTree) (link : Cell → Option Nat) : Nat → Option Nat → Option (List Nat)
  | _, none => some []
  | 0, some _ => none
  | fuel + 1, some id => do
    let cell ← a.cells[id]?
    let ids ← a.walk link fuel (link cell)
    some (id :: ids)

/-- the cells of an item along its chain -/
def occurrences (a : LinkedTree) (item : ItemId) : Option (List Nat) :=
  a.walk (·.next) a.cells.size (a.header[item]?.map (·.head))

/-- the cells above a cell, the root as the last of them -/
def ancestors (a : LinkedTree) (cell : Cell) : Option (List Nat) :=
  a.walk (·.parent) a.cells.size cell.parent

/-- how many transactions have an item -/
def itemSupport (a : LinkedTree) (item : ItemId) : Option Nat := do
  let ids ← a.occurrences item
  let counts ← ids.mapM fun id => (·.count) <$> a.cells[id]?
  some (counts.foldr Word.add 0)

/-- the paths down to the cells of an item; empty ones are left out -/
def conditionalBase (a : LinkedTree) (item : ItemId) : Option (List WeightedPath) := do
  let ids ← a.occurrences item
  let paths ← ids.mapM fun id => do
    let cell ← a.cells[id]?
    let above ← a.ancestors cell
    let items ← above.mapM fun id => (·.item) <$> a.cells[id]?
    some ⟨(items.filterMap fun item => item).reverse, cell.count⟩
  some (paths.filter (!·.items.isEmpty))

/-- how many cells carry an item -/
def nodeCount (a : LinkedTree) : Option Nat := do
  let chains ← a.header.keys.mapM a.occurrences
  some (chains.foldr (·.length + ·) 0)

def isEmpty (a : LinkedTree) : Option Bool := (·.children.isEmpty) <$> a.cells[0]?

/-- whether no cell from one on down has two children, among at most so many cells -/
def isPathFrom (a : LinkedTree) : Nat → Nat → Option Bool
  | 0, _ => none
  | fuel + 1, id => do
    let cell ← a.cells[id]?
    match cell.children with
    | [] => some true
    | [child] => a.isPathFrom fuel child
    | _ => some false

def hasSinglePath (a : LinkedTree) : Option Bool := a.isPathFrom a.cells.size 0

/-- The items and counts below a cell, among at most so many cells. There are none if some cell has two
children, or one that carries no item. -/
def pathFrom (a : LinkedTree) : Nat → Nat → Option (Option (List (ItemId × Nat)))
  | 0, _ => none
  | fuel + 1, id => do
    let cell ← a.cells[id]?
    match cell.children with
    | [] => some (some [])
    | [child] =>
      let below ← a.cells[child]?
      match below.item with
      | none => some none
      | some item => (·.map ((item, below.count) :: ·)) <$> a.pathFrom fuel child
    | _ => some none

def singlePath? (a : LinkedTree) : Option (Option (List (ItemId × Nat))) := a.pathFrom a.cells.size 0

/-- puts other elements in the place of the first `x` -/
def replaceFirst (x : Nat) (others : List Nat) : List Nat → List Nat
  | [] => []
  | y :: ys => if y = x then others ++ ys else y :: replaceFirst x others ys

/-- takes a cell out of the tree; its children take its place -/
def splice (a : LinkedTree) (id : Nat) : Option LinkedTree := do
  let cell ← a.cells[id]?
  match cell.parent with
  | none => some a
  | some parent =>
    let a ← a.modify id fun cell => { cell with children := [] }
    let a ← cell.children.foldlM
      (fun a child => a.modify child fun cell => { cell with parent := some parent }) a
    let a ← a.modify parent fun above =>
      { above with children := replaceFirst id cell.children above.children }
    a.modify id fun cell => { cell with item := none, count := 0, parent := none }

/-- takes all cells of an item out -/
def removeItem (a : LinkedTree) (item : ItemId) : Option LinkedTree := do
  let ids ← a.occurrences item
  let a ← ids.foldlM splice a
  some { a with header := a.header.erase item }

/-- the items that fewer than `minimum` transactions have -/
def infrequent (a : LinkedTree) (minimum : Nat) : Option (List ItemId) :=
  a.header.keys.filterM fun item => (decide <| · < minimum) <$> a.itemSupport item

def prune (a : LinkedTree) (minimum : Nat) : Option LinkedTree := do
  let items ← a.infrequent minimum
  items.foldlM removeItem a

def node (a : LinkedTree) (id : Nat) : Except OutOfBounds Cell := OutOfBounds.get a.cells.toList id

end LinkedTree
end StyleMiner
