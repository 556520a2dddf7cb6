import StyleMiner.Mining.ItemSet

/-! The result sets of one cardinality, in the order of their members. -/

namespace StyleMiner

structure ItemSetList where
  cardinality : Nat
  sets : List ItemSet
  deriving DecidableEq, Repr

namespace ItemSetList

def empty (cardinality : Nat) : ItemSetList := ⟨cardinality, []⟩

def size (l : ItemSetList) : Nat := l.sets.length

def isEmpty (l : ItemSetList) : Bool := l.sets.isEmpty

def contains (l : ItemSetList) (s : ItemSet) : Bool := l.sets.any (·.sameMembers s)

/-- puts a set at its place among sets in order, unless its members have one -/
def place (s : ItemSet) : List ItemSet → List ItemSet
  | [] => [s]
  | t :: ts =>
    match compare s t with
    | .lt => s :: t :: ts
    | .eq => t :: ts
    | .gt => t :: place s ts

/-- the list with a set more, if none with its members is in it -/
def insert? (l : ItemSetList) (s : ItemSet) : Except Fault (Option ItemSetList) :=
  if s.isEmpty then throw .emptyResult
  else if s.size ≠ l.cardinality then throw (.wrongList s.size l.cardinality)
  else if l.contains s then return none
  else return some { l with sets := place s l.sets }

/-- the list without the set of these members, if that is in it -/
def erase? (l : ItemSetList) (s : ItemSet) : Option ItemSetList :=
  if l.contains s then some { l with sets := l.sets.filter (!·.sameMembers s) } else none

def erase (l : ItemSetList) (s : ItemSet) : ItemSetList := (l.erase? s).getD l

/-- whether a set of the list subsumes `s` -/
def subsumes (l : ItemSetList) (s : ItemSet) : Bool := l.sets.any s.subsumedBy

/-- the widest support in the list; zero for none -/
def maxSupport (l : ItemSetList) : Nat := (l.sets.map (·.support.size)).foldl max 0

end ItemSetList
end StyleMiner
