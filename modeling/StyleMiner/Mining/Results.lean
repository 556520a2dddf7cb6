import StyleMiner.Mining.ItemSetList

/-! The results of a run, one list for each cardinality. With removal of subsumed sets, a set that a
kept one subsumes is turned away, and a set that is kept drives out those it subsumes. Only sets of
one support can subsume each other, so the kept sets are also filed by support. -/

namespace StyleMiner

structure Results where
  minSupport : Nat
  removeSubsumed : Bool
  lists : List ItemSetList
  bySupport : List (Support × List ItemSet)
  deriving DecidableEq, Repr

namespace Results

def empty (minSupport : Nat) (removeSubsumed : Bool) : Results :=
  ⟨minSupport, removeSubsumed, [], []⟩

/-- the list of a cardinality, empty or not -/
def listOf (r : Results) (cardinality : Nat) : ItemSetList :=
  (r.lists.find? (·.cardinality == cardinality)).getD (.empty cardinality)

/-- puts a list in the place of the one with its cardinality -/
def putList (l : ItemSetList) : List ItemSetList → List ItemSetList
  | [] => [l]
  | k :: ks =>
    if l.cardinality < k.cardinality then l :: k :: ks
    else if l.cardinality = k.cardinality then l :: ks
    else k :: putList l ks

def setList (r : Results) (l : ItemSetList) : Results := { r with lists := putList l r.lists }

/-- the kept sets of a support -/
def peers (r : Results) (support : Support) : List ItemSet :=
  (r.bySupport.lookup support).getD []

/-- puts sets in the place of those filed under a support -/
def putPeers (support : Support) (sets : List ItemSet) :
    List (Support × List ItemSet) → List (Support × List ItemSet)
  | [] => [(support, sets)]
  | p :: ps => if p.1 = support then (support, sets) :: ps else p :: putPeers support sets ps

/-- takes a set out of the list of its cardinality -/
def evict (r : Results) (s : ItemSet) : Results := r.setList ((r.listOf s.size).erase s)

/-- files a set under its support in place of the sets that it subsumes, which leave their lists -/
def file (r : Results) (s : ItemSet) : Results :=
  let peers := r.peers s.support
  let stay := peers.filter (!·.subsumedBy s)
  let r := { r with bySupport := putPeers s.support (stay ++ [s]) r.bySupport }
  (peers.filter (·.subsumedBy s)).foldl evict r

/-- The results with a set more; none if they have its members already or a set that subsumes it. -/
def insert? (r : Results) (s : ItemSet) : Except Fault (Option Results) :=
  if s.support.size < r.minSupport then
    throw (.belowMinimum s.items s.support.size r.minSupport)
  else if (r.listOf s.size).contains s then return none
  else if r.removeSubsumed && (r.peers s.support).any s.subsumedBy then return none
  else do
    let r := if r.removeSubsumed then r.file s else r
    return (← (r.listOf s.size).insert? s).map r.setList

/-- the results after a set was offered, kept or not -/
def offer (r : Results) (s : ItemSet) : Except Fault Results := do
  return (← r.insert? s).getD r

/-- the lists that hold anything, by ascending cardinality -/
def kept (r : Results) : List ItemSetList := r.lists.filter (!·.isEmpty)

def list? (r : Results) (cardinality : Nat) : Option ItemSetList :=
  r.kept.find? (·.cardinality == cardinality)

/-- all kept sets, by ascending cardinality -/
def sets (r : Results) : List ItemSet := r.lists.flatMap (·.sets)

def size (r : Results) : Nat := r.sets.length

def isEmpty (r : Results) : Bool := r.sets.isEmpty

/-- the widest support of all; zero for none -/
def maxSupport (r : Results) : Nat := (r.lists.map (·.maxSupport)).foldl max 0

end Results
end StyleMiner
