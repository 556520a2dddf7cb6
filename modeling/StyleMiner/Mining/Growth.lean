import StyleMiner.Mining.Config
import StyleMiner.Mining.DataSet
import StyleMiner.Mining.PrefixTree
import StyleMiner.Mining.Results

/-! Mining by growing sets from the least frequent item up. A projection is the tree of the
transactions that have all items of its stem. Each of its items with enough support makes the stem
one larger and is offered so; the projection to the larger stem comes later. Where the tree is a
single path, the combinations of its items are offered at once, and no projection follows. -/

namespace StyleMiner

/-- the transactions that have all items of `stem`, without these and what ranks after them -/
structure Projection where
  tree : PrefixTree
  stem : IdSet

/-- a mined set and how often the tree that it was found in counts it -/
structure Offer where
  members : List ItemId
  count : Nat
  onPath : Bool
  deriving DecidableEq, Repr

namespace Projection

/-- all transactions, without the items that too few of them have -/
def ofDataSet (data : DataSet) (minimum : Nat) : Projection :=
  let paths := data.transactions.map fun x => ⟨x.items.toList, 1⟩
  ⟨(PrefixTree.ofBase paths).prune minimum, .empty⟩

def extend (p : Projection) (minimum : Nat) (item : ItemId) : Projection :=
  ⟨p.tree.conditional minimum item, p.stem.insert item⟩

/-- the longest path whose combinations are taken at once when all of them are kept -/
def longestPath : Nat := 63

def enumerable (c : Config) (length : Nat) : Bool := c.removeSubsumed || length ≤ longestPath

/-- the single path whose combinations are offered at once -/
def path? (p : Projection) (c : Config) : Option (List (ItemId × Nat)) :=
  if c.singlePath then p.tree.singlePath?.filter (enumerable c ·.length) else none

/-- all sub-paths, those without the first item before those with it -/
def combinations : List (ItemId × Nat) → List (List (ItemId × Nat))
  | [] => [[]]
  | x :: xs => (combinations xs).flatMap fun ys => [ys, x :: ys]

/-- A combination is counted by its deepest node. -/
def combinationOffer? (xs : List (ItemId × Nat)) : Option Offer :=
  xs.getLast?.map fun deepest => ⟨xs.map (·.1), deepest.2, true⟩

/-- the runs from the top of a path that end where the count drops; `before` are the items above -/
def runs (before : List ItemId) : List (ItemId × Nat) → List Offer
  | [] => []
  | x :: xs =>
    let run := before ++ [x.1]
    let rest := runs run xs
    if xs.head?.all (·.2 < x.2) then ⟨run, x.2, true⟩ :: rest else rest

/-- the offers of a single path: all combinations, or those that no other one subsumes -/
def pathOffers (c : Config) (path : List (ItemId × Nat)) : List Offer :=
  if c.removeSubsumed then runs [] path else (combinations path).filterMap combinationOffer?

/-- the items that at least `minimum` transactions have, ascending -/
def frequent (p : Projection) (minimum : Nat) : List ItemId :=
  p.tree.header.toList.filter (minimum ≤ p.tree.itemCount ·)

/-- what a projection offers, its stem included -/
def offers (c : Config) (p : Projection) : List Offer :=
  let found := match p.path? c with
    | some path => pathOffers c path
    | none => (p.frequent c.minSupport).reverse.map fun i => ⟨[i], p.tree.itemCount i, false⟩
  found.map fun o => { o with members := p.stem.toList ++ o.members }

/-- A projection and those that follow from it, each before its own followers. -/
def visited (c : Config) (p : Projection) : List Projection :=
  p :: if (p.path? c).isSome then []
    else (p.frequent c.minSupport).flatMap fun i =>
      if _h : (p.tree.conditional c.minSupport i).isEmpty then []
      else visited c (p.extend c.minSupport i)
termination_by p.tree.forest.height
decreasing_by exact PrefixTree.height_conditional_lt (by simpa using _h)

/-- the projections that follow from one at once, those to lesser items first -/
def followers (c : Config) (p : Projection) : List Projection :=
  if (p.path? c).isSome then []
  else ((p.frequent c.minSupport).map (p.extend c.minSupport)).filter (!·.tree.isEmpty)

theorem visited_eq (c : Config) (p : Projection) :
    p.visited c = p :: (p.followers c).flatMap (visited c) := by
  have hitems (is : List ItemId) :
      (is.flatMap fun i => if (p.tree.conditional c.minSupport i).isEmpty then []
        else visited c (p.extend c.minSupport i)) =
      ((is.map (p.extend c.minSupport)).filter (!·.tree.isEmpty)).flatMap (visited c) := by
    induction is with
    | nil => rfl
    | cons i is ih =>
      rw [List.flatMap_cons, ih, List.map_cons, List.filter_cons]
      cases hempty : (p.tree.conditional c.minSupport i).isEmpty <;> simp [extend, hempty]
  rw [visited, followers]
  split
  · rfl
  · exact congrArg (p :: ·) (hitems _)

theorem flatMap_visited_cons (c : Config) (p : Projection) (rest : List Projection) :
    (p :: rest).flatMap (visited c) = p :: (p.followers c ++ rest).flatMap (visited c) := by
  rw [List.flatMap_cons, visited_eq, List.cons_append, List.flatMap_append]

end Projection

namespace Growth

/-- builds an offered set, checks its support against the count, and offers it to the results -/
def accept (table : ItemTable) (r : Results) (o : Offer) : Except Fault Results := do
  let set ← ItemSet.ofIds table o.members
  if set.support.size = o.count then r.offer set
  else if o.onPath then throw (.pathCount (set.render table) set.support.size o.count)
  else throw (.treeCount (set.render table) set.support.size o.count)

/-- all offers of a run in order -/
def offers (data : DataSet) (c : Config) : List Offer :=
  ((Projection.ofDataSet data c.minSupport).visited c).flatMap (Projection.offers c)

def mine (data : DataSet) (table : ItemTable) (c : Config) (r : Results) : Except Fault Results :=
  (offers data c).foldlM (accept table) r

end Growth
end StyleMiner
