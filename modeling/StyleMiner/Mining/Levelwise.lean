import StyleMiner.Mining.Config
import StyleMiner.Mining.DataSet
import StyleMiner.Mining.Results

/-! Mining level by level. The sets of a level have one size; the next level joins two that differ
in their last member alone, and keeps a join if all its subsets of this level's size are in the
level and enough selectors declare it. A level is in the order of members. -/

namespace StyleMiner.Levelwise

/-- whether two sets of one size agree on all but their last members -/
def joins (a b : ItemSet) : Bool := a.items.toList.dropLast.isPrefixOf b.items.toList

/-- each set with the last members of the sets that it joins with; these come right after it -/
def pairs : List ItemSet → List (ItemSet × ItemId)
  | [] => []
  | s :: rest =>
    ((rest.takeWhile (joins s)).filterMap (·.items.toList.getLast?)).map (s, ·) ++ pairs rest

/-- whether the level holds the set without any one of its members -/
def hasAllSubsets (level : List ItemSet) (s : ItemSet) : Bool :=
  s.items.toList.all fun id => level.any (·.items == s.items.erase id)

def nextLevel (table : ItemTable) (minimum : Nat) (level : List ItemSet) :
    Except Fault (List ItemSet) := do
  let joined ← (pairs level).mapM fun p => ItemSet.insertId table p.1 p.2
  let found := joined.filter fun s => hasAllSubsets level s && minimum ≤ s.support.size
  return found.mergeSort fun a b => (compare a b).isLE

def firstLevel (data : DataSet) (table : ItemTable) (minimum : Nat) :
    Except Fault (List ItemSet) := do
  let singles ← data.items.toList.mapM (ItemSet.insertId table (.empty table))
  return singles.filter (minimum ≤ ·.support.size)

/-- offers the sets of a level, each after a check of its support -/
def offerLevel (table : ItemTable) (r : Results) (level : List ItemSet) : Except Fault Results :=
  level.foldlM (fun r s => do s.checkSupport table; r.offer s) r

/-- offers level after level, at most so many, until one is empty -/
def offerLevels (table : ItemTable) (minimum : Nat) :
    Nat → Results → List ItemSet → Except Fault Results
  | 0, r, _ => return r
  | n + 1, r, level => do
    if level.isEmpty then return r
    offerLevels table minimum n (← offerLevel table r level) (← nextLevel table minimum level)

/-- No set has more members than there are items, which bounds the number of levels. -/
def mine (data : DataSet) (table : ItemTable) (c : Config) (r : Results) :
    Except Fault Results := do
  let level ← firstLevel data table c.minSupport
  offerLevels table c.minSupport data.items.size r level

end StyleMiner.Levelwise
