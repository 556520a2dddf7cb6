import StyleMiner.Mining.IdSet
import StyleMiner.Source.Bounds

/-! What can go wrong inside a mining run: an id that no item has, a set that does not belong in the
results, or a count that disagrees with the support it stands for. -/

namespace StyleMiner

inductive Fault where
  | outOfBounds (e : OutOfBounds)
  | emptyResult
  | wrongList (size cardinality : Nat)
  | belowMinimum (items : IdSet) (support minimum : Nat)
  | staleSupport (items carried expected : IdSet)
  | treeCount (set : Text) (support count : Nat)
  | pathCount (set : Text) (support count : Nat)
  deriving DecidableEq, Repr

namespace Fault

/-- ids as a bracketed list, each with the name of what it identifies -/
def idList (name : String) (s : IdSet) : Text :=
  '[' :: ", ".toList.intercalate
    (s.toList.map fun id => name.toList ++ '(' :: Text.decimal id ++ [')']) ++ [']']

/-- two sides of an equation that does not hold -/
def sides (what left right : Text) : Text :=
  "assertion \x60left == right\x60 failed: ".toList ++ what ++ "\n  left: ".toList ++ left ++
    "\n right: ".toList ++ right

def message : Fault → Text
  | outOfBounds e => e.message
  | emptyResult => "the empty item set is never a result".toList
  | wrongList size cardinality =>
    sides "item set added to the wrong list".toList (Text.decimal size) (Text.decimal cardinality)
  | belowMinimum items support minimum =>
    "item set ".toList ++ idList "ItemId" items ++ " with support ".toList ++
      Text.decimal support ++ " below the minimum ".toList ++ Text.decimal minimum
  | staleSupport items carried expected =>
    sides ("item set ".toList ++ idList "ItemId" items ++
        " carries a support that is not its members' intersection".toList)
      ("Support(".toList ++ idList "SelectorId" carried ++ [')'])
      ("Support(".toList ++ idList "SelectorId" expected ++ [')'])
  | treeCount set support count =>
    sides ("tree count for ".toList ++ set ++ " disagrees with its support".toList)
      (Text.decimal support) (Text.decimal count)
  | pathCount set support count =>
    sides ("single-path count for ".toList ++ set ++ " disagrees with its support".toList)
      (Text.decimal support) (Text.decimal count)

end Fault
end StyleMiner
