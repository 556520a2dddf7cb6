import StyleMiner.Mining.Growth
import StyleMiner.Mining.Levelwise

/-! A mining run: items are ranked, selectors become transactions, and the sets of items that enough
selectors declare are collected. -/

namespace StyleMiner

/-- the results of a run, with the items that their members are -/
structure Outcome where
  table : ItemTable
  results : Results
  config : Config
  algorithm : Algorithm

def mineWith (a : Algorithm) (data : DataSet) (table : ItemTable) (c : Config) (r : Results) :
    Except Fault Results :=
  match a with
  | .fpGrowth => Growth.mine data table c r
  | .apriori => Levelwise.mine data table c r

/-- finds the groups of declarations that at least the minimum of selectors repeat -/
def findDuplicates (sheet : Stylesheet) (c : Config) (a : Algorithm) :
    Except MiningError Outcome := do
  let c ← c.validate
  let table := ItemTable.ofSheet sheet
  let data := DataSet.ofSheet sheet table c.minSupport
  let results := Results.empty c.minSupport c.removeSubsumed
  let results ← if data.isEmpty then pure results else (mineWith a data table c results).mapError .fault
  return ⟨table, results, c, a⟩

end StyleMiner
