import StyleMiner.Mining.Fault

/-! What a mining run is asked for. A pattern that a single selector declares is no duplicate, so a
run needs a minimum support of two. -/

namespace StyleMiner

inductive Algorithm where
  | fpGrowth
  | apriori
  deriving DecidableEq, Repr

namespace Algorithm

def name : Algorithm → String
  | fpGrowth => "fp-growth"
  | apriori => "apriori"

def ofName? (s : String) : Option Algorithm := [fpGrowth, apriori].find? (·.name = s)

theorem ofName?_name (a : Algorithm) : ofName? a.name = some a := by cases a <;> decide

end Algorithm

/-- Why a run gives no results: its threshold is too low, or it went wrong inside. -/
inductive MiningError where
  | supportTooLow (minSupport : Nat)
  | fault (f : Fault)
  deriving DecidableEq, Repr

/-- `removeSubsumed` keeps only sets that no larger one explains; `singlePath` takes the
combinations of a single path at once. -/
structure Config where
  minSupport : Nat
  removeSubsumed : Bool
  singlePath : Bool
  deriving DecidableEq, Repr

namespace Config

def leastSupport : Nat := 2

def default : Config := ⟨leastSupport, true, true⟩

def validate (c : Config) : Except MiningError Config :=
  if c.minSupport < leastSupport then throw (.supportTooLow c.minSupport) else return c

def ofMinSupport (n : Nat) : Except MiningError Config := validate { default with minSupport := n }

end Config

def MiningError.message : MiningError → Text
  | supportTooLow n =>
    "minimum support must be at least ".toList ++ Text.decimal Config.leastSupport ++
      " selectors, got ".toList ++ Text.decimal n
  | fault f => f.message

end StyleMiner
