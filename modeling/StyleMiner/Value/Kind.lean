import StyleMiner.Text.Ascii

/-! What a declaration value is. The kinds are ordered as they are listed. -/

namespace StyleMiner

inductive Kind where
  | color
  | length
  | angle
  | time
  | frequency
  | resolution
  | percentage
  | number
  | dimension
  | keyword
  | string
  | url
  | function
  | separator
  deriving DecidableEq, Repr

namespace Kind

def all : List Kind :=
  [color, length, angle, time, frequency, resolution, percentage, number, dimension, keyword,
    string, url, function, separator]

def name : Kind → String
  | color => "color"
  | length => "length"
  | angle => "angle"
  | time => "time"
  | frequency => "frequency"
  | resolution => "resolution"
  | percentage => "percentage"
  | number => "number"
  | dimension => "dimension"
  | keyword => "keyword"
  | string => "string"
  | url => "url"
  | function => "function"
  | separator => "separator"

def ofName? (s : String) : Option Kind := all.find? (·.name = s)

/-- the place of a kind in the order -/
def rank (k : Kind) : Nat := k.ctorIdx

instance : Ord Kind := ⟨compareOn rank⟩

theorem mem_all (k : Kind) : k ∈ all := by cases k <;> decide

theorem ofName?_name (k : Kind) : ofName? k.name = some k := by cases k <;> decide

end Kind
end StyleMiner
