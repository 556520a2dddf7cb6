import StyleMiner.Source.Location
import StyleMiner.Source.Warning

/-! What a reader of stylesheets has to skip, and how it says so. -/

namespace StyleMiner

inductive Notice where
  | strayBrace (location : Location)
  | skippedRule (name : Text) (location : Location)
  | unterminatedRule (location : Location)
  | missingSelector (location : Location)
  | invalidDeclaration (location : Location)
  | missingColon (property : Text) (location : Location)
  | missingValue (property : Text) (location : Location)
  deriving DecidableEq, Repr

namespace Notice

def message : Notice → Text
  | strayBrace l => "stray '\x7d' at ".toList ++ l.render
  | skippedRule name l => "skipped @".toList ++ name ++ " rule at ".toList ++ l.render
  | unterminatedRule l => "unterminated rule at ".toList ++ l.render
  | missingSelector l => "rule without a selector at ".toList ++ l.render
  | invalidDeclaration l => "skipped invalid declaration at ".toList ++ l.render
  | missingColon name l => "expected ':' after '".toList ++ name ++ "' at ".toList ++ l.render
  | missingValue name l =>
    "declaration '".toList ++ name ++ "' without a value at ".toList ++ l.render

def warning (n : Notice) : Warning := ⟨"CSS".toList, n.message⟩

end Notice
end StyleMiner
