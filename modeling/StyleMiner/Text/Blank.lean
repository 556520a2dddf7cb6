import StyleMiner.Text.Ascii

/-! White space as Unicode has it: trimming, and the words of a text. A text is collapsed when its
words stand apart by one space each and nothing stands around them. -/

namespace StyleMiner.Text

/-- the code points with the property `White_Space` -/
def isSpace (c : Char) : Bool :=
  let n := c.toNat
  (9 ≤ n && n ≤ 13) || n == 0x20 || n == 0x85 || n == 0xA0 || n == 0x1680 ||
    (0x2000 ≤ n && n ≤ 0x200A) || n == 0x2028 || n == 0x2029 || n == 0x202F || n == 0x205F ||
    n == 0x3000

def trimStart (t : Text) : Text := t.dropWhile isSpace

def trimEnd (t : Text) : Text := (t.reverse.dropWhile isSpace).reverse

def trim (t : Text) : Text := t.trimStart.trimEnd

/-- the longest runs without white space, in order -/
def words : Text → List Text
  | [] => []
  | c :: t =>
    if isSpace c then words t
    else match t.head?.any (!isSpace ·), words t with
      | true, w :: ws => (c :: w) :: ws
      | _, ws => [c] :: ws

def collapseSpaces (t : Text) : Text := [' '].intercalate t.words

end StyleMiner.Text
