import StyleMiner.Sheet.Basic
import StyleMiner.Sheet.Block

/-! Reading the rules of a stylesheet. Style rules stand at the top or inside conditional group
rules, whose conditions become the context of the rules in them; every other rule with an at-sign is
skipped whole. A rule that breaks off is dropped with a notice. -/

namespace StyleMiner

/-- a piece of a stylesheet: a style rule, or what was there instead -/
inductive SheetItem where
  | rule (text : Text) (media : Option Text) (location : Location) (block : List BlockItem)
  | notice (n : Notice)
  deriving DecidableEq, Repr

namespace SheetItem

/-- the pieces of a text between the commas outside parentheses and square brackets -/
def commaParts (depth : Nat) : Text → List Text
  | [] => [[]]
  | c :: t =>
    if c = ',' ∧ depth = 0 then [] :: commaParts 0 t
    else
      let depth :=
        if c = '(' ∨ c = '[' then depth + 1 else if c = ')' ∨ c = ']' then depth - 1 else depth
      (commaParts depth t).modifyHead (c :: ·)

/-- a selector list with its white space collapsed and its empty entries left out -/
def selectorText (prelude : Text) : Text :=
  ", ".toList.intercalate (((commaParts 0 prelude).map Text.collapseSpaces).filter (· ≠ []))

def isConditional (name : Text) : Bool :=
  ["media", "supports", "container", "layer"].any (·.toList == name.lower)

/-- the condition of a group rule, after the conditions around it -/
def context (outer : Option Text) (name prelude : Text) : Text :=
  outer.elim [] (· ++ [' ']) ++ [' '].intercalate (('@' :: name.lower) :: prelude.words)

def endsRulePrelude (t : Token) : Bool := t == .opening .curly

def endsAtPrelude (t : Token) : Bool := t == .semicolon || t == .opening .curly

/-- drops the rest of a block whose opening brace has been read -/
def dropBlock (ts : List Located) : List Located :=
  (Component.takeUntil (· == .closing .curly) ts).2.tail

theorem dropBlock_suffix (ts : List Located) : dropBlock ts <:+ ts :=
  (List.tail_suffix _).trans (Component.takeUntil_suffix _ _)

/-- What an at-rule leaves of the tokens after its name: a notice, and the context of the rules that
come next if it is a group rule. -/
structure AtRule where
  notice : List SheetItem
  context : Option Text
  rest : List Located

def readAtRule (source : Source) (outer : Option Text) (name : Text) (location : Location)
    (ts : List Located) : AtRule :=
  let start := ts.head?.elim 0 (·.start.offset)
  match (Component.takeUntil endsAtPrelude ts).2 with
  | t :: rest =>
    if t.token = .opening .curly then
      if isConditional name then
        ⟨[], some (context outer name (source.slice start t.start.offset)), rest⟩
      else ⟨[.notice (.skippedRule name location)], none, dropBlock rest⟩
    else ⟨[], none, rest⟩
  | [] => ⟨[], none, []⟩

/-- reads a style rule from its first token on -/
def readRule (source : Source) (media : Option Text) (t : Located) (ts : List Located) :
    SheetItem × List Located :=
  match (Component.takeUntil endsRulePrelude (t :: ts)).2 with
  | brace :: rest =>
    if brace.token = .opening .curly then
      let text := selectorText (source.slice t.start.offset brace.start.offset)
      if text = [] then (.notice (.missingSelector t.start), dropBlock rest)
      else
        let block := BlockItem.readBlock source rest
        (.rule text media t.start block.1, block.2)
    else (.notice (.unterminatedRule t.start), rest)
  | [] => (.notice (.unterminatedRule t.start), [])

theorem readAtRule_suffix (source : Source) (outer : Option Text) (name : Text)
    (location : Location) (ts : List Located) :
    (readAtRule source outer name location ts).rest <:+ ts := by
  have h := Component.takeUntil_suffix endsAtPrelude ts
  unfold readAtRule
  simp only []
  split
  · next t rest hr =>
    rw [hr] at h
    have hs := (List.suffix_cons t rest).trans h
    split
    · split
      · exact hs
      · exact (dropBlock_suffix rest).trans hs
    · exact hs
  · exact List.nil_suffix

theorem readRule_suffix (source : Source) (media : Option Text) (t : Located) (ts : List Located) :
    (readRule source media t ts).2 <:+ t :: ts := by
  have hsuffix := Component.takeUntil_suffix endsRulePrelude (t :: ts)
  unfold readRule
  split
  · next brace rest hr =>
    rw [hr] at hsuffix
    have hrest := (List.suffix_cons brace rest).trans hsuffix
    split
    · dsimp only
      split
      · exact (dropBlock_suffix rest).trans hrest
      · exact (BlockItem.readBlock_suffix source rest).trans hrest
    · exact hrest
  · exact List.nil_suffix

theorem readRule_length (source : Source) (media : Option Text) (t : Located) (ts : List Located) :
    (readRule source media t ts).2.length ≤ ts.length := by
  have h := (Component.takeUntil_suffix endsRulePrelude (t :: ts)).length_le
  unfold readRule
  split
  · next brace rest hr =>
    rw [hr] at h
    simp only [List.length_cons] at h
    split
    · simp only []
      split
      · exact Nat.le_trans (dropBlock_suffix rest).length_le (by omega)
      · exact Nat.le_trans (BlockItem.readBlock_suffix source rest).length_le (by omega)
    · simp only []; omega
  · exact Nat.zero_le _

/-- The pieces of a sheet. `contexts` are those of the group rules still open, the innermost first;
a closing brace ends the innermost one. -/
def readRules (source : Source) (contexts : List Text) : List Located → List SheetItem
  | [] => []
  | t :: ts =>
    match t.token with
    | .eof => []
    | .whitespace | .semicolon => readRules source contexts ts
    | .closing .curly =>
      match contexts with
      | [] => .notice (.strayBrace t.start) :: readRules source [] ts
      | _ :: outer => readRules source outer ts
    | .atKeyword name =>
      let r := readAtRule source contexts.head? name t.start ts
      r.notice ++ readRules source (r.context.toList ++ contexts) r.rest
    | _ =>
      let r := readRule source contexts.head? t ts
      r.1 :: readRules source contexts r.2
termination_by ts => ts.length
decreasing_by
  · exact Nat.lt_succ_self _
  · exact Nat.lt_succ_self _
  · exact Nat.lt_succ_self _
  · exact Nat.lt_succ_of_le (readAtRule_suffix ..).length_le
  · exact Nat.lt_succ_of_le (readRule_length ..)

end SheetItem

namespace Selector

/-- the selector that a style rule adds to a sheet -/
def ofRule (id : SelectorId) (text : Text) (media : Option Text) (location : Location)
    (block : List BlockItem) : Selector :=
  ⟨id, text, media, location, block.filterMap fun
    | .declaration d => some (.ofRaw d.property d.values d.important id d.location)
    | .notice _ => none⟩

end Selector

namespace SheetItem

/-- the selectors of style rules, numbered from `next` on -/
def selectors (next : SelectorId) : List SheetItem → List Selector
  | [] => []
  | .rule text media location block :: is =>
    .ofRule next text media location block :: selectors (next + 1) is
  | .notice _ :: is => selectors next is

theorem map_id_selectors (next : SelectorId) (is : List SheetItem) :
    (selectors next is).map (·.id) = List.range' next (selectors next is).length := by
  induction is generalizing next with
  | nil => rfl
  | cons i is ih =>
    cases i with
    | rule text media location block =>
      simp only [selectors, List.map_cons, ih, List.length_cons, List.range'_succ]
      rfl
    | notice n => exact ih next

def blockWarnings : BlockItem → List Warning
  | .declaration d => Declaration.warnings d.property d.values
  | .notice n => [n.warning]

def warnings : SheetItem → List Warning
  | .rule _ _ _ block => block.flatMap blockWarnings
  | .notice n => [n.warning]

end SheetItem

namespace Stylesheet

/-- the pieces that a source text is read as -/
def items (source : Text) : List SheetItem :=
  SheetItem.readRules source.toArray [] (tokenize source)

def ofText (source : Text) : Stylesheet where
  selectors := SheetItem.selectors 0 (items source)
  numbered := by rw [SheetItem.map_id_selectors, List.range_eq_range']

/-- the warnings that reading a source text is worth, in the order of the text -/
def textWarnings (source : Text) : List Warning := (items source).flatMap (·.warnings)

end Stylesheet
end StyleMiner
