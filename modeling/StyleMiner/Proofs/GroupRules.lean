import StyleMiner.Proofs.Matching
import StyleMiner.Sheet.Rules

/-! Where the block of a group rule ends. As long as each rule in the block has a block or a semicolon of
its own, the block ends at its own brace, and the rules behind it are read as if it were not there. A
rule that lacks both is the one case left: it reads on over the brace. What ends the block of the group is
a token of that rule's prelude then, and so is all that follows up to the next brace: the rule takes the
block there for its own, and the group stays open. -/

namespace StyleMiner

variable {source : Source} {ts us block rest : List Located} {t brace close : Located}
  {contexts : List Text}

namespace BlockItem

theorem balanced_dropWhile (h : Balanced ts) : Balanced (ts.dropWhile (·.token == .whitespace)) := by
  induction ts with
  | nil => exact .nil
  | cons t ts ih =>
    rw [List.dropWhile_cons]
    split
    · next ht => exact ih (h.tail (by rw [eq_of_beq ht]; rfl))
    · exact h

theorem endsDeclaration_iff {t : Token} :
    endsDeclaration t = true ↔ t = .semicolon ∨ t = .closing .curly := by
  rw [endsDeclaration, Bool.or_eq_true, beq_iff_eq, beq_iff_eq]

theorem readDeclaration_append (source : Source) (property : Text) (location : Location)
    (h : Balanced ts) (hends : endsDeclaration close.token = true) :
    Balanced (readDeclaration source property location ts).2 ∧
      ∀ rest, readDeclaration source property location (ts ++ close :: rest) =
        ((readDeclaration source property location ts).1,
          (readDeclaration source property location ts).2 ++ close :: rest) := by
  have hne : close.token ≠ .eof ∧ close.token ≠ .whitespace ∧ close.token ≠ .colon := by
    rcases endsDeclaration_iff.1 hends with hclose | hclose <;> simp [hclose]
  obtain ⟨heof, hwhitespace, hcolon⟩ := hne
  have hbal := balanced_dropWhile h
  unfold readDeclaration
  cases hdrop : ts.dropWhile (·.token == .whitespace) with
  | nil =>
    refine ⟨.nil, fun rest => ?_⟩
    have hblank : (close :: rest).dropWhile (·.token == .whitespace) = close :: rest := by
      rw [List.dropWhile_cons, if_neg (by simp [hwhitespace])]
    have happend : (ts ++ close :: rest).dropWhile (·.token == .whitespace) = close :: rest := by
      rw [List.dropWhile_append, hdrop, List.isEmpty_nil, if_pos rfl, hblank]
    simp only [happend, hcolon, if_false, Component.takeUntil, Component.gather_stop heof hends,
      List.nil_append]
  | cons u us =>
    rw [hdrop] at hbal
    have happend : ∀ rest, (ts ++ close :: rest).dropWhile (·.token == .whitespace) =
        u :: (us ++ close :: rest) := by
      intro rest
      simp only [List.dropWhile_append, hdrop, List.isEmpty_cons, Bool.false_eq_true, if_false,
        List.cons_append]
    simp only [happend]
    by_cases hcolon : u.token = .colon
    · have hus := (hbal.tail (by rw [hcolon]; rfl)).takeUntil_append heof hends
      simp only [hcolon, if_true]
      exact ⟨hus.1, fun rest => by rw [hus.2]⟩
    · have hus := hbal.takeUntil_append heof hends
      simp only [hcolon, if_false]
      exact ⟨hus.1, fun rest => by rw [← List.cons_append, hus.2]⟩

/-- Up to a semicolon or the brace a block is read as it is read alone, and from there on as if nothing
were in front. -/
theorem readBlock_upTo (h : Balanced block) (hends : endsDeclaration close.token = true)
    (rest : List Located) : readBlock source (block ++ close :: rest) =
      ((readBlock source block).1 ++ (readBlock source (close :: rest)).1,
        (readBlock source (close :: rest)).2) := by
  have heof : close.token ≠ .eof := by
    rcases endsDeclaration_iff.1 hends with hclose | hclose <;> simp [hclose]
  fun_induction readBlock source block with
  | case1 => rfl
  | case2 t ts ht => exact absurd ht h.head_ne_eof
  | case3 t ts _ ht => exact absurd ht (h.head_ne_closing .curly)
  | case4 t ts hne hbrace hgap ih =>
    have hopen : Opener.ofToken? t.token = none := by rcases hgap with h | h <;> rw [h] <;> rfl
    rw [List.cons_append, readBlock, if_neg hne, if_neg hbrace, if_pos hgap, ih (h.tail hopen)]
  | case5 t ts hne hbrace hgap property hname d r ih =>
    have hd := readDeclaration_append source property t.start (h.tail (by rw [hname]; rfl)) hends
    have hr : readBlock source (d.2 ++ close :: rest) =
        (r.1 ++ (readBlock source (close :: rest)).1, (readBlock source (close :: rest)).2) := ih hd.1
    rw [List.cons_append, readBlock, if_neg hne, if_neg hbrace, if_neg hgap]
    simp only [hname, hd.2 rest]
    rw [hr]
    rfl
  | case6 t ts hne hbrace hgap skipped r hname ih =>
    have hskip := h.takeUntil_append heof hends
    have hr : readBlock source (skipped.2 ++ close :: rest) =
        (r.1 ++ (readBlock source (close :: rest)).1, (readBlock source (close :: rest)).2) := ih hskip.1
    have hread := hskip.2 rest
    rw [List.cons_append] at hread ⊢
    rw [readBlock, if_neg hne, if_neg hbrace, if_neg hgap]
    simp only [hread]
    rw [hr]
    rfl

theorem readBlock_close (hclose : close.token = .closing .curly) (rest : List Located) :
    readBlock source (close :: rest) = ([], rest) := by
  rw [readBlock, if_neg (by simp [hclose]), if_pos hclose]

theorem readBlock_semicolon (ht : t.token = .semicolon) (rest : List Located) :
    readBlock source (t :: rest) = readBlock source rest := by
  rw [readBlock, if_neg (by simp [ht]), if_neg (by simp [ht]), if_pos (.inr ht)]

/-- A block is read up to its brace as it is read alone, and what is behind the brace is left. -/
theorem readBlock_append (h : Balanced block) (hclose : close.token = .closing .curly)
    (rest : List Located) :
    readBlock source (block ++ close :: rest) = ((readBlock source block).1, rest) := by
  rw [readBlock_upTo h (endsDeclaration_iff.2 (.inr hclose)), readBlock_close hclose, List.append_nil]

end BlockItem

namespace SheetItem

def startsRule : Token → Bool
  | .eof | .whitespace | .semicolon | .closing .curly | .atKeyword _ => false
  | _ => true

/-- tokens of rules each of which has a block or a semicolon of its own -/
inductive WholeRules : List Located → Prop where
  | nil : WholeRules []
  | gap {t : Located} {ts : List Located} (ht : t.token = .whitespace ∨ t.token = .semicolon)
    (hrest : WholeRules ts) : WholeRules (t :: ts)
  | statement {t semi : Located} {name : Text} {prelude ts : List Located}
    (ht : t.token = .atKeyword name) (hprelude : Matched endsAtPrelude prelude)
    (hsemi : semi.token = .semicolon) (hrest : WholeRules ts) :
    WholeRules (t :: (prelude ++ semi :: ts))
  | skipped {t brace close : Located} {name : Text} {prelude block ts : List Located}
    (ht : t.token = .atKeyword name) (hname : isConditional name = false)
    (hprelude : Matched endsAtPrelude prelude) (hbrace : brace.token = .opening .curly)
    (hblock : Balanced block) (hclose : close.token = .closing .curly) (hrest : WholeRules ts) :
    WholeRules (t :: (prelude ++ brace :: (block ++ close :: ts)))
  | group {t brace close : Located} {name : Text} {prelude block ts : List Located}
    (ht : t.token = .atKeyword name) (hname : isConditional name = true)
    (hprelude : Matched endsAtPrelude prelude) (hbrace : brace.token = .opening .curly)
    (hblock : WholeRules block) (hclose : close.token = .closing .curly) (hrest : WholeRules ts) :
    WholeRules (t :: (prelude ++ brace :: (block ++ close :: ts)))
  | style {brace close : Located} {prelude block ts : List Located}
    (hstart : ∀ t ∈ prelude.head?, startsRule t.token = true)
    (hprelude : Matched endsRulePrelude prelude) (hbrace : brace.token = .opening .curly)
    (hblock : Balanced block) (hclose : close.token = .closing .curly) (hrest : WholeRules ts) :
    WholeRules (prelude ++ brace :: (block ++ close :: ts))

/-- Tokens of rules of which the last has neither a block nor a semicolon, in the list itself or in a
group rule of it. -/
inductive BreaksOff : List Located → Prop where
  | style {before prelude : List Located} {t : Located} (hbefore : WholeRules before)
    (hstart : startsRule t.token = true) (hprelude : Matched endsRulePrelude (t :: prelude)) :
    BreaksOff (before ++ t :: prelude)
  | atRule {before prelude : List Located} {t : Located} {name : Text} (hbefore : WholeRules before)
    (ht : t.token = .atKeyword name) (hprelude : Matched endsAtPrelude prelude) :
    BreaksOff (before ++ t :: prelude)
  | group {before prelude block ts : List Located} {t brace close : Located} {name : Text}
    (hbefore : WholeRules before) (ht : t.token = .atKeyword name) (hname : isConditional name = true)
    (hprelude : Matched endsAtPrelude prelude) (hbrace : brace.token = .opening .curly)
    (hblock : BreaksOff block) (hclose : close.token = .closing .curly) :
    BreaksOff (before ++ t :: (prelude ++ brace :: (block ++ close :: ts)))

theorem WholeRules.append (hts : WholeRules ts) (hus : WholeRules us) : WholeRules (ts ++ us) := by
  induction hts with
  | nil => exact hus
  | gap ht _ ih => exact .gap ht ih
  | statement ht hprelude hsemi _ ih =>
    rw [List.cons_append, List.append_assoc]
    exact .statement ht hprelude hsemi ih
  | skipped ht hname hprelude hbrace hblock hclose _ ih =>
    rw [List.cons_append, List.append_assoc, List.cons_append, List.append_assoc]
    exact .skipped ht hname hprelude hbrace hblock hclose ih
  | group ht hname hprelude hbrace hblock hclose _ _ ih =>
    rw [List.cons_append, List.append_assoc, List.cons_append, List.append_assoc]
    exact .group ht hname hprelude hbrace hblock hclose ih
  | style hstart hprelude hbrace hblock hclose _ ih =>
    rw [List.append_assoc, List.cons_append, List.append_assoc]
    exact .style hstart hprelude hbrace hblock hclose ih

theorem BreaksOff.after (hus : BreaksOff us) (hts : WholeRules ts) : BreaksOff (ts ++ us) := by
  cases hus with
  | style hbefore hstart hprelude =>
    rw [← List.append_assoc]
    exact .style (hts.append hbefore) hstart hprelude
  | atRule hbefore ht hprelude =>
    rw [← List.append_assoc]
    exact .atRule (hts.append hbefore) ht hprelude
  | group hbefore ht hname hprelude hbrace hblock hclose =>
    rw [← List.append_assoc]
    exact .group (hts.append hbefore) ht hname hprelude hbrace hblock hclose

end SheetItem

theorem Matched.curly {ends : Token → Bool} (h : Matched ends (brace :: ts))
    (hbrace : brace.token = .opening .curly) : ∃ inside close rest, ts = inside ++ close :: rest ∧
      Balanced inside ∧ close.token = .closing .curly ∧ Matched ends rest := by
  cases h with
  | plain _ _ hopen =>
    rw [hbrace] at hopen
    cases hopen
  | @group _ _ c o inside rest _ hopen hclose hinside hrest =>
    rw [hbrace] at hopen
    cases hopen
    exact ⟨inside, c, rest, rfl, hinside, hclose, hrest⟩

theorem Matched.getLast?_ne_closing {ends : Token → Bool} (h : Matched ends ts)
    (hends : ends (.opening .curly) = true) : ∀ t ∈ ts.getLast?, t.token ≠ .closing .curly := by
  induction h with
  | nil => exact nofun
  | @plain ends t ts _ _ _ hclose _ ih =>
    cases ts with
    | nil => exact fun u hu => Option.some.inj hu ▸ hclose .curly
    | cons v ts => exact ih hends
  | @group ends t c o inside ts hgo hopen hclose _ _ _ ih =>
    rw [← List.cons_append, List.getLast?_append, Option.or_of_isSome (by simp)]
    cases ts with
    | cons v ts => exact ih hends
    | nil =>
      rintro u hu hcurly
      cases hu
      have hbrace : t.token = .opening .curly := by
        cases o with
        | function name => cases hclose.symm.trans hcurly
        | block b =>
          cases hclose.symm.trans hcurly
          revert hopen
          cases t.token <;> simp [Opener.ofToken?]
      rw [hbrace, hends] at hgo
      cases hgo

namespace SheetItem

theorem startsRule_of_ne (hgap : ¬ (t.token = .whitespace ∨ t.token = .semicolon))
    (hat : ∀ name, t.token ≠ .atKeyword name) (h : Balanced (t :: ts)) : startsRule t.token = true := by
  have heof := h.head_ne_eof
  have hclose := h.head_ne_closing .curly
  unfold startsRule
  split <;> simp_all

theorem atRule_parts (h : Balanced ts) : Matched endsAtPrelude ts ∨
    ∃ prelude u us, ts = prelude ++ u :: us ∧ Matched endsAtPrelude prelude ∧
      (u.token = .semicolon ∧ Balanced us ∨ u.token = .opening .curly ∧
        ∃ block close rest, us = block ++ close :: rest ∧ Balanced block ∧
          close.token = .closing .curly ∧ Balanced rest) := by
  obtain ⟨prelude, us, rfl, hprelude, hus, hhead⟩ := h.split endsAtPrelude
  cases us with
  | nil => exact .inl (by rwa [List.append_nil])
  | cons u us =>
    have hu : u.token = .semicolon ∨ u.token = .opening .curly := by
      simpa [endsAtPrelude] using hhead u rfl
    refine .inr ⟨prelude, u, us, rfl, hprelude, hu.imp (fun hsemi => ?_) (fun hbrace => ?_)⟩
    · exact ⟨hsemi, hus.tail (by rw [hsemi]; rfl)⟩
    · exact ⟨hbrace, hus.curly hbrace⟩

theorem style_parts (h : Balanced ts) : Matched endsRulePrelude ts ∨
    ∃ prelude brace block close rest, ts = prelude ++ brace :: (block ++ close :: rest) ∧
      Matched endsRulePrelude prelude ∧ brace.token = .opening .curly ∧ Balanced block ∧
      close.token = .closing .curly ∧ Balanced rest := by
  obtain ⟨prelude, us, rfl, hprelude, hus, hhead⟩ := h.split endsRulePrelude
  cases us with
  | nil => exact .inl (by rwa [List.append_nil])
  | cons brace us =>
    have hbrace : brace.token = .opening .curly := by
      simpa [endsRulePrelude] using hhead brace rfl
    obtain ⟨block, close, rest, rfl, hparts⟩ := hus.curly hbrace
    exact .inr ⟨prelude, brace, block, close, rest, rfl, hprelude, hbrace, hparts⟩

/-- Tokens whose brackets match are whole rules, unless the last rule of some list in them breaks off. -/
theorem wholeRules_or_breaksOff : ∀ {ts : List Located}, Balanced ts → WholeRules ts ∨ BreaksOff ts
  | [], _ => .inl .nil
  | t :: ts, h => by
    by_cases hgap : t.token = .whitespace ∨ t.token = .semicolon
    · have hopen : Opener.ofToken? t.token = none := by rcases hgap with h | h <;> rw [h] <;> rfl
      apply (wholeRules_or_breaksOff (h.tail hopen)).imp (.gap hgap)
      exact fun hts => hts.after (.gap hgap .nil)
    by_cases hat : ∃ name, t.token = .atKeyword name
    · obtain ⟨name, ht⟩ := hat
      obtain hprelude | ⟨prelude, u, us, rfl, hprelude, ⟨hsemi, hus⟩ | ⟨hbrace, hparts⟩⟩ :=
        atRule_parts (h.tail (by rw [ht]; rfl))
      · exact .inr (BreaksOff.atRule .nil ht hprelude)
      · apply (wholeRules_or_breaksOff hus).imp (.statement ht hprelude hsemi)
        intro hus
        simpa using hus.after (.statement ht hprelude hsemi .nil)
      obtain ⟨block, close, rest, rfl, hblock, hclose, hrest⟩ := hparts
      cases hname : isConditional name with
      | false =>
        apply (wholeRules_or_breaksOff hrest).imp (.skipped ht hname hprelude hbrace hblock hclose)
        intro hrest
        simpa using hrest.after (.skipped ht hname hprelude hbrace hblock hclose .nil)
      | true =>
        obtain hblock | hblock := wholeRules_or_breaksOff hblock
        · apply (wholeRules_or_breaksOff hrest).imp (.group ht hname hprelude hbrace hblock hclose)
          intro hrest
          simpa using hrest.after (.group ht hname hprelude hbrace hblock hclose .nil)
        · exact .inr (BreaksOff.group .nil ht hname hprelude hbrace hblock hclose)
    have hstart := startsRule_of_ne hgap (not_exists.1 hat) h
    obtain hprelude | ⟨prelude, brace, block, close, rest, hts, hprelude, hbrace, hblock, hclose, hrest⟩ :=
      style_parts h
    · exact .inr (BreaksOff.style .nil hstart hprelude)
    have hfirst : ∀ u ∈ prelude.head?, startsRule u.token = true := by
      intro u hu
      have hhead : (t :: ts).head? = some u := by rw [hts, List.head?_append, hu]; rfl
      cases hhead
      exact hstart
    have hlength := congrArg List.length hts
    rw [hts]
    apply (wholeRules_or_breaksOff hrest).imp (.style hfirst hprelude hbrace hblock hclose)
    intro hrest
    simpa using hrest.after (.style hfirst hprelude hbrace hblock hclose .nil)
termination_by ts => ts.length
decreasing_by all_goals simp_all <;> omega

/-- Style rules alone do not break off if the last of them ends with a brace. -/
theorem not_breaksOff_of_brace (hat : ∀ t ∈ ts, ∀ name, t.token ≠ .atKeyword name)
    (hlast : ∃ t ∈ ts.getLast?, t.token = .closing .curly) : ¬ BreaksOff ts := by
  intro h
  cases h with
  | atRule _ ht => exact hat _ (by simp) _ ht
  | group _ ht => exact hat _ (by simp) _ ht
  | style _ _ hprelude =>
    obtain ⟨t, ht, hclose⟩ := hlast
    rw [List.getLast?_append, Option.or_of_isSome (by simp)] at ht
    exact hprelude.getLast?_ne_closing rfl t ht hclose

variable {name : Text} {prelude : List Located}

theorem dropBlock_append (h : Balanced block) (hclose : close.token = .closing .curly)
    (rest : List Located) : dropBlock (block ++ close :: rest) = rest := by
  unfold dropBlock
  rw [Component.takeUntil_snd (h.closing .curly) (by simp [hclose]) (by simp [hclose]), List.tail_cons]

/-- the context that a group rule puts the rules of its block in -/
def groupContext (source : Source) (outer : Option Text) (name : Text) (prelude : List Located)
    (brace : Located) : Text :=
  context outer name
    (source.slice ((prelude ++ [brace]).head?.elim 0 (·.start.offset)) brace.start.offset)

theorem readAtRule_semicolon (outer : Option Text) (location : Location)
    (hprelude : Matched endsAtPrelude prelude) (ht : t.token = .semicolon) (rest : List Located) :
    readAtRule source outer name location (prelude ++ t :: rest) = ⟨[], none, rest⟩ := by
  unfold readAtRule
  rw [Component.takeUntil_snd hprelude (by simp [ht]) (by simp [ht, endsAtPrelude])]
  simp only [ht, reduceCtorEq, if_false]

theorem readAtRule_group (outer : Option Text) (location : Location)
    (hname : isConditional name = true) (hprelude : Matched endsAtPrelude prelude)
    (hbrace : brace.token = .opening .curly) (rest : List Located) :
    readAtRule source outer name location (prelude ++ brace :: rest) =
      ⟨[], some (groupContext source outer name prelude brace), rest⟩ := by
  unfold readAtRule groupContext
  rw [Component.takeUntil_snd hprelude (by simp [hbrace]) (by simp [hbrace, endsAtPrelude])]
  simp only [hbrace, hname, if_true, List.head?_append, List.head?_cons]

theorem readAtRule_skipped (outer : Option Text) (location : Location)
    (hname : isConditional name = false)
    (hts : (Component.takeUntil endsAtPrelude ts).2 = brace :: (block ++ close :: rest))
    (hbrace : brace.token = .opening .curly) (hblock : Balanced block)
    (hclose : close.token = .closing .curly) :
    readAtRule source outer name location ts =
      ⟨[.notice (.skippedRule name location)], none, rest⟩ := by
  unfold readAtRule
  rw [hts]
  simp only [hbrace, hname, if_true, Bool.false_eq_true, if_false, dropBlock_append hblock hclose]

theorem readRules_atRule (ht : t.token = .atKeyword name) :
    readRules source contexts (t :: ts) =
      (readAtRule source contexts.head? name t.start ts).notice ++
        readRules source ((readAtRule source contexts.head? name t.start ts).context.toList ++ contexts)
          (readAtRule source contexts.head? name t.start ts).rest := by
  rw [readRules.eq_def]
  simp only [ht]

theorem readRules_group (ht : t.token = .atKeyword name) (hname : isConditional name = true)
    (hprelude : Matched endsAtPrelude prelude) (hbrace : brace.token = .opening .curly) :
    readRules source contexts (t :: (prelude ++ brace :: ts)) =
      readRules source (groupContext source contexts.head? name prelude brace :: contexts) ts := by
  rw [readRules_atRule ht, readAtRule_group _ _ hname hprelude hbrace]
  rfl

theorem readRules_close (hclose : close.token = .closing .curly) (context : Text) :
    readRules source (context :: contexts) (close :: ts) = readRules source contexts ts := by
  rw [readRules.eq_def]
  simp only [hclose]

theorem readRules_rule (hstart : startsRule t.token = true) :
    readRules source contexts (t :: ts) =
      (readRule source contexts.head? t ts).1 ::
        readRules source contexts (readRule source contexts.head? t ts).2 := by
  rw [readRules.eq_def]
  dsimp only
  split <;> simp_all [startsRule]

def styleItem (source : Source) (media : Option Text) (first brace : Located)
    (block : List Located) : SheetItem :=
  let text := selectorText (source.slice first.start.offset brace.start.offset)
  if text = [] then .notice (.missingSelector first.start)
  else .rule text media first.start (BlockItem.readBlock source block).1

theorem readRule_style (media : Option Text)
    (hts : (Component.takeUntil endsRulePrelude (t :: ts)).2 = brace :: (block ++ close :: rest))
    (hbrace : brace.token = .opening .curly) (hblock : Balanced block)
    (hclose : close.token = .closing .curly) :
    readRule source media t ts = (styleItem source media t brace block, rest) := by
  unfold readRule styleItem
  rw [hts]
  simp only [hbrace, if_true, dropBlock_append hblock hclose,
    BlockItem.readBlock_append hblock hclose]
  split <;> rfl

/-- Whole rules are read the same whatever is behind them, and what is behind them as if they were
not there. -/
theorem WholeRules.read (h : WholeRules ts) : ∀ contexts, ∃ items, ∀ rest,
    readRules source contexts (ts ++ rest) = items ++ readRules source contexts rest := by
  induction h with
  | nil => exact fun _ => ⟨[], fun _ => rfl⟩
  | @gap t ts ht _ ih =>
    intro contexts
    obtain ⟨items, hread⟩ := ih contexts
    refine ⟨items, fun rest => ?_⟩
    rw [← hread, List.cons_append, readRules.eq_def]
    rcases ht with ht | ht <;> simp only [ht]
  | statement ht hprelude hsemi _ ih =>
    intro contexts
    obtain ⟨items, hread⟩ := ih contexts
    refine ⟨items, fun rest => ?_⟩
    rw [List.cons_append, List.append_assoc, List.cons_append, readRules_atRule ht,
      readAtRule_semicolon _ _ hprelude hsemi]
    exact hread rest
  | @skipped t _ _ name _ _ _ ht hname hprelude hbrace hblock hclose _ ih =>
    intro contexts
    obtain ⟨items, hread⟩ := ih contexts
    refine ⟨.notice (.skippedRule name t.start) :: items, fun rest => ?_⟩
    rw [List.cons_append, List.append_assoc, List.cons_append, List.append_assoc, List.cons_append,
      readRules_atRule ht, readAtRule_skipped _ _ hname (Component.takeUntil_snd hprelude
        (by simp [hbrace]) (by simp [hbrace, endsAtPrelude]) _) hbrace hblock hclose]
    exact congrArg _ (hread rest)
  | @group t brace close name prelude _ _ ht hname hprelude hbrace _ hclose _ ihblock ih =>
    intro contexts
    obtain ⟨inner, hinner⟩ :=
      ihblock (groupContext source contexts.head? name prelude brace :: contexts)
    obtain ⟨items, hread⟩ := ih contexts
    refine ⟨inner ++ items, fun rest => ?_⟩
    rw [List.cons_append, List.append_assoc, List.cons_append, List.append_assoc, List.cons_append,
      readRules_group ht hname hprelude hbrace, hinner, readRules_close hclose, hread,
      List.append_assoc]
  | @style brace _ prelude block _ hstart hprelude hbrace hblock hclose _ ih =>
    intro contexts
    obtain ⟨items, hread⟩ := ih contexts
    obtain ⟨t, us, ht, hus⟩ : ∃ t us, startsRule t.token = true ∧
        ∀ ts, prelude ++ brace :: ts = t :: (us ++ ts) := by
      cases prelude with
      | nil => exact ⟨brace, [], by simp [hbrace, startsRule], fun ts => rfl⟩
      | cons t us => exact ⟨t, us ++ [brace], hstart t rfl, fun ts => by simp⟩
    refine ⟨styleItem source contexts.head? t brace block :: items, fun rest => ?_⟩
    have hbehind := Component.takeUntil_snd hprelude (t := brace) (by simp [hbrace])
      (by simp [hbrace, endsRulePrelude])
    simp only [hus] at hbehind
    rw [List.append_assoc, List.cons_append, List.append_assoc, List.cons_append, hus,
      readRules_rule ht, readRule_style _ (hbehind _) hbrace hblock hclose]
    exact congrArg _ (hread rest)

theorem readRules_append (h : WholeRules ts) (contexts : List Text) (rest : List Located) :
    readRules source contexts (ts ++ rest) =
      readRules source contexts ts ++ readRules source contexts rest := by
  obtain ⟨items, hread⟩ : ∃ items, ∀ rest, readRules source contexts (ts ++ rest) =
      items ++ readRules source contexts rest := h.read contexts
  have halone := hread []
  rw [List.append_nil, readRules, List.append_nil] at halone
  rw [hread, halone]

theorem selectors_append (next : SelectorId) (is js : List SheetItem) :
    selectors next (is ++ js) =
      selectors next is ++ selectors (next + (selectors next is).length) js := by
  induction is generalizing next with
  | nil => rfl
  | cons i is ih =>
    cases i with
    | rule =>
      simp only [List.cons_append, selectors, ih, List.length_cons, Nat.add_assoc, Nat.add_comm 1]
    | notice => exact ih next

/-- As long as no rule in it breaks off, the block of a group rule ends at its own brace: it is read in
the context of the rule as a list of its own would be, and what is behind it without any context. -/
theorem group_ends_at_brace (ht : t.token = .atKeyword name) (hname : isConditional name = true)
    (hprelude : Matched endsAtPrelude prelude) (hbrace : brace.token = .opening .curly)
    (hblock : Balanced block) (hwhole : ¬ BreaksOff block) (hclose : close.token = .closing .curly)
    (rest : List Located) :
    let whole := readRules source [] (t :: (prelude ++ brace :: (block ++ close :: rest)))
    let inner := readRules source [groupContext source none name prelude brace] block
    let outer := readRules source [] rest
    whole = inner ++ outer ∧ ∀ next,
      selectors next whole =
        selectors next inner ++ selectors (next + (selectors next inner).length) outer := by
  have hrules := (wholeRules_or_breaksOff hblock).resolve_right hwhole
  have hitems : readRules source [] (t :: (prelude ++ brace :: (block ++ close :: rest))) =
      readRules source [groupContext source none name prelude brace] block ++
        readRules source [] rest := by
    rw [readRules_group ht hname hprelude hbrace, readRules_append hrules, readRules_close hclose]
    rfl
  exact ⟨hitems, fun next => by rw [hitems, selectors_append]⟩

theorem group_ends_at_brace_styleRule :
    readRules "@media x\x7ba\x7b\x7d\x7db\x7b\x7d".toList.toArray []
        (⟨.atKeyword "media".toList, ⟨0, 1, 1⟩, 6⟩ ::
          ([⟨.whitespace, ⟨6, 1, 7⟩, 7⟩, ⟨.ident ['x'], ⟨7, 1, 8⟩, 8⟩] ++
            ⟨.opening .curly, ⟨8, 1, 9⟩, 9⟩ ::
              ([⟨.ident ['a'], ⟨9, 1, 10⟩, 10⟩, ⟨.opening .curly, ⟨10, 1, 11⟩, 11⟩,
                ⟨.closing .curly, ⟨11, 1, 12⟩, 12⟩] ++ ⟨.closing .curly, ⟨12, 1, 13⟩, 13⟩ ::
                  [⟨.ident ['b'], ⟨13, 1, 14⟩, 14⟩, ⟨.opening .curly, ⟨14, 1, 15⟩, 15⟩,
                    ⟨.closing .curly, ⟨15, 1, 16⟩, 16⟩]))) =
      [.rule ['a'] (some "@media x".toList) ⟨9, 1, 10⟩ [], .rule ['b'] none ⟨13, 1, 14⟩ []] := by
  have hprelude : Matched endsAtPrelude
      [⟨.whitespace, ⟨6, 1, 7⟩, 7⟩, ⟨.ident ['x'], ⟨7, 1, 8⟩, 8⟩] :=
    .plain rfl nofun rfl nofun (.plain rfl nofun rfl nofun .nil)
  have hblock : Balanced [⟨.ident ['a'], ⟨9, 1, 10⟩, 10⟩, ⟨.opening .curly, ⟨10, 1, 11⟩, 11⟩,
      ⟨.closing .curly, ⟨11, 1, 12⟩, 12⟩] :=
    .plain rfl nofun rfl nofun (.group rfl rfl rfl .nil .nil)
  have hwhole : ¬ BreaksOff [⟨.ident ['a'], ⟨9, 1, 10⟩, 10⟩, ⟨.opening .curly, ⟨10, 1, 11⟩, 11⟩,
      ⟨.closing .curly, ⟨11, 1, 12⟩, 12⟩] :=
    not_breaksOff_of_brace (by simp) ⟨_, rfl, rfl⟩
  refine (group_ends_at_brace (Eq.refl (Token.atKeyword "media".toList)) (by decide) hprelude rfl hblock
    hwhole rfl _).1.trans ?_
  decide +kernel

section BreaksOff

variable {behind : List Located} {first brace' close' : Located} {name' : Text}

/-- an at-rule that breaks off in a group rule: what it takes is lost -/
theorem readRules_atRule_breaksOff (contexts : List Text) (hfirst : first.token = .atKeyword name')
    (hname' : isConditional name' = false) (hprelude : Matched endsAtPrelude prelude)
    (hclose : close.token = .closing .curly) (hbehind : Matched endsAtPrelude behind)
    (hbrace : brace'.token = .opening .curly) (hblock : Balanced block)
    (hclose' : close'.token = .closing .curly) (rest : List Located) :
    readRules source contexts
        (first :: (prelude ++ close :: (behind ++ brace' :: (block ++ close' :: rest)))) =
      .notice (.skippedRule name' first.start) :: readRules source contexts rest := by
  have hskip := Component.takeUntil_over_closing hprelude hclose (by simp [hclose, endsAtPrelude])
    hbehind (t := brace') (by simp [hbrace]) (by simp [hbrace, endsAtPrelude])
    (block ++ close' :: rest)
  rw [readRules_atRule hfirst, readAtRule_skipped _ _ hname' hskip hbrace hblock hclose']
  rfl

/-- a style rule that breaks off in a group rule: what it takes is its selector and its block -/
theorem readRules_style_breaksOff (contexts : List Text) (hfirst : startsRule first.token = true)
    (hprelude : Matched endsRulePrelude (first :: prelude)) (hclose : close.token = .closing .curly)
    (hbehind : Matched endsRulePrelude behind) (hbrace : brace'.token = .opening .curly)
    (hblock : Balanced block) (hclose' : close'.token = .closing .curly) (rest : List Located) :
    readRules source contexts
        (first :: (prelude ++ close :: (behind ++ brace' :: (block ++ close' :: rest)))) =
      styleItem source contexts.head? first brace' block :: readRules source contexts rest := by
  have hskip := Component.takeUntil_over_closing hprelude hclose (by simp [hclose, endsRulePrelude])
    hbehind (t := brace') (by simp [hbrace]) (by simp [hbrace, endsRulePrelude])
    (block ++ close' :: rest)
  rw [List.cons_append] at hskip
  rw [readRules_rule hfirst, readRule_style _ hskip hbrace hblock hclose']

end BreaksOff

/-- Without the condition the block need not end at its brace: in `@media x{@d}e{}` the at-rule takes
the style rule behind the group with it. -/
theorem group_absorbs_brace : ¬ ∀ (source : Source) (t brace close : Located) (name : Text)
    (prelude block rest : List Located), t.token = .atKeyword name → isConditional name = true →
      Matched endsAtPrelude prelude → brace.token = .opening .curly → Balanced block →
      close.token = .closing .curly →
        selectors 0 (readRules source [] (t :: (prelude ++ brace :: (block ++ close :: rest)))) =
          let inner := selectors 0
            (readRules source [groupContext source none name prelude brace] block)
          inner ++ selectors inner.length (readRules source [] rest) := by
  intro h
  have hprelude : Matched endsAtPrelude
      [⟨.whitespace, ⟨6, 1, 7⟩, 7⟩, ⟨.ident ['x'], ⟨7, 1, 8⟩, 8⟩] :=
    .plain rfl nofun rfl nofun (.plain rfl nofun rfl nofun .nil)
  have hblock : Balanced [⟨.atKeyword ['d'], ⟨9, 1, 10⟩, 11⟩] := .plain rfl nofun rfl nofun .nil
  have hbehind : Matched endsAtPrelude [⟨.ident ['e'], ⟨12, 1, 13⟩, 13⟩] :=
    .plain rfl nofun rfl nofun .nil
  have hsheet := h "@media x\x7b@d\x7de\x7b\x7d".toList.toArray ⟨.atKeyword "media".toList, ⟨0, 1, 1⟩, 6⟩
    ⟨.opening .curly, ⟨8, 1, 9⟩, 9⟩ ⟨.closing .curly, ⟨11, 1, 12⟩, 12⟩ _ _ _
    [⟨.ident ['e'], ⟨12, 1, 13⟩, 13⟩, ⟨.opening .curly, ⟨13, 1, 14⟩, 14⟩,
      ⟨.closing .curly, ⟨14, 1, 15⟩, 15⟩]
    rfl (by decide) hprelude rfl hblock rfl
  rw [readRules_group rfl (by decide) hprelude rfl] at hsheet
  have hlost := hsheet.symm.trans (congrArg (selectors 0)
    (readRules_atRule_breaksOff _ rfl (by decide) .nil rfl hbehind rfl .nil rfl []))
  have hlength := congrArg List.length hlost
  rw [List.length_append] at hlength
  exact absurd hlength (by decide +kernel)

end SheetItem
end StyleMiner
