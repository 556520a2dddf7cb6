import StyleMiner.Proofs.RuleReach

/-! At-rules that leave no trace: statements, and blocks under any name that is not a condition's. Wherever a
rule may start they can be taken out of the tokens, and the selectors that are read stay the same. -/

namespace StyleMiner.SheetItem

variable {source : Source} {contexts contexts' contexts'' : List Text} {items : List SheetItem} {t : Located}
  {front us ts ts' before rule rest : List Located}

/-- One turn of the reader where a rule may start, with the contexts of the group rules still open: what it
reads there, the contexts that are open after that and the tokens that are left. -/
inductive Turn (source : Source) :
    List Text → List Located → List SheetItem → List Text → List Located → Prop where
  | gap {contexts : List Text} {t : Located} {ts : List Located}
    (ht : t.token = .whitespace ∨ t.token = .semicolon) : Turn source contexts (t :: ts) [] contexts ts
  | stray {t : Located} {ts : List Located} (ht : t.token = .closing .curly) :
    Turn source [] (t :: ts) [.notice (.strayBrace t.start)] [] ts
  | close {context : Text} {contexts : List Text} {t : Located} {ts : List Located}
    (ht : t.token = .closing .curly) : Turn source (context :: contexts) (t :: ts) [] contexts ts
  | atRule {contexts : List Text} {t : Located} {ts : List Located} {name : Text}
    (ht : t.token = .atKeyword name) :
    Turn source contexts (t :: ts) (readAtRule source contexts.head? name t.start ts).notice
      ((readAtRule source contexts.head? name t.start ts).context.toList ++ contexts)
      (readAtRule source contexts.head? name t.start ts).rest
  | rule {contexts : List Text} {t : Located} {ts : List Located} (ht : startsRule t.token = true) :
    Turn source contexts (t :: ts) [(readRule source contexts.head? t ts).1] contexts
      (readRule source contexts.head? t ts).2

theorem exists_turn (source : Source) (contexts : List Text) (h : GoesOn ts) :
    ∃ items contexts' ts', Turn source contexts ts items contexts' ts' := by
  obtain ⟨t, ht, heof⟩ := h
  obtain ⟨us, rfl⟩ := List.head?_eq_some_iff.1 ht
  cases hrule : startsRule t.token with
  | true => exact ⟨_, _, _, .rule hrule⟩
  | false =>
    cases htoken : t.token with
    | eof => exact absurd htoken heof
    | whitespace => exact ⟨_, _, _, .gap (.inl htoken)⟩
    | semicolon => exact ⟨_, _, _, .gap (.inr htoken)⟩
    | atKeyword name => exact ⟨_, _, _, .atRule htoken⟩
    | closing b =>
      cases b with
      | curly =>
        cases contexts with
        | nil => exact ⟨_, _, _, .stray htoken⟩
        | cons context contexts => exact ⟨_, _, _, .close htoken⟩
      | _ => rw [htoken] at hrule; cases hrule
    | _ => rw [htoken] at hrule; cases hrule

theorem readRules_gap (ht : t.token = .whitespace ∨ t.token = .semicolon) :
    readRules source contexts (t :: ts) = readRules source contexts ts := by
  rw [readRules.eq_def]
  rcases ht with ht | ht <;> simp only [ht]

theorem readRules_stray (ht : t.token = .closing .curly) :
    readRules source [] (t :: ts) = .notice (.strayBrace t.start) :: readRules source [] ts := by
  rw [readRules.eq_def]
  simp only [ht]

theorem Turn.read (h : Turn source contexts ts items contexts' ts') :
    readRules source contexts ts = items ++ readRules source contexts' ts' := by
  cases h with
  | gap ht => exact readRules_gap ht
  | stray ht => exact readRules_stray ht
  | close ht => exact readRules_close ht _
  | atRule ht => exact readRules_atRule ht
  | rule ht => exact readRules_rule ht

theorem Turn.suffix (h : Turn source contexts ts items contexts' ts') : ts' <:+ ts ∧ ts'.length < ts.length := by
  cases h with
  | gap => exact ⟨List.suffix_cons .., Nat.lt_succ_self _⟩
  | stray => exact ⟨List.suffix_cons .., Nat.lt_succ_self _⟩
  | close => exact ⟨List.suffix_cons .., Nat.lt_succ_self _⟩
  | atRule =>
    exact ⟨(readAtRule_suffix ..).trans (List.suffix_cons ..),
      Nat.lt_succ_of_le (readAtRule_suffix ..).length_le⟩
  | rule => exact ⟨readRule_suffix .., Nat.lt_succ_of_le (readRule_length ..)⟩

theorem Turn.cut (h : Turn source contexts ts items contexts' ts') (hts : ts = front ++ rest)
    (hts' : ts' = us ++ rest) (hrest : GoesOn rest) (hfront : Unended front) (rest' : List Located) :
    Turn source contexts (front ++ rest') items contexts' (us ++ rest') := by
  cases front with
  | nil =>
    have hlength := h.suffix.2
    rw [hts, hts', List.length_append, List.nil_append] at hlength
    omega
  | cons u front =>
    cases h with
    | gap ht =>
      obtain ⟨rfl, rfl⟩ := List.cons.inj hts
      rw [← List.append_cancel_right hts']
      exact .gap ht
    | stray ht =>
      obtain ⟨rfl, rfl⟩ := List.cons.inj hts
      rw [← List.append_cancel_right hts']
      exact .stray ht
    | close ht =>
      obtain ⟨rfl, rfl⟩ := List.cons.inj hts
      rw [← List.append_cancel_right hts']
      exact .close ht
    | atRule ht =>
      obtain ⟨rfl, rfl⟩ := List.cons.inj hts
      have hturn : Turn source contexts (_ :: (front ++ rest')) _ _ _ := .atRule ht
      rwa [readAtRule_cut hrest hfront.tail hts'] at hturn
    | rule ht =>
      obtain ⟨rfl, rfl⟩ := List.cons.inj hts
      have hturn : Turn source contexts (_ :: (front ++ rest')) _ _ _ := .rule ht
      rwa [readRule_cut hrest hfront hts'] at hturn

/-- from a place where a rule may start the reader comes to another such place -/
inductive ComesTo (source : Source) : List Text → List Located → List Text → List Located → Prop where
  | here {contexts : List Text} {ts : List Located} : ComesTo source contexts ts contexts ts
  | turn {contexts contexts' contexts'' : List Text} {ts ts' ts'' : List Located} {items : List SheetItem}
    (hturn : Turn source contexts ts items contexts' ts')
    (hrest : ComesTo source contexts' ts' contexts'' ts'') : ComesTo source contexts ts contexts'' ts''

theorem ComesTo.suffix (h : ComesTo source contexts ts contexts' ts') : ts' <:+ ts := by
  induction h with
  | here => exact List.suffix_refl _
  | turn hturn _ ih => exact ih.trans hturn.suffix.1

theorem ComesTo.read (h : ComesTo source contexts ts contexts' ts') (hrest : GoesOn rest) :
    ∀ {front us : List Located}, ts = front ++ rest → ts' = us ++ rest → Unended front →
      ∃ items, readRules source contexts ts = items ++ readRules source contexts' ts' ∧
        ∀ rest', readRules source contexts (front ++ rest') =
          items ++ readRules source contexts' (us ++ rest') := by
  induction h with
  | here =>
    rintro front us rfl hus -
    rw [List.append_cancel_right hus]
    exact ⟨[], rfl, fun _ => rfl⟩
  | @turn contexts contexts' contexts'' ts ts' ts'' items hturn hgo ih =>
    rintro front us rfl rfl hfront
    obtain ⟨w, rfl, hw⟩ := exists_between hgo.suffix hturn.suffix.1
    obtain ⟨items', hread, hcut⟩ := ih rfl rfl (hfront.suffix hw)
    refine ⟨items ++ items', ?_, fun rest' => ?_⟩
    · rw [hturn.read, hread, List.append_assoc]
    · rw [(hturn.cut rfl rfl hrest hfront rest').read, hcut, List.append_assoc]

theorem ComesTo.trans (h : ComesTo source contexts ts contexts' us)
    (hus : ComesTo source contexts' us contexts'' rest) : ComesTo source contexts ts contexts'' rest := by
  induction h with
  | here => exact hus
  | turn hturn _ ih => exact .turn hturn (ih hus)

/-- A rule may start behind the brace of a group rule, in its context. -/
theorem comesTo_group {brace : Located} {name : Text} {prelude : List Located} (ht : t.token = .atKeyword name)
    (hname : isConditional name = true) (hprelude : Matched endsAtPrelude prelude)
    (hbrace : brace.token = .opening .curly) : ComesTo source contexts (t :: (prelude ++ brace :: ts))
      (groupContext source contexts.head? name prelude brace :: contexts) ts := by
  have hturn : Turn source contexts (t :: (prelude ++ brace :: ts)) _ _ _ := .atRule ht
  rw [readAtRule_group _ _ hname hprelude hbrace] at hturn
  exact .turn hturn .here

theorem WholeRules.comesTo (h : WholeRules ts) : ∀ (contexts : List Text) (rest : List Located),
    ComesTo source contexts (ts ++ rest) contexts rest := by
  induction h with
  | nil => exact fun _ _ => .here
  | gap ht _ ih => exact fun contexts rest => .turn (.gap ht) (ih contexts rest)
  | @statement t semi name prelude ts ht hprelude hsemi _ ih =>
    intro contexts rest
    have hturn : Turn source contexts (t :: (prelude ++ semi :: (ts ++ rest))) _ _ _ := .atRule ht
    rw [readAtRule_semicolon _ _ hprelude hsemi] at hturn
    rw [List.cons_append, List.append_assoc, List.cons_append]
    exact .turn hturn (ih contexts rest)
  | @skipped t brace close name prelude block ts ht hname hprelude hbrace hblock hclose _ ih =>
    intro contexts rest
    have hturn : Turn source contexts (t :: (prelude ++ brace :: (block ++ close :: (ts ++ rest)))) _ _ _ :=
      .atRule ht
    rw [readAtRule_skipped _ _ hname (Component.takeUntil_snd hprelude (by simp [hbrace])
      (by simp [hbrace, endsAtPrelude]) _) hbrace hblock hclose] at hturn
    rw [List.cons_append, List.append_assoc, List.cons_append, List.append_assoc, List.cons_append]
    exact .turn hturn (ih contexts rest)
  | group ht hname hprelude hbrace _ hclose _ ihblock ih =>
    intro contexts rest
    rw [List.cons_append, List.append_assoc, List.cons_append, List.append_assoc, List.cons_append]
    exact (comesTo_group ht hname hprelude hbrace).trans
      ((ihblock _ _).trans (.turn (.close hclose) (ih contexts rest)))
  | @style brace close prelude block ts hstart hprelude hbrace hblock hclose _ ih =>
    intro contexts rest
    obtain ⟨t, us, ht, hus⟩ : ∃ t us, startsRule t.token = true ∧
        ∀ ts, prelude ++ brace :: ts = t :: (us ++ ts) := by
      cases prelude with
      | nil => exact ⟨brace, [], by simp [hbrace, startsRule], fun ts => rfl⟩
      | cons t us => exact ⟨t, us ++ [brace], hstart t rfl, fun ts => by simp⟩
    have hbehind := Component.takeUntil_snd hprelude (t := brace) (by simp [hbrace])
      (by simp [hbrace, endsRulePrelude]) (block ++ close :: (ts ++ rest))
    rw [hus] at hbehind
    have hturn : Turn source contexts (t :: (us ++ (block ++ close :: (ts ++ rest)))) _ _ _ := .rule ht
    rw [readRule_style _ hbehind hbrace hblock hclose] at hturn
    rw [List.append_assoc, List.cons_append, List.append_assoc, List.cons_append, hus]
    exact .turn hturn (ih contexts rest)

/-- the tokens of an at-rule that is skipped whole: a statement up to its semicolon, or a name that is no
condition's, its prelude and its block -/
inductive Skipped : List Located → Prop where
  | statement {t semi : Located} {name : Text} {prelude : List Located} (ht : t.token = .atKeyword name)
    (hprelude : Matched endsAtPrelude prelude) (hsemi : semi.token = .semicolon) :
    Skipped (t :: (prelude ++ [semi]))
  | block {t brace close : Located} {name : Text} {prelude block : List Located}
    (ht : t.token = .atKeyword name) (hname : isConditional name = false)
    (hprelude : Matched endsAtPrelude prelude) (hbrace : brace.token = .opening .curly)
    (hblock : Balanced block) (hclose : close.token = .closing .curly) :
    Skipped (t :: (prelude ++ brace :: (block ++ [close])))

theorem Skipped.goesOn (h : Skipped rule) (rest : List Located) : GoesOn (rule ++ rest) := by
  cases h with
  | statement ht => exact ⟨_, rfl, by simp [ht]⟩
  | block ht => exact ⟨_, rfl, by simp [ht]⟩

theorem Skipped.read (h : Skipped rule) (source : Source) (contexts : List Text) (rest : List Located) :
    ∃ notices : List Notice, readRules source contexts (rule ++ rest) =
      notices.map .notice ++ readRules source contexts rest := by
  cases h with
  | statement ht hprelude hsemi =>
    refine ⟨[], ?_⟩
    rw [List.cons_append, List.append_assoc, List.singleton_append, readRules_atRule ht,
      readAtRule_semicolon _ _ hprelude hsemi]
    rfl
  | @block t _ _ name _ _ ht hname hprelude hbrace hblock hclose =>
    refine ⟨[.skippedRule name t.start], ?_⟩
    rw [List.cons_append, List.append_assoc, List.cons_append, List.append_assoc, List.singleton_append,
      readRules_atRule ht, readAtRule_skipped _ _ hname (Component.takeUntil_snd hprelude (by simp [hbrace])
        (by simp [hbrace, endsAtPrelude]) _) hbrace hblock hclose]
    rfl

theorem selectors_notices (next : SelectorId) (notices : List Notice) (is : List SheetItem) :
    selectors next (notices.map .notice ++ is) = selectors next is := by
  induction notices with
  | nil => rfl
  | cons n notices ih => exact ih

/-- An at-rule that is skipped leaves no trace. Where it stands at a place where a rule may start, in whatever
group rules are open there, the selectors, with their declarations, contexts and places, are those of the
same tokens without it. -/
theorem selectors_without_skipped (hrule : Skipped rule) (hbefore : Unended before)
    (hstart : ComesTo source contexts (before ++ (rule ++ rest)) contexts' (rule ++ rest)) (next : SelectorId) :
    selectors next (readRules source contexts (before ++ (rule ++ rest))) =
      selectors next (readRules source contexts (before ++ rest)) := by
  obtain ⟨items, hread, hcut⟩ :=
    hstart.read (hrule.goesOn rest) rfl (List.nil_append _).symm hbefore
  obtain ⟨notices, hskip⟩ := hrule.read source contexts' rest
  rw [hread, hcut, hskip, List.nil_append, selectors_append next items, selectors_notices, selectors_append]

/-- a rule for fonts between two style rules of a group -/
theorem selectors_without_skipped_inGroup :
    let text := "@media x\x7ba\x7b\x7d@f\x7bb:c\x7dd\x7b\x7d\x7d".toList
    selectors 0 (readRules text.toArray [] (tokenize text)) =
      selectors 0 (readRules text.toArray [] ((tokenize text).take 7 ++ (tokenize text).drop 13)) := by
  intro text
  have htokens : tokenize text =
      (⟨.atKeyword "media".toList, ⟨0, 1, 1⟩, 6⟩ ::
        ([⟨.whitespace, ⟨6, 1, 7⟩, 7⟩, ⟨.ident ['x'], ⟨7, 1, 8⟩, 8⟩] ++ ⟨.opening .curly, ⟨8, 1, 9⟩, 9⟩ ::
          ([⟨.ident ['a'], ⟨9, 1, 10⟩, 10⟩] ++ ⟨.opening .curly, ⟨10, 1, 11⟩, 11⟩ ::
            ([] ++ [⟨.closing .curly, ⟨11, 1, 12⟩, 12⟩])))) ++
      ((⟨.atKeyword ['f'], ⟨12, 1, 13⟩, 14⟩ :: ([] ++ ⟨.opening .curly, ⟨14, 1, 15⟩, 15⟩ ::
        ([⟨.ident ['b'], ⟨15, 1, 16⟩, 16⟩, ⟨.colon, ⟨16, 1, 17⟩, 17⟩, ⟨.ident ['c'], ⟨17, 1, 18⟩, 18⟩] ++
          [⟨.closing .curly, ⟨18, 1, 19⟩, 19⟩]))) ++
      [⟨.ident ['d'], ⟨19, 1, 20⟩, 20⟩, ⟨.opening .curly, ⟨20, 1, 21⟩, 21⟩,
        ⟨.closing .curly, ⟨21, 1, 22⟩, 22⟩, ⟨.closing .curly, ⟨22, 1, 23⟩, 23⟩,
        ⟨.eof, ⟨23, 1, 24⟩, 23⟩]) := by
    decide +kernel
  have hprelude : Matched endsAtPrelude
      [⟨.whitespace, ⟨6, 1, 7⟩, 7⟩, ⟨.ident ['x'], ⟨7, 1, 8⟩, 8⟩] := .of_standsAlone rfl
  have hstyle : WholeRules ([⟨.ident ['a'], ⟨9, 1, 10⟩, 10⟩] ++ ⟨.opening .curly, ⟨10, 1, 11⟩, 11⟩ ::
      ([] ++ [⟨.closing .curly, ⟨11, 1, 12⟩, 12⟩])) :=
    .style (by simp [startsRule]) (.of_standsAlone rfl) rfl .nil rfl .nil
  have hrule : Skipped (⟨.atKeyword ['f'], ⟨12, 1, 13⟩, 14⟩ :: ([] ++ ⟨.opening .curly, ⟨14, 1, 15⟩, 15⟩ ::
      ([⟨.ident ['b'], ⟨15, 1, 16⟩, 16⟩, ⟨.colon, ⟨16, 1, 17⟩, 17⟩, ⟨.ident ['c'], ⟨17, 1, 18⟩, 18⟩] ++
        [⟨.closing .curly, ⟨18, 1, 19⟩, 19⟩]))) :=
    .block rfl (by decide) .nil rfl (.of_standsAlone rfl) rfl
  rw [htokens]
  exact selectors_without_skipped hrule (by simp [Unended])
    ((comesTo_group (Eq.refl (Token.atKeyword "media".toList)) (by decide) hprelude rfl).trans
      (hstyle.comesTo _ _)) 0

end StyleMiner.SheetItem
