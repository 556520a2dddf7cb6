import StyleMiner.Component.Basic
import StyleMiner.Proofs.Quotations
import StyleMiner.Proofs.Spelling
import StyleMiner.Proofs.TokenShapes
import StyleMiner.Proofs.TokenSpans

/-! Where what is found between quotation marks and in addresses, code point by code point, is what the strings
and addresses among the tokens hold. The two readings part where something is escaped, in strings that broke
off and in bad addresses, and where a comment holds quoted text or an address. -/

namespace StyleMiner

/-- what a string or an address holds, white space around an address aside -/
def Token.content? : Token → Option Text
  | .string content => some content
  | .url address => some address.trim
  | _ => none

namespace Token

open Text (Excerpt Excerpts excerpts)
open Text.Excerpts (step start inName step_outside step_address step_quoted step_outside_space step_address_space)

/-- a code point that escapes nothing and is white space to all readers or to none -/
def isPlain (c : Char) : Bool := c != '\\' && (isBlank c || !Text.isSpace c)

/-- Nothing in a token is escaped but in strings, which do not hold the mark they stand in, and its address has
small letters. -/
def isClear : Token → Text → Bool
  | .badString, _ => false
  | .badUrl, _ => false
  | .string content, t => !t.head?.any (content.contains ·)
  | .url address, t => address.lower == address && t.all isPlain
  | _, t => t.all isPlain

/-- All tokens are clear, and in the comments between them nothing is found. -/
def clear (t : Text) : Bool :=
  (excerpts (t.take (comments t))).isEmpty &&
    match _h : t.drop (comments t) with
    | [] => true
    | c :: u =>
      let r := read c u
      isClear r.1 (c :: u.take r.2) && clear (u.drop r.2)
termination_by t.length
decreasing_by
  have h := congrArg List.length ‹t.drop _ = c :: u›
  simp only [List.length_drop, List.length_cons] at h ⊢
  omega

variable {c d q : Char} {t u w rest name a content : Text} {es : List Excerpt} {s : Excerpts} {k : Token}

theorem clear_ending (h : t.drop (comments t) = []) : clear t = (excerpts (t.take (comments t))).isEmpty := by
  rw [clear.eq_def]
  split
  · rw [Bool.and_true]
  · next heq => rw [h] at heq; cases heq

theorem clear_token (h : t.drop (comments t) = c :: u) : clear t =
    ((excerpts (t.take (comments t))).isEmpty &&
      (isClear (read c u).1 (c :: u.take (read c u).2) && clear (u.drop (read c u).2))) := by
  rw [clear.eq_def]
  split
  · next heq => rw [h] at heq; cases heq
  · next heq =>
    rw [h] at heq
    obtain ⟨rfl, rfl⟩ := List.cons.inj heq
    rfl

/-- what an excerpt stands for -/
def decoded : Excerpt → Text
  | .quoted q body => (readString q body).1.getD []
  | .address a => a

theorem isSpace_of_isBlank (h : isBlank c = true) : Text.isSpace c = true := by
  rw [isBlank_iff] at h
  simp only [Text.isSpace, Bool.or_eq_true, Bool.and_eq_true, decide_eq_true_eq, beq_iff_eq]
  omega

theorem inName_of_isPlain (hplain : isPlain c = true) (h : isNameChar c = true ∨ c = '#' ∨ c = '@') :
    inName c = true := by
  have hblank : isBlank c = false := by
    rcases h with h | rfl | rfl
    · exact isBlank_eq_false_of_isNameChar h
    · rfl
    · rfl
  have hspace : Text.isSpace c = false := by simpa [isPlain, hblank] using (Bool.and_eq_true_iff.1 hplain).2
  rcases h with h | rfl | rfl
  · simp [inName, hspace, h]
  · rfl
  · rfl

theorem inName_of_isDigit (h : c.isDigit = true) : inName c = true := by
  simp [inName, isNameChar, h, Text.isSpace_of_isDigit h]

theorem bare_of_inName (h : inName c = true) : Text.isQuote c = false ∧ c ≠ '(' := by
  constructor
  · cases hquote : Text.isQuote c with
    | false => rfl
    | true => rcases Text.isQuote_iff.1 hquote with rfl | rfl <;> cases h
  · rintro rfl
    cases h

theorem step_name (h : inName c = true) (es : List Excerpt) (name : Text) :
    step ⟨es, .outside name⟩ c = ⟨es, .outside (name ++ [c.toLower])⟩ := by
  have hbare := bare_of_inName h
  rw [step_outside, if_neg (by rw [hbare.1]; exact Bool.false_ne_true), if_neg fun hparen => hbare.2 hparen.1, if_pos h]

/-- what is in no name and opens nothing parts names -/
theorem step_between (hquote : Text.isQuote c = false) (hparen : c = '(' → name ≠ "url".toList)
    (h : inName c = false) (es : List Excerpt) : step ⟨es, .outside name⟩ c = ⟨es, .outside []⟩ := by
  rw [step_outside, if_neg (by rw [hquote]; exact Bool.false_ne_true), if_neg fun hopen => hparen hopen.1 hopen.2,
    if_neg (by rw [h]; exact Bool.false_ne_true)]

theorem foldl_name (hw : ∀ d ∈ w, inName d = true) (es : List Excerpt) (name : Text) :
    w.foldl step ⟨es, .outside name⟩ = ⟨es, .outside (name ++ w.lower)⟩ := by
  induction w generalizing name with
  | nil => rw [List.foldl_nil, Text.lower, List.map_nil, List.append_nil]
  | cons c w ih =>
    rw [List.forall_mem_cons] at hw
    rw [List.foldl_cons, step_name hw.1, ih hw.2, List.append_assoc]
    rfl

theorem foldl_blanks (hw : ∀ d ∈ w, isBlank d = true) (es : List Excerpt) (a : Text) :
    w.foldl step ⟨es, .address a⟩ = ⟨es, .address a⟩ := by
  induction w with
  | nil => rfl
  | cons c w ih =>
    rw [List.forall_mem_cons] at hw
    rw [List.foldl_cons, step_address_space (isSpace_of_isBlank hw.1), ih hw.2]

theorem foldl_whitespace (hw : ∀ d ∈ w, isBlank d = true) (es : List Excerpt) :
    w.foldl step ⟨es, .outside []⟩ = ⟨es, .outside []⟩ := by
  induction w with
  | nil => rfl
  | cons c w ih =>
    rw [List.forall_mem_cons] at hw
    rw [List.foldl_cons, step_outside_space (isSpace_of_isBlank hw.1), ih hw.2]

theorem foldl_body (hw : q ∉ w) (es : List Excerpt) (body : Text) :
    w.foldl step ⟨es, .quoted q body⟩ = ⟨es, .quoted q (body ++ w)⟩ := by
  induction w generalizing body with
  | nil => rw [List.foldl_nil, List.append_nil]
  | cons c w ih =>
    rw [List.mem_cons, not_or] at hw
    rw [List.foldl_cons, step_quoted, if_neg (Ne.symm hw.1), ih hw.2, List.append_assoc]
    rfl

theorem foldl_address (hw : IsAddress w) (hspace : ∀ d ∈ w, Text.isSpace d = false) (es : List Excerpt) (a : Text) :
    w.foldl step ⟨es, .address a⟩ = ⟨es, .address (a ++ w.lower)⟩ := by
  induction w generalizing a with
  | nil => rw [List.foldl_nil, Text.lower, List.map_nil, List.append_nil]
  | cons c w ih =>
    obtain ⟨-, hquote, -, hclose⟩ := hw c (List.mem_cons_self ..)
    rw [List.forall_mem_cons] at hspace
    rw [List.foldl_cons, step_address, if_neg (by rw [hquote]; exact Bool.false_ne_true), if_neg hclose,
      if_neg (by rw [hspace.1]; exact Bool.false_ne_true), ih (fun d hd => hw d (List.mem_cons_of_mem _ hd)) hspace.2,
      List.append_assoc]
    rfl

/-- What has been found already is left as it is. -/
theorem foldl_found (w : Text) (es fs : List Excerpt) (mode : Text.Mode) :
    w.foldl step ⟨es ++ fs, mode⟩ = ⟨es ++ (w.foldl step ⟨fs, mode⟩).found, (w.foldl step ⟨fs, mode⟩).mode⟩ := by
  induction w generalizing fs mode with
  | nil => rfl
  | cons c w ih =>
    have hstep : step ⟨es ++ fs, mode⟩ c = ⟨es ++ (step ⟨fs, mode⟩ c).found, (step ⟨fs, mode⟩ c).mode⟩ := by
      cases mode with
      | quoted q body =>
        rw [step_quoted, step_quoted]
        split
        · rw [List.append_assoc]
        · rfl
      | outside name =>
        rw [step_outside, step_outside]
        split
        · rfl
        · split <;> rfl
      | address a =>
        rw [step_address, step_address]
        split
        · rfl
        · split
          · rw [List.append_assoc]
          · rfl
    rw [List.foldl_cons, List.foldl_cons, hstep, ih]

/-- Where one may be in front of a text of which a token is read next: a name in front has ended, and so has one
that a parenthesis would make the beginning of an address. -/
inductive Ready : Excerpts → Text → Prop where
  | outside {es : List Excerpt} {name rest : Text} (hname : name ≠ [] → startsName rest = false)
    (hparen : rest.head? = some '(' → name ≠ "url".toList) : Ready ⟨es, .outside name⟩ rest
  | address {es : List Excerpt} {rest : Text} (hquote : rest.head?.any Text.isQuote = true) :
    Ready ⟨es, .address []⟩ rest

/-- Going on over the text of a token in front of `rest` finds what the token holds. -/
structure Goes (s : Excerpts) (w rest : Text) (k : Token) (s' : Excerpts) : Prop where
  ready : Ready s' rest
  found : s'.found.map decoded = s.found.map decoded ++ k.content?.toList
  finish : ((w ++ rest).foldl step s).finish = (rest.foldl step s').finish

theorem ready_between (es : List Excerpt) (rest : Text) : Ready ⟨es, .outside []⟩ rest :=
  .outside (fun h => absurd rfl h) fun _ => nofun

theorem goes_outside (hw : w.foldl step s = ⟨s.found, .outside name⟩) (hcontent : k.content? = none)
    (hready : Ready ⟨s.found, .outside name⟩ rest) : Goes s w rest k ⟨s.found, .outside name⟩ where
  ready := hready
  found := by rw [hcontent, Option.toList_none, List.append_nil]
  finish := by rw [List.foldl_append, hw]

/-- What is left open at the end of the text has been found. -/
theorem goes_excerpt {e : Excerpt} (hcontent : k.content? = some (decoded e))
    (h : w.foldl step s = ⟨s.found ++ [e], .outside []⟩ ∨ (w.foldl step s).finish = s.found ++ [e] ∧ rest = []) :
    Goes s w rest k ⟨s.found ++ [e], .outside []⟩ where
  ready := ready_between _ _
  found := by rw [hcontent, List.map_append]; rfl
  finish := by
    rw [List.foldl_append]
    rcases h with h | ⟨h, rfl⟩
    · rw [h]
    · exact h

theorem goes_string (hs : Ready s (c :: u)) (hquote : Text.isQuote c = true)
    (hcontent : (readString c u).1 = some content) (hmark : c ∉ content) :
    ∃ s', Goes s (c :: u.take (readString c u).2) (u.drop (readString c u).2) (.string content) s' := by
  obtain ⟨body, hbody, hread, htext⟩ := readString_body hquote hcontent hmark
  have hopen : step s c = ⟨s.found, .quoted c []⟩ := by
    cases hs with
    | outside => rw [step_outside, if_pos hquote]
    | address => rw [step_address, if_pos hquote]
  have hfold : (c :: body).foldl step s = ⟨s.found, .quoted c body⟩ := by
    rw [List.foldl_cons, hopen, foldl_body hbody, List.nil_append]
  refine ⟨_, goes_excerpt (e := .quoted c body) (by rw [decoded, hread]; rfl) ?_⟩
  rcases htext with htext | ⟨htext, hend⟩
  · rw [htext, ← List.cons_append, List.foldl_append, hfold, List.foldl_cons, step_quoted, if_pos rfl]
    exact .inl rfl
  · rw [htext, hfold]
    exact .inr ⟨rfl, hend⟩

theorem ne_url (h : d ∈ name) (hd : d ∉ "url".toList) : name ≠ "url".toList := fun hname => hd (hname ▸ h)

theorem inName_of_readName (hplain : ∀ d ∈ t.take (readName t).2, isPlain d = true) :
    (readName t).1 = t.take (readName t).2 ∧ ∀ d ∈ t.take (readName t).2, inName d = true := by
  have hname := readName_unescaped fun hmem => by simpa [isPlain] using hplain _ hmem
  have htake : t.take (readName t).2 = t.takeWhile isNameChar := by rw [hname, take_takeWhile]
  refine ⟨by rw [htake, hname], fun d hd => inName_of_isPlain (hplain d hd) (.inl ?_)⟩
  rw [htake] at hd
  exact List.all_eq_true.1 List.all_takeWhile d hd

/-- a name behind a mark -/
theorem goes_marked (hc : c = '#' ∨ c = '@') (hplain : ∀ d ∈ t.take (readName t).2, isPlain d = true)
    (hk : k.content? = none) (es : List Excerpt) (name : Text) :
    ∃ s', Goes ⟨es, .outside name⟩ (c :: t.take (readName t).2) (t.drop (readName t).2) k s' := by
  have hmark : inName c = true ∧ c.toLower ∉ "url".toList := by rcases hc with rfl | rfl <;> decide
  have hfold := foldl_name (List.forall_mem_cons.2 ⟨hmark.1, (inName_of_readName hplain).2⟩) es name
  exact ⟨_, goes_outside hfold hk (.outside (fun _ => startsName_rest t) fun _ =>
    ne_url (List.mem_append_right _ (List.mem_cons_self ..)) hmark.2)⟩

theorem step_numeral (hc : InNumeral c) (es : List Excerpt) (name : Text) :
    ∃ name', step ⟨es, .outside name⟩ c = ⟨es, .outside name'⟩ := by
  have hbare : Text.isQuote c = false ∧ c ≠ '(' := by
    rcases hc with hdigit | rfl | rfl | rfl | rfl | rfl
    · exact bare_of_inName (inName_of_isDigit hdigit)
    all_goals decide
  rw [step_outside, if_neg (by rw [hbare.1]; exact Bool.false_ne_true), if_neg fun hparen => hbare.2 hparen.1]
  exact ⟨_, rfl⟩

theorem foldl_numeral (hw : ∀ d ∈ w, InNumeral d) (es : List Excerpt) (name : Text) :
    ∃ name', w.foldl step ⟨es, .outside name⟩ = ⟨es, .outside name'⟩ := by
  induction w generalizing name with
  | nil => exact ⟨name, rfl⟩
  | cons c w ih =>
    rw [List.forall_mem_cons] at hw
    obtain ⟨name', hstep⟩ := step_numeral hw.1 es name
    rw [List.foldl_cons, hstep]
    exact ih hw.2 name'

theorem toLower_digit_not_url (h : c.isDigit = true) : c.toLower ∉ "url".toList := by
  intro hmem
  have hletters : ("url".toList.all fun d => 57 < d.toNat) = true := rfl
  have hletter := of_decide_eq_true (List.all_eq_true.1 hletters _ hmem)
  rw [isDigit_iff] at h
  rw [Text.toNat_toLower, if_neg (by omega)] at hletter
  omega

theorem Numeric.content? (h : Numeric k) : k.content? = none := by
  cases h <;> rfl

/-- In a name with a digit no address begins. -/
theorem goes_numeric (hstart : startsNumber t = true) (hplain : ∀ d ∈ t.take (readNumeric t).2, isPlain d = true)
    (es : List Excerpt) (name : Text) : ∃ s', Goes ⟨es, .outside name⟩ (t.take (readNumeric t).2)
      (t.drop (readNumeric t).2) (readNumeric t).1 s' := by
  obtain ⟨n, d, hnumeral, hd⟩ := numeralOf_getLast hstart
  obtain ⟨name', hname'⟩ := foldl_numeral (w := n)
    (fun c hc => piece_numeralOf.chars t c (hnumeral ▸ List.mem_append_left _ hc)) es name
  have hfold : (numeralOf t).foldl step ⟨es, .outside name⟩ = ⟨es, .outside (name' ++ [d.toLower])⟩ := by
    rw [hnumeral, List.foldl_append, hname', List.foldl_cons, step_name (inName_of_isDigit hd), List.foldl_nil]
  have hdigit (unit : Text) : name' ++ [d.toLower] ++ unit ≠ "url".toList :=
    ne_url (List.mem_append_left _ List.mem_concat_self) (toLower_digit_not_url hd)
  have hfront : t.take (numeralOf t).length = numeralOf t :=
    (List.prefix_iff_eq_take.1 (piece_numeralOf.front t)).symm
  unfold readNumeric at hplain ⊢
  dsimp only at hplain ⊢
  generalize hu : t.drop (numeralOf t).length = u at hplain ⊢
  have htake (m : Nat) : t.take ((numeralOf t).length + m) = numeralOf t ++ u.take m := by
    rw [List.take_add, hfront, hu]
  have hdrop (m : Nat) : t.drop ((numeralOf t).length + m) = u.drop m := by rw [← List.drop_drop, hu]
  split
  · next hname =>
    rw [if_pos hname] at hplain
    dsimp only at hplain ⊢
    rw [htake] at hplain ⊢
    rw [hdrop]
    have hunit := (inName_of_readName fun e he => hplain e (List.mem_append_right _ he)).2
    refine ⟨_, goes_outside (by rw [List.foldl_append, hfold, foldl_name hunit]) rfl ?_⟩
    exact .outside (fun _ => startsName_rest u) fun _ => hdigit _
  · next hname =>
    split
    · next hpercent =>
      obtain ⟨v, rfl⟩ := List.head?_eq_some_iff.1 hpercent
      dsimp only
      rw [htake, hdrop]
      refine ⟨_, goes_outside ?_ rfl (ready_between _ _)⟩
      rw [List.foldl_append, hfold]
      exact step_between (c := '%') rfl (fun h => absurd h (by decide)) rfl es
    · dsimp only
      rw [hfront, hu]
      exact ⟨_, goes_outside hfold rfl (.outside (fun _ => Bool.eq_false_iff.2 hname) fun _ => by
        simpa using hdigit [])⟩

theorem goes_url (hcontent : (readUrl t).1 = some a) (hlower : a.lower = a)
    (hplain : ∀ d ∈ t.take (readUrl t).2, isPlain d = true) (hw : w.foldl step s = ⟨s.found, .address []⟩) :
    ∃ s', Goes s (w ++ t.take (readUrl t).2) (t.drop (readUrl t).2) (.url a) s' := by
  obtain ⟨haddress, bs, hbs, htext⟩ := readUrl_unescaped hcontent fun hmem => by simpa [isPlain] using hplain _ hmem
  have hmem (d : Char) (hd : d ∈ a) : d ∈ t.take (readUrl t).2 := by
    rcases htext with htext | ⟨htext, -⟩ <;> rw [htext] <;> exact List.mem_append_left _ hd
  have hspace (d : Char) (hd : d ∈ a) : Text.isSpace d = false := by
    simpa [isPlain, (haddress d hd).1] using (Bool.and_eq_true_iff.1 (hplain d (hmem d hd))).2
  have htrim : a.trim = a := Text.Trimmed.trim
    ⟨fun d hd => hspace d (List.mem_of_head? hd), fun d hd => hspace d (List.mem_of_getLast? hd)⟩
  have hfold : (w ++ (a ++ bs)).foldl step s = ⟨s.found, .address a⟩ := by
    rw [List.foldl_append, hw, List.foldl_append, foldl_address haddress hspace, foldl_blanks hbs, hlower,
      List.nil_append]
  refine ⟨_, goes_excerpt (e := .address a) (by rw [content?, htrim]; rfl) ?_⟩
  rcases htext with htext | ⟨htext, hend⟩
  · rw [htext, ← List.append_assoc a, ← List.append_assoc w, List.foldl_append, hfold]
    exact .inl rfl
  · rw [htext, hfold]
    exact .inr ⟨rfl, hend⟩

theorem all_isPlain (hk : k.content? = none) (h : isClear k t = true) : ∀ d ∈ t, isPlain d = true := by
  cases k with
  | string | url => cases hk
  | badString | badUrl => cases h
  | _ => exact List.all_eq_true.1 h

/-- The parenthesis behind a name opens a function or an address. -/
theorem goes_function (hw : (∀ d ∈ w, isPlain d = true) → w.foldl step s = ⟨s.found, .outside name.lower⟩)
    (hclear : isClear (readFunction name u).1 (w ++ '(' :: u.take (readFunction name u).2) = true) :
    ∃ s', Goes s (w ++ '(' :: u.take (readFunction name u).2) (u.drop (readFunction name u).2)
      (readFunction name u).1 s' := by
  by_cases hname : name.lower = "url".toList
  · have hopen (hplain : ∀ d ∈ w, isPlain d = true) :
        (w ++ '(' :: u.take (blanks u)).foldl step s = ⟨s.found, .address []⟩ := by
      rw [List.foldl_append, hw hplain, List.foldl_cons, step_outside, if_neg (by decide), if_pos ⟨rfl, hname⟩,
        foldl_blanks fun d hd => isBlank_of_mem_take hd]
    cases hquote : (u.drop (blanks u)).head?.any Text.isQuote with
    | true =>
      rw [readFunction_quoted hname hquote] at hclear ⊢
      have hplain := all_isPlain rfl hclear
      exact ⟨⟨s.found, .address []⟩, .address hquote, (List.append_nil _).symm, by
        rw [List.foldl_append, hopen fun d hd => hplain d (List.mem_append_left _ hd)]⟩
    | false =>
      rw [readFunction_url hname hquote] at hclear ⊢
      cases haddress : (readUrl (u.drop (blanks u))).1 with
      | none =>
        rw [haddress] at hclear
        cases hclear
      | some a =>
        rw [haddress] at hclear
        dsimp only [Option.elim_some] at hclear ⊢
        obtain ⟨hsmall, hplain⟩ := Bool.and_eq_true_iff.1 hclear
        rw [List.all_eq_true] at hplain
        rw [List.take_add, ← List.cons_append, ← List.append_assoc] at hplain ⊢
        rw [← List.drop_drop]
        exact goes_url haddress (beq_iff_eq.1 hsmall) (fun d hd => hplain d (List.mem_append_right _ hd))
          (hopen fun d hd => hplain d (List.mem_append_left _ (List.mem_append_left _ hd)))
  · rw [readFunction_other hname] at hclear ⊢
    have hplain := all_isPlain rfl hclear
    refine ⟨_, goes_outside ?_ rfl (ready_between _ _)⟩
    rw [List.foldl_append, hw fun d hd => hplain d (List.mem_append_left _ hd)]
    exact step_between (c := '(') rfl (fun _ => hname) rfl _

theorem goes_named (hclear : isClear (readNamed t).1 (t.take (readNamed t).2) = true) (es : List Excerpt) :
    ∃ s', Goes ⟨es, .outside []⟩ (t.take (readNamed t).2) (t.drop (readNamed t).2) (readNamed t).1 s' := by
  have hname (hplain : ∀ d ∈ t.take (readName t).2, isPlain d = true) :
      (t.take (readName t).2).foldl step ⟨es, .outside []⟩ = ⟨es, .outside (readName t).1.lower⟩ := by
    obtain ⟨hname, hin⟩ := inName_of_readName hplain
    rw [foldl_name hin, hname]
    rfl
  by_cases hparen : (t.drop (readName t).2).head? = some '('
  · obtain ⟨u, hu⟩ := List.head?_eq_some_iff.1 hparen
    rw [readNamed_function hu] at hclear ⊢
    have htake (m : Nat) : t.take ((readName t).2 + 1 + m) = t.take (readName t).2 ++ '(' :: u.take m := by
      rw [Nat.add_assoc, List.take_add, hu, Nat.add_comm, List.take_succ_cons]
    have hdrop (m : Nat) : t.drop ((readName t).2 + 1 + m) = u.drop m := by
      rw [Nat.add_assoc, ← List.drop_drop, hu, Nat.add_comm, List.drop_succ_cons]
    dsimp only at hclear ⊢
    rw [htake] at hclear ⊢
    rw [hdrop]
    exact goes_function hname hclear
  · rw [readNamed_ident hparen] at hclear ⊢
    exact ⟨_, goes_outside (hname (all_isPlain rfl hclear)) rfl
      (.outside (fun _ => startsName_rest t) fun hopen => absurd hopen hparen)⟩

theorem content?_punctuation (c : Char) : ((punctuation? c).getD (.delim c)).content? = none := by
  unfold punctuation?
  split <;> rfl

/-- A code point of names that begins no token with others is a mark. -/
theorem mark_of_inName (h : inName c = true) (hnumber : startsNumber (c :: u) = false)
    (hname : startsName (c :: u) = false) : c = '-' ∨ c = '#' ∨ c = '@' := by
  simp only [inName, isNameChar, Bool.and_eq_true, Bool.or_eq_true, beq_iff_eq] at h
  rcases h.2 with (((hstart | hdigit) | hdash) | hhash) | hat
  · rw [startsName_of_isNameStart hstart] at hname
    cases hname
  · have hsign : ¬ (c = '+' ∨ c = '-') := by
      rintro (rfl | rfl) <;> cases hdigit
    simp [startsNumber, signOf, hsign, startsDigit, hdigit] at hnumber
  · exact .inl hdash
  · exact .inr (.inl hhash)
  · exact .inr (.inr hat)

theorem startsName_behind_dash (h : startsName ('-' :: u) = false) : startsName u = false := by
  cases u with
  | nil => rfl
  | cons c u =>
    rw [startsName, if_pos rfl, List.head?_cons, Option.any_some, Bool.or_eq_false_iff, Bool.or_eq_false_iff,
      beq_eq_false_iff_ne] at h
    rw [startsName, if_neg h.1.2, h.1.1, h.2, Bool.or_false]

/-- Behind a mark alone no name starts. -/
theorem goes_mark (hs : Ready ⟨es, .outside name⟩ (c :: u)) (hquote : Text.isQuote c = false)
    (hhash : c = '#' → (readName u).2 = 0) (hat : c = '@' → startsName u = false)
    (hnumber : startsNumber (c :: u) = false) (hname : startsName (c :: u) = false) (hk : k.content? = none) :
    ∃ s', Goes ⟨es, .outside name⟩ [c] u k s' := by
  obtain ⟨-, hparen⟩ | ⟨⟩ := hs
  cases hin : inName c with
  | false =>
    exact ⟨_, goes_outside (step_between hquote (fun h => hparen (congrArg some h)) hin es) hk (ready_between _ _)⟩
  | true =>
    have hmark := mark_of_inName hin hnumber hname
    have hrest : startsName u = false := by
      rcases hmark with rfl | rfl | rfl
      · exact startsName_behind_dash hname
      · exact Bool.eq_false_iff.2 fun hstart => absurd (startsName_pos hstart) (by
          rw [hhash rfl]
          exact Nat.lt_irrefl 0)
      · exact hat rfl
    have hlower : c.toLower ∉ "url".toList := by rcases hmark with rfl | rfl | rfl <;> decide
    exact ⟨_, goes_outside (step_name hin es name) hk (.outside (fun _ => hrest) fun _ =>
      ne_url List.mem_concat_self hlower)⟩

theorem cons_take {n : Nat} (h : 0 < n) (c : Char) (u : Text) :
    c :: u.take (n - 1) = (c :: u).take n ∧ u.drop (n - 1) = (c :: u).drop n := by
  obtain ⟨m, rfl⟩ := Nat.exists_eq_add_one.2 h
  exact ⟨rfl, rfl⟩

theorem numeralOf_pos (h : startsNumber t = true) : 0 < (numeralOf t).length := by
  obtain ⟨n, d, hnumeral, -⟩ := numeralOf_getLast h
  rw [hnumeral, List.length_append]
  exact Nat.succ_pos _

theorem goes_bare (hbare : Bare c) (hs : Ready ⟨es, .outside name⟩ (c :: u))
    (hclear : isClear (read c u).1 (c :: u.take (read c u).2) = true) :
    ∃ s', Goes ⟨es, .outside name⟩ (c :: u.take (read c u).2) (u.drop (read c u).2) (read c u).1 s' := by
  have hread := read_bare hbare u
  by_cases hhash : c = '#' ∧ 0 < (readName u).2
  · rw [if_pos hhash] at hread
    rw [hread] at hclear ⊢
    exact goes_marked (.inl hhash.1) (fun d hd => all_isPlain rfl hclear d (List.mem_cons_of_mem _ hd)) rfl es name
  rw [if_neg hhash] at hread
  by_cases hat : c = '@' ∧ startsName u = true
  · rw [if_pos hat] at hread
    rw [hread] at hclear ⊢
    exact goes_marked (.inr hat.1) (fun d hd => all_isPlain rfl hclear d (List.mem_cons_of_mem _ hd)) rfl es name
  rw [if_neg hat] at hread
  by_cases hnumber : startsNumber (c :: u) = true
  · rw [if_pos hnumber] at hread
    have hpos := Nat.lt_of_lt_of_le (numeralOf_pos hnumber) (numeralOf_le_readNumeric _)
    rw [hread] at hclear ⊢
    dsimp only at hclear ⊢
    rw [(cons_take hpos c u).1] at hclear ⊢
    rw [(cons_take hpos c u).2]
    exact goes_numeric hnumber (all_isPlain (numeric_readNumeric _).content? hclear) es name
  rw [if_neg hnumber] at hread
  by_cases hname : startsName (c :: u) = true
  · rw [if_pos hname] at hread
    have hpos := Nat.lt_of_lt_of_le (startsName_pos hname) (readName_le_readNamed _)
    obtain rfl : name = [] := by
      obtain ⟨hended, -⟩ | ⟨⟩ := hs
      by_contra hne
      rw [hended hne] at hname
      cases hname
    rw [hread] at hclear ⊢
    dsimp only at hclear ⊢
    rw [(cons_take hpos c u).1] at hclear ⊢
    rw [(cons_take hpos c u).2]
    exact goes_named hclear es
  rw [if_neg hname] at hread
  rw [hread]
  exact goes_mark hs hbare.2 (fun h => Nat.eq_zero_of_not_pos fun hpos => hhash ⟨h, hpos⟩)
    (fun h => Bool.eq_false_iff.2 fun hstart => hat ⟨h, hstart⟩) (Bool.eq_false_iff.2 hnumber)
    (Bool.eq_false_iff.2 hname) (content?_punctuation c)

/-- Going on over a token that is clear finds what it holds. -/
theorem goes_read (hs : Ready s (c :: u)) (hclear : isClear (read c u).1 (c :: u.take (read c u).2) = true) :
    ∃ s', Goes s (c :: u.take (read c u).2) (u.drop (read c u).2) (read c u).1 s' := by
  cases hquote : Text.isQuote c with
  | true =>
    rw [read_quote hquote] at hclear ⊢
    cases hcontent : (readString c u).1 with
    | none =>
      rw [hcontent] at hclear
      cases hclear
    | some content =>
      rw [hcontent] at hclear
      exact goes_string hs hquote hcontent (by simpa [isClear] using hclear)
  | false =>
    obtain ⟨es, name, rfl⟩ : ∃ es name, s = ⟨es, .outside name⟩ := by
      cases hs with
      | outside => exact ⟨_, _, rfl⟩
      | address h => exact absurd h (by simp [hquote])
    cases hblank : isBlank c with
    | true =>
      rw [read_blank hblank]
      have hfold : (c :: u.take (blanks u)).foldl step ⟨es, .outside name⟩ = ⟨es, .outside []⟩ := by
        rw [List.foldl_cons, step_outside_space (isSpace_of_isBlank hblank),
          foldl_whitespace fun d hd => isBlank_of_mem_take hd]
      exact ⟨_, goes_outside hfold rfl (ready_between _ _)⟩
    | false => exact goes_bare ⟨hblank, hquote⟩ hs hclear

theorem comments_marks {b : Bool} (h : Comments b t) :
    t = [] ∨ ((∃ w, t = '/' :: w) ∧ (b = false → ∃ v, t = v ++ ['/'])) := by
  induction h with
  | nil => exact .inl rfl
  | @closed body rest _ _ ih =>
    refine .inr ⟨⟨_, rfl⟩, fun hb => ?_⟩
    rcases ih with rfl | ⟨-, hlast⟩
    · exact ⟨"/*".toList ++ (body ++ ['*']), by simp⟩
    · obtain ⟨v, rfl⟩ := hlast hb
      exact ⟨"/*".toList ++ (body ++ ("*/".toList ++ v)), by simp⟩
  | unclosed hend _ => exact .inr ⟨⟨_, rfl⟩, fun hb => absurd (hend.symm.trans hb) Bool.noConfusion⟩

theorem eq_outside_of_finish (h : s.finish = []) : ∃ name, s = ⟨[], .outside name⟩ := by
  obtain ⟨es, mode⟩ := s
  cases mode with
  | outside name =>
    obtain rfl : es = [] := h
    exact ⟨name, rfl⟩
  | quoted q body => exact absurd h (List.append_ne_nil_of_right_ne_nil es (List.cons_ne_nil _ _))
  | address a => exact absurd h (List.append_ne_nil_of_right_ne_nil es (List.cons_ne_nil _ _))

theorem name_of_step_slash (h : step s '/' = ⟨es, .outside name⟩) : name = [] := by
  obtain ⟨es', mode⟩ := s
  cases mode with
  | outside name' =>
    rw [step_between (c := '/') rfl (fun h => absurd h (by decide)) rfl] at h
    cases h
    rfl
  | quoted q body =>
    rw [step_quoted] at h
    split at h <;> cases h
    rfl
  | address a => cases h

/-- Comments in which nothing is found part names, and nothing is found over them. -/
theorem ready_comments (h : excerpts (t.take (comments t)) = []) (hs : Ready s t) :
    Ready ((t.take (comments t)).foldl step s) (t.drop (comments t)) ∧
      ((t.take (comments t)).foldl step s).found = s.found := by
  have hsplit := List.take_append_drop (comments t) t
  rcases comments_marks (comments_take t) with hnone | ⟨⟨w, hw⟩, hlast⟩
  · rw [hnone, List.nil_append] at hsplit
    rw [hnone, hsplit]
    exact ⟨hs, rfl⟩
  · generalize t.take (comments t) = gap at *
    obtain ⟨es, name, rfl⟩ : ∃ es name, s = ⟨es, .outside name⟩ := by
      cases hs with
      | outside => exact ⟨_, _, rfl⟩
      | address hquote =>
        rw [← hsplit, hw] at hquote
        cases hquote
    have hslash (name : Text) : step ⟨es, .outside name⟩ '/' = ⟨es ++ [], .outside []⟩ := by
      rw [List.append_nil]
      exact step_between (c := '/') rfl (fun h => absurd h (by decide)) rfl es
    obtain ⟨name', hname'⟩ := eq_outside_of_finish (s := gap.foldl step start) h
    have hfold : gap.foldl step ⟨es, .outside name⟩ = ⟨es, .outside name'⟩ := by
      rw [hw] at hname' ⊢
      rw [List.foldl_cons, hslash, foldl_found]
      change List.foldl step ⟨[], .outside []⟩ w = _ at hname'
      rw [hname', List.append_nil]
    rw [hfold]
    refine ⟨?_, rfl⟩
    cases hrest : t.drop (comments t) with
    | nil => exact .outside (fun _ => rfl) nofun
    | cons c u =>
      obtain ⟨v, hv⟩ := hlast (by rw [hrest]; rfl)
      rw [hv, List.foldl_append] at hfold
      rw [name_of_step_slash hfold]
      exact ready_between _ _

theorem Ready.finish_nil (h : Ready s []) : s.finish = s.found := by
  cases h with
  | outside => rfl
  | address hquote => cases hquote

theorem finish_clear (hclear : clear t = true) (hs : Ready s t) (l : Location) :
    (t.foldl step s).finish.map decoded =
      s.found.map decoded ++ ((scan l t).map (·.token)).filterMap content? := by
  induction hn : t.length using Nat.strongRecOn generalizing t s l with
  | ind n ih =>
  subst hn
  have hsplit : t.foldl step s = (t.drop (comments t)).foldl step ((t.take (comments t)).foldl step s) := by
    rw [← List.foldl_append, List.take_append_drop]
  rw [hsplit]
  cases hdrop : t.drop (comments t) with
  | nil =>
    rw [clear_ending hdrop, List.isEmpty_iff] at hclear
    obtain ⟨hready, hfound⟩ := ready_comments hclear hs
    rw [hdrop] at hready
    rw [List.foldl_nil, hready.finish_nil, hfound, scan_ending hdrop]
    exact (List.append_nil _).symm
  | cons c u =>
    rw [clear_token hdrop, Bool.and_eq_true, Bool.and_eq_true, List.isEmpty_iff] at hclear
    obtain ⟨hgap, htoken, hrest⟩ := hclear
    obtain ⟨hready, hfound⟩ := ready_comments hgap hs
    rw [hdrop] at hready
    obtain ⟨s', hgoes⟩ := goes_read hready htoken
    have hlength := congrArg List.length hdrop
    simp only [List.length_drop, List.length_cons] at hlength
    have hbehind := ih (u.drop (read c u).2).length (by rw [List.length_drop]; omega) hrest hgoes.ready
      ((l.advanceOver (t.take (comments t))).advanceOver (c :: u.take (read c u).2)) rfl
    have hfinish := hgoes.finish
    rw [List.cons_append, List.take_append_drop] at hfinish
    rw [hfinish, hbehind, hgoes.found, hfound, scan_token hdrop, List.map_cons, List.filterMap_cons, List.append_assoc]
    dsimp only
    cases (read c u).1.content? <;> rfl

/-- What is found in a clear text is what its tokens hold. -/
theorem excerpts_clear (h : clear t = true) :
    (excerpts t).map decoded = ((tokenize t).map (·.token)).filterMap content? :=
  finish_clear h (ready_between [] t) .start

end Token
end StyleMiner
