import Mathlib.Data.List.Basic
import StyleMiner.Proofs.CodePoints

/-! Readers case by case: what each of them reads of a text by the code points in front, and when it reads
nothing. -/

namespace StyleMiner.Token

variable {t : Text} {c q : Char} {x : Char × Nat}

theorem escape?_hex (hfeed : c ≠ '\n') (hhex : Text.isHexDigit c = true) : escape? (c :: t) =
    some (codePoint (hexRun (c :: t)), (hexRun (c :: t)).length +
      if ((c :: t).drop (hexRun (c :: t)).length).head?.any isBlank then 1 else 0) := by
  rw [escape?, if_neg hfeed, if_pos hhex]

theorem escape?_other (hfeed : c ≠ '\n') (hhex : Text.isHexDigit c = false) :
    escape? (c :: t) = some (c, 1) := by
  rw [escape?, if_neg hfeed, if_neg (by simp [hhex])]

theorem escape?_pos (h : escape? t = some x) : 0 < x.2 := by
  cases t with
  | nil => cases h
  | cons c t =>
    by_cases hfeed : c = '\n'
    · rw [escape?, if_pos hfeed] at h
      cases h
    cases hhex : Text.isHexDigit c with
    | true =>
      have hrun : 0 < (hexRun (c :: t)).length := by simp [hexRun, hhex]
      rw [escape?_hex hfeed hhex] at h
      cases h
      omega
    | false =>
      rw [escape?_other hfeed hhex] at h
      cases h
      exact Nat.one_pos

theorem escape?_eq_none (h : escape? t = none) : t = [] ∨ ∃ u, t = '\n' :: u := by
  cases t with
  | nil => exact .inl rfl
  | cons c t =>
    by_cases hfeed : c = '\n'
    · exact .inr ⟨t, by rw [hfeed]⟩
    rw [escape?, if_neg hfeed] at h
    split at h <;> cases h

theorem escapeAt?_ne (h : c ≠ '\\') (t : Text) : escapeAt? c t = none := if_neg h

theorem eq_backslash_of_escapeAt? (h : escapeAt? c t = some x) : c = '\\' := by
  unfold escapeAt? at h
  split at h
  · next hc => exact hc
  · cases h

theorem readName_char (h : isNameChar c = true) (t : Text) :
    readName (c :: t) = (c :: (readName t).1, (readName t).2 + 1) := by
  rw [readName.eq_def]
  dsimp only
  rw [if_pos h]

theorem readName_escape (h : isNameChar c = false) (hx : escapeAt? c t = some x) : readName (c :: t) =
    (x.1 :: (readName (t.drop x.2)).1, (readName (t.drop x.2)).2 + x.2 + 1) := by
  rw [readName.eq_def]
  dsimp only
  rw [if_neg (by simp [h]), hx]

theorem readName_other (h : isNameChar c = false) (hnone : escapeAt? c t = none) :
    readName (c :: t) = ([], 0) := by
  rw [readName.eq_def]
  dsimp only
  rw [if_neg (by simp [h]), hnone]

theorem readName_zero (h : (readName t).2 = 0) : readName t = ([], 0) := by
  cases t with
  | nil => rw [readName.eq_def]
  | cons c t =>
    cases hc : isNameChar c with
    | true =>
      rw [readName_char hc] at h
      cases h
    | false =>
      cases hx : escapeAt? c t with
      | some x =>
        rw [readName_escape hc hx] at h
        cases h
      | none => exact readName_other hc hx

theorem startsEscape_cons (c : Char) (t : Text) : startsEscape (c :: t) = (escapeAt? c t).isSome := rfl

/-- A name takes up some of the text where its first code point or an escape is in front. -/
theorem readName_pos_iff (t : Text) :
    0 < (readName t).2 ↔ t.head?.any isNameChar = true ∨ startsEscape t = true := by
  cases t with
  | nil => simp [readName.eq_def, startsEscape]
  | cons c t =>
    rw [List.head?_cons, Option.any_some, startsEscape_cons]
    cases hc : isNameChar c with
    | true => simp [readName_char hc]
    | false =>
      cases hx : escapeAt? c t with
      | some x => simp [readName_escape hc hx]
      | none => simp [readName_other hc hx]

theorem isNameChar_of_isNameStart (h : isNameStart c = true) : isNameChar c = true := by simp [isNameChar, h]

theorem startsEscape_pos (h : startsEscape t = true) : 0 < (readName t).2 := by
  cases t with
  | nil => cases h
  | cons c t =>
    obtain ⟨x, hx⟩ := Option.isSome_iff_exists.1 h
    cases hc : isNameChar c with
    | true =>
      rw [readName_char hc]
      exact Nat.succ_pos _
    | false =>
      rw [readName_escape hc hx]
      exact Nat.succ_pos _

/-- A name that starts takes up some of the text. -/
theorem startsName_pos (h : startsName t = true) : 0 < (readName t).2 := by
  cases t with
  | nil => cases h
  | cons c t =>
    rw [startsName] at h
    split at h
    · next hc =>
      rw [readName_char (by rw [hc]; rfl)]
      exact Nat.succ_pos _
    · rcases Bool.or_eq_true_iff.1 h with h | h
      · rw [readName_char (isNameChar_of_isNameStart h)]
        exact Nat.succ_pos _
      · exact startsEscape_pos h

theorem startsDigit_iff (t : Text) : startsDigit t = true ↔ digitsOf t ≠ [] := by
  cases t with
  | nil => simp [startsDigit, digitsOf]
  | cons c t => cases h : c.isDigit <;> simp [startsDigit, digitsOf, h]

/-- the digits of a numeral with the point among them -/
def mantissaOf (t : Text) : Text := digitsOf t ++ fractionOf (t.drop (digitsOf t).length)

theorem numeralOf_eq (t : Text) : numeralOf t = signOf t ++ (mantissaOf (t.drop (signOf t).length) ++
    powerOf ((t.drop (signOf t).length).drop (mantissaOf (t.drop (signOf t).length)).length)) := by
  simp only [numeralOf, mantissaOf, List.length_append, List.drop_drop, List.append_assoc, Nat.add_assoc]

theorem startsNumber_iff (t : Text) :
    startsNumber t = true ↔ mantissaOf (t.drop (signOf t).length) ≠ [] := by
  unfold startsNumber mantissaOf
  dsimp only
  generalize t.drop (signOf t).length = u
  rw [ne_eq, List.append_eq_nil_iff, not_and_or, ← ne_eq, ← startsDigit_iff, Bool.or_eq_true]
  cases hdigit : startsDigit u with
  | true => simp
  | false =>
    have hnone : digitsOf u = [] := by
      by_contra hne
      rw [(startsDigit_iff u).2 hne] at hdigit
      cases hdigit
    rw [hnone]
    cases u with
    | nil => simp [fractionOf]
    | cons c u => by_cases hc : c = '.' <;> simp [fractionOf, hc]

theorem numeralOf_le_readNumeric (t : Text) : (numeralOf t).length ≤ (readNumeric t).2 := by
  unfold readNumeric
  dsimp only
  split
  · exact Nat.le_add_right ..
  · split
    · exact Nat.le_succ _
    · exact Nat.le_refl _

/-- the tokens that a number in front makes -/
inductive Numeric : Token → Prop where
  | number (value : Double) : Numeric (.number value)
  | percentage (value : Double) : Numeric (.percentage value)
  | dimension (value : Double) (unit : Text) : Numeric (.dimension value unit)

theorem numeric_readNumeric (t : Text) : Numeric (readNumeric t).1 := by
  unfold readNumeric
  dsimp only
  split
  · exact .dimension ..
  · split
    · exact .percentage _
    · exact .number _

theorem readString_close (q : Char) (t : Text) : readString q (q :: t) = (some [], 1) := by
  rw [readString.eq_def]
  exact if_pos rfl

theorem readString_broken (hquote : '\n' ≠ q) (t : Text) : readString q ('\n' :: t) = (none, 0) := by
  rw [readString.eq_def]
  exact (if_neg hquote).trans (if_pos rfl)

theorem readString_escapeAt (hquote : c ≠ q) (hfeed : c ≠ '\n') (hx : escapeAt? c t = some x) :
    readString q (c :: t) =
      ((readString q (t.drop x.2)).1.map (x.1 :: ·), (readString q (t.drop x.2)).2 + x.2 + 1) := by
  rw [readString.eq_def]
  dsimp only
  rw [if_neg hquote, if_neg hfeed, hx]

theorem readString_continued (hquote : '\\' ≠ q) (t : Text) :
    readString q ('\\' :: '\n' :: t) = ((readString q t).1, (readString q t).2 + 2) := by
  rw [readString.eq_def]
  dsimp only
  rw [if_neg hquote, if_neg (by decide)]
  rfl

theorem readString_unfinished (hquote : '\\' ≠ q) : readString q ['\\'] = (some [], 1) := by
  rw [readString.eq_def]
  dsimp only
  rw [if_neg hquote, if_neg (by decide)]
  rfl

theorem readString_other (hquote : c ≠ q) (hfeed : c ≠ '\n') (hbackslash : c ≠ '\\') (t : Text) :
    readString q (c :: t) = ((readString q t).1.map (c :: ·), (readString q t).2 + 1) := by
  rw [readString.eq_def]
  dsimp only
  rw [if_neg hquote, if_neg hfeed, escapeAt?, if_neg hbackslash]
  dsimp only
  rw [if_neg hbackslash]

/-- The ways in which a string goes on. -/
theorem readString_cases (q c : Char) (t : Text) : c = q ∨ (c ≠ q ∧ c = '\n') ∨
    (c ≠ q ∧ c ≠ '\n' ∧ ∃ x, escapeAt? c t = some x) ∨ (c ≠ q ∧ c = '\\' ∧ t = []) ∨
    (c ≠ q ∧ c = '\\' ∧ ∃ u, t = '\n' :: u) ∨ (c ≠ q ∧ c ≠ '\n' ∧ c ≠ '\\') := by
  by_cases hquote : c = q
  · exact .inl hquote
  by_cases hfeed : c = '\n'
  · exact .inr (.inl ⟨hquote, hfeed⟩)
  by_cases hbackslash : c = '\\'
  · cases hx : escape? t with
    | some x => exact .inr (.inr (.inl ⟨hquote, hfeed, x, by rw [escapeAt?, if_pos hbackslash, hx]⟩))
    | none =>
      rcases escape?_eq_none hx with ht | ht
      · exact .inr (.inr (.inr (.inl ⟨hquote, hbackslash, ht⟩)))
      · exact .inr (.inr (.inr (.inr (.inl ⟨hquote, hbackslash, ht⟩))))
  · exact .inr (.inr (.inr (.inr (.inr ⟨hquote, hfeed, hbackslash⟩))))

/-- A string takes up some of the text, unless there is none or a line feed breaks it off at once. -/
theorem readString_zero (h : (readString q t).2 = 0) : t = [] ∨ (readString q t).1 = none := by
  cases t with
  | nil => exact .inl rfl
  | cons c t =>
    right
    rcases readString_cases q c t with rfl | ⟨hquote, rfl⟩ | ⟨hquote, hfeed, x, hx⟩ | ⟨hquote, rfl, rfl⟩ |
      ⟨hquote, rfl, u, rfl⟩ | ⟨hquote, hfeed, hbackslash⟩
    · rw [readString_close] at h
      cases h
    · rw [readString_broken hquote]
    · rw [readString_escapeAt hquote hfeed hx] at h
      cases h
    · rw [readString_unfinished hquote] at h
      cases h
    · rw [readString_continued hquote] at h
      cases h
    · rw [readString_other hquote hfeed hbackslash] at h
      cases h

theorem badUrlRest_close (t : Text) : badUrlRest (')' :: t) = 1 := by
  rw [badUrlRest.eq_def]
  exact if_pos rfl

theorem badUrlRest_escapeAt (hclose : c ≠ ')') (hx : escapeAt? c t = some x) :
    badUrlRest (c :: t) = badUrlRest (t.drop x.2) + x.2 + 1 := by
  rw [badUrlRest.eq_def]
  dsimp only
  rw [if_neg hclose, hx]

theorem badUrlRest_other (hclose : c ≠ ')') (hnone : escapeAt? c t = none) :
    badUrlRest (c :: t) = badUrlRest t + 1 := by
  rw [badUrlRest.eq_def]
  dsimp only
  rw [if_neg hclose, hnone]

theorem badUrlRest_zero (h : badUrlRest t = 0) : t = [] := by
  cases t with
  | nil => rfl
  | cons c t =>
    by_cases hclose : c = ')'
    · rw [hclose, badUrlRest_close] at h
      cases h
    cases hx : escapeAt? c t with
    | some x =>
      rw [badUrlRest_escapeAt hclose hx] at h
      cases h
    | none =>
      rw [badUrlRest_other hclose hx] at h
      cases h

theorem readUrl_close (t : Text) : readUrl (')' :: t) = (some [], 1) := by
  rw [readUrl.eq_def]
  exact if_pos rfl

theorem isBlank_ne_close (h : isBlank c = true) : c ≠ ')' := by
  rintro rfl
  cases h

/-- what blanks in an address do: it ends behind them or it is bad -/
theorem readUrl_blank (h : isBlank c = true) (t : Text) : readUrl (c :: t) =
    match t.drop (blanks t) with
    | [] => (some [], blanks t + 1)
    | d :: u => if d = ')' then (some [], blanks t + 2) else (none, blanks t + 1 + badUrlRest (d :: u)) := by
  rw [readUrl.eq_def]
  dsimp only
  rw [if_neg (isBlank_ne_close h)]
  exact if_pos h

theorem readUrl_spoilt (hclose : c ≠ ')') (hblank : isBlank c = false)
    (h : Text.isQuote c = true ∨ c = '(') (t : Text) : readUrl (c :: t) = (none, badUrlRest t + 1) := by
  rw [readUrl.eq_def]
  dsimp only
  rw [if_neg hclose, if_neg (by simp [hblank]), if_pos h]

theorem readUrl_escapeAt (hclose : c ≠ ')') (hblank : isBlank c = false)
    (hspoilt : ¬ (Text.isQuote c = true ∨ c = '(')) (hx : escapeAt? c t = some x) : readUrl (c :: t) =
      ((readUrl (t.drop x.2)).1.map (x.1 :: ·), (readUrl (t.drop x.2)).2 + x.2 + 1) := by
  rw [readUrl.eq_def]
  dsimp only
  rw [if_neg hclose, if_neg (by simp [hblank]), if_neg hspoilt, hx]

theorem readUrl_backslash (hnone : escapeAt? '\\' t = none) :
    readUrl ('\\' :: t) = (none, badUrlRest t + 1) := by
  rw [readUrl.eq_def]
  dsimp only
  rw [if_neg (by decide), if_neg (by decide), if_neg (by decide), hnone]
  rfl

theorem readUrl_other (hclose : c ≠ ')') (hblank : isBlank c = false)
    (hspoilt : ¬ (Text.isQuote c = true ∨ c = '(')) (hbackslash : c ≠ '\\') (t : Text) :
    readUrl (c :: t) = ((readUrl t).1.map (c :: ·), (readUrl t).2 + 1) := by
  rw [readUrl.eq_def]
  dsimp only
  rw [if_neg hclose, if_neg (by simp [hblank]), if_neg hspoilt, escapeAt?_ne hbackslash]
  exact if_neg hbackslash

/-- The ways in which an address goes on. -/
theorem readUrl_cases (c : Char) (t : Text) : c = ')' ∨ (c ≠ ')' ∧ isBlank c = true) ∨
    (c ≠ ')' ∧ isBlank c = false ∧ ((Text.isQuote c = true ∨ c = '(') ∨
      ¬ (Text.isQuote c = true ∨ c = '(') ∧ ((∃ x, escapeAt? c t = some x) ∨
        (c = '\\' ∧ escapeAt? c t = none) ∨ c ≠ '\\'))) := by
  by_cases hclose : c = ')'
  · exact .inl hclose
  cases hblank : isBlank c with
  | true => exact .inr (.inl ⟨hclose, rfl⟩)
  | false =>
    refine .inr (.inr ⟨hclose, rfl, ?_⟩)
    by_cases hspoilt : Text.isQuote c = true ∨ c = '('
    · exact .inl hspoilt
    refine .inr ⟨hspoilt, ?_⟩
    by_cases hbackslash : c = '\\'
    · cases hx : escapeAt? c t with
      | some x => exact .inl ⟨x, rfl⟩
      | none => exact .inr (.inl ⟨hbackslash, rfl⟩)
    · exact .inr (.inr hbackslash)

theorem readUrl_zero (h : (readUrl t).2 = 0) : t = [] := by
  cases t with
  | nil => rfl
  | cons c t =>
    rcases readUrl_cases c t with rfl | ⟨hclose, hblank⟩ | ⟨hclose, hblank, hspoilt | ⟨hspoilt, ⟨x, hx⟩ |
      ⟨rfl, hx⟩ | hbackslash⟩⟩
    · rw [readUrl_close] at h
      cases h
    · rw [readUrl_blank hblank] at h
      split at h
      · cases h
      · split at h
        · cases h
        · dsimp only at h
          omega
    · rw [readUrl_spoilt hclose hblank hspoilt] at h
      cases h
    · rw [readUrl_escapeAt hclose hblank hspoilt hx] at h
      cases h
    · rw [readUrl_backslash hx] at h
      cases h
    · rw [readUrl_other hclose hblank hspoilt hbackslash] at h
      cases h

theorem readFunction_other {name : Text} (h : name.lower ≠ "url".toList) (t : Text) :
    readFunction name t = (.function name, 0) := if_neg h

theorem readFunction_quoted {name : Text} (h : name.lower = "url".toList)
    (hquote : (t.drop (blanks t)).head?.any Text.isQuote = true) :
    readFunction name t = (.function name, blanks t) := by
  rw [readFunction, if_pos h]
  exact if_pos hquote

theorem readFunction_url {name : Text} (h : name.lower = "url".toList)
    (hquote : (t.drop (blanks t)).head?.any Text.isQuote = false) :
    readFunction name t = ((readUrl (t.drop (blanks t))).1.elim .badUrl .url,
      blanks t + (readUrl (t.drop (blanks t))).2) := by
  rw [readFunction, if_pos h]
  exact if_neg (by rw [hquote]; exact Bool.false_ne_true)

theorem readNamed_function {u : Text} (h : t.drop (readName t).2 = '(' :: u) : readNamed t =
    ((readFunction (readName t).1 u).1, (readName t).2 + 1 + (readFunction (readName t).1 u).2) := by
  rw [readNamed]
  dsimp only
  rw [h]
  rfl

theorem readNamed_ident (h : (t.drop (readName t).2).head? ≠ some '(') :
    readNamed t = (.ident (readName t).1, (readName t).2) := by
  rw [readNamed]
  dsimp only
  split
  · next u hu =>
    rw [hu] at h
    exact absurd rfl h
  · rfl

theorem readName_le_readNamed (t : Text) : (readName t).2 ≤ (readNamed t).2 := by
  by_cases hparen : (t.drop (readName t).2).head? = some '('
  · obtain ⟨u, hu⟩ := List.head?_eq_some_iff.1 hparen
    rw [readNamed_function hu]
    dsimp only
    omega
  · exact Nat.le_of_eq (by rw [readNamed_ident hparen])

/-- the tokens that a name in front makes -/
inductive Named : Token → Prop where
  | ident (name : Text) : Named (.ident name)
  | function (name : Text) : Named (.function name)
  | url (address : Text) : Named (.url address)
  | badUrl : Named .badUrl

theorem named_readNamed (t : Text) : Named (readNamed t).1 := by
  by_cases hparen : (t.drop (readName t).2).head? = some '('
  · obtain ⟨u, hu⟩ := List.head?_eq_some_iff.1 hparen
    rw [readNamed_function hu]
    unfold readFunction
    dsimp only
    split
    · split
      · exact .function _
      · cases (readUrl (u.drop (blanks u))).1 with
        | none => exact .badUrl
        | some a => exact .url a
    · exact .function _
  · rw [readNamed_ident hparen]
    exact .ident _

theorem read_blank (h : isBlank c = true) (t : Text) : read c t = (.whitespace, blanks t) := if_pos h

theorem isBlank_eq_false_of_isQuote (h : Text.isQuote c = true) : isBlank c = false := by
  rcases Text.isQuote_iff.1 h with rfl | rfl <;> rfl

theorem read_quote (h : Text.isQuote c = true) (t : Text) :
    read c t = ((readString c t).1.elim .badString .string, (readString c t).2) := by
  rw [read, if_neg (by rw [isBlank_eq_false_of_isQuote h]; exact Bool.false_ne_true), if_pos h]

/-- `c` is neither a blank nor a quote -/
def Bare (c : Char) : Prop := isBlank c = false ∧ Text.isQuote c = false

theorem read_bare (h : Bare c) (t : Text) : read c t =
    if c = '#' ∧ 0 < (readName t).2 then (.hash (readName t).1, (readName t).2)
    else if c = '@' ∧ startsName t then (.atKeyword (readName t).1, (readName t).2)
    else if startsNumber (c :: t) then ((readNumeric (c :: t)).1, (readNumeric (c :: t)).2 - 1)
    else if startsName (c :: t) then ((readNamed (c :: t)).1, (readNamed (c :: t)).2 - 1)
    else ((punctuation? c).getD (.delim c), 0) := by
  rw [read, if_neg (by rw [h.1]; exact Bool.false_ne_true), if_neg (by rw [h.2]; exact Bool.false_ne_true)]
  simp only [readName_pos_iff]

end StyleMiner.Token
