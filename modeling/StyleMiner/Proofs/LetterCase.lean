import StyleMiner.Proofs.Layout
import StyleMiner.Proofs.TokenSpans

/-! Reading is blind to letter case. A text and the text in small letters have the same tokens in the same
places, small letters for the letters in what these hold: escapes, numerals and names are told apart by code points
that have no other case or by either case of a letter. -/

namespace StyleMiner

variable {t u : Text} {c d : Char} {x : Char × Nat}

namespace Text

theorem lower_nil : lower [] = [] := rfl

theorem lower_cons (c : Char) (t : Text) : lower (c :: t) = c.toLower :: t.lower := rfl

theorem lower_drop (n : Nat) (t : Text) : lower (t.drop n) = t.lower.drop n := List.map_drop

theorem lower_take (n : Nat) (t : Text) : lower (t.take n) = t.lower.take n := List.map_take

theorem lower_tail (t : Text) : lower t.tail = t.lower.tail := List.map_tail

theorem lower_eq_nil : t.lower = [] ↔ t = [] := List.map_eq_nil_iff

section Mark

variable (hd : d.toNat < 65 ∨ 122 < d.toNat ∨ 90 < d.toNat ∧ d.toNat < 97)

include hd

theorem toLower_ne (h : c ≠ d) : c.toLower ≠ d := fun heq => h ((toLower_eq_iff d hd).1 heq)

/-- No letter becomes a mark in small letters, and a mark stays. -/
theorem head?_lower (t : Text) : t.lower.head? = some d ↔ t.head? = some d := by
  cases t with
  | nil => rfl
  | cons c t =>
    rw [lower_cons, List.head?_cons, List.head?_cons, Option.some.injEq, Option.some.injEq, toLower_eq_iff d hd]

end Mark

variable {p : Char → Bool}

section Class

variable (hp : ∀ c : Char, p c.toLower = p c) (t : Text)

include hp

theorem head?_any_lower : t.lower.head?.any p = t.head?.any p := by
  cases t with
  | nil => rfl
  | cons c t => exact hp c

theorem all_lower : t.lower.all p = t.all p := by
  rw [lower, List.all_map, show p ∘ Char.toLower = p from funext hp]

/-- A run of code points of a class goes as far in small letters. -/
theorem takeWhile_lower : t.lower.takeWhile p = lower (t.takeWhile p) := by
  rw [lower, List.takeWhile_map, show p ∘ Char.toLower = p from funext hp, lower]

theorem dropWhile_lower : t.lower.dropWhile p = lower (t.dropWhile p) := by
  rw [lower, List.dropWhile_map, show p ∘ Char.toLower = p from funext hp, lower]

end Class

theorem toLower_of_not_upper (h : c.toNat < 65 ∨ 90 < c.toNat) : c.toLower = c := by
  rw [← Char.toNat_inj, toNat_toLower, if_neg]
  omega

theorem isDigit_toLower (c : Char) : c.toLower.isDigit = c.isDigit := by
  rw [Bool.eq_iff_iff, Token.isDigit_iff, Token.isDigit_iff, toNat_toLower]
  split <;> omega

theorem toLower_of_isDigit (h : c.isDigit = true) : c.toLower = c := by
  rw [Token.isDigit_iff] at h
  exact toLower_of_not_upper (by omega)

theorem isBlank_toLower (c : Char) : Token.isBlank c.toLower = Token.isBlank c := by
  rw [Bool.eq_iff_iff, Token.isBlank_iff, Token.isBlank_iff, toNat_toLower]
  split <;> omega

theorem isHexDigit_iff : isHexDigit c = true ↔ (48 ≤ c.toNat ∧ c.toNat ≤ 57) ∨ (97 ≤ c.toNat ∧ c.toNat ≤ 102) ∨
    (65 ≤ c.toNat ∧ c.toNat ≤ 70) := by
  simp only [isHexDigit, Bool.or_eq_true, Bool.and_eq_true, decide_eq_true_eq, Token.isDigit_iff, or_assoc,
    Char.le_def, UInt32.le_iff_toNat_le]
  exact Iff.rfl

theorem isHexDigit_toLower (c : Char) : isHexDigit c.toLower = isHexDigit c := by
  rw [Bool.eq_iff_iff, isHexDigit_iff, isHexDigit_iff, toNat_toLower]
  split <;> omega

theorem hexDigit_toLower (c : Char) : hexDigit c.toLower = hexDigit c := by
  rw [hexDigit, isDigit_toLower, toLower_toLower, hexDigit]
  split
  · next h => rw [toLower_of_isDigit h]
  · rfl

theorem ofHex_lower (t : Text) : ofHex t.lower = ofHex t := by
  simp only [ofHex, lower, List.foldl_map, hexDigit_toLower]

theorem lower_of_digits (h : t.all Char.isDigit = true) : t.lower = t :=
  (List.map_congr_left fun c hc => toLower_of_isDigit (List.all_eq_true.1 h c hc)).trans (List.map_id t)

end Text

namespace Numeral

theorem sign_cons (c : Char) (t : Text) : sign (c :: t) =
    if c = '-' then (true, t) else if c = '+' then (false, t) else (false, c :: t) := by
  rw [sign.eq_def]
  split
  · next heq => rw [(List.cons.inj heq).1, (List.cons.inj heq).2, if_pos rfl]
  · next heq => rw [(List.cons.inj heq).1, (List.cons.inj heq).2, if_neg (by decide), if_pos rfl]
  · next hminus hplus =>
    rw [if_neg fun h => hminus t (by rw [h]), if_neg fun h => hplus t (by rw [h])]

theorem sign_lower (t : Text) : sign t.lower = ((sign t).1, (sign t).2.lower) := by
  cases t with
  | nil => rfl
  | cons c t =>
    rw [Text.lower_cons, sign_cons, sign_cons]
    simp (disch := decide) only [Text.toLower_eq_iff]
    split
    · rfl
    · split <;> rfl

/-- Either case of the letter before a power of ten has the same small letter, and no other code point has it. -/
theorem toLower_exponent (c : Char) : (c.toLower = 'e' ∨ c.toLower = 'E') ↔ (c = 'e' ∨ c = 'E') := by
  simp only [← Char.toNat_inj, Text.toNat_toLower, show 'e'.toNat = 101 from rfl, show 'E'.toNat = 69 from rfl]
  split <;> omega

theorem exponent?_lower (t : Text) : exponent? t.lower = exponent? t := by
  cases t with
  | nil => rfl
  | cons c t =>
    rw [Text.lower_cons, exponent?, exponent?, sign_lower]
    simp only [toLower_exponent, Text.all_lower Text.isDigit_toLower, Text.lower_eq_nil, ne_eq]
    split
    · split
      · next h => rw [Text.lower_of_digits h.2]
      · rfl
    · rfl

theorem ofText?_lower (t : Text) : ofText? t.lower = ofText? t := by
  unfold ofText?
  dsimp only
  rw [sign_lower]
  dsimp only
  generalize (sign t).2 = u
  rw [Text.takeWhile_lower Text.isDigit_toLower, Text.lower_of_digits List.all_takeWhile, ← Text.lower_drop]
  generalize u.drop (u.takeWhile Char.isDigit).length = v
  simp (disch := decide) only [Text.head?_lower]
  rw [← Text.lower_tail, Text.takeWhile_lower Text.isDigit_toLower, Text.lower_of_digits List.all_takeWhile,
    ← Text.lower_drop]
  split <;> rw [exponent?_lower]

end Numeral

theorem Double.ofText?_lower (t : Text) : ofText? t.lower = ofText? t := by
  rw [ofText?, Numeral.ofText?_lower, Numeral.sign_lower, ofText?]
  simp only [Text.lower_lower]

namespace Token

theorem blanks_lower (t : Text) : blanks t.lower = blanks t := by
  rw [blanks, Text.takeWhile_lower Text.isBlank_toLower, Text.length_lower, blanks]

theorem hexRun_lower (t : Text) : hexRun t.lower = (hexRun t).lower := by
  rw [hexRun, ← Text.lower_take, Text.takeWhile_lower Text.isHexDigit_toLower, hexRun]

theorem codePoint_lower (ds : Text) : codePoint ds.lower = codePoint ds := by
  rw [codePoint, Text.ofHex_lower, codePoint]

/-- An escape in small letters is as long and stands for the same code point, or for the other case of it. -/
theorem escape?_lower (t : Text) :
    (escape? t.lower).map (Prod.map Char.toLower id) = (escape? t).map (Prod.map Char.toLower id) := by
  cases t with
  | nil => rfl
  | cons c t =>
    by_cases hfeed : c = '\n'
    · rw [hfeed]
      rfl
    have hfeed' : c.toLower ≠ '\n' := Text.toLower_ne (by decide) hfeed
    cases hhex : Text.isHexDigit c with
    | true =>
      rw [Text.lower_cons, escape?_hex hfeed' (by rw [Text.isHexDigit_toLower, hhex]), escape?_hex hfeed hhex,
        ← Text.lower_cons, hexRun_lower, codePoint_lower, Text.length_lower, ← Text.lower_drop,
        Text.head?_any_lower Text.isBlank_toLower]
    | false =>
      rw [Text.lower_cons, escape?_other hfeed' (by rw [Text.isHexDigit_toLower, hhex]), escape?_other hfeed hhex,
        Option.map_some, Option.map_some, Prod.map, Prod.map, Text.toLower_toLower]

theorem escapeAt?_lower (c : Char) (t : Text) : (escapeAt? c.toLower t.lower).map (Prod.map Char.toLower id) =
    (escapeAt? c t).map (Prod.map Char.toLower id) := by
  unfold escapeAt?
  simp (disch := decide) only [Text.toLower_eq_iff]
  split
  · exact escape?_lower t
  · rfl

theorem escapeAt?_lower_none (h : escapeAt? c t = none) : escapeAt? c.toLower t.lower = none := by
  rw [← Option.map_eq_none_iff (f := Prod.map Char.toLower id), escapeAt?_lower, h]
  rfl

theorem escapeAt?_lower_some (h : escapeAt? c t = some x) :
    ∃ d, escapeAt? c.toLower t.lower = some (d, x.2) ∧ d.toLower = x.1.toLower := by
  have hmap := escapeAt?_lower c t
  rw [h, Option.map_some] at hmap
  obtain ⟨y, hy, heq⟩ := Option.map_eq_some_iff.1 hmap
  obtain ⟨hchar, hlength⟩ := Prod.mk.inj heq
  exact ⟨y.1, by rw [hy, ← show y.2 = x.2 from hlength], hchar⟩

theorem startsEscape_lower (t : Text) : startsEscape t.lower = startsEscape t := by
  cases t with
  | nil => rfl
  | cons c t =>
    rw [Text.lower_cons, startsEscape_cons, startsEscape_cons, ← Option.isSome_map (f := Prod.map Char.toLower id),
      escapeAt?_lower, Option.isSome_map]

theorem startsName_lower (t : Text) : startsName t.lower = startsName t := by
  cases t with
  | nil => rfl
  | cons c t =>
    have hsecond (d : Char) : (isNameStart d.toLower || d.toLower == '-') = (isNameStart d || d == '-') := by
      rw [Text.isNameStart_toLower, Bool.eq_iff_iff, Bool.or_eq_true, Bool.or_eq_true, beq_iff_eq, beq_iff_eq,
        Text.toLower_eq_iff _ (by decide)]
    rw [Text.lower_cons, startsName, startsName, ← Text.lower_cons, startsEscape_lower, startsEscape_lower,
      Text.head?_any_lower hsecond, Text.isNameStart_toLower]
    simp (disch := decide) only [Text.toLower_eq_iff]

/-- a reader that takes as much of a text in small letters, and reads the same there but for the case of letters;
`small` makes them small in what it reads -/
def FoldsCase {α : Type} (small : α → α) (f : Text → α × Nat) : Prop :=
  ∀ t : Text, small (f t.lower).1 = small (f t).1 ∧ (f t.lower).2 = (f t).2

theorem foldsCase_readName : FoldsCase Text.lower readName := by
  intro t
  fun_induction readName t with
  | case1 =>
    rw [Text.lower_nil, readName.eq_def]
    exact ⟨rfl, rfl⟩
  | case2 c t hchar r ih =>
    rw [Text.lower_cons, readName_char (by rw [Text.isNameChar_toLower, hchar])]
    exact ⟨by rw [Text.lower_cons, Text.lower_cons, Text.toLower_toLower, ih.1], congrArg (· + 1) ih.2⟩
  | case3 c t hchar x hx r ih =>
    obtain ⟨d, hd, hlower⟩ := escapeAt?_lower_some hx
    rw [Text.lower_cons, readName_escape (by rw [Text.isNameChar_toLower, Bool.eq_false_iff]; exact hchar) hd,
      ← Text.lower_drop]
    exact ⟨by rw [Text.lower_cons, Text.lower_cons, hlower, ih.1], congrArg (· + x.2 + 1) ih.2⟩
  | case4 c t hchar hx =>
    rw [Text.lower_cons, readName_other (by rw [Text.isNameChar_toLower, Bool.eq_false_iff]; exact hchar)
      (escapeAt?_lower_none hx)]
    exact ⟨rfl, rfl⟩

theorem startsDigit_lower (t : Text) : startsDigit t.lower = startsDigit t :=
  Text.head?_any_lower Text.isDigit_toLower t

/-- a reader of what stands in front, which takes the same in small letters of a text in small letters -/
def TakesEitherCase (f : Text → Text) : Prop := ∀ t : Text, f t.lower = (f t).lower

theorem TakesEitherCase.append {f g : Text → Text} (hf : TakesEitherCase f) (hg : TakesEitherCase g) :
    TakesEitherCase fun t => f t ++ g (t.drop (f t).length) := by
  intro t
  dsimp only
  rw [hf, Text.length_lower, ← Text.lower_drop, hg, Text.lower_append]

theorem takesEitherCase_digitsOf : TakesEitherCase digitsOf := Text.takeWhile_lower Text.isDigit_toLower

theorem takesEitherCase_signOf : TakesEitherCase signOf := by
  intro t
  cases t with
  | nil => rfl
  | cons c t =>
    rw [Text.lower_cons, signOf, signOf]
    simp (disch := decide) only [Text.toLower_eq_iff]
    split <;> rfl

theorem takesEitherCase_fractionOf : TakesEitherCase fractionOf := by
  intro t
  cases t with
  | nil => rfl
  | cons c t =>
    rw [Text.lower_cons, fractionOf, fractionOf, startsDigit_lower, takesEitherCase_digitsOf]
    simp (disch := decide) only [Text.toLower_eq_iff]
    split <;> rfl

theorem takesEitherCase_powerOf : TakesEitherCase powerOf := by
  intro t
  cases t with
  | nil => rfl
  | cons c t =>
    rw [Text.lower_cons, powerOf, powerOf, takesEitherCase_signOf, Text.length_lower, ← Text.lower_drop,
      startsDigit_lower, takesEitherCase_digitsOf]
    simp only [Numeral.toLower_exponent]
    split
    · rw [← Text.lower_cons, Text.lower_append]
    · rfl

theorem takesEitherCase_mantissaOf : TakesEitherCase mantissaOf :=
  takesEitherCase_digitsOf.append takesEitherCase_fractionOf

theorem takesEitherCase_numeralOf : TakesEitherCase numeralOf := by
  intro t
  rw [numeralOf_eq, numeralOf_eq]
  exact (takesEitherCase_signOf.append (takesEitherCase_mantissaOf.append takesEitherCase_powerOf)) t

theorem startsNumber_lower (t : Text) : startsNumber t.lower = startsNumber t := by
  rw [Bool.eq_iff_iff, startsNumber_iff, startsNumber_iff, takesEitherCase_signOf, Text.length_lower,
    ← Text.lower_drop, takesEitherCase_mantissaOf, ne_eq, Text.lower_eq_nil]

/-- the letters of a token made small -/
def lowered : Token → Token
  | .ident name => .ident name.lower
  | .function name => .function name.lower
  | .atKeyword name => .atKeyword name.lower
  | .hash name => .hash name.lower
  | .string content => .string content.lower
  | .url address => .url address.lower
  | .dimension value unit => .dimension value unit.lower
  | t => t

theorem foldsCase_readNumeric : FoldsCase lowered readNumeric := by
  intro t
  obtain ⟨hname, hlength⟩ := foldsCase_readName (t.drop (numeralOf t).length)
  unfold readNumeric
  dsimp only
  rw [takesEitherCase_numeralOf, Text.length_lower, Double.ofText?_lower, ← Text.lower_drop, startsName_lower]
  simp (disch := decide) only [Text.head?_lower]
  split
  · exact ⟨congrArg (Token.dimension _) hname, congrArg (_ + ·) hlength⟩
  · split <;> exact ⟨rfl, rfl⟩

/-- what was read behind a code point, with that in front -/
theorem map_cons_lower {d : Char} {o o' : Option Text} (hd : d.toLower = c.toLower)
    (h : o'.map Text.lower = o.map Text.lower) :
    (o'.map (d :: ·)).map Text.lower = (o.map (c :: ·)).map Text.lower := by
  cases o <;> cases o' <;> simp_all [Text.lower_cons]

theorem foldsCase_readString (hq : Text.isQuote c = true) : FoldsCase (Option.map Text.lower) (readString c) := by
  have hmark (d : Char) : d.toLower = c ↔ d = c := Text.toLower_eq_iff c (by
    rcases Text.isQuote_iff.1 hq with rfl | rfl <;> decide)
  have hbackslash : '\\' ≠ c := by
    rintro rfl
    cases hq
  intro t
  fun_induction readString c t with
  | case1 =>
    rw [Text.lower_nil, readString.eq_def]
    exact ⟨rfl, rfl⟩
  | case2 t =>
    rw [Text.lower_cons, (hmark c).2 rfl, readString_close]
    exact ⟨rfl, rfl⟩
  | case3 t hquote =>
    rw [Text.lower_cons, show '\n'.toLower = '\n' from rfl, readString_broken hquote]
    exact ⟨rfl, rfl⟩
  | case4 d t hquote hfeed x hx r ih =>
    obtain ⟨e, he, hlower⟩ := escapeAt?_lower_some hx
    rw [Text.lower_cons, readString_escapeAt (fun h => hquote ((hmark d).1 h))
      (Text.toLower_ne (by decide) hfeed) he, ← Text.lower_drop]
    exact ⟨map_cons_lower hlower ih.1, congrArg (· + x.2 + 1) ih.2⟩
  | case5 hquote hfeed =>
    rw [Text.lower_cons, Text.lower_nil, show '\\'.toLower = '\\' from rfl, readString_unfinished hquote]
    exact ⟨rfl, rfl⟩
  | case6 d t r hquote hfeed hx ih =>
    obtain rfl : d = '\n' := by
      have hnone : escape? (d :: t) = none := hx
      rcases escape?_eq_none hnone with h | ⟨u, h⟩ <;> cases h
      rfl
    rw [Text.lower_cons, Text.lower_cons, show '\\'.toLower = '\\' from rfl, show '\n'.toLower = '\n' from rfl,
      readString_continued hquote]
    exact ⟨ih.1, congrArg (· + 2) ih.2⟩
  | case7 d t hquote hfeed hx hslash r ih =>
    rw [Text.lower_cons, readString_other (fun h => hquote ((hmark d).1 h))
      (Text.toLower_ne (by decide) hfeed) (Text.toLower_ne (by decide) hslash)]
    exact ⟨map_cons_lower (Text.toLower_toLower d) ih.1, congrArg (· + 1) ih.2⟩

theorem badUrlRest_lower (t : Text) : badUrlRest t.lower = badUrlRest t := by
  fun_induction badUrlRest t with
  | case1 => rw [Text.lower_nil, badUrlRest.eq_def]
  | case2 t => rw [Text.lower_cons, show ')'.toLower = ')' from rfl, badUrlRest_close]
  | case3 c t hclose x hx ih =>
    obtain ⟨d, hd, -⟩ := escapeAt?_lower_some hx
    rw [Text.lower_cons, badUrlRest_escapeAt (Text.toLower_ne (by decide) hclose) hd,
      ← Text.lower_drop, ih]
  | case4 c t hclose hx ih =>
    rw [Text.lower_cons, badUrlRest_other (Text.toLower_ne (by decide) hclose)
      (escapeAt?_lower_none hx), ih]

theorem foldsCase_readUrl : FoldsCase (Option.map Text.lower) readUrl := by
  have hspoils (c : Char) : (Text.isQuote c.toLower = true ∨ c.toLower = '(') ↔
      (Text.isQuote c = true ∨ c = '(') := by
    rw [Text.isQuote_toLower, Text.toLower_eq_iff _ (by decide)]
  have hkept {c : Char} (h : ¬ isBlank c = true) : isBlank c.toLower = false := by
    rw [Text.isBlank_toLower, Bool.eq_false_iff]
    exact h
  intro t
  fun_induction readUrl t with
  | case1 =>
    rw [Text.lower_nil, readUrl.eq_def]
    exact ⟨rfl, rfl⟩
  | case2 t =>
    rw [Text.lower_cons, show ')'.toLower = ')' from rfl, readUrl_close]
    exact ⟨rfl, rfl⟩
  | case3 c t hclose hblank n hdrop =>
    rw [Text.lower_cons, readUrl_blank (by rw [Text.isBlank_toLower, hblank]), blanks_lower, ← Text.lower_drop, hdrop]
    exact ⟨rfl, rfl⟩
  | case4 c t hclose hblank n u hdrop =>
    rw [Text.lower_cons, readUrl_blank (by rw [Text.isBlank_toLower, hblank]), blanks_lower, ← Text.lower_drop, hdrop]
    exact ⟨rfl, rfl⟩
  | case5 c t hclose hblank n d u hdrop hne =>
    rw [Text.lower_cons, readUrl_blank (by rw [Text.isBlank_toLower, hblank]), blanks_lower, ← Text.lower_drop, hdrop,
      Text.lower_cons]
    dsimp only
    rw [if_neg (Text.toLower_ne (by decide) hne), ← Text.lower_cons, badUrlRest_lower]
    exact ⟨rfl, rfl⟩
  | case6 c t hclose hblank hspoilt =>
    rw [Text.lower_cons, readUrl_spoilt (Text.toLower_ne (by decide) hclose) (hkept hblank) ((hspoils c).2 hspoilt),
      badUrlRest_lower]
    exact ⟨rfl, rfl⟩
  | case7 c t hclose hblank hspoilt x hx r ih =>
    obtain ⟨d, hd, hlower⟩ := escapeAt?_lower_some hx
    rw [Text.lower_cons, readUrl_escapeAt (Text.toLower_ne (by decide) hclose) (hkept hblank)
      (mt (hspoils c).1 hspoilt) hd, ← Text.lower_drop]
    exact ⟨map_cons_lower hlower ih.1, congrArg (· + x.2 + 1) ih.2⟩
  | case8 t hclose hblank hspoilt hx =>
    rw [Text.lower_cons, show '\\'.toLower = '\\' from rfl, readUrl_backslash (escapeAt?_lower_none hx),
      badUrlRest_lower]
    exact ⟨rfl, rfl⟩
  | case9 c t hclose hblank hspoilt hx hbackslash r ih =>
    rw [Text.lower_cons, readUrl_other (Text.toLower_ne (by decide) hclose) (hkept hblank) (mt (hspoils c).1 hspoilt)
      (Text.toLower_ne (by decide) hbackslash)]
    exact ⟨map_cons_lower (Text.toLower_toLower c) ih.1, congrArg (· + 1) ih.2⟩

theorem readFunction_lower {name name' : Text} (hname : name'.lower = name.lower) (t : Text) :
    (readFunction name' t.lower).1.lowered = (readFunction name t).1.lowered ∧
      (readFunction name' t.lower).2 = (readFunction name t).2 := by
  by_cases hurl : name.lower = "url".toList
  · have hrest : t.lower.drop (blanks t.lower) = Text.lower (t.drop (blanks t)) := by
      rw [blanks_lower, Text.lower_drop]
    have hquotes := Text.head?_any_lower Text.isQuote_toLower (t.drop (blanks t))
    cases hquote : (t.drop (blanks t)).head?.any Text.isQuote with
    | true =>
      rw [readFunction_quoted hurl hquote, readFunction_quoted (hname.trans hurl) (by rw [hrest, hquotes, hquote]),
        blanks_lower]
      exact ⟨congrArg Token.function hname, rfl⟩
    | false =>
      obtain ⟨haddress, hlength⟩ := foldsCase_readUrl (t.drop (blanks t))
      rw [readFunction_url hurl hquote, readFunction_url (hname.trans hurl) (by rw [hrest, hquotes, hquote]), hrest,
        hlength, blanks_lower]
      refine ⟨?_, rfl⟩
      cases h : (readUrl (t.drop (blanks t))).1 <;> cases h' : (readUrl (Text.lower (t.drop (blanks t)))).1 <;>
        simp_all [lowered]
  · rw [readFunction_other hurl, readFunction_other fun h => hurl (hname.symm.trans h)]
    exact ⟨congrArg Token.function hname, rfl⟩

theorem foldsCase_readNamed : FoldsCase lowered readNamed := by
  intro t
  obtain ⟨hname, hlength⟩ := foldsCase_readName t
  have hrest : t.lower.drop (readName t.lower).2 = Text.lower (t.drop (readName t).2) := by
    rw [hlength, Text.lower_drop]
  by_cases hparen : (t.drop (readName t).2).head? = some '('
  · obtain ⟨u, hu⟩ := List.head?_eq_some_iff.1 hparen
    obtain ⟨hfunction, htaken⟩ := readFunction_lower hname u
    rw [readNamed_function hu, readNamed_function (u := Text.lower u) (by rw [hrest, hu]; rfl), hlength, htaken]
    exact ⟨hfunction, rfl⟩
  · rw [readNamed_ident hparen, readNamed_ident (by rwa [hrest, ne_eq, Text.head?_lower (by decide)]), hlength]
    exact ⟨congrArg Token.ident hname, rfl⟩

/-- A letter starts a name. -/
theorem toLower_of_not_startsName (h : ¬ startsName (c :: t) = true) : c.toLower = c := by
  refine Text.toLower_of_not_upper ?_
  by_contra hupper
  have hstart : isNameStart c = true := isNameStart_iff.2 (.inl (by omega))
  have hdash : c ≠ '-' := by
    rintro rfl
    exact absurd hstart (by decide)
  exact h (by rw [startsName, if_neg hdash, hstart, Bool.true_or])

/-- A token is read of small letters as of the letters, with as much of the text. -/
theorem read_lower (c : Char) (t : Text) : (read c.toLower t.lower).1.lowered = (read c t).1.lowered ∧
    (read c.toLower t.lower).2 = (read c t).2 := by
  cases hblank : isBlank c with
  | true =>
    rw [read_blank hblank, read_blank (by rw [Text.isBlank_toLower, hblank]), blanks_lower]
    exact ⟨rfl, rfl⟩
  | false =>
  cases hquote : Text.isQuote c with
  | true =>
    obtain ⟨hcontent, hlength⟩ := foldsCase_readString hquote t
    rw [Text.toLower_of_isQuote hquote, read_quote hquote, read_quote hquote]
    refine ⟨?_, hlength⟩
    cases h : (readString c t).1 <;> cases h' : (readString c t.lower).1 <;> simp_all [lowered]
  | false =>
    have hbare : Bare c.toLower := ⟨by rw [Text.isBlank_toLower, hblank], by rw [Text.isQuote_toLower, hquote]⟩
    obtain ⟨hname, hlength⟩ := foldsCase_readName t
    obtain ⟨hnumeric, hdigits⟩ := foldsCase_readNumeric (c :: t)
    obtain ⟨hnamed, htaken⟩ := foldsCase_readNamed (c :: t)
    rw [read_bare hbare, read_bare ⟨hblank, hquote⟩, hlength, startsName_lower, ← Text.lower_cons, startsNumber_lower,
      startsName_lower, hdigits, htaken]
    simp (disch := decide) only [Text.toLower_eq_iff]
    split
    · exact ⟨congrArg Token.hash hname, rfl⟩
    split
    · exact ⟨congrArg Token.atKeyword hname, rfl⟩
    split
    · exact ⟨hnumeric, rfl⟩
    split
    · exact ⟨hnamed, rfl⟩
    · next hstarts => rw [toLower_of_not_startsName hstarts]; exact ⟨rfl, rfl⟩

theorem comment_lower (t : Text) : comment t.lower = comment t := by
  fun_induction comment t with
  | case1 | case2 => rfl
  | case3 c t hopen ih =>
    rw [Text.lower_cons, comment, ih]
    intro u hstar hslash
    cases t with
    | nil => cases hslash
    | cons d t =>
      have hd := (Text.toLower_eq_iff _ (by decide)).1 (List.cons.inj hslash).1
      exact hopen t ((Text.toLower_eq_iff _ (by decide)).1 hstar) (by rw [hd])

theorem comments_lower (t : Text) : comments t.lower = comments t := by
  fun_induction comments t with
  | case1 t ih =>
    rw [show Text.lower ('/' :: '*' :: t) = '/' :: '*' :: Text.lower t from rfl, comments, comment_lower,
      ← Text.lower_drop, ih]
  | case2 t hopen =>
    rw [comments.eq_def]
    split
    · next u heq =>
      obtain ⟨c, v, rfl, hslash, hv⟩ := List.map_eq_cons_iff.1 heq
      obtain ⟨d, w, rfl, hstar, -⟩ := List.map_eq_cons_iff.1 hv
      refine (hopen w ?_).elim
      rw [(Text.toLower_eq_iff _ (by decide)).1 hslash, (Text.toLower_eq_iff _ (by decide)).1 hstar]
    · rfl

end Token

theorem Location.advance_toLower (l : Location) (c : Char) : l.advance c.toLower = l.advance c := by
  unfold advance
  simp (disch := decide) only [Text.toLower_eq_iff]

theorem Location.advanceOver_lower (l : Location) (t : Text) : l.advanceOver t.lower = l.advanceOver t := by
  simp only [advanceOver, Text.lower, List.foldl_map, advance_toLower]

/-- a token in its place, its letters made small -/
def Located.lowered (x : Located) : Located := { x with token := x.token.lowered }

namespace Token

theorem scan_lower (l : Location) (t : Text) :
    (scan l t.lower).map Located.lowered = (scan l t).map Located.lowered := by
  fun_induction scan l t with
  | case1 l t n start hend =>
    rw [scan_ending (by rw [comments_lower, ← Text.lower_drop, hend]; rfl), comments_lower, ← Text.lower_take,
      Location.advanceOver_lower]
  | case2 l t n start c u hdrop r stop ih =>
    obtain ⟨htoken, hlength⟩ := read_lower c u
    have hrest : t.lower.drop (comments t.lower) = c.toLower :: Text.lower u := by
      rw [comments_lower, ← Text.lower_drop, hdrop, Text.lower_cons]
    have hstop (l : Location) : l.advanceOver (c.toLower :: Text.lower (u.take r.2)) =
        l.advanceOver (c :: u.take r.2) := Location.advanceOver_lower l (c :: u.take r.2)
    rw [scan_token hrest, comments_lower, ← Text.lower_take, Location.advanceOver_lower, hlength, ← Text.lower_take,
      ← Text.lower_drop, hstop, List.map_cons, List.map_cons, ih, Located.lowered, htoken, Located.lowered]

end Token

/-- A text in small letters has the tokens of the text where these stand, in either case of their letters. -/
theorem tokenize_lower (t : Text) : (tokenize t.lower).map Located.lowered = (tokenize t).map Located.lowered :=
  Token.scan_lower .start t

end StyleMiner
