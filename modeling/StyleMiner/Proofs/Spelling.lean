import StyleMiner.Proofs.Matching
import StyleMiner.Proofs.PrintedNumbers
import StyleMiner.Proofs.Readers

/-! Texts that are read back as the tokens they were written for: printed numbers with a percent sign or
a unit, names without escapes, and quoted text without a line feed. A text put together from such pieces
is read piece by piece. -/

namespace StyleMiner

variable {t u rest n ws fs : Text} {c : Char} {s : Bool} {k : Token} {ks : List Token} {v : Double}

namespace Token

/-- a name in which nothing is escaped -/
structure Name (n : Text) : Prop where
  starts : startsName n = true
  chars : ∀ c ∈ n, isNameChar c = true

instance (n : Text) : Decidable (Name n) :=
  decidable_of_iff (startsName n = true ∧ n.all isNameChar = true)
    ⟨fun h => ⟨h.1, List.all_eq_true.1 h.2⟩, fun h => ⟨h.starts, List.all_eq_true.2 h.chars⟩⟩

/-- what ends a name in front of it -/
def EndsName (rest : Text) : Prop := ∀ c ∈ rest.head?, isNameChar c = false ∧ c ≠ '\\'

theorem ne_backslash (h : isNameChar c = true) : c ≠ '\\' := by
  rintro rfl
  cases h

theorem startsEscape_eq_false (h : ∀ c ∈ t, isNameChar c = true) : startsEscape t = false := by
  cases t with
  | nil => rfl
  | cons c t => simp [startsEscape, escapeAt?, ne_backslash (h c (List.mem_cons_self ..))]

/-- A name starts with a letter of names, or with a dash and such a letter or another dash. -/
theorem Name.split (h : Name n) : (∃ c t, n = c :: t ∧ isNameStart c = true) ∨
    ∃ d t, n = '-' :: d :: t ∧ (isNameStart d = true ∨ d = '-') := by
  obtain ⟨hstarts, hchars⟩ := h
  cases n with
  | nil => cases hstarts
  | cons c t =>
    have htail : startsEscape t = false :=
      startsEscape_eq_false fun d hd => hchars d (List.mem_cons_of_mem _ hd)
    have hwhole : startsEscape (c :: t) = false := startsEscape_eq_false hchars
    rw [startsName] at hstarts
    split at hstarts
    · next hc =>
      subst hc
      cases t with
      | nil => cases hstarts
      | cons d t => exact .inr ⟨d, t, rfl, by simpa [htail] using hstarts⟩
    · exact .inl ⟨c, t, rfl, by simpa [hwhole] using hstarts⟩

theorem Name.cons (h : Name n) : ∃ c t, n = c :: t ∧ c ≠ '/' := by
  rcases h.split with ⟨c, t, rfl, hc⟩ | ⟨d, t, rfl, -⟩
  · refine ⟨c, t, rfl, ?_⟩
    rintro rfl
    cases hc
  · exact ⟨_, _, rfl, by decide⟩

theorem startsName_of_isNameStart (h : isNameStart c = true) (t : Text) : startsName (c :: t) = true := by
  have hdash : c ≠ '-' := by
    rintro rfl
    cases h
  simp [startsName, hdash, h]

theorem startsName_of_dash {d : Char} (h : isNameStart d = true ∨ d = '-') (t : Text) :
    startsName ('-' :: d :: t) = true := by
  rcases h with h | h <;> simp [startsName, h]

theorem Name.startsName_append (h : Name n) (rest : Text) : startsName (n ++ rest) = true := by
  rcases h.split with ⟨c, t, rfl, hc⟩ | ⟨d, t, rfl, hd⟩
  · exact startsName_of_isNameStart hc _
  · exact startsName_of_dash hd _

theorem Name.lower (h : Name n) : Name n.lower := by
  refine ⟨?_, fun c hc => ?_⟩
  · rcases h.split with ⟨c, t, rfl, hc⟩ | ⟨d, t, rfl, hd⟩
    · exact startsName_of_isNameStart (by rwa [Text.isNameStart_toLower]) _
    · refine startsName_of_dash (hd.imp (fun hd => by rwa [Text.isNameStart_toLower]) fun hd => ?_) _
      rw [hd]
      rfl
  · obtain ⟨d, hd, rfl⟩ := List.mem_map.1 hc
    rw [Text.isNameChar_toLower]
    exact h.chars d hd

theorem Name.startsNumber_append (h : Name n) (rest : Text) : startsNumber (n ++ rest) = false := by
  rcases h.split with ⟨c, t, rfl, hc⟩ | ⟨d, t, rfl, hd⟩
  · have hdigit := isDigit_eq_false_of_isNameStart hc
    have hsign : ¬ (c = '+' ∨ c = '-') ∧ c ≠ '.' := by
      refine ⟨?_, ?_⟩
      · rintro (rfl | rfl) <;> cases hc
      · rintro rfl
        cases hc
    simp [startsNumber, signOf, hsign, startsDigit, hdigit]
  · have hdigit : d.isDigit = false ∧ d ≠ '.' := by
      rcases hd with hd | rfl
      · refine ⟨isDigit_eq_false_of_isNameStart hd, ?_⟩
        rintro rfl
        cases hd
      · decide
    simp [startsNumber, signOf, startsDigit, hdigit]

theorem readName_append (h : ∀ c ∈ n, isNameChar c = true) (hrest : EndsName rest) :
    readName (n ++ rest) = (n, n.length) := by
  induction n with
  | nil =>
    rw [List.nil_append]
    cases rest with
    | nil => rw [readName]; rfl
    | cons c t =>
      obtain ⟨hchar, hescape⟩ := hrest c rfl
      rw [readName]
      simp [hchar, escapeAt?, hescape]
  | cons c n ih =>
    rw [List.cons_append, readName, if_pos (h c (List.mem_cons_self ..)),
      ih fun d hd => h d (List.mem_cons_of_mem _ hd)]
    rfl

theorem isBlank_eq_false_of_isNameChar (h : isNameChar c = true) : isBlank c = false := by
  rw [Bool.eq_false_iff, ne_eq, isBlank_iff]
  rw [isNameChar_iff, isNameStart_iff] at h
  omega

/-- Where a name starts and no number does, a name is read. -/
theorem Name.read_append (h : Name (c :: u)) (rest : Text) :
    read c (u ++ rest) = ((readNamed (c :: u ++ rest)).1, (readNamed (c :: u ++ rest)).2 - 1) := by
  have hchar := h.chars c (List.mem_cons_self ..)
  have hquote : Text.isQuote c = false := by
    rw [Text.isQuote, Bool.or_eq_false_iff, beq_eq_false_iff_ne, beq_eq_false_iff_ne]
    refine ⟨?_, ?_⟩ <;>
    · rintro rfl
      cases hchar
  have hother : c ≠ '#' ∧ c ≠ '@' := by
    refine ⟨?_, ?_⟩ <;>
    · rintro rfl
      cases hchar
  have hnumber : startsNumber (c :: (u ++ rest)) = false := h.startsNumber_append rest
  have hname : startsName (c :: (u ++ rest)) = true := h.startsName_append rest
  simp [read, isBlank_eq_false_of_isNameChar hchar, hquote, hother, hnumber, hname]

/-- A name is read as itself if neither more of it follows nor a parenthesis. -/
theorem Name.read_ident (h : Name (c :: u)) (hrest : EndsName rest) (hparen : rest.head? ≠ some '(') :
    read c (u ++ rest) = (.ident (c :: u), u.length) := by
  rw [h.read_append, readNamed, readName_append h.chars hrest]
  dsimp only
  rw [List.drop_left]
  split
  · exact absurd rfl hparen
  · rfl

theorem Name.read_function (h : Name (c :: u)) (hurl : Text.lower (c :: u) ≠ "url".toList) (rest : Text) :
    read c (u ++ '(' :: rest) = (.function (c :: u), u.length + 1) := by
  have hparen : EndsName ('(' :: rest) := fun d hd => by
    cases hd
    decide
  rw [h.read_append, readNamed, readName_append h.chars hparen]
  dsimp only
  rw [List.drop_left]
  simp only [readFunction, if_neg hurl]
  rfl

/-- A quote after its parenthesis makes `url` a function. -/
theorem read_url (rest : Text) : read 'u' ("rl(".toList ++ '"' :: rest) = (.function "url".toList, 3) := by
  have hname : Name "url".toList := by decide
  have hparen : EndsName ('(' :: '"' :: rest) := fun d hd => by
    cases hd
    decide
  have hread : readName ("url".toList ++ '(' :: '"' :: rest) = ("url".toList, 3) := readName_append hname.chars hparen
  have happend := Name.read_append (c := 'u') (u := "rl".toList) hname ('(' :: '"' :: rest)
  rw [readNamed, show 'u' :: "rl".toList = "url".toList from rfl, hread] at happend
  exact happend

/-- text with a backslash before a double quote or a backslash in it -/
def escaped (t : Text) : Text := t.flatMap fun c => if c = '"' ∨ c = '\\' then ['\\', c] else [c]

theorem quoted_eq (t : Text) : t.quoted = '"' :: (escaped t ++ ['"']) := rfl

theorem escaped_cons (c : Char) (t : Text) : escaped (c :: t) =
    if c = '"' ∨ c = '\\' then '\\' :: c :: escaped t else c :: escaped t := by
  rw [escaped, List.flatMap_cons, ← escaped]
  split <;> rfl

theorem escaped_inj (h : escaped t = escaped u) : t = u := by
  induction t generalizing u with
  | nil =>
    cases u with
    | nil => rfl
    | cons d u =>
      rw [escaped_cons] at h
      split at h <;> cases h
  | cons c t ih =>
    cases u with
    | nil =>
      rw [escaped_cons] at h
      split at h <;> cases h
    | cons d u =>
      rw [escaped_cons, escaped_cons] at h
      split at h
      · split at h
        · obtain ⟨rfl, hrest⟩ := List.cons.inj (List.cons.inj h).2
          rw [ih hrest]
        · next hplain => exact absurd (.inr (List.cons.inj h).1.symm) hplain
      · next hplain =>
        split at h
        · exact absurd (.inr (List.cons.inj h).1) hplain
        · obtain ⟨rfl, hrest⟩ := List.cons.inj h
          rw [ih hrest]

theorem quoted_inj (h : t.quoted = u.quoted) : t = u :=
  escaped_inj (List.append_cancel_right (List.cons.inj h).2)

/-- A backslash in front of what is neither a digit nor a line feed stands for nothing. -/
theorem readString_escape (hfeed : c ≠ '\n') (hhex : Text.isHexDigit c = false) (t : Text) :
    readString '"' ('\\' :: c :: t) = ((readString '"' t).1.map (c :: ·), (readString '"' t).2 + 2) :=
  readString_escapeAt (x := (c, 1)) (by decide) (by decide) (escape?_other hfeed hhex)

theorem readString_escaped (h : '\n' ∉ t) (rest : Text) :
    readString '"' (escaped t ++ '"' :: rest) = (some t, (escaped t).length + 1) := by
  induction t with
  | nil => exact readString_close '"' rest
  | cons c t ih =>
    obtain ⟨hc, ht⟩ := not_or.1 (fun h' => h (List.mem_cons.2 h'))
    rw [escaped_cons]
    split
    · next hspecial =>
      have hhex : Text.isHexDigit c = false := by rcases hspecial with rfl | rfl <;> decide
      rw [List.cons_append, List.cons_append, readString_escape (Ne.symm hc) hhex, ih ht]
      rfl
    · next hplain =>
      obtain ⟨hquote, hbackslash⟩ := not_or.1 hplain
      rw [List.cons_append, readString_other hquote (Ne.symm hc) hbackslash, ih ht]
      rfl

/-- A line feed spoils a string. -/
theorem readString_feed (h : '\n' ∈ t) (rest : Text) : (readString '"' (escaped t ++ rest)).1 = none := by
  induction t with
  | nil => cases h
  | cons c t ih =>
    rw [escaped_cons]
    by_cases hc : c = '\n'
    · rw [hc, if_neg (by decide), List.cons_append, readString_broken (by decide)]
    have ih := ih ((List.mem_cons.1 h).resolve_left (Ne.symm hc))
    split
    · next hspecial =>
      have hhex : Text.isHexDigit c = false := by rcases hspecial with rfl | rfl <;> decide
      rw [List.cons_append, List.cons_append, readString_escape hc hhex, ih]
      rfl
    · next hplain =>
      obtain ⟨hquote, hbackslash⟩ := not_or.1 hplain
      rw [List.cons_append, readString_other hquote hc hbackslash, ih]
      rfl

theorem read_badString (h : '\n' ∈ t) (rest : Text) : (read '"' (escaped t ++ rest)).1 = .badString := by
  rw [read_quote rfl, readString_feed h]
  rfl

theorem read_string (h : '\n' ∉ t) (rest : Text) :
    read '"' (escaped t ++ ['"'] ++ rest) = (.string t, (escaped t ++ ['"']).length) := by
  rw [List.append_assoc, List.singleton_append, read_quote rfl, readString_escaped h, List.length_append]
  rfl

/-- what a numeral in front of it does not go on with -/
structure EndsNumber (rest : Text) : Prop where
  digit : ∀ c ∈ rest.head?, c.isDigit = false
  point : rest.head? ≠ some '.'
  power : powerOf rest = []

theorem fractionOf_behind (hfs : Text.Digits fs) (hrest : EndsNumber rest) :
    fractionOf (Numeral.behind fs ++ rest) = Numeral.behind fs := by
  rw [Numeral.behind]
  split
  · cases rest with
    | nil => rfl
    | cons c t =>
      have hpoint : c ≠ '.' := fun h => hrest.point (congrArg some h)
      simp [fractionOf, hpoint]
  · next hne =>
    have hstarts : startsDigit (fs ++ rest) = true := by
      cases fs with
      | nil => exact absurd rfl hne
      | cons c fs => exact hfs c (List.mem_cons_self ..)
    rw [List.cons_append, fractionOf, if_pos ⟨rfl, hstarts⟩, digitsOf,
      Text.takeWhile_digits hfs hrest.digit]

theorem signOf_spell (hw : ws ≠ []) (hws : Text.Digits ws) (s : Bool) (fs rest : Text) :
    signOf (Numeral.spell s ws fs ++ rest) = if s then ['-'] else [] := by
  cases s with
  | true => rfl
  | false =>
    cases ws with
    | nil => exact absurd rfl hw
    | cons c ws =>
      have hc := hws c (List.mem_cons_self ..)
      have hsign : ¬ (c = '+' ∨ c = '-') := by rintro (rfl | rfl) <;> cases hc
      exact if_neg hsign

/-- Behind its sign a numeral starts with its whole digits. -/
theorem drop_sign (s : Bool) (ws fs rest : Text) :
    (Numeral.spell s ws fs ++ rest).drop (if s then ['-'] else []).length =
    ws ++ (Numeral.behind fs ++ rest) := by
  rw [Numeral.spell, List.append_assoc, List.drop_left, List.append_assoc]

theorem numeralOf_spell (hw : ws ≠ []) (hws : Text.Digits ws) (hfs : Text.Digits fs)
    (hrest : EndsNumber rest) :
    numeralOf (Numeral.spell s ws fs ++ rest) = Numeral.spell s ws fs := by
  have hwhole : digitsOf (ws ++ (Numeral.behind fs ++ rest)) = ws := by
    refine Text.takeWhile_digits hws fun c hc => ?_
    rw [Numeral.behind] at hc
    split at hc
    · exact hrest.digit c hc
    · cases hc
      rfl
  rw [numeralOf, signOf_spell hw hws, drop_sign, hwhole, List.drop_left,
    fractionOf_behind hfs hrest, List.drop_left, hrest.power, List.append_nil,
    List.append_assoc]
  rfl

theorem startsNumber_spell (hw : ws ≠ []) (hws : Text.Digits ws) (s : Bool) (fs rest : Text) :
    startsNumber (Numeral.spell s ws fs ++ rest) = true := by
  rw [startsNumber, signOf_spell hw hws, drop_sign]
  cases ws with
  | nil => exact absurd rfl hw
  | cons c ws =>
    have hc := hws c (List.mem_cons_self ..)
    simp [startsDigit, hc]

/-- Where a number starts, a number is read. -/
theorem read_of_startsNumber (h : startsNumber (c :: u) = true) :
    read c u = ((readNumeric (c :: u)).1, (readNumeric (c :: u)).2 - 1) := by
  have hc : c.isDigit = true ∨ c = '+' ∨ c = '-' ∨ c = '.' := by
    by_cases hsign : c = '+' ∨ c = '-'
    · exact .inr (hsign.elim .inl fun h => .inr (.inl h))
    · have hnone : signOf (c :: u) = [] := if_neg hsign
      rw [startsNumber, hnone] at h
      simp only [List.length_nil, List.drop_zero, startsDigit, List.head?_cons, Option.any_some,
        Bool.or_eq_true, Bool.and_eq_true, beq_iff_eq, Option.some.injEq] at h
      exact h.elim .inl fun h => .inr (.inr (.inr h.1))
  have hne (d : Char) (hdigit : d.isDigit = false) (hd : d ≠ '+' ∧ d ≠ '-' ∧ d ≠ '.') : c ≠ d := by
    rintro rfl
    rcases hc with hc | hc | hc | hc
    · exact absurd hc (by simp [hdigit])
    · exact hd.1 hc
    · exact hd.2.1 hc
    · exact hd.2.2 hc
  have hblank : isBlank c = false := by
    simp only [isBlank, Bool.or_eq_false_iff, beq_eq_false_iff_ne]
    exact ⟨⟨⟨⟨hne _ rfl (by decide), hne _ rfl (by decide)⟩, hne _ rfl (by decide)⟩, hne _ rfl (by decide)⟩,
      hne _ rfl (by decide)⟩
  have hquote : Text.isQuote c = false := by
    rw [Text.isQuote, Bool.or_eq_false_iff, beq_eq_false_iff_ne, beq_eq_false_iff_ne]
    exact ⟨hne _ rfl (by decide), hne _ rfl (by decide)⟩
  have hother : c ≠ '#' ∧ c ≠ '@' := ⟨hne _ rfl (by decide), hne _ rfl (by decide)⟩
  simp [read, hblank, hquote, hother, h]

/-- a text that is a numeral worth `v` -/
def SpellsNumber (t : Text) (v : Double) : Prop := Double.ofText? t = some v ∧
  ∃ s ws fs, t = Numeral.spell s ws fs ∧ ws ≠ [] ∧ Text.Digits ws ∧ Text.Digits fs

theorem SpellsNumber.readNumeric_append (h : SpellsNumber t v) (hrest : EndsNumber rest) :
    readNumeric (t ++ rest) =
      if startsName rest then (.dimension v (readName rest).1, t.length + (readName rest).2)
      else if rest.head? = some '%' then (.percentage v, t.length + 1) else (.number v, t.length) := by
  obtain ⟨hv, s, ws, fs, rfl, hw, hws, hfs⟩ := h
  rw [readNumeric, numeralOf_spell hw hws hfs hrest]
  dsimp only
  rw [List.drop_left, hv]
  rfl

theorem SpellsNumber.read_append (h : SpellsNumber (c :: u) v) (hrest : EndsNumber rest) :
    read c (u ++ rest) =
      if startsName rest then (.dimension v (readName rest).1, u.length + (readName rest).2)
      else if rest.head? = some '%' then (.percentage v, u.length + 1) else (.number v, u.length) := by
  have hstarts : startsNumber (c :: (u ++ rest)) = true := by
    obtain ⟨-, s, ws, fs, heq, hw, hws, -⟩ := h
    rw [← List.cons_append, heq]
    exact startsNumber_spell hw hws s fs rest
  rw [read_of_startsNumber hstarts, ← List.cons_append, h.readNumeric_append hrest, List.length_cons]
  split
  · rw [show u.length + 1 + (readName rest).2 - 1 = u.length + (readName rest).2 by omega]
  split <;> rfl

theorem spellsNumber_render (h : Double.Settled v) : SpellsNumber v.render v :=
    ⟨h.ofText?_render, h.spelled⟩

theorem SpellsNumber.split (h : SpellsNumber t v) :
    ∃ c u, t = c :: u ∧ (c = '-' ∨ c.isDigit = true) ∧ c ≠ '/' := by
  obtain ⟨-, s, ws, fs, rfl, hw, hws, -⟩ := h
  cases s with
  | true => exact ⟨'-', ws ++ Numeral.behind fs, rfl, .inl rfl, by decide⟩
  | false =>
    cases ws with
    | nil => exact absurd rfl hw
    | cons c ws =>
      have hc := hws c (List.mem_cons_self ..)
      refine ⟨c, ws ++ Numeral.behind fs, rfl, .inr hc, ?_⟩
      rintro rfl
      cases hc

theorem SpellsNumber.isDigit_getLast (h : SpellsNumber t v) : ∀ c ∈ t.getLast?, c.isDigit = true := by
  obtain ⟨-, s, ws, fs, rfl, hw, hws, hfs⟩ := h
  intro c hc
  rw [Numeral.spell, List.getLast?_append_of_ne_nil _ (by simp [hw]), Numeral.behind] at hc
  split at hc
  · rw [List.append_nil] at hc
    exact hws c (List.mem_of_getLast? hc)
  · next hne =>
    rw [List.getLast?_append_of_ne_nil _ (List.cons_ne_nil _ _), List.getLast?_cons,
      List.getLast?_eq_some_getLast hne] at hc
    obtain rfl := Option.some.inj hc
    exact hfs _ (List.getLast_mem hne)

theorem comments_eq_zero (h : c ≠ '/') (t : Text) : comments (c :: t) = 0 := by
  rw [comments.eq_def]
  split
  · next heq => exact absurd (List.cons.inj heq).1 h
  · rfl

theorem scan_cons (h : c ≠ '/') (l : Location) (t : Text) : ∃ l' stop,
    scan l (c :: t) = ⟨(read c t).1, l, stop⟩ :: scan l' (t.drop (read c t).2) := by
  rw [scan.eq_def, comments_eq_zero h t]
  exact ⟨_, _, rfl⟩

theorem scan_nil (l : Location) : scan l [] = [⟨.eof, l, l.offset⟩] := by
  have hcomments : comments [] = 0 := by rw [comments.eq_def]
  rw [scan.eq_def, hcomments]
  rfl

/-- how a text without comments is read: token by token, the end as the last of them -/
inductive Spells : Text → List Token → Prop where
  | nil : Spells [] [.eof]
  | cons {c : Char} {u rest : Text} {k : Token} {ks : List Token} (hslash : c ≠ '/')
    (hread : read c (u ++ rest) = (k, u.length)) (hrest : Spells rest ks) :
      Spells (c :: (u ++ rest)) (k :: ks)

theorem Spells.scan (h : Spells t ks) (l : Location) : (scan l t).map (·.token) = ks := by
  induction h generalizing l with
  | nil => rw [scan_nil]; rfl
  | @cons c u rest k ks hslash hread _ ih =>
    obtain ⟨l', stop, hscan⟩ := scan_cons hslash l (u ++ rest)
    rw [hscan, hread, List.drop_left, List.map_cons, ih]

/-- what ends a number among the arguments of a function -/
def EndsArgument (rest : Text) : Prop := rest.head? = some ',' ∨ rest.head? = some ')'

theorem Spells.number (h : SpellsNumber t v) (hrest : EndsArgument rest) (hs : Spells rest ks) :
    Spells (t ++ rest) (.number v :: ks) := by
  have hends : EndsNumber rest ∧ startsName rest = false ∧ rest.head? ≠ some '%' := by
    cases rest with
    | nil => rcases hrest with h | h <;> cases h
    | cons d rest =>
      rcases hrest with h | h <;> obtain rfl := Option.some.inj h <;>
      · refine ⟨⟨?_, by simp, rfl⟩, rfl, by simp⟩
        intro c hc
        cases hc
        rfl
  obtain ⟨c, u, rfl, -, hslash⟩ := h.split
  have hread := h.read_append hends.1
  rw [hends.2.1, if_neg Bool.false_ne_true, if_neg hends.2.2] at hread
  exact .cons hslash hread hs

theorem Spells.comma (hrest : ∀ c ∈ rest.head?, isBlank c = false) (hs : Spells rest ks) :
    Spells (',' :: ' ' :: rest) (.comma :: .whitespace :: ks) := by
  have hblank : blanks rest = 0 := by
    cases rest with
    | nil => rfl
    | cons c rest => rw [blanks, List.takeWhile_cons_of_neg (by simp [hrest c rfl])]; rfl
  have hspace : read ' ' rest = (.whitespace, 0) := by rw [read, if_pos (by decide), hblank]
  exact .cons (u := []) (by decide) rfl (.cons (u := []) (by decide) hspace hs)

theorem Spells.function (h : Name n) (hurl : n.lower ≠ "url".toList) (hs : Spells rest ks) :
    Spells (n ++ '(' :: rest) (.function n :: ks) := by
  obtain ⟨c, u, rfl, hslash⟩ := h.cons
  have hsplit : u ++ '(' :: rest = (u ++ ['(']) ++ rest := by rw [List.append_assoc, List.singleton_append]
  have hread := h.read_function hurl rest
  rw [List.cons_append, hsplit]
  rw [hsplit] at hread
  exact .cons hslash (hread.trans (by rw [List.length_append]; rfl)) hs

theorem spells_single (hslash : c ≠ '/') (hread : read c u = (k, u.length)) :
    Spells (c :: u) [k, .eof] := by
  rw [← List.append_nil u]
  exact .cons hslash (by rwa [List.append_nil]) .nil

theorem Spells.close : Spells [')'] [.closing .paren, .eof] := spells_single (by decide) rfl

end Token

namespace Component

variable {ends : Token → Bool} {last : Nat} {f : Frame} {fs : List Frame} {ts rest : List Located}
  {name : Text}

/-- a token that is one component by itself wherever it stands -/
structure Single (k : Token) : Prop where
  eof : k ≠ .eof
  opens : Opener.ofToken? k = none
  closes : ∀ b, k ≠ .closing b

theorem gather_singles (h : ∀ t ∈ ts, Single t.token) : gather ends last (f :: fs) (ts ++ rest) =
    gather ends (lastStop last ts)
      ({ f with inside := f.inside ++ ts.map (.token ·.token) } :: fs) rest := by
  induction ts generalizing last f with
  | nil =>
    rw [List.map_nil, List.append_nil]
    rfl
  | cons t ts ih =>
    obtain ⟨heof, hopens, hcloses⟩ := h t (List.mem_cons_self ..)
    rw [List.cons_append, gather_plain heof hopens hcloses,
      ih fun u hu => h u (List.mem_cons_of_mem _ hu), Frame.push, List.append_assoc]
    rfl

/-- A text of one token is that token as a component. -/
theorem ofText_token (h : Token.Spells t [k, .eof]) (hk : Single k) : ofText t = [.token k] := by
  have htokens := h.scan .start
  obtain ⟨a, ts, hts, rfl, hrest⟩ := List.map_eq_cons_iff.1 htokens
  obtain ⟨b, us, rfl, hb, hus⟩ := List.map_eq_cons_iff.1 hrest
  obtain rfl := List.map_eq_nil_iff.1 hus
  rw [ofText, tokenize, hts, ofTokens, takeUntil, gather_token hk.eof rfl hk.opens, gather, if_pos hb]
  rfl

/-- A text of a function with single tokens as its arguments is that function. -/
theorem ofText_function (h : Token.Spells t (.function name :: (ks ++ [.closing .paren, .eof])))
    (hks : ∀ k ∈ ks, Single k) : ofText t = [.function name (ks.map .token)] := by
  have htokens := h.scan .start
  obtain ⟨a, ts, hts, ha, hrest⟩ := List.map_eq_cons_iff.1 htokens
  obtain ⟨as, us, rfl, rfl, hus⟩ := List.map_eq_append_iff.1 hrest
  obtain ⟨b, vs, rfl, hb, hvs⟩ := List.map_eq_cons_iff.1 hus
  obtain ⟨e, ws, rfl, he, hws⟩ := List.map_eq_cons_iff.1 hvs
  obtain rfl := List.map_eq_nil_iff.1 hws
  have hopen : Opener.ofToken? a.token = some (.function name) := by rw [ha]; rfl
  rw [ofText, tokenize, hts, ofTokens, takeUntil, gather_open (fun _ => rfl) hopen,
    gather_singles fun t ht => hks _ (List.mem_map_of_mem ht), gather_close hb]
  simp only [deliver, Option.toList_some, gather, he, if_true, closeAll, Option.toList_none,
    List.append_nil, List.map_cons, List.map_nil, List.nil_append, List.map_map]
  rfl

end Component
end StyleMiner
