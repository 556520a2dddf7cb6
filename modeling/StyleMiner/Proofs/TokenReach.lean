import StyleMiner.Proofs.Readers

/-! How far a reader looks. What it takes of a text it takes of every text that begins with the same code
points, however that goes on, as long as nothing behind decides what it is: a string that a line feed breaks
off and the name of an address before a quote are told only by the code point behind them. -/

namespace StyleMiner.Token

variable {α : Type} {v w : Text} {c : Char} {x : Char × Nat}

/-- a reader that reads the same when the text behind what it takes is cut off -/
def ReadsOwn (f : Text → α × Nat) : Prop := ∀ v w : Text, (f (v ++ w)).2 ≤ v.length → f v = f (v ++ w)

/-- a reader of what stands in front, the text behind which may be cut off -/
def TakesOwn (f : Text → Text) : Prop := ∀ v w : Text, (f (v ++ w)).length ≤ v.length → f v = f (v ++ w)

theorem takesOwn_takeWhile (p : Char → Bool) : TakesOwn (List.takeWhile p) := by
  intro v w h
  rw [List.takeWhile_append] at h ⊢
  split
  · next hall =>
    rw [if_pos hall, List.length_append] at h
    have hnone : w.takeWhile p = [] := List.length_eq_zero_iff.1 (by omega)
    rw [hnone, List.append_nil]
    exact (List.takeWhile_prefix p).eq_of_length hall
  · rfl

theorem blanks_cut (h : blanks (v ++ w) ≤ v.length) : blanks v = blanks (v ++ w) :=
  congrArg List.length (takesOwn_takeWhile isBlank v w h)

/-- One reader behind the other. -/
theorem TakesOwn.append {f g : Text → Text} (hf : TakesOwn f) (hg : TakesOwn g) :
    TakesOwn fun t => f t ++ g (t.drop (f t).length) := by
  intro v w h
  dsimp only at h ⊢
  rw [List.length_append] at h
  have hfirst := hf v w (by omega)
  rw [← hfirst] at h ⊢
  rw [List.drop_append_of_le_length (by omega)] at h ⊢
  rw [hg (v.drop (f v).length) w (by rw [List.length_drop]; omega)]

theorem escape?_none (h : escape? (v ++ w) = none) : escape? v = none := by
  cases v with
  | nil => rfl
  | cons c v =>
    rw [List.cons_append, escape?] at h
    rw [escape?]
    split at h
    · next hfeed => rw [if_pos hfeed]
    · split at h <;> cases h

theorem hexRun_cut (h : (hexRun (v ++ w)).length ≤ v.length) : hexRun v = hexRun (v ++ w) := by
  unfold hexRun at h ⊢
  rw [List.take_append] at h ⊢
  by_cases hlong : 6 ≤ v.length
  · rw [Nat.sub_eq_zero_of_le hlong, List.take_zero, List.append_nil]
  · rw [List.take_of_length_le (by omega)] at h ⊢
    exact takesOwn_takeWhile Text.isHexDigit v _ h

theorem escape?_cut (h : escape? (v ++ w) = some x) (hx : x.2 ≤ v.length) : escape? v = some x := by
  cases v with
  | nil => exact absurd (escape?_pos h) (by simpa using hx)
  | cons c v =>
    by_cases hfeed : c = '\n'
    · rw [List.cons_append, escape?, if_pos hfeed] at h
      cases h
    cases hhex : Text.isHexDigit c with
    | false =>
      rw [List.cons_append, escape?_other hfeed hhex] at h
      rw [escape?_other hfeed hhex, h]
    | true =>
      rw [List.cons_append, escape?_hex hfeed hhex, ← List.cons_append] at h
      obtain rfl := Option.some.inj h
      dsimp only at hx
      have hrun : hexRun (c :: v) = hexRun (c :: v ++ w) := hexRun_cut (by omega)
      rw [← hrun] at hx ⊢
      rw [List.drop_append_of_le_length (by omega)] at hx ⊢
      rw [escape?_hex hfeed hhex]
      cases hrest : (c :: v).drop (hexRun (c :: v)).length with
      | cons d u => rfl
      | nil =>
        rw [hrest] at hx
        have hlong := List.drop_eq_nil_iff.1 hrest
        split at hx
        · omega
        · next hblank =>
          rw [if_neg hblank]
          rfl

theorem escapeAt?_none (h : escapeAt? c (v ++ w) = none) : escapeAt? c v = none := by
  unfold escapeAt? at h ⊢
  split at h
  · next hc => rw [if_pos hc, escape?_none h]
  · next hc => rw [if_neg hc]

theorem escapeAt?_cut (h : escapeAt? c (v ++ w) = some x) (hx : x.2 ≤ v.length) :
    escapeAt? c v = some x := by
  unfold escapeAt? at h ⊢
  split at h
  · next hc => rw [if_pos hc, escape?_cut h hx]
  · cases h

theorem readName_cut : ReadsOwn readName
  | [], w, h => by
    rw [List.nil_append] at h ⊢
    rw [readName_zero (Nat.le_zero.1 h), readName.eq_def]
  | c :: v, w, h => by
    rw [List.cons_append] at h ⊢
    cases hc : isNameChar c with
    | true =>
      rw [readName_char hc] at h ⊢
      rw [readName_char hc, readName_cut v w (Nat.le_of_succ_le_succ h)]
    | false =>
      cases hx : escapeAt? c (v ++ w) with
      | none => rw [readName_other hc hx, readName_other hc (escapeAt?_none hx)]
      | some x =>
        rw [readName_escape hc hx] at h ⊢
        dsimp only [List.length_cons] at h
        rw [List.drop_append_of_le_length (by omega)] at h ⊢
        rw [readName_escape hc (escapeAt?_cut hx (by omega)),
          readName_cut (v.drop x.2) w (by rw [List.length_drop]; omega)]
termination_by v => v.length
decreasing_by all_goals simp only [List.length_drop, List.length_cons]; omega

theorem startsEscape_cut (h : startsEscape (v ++ w) = true) (hv : (readName (v ++ w)).2 ≤ v.length) :
    startsEscape v = true := by
  cases v with
  | nil => exact absurd (startsEscape_pos h) (by simpa using hv)
  | cons c v =>
    rw [List.cons_append] at h hv
    obtain ⟨x, hx⟩ := Option.isSome_iff_exists.1 h
    have hc : isNameChar c = false := by
      rw [eq_backslash_of_escapeAt? hx]
      rfl
    rw [readName_escape hc hx] at hv
    dsimp only [List.length_cons] at hv
    rw [startsEscape_cons, escapeAt?_cut hx (by omega)]
    rfl

theorem startsEscape_append (h : startsEscape v = true) (w : Text) : startsEscape (v ++ w) = true := by
  cases v with
  | nil => cases h
  | cons c v =>
    rw [List.cons_append, startsEscape_cons, ← Option.ne_none_iff_isSome]
    intro hnone
    rw [startsEscape_cons, escapeAt?_none hnone] at h
    cases h

theorem startsName_cut (h : startsName (v ++ w) = true) (hv : (readName (v ++ w)).2 ≤ v.length) :
    startsName v = true := by
  cases v with
  | nil => exact absurd (startsName_pos h) (by simpa using hv)
  | cons c v =>
    rw [List.cons_append] at h hv
    rw [startsName] at h ⊢
    split at h
    · next hc =>
      rw [if_pos hc]
      rw [readName_char (by rw [hc]; rfl)] at hv
      have hv := Nat.le_of_succ_le_succ hv
      rcases Bool.or_eq_true_iff.1 h with h | h
      · cases v with
        | nil =>
          have hpos : 0 < (readName w).2 := by
            cases w with
            | nil => cases h
            | cons d w =>
              have hd : isNameChar d = true := by
                rcases Bool.or_eq_true_iff.1 h with h | h
                · exact isNameChar_of_isNameStart h
                · simp [isNameChar, h]
              rw [readName_char hd]
              exact Nat.succ_pos _
          exact absurd hpos (by simpa using hv)
        | cons d v => exact Bool.or_eq_true_iff.2 (.inl h)
      · exact Bool.or_eq_true_iff.2 (.inr (startsEscape_cut h hv))
    · next hc =>
      rw [if_neg hc]
      exact Bool.or_eq_true_iff.2 ((Bool.or_eq_true_iff.1 h).imp_right fun h => startsEscape_cut h hv)

theorem startsName_append (h : startsName v = true) (w : Text) : startsName (v ++ w) = true := by
  cases v with
  | nil => cases h
  | cons c v =>
    rw [List.cons_append, startsName]
    rw [startsName] at h
    split at h
    · next hc =>
      rw [if_pos hc]
      refine Bool.or_eq_true_iff.2 ((Bool.or_eq_true_iff.1 h).imp (fun h => ?_) fun h => ?_)
      · cases v with
        | nil => cases h
        | cons d v => exact h
      · exact startsEscape_append h w
    · next hc =>
      rw [if_neg hc]
      exact Bool.or_eq_true_iff.2 ((Bool.or_eq_true_iff.1 h).imp_right fun h => startsEscape_append h w)

/-- Whether a name starts is not changed by cutting off what is behind it. -/
theorem startsName_eq (hv : startsName (v ++ w) = true → (readName (v ++ w)).2 ≤ v.length) :
    startsName (v ++ w) = startsName v :=
  Bool.eq_iff_iff.2 ⟨fun h => startsName_cut h (hv h), fun h => startsName_append h w⟩

theorem startsDigit_eq (h : (digitsOf (v ++ w)).length ≤ v.length) : startsDigit (v ++ w) = startsDigit v := by
  rw [Bool.eq_iff_iff, startsDigit_iff, startsDigit_iff]
  rw [show digitsOf v = digitsOf (v ++ w) from takesOwn_takeWhile Char.isDigit v w h]

theorem startsDigit_append (h : startsDigit v = true) (w : Text) : startsDigit (v ++ w) = true := by
  cases v with
  | nil => cases h
  | cons c v => exact h

theorem takesOwn_signOf : TakesOwn signOf := by
  intro v w h
  cases v with
  | nil => exact (List.length_eq_zero_iff.1 (Nat.le_zero.1 h)).symm
  | cons c v => rfl

theorem takesOwn_digitsOf : TakesOwn digitsOf := takesOwn_takeWhile Char.isDigit

theorem takesOwn_fractionOf : TakesOwn fractionOf := by
  intro v w h
  cases v with
  | nil => exact (List.length_eq_zero_iff.1 (Nat.le_zero.1 h)).symm
  | cons c v =>
    rw [List.cons_append, fractionOf] at h ⊢
    rw [fractionOf]
    split at h
    · next hpoint =>
      have hdigits := Nat.le_of_succ_le_succ h
      rw [if_pos hpoint, if_pos ⟨hpoint.1, startsDigit_eq hdigits ▸ hpoint.2⟩, takesOwn_digitsOf v w hdigits]
    · next hpoint =>
      rw [if_neg hpoint, if_neg fun hpoint' => hpoint ⟨hpoint'.1, startsDigit_append hpoint'.2 w⟩]

theorem signOf_append (hv : v ≠ []) (w : Text) : signOf (v ++ w) = signOf v := by
  cases v with
  | nil => exact absurd rfl hv
  | cons c v => rfl

theorem takesOwn_powerOf : TakesOwn powerOf := by
  intro v w h
  cases v with
  | nil => exact (List.length_eq_zero_iff.1 (Nat.le_zero.1 h)).symm
  | cons c v =>
    rw [List.cons_append, powerOf] at h ⊢
    rw [powerOf]
    split at h
    · next hpower =>
      rw [if_pos hpower]
      rw [List.length_append, List.length_cons, List.length_cons] at h
      have hsign : signOf v = signOf (v ++ w) := takesOwn_signOf v w (by omega)
      rw [← hsign] at h hpower ⊢
      rw [List.drop_append_of_le_length (by omega)] at h hpower ⊢
      have hdigits : (digitsOf (v.drop (signOf v).length ++ w)).length ≤
          (v.drop (signOf v).length).length := by
        rw [List.length_drop]
        omega
      rw [if_pos ⟨hpower.1, startsDigit_eq hdigits ▸ hpower.2⟩, takesOwn_digitsOf _ w hdigits]
    · next hpower =>
      rw [if_neg hpower, if_neg fun hpower' => hpower ⟨hpower'.1, ?_⟩]
      have hv : v ≠ [] := by
        rintro rfl
        exact Bool.false_ne_true hpower'.2
      have hsign : (signOf v).length ≤ v.length := by
        rw [signOf.eq_def]
        split
        · split <;> simp
        · exact Nat.zero_le _
      rw [signOf_append hv, List.drop_append_of_le_length hsign]
      exact startsDigit_append hpower'.2 w

theorem takesOwn_mantissaOf : TakesOwn mantissaOf := takesOwn_digitsOf.append takesOwn_fractionOf

theorem takesOwn_numeralOf : TakesOwn numeralOf := by
  intro v w h
  rw [numeralOf_eq, numeralOf_eq] at *
  exact takesOwn_signOf.append (takesOwn_mantissaOf.append takesOwn_powerOf) v w h

theorem startsNumber_cut (h : startsNumber (v ++ w) = true) (hv : (numeralOf (v ++ w)).length ≤ v.length) :
    startsNumber v = true := by
  rw [startsNumber_iff] at h ⊢
  rw [numeralOf_eq, List.length_append, List.length_append] at hv
  have hsign : signOf v = signOf (v ++ w) := takesOwn_signOf v w (by omega)
  rw [← hsign] at h hv
  rw [List.drop_append_of_le_length (by omega)] at h hv
  rwa [takesOwn_mantissaOf _ w (by rw [List.length_drop]; omega)]

theorem startsNumber_append (h : startsNumber v = true) (w : Text) : startsNumber (v ++ w) = true := by
  have hv : v ≠ [] := by
    rintro rfl
    exact Bool.false_ne_true h
  have hsign : (signOf v).length ≤ v.length := by
    rw [signOf.eq_def]
    split
    · split <;> simp
    · exact Nat.zero_le _
  unfold startsNumber at h ⊢
  dsimp only at h ⊢
  rw [signOf_append hv, List.drop_append_of_le_length hsign]
  generalize v.drop (signOf v).length = u at h ⊢
  cases u with
  | nil => cases h
  | cons c u =>
    refine Bool.or_eq_true_iff.2 ((Bool.or_eq_true_iff.1 h).imp (fun h => startsDigit_append h w) fun h => ?_)
    rw [Bool.and_eq_true] at h ⊢
    exact ⟨h.1, startsDigit_append h.2 w⟩

theorem readNumeric_cut : ReadsOwn readNumeric := by
  intro v w h
  have hn : (numeralOf (v ++ w)).length ≤ v.length := Nat.le_trans (numeralOf_le_readNumeric _) h
  unfold readNumeric at h ⊢
  dsimp only at h ⊢
  have hnumeral : numeralOf v = numeralOf (v ++ w) := takesOwn_numeralOf v w hn
  rw [← hnumeral] at h hn ⊢
  rw [List.drop_append_of_le_length hn] at h ⊢
  have hlength := List.length_drop (i := (numeralOf v).length) (l := v)
  generalize v.drop (numeralOf v).length = u at h hlength ⊢
  cases hname : startsName (u ++ w) with
  | true =>
    rw [if_pos hname] at h
    dsimp only at h
    have hu : (readName (u ++ w)).2 ≤ u.length := by omega
    rw [if_pos (startsName_cut hname hu), if_pos rfl, readName_cut u w hu]
  | false =>
    rw [if_neg (by simp [hname])] at h
    have hcut : startsName (u ++ w) = startsName u := startsName_eq fun h => by
      rw [hname] at h
      cases h
    rw [← hcut, hname, if_neg Bool.false_ne_true, if_neg Bool.false_ne_true]
    cases u with
    | cons d u => rfl
    | nil =>
      rw [if_neg (by simp), if_neg fun hpercent => ?_]
      rw [if_pos hpercent] at h
      dsimp only [List.length_nil] at h hlength
      omega

variable {q : Char}

/-- A string that ends is read the same; the line feed that breaks one off has to be there. -/
theorem readString_cut (h : (readString q (v ++ w)).2 ≤ v.length)
    (hbroken : (readString q (v ++ w)).1 = none → (readString q (v ++ w)).2 < v.length) :
    readString q v = readString q (v ++ w) := by
  induction hn : v.length using Nat.strongRecOn generalizing v with
  | ind n ih =>
  subst hn
  cases v with
  | nil =>
    rcases readString_zero (Nat.le_zero.1 h) with hw | hnone
    · rw [hw]
    · exact absurd (hbroken hnone) (Nat.not_lt_zero _)
  | cons c v =>
    rw [List.cons_append] at h hbroken ⊢
    dsimp only [List.length_cons] at h hbroken ih
    rcases readString_cases q c (v ++ w) with rfl | ⟨hquote, rfl⟩ | ⟨hquote, hfeed, x, hx⟩ |
      ⟨hquote, rfl, hvw⟩ | ⟨hquote, rfl, u, hvw⟩ | ⟨hquote, hfeed, hbackslash⟩
    · rw [readString_close, readString_close]
    · rw [readString_broken hquote, readString_broken hquote]
    · rw [readString_escapeAt hquote hfeed hx] at h hbroken ⊢
      dsimp only at h hbroken
      rw [List.drop_append_of_le_length (by omega)] at h hbroken ⊢
      have hlength := List.length_drop (i := x.2) (l := v)
      rw [readString_escapeAt hquote hfeed (escapeAt?_cut hx (by omega)),
        ih _ (by omega) (by omega) (fun hnone => ?_) rfl]
      have hlt := hbroken (by rw [hnone]; rfl)
      omega
    · rw [(List.append_eq_nil_iff.1 hvw).1, (List.append_eq_nil_iff.1 hvw).2]
      rfl
    · cases v with
      | nil =>
        rw [hvw, readString_continued hquote] at h
        exact absurd h (by simp)
      | cons d v =>
        obtain ⟨rfl, rfl⟩ := List.cons.inj hvw
        dsimp only [List.length_cons] at h hbroken ih
        rw [List.cons_append, readString_continued hquote] at h hbroken ⊢
        rw [readString_continued hquote, ih v.length (by omega) (Nat.le_of_add_le_add_right h)
          (fun hnone => Nat.lt_of_add_lt_add_right (hbroken hnone)) rfl]
    · rw [readString_other hquote hfeed hbackslash] at h hbroken ⊢
      rw [readString_other hquote hfeed hbackslash, ih v.length (by omega) (Nat.le_of_succ_le_succ h)
        (fun hnone => Nat.lt_of_succ_lt_succ (hbroken (by rw [hnone]; rfl))) rfl]

theorem badUrlRest_cut (h : badUrlRest (v ++ w) ≤ v.length) : badUrlRest v = badUrlRest (v ++ w) := by
  induction hn : v.length using Nat.strongRecOn generalizing v with
  | ind n ih =>
  subst hn
  cases v with
  | nil =>
    rw [List.nil_append] at h ⊢
    rw [badUrlRest_zero (Nat.le_zero.1 h)]
  | cons c v =>
    rw [List.cons_append] at h ⊢
    dsimp only [List.length_cons] at h ih
    by_cases hclose : c = ')'
    · rw [hclose, badUrlRest_close, badUrlRest_close]
    cases hx : escapeAt? c (v ++ w) with
    | some x =>
      rw [badUrlRest_escapeAt hclose hx] at h ⊢
      rw [List.drop_append_of_le_length (by omega)] at h ⊢
      have hlength := List.length_drop (i := x.2) (l := v)
      rw [badUrlRest_escapeAt hclose (escapeAt?_cut hx (by omega)), ih _ (by omega) (by omega) rfl]
    | none =>
      rw [badUrlRest_other hclose hx] at h ⊢
      rw [badUrlRest_other hclose (escapeAt?_none hx), ih v.length (by omega) (by omega) rfl]

theorem readUrl_cut (h : (readUrl (v ++ w)).2 ≤ v.length) : readUrl v = readUrl (v ++ w) := by
  induction hn : v.length using Nat.strongRecOn generalizing v with
  | ind n ih =>
  subst hn
  cases v with
  | nil =>
    rw [List.nil_append] at h ⊢
    rw [readUrl_zero (Nat.le_zero.1 h)]
  | cons c v =>
    rw [List.cons_append] at h ⊢
    dsimp only [List.length_cons] at h ih
    rcases readUrl_cases c (v ++ w) with rfl | ⟨hclose, hblank⟩ | ⟨hclose, hblank, hspoilt | ⟨hspoilt,
      ⟨x, hx⟩ | ⟨rfl, hx⟩ | hbackslash⟩⟩
    · rw [readUrl_close, readUrl_close]
    · rw [readUrl_blank hblank] at h
      have hrun : blanks (v ++ w) ≤ v.length := by
        split at h
        · exact Nat.le_of_succ_le_succ h
        · split at h <;> dsimp only at h <;> omega
      rw [readUrl_blank hblank, readUrl_blank hblank (v ++ w)]
      have hblanks := blanks_cut hrun
      rw [← hblanks] at h hrun ⊢
      rw [List.drop_append_of_le_length hrun] at h ⊢
      cases hdrop : v.drop (blanks v) with
      | nil =>
        have hlong := List.drop_eq_nil_iff.1 hdrop
        rw [hdrop, List.nil_append] at h
        cases w with
        | nil => rfl
        | cons d w =>
          -- what stops the blanks would have been taken too
          dsimp only at h
          split at h
          · dsimp only at h
            omega
          · dsimp only at h
            exact absurd (badUrlRest_zero (t := d :: w) (by omega)) (List.cons_ne_nil d w)
      | cons d u =>
        have hlength := congrArg List.length hdrop
        rw [List.length_drop, List.length_cons] at hlength
        rw [hdrop, List.cons_append] at h
        dsimp only [List.cons_append] at h ⊢
        split at h
        · next hd => rw [if_pos hd, if_pos hd]
        · next hd =>
          dsimp only at h
          have hrest : badUrlRest (d :: u) = badUrlRest (d :: u ++ w) :=
            badUrlRest_cut (by rw [List.cons_append, List.length_cons]; omega)
          rw [if_neg hd, if_neg hd, hrest, List.cons_append]
    · rw [readUrl_spoilt hclose hblank hspoilt] at h ⊢
      rw [readUrl_spoilt hclose hblank hspoilt, badUrlRest_cut (Nat.le_of_succ_le_succ h)]
    · rw [readUrl_escapeAt hclose hblank hspoilt hx] at h ⊢
      dsimp only at h
      rw [List.drop_append_of_le_length (by omega)] at h ⊢
      have hlength := List.length_drop (i := x.2) (l := v)
      rw [readUrl_escapeAt hclose hblank hspoilt (escapeAt?_cut hx (by omega)),
        ih _ (by omega) (by omega) rfl]
    · rw [readUrl_backslash hx] at h ⊢
      rw [readUrl_backslash (escapeAt?_none hx), badUrlRest_cut (Nat.le_of_succ_le_succ h)]
    · rw [readUrl_other hclose hblank hspoilt hbackslash] at h ⊢
      rw [readUrl_other hclose hblank hspoilt hbackslash,
        ih v.length (by omega) (Nat.le_of_succ_le_succ h) rfl]

/-- the tokens that only the code point behind them tells apart from others -/
def LooksOn : Token → Prop
  | .badString => True
  | .function name => name.lower = "url".toList
  | _ => False

theorem readFunction_cut {name : Text} (h : (readFunction name (v ++ w)).2 ≤ v.length)
    (hlooks : LooksOn (readFunction name (v ++ w)).1 → (readFunction name (v ++ w)).2 < v.length) :
    readFunction name v = readFunction name (v ++ w) := by
  by_cases hname : name.lower = "url".toList
  · have hrun : blanks (v ++ w) ≤ v.length := by
      cases hquote : ((v ++ w).drop (blanks (v ++ w))).head?.any Text.isQuote with
      | true => rwa [readFunction_quoted hname hquote] at h
      | false =>
        rw [readFunction_url hname hquote] at h
        exact Nat.le_of_add_right_le h
    have hblanks := blanks_cut hrun
    have hlength := List.length_drop (i := blanks v) (l := v)
    have hdrop : (v ++ w).drop (blanks (v ++ w)) = v.drop (blanks v) ++ w := by
      rw [← hblanks, List.drop_append_of_le_length (hblanks ▸ hrun)]
    cases hquote : ((v ++ w).drop (blanks (v ++ w))).head?.any Text.isQuote with
    | true =>
      rw [readFunction_quoted hname hquote] at hlooks ⊢
      have hlt : blanks (v ++ w) < v.length := hlooks hname
      rw [hdrop] at hquote
      rw [readFunction_quoted hname, hblanks]
      cases hrest : v.drop (blanks v) with
      | nil =>
        rw [hrest, List.length_nil] at hlength
        omega
      | cons d u =>
        rw [hrest] at hquote
        exact hquote
    | false =>
      rw [readFunction_url hname hquote] at h ⊢
      rw [hdrop] at h hquote ⊢
      dsimp only at h
      have haddress := readUrl_cut (v := v.drop (blanks v)) (w := w) (by omega)
      rw [readFunction_url hname, ← hblanks, haddress]
      cases hrest : v.drop (blanks v) with
      | nil => rfl
      | cons d u =>
        rw [hrest] at hquote
        exact hquote
  · rw [readFunction_other hname, readFunction_other hname]

theorem readNamed_cut (h : (readNamed (v ++ w)).2 ≤ v.length)
    (hlooks : LooksOn (readNamed (v ++ w)).1 → (readNamed (v ++ w)).2 < v.length) :
    readNamed v = readNamed (v ++ w) := by
  have hrun : (readName (v ++ w)).2 ≤ v.length := Nat.le_trans (readName_le_readNamed _) h
  have hname := readName_cut v w hrun
  have hlength := List.length_drop (i := (readName v).2) (l := v)
  have hdrop : (v ++ w).drop (readName (v ++ w)).2 = v.drop (readName v).2 ++ w := by
    rw [← hname, List.drop_append_of_le_length (hname ▸ hrun)]
  by_cases hparen : ((v ++ w).drop (readName (v ++ w)).2).head? = some '('
  · obtain ⟨u, hu⟩ := List.head?_eq_some_iff.1 hparen
    rw [readNamed_function hu] at h hlooks ⊢
    rw [hdrop] at hu
    dsimp only at h hlooks
    cases hrest : v.drop (readName v).2 with
    | nil =>
      rw [hrest, List.length_nil] at hlength
      rw [← hname] at h
      omega
    | cons d u' =>
      rw [hrest] at hu hlength
      rw [List.cons_append] at hu
      obtain ⟨rfl, rfl⟩ := List.cons.inj hu
      rw [List.length_cons] at hlength
      rw [← hname] at h hlooks ⊢
      have hfunction : readFunction (readName v).1 u' = readFunction (readName v).1 (u' ++ w) :=
        readFunction_cut (by omega) fun hl => by
          have hlt := hlooks hl
          omega
      rw [readNamed_function hrest, hfunction]
  · rw [readNamed_ident hparen]
    rw [hdrop] at hparen
    rw [readNamed_ident, hname]
    cases hrest : v.drop (readName v).2 with
    | nil => exact fun hnone => nomatch hnone
    | cons d u =>
      rw [hrest] at hparen
      exact hparen

theorem readName_pos_append (h : 0 < (readName v).2) (w : Text) : 0 < (readName (v ++ w)).2 := by
  rw [readName_pos_iff] at h ⊢
  cases v with
  | nil => rcases h with h | h <;> cases h
  | cons d v => exact h.imp_right fun h => startsEscape_append h w

theorem read_bare_cut (hbare : Bare c) (h : (read c (v ++ w)).2 ≤ v.length)
    (hlooks : LooksOn (read c (v ++ w)).1 → (read c (v ++ w)).2 < v.length) :
    read c v = read c (v ++ w) := by
  rw [read_bare hbare] at h hlooks ⊢
  rw [read_bare hbare]
  by_cases hhash : c = '#' ∧ 0 < (readName (v ++ w)).2
  · rw [if_pos hhash] at h ⊢
    have hname := readName_cut v w h
    rw [if_pos (hname ▸ hhash), hname]
  rw [if_neg hhash] at h hlooks ⊢
  rw [if_neg fun hhash' => hhash (hhash'.imp_right fun hpos => readName_pos_append hpos w)]
  by_cases hat : c = '@' ∧ startsName (v ++ w) = true
  · rw [if_pos hat] at h ⊢
    rw [if_pos (hat.imp_right fun hstarts => startsName_cut hstarts h), readName_cut v w h]
  rw [if_neg hat] at h hlooks ⊢
  rw [if_neg fun hat' => hat (hat'.imp_right fun hstarts => startsName_append hstarts w)]
  rw [← List.cons_append] at h hlooks ⊢
  by_cases hnumber : startsNumber (c :: v ++ w) = true
  · rw [if_pos hnumber] at h ⊢
    have hle : (readNumeric (c :: v ++ w)).2 ≤ (c :: v).length := Nat.le_add_of_sub_le h
    have hstarts := startsNumber_cut hnumber (Nat.le_trans (numeralOf_le_readNumeric _) hle)
    rw [if_pos hstarts, readNumeric_cut _ w hle]
  rw [if_neg hnumber] at h hlooks ⊢
  rw [if_neg fun hnumber' => hnumber (startsNumber_append hnumber' w)]
  by_cases hname : startsName (c :: v ++ w) = true
  · rw [if_pos hname] at h hlooks ⊢
    have hle : (readNamed (c :: v ++ w)).2 ≤ (c :: v).length := Nat.le_add_of_sub_le h
    have hlt (hl : LooksOn (readNamed (c :: v ++ w)).1) : (readNamed (c :: v ++ w)).2 < (c :: v).length := by
      have hlt := hlooks hl
      rw [List.length_cons]
      dsimp only at hlt
      omega
    have hstarts := startsName_cut hname (Nat.le_trans (readName_le_readNamed _) hle)
    rw [if_pos hstarts, readNamed_cut hle hlt]
  rw [if_neg hname]
  rw [if_neg fun hname' => hname (startsName_append hname' w)]

/-- A token is read the same when the text behind it is cut off. Where what is behind decides what it is,
one code point of that has to stay. -/
theorem read_cut (h : (read c (v ++ w)).2 ≤ v.length)
    (hlooks : LooksOn (read c (v ++ w)).1 → (read c (v ++ w)).2 < v.length) :
    read c v = read c (v ++ w) := by
  cases hblank : isBlank c with
  | true =>
    rw [read_blank hblank] at h ⊢
    rw [read_blank hblank, blanks_cut h]
  | false =>
    cases hquote : Text.isQuote c with
    | true =>
      rw [read_quote hquote] at h hlooks ⊢
      rw [read_quote hquote, readString_cut h fun hnone => hlooks (by rw [hnone]; trivial)]
    | false => exact read_bare_cut ⟨hblank, hquote⟩ h hlooks

end StyleMiner.Token
