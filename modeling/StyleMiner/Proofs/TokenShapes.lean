import StyleMiner.Proofs.TokenReach

/-! What tokens look like. Where nothing is escaped a name is the longest run of its code points, an address has
neither blanks nor quotation marks in it, and a string that does not hold its own quotation mark goes up to the
next one. -/

namespace StyleMiner.Token

variable {t u a content : Text} {c q : Char} {x : Char × Nat}

theorem readName_unescaped (h : '\\' ∉ t.take (readName t).2) :
    readName t = (t.takeWhile isNameChar, (t.takeWhile isNameChar).length) := by
  induction t with
  | nil => rw [readName.eq_def]; rfl
  | cons c t ih =>
    cases hc : isNameChar c with
    | true =>
      rw [readName_char hc] at h ⊢
      rw [List.takeWhile_cons_of_pos hc, ih fun hmem => h (List.mem_cons_of_mem c hmem)]
      rfl
    | false =>
      cases hx : escapeAt? c t with
      | some x =>
        rw [readName_escape hc hx, eq_backslash_of_escapeAt? hx, List.take_succ_cons] at h
        exact absurd (List.mem_cons_self ..) h
      | none =>
        rw [readName_other hc hx, List.takeWhile_cons_of_neg (by simp [hc])]
        rfl

/-- Nothing of a name is left behind it. -/
theorem readName_rest (t : Text) : (readName (t.drop (readName t).2)).2 = 0 := by
  induction hn : t.length using Nat.strongRecOn generalizing t with
  | ind n ih =>
  subst hn
  cases t with
  | nil => rw [List.drop_nil, readName.eq_def]
  | cons c t =>
    cases hc : isNameChar c with
    | true =>
      rw [readName_char hc]
      exact ih t.length (Nat.lt_succ_self _) t rfl
    | false =>
      cases hx : escapeAt? c t with
      | some x =>
        have hlength := List.length_drop (i := x.2) (l := t)
        rw [readName_escape hc hx, List.drop_succ_cons, Nat.add_comm, ← List.drop_drop]
        exact ih _ (by rw [List.length_cons]; omega) _ rfl
      | none => rw [readName_other hc hx, List.drop_zero, readName_other hc hx]

theorem startsName_rest (t : Text) : startsName (t.drop (readName t).2) = false := by
  cases h : startsName (t.drop (readName t).2) with
  | false => rfl
  | true => exact absurd (startsName_pos h) (by rw [readName_rest]; exact Nat.lt_irrefl 0)

theorem take_takeWhile {α : Type} (p : α → Bool) (l : List α) : l.take (l.takeWhile p).length = l.takeWhile p :=
  (List.prefix_iff_eq_take.1 (List.takeWhile_prefix p)).symm

theorem isBlank_of_mem_take (h : c ∈ t.take (blanks t)) : isBlank c = true := by
  rw [blanks, take_takeWhile] at h
  exact List.all_eq_true.1 List.all_takeWhile c h

/-- the code points of an address in which nothing is escaped -/
def IsAddress (a : Text) : Prop := ∀ c ∈ a, isBlank c = false ∧ Text.isQuote c = false ∧ c ≠ '(' ∧ c ≠ ')'

theorem readUrl_unescaped (h : (readUrl t).1 = some a) (hplain : '\\' ∉ t.take (readUrl t).2) :
    IsAddress a ∧ ∃ bs, (∀ b ∈ bs, isBlank b = true) ∧
      (t.take (readUrl t).2 = a ++ (bs ++ [')']) ∨ t.take (readUrl t).2 = a ++ bs ∧ t.drop (readUrl t).2 = []) := by
  induction t generalizing a with
  | nil =>
    rw [readUrl.eq_def] at h
    obtain rfl := Option.some.inj h
    exact ⟨fun _ hc => (nomatch hc), [], fun _ hb => (nomatch hb), .inr ⟨List.take_nil, List.drop_nil⟩⟩
  | cons c t ih =>
    rcases readUrl_cases c t with rfl | ⟨hclose, hblank⟩ | ⟨hclose, hblank, hspoilt | ⟨hspoilt, ⟨x, hx⟩ |
      ⟨rfl, hx⟩ | hbackslash⟩⟩
    · rw [readUrl_close] at h ⊢
      obtain rfl := Option.some.inj h
      exact ⟨fun _ hc => (nomatch hc), [], fun _ hb => (nomatch hb), .inl rfl⟩
    · rw [readUrl_blank hblank] at h ⊢
      have hbs : ∀ b ∈ c :: t.take (blanks t), isBlank b = true := by
        intro b hb
        rcases List.mem_cons.1 hb with rfl | hb
        · exact hblank
        · exact isBlank_of_mem_take hb
      cases hrest : t.drop (blanks t) with
      | nil =>
        rw [hrest] at h
        obtain rfl := Option.some.inj h
        exact ⟨fun _ hc => (nomatch hc), _, hbs, .inr ⟨rfl, hrest⟩⟩
      | cons d u =>
        rw [hrest] at h
        dsimp only at h ⊢
        split at h
        · next hd =>
          obtain rfl := Option.some.inj h
          refine ⟨fun _ hc => (nomatch hc), _, hbs, .inl ?_⟩
          rw [if_pos hd, List.nil_append, List.take_succ_cons, List.take_add, hrest, hd]
          rfl
        · cases h
    · rw [readUrl_spoilt hclose hblank hspoilt] at h
      cases h
    · rw [readUrl_escapeAt hclose hblank hspoilt hx, eq_backslash_of_escapeAt? hx, List.take_succ_cons] at hplain
      exact absurd (List.mem_cons_self ..) hplain
    · rw [readUrl_backslash hx] at h
      cases h
    · rw [readUrl_other hclose hblank hspoilt hbackslash] at h hplain ⊢
      obtain ⟨b, hb, rfl⟩ := Option.map_eq_some_iff.1 h
      obtain ⟨haddress, bs, hbs, htext⟩ := ih hb fun hmem => hplain (List.mem_cons_of_mem c hmem)
      rw [not_or] at hspoilt
      refine ⟨fun d hd => ?_, bs, hbs, ?_⟩
      · rcases List.mem_cons.1 hd with rfl | hd
        · exact ⟨hblank, Bool.eq_false_iff.2 hspoilt.1, hspoilt.2, hclose⟩
        · exact haddress d hd
      · rw [List.take_succ_cons, List.drop_succ_cons]
        rcases htext with htext | ⟨htext, hend⟩
        · exact .inl (by rw [htext]; rfl)
        · exact .inr ⟨by rw [htext]; rfl, hend⟩

theorem escape?_spelled (h : escape? t = some x) (hx : x.1 ≠ q) (hquote : Text.isQuote q = true) :
    q ∉ t.take x.2 := by
  have hhex : Text.isHexDigit q = false ∧ isBlank q = false := by
    rcases Text.isQuote_iff.1 hquote with rfl | rfl <;> decide
  cases t with
  | nil => cases h
  | cons c t =>
    by_cases hfeed : c = '\n'
    · rw [escape?, if_pos hfeed] at h
      cases h
    cases hc : Text.isHexDigit c with
    | false =>
      rw [escape?_other hfeed hc] at h
      obtain rfl := Option.some.inj h
      exact fun hmem => hx (List.mem_singleton.1 hmem).symm
    | true =>
      rw [escape?_hex hfeed hc] at h
      obtain rfl := Option.some.inj h
      have hrun : (c :: t).take (hexRun (c :: t)).length = hexRun (c :: t) :=
        (List.prefix_iff_eq_take.1 ((List.takeWhile_prefix _).trans (List.take_prefix 6 _))).symm
      rw [List.take_add, hrun, List.mem_append, not_or]
      refine ⟨fun hmem => ?_, fun hmem => ?_⟩
      · rw [List.all_eq_true.1 List.all_takeWhile q hmem] at hhex
        exact Bool.noConfusion hhex.1
      · split at hmem
        · next hblank =>
          cases hrest : (c :: t).drop (hexRun (c :: t)).length with
          | nil =>
            rw [hrest] at hmem
            cases hmem
          | cons d u =>
            rw [hrest] at hmem hblank
            obtain rfl := List.mem_singleton.1 hmem
            exact absurd hblank (by simp [hhex.2])
        · exact List.not_mem_nil hmem

theorem escape?_le (h : escape? t = some x) : x.2 ≤ t.length := by
  cases t with
  | nil => cases h
  | cons c t =>
    by_cases hfeed : c = '\n'
    · rw [escape?, if_pos hfeed] at h
      cases h
    cases hc : Text.isHexDigit c with
    | false =>
      rw [escape?_other hfeed hc] at h
      obtain rfl := Option.some.inj h
      exact Nat.le_add_left ..
    | true =>
      rw [escape?_hex hfeed hc] at h
      obtain rfl := Option.some.inj h
      have hrun := ((List.takeWhile_prefix Text.isHexDigit).trans (List.take_prefix 6 (c :: t))).length_le
      change (hexRun (c :: t)).length ≤ _ at hrun
      dsimp only
      split
      · next hblank =>
        have hlength := List.length_drop (i := (hexRun (c :: t)).length) (l := c :: t)
        cases hrest : (c :: t).drop (hexRun (c :: t)).length with
        | nil =>
          rw [hrest] at hblank
          cases hblank
        | cons d u =>
          rw [hrest, List.length_cons] at hlength
          omega
      · exact hrun

/-- A string that does not hold the mark it stands in goes up to the first of these. -/
theorem readString_body (hquote : Text.isQuote q = true) (h : (readString q t).1 = some content)
    (hq : q ∉ content) : ∃ body, q ∉ body ∧ (readString q body).1 = some content ∧
      (t.take (readString q t).2 = body ++ [q] ∨
        t.take (readString q t).2 = body ∧ t.drop (readString q t).2 = []) := by
  induction hn : t.length using Nat.strongRecOn generalizing t content with
  | ind n ih =>
  subst hn
  cases t with
  | nil => exact ⟨[], List.not_mem_nil, h, .inr ⟨List.take_nil, List.drop_nil⟩⟩
  | cons c t =>
    dsimp only [List.length_cons] at ih
    rcases readString_cases q c t with rfl | ⟨hne, rfl⟩ | ⟨hne, hfeed, x, hx⟩ | ⟨hne, rfl, rfl⟩ |
      ⟨hne, rfl, u, rfl⟩ | ⟨hne, hfeed, hbackslash⟩
    · rw [readString_close] at h ⊢
      exact ⟨[], List.not_mem_nil, by rw [readString.eq_def]; exact h, .inl rfl⟩
    · rw [readString_broken hne] at h
      cases h
    · rw [readString_escapeAt hne hfeed hx] at h ⊢
      obtain ⟨rest, hrest, rfl⟩ := Option.map_eq_some_iff.1 h
      rw [List.mem_cons, not_or] at hq
      have hlength := List.length_drop (i := x.2) (l := t)
      obtain ⟨body, hbody, hread, htext⟩ := ih (t.drop x.2).length (by omega) hrest hq.2 rfl
      obtain rfl := eq_backslash_of_escapeAt? hx
      have hspelled := escape?_spelled hx (Ne.symm hq.1) hquote
      have htake : (t.take x.2).length = x.2 := List.length_take_of_le (escape?_le hx)
      obtain ⟨w, hw⟩ : ∃ w, t.drop x.2 = body ++ w := by
        rw [← List.take_append_drop (readString q (t.drop x.2)).2 (t.drop x.2)]
        rcases htext with htext | ⟨htext, hend⟩
        · exact ⟨[q] ++ _, by rw [htext, List.append_assoc]⟩
        · exact ⟨[], by rw [htext, hend]⟩
      -- the escape ends where it ended in front of more
      have hx' : escapeAt? '\\' (t.take x.2 ++ body) = some x := by
        refine escapeAt?_cut (w := w) ?_ (by rw [List.length_append, htake]; exact Nat.le_add_right ..)
        rwa [List.append_assoc, ← hw, List.take_append_drop]
      refine ⟨'\\' :: (t.take x.2 ++ body), ?_, ?_, ?_⟩
      · rw [List.mem_cons, List.mem_append, not_or, not_or]
        exact ⟨hne.symm, hspelled, hbody⟩
      · rw [readString_escapeAt hne hfeed hx', List.drop_left' htake, hread]
        rfl
      · rw [Nat.add_comm _ x.2, List.take_succ_cons, List.drop_succ_cons, List.take_add, ← List.drop_drop]
        refine htext.imp (fun htext => ?_) (.imp (fun htext => ?_) id)
        · rw [htext, ← List.append_assoc]
          rfl
        · rw [htext]
    · rw [readString_unfinished hne] at h ⊢
      exact ⟨['\\'], fun hmem => hne (List.mem_singleton.1 hmem).symm, by rw [readString_unfinished hne]; exact h,
        .inr ⟨rfl, rfl⟩⟩
    · rw [readString_continued hne] at h ⊢
      obtain ⟨body, hbody, hread, htext⟩ := ih u.length (by rw [List.length_cons]; omega) h hq rfl
      refine ⟨'\\' :: '\n' :: body, ?_, by rw [readString_continued hne]; exact hread, ?_⟩
      · rw [List.mem_cons, List.mem_cons, not_or, not_or]
        exact ⟨hne.symm, fun hfeed => absurd hquote (by rw [hfeed]; decide), hbody⟩
      · exact htext.imp (fun htext => by rw [List.take_succ_cons, List.take_succ_cons, htext]; rfl)
          (.imp (fun htext => by rw [List.take_succ_cons, List.take_succ_cons, htext]) id)
    · rw [readString_other hne hfeed hbackslash] at h ⊢
      obtain ⟨rest, hrest, rfl⟩ := Option.map_eq_some_iff.1 h
      rw [List.mem_cons, not_or] at hq
      obtain ⟨body, hbody, hread, htext⟩ := ih t.length (Nat.lt_succ_self _) hrest hq.2 rfl
      refine ⟨c :: body, ?_, by rw [readString_other hne hfeed hbackslash, hread]; rfl, ?_⟩
      · rw [List.mem_cons, not_or]
        exact ⟨hne.symm, hbody⟩
      · exact htext.imp (fun htext => by rw [List.take_succ_cons, htext]; rfl)
          (.imp (fun htext => by rw [List.take_succ_cons, htext]) id)

/-- the code points of a numeral -/
def InNumeral (c : Char) : Prop := c.isDigit = true ∨ c = '+' ∨ c = '-' ∨ c = '.' ∨ c = 'e' ∨ c = 'E'

/-- a reader of what stands in front, of code points of numerals -/
structure Piece (f : Text → Text) : Prop where
  front : ∀ t, f t <+: t
  chars : ∀ t, ∀ c ∈ f t, InNumeral c

theorem Piece.append {f g : Text → Text} (hf : Piece f) (hg : Piece g) :
    Piece fun t => f t ++ g (t.drop (f t).length) where
  front t := by
    have hsplit := List.prefix_iff_eq_append.1 (hf.front t)
    obtain ⟨w, hw⟩ := hg.front (t.drop (f t).length)
    exact ⟨w, by rw [List.append_assoc, hw, hsplit]⟩
  chars t c hc := (List.mem_append.1 hc).elim (hf.chars t c) (hg.chars _ c)

theorem isDigit_of_mem_digitsOf (h : c ∈ digitsOf t) : c.isDigit = true := List.all_eq_true.1 List.all_takeWhile c h

theorem piece_digitsOf : Piece digitsOf where
  front _ := List.takeWhile_prefix _
  chars _ _ hc := .inl (isDigit_of_mem_digitsOf hc)

theorem piece_signOf : Piece signOf where
  front t := by
    rw [signOf.eq_def]
    split
    · split
      · exact List.prefix_append [_] _
      · exact List.nil_prefix
    · exact List.nil_prefix
  chars t c hc := by
    rw [signOf.eq_def] at hc
    split at hc
    · split at hc
      · next hsign =>
        rw [List.mem_singleton.1 hc]
        exact hsign.elim (fun h => .inr (.inl h)) fun h => .inr (.inr (.inl h))
      · cases hc
    · cases hc

theorem piece_fractionOf : Piece fractionOf where
  front t := by
    rw [fractionOf.eq_def]
    split
    · split
      · exact List.cons_prefix_cons.2 ⟨rfl, List.takeWhile_prefix _⟩
      · exact List.nil_prefix
    · exact List.nil_prefix
  chars t c hc := by
    rw [fractionOf.eq_def] at hc
    split at hc
    · split at hc
      · next hpoint =>
        rcases List.mem_cons.1 hc with rfl | hc
        · exact .inr (.inr (.inr (.inl hpoint.1)))
        · exact .inl (isDigit_of_mem_digitsOf hc)
      · cases hc
    · cases hc

theorem piece_powerOf : Piece powerOf where
  front t := by
    rw [powerOf.eq_def]
    split
    · split
      · exact List.cons_prefix_cons.2 ⟨rfl, (piece_signOf.append piece_digitsOf).front _⟩
      · exact List.nil_prefix
    · exact List.nil_prefix
  chars t c hc := by
    rw [powerOf.eq_def] at hc
    split at hc
    · split at hc
      · next hpower =>
        rcases List.mem_cons.1 hc with rfl | hc
        · exact hpower.1.elim (fun h => .inr (.inr (.inr (.inr (.inl h))))) fun h => .inr (.inr (.inr (.inr (.inr h))))
        · exact (piece_signOf.append piece_digitsOf).chars _ c hc
      · cases hc
    · cases hc

theorem piece_mantissaOf : Piece mantissaOf := piece_digitsOf.append piece_fractionOf

theorem piece_numeralOf : Piece numeralOf := by
  rw [funext numeralOf_eq]
  exact piece_signOf.append (piece_mantissaOf.append piece_powerOf)

/-- what ends, if there is any of it, in a digit -/
def EndsInDigit (t : Text) : Prop := ∀ c ∈ t.getLast?, c.isDigit = true

theorem EndsInDigit.append (ht : EndsInDigit t) (hu : EndsInDigit u) : EndsInDigit (t ++ u) := by
  intro c hc
  cases hlast : u.getLast? with
  | none => exact ht c (by rwa [List.getLast?_eq_none_iff.1 hlast, List.append_nil] at hc)
  | some d => exact hu c (by rwa [List.getLast?_append, hlast, Option.some_or, ← hlast] at hc)

theorem endsInDigit_digitsOf (t : Text) : EndsInDigit (digitsOf t) :=
  fun _ hc => isDigit_of_mem_digitsOf (List.mem_of_getLast? hc)

theorem endsInDigit_behind (h : startsDigit t = true) (u : Text) : EndsInDigit (u ++ digitsOf t) := by
  intro c hc
  rw [List.getLast?_append_of_ne_nil u ((startsDigit_iff t).1 h)] at hc
  exact endsInDigit_digitsOf t c hc

theorem endsInDigit_fractionOf (t : Text) : EndsInDigit (fractionOf t) := by
  rw [fractionOf.eq_def]
  split
  · split
    · next hpoint => exact endsInDigit_behind hpoint.2 [_]
    · exact fun _ hc => nomatch hc
  · exact fun _ hc => nomatch hc

theorem endsInDigit_powerOf (t : Text) : EndsInDigit (powerOf t) := by
  rw [powerOf.eq_def]
  split
  · split
    · next hpower => exact endsInDigit_behind hpower.2 (_ :: _)
    · exact fun _ hc => nomatch hc
  · exact fun _ hc => nomatch hc

theorem endsInDigit_mantissaOf (t : Text) : EndsInDigit (mantissaOf t) :=
  (endsInDigit_digitsOf t).append (endsInDigit_fractionOf _)

/-- A numeral ends in a digit. -/
theorem numeralOf_getLast (h : startsNumber t = true) : ∃ n d, numeralOf t = n ++ [d] ∧ d.isDigit = true := by
  rw [startsNumber_iff] at h
  rw [numeralOf_eq]
  generalize t.drop (signOf t).length = u at *
  have hlast := (endsInDigit_mantissaOf u).append (endsInDigit_powerOf (u.drop (mantissaOf u).length))
  cases List.eq_nil_or_concat (mantissaOf u ++ powerOf (u.drop (mantissaOf u).length)) with
  | inl hnil => exact absurd (List.append_eq_nil_iff.1 hnil).1 h
  | inr hconcat =>
    obtain ⟨n, d, hnd⟩ := hconcat
    rw [hnd, List.concat_eq_append] at hlast ⊢
    exact ⟨signOf t ++ n, d, (List.append_assoc ..).symm, hlast d List.getLast?_concat⟩

end StyleMiner.Token
