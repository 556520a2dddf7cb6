import StyleMiner.Proofs.Excerpts
import StyleMiner.Proofs.Spelling
import StyleMiner.Proofs.TokenShapes

/-! Where a token stops whatever is behind it. A code point that goes on with no token ends the one in front of it, the
quotation mark that a string stands in ends the string, and a parenthesis an address. So what a token is read as does
not change when the text behind such a code point does. -/

namespace StyleMiner.Token

variable {c d q : Char} {t v w z body : Text}

/-- a code point that goes on with a token, if one began in front of it -/
def ahead (c : Char) : Bool := isNameChar c || c == '.' || c == '+' || c == '%'

theorem ahead_of_inNumeral (h : InNumeral c) : ahead c = true := by
  rcases h with h | rfl | rfl | rfl | rfl | rfl
  · simp [ahead, isNameChar, h]
  all_goals decide

theorem readName_stops (hslash : '\\' ∉ v) (hd : isNameChar d = false) (hd' : d ≠ '\\') (z : Text) :
    (readName (v ++ d :: z)).2 ≤ v.length := by
  induction v with
  | nil =>
    rw [List.nil_append, readName_other hd (escapeAt?_ne hd' z)]
    exact Nat.le_refl 0
  | cons c v ih =>
    rw [List.mem_cons, not_or] at hslash
    rw [List.cons_append]
    cases hc : isNameChar c with
    | true =>
      rw [readName_char hc]
      exact Nat.succ_le_succ (ih hslash.2)
    | false =>
      rw [readName_other hc (escapeAt?_ne (Ne.symm hslash.1) _)]
      exact Nat.zero_le _

theorem length_le_of_front (hw : w <+: v ++ d :: z) (hd : d ∉ w) : w.length ≤ v.length := by
  by_contra hlong
  have hfront : v ++ [d] <+: w := by
    refine List.prefix_of_prefix_length_le ⟨z, by simp⟩ hw ?_
    rw [List.length_append]
    exact Nat.lt_of_not_le hlong
  exact hd (hfront.subset List.mem_concat_self)

theorem numeralOf_stops (hd : ahead d = false) (v z : Text) : (numeralOf (v ++ d :: z)).length ≤ v.length := by
  refine length_le_of_front (piece_numeralOf.front _) fun hmem => ?_
  rw [ahead_of_inNumeral (piece_numeralOf.chars _ d hmem)] at hd
  cases hd

theorem isNameChar_of_not_ahead (h : ahead d = false) : isNameChar d = false := by
  simp only [ahead, Bool.or_eq_false_iff] at h
  exact h.1.1.1

theorem readNumeric_stops (hslash : '\\' ∉ v) (hd : ahead d = false) (hd' : d ≠ '\\') (z : Text) :
    (readNumeric (v ++ d :: z)).2 ≤ v.length := by
  have hnumeral := numeralOf_stops hd v z
  unfold readNumeric
  dsimp only
  rw [List.drop_append_of_le_length hnumeral]
  have hlength := List.length_drop (i := (numeralOf (v ++ d :: z)).length) (l := v)
  have hrest : '\\' ∉ v.drop (numeralOf (v ++ d :: z)).length := fun hmem => hslash (List.mem_of_mem_drop hmem)
  generalize v.drop (numeralOf (v ++ d :: z)).length = w at hlength hrest ⊢
  split
  · have hunit := readName_stops hrest (isNameChar_of_not_ahead hd) hd' z
    dsimp only
    omega
  split
  · next hpercent =>
    cases w with
    | nil =>
      obtain rfl : d = '%' := Option.some.inj hpercent
      exact absurd hd (by decide)
    | cons e w =>
      rw [List.length_cons] at hlength
      dsimp only
      omega
  · exact hnumeral

theorem readNamed_stops (hslash : '\\' ∉ v) (hparen : '(' ∉ v) (hd : ahead d = false) (hd' : d ≠ '\\')
    (hurl : d = '(' → v.lower ≠ "url".toList) (z : Text) :
    (readNamed (v ++ d :: z)).2 ≤ v.length + (if d = '(' then 1 else 0) ∧ ¬ LooksOn (readNamed (v ++ d :: z)).1 := by
  have hname := readName_stops hslash (isNameChar_of_not_ahead hd) hd' z
  by_cases hopen : ((v ++ d :: z).drop (readName (v ++ d :: z)).2).head? = some '('
  · rw [List.drop_append_of_le_length hname] at hopen
    cases hrest : v.drop (readName (v ++ d :: z)).2 with
    | cons e w =>
      rw [hrest] at hopen
      obtain rfl : e = '(' := Option.some.inj hopen
      exact absurd (List.mem_of_mem_drop (hrest ▸ List.mem_cons_self ..)) hparen
    | nil =>
      rw [hrest] at hopen
      obtain rfl : d = '(' := Option.some.inj hopen
      have hwhole : (readName (v ++ '(' :: z)).2 = v.length := Nat.le_antisymm hname (List.drop_eq_nil_iff.1 hrest)
      have htext : (readName (v ++ '(' :: z)).1 = v := by
        have hfirst := readName_unescaped (t := v ++ '(' :: z) (by rwa [hwhole, List.take_left])
        have htake := take_takeWhile isNameChar (v ++ '(' :: z)
        rw [congrArg Prod.snd hfirst] at hwhole
        dsimp only at hwhole
        rw [hwhole, List.take_left] at htake
        rw [hfirst, ← htake]
      have hother : (readName (v ++ '(' :: z)).1.lower ≠ "url".toList := by
        rw [htext]
        exact hurl rfl
      rw [readNamed_function (u := z) (by rw [hwhole, List.drop_left]), readFunction_other hother, hwhole]
      exact ⟨Nat.le_refl _, hother⟩
  · rw [readNamed_ident hopen]
    exact ⟨Nat.le_add_right_of_le hname, id⟩

/-- What is behind a code point that goes on with no token has no part in the token in front of it, unless that
opens an address. -/
theorem read_stops (hbare : Bare c) (hslash : '\\' ∉ c :: v) (hparen : '(' ∉ v) (hd : ahead d = false)
    (hd' : d ≠ '\\') (hurl : d = '(' → Text.lower (c :: v) ≠ "url".toList) (z : Text) :
    (read c (v ++ d :: z)).2 ≤ v.length + (if d = '(' then 1 else 0) ∧ ¬ LooksOn (read c (v ++ d :: z)).1 := by
  have hslash' : '\\' ∉ v := fun hmem => hslash (List.mem_cons_of_mem c hmem)
  have hname := readName_stops hslash' (isNameChar_of_not_ahead hd) hd' z
  rw [read_bare hbare]
  split
  · exact ⟨Nat.le_add_right_of_le hname, id⟩
  split
  · exact ⟨Nat.le_add_right_of_le hname, id⟩
  rw [← List.cons_append]
  split
  · have hnumeric := readNumeric_stops hslash hd hd' z
    rw [List.length_cons] at hnumeric
    exact ⟨by dsimp only; omega, (numeric_readNumeric _).not_looksOn⟩
  split
  · next hstarts =>
    have hpos : c ≠ '(' := by
      rintro rfl
      cases hstarts
    obtain ⟨hnamed, hlooks⟩ := readNamed_stops hslash (by
      rw [List.mem_cons, not_or]
      exact ⟨hpos.symm, hparen⟩) hd hd' hurl z
    rw [List.length_cons] at hnamed
    exact ⟨by dsimp only; omega, hlooks⟩
  · refine ⟨Nat.zero_le _, ?_⟩
    dsimp only
    unfold punctuation?
    split <;> exact id

theorem read_stopped (hbare : Bare c) (hslash : '\\' ∉ c :: v) (hparen : '(' ∉ v) (hd : ahead d = false)
    (hd' : d ≠ '\\') (hurl : d = '(' → Text.lower (c :: v) ≠ "url".toList) (z : Text) :
    read c (v ++ d :: z) = read c (v ++ [d]) := by
  obtain ⟨hle, hlooks⟩ := read_stops hbare hslash hparen hd hd' hurl z
  have hcut := read_cut (c := c) (v := v ++ [d]) (w := z)
  rw [List.append_assoc, List.singleton_append, List.length_append, List.length_singleton] at hcut
  refine (hcut (hle.trans (Nat.add_le_add_left ?_ _)) fun h => absurd h hlooks).symm
  split
  · exact Nat.le_refl 1
  · exact Nat.zero_le 1

theorem read_ended (hbare : Bare c) (hslash : '\\' ∉ c :: v) (hparen : '(' ∉ v) (hd : ahead d = false)
    (hd' : d ≠ '\\') (hopen : d ≠ '(') (z : Text) : read c (v ++ d :: z) = read c v := by
  obtain ⟨hle, hlooks⟩ := read_stops hbare hslash hparen hd hd' (fun h => absurd h hopen) z
  rw [if_neg hopen] at hle
  exact (read_cut hle fun h => absurd h hlooks).symm

theorem bare_of_ahead (h : ahead c = true) : Bare c := by
  simp only [ahead, Bool.or_eq_true, beq_iff_eq] at h
  rcases h with ((h | rfl) | rfl) | rfl
  · refine ⟨isBlank_eq_false_of_isNameChar h, Bool.eq_false_iff.2 fun hquote => ?_⟩
    rcases Text.isQuote_iff.1 hquote with rfl | rfl <;> cases h
  all_goals exact ⟨rfl, rfl⟩

theorem read_ne_whitespace (hblank : isBlank c = false) (t : Text) : (read c t).1 ≠ .whitespace := by
  cases hquote : Text.isQuote c with
  | true =>
    rw [read_quote hquote]
    cases (readString c t).1 <;> exact Token.noConfusion
  | false =>
    rw [read_bare ⟨hblank, hquote⟩]
    split
    · exact Token.noConfusion
    split
    · exact Token.noConfusion
    split
    · intro h
      have hnumeric := numeric_readNumeric (c :: t)
      rw [h] at hnumeric
      cases hnumeric
    split
    · intro h
      have hnamed := named_readNamed (c :: t)
      rw [h] at hnamed
      cases hnamed
    · dsimp only
      unfold punctuation?
      split <;> exact Token.noConfusion

theorem escape?_stops (hv : v ≠ []) (hq : Text.isQuote q = true) {x : Char × Nat}
    (h : escape? (v ++ q :: z) = some x) : x.2 ≤ v.length := by
  have hmark : Text.isHexDigit q = false ∧ isBlank q = false := by
    rcases Text.isQuote_iff.1 hq with rfl | rfl <;> decide
  obtain ⟨d, w, rfl⟩ := List.exists_cons_of_ne_nil hv
  by_cases hfeed : d = '\n'
  · rw [List.cons_append, escape?, if_pos hfeed] at h
    cases h
  cases hhex : Text.isHexDigit d with
  | false =>
    rw [List.cons_append, escape?_other hfeed hhex] at h
    obtain rfl := Option.some.inj h
    exact Nat.le_add_left ..
  | true =>
    rw [List.cons_append, escape?_hex hfeed hhex, ← List.cons_append] at h
    obtain rfl := Option.some.inj h
    have hrun : (hexRun (d :: w ++ q :: z)).length ≤ (d :: w).length := by
      refine length_le_of_front ((List.takeWhile_prefix _).trans (List.take_prefix 6 _)) fun hmem => ?_
      rw [List.all_eq_true.1 List.all_takeWhile q hmem] at hmark
      cases hmark.1
    dsimp only
    split
    · next hblank =>
      refine Nat.lt_of_le_of_ne hrun fun hwhole => ?_
      rw [hwhole, List.drop_left, List.head?_cons, Option.any_some, hmark.2] at hblank
      cases hblank
    · exact hrun

/-- An escape in front of a quotation mark does not depend on what is behind that. -/
theorem escapeAt?_stopped (hq : Text.isQuote q = true) {x : Char × Nat} (h : escapeAt? c (v ++ q :: z) = some x)
    (hx : x.1 ≠ q) (z' : Text) : x.2 ≤ v.length ∧ escapeAt? c (v ++ q :: z') = some x := by
  obtain rfl := eq_backslash_of_escapeAt? h
  have hv : v ≠ [] := by
    rintro rfl
    have hmark : q ≠ '\n' ∧ Text.isHexDigit q = false := by
      rcases Text.isQuote_iff.1 hq with rfl | rfl <;> decide
    rw [List.nil_append] at h
    obtain rfl := Option.some.inj ((escape?_other hmark.1 hmark.2).symm.trans h)
    exact hx rfl
  have hstops := escape?_stops hv hq h
  have halone : escape? v = some x := escape?_cut h hstops
  refine ⟨hstops, ?_⟩
  cases hother : escape? (v ++ q :: z') with
  | none =>
    rw [escape?_none hother] at halone
    cases halone
  | some y =>
    rw [escape?_cut hother (escape?_stops hv hq hother)] at halone
    exact hother.trans halone

/-- A string that does not hold the mark it stands in is over at the first, whatever is behind it. -/
theorem readString_stops (hq : Text.isQuote q = true) (hbody : q ∉ body) {content : Text}
    (h : (readString q (body ++ q :: z)).1 = some content) (hcontent : q ∉ content) (z' : Text) :
    readString q (body ++ q :: z') = (some content, body.length + 1) := by
  induction hn : body.length using Nat.strongRecOn generalizing body content with
  | ind n ih =>
  subst hn
  cases body with
  | nil =>
    rw [List.nil_append, readString_close] at h
    obtain rfl := Option.some.inj h
    exact readString_close q z'
  | cons c body =>
    rw [List.cons_append] at h ⊢
    rw [List.mem_cons, not_or] at hbody
    dsimp only [List.length_cons] at ih ⊢
    rcases readString_cases q c (body ++ q :: z) with rfl | ⟨hne, rfl⟩ | ⟨hne, hfeed, x, hx⟩ | ⟨hne, rfl, hend⟩ |
      ⟨hne, rfl, u, hu⟩ | ⟨hne, hfeed, hslash⟩
    · exact absurd rfl hbody.1
    · rw [readString_broken hne] at h
      cases h
    · rw [readString_escapeAt hne hfeed hx] at h
      obtain ⟨rest, hrest, rfl⟩ := Option.map_eq_some_iff.1 h
      rw [List.mem_cons, not_or] at hcontent
      obtain ⟨hle, hx'⟩ := escapeAt?_stopped hq hx (Ne.symm hcontent.1) z'
      have hlength := List.length_drop (i := x.2) (l := body)
      rw [List.drop_append_of_le_length hle] at hrest
      rw [readString_escapeAt hne hfeed hx', List.drop_append_of_le_length hle,
        ih _ (by omega) (fun hmem => hbody.2 (List.mem_of_mem_drop hmem)) hrest hcontent.2 rfl]
      refine Prod.ext rfl ?_
      dsimp only
      omega
    · exact absurd hend (List.append_ne_nil_of_right_ne_nil _ (List.cons_ne_nil _ _))
    · cases body with
      | nil =>
        obtain rfl := (List.cons.inj hu).1
        cases hq
      | cons d body =>
        obtain ⟨rfl, rfl⟩ := List.cons.inj hu
        rw [List.mem_cons, not_or] at hbody
        rw [List.cons_append, readString_continued hne] at h ⊢
        rw [ih body.length (by rw [List.length_cons]; omega) hbody.2.2 h hcontent rfl]
        rfl
    · rw [readString_other hne hfeed hslash] at h ⊢
      obtain ⟨rest, hrest, rfl⟩ := Option.map_eq_some_iff.1 h
      rw [List.mem_cons, not_or] at hcontent
      rw [ih body.length (Nat.lt_succ_self _) hbody.2 hrest hcontent.2 rfl]
      rfl

theorem lower_url : Text.lower "url".toList = "url".toList := by decide

/-- `url` and its parenthesis -/
theorem read_address (z : Text) : read 'u' ("rl(".toList ++ z) =
    ((readFunction "url".toList z).1, 3 + (readFunction "url".toList z).2) := by
  have hname : Name "url".toList := by decide
  have hends : EndsName ('(' :: z) := fun d hd => by
    cases hd
    decide
  have hread : readName ("url".toList ++ '(' :: z) = ("url".toList, 3) := readName_append hname.chars hends
  have happend := Name.read_append (c := 'u') (u := "rl".toList) hname ('(' :: z)
  have hdrop : ('u' :: "rl".toList ++ '(' :: z).drop (readName ('u' :: "rl".toList ++ '(' :: z)).2 = '(' :: z := by
    rw [show 'u' :: "rl".toList = "url".toList from rfl, hread]
    rfl
  rw [readNamed_function hdrop, show 'u' :: "rl".toList = "url".toList from rfl, hread] at happend
  refine happend.trans (Prod.ext rfl ?_)
  dsimp only
  omega

theorem readUrl_run {a : Text} (ha : IsAddress a) (hslash : '\\' ∉ a) (z : Text) : readUrl (a ++ z) =
    ((readUrl z).1.map (a ++ ·), a.length + (readUrl z).2) := by
  induction a with
  | nil =>
    refine Prod.ext ?_ (Nat.zero_add _).symm
    cases h : (readUrl z).1 <;> simp [h]
  | cons c a ih =>
    rw [List.mem_cons, not_or] at hslash
    obtain ⟨hblank, hquote, hopen, hclose⟩ := ha c (List.mem_cons_self ..)
    rw [List.cons_append, readUrl_other hclose hblank (by simp [hquote, hopen]) (Ne.symm hslash.1),
      ih (fun d hd => ha d (List.mem_cons_of_mem _ hd)) hslash.2]
    refine Prod.ext ?_ ?_
    · rw [Option.map_map]
      rfl
    · dsimp only
      rw [List.length_cons]
      omega

/-- An address that stands alone between its parentheses, or without the second at the end of a text. -/
theorem readFunction_alone {a : Text} (ha : IsAddress a) (hslash : '\\' ∉ a) (hz : z = [] ∨ z.head? = some ')') :
    readFunction "url".toList (a ++ z) = (.url a, a.length + (readUrl z).2) := by
  have hempty : (readUrl z).1 = some [] ∧ blanks z = 0 ∧ z.head?.any Text.isQuote = false := by
    rcases hz with rfl | hz
    · rw [readUrl.eq_def]
      exact ⟨rfl, rfl, rfl⟩
    · obtain ⟨z, rfl⟩ := List.head?_eq_some_iff.1 hz
      rw [readUrl_close]
      exact ⟨rfl, rfl, rfl⟩
  have hfront : blanks (a ++ z) = 0 ∧ (a ++ z).head?.any Text.isQuote = false := by
    cases a with
    | nil => exact hempty.2
    | cons c a =>
      obtain ⟨hblank, hquote, -⟩ := ha c (List.mem_cons_self ..)
      rw [List.cons_append, blanks, List.takeWhile_cons_of_neg (by simp [hblank])]
      exact ⟨rfl, hquote⟩
  have hdrop : (a ++ z).drop (blanks (a ++ z)) = a ++ z := by rw [hfront.1]; rfl
  rw [readFunction_url lower_url (by rw [hdrop, hfront.2]), hdrop, readUrl_run ha hslash, hempty.1, hfront.1,
    Option.map_some, List.append_nil, Nat.zero_add]
  rfl

end StyleMiner.Token
