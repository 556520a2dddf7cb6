import StyleMiner.Proofs.TokenSpans
import StyleMiner.Proofs.TokenReach

/-! Excerpts. The part of a text from where one of its tokens starts to where another stops is read as the
tokens from the one to the other, as long as the last of them does not depend on what comes behind it. -/

namespace StyleMiner.Token

open Component (lastStop)

variable {l : Location} {t u v w source : Text} {c : Char} {ts us before after : List Located} {x : Located}

theorem comment_other (h : c = '*' → t.head? ≠ some '/') : comment (c :: t) = comment t + 1 := by
  rw [comment.eq_def]
  split
  · next heq => cases heq
  · next heq =>
    obtain ⟨rfl, rfl⟩ := List.cons.inj heq
    exact absurd rfl (h rfl)
  · next heq => rw [(List.cons.inj heq).2]

theorem comment_cut (h : comment (v ++ w) ≤ v.length) : comment v = comment (v ++ w) := by
  induction v with
  | nil => exact (Nat.le_zero.1 h).symm
  | cons c v ih =>
    rw [List.cons_append] at h ⊢
    by_cases hclose : c = '*' ∧ (v ++ w).head? = some '/'
    · obtain ⟨rfl, hhead⟩ := hclose
      cases v with
      | nil =>
        obtain ⟨w', rfl⟩ := List.head?_eq_some_iff.1 hhead
        rw [List.nil_append, comment] at h
        exact absurd h (by simp)
      | cons d v =>
        obtain rfl := Option.some.inj hhead
        rfl
    · have hother (u : Text) (hu : u.head? = some '/' → (v ++ w).head? = some '/') :
          comment (c :: u) = comment u + 1 := comment_other fun hc hhead => hclose ⟨hc, hu hhead⟩
      rw [hother _ id] at h ⊢
      rw [hother v, ih (Nat.le_of_succ_le_succ h)]
      intro hhead
      rw [List.head?_append, hhead]
      rfl

theorem comments_other (h : c = '/' → t.head? ≠ some '*') : comments (c :: t) = 0 := by
  rw [comments.eq_def]
  split
  · next heq =>
    obtain ⟨rfl, rfl⟩ := List.cons.inj heq
    exact absurd rfl (h rfl)
  · rfl

theorem comments_open (t : Text) :
    comments ('/' :: '*' :: t) = comments (t.drop (comment t)) + comment t + 2 := by
  rw [comments.eq_def]
  rfl

theorem comments_cut (h : comments (v ++ w) ≤ v.length) : comments v = comments (v ++ w) := by
  induction hn : v.length using Nat.strongRecOn generalizing v with
  | ind n ih =>
  subst hn
  cases v with
  | nil =>
    rw [comments.eq_def]
    exact (Nat.le_zero.1 h).symm
  | cons c v =>
    rw [List.cons_append] at h ⊢
    by_cases hopen : c = '/' ∧ (v ++ w).head? = some '*'
    · obtain ⟨rfl, hhead⟩ := hopen
      cases v with
      | nil =>
        obtain ⟨w', rfl⟩ := List.head?_eq_some_iff.1 hhead
        rw [List.nil_append, comments_open] at h
        exact absurd h (by simp)
      | cons d v =>
        obtain rfl := Option.some.inj hhead
        rw [List.cons_append, comments_open] at h ⊢
        dsimp only [List.length_cons] at h ih
        rw [comments_open, comment_cut (w := w) (by omega)]
        have hcomment := comment_cut (v := v) (w := w) (by omega)
        have hlength := List.length_drop (i := comment v) (l := v)
        rw [← hcomment] at h ⊢
        rw [List.drop_append_of_le_length (by omega)] at h ⊢
        rw [ih _ (by omega) (by omega) rfl]
    · rw [comments_other fun hc hhead => hopen ⟨hc, hhead⟩, comments_other fun hc hhead => hopen ⟨hc, ?_⟩]
      rw [List.head?_append, hhead]
      rfl

theorem comments_drop (t : Text) : comments (t.drop (comments t)) = 0 := by
  fun_induction comments t with
  | case1 t ih =>
    rw [List.drop_succ_cons, List.drop_succ_cons, Nat.add_comm, ← List.drop_drop]
    exact ih
  | case2 t hne =>
    rw [List.drop_zero, comments.eq_def]
    split
    · next heq => exact absurd rfl (hne _)
    · rfl

theorem readNamed_looksOn (h : LooksOn (readNamed t).1) :
    (t.drop (readNamed t).2).head?.any Text.isQuote = true := by
  by_cases hparen : (t.drop (readName t).2).head? = some '('
  · obtain ⟨u, hu⟩ := List.head?_eq_some_iff.1 hparen
    rw [readNamed_function hu] at h ⊢
    have hdrop : t.drop ((readName t).2 + 1) = u := by rw [← List.drop_drop, hu]; rfl
    dsimp only at h ⊢
    rw [← List.drop_drop, hdrop]
    by_cases hname : (readName t).1.lower = "url".toList
    · cases hquote : (u.drop (blanks u)).head?.any Text.isQuote with
      | true => rwa [readFunction_quoted hname hquote]
      | false =>
        rw [readFunction_url hname hquote] at h
        cases hurl : (readUrl (u.drop (blanks u))).1 <;> rw [hurl] at h <;> exact absurd h id
    · rw [readFunction_other hname] at h
      exact absurd h hname
  · rw [readNamed_ident hparen] at h
    exact absurd h id

theorem readString_none {q : Char} (h : (readString q t).1 = none) :
    (t.drop (readString q t).2).head? = some '\n' := by
  induction hn : t.length using Nat.strongRecOn generalizing t with
  | ind n ih =>
  subst hn
  cases t with
  | nil => rw [readString.eq_def] at h; cases h
  | cons c t =>
    dsimp only [List.length_cons] at ih
    rcases readString_cases q c t with rfl | ⟨hquote, rfl⟩ | ⟨hquote, hfeed, x, hx⟩ | ⟨hquote, rfl, rfl⟩ |
      ⟨hquote, rfl, u, rfl⟩ | ⟨hquote, hfeed, hbackslash⟩
    · rw [readString_close] at h
      cases h
    · rw [readString_broken hquote]
      rfl
    · rw [readString_escapeAt hquote hfeed hx] at h ⊢
      have hlength := List.length_drop (i := x.2) (l := t)
      rw [List.drop_succ_cons, Nat.add_comm, ← List.drop_drop]
      exact ih _ (by omega) (Option.map_eq_none_iff.1 h) rfl
    · rw [readString_unfinished hquote] at h
      cases h
    · rw [readString_continued hquote] at h ⊢
      exact ih u.length (by rw [List.length_cons]; omega) h rfl
    · rw [readString_other hquote hfeed hbackslash] at h ⊢
      exact ih t.length (Nat.lt_succ_self _) (Option.map_eq_none_iff.1 h) rfl

theorem Numeric.not_looksOn {k : Token} (h : Numeric k) : ¬ LooksOn k := by
  cases h <;> exact id

/-- What decides about a token stands behind it, and is neither a comment nor the end of the text. -/
theorem read_looksOn (h : LooksOn (read c t).1) : ∃ d u, t.drop (read c t).2 = d :: u ∧ d ≠ '/' := by
  cases hblank : isBlank c with
  | true =>
    rw [read_blank hblank] at h
    exact absurd h id
  | false =>
  cases hquote : Text.isQuote c with
  | true =>
    rw [read_quote hquote] at h ⊢
    cases hcontent : (readString c t).1 with
    | some content =>
      rw [hcontent] at h
      exact absurd h id
    | none =>
      obtain ⟨u, hu⟩ := List.head?_eq_some_iff.1 (readString_none hcontent)
      exact ⟨'\n', u, hu, by decide⟩
  | false =>
    rw [read_bare ⟨hblank, hquote⟩] at h ⊢
    split at h
    · exact absurd h id
    split at h
    · exact absurd h id
    split at h
    · exact absurd h (numeric_readNumeric _).not_looksOn
    split at h
    · next hhash hat hnumber hname =>
      have hpos := Nat.lt_of_lt_of_le (startsName_pos hname) (readName_le_readNamed _)
      have hdrop := readNamed_looksOn h
      rw [if_neg hhash, if_neg hat, if_neg hnumber, if_pos hname]
      dsimp only
      obtain ⟨n, hn⟩ := Nat.exists_eq_succ_of_ne_zero (Nat.pos_iff_ne_zero.1 hpos)
      rw [hn, List.drop_succ_cons] at hdrop
      rw [hn, Nat.succ_eq_add_one, Nat.add_sub_cancel]
      cases hrest : t.drop n with
      | nil =>
        rw [hrest] at hdrop
        cases hdrop
      | cons d u =>
        rw [hrest] at hdrop
        refine ⟨d, u, rfl, ?_⟩
        rintro rfl
        cases hdrop
    · refine absurd h ?_
      dsimp only
      unfold punctuation?
      split <;> exact id

/-- Where a text stands has no part in what its tokens are. -/
theorem scan_map_token (l l' : Location) (t : Text) :
    (scan l t).map (·.token) = (scan l' t).map (·.token) := by
  induction hn : t.length using Nat.strongRecOn generalizing l l' t with
  | ind n ih =>
  cases hdrop : t.drop (comments t) with
  | nil => rw [scan_ending hdrop, scan_ending hdrop]; rfl
  | cons c u =>
    have hlength := congrArg List.length hdrop
    rw [List.length_drop, List.length_cons] at hlength
    rw [scan_token hdrop, scan_token hdrop, List.map_cons, List.map_cons]
    exact congrArg _ (ih _ (by rw [List.length_drop]; omega) _ _ _ rfl)

/-- A token is read the same where only some of the text behind it is left. -/
theorem read_front {rest : Text} (hu : u.drop (read c u).2 = w ++ rest) (hlooks : LooksOn (read c u).1 → w ≠ []) :
    read c (u.take (read c u).2 ++ w) = read c u ∧
      (u.take (read c u).2 ++ w).take (read c u).2 = u.take (read c u).2 ∧
      (u.take (read c u).2 ++ w).drop (read c u).2 = w := by
  rcases Nat.lt_or_ge u.length (read c u).2 with hlong | hfits
  · have hlong := Nat.le_of_lt hlong
    rw [List.drop_eq_nil_of_le hlong] at hu
    rw [(List.append_eq_nil_iff.1 hu.symm).1, List.append_nil, List.take_of_length_le hlong]
    exact ⟨rfl, List.take_of_length_le hlong, List.drop_eq_nil_of_le hlong⟩
  · have hlength : (u.take (read c u).2).length = (read c u).2 := List.length_take_of_le hfits
    have hsplit : u = (u.take (read c u).2 ++ w) ++ rest := by
      rw [List.append_assoc, ← hu, List.take_append_drop]
    have hcut := read_cut (c := c) (v := u.take (read c u).2 ++ w) (w := rest)
    rw [← hsplit, List.length_append, hlength] at hcut
    exact ⟨hcut (Nat.le_add_right ..) fun h => Nat.lt_add_of_pos_right (List.length_pos_iff.2 (hlooks h)),
      List.take_left' hlength, List.drop_left' hlength⟩

/-- The first tokens of a text are those of the text up to where the last of them stops. -/
theorem scan_excerpt (h : scan l t = us ++ ts) (hts : ts ≠ [])
    (hlast : ∀ x ∈ us.getLast?, ¬ LooksOn x.token) : ∃ w rest e, t = w ++ rest ∧
      (l.advanceOver w).offset = lastStop l.offset us ∧ scan l w = us ++ [e] ∧ e.token = .eof := by
  induction us generalizing l t with
  | nil =>
    have hnone : comments [] = 0 := by rw [comments.eq_def]
    exact ⟨[], t, ⟨.eof, l, l.offset⟩, rfl, rfl, by rw [scan_ending] <;> rw [hnone] <;> rfl, rfl⟩
  | cons x us ih =>
    cases hdrop : t.drop (comments t) with
    | nil =>
      rw [scan_ending hdrop] at h
      obtain ⟨-, hrest⟩ := List.cons.inj h
      exact absurd (List.append_eq_nil_iff.1 hrest.symm).2 hts
    | cons c u =>
      rw [scan_token hdrop] at h
      obtain ⟨rfl, hrest⟩ := List.cons.inj h
      obtain ⟨w, rest, e, hu, hstop, hscan, he⟩ := ih hrest fun y hy => hlast y <| by
        cases us with
        | nil => cases hy
        | cons z us => rwa [List.getLast?_cons_cons]
      obtain ⟨hread, htake, hbehind⟩ := read_front hu fun hlooks => by
        rintro rfl
        cases us with
        | nil => exact hlast _ rfl hlooks
        | cons y us =>
          rw [scan_ending (by rw [comments.eq_def]; rfl)] at hscan
          obtain ⟨-, hscan⟩ := List.cons.inj hscan
          cases us <;> cases hscan
      have hgap : (t.take (comments t)).length = comments t := by
        have hlength := congrArg List.length hdrop
        rw [List.length_drop, List.length_cons] at hlength
        exact List.length_take_of_le (by omega)
      have ht : t = (t.take (comments t) ++ (c :: (u.take (read c u).2 ++ w))) ++ rest := by
        rw [List.append_assoc, List.cons_append, List.append_assoc, ← hu, List.take_append_drop, ← hdrop,
          List.take_append_drop]
      refine ⟨_, rest, e, ht, ?_, ?_, he⟩
      · rw [Location.advanceOver_append, ← List.cons_append, Location.advanceOver_append, hstop]
        rfl
      · have hcomments : comments (t.take (comments t) ++ (c :: (u.take (read c u).2 ++ w))) = comments t := by
          have hcut := comments_cut (v := t.take (comments t) ++ (c :: (u.take (read c u).2 ++ w))) (w := rest)
          rw [← ht, List.length_append, hgap] at hcut
          exact hcut (Nat.le_add_right ..)
        rw [scan_token (c := c) (u := u.take (read c u).2 ++ w), hcomments, List.take_left' hgap, hread, htake,
          hbehind, hscan]
        · rfl
        · rw [hcomments, List.drop_left' hgap]

theorem scan_start (h : scan l t = x :: ts) : x.start = l.advanceOver (t.take (comments t)) := by
  cases hdrop : t.drop (comments t) with
  | nil =>
    rw [scan_ending hdrop] at h
    exact congrArg (·.start) (List.cons.inj h).1.symm
  | cons c u =>
    rw [scan_token hdrop] at h
    exact congrArg (·.start) (List.cons.inj h).1.symm

/-- Comments in front have no part in it either. -/
theorem scan_drop_comments (l l' : Location) (t : Text) :
    (scan l' (t.drop (comments t))).map (·.token) = (scan l t).map (·.token) := by
  have hnone := comments_drop t
  cases hdrop : t.drop (comments t) with
  | nil => rw [scan_ending hdrop, scan_ending (by rw [comments.eq_def]; rfl)]; rfl
  | cons c u =>
    rw [hdrop] at hnone
    rw [scan_token hdrop, scan_token (by rw [hnone]; rfl), List.map_cons, List.map_cons]
    exact congrArg _ (scan_map_token _ _ _)

/-- The text from where one token starts to where another stops has the tokens from the one to the other,
as long as nothing behind decides about the last. -/
theorem tokenize_slice (h : tokenize source = before ++ ((x :: us) ++ after)) (hafter : after ≠ [])
    (hlast : ∀ y ∈ (x :: us).getLast?, ¬ LooksOn y.token) :
    (tokenize (Source.slice source.toArray x.start.offset (lastStop 0 (x :: us)))).map (·.token) =
      (x :: us).map (·.token) ++ [.eof] := by
  obtain ⟨w₀, t, rfl, hscan, -⟩ := scan_append h (List.append_ne_nil_of_right_ne_nil _ hafter)
  obtain ⟨w, rest, e, rfl, hstop, hw, he⟩ := scan_excerpt hscan hafter hlast
  have hsplit : w = w.take (comments w) ++ w.drop (comments w) := (List.take_append_drop ..).symm
  have hstart : x.start.offset = w₀.length + (w.take (comments w)).length := by
    rw [scan_start hw, Location.advanceOver_offset, start_offset]
  have hlength : lastStop 0 (x :: us) = w₀.length + w.length := by
    rw [Location.advanceOver_offset, start_offset] at hstop
    exact hstop.symm
  have hslice : Source.slice (w₀ ++ (w ++ rest)).toArray x.start.offset (lastStop 0 (x :: us)) =
      w.drop (comments w) := by
    rw [Source.slice_toArray, hstart, hlength, Nat.add_sub_add_left, ← List.drop_drop, List.drop_left]
    rw [show w ++ rest = w.take (comments w) ++ (w.drop (comments w) ++ rest) by
      rw [← List.append_assoc, ← hsplit], List.drop_left, List.take_left']
    rw [List.length_drop, List.length_take]
    omega
  rw [hslice, tokenize, scan_drop_comments, hw, List.map_append, List.map_singleton, he]

/-- A token of a text is what is read at its place, where no comment starts, and the text it spans is what
reading it takes. -/
theorem tokenize_taken (h : tokenize source = before ++ x :: ts) (hx : x.token ≠ .eof) : ∃ c u,
    (comments (c :: u) = 0 ∧ x.stop = x.start.offset + (c :: u.take (read c u).2).length) ∧
    x.token = (read c u).1 ∧
    Source.slice source.toArray x.start.offset x.stop = c :: u.take (read c u).2 ∧
    ∃ l, scan l (u.drop (read c u).2) = ts := by
  obtain ⟨w, t, rfl, hscan, -⟩ := scan_append h (List.cons_ne_nil x ts)
  have hsplit : t = t.take (comments t) ++ t.drop (comments t) := (List.take_append_drop ..).symm
  have hnone := comments_drop t
  cases hdrop : t.drop (comments t) with
  | nil =>
    rw [scan_ending hdrop] at hscan
    obtain ⟨rfl, -⟩ := List.cons.inj hscan
    exact absurd rfl hx
  | cons c u =>
    rw [hdrop] at hnone
    rw [scan_token hdrop] at hscan
    obtain ⟨rfl, rfl⟩ := List.cons.inj hscan
    refine ⟨c, u, ⟨hnone, Location.advanceOver_offset ..⟩, rfl, ?_, _, rfl⟩
    dsimp only
    rw [Location.advanceOver_offset _ (c :: _), ← Location.advanceOver_append, start_offset,
      Source.slice_toArray, Nat.add_sub_cancel_left]
    rw [show w ++ t = (w ++ t.take (comments t)) ++ (c :: u) by rw [List.append_assoc, ← hdrop, ← hsplit],
      List.drop_left, List.length_cons, List.take_succ_cons, List.length_take]
    rcases Nat.le_total (read c u).2 u.length with hle | hle
    · rw [Nat.min_eq_left hle]
    · rw [Nat.min_eq_right hle, List.take_length, List.take_of_length_le hle]

theorem tokenize_read (h : tokenize source = before ++ x :: ts) (hx : x.token ≠ .eof) : ∃ c u,
    x.token = (read c u).1 ∧
    Source.slice source.toArray x.start.offset x.stop = c :: u.take (read c u).2 ∧
    ∃ l, scan l (u.drop (read c u).2) = ts := by
  obtain ⟨c, u, -, hread⟩ := tokenize_taken h hx
  exact ⟨c, u, hread⟩

/-- A token that only what is behind it tells from others is not the last of a text. -/
theorem tokenize_looksOn (h : tokenize source = before ++ x :: ts) (hx : LooksOn x.token) :
    ∃ y ∈ ts.head?, y.token ≠ .eof := by
  obtain ⟨c, u, hread, -, l, rfl⟩ := tokenize_read h fun heof => by rw [heof] at hx; exact hx
  rw [hread] at hx
  obtain ⟨d, v, hdrop, hslash⟩ := read_looksOn hx
  have hnone : comments (d :: v) = 0 := comments_other fun heq => absurd heq hslash
  rw [hdrop, scan_token (by rw [hnone]; rfl)]
  exact ⟨_, rfl, read_ne_eof d v⟩

/-- What reading a token takes is one token, if nothing behind it decides about that. -/
theorem tokenize_alone (hnone : comments (c :: u) = 0) (hlooks : ¬ LooksOn (read c u).1) :
    ∃ e, e.token = .eof ∧ tokenize (c :: u.take (read c u).2) =
      [⟨(read c u).1, .start, (c :: u.take (read c u).2).length⟩, e] := by
  obtain ⟨hread, htake, hdrop⟩ := read_front (List.nil_append (u.drop (read c u).2)).symm fun h => absurd h hlooks
  rw [List.append_nil] at hread htake hdrop
  have halone : comments (c :: u.take (read c u).2) = 0 := by
    have hcut := comments_cut (v := c :: u.take (read c u).2) (w := u.drop (read c u).2)
    rw [List.cons_append, List.take_append_drop, hnone] at hcut
    exact hcut (Nat.zero_le _)
  have hend : ([] : Text).drop (comments []) = [] := List.drop_nil
  rw [tokenize, scan_token (c := c) (u := u.take (read c u).2) (by rw [halone, List.drop_zero]), halone, hread,
    htake, hdrop, scan_ending hend, List.take_zero]
  have hstop : ((Location.start.advanceOver []).advanceOver (c :: u.take (read c u).2)).offset =
      (c :: u.take (read c u).2).length := start_offset _
  rw [hstop]
  exact ⟨_, rfl, rfl⟩

/-- The tokens that can be read from their own span are all but the end, strings that are broken off and the
openings of quoted addresses. The text that any other token spans is read as that token, which takes up all of
it, and the end. -/
theorem tokenize_ownSpan (hx : x ∈ tokenize source) (heof : x.token ≠ .eof) :
    (x.token ≠ .badString ∧ ∀ name, x.token = .function name → name.lower ≠ "url".toList) ↔
      ∃ e, e.token = .eof ∧ tokenize (Source.slice source.toArray x.start.offset x.stop) =
        [⟨x.token, .start, x.stop - x.start.offset⟩, e] := by
  have hlooks : (x.token ≠ .badString ∧ ∀ name, x.token = .function name → name.lower ≠ "url".toList) ↔
      ¬ LooksOn x.token := by
    unfold LooksOn
    cases x.token <;> simp
  rw [hlooks]
  refine ⟨fun h => ?_, fun h hlooks => ?_⟩
  · obtain ⟨before, after, htokens⟩ := List.append_of_mem hx
    obtain ⟨c, u, ⟨hnone, hstop⟩, hread, hslice, -⟩ := tokenize_taken htokens heof
    rw [hread] at h ⊢
    rw [hslice, hstop, Nat.add_sub_cancel_left]
    exact tokenize_alone hnone h
  · obtain ⟨e, he, htokens⟩ := h
    obtain ⟨y, hy, hne⟩ := tokenize_looksOn (htokens.trans (List.nil_append _).symm) hlooks
    obtain rfl := Option.some.inj hy
    exact hne he

theorem tokenize_ownSpan_unit : ∃ e, e.token = .eof ∧ tokenize "1e".toList =
    [⟨.dimension (.finite false 4503599627370496 (-52)) ['e'], .start, 2⟩, e] := by
  have hmem : ⟨.dimension (.finite false 4503599627370496 (-52)) ['e'], ⟨2, 1, 3⟩, 4⟩ ∈
      tokenize "a,1e+b".toList := by decide +kernel
  exact (tokenize_ownSpan hmem nofun).1 ⟨nofun, nofun⟩

/-- a string, whole or broken off -/
inductive Quoted : Token → Prop where
  | string (content : Text) : Quoted (.string content)
  | badString : Quoted .badString

theorem Numeric.not_quoted {k : Token} (h : Numeric k) : ¬ Quoted k := by cases h <;> exact nofun

theorem Named.not_quoted {k : Token} (h : Named k) : ¬ Quoted k := by cases h <;> exact nofun

theorem isQuote_of_quoted (h : Quoted (read c t).1) : Text.isQuote c = true := by
  cases hblank : isBlank c with
  | true =>
    rw [read_blank hblank] at h
    cases h
  | false =>
  cases hquote : Text.isQuote c with
  | true => rfl
  | false =>
    rw [read_bare ⟨hblank, hquote⟩] at h
    split at h
    · cases h
    split at h
    · cases h
    split at h
    · exact absurd h (numeric_readNumeric _).not_quoted
    split at h
    · exact absurd h (named_readNamed _).not_quoted
    · unfold punctuation? at h
      split at h <;> cases h

theorem isQuote_of_badString (h : (read c t).1 = .badString) : Text.isQuote c = true :=
  isQuote_of_quoted (by rw [h]; exact .badString)

/-- What a text begins with has its first tokens, if it ends where one of these stops. -/
theorem tokenize_prefix (hv : v <+: t) (hx : x ∈ tokenize t) (hlooks : ¬ LooksOn x.token)
    (hstop : x.stop = v.length) : ∃ us ws e e', tokenize t = us ++ (ws ++ [e']) ∧ tokenize v = us ++ [e] ∧
      e.token = .eof ∧ e'.token = .eof ∧ (us = [] → ws = []) := by
  obtain ⟨us, ts, hsplit⟩ := List.append_of_mem hx
  by_cases heof : x.token = .eof
  · obtain ⟨w, gap, rest, rfl, -, -, hstart, hend, -⟩ := tokenize_split hsplit
    obtain ⟨rfl, rfl, hoffset⟩ := hend heof
    rw [List.append_nil] at hv
    have hwhole : v = w ++ gap := hv.eq_of_length (by rw [← hstop, hoffset, hstart, start_offset])
    rw [List.append_nil] at hsplit ⊢
    exact ⟨us, [], x, x, hsplit, by rw [hwhole, hsplit], heof, heof, fun _ => rfl⟩
  · obtain ⟨_, _, -, -, l, hscan⟩ := tokenize_read hsplit heof
    obtain ⟨ws, e', hends, he'⟩ := scan_ends l _
    obtain rfl := hscan.symm.trans hends
    have hpart : scan .start t = (us ++ [x]) ++ (ws ++ [e']) := by
      rw [List.append_assoc]
      exact hsplit
    obtain ⟨w, rest, e, rfl, hoffset, hw, he⟩ := scan_excerpt hpart (by simp) fun y hy => by
      rw [List.getLast?_concat] at hy
      exact Option.some.inj hy ▸ hlooks
    have hlength : v.length = w.length := by
      rw [start_offset, lastStop, List.foldl_append] at hoffset
      exact hstop.symm.trans hoffset.symm
    have heq : v = w :=
      (List.prefix_of_prefix_length_le hv (List.prefix_append w rest) (Nat.le_of_eq hlength)).eq_of_length hlength
    exact ⟨us ++ [x], ws, e, e', hpart, by rw [heq]; exact hw, he, he', fun h => by simp at h⟩

end StyleMiner.Token
