import StyleMiner.Proofs.QuotedText
import StyleMiner.Proofs.TokenStops

/-! The tokens of a text that is laid out. White space that is left out stands next to a code point that ends a token
by itself, and what is put in its place elsewhere ends one as it did. So a clear text in small letters is laid out as
a text of the same tokens, but for white space. -/

namespace StyleMiner

variable {c d e l : Char} {t u v w z : Text}

namespace Text

open Excerpts (holdsGap keepsGap_eq_false_iff)

/-- What is written first behind white space. -/
theorem layoutFrom_behind_space (hl : holdsGap l = true) (t : Text) : layoutFrom none true (some l) t = [] ∨
    ∃ e z, layoutFrom none true (some l) t = e :: z ∧ (e = ' ' ∨ e = ')' ∨ e = ',') := by
  induction t with
  | nil => exact .inl rfl
  | cons c t ih =>
    cases hspace : isSpace c with
    | true =>
      rw [layoutFrom_space hspace]
      exact ih
    | false =>
      rw [layoutFrom_kept hspace]
      cases hkeeps : keepsGap (some l) c with
      | true => exact .inr ⟨' ', _, rfl, .inl rfl⟩
      | false =>
        rcases keepsGap_eq_false_iff.1 hkeeps with hheld | hc
        · rw [Option.any_some, hl] at hheld
          cases hheld
        · refine .inr ⟨c.toLower, _, rfl, .inr ?_⟩
          rcases hc with rfl | rfl
          · exact .inl rfl
          · exact .inr rfl

/-- A mark that is none of what is written for white space stands first only where it stood first. -/
theorem head?_of_layoutFrom (hl : holdsGap l = true) (he : e ≠ ' ' ∧ e ≠ ')' ∧ e ≠ ',')
    (hmark : e.toNat < 65) (h : (layoutFrom none false (some l) t).head? = some e) : t.head? = some e := by
  cases t with
  | nil => cases h
  | cons c t =>
    cases hspace : isSpace c with
    | true =>
      rw [layoutFrom_space hspace] at h
      rcases layoutFrom_behind_space hl t with hnone | ⟨d, z, hd, hgap⟩
      · rw [hnone] at h
        cases h
      · rw [hd] at h
        obtain rfl : d = e := Option.some.inj h
        rcases hgap with rfl | rfl | rfl
        · exact absurd rfl he.1
        · exact absurd rfl he.2.1
        · exact absurd rfl he.2.2
    | false =>
      rw [layoutFrom_kept hspace] at h
      exact congrArg some ((Excerpts.toLower_eq_mark hmark).1 (Option.some.inj h))

end Text

namespace Token

open Text (Kept layoutFrom layoutFrom_space layoutFrom_kept excerpts)
open Text.Excerpts (holdsGap step step_quoted step_outside step_address)

/-- the tokens of a text that are no white space -/
def solid (t : Text) : List Token := ((tokenize t).map (·.token)).filter (· ≠ .whitespace)

theorem solid_scan (l : Location) (t : Text) :
    ((scan l t).map (·.token)).filter (· ≠ .whitespace) = solid t := by
  rw [scan_map_token l .start]
  rfl

theorem solid_comments (t : Text) : solid (t.drop (comments t)) = solid t := by
  rw [solid, tokenize, scan_drop_comments .start .start]
  rfl

theorem solid_read (hnone : comments (c :: u) = 0) (hk : (read c u).1 ≠ .whitespace) :
    solid (c :: u) = (read c u).1 :: solid (u.drop (read c u).2) := by
  rw [solid, tokenize, scan_token (by rw [hnone]; rfl), List.map_cons,
    List.filter_cons_of_pos (by simpa using hk), solid_scan]

theorem solid_blanks (h : isBlank c = true) (t : Text) : solid (c :: t) = solid (t.drop (blanks t)) := by
  have hnone : comments (c :: t) = 0 := comments_eq_zero (by rintro rfl; cases h) t
  rw [solid, tokenize, scan_token (by rw [hnone]; rfl), read_blank h, List.map_cons,
    List.filter_cons_of_neg (by simp), solid_scan]

theorem solid_blank (h : isBlank c = true) (t : Text) : solid (c :: t) = solid t := by
  rw [solid_blanks h]
  cases t with
  | nil => rfl
  | cons d t =>
    rw [blanks]
    cases hd : isBlank d with
    | true => rw [List.takeWhile_cons_of_pos hd, List.length_cons, List.drop_succ_cons, solid_blanks hd]; rfl
    | false => rw [List.takeWhile_cons_of_neg (by simp [hd])]; rfl

theorem solid_gap (kept : Bool) (t : Text) : solid ((if kept then [' '] else []) ++ t) = solid t := by
  cases kept with
  | true => exact solid_blank (c := ' ') rfl t
  | false => rfl

theorem solid_comment (t : Text) : solid ('/' :: '*' :: t) = solid (t.drop (comment t)) := by
  rw [← solid_comments, comments_open, List.drop_succ_cons, List.drop_succ_cons, Nat.add_comm, ← List.drop_drop,
    solid_comments]

theorem drop_comment_gap (kept : Bool) (t : Text) :
    ((if kept then [' '] else []) ++ t).drop (comment ((if kept then [' '] else []) ++ t)) = t.drop (comment t) := by
  cases kept with
  | true => exact congrArg (List.drop · (' ' :: t)) (comment_other (c := ' ') fun h => absurd h (by decide))
  | false => rfl

/-- A comment without quotation marks is laid out as a comment, and what is behind it as what is behind that. -/
theorem drop_comment_layoutFrom (h : ∀ d ∈ t.take (comment t), Text.isQuote d = false) (gap : Bool)
    (last : Option Char) : ∃ gap' last', (layoutFrom none gap last t).drop (comment (layoutFrom none gap last t)) =
      layoutFrom none gap' last' (t.drop (comment t)) := by
  fun_induction comment t generalizing gap last with
  | case1 => exact ⟨gap, last, rfl⟩
  | case2 t =>
    have hstar : Kept '*' := ⟨rfl, rfl, rfl⟩
    have hslash : Kept '/' := ⟨rfl, rfl, rfl⟩
    rw [hstar.layoutFrom_cons, drop_comment_gap, hslash.layoutFrom_cons]
    exact ⟨false, some '/', rfl⟩
  | case3 c t hopen ih =>
    rw [List.take_succ_cons, List.forall_mem_cons] at h
    rw [List.drop_succ_cons]
    cases hspace : Text.isSpace c with
    | true =>
      rw [layoutFrom_space hspace]
      exact ih h.2 true last
    | false =>
      rw [layoutFrom_kept hspace, drop_comment_gap, Text.opens_bare h.1, comment_other, List.drop_succ_cons]
      · exact ih h.2 false (some c.toLower)
      · intro hstar hhead
        rw [hstar] at hhead
        have hslash := Text.head?_of_layoutFrom (by decide) (by decide) (by decide) hhead
        obtain ⟨u, hu⟩ := List.head?_eq_some_iff.1 hslash
        exact hopen u ((Text.Excerpts.toLower_eq_mark (by decide)).1 hstar) hu

theorem solid_layoutFrom_comments (h : ∀ d ∈ t.take (comments t), Text.isQuote d = false) (gap : Bool)
    (last : Option Char) : ∃ gap' last',
      solid (layoutFrom none gap last t) = solid (layoutFrom none gap' last' (t.drop (comments t))) := by
  fun_induction comments t generalizing gap last with
  | case1 t ih =>
    have hslash : Kept '/' := ⟨rfl, rfl, rfl⟩
    have hstar : Kept '*' := ⟨rfl, rfl, rfl⟩
    rw [List.take_succ_cons, List.take_succ_cons, List.forall_mem_cons, List.forall_mem_cons, Nat.add_comm,
      List.take_add, List.forall_mem_append] at h
    obtain ⟨gap', last', hbehind⟩ := drop_comment_layoutFrom h.2.2.1 false (some '*')
    obtain ⟨gap'', last'', hih⟩ := ih h.2.2.2 gap' last'
    refine ⟨gap'', last'', ?_⟩
    rw [hslash.layoutFrom_cons, solid_gap, hstar.layoutFrom_cons, Bool.false_and, if_neg Bool.false_ne_true,
      List.nil_append, solid_comment, hbehind, hih, List.drop_succ_cons, List.drop_succ_cons, Nat.add_comm,
      List.drop_drop]
  | case2 t hopen => exact ⟨gap, last, rfl⟩

theorem unquoted_of_excerpts {s : Text.Excerpts} (h : (t.foldl step s).finish = []) :
    (∃ name, s = ⟨[], .outside name⟩) ∧ ∀ d ∈ t, Text.isQuote d = false := by
  induction t generalizing s with
  | nil => exact ⟨eq_outside_of_finish h, List.forall_mem_nil _⟩
  | cons c t ih =>
    obtain ⟨⟨name, hname⟩, ht⟩ := ih h
    rw [List.forall_mem_cons]
    obtain ⟨es, mode⟩ := s
    cases mode with
    | quoted q body =>
      rw [step_quoted] at hname
      split at hname <;> simp at hname
    | address a =>
      rw [step_address] at hname
      split at hname
      · cases hname
      · split at hname <;> simp at hname
    | outside name' =>
      rw [step_outside] at hname
      split at hname
      · cases hname
      next hquote =>
      have hfound : es = [] := by
        split at hname
        · cases hname
        · exact congrArg Text.Excerpts.found hname
      exact ⟨⟨name', by rw [hfound]⟩, Bool.eq_false_iff.2 hquote, ht⟩

theorem holdsGap_of_ahead (h : ahead d = true) : holdsGap d = true := by
  rw [holdsGap, Bool.and_eq_true, bne_iff_ne, bne_iff_ne]
  constructor
  · rintro rfl
    cases h
  · rintro rfl
    cases h

theorem holdsGap_last (hc : holdsGap c = true) (hv : ∀ d ∈ v, ahead d = true) :
    ∃ l, v.getLast?.or (some c) = some l ∧ holdsGap l = true := by
  cases hlast : v.getLast? with
  | none => exact ⟨c, rfl, hc⟩
  | some l => exact ⟨l, rfl, holdsGap_of_ahead (hv l (List.mem_of_getLast? hlast))⟩

theorem paren_notMem (hv : ∀ d ∈ v, ahead d = true) : '(' ∉ v :=
  fun hmem => absurd (hv '(' hmem) (by decide)

/-- A token is read in front of what is laid out as in front of the text it was laid out from. -/
theorem read_layoutFrom (hbare : Bare c) (hc : holdsGap c = true) (hslash : '\\' ∉ c :: v)
    (hv : ∀ d ∈ v, ahead d = true) (hz : ∀ d ∈ z.head?, ahead d = false ∧ d ≠ '\\' ∧ d.toLower = d)
    (hurl : z.head? = some '(' → Text.lower (c :: v) ≠ "url".toList) :
    read c (v ++ layoutFrom none false (v.getLast?.or (some c)) z) = read c (v ++ z) := by
  have hparen := paren_notMem hv
  obtain ⟨l, hlast, hl⟩ := holdsGap_last hc hv
  rw [hlast]
  cases z with
  | nil => rfl
  | cons d z =>
    obtain ⟨hd, hd', hsmall⟩ := hz d rfl
    cases hspace : Text.isSpace d with
    | true =>
      -- in place of the white space stands a space, the comma or parenthesis behind it, or nothing
      rw [layoutFrom_space hspace, read_ended hbare hslash hparen hd hd' (by rintro rfl; cases hspace)]
      rcases Text.layoutFrom_behind_space hl z with hnone | ⟨e, y, he, hgap⟩
      · rw [hnone, List.append_nil]
      · rw [he]
        rcases hgap with rfl | rfl | rfl <;> exact read_ended hbare hslash hparen rfl (by decide) (by decide) y
    | false =>
      rw [layoutFrom_kept hspace, hsmall, Bool.false_and, if_neg Bool.false_ne_true, List.nil_append]
      have hopen : d = '(' → Text.lower (c :: v) ≠ "url".toList := fun h => hurl (congrArg some h)
      have hread := read_stopped hbare hslash hparen hd hd' hopen
      exact (hread _).trans (hread z).symm

/-- a text that goes on with plain code points, and with no escape behind them -/
def PlainAhead (t : Text) : Prop :=
  (∀ d ∈ t.takeWhile ahead, isPlain d = true) ∧ (t.dropWhile ahead).head? ≠ some '\\'

theorem ne_backslash_of_isPlain (h : isPlain c = true) : c ≠ '\\' := by
  rintro rfl
  cases h

theorem plainAhead_of_drop {n : Nat} (h : ∀ d ∈ t.take n, isPlain d = true) (hrest : PlainAhead (t.drop n)) :
    PlainAhead t := by
  induction n generalizing t with
  | zero => exact hrest
  | succ n ih =>
    cases t with
    | nil => exact hrest
    | cons c t =>
      rw [List.take_succ_cons, List.forall_mem_cons] at h
      obtain ⟨hrun, hbehind⟩ := ih h.2 hrest
      cases hc : ahead c with
      | true =>
        rw [PlainAhead, List.takeWhile_cons_of_pos hc, List.dropWhile_cons_of_pos hc, List.forall_mem_cons]
        exact ⟨⟨h.1, hrun⟩, hbehind⟩
      | false =>
        rw [PlainAhead, List.takeWhile_cons_of_neg (by simp [hc]), List.dropWhile_cons_of_neg (by simp [hc])]
        exact ⟨List.forall_mem_nil _, fun hhead => ne_backslash_of_isPlain h.1 (Option.some.inj hhead)⟩

theorem plainAhead_of_head (hc : ahead c = false) (hslash : c ≠ '\\') (t : Text) : PlainAhead (c :: t) := by
  rw [PlainAhead, List.takeWhile_cons_of_neg (by simp [hc]), List.dropWhile_cons_of_neg (by simp [hc])]
  exact ⟨List.forall_mem_nil _, fun hhead => hslash (Option.some.inj hhead)⟩

theorem all_isPlain_of_unquoted (hquote : Text.isQuote c = false) (h : isClear (read c t).1 w = true) :
    ∀ d ∈ w, isPlain d = true := by
  cases hk : (read c t).1 with
  | string content =>
    have hmark : Text.isQuote c = true := isQuote_of_quoted (by rw [hk]; exact .string content)
    rw [hquote] at hmark
    cases hmark
  | url address =>
    rw [hk] at h
    exact List.all_eq_true.1 (Bool.and_eq_true_iff.1 h).2
  | badString | badUrl =>
    rw [hk] at h
    cases h
  | _ =>
    rw [hk] at h
    exact List.all_eq_true.1 h

theorem clear_cons (hclear : clear (c :: u) = true) (hnone : comments (c :: u) = 0) :
    isClear (read c u).1 (c :: u.take (read c u).2) = true ∧ clear (u.drop (read c u).2) = true := by
  rw [clear_token (by rw [hnone]; rfl), Bool.and_eq_true, Bool.and_eq_true] at hclear
  exact hclear.2

theorem plainAhead_clear (h : clear t = true) : PlainAhead t := by
  induction hn : t.length using Nat.strongRecOn generalizing t with
  | ind n ih =>
  subst hn
  cases t with
  | nil => exact ⟨List.forall_mem_nil _, nofun⟩
  | cons c u =>
    by_cases hopen : c = '/'
    · exact plainAhead_of_head (by rw [hopen]; rfl) (by rw [hopen]; decide) u
    obtain ⟨htoken, hrest⟩ := clear_cons h (comments_eq_zero hopen u)
    have hlength := List.length_drop (i := (read c u).2) (l := u)
    have hbehind := ih _ (by rw [List.length_cons]; omega) hrest rfl
    cases hquote : Text.isQuote c with
    | true =>
      refine plainAhead_of_head ?_ ?_ u <;>
        rcases Text.isQuote_iff.1 hquote with rfl | rfl <;> decide
    | false => exact plainAhead_of_drop (n := (read c u).2 + 1) (all_isPlain_of_unquoted hquote htoken) hbehind

/-- A token lasts if it is read of what is laid out as well, with what is laid out of the rest behind it. -/
def Lasts (c : Char) (u : Text) : Prop := ∀ gap last, ∃ gap' last', solid (layoutFrom none gap last (c :: u)) =
  (read c u).1 :: solid (layoutFrom none gap' last' (u.drop (read c u).2))

theorem lasts_of_read {y : Text} {k : Token} {n : Nat} (hspace : Text.isSpace c = false) (hsmall : c.toLower = c)
    (hlayout : layoutFrom (Text.opens c) false (some c) u = y) (hnone : comments (c :: y) = 0)
    (hread : read c y = (k, n)) (hk : k ≠ .whitespace) (htoken : (read c u).1 = k)
    (hrest : ∃ gap' last', y.drop n = layoutFrom none gap' last' (u.drop (read c u).2)) : Lasts c u := by
  intro gap last
  obtain ⟨gap', last', hrest⟩ := hrest
  refine ⟨gap', last', ?_⟩
  rw [layoutFrom_kept hspace, solid_gap, hsmall, hlayout, solid_read hnone (by rwa [hread]), hread, htoken, ← hrest]

theorem comments_layoutFrom (hnone : comments (c :: u) = 0) :
    comments (c :: layoutFrom none false (some c) u) = 0 := by
  refine comments_other fun hslash hhead => ?_
  subst hslash
  obtain ⟨t, rfl⟩ := List.head?_eq_some_iff.1 (Text.head?_of_layoutFrom rfl (by decide) (by decide) hhead)
  rw [comments_open] at hnone
  cases hnone

theorem lasts_separator (hc : c = '(' ∨ c = ',') (u : Text) : Lasts c u := by
  have hread : ∃ k, k ≠ .whitespace ∧ ∀ t, read c t = (k, 0) := by
    rcases hc with rfl | rfl
    · exact ⟨.opening .paren, Token.noConfusion, fun _ => rfl⟩
    · exact ⟨.comma, Token.noConfusion, fun _ => rfl⟩
  obtain ⟨k, hk, hread⟩ := hread
  have hkept : Kept c ∧ c ≠ '/' := by rcases hc with rfl | rfl <;> exact ⟨⟨rfl, rfl, rfl⟩, by decide⟩
  refine lasts_of_read hkept.1.1 hkept.1.2.2 rfl (comments_eq_zero hkept.2 _) (hread _) hk (by rw [hread])
    ⟨false, some c, ?_⟩
  rw [Text.opens_bare hkept.1.2.1, hread u]
  rfl

theorem drop_layoutFrom (hv : ∀ d ∈ v, Kept d) (c : Char) (z : Text) {n : Nat} (hn : n ≤ v.length) :
    ∃ last', (v ++ layoutFrom none false (v.getLast?.or (some c)) z).drop n =
      layoutFrom none false last' ((v ++ z).drop n) := by
  refine ⟨(v.take n).getLast?.or (some c), ?_⟩
  have hlast : (v.drop n).getLast?.or ((v.take n).getLast?.or (some c)) = v.getLast?.or (some c) := by
    rw [← Option.or_assoc, ← List.getLast?_append, List.take_append_drop]
  rw [List.drop_append_of_le_length hn, List.drop_append_of_le_length hn,
    Text.layoutFrom_run fun d hd => hv d (List.mem_of_mem_drop hd), hlast]

/-- What a token leaves is laid out behind it as it is by itself. -/
theorem drop_read_layoutFrom (hbare : Bare c) (hkept : ∀ d ∈ v, Kept d) (hslash : '\\' ∉ c :: v)
    (hv : ∀ d ∈ v, ahead d = true) (hz : ∀ d ∈ z.head?, ahead d = false ∧ d ≠ '\\')
    (hurl : z.head? = some '(' → Text.lower (c :: v) ≠ "url".toList) :
    ∃ last', (v ++ layoutFrom none false (v.getLast?.or (some c)) z).drop (read c (v ++ z)).2 =
      layoutFrom none false last' ((v ++ z).drop (read c (v ++ z)).2) := by
  cases z with
  | nil =>
    rw [show layoutFrom none false (v.getLast?.or (some c)) [] = [] from rfl, List.append_nil]
    generalize (read c v).2 = n
    refine ⟨none, ?_⟩
    have hrun := Text.layoutFrom_run (fun d hd => hkept d (List.mem_of_mem_drop hd)) none [] (v := v.drop n)
    rw [List.append_nil] at hrun
    rw [hrun]
    exact (List.append_nil _).symm
  | cons d z =>
    obtain ⟨hd, hd'⟩ := hz d rfl
    have hle := (read_stops hbare hslash (paren_notMem hv) hd hd' (fun h => hurl (congrArg some h)) z).1
    rcases Nat.lt_or_ge v.length (read c (v ++ d :: z)).2 with hlong | hshort
    · -- only a parenthesis is taken along
      by_cases hopen : d = '('
      · subst hopen
        have hn : (read c (v ++ '(' :: z)).2 = v.length + 1 := Nat.le_antisymm hle hlong
        rw [hn, ← List.drop_drop, List.drop_left, ← List.drop_drop, List.drop_left]
        exact ⟨some '(', rfl⟩
      · rw [if_neg hopen] at hle
        exact absurd hle (Nat.not_le_of_lt hlong)
    · exact drop_layoutFrom hkept c (d :: z) hshort

/-- a token that neither is a separator nor opens an address -/
theorem lasts_bare (hbare : Bare c) (hc : holdsGap c = true) (hkept : ∀ d ∈ c :: v, Kept d)
    (hslash : '\\' ∉ c :: v) (hv : ∀ d ∈ v, ahead d = true)
    (hz : ∀ d ∈ z.head?, ahead d = false ∧ d ≠ '\\' ∧ d.toLower = d)
    (hurl : z.head? = some '(' → Text.lower (c :: v) ≠ "url".toList) (hnone : comments (c :: (v ++ z)) = 0) :
    Lasts c (v ++ z) := by
  rw [List.forall_mem_cons] at hkept
  have hlayout := Text.layoutFrom_run hkept.2 (some c) z
  have hread := read_layoutFrom hbare hc hslash hv hz hurl
  have hcomments := comments_layoutFrom hnone
  rw [hlayout] at hcomments
  obtain ⟨last', hrest⟩ := drop_read_layoutFrom hbare hkept.2 hslash hv
    (fun d hd => ⟨(hz d hd).1, (hz d hd).2.1⟩) hurl
  refine lasts_of_read hkept.1.1 hkept.1.2.2 ?_ hcomments hread (read_ne_whitespace hbare.1 _) rfl
    ⟨false, last', hrest⟩
  rw [Text.opens_bare hbare.2, hlayout]

theorem ne_slash_of_isQuote (h : Text.isQuote c = true) : c ≠ '/' := by
  rintro rfl
  cases h

/-- a string -/
theorem lasts_string (hquote : Text.isQuote c = true) {content : Text} (h : (readString c u).1 = some content)
    (hmark : c ∉ content) : Lasts c u := by
  have hkept : Text.isSpace c = false ∧ c.toLower = c ∧ Text.opens c = some c := by
    rcases Text.isQuote_iff.1 hquote with rfl | rfl <;> exact ⟨rfl, rfl, rfl⟩
  have htoken : (read c u).1 = .string content := by rw [read_quote hquote, h]; rfl
  have hcount : (read c u).2 = (readString c u).2 := by rw [read_quote hquote]
  obtain ⟨body, hbody, hread, htext⟩ := readString_body hquote h hmark
  have hsplit := List.take_append_drop (readString c u).2 u
  rcases htext with htext | ⟨htext, hend⟩
  · rw [htext, List.append_assoc, List.singleton_append] at hsplit
    have hstops := readString_stops hquote hbody (by rwa [hsplit]) hmark
    have hlayout : layoutFrom (Text.opens c) false (some c) u =
        body ++ c :: layoutFrom none false (some c) (u.drop (readString c u).2) := by
      rw [hkept.2.2, ← Text.layoutFrom_body hbody false (some c), hsplit]
    refine lasts_of_read (k := .string content) (n := body.length + 1) hkept.1 hkept.2.1 hlayout
      (comments_eq_zero (ne_slash_of_isQuote hquote) _) ?_ Token.noConfusion htoken ⟨false, some c, ?_⟩
    · rw [read_quote hquote, hstops]
      rfl
    · rw [hcount, ← List.drop_drop, List.drop_left]
      rfl
  · rw [htext, hend, List.append_nil] at hsplit
    subst hsplit
    have hlayout : layoutFrom (Text.opens c) false (some c) body = body := by
      rw [hkept.2.2, Text.layoutFrom_unclosed hbody]
    refine lasts_of_read hkept.1 hkept.2.1 hlayout (comments_eq_zero (ne_slash_of_isQuote hquote) _)
      (Prod.ext htoken hcount) Token.noConfusion htoken ⟨false, none, ?_⟩
    rw [hcount, hend]
    rfl

theorem kept_of_isPlain (hplain : isPlain c = true) (hbare : Bare c) (hsmall : c.toLower = c) : Kept c := by
  rw [isPlain, hbare.1, Bool.false_or, Bool.and_eq_true, Bool.not_eq_true'] at hplain
  exact ⟨hplain.2, hbare.2, hsmall⟩

/-- White space at the ends of an address is not written. -/
theorem layoutFrom_address {a : Text} (ha : ∀ d ∈ a, Kept d) (hw : ∀ d ∈ w, Text.isSpace d = true)
    (hend : u = w ++ ')' :: z ∨ u = w ∧ z = []) : ∃ y, layoutFrom none false (some '(') (a ++ u) = a ++ y ∧
      (y = [] ∨ y.head? = some ')') ∧ y.drop (readUrl y).2 = layoutFrom none false (some ')') z := by
  refine ⟨_, Text.layoutFrom_run ha _ _, ?_⟩
  generalize a.getLast?.or (some '(') = last
  rcases hend with rfl | ⟨rfl, rfl⟩
  · have hclose : Kept ')' := ⟨rfl, rfl, rfl⟩
    rw [Text.layoutFrom_spaces hw, hclose.layoutFrom_cons, Text.Excerpts.keepsGap_eq_false_iff.2 (.inr (.inl rfl)),
      Bool.and_false, if_neg Bool.false_ne_true, List.nil_append, readUrl_close]
    exact ⟨.inr rfl, rfl⟩
  · rw [← List.append_nil u, Text.layoutFrom_spaces hw]
    exact ⟨.inl rfl, List.drop_nil⟩

theorem layoutFrom_url {a : Text} (h : (readUrl t).1 = some a)
    (hplain : ∀ d ∈ t.take (readUrl t).2, isPlain d = true) (hsmall : ∀ d ∈ t, d.toLower = d) :
    IsAddress a ∧ '\\' ∉ a ∧ ∃ y, layoutFrom none false (some '(') t = a ++ y ∧
      (y = [] ∨ y.head? = some ')') ∧
      y.drop (readUrl y).2 = layoutFrom none false (some ')') (t.drop (readUrl t).2) := by
  obtain ⟨ha, bs, hbs, htext⟩ := readUrl_unescaped h fun hmem => ne_backslash_of_isPlain (hplain _ hmem) rfl
  have hsplit := List.take_append_drop (readUrl t).2 t
  obtain ⟨u, hu, hend⟩ : ∃ u, t.take (readUrl t).2 ++ t.drop (readUrl t).2 = a ++ u ∧
      (u = bs ++ ')' :: t.drop (readUrl t).2 ∨ u = bs ∧ t.drop (readUrl t).2 = []) := by
    rcases htext with htext | ⟨htext, hend⟩
    · exact ⟨_, by rw [htext, List.append_assoc, List.append_assoc]; rfl, .inl rfl⟩
    · exact ⟨bs, by rw [htext, hend, List.append_nil], .inr ⟨rfl, hend⟩⟩
  have hmem : ∀ d ∈ a, d ∈ t.take (readUrl t).2 := by
    intro d hd
    rcases htext with htext | ⟨htext, -⟩ <;> rw [htext] <;> exact List.mem_append_left _ hd
  have hkept : ∀ d ∈ a, Kept d := fun d hd => kept_of_isPlain (hplain d (hmem d hd)) ⟨(ha d hd).1, (ha d hd).2.1⟩
    (hsmall d (List.mem_of_mem_take (hmem d hd)))
  refine ⟨ha, fun hslash => ne_backslash_of_isPlain (hplain _ (hmem _ hslash)) rfl, ?_⟩
  have hlayout := layoutFrom_address hkept (fun d hd => isSpace_of_isBlank (hbs d hd)) hend
  rwa [← hu, hsplit] at hlayout

theorem drop_opening (n : Nat) (t : Text) : ("rl(".toList ++ t).drop (3 + n) = t.drop n := by
  rw [← List.drop_drop]
  rfl

/-- White space behind the opening of an address is not written. -/
theorem layoutFrom_opening (z : Text) : layoutFrom (Text.opens 'u') false (some 'u') ("rl(".toList ++ z) =
    "rl(".toList ++ layoutFrom none false (some '(') (z.drop (blanks z)) := by
  have hopening : ∀ d ∈ "rl(".toList, Kept d := by
    have hall : "rl(".toList.all (fun d => !Text.isSpace d && !Text.isQuote d && d.toLower == d) = true := rfl
    intro d hd
    simpa [Kept, and_assoc] using List.all_eq_true.1 hall d hd
  have hblanks : ∀ d ∈ z.take (blanks z), Text.isSpace d = true := fun d hd =>
    isSpace_of_isBlank (isBlank_of_mem_take hd)
  have hspaces := (Text.layoutFrom_spaces hblanks false (some '(') (z.drop (blanks z))).trans
    (Text.layoutFrom_gap rfl _ _)
  rw [List.take_append_drop] at hspaces
  rw [← hspaces]
  exact Text.layoutFrom_run hopening (some 'u') z

/-- the opening of an address in front of a string -/
theorem lasts_quotedAddress (hquote : (z.drop (blanks z)).head?.any Text.isQuote = true) :
    Lasts 'u' ("rl(".toList ++ z) := by
  have htoken := readFunction_quoted lower_url hquote
  have hlayout := layoutFrom_opening z
  obtain ⟨q, y, hy⟩ := List.exists_cons_of_ne_nil (l := z.drop (blanks z)) (by
    intro hnil
    rw [hnil] at hquote
    cases hquote)
  rw [hy] at hlayout hquote
  have hmark : Text.isSpace q = false ∧ q.toLower = q ∧ isBlank q = false := by
    rcases Text.isQuote_iff.1 hquote with rfl | rfl <;> exact ⟨rfl, rfl, rfl⟩
  have hfirst : layoutFrom none false (some '(') (q :: y) = q :: layoutFrom (Text.opens q) false (some q) y := by
    rw [layoutFrom_kept hmark.1, hmark.2.1]
    rfl
  have hnone : blanks (layoutFrom none false (some '(') (q :: y)) = 0 := by
    rw [hfirst, blanks, List.takeWhile_cons_of_neg (by simp [hmark.2.2])]
    rfl
  have hread : readFunction "url".toList (layoutFrom none false (some '(') (q :: y)) =
      (.function "url".toList, 0) := by
    rw [readFunction_quoted lower_url (by rw [hnone, hfirst]; exact hquote), hnone]
  refine lasts_of_read rfl rfl hlayout (comments_eq_zero (by decide) _) (by rw [read_address, hread])
    Token.noConfusion (by rw [read_address, htoken]) ⟨false, some '(', ?_⟩
  rw [drop_opening, read_address, htoken, drop_opening, hy]
  rfl

/-- an address -/
theorem lasts_url (hquote : (z.drop (blanks z)).head?.any Text.isQuote = false)
    (hclear : isClear (read 'u' ("rl(".toList ++ z)).1
      ('u' :: ("rl(".toList ++ z).take (read 'u' ("rl(".toList ++ z)).2) = true)
    (hsmall : ∀ d ∈ z, d.toLower = d) : Lasts 'u' ("rl(".toList ++ z) := by
  have htoken := readFunction_url lower_url hquote
  rw [read_address, htoken] at hclear
  cases haddress : (readUrl (z.drop (blanks z))).1 with
  | none =>
    rw [haddress] at hclear
    cases hclear
  | some a =>
    rw [haddress] at hclear htoken
    dsimp only [Option.elim_some] at hclear htoken
    have hplain : ∀ d ∈ (z.drop (blanks z)).take (readUrl (z.drop (blanks z))).2, isPlain d = true := fun d hd => by
      refine List.all_eq_true.1 (Bool.and_eq_true_iff.1 hclear).2 d (List.mem_cons_of_mem _ ?_)
      rw [List.take_add, show ("rl(".toList ++ z).drop 3 = z from rfl, List.take_add]
      exact List.mem_append_right _ (List.mem_append_right _ hd)
    obtain ⟨ha, hslash, y, hy, hclose, hrest⟩ := layoutFrom_url haddress hplain fun d hd =>
      hsmall d (List.mem_of_mem_drop hd)
    have hlayout := layoutFrom_opening z
    rw [hy] at hlayout
    refine lasts_of_read (k := .url a) (n := 3 + (a.length + (readUrl y).2)) rfl rfl hlayout
      (comments_eq_zero (by decide) _) (by rw [read_address, readFunction_alone ha hslash hclose]) Token.noConfusion
      (by rw [read_address, htoken]) ⟨false, some ')', ?_⟩
    rw [drop_opening, ← List.drop_drop, List.drop_left, hrest, read_address, htoken, drop_opening, ← List.drop_drop]

theorem lasts_clear (hclear : clear (c :: u) = true) (hnone : comments (c :: u) = 0) (hblank : isBlank c = false)
    (hsmall : ∀ d ∈ c :: u, d.toLower = d) : Lasts c u := by
  obtain ⟨htoken, hrest⟩ := clear_cons hclear hnone
  cases hquote : Text.isQuote c with
  | true =>
    rw [read_quote hquote] at htoken
    cases hcontent : (readString c u).1 with
    | none =>
      rw [hcontent] at htoken
      cases htoken
    | some content =>
      rw [hcontent] at htoken
      exact lasts_string hquote hcontent (by simpa [isClear] using htoken)
  | false =>
    by_cases hseparator : c = '(' ∨ c = ','
    · exact lasts_separator hseparator u
    have hc : holdsGap c = true := by
      rw [not_or] at hseparator
      rw [holdsGap, Bool.and_eq_true, bne_iff_ne, bne_iff_ne]
      exact hseparator
    obtain ⟨hplain, htaken⟩ := List.forall_mem_cons.1 (all_isPlain_of_unquoted hquote htoken)
    obtain ⟨hrun, hbehind⟩ := plainAhead_of_drop htaken (plainAhead_clear hrest)
    have hahead : ∀ d ∈ u.takeWhile ahead, ahead d = true := List.all_eq_true.1 List.all_takeWhile
    have hnext : ∀ d ∈ (u.dropWhile ahead).head?, ahead d = false := fun d hd => by
      have hstop := List.head?_dropWhile_not ahead u
      rw [Option.mem_def.1 hd] at hstop
      simpa using hstop
    have hsplit := List.takeWhile_append_dropWhile (p := ahead) (l := u)
    generalize u.takeWhile ahead = v at *
    generalize u.dropWhile ahead = z at *
    subst hsplit
    rw [List.forall_mem_cons, List.forall_mem_append] at hsmall
    by_cases hurl : z.head? = some '(' ∧ Text.lower (c :: v) = "url".toList
    · obtain ⟨hopen, hname⟩ := hurl
      obtain ⟨y, rfl⟩ := List.head?_eq_some_iff.1 hopen
      have hv : Text.lower v = v := (List.map_congr_left hsmall.2.1).trans (List.map_id v)
      rw [show Text.lower (c :: v) = c.toLower :: Text.lower v from rfl, hsmall.1, hv] at hname
      obtain ⟨rfl, rfl⟩ := List.cons.inj hname
      have hy : ∀ d ∈ y, d.toLower = d := fun d hd => hsmall.2.2 d (List.mem_cons_of_mem _ hd)
      cases hstring : (y.drop (blanks y)).head?.any Text.isQuote with
      | true => exact lasts_quotedAddress hstring
      | false => exact lasts_url hstring htoken hy
    · refine lasts_bare ⟨hblank, hquote⟩ hc ?_ ?_ hahead (fun d hd => ⟨hnext d hd, ?_, ?_⟩) (not_and.1 hurl) hnone
      · rw [List.forall_mem_cons]
        exact ⟨kept_of_isPlain hplain ⟨hblank, hquote⟩ hsmall.1, fun d hd =>
          kept_of_isPlain (hrun d hd) (bare_of_ahead (hahead d hd)) (hsmall.2.1 d hd)⟩
      · rw [List.mem_cons, not_or]
        exact ⟨(ne_backslash_of_isPlain hplain).symm, fun hmem => ne_backslash_of_isPlain (hrun _ hmem) rfl⟩
      · rintro rfl
        exact hbehind hd
      · exact hsmall.2.2 d (List.mem_of_head? hd)

theorem clear_drop_comments (h : clear t = true) :
    excerpts (t.take (comments t)) = [] ∧ clear (t.drop (comments t)) = true := by
  cases hdrop : t.drop (comments t) with
  | nil =>
    rw [clear_ending hdrop, List.isEmpty_iff] at h
    exact ⟨h, by decide +kernel⟩
  | cons c u =>
    have hnone : comments (c :: u) = 0 := hdrop ▸ comments_drop t
    rw [clear_token hdrop, Bool.and_eq_true, List.isEmpty_iff] at h
    refine ⟨h.1, ?_⟩
    rw [clear_token (by rw [hnone]; rfl), h.2, hnone]
    rfl

/-- Laid out, a clear text in small letters has the tokens that it had, but for white space. -/
theorem solid_layoutFrom (hclear : clear t = true) (hsmall : ∀ d ∈ t, d.toLower = d) (gap : Bool)
    (last : Option Char) : solid (layoutFrom none gap last t) = solid t := by
  -- by tokens: what is written of one leaves another gap and another code point behind it
  induction hn : t.length using Nat.strongRecOn generalizing t gap last with
  | ind n ih =>
  subst hn
  obtain ⟨hgap, hclear⟩ := clear_drop_comments hclear
  obtain ⟨gap, last, hcomments⟩ := solid_layoutFrom_comments (unquoted_of_excerpts hgap).2 gap last
  have hlength := List.length_drop (i := comments t) (l := t)
  have hnone := comments_drop t
  have hsmall : ∀ d ∈ t.drop (comments t), d.toLower = d := fun d hd => hsmall d (List.mem_of_mem_drop hd)
  rw [hcomments, ← solid_comments t]
  cases hdrop : t.drop (comments t) with
  | nil => rfl
  | cons c u =>
    rw [hdrop] at hclear hnone hlength hsmall
    rw [List.length_cons] at hlength
    obtain ⟨htoken, hrest⟩ := clear_cons hclear hnone
    have hbehind (gap : Bool) (last : Option Char) := by
      have hshort := List.length_drop (i := (read c u).2) (l := u)
      exact ih _ (by omega) hrest (fun d hd => hsmall d (List.mem_cons_of_mem c (List.mem_of_mem_drop hd))) gap last rfl
    cases hblank : isBlank c with
    | true =>
      have hspaces : ∀ d ∈ c :: u.take (blanks u), Text.isSpace d = true := List.forall_mem_cons.2
        ⟨isSpace_of_isBlank hblank, fun d hd => isSpace_of_isBlank (isBlank_of_mem_take hd)⟩
      have hlayout := Text.layoutFrom_spaces hspaces gap last (u.drop (blanks u))
      rw [List.cons_append, List.take_append_drop] at hlayout
      rw [read_blank hblank] at hbehind
      rw [hlayout, hbehind, solid_blanks hblank]
    | false =>
      obtain ⟨gap', last', hlasts⟩ := lasts_clear hclear hnone hblank hsmall gap last
      rw [hlasts, hbehind, solid_read hnone (read_ne_whitespace hblank u)]

end Token
end StyleMiner
