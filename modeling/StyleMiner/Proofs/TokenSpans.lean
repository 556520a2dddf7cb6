import StyleMiner.Proofs.Matching
import StyleMiner.Proofs.Readers
import StyleMiner.Source.Slice

/-! Tokens lie side by side over the text that they were read from. Between two of them, and in front of the
first, stand comments and nothing else, and where a token starts is counted over all that is in front of it. -/

namespace StyleMiner.Token

open Component (lastStop)

variable {l : Location} {t u source : Text} {c : Char} {ts before : List Located} {x : Located}

/-- Comments one behind another, each up to the first closing behind its opening. The last one may be
without a closing only where `atEnd` says that the text ends with it. -/
inductive Comments (atEnd : Bool) : Text → Prop
  | nil : Comments atEnd []
  | closed {body rest : Text} (hfirst : ¬ "*/".toList <:+: body ++ ['*']) (hrest : Comments atEnd rest) :
    Comments atEnd ("/*".toList ++ (body ++ ("*/".toList ++ rest)))
  | unclosed {body : Text} (hend : atEnd = true) (hnone : ¬ "*/".toList <:+: body) :
    Comments atEnd ("/*".toList ++ body)

/-- A comment goes on to the first closing, or to the end if there is none. -/
theorem comment_spec (t : Text) :
    (∃ body rest, t = body ++ ("*/".toList ++ rest) ∧ comment t = body.length + 2 ∧
      ¬ "*/".toList <:+: body ++ ['*']) ∨
    (comment t = t.length ∧ ¬ "*/".toList <:+: t) := by
  fun_induction comment t with
  | case1 => exact .inr ⟨rfl, by simp⟩
  | case2 rest => exact .inl ⟨[], rest, rfl, rfl, fun h => absurd h.length_le (by decide)⟩
  | case3 c t hne ih =>
    -- a closing at `c` would have been seen
    have hcons (w : Text) (hw : w.head? = t.head? ∨ w = ['*']) (h : ¬ "*/".toList <:+: w) :
        ¬ "*/".toList <:+: c :: w := by
      rw [List.infix_cons_iff, not_or]
      refine ⟨fun hprefix => ?_, h⟩
      obtain ⟨v, hv⟩ := hprefix
      obtain ⟨rfl, hslash⟩ := List.cons.inj hv
      rcases hw with hw | rfl
      · cases t with
        | nil =>
          rw [← hslash] at hw
          cases hw
        | cons d t =>
          rw [← hslash] at hw
          exact hne t rfl (congrArg (· :: t) (Option.some.inj hw).symm)
      · cases hslash
    rcases ih with ⟨body, rest, rfl, hlength, hfirst⟩ | ⟨hlength, hnone⟩
    · refine .inl ⟨c :: body, rest, rfl, by rw [hlength, List.length_cons, Nat.add_right_comm], ?_⟩
      refine hcons _ ?_ hfirst
      cases body with
      | nil => exact .inr rfl
      | cons d body => exact .inl rfl
    · exact .inr ⟨by rw [hlength, List.length_cons], hcons t (.inl rfl) hnone⟩

theorem comments_take (t : Text) : Comments (t.drop (comments t)).isEmpty (t.take (comments t)) := by
  fun_induction comments t with
  | case2 t hne => exact .nil
  | case1 t ih =>
    have hdrop : ('/' :: '*' :: t).drop (comments (t.drop (comment t)) + comment t + 2) =
        (t.drop (comment t)).drop (comments (t.drop (comment t))) := by
      rw [List.drop_succ_cons, List.drop_succ_cons, List.drop_drop, Nat.add_comm]
    have htake : ('/' :: '*' :: t).take (comments (t.drop (comment t)) + comment t + 2) =
        "/*".toList ++ (t.take (comment t) ++
          (t.drop (comment t)).take (comments (t.drop (comment t)))) := by
      rw [List.take_succ_cons, List.take_succ_cons, Nat.add_comm, List.take_add]
      rfl
    rw [hdrop, htake]
    rcases comment_spec t with ⟨body, rest, rfl, hlength, hfirst⟩ | ⟨hlength, hnone⟩
    · have hclosed : (body ++ ("*/".toList ++ rest)).take (comment (body ++ ("*/".toList ++ rest))) =
          body ++ "*/".toList := by
        rw [hlength, ← List.append_assoc]
        exact List.take_left' (by simp)
      rw [hclosed, List.append_assoc]
      exact .closed hfirst ih
    · rw [hlength, List.take_length, List.drop_length, List.drop_nil, List.take_nil, List.append_nil]
      exact .unclosed rfl hnone

theorem Numeric.ne_eof {k : Token} (h : Numeric k) : k ≠ .eof := by
  rintro rfl
  cases h

theorem Named.ne_eof {k : Token} (h : Named k) : k ≠ .eof := by
  rintro rfl
  cases h

theorem read_ne_eof (c : Char) (t : Text) : (read c t).1 ≠ .eof := by
  unfold read
  dsimp only
  split
  · exact Token.noConfusion
  split
  · cases (readString c t).1 <;> exact Token.noConfusion
  split
  · exact Token.noConfusion
  split
  · exact Token.noConfusion
  split
  · exact (numeric_readNumeric _).ne_eof
  split
  · exact (named_readNamed _).ne_eof
  · unfold punctuation?
    split <;> exact Token.noConfusion

theorem scan_ending (h : t.drop (comments t) = []) : scan l t =
    [⟨.eof, l.advanceOver (t.take (comments t)), (l.advanceOver (t.take (comments t))).offset⟩] := by
  rw [scan.eq_def]
  dsimp only
  split
  · rfl
  · next heq => rw [h] at heq; cases heq

theorem scan_token (h : t.drop (comments t) = c :: u) : scan l t =
    ⟨(read c u).1, l.advanceOver (t.take (comments t)),
      ((l.advanceOver (t.take (comments t))).advanceOver (c :: u.take (read c u).2)).offset⟩ ::
      scan ((l.advanceOver (t.take (comments t))).advanceOver (c :: u.take (read c u).2))
        (u.drop (read c u).2) := by
  rw [scan.eq_def]
  dsimp only
  split
  · next heq => rw [h] at heq; cases heq
  · next heq =>
    rw [h] at heq
    obtain ⟨rfl, rfl⟩ := List.cons.inj heq
    rfl

theorem scan_append (h : scan l t = before ++ ts) (hts : ts ≠ []) : ∃ w rest, t = w ++ rest ∧
    scan (l.advanceOver w) rest = ts ∧ lastStop l.offset before = (l.advanceOver w).offset := by
  induction before generalizing l t with
  | nil => exact ⟨[], t, rfl, h, rfl⟩
  | cons b before ih =>
    cases hdrop : t.drop (comments t) with
    | nil =>
      rw [scan_ending hdrop] at h
      obtain ⟨-, hrest⟩ := List.cons.inj h
      exact absurd (List.append_eq_nil_iff.1 hrest.symm).2 hts
    | cons c u =>
      rw [scan_token hdrop] at h
      obtain ⟨rfl, hrest⟩ := List.cons.inj h
      obtain ⟨w, rest, hu, hscan, hstop⟩ := ih hrest
      refine ⟨t.take (comments t) ++ (c :: u.take (read c u).2) ++ w, rest, ?_, ?_, ?_⟩
      · rw [List.append_assoc, ← hu, List.append_assoc, List.cons_append, List.take_append_drop, ← hdrop,
          List.take_append_drop]
      · rw [Location.advanceOver_append, Location.advanceOver_append, hscan]
      · rw [Location.advanceOver_append, Location.advanceOver_append, ← hstop]
        rfl

/-- Where a token is read: behind comments, at the place that counting over the text comes to. -/
theorem scan_first (h : scan l t = x :: ts) : ∃ gap rest, t = gap ++ rest ∧
    Comments (x.token == .eof) gap ∧ x.start = l.advanceOver gap ∧
    (x.token = .eof → ts = [] ∧ rest = [] ∧ x.stop = x.start.offset) ∧
    (x.token ≠ .eof → x.start.offset < x.stop) := by
  refine ⟨t.take (comments t), t.drop (comments t), (List.take_append_drop ..).symm, ?_⟩
  have hgap := comments_take t
  cases hdrop : t.drop (comments t) with
  | nil =>
    rw [hdrop] at hgap
    rw [scan_ending hdrop] at h
    obtain ⟨rfl, rfl⟩ := List.cons.inj h
    exact ⟨hgap, rfl, fun _ => ⟨rfl, rfl, rfl⟩, fun hne => absurd rfl hne⟩
  | cons c u =>
    rw [hdrop] at hgap
    rw [scan_token hdrop] at h
    obtain ⟨rfl, rfl⟩ := List.cons.inj h
    have hne := read_ne_eof c u
    refine ⟨?_, rfl, fun heof => absurd heof hne, fun _ => ?_⟩
    · rwa [beq_eq_false_iff_ne.2 hne]
    · dsimp only
      rw [Location.advanceOver_offset _ (c :: _), List.length_cons]
      omega

theorem scan_ends (l : Location) (t : Text) : ∃ ts e, scan l t = ts ++ [e] ∧ e.token = .eof := by
  fun_induction scan l t with
  | case1 => exact ⟨[], _, rfl, rfl⟩
  | case2 l t n start c u _ r stop ih =>
    obtain ⟨ts, e, hscan, heof⟩ := ih
    exact ⟨_ :: ts, e, by rw [hscan]; rfl, heof⟩

/-- Where a token of a text stands in it. -/
theorem tokenize_split (h : tokenize source = before ++ x :: ts) : ∃ w gap rest,
    source = w ++ (gap ++ rest) ∧ lastStop 0 before = w.length ∧ Comments (x.token == .eof) gap ∧
    x.start = Location.start.advanceOver (w ++ gap) ∧
    (x.token = .eof → ts = [] ∧ rest = [] ∧ x.stop = x.start.offset) ∧
    (x.token ≠ .eof → x.start.offset < x.stop) := by
  obtain ⟨w, t, rfl, hscan, hstop⟩ := scan_append h (List.cons_ne_nil x ts)
  obtain ⟨gap, rest, rfl, hgap, hstart, hspan⟩ := scan_first hscan
  refine ⟨w, gap, rest, rfl, ?_, hgap, ?_, hspan⟩
  · rw [Location.advanceOver_offset] at hstop
    exact hstop.trans (Nat.zero_add _)
  · rw [hstart, Location.advanceOver_append]

theorem ne_eof_of_tokenize {e : Located} (h : tokenize source = ts ++ [e]) (hx : x ∈ ts) : x.token ≠ .eof := by
  obtain ⟨before, after, rfl⟩ := List.append_of_mem hx
  rw [List.append_assoc] at h
  obtain ⟨_, _, _, -, -, -, -, hlast, -⟩ := tokenize_split h
  exact fun heof => by simpa using (hlast heof).1

theorem start_offset (w : Text) : (Location.start.advanceOver w).offset = w.length :=
  (Location.advanceOver_offset ..).trans (Nat.zero_add _)

/-- The tokens of a text tile it: the end of the text comes last and only there, any other token takes up
some of the text, comments alone stand between one token and the next, and a token starts where counting over
the text in front of it comes to. -/
theorem tokenize_tiles (source : Text) :
    (∃ ts e, tokenize source = ts ++ [e] ∧ e.token = .eof ∧ e.start.offset = source.length ∧
      e.stop = source.length ∧ ∀ x ∈ ts, x.token ≠ .eof ∧ x.start.offset < x.stop) ∧
    (∀ before x after, tokenize source = before ++ x :: after → lastStop 0 before ≤ x.start.offset ∧
      Comments (x.token == .eof) (Source.slice source.toArray (lastStop 0 before) x.start.offset)) ∧
    ∀ x ∈ tokenize source, x.start = Location.start.advanceOver (source.take x.start.offset) := by
  refine ⟨?_, fun before x after h => ?_, fun x hx => ?_⟩
  · obtain ⟨ts, e, htokens, heof⟩ : ∃ ts e, tokenize source = ts ++ [e] ∧ e.token = .eof :=
      scan_ends .start source
    obtain ⟨w, gap, rest, hsource, -, -, hstart, hend, -⟩ := tokenize_split htokens
    obtain ⟨-, rfl, hstop⟩ := hend heof
    have hoffset : e.start.offset = source.length := by
      rw [hstart, start_offset, hsource, List.append_nil]
    refine ⟨ts, e, htokens, heof, hoffset, hstop.trans hoffset, fun x hx => ?_⟩
    have hne := ne_eof_of_tokenize htokens hx
    obtain ⟨before, after, rfl⟩ := List.append_of_mem hx
    rw [List.append_assoc] at htokens
    obtain ⟨_, _, _, -, -, -, -, -, hspan⟩ := tokenize_split htokens
    exact ⟨hne, hspan hne⟩
  · obtain ⟨w, gap, rest, rfl, hw, hgap, hstart, -⟩ := tokenize_split h
    have hslice : Source.slice (w ++ (gap ++ rest)).toArray w.length (w.length + gap.length) = gap := by
      rw [Source.slice_toArray, List.drop_left, Nat.add_sub_cancel_left, List.take_left]
    rw [hw, hstart, start_offset, List.length_append, hslice]
    exact ⟨Nat.le_add_right .., hgap⟩
  · obtain ⟨before, after, htokens⟩ := List.append_of_mem hx
    obtain ⟨w, gap, rest, rfl, -, -, hstart, -⟩ := tokenize_split htokens
    rw [hstart, start_offset, ← List.append_assoc, List.take_left]

theorem tokenize_tiles_comment : 1 ≤ 6 ∧ Comments false (Source.slice "a/***/b".toList.toArray 1 6) :=
  (tokenize_tiles "a/***/b".toList).2.1 [⟨.ident ['a'], ⟨0, 1, 1⟩, 1⟩] ⟨.ident ['b'], ⟨6, 1, 7⟩, 7⟩
    [⟨.eof, ⟨7, 1, 8⟩, 7⟩] (by decide +kernel)

end StyleMiner.Token
