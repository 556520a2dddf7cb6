import StyleMiner.Component.Tree

/-! Tokens whose brackets match. Where each function and block is closed by its own bracket, reading
components neither stops inside one nor takes anything behind it: what comes after does not change how
they are read, and from the first token outside brackets that ends them everything is left. -/

namespace StyleMiner

/-- tokens in which every bracket is matched and no token outside brackets `ends` -/
inductive Matched : (Token → Bool) → List Located → Prop where
  | nil {ends : Token → Bool} : Matched ends []
  | plain {ends : Token → Bool} {t : Located} {ts : List Located} (hends : ends t.token = false)
    (heof : t.token ≠ .eof) (hopen : Opener.ofToken? t.token = none)
    (hclose : ∀ b, t.token ≠ .closing b) (hrest : Matched ends ts) : Matched ends (t :: ts)
  | group {ends : Token → Bool} {t c : Located} {o : Opener} {inside ts : List Located}
    (hends : ends t.token = false) (hopen : Opener.ofToken? t.token = some o)
    (hclose : c.token = o.closer) (hinside : Matched (fun _ => false) inside)
    (hrest : Matched ends ts) : Matched ends (t :: (inside ++ c :: ts))

/-- tokens in which every bracket is matched -/
abbrev Balanced (ts : List Located) : Prop := Matched (fun _ => false) ts

/-- whether a token opens and closes nothing and is not the end of the text -/
def Token.standsAlone : Token → Bool
  | .function _ | .opening _ | .closing _ | .eof => false
  | _ => true

namespace Opener

variable {t : Token} {o : Opener}

theorem ne_eof_of_ofToken? (h : ofToken? t = some o) : t ≠ .eof := by
  rintro rfl
  cases h

theorem ne_closer_of_ofToken? (h : ofToken? t = some o) (p : Opener) : t ≠ p.closer := by
  rintro rfl
  cases p <;> cases h

theorem closer_ne_eof (o : Opener) : o.closer ≠ .eof := by
  cases o <;> exact Token.noConfusion

end Opener

namespace Component

variable {ends ends' : Token → Bool} {ts rest : List Located} {t : Located} {f : Frame}
  {fs : List Frame} {last : Nat}

/-- where the last of some tokens stops -/
def lastStop (last : Nat) (ts : List Located) : Nat := ts.foldl (fun _ t => t.stop) last

theorem gather_stop (heof : t.token ≠ .eof) (hends : ends t.token = true) :
    gather ends last [] (t :: rest) = ([], t :: rest) := by
  rw [gather, if_neg heof, if_pos (by simp [hends])]

theorem gather_plain (heof : t.token ≠ .eof) (hopen : Opener.ofToken? t.token = none)
    (hclose : ∀ b, t.token ≠ .closing b) :
    gather ends last (f :: fs) (t :: rest) =
      gather ends t.stop (f.push (.token t.token) :: fs) rest := by
  have hcloser : t.token ≠ f.opener.closer := by
    cases f.opener with
    | function name => exact hclose .paren
    | block b => exact hclose b
  have hfeed : feed t (f :: fs) = (none, f.push (.token t.token) :: fs) := by
    simp only [feed, hcloser, if_false, hopen, deliver]
  rw [gather, if_neg heof, if_neg (by simp), hfeed]
  rfl

theorem gather_open {o : Opener} (hends : fs = [] → ends t.token = false)
    (hopen : Opener.ofToken? t.token = some o) :
    gather ends last fs (t :: rest) = gather ends t.stop (⟨o, t.start.offset, []⟩ :: fs) rest := by
  have hfeed : feed t fs = (none, ⟨o, t.start.offset, []⟩ :: fs) := by
    cases fs with
    | nil => simp only [feed, hopen]
    | cons f fs => simp only [feed, Opener.ne_closer_of_ofToken? hopen, if_false, hopen]
  have hgo : ¬ (fs.isEmpty && ends t.token) = true := by
    cases fs with
    | nil => simp [hends rfl]
    | cons f fs => simp
  rw [gather, if_neg (Opener.ne_eof_of_ofToken? hopen), if_neg hgo, hfeed]
  rfl

theorem gather_close (hclose : t.token = f.opener.closer) :
    gather ends last (f :: fs) (t :: rest) =
      ((deliver ⟨f.close, f.start, t.stop⟩ fs).1.toList ++
          (gather ends t.stop (deliver ⟨f.close, f.start, t.stop⟩ fs).2 rest).1,
        (gather ends t.stop (deliver ⟨f.close, f.start, t.stop⟩ fs).2 rest).2) := by
  have hfeed : feed t (f :: fs) = deliver ⟨f.close, f.start, t.stop⟩ fs := by
    simp only [feed, hclose, if_true]
  rw [gather, if_neg (hclose ▸ f.opener.closer_ne_eof), if_neg (by simp), hfeed]

theorem gather_token (heof : t.token ≠ .eof) (hends : ends t.token = false)
    (hopen : Opener.ofToken? t.token = none) :
    gather ends last [] (t :: rest) =
      (⟨.token t.token, t.start.offset, t.stop⟩ :: (gather ends t.stop [] rest).1,
        (gather ends t.stop [] rest).2) := by
  have hfeed : feed t [] = (some ⟨.token t.token, t.start.offset, t.stop⟩, []) := by
    simp only [feed, hopen, deliver]
  rw [gather, if_neg heof, if_neg (by simp [hends]), hfeed]
  rfl

/-- Inside a frame matched tokens are read as components of it, whatever follows. -/
theorem gather_inside (h : Matched ends' ts) : ∃ cs, ∀ ends last f fs rest,
    gather ends last (f :: fs) (ts ++ rest) =
      gather ends (lastStop last ts) ({ f with inside := f.inside ++ cs } :: fs) rest := by
  induction h with
  | nil =>
    refine ⟨[], fun ends last f fs rest => ?_⟩
    rw [List.append_nil]
    rfl
  | @plain ends' t ts _ heof hopen hclose _ ih =>
    obtain ⟨cs, hcs⟩ := ih
    refine ⟨.token t.token :: cs, fun ends last f fs rest => ?_⟩
    rw [List.cons_append, gather_plain heof hopen hclose, hcs, Frame.push, List.append_assoc]
    rfl
  | @group ends' t c o inside ts _ hopen hclose _ _ ihinside ih =>
    obtain ⟨ds, hds⟩ := ihinside
    obtain ⟨cs, hcs⟩ := ih
    refine ⟨o.component ds :: cs, fun ends last f fs rest => ?_⟩
    rw [List.cons_append, List.append_assoc, List.cons_append,
      gather_open (fun h => absurd h (List.cons_ne_nil _ _)) hopen, hds, gather_close hclose]
    simp only [deliver, Option.toList_none, List.nil_append, Frame.push, Frame.close]
    rw [hcs, List.append_assoc, lastStop, lastStop, List.foldl_cons, List.foldl_append]
    rfl

/-- Outside of frames matched tokens are read as components of their own, whatever follows. -/
theorem gather_outside (h : Matched ends ts) : ∃ vs, ∀ last rest,
    gather ends last [] (ts ++ rest) =
      (vs ++ (gather ends (lastStop last ts) [] rest).1, (gather ends (lastStop last ts) [] rest).2) := by
  induction h with
  | nil => exact ⟨[], fun _ _ => rfl⟩
  | @plain ends t ts hends heof hopen hclose _ ih =>
    obtain ⟨vs, hvs⟩ := ih
    refine ⟨⟨.token t.token, t.start.offset, t.stop⟩ :: vs, fun last rest => ?_⟩
    rw [List.cons_append, gather_token heof hends hopen, hvs]
    rfl
  | @group ends t c o inside ts hends hopen hclose hinside _ _ ih =>
    obtain ⟨ds, hds⟩ := gather_inside hinside
    obtain ⟨vs, hvs⟩ := ih
    refine ⟨⟨o.component ds, t.start.offset, c.stop⟩ :: vs, fun last rest => ?_⟩
    rw [List.cons_append, List.append_assoc, List.cons_append, gather_open (fun _ => hends) hopen, hds,
      gather_close hclose]
    simp only [deliver, Option.toList_some, Frame.close, List.nil_append]
    rw [hvs, lastStop, lastStop, List.foldl_cons, List.foldl_append]
    rfl

/-- Matched tokens are taken whole, up to a token that ends them. -/
theorem takeUntil_matched (h : Matched ends ts) : ∃ vs, takeUntil ends ts = (vs, []) ∧
    ∀ t rest, t.token ≠ .eof → ends t.token = true →
      takeUntil ends (ts ++ t :: rest) = (vs, t :: rest) := by
  obtain ⟨vs, hvs⟩ := gather_outside h
  refine ⟨vs, ?_, fun t rest heof hends => ?_⟩
  · have hwhole := hvs 0 []
    rw [List.append_nil] at hwhole
    rw [takeUntil, hwhole, gather, closeAll, Option.toList_none, List.append_nil]
  · rw [takeUntil, hvs, gather_stop heof hends, List.append_nil]

theorem takeUntil_snd (h : Matched ends ts) (heof : t.token ≠ .eof) (hends : ends t.token = true)
    (rest : List Located) : (takeUntil ends (ts ++ t :: rest)).2 = t :: rest := by
  obtain ⟨vs, _, hstop⟩ := takeUntil_matched h
  rw [hstop t rest heof hends]

/-- A closing bracket that closes nothing is one more token. -/
theorem takeUntil_over_closing {us : List Located} {c : Located} {b : Bracket} (h : Matched ends ts)
    (hc : c.token = .closing b) (hgo : ends c.token = false) (hus : Matched ends us)
    (heof : t.token ≠ .eof) (hends : ends t.token = true) (rest : List Located) :
    (takeUntil ends (ts ++ c :: (us ++ t :: rest))).2 = t :: rest := by
  obtain ⟨vs, hvs⟩ := gather_outside h
  obtain ⟨ws, hws⟩ := gather_outside hus
  rw [takeUntil, hvs, gather_token (by simp [hc]) hgo (by rw [hc]; rfl), hws, gather_stop heof hends]

end Component

namespace Matched

variable {ends ends' : Token → Bool} {ts us : List Located}

theorem of_standsAlone (h : ts.all (fun t => t.token.standsAlone && !ends t.token) = true) : Matched ends ts := by
  induction ts with
  | nil => exact .nil
  | cons t ts ih =>
    rw [List.all_cons, Bool.and_eq_true, Bool.and_eq_true, Bool.not_eq_true'] at h
    obtain ⟨⟨halone, hends⟩, hts⟩ := h
    refine .plain hends ?_ ?_ (fun b => ?_) (ih hts) <;> cases htoken : t.token <;> rw [htoken] at halone <;>
      simp_all [Token.standsAlone, Opener.ofToken?]

theorem append (h : Matched ends ts) (hus : Matched ends us) : Matched ends (ts ++ us) := by
  induction h with
  | nil => exact hus
  | plain hends heof hopen hclose _ ih => exact .plain hends heof hopen hclose (ih hus)
  | group hends hopen hclose hinside _ _ ih =>
    rw [List.cons_append, List.append_assoc, List.cons_append]
    exact .group hends hopen hclose hinside (ih hus)

theorem head_ne_eof {t : Located} (h : Matched ends (t :: ts)) : t.token ≠ .eof := by
  cases h with
  | plain _ heof => exact heof
  | group _ hopen => exact Opener.ne_eof_of_ofToken? hopen

theorem head_ne_closing {t : Located} (h : Matched ends (t :: ts)) (b : Bracket) :
    t.token ≠ .closing b := by
  cases h with
  | plain _ _ _ hclose => exact hclose b
  | group _ hopen => exact Opener.ne_closer_of_ofToken? hopen (.block b)

theorem balanced (h : Matched ends ts) : Balanced ts := by
  induction h with
  | nil => exact .nil
  | plain _ heof hopen hclose _ ih => exact .plain rfl heof hopen hclose ih
  | group _ hopen hclose hinside _ _ ih => exact .group rfl hopen hclose hinside ih

theorem closing (h : Matched ends ts) (b : Bracket) : Matched (· == .closing b) ts := by
  induction h with
  | nil => exact .nil
  | plain _ heof hopen hclose _ ih =>
    exact .plain (beq_eq_false_iff_ne.2 (hclose b)) heof hopen hclose ih
  | group _ hopen hclose hinside _ _ ih =>
    have hne := Opener.ne_closer_of_ofToken? hopen (.block b)
    exact .group (beq_eq_false_iff_ne.2 hne) hopen hclose hinside ih

/-- A token that opens nothing can be taken off. -/
theorem tail {t : Located} (h : Matched ends (t :: ts)) (hopen : Opener.ofToken? t.token = none) :
    Matched ends ts := by
  cases h with
  | plain _ _ _ _ hrest => exact hrest
  | group _ hopen' =>
    rw [hopen] at hopen'
    cases hopen'

/-- Matched tokens part before the first token outside brackets that ends something. -/
theorem split (h : Matched ends' ts) (ends : Token → Bool) : ∃ a b, ts = a ++ b ∧ Matched ends a ∧
    Matched ends' b ∧ ∀ t ∈ b.head?, ends t.token = true := by
  induction h with
  | nil => exact ⟨[], [], rfl, .nil, .nil, fun _ h => nomatch h⟩
  | @plain ends' t ts hends' heof hopen hclose hrest ih =>
    by_cases hends : ends t.token = true
    · exact ⟨[], t :: ts, rfl, .nil, .plain hends' heof hopen hclose hrest, by simpa using hends⟩
    · obtain ⟨a, b, rfl, ha, hb, hhead⟩ := ih
      exact ⟨t :: a, b, rfl, .plain (Bool.eq_false_iff.2 hends) heof hopen hclose ha, hb, hhead⟩
  | @group ends' t c o inside ts hends' hopen hclose hinside hrest _ ih =>
    by_cases hends : ends t.token = true
    · exact ⟨[], _, rfl, .nil, .group hends' hopen hclose hinside hrest, by simpa using hends⟩
    · obtain ⟨a, b, rfl, ha, hb, hhead⟩ := ih
      refine ⟨t :: (inside ++ c :: a), b, ?_, ?_, hb, hhead⟩
      · rw [List.cons_append, List.append_assoc, List.cons_append]
      · exact .group (Bool.eq_false_iff.2 hends) hopen hclose hinside ha

/-- In front of a token that would end them matched tokens are read as they are alone. -/
theorem takeUntil_append (h : Balanced ts) {c : Located} (hc : c.token ≠ .eof)
    (hends : ends c.token = true) :
    Balanced (Component.takeUntil ends ts).2 ∧ ∀ rest, Component.takeUntil ends (ts ++ c :: rest) =
      ((Component.takeUntil ends ts).1, (Component.takeUntil ends ts).2 ++ c :: rest) := by
  obtain ⟨a, b, rfl, ha, hb, hhead⟩ := h.split ends
  obtain ⟨vs, hwhole, hstop⟩ := Component.takeUntil_matched ha
  cases b with
  | nil =>
    rw [List.append_nil, hwhole]
    exact ⟨.nil, fun rest => hstop c rest hc hends⟩
  | cons t b =>
    have ht : ends t.token = true := hhead t rfl
    rw [hstop t b hb.head_ne_eof ht]
    refine ⟨hb, fun rest => ?_⟩
    rw [List.append_assoc, List.cons_append]
    exact hstop t _ hb.head_ne_eof ht

end Matched
end StyleMiner
