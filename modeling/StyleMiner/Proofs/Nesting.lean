import StyleMiner.Proofs.Matching

/-! Components hold their tokens and nothing else. Written back they are the tokens that they were read from,
with the closing brackets that the end of the text stood for, and components in which every token stands for
itself are read back from what they are written as. -/

namespace StyleMiner

namespace Opener

variable {o : Opener} {t : Token}

/-- the token that opens it -/
def token : Opener → Token
  | .function name => .function name
  | .block bracket => .opening bracket

theorem ofToken?_eq_some : ofToken? t = some o ↔ t = o.token := by
  cases o <;> cases t <;> simp [ofToken?, token]

/-- what a token does to the openers still open, the innermost of which comes first -/
def after (os : List Opener) (t : Token) : List Opener :=
  if os.head?.map closer = some t then os.tail else (ofToken? t).toList ++ os

/-- the openers that tokens leave open, the innermost first -/
def stillOpen (ts : List Token) : List Opener := ts.foldl after []

end Opener

/-- every token in it stands for itself: none opens anything or is the end, and none closes what holds it -/
inductive Component.WellNested : Component → Prop where
  | token {t : Token} (heof : t ≠ .eof) (hopen : Opener.ofToken? t = none) : WellNested (.token t)
  | group (o : Opener) {cs : List Component} (hinside : ∀ c ∈ cs, WellNested c)
    (hclose : .token o.closer ∉ cs) : WellNested (o.component cs)

namespace Frame

variable {f : Frame} {c : Component}

/-- what a frame holds is well nested and does not close it -/
structure Sound (f : Frame) : Prop where
  inside : ∀ c ∈ f.inside, c.WellNested
  unclosed : .token f.opener.closer ∉ f.inside

theorem Sound.push (hf : f.Sound) (hc : c.WellNested) (hne : c ≠ .token f.opener.closer) :
    (f.push c).Sound where
  inside d hd := (List.mem_append.1 hd).elim (hf.inside d) fun hd => List.mem_singleton.1 hd ▸ hc
  unclosed hmem := (List.mem_append.1 hmem).elim hf.unclosed fun hmem => hne (List.mem_singleton.1 hmem).symm

theorem Sound.close (hf : f.Sound) : f.close.WellNested := .group _ hf.inside hf.unclosed

end Frame

namespace Component

variable {ends : Token → Bool} {ts us rest : List Located} {t e : Located} {f : Frame} {fs : List Frame}
  {cs ds : List Component} {c : Component} {s : Spanned} {o : Opener} {last : Nat}

theorem flattenAll_append (cs ds : List Component) :
    flattenAll (cs ++ ds) = flattenAll cs ++ flattenAll ds := by
  induction cs with
  | nil => rfl
  | cons c cs ih => rw [List.cons_append, flattenAll, flattenAll, ih, List.append_assoc]

theorem flattenAll_singleton (c : Component) : flattenAll [c] = flatten c := List.append_nil _

theorem flatten_component (o : Opener) (cs : List Component) :
    flatten (o.component cs) = o.token :: (flattenAll cs ++ [o.closer]) := by
  cases o <;> rfl

theorem component_ne_token (o : Opener) (cs : List Component) (t : Token) : o.component cs ≠ .token t := by
  cases o <;> exact Component.noConfusion

/-- the tokens that open frames hold -/
def held : List Frame → List Token
  | [] => []
  | f :: fs => held fs ++ f.opener.token :: flattenAll f.inside

theorem held_push (f : Frame) (fs : List Frame) (c : Component) :
    held (f.push c :: fs) = held (f :: fs) ++ flatten c := by
  simp only [held, Frame.push, flattenAll_append, flattenAll_singleton, List.append_assoc,
    List.cons_append]

theorem held_close (f : Frame) (fs : List Frame) :
    held (f :: fs) ++ [f.opener.closer] = held fs ++ flatten f.close := by
  rw [Frame.close, flatten_component, held, List.append_assoc, List.cons_append]

/-- what a step gives out and what it leaves open, which together hold `ts` -/
structure Step (r : Option Spanned × List Frame) (ts : List Token) (os : List Opener) : Prop where
  tokens : flattenAll (r.1.toList.map (·.component)) ++ held r.2 = ts
  openers : r.2.map (·.opener) = os
  nested : ∀ s ∈ r.1, WellNested s.component
  sound : ∀ f ∈ r.2, f.Sound

theorem deliver_step (hs : WellNested s.component) (hfs : ∀ f ∈ fs, f.Sound)
    (hne : ∀ f ∈ fs.head?, s.component ≠ .token f.opener.closer) :
    Step (deliver s fs) (held fs ++ flatten s.component) (fs.map (·.opener)) := by
  cases fs with
  | nil =>
    refine ⟨?_, rfl, fun _ h => Option.some.inj h ▸ hs, fun _ h => absurd h List.not_mem_nil⟩
    rw [deliver, held, List.append_nil, List.nil_append]
    exact flattenAll_singleton _
  | cons f fs =>
    refine ⟨held_push f fs _, rfl, fun _ h => absurd h (Option.not_mem_none _), fun g hg => ?_⟩
    rcases List.mem_cons.1 hg with rfl | hg
    · exact (hfs f (List.mem_cons_self ..)).push hs (hne f rfl)
    · exact hfs g (List.mem_cons_of_mem f hg)

theorem feed_opening (hclose : ∀ f ∈ fs.head?, t.token ≠ f.opener.closer)
    (hopen : Opener.ofToken? t.token = some o) : feed t fs = (none, ⟨o, t.start.offset, []⟩ :: fs) := by
  cases fs with
  | nil => rw [feed, hopen]
  | cons f fs => rw [feed, if_neg (hclose f rfl), hopen]

theorem feed_plain (hclose : ∀ f ∈ fs.head?, t.token ≠ f.opener.closer)
    (hopen : Opener.ofToken? t.token = none) :
    feed t fs = deliver ⟨.token t.token, t.start.offset, t.stop⟩ fs := by
  cases fs with
  | nil => rw [feed, hopen]
  | cons f fs => rw [feed, if_neg (hclose f rfl), hopen]

/-- One token is kept, and does to the frames what it does to their openers. -/
theorem feed_step (heof : t.token ≠ .eof) (hfs : ∀ f ∈ fs, f.Sound) :
    Step (feed t fs) (held fs ++ [t.token]) (Opener.after (fs.map (·.opener)) t.token) := by
  have hopened (hclose : ∀ f ∈ fs.head?, t.token ≠ f.opener.closer) :
      Step (feed t fs) (held fs ++ [t.token]) (Opener.after (fs.map (·.opener)) t.token) := by
    have hafter : (fs.map (·.opener)).head?.map Opener.closer ≠ some t.token := by
      intro h
      rw [List.head?_map, Option.map_map] at h
      obtain ⟨f, hf, heq⟩ := Option.map_eq_some_iff.1 h
      exact hclose f hf heq.symm
    rw [Opener.after, if_neg hafter]
    cases hopen : Opener.ofToken? t.token with
    | some o =>
      rw [feed_opening hclose hopen, Opener.ofToken?_eq_some.1 hopen]
      refine ⟨rfl, rfl, fun _ h => absurd h (Option.not_mem_none _), fun g hg => ?_⟩
      rcases List.mem_cons.1 hg with rfl | hg
      · exact ⟨fun _ h => absurd h List.not_mem_nil, List.not_mem_nil⟩
      · exact hfs g hg
    | none =>
      rw [feed_plain hclose hopen]
      exact deliver_step (.token heof hopen) hfs fun f hf heq => hclose f hf (Component.token.inj heq)
  cases fs with
  | nil => exact hopened fun f hf => absurd hf (Option.not_mem_none f)
  | cons f fs =>
    by_cases hclose : t.token = f.opener.closer
    · have hsound := hfs f (List.mem_cons_self ..)
      rw [feed, if_pos hclose, hclose, held_close, Opener.after, if_pos (by rfl)]
      exact deliver_step hsound.close (fun g hg => hfs g (List.mem_cons_of_mem f hg))
        fun g _ => component_ne_token _ _ _
    · exact hopened fun g hg => Option.some.inj hg ▸ hclose

theorem closeAll_cons (stop : Nat) (f g : Frame) (fs : List Frame) :
    closeAll stop (f :: g :: fs) = closeAll stop (g.push f.close :: fs) := rfl

/-- At the end what is open is closed, the innermost first. -/
theorem closeAll_exact (stop : Nat) (hfs : ∀ f ∈ fs, f.Sound) :
    flattenAll ((closeAll stop fs).toList.map (·.component)) =
      held fs ++ fs.map (·.opener.closer) ∧ ∀ s ∈ closeAll stop fs, WellNested s.component := by
  cases fs with
  | nil => exact ⟨rfl, fun _ h => nomatch h⟩
  | cons f fs =>
    induction fs generalizing f with
    | nil =>
      have hf := hfs f (List.mem_cons_self ..)
      refine ⟨?_, fun s hs => Option.some.inj hs ▸ hf.close⟩
      exact (flattenAll_singleton _).trans (held_close f []).symm
    | cons g fs ih =>
      have hf := hfs f (List.mem_cons_self ..)
      have hg := hfs g (List.mem_cons_of_mem f (List.mem_cons_self ..))
      have hpush := hg.push hf.close (component_ne_token _ _ _)
      rw [closeAll_cons]
      obtain ⟨hflat, hnested⟩ := ih (g.push f.close) fun h hh => (List.mem_cons.1 hh).elim
        (fun heq => heq ▸ hpush) fun hh => hfs h (List.mem_cons_of_mem f (List.mem_cons_of_mem g hh))
      refine ⟨?_, hnested⟩
      rw [hflat, held_push, ← held_close, List.append_assoc]
      rfl

/-- Whatever is open in front of them, tokens come out again in order, and behind them the brackets that
close what is open at the end. -/
theorem gather_exact (last : Nat) (he : e.token = .eof) (hts : ∀ t ∈ ts, t.token ≠ .eof)
    (hfs : ∀ f ∈ fs, f.Sound) :
    flattenAll ((gather (fun _ => false) last fs (ts ++ [e])).1.map (·.component)) =
      held fs ++ ts.map (·.token) ++
        ((ts.map (·.token)).foldl Opener.after (fs.map (·.opener))).map Opener.closer ∧
    ∀ s ∈ (gather (fun _ => false) last fs (ts ++ [e])).1, WellNested s.component := by
  induction ts generalizing last fs with
  | nil =>
    obtain ⟨hflat, hnested⟩ := closeAll_exact last hfs
    rw [List.nil_append, gather, if_pos he]
    refine ⟨?_, fun s hs => hnested s (Option.mem_toList.1 hs)⟩
    rw [hflat, List.map_nil, List.append_nil, List.foldl_nil, List.map_map]
    rfl
  | cons t ts ih =>
    obtain ⟨htokens, hopeners, hnested, hsound⟩ := feed_step (hts t (List.mem_cons_self ..)) hfs
    obtain ⟨hflat, hrest⟩ := ih t.stop (fun u hu => hts u (List.mem_cons_of_mem t hu)) hsound
    rw [List.cons_append, gather, if_neg (hts t (List.mem_cons_self ..)), if_neg (by simp)]
    refine ⟨?_, fun s hs => ?_⟩
    · rw [List.map_append, flattenAll_append, hflat, hopeners, ← List.append_assoc, ← List.append_assoc,
        htokens, List.append_assoc (held fs), List.map_cons, List.foldl_cons]
      rfl
    · exact (List.mem_append.1 hs).elim (fun hs => hnested s (Option.mem_toList.1 hs)) (hrest s)

/-- the tokens of `c` are read as `c`, wherever they stand -/
def ReadBack (c : Component) : Prop := ∀ us : List Located, us.map (·.token) = flatten c →
  ∀ (last : Nat) (fs : List Frame) (rest : List Located), (∀ f ∈ fs.head?, c ≠ .token f.opener.closer) →
    ∃ s : Spanned, s.component = c ∧ gather (fun _ => false) last fs (us ++ rest) =
      ((deliver s fs).1.toList ++ (gather (fun _ => false) (lastStop last us) (deliver s fs).2 rest).1,
        (gather (fun _ => false) (lastStop last us) (deliver s fs).2 rest).2)

/-- Inside a frame that none of them closes components are read back one behind the other. -/
theorem gather_readBack (last : Nat) (hcs : ∀ c ∈ cs, ReadBack c) (hus : us.map (·.token) = flattenAll cs)
    (hclose : .token f.opener.closer ∉ cs) : gather (fun _ => false) last (f :: fs) (us ++ rest) =
      gather (fun _ => false) (lastStop last us) ({ f with inside := f.inside ++ cs } :: fs) rest := by
  induction cs generalizing last f us with
  | nil =>
    rw [List.map_eq_nil_iff.1 hus, List.append_nil]
    rfl
  | cons c cs ih =>
    obtain ⟨vs, ws, rfl, hvs, hws⟩ := List.map_eq_append_iff.1 hus
    rw [List.mem_cons, not_or] at hclose
    obtain ⟨s, rfl, hs⟩ := hcs c (List.mem_cons_self ..) vs hvs last (f :: fs) (ws ++ rest)
      fun g hg => Option.some.inj hg ▸ Ne.symm hclose.1
    have hrest := ih (f := f.push s.component) (lastStop last vs)
      (fun d hd => hcs d (List.mem_cons_of_mem _ hd)) hws hclose.2
    rw [List.append_assoc, hs]
    simp only [deliver, Option.toList_none, List.nil_append]
    rw [hrest, Frame.push, List.append_assoc, lastStop, lastStop, lastStop, List.foldl_append]
    rfl

theorem WellNested.readBack (hc : WellNested c) : ReadBack c := by
  induction hc with
  | @token k heof hopen =>
    intro us hus last fs rest hclose
    obtain ⟨t, us', rfl, rfl, hnil⟩ := List.map_eq_cons_iff.1 hus
    obtain rfl := List.map_eq_nil_iff.1 hnil
    refine ⟨⟨.token t.token, t.start.offset, t.stop⟩, rfl, ?_⟩
    have hfeed : feed t fs = deliver ⟨.token t.token, t.start.offset, t.stop⟩ fs := by
      cases fs with
      | nil => rw [feed, hopen]
      | cons f fs => rw [feed, if_neg fun heq => hclose f rfl (congrArg _ heq), hopen]
    rw [List.singleton_append, gather, if_neg heof, if_neg (by simp), hfeed]
    rfl
  | @group o cs hinside hclose ih =>
    intro us hus last fs rest _
    rw [flatten_component] at hus
    obtain ⟨t, us', rfl, ht, hus'⟩ := List.map_eq_cons_iff.1 hus
    obtain ⟨vs, ks, rfl, hvs, hks⟩ := List.map_eq_append_iff.1 hus'
    obtain ⟨k, ks', rfl, hk, hnil⟩ := List.map_eq_cons_iff.1 hks
    obtain rfl := List.map_eq_nil_iff.1 hnil
    refine ⟨⟨o.component cs, t.start.offset, k.stop⟩, rfl, ?_⟩
    rw [List.cons_append, List.append_assoc, gather_open (fun _ => rfl) (Opener.ofToken?_eq_some.2 ht),
      gather_readBack t.stop ih hvs hclose, List.singleton_append, gather_close hk, Frame.close, lastStop,
      List.foldl_cons, List.foldl_append]
    rfl

theorem gather_wellNested (last : Nat) (rest : List Located) (hcs : ∀ c ∈ cs, WellNested c)
    (hus : us.map (·.token) = flattenAll cs) :
    ∃ vs : List Spanned, vs.map (·.component) = cs ∧ gather (fun _ => false) last [] (us ++ rest) =
      (vs ++ (gather (fun _ => false) (lastStop last us) [] rest).1,
        (gather (fun _ => false) (lastStop last us) [] rest).2) := by
  induction cs generalizing last us with
  | nil => exact ⟨[], rfl, by rw [List.map_eq_nil_iff.1 hus]; rfl⟩
  | cons c cs ih =>
    obtain ⟨ws, xs, rfl, hws, hxs⟩ := List.map_eq_append_iff.1 hus
    obtain ⟨s, rfl, hs⟩ := (hcs c (List.mem_cons_self ..)).readBack ws hws last [] (xs ++ rest)
      fun g hg => nomatch hg
    obtain ⟨vs, rfl, hvs⟩ := ih (lastStop last ws) (fun d hd => hcs d (List.mem_cons_of_mem _ hd)) hxs
    refine ⟨s :: vs, rfl, ?_⟩
    rw [List.append_assoc, hs]
    simp only [deliver]
    rw [hvs, lastStop, lastStop, lastStop, List.foldl_append]
    rfl

theorem ofTokens_lossless (he : e.token = .eof) (hts : ∀ t ∈ ts, t.token ≠ .eof) :
    flattenAll (ofTokens (ts ++ [e])) =
      ts.map (·.token) ++ (Opener.stillOpen (ts.map (·.token))).map Opener.closer ∧
    ∀ c ∈ ofTokens (ts ++ [e]), WellNested c := by
  obtain ⟨hflat, hnested⟩ := gather_exact 0 he hts (fun f (h : f ∈ []) => nomatch h)
  refine ⟨hflat, fun c hc => ?_⟩
  obtain ⟨s, hs, rfl⟩ := List.mem_map.1 hc
  exact hnested s hs

theorem ofTokens_flattenAll (he : e.token = .eof) (hcs : ∀ c ∈ cs, WellNested c)
    (hts : ts.map (·.token) = flattenAll cs) : ofTokens (ts ++ [e]) = cs := by
  obtain ⟨vs, rfl, hvs⟩ := gather_wellNested 0 [e] hcs hts
  rw [ofTokens, takeUntil, hvs, gather, if_pos he, closeAll, Option.toList_none, List.append_nil]

/-- Reading components is exact. Of tokens without an end among them nothing is lost: the components flatten
to them and to the closing brackets of what is open at the end, the innermost first, and they are well
nested. And every list of well nested components is read back from the tokens that it flattens to. -/
theorem ofTokens_exact (e : Located) (he : e.token = .eof) :
    (∀ ts : List Located, (∀ t ∈ ts, t.token ≠ .eof) →
      flattenAll (ofTokens (ts ++ [e])) =
        ts.map (·.token) ++ (Opener.stillOpen (ts.map (·.token))).map Opener.closer ∧
      ∀ c ∈ ofTokens (ts ++ [e]), WellNested c) ∧
    ∀ cs : List Component, (∀ c ∈ cs, WellNested c) → ∀ ts : List Located,
      ts.map (·.token) = flattenAll cs → ofTokens (ts ++ [e]) = cs :=
  ⟨fun _ hts => ofTokens_lossless he hts, fun _ hcs _ hts => ofTokens_flattenAll he hcs hts⟩

theorem ofTokens_exact_unclosed :
    flattenAll (ofTokens ([⟨.function ['f'], .start, 2⟩, ⟨.opening .square, .start, 3⟩] ++
      [⟨.eof, .start, 3⟩])) =
        [.function ['f'], .opening .square, .closing .square, .closing .paren] ∧
    ofTokens ([⟨.function ['f'], .start, 2⟩, ⟨.closing .curly, .start, 3⟩, ⟨.closing .paren, .start, 4⟩] ++
      [⟨.eof, .start, 3⟩]) = [.function ['f'] [.token (.closing .curly)]] := by
  have hexact := ofTokens_exact ⟨.eof, .start, 3⟩ rfl
  refine ⟨(hexact.1 _ (by simp)).1, hexact.2 _ (fun c hc => ?_) _ rfl⟩
  rw [List.mem_singleton.1 hc]
  refine .group (.function ['f']) (fun d hd => ?_) (by simp [Opener.closer])
  rw [List.mem_singleton.1 hd]
  exact .token (by decide) rfl

/-- Where tokens stand does not matter to the components that they are read as. -/
theorem ofTokens_congr {e' : Located} (he : e.token = .eof) (he' : e'.token = .eof)
    (hts : ∀ t ∈ ts, t.token ≠ .eof) (h : us.map (·.token) = ts.map (·.token)) :
    ofTokens (us ++ [e']) = ofTokens (ts ++ [e]) := by
  have hus : ∀ t ∈ us, t.token ≠ .eof := fun t ht => by
    have hmem := List.mem_map_of_mem (f := (·.token)) ht
    rw [h] at hmem
    obtain ⟨x, hx, heq⟩ := List.mem_map.1 hmem
    exact heq ▸ hts x hx
  obtain ⟨hflat, hnested⟩ := ofTokens_lossless he hts
  obtain ⟨hflat', hnested'⟩ := ofTokens_lossless he' hus
  rw [h, ← hflat] at hflat'
  -- the tokens of either, put down anywhere, are read back as both
  have hplaced : ((flattenAll (ofTokens (ts ++ [e]))).map fun t => (⟨t, .start, 0⟩ : Located)).map (·.token) =
      flattenAll (ofTokens (ts ++ [e])) := by
    rw [List.map_map]
    exact List.map_id _
  rw [← ofTokens_flattenAll he hnested' (hplaced.trans hflat'.symm), ofTokens_flattenAll he hnested hplaced]

end Component
end StyleMiner
