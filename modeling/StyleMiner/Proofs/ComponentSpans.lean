import Mathlib.Data.List.Basic
import StyleMiner.Proofs.Nesting
import StyleMiner.Value.Reading

/-! Where a component comes from. Each is read from tokens side by side, from its first to the one that closes
it or to the end of the text, and these tokens by themselves are read as it and nothing else. -/

namespace StyleMiner.Component

variable {ends : Token → Bool} {ts us rest after : List Located} {t e x : Located} {f : Frame} {fs : List Frame}
  {cs : List Component} {c : Component} {s : Spanned} {o : Opener} {last start : Nat}

/-- the outermost of the open frames was opened by `o`, at `start` -/
def Under (o : Opener) (start : Nat) (fs : List Frame) : Prop :=
  ∃ f ∈ fs.getLast?, f.opener = o ∧ f.start = start

theorem under_singleton (o : Opener) (start : Nat) (cs : List Component) : Under o start [⟨o, start, cs⟩] :=
  ⟨_, rfl, rfl, rfl⟩

theorem Under.cons (h : Under o start fs) (f : Frame) : Under o start (f :: fs) := by
  obtain ⟨g, hg, hopener⟩ := h
  exact ⟨g, List.mem_getLast?_cons hg, hopener⟩

theorem Under.push (h : Under o start (f :: fs)) (c : Component) : Under o start (f.push c :: fs) := by
  cases fs with
  | nil =>
    obtain ⟨g, hg, rfl, rfl⟩ := h
    obtain rfl := Option.some.inj hg
    exact ⟨_, rfl, rfl, rfl⟩
  | cons g fs =>
    obtain ⟨k, hk, hopener⟩ := h
    rw [List.getLast?_cons_cons] at hk
    exact Under.cons ⟨k, hk, hopener⟩ _

theorem Under.tail {g : Frame} (h : Under o start (f :: g :: fs)) : Under o start (g :: fs) := by
  obtain ⟨k, hk, hopener⟩ := h
  rw [List.getLast?_cons_cons] at hk
  exact ⟨k, hk, hopener⟩

/-- A token closes the outermost frame or leaves it open. -/
theorem Under.feed (h : Under o start fs) (t : Located) :
    (t.token = o.closer ∧ ∃ cs, feed t fs = (some ⟨o.component cs, start, t.stop⟩, [])) ∨
    ∃ fs', Component.feed t fs = (none, fs') ∧ Under o start fs' := by
  cases fs with
  | nil =>
    obtain ⟨f, hf, -⟩ := h
    cases hf
  | cons f fs =>
    by_cases hclose : t.token = f.opener.closer
    · rw [Component.feed, if_pos hclose]
      cases fs with
      | nil =>
        obtain ⟨g, hg, rfl, rfl⟩ := h
        obtain rfl := Option.some.inj hg
        exact .inl ⟨hclose, f.inside, rfl⟩
      | cons g fs => exact .inr ⟨_, rfl, h.tail.push _⟩
    · rw [Component.feed, if_neg hclose]
      cases Opener.ofToken? t.token with
      | some p => exact .inr ⟨_, rfl, h.cons _⟩
      | none => exact .inr ⟨_, rfl, h.push _⟩

theorem Under.closeAll (h : Under o start fs) :
    ∃ cs, ∀ stop, closeAll stop fs = some ⟨o.component cs, start, stop⟩ := by
  cases fs with
  | nil =>
    obtain ⟨f, hf, -⟩ := h
    cases hf
  | cons f fs =>
    induction fs generalizing f with
    | nil =>
      obtain ⟨g, hg, rfl, rfl⟩ := h
      obtain rfl := Option.some.inj hg
      exact ⟨f.inside, fun _ => rfl⟩
    | cons g fs ih =>
      obtain ⟨cs, hcs⟩ := ih (g.push f.close) (h.tail.push _)
      exact ⟨cs, fun stop => (closeAll_cons stop f g fs).trans (hcs stop)⟩

theorem Under.gather_cons (h : Under o start fs) (ht : t.token ≠ .eof) : gather ends last fs (t :: ts) =
    ((Component.feed t fs).1.toList ++ (gather ends t.stop (Component.feed t fs).2 ts).1,
      (gather ends t.stop (Component.feed t fs).2 ts).2) := by
  have hopen : fs.isEmpty = false := by
    obtain ⟨f, hf, -⟩ := h
    cases fs with
    | nil => cases hf
    | cons g fs => rfl
  rw [gather, if_neg ht, hopen, Bool.false_and, if_neg Bool.false_ne_true]

/-- the text is over in front of these tokens -/
def AtEnd (ts : List Located) : Prop := ∀ t ∈ ts.head?, t.token = .eof

theorem gather_atEnd (h : AtEnd ts) : (gather ends last fs ts).1 = (Component.closeAll last fs).toList := by
  cases ts with
  | nil => rfl
  | cons t ts => rw [gather, if_pos (h t rfl)]

/-- the components that tokens are read as behind the open frames `fs`, where the text ends with them -/
def readUnder (last : Nat) (fs : List Frame) (ts : List Located) (e : Located) : List Component :=
  (gather (fun _ => false) last fs (ts ++ [e])).1.map (·.component)

/-- Under frames the outermost of which `o` opened these tokens are read as `o` with `cs` in it, and the first
of them as `o` with something in it. -/
structure Completes (fs : List Frame) (o : Opener) (us : List Located) (cs : List Component) : Prop where
  tokens : ∀ t ∈ us, t.token ≠ .eof
  whole : ∀ (last : Nat) (e : Located), e.token = .eof → readUnder last fs us e = [o.component cs]
  cut : ∀ (last : Nat) (e : Located), e.token = .eof → ∀ vs, vs <+: us →
    ∃ ds, readUnder last fs vs e = [o.component ds]

theorem completes_nil (h : ∀ stop, Component.closeAll stop fs = some ⟨o.component cs, start, stop⟩) :
    Completes fs o [] cs := by
  have hwhole (last : Nat) (e : Located) (he : e.token = .eof) : readUnder last fs [] e = [o.component cs] := by
    rw [readUnder, List.nil_append, gather, if_pos he, h]
    rfl
  refine ⟨fun _ h => absurd h List.not_mem_nil, hwhole, fun last e he vs hvs => ⟨cs, ?_⟩⟩
  rw [List.prefix_nil.1 hvs, hwhole last e he]

/-- What is read under frames of the first of some tokens, if the others go on. -/
theorem Completes.cons (hunder : Under o start fs) (ht : t.token ≠ .eof)
    (hwhole : ∀ e : Located, e.token = .eof → (Component.feed t fs).1.toList.map (·.component) ++
      readUnder t.stop (Component.feed t fs).2 us e = [o.component cs])
    (hcut : ∀ e : Located, e.token = .eof → ∀ vs, vs <+: us → ∃ ds,
      (Component.feed t fs).1.toList.map (·.component) ++ readUnder t.stop (Component.feed t fs).2 vs e =
        [o.component ds])
    (hus : ∀ t ∈ us, t.token ≠ .eof) : Completes fs o (t :: us) cs := by
  have hread (last : Nat) (e : Located) (vs : List Located) : readUnder last fs (t :: vs) e =
      (Component.feed t fs).1.toList.map (·.component) ++ readUnder t.stop (Component.feed t fs).2 vs e := by
    rw [readUnder, List.cons_append, hunder.gather_cons ht, List.map_append]
    rfl
  refine ⟨fun u hu => ?_, fun last e he => (hread last e us).trans (hwhole e he), fun last e he vs hvs => ?_⟩
  · rcases List.mem_cons.1 hu with rfl | hu
    · exact ht
    · exact hus u hu
  · cases vs with
    | nil =>
      obtain ⟨ds, hds⟩ := hunder.closeAll
      exact ⟨ds, (completes_nil hds).whole last e he⟩
    | cons v vs =>
      obtain ⟨rfl, hrest⟩ := List.cons_prefix_cons.1 hvs
      obtain ⟨ds, hds⟩ := hcut e he vs hrest
      exact ⟨ds, (hread last e vs).trans hds⟩

theorem Under.atEnd (h : Under o start fs) (hts : AtEnd ts) : ∃ cs, Completes fs o [] cs ∧
    (gather ends last fs ts).1 = ⟨o.component cs, start, last⟩ :: (gather ends last [] ts).1 := by
  obtain ⟨cs, hcs⟩ := h.closeAll
  refine ⟨cs, completes_nil hcs, ?_⟩
  rw [gather_atEnd hts, gather_atEnd hts, hcs]
  rfl

/-- Under an outermost frame tokens are taken up to the one that closes it. -/
theorem Under.gather (h : Under o start fs) (ends : Token → Bool) (last : Nat) (ts : List Located) :
    ∃ us after cs, ts = us ++ after ∧ Completes fs o us cs ∧
      (gather ends last fs ts).1 = ⟨o.component cs, start, lastStop last us⟩ ::
        (gather ends (lastStop last us) [] after).1 ∧
      (AtEnd after ∨ ∃ y ∈ us.getLast?, y.token = o.closer) := by
  induction ts generalizing fs last with
  | nil =>
    obtain ⟨cs, hcs, hread⟩ := h.atEnd (fun t (ht : t ∈ [].head?) => absurd ht (Option.not_mem_none t))
    exact ⟨[], [], cs, rfl, hcs, hread, .inl fun t ht => absurd ht (Option.not_mem_none t)⟩
  | cons t ts ih =>
    by_cases ht : t.token = .eof
    · have hts : AtEnd (t :: ts) := fun u hu => Option.some.inj hu ▸ ht
      obtain ⟨cs, hcs, hread⟩ := h.atEnd hts
      exact ⟨[], t :: ts, cs, rfl, hcs, hread, .inl hts⟩
    rcases h.feed t with ⟨hclose, cs, hfeed⟩ | ⟨fs', hfeed, hunder⟩
    · have hread (e : Located) (he : e.token = .eof) : (Component.feed t fs).1.toList.map (·.component) ++
          readUnder t.stop (Component.feed t fs).2 [] e = [o.component cs] := by
        rw [hfeed, readUnder, List.nil_append, Component.gather, if_pos he]
        rfl
      refine ⟨[t], ts, cs, rfl, .cons h ht hread (fun e he vs hvs => ⟨cs, ?_⟩)
        (fun _ h => absurd h List.not_mem_nil), ?_, .inr ⟨t, rfl, hclose⟩⟩
      · rw [List.prefix_nil.1 hvs]
        exact hread e he
      · rw [h.gather_cons ht, hfeed]
        rfl
    · obtain ⟨us, after, cs, rfl, hcs, hread, hafter⟩ := ih hunder t.stop
      refine ⟨t :: us, after, cs, rfl, ?_, ?_, ?_⟩
      · refine .cons h ht (fun e he => ?_) (fun e he vs hvs => ?_) hcs.tokens <;> rw [hfeed]
        · exact hcs.whole t.stop e he
        · exact hcs.cut t.stop e he vs hvs
      · rw [h.gather_cons ht, hfeed]
        exact hread
      · rcases hafter with hafter | ⟨y, hy, hclose⟩
        · exact .inl hafter
        · exact .inr ⟨y, List.mem_getLast?_cons hy, hclose⟩

/-- These tokens alone are read as `c`, and the first of them alone as one component of its kind. -/
structure ReadsAs (us : List Located) (c : Component) : Prop where
  tokens : ∀ t ∈ us, t.token ≠ .eof
  whole : ∀ e : Located, e.token = .eof → ofTokens (us ++ [e]) = [c]
  cut : ∀ e : Located, e.token = .eof → ∀ vs, vs <+: us → vs ≠ [] →
    ∃ d, ofTokens (vs ++ [e]) = [d] ∧ d.kind = c.kind

theorem kind_component (o : Opener) (cs ds : List Component) : (o.component cs).kind = (o.component ds).kind := by
  cases o <;> rfl

theorem readsAs_token (heof : t.token ≠ .eof) (hopen : Opener.ofToken? t.token = none) :
    ReadsAs [t] (.token t.token) := by
  have hwhole (e : Located) (he : e.token = .eof) : ofTokens ([t] ++ [e]) = [.token t.token] := by
    rw [ofTokens, takeUntil, List.singleton_append, gather_token heof rfl hopen, gather, if_pos he]
    rfl
  refine ⟨fun u hu => List.mem_singleton.1 hu ▸ heof, hwhole, fun e he vs hvs hne => ⟨_, ?_, rfl⟩⟩
  obtain ⟨v, vs, rfl⟩ := List.exists_cons_of_ne_nil hne
  obtain ⟨rfl, hrest⟩ := List.cons_prefix_cons.1 hvs
  obtain rfl := List.prefix_nil.1 hrest
  exact hwhole e he

theorem Completes.readsAs (hopen : Opener.ofToken? t.token = some o)
    (h : Completes [⟨o, t.start.offset, []⟩] o us cs) : ReadsAs (t :: us) (o.component cs) := by
  have hread (vs : List Located) (e : Located) :
      ofTokens (t :: vs ++ [e]) = readUnder t.stop [⟨o, t.start.offset, []⟩] vs e := by
    rw [ofTokens, takeUntil, List.cons_append, gather_open (fun _ => rfl) hopen]
    rfl
  refine ⟨fun u hu => ?_, fun e he => (hread us e).trans (h.whole _ e he), fun e he vs hvs hne => ?_⟩
  · rcases List.mem_cons.1 hu with rfl | hu
    · exact Opener.ne_eof_of_ofToken? hopen
    · exact h.tokens u hu
  · obtain ⟨v, vs, rfl⟩ := List.exists_cons_of_ne_nil hne
    obtain ⟨rfl, hrest⟩ := List.cons_prefix_cons.1 hvs
    obtain ⟨ds, hds⟩ := h.cut v.stop e he vs hrest
    exact ⟨_, (hread vs e).trans hds, kind_component ..⟩

/-- Each component that is taken comes from tokens side by side, in which it starts and stops, and which are
read as it. The last of them closes it, unless it is that token or the text is over. -/
theorem gather_readsAs (h : s ∈ (gather ends last [] ts).1) : ∃ before x us after,
    ts = before ++ ((x :: us) ++ after) ∧ ReadsAs (x :: us) s.component ∧ s.start = x.start.offset ∧
      s.stop = lastStop 0 (x :: us) ∧
      (us = [] ∧ s.component = .token x.token ∧ Opener.ofToken? x.token = none ∨ AtEnd after ∨
        ∃ y ∈ (x :: us).getLast?, ∃ b, y.token = .closing b) := by
  induction hn : ts.length using Nat.strongRecOn generalizing ts last with
  | ind n ih =>
  subst hn
  cases ts with
  | nil => cases h
  | cons t ts =>
    by_cases ht : t.token = .eof
    · have hend : AtEnd (t :: ts) := fun u hu => Option.some.inj hu ▸ ht
      rw [gather_atEnd hend] at h
      cases h
    cases hends : ends t.token with
    | true =>
      rw [gather_stop ht hends] at h
      cases h
    | false =>
    cases hopen : Opener.ofToken? t.token with
    | none =>
      rw [gather_token ht hends hopen] at h
      rcases List.mem_cons.1 h with rfl | h
      · exact ⟨[], t, [], ts, rfl, readsAs_token ht hopen, rfl, rfl, .inl ⟨rfl, rfl, hopen⟩⟩
      · obtain ⟨before, x, us, after, rfl, hs⟩ := ih ts.length (Nat.lt_succ_self _) h rfl
        exact ⟨t :: before, x, us, after, rfl, hs⟩
    | some o =>
      rw [gather_open (fun _ => hends) hopen] at h
      obtain ⟨us, after, cs, rfl, hcs, hread, hlast⟩ :=
        (under_singleton o t.start.offset []).gather ends t.stop ts
      rw [hread] at h
      rcases List.mem_cons.1 h with rfl | h
      · refine ⟨[], t, us, after, rfl, hcs.readsAs hopen, rfl, rfl, .inr (hlast.imp_right ?_)⟩
        rintro ⟨y, hy, hclose⟩
        refine ⟨y, List.mem_getLast?_cons hy, ?_⟩
        cases o with
        | function name => exact ⟨.paren, hclose⟩
        | block bracket => exact ⟨bracket, hclose⟩
      · obtain ⟨before, x, vs, after', rfl, hs⟩ := ih after.length
          (by rw [List.length_cons, List.length_append]; omega) h rfl
        exact ⟨t :: us ++ before, x, vs, after', by simp, hs⟩

end StyleMiner.Component
