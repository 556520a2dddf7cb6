import StyleMiner.Proofs.CaseFolding
import StyleMiner.Proofs.LaidOut

/-! The outline of a text: its components, but for white space in and around them and for the case of letters. It
says whether the text is a single component, whether that is understood, and as what it is passed on; and a text
that is clear in small letters keeps it when it is laid out. -/

namespace StyleMiner

variable {t u : Text} {c d : Component} {k : Token} {kind : Kind}

namespace Component

mutual

/-- a component without the white space in it -/
def packed : Component → Component
  | .token k => .token k
  | .function name arguments => .function name (packedAll arguments)
  | .block bracket contents => .block bracket (packedAll contents)

def packedAll : List Component → List Component
  | [] => []
  | c :: cs => if c.isWhitespace then packedAll cs else packed c :: packedAll cs

end

theorem packedAll_eq (cs : List Component) : packedAll cs = (cs.filter (!·.isWhitespace)).map packed := by
  induction cs with
  | nil => rfl
  | cons c cs ih =>
    rw [packedAll]
    cases hspace : c.isWhitespace with
    | true => rw [List.filter_cons_of_neg (by simp [hspace]), ← ih, if_pos rfl]
    | false => rw [List.filter_cons_of_pos (by simp [hspace]), List.map_cons, ← ih, if_neg Bool.false_ne_true]

theorem isWhitespace_packed (c : Component) : c.packed.isWhitespace = c.isWhitespace := by cases c <;> rfl

end Component

def Frame.packed (f : Frame) : Frame := ⟨f.opener, 0, Component.packedAll f.inside⟩

def Spanned.packed (s : Spanned) : Spanned := ⟨s.component.packed, 0, 0⟩

def Spanned.packedAll (ss : List Spanned) : List Spanned :=
  (ss.filter (!·.component.isWhitespace)).map Spanned.packed

/-- a token without its place -/
def Token.placeless (k : Token) : Located := ⟨k, .start, 0⟩

namespace Frame

theorem push_packed (f : Frame) {c : Component} (hc : c.isWhitespace = false) :
    (f.push c).packed = f.packed.push c.packed := by
  rw [push, packed, Component.packedAll_eq, List.filter_append, List.map_append, ← Component.packedAll_eq,
    List.filter_cons_of_pos (by simp [hc])]
  rfl

theorem push_whitespace (f : Frame) : (f.push (.token .whitespace)).packed = f.packed := by
  rw [push, packed, Component.packedAll_eq, List.filter_append, List.map_append, ← Component.packedAll_eq]
  exact congrArg (Frame.mk f.opener 0) (List.append_nil _)

theorem close_packed (f : Frame) : f.packed.close = f.close.packed := by
  obtain ⟨opener, start, inside⟩ := f
  cases opener <;> rfl

theorem isWhitespace_close (f : Frame) : f.close.isWhitespace = false := by
  obtain ⟨opener, start, inside⟩ := f
  cases opener <;> rfl

end Frame

theorem Spanned.packedAll_toList {o : Option Spanned} (ho : ∀ s ∈ o, s.component.isWhitespace = false) :
    packedAll o.toList = (o.map Spanned.packed).toList := by
  have hall : o.toList.filter (!·.component.isWhitespace) = o.toList := by
    rw [List.filter_eq_self]
    intro s hs
    rw [ho s (Option.mem_toList.1 hs)]
    rfl
  rw [packedAll, hall, Option.toList_map]

theorem Spanned.packedAll_whitespace {o : Option Spanned} (ho : ∀ s ∈ o, s.component.isWhitespace = true) :
    packedAll o.toList = [] := by
  cases o with
  | none => rfl
  | some s => rw [packedAll, Option.toList_some, List.filter_cons_of_neg (by simp [ho s rfl])]; rfl

theorem Spanned.packedAll_append (ss rs : List Spanned) : packedAll (ss ++ rs) = packedAll ss ++ packedAll rs := by
  rw [packedAll, List.filter_append, List.map_append, packedAll, packedAll]

namespace Component

theorem deliver_packed {s : Spanned} (hs : s.component.isWhitespace = false) (fs : List Frame) :
    deliver s.packed (fs.map Frame.packed) =
      ((deliver s fs).1.map Spanned.packed, (deliver s fs).2.map Frame.packed) := by
  cases fs with
  | nil => rfl
  | cons f fs =>
    rw [List.map_cons, deliver, deliver, Spanned.packed, ← Frame.push_packed f hs]
    rfl

/-- A token that is no white space does without its place what it does, and completes no white space. -/
theorem feed_packed {t : Located} (ht : t.token ≠ .whitespace) (fs : List Frame) :
    feed t.token.placeless (fs.map Frame.packed) =
        ((feed t fs).1.map Spanned.packed, (feed t fs).2.map Frame.packed) ∧
      ∀ s ∈ (feed t fs).1, s.component.isWhitespace = false := by
  have hdeliver {s : Spanned} (hs : s.component.isWhitespace = false) (fs : List Frame) :
      ∀ r ∈ (deliver s fs).1, r.component.isWhitespace = false := by
    cases fs with
    | nil => exact fun r hr => Option.some.inj hr ▸ hs
    | cons f fs => exact fun r hr => absurd hr (Option.not_mem_none r)
  have hplain (hclose : ∀ f ∈ fs.head?, t.token ≠ f.opener.closer) : feed t.token.placeless (fs.map Frame.packed) =
        ((feed t fs).1.map Spanned.packed, (feed t fs).2.map Frame.packed) ∧
      ∀ s ∈ (feed t fs).1, s.component.isWhitespace = false := by
    have hclose' : ∀ f ∈ (fs.map Frame.packed).head?, t.token.placeless.token ≠ f.opener.closer := by
      intro f hf
      rw [List.head?_map] at hf
      obtain ⟨g, hg, rfl⟩ := Option.map_eq_some_iff.1 hf
      exact hclose g hg
    cases hopen : Opener.ofToken? t.token with
    | some o =>
      rw [feed_opening hclose hopen, feed_opening hclose' hopen]
      exact ⟨rfl, fun r hr => absurd hr (Option.not_mem_none r)⟩
    | none =>
      have hs : (Component.token t.token).isWhitespace = false := by
        cases hk : t.token with
        | whitespace => exact absurd hk ht
        | _ => rfl
      rw [feed_plain hclose hopen, feed_plain hclose' hopen, ← deliver_packed hs]
      exact ⟨rfl, hdeliver hs fs⟩
  cases fs with
  | nil => exact hplain fun f hf => absurd hf (Option.not_mem_none f)
  | cons f fs =>
    by_cases hclose : t.token = f.opener.closer
    · have hclose' : t.token.placeless.token = f.packed.opener.closer := hclose
      have hs : (Spanned.mk f.close f.start t.stop).component.isWhitespace = false := f.isWhitespace_close
      rw [List.map_cons, feed, feed, if_pos hclose, if_pos hclose', f.close_packed, ← deliver_packed hs]
      exact ⟨rfl, hdeliver hs fs⟩
    · exact hplain fun g hg => Option.some.inj hg ▸ hclose

theorem feed_whitespace {t : Located} (ht : t.token = .whitespace) (fs : List Frame) :
    (feed t fs).2.map Frame.packed = fs.map Frame.packed ∧
      ∀ s ∈ (feed t fs).1, s.component.isWhitespace = true := by
  have hclose : ∀ f ∈ fs.head?, t.token ≠ f.opener.closer := by
    intro f hf
    rw [ht]
    cases f.opener <;> exact Token.noConfusion
  rw [feed_plain hclose (by rw [ht]; rfl), ht]
  cases fs with
  | nil => exact ⟨rfl, fun r hr => Option.some.inj hr ▸ rfl⟩
  | cons f fs =>
    refine ⟨?_, fun r hr => absurd hr (Option.not_mem_none r)⟩
    rw [deliver, List.map_cons, f.push_whitespace, List.map_cons]

theorem closeAll_packed (stop : Nat) (fs : List Frame) :
    closeAll 0 (fs.map Frame.packed) = (closeAll stop fs).map Spanned.packed ∧
      ∀ s ∈ closeAll stop fs, s.component.isWhitespace = false := by
  cases fs with
  | nil => exact ⟨rfl, fun r hr => absurd hr (Option.not_mem_none r)⟩
  | cons f fs =>
    induction fs generalizing f with
    | nil =>
      rw [List.map_cons, List.map_nil, closeAll, closeAll]
      refine ⟨congrArg (fun c => some (Spanned.mk c 0 0)) f.close_packed, fun r hr => ?_⟩
      exact Option.some.inj hr ▸ f.isWhitespace_close
    | cons g fs ih =>
      rw [closeAll_cons, List.map_cons, List.map_cons, closeAll_cons, f.close_packed,
        ← g.push_packed f.isWhitespace_close]
      exact ih (g.push f.close)

/-- the tokens but white space, without their places -/
def solidTokens (ts : List Located) : List Located :=
  ((ts.map (·.token)).filter (· ≠ .whitespace)).map Token.placeless

theorem gather_fed {t : Located} (heof : t.token ≠ .eof) (last : Nat) (fs : List Frame) (ts : List Located) :
    (gather (fun _ => false) last fs (t :: ts)).1 =
      (feed t fs).1.toList ++ (gather (fun _ => false) t.stop (feed t fs).2 ts).1 := by
  rw [gather, if_neg heof, Bool.and_false, if_neg Bool.false_ne_true]

theorem gather_packed (last : Nat) (fs : List Frame) (ts : List Located) :
    (gather (fun _ => false) 0 (fs.map Frame.packed) (solidTokens ts)).1 =
      Spanned.packedAll (gather (fun _ => false) last fs ts).1 := by
  have hclosed (last : Nat) (fs : List Frame) : (closeAll 0 (fs.map Frame.packed)).toList =
      Spanned.packedAll (closeAll last fs).toList := by
    obtain ⟨hclose, hs⟩ := closeAll_packed last fs
    rw [hclose, Spanned.packedAll_toList hs]
  induction ts generalizing last fs with
  | nil => exact hclosed last fs
  | cons t ts ih =>
    by_cases hspace : t.token = .whitespace
    · have hskip : solidTokens (t :: ts) = solidTokens ts := by
        rw [solidTokens, List.map_cons, List.filter_cons_of_neg (by simp [hspace])]
        rfl
      obtain ⟨hfs, hs⟩ := feed_whitespace hspace fs
      rw [hskip, gather_fed (by rw [hspace]; exact Token.noConfusion), Spanned.packedAll_append,
        Spanned.packedAll_whitespace hs, List.nil_append, ← ih t.stop, hfs]
    have hkeep : solidTokens (t :: ts) = t.token.placeless :: solidTokens ts := by
      rw [solidTokens, List.map_cons, List.filter_cons_of_pos (by simp [hspace])]
      rfl
    rw [hkeep]
    by_cases heof : t.token = .eof
    · have heof' : t.token.placeless.token = .eof := heof
      rw [gather, gather, if_pos heof, if_pos heof']
      exact hclosed last fs
    · obtain ⟨hfeed, hs⟩ := feed_packed hspace fs
      rw [gather_fed heof, gather_fed (t := t.token.placeless) heof, hfeed, Spanned.packedAll_append,
        Spanned.packedAll_toList hs, ← ih t.stop]
      rfl

/-- What components are read, white space aside, is said by the tokens but white space. -/
theorem packedAll_ofTokens (ts : List Located) : packedAll (ofTokens ts) = ofTokens (solidTokens ts) := by
  have hgather := gather_packed 0 [] ts
  rw [List.map_nil] at hgather
  rw [ofTokens, ofTokens, takeUntil, takeUntil, hgather, packedAll_eq, Spanned.packedAll, List.filter_map, List.map_map,
    List.map_map]
  rfl

end Component

namespace Token

theorem lowered_eq_whitespace : k.lowered = .whitespace ↔ k = .whitespace := by cases k <;> simp [lowered]

theorem solidTokens_lowered (t : Text) : Component.solidTokens ((tokenize t).map Located.lowered) =
    ((solid t).map lowered).map placeless := by
  have htokens : ((tokenize t).map Located.lowered).map (·.token) = ((tokenize t).map (·.token)).map lowered := by
    rw [List.map_map, List.map_map]
    rfl
  rw [Component.solidTokens, htokens, List.filter_map, solid]
  congr 2
  exact List.filter_congr fun k _ => decide_eq_decide.2 (not_congr lowered_eq_whitespace)

end Token

namespace Text

theorem keepsGap_map_toLower (last : Option Char) (c : Char) :
    keepsGap (last.map Char.toLower) c = keepsGap last c := by
  cases last with
  | none => rfl
  | some l =>
    have hmark (d : Char) (hd : d.toNat < 65) : (l.toLower != d) = (l != d) := by
      rw [Bool.eq_iff_iff, bne_iff_ne, bne_iff_ne, ne_eq, toLower_eq_iff d (.inl hd)]
    rw [Option.map_some, keepsGap, Option.any_some, hmark '(' (by decide), hmark ',' (by decide)]
    rfl

theorem layoutFrom_lower {quote : Option Char} (hquote : ∀ q ∈ quote, isQuote q = true) (gap : Bool)
    (last : Option Char) (t : Text) :
    layoutFrom quote gap (last.map Char.toLower) t.lower = lower (layoutFrom quote gap last t) := by
  induction t generalizing quote gap last with
  | nil => rfl
  | cons c t ih =>
    rw [lower_cons]
    cases quote with
    | some q =>
      have hclose : (c.toLower = q) = (c = q) := by
        have hq := hquote q rfl
        rw [← toLower_of_isQuote hq, eq_iff_iff, toLower_of_isQuote hq]
        rcases isQuote_iff.1 hq with rfl | rfl <;> exact toLower_eq_iff _ (by decide)
      simp only [layoutFrom_quoted, hclose, lower_cons]
      refine congrArg _ (ih (fun d hd => ?_) false (some c))
      split at hd
      · cases hd
      · exact hquote d hd
    | none =>
      rw [layoutFrom_toLower]
      cases hspace : isSpace c with
      | true =>
        rw [layoutFrom_space hspace, layoutFrom_space hspace]
        exact ih hquote true last
      | false =>
        have hopens : ∀ q ∈ opens c, isQuote q = true := by
          intro q hq
          rw [opens] at hq
          split at hq
          · next hc => exact Option.some.inj hq ▸ hc
          · cases hq
        have hbehind := ih hopens false (some c.toLower)
        rw [Option.map_some, toLower_toLower] at hbehind
        rw [layoutFrom_kept hspace, layoutFrom_kept hspace, keepsGap_map_toLower, hbehind, lower_append, lower_cons,
          toLower_toLower]
        split <;> rfl

/-- Laying a text out and making its letters small do not depend on which comes first. -/
theorem layout_of_lower (t : Text) : t.lower.layout = t.layout.lower :=
  layoutFrom_lower (fun q hq => absurd hq (Option.not_mem_none q)) false none t

end Text

namespace Component

/-- the components of a text but for the case of letters and white space -/
def outline (t : Text) : List Component := packedAll ((ofText t).map lowered)

theorem outline_eq (t : Text) : outline t = ofTokens (((Token.solid t).map Token.lowered).map Token.placeless) := by
  rw [outline, ofText, ← ofTokens_lowered, packedAll_ofTokens, Token.solidTokens_lowered]

theorem outline_lower (t : Text) : outline t.lower = outline t := by rw [outline, ofText_lower, outline]

/-- A text that is clear in small letters is laid out as one of the same outline. -/
theorem outline_layout (h : Token.clear t.lower = true) : outline t.layout = outline t := by
  have hsmall : ∀ d ∈ t.lower, d.toLower = d := by
    intro d hd
    obtain ⟨c, -, rfl⟩ := List.mem_map.1 hd
    exact Text.toLower_toLower c
  have hsolid : Token.solid t.lower.layout = Token.solid t.lower := Token.solid_layoutFrom h hsmall false none
  rw [← outline_lower, ← Text.layout_of_lower, outline_eq, hsolid, ← outline_eq, outline_lower]

end Component

end StyleMiner
