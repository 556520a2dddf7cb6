import StyleMiner.Proofs.CanonicalForms
import StyleMiner.Proofs.Excerpts
import StyleMiner.Proofs.LetterCase
import StyleMiner.Proofs.QuotedValues

/-! Canonical forms are blind to letter case outside quotation marks and addresses. What is read of a text in small
letters is what is read of the text with its letters made small, and what a component is taken for depends on its
letters in either case. -/

namespace StyleMiner

variable {a b t name unit property raw : Text} {c d : Component} {k : Token} {o : Opener} {kind : Kind}

theorem Token.lowered_eq_eof (k : Token) : k.lowered = .eof ↔ k = .eof := by cases k <;> simp [lowered]

namespace Component

mutual

/-- the letters of a component made small -/
def lowered : Component → Component
  | .token t => .token t.lowered
  | .function name arguments => .function name.lower (loweredAll arguments)
  | .block bracket contents => .block bracket (loweredAll contents)

def loweredAll : List Component → List Component
  | [] => []
  | c :: cs => lowered c :: loweredAll cs

end

theorem loweredAll_eq (cs : List Component) : loweredAll cs = cs.map lowered := by
  induction cs with
  | nil => rfl
  | cons c cs ih => rw [loweredAll, ih, List.map_cons]

end Component

def Opener.lowered : Opener → Opener
  | .function name => .function name.lower
  | .block bracket => .block bracket

def Frame.lowered (f : Frame) : Frame := ⟨f.opener.lowered, f.start, f.inside.map Component.lowered⟩

def Spanned.lowered (s : Spanned) : Spanned := { s with component := s.component.lowered }

namespace Opener

theorem closer_lowered (o : Opener) : o.lowered.closer = o.closer := by cases o <;> rfl

theorem lowered_eq_closer : k.lowered = o.closer ↔ k = o.closer := by
  cases k <;> cases o <;> simp [Token.lowered, closer]

theorem ofToken?_lowered (k : Token) : ofToken? k.lowered = (ofToken? k).map lowered := by cases k <;> rfl

theorem component_lowered (o : Opener) (cs : List Component) :
    (o.component cs).lowered = o.lowered.component (cs.map Component.lowered) := by
  cases o with
  | function name => rw [component, Component.lowered, Component.loweredAll_eq]; rfl
  | block bracket => rw [component, Component.lowered, Component.loweredAll_eq]; rfl

end Opener

namespace Frame

theorem push_lowered (f : Frame) (c : Component) : (f.push c).lowered = f.lowered.push c.lowered := by
  rw [push, lowered, List.map_append]
  rfl

theorem close_lowered (f : Frame) : f.lowered.close = f.close.lowered := (f.opener.component_lowered f.inside).symm

end Frame

namespace Component

theorem deliver_lowered (s : Spanned) (fs : List Frame) : deliver s.lowered (fs.map Frame.lowered) =
    ((deliver s fs).1.map Spanned.lowered, (deliver s fs).2.map Frame.lowered) := by
  cases fs with
  | nil => rfl
  | cons f fs =>
    rw [List.map_cons, deliver, deliver, Spanned.lowered, ← Frame.push_lowered]
    rfl

/-- A token with its letters made small does what the token does. -/
theorem feed_lowered (t : Located) (fs : List Frame) : feed t.lowered (fs.map Frame.lowered) =
    ((feed t fs).1.map Spanned.lowered, (feed t fs).2.map Frame.lowered) := by
  have hplain (hclose : ∀ f ∈ fs.head?, t.token ≠ f.opener.closer) : feed t.lowered (fs.map Frame.lowered) =
      ((feed t fs).1.map Spanned.lowered, (feed t fs).2.map Frame.lowered) := by
    have hclose' : ∀ f ∈ (fs.map Frame.lowered).head?, t.lowered.token ≠ f.opener.closer := by
      intro f hf heq
      rw [List.head?_map] at hf
      obtain ⟨g, hg, rfl⟩ := Option.map_eq_some_iff.1 hf
      exact hclose g hg (Opener.lowered_eq_closer.1 (heq.trans g.opener.closer_lowered))
    have hopens : Opener.ofToken? t.lowered.token = (Opener.ofToken? t.token).map Opener.lowered :=
      Opener.ofToken?_lowered t.token
    cases hopen : Opener.ofToken? t.token with
    | some o =>
      rw [feed_opening hclose hopen, feed_opening hclose' (by rw [hopens, hopen]; rfl)]
      rfl
    | none =>
      rw [feed_plain hclose hopen, feed_plain hclose' (by rw [hopens, hopen]; rfl), ← deliver_lowered]
      rfl
  cases fs with
  | nil => exact hplain fun f hf => nomatch hf
  | cons f fs =>
    by_cases hclose : t.token = f.opener.closer
    · have hclose' : t.lowered.token = f.lowered.opener.closer :=
        (Opener.lowered_eq_closer.2 hclose).trans f.opener.closer_lowered.symm
      rw [List.map_cons, feed, feed, if_pos hclose, if_pos hclose', Frame.close_lowered, ← deliver_lowered]
      rfl
    · exact hplain fun g hg => Option.some.inj hg ▸ hclose

theorem closeAll_lowered (stop : Nat) (fs : List Frame) :
    closeAll stop (fs.map Frame.lowered) = (closeAll stop fs).map Spanned.lowered := by
  cases fs with
  | nil => rfl
  | cons f fs =>
    induction fs generalizing f with
    | nil =>
      rw [List.map_cons, List.map_nil, closeAll, closeAll]
      exact congrArg (fun c => some (Spanned.mk c f.start stop)) f.close_lowered
    | cons g fs ih =>
      rw [closeAll_cons, ← ih (g.push f.close), List.map_cons, List.map_cons, closeAll_cons, List.map_cons,
        Frame.push_lowered, Frame.close_lowered]

theorem gather_lowered (last : Nat) (fs : List Frame) (ts : List Located) :
    (gather (fun _ => false) last (fs.map Frame.lowered) (ts.map Located.lowered)).1 =
      (gather (fun _ => false) last fs ts).1.map Spanned.lowered := by
  induction ts generalizing last fs with
  | nil => rw [List.map_nil, gather, gather, closeAll_lowered, Option.toList_map]
  | cons t ts ih =>
    have heof : t.lowered.token = .eof ↔ t.token = .eof := Token.lowered_eq_eof t.token
    have hfeed := feed_lowered t fs
    rw [List.map_cons, gather, gather]
    simp only [heof, Bool.and_false, Bool.false_eq_true, if_false, hfeed]
    split
    · rw [closeAll_lowered, Option.toList_map]
    · rw [show t.lowered.stop = t.stop from rfl, ih, List.map_append, Option.toList_map]

theorem ofTokens_lowered (ts : List Located) : ofTokens (ts.map Located.lowered) = (ofTokens ts).map lowered := by
  rw [ofTokens, takeUntil, ← List.map_nil (f := Frame.lowered), gather_lowered, List.map_map, ofTokens, List.map_map]
  rfl

/-- Of small letters the components are read that the letters stand for. -/
theorem ofText_lower (t : Text) : (ofText t.lower).map lowered = (ofText t).map lowered := by
  rw [ofText, ← ofTokens_lowered, tokenize_lower, ofTokens_lowered, ofText]

theorem isWhitespace_lowered (c : Component) : c.lowered.isWhitespace = c.isWhitespace := by
  cases c with
  | token k => cases k <;> rfl
  | function name arguments => rfl
  | block bracket contents => rfl

theorem single?_lowered (cs : List Component) : single? (cs.map lowered) = (single? cs).map lowered := by
  have hfilter : (cs.map lowered).filter (!·.isWhitespace) = (cs.filter (!·.isWhitespace)).map lowered := by
    rw [List.filter_map]
    simp only [Function.comp_def, isWhitespace_lowered]
  rw [single?, single?, hfilter]
  generalize cs.filter (!·.isWhitespace) = ds
  rcases ds with _ | ⟨c, _ | ⟨d, ds⟩⟩ <;> rfl

/-- Where one text is a single component, so is the text in the other case, and the same but for letter case. -/
theorem single?_sameLetters (h : a.lower = b.lower) (hread : single? (ofText a) = some c) :
    ∃ d, single? (ofText b) = some d ∧ d.lowered = c.lowered := by
  have hsame : (single? (ofText b)).map lowered = some c.lowered := by
    rw [← single?_lowered, ← ofText_lower, ← h, ofText_lower, single?_lowered, hread, Option.map_some]
  exact Option.map_eq_some_iff.1 hsame

theorem single?_sameLetters_none (h : a.lower = b.lower) (hread : single? (ofText a) = none) :
    single? (ofText b) = none := by
  rw [← Option.map_eq_none_iff (f := lowered), ← single?_lowered, ← ofText_lower, ← h, ofText_lower, single?_lowered,
    hread, Option.map_none]

end Component

theorem Measure.toBase_lower (v : Double) (unit : Text) : toBase v unit.lower = toBase v unit := by
  rw [toBase, Canonical.conversion?_lower, Text.lower_lower, toBase]

namespace Color

theorem ofHex?_lower (t : Text) : ofHex? t.lower = ofHex? t := by
  have hbyte (x y : Char) : hexByte x.toLower y.toLower = hexByte x y :=
    congrArg UInt8.ofNat (Text.ofHex_lower [x, y])
  have hdigits : (if t.lower.head? = some '#' then t.lower.tail else t.lower) =
      Text.lower (if t.head? = some '#' then t.tail else t) := by
    simp (disch := decide) only [Text.head?_lower]
    split
    · rw [Text.lower_tail]
    · rfl
  unfold ofHex?
  dsimp only
  rw [hdigits]
  generalize (if t.head? = some '#' then t.tail else t) = ds
  rw [Text.all_lower Text.isHexDigit_toLower]
  rcases ds with _ | ⟨a, _ | ⟨b, _ | ⟨c, _ | ⟨d, _ | ⟨e, _ | ⟨f, _ | ⟨g, _ | ⟨h, _ | ⟨i, ds⟩⟩⟩⟩⟩⟩⟩⟩⟩ <;>
    simp only [Text.lower_cons, Text.lower_nil, hbyte]

theorem ofName?_lower (t : Text) : ofName? t.lower = ofName? t := by rw [ofName?, Text.lower_lower, ofName?]

theorem arguments?_lowered (cs : List Component) : arguments? (cs.map Component.lowered) = arguments? cs := by
  induction cs with
  | nil => rfl
  | cons c cs ih =>
    rw [List.map_cons, arguments?.eq_def, arguments?.eq_def]
    cases c with
    | token k =>
      cases k <;> simp only [Component.lowered, Token.lowered, Measure.degrees?, Canonical.ofUnit?_lower,
        Measure.toBase_lower, ih]
    | function name arguments => rfl
    | block bracket contents => rfl

theorem ofFunction?_lowered (name : Text) (cs : List Component) :
    ofFunction? name.lower (cs.map Component.lowered) = ofFunction? name cs := by
  rw [ofFunction?, arguments?_lowered, isChannelFunction, isHueFunction, Text.lower_lower, ofFunction?,
    isChannelFunction, isHueFunction]

end Color

theorem Token.kind_lowered (k : Token) : k.lowered.kind = k.kind := by
  cases k with
  | dimension v unit => rw [lowered, kind, Canonical.ofUnit?_lower, kind]
  | hash digits => rw [lowered, kind, Color.ofHex?_lower, kind]
  | ident name => rw [lowered, kind, Color.ofName?_lower, kind]
  | _ => rfl

theorem Component.kind_lowered (c : Component) : c.lowered.kind = c.kind := by
  cases c with
  | token k => exact k.kind_lowered
  | function name arguments =>
    rw [lowered, kind, Color.isChannelFunction, Color.isHueFunction, Text.lower_lower, kind, Color.isChannelFunction,
      Color.isHueFunction]
  | block bracket contents => rfl

namespace Canonical

theorem ofDimension_lower (v : Double) (unit : Text) : ofDimension v unit.lower = ofDimension v unit := by
  rw [ofDimension, ofUnit?_lower, Measure.toBase_lower, ofDimension]

theorem ofKeyword_lower (property name : Text) : ofKeyword property name.lower = ofKeyword property name := by
  rw [ofKeyword, Text.lower_lower, ofKeyword]

/-- The canonical form of a component without strings and addresses depends on its letters in either case. -/
theorem ofComponent_lowered (h : c.contents = []) :
    ofComponent property raw kind c.lowered = ofComponent property raw kind c := by
  cases c with
  | token k =>
    cases k with
    | dimension v unit =>
      rw [Component.lowered, Token.lowered, ofComponent, ofComponent]
      dsimp only
      rw [ofDimension_lower]
    | ident name => exact ofKeyword_lower property name
    | hash digits =>
      rw [Component.lowered, Token.lowered, ofComponent, ofComponent, Color.ofComponent?, Color.ofHex?_lower,
        Color.ofComponent?]
    | string content | url address => cases h
    | _ => rfl
  | block bracket contents => rfl
  | function name arguments =>
    rw [Component.lowered, Component.loweredAll_eq, ofComponent, ofComponent, Text.lower_lower]
    split
    · have hfind : (arguments.map Component.lowered).find? (!·.isWhitespace) =
          (arguments.find? (!·.isWhitespace)).map Component.lowered := by
        rw [List.find?_map]
        simp only [Function.comp_def, Component.isWhitespace_lowered]
      have hnone (content : Text) : arguments.find? (!·.isWhitespace) ≠ some (.token (.string content)) := by
        intro hsome
        rw [Component.contents_function, List.flatMap_eq_nil_iff] at h
        exact List.cons_ne_nil _ _ (h _ (List.mem_of_find?_eq_some hsome))
      rw [hfind]
      cases hfirst : arguments.find? (!·.isWhitespace) with
      | none => rfl
      | some d =>
        cases d with
        | token k =>
          cases k with
          | string content => exact absurd hfirst (hnone content)
          | _ => rfl
        | function name arguments => rfl
        | block bracket contents => rfl
    · rw [Color.ofComponent?, Color.ofFunction?_lowered, Color.ofComponent?]

end Canonical

namespace Text

theorem trim_lower (t : Text) : t.lower.trim = lower t.trim := by
  rw [trim, trimStart, dropWhile_lower isSpace_toLower, trimEnd, lower, ← List.map_reverse, ← lower,
    dropWhile_lower isSpace_toLower, lower, ← List.map_reverse, trim, trimEnd, trimStart, lower]

theorem layout_lower (h : ∀ c ∈ t, isQuote c = false) : t.lower.layout = t.layout := by
  have hfrom (gap : Bool) (last : Option Char) : layoutFrom none gap last t.lower = layoutFrom none gap last t := by
    induction t generalizing gap last with
    | nil => rfl
    | cons c t ih =>
      have hopens : opens c = none := opens_bare (h c (List.mem_cons_self ..))
      have ih := ih fun d hd => h d (List.mem_cons_of_mem c hd)
      rw [lower_cons, layoutFrom_toLower]
      cases hspace : isSpace c with
      | true => rw [layoutFrom_space hspace, layoutFrom_space hspace, ih]
      | false => rw [layoutFrom_kept hspace, layoutFrom_kept hspace, hopens, ih]
  exact hfrom false none

theorem mem_of_mem_trim {x : Char} (h : x ∈ t.trim) : x ∈ t := by
  have hend : x ∈ t.trimStart := List.mem_reverse.1 ((List.dropWhile_suffix _).subset (List.mem_reverse.1 h))
  exact (List.dropWhile_suffix _).subset hend

theorem isQuote_sameLetters (h : a.lower = b.lower) (hquote : ∀ x ∈ a, isQuote x = false) :
    ∀ x ∈ b, isQuote x = false := by
  intro x hx
  have hlower : x.toLower ∈ a.lower := h ▸ List.mem_map_of_mem hx
  obtain ⟨y, hy, heq⟩ := List.mem_map.1 hlower
  rw [← isQuote_toLower, ← heq, isQuote_toLower, hquote y hy]

end Text

namespace Token

theorem content?_lowered (k : Token) : k.lowered.content? = none ↔ k.content? = none := by
  cases k <;> simp [lowered, content?]

/-- Without a quotation mark there is no string. -/
theorem content?_of_unquoted (hquote : ∀ x ∈ t, Text.isQuote x = false)
    (hurl : ∀ x ∈ tokenize t, ∀ address, x.token ≠ .url address) : ∀ x ∈ tokenize t, x.token.content? = none := by
  intro x hx
  cases hk : x.token with
  | url address => exact absurd hk (hurl x hx address)
  | string content =>
    obtain ⟨before, after, hsplit⟩ := List.append_of_mem hx
    obtain ⟨c, u, hread, hslice, -⟩ := tokenize_read hsplit (by rw [hk]; exact Token.noConfusion)
    have hmark : Text.isQuote c = true := isQuote_of_quoted (by rw [← hread, hk]; exact .string content)
    have hmem : c ∈ Source.slice t.toArray x.start.offset x.stop := by
      rw [hslice]
      exact List.mem_cons_self ..
    rw [Source.slice_toArray] at hmem
    rw [hquote c (List.mem_of_mem_drop (List.mem_of_mem_take hmem))] at hmark
    cases hmark
  | _ => rfl

theorem content?_sameLetters (h : a.lower = b.lower) (hnone : ∀ x ∈ tokenize a, x.token.content? = none) :
    ∀ x ∈ tokenize b, x.token.content? = none := by
  intro x hx
  have hlowered : x.lowered ∈ (tokenize a).map Located.lowered := by
    rw [← tokenize_lower, h, tokenize_lower]
    exact List.mem_map_of_mem hx
  obtain ⟨y, hy, heq⟩ := List.mem_map.1 hlowered
  have htoken : y.token.lowered = x.token.lowered := congrArg Located.token heq
  rw [← content?_lowered, ← htoken, content?_lowered, hnone y hy]

end Token

theorem Component.contents_eq_nil (h : ∀ x ∈ tokenize t, x.token.content? = none)
    (hread : single? (ofText t) = some c) : c.contents = [] := by
  rw [← contents_single hread, List.filterMap_eq_nil_iff]
  intro k hk
  obtain ⟨x, hx, rfl⟩ := List.mem_map.1 hk
  exact h x hx

namespace Canonical

theorem ofComponent_congr {raw' : Text} (h : raw.layout = raw'.layout) (property : Text) (kind : Kind)
    (c : Component) : ofComponent property raw kind c = ofComponent property raw' kind c := by
  unfold ofComponent
  rw [h]

/-- Texts that differ in letter case alone have one canonical form, where they hold no quotation mark and what is
left of them without the white space around it holds no address; each is a single component if the other is, and
of the same kind. -/
theorem ofValue_sameLetters (property : Text) (hcase : a.sameLetters b = true)
    (hquote : a.any Text.isQuote = false) (hurl : ∀ x ∈ tokenize a.trim, ∀ address, x.token ≠ .url address)
    (hread : Component.single? (Component.ofText a) = some c) (hkind : c.kind ≠ .separator) :
    ∃ d, Component.single? (Component.ofText b) = some d ∧ d.kind = c.kind ∧
      ofValue property a c.kind = ofValue property b d.kind := by
  have hlower := (Text.sameLetters_iff a b).1 hcase
  obtain ⟨d, hd, hlowered⟩ := Component.single?_sameLetters hlower hread
  have hsame : d.kind = c.kind := by rw [← d.kind_lowered, hlowered, c.kind_lowered]
  refine ⟨d, hd, hsame, ?_⟩
  have htrim : a.trim.lower = b.trim.lower := by rw [← Text.trim_lower, hlower, Text.trim_lower]
  have htrimmed : ∀ x ∈ a.trim, Text.isQuote x = false := fun x hx =>
    Bool.eq_false_iff.2 (List.any_eq_false.1 hquote x (Text.mem_of_mem_trim hx))
  have hlayout : a.trim.layout = b.trim.layout := by
    rw [← Text.layout_lower htrimmed, htrim, Text.layout_lower (Text.isQuote_sameLetters htrim htrimmed)]
  have hnone := Token.content?_of_unquoted htrimmed hurl
  rw [hsame, ofValue, ofValue, if_neg hkind, if_neg hkind]
  cases hfound : Component.single? (Component.ofText a.trim) with
  | none => rw [Component.single?_sameLetters_none htrim hfound, hlayout]
  | some e =>
    obtain ⟨e', he', hsmall⟩ := Component.single?_sameLetters htrim hfound
    rw [he']
    calc ofComponent property.trim.lower a.trim c.kind e
        = ofComponent property.trim.lower b.trim c.kind e := ofComponent_congr hlayout _ _ e
      _ = ofComponent property.trim.lower b.trim c.kind e.lowered :=
        (ofComponent_lowered (Component.contents_eq_nil hnone hfound)).symm
      _ = ofComponent property.trim.lower b.trim c.kind e'.lowered := by rw [hsmall]
      _ = ofComponent property.trim.lower b.trim c.kind e' :=
        ofComponent_lowered (Component.contents_eq_nil (Token.content?_sameLetters htrim hnone) he')

/-- The letters of a name, of a power of ten, of a unit and of a hexadecimal escape. -/
theorem ofValue_sameLetters_function :
    ∃ d, Component.single? (Component.ofText "f(1e1px \\4a)".toList) = some d ∧ d.kind = .function ∧
      ofValue "b".toList "F(1E1PX \\4A)".toList .function = ofValue "b".toList "f(1e1px \\4a)".toList d.kind := by
  have htokens : tokenize "F(1E1PX \\4A)".toList = [⟨.function ['F'], ⟨0, 1, 1⟩, 2⟩,
      ⟨.dimension (.finite false 5629499534213120 (-49)) "PX".toList, ⟨2, 1, 3⟩, 7⟩, ⟨.whitespace, ⟨7, 1, 8⟩, 8⟩,
      ⟨.ident ['J'], ⟨8, 1, 9⟩, 11⟩, ⟨.closing .paren, ⟨11, 1, 12⟩, 12⟩, ⟨.eof, ⟨12, 1, 13⟩, 12⟩] := by
    decide +kernel
  have hread : Component.single? (Component.ofText "F(1E1PX \\4A)".toList) = some (.function ['F']
      [.token (.dimension (.finite false 5629499534213120 (-49)) "PX".toList), .token .whitespace,
        .token (.ident ['J'])]) := by
    rw [Component.ofText, htokens]
    rfl
  refine ofValue_sameLetters "b".toList (by decide) (by decide) (fun x hx address => ?_) hread (by decide)
  rw [Text.Trimmed.trim (by decide), htokens] at hx
  simp only [List.mem_cons, List.not_mem_nil, or_false] at hx
  rcases hx with rfl | rfl | rfl | rfl | rfl | rfl <;> exact Token.noConfusion

/-- A no-break space is part of the name behind it, so no address is read; trimmed off it leaves the name of one. -/
theorem ofValue_tells_letters : ¬ ∀ (property a b : Text) (c d : Component), a.sameLetters b = true →
    a.any Text.isQuote = false → b.any Text.isQuote = false →
    (∀ x ∈ tokenize a ++ tokenize b, x.token ≠ .badUrl ∧ ∀ address, x.token ≠ .url address) →
    Component.single? (Component.ofText a) = some c → Component.single? (Component.ofText b) = some d →
    c.kind ≠ .separator → d.kind ≠ .separator →
      d.kind = c.kind ∧ ofValue property a c.kind = ofValue property b d.kind := by
  intro h
  have htokens (x : Char) (hx : x = 'X' ∨ x = 'x') : tokenize ("\u00a0url(".toList ++ [x, ')']) =
      [⟨.function "\u00a0url".toList, ⟨0, 1, 1⟩, 5⟩, ⟨.ident [x], ⟨5, 1, 6⟩, 6⟩, ⟨.closing .paren, ⟨6, 1, 7⟩, 7⟩,
        ⟨.eof, ⟨7, 1, 8⟩, 7⟩] := by
    rcases hx with rfl | rfl <;> decide +kernel
  have hread (x : Char) (hx : x = 'X' ∨ x = 'x') :
      Component.single? (Component.ofText ("\u00a0url(".toList ++ [x, ')'])) =
        some (.function "\u00a0url".toList [.token (.ident [x])]) := by
    rw [Component.ofText, htokens x hx]
    rfl
  have hsame := h "b".toList _ _ _ _ (by decide) (by decide) (by decide) ?_ (hread 'X' (.inl rfl))
    (hread 'x' (.inr rfl)) (by decide) (by decide)
  · exact absurd hsame.2 (by decide +kernel)
  · rw [htokens 'X' (.inl rfl), htokens 'x' (.inr rfl)]
    intro x hx
    simp only [List.cons_append, List.nil_append, List.mem_cons, List.not_mem_nil, or_false] at hx
    rcases hx with rfl | rfl | rfl | rfl | rfl | rfl | rfl | rfl <;>
      exact ⟨Token.noConfusion, fun _ => Token.noConfusion⟩

end Canonical

end StyleMiner
