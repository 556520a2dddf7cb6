import StyleMiner.Proofs.Layout
import StyleMiner.Proofs.Spelling
import StyleMiner.Value.Color

/-! What a text that was written for a value is read as: one token for a number with its unit, a name or quoted
text, and one function for an address or a color. -/

namespace StyleMiner

variable {t u n : Text} {v : Double} {k : Token}

namespace Component

open Token

/-- A numeral with what makes one token of it. -/
theorem ofText_numeral (h : SpellsNumber t v) (hends : EndsNumber u) (hk : Single k)
    (hread : ∀ n : Nat, (if startsName u then (.dimension v (readName u).1, n + (readName u).2)
      else if u.head? = some '%' then (.percentage v, n + 1) else (.number v, n)) = (k, n + u.length)) :
    ofText (t ++ u) = [.token k] := by
  obtain ⟨c, w, rfl, -, hslash⟩ := h.split
  have hread := (h.read_append hends).trans (hread w.length)
  rw [← List.length_append] at hread
  exact ofText_token (spells_single hslash hread) hk

theorem ofText_number (h : SpellsNumber t v) : ofText t = [.token (.number v)] := by
  have hread := ofText_numeral (u := []) (k := .number v) h ⟨by simp, by simp, rfl⟩ ⟨by simp, rfl, by simp⟩
    fun _ => rfl
  rwa [List.append_nil] at hread

theorem ofText_percentage (h : SpellsNumber t v) : ofText (t ++ ['%']) = [.token (.percentage v)] := by
  refine ofText_numeral h ⟨?_, by simp, rfl⟩ ⟨by simp, rfl, by simp⟩ fun _ => rfl
  intro c hc
  cases hc
  rfl

/-- a unit that is read behind a number as it is written -/
structure Legible (unit : Text) : Prop where
  name : Name unit
  power : powerOf unit = []
  trimmed : Text.Trimmed unit

instance (unit : Text) : Decidable (Legible unit) :=
  decidable_of_iff (Name unit ∧ powerOf unit = [] ∧ Text.Trimmed unit)
    ⟨fun h => ⟨h.1, h.2.1, h.2.2⟩, fun h => ⟨h.name, h.power, h.trimmed⟩⟩

theorem ofText_dimension (h : SpellsNumber t v) (hunit : Legible u) :
    ofText (t ++ u) = [.token (.dimension v u)] := by
  have hname : readName u = (u, u.length) := by
    have hread : readName (u ++ []) = (u, u.length) :=
      readName_append hunit.name.chars fun _ hc => nomatch hc
    rwa [List.append_nil] at hread
  have hstarts : startsName u = true := hunit.name.starts
  refine ofText_numeral h ⟨?_, ?_, hunit.power⟩ ⟨by simp, rfl, by simp⟩ fun n => ?_
  · rcases hunit.name.split with ⟨c, w, rfl, hc⟩ | ⟨d, w, rfl, -⟩
    · intro d hd
      obtain rfl := Option.some.inj hd
      exact isDigit_eq_false_of_isNameStart hc
    · intro d hd
      obtain rfl := Option.some.inj hd
      rfl
  · rcases hunit.name.split with ⟨c, w, rfl, hc⟩ | ⟨d, w, rfl, -⟩
    · rintro hpoint
      rw [Option.some.inj hpoint] at hc
      cases hc
    · simp
  · rw [hname, hstarts, if_pos rfl]

theorem ofText_name (h : Name n) : ofText n = [.token (.ident n)] := by
  obtain ⟨c, w, rfl, hslash⟩ := h.cons
  have hread : read c (w ++ []) = (.ident (c :: w), w.length) :=
    h.read_ident (fun _ hc => nomatch hc) (by simp)
  rw [List.append_nil] at hread
  exact ofText_token (spells_single hslash hread) ⟨by simp, rfl, by simp⟩

theorem ofText_quoted (h : '\n' ∉ t) : ofText t.quoted = [.token (.string t)] := by
  have hread := read_string h []
  rw [List.append_nil] at hread
  exact ofText_token (spells_single (by decide) hread) ⟨by simp, rfl, by simp⟩

theorem ofText_url (h : '\n' ∉ t) :
    ofText ("url(".toList ++ t.quoted ++ [')']) = [.function "url".toList [.token (.string t)]] := by
  have hstring : Spells (t.quoted ++ [')']) [.string t, .closing .paren, .eof] :=
    .cons (by decide) (read_string h [')']) .close
  have hfunction : Spells ("url(".toList ++ (t.quoted ++ [')']))
      (.function "url".toList :: ([.string t] ++ [.closing .paren, .eof])) :=
    .cons (u := "rl(".toList) (by decide) (read_url _) hstring
  rw [List.append_assoc, ofText_function hfunction fun k hk => ?_]
  · rfl
  · rw [List.mem_singleton.1 hk]
    exact ⟨by simp, rfl, by simp⟩

theorem ofText_spoilt (h : '\n' ∈ t) : ∃ cs, ofText t.quoted = .token .badString :: cs := by
  obtain ⟨l, stop, hscan⟩ := scan_cons (c := '"') (by decide) .start (escaped t ++ ['"'])
  rw [read_badString h] at hscan
  rw [ofText, tokenize, quoted_eq, hscan, ofTokens, takeUntil, gather_token (by simp) rfl rfl]
  exact ⟨_, rfl⟩

/-- a frame that has taken more in -/
def Frame.Extends (f' f : Frame) : Prop := f'.opener = f.opener ∧ ∃ ys, f'.inside = f.inside ++ ys

theorem Frame.Extends.refl (f : Frame) : Frame.Extends f f := ⟨rfl, [], (List.append_nil _).symm⟩

theorem Frame.Extends.push (f : Frame) (c : Component) : Frame.Extends (f.push c) f := ⟨rfl, [c], rfl⟩

/-- The outermost frame only takes more in. -/
theorem deliver_outermost (s : Spanned) (fs : List Frame) (f : Frame) :
    ∃ fs' f', deliver s (fs ++ [f]) = (none, fs' ++ [f']) ∧ Frame.Extends f' f := by
  cases fs with
  | nil => exact ⟨[], f.push s.component, rfl, .push f _⟩
  | cons g gs => exact ⟨g.push s.component :: gs, f, rfl, .refl f⟩

theorem feed_outermost (t : Located) (fs : List Frame) (f : Frame) :
    (∃ start stop, feed t (fs ++ [f]) = (some ⟨f.close, start, stop⟩, [])) ∨
      ∃ fs' f', feed t (fs ++ [f]) = (none, fs' ++ [f']) ∧ Frame.Extends f' f := by
  have hplain : (∃ o, Opener.ofToken? t.token = some o) ∨ Opener.ofToken? t.token = none := by
    cases Opener.ofToken? t.token with
    | none => exact .inr rfl
    | some o => exact .inl ⟨o, rfl⟩
  cases fs with
  | nil =>
    by_cases hclose : t.token = f.opener.closer
    · exact .inl ⟨f.start, t.stop, by simp only [List.nil_append, feed, hclose, if_true, deliver]⟩
    right
    rcases hplain with ⟨o, ho⟩ | hnone
    · exact ⟨[_], f, by simp only [List.nil_append, feed, hclose, if_false, ho]; rfl, .refl f⟩
    · simp only [List.nil_append, feed, hclose, if_false, hnone]
      exact deliver_outermost _ [] f
  | cons g gs =>
    right
    by_cases hclose : t.token = g.opener.closer
    · simp only [List.cons_append, feed, hclose, if_true]
      exact deliver_outermost _ gs f
    rcases hplain with ⟨o, ho⟩ | hnone
    · exact ⟨_ :: g :: gs, f, by simp only [List.cons_append, feed, hclose, if_false, ho]; rfl, .refl f⟩
    · simp only [List.cons_append, feed, hclose, if_false, hnone]
      exact deliver_outermost _ (g :: gs) f

theorem closeAll_outermost (last : Nat) (fs : List Frame) (f : Frame) : ∃ ys start,
    closeAll last (fs ++ [f]) = some ⟨f.opener.component (f.inside ++ ys), start, last⟩ := by
  cases fs with
  | nil => exact ⟨[], f.start, by rw [List.append_nil]; rfl⟩
  | cons g gs =>
    refine ⟨[(gs.foldl (fun inner outer => outer.push inner.close) g).close], f.start, ?_⟩
    simp only [List.cons_append, closeAll, List.foldl_append]
    rfl

/-- Whatever is open inside it, the outermost frame comes first, with what it holds already in front. -/
theorem gather_outermost (last : Nat) (fs : List Frame) (f : Frame) (ts : List Located) : ∃ ys cs,
    (gather (fun _ => false) last (fs ++ [f]) ts).1.map (·.component) = f.opener.component
      (f.inside ++ ys) :: cs := by
  induction ts generalizing last fs f with
  | nil =>
    obtain ⟨ys, start, hclose⟩ := closeAll_outermost last fs f
    rw [gather, hclose]
    exact ⟨ys, [], rfl⟩
  | cons t ts ih =>
    rw [gather]
    split
    · obtain ⟨ys, start, hclose⟩ := closeAll_outermost last fs f
      rw [hclose]
      exact ⟨ys, [], rfl⟩
    rw [if_neg (by simp)]
    rcases feed_outermost t fs f with ⟨start, stop, hfeed⟩ | ⟨fs', f', hfeed, hopener, ys, hinside⟩
    · rw [hfeed]
      exact ⟨[], _, by rw [List.append_nil]; rfl⟩
    · obtain ⟨zs, cs, hrest⟩ := ih t.stop fs' f'
      rw [hfeed]
      refine ⟨ys ++ zs, cs, ?_⟩
      rw [← List.append_assoc, ← hinside, ← hopener, ← hrest]
      rfl

theorem ofText_spoiltUrl (h : '\n' ∈ t) : ∃ ys cs, ofText ("url(".toList ++ t.quoted ++ [')']) =
    .function "url".toList (.token .badString :: ys) :: cs := by
  obtain ⟨l, stop, hscan⟩ := scan_cons (c := 'u') (by decide) .start ("rl(".toList ++ (t.quoted ++ [')']))
  have hquoted : t.quoted ++ [')'] = '"' :: (escaped t ++ ['"', ')']) := by
    rw [quoted_eq, List.cons_append, List.append_assoc]
    rfl
  rw [hquoted, read_url] at hscan
  obtain ⟨l', stop', hscan'⟩ := scan_cons (c := '"') (by decide) l (escaped t ++ ['"', ')'])
  rw [read_badString h] at hscan'
  obtain ⟨ts, htokens⟩ : ∃ ts, tokenize ("url(".toList ++ (t.quoted ++ [')'])) =
      ⟨.function "url".toList, .start, stop⟩ :: ⟨.badString, l, stop'⟩ :: ts := by
    rw [tokenize, hquoted]
    exact ⟨_, hscan.trans (congrArg _ hscan')⟩
  rw [List.append_assoc, ofText, htokens, ofTokens, takeUntil, gather_open (fun _ => rfl) rfl,
    gather_plain (by simp) rfl (by simp)]
  exact gather_outermost stop' [] _ _

end Component

namespace Color

open Token Component

/-- a channel as a number -/
def channelNumber (n : UInt8) : Double := (Numeral.mk false n.toNat 0).toDouble

/-- the alpha channel as a number from 0 to 1 -/
def alphaNumber (n : UInt8) : Double := (Double.ofNat n.toNat).div (.ofNat 255)

theorem spellsNumber_channel (n : UInt8) : SpellsNumber (Text.decimal n.toNat) (channelNumber n) := by
  have hdigits := Text.digits_decimal n.toNat
  have hnone : Text.Digits [] := by decide
  have hspell : Numeral.spell false (Text.decimal n.toNat) [] = Text.decimal n.toNat := List.append_nil _
  have hread := Numeral.ofText?_spell (Text.decimal_ne_nil n.toNat) hdigits hnone false
  rw [hspell, List.append_nil, Text.ofDecimal_decimal] at hread
  refine ⟨?_, false, _, [], hspell.symm, Text.decimal_ne_nil _, hdigits, hnone⟩
  rw [Double.ofText?, hread]
  rfl

theorem byte_channelNumber (n : UInt8) : byte (channelNumber n) = n := by
  have hall : ∀ i < 256, byte (Numeral.mk false i 0).toDouble = UInt8.ofNat i := by decide +kernel
  rw [channelNumber, hall n.toNat n.toNat_lt, UInt8.ofNat_toNat]

/-- Four places are enough to tell the alpha channels apart. -/
theorem byte_alphaNumber (n : UInt8) : byte ((alphaNumber n).toPlaces.mul (.ofNat 255)) = n := by
  have hall : ∀ i < 256, byte (((Double.ofNat i).div (.ofNat 255)).toPlaces.mul (.ofNat 255)) =
      UInt8.ofNat i := by
    decide +kernel
  rw [alphaNumber, hall n.toNat n.toNat_lt, UInt8.ofNat_toNat]

theorem spellsNumber_alpha (n : UInt8) :
    ∃ y, SpellsNumber (alphaNumber n).render y ∧ byte (y.mul (.ofNat 255)) = n := by
  have hall : ∀ i < 256, ((Double.ofNat i).div (.ofNat 255)).isFinite = true ∧
      ((Double.ofNat i).div (.ofNat 255)).isNegative = false ∧
      0 ≤ ((Double.ofNat i).div (.ofNat 255)).value ∧
      ((Double.ofNat i).div (.ofNat 255)).value ≤ 1 := by decide +kernel
  obtain ⟨hfinite, hsign, hlow, hhigh⟩ := hall n.toNat n.toNat_lt
  have hfits : Double.Fits (alphaNumber n) := by
    refine ⟨hfinite, ?_⟩
    rw [alphaNumber, abs_of_nonneg hlow]
    exact hhigh.trans (by norm_num)
  obtain ⟨y, hy, hrender, -, hplaces⟩ := hfits.exists_settled
  refine ⟨y, hrender ▸ spellsNumber_render hy, ?_⟩
  rw [← hplaces hsign, byte_alphaNumber]

theorem isBlank_head (h : SpellsNumber t v) (u : Text) : ∀ c ∈ (t ++ u).head?, isBlank c = false := by
  obtain ⟨c, w, rfl, hc, -⟩ := h.split
  intro d hd
  obtain rfl := Option.some.inj hd
  rw [Bool.eq_false_iff, ne_eq, isBlank_iff]
  rcases hc with rfl | hc
  · decide
  · rw [isDigit_iff] at hc
    omega

/-- the tokens between the parentheses of a printed color -/
def argumentTokens (r g b a : Double) : List Token :=
  [.number r, .comma, .whitespace, .number g, .comma, .whitespace, .number b, .comma, .whitespace,
    .number a]

theorem render_eq (c : Color) :
    c.render = "rgba".toList ++ '(' :: (Text.decimal c.red.toNat ++ ',' :: ' ' ::
    (Text.decimal c.green.toNat ++ ',' :: ' ' :: (Text.decimal c.blue.toNat ++ ',' :: ' ' ::
      ((alphaNumber c.alpha).render ++ [')'])))) := by
  unfold render
  dsimp only
  rw [← alphaNumber]
  -- simplifying must not compute the digits
  generalize (alphaNumber c.alpha).render = a
  generalize Text.decimal c.red.toNat = r
  generalize Text.decimal c.green.toNat = g
  generalize Text.decimal c.blue.toNat = b
  simp

/-- A printed color is read as the function that it was printed as. -/
theorem ofText_render (c : Color) : ∃ a, byte (a.mul (.ofNat 255)) = c.alpha ∧ ofText c.render =
    [.function "rgba".toList ((argumentTokens (channelNumber c.red) (channelNumber c.green)
      (channelNumber c.blue) a).map .token)] := by
  obtain ⟨a, halpha, hbyte⟩ := spellsNumber_alpha c.alpha
  have hr := spellsNumber_channel c.red
  have hg := spellsNumber_channel c.green
  have hb := spellsNumber_channel c.blue
  have h₁ := Spells.number halpha (.inr rfl) .close
  have h₂ := Spells.number hb (.inl rfl) (.comma (isBlank_head halpha _) h₁)
  have h₃ := Spells.number hg (.inl rfl) (.comma (isBlank_head hb _) h₂)
  have h₄ := Spells.number hr (.inl rfl) (.comma (isBlank_head hg _) h₃)
  have hname : Name "rgba".toList := by decide
  have h₅ := Spells.function hname (by decide) h₄
  refine ⟨a, hbyte, ?_⟩
  rw [render_eq]
  refine ofText_function h₅ fun k hk => ?_
  simp only [argumentTokens, List.mem_cons, List.not_mem_nil, or_false] at hk
  rcases hk with rfl | rfl | rfl | rfl | rfl | rfl | rfl | rfl | rfl | rfl <;> exact ⟨by simp, rfl, by simp⟩

/-- A printed color is read as the color. -/
theorem ofComponent?_render (c : Color) : ∃ cs, ofText c.render = [.function "rgba".toList cs] ∧
    ofComponent? (.function "rgba".toList cs) = some c := by
  obtain ⟨a, hbyte, htext⟩ := ofText_render c
  refine ⟨_, htext, ?_⟩
  have hread : ofComponent?
      (.function "rgba".toList ((argumentTokens (channelNumber c.red) (channelNumber c.green)
      (channelNumber c.blue) a).map .token)) = some
        ⟨byte (channelNumber c.red), byte (channelNumber c.green),
        byte (channelNumber c.blue), byte (a.mul (.ofNat 255))⟩ := rfl
  rw [hread, byte_channelNumber, byte_channelNumber, byte_channelNumber, hbyte]

end Color

end StyleMiner
