import StyleMiner.Proofs.ComponentSpans
import StyleMiner.Proofs.Excerpts
import StyleMiner.Sheet.Rules

/-! Values are read twice: in their place, where the components around them are, and again by themselves, from
the trimmed text that is kept of them. Where trimming cuts no token both readings are of the same kind. -/

namespace StyleMiner

variable {source : Text} {ts us : List Located} {w : Text × Value} {property : Text} {location : Location}

/-- the values of a declaration as they stand in the source, each with the one that is stored for it -/
def BlockItem.written : BlockItem → List (Text × Value)
  | .declaration d => d.values.map fun w => (w.1, .ofRaw d.property.trim.lower w.1.trim w.2)
  | .notice _ => []

def SheetItem.written : SheetItem → List (Text × Value)
  | .rule _ _ _ block => block.flatMap BlockItem.written
  | .notice _ => []

/-- the values of a sheet as they stand in its source -/
def Stylesheet.written (source : Text) : List (Text × Value) := (items source).flatMap SheetItem.written

theorem BlockItem.written_ofRule (id : SelectorId) (text : Text) (media : Option Text) (block : List BlockItem) :
    (block.flatMap written).map (·.2) =
      (Selector.ofRule id text media location block).declarations.flatMap (·.values) := by
  rw [Selector.ofRule]
  induction block with
  | nil => rfl
  | cons d block ih =>
    cases d with
    | notice n => exact ih
    | declaration d =>
      rw [List.flatMap_cons, List.map_append, ih, written, List.map_map]
      rfl

theorem SheetItem.written_selectors (next : SelectorId) (is : List SheetItem) :
    (is.flatMap written).map (·.2) = ((selectors next is).flatMap (·.declarations)).flatMap (·.values) := by
  induction is generalizing next with
  | nil => rfl
  | cons i is ih =>
    cases i with
    | notice n => exact ih next
    | rule text media location block =>
      rw [List.flatMap_cons, List.map_append, ih (next + 1), selectors, List.flatMap_cons, List.flatMap_append,
        ← BlockItem.written_ofRule]
      rfl

/-- the value is read from tokens in some part of `ts` -/
def ReadFrom (source : Text) (ts : List Located) (w : Text × Value) : Prop :=
  ∃ ends us, us <:+ ts ∧ ∃ s ∈ (Component.takeUntil ends us).1,
    w.1 = Source.slice source.toArray s.start s.stop ∧ w.2.raw = w.1.trim ∧ w.2.kind = s.component.kind

theorem ReadFrom.mono (h : ReadFrom source us w) (hus : us <:+ ts) : ReadFrom source ts w := by
  obtain ⟨ends, vs, hvs, hs⟩ := h
  exact ⟨ends, vs, hvs.trans hus, hs⟩

namespace BlockItem

theorem splitImportant_subset (vs : List Spanned) : (splitImportant vs).1 ⊆ vs := by
  intro v hv
  unfold splitImportant at hv
  split at hv
  · next word bang before heq =>
    split at hv
    · rw [← List.mem_reverse, heq]
      exact List.mem_cons_of_mem _ (List.mem_cons_of_mem _ (List.mem_reverse.1 hv))
    · exact hv
  · exact hv

theorem readFrom_ofValues (ends : Token → Bool)
    (h : w ∈ (ofValues source.toArray property location (Component.takeUntil ends ts).1).written) :
    ReadFrom source ts w := by
  unfold ofValues at h
  dsimp only at h
  split at h
  · cases h
  · rw [written, List.map_map] at h
    obtain ⟨s, hs, rfl⟩ := List.mem_map.1 h
    exact ⟨ends, ts, List.suffix_refl ts, s, List.mem_of_mem_filter (splitImportant_subset _ hs), rfl, rfl, rfl⟩

theorem readFrom_readDeclaration
    (h : w ∈ (readDeclaration source.toArray property location ts).1.written) : ReadFrom source ts w := by
  have hsuffix := List.dropWhile_suffix (l := ts) (·.token == .whitespace)
  unfold readDeclaration at h
  split at h
  · next t rest hr =>
    rw [hr] at hsuffix
    split at h
    · exact (readFrom_ofValues _ h).mono ((List.suffix_cons t rest).trans hsuffix)
    · cases h
  · cases h

theorem readFrom_readBlock (h : w ∈ (readBlock source.toArray ts).1.flatMap written) : ReadFrom source ts w := by
  fun_induction readBlock source.toArray ts with
  | case1 => cases h
  | case2 => cases h
  | case3 => cases h
  | case4 t ts _ _ _ ih => exact (ih h).mono (List.suffix_cons t ts)
  | case5 t ts _ _ _ property _ d r ih =>
    rcases List.mem_append.1 h with h | h
    · exact (readFrom_readDeclaration h).mono (List.suffix_cons t ts)
    · exact (ih h).mono ((readDeclaration_suffix ..).trans (List.suffix_cons t ts))
  | case6 t ts _ _ _ _ _ _ ih => exact (ih h).mono (Component.takeUntil_suffix _ _)

end BlockItem

namespace SheetItem

theorem readFrom_readRule {media : Option Text} {t : Located}
    (h : w ∈ (readRule source.toArray media t ts).1.written) : ReadFrom source (t :: ts) w := by
  have hsuffix := Component.takeUntil_suffix endsRulePrelude (t :: ts)
  unfold readRule at h
  split at h
  · next brace rest hr =>
    rw [hr] at hsuffix
    split at h
    · dsimp only at h
      split at h
      · cases h
      · exact (BlockItem.readFrom_readBlock h).mono ((List.suffix_cons brace rest).trans hsuffix)
    · cases h
  · cases h

theorem written_readAtRule (source : Source) (outer : Option Text) (name : Text) (location : Location)
    (ts : List Located) : (readAtRule source outer name location ts).notice.flatMap written = [] := by
  unfold readAtRule
  dsimp only
  split
  · split
    · split <;> rfl
    · rfl
  · rfl

theorem readFrom_readRules {contexts : List Text}
    (h : w ∈ (readRules source.toArray contexts ts).flatMap written) : ReadFrom source ts w := by
  fun_induction readRules source.toArray contexts ts with
  | case1 => cases h
  | case2 => cases h
  | case3 _ t ts _ ih => exact (ih h).mono (List.suffix_cons t ts)
  | case4 _ t ts _ ih => exact (ih h).mono (List.suffix_cons t ts)
  | case5 t ts _ ih => exact (ih h).mono (List.suffix_cons t ts)
  | case6 t ts _ _ _ ih => exact (ih h).mono (List.suffix_cons t ts)
  | case7 _ t ts _ _ r ih =>
    rw [List.flatMap_append, written_readAtRule, List.nil_append] at h
    exact (ih h).mono ((readAtRule_suffix ..).trans (List.suffix_cons t ts))
  | case8 _ t ts r _ _ _ _ _ ih =>
    rcases List.mem_append.1 h with h | h
    · exact readFrom_readRule h
    · exact (ih h).mono (readRule_suffix ..)

end SheetItem

theorem Stylesheet.readFrom_written (h : w ∈ written source) : ReadFrom source (tokenize source) w :=
  SheetItem.readFrom_readRules h

/-- Trimming takes nothing off the front and only whole tokens off the end. -/
structure TrimsTokens (t : Text) : Prop where
  front : t.trim <+: t
  back : ∃ x ∈ tokenize t, ¬ Token.LooksOn x.token ∧ x.stop = t.trim.length

/-- what is written is a string that a line feed broke off -/
def BrokenString (w : Text × Value) : Prop := w.2.kind = .keyword ∧ w.1.head?.any Text.isQuote = true

/-- Tokens that stand where others stood are read as the same components. -/
theorem ofText_congr {t : Text} {e e' : Located} (ht : tokenize t = us ++ [e]) (he : e.token = .eof)
    (hts : ∀ x ∈ ts, x.token ≠ .eof) (h : us.map (·.token) = ts.map (·.token)) (he' : e'.token = .eof) :
    Component.ofText t = Component.ofTokens (ts ++ [e']) := by
  rw [Component.ofText, ht]
  exact Component.ofTokens_congr he' he hts h

theorem badString_of_looksOn {t : Token} (h : t.LooksOn) (hopen : Opener.ofToken? t = none) :
    t = .badString := by
  cases t with
  | badString => rfl
  | function name => cases hopen
  | _ => exact absurd h id

/-- Where a value stands its text has the tokens that it was read from, if that was no broken string. -/
theorem tokenize_value {before after : List Located} {x : Located} {s : Spanned}
    (h : tokenize source = before ++ ((x :: us) ++ after)) (hreads : Component.ReadsAs (x :: us) s.component)
    (hstart : s.start = x.start.offset) (hstop : s.stop = Component.lastStop 0 (x :: us))
    (hlast : us = [] ∧ s.component = .token x.token ∧ Opener.ofToken? x.token = none ∨
      Component.AtEnd after ∨ ∃ y ∈ (x :: us).getLast?, ∃ b, y.token = .closing b)
    (hbroken : ¬ (s.component.kind = .keyword ∧
      (Source.slice source.toArray s.start s.stop).head?.any Text.isQuote = true)) :
    (tokenize (Source.slice source.toArray s.start s.stop)).map (·.token) =
      (x :: us).map (·.token) ++ [.eof] := by
  have hx := hreads.tokens x (List.mem_cons_self ..)
  have hafter : after ≠ [] := by
    rintro rfl
    obtain ⟨ts, e, hends, he⟩ : ∃ ts e, tokenize source = ts ++ [e] ∧ e.token = .eof := Token.scan_ends .start source
    have hmem : e ∈ (x :: us).getLast? := by
      rw [hends, List.append_nil] at h
      rw [← List.getLast?_append_of_ne_nil before (List.cons_ne_nil x us), ← h, List.getLast?_concat]
      rfl
    exact hreads.tokens e (List.mem_of_getLast? hmem) he
  rw [hstart, hstop] at hbroken ⊢
  refine Token.tokenize_slice h hafter fun y hy hlooks => ?_
  rcases hlast with ⟨rfl, hcomponent, hopen⟩ | hend | ⟨z, hz, b, hclose⟩
  · obtain rfl : x = y := Option.some.inj hy
    have hbad := badString_of_looksOn hlooks hopen
    obtain ⟨c, u, hread, hslice, -⟩ := Token.tokenize_read h (hreads.tokens x (List.mem_cons_self ..))
    refine hbroken ⟨by rw [hcomponent, hbad]; rfl, ?_⟩
    rw [show Component.lastStop 0 [x] = x.stop from rfl, hslice, List.head?_cons, Option.any_some]
    exact Token.isQuote_of_badString (hread.symm.trans hbad)
  · obtain ⟨vs, hvs⟩ := List.getLast?_eq_some_iff.1 hy
    rw [hvs, List.append_assoc, ← List.append_assoc before] at h
    obtain ⟨z, hz, hne⟩ := Token.tokenize_looksOn h hlooks
    exact hne (hend z hz)
  · obtain rfl := Option.mem_unique hz hy
    rw [hclose] at hlooks
    exact hlooks

/-- The values stored for a text are those written in it, and where trimming cuts no token what is kept of a
value is one component of the kind that the value was read as in its place. -/
theorem values_reread (source : Text) :
    (Stylesheet.written source).map (·.2) = (Stylesheet.ofText source).declarations.flatMap (·.values) ∧
    ∀ w ∈ Stylesheet.written source, TrimsTokens w.1 → ¬ BrokenString w →
      ∃ c, Component.ofText w.2.raw = [c] ∧ w.2.kind = c.kind := by
  refine ⟨SheetItem.written_selectors 0 _, fun w hw htrims hbroken => ?_⟩
  obtain ⟨ends, ts, ⟨pre, hpre⟩, s, hs, hslice, hraw, hkind⟩ := Stylesheet.readFrom_written hw
  obtain ⟨before, x, us, after, rfl, hreads, hstart, hstop, hlast⟩ := Component.gather_readsAs hs
  rw [← List.append_assoc] at hpre
  have htokens := tokenize_value hpre.symm hreads hstart hstop hlast fun h => hbroken ⟨hkind.trans h.1, hslice ▸ h.2⟩
  rw [← hslice] at htokens
  obtain ⟨y, hy, hlooks, hystop⟩ := htrims.back
  obtain ⟨vs, ws, e, e', hwhole, hcut, he, he', hnone⟩ :=
    Token.tokenize_prefix htrims.front hy hlooks hystop
  -- the tokens that trimming leaves are the first of those that the value was read from
  rw [hwhole, ← List.append_assoc, List.map_append, List.map_singleton] at htokens
  obtain ⟨htokens, -⟩ := List.append_inj' htokens rfl
  rw [List.map_append] at htokens
  obtain ⟨zs, zs', hzs, hvs, hws⟩ := List.map_eq_append_iff.1 htokens.symm
  have hne : zs ≠ [] := by
    rintro rfl
    rw [hnone (List.map_eq_nil_iff.1 hvs.symm), List.map_nil, List.map_eq_nil_iff] at hws
    rw [hws] at hzs
    cases hzs
  obtain ⟨c, hc, hckind⟩ := hreads.cut e he zs ⟨zs', hzs.symm⟩ hne
  refine ⟨c, ?_, hkind.trans hckind.symm⟩
  rw [hraw, ofText_congr hcut he (fun z hz => hreads.tokens z ?_) hvs.symm he, hc]
  rw [hzs]
  exact List.mem_append_left zs' hz

theorem values_reread_unclosed : ∃ c, Component.ofText "f(c".toList = [c] ∧ Kind.function = c.kind :=
  (values_reread "a\x7bb:f(c ".toList).2 ("f(c ".toList, ⟨"f(c".toList, .function, ⟨.function, "f(c".toList⟩⟩)
    (by decide +kernel)
    ⟨by decide +kernel, ⟨.ident ['c'], ⟨2, 1, 3⟩, 3⟩, by decide +kernel, id, by decide +kernel⟩
    (fun h => nomatch h.1)

/-- A no-break space at the end of a name is trimmed off it: `red` with one behind it is no color, but what is
kept of it is. -/
theorem values_not_reread : ¬ ∀ (source : Text),
    ∀ v ∈ (Stylesheet.ofText source).declarations.flatMap (·.values),
      ∃ c, Component.ofText v.raw = [c] ∧ v.kind = c.kind := by
  intro h
  obtain ⟨c, hc, hkind⟩ := h "a\x7bcolor:red\u00a0\x7d".toList
    ⟨"red".toList, .keyword, ⟨.color, "rgba(255, 0, 0, 1)".toList⟩⟩ (by decide +kernel)
  have htokens : tokenize "red".toList = [⟨.ident "red".toList, ⟨0, 1, 1⟩, 3⟩, ⟨.eof, ⟨3, 1, 4⟩, 3⟩] := by
    decide +kernel
  have hred : Component.ofText "red".toList = [.token (.ident "red".toList)] := by
    rw [Component.ofText, htokens]
    rfl
  obtain rfl := (List.cons.inj (hred.symm.trans hc)).1
  exact absurd hkind (by decide +kernel)

end StyleMiner
