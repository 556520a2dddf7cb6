import StyleMiner.Proofs.PrintedNumbers
import StyleMiner.Proofs.Rereading

/-! Stylesheets are in the order of their text. What is read of a text are pieces at the places of some of its
tokens, taken from the front to the back: a rule at its first token, then its declarations, then the next
rule. So offsets ascend through the whole sheet. The line and the column of a place in a text decide the
offset, and they can be read off the end of an identity whatever stands in front, so no two selectors of a
sheet have one identity. -/

namespace StyleMiner

namespace Location

variable {l m n : Location} {t u v : Text}

/-- whether a place comes before another by line and column -/
def Before (l m : Location) : Prop := l.line < m.line ∨ l.line = m.line ∧ l.column < m.column

theorem Before.trans (h : l.Before m) (h' : m.Before n) : l.Before n := by
  unfold Before at *
  omega

theorem before_advance (l : Location) (c : Char) : l.Before (l.advance c) := by
  unfold advance
  split
  · exact .inl (Nat.lt_succ_self _)
  · exact .inr ⟨rfl, Nat.lt_succ_self _⟩

theorem before_advanceOver (l : Location) (ht : t ≠ []) : l.Before (l.advanceOver t) := by
  induction t generalizing l with
  | nil => exact absurd rfl ht
  | cons c t ih =>
    have hfirst := l.before_advance c
    by_cases hnil : t = []
    · subst hnil
      exact hfirst
    · exact hfirst.trans (ih (l.advance c) hnil)

/-- The line and the column of a place in a text decide how much of the text is in front of it. -/
theorem eq_of_line_column (ht : t <+: v) (hu : u <+: v)
    (hline : (l.advanceOver t).line = (l.advanceOver u).line)
    (hcolumn : (l.advanceOver t).column = (l.advanceOver u).column) : t = u := by
  have hshort {t u : Text} (h : t <+: u) (hline : (l.advanceOver t).line = (l.advanceOver u).line)
      (hcolumn : (l.advanceOver t).column = (l.advanceOver u).column) : t = u := by
    obtain ⟨w, rfl⟩ := h
    by_cases hw : w = []
    · rw [hw, List.append_nil]
    · have hbefore := (l.advanceOver t).before_advanceOver hw
      rw [← advanceOver_append] at hbefore
      unfold Before at hbefore
      omega
  rcases List.prefix_or_prefix_of_prefix ht hu with h | h
  · exact hshort h hline hcolumn
  · exact (hshort h hline.symm hcolumn.symm).symm

theorem decimal_inj {a b : Nat} (h : Text.decimal a = Text.decimal b) : a = b := by
  rw [← Text.ofDecimal_decimal a, h, Text.ofDecimal_decimal]

theorem notMem_decimal {c : Char} (hc : c.isDigit = false) (k : Nat) : c ∉ Text.decimal k := by
  intro h
  rw [Text.digits_decimal k c h] at hc
  cases hc

theorem render_inj (h : l.render = m.render) : l.line = m.line ∧ l.column = m.column := by
  have hcolon (k : Nat) : ':' ∉ Text.decimal k := notMem_decimal (by decide) k
  obtain ⟨hline, -, hcolumn⟩ := (List.append_cons_inj_of_notMem (hcolon _) (hcolon _)).1 h
  exact ⟨decimal_inj hline, decimal_inj hcolumn⟩

theorem notMem_render (l : Location) : '(' ∉ l.render := by
  have hparen (k : Nat) : '(' ∉ Text.decimal k := notMem_decimal (by decide) k
  simp [render, hparen]

end Location

theorem behind_last_inj {α : Type} {mark : α} {a b u v : List α} (hu : mark ∉ u) (hv : mark ∉ v)
    (h : a ++ mark :: u = b ++ mark :: v) : u = v := by
  have hnone {w u v : List α} (hu : mark ∉ u) (h : mark :: u = w ++ mark :: v) : u = v := by
    cases w with
    | nil => exact (List.cons.inj h).2
    | cons x w =>
      rw [(List.cons.inj h).2] at hu
      exact absurd (List.mem_append_right w List.mem_cons_self) hu
  rcases List.append_eq_append_iff.1 h with ⟨w, -, h⟩ | ⟨w, -, h⟩
  · exact hnone hu h
  · exact (hnone hv h).symm

/-- An identity tells the line and the column of its selector. -/
theorem Selector.identity_inj {x y : Selector} (h : x.identity = y.identity) :
    x.location.line = y.location.line ∧ x.location.column = y.location.column := by
  have hsplit (z : Selector) : z.identity =
      (z.media.elim [] (· ++ [' ']) ++ z.text ++ [' ']) ++ '(' :: (z.location.render ++ [')']) := by
    simp [identity]
  have hnone (z : Selector) : '(' ∉ z.location.render ++ [')'] := by
    simpa using z.location.notMem_render
  rw [hsplit x, hsplit y] at h
  exact Location.render_inj (List.append_cancel_right (behind_last_inj (hnone x) (hnone y) h))

namespace Token

variable {l : Location} {t source : Text} {x : Located}

theorem offset_le_of_mem_scan (h : x ∈ scan l t) : l.offset ≤ x.start.offset := by
  have hle (l : Location) (t : Text) : l.offset ≤ (l.advanceOver t).offset := by
    rw [Location.advanceOver_offset]
    exact Nat.le_add_right _ _
  fun_induction scan l t with
  | case1 l t n start =>
    rw [List.mem_singleton.1 h]
    exact hle l _
  | case2 l t n start c u _ r stop ih =>
    rcases List.mem_cons.1 h with rfl | h
    · exact hle l _
    · exact Nat.le_trans (hle l _) (Nat.le_trans (hle start _) (ih h))

theorem scan_ascending (l : Location) (t : Text) :
    (scan l t).Pairwise fun x y => x.start.offset < y.start.offset := by
  fun_induction scan l t with
  | case1 => exact List.pairwise_singleton _ _
  | case2 l t n start c u _ r stop ih =>
    refine List.pairwise_cons.2 ⟨fun y hy => ?_, ih⟩
    have hstop : start.offset < stop.offset := by
      rw [Location.advanceOver_offset start, List.length_cons]
      omega
    exact Nat.lt_of_lt_of_le hstop (offset_le_of_mem_scan hy)

/-- A token starts where counting over some front part of the text comes to. -/
theorem exists_front (h : x ∈ tokenize source) :
    ∃ front, front <+: source ∧ x.start = Location.start.advanceOver front := by
  obtain ⟨before, after, htokens⟩ := List.append_of_mem h
  obtain ⟨w, gap, rest, rfl, -, -, hstart, -⟩ := tokenize_split htokens
  exact ⟨w ++ gap, ⟨rest, List.append_assoc ..⟩, hstart⟩

end Token

namespace BlockItem

variable {source : Source} {property : Text} {location : Location} {ts : List Located}

/-- where a piece of a block declares something -/
def places : BlockItem → List Location
  | .declaration d => [d.location]
  | .notice _ => []

/-- whether a piece of a block declares no property without a value -/
def HasValues : BlockItem → Prop
  | .declaration d => d.values ≠ []
  | .notice _ => True

theorem readDeclaration_spec (source : Source) (property : Text) (location : Location) (ts : List Located) :
    (readDeclaration source property location ts).1.places.Sublist [location] ∧
      (readDeclaration source property location ts).1.HasValues := by
  have hvalues (cs : List Spanned) : (ofValues source property location cs).places.Sublist [location] ∧
      (ofValues source property location cs).HasValues := by
    unfold ofValues
    dsimp only
    split
    · exact ⟨List.nil_sublist _, trivial⟩
    · next hne => exact ⟨List.Sublist.refl _, by simpa [HasValues] using hne⟩
  unfold readDeclaration
  split
  · split
    · exact hvalues _
    · exact ⟨List.nil_sublist _, trivial⟩
  · exact ⟨List.nil_sublist _, trivial⟩

theorem readBlock_places (source : Source) (ts : List Located) :
    ((readBlock source ts).1.flatMap places ++ (readBlock source ts).2.map (·.start)).Sublist
      (ts.map (·.start)) := by
  fun_induction readBlock source ts with
  | case1 => exact List.Sublist.refl _
  | case2 => exact List.Sublist.refl _
  | case3 t ts => exact List.sublist_cons_self _ _
  | case4 t ts _ _ _ ih => exact ih.cons _
  | case5 t ts _ _ _ property _ d r ih =>
    rw [List.flatMap_cons, List.append_assoc]
    have hrest : (d.2.map (·.start)).Sublist (ts.map (·.start)) :=
      (readDeclaration_suffix ..).sublist.map _
    exact (readDeclaration_spec source property t.start ts).1.append (ih.trans hrest)
  | case6 t ts _ _ _ _ skipped r ih => exact ih.trans ((Component.takeUntil_suffix _ _).sublist.map _)

theorem hasValues_of_mem_readBlock : ∀ i ∈ (readBlock source ts).1, i.HasValues := by
  fun_induction readBlock source ts with
  | case1 => exact fun i hi => absurd hi List.not_mem_nil
  | case2 => exact fun i hi => absurd hi List.not_mem_nil
  | case3 => exact fun i hi => absurd hi List.not_mem_nil
  | case4 t ts _ _ _ ih => exact ih
  | case5 t ts _ _ _ property _ d r ih =>
    exact List.forall_mem_cons.2 ⟨(readDeclaration_spec source property t.start ts).2, ih⟩
  | case6 t ts _ _ _ _ skipped r ih => exact List.forall_mem_cons.2 ⟨trivial, ih⟩

end BlockItem

namespace SheetItem

variable {source : Source} {contexts : List Text} {ts : List Located} {i : SheetItem}

/-- where a piece of a sheet has a rule, and where that declares something -/
def places : SheetItem → List Location
  | .rule _ _ location block => location :: block.flatMap BlockItem.places
  | .notice _ => []

/-- whether a piece of a sheet declares no property without a value -/
def HasValues : SheetItem → Prop
  | .rule _ _ _ block => ∀ i ∈ block, i.HasValues
  | .notice _ => True

theorem exists_notice {outer : Option Text} {name : Text} {location : Location}
    (h : i ∈ (readAtRule source outer name location ts).notice) : ∃ n, i = .notice n := by
  unfold readAtRule at h
  dsimp only at h
  split at h
  · split at h
    · split at h
      · cases h
      · exact ⟨_, List.mem_singleton.1 h⟩
    · cases h
  · cases h

theorem places_readAtRule (source : Source) (outer : Option Text) (name : Text) (location : Location)
    (ts : List Located) : (readAtRule source outer name location ts).notice.flatMap places = [] := by
  refine List.flatMap_eq_nil_iff.2 fun i hi => ?_
  obtain ⟨n, rfl⟩ := exists_notice hi
  rfl

theorem readRule_spec (source : Source) (media : Option Text) (t : Located) (ts : List Located) :
    ((readRule source media t ts).1.places ++ (readRule source media t ts).2.map (·.start)).Sublist
        ((t :: ts).map (·.start)) ∧
      (readRule source media t ts).1.HasValues := by
  have hsuffix := Component.takeUntil_suffix endsRulePrelude (t :: ts)
  unfold readRule
  split
  · next brace rest hr =>
    rw [hr] at hsuffix
    have hrest : rest <:+ ts := by
      rcases List.suffix_cons_iff.1 hsuffix with heq | hsuffix
      · exact (List.cons.inj heq).2 ▸ List.suffix_refl rest
      · exact (List.suffix_cons brace rest).trans hsuffix
    split
    · dsimp only
      split
      · exact ⟨(((dropBlock_suffix rest).trans hrest).sublist.map _).cons _, trivial⟩
      · refine ⟨List.Sublist.cons_cons _ ?_, BlockItem.hasValues_of_mem_readBlock⟩
        exact (BlockItem.readBlock_places source rest).trans (hrest.sublist.map _)
    · exact ⟨(hrest.sublist.map _).cons _, trivial⟩
  · exact ⟨List.nil_sublist _, trivial⟩

theorem readRules_places (source : Source) (contexts : List Text) (ts : List Located) :
    ((readRules source contexts ts).flatMap places).Sublist (ts.map (·.start)) := by
  fun_induction readRules source contexts ts with
  | case1 => exact List.nil_sublist _
  | case2 => exact List.nil_sublist _
  | case3 _ t ts _ ih => exact ih.cons _
  | case4 _ t ts _ ih => exact ih.cons _
  | case5 t ts _ ih => exact ih.cons _
  | case6 t ts _ _ _ ih => exact ih.cons _
  | case7 _ t ts _ _ r ih =>
    rw [List.flatMap_append, places_readAtRule, List.nil_append]
    exact (ih.trans ((readAtRule_suffix ..).sublist.map _)).cons _
  | case8 contexts t ts r _ _ _ _ _ ih =>
    rw [List.flatMap_cons]
    exact ((List.Sublist.refl _).append ih).trans (readRule_spec source contexts.head? t ts).1

theorem hasValues_of_mem_readRules : ∀ i ∈ readRules source contexts ts, i.HasValues := by
  fun_induction readRules source contexts ts with
  | case1 => exact fun i hi => absurd hi List.not_mem_nil
  | case2 => exact fun i hi => absurd hi List.not_mem_nil
  | case3 _ t ts _ ih => exact ih
  | case4 _ t ts _ ih => exact ih
  | case5 t ts _ ih => exact List.forall_mem_cons.2 ⟨trivial, ih⟩
  | case6 t ts _ _ _ ih => exact ih
  | case7 _ t ts _ _ r ih =>
    refine List.forall_mem_append.2 ⟨fun i hi => ?_, ih⟩
    obtain ⟨n, rfl⟩ := exists_notice hi
    exact trivial
  | case8 contexts t ts r _ _ _ _ _ ih =>
    exact List.forall_mem_cons.2 ⟨(readRule_spec source contexts.head? t ts).2, ih⟩

end SheetItem

namespace Selector

variable {x : Selector} {d : Declaration}

/-- where a selector stands, and where its declarations do -/
def places (x : Selector) : List Location := x.location :: x.declarations.map (·.location)

theorem places_ofRule (id : SelectorId) (text : Text) (media : Option Text) (location : Location)
    (block : List BlockItem) :
    (ofRule id text media location block).places = location :: block.flatMap BlockItem.places := by
  refine congrArg (location :: ·) ?_
  rw [ofRule]
  induction block with
  | nil => rfl
  | cons i block ih =>
    cases i with
    | notice n => exact ih
    | declaration d => exact congrArg (d.location :: ·) ih

end Selector

namespace SheetItem

variable {next : SelectorId} {is : List SheetItem} {x : Selector}

theorem places_selectors (next : SelectorId) (is : List SheetItem) :
    (selectors next is).flatMap Selector.places = is.flatMap places := by
  induction is generalizing next with
  | nil => rfl
  | cons i is ih =>
    cases i with
    | notice n => exact ih next
    | rule text media location block =>
      rw [selectors, List.flatMap_cons, List.flatMap_cons, ih, Selector.places_ofRule]
      rfl

theorem declares_of_mem_selectors (hvalues : ∀ i ∈ is, i.HasValues) (hx : x ∈ selectors next is) :
    ∀ d ∈ x.declarations, d.selector = x.id ∧ d.values ≠ [] := by
  induction is generalizing next with
  | nil => cases hx
  | cons i is ih =>
    obtain ⟨hfirst, hrest⟩ := List.forall_mem_cons.1 hvalues
    cases i with
    | notice n => exact ih hrest hx
    | rule text media location block =>
      rcases List.mem_cons.1 hx with rfl | hx
      · intro d hd
        obtain ⟨i, hi, hd⟩ := List.mem_filterMap.1 hd
        cases i with
        | notice n => cases hd
        | declaration e =>
          obtain rfl := Option.some.inj hd
          have hne : e.values ≠ [] := hfirst _ hi
          exact ⟨rfl, fun hnil => hne (List.map_eq_nil_iff.1 hnil)⟩
      · exact ih hrest hx

end SheetItem

namespace Stylesheet

variable {source : Text}

/-- Selectors and declarations stand at the places of tokens, in their order. -/
theorem ofText_places (source : Text) :
    ((ofText source).selectors.flatMap Selector.places).Sublist ((tokenize source).map (·.start)) := by
  have hplaces := SheetItem.places_selectors 0 (items source)
  exact hplaces ▸ SheetItem.readRules_places source.toArray [] (tokenize source)

theorem places_ascending (source : Text) : ((ofText source).selectors.flatMap Selector.places).Pairwise
    fun l m => l.offset < m.offset := by
  refine List.Pairwise.sublist (ofText_places source) ?_
  exact List.pairwise_map.2 (Token.scan_ascending .start source)

/-- Where a selector or a declaration stands is where counting over the text comes to. -/
theorem exists_front_of_mem_places {x : Selector} {l : Location} (hx : x ∈ (ofText source).selectors)
    (hl : l ∈ x.places) : ∃ front, front <+: source ∧ l = Location.start.advanceOver front := by
  have hmem := (ofText_places source).subset (List.mem_flatMap.2 ⟨x, hx, hl⟩)
  obtain ⟨y, hy, rfl⟩ := List.mem_map.1 hmem
  exact Token.exists_front hy

theorem offset_eq_of_identity_eq {x y : Selector} (hx : x ∈ (ofText source).selectors)
    (hy : y ∈ (ofText source).selectors) (h : x.identity = y.identity) :
    x.location.offset = y.location.offset := by
  obtain ⟨hline, hcolumn⟩ := Selector.identity_inj h
  obtain ⟨t, ht, hxt⟩ := exists_front_of_mem_places hx List.mem_cons_self
  obtain ⟨u, hu, hyu⟩ := exists_front_of_mem_places hy List.mem_cons_self
  rw [hxt, hyu] at hline hcolumn ⊢
  rw [Location.eq_of_line_column ht hu hline hcolumn]

/-- A sheet that is read from a text is in the order of the text. Selectors are numbered as they come, each
stands before the next, and its declarations stand between the two, one before the other, each with a value
and with the selector's number. All places are places of the text, counted from its start, and no two
selectors have one identity, whatever their texts and conditions. -/
theorem ofText_inOrder (source : Text) :
    (∀ (i : Nat) (x : Selector), (ofText source).selectors[i]? = some x → x.id = i) ∧
    ((ofText source).selectors.Pairwise fun x y => x.location.offset < y.location.offset ∧
      ∀ d ∈ x.declarations, d.location.offset < y.location.offset) ∧
    (∀ x ∈ (ofText source).selectors,
      (x.declarations.Pairwise fun d e => d.location.offset < e.location.offset) ∧
      (∀ d ∈ x.declarations, x.location.offset < d.location.offset ∧ d.selector = x.id ∧ d.values ≠ []) ∧
      ∀ l ∈ x.location :: x.declarations.map (·.location),
        l = Location.start.advanceOver (source.take l.offset)) ∧
    ((ofText source).selectors.map (·.identity)).Nodup := by
  obtain ⟨hwithin, hbetween⟩ := List.pairwise_flatMap.1 (places_ascending source)
  have hself (x : Selector) : x.location ∈ x.places := List.mem_cons_self
  have hdeclares (x : Selector) {d : Declaration} (hd : d ∈ x.declarations) : d.location ∈ x.places :=
    List.mem_cons_of_mem _ (List.mem_map_of_mem hd)
  refine ⟨fun i x hx => ?_, ?_, fun x hx => ⟨?_, fun d hd => ?_, fun l hl => ?_⟩, ?_⟩
  · obtain ⟨hi, rfl⟩ := List.getElem?_eq_some_iff.1 hx
    exact id_getElem hi
  · exact hbetween.imp fun {x y} h => ⟨h _ (hself x) _ (hself y), fun d hd => h _ (hdeclares x hd) _ (hself y)⟩
  · have hdeclared := (List.pairwise_cons.1 (hwithin x hx)).2
    rwa [List.pairwise_map] at hdeclared
  · obtain ⟨hid, hvalues⟩ :=
      SheetItem.declares_of_mem_selectors SheetItem.hasValues_of_mem_readRules hx d hd
    exact ⟨(List.pairwise_cons.1 (hwithin x hx)).1 _ (List.mem_map_of_mem hd), hid, hvalues⟩
  · obtain ⟨front, ⟨rest, rfl⟩, rfl⟩ := exists_front_of_mem_places hx hl
    rw [Token.start_offset, List.take_left]
  · refine List.pairwise_map.2 (hbetween.imp_of_mem fun {x y} hx hy h heq => ?_)
    exact absurd (offset_eq_of_identity_eq hx hy heq) (Nat.ne_of_lt (h _ (hself x) _ (hself y)))

/-- One rule twice under one condition. -/
theorem ofText_inOrder_repeated :
    ∃ x y, (ofText "@media m\x7ba\x7bb:c\x7da\x7bb:c\x7d\x7d".toList).selectors = [x, y] ∧ x.text = y.text ∧
      x.media = some "@media m".toList ∧ y.media = some "@media m".toList ∧
      x.location.offset < y.location.offset ∧ x.identity ≠ y.identity := by
  obtain ⟨-, hbefore, -, hidentities⟩ := ofText_inOrder "@media m\x7ba\x7bb:c\x7da\x7bb:c\x7d\x7d".toList
  have hshown : (ofText "@media m\x7ba\x7bb:c\x7da\x7bb:c\x7d\x7d".toList).selectors.map
      (fun x => (x.text, x.media)) = [(['a'], some "@media m".toList), (['a'], some "@media m".toList)] := by
    decide +kernel
  have hlength := congrArg List.length hshown
  rw [List.length_map] at hlength
  obtain ⟨x, y, hxy⟩ := List.length_eq_two.1 hlength
  rw [hxy] at hshown hbefore hidentities
  simp only [List.map_cons, List.map_nil, List.cons.injEq, Prod.mk.injEq] at hshown
  obtain ⟨⟨hx, hxmedia⟩, ⟨hy, hymedia⟩, -⟩ := hshown
  refine ⟨x, y, hxy, hx.trans hy.symm, hxmedia, hymedia, ?_, ?_⟩
  · exact ((List.pairwise_cons.1 hbefore).1 y List.mem_cons_self).1
  · exact (List.pairwise_cons.1 hidentities).1 _ List.mem_cons_self

end Stylesheet
end StyleMiner
