import StyleMiner.Proofs.GroupRules

/-! Blocks segment by segment. The semicolons outside brackets part a block into segments, and each of them is
read as a block of its own would be, so a segment that is no declaration takes nothing from those beside it.
What is read of a block goes to the selector that the block is of. -/

namespace StyleMiner

variable {source : Source} {ts : List Located} {close : Located} {segments : List (List Located)}
  {id : SelectorId} {ds : List Declaration} {is : List SheetItem} {s : Stylesheet}

namespace BlockItem

/-- tokens parted into segments by semicolons, with brackets that match in each segment and with neither a
semicolon nor a closing brace outside of them -/
inductive Segmented : List Located → List (List Located) → Prop where
  | last {segment : List Located} (hsegment : Matched endsDeclaration segment) : Segmented segment [segment]
  | cons {segment ts : List Located} {semi : Located} {segments : List (List Located)}
    (hsegment : Matched endsDeclaration segment) (hsemi : semi.token = .semicolon)
    (hrest : Segmented ts segments) : Segmented (segment ++ semi :: ts) (segment :: segments)

theorem exists_segmented : ∀ {ts : List Located}, Balanced ts → ∃ segments, Segmented ts segments
  | ts, h => by
    obtain ⟨segment, us, hts, hsegment, hus, hhead⟩ := h.split endsDeclaration
    cases us with
    | nil =>
      rw [hts, List.append_nil]
      exact ⟨_, .last hsegment⟩
    | cons semi us =>
      have hsemi : semi.token = .semicolon :=
        (endsDeclaration_iff.1 (hhead semi rfl)).resolve_right (hus.head_ne_closing .curly)
      have hlength := congrArg List.length hts
      obtain ⟨segments, hrest⟩ := exists_segmented (hus.tail (by rw [hsemi]; rfl))
      rw [hts]
      exact ⟨segment :: segments, .cons hsegment hsemi hrest⟩
termination_by ts => ts.length
decreasing_by simp only [List.length_append, List.length_cons] at hlength; omega

theorem Segmented.read (h : Segmented ts segments) (hclose : close.token = .closing .curly)
    (rest : List Located) : readBlock source (ts ++ close :: rest) =
      (segments.flatMap fun segment => (readBlock source (segment ++ [close])).1, rest) := by
  induction h with
  | @last segment hsegment =>
    rw [readBlock_append hsegment.balanced hclose, List.flatMap_singleton,
      readBlock_append hsegment.balanced hclose]
  | @cons segment ts semi segments hsegment hsemi _ ih =>
    rw [List.append_assoc, List.cons_append,
      readBlock_upTo hsegment.balanced (endsDeclaration_iff.2 (.inl hsemi)), readBlock_semicolon hsemi, ih,
      List.flatMap_cons, readBlock_append hsegment.balanced hclose]

/-- the declarations that the pieces of its block are to a selector -/
def declared (id : SelectorId) (block : List BlockItem) : List Declaration :=
  block.filterMap fun
    | .declaration d => some (.ofRaw d.property d.values d.important id d.location)
    | .notice _ => none

theorem selector_of_mem_declared {d : Declaration} {block : List BlockItem}
    (h : d ∈ declared id block) : d.selector = id := by
  obtain ⟨i, -, hi⟩ := List.mem_filterMap.1 h
  cases i with
  | declaration raw => exact (Option.some.inj hi) ▸ rfl
  | notice n => cases hi

theorem declared_flatMap (id : SelectorId) (f : List Located → List BlockItem)
    (segments : List (List Located)) :
    declared id (segments.flatMap f) = segments.flatMap fun segment => declared id (f segment) := by
  rw [declared, List.filterMap_flatMap]
  rfl

end BlockItem

def Selector.extend (ds : List Declaration) (x : Selector) : Selector :=
  { x with declarations := x.declarations ++ ds }

namespace Stylesheet

open BlockItem (declared Segmented)

def extendOne (id : SelectorId) (ds : List Declaration) (x : Selector) : Selector :=
  if x.id = id then x.extend ds else x

/-- adds the declarations of a selector's block one by one -/
def addBlock (s : Stylesheet) (id : SelectorId) (block : List BlockItem) : Except OutOfBounds Stylesheet :=
  (declared id block).foldlM addDeclaration s

theorem extendOne_nil (id : SelectorId) (x : Selector) : extendOne id [] x = x := by
  unfold extendOne Selector.extend
  split
  · rw [List.append_nil]
  · rfl

theorem extendOne_appendTo {d : Declaration} (hd : d.selector = id) (x : Selector) :
    extendOne id ds (appendTo d x) = extendOne id (d :: ds) x := by
  unfold extendOne
  rw [appendTo_id]
  split
  · next hx => simp [appendTo, Selector.extend, hx, hd]
  · next hx => rw [appendTo, if_neg (by rw [hd]; exact hx)]

theorem exists_addDeclarations (hds : ∀ d ∈ ds, d.selector = id) (hid : id < s.size) :
    ∃ s', ds.foldlM addDeclaration s = .ok s' ∧ s'.selectors = s.selectors.map (extendOne id ds) := by
  induction ds generalizing s with
  | nil => exact ⟨s, rfl, by rw [funext (extendOne_nil id), List.map_id']⟩
  | cons d ds ih =>
    have hd := hds d (List.mem_cons_self ..)
    obtain ⟨t, ht, hselectors⟩ : ∃ t, s.addDeclaration d = .ok t ∧
        t.selectors = s.selectors.map (appendTo d) :=
      ⟨_, by rw [addDeclaration, if_pos (by rwa [hd])], rfl⟩
    obtain ⟨s', hs', hmap⟩ := ih (s := t) (fun e he => hds e (List.mem_cons_of_mem _ he))
      (by rwa [size, hselectors, List.length_map])
    refine ⟨s', ?_, ?_⟩
    · rw [List.foldlM_cons, ht]
      exact hs'
    · rw [hmap, hselectors, List.map_map]
      exact List.map_congr_left fun x _ => extendOne_appendTo hd x

theorem exists_addBlock (hid : id < s.size) (block : List BlockItem) : ∃ s', s.addBlock id block = .ok s' ∧
    s'.selectors = s.selectors.map (extendOne id (declared id block)) :=
  exists_addDeclarations (fun _ => BlockItem.selector_of_mem_declared) hid

theorem get?_extendOne {s' : Stylesheet} (h : s'.selectors = s.selectors.map (extendOne id ds)) (i : SelectorId) :
    s'.get? i = if i = id then (s.get? i).map (·.extend ds) else s.get? i := by
  rw [get?, h, List.getElem?_map, get?]
  cases hx : s.selectors[i]? with
  | none => rw [Option.map_none, Option.map_none, ite_self]
  | some x =>
    obtain ⟨hi, rfl⟩ := List.getElem?_eq_some_iff.1 hx
    rw [Option.map_some, extendOne, id_getElem hi]
    split <;> rfl

/-- A bad segment does nothing to its neighbours: what a block adds to its selector is, in order, what each of
its segments would add as a whole block. No other selector changes, and what is behind the brace is left. -/
theorem addBlock_segments (h : Segmented ts segments) (hclose : close.token = .closing .curly)
    (rest : List Located) (hid : id < s.size) :
    let alone := fun segment => declared id (BlockItem.readBlock source (segment ++ [close])).1
    let block := BlockItem.readBlock source (ts ++ close :: rest)
    block.2 = rest ∧ ∃ s', s.addBlock id block.1 = .ok s' ∧ s'.size = s.size ∧
      s'.get? id = (s.get? id).map (·.extend (segments.flatMap alone)) ∧
        ∀ i, i ≠ id → s'.get? i = s.get? i := by
  intro alone block
  have hblock : block = (segments.flatMap fun segment =>
      (BlockItem.readBlock source (segment ++ [close])).1, rest) := h.read hclose rest
  obtain ⟨s', hs', hselectors⟩ := exists_addBlock hid block.1
  have hds : declared id block.1 = segments.flatMap alone := by
    rw [hblock, BlockItem.declared_flatMap]
  rw [hds] at hselectors
  refine ⟨by rw [hblock], s', hs', by rw [size, hselectors, List.length_map, size], ?_, fun i hi => ?_⟩
  · rw [get?_extendOne hselectors, if_pos rfl]
  · rw [get?_extendOne hselectors, if_neg hi]

/-- A segment without a colon and with a block in it stands between two declarations. -/
theorem addBlock_segments_nested :
    let text := "a:b;c\x7b;\x7dd;e:f\x7d".toList
    let s := (empty.addSelector ['x'] none .start).addSelector ['y'] none .start
    ∃ s', s.addBlock 1 (BlockItem.readBlock text.toArray (tokenize text)).1 = .ok s' ∧
      s'.get? 0 = s.get? 0 ∧
        (s'.get? 1).map (fun x => x.declarations.map (·.property)) = some [['a'], ['e']] := by
  intro text s
  have hfirst : Matched BlockItem.endsDeclaration
      [⟨.ident ['a'], ⟨0, 1, 1⟩, 1⟩, ⟨.colon, ⟨1, 1, 2⟩, 2⟩, ⟨.ident ['b'], ⟨2, 1, 3⟩, 3⟩] :=
    .of_standsAlone rfl
  have hbad : Matched BlockItem.endsDeclaration ([⟨.ident ['c'], ⟨4, 1, 5⟩, 5⟩] ++
      (⟨.opening .curly, ⟨5, 1, 6⟩, 6⟩ :: ([⟨.semicolon, ⟨6, 1, 7⟩, 7⟩] ++
        [⟨.closing .curly, ⟨7, 1, 8⟩, 8⟩, ⟨.ident ['d'], ⟨8, 1, 9⟩, 9⟩]))) :=
    .append (.of_standsAlone rfl) (.group rfl rfl rfl (.of_standsAlone rfl) (.of_standsAlone rfl))
  have hlast : Matched BlockItem.endsDeclaration
      [⟨.ident ['e'], ⟨10, 1, 11⟩, 11⟩, ⟨.colon, ⟨11, 1, 12⟩, 12⟩, ⟨.ident ['f'], ⟨12, 1, 13⟩, 13⟩] :=
    .of_standsAlone rfl
  have hsegments := @Segmented.cons _ _ ⟨.semicolon, ⟨3, 1, 4⟩, 4⟩ _ hfirst rfl
    (@Segmented.cons _ _ ⟨.semicolon, ⟨9, 1, 10⟩, 10⟩ _ hbad rfl (.last hlast))
  obtain ⟨-, s', hs', -, hown, hothers⟩ := @addBlock_segments text.toArray _ ⟨.closing .curly, ⟨13, 1, 14⟩, 14⟩ _ 1 s
    hsegments rfl [⟨.eof, ⟨14, 1, 15⟩, 14⟩] (by decide)
  refine ⟨s', Eq.trans (congrArg (fun ts => s.addBlock 1 (BlockItem.readBlock text.toArray ts).1) ?_) hs',
    hothers 0 (by decide), ?_⟩
  · decide +kernel
  · rw [hown]
    decide +kernel

/-- adds what a piece of a sheet is: the selector of a rule with the declarations of its block -/
def addItem (s : Stylesheet) : SheetItem → Except OutOfBounds Stylesheet
  | .rule text media location block => (s.addSelector text media location).addBlock s.size block
  | .notice _ => .ok s

theorem exists_addItem (s : Stylesheet) (i : SheetItem) : ∃ s', s.addItem i = .ok s' ∧
    s'.selectors = s.selectors ++ SheetItem.selectors s.size [i] := by
  cases i with
  | notice n => exact ⟨s, rfl, (List.append_nil _).symm⟩
  | rule text media location block =>
    have hid : s.size < (s.addSelector text media location).size := by
      rw [size, size, addSelector, List.length_append]
      exact Nat.lt_succ_self _
    obtain ⟨s', hs', hselectors⟩ := exists_addBlock hid block
    refine ⟨s', hs', ?_⟩
    rw [hselectors, addSelector, List.map_append]
    congr 1
    · -- the selectors in front have smaller ids
      refine (List.map_congr_left fun x hx => ?_).trans (List.map_id _)
      rw [extendOne, if_neg (Nat.ne_of_lt (id_lt_size hx)), id_eq]
    · rw [List.map_singleton, extendOne, if_pos rfl, Selector.extend, List.nil_append]
      rfl

theorem exists_addItems (s : Stylesheet) (is : List SheetItem) : ∃ s', is.foldlM addItem s = .ok s' ∧
    s'.selectors = s.selectors ++ SheetItem.selectors s.size is := by
  induction is generalizing s with
  | nil => exact ⟨s, rfl, (List.append_nil _).symm⟩
  | cons i is ih =>
    obtain ⟨t, ht, hfirst⟩ := exists_addItem s i
    obtain ⟨s', hs', hrest⟩ := ih t
    refine ⟨s', ?_, ?_⟩
    · rw [List.foldlM_cons, ht]
      exact hs'
    · have hsize : t.size = s.size + (SheetItem.selectors s.size [i]).length := by
        rw [size, hfirst, List.length_append, size]
      rw [hrest, hfirst, hsize, List.append_assoc, ← SheetItem.selectors_append, List.singleton_append]

/-- The sheet of a text is the one that its rules build, added one after the other. -/
theorem foldlM_addItem_items (source : Text) : (items source).foldlM addItem empty = .ok (ofText source) := by
  obtain ⟨s', hs', hselectors⟩ := exists_addItems empty (items source)
  have hsheet : s' = ofText source := by
    cases s'
    exact Stylesheet.mk.injEq .. ▸ hselectors
  rw [hs', hsheet]

end Stylesheet
end StyleMiner
