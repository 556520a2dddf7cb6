import Mathlib.Data.Set.Function
import Mathlib.Order.Interval.Set.Defs
import StyleMiner.Proofs.Closures
import StyleMiner.Proofs.Ranking

/-! Which selectors declare which shapes is all that mining sees of a sheet. Where a bijection takes the
selectors of a sheet to those of another that declare the same shapes, it takes the supports of one
table to those of the other, and the items stay at their ranks. It takes common supports to common
supports, so the closed sets are the same, and runs find the same sets. Results are laid out by
members alone, which no renaming of selectors touches. -/

namespace StyleMiner

namespace IdSet

variable {p : Nat → Nat} {s t : IdSet} {x : Nat} {n : Nat}

/-- what a map makes of the members -/
def image (p : Nat → Nat) (s : IdSet) : IdSet := .ofList (s.toList.map p)

theorem mem_image : x ∈ s.image p ↔ ∃ y ∈ s, p y = x := by
  rw [image, mem_ofList, List.mem_map]
  rfl

theorem size_image (h : Set.InjOn p {x | x ∈ s}) : (s.image p).size = s.size := by
  have hnodup : (s.toList.map p).Nodup := s.nodup.map_on fun x hx y hy heq => h hx hy heq
  have hperm : (s.image p).toList.Perm (s.toList.map p) := by
    refine (List.perm_ext_iff_of_nodup (nodup _) hnodup).2 fun x => ?_
    rw [← mem_def, image, mem_ofList]
  rw [size, hperm.length_eq, List.length_map, size]

end IdSet

/-- the set with its selectors renamed -/
def ItemSet.renamed (p : SelectorId → SelectorId) (s : ItemSet) : ItemSet := ⟨s.items, s.support.image p⟩

def ItemSetList.renamed (p : SelectorId → SelectorId) (l : ItemSetList) : ItemSetList :=
  ⟨l.cardinality, l.sets.map (·.renamed p)⟩

/-- whether a map takes the selectors of a sheet one to one to those of another, and each to one that
declares the same shapes -/
structure Stylesheet.Renamed (sheet : Stylesheet) (p : SelectorId → SelectorId) (sheet' : Stylesheet) :
    Prop where
  bijOn : Set.BijOn p (Set.Iio sheet.size) (Set.Iio sheet'.size)
  same_shapes : ∀ x ∈ sheet.selectors, ∀ y ∈ sheet'.selectors, y.id = p x.id →
    ∀ shape, shape ∈ y.declarations.map (·.shape) ↔ shape ∈ x.declarations.map (·.shape)

namespace Stylesheet.Renamed

variable {p : SelectorId → SelectorId} {sheet sheet' : Stylesheet} {shape : Shape} {s : SelectorId}
  {u u' : Support} {x : IdSet} {c : Config} {d : ItemSet}

theorem mem_declarers (h : Renamed sheet p sheet') (hs : s < sheet.size) :
    p s ∈ sheet'.declarers shape ↔ s ∈ sheet.declarers shape := by
  rw [Stylesheet.mem_declarers, Stylesheet.mem_declarers]
  constructor
  · intro hmem
    obtain ⟨y, hy, hid, hshape⟩ := hmem
    obtain ⟨x, hx, rfl⟩ := exists_selector hs
    exact ⟨x, hx, rfl, (h.same_shapes x hx y hy hid shape).1 hshape⟩
  · intro hmem
    obtain ⟨x, hx, rfl, hshape⟩ := hmem
    obtain ⟨y, hy, hid⟩ := exists_selector (h.bijOn.mapsTo hs)
    exact ⟨y, hy, hid, (h.same_shapes x hx y hy hid shape).2 hshape⟩

/-- Sets of selectors correspond if the map takes the members of one to members of the other and all
others to others. -/
theorem image_eq (h : Renamed sheet p sheet') (hu : ∀ s ∈ u, s < sheet.size)
    (hu' : ∀ s ∈ u', s < sheet'.size) (hmem : ∀ s < sheet.size, p s ∈ u' ↔ s ∈ u) : u' = u.image p := by
  refine IdSet.ext fun t => ?_
  rw [IdSet.mem_image]
  constructor
  · intro ht
    obtain ⟨s, hs, rfl⟩ := h.bijOn.surjOn (hu' t ht)
    exact ⟨s, (hmem s hs).1 ht, rfl⟩
  · intro ht
    obtain ⟨s, hs, rfl⟩ := ht
    exact (hmem s (hu s hs)).2 hs

theorem size_image (h : Renamed sheet p sheet') (hu : ∀ s ∈ u, s < sheet.size) :
    (u.image p).size = u.size :=
  IdSet.size_image (h.bijOn.injOn.mono fun s hs => hu s hs)

theorem image_inj (h : Renamed sheet p sheet') (hu : ∀ s ∈ u, s < sheet.size)
    (hu' : ∀ s ∈ u', s < sheet.size) (heq : u.image p = u'.image p) : u = u' := by
  have hsub {u u' : Support} (hu : ∀ s ∈ u, s < sheet.size) (hu' : ∀ s ∈ u', s < sheet.size)
      (heq : u.image p = u'.image p) (s : SelectorId) (hs : s ∈ u) : s ∈ u' := by
    have hp : p s ∈ u'.image p := heq ▸ IdSet.mem_image.2 ⟨s, hs, rfl⟩
    obtain ⟨t, ht, htp⟩ := IdSet.mem_image.1 hp
    exact h.bijOn.injOn (hu' t ht) (hu s hs) htp ▸ ht
  exact IdSet.ext fun s => ⟨hsub hu hu' heq s, hsub hu' hu heq.symm s⟩

theorem declarers_eq (h : Renamed sheet p sheet') (shape : Shape) :
    sheet'.declarers shape = (sheet.declarers shape).image p := by
  apply h.image_eq
  · exact fun s => lt_size_of_mem_declarers
  · exact fun s => lt_size_of_mem_declarers
  · exact fun s hs => h.mem_declarers hs

theorem size_declarers (h : Renamed sheet p sheet') (shape : Shape) :
    (sheet'.declarers shape).size = (sheet.declarers shape).size := by
  rw [h.declarers_eq]
  exact h.size_image fun s => lt_size_of_mem_declarers

/-- As many selectors declare a shape in both sheets, so shapes rank alike. -/
theorem shapes_eq (h : Renamed sheet p sheet') :
    (ItemTable.ofSheet sheet').shapes = (ItemTable.ofSheet sheet).shapes := by
  have hsame : sheet'.RanksBefore = sheet.RanksBefore := by
    funext s t
    simp only [RanksBefore, compareShapes, compareLex, h.size_declarers]
  have hsorted := hsame ▸ ItemTable.shapes_ascending sheet'
  refine hsorted.eq_of_mem_iff (ItemTable.shapes_ascending sheet) fun shape => ?_
  rw [ItemTable.mem_shapes, ItemTable.mem_shapes, h.declarers_eq]
  simp only [IdSet.mem_image]
  tauto

theorem has_iff (h : Renamed sheet p sheet') :
    (ItemTable.ofSheet sheet').Has x ↔ (ItemTable.ofSheet sheet).Has x := by
  have hsize : (ItemTable.ofSheet sheet').size = (ItemTable.ofSheet sheet).size := by
    rw [← ItemTable.length_shapes, h.shapes_eq, ItemTable.length_shapes]
  simp only [ItemTable.Has, hsize]

theorem common_eq (h : Renamed sheet p sheet') (x : IdSet) :
    (ItemTable.ofSheet sheet').common x = ((ItemTable.ofSheet sheet).common x).image p := by
  apply h.image_eq
  · exact ItemTable.lt_size_of_mem_common
  · exact ItemTable.lt_size_of_mem_common
  · intro s hs
    have hs' : p s < sheet'.size := h.bijOn.mapsTo hs
    simp only [ItemTable.mem_common_ofSheet, h.shapes_eq, h.mem_declarers hs, hs, hs']

/-- The tables list the same shapes at the same ranks. -/
theorem items_eq (h : Renamed sheet p sheet') :
    (ItemTable.ofSheet sheet').items.map (fun item => (item.id, item.shape, item.support)) =
      (ItemTable.ofSheet sheet).items.map fun item => (item.id, item.shape, item.support.image p) := by
  let rename (q : ItemId × Shape × Support) : ItemId × Shape × Support := (q.1, q.2.1, q.2.2.image p)
  calc (ItemTable.ofSheet sheet').items.map (fun item => (item.id, item.shape, item.support))
    _ = (ItemTable.ofSheet sheet).shapes.mapIdx fun rank shape =>
          rename (rank, shape, sheet.declarers shape) := by
        rw [ItemTable.items_eq, h.shapes_eq]
        simp only [h.declarers_eq, rename]
    _ = ((ItemTable.ofSheet sheet).items.map fun item => (item.id, item.shape, item.support)).map rename := by
        rw [ItemTable.items_eq]
        exact List.ext_getElem (by simp) fun i _ _ => by simp
    _ = _ := List.map_map

theorem common_eq_iff (h : Renamed sheet p sheet') {x y : IdSet} :
    (ItemTable.ofSheet sheet').common x = (ItemTable.ofSheet sheet').common y ↔
      (ItemTable.ofSheet sheet).common x = (ItemTable.ofSheet sheet).common y := by
  rw [h.common_eq, h.common_eq]
  constructor
  · exact h.image_inj ItemTable.lt_size_of_mem_common ItemTable.lt_size_of_mem_common
  · exact congrArg (IdSet.image p)

theorem shares_iff (h : Renamed sheet p sheet') {m : Nat} :
    (ItemTable.ofSheet sheet').Shares m x ↔ (ItemTable.ofSheet sheet).Shares m x := by
  rw [ItemTable.Shares, ItemTable.Shares, h.has_iff, h.common_eq, h.size_image ItemTable.lt_size_of_mem_common]

/-- A closure is the largest set of its support, and supports agree on which sets have the same. -/
theorem closure_eq (h : Renamed sheet p sheet') (hx : (ItemTable.ofSheet sheet).Has x) :
    (ItemTable.ofSheet sheet').closure x = (ItemTable.ofSheet sheet).closure x := by
  have hx' := h.has_iff.2 hx
  apply IdSet.subset_antisymm
  · apply ItemTable.subset_closure_of_common (h.has_iff.1 (ItemTable.has_closure _ x))
    rw [h.common_eq_iff.1 (ItemTable.common_closure hx')]
    exact IdSet.subset_refl _
  · apply ItemTable.subset_closure_of_common (h.has_iff.2 (ItemTable.has_closure _ x))
    rw [h.common_eq_iff.2 (ItemTable.common_closure hx)]
    exact IdSet.subset_refl _

/-- A run finds in one sheet what it finds in the other, with the selectors renamed. -/
theorem found_iff (h : Renamed sheet p sheet') :
    Found (.ofSheet sheet') c d ↔ ∃ s, Found (.ofSheet sheet) c s ∧ s.renamed p = d := by
  constructor
  · intro hd
    obtain ⟨⟨hhas, hsup⟩, hshares, hclosed⟩ := hd
    have hhas' := h.has_iff.1 hhas
    refine ⟨⟨d.items, (ItemTable.ofSheet sheet).common d.items⟩,
      ⟨ItemSet.faithful_mk hhas', h.shares_iff.1 hshares, fun hrem => ?_⟩, ?_⟩
    · exact (hclosed hrem).trans (h.closure_eq hhas')
    · rw [ItemSet.renamed, ← h.common_eq, ← hsup]
  · intro hs
    obtain ⟨s, ⟨⟨hhas, hsup⟩, hshares, hclosed⟩, rfl⟩ := hs
    refine ⟨⟨h.has_iff.2 hhas, ?_⟩, h.shares_iff.2 hshares, fun hrem => ?_⟩
    · rw [ItemSet.renamed, hsup, h.common_eq]
    · exact (hclosed hrem).trans (h.closure_eq hhas).symm

end Stylesheet.Renamed

namespace Results

variable {r r' : Results} {p : SelectorId → SelectorId}

theorem ordered_renamed (hr : r.Ordered) :
    Ordered { r with lists := r.lists.map (·.renamed p) } := by
  refine ⟨List.pairwise_map.2 hr.ascending, fun l hl => ?_⟩
  obtain ⟨k, hk, rfl⟩ := List.mem_map.1 hl
  obtain ⟨hsorted, hsized⟩ := hr.wellFormed k hk
  refine ⟨List.pairwise_map.2 hsorted, fun s hs => ?_⟩
  obtain ⟨t, ht, rfl⟩ := List.mem_map.1 hs
  exact hsized t ht

/-- Members alone lay results out, so renamed sets stay in their places. -/
theorem Ordered.kept_renamed (hr : r.Ordered) (hr' : r'.Ordered)
    (h : ∀ t, t ∈ r'.sets ↔ ∃ s ∈ r.sets, s.renamed p = t) : r'.kept = r.kept.map (·.renamed p) := by
  have hkept : r'.kept = kept { r with lists := r.lists.map (·.renamed p) } := by
    refine hr'.kept_eq (ordered_renamed hr) fun t => (h t).trans ?_
    simp only [sets, List.mem_flatMap, List.mem_map, ItemSetList.renamed]
    grind
  rw [hkept, kept, kept, List.filter_map]
  congr 2
  funext l
  simp [ItemSetList.isEmpty, ItemSetList.renamed]

end Results

/-- Along a bijection between selectors that declare the same shapes, two sheets have one ranking of
shapes and one result at every minimum, by either miner and whatever is asked for, up to the
bijection. Order, repetition, spelling, place and condition of declarations make no difference. -/
theorem mining_renamed (p : SelectorId → SelectorId) (sheet sheet' : Stylesheet)
    (h : sheet.Renamed p sheet') :
    (ItemTable.ofSheet sheet').items.map (fun item => (item.id, item.shape, item.support)) =
        (ItemTable.ofSheet sheet).items.map (fun item => (item.id, item.shape, item.support.image p)) ∧
      ∀ (c : Config) (a : Algorithm), 2 ≤ c.minSupport → ∃ o o', findDuplicates sheet c a = .ok o ∧
        findDuplicates sheet' c a = .ok o' ∧ o.table = .ofSheet sheet ∧ o'.table = .ofSheet sheet' ∧
        o'.results.kept = o.results.kept.map (·.renamed p) := by
  refine ⟨h.items_eq, fun c a hmin => ?_⟩
  obtain ⟨o, ho, htable, hord, hmem⟩ := exists_results sheet a hmin
  obtain ⟨o', ho', htable', hord', hmem'⟩ := exists_results sheet' a hmin
  refine ⟨o, o', ho, ho', htable, htable', hord.kept_renamed hord' fun t => ?_⟩
  rw [hmem', h.found_iff]
  simp only [hmem]

/-- the three rules backwards, in other words and under a condition, one declaration written twice -/
def threeRulesBackwards : Stylesheet where
  selectors :=
    let declare (property : Char) (raw : Text) (selector : SelectorId) : Declaration :=
      ⟨[property], [⟨raw, .number, ⟨.number, ['0']⟩⟩], false, selector, .start⟩
    [⟨0, ['a'], none, .start, [declare 'x' ['+', '0'] 0, declare 'x' ['0'] 0]⟩,
      ⟨1, ['a'], some ['@', 'm'], .start, [declare 'x' ['0'] 1, declare 'y' ['-', '0'] 1]⟩,
      ⟨2, ['b'], none, .start, [declare 'y' ['0'] 2, declare 'x' ['0'] 2]⟩]
  numbered := rfl

theorem renamed_threeRules : threeRules.Renamed (2 - ·) threeRulesBackwards := by
  have hbij : Set.BijOn (fun s : Nat => 2 - s) (Set.Iio 3) (Set.Iio 3) := by
    refine ⟨fun s hs => ?_, fun s hs t ht heq => ?_, fun t ht => ⟨2 - t, ?_, ?_⟩⟩ <;>
      simp only [Set.mem_Iio] at * <;> omega
  refine ⟨hbij, fun x hx y hy hid shape => ?_⟩
  have hlists : ∀ x ∈ threeRules.selectors, ∀ y ∈ threeRulesBackwards.selectors, y.id = 2 - x.id →
      y.declarations.map (·.shape) ⊆ x.declarations.map (·.shape) ∧
        x.declarations.map (·.shape) ⊆ y.declarations.map (·.shape) := by decide
  obtain ⟨hsub, hsup⟩ := hlists x hx y hy hid
  exact ⟨fun h => hsub h, fun h => hsup h⟩

theorem mining_renamed_threeRules : threeRules.Renamed (2 - ·) threeRulesBackwards ∧
    2 ≤ Config.default.minSupport ∧
    ∃ o o', findDuplicates threeRules .default .apriori = .ok o ∧
      findDuplicates threeRulesBackwards .default .apriori = .ok o' ∧
      o'.results.kept = o.results.kept.map (·.renamed (2 - ·)) := by
  have hmin : 2 ≤ Config.default.minSupport := by decide
  obtain ⟨o, o', ho, ho', -, -, hkept⟩ :=
    (mining_renamed _ _ _ renamed_threeRules).2 .default .apriori hmin
  exact ⟨renamed_threeRules, hmin, o, o', ho, ho', hkept⟩

end StyleMiner
