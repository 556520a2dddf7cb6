import StyleMiner.Proofs.Exactness

/-! What removal leaves are the closed sets. The items that all selectors declare which declare all of
some items are the closure of these; a set has the support of its closure, and no other set of that
support is larger. So with removal there is one kept set for each support, the closure of every set
that has the support, and the kept sets tell all that was removed: what lies in them, and with which
selectors. -/

namespace StyleMiner

namespace ItemTable

variable {t : ItemTable} {x y : IdSet} {i : ItemId} {m : Nat}

/-- whether a set has items, all of the table, that enough selectors declare together -/
def Shares (t : ItemTable) (m : Nat) (x : IdSet) : Prop :=
  (∃ i, i ∈ x) ∧ t.Has x ∧ m ≤ (t.common x).size

/-- the items that all selectors declare which declare all of some items -/
def closure (t : ItemTable) (x : IdSet) : IdSet :=
  .ofList ((t.items.filter fun item => t.common x ⊆ item.support).map (·.id))

theorem mem_closure :
    i ∈ t.closure x ↔ ∃ item ∈ t.items, item.id = i ∧ t.common x ⊆ item.support := by
  simp only [closure, IdSet.mem_ofList, List.mem_map, List.mem_filter, decide_eq_true_eq]
  exact exists_congr fun item => by tauto

theorem has_closure (t : ItemTable) (x : IdSet) : t.Has (t.closure x) := by
  intro i hi
  obtain ⟨item, hitem, rfl, -⟩ := mem_closure.1 hi
  exact id_lt_size hitem

/-- Whatever all selectors of a support declare lies in the closures of the sets that have it. -/
theorem subset_closure_of_common (hy : t.Has y) (h : t.common x ⊆ t.common y) : y ⊆ t.closure x := by
  intro i hi
  obtain ⟨item, hitem, rfl, -⟩ := get_ok (hy i hi)
  exact mem_closure.2 ⟨item, hitem, rfl, fun s hs => (mem_common.1 (h s hs)).2 item hitem hi⟩

theorem subset_closure (h : t.Has x) : x ⊆ t.closure x := subset_closure_of_common h (IdSet.subset_refl _)

theorem common_closure (h : t.Has x) : t.common (t.closure x) = t.common x := by
  apply IdSet.subset_antisymm
  · exact common_anti (subset_closure h)
  · intro s hs
    refine mem_common.2 ⟨(mem_common.1 hs).1, fun item hitem hi => ?_⟩
    obtain ⟨j, hj, hid, hsub⟩ := mem_closure.1 hi
    exact eq_of_id_eq hj hitem hid ▸ hsub s hs

theorem closure_congr (h : t.common x = t.common y) : t.closure x = t.closure y := by
  rw [closure, closure, h]

theorem Shares.closure (h : t.Shares m x) : t.Shares m (t.closure x) := by
  obtain ⟨⟨i, hi⟩, hhas, hmin⟩ := h
  refine ⟨⟨i, subset_closure hhas i hi⟩, has_closure t x, ?_⟩
  rwa [common_closure hhas]

theorem Shares.subset (hx : t.Shares m x) (hy : ∃ i, i ∈ y) (h : y ⊆ x) : t.Shares m y := by
  obtain ⟨-, hhas, hmin⟩ := hx
  exact ⟨hy, has_subset h hhas, Nat.le_trans hmin (IdSet.size_le_of_subset (common_anti h))⟩

/-- A set that no larger one has the support of is its own closure. -/
theorem eq_closure_iff (h : t.Has x) :
    x = t.closure x ↔ ∀ y, t.Has y → x ⊂ y → t.common y ≠ t.common x := by
  constructor
  · intro heq y hy hsub hcommon
    refine hsub.2 (heq ▸ subset_closure_of_common hy ?_)
    exact hcommon ▸ IdSet.subset_refl _
  · intro hmax
    by_contra hne
    have hsub := IdSet.ssubset_of_subset_of_ne (subset_closure h) hne
    exact hmax _ (has_closure t x) hsub (common_closure h)

end ItemTable

/-- what a run finds: sets that carry their support and that enough selectors share, and with removal
the closed ones of these -/
structure Found (table : ItemTable) (c : Config) (s : ItemSet) : Prop where
  faithful : s.Faithful table
  shares : table.Shares c.minSupport s.items
  closed : c.removeSubsumed = true → s.items = table.closure s.items

theorem mined_iff_found {sheet : Stylesheet} {c : Config} {s : ItemSet} (hpos : 0 < c.minSupport) :
    Mined (.ofSheet sheet (.ofSheet sheet) c.minSupport) (.ofSheet sheet) c.minSupport c.removeSubsumed s ↔
      Found (.ofSheet sheet) c s := by
  rw [mined_ofSheet (Nat.le_refl _) hpos]
  constructor
  · intro h
    obtain ⟨hne, hhas, hsup, hmin, hmax⟩ := h
    refine ⟨⟨hhas, hsup⟩, ⟨hne, hhas, hsup ▸ hmin⟩, fun hrem => (ItemTable.eq_closure_iff hhas).2 ?_⟩
    exact hsup ▸ hmax hrem
  · intro h
    obtain ⟨⟨hhas, hsup⟩, ⟨hne, -, hmin⟩, hclosed⟩ := h
    refine ⟨hne, hhas, hsup, hsup ▸ hmin, fun hrem => ?_⟩
    exact hsup ▸ (ItemTable.eq_closure_iff hhas).1 (hclosed hrem)

/-- A run over a sheet goes through and finds what its table says, whatever the miner. -/
theorem exists_results (sheet : Stylesheet) (a : Algorithm) {c : Config} (hmin : 2 ≤ c.minSupport) :
    ∃ o, findDuplicates sheet c a = .ok o ∧ o.table = .ofSheet sheet ∧ o.results.Ordered ∧
      ∀ s, s ∈ o.results.sets ↔ Found (.ofSheet sheet) c s := by
  obtain ⟨r, hr, hcoh, hmem⟩ := exists_findDuplicates sheet a hmin
  refine ⟨_, hr, rfl, hcoh.ordered, fun s => (hmem s).trans ?_⟩
  exact mined_iff_found (Nat.lt_of_lt_of_le Nat.two_pos hmin)

/-- Removal loses nothing. No two kept sets have one support; each set that enough selectors share is
explained by the one kept set of its support, which holds all items that these selectors share. So the
sets that are found without removal are the nonempty parts of kept sets, and the support of each is
the widest among the kept sets that contain it. -/
theorem kept_sets_explain (sheet : Stylesheet) (m : Nat) (path path' : Bool) (a a' : Algorithm)
    (hm : 2 ≤ m) :
    ∃ o full, findDuplicates sheet ⟨m, true, path⟩ a = .ok o ∧
      findDuplicates sheet ⟨m, false, path'⟩ a' = .ok full ∧
      o.table = .ofSheet sheet ∧ full.table = .ofSheet sheet ∧
      (o.results.sets.map (·.support)).Nodup ∧
      (∀ x, (∃ i, i ∈ x) → o.table.Has x → m ≤ (o.table.common x).size →
        ∃ s ∈ o.results.sets, s.support = o.table.common x ∧
          (∀ t ∈ o.results.sets, t.support = o.table.common x → t = s) ∧ x ⊆ s.items ∧
          ∀ i, i ∈ s.items ↔ ∃ item ∈ o.table.items, item.id = i ∧ o.table.common x ⊆ item.support) ∧
      (∀ x, (∃ s ∈ full.results.sets, s.items = x) ↔
        (∃ i, i ∈ x) ∧ ∃ t ∈ o.results.sets, x ⊆ t.items) ∧
      ∀ s ∈ full.results.sets, ∃ t ∈ o.results.sets, s.items ⊆ t.items ∧ t.support = s.support ∧
        ∀ u ∈ o.results.sets, s.items ⊆ u.items → u.support ⊆ s.support := by
  obtain ⟨o, ho, htable, hord, hmem⟩ := exists_results (c := ⟨m, true, path⟩) sheet a hm
  obtain ⟨full, hfull, htable', -, hmem'⟩ := exists_results (c := ⟨m, false, path'⟩) sheet a' hm
  rw [← htable] at hmem hmem'
  have hone : ∀ s ∈ o.results.sets, ∀ t ∈ o.results.sets, s.support = t.support → s = t := by
    intro s hs t ht heq
    obtain ⟨hfs, -, hcs⟩ := (hmem s).1 hs
    obtain ⟨hft, -, hct⟩ := (hmem t).1 ht
    have hcommon : o.table.common s.items = o.table.common t.items := by
      rw [← hfs.support_eq, heq, hft.support_eq]
    apply hfs.eq_of_items_eq hft
    rw [hcs rfl, ItemTable.closure_congr hcommon, ← hct rfl]
  have hkept {x : IdSet} (hx : o.table.Shares m x) :
      ⟨o.table.closure x, o.table.common x⟩ ∈ o.results.sets := by
    have hcommon := ItemTable.common_closure hx.2.1
    refine (hmem _).2 ⟨⟨ItemTable.has_closure _ _, hcommon.symm⟩, hx.closure, fun _ => ?_⟩
    exact ItemTable.closure_congr hcommon.symm
  refine ⟨o, full, ho, hfull, htable, htable', ?_, fun x hne hhas hmin => ?_, fun x => ?_, fun s hs => ?_⟩
  · exact (List.Nodup.of_map _ hord.nodup_items).map_on hone
  · have hs := hkept ⟨hne, hhas, hmin⟩
    refine ⟨_, hs, rfl, fun t ht heq => hone t ht _ hs heq, ItemTable.subset_closure hhas, fun i => ?_⟩
    exact ItemTable.mem_closure
  · constructor
    · intro h
      obtain ⟨s, hs, rfl⟩ := h
      obtain ⟨-, hshares, -⟩ := (hmem' s).1 hs
      exact ⟨hshares.1, _, hkept hshares, ItemTable.subset_closure hshares.2.1⟩
    · intro h
      obtain ⟨hne, t, ht, hsub⟩ := h
      have hshares := ((hmem t).1 ht).shares.subset hne hsub
      exact ⟨_, (hmem' _).2 ⟨ItemSet.faithful_mk hshares.2.1, hshares, fun hrem => nomatch hrem⟩, rfl⟩
  · obtain ⟨hfaithful, hshares, -⟩ := (hmem' s).1 hs
    refine ⟨_, hkept hshares, ItemTable.subset_closure hshares.2.1, hfaithful.support_eq.symm, ?_⟩
    intro u hu hsub
    rw [((hmem u).1 hu).faithful.support_eq, hfaithful.support_eq]
    exact ItemTable.common_anti hsub

theorem kept_sets_explain_threeRules : 2 ≤ 2 ∧
    ∃ o full, findDuplicates threeRules ⟨2, true, true⟩ .fpGrowth = .ok o ∧
      findDuplicates threeRules ⟨2, false, false⟩ .apriori = .ok full ∧
      (∃ s ∈ o.results.sets, s.support = .ofList [0, 1] ∧ .ofList [0, 1] ⊆ s.items) ∧
      ∃ s ∈ full.results.sets, s.items = .ofList [1] := by
  obtain ⟨o, full, ho, hfull, htable, -, -, hexplain, hparts, -⟩ :=
    kept_sets_explain threeRules 2 true false .fpGrowth .apriori (Nat.le_refl 2)
  obtain ⟨hsize, hcommon⟩ := common_threeRules
  rw [← htable] at hsize hcommon
  have hhas : o.table.Has (.ofList [0, 1]) := by
    unfold ItemTable.Has
    rw [hsize]
    decide
  have henough : 2 ≤ (o.table.common (.ofList [0, 1])).size := by
    rw [hcommon]
    decide
  obtain ⟨s, hs, hsup, -, hsub, -⟩ := hexplain (.ofList [0, 1]) ⟨0, by decide⟩ hhas henough
  have hsub' : .ofList [1] ⊆ s.items := IdSet.subset_trans (by decide) hsub
  refine ⟨Nat.le_refl 2, o, full, ho, hfull, ⟨s, hs, hsup.trans hcommon, hsub⟩, ?_⟩
  exact (hparts _).2 ⟨⟨1, by decide⟩, s, hs, hsub'⟩

end StyleMiner
