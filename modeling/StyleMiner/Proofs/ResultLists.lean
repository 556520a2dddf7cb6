import StyleMiner.Mining.Results
import StyleMiner.Proofs.Inclusion

/-! How results are laid out. Lists stand by ascending cardinality, and a list holds sets of its
cardinality in strict order. What a set's offer does to one list, and what it does to the index by
support, is said here by what the lists and the index hold afterwards. Laid out so, the kept sets
alone decide every list. -/

namespace StyleMiner

namespace ItemSet

/-- the order in which a list holds its sets -/
def Precedes (s t : ItemSet) : Prop := compare s t = .lt

variable {s t u : ItemSet}

theorem precedes_def : s.Precedes t ↔ compare s.items t.items = .lt := Iff.rfl

instance : Std.Irrefl Precedes where
  irrefl s h := by
    rw [precedes_def, Std.ReflOrd.compare_self] at h
    cases h

theorem Precedes.trans (h : s.Precedes t) (h' : t.Precedes u) : s.Precedes u := by
  rw [precedes_def] at *
  exact Std.TransCmp.lt_trans h h'

instance : Std.Antisymm Precedes where
  antisymm s _ h h' := absurd (h.trans h') (Std.Irrefl.irrefl s)

theorem compare_def : compare s t = compare s.items t.items := rfl

theorem precedes_of_gt (h : compare s t = .gt) : t.Precedes s := by
  rw [compare_def] at h
  rw [precedes_def]
  exact Std.OrientedCmp.lt_of_gt h

theorem items_eq_of_compare (h : compare s t = .eq) : s.items = t.items := by
  rw [compare_def] at h
  exact Std.LawfulEqOrd.eq_of_compare h

theorem Precedes.items_ne (h : s.Precedes t) : s.items ≠ t.items := by
  intro he
  rw [precedes_def, he, Std.ReflOrd.compare_self] at h
  cases h

theorem sameMembers_iff : s.sameMembers t = true ↔ s.items = t.items := beq_iff_eq

theorem isEmpty_eq_false : s.isEmpty = false ↔ ∃ id, id ∈ s.items := IdSet.isEmpty_eq_false

theorem subsumedBy_iff : s.subsumedBy t = true ↔ s.items ⊂ t.items ∧ s.support = t.support := by
  rw [IdSet.ssubset_iff_size]
  simp only [subsumedBy, Bool.and_eq_true, decide_eq_true_eq, beq_iff_eq, subset,
    IdSet.subset_eq_true]
  exact and_right_comm

theorem subsumedBy_trans (h : s.subsumedBy t = true) (h' : t.subsumedBy u = true) :
    s.subsumedBy u = true := by
  rw [subsumedBy_iff] at *
  exact ⟨IdSet.ssubset_trans h.1 h'.1, h.2.trans h'.2⟩

theorem not_subsumedBy_self : s.subsumedBy s = false := by
  simp [subsumedBy]

end ItemSet

namespace ItemSetList

/-- a list in strict order whose sets have its cardinality -/
structure WellFormed (l : ItemSetList) : Prop where
  sorted : l.sets.Pairwise ItemSet.Precedes
  sized : ∀ s ∈ l.sets, s.size = l.cardinality

variable {l : ItemSetList} {s t : ItemSet}

theorem contains_iff : l.contains s = true ↔ ∃ t ∈ l.sets, t.items = s.items := by
  simp only [contains, List.any_eq_true, ItemSet.sameMembers_iff]

theorem mem_place {ts : List ItemSet} (h : ∀ u ∈ ts, u.items ≠ s.items) :
    t ∈ place s ts ↔ t = s ∨ t ∈ ts := by
  induction ts with
  | nil => simp [place]
  | cons u us ih =>
    unfold place
    split
    · simp
    · next heq => exact absurd (ItemSet.items_eq_of_compare heq).symm (h u List.mem_cons_self)
    · rw [List.mem_cons, ih fun v hv => h v (List.mem_cons_of_mem _ hv), List.mem_cons]
      tauto

theorem place_sorted {ts : List ItemSet} (hs : ts.Pairwise ItemSet.Precedes)
    (h : ∀ u ∈ ts, u.items ≠ s.items) : (place s ts).Pairwise ItemSet.Precedes := by
  induction ts with
  | nil => simp [place]
  | cons u us ih =>
    have hus : ∀ v ∈ us, v.items ≠ s.items := fun v hv => h v (List.mem_cons_of_mem _ hv)
    have hu := List.pairwise_cons.1 hs
    unfold place
    split
    · next hlt =>
      refine List.pairwise_cons.2 ⟨fun v hv => ?_, hs⟩
      rcases List.mem_cons.1 hv with rfl | hv
      · exact hlt
      · exact ItemSet.Precedes.trans hlt (hu.1 v hv)
    · exact hs
    · next hgt =>
      refine List.pairwise_cons.2 ⟨fun v hv => ?_, ih hu.2 hus⟩
      rcases (mem_place hus).1 hv with rfl | hv
      · exact ItemSet.precedes_of_gt hgt
      · exact hu.1 v hv

theorem wellFormed_empty (k : Nat) : (empty k).WellFormed := ⟨.nil, fun _ h => nomatch h⟩

/-- A set whose members the list lacks comes in, and nothing leaves. -/
theorem insert?_eq_some (hl : l.WellFormed) (hne : s.isEmpty = false) (hs : s.size = l.cardinality)
    (hc : l.contains s = false) :
    ∃ l', l.insert? s = .ok (some l') ∧ l'.WellFormed ∧ l'.cardinality = l.cardinality ∧
      ∀ t, t ∈ l'.sets ↔ t = s ∨ t ∈ l.sets := by
  have hnew : ∀ u ∈ l.sets, u.items ≠ s.items := fun u hu he => by
    rw [contains_iff.2 ⟨u, hu, he⟩] at hc
    cases hc
  refine ⟨{ l with sets := place s l.sets }, ?_, ⟨place_sorted hl.sorted hnew, fun t ht => ?_⟩, rfl,
    fun t => mem_place hnew⟩
  · simp only [insert?, hne, hs, hc, ne_eq, not_true_eq_false, ↓reduceIte, Bool.false_eq_true]
    rfl
  · rcases (mem_place hnew).1 ht with rfl | ht
    · exact hs
    · exact hl.sized t ht

theorem mem_erase : t ∈ (l.erase s).sets ↔ t ∈ l.sets ∧ t.items ≠ s.items := by
  unfold erase erase?
  split
  · simp [ItemSet.sameMembers]
  · next h =>
    refine (and_iff_left_of_imp fun ht he => ?_).symm
    exact h (contains_iff.2 ⟨t, ht, he⟩)

theorem cardinality_erase : (l.erase s).cardinality = l.cardinality := by
  unfold erase erase?
  split <;> rfl

theorem wellFormed_erase (hl : l.WellFormed) : (l.erase s).WellFormed := by
  refine ⟨?_, fun t ht => (hl.sized t (mem_erase.1 ht).1).trans cardinality_erase.symm⟩
  unfold erase erase?
  split
  · exact hl.sorted.filter _
  · exact hl.sorted

/-- What a list holds decides the list. -/
theorem WellFormed.eq_of_mem_iff {k l : ItemSetList} (hk : k.WellFormed) (hl : l.WellFormed)
    (hc : k.cardinality = l.cardinality) (h : ∀ s, s ∈ k.sets ↔ s ∈ l.sets) : k = l := by
  obtain ⟨c, ks⟩ := k
  obtain ⟨d, ls⟩ := l
  obtain rfl : c = d := hc
  rw [show ks = ls from hk.sorted.eq_of_mem_iff hl.sorted h]

end ItemSetList

namespace Results

/-- lists by ascending cardinality, each well formed -/
structure Ordered (r : Results) : Prop where
  ascending : r.lists.Pairwise fun k l => k.cardinality < l.cardinality
  wellFormed : ∀ l ∈ r.lists, l.WellFormed

variable {r : Results} {l : ItemSetList} {s t : ItemSet} {k : Nat}

theorem mem_sets : s ∈ r.sets ↔ ∃ l ∈ r.lists, s ∈ l.sets := List.mem_flatMap

theorem ordered_empty (minimum : Nat) (removal : Bool) : (empty minimum removal).Ordered :=
  ⟨.nil, fun _ h => nomatch h⟩

namespace Ordered

variable (hr : r.Ordered)
include hr

theorem eq_of_cardinality_eq {k l : ItemSetList} (hk : k ∈ r.lists) (hl : l ∈ r.lists)
    (h : k.cardinality = l.cardinality) : k = l := by
  have hnodup : (r.lists.map (·.cardinality)).Nodup :=
    List.pairwise_map.2 (hr.ascending.imp Nat.ne_of_lt)
  exact List.inj_on_of_nodup_map hnodup hk hl h

theorem listOf_eq (hl : l ∈ r.lists) : r.listOf l.cardinality = l := by
  unfold listOf
  cases hf : r.lists.find? (·.cardinality == l.cardinality) with
  | none => simpa using List.find?_eq_none.1 hf l hl
  | some k =>
    have hk : k.cardinality = l.cardinality := by simpa using List.find?_some hf
    exact hr.eq_of_cardinality_eq (List.mem_of_find?_eq_some hf) hl hk

theorem wellFormed_listOf (k : Nat) : (r.listOf k).WellFormed := by
  unfold listOf
  cases hf : r.lists.find? (·.cardinality == k) with
  | none => exact ItemSetList.wellFormed_empty k
  | some l => exact hr.wellFormed l (List.mem_of_find?_eq_some hf)

/-- A kept set is in the list of its cardinality. -/
theorem mem_sets_iff : s ∈ r.sets ↔ s ∈ (r.listOf s.size).sets := by
  rw [mem_sets]
  constructor
  · rintro ⟨l, hl, hs⟩
    rw [(hr.wellFormed l hl).sized s hs, hr.listOf_eq hl]
    exact hs
  · unfold listOf
    cases hf : r.lists.find? (·.cardinality == s.size) with
    | none => exact fun h => nomatch h
    | some l => exact fun h => ⟨l, List.mem_of_find?_eq_some hf, h⟩

theorem eq_of_items_eq (hs : s ∈ r.sets) (ht : t ∈ r.sets) (h : s.items = t.items) : s = t := by
  have hsize : s.size = t.size := congrArg IdSet.size h
  rw [hr.mem_sets_iff] at hs ht
  rw [hsize] at hs
  have hne := (hr.wellFormed_listOf t.size).sorted.imp ItemSet.Precedes.items_ne
  exact List.inj_on_of_nodup_map (List.pairwise_map.2 hne) hs ht h

/-- No members are kept twice. -/
theorem nodup_items : (r.sets.map (·.items)).Nodup := by
  refine List.pairwise_map.2 (List.pairwise_flatMap.2 ⟨fun l hl => ?_, ?_⟩)
  · exact (hr.wellFormed l hl).sorted.imp ItemSet.Precedes.items_ne
  · refine hr.ascending.imp_of_mem fun {k l} hk hl hlt s hs t ht heq => ?_
    have hsize : s.size = t.size := congrArg IdSet.size heq
    rw [(hr.wellFormed k hk).sized s hs, (hr.wellFormed l hl).sized t ht] at hsize
    omega

theorem contains_listOf : (r.listOf s.size).contains s = true ↔ ∃ t ∈ r.sets, t.items = s.items := by
  rw [ItemSetList.contains_iff]
  refine exists_congr fun t => and_congr_left fun h => ?_
  have hsize : t.size = s.size := congrArg IdSet.size h
  rw [hr.mem_sets_iff, hsize]

end Ordered

theorem cardinality_listOf (r : Results) (k : Nat) : (r.listOf k).cardinality = k := by
  unfold listOf
  cases hf : r.lists.find? (·.cardinality == k) with
  | none => rfl
  | some l => simpa using List.find?_some hf

theorem mem_putList {ls : List ItemSetList} {k : ItemSetList}
    (h : ls.Pairwise fun k l => k.cardinality < l.cardinality) :
    k ∈ putList l ls ↔ k = l ∨ k ∈ ls ∧ k.cardinality ≠ l.cardinality := by
  induction ls with
  | nil => simp [putList]
  | cons m ms ih =>
    have hm := List.pairwise_cons.1 h
    unfold putList
    split
    · next hlt =>
      have hne : ∀ k ∈ m :: ms, k.cardinality ≠ l.cardinality := by
        intro k hk
        rcases List.mem_cons.1 hk with rfl | hk
        · omega
        · have := hm.1 k hk
          omega
      rw [List.mem_cons]
      exact or_congr_right (and_iff_left_of_imp (hne k)).symm
    split
    · next heq =>
      have hne : ∀ k ∈ ms, k.cardinality ≠ l.cardinality := fun k hk => by
        have := hm.1 k hk
        omega
      rw [List.mem_cons, List.mem_cons]
      refine or_congr_right ⟨fun hk => ⟨.inr hk, hne k hk⟩, ?_⟩
      rintro ⟨rfl | hk, hk'⟩
      · exact absurd heq.symm hk'
      · exact hk
    · next hne =>
      rw [List.mem_cons, ih hm.2, List.mem_cons]
      constructor
      · rintro (rfl | rfl | ⟨hk, hk'⟩)
        · exact .inr ⟨.inl rfl, fun h => hne h.symm⟩
        · exact .inl rfl
        · exact .inr ⟨.inr hk, hk'⟩
      · rintro (rfl | ⟨rfl | hk, hk'⟩)
        · exact .inr (.inl rfl)
        · exact .inl rfl
        · exact .inr (.inr ⟨hk, hk'⟩)

theorem putList_ascending {ls : List ItemSetList}
    (h : ls.Pairwise fun k l => k.cardinality < l.cardinality) :
    (putList l ls).Pairwise fun k l => k.cardinality < l.cardinality := by
  induction ls with
  | nil => simp [putList]
  | cons m ms ih =>
    have hm := List.pairwise_cons.1 h
    unfold putList
    split
    · next hlt =>
      refine List.pairwise_cons.2 ⟨fun k hk => ?_, h⟩
      rcases List.mem_cons.1 hk with rfl | hk
      · exact hlt
      · exact Nat.lt_trans hlt (hm.1 k hk)
    split
    · next heq => exact List.pairwise_cons.2 ⟨fun k hk => heq ▸ hm.1 k hk, hm.2⟩
    · next hlt hne =>
      refine List.pairwise_cons.2 ⟨fun k hk => ?_, ih hm.2⟩
      rcases (mem_putList hm.2).1 hk with rfl | ⟨hk, -⟩
      · omega
      · exact hm.1 k hk

theorem Ordered.setList (hr : r.Ordered) (hl : l.WellFormed) : (r.setList l).Ordered := by
  refine ⟨putList_ascending hr.ascending, fun k hk => ?_⟩
  rcases (mem_putList hr.ascending).1 hk with rfl | ⟨hk, -⟩
  · exact hl
  · exact hr.wellFormed k hk

/-- A list that takes its place decides about its own cardinality and no other. -/
theorem Ordered.mem_setList (hr : r.Ordered) (hl : l.WellFormed) :
    s ∈ (r.setList l).sets ↔ s ∈ l.sets ∨ s ∈ r.sets ∧ s.size ≠ l.cardinality := by
  simp only [mem_sets, Results.setList, mem_putList hr.ascending]
  constructor
  · rintro ⟨k, rfl | ⟨hk, hne⟩, hs⟩
    · exact .inl hs
    · exact .inr ⟨⟨k, hk, hs⟩, (hr.wellFormed k hk).sized s hs ▸ hne⟩
  · rintro (hs | ⟨⟨k, hk, hs⟩, hne⟩)
    · exact ⟨l, .inl rfl, hs⟩
    · exact ⟨k, .inr ⟨hk, (hr.wellFormed k hk).sized s hs ▸ hne⟩, hs⟩

theorem Ordered.evict (hr : r.Ordered) (s : ItemSet) : (r.evict s).Ordered :=
  hr.setList (ItemSetList.wellFormed_erase (hr.wellFormed_listOf _))

theorem Ordered.mem_evict (hr : r.Ordered) : t ∈ (r.evict s).sets ↔ t ∈ r.sets ∧ t.items ≠ s.items := by
  unfold Results.evict
  rw [hr.mem_setList (ItemSetList.wellFormed_erase (hr.wellFormed_listOf _)), ItemSetList.mem_erase,
    ItemSetList.cardinality_erase, cardinality_listOf]
  by_cases hsize : t.size = s.size
  · rw [hr.mem_sets_iff, hsize]
    tauto
  · have hne : t.items ≠ s.items := fun h => hsize (congrArg IdSet.size h)
    have hout : t ∉ (r.listOf s.size).sets := fun h =>
      hsize (((hr.wellFormed_listOf _).sized t h).trans (cardinality_listOf r _))
    tauto

theorem Ordered.foldl_evict (hr : r.Ordered) (ss : List ItemSet) : (ss.foldl .evict r).Ordered := by
  induction ss generalizing r with
  | nil => exact hr
  | cons s ss ih => exact ih (hr.evict s)

theorem Ordered.mem_foldl_evict (hr : r.Ordered) {ss : List ItemSet} :
    t ∈ (ss.foldl .evict r).sets ↔ t ∈ r.sets ∧ ∀ s ∈ ss, t.items ≠ s.items := by
  induction ss generalizing r with
  | nil => simp
  | cons s ss ih =>
    rw [List.foldl_cons, ih (hr.evict s), hr.mem_evict, List.forall_mem_cons, and_assoc]

theorem foldl_evict_bySupport (r : Results) (ss : List ItemSet) :
    (ss.foldl .evict r).bySupport = r.bySupport := by
  induction ss generalizing r with
  | nil => rfl
  | cons s ss ih => exact ih _

theorem lookup_cons (p : Support × List ItemSet) (ps : List (Support × List ItemSet)) (k : Support) :
    (p :: ps).lookup k = if k = p.1 then some p.2 else ps.lookup k := by
  rw [List.lookup_cons]
  by_cases h : k = p.1
  · simp [h]
  · simp [h, beq_false_of_ne h]

theorem lookup_putPeers (ps : List (Support × List ItemSet)) (k k' : Support) (ss : List ItemSet) :
    (putPeers k ss ps).lookup k' = if k' = k then some ss else ps.lookup k' := by
  induction ps with
  | nil => simp only [putPeers, lookup_cons, List.lookup_nil]
  | cons p ps ih =>
    unfold putPeers
    split
    · next hp =>
      subst hp
      simp only [lookup_cons]
      split <;> rfl
    · next hp =>
      rw [lookup_cons, lookup_cons, ih]
      by_cases h : k' = p.1
      · subst h
        simp only [↓reduceIte, hp]
      · simp only [h, ↓reduceIte]

/-- The kept sets decide the lists that hold any. -/
theorem Ordered.kept_eq {r r' : Results} (hr : r.Ordered) (hr' : r'.Ordered)
    (h : ∀ s, s ∈ r.sets ↔ s ∈ r'.sets) : r.kept = r'.kept := by
  have hsub {r r' : Results} (hr : r.Ordered) (hr' : r'.Ordered) (h : ∀ s, s ∈ r.sets ↔ s ∈ r'.sets)
      {l : ItemSetList} (hl : l ∈ r.kept) : l ∈ r'.kept := by
    obtain ⟨hl, hne⟩ := List.mem_filter.1 hl
    obtain ⟨s, hs⟩ := List.exists_mem_of_ne_nil l.sets (by simpa [ItemSetList.isEmpty] using hne)
    obtain ⟨k, hk, hsk⟩ := mem_sets.1 ((h s).1 (mem_sets.2 ⟨l, hl, hs⟩))
    have hcard : k.cardinality = l.cardinality :=
      ((hr'.wellFormed k hk).sized s hsk).symm.trans ((hr.wellFormed l hl).sized s hs)
    have hmem (t : ItemSet) : t ∈ k.sets ↔ t ∈ l.sets := by
      by_cases hsize : t.size = l.cardinality
      · rw [← hr.listOf_eq hl, ← hsize, ← hr.mem_sets_iff, h, hr'.mem_sets_iff, hsize, ← hcard,
          hr'.listOf_eq hk]
      · constructor
        · intro ht
          exact absurd (((hr'.wellFormed k hk).sized t ht).trans hcard) hsize
        · intro ht
          exact absurd ((hr.wellFormed l hl).sized t ht) hsize
    obtain rfl := (hr'.wellFormed k hk).eq_of_mem_iff (hr.wellFormed l hl) hcard hmem
    exact List.mem_filter.2 ⟨hk, hne⟩
  have hirrefl : Std.Irrefl fun k l : ItemSetList => k.cardinality < l.cardinality :=
    ⟨fun _ => Nat.lt_irrefl _⟩
  have hantisymm : Std.Antisymm fun k l : ItemSetList => k.cardinality < l.cardinality :=
    ⟨fun _ _ h h' => absurd h (Nat.lt_asymm h')⟩
  exact (hr.ascending.filter _).eq_of_mem_iff (hr'.ascending.filter _) fun l =>
    ⟨hsub hr hr' h, hsub hr' hr fun s => (h s).symm⟩

end Results
end StyleMiner
