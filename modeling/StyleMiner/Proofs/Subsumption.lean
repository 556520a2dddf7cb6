import Mathlib.Algebra.Order.BigOperators.Group.List
import Mathlib.Algebra.Order.Ring.Nat
import StyleMiner.Proofs.CommonSupport
import StyleMiner.Proofs.ResultLists

/-! What becomes of the sets that are offered. An offered set is turned away if its members are kept or
if, with removal, a kept set subsumes it; else it is kept, and with removal the sets that it subsumes
leave. Over sets of one table this has one outcome for all orders of offers: what is kept are the
offered sets that no offered set subsumes. A set that was driven out is no exception, for the set that
drove it out subsumes all that it subsumed. -/

namespace StyleMiner

namespace Results

/-- Lists are in order, each set in the index stands under its own support, and with removal the
index holds what the lists hold. -/
structure Coherent (r : Results) : Prop where
  ordered : r.Ordered
  own : ∀ k, ∀ s ∈ r.peers k, s.support = k
  indexed : r.removeSubsumed = true → ∀ s, s ∈ r.sets ↔ s ∈ r.peers s.support

/-- whether the kept sets turn a set away -/
def Covers (r : Results) (s : ItemSet) : Prop :=
  ∃ t ∈ r.sets, t.items = s.items ∨ r.removeSubsumed = true ∧ s.subsumedBy t = true

variable {r : Results} {s t : ItemSet}

theorem coherent_empty (minimum : Nat) (removal : Bool) : (empty minimum removal).Coherent :=
  ⟨ordered_empty minimum removal, fun _ _ h => (nomatch h), fun _ _ => Iff.rfl⟩

theorem peers_file (r : Results) (s : ItemSet) (k : Support) :
    (r.file s).peers k =
      if k = s.support then (r.peers s.support).filter (!·.subsumedBy s) ++ [s] else r.peers k := by
  simp only [file, peers, foldl_evict_bySupport, lookup_putPeers]
  split <;> rfl

theorem foldl_evict_settings (r : Results) (ss : List ItemSet) :
    (ss.foldl .evict r).minSupport = r.minSupport ∧
      (ss.foldl .evict r).removeSubsumed = r.removeSubsumed := by
  induction ss generalizing r with
  | nil => exact ⟨rfl, rfl⟩
  | cons s ss ih => exact ih _

theorem Ordered.reindex (hr : r.Ordered) (ps : List (Support × List ItemSet)) :
    Ordered { r with bySupport := ps } := ⟨hr.ascending, hr.wellFormed⟩

theorem Ordered.file (hr : r.Ordered) (s : ItemSet) : (r.file s).Ordered := by
  unfold Results.file
  exact (hr.reindex _).foldl_evict _

theorem Coherent.mem_file (hr : r.Coherent) (hrem : r.removeSubsumed = true) :
    t ∈ (r.file s).sets ↔ t ∈ r.sets ∧ ¬ t.subsumedBy s = true := by
  unfold file
  refine (hr.ordered.reindex _).mem_foldl_evict.trans (and_congr_right fun (ht : t ∈ r.sets) => ?_)
  constructor
  · intro h hsub
    have hsup := (ItemSet.subsumedBy_iff.1 hsub).2
    refine h t (List.mem_filter.2 ⟨?_, hsub⟩) rfl
    exact hsup ▸ (hr.indexed hrem t).1 ht
  · intro h u hu heq
    obtain ⟨hu, hsub⟩ := List.mem_filter.1 hu
    have hkept : u ∈ r.sets := (hr.indexed hrem u).2 ((hr.own _ u hu).symm ▸ hu)
    exact h (hr.ordered.eq_of_items_eq ht hkept heq ▸ hsub)

theorem Ordered.insert_listOf (hr : r.Ordered) (hne : s.isEmpty = false)
    (hnew : ∀ t ∈ r.sets, t.items ≠ s.items) :
    ∃ l, (r.listOf s.size).insert? s = .ok (some l) ∧ (r.setList l).Ordered ∧
      ∀ t, t ∈ (r.setList l).sets ↔ t = s ∨ t ∈ r.sets := by
  have hc : (r.listOf s.size).contains s = false := by
    rw [Bool.eq_false_iff, ne_eq, hr.contains_listOf]
    rintro ⟨t, ht, heq⟩
    exact hnew t ht heq
  obtain ⟨l, hl, hwf, hcard, hmem⟩ := ItemSetList.insert?_eq_some (hr.wellFormed_listOf s.size) hne
    (cardinality_listOf r s.size).symm hc
  rw [cardinality_listOf] at hcard
  refine ⟨l, hl, hr.setList hwf, fun t => ?_⟩
  rw [hr.mem_setList hwf, hmem, hcard]
  constructor
  · rintro ((rfl | ht) | ⟨ht, -⟩)
    · exact .inl rfl
    · refine .inr (hr.mem_sets_iff.2 ?_)
      rwa [((hr.wellFormed_listOf _).sized t ht).trans (cardinality_listOf r _)]
    · exact .inr ht
  · rintro (rfl | ht)
    · exact .inl (.inl rfl)
    · by_cases hsize : t.size = s.size
      · exact .inl (.inr (hsize ▸ hr.mem_sets_iff.1 ht))
      · exact .inr ⟨ht, hsize⟩

theorem Coherent.any_peers (hr : r.Coherent) (hrem : r.removeSubsumed = true) :
    (r.peers s.support).any s.subsumedBy = true ↔ ∃ t ∈ r.sets, s.subsumedBy t = true := by
  rw [List.any_eq_true]
  constructor
  · rintro ⟨t, ht, hsub⟩
    exact ⟨t, (hr.indexed hrem t).2 ((hr.own _ t ht).symm ▸ ht), hsub⟩
  · rintro ⟨t, ht, hsub⟩
    have hsup := (ItemSet.subsumedBy_iff.1 hsub).2
    exact ⟨t, hsup ▸ (hr.indexed hrem t).1 ht, hsub⟩

theorem Coherent.insert?_covered (hr : r.Coherent) (hs : r.minSupport ≤ s.support.size)
    (hc : r.Covers s) : r.insert? s = .ok none := by
  unfold insert?
  rw [if_neg (Nat.not_lt.2 hs)]
  obtain ⟨t, ht, heq | ⟨hrem, hsub⟩⟩ := hc
  · rw [if_pos (hr.ordered.contains_listOf.2 ⟨t, ht, heq⟩)]
    rfl
  · split
    · rfl
    · rw [if_pos (by rw [hrem, (hr.any_peers hrem).2 ⟨t, ht, hsub⟩]; rfl)]
      rfl

theorem Coherent.setList_file {l : ItemSetList} (hr : r.Coherent) (hrem : r.removeSubsumed = true)
    (hord : ((r.file s).setList l).Ordered)
    (hsets : ∀ t, t ∈ ((r.file s).setList l).sets ↔ t = s ∨ t ∈ r.sets ∧ ¬ t.subsumedBy s = true) :
    ((r.file s).setList l).Coherent := by
  have hpeers (k : Support) : ((r.file s).setList l).peers k = (r.file s).peers k := rfl
  refine ⟨hord, fun k t ht => ?_, fun _ t => ?_⟩
  · rw [hpeers, peers_file] at ht
    split at ht
    · next hk =>
      rcases List.mem_append.1 ht with ht | ht
      · exact hk ▸ hr.own _ t (List.mem_filter.1 ht).1
      · rw [hk, List.mem_singleton.1 ht]
    · exact hr.own k t ht
  · rw [hsets, hpeers, peers_file]
    split
    · next hk =>
      simp only [List.mem_append, List.mem_filter, List.mem_singleton, Bool.not_eq_true',
        Bool.not_eq_true, hr.indexed hrem, hk]
      tauto
    · next hk =>
      rw [hr.indexed hrem]
      constructor
      · rintro (rfl | ⟨ht, -⟩)
        · exact absurd rfl hk
        · exact ht
      · exact fun ht => .inr ⟨ht, fun hsub => hk (ItemSet.subsumedBy_iff.1 hsub).2⟩

theorem Coherent.insert?_uncovered (hr : r.Coherent) (hne : s.isEmpty = false)
    (hs : r.minSupport ≤ s.support.size) (hc : ¬ r.Covers s) :
    ∃ r', r.insert? s = .ok (some r') ∧ r'.Coherent ∧ r'.minSupport = r.minSupport ∧
      r'.removeSubsumed = r.removeSubsumed ∧
      ∀ t, t ∈ r'.sets ↔
        t = s ∨ t ∈ r.sets ∧ ¬ (r.removeSubsumed = true ∧ t.subsumedBy s = true) := by
  have hnew : ∀ t ∈ r.sets, t.items ≠ s.items := fun t ht heq => hc ⟨t, ht, .inl heq⟩
  have hcontains : (r.listOf s.size).contains s = false := by
    rw [Bool.eq_false_iff, ne_eq, hr.ordered.contains_listOf]
    rintro ⟨t, ht, heq⟩
    exact hnew t ht heq
  unfold insert?
  rw [if_neg (Nat.not_lt.2 hs), hcontains, if_neg Bool.false_ne_true]
  cases hrem : r.removeSubsumed with
  | false =>
    obtain ⟨l, hl, hord, hmem⟩ := hr.ordered.insert_listOf hne hnew
    refine ⟨r.setList l, ?_, ⟨hord, hr.own, fun h => ?_⟩, rfl, hrem, fun t => ?_⟩
    · simp only [Bool.false_and, Bool.false_eq_true, ↓reduceIte, hl]
      rfl
    · exact absurd (hrem.symm.trans h) Bool.false_ne_true
    · simp only [hmem, Bool.false_eq_true, false_and, not_false_eq_true, and_true]
  | true =>
    have hany : (r.peers s.support).any s.subsumedBy = false := by
      rw [Bool.eq_false_iff, ne_eq, hr.any_peers hrem]
      rintro ⟨t, ht, hsub⟩
      exact hc ⟨t, ht, .inr ⟨hrem, hsub⟩⟩
    obtain ⟨l, hl, hord, hmem⟩ := (hr.ordered.file s).insert_listOf hne fun t ht =>
      hnew t ((hr.mem_file hrem).1 ht).1
    have hsets (t : ItemSet) : t ∈ ((r.file s).setList l).sets ↔
        t = s ∨ t ∈ r.sets ∧ ¬ t.subsumedBy s = true := by rw [hmem, hr.mem_file hrem]
    refine ⟨(r.file s).setList l, ?_, hr.setList_file hrem hord hsets, (foldl_evict_settings _ _).1,
      (foldl_evict_settings _ _).2.trans hrem, fun t => ?_⟩
    · simp only [hany, Bool.and_false, Bool.false_eq_true, ↓reduceIte, hl]
      rfl
    · simp only [hsets, true_and]

/-- whether a set is kept of those that were offered -/
def Survives (removal : Bool) (seen : List ItemSet) (s : ItemSet) : Prop :=
  s ∈ seen ∧ (removal = true → ∀ t ∈ seen, ¬ s.subsumedBy t = true)

def offerAll (r : Results) (sets : List ItemSet) : Except Fault Results := sets.foldlM offer r

theorem offerAll_append (r : Results) (sets more : List ItemSet) :
    r.offerAll (sets ++ more) = r.offerAll sets >>= fun r => r.offerAll more := List.foldlM_append

/-- the results that sets leave which were offered to empty ones -/
structure Keeps (minimum : Nat) (removal : Bool) (seen : List ItemSet) (r : Results) : Prop where
  coherent : r.Coherent
  minSupport_eq : r.minSupport = minimum
  removal_eq : r.removeSubsumed = removal
  mem_sets_iff : ∀ s, s ∈ r.sets ↔ Survives removal seen s

variable {minimum : Nat} {removal : Bool} {seen sets : List ItemSet}

/-- Above every offered set stands one that survives. Each step up has more members, and the sizes of
the offered sets are bounded. -/
theorem exists_survivor (removal : Bool) (hs : s ∈ seen) :
    ∃ t, Survives removal seen t ∧ (t = s ∨ removal = true ∧ s.subsumedBy t = true) := by
  suffices h : ∀ n, ∀ s ∈ seen, (seen.map (·.size)).sum ≤ s.size + n →
      ∃ t, Survives removal seen t ∧ (t = s ∨ removal = true ∧ s.subsumedBy t = true) from
    h _ s hs (Nat.le_add_left _ _)
  intro n
  induction n with
  | zero =>
    intro s hs hle
    refine ⟨s, ⟨hs, fun _ t ht hsub => ?_⟩, .inl rfl⟩
    have hlt := (IdSet.ssubset_iff_size.1 (ItemSet.subsumedBy_iff.1 hsub).1).1
    have hsum : t.size ≤ (seen.map (·.size)).sum := List.le_sum_of_mem (List.mem_map_of_mem ht)
    simp only [ItemSet.size] at hle hsum
    omega
  | succ n ih =>
    intro s hs hle
    by_cases h : removal = true ∧ ∃ t ∈ seen, s.subsumedBy t = true
    · obtain ⟨hrem, t, ht, hsub⟩ := h
      have hlt := (IdSet.ssubset_iff_size.1 (ItemSet.subsumedBy_iff.1 hsub).1).1
      obtain ⟨u, hu, hcase⟩ := ih t ht (by simp only [ItemSet.size] at hle ⊢; omega)
      refine ⟨u, hu, .inr ⟨hrem, ?_⟩⟩
      rcases hcase with rfl | ⟨-, hsub'⟩
      · exact hsub
      · exact ItemSet.subsumedBy_trans hsub hsub'
    · exact ⟨s, ⟨hs, fun hrem t ht hsub => h ⟨hrem, t, ht, hsub⟩⟩, .inl rfl⟩

theorem keeps_empty (minimum : Nat) (removal : Bool) :
    Keeps minimum removal [] (empty minimum removal) :=
  ⟨coherent_empty minimum removal, rfl, rfl, fun _ => ⟨fun h => (nomatch h), fun h => nomatch h.1⟩⟩

theorem Keeps.covers (hr : Keeps minimum removal seen r) (hs : s ∈ seen) : r.Covers s := by
  obtain ⟨t, ht, hcase⟩ := exists_survivor removal hs
  refine ⟨t, (hr.mem_sets_iff t).2 ht, ?_⟩
  rcases hcase with rfl | ⟨hrem, hsub⟩
  · exact .inl rfl
  · exact .inr ⟨hr.removal_eq.trans hrem, hsub⟩

theorem Keeps.snoc_covered (hr : Keeps minimum removal seen r)
    (hone : ∀ t ∈ seen, t.items = s.items → t = s) (hc : r.Covers s) :
    Keeps minimum removal (seen ++ [s]) r := by
  refine ⟨hr.coherent, hr.minSupport_eq, hr.removal_eq, fun u => ?_⟩
  obtain ⟨t, ht, hcase⟩ := hc
  have htseen := ((hr.mem_sets_iff t).1 ht).1
  rw [hr.mem_sets_iff]
  rcases hcase with heq | ⟨hrem, hsub⟩
  · obtain rfl := hone t htseen heq
    simp only [Survives, List.mem_append, List.mem_singleton]
    grind
  · rw [hr.removal_eq] at hrem
    constructor
    · rintro ⟨hu, hmax⟩
      refine ⟨List.mem_append_left _ hu, fun _ v hv => ?_⟩
      rcases List.mem_append.1 hv with hv | hv
      · exact hmax hrem v hv
      · obtain rfl := List.mem_singleton.1 hv
        exact fun husub => hmax hrem t htseen (ItemSet.subsumedBy_trans husub hsub)
    · rintro ⟨hu, hmax⟩
      have hmax' := fun v hv => hmax hrem v (List.mem_append_left _ hv)
      rcases List.mem_append.1 hu with hu | hu
      · exact ⟨hu, fun _ => hmax'⟩
      · obtain rfl := List.mem_singleton.1 hu
        exact absurd hsub (hmax' t htseen)

/-- One offer more, kept or turned away, leaves what survives of all. -/
theorem Keeps.offer (hr : Keeps minimum removal seen r) (hne : s.isEmpty = false)
    (hs : minimum ≤ s.support.size) (hone : ∀ t ∈ seen, t.items = s.items → t = s) :
    ∃ r', r.offer s = .ok r' ∧ Keeps minimum removal (seen ++ [s]) r' := by
  have hs' : r.minSupport ≤ s.support.size := hr.minSupport_eq ▸ hs
  by_cases hc : r.Covers s
  · refine ⟨r, ?_, hr.snoc_covered hone hc⟩
    simp only [Results.offer, hr.coherent.insert?_covered hs' hc]
    rfl
  obtain ⟨r', hr', hcoh, hmin, hrem, hmem⟩ := hr.coherent.insert?_uncovered hne hs' hc
  refine ⟨r', by simp only [Results.offer, hr']; rfl, hcoh, hmin.trans hr.minSupport_eq,
    hrem.trans hr.removal_eq, fun u => ?_⟩
  have hmaximal : removal = true → ∀ t ∈ seen, ¬ s.subsumedBy t = true := by
    intro hremoval t ht hsub
    obtain ⟨v, hv, hcase⟩ := exists_survivor removal ht
    refine hc ⟨v, (hr.mem_sets_iff v).2 hv, .inr ⟨hr.removal_eq.trans hremoval, ?_⟩⟩
    rcases hcase with rfl | ⟨-, hsub'⟩
    · exact hsub
    · exact ItemSet.subsumedBy_trans hsub hsub'
  rw [hmem, hr.mem_sets_iff, hr.removal_eq]
  simp only [Survives, List.mem_append, List.mem_singleton]
  have hself : ¬ s.subsumedBy s = true := by simp [ItemSet.not_subsumedBy_self]
  grind

theorem Keeps.offerAll (hr : Keeps minimum removal seen r)
    (h : ∀ s ∈ sets, s.isEmpty = false ∧ minimum ≤ s.support.size)
    (hone : ∀ s ∈ seen ++ sets, ∀ t ∈ seen ++ sets, s.items = t.items → s = t) :
    ∃ r', r.offerAll sets = .ok r' ∧ Keeps minimum removal (seen ++ sets) r' := by
  induction sets generalizing r seen with
  | nil => exact ⟨r, rfl, by simpa using hr⟩
  | cons s sets ih =>
    have hs := h s List.mem_cons_self
    obtain ⟨r', hr', hkeeps⟩ := hr.offer hs.1 hs.2 fun t ht =>
      hone t (List.mem_append_left _ ht) s (List.mem_append_right _ List.mem_cons_self)
    have hseen : seen ++ [s] ++ sets = seen ++ s :: sets := List.append_cons .. |>.symm
    obtain ⟨r'', hr'', hkeeps'⟩ := ih hkeeps (fun t ht => h t (List.mem_cons_of_mem _ ht)) (hseen ▸ hone)
    refine ⟨r'', ?_, hseen ▸ hkeeps'⟩
    rw [Results.offerAll, List.foldlM_cons, hr']
    exact hr''

theorem Keeps.kept_eq_of_survives {seen' : List ItemSet} {r' : Results} (hr : Keeps minimum removal seen r)
    (hr' : Keeps minimum removal seen' r')
    (h : ∀ s, Survives removal seen s ↔ Survives removal seen' s) : r.kept = r'.kept := by
  refine hr.coherent.ordered.kept_eq hr'.coherent.ordered fun s => ?_
  rw [hr.mem_sets_iff, hr'.mem_sets_iff, h]

theorem Keeps.kept_eq {seen' : List ItemSet} {r' : Results} (hr : Keeps minimum removal seen r)
    (hr' : Keeps minimum removal seen' r') (h : ∀ s, s ∈ seen ↔ s ∈ seen') : r.kept = r'.kept :=
  hr.kept_eq_of_survives hr' fun s => by simp only [Survives, h]

theorem Keeps.offerAll_of_faithful {table : ItemTable} (hr : Keeps minimum removal seen r)
    (hseen : ∀ s ∈ seen, s.Faithful table)
    (h : ∀ s ∈ sets, s.Faithful table ∧ s.isEmpty = false ∧ minimum ≤ s.support.size) :
    ∃ r', r.offerAll sets = .ok r' ∧ Keeps minimum removal (seen ++ sets) r' := by
  have hall : ∀ s ∈ seen ++ sets, s.Faithful table := by
    intro s hs
    rcases List.mem_append.1 hs with hs | hs
    · exact hseen s hs
    · exact (h s hs).1
  exact hr.offerAll (fun s hs => (h s hs).2) fun s hs t ht => (hall s hs).eq_of_items_eq (hall t ht)

theorem keeps_offerAll (removal : Bool) {table : ItemTable}
    (h : ∀ s ∈ sets, s.Faithful table ∧ s.isEmpty = false ∧ minimum ≤ s.support.size) :
    ∃ r, (empty minimum removal).offerAll sets = .ok r ∧ Keeps minimum removal sets r :=
  (keeps_empty minimum removal).offerAll_of_faithful (fun _ h => absurd h List.not_mem_nil) h

/-- whether each set is among others, or with removal one of them subsumes it -/
def Dominated (removal : Bool) (sets others : List ItemSet) : Prop :=
  ∀ s ∈ sets, ∃ t ∈ others, t = s ∨ removal = true ∧ s.subsumedBy t = true

variable {others : List ItemSet}

theorem Dominated.append (h : Dominated removal sets others) (seen : List ItemSet) :
    Dominated removal (seen ++ sets) (seen ++ others) := by
  intro s hs
  rcases List.mem_append.1 hs with hs | hs
  · exact ⟨s, List.mem_append_left _ hs, .inl rfl⟩
  · obtain ⟨t, ht, hcase⟩ := h s hs
    exact ⟨t, List.mem_append_right _ ht, hcase⟩

theorem Survives.of_dominated (hs : Survives removal sets s) (h : Dominated removal sets others)
    (h' : Dominated removal others sets) : Survives removal others s := by
  obtain ⟨hmem, hmax⟩ := hs
  have hmax' : removal = true → ∀ t ∈ others, ¬ s.subsumedBy t = true := by
    intro hrem t ht hsub
    obtain ⟨u, hu, rfl | ⟨-, hsub'⟩⟩ := h' t ht
    · exact hmax hrem u hu hsub
    · exact hmax hrem u hu (ItemSet.subsumedBy_trans hsub hsub')
  obtain ⟨t, ht, rfl | ⟨hrem, hsub⟩⟩ := h s hmem
  · exact ⟨ht, hmax'⟩
  · exact absurd hsub (hmax' hrem t ht)

theorem offer_of_isEmpty {r' : Results} (hs : s.isEmpty = true) (h : r.offer s = .ok r') : r' = r := by
  have hlist (l : ItemSetList) : l.insert? s = .error .emptyResult := if_pos hs
  unfold offer insert? at h
  split at h
  · cases h
  split at h
  · exact (Except.ok.inj h).symm
  split at h
  · exact (Except.ok.inj h).symm
  · simp only [hlist] at h
    cases h

theorem le_of_offer_ok {r' : Results} (h : r.offer s = .ok r') : r.minSupport ≤ s.support.size := by
  by_contra hlt
  simp only [offer, insert?, if_pos (Nat.lt_of_not_le hlt)] at h
  cases h

theorem Keeps.of_offerAll {table : ItemTable} {r' : Results} (hr : Keeps minimum removal seen r)
    (hseen : ∀ s ∈ seen, s.Faithful table) (h : ∀ s ∈ sets, s.Faithful table)
    (hoffer : r.offerAll sets = .ok r') :
    ∃ seen', (∀ s ∈ seen', s.Faithful table) ∧ Keeps minimum removal seen' r' := by
  induction sets generalizing r seen with
  | nil =>
    obtain rfl := Except.ok.inj hoffer
    exact ⟨seen, hseen, hr⟩
  | cons s sets ih =>
    rw [Results.offerAll, List.foldlM_cons] at hoffer
    have hs := h s List.mem_cons_self
    have hrest : ∀ t ∈ sets, t.Faithful table := fun t ht => h t (List.mem_cons_of_mem _ ht)
    cases hone : r.offer s with
    | error e => rw [hone] at hoffer; cases hoffer
    | ok r₁ =>
      rw [hone] at hoffer
      by_cases hne : s.isEmpty = true
      · obtain rfl := offer_of_isEmpty hne hone
        exact ih hr hseen hrest hoffer
      have hmin : minimum ≤ s.support.size := hr.minSupport_eq ▸ le_of_offer_ok hone
      obtain ⟨r₂, hr₂, hkeeps⟩ := hr.offer (Bool.eq_false_iff.2 hne) hmin fun t ht =>
        (hseen t ht).eq_of_items_eq hs
      obtain rfl : r₂ = r₁ := Except.ok.inj (hr₂.symm.trans hone)
      refine ih hkeeps (fun t ht => ?_) hrest hoffer
      rcases List.mem_append.1 ht with ht | ht
      · exact hseen t ht
      · exact List.mem_singleton.1 ht ▸ hs

theorem Keeps.offerAll_dominated {table : ItemTable} (hr : Keeps minimum removal seen r)
    (hseen : ∀ s ∈ seen, s.Faithful table)
    (hsets : ∀ s ∈ sets, s.Faithful table ∧ s.isEmpty = false ∧ minimum ≤ s.support.size)
    (hothers : ∀ s ∈ others, s.Faithful table ∧ s.isEmpty = false ∧ minimum ≤ s.support.size)
    (h : Dominated removal sets others) (h' : Dominated removal others sets) :
    ∃ r₁ r₂, r.offerAll sets = .ok r₁ ∧ r.offerAll others = .ok r₂ ∧ r₁.kept = r₂.kept := by
  obtain ⟨r₁, hr₁, hkeeps₁⟩ := hr.offerAll_of_faithful hseen hsets
  obtain ⟨r₂, hr₂, hkeeps₂⟩ := hr.offerAll_of_faithful hseen hothers
  refine ⟨r₁, r₂, hr₁, hr₂, hkeeps₁.kept_eq_of_survives hkeeps₂ fun s => ⟨fun hs => ?_, fun hs => ?_⟩⟩
  · exact hs.of_dominated (h.append seen) (h'.append seen)
  · exact hs.of_dominated (h'.append seen) (h.append seen)

/-- With removal, offers of sets built from one table leave the offered sets that no offered set
properly contains with the same support, each once. No order and no repetition of the offers makes a
difference to any list, and a set that was ever offered is turned away ever after. -/
theorem offers_confluent (table : ItemTable) (minimum : Nat) (sets : List ItemSet)
    (h : ∀ s ∈ sets, s.Built table ∧ s.isEmpty = false ∧ minimum ≤ s.support.size) :
    ∃ r, (empty minimum true).offerAll sets = .ok r ∧
      (∀ s, s ∈ r.sets ↔
        s ∈ sets ∧ ¬ ∃ t ∈ sets, s.items ⊂ t.items ∧ s.support = t.support) ∧
      (r.sets.map (·.items)).Nodup ∧
      (∀ sets' : List ItemSet, (∀ s, s ∈ sets' ↔ s ∈ sets) →
        ∃ r', (empty minimum true).offerAll sets' = .ok r' ∧ r'.kept = r.kept) ∧
      ∀ s ∈ sets, r.insert? s = .ok none ∧ r.offer s = .ok r := by
  have hfaithful : ∀ s ∈ sets, s.Faithful table ∧ s.isEmpty = false ∧ minimum ≤ s.support.size :=
    fun s hs => ⟨(h s hs).1.faithful, (h s hs).2⟩
  obtain ⟨r, hr, hkeeps⟩ := keeps_offerAll true hfaithful
  refine ⟨r, hr, fun s => ?_, hkeeps.coherent.ordered.nodup_items, fun sets' hsets => ?_, fun s hs => ?_⟩
  · rw [hkeeps.mem_sets_iff, Survives]
    simp only [ItemSet.subsumedBy_iff, true_implies, not_exists, not_and]
  · obtain ⟨r', hr', hkeeps'⟩ := keeps_offerAll true fun s hs => hfaithful s ((hsets s).1 hs)
    exact ⟨r', hr', hkeeps'.kept_eq hkeeps hsets⟩
  · have hnone := hkeeps.coherent.insert?_covered (hkeeps.minSupport_eq ▸ (h s hs).2.2)
      (hkeeps.covers hs)
    refine ⟨hnone, ?_⟩
    simp only [offer, hnone]
    rfl

def threeItems : ItemTable where
  items := [⟨0, ⟨['a'], [], false⟩, .below 3, []⟩, ⟨1, ⟨['b'], [], false⟩, .below 3, []⟩,
    ⟨2, ⟨['c'], [], false⟩, .below 2, []⟩]
  selectorCount := 3
  numbered := rfl
  supported := by decide

/-- sets of one support, each greater than the one before it, and then the least again -/
def growing : List ItemSet :=
  [⟨.ofList [2], .below 2⟩, ⟨.ofList [0, 2], .below 2⟩, ⟨.ofList [0, 1, 2], .below 2⟩,
    ⟨.ofList [2], .below 2⟩]

theorem offers_confluent_growing :
    (∀ s ∈ growing, s.Built threeItems ∧ s.isEmpty = false ∧ 2 ≤ s.support.size) ∧
      ∃ r, (empty 2 true).offerAll growing = .ok r ∧ ⟨.ofList [0, 1, 2], .below 2⟩ ∈ r.sets ∧
        ⟨.ofList [2], .below 2⟩ ∉ r.sets := by
  have h : ∀ s ∈ growing, s.Built threeItems ∧ s.isEmpty = false ∧ 2 ≤ s.support.size := by
    intro s hs
    have hids (ids : List ItemId) {s : ItemSet} (h : ItemSet.ofIds threeItems ids = .ok s) :
        s.Built threeItems := ItemSet.built_of_ofIds h
    have hbuilt : s.Built threeItems := by
      simp only [growing, List.mem_cons, List.not_mem_nil, or_false] at hs
      rcases hs with rfl | rfl | rfl | rfl
      · exact hids [2] rfl
      · exact hids [0, 2] rfl
      · exact hids [0, 1, 2] rfl
      · exact hids [2] rfl
    have hall : ∀ s ∈ growing, s.isEmpty = false ∧ 2 ≤ s.support.size := by decide
    exact ⟨hbuilt, hall s hs⟩
  obtain ⟨r, hr, hmem, -⟩ := offers_confluent threeItems 2 growing h
  refine ⟨h, r, hr, (hmem _).2 (by decide), fun hin => ?_⟩
  exact absurd ((hmem _).1 hin) (by decide)

end Results
end StyleMiner
