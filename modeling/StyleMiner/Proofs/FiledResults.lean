import Mathlib.Data.List.Induction
import StyleMiner.Proofs.Subsumption

/-! Results after any offers. The offered sets may carry any supports, those of several tables and of none,
and two of them may have the same members with different supports. Still no members are kept twice, each
list holds the sets of its size, and with removal the index by support files the sets that the lists hold,
each once and under its own support: no set stays in the index after it left its list. What is turned away
or driven out gives way to a set that is kept. -/

namespace StyleMiner.Results

/-- The index has one entry for each support, and no set twice in it. -/
structure Filed (r : Results) : Prop where
  keys : (r.bySupport.map (·.1)).Nodup
  peers : ∀ k, (r.peers k).Nodup

/-- whether an offer is answered as it has to be: the set is turned away for a kept one that has its
members or, with removal, subsumes it; or it is kept, and drives out nothing but what a kept one subsumes -/
def Justifies (r : Results) (s : ItemSet) : Prop :=
  (r.insert? s = .ok none ∧ ∃ t ∈ r.sets,
      s.items = t.items ∨ r.removeSubsumed = true ∧ s.items ⊂ t.items ∧ s.support = t.support) ∨
    ∃ r', r.insert? s = .ok (some r') ∧ s ∈ r'.sets ∧ ∀ u ∈ r.sets, u ∉ r'.sets →
      r.removeSubsumed = true ∧ ∃ t ∈ r'.sets, u.items ⊂ t.items ∧ u.support = t.support

variable {r r' : Results} {s t : ItemSet} {k : Support} {ss : List ItemSet}
  {ps : List (Support × List ItemSet)} {p : Support × List ItemSet}

theorem keys_putPeers (k : Support) (ss : List ItemSet) (ps : List (Support × List ItemSet)) :
    (putPeers k ss ps).map (·.1) = if k ∈ ps.map (·.1) then ps.map (·.1) else ps.map (·.1) ++ [k] := by
  induction ps with
  | nil => simp [putPeers]
  | cons p ps ih =>
    unfold putPeers
    by_cases hp : p.1 = k
    · simp [hp]
    · have hmem : k ∈ (p :: ps).map (·.1) ↔ k ∈ ps.map (·.1) := by simp [Ne.symm hp]
      rw [if_neg hp, List.map_cons, ih]
      simp only [hmem]
      split <;> simp

theorem lookup_of_mem (hkeys : (ps.map (·.1)).Nodup) (hp : p ∈ ps) : ps.lookup p.1 = some p.2 := by
  induction ps with
  | nil => exact absurd hp List.not_mem_nil
  | cons q ps ih =>
    obtain ⟨hq, hrest⟩ := List.nodup_cons.1 hkeys
    rw [lookup_cons]
    rcases List.mem_cons.1 hp with rfl | hp
    · exact if_pos rfl
    · have hne : p.1 ≠ q.1 := fun heq => hq (List.mem_map.2 ⟨p, hp, heq⟩)
      rw [if_neg hne]
      exact ih hrest hp

theorem mem_of_lookup (h : ps.lookup k = some ss) : (k, ss) ∈ ps := by
  induction ps with
  | nil => simp at h
  | cons q ps ih =>
    rw [lookup_cons] at h
    split at h
    · next hk =>
      obtain rfl := Option.some.inj h
      exact hk ▸ List.mem_cons_self
    · exact List.mem_cons_of_mem _ (ih h)

theorem filed_empty (minimum : Nat) (removal : Bool) : (empty minimum removal).Filed :=
  ⟨List.nodup_nil, fun _ => List.nodup_nil⟩

theorem Filed.peers_eq (hf : r.Filed) (hp : p ∈ r.bySupport) : r.peers p.1 = p.2 := by
  rw [Results.peers, lookup_of_mem hf.keys hp]
  rfl

/-- What is filed under a support is in its entry. -/
theorem Filed.mem_peers (hf : r.Filed) : s ∈ r.peers k ↔ ∃ p ∈ r.bySupport, p.1 = k ∧ s ∈ p.2 := by
  constructor
  · intro hs
    unfold Results.peers at hs
    cases h : r.bySupport.lookup k with
    | none =>
      rw [h] at hs
      exact absurd hs List.not_mem_nil
    | some ss =>
      rw [h] at hs
      exact ⟨_, mem_of_lookup h, rfl, hs⟩
  · intro hs
    obtain ⟨p, hp, rfl, hs⟩ := hs
    rwa [hf.peers_eq hp]

namespace Coherent

variable (hr : r.Coherent)
include hr

theorem support_eq (hf : r.Filed) (hp : p ∈ r.bySupport) (hs : s ∈ p.2) : s.support = p.1 :=
  hr.own p.1 s (hf.mem_peers.2 ⟨p, hp, rfl, hs⟩)

/-- The index holds what the lists hold, as often. -/
theorem index_perm (hf : r.Filed) (hrem : r.removeSubsumed = true) :
    (r.bySupport.flatMap (·.2)).Perm r.sets := by
  have hindex : (r.bySupport.flatMap (·.2)).Nodup := by
    refine List.nodup_flatMap.2 ⟨fun p hp => hf.peers_eq hp ▸ hf.peers p.1, ?_⟩
    refine (List.pairwise_map.1 hf.keys).imp_of_mem fun {p q} hp hq hne s hs hs' => ?_
    exact hne ((hr.support_eq hf hp hs).symm.trans (hr.support_eq hf hq hs'))
  apply (List.perm_ext_iff_of_nodup hindex (List.Nodup.of_map _ hr.ordered.nodup_items)).2
  intro s
  rw [hr.indexed hrem, hf.mem_peers, List.mem_flatMap]
  refine exists_congr fun p => and_congr_right fun hp => ?_
  exact (and_iff_right_of_imp fun hs => (hr.support_eq hf hp hs).symm).symm

theorem justifies (hne : s.isEmpty = false) (hs : r.minSupport ≤ s.support.size) : r.Justifies s := by
  by_cases hc : r.Covers s
  · refine .inl ⟨hr.insert?_covered hs hc, ?_⟩
    obtain ⟨t, ht, heq | ⟨hrem, hsub⟩⟩ := hc
    · exact ⟨t, ht, .inl heq.symm⟩
    · exact ⟨t, ht, .inr ⟨hrem, ItemSet.subsumedBy_iff.1 hsub⟩⟩
  · obtain ⟨r', hr', -, -, -, hmem⟩ := hr.insert?_uncovered hne hs hc
    have hin : s ∈ r'.sets := (hmem s).2 (.inl rfl)
    refine .inr ⟨r', hr', hin, fun u hu hout => ?_⟩
    have hgone : r.removeSubsumed = true ∧ u.subsumedBy s = true := by
      by_contra hstay
      exact hout ((hmem u).2 (.inr ⟨hu, hstay⟩))
    exact ⟨hgone.1, s, hin, ItemSet.subsumedBy_iff.1 hgone.2⟩

end Coherent

/-- A kept set comes to the end of its entry, and what it subsumes leaves that entry. -/
theorem bySupport_of_insert? (h : r.insert? s = .ok (some r')) :
    r'.bySupport = if r.removeSubsumed = true then
        putPeers s.support ((r.peers s.support).filter (!·.subsumedBy s) ++ [s]) r.bySupport
      else r.bySupport := by
  unfold insert? at h
  split at h
  · cases h
  split at h
  · cases h
  split at h
  · cases h
  obtain ⟨l, -, hl⟩ : ∃ l, _ ∧ (if r.removeSubsumed then r.file s else r).setList l = r' := by
    cases hlist : ((if r.removeSubsumed then r.file s else r).listOf s.size).insert? s with
    | error e => simp [hlist, bind, Except.bind] at h
    | ok l =>
      cases l with
      | none => simp [hlist, bind, Except.bind, pure, Except.pure] at h
      | some l =>
        refine ⟨l, hlist, ?_⟩
        simpa [hlist, bind, Except.bind, pure, Except.pure] using h
  rw [← hl]
  cases hrem : r.removeSubsumed with
  | false => rfl
  | true => exact foldl_evict_bySupport _ _

/-- Filing keeps the index in order, as long as it files nothing that is there. -/
theorem Filed.insert? (hf : r.Filed) (h : r.insert? s = .ok (some r'))
    (hnew : r.removeSubsumed = true → s ∉ r.peers s.support) : r'.Filed := by
  have hindex := bySupport_of_insert? h
  split at hindex
  · next hrem =>
    refine ⟨?_, fun k => ?_⟩
    · rw [hindex, keys_putPeers]
      split
      · exact hf.keys
      · next hk => simpa using hf.keys.concat hk
    · rw [Results.peers, hindex, lookup_putPeers]
      split
      · have hstay : s ∉ (r.peers s.support).filter (!·.subsumedBy s) := fun hs =>
          hnew hrem (List.mem_filter.1 hs).1
        simpa using ((hf.peers _).filter _).concat hstay
      · exact hf.peers k
  · refine ⟨hindex ▸ hf.keys, fun k => ?_⟩
    rw [Results.peers, hindex]
    exact hf.peers k

/-- what results are that took in some sets and no others -/
structure Intact (minimum : Nat) (removal : Bool) (seen : List ItemSet) (r : Results) : Prop where
  coherent : r.Coherent
  filed : r.Filed
  minSupport_eq : r.minSupport = minimum
  removal_eq : r.removeSubsumed = removal
  offered : ∀ s ∈ r.sets, s ∈ seen
  members : removal = false → ∀ s ∈ seen, ∃ t ∈ r.sets, t.items = s.items
  unsubsumed : removal = true → ∀ s ∈ r.sets, ∀ t ∈ r.sets, ¬ s.subsumedBy t = true

variable {minimum : Nat} {removal : Bool} {seen sets : List ItemSet}

theorem intact_empty (minimum : Nat) (removal : Bool) : Intact minimum removal [] (empty minimum removal) :=
  ⟨coherent_empty minimum removal, filed_empty minimum removal, rfl, rfl, fun _ h => h,
    fun _ _ h => absurd h List.not_mem_nil, fun _ _ h => absurd h List.not_mem_nil⟩

theorem Intact.covered (hr : Intact minimum removal seen r) (hc : r.Covers s) :
    Intact minimum removal (seen ++ [s]) r := by
  refine ⟨hr.coherent, hr.filed, hr.minSupport_eq, hr.removal_eq,
    fun t ht => List.mem_append_left _ (hr.offered t ht), fun hkeep t ht => ?_, hr.unsubsumed⟩
  rcases List.mem_append.1 ht with ht | ht
  · exact hr.members hkeep t ht
  · obtain rfl := List.mem_singleton.1 ht
    obtain ⟨u, hu, heq | ⟨hrem, -⟩⟩ := hc
    · exact ⟨u, hu, heq⟩
    · rw [hr.removal_eq, hkeep] at hrem
      cases hrem

theorem Intact.uncovered (hr : Intact minimum removal seen r) (hne : s.isEmpty = false)
    (hs : minimum ≤ s.support.size) (hc : ¬ r.Covers s) :
    ∃ r', r.insert? s = .ok (some r') ∧ Intact minimum removal (seen ++ [s]) r' := by
  obtain ⟨r', hr', hcoh, hmin, hrem, hmem⟩ :=
    hr.coherent.insert?_uncovered hne (hr.minSupport_eq ▸ hs) hc
  have hfiled : r'.Filed := hr.filed.insert? hr' fun hremoval hin =>
    hc ⟨s, (hr.coherent.indexed hremoval s).2 hin, .inl rfl⟩
  rw [hr.removal_eq] at hmem hrem
  refine ⟨r', hr', hcoh, hfiled, hmin.trans hr.minSupport_eq, hrem, fun t ht => ?_, fun hkeep t ht => ?_,
    fun hremove => ?_⟩
  · rcases (hmem t).1 ht with rfl | ⟨ht, -⟩
    · exact List.mem_append_right _ List.mem_cons_self
    · exact List.mem_append_left _ (hr.offered t ht)
  · rcases List.mem_append.1 ht with ht | ht
    · obtain ⟨u, hu, heq⟩ := hr.members hkeep t ht
      exact ⟨u, (hmem u).2 (.inr ⟨hu, by simp [hkeep]⟩), heq⟩
    · obtain rfl := List.mem_singleton.1 ht
      exact ⟨t, (hmem t).2 (.inl rfl), rfl⟩
  · have hkept : ∀ t ∈ r.sets, ¬ s.subsumedBy t = true := fun t ht hsub =>
      hc ⟨t, ht, .inr ⟨hr.removal_eq.trans hremove, hsub⟩⟩
    intro t ht u hu
    rcases (hmem t).1 ht with rfl | ⟨ht, hstay⟩
    · rcases (hmem u).1 hu with rfl | ⟨hu, -⟩
      · simp [ItemSet.not_subsumedBy_self]
      · exact hkept u hu
    · rcases (hmem u).1 hu with rfl | ⟨hu, -⟩
      · exact fun hsub => hstay ⟨hremove, hsub⟩
      · exact hr.unsubsumed hremove t ht u hu

theorem Intact.offer (hr : Intact minimum removal seen r) (hne : s.isEmpty = false)
    (hs : minimum ≤ s.support.size) : ∃ r', r.offer s = .ok r' ∧ Intact minimum removal (seen ++ [s]) r' := by
  by_cases hc : r.Covers s
  · refine ⟨r, ?_, hr.covered hc⟩
    simp only [Results.offer, hr.coherent.insert?_covered (hr.minSupport_eq ▸ hs) hc]
    rfl
  · obtain ⟨r', hr', hintact⟩ := hr.uncovered hne hs hc
    refine ⟨r', ?_, hintact⟩
    simp only [Results.offer, hr']
    rfl

/-- Any sets with members and enough support can be offered, and leave the results intact. -/
theorem exists_offerAll_intact (removal : Bool) (h : ∀ s ∈ sets, s.isEmpty = false ∧ minimum ≤ s.support.size) :
    ∃ r, (empty minimum removal).offerAll sets = .ok r ∧ Intact minimum removal sets r := by
  induction sets using List.reverseRecOn with
  | nil => exact ⟨_, rfl, intact_empty minimum removal⟩
  | append_singleton sets s ih =>
    obtain ⟨q, hq, hintact⟩ := ih fun t ht => h t (List.mem_append_left _ ht)
    obtain ⟨hne, hs⟩ := h s (List.mem_append_right _ List.mem_cons_self)
    obtain ⟨r, hr, hintact'⟩ := hintact.offer hne hs
    refine ⟨r, ?_, hintact'⟩
    rw [offerAll_append, hq]
    simp only [bind, Except.bind, offerAll, List.foldlM_cons, List.foldlM_nil, hr]
    rfl

/-- Whatever sets were offered, with members and with enough support: a list holds the sets of its size,
no members are kept twice, and all that is kept was offered. Without removal these are all members that
were offered. With removal the index holds the kept sets, each once and under its support, and none of
them subsumes another. On the way each offer was answered as it had to be. -/
theorem offers_stay_filed (minimum : Nat) (removal : Bool) (sets : List ItemSet)
    (h : ∀ s ∈ sets, s.isEmpty = false ∧ minimum ≤ s.support.size) :
    ∃ r, (empty minimum removal).offerAll sets = .ok r ∧
      (∀ l ∈ r.lists, ∀ s ∈ l.sets, s.items.size = l.cardinality) ∧
      r.lists.Pairwise (·.cardinality < ·.cardinality) ∧
      (r.sets.map (·.items)).Nodup ∧
      (∀ s ∈ r.sets, s ∈ sets) ∧
      (removal = false → ∀ x, (∃ s ∈ r.sets, s.items = x) ↔ ∃ s ∈ sets, s.items = x) ∧
      (removal = true →
        (r.bySupport.flatMap (·.2)).Perm r.sets ∧
        (r.bySupport.map (·.1)).Nodup ∧
        (∀ p ∈ r.bySupport, ∀ s ∈ p.2, s.support = p.1) ∧
        ∀ s ∈ r.sets, ∀ t ∈ r.sets, ¬ (s.items ⊂ t.items ∧ s.support = t.support)) ∧
      ∀ before s after, sets = before ++ s :: after →
        ∃ q, (empty minimum removal).offerAll before = .ok q ∧ q.Justifies s := by
  obtain ⟨r, hr, hintact⟩ := exists_offerAll_intact removal h
  have hordered := hintact.coherent.ordered
  refine ⟨r, hr, fun l hl => (hordered.wellFormed l hl).sized, hordered.ascending, hordered.nodup_items,
    hintact.offered, fun hkeep x => ⟨fun hx => ?_, fun hx => ?_⟩, fun hremove => ?_,
    fun before s after hsets => ?_⟩
  · obtain ⟨s, hs, hitems⟩ := hx
    exact ⟨s, hintact.offered s hs, hitems⟩
  · obtain ⟨s, hs, rfl⟩ := hx
    exact hintact.members hkeep s hs
  · refine ⟨hintact.coherent.index_perm hintact.filed (hintact.removal_eq.trans hremove),
      hintact.filed.keys, fun p hp s hs => hintact.coherent.support_eq hintact.filed hp hs,
      fun s hs t ht hsub => ?_⟩
    exact hintact.unsubsumed hremove s hs t ht (ItemSet.subsumedBy_iff.2 hsub)
  · subst hsets
    have hsets : ∀ t ∈ before, t.isEmpty = false ∧ minimum ≤ t.support.size := fun t ht =>
      h t (List.mem_append_left _ ht)
    obtain ⟨q, hq, hbefore⟩ := exists_offerAll_intact removal hsets
    obtain ⟨hne, hs⟩ := h s (List.mem_append_right _ List.mem_cons_self)
    exact ⟨q, hq, hbefore.coherent.justifies hne (hbefore.minSupport_eq ▸ hs)⟩

/-- one set of members with two supports. The second time it is turned away; then it is driven out, and
comes back with the other support. -/
def twoSupports : List ItemSet :=
  [⟨.ofList [2], .below 2⟩, ⟨.ofList [2], .below 3⟩, ⟨.ofList [0, 2], .below 2⟩, ⟨.ofList [2], .below 3⟩]

theorem offers_stay_filed_twoSupports :
    (∀ s ∈ twoSupports, s.isEmpty = false ∧ 2 ≤ s.support.size) ∧
      ∃ r, (empty 2 true).offerAll twoSupports = .ok r ∧
        r.sets = [⟨.ofList [2], .below 3⟩, ⟨.ofList [0, 2], .below 2⟩] ∧
        (r.bySupport.flatMap (·.2)).Perm r.sets ∧
        ∃ q, (empty 2 true).offerAll (twoSupports.take 1) = .ok q ∧ q.Justifies ⟨.ofList [2], .below 3⟩ := by
  have h : ∀ s ∈ twoSupports, s.isEmpty = false ∧ 2 ≤ s.support.size := by decide
  obtain ⟨r, hr, -, -, -, -, -, hremoval, hoffers⟩ := offers_stay_filed 2 true twoSupports h
  have hsets : ((empty 2 true).offerAll twoSupports).toOption.map (·.sets) =
      some [⟨.ofList [2], .below 3⟩, ⟨.ofList [0, 2], .below 2⟩] := by decide
  rw [hr] at hsets
  exact ⟨h, r, hr, Option.some.inj hsets, (hremoval rfl).1, hoffers _ _ (twoSupports.drop 2) rfl⟩

end StyleMiner.Results
