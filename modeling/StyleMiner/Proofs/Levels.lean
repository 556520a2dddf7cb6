import StyleMiner.Proofs.Joining
import StyleMiner.Proofs.MinedSets

/-! A level-wise run is exact. The step from a level finds the sets one larger whose subsets are all in
it, and from the level of the frequent sets of one size it finds those of the next: whatever is in
enough transactions has all its subsets in them too. So the levels of a run hold all frequent sets by
their sizes, up to the first level that is empty. -/

namespace StyleMiner

namespace IdSet

variable {s : IdSet} {a b : List Nat} {x k : Nat}

theorem toList_erase (h : s.toList = a ++ x :: b) : (s.erase x).toList = a ++ b := by
  have hnodup := s.nodup
  rw [h, List.nodup_append, List.nodup_cons] at hnodup
  obtain ⟨-, ⟨hb, -⟩, ha⟩ := hnodup
  have hkeep {ys : List Nat} (hys : ∀ y ∈ ys, y ≠ x) : ys.filter (· ≠ x) = ys :=
    List.filter_eq_self.2 fun y hy => decide_eq_true (hys y hy)
  have hdrop : (s.erase x).toList = s.toList.filter (· ≠ x) := rfl
  rw [hdrop, h, List.filter_append, hkeep fun y hy => ha y hy x List.mem_cons_self,
    List.filter_cons_of_neg (by simp), hkeep fun y hy heq => hb (heq ▸ hy)]

theorem exists_subset_of_le_size (h : k ≤ s.size) : ∃ t, t ⊆ s ∧ t.size = k :=
  ⟨⟨s.toList.take k, s.ascending.sublist (List.take_sublist _ _)⟩, fun _ hx => List.mem_of_mem_take hx,
    by rw [size, List.length_take]; exact Nat.min_eq_left h⟩

theorem size_pos : 0 < s.size ↔ ∃ x, x ∈ s := List.length_pos_iff_exists_mem

theorem size_erase (h : x ∈ s) : (s.erase x).size + 1 = s.size := by
  obtain ⟨a, b, hs⟩ := List.append_of_mem (mem_def.1 h)
  rw [size, size, toList_erase hs, hs, List.length_append, List.length_append, List.length_cons]
  omega

theorem exists_erase_of_subset {t : IdSet} (h : t ⊆ s) (hsize : t.size + 1 = s.size) :
    ∃ x ∈ s, t = s.erase x := by
  obtain ⟨x, hx, hxt⟩ : ∃ x ∈ s, x ∉ t := by
    by_contra hnone
    have hall : s ⊆ t := fun x hx => by_contra fun hxt => hnone ⟨x, hx, hxt⟩
    have hle := size_le_of_subset hall
    omega
  have hsub : t ⊆ s.erase x := fun y hy => mem_erase.2 ⟨h y hy, fun heq => hxt (heq ▸ hy)⟩
  have herase := size_erase hx
  exact ⟨x, hx, eq_of_subset_of_size_le hsub (by omega)⟩

end IdSet

theorem mapM_eq_ok {α β : Type} {f : α → Except Fault β} {g : α → β} {xs : List α}
    (h : ∀ x ∈ xs, f x = .ok (g x)) : xs.mapM f = .ok (xs.map g) := by
  induction xs with
  | nil => rfl
  | cons x xs ih =>
    rw [List.mapM_cons, h x List.mem_cons_self, ih fun y hy => h y (List.mem_cons_of_mem _ hy)]
    rfl

namespace Levelwise

variable {data : DataSet} {table : ItemTable} {minimum k : Nat} {level : List ItemSet} {s : ItemSet}

def single (table : ItemTable) (i : ItemId) : ItemSet :=
  ⟨IdSet.empty.insert i, table.common (IdSet.empty.insert i)⟩

theorem mem_single {i j : ItemId} : j ∈ (single table i).items ↔ j = i :=
  IdSet.mem_insert.trans (or_iff_left IdSet.not_mem_empty)

theorem hasAllSubsets_iff :
    hasAllSubsets level s = true ↔ ∀ i ∈ s.items, ∃ t ∈ level, t.items = s.items.erase i := by
  simp only [hasAllSubsets, List.all_eq_true, List.any_eq_true, beq_iff_eq]
  rfl

theorem exists_pair (hl : IsLevel table k level) (hk : 0 < k) (hs : s.size = k + 1)
    (hall : ∀ i ∈ s.items, ∃ t ∈ level, t.items = s.items.erase i) :
    ∃ p ∈ pairs level, (joined table p).items = s.items := by
  obtain ⟨a, i, hai, hlen⟩ := IdSet.exists_last hs (Nat.succ_pos k)
  obtain hnil | ⟨stem, j, rfl⟩ := a.eq_nil_or_concat'
  · rw [hnil, List.length_nil] at hlen
    omega
  have hj : s.items.toList = stem ++ j :: [i] := by rw [hai, List.append_assoc]; rfl
  have hlt : j < i := IdSet.last_greatest hai j (by simp)
  obtain ⟨t, ht, htitems⟩ := hall i (by rw [IdSet.mem_def, hai]; simp)
  obtain ⟨u, hu, huitems⟩ := hall j (by rw [IdSet.mem_def, hj]; simp)
  have htj : t.items.toList = stem ++ [j] := by
    rw [htitems, IdSet.toList_erase hai, List.append_nil]
  have hui : u.items.toList = stem ++ [i] := by rw [huitems, IdSet.toList_erase hj]
  have hpair : (t, i) ∈ pairs level := (mem_pairs hl hk).2 ⟨ht, u, hu, stem, j, htj, hui, hlt⟩
  refine ⟨(t, i), hpair, IdSet.ext fun x => ?_⟩
  rw [IdSet.mem_def, toList_joined hl hk hpair, htj, ← hai, ← IdSet.mem_def]

theorem joined_spec (hl : IsLevel table k level) (hk : 0 < k) {p : ItemSet × ItemId}
    (hp : p ∈ pairs level) : (joined table p).Faithful table ∧ (joined table p).size = k + 1 ∧
      ItemSet.insertId table p.1 p.2 = .ok (joined table p) := by
  obtain ⟨hs, t, ht, stem, j, hsj, hti, -⟩ := (mem_pairs hl hk).1 hp
  have hfaithful := hl.faithful p.1 hs
  have hid : p.2 < table.size := (hl.faithful t ht).has p.2 (by rw [IdSet.mem_def, hti]; simp)
  refine ⟨ItemSet.faithful_mk (ItemTable.has_insert hfaithful.has hid), ?_, hfaithful.insertId_eq hid⟩
  have hlen : p.1.items.toList.length = k := hl.sized p.1 hs
  rw [ItemSet.size, IdSet.size, toList_joined hl hk hp, List.length_append, hlen, List.length_singleton]

/-- The next level holds the sets one larger whose subsets are all in the level, as far as enough
selectors declare them. -/
theorem nextLevel_exact (minimum : Nat) (hl : IsLevel table k level) (hk : 0 < k) :
    ∃ next, nextLevel table minimum level = .ok next ∧ IsLevel table (k + 1) next ∧
      ∀ s, s ∈ next ↔ s.Faithful table ∧ s.size = k + 1 ∧ minimum ≤ s.support.size ∧
        ∀ i ∈ s.items, ∃ t ∈ level, t.items = s.items.erase i := by
  have hmap := mapM_eq_ok fun p hp => (joined_spec hl hk hp).2.2
  have hsorted := (joined_sorted hl hk).filter fun s => hasAllSubsets level s && minimum ≤ s.support.size
  refine ⟨_, ?_, ⟨hsorted, fun s hs => ?_, fun s hs => ?_⟩, fun s => ?_⟩
  · have hsame := List.mergeSort_of_pairwise (hsorted.imp (S := fun a b => (compare a b).isLE = true)
      fun h => by rw [show compare _ _ = Ordering.lt from h]; rfl)
    simp only [nextLevel, hmap, bind, Except.bind, hsame]
    rfl
  · obtain ⟨p, hp, rfl⟩ := List.mem_map.1 (List.mem_filter.1 hs).1
    exact (joined_spec hl hk hp).2.1
  · obtain ⟨p, hp, rfl⟩ := List.mem_map.1 (List.mem_filter.1 hs).1
    exact (joined_spec hl hk hp).1
  · rw [List.mem_filter, List.mem_map, Bool.and_eq_true, hasAllSubsets_iff, decide_eq_true_eq]
    refine ⟨?_, ?_⟩
    · intro ⟨⟨p, hp, hps⟩, hall, hmin⟩
      obtain ⟨hfaithful, hsize, -⟩ := joined_spec hl hk hp
      rw [hps] at hfaithful hsize
      exact ⟨hfaithful, hsize, hmin, hall⟩
    · intro ⟨hfaithful, hsize, hmin, hall⟩
      obtain ⟨p, hp, hitems⟩ := exists_pair hl hk hsize hall
      exact ⟨⟨p, hp, (joined_spec hl hk hp).1.eq_of_items_eq hfaithful hitems⟩, hall, hmin⟩

theorem erases_iff_subsets {x : IdSet} (hx : x.size = k + 1) :
    (∀ i ∈ x, ∃ t ∈ level, t.items = x.erase i) ↔
      ∀ y, y ⊆ x → y.size = k → y ∈ level.map (·.items) := by
  simp only [List.mem_map]
  refine ⟨?_, ?_⟩
  · intro h y hsub hy
    obtain ⟨i, hi, rfl⟩ := IdSet.exists_erase_of_subset hsub (by omega)
    exact h i hi
  · intro h i hi
    have herase := IdSet.size_erase hi
    exact h _ (fun j hj => (IdSet.mem_erase.1 hj).1) (by omega)

/-- What has all its subsets in a level has only items of the table. -/
theorem IsLevel.has_of_subsets (hl : IsLevel table k level) (hk : 0 < k) {x : IdSet} (hx : x.size = k + 1)
    (hall : ∀ i ∈ x, ∃ t ∈ level, t.items = x.erase i) : table.Has x := by
  intro i hi
  -- some other member can go
  have herase := IdSet.size_erase hi
  obtain ⟨j, hj⟩ : ∃ j, j ∈ x.erase i := IdSet.size_pos.1 (by omega)
  obtain ⟨hjx, hji⟩ := IdSet.mem_erase.1 hj
  obtain ⟨t, ht, hitems⟩ := hall j hjx
  apply (hl.faithful t ht).has
  rw [hitems, IdSet.mem_erase]
  exact ⟨hi, hji.symm⟩

/-- From any level, complete or not, one step finds in strict order, each once and with its support, the
sets one larger that have all their subsets of the level's size in it, as far as enough selectors declare
them. -/
theorem nextLevel_subsets_exact (minimum : Nat) (hl : IsLevel table k level) (hk : 1 ≤ k) :
    ∃ next, nextLevel table minimum level = .ok next ∧ next.Pairwise ItemSet.Precedes ∧
      (next.map (·.items)).Nodup ∧ (∀ s ∈ next, s.Faithful table) ∧
      ∀ x, x ∈ next.map (·.items) ↔ x.size = k + 1 ∧
        (∀ y, y ⊆ x → y.size = k → y ∈ level.map (·.items)) ∧ minimum ≤ (table.common x).size := by
  obtain ⟨next, hnext, hlevel, hmem⟩ := nextLevel_exact minimum hl hk
  refine ⟨next, hnext, hlevel.sorted, ?_, hlevel.faithful, fun x => ⟨?_, ?_⟩⟩
  · exact List.pairwise_map.2 (hlevel.sorted.imp ItemSet.Precedes.items_ne)
  · intro hx
    obtain ⟨s, hs, rfl⟩ := List.mem_map.1 hx
    obtain ⟨hfaithful, hsize, hmin, hall⟩ := (hmem s).1 hs
    exact ⟨hsize, (erases_iff_subsets hsize).1 hall, hfaithful.support_eq ▸ hmin⟩
  · intro ⟨hsize, hsubs, hmin⟩
    have hall := (erases_iff_subsets hsize).2 hsubs
    have hfaithful := ItemSet.faithful_mk (hl.has_of_subsets hk hsize hall)
    exact List.mem_map.2 ⟨_, (hmem _).2 ⟨hfaithful, hsize, hmin, hall⟩, rfl⟩

def fourItems : ItemTable where
  items := (List.range 4).map fun i => ⟨i, ⟨Text.decimal i, [], false⟩, .below 2, []⟩
  selectorCount := 2
  numbered := by decide
  supported := by decide

def somePairs : List ItemSet :=
  [[0, 1], [0, 2], [0, 3], [1, 2], [1, 3]].map fun ids => ⟨.ofList ids, .below 2⟩

theorem nextLevel_subsets_exact_somePairs : IsLevel fourItems 2 somePairs ∧ 1 ≤ 2 ∧
    ∃ next, nextLevel fourItems 2 somePairs = .ok next ∧ .ofList [0, 1, 2] ∈ next.map (·.items) ∧
      .ofList [0, 2, 3] ∉ next.map (·.items) := by
  have hl : IsLevel fourItems 2 somePairs := by
    have hall : ∀ s ∈ somePairs, s.size = 2 ∧ (∀ i ∈ s.items.toList, i < fourItems.size) ∧
        s.support = fourItems.common s.items := by decide
    refine ⟨?_, fun s hs => (hall s hs).1, fun s hs => ⟨(hall s hs).2.1, (hall s hs).2.2⟩⟩
    unfold ItemSet.Precedes
    decide
  obtain ⟨next, hnext, -, -, -, hmem⟩ := nextLevel_subsets_exact 2 hl (by decide)
  refine ⟨hl, by decide, next, hnext, (hmem _).2 ⟨by decide, ?_, by decide⟩, fun hin => ?_⟩
  · refine (erases_iff_subsets (by decide)).1 ?_
    decide
  · obtain ⟨-, hsubs, -⟩ := (hmem _).1 hin
    exact absurd (hsubs (.ofList [2, 3]) (by decide) (by decide)) (by decide)

/-- a level that holds the frequent sets of its size, each with its support -/
structure IsFrequentLevel (data : DataSet) (table : ItemTable) (minimum k : Nat) (level : List ItemSet) :
    Prop extends IsLevel table k level where
  mem_iff : ∀ s, s ∈ level ↔ s.Faithful table ∧ s.size = k ∧ data.Frequent minimum s.items

theorem IsFrequentLevel.exists_mem (hd : data.Agrees table) (hpos : 0 < minimum) {x : IdSet}
    (hl : IsFrequentLevel data table minimum k level) (hx : data.Frequent minimum x) (hsize : x.size = k) :
    ∃ t ∈ level, t.items = x := by
  have hfaithful := ItemSet.faithful_mk (hd.of_frequent hpos hx).1
  exact ⟨_, (hl.mem_iff _).2 ⟨hfaithful, hsize, hx⟩, rfl⟩

theorem offerLevel_eq (h : ∀ s ∈ level, s.Faithful table) (r : Results) :
    offerLevel table r level = r.offerAll level := by
  induction level generalizing r with
  | nil => rfl
  | cons s rest ih =>
    have hs := (h s List.mem_cons_self).checkSupport_eq
    unfold offerLevel Results.offerAll at *
    rw [List.foldlM_cons, List.foldlM_cons, hs]
    exact bind_congr fun r => ih (fun t ht => h t (List.mem_cons_of_mem _ ht)) r

/-- The first level holds the sets of one item of the transactions, as far as enough selectors declare
it. -/
theorem firstLevel_eq (hd : data.Agrees table) (minimum : Nat) : firstLevel data table minimum =
    .ok ((data.items.toList.map (single table)).filter (minimum ≤ ·.support.size)) := by
  have hsingle : ∀ i ∈ data.items.toList,
      ItemSet.insertId table (.empty table) i = .ok (single table i) := fun i hi =>
    ItemSet.faithful_empty.insertId_eq (hd.has i hi)
  simp only [firstLevel, mapM_eq_ok hsingle]
  rfl

theorem isLevel_singles (hd : data.Agrees table) (minimum : Nat) :
    IsLevel table 1 ((data.items.toList.map (single table)).filter (minimum ≤ ·.support.size)) := by
  have hsorted : (data.items.toList.map (single table)).Pairwise ItemSet.Precedes := by
    refine List.pairwise_map.2 (data.items.ascending.imp fun {i j} hij => ?_)
    have hlast (i : ItemId) : (single table i).items.toList = [] ++ [i] := rfl
    exact (precedes_iff_lt (hlast i) (hlast j)).2 hij
  refine ⟨hsorted.filter _, fun s hs => ?_, fun s hs => ?_⟩
  · obtain ⟨i, -, rfl⟩ := List.mem_map.1 (List.mem_filter.1 hs).1
    rfl
  · obtain ⟨i, hi, rfl⟩ := List.mem_map.1 (List.mem_filter.1 hs).1
    have hknown : ∀ j ∈ (single table i).items, j < table.size := by
      intro j hj
      rw [mem_single.1 hj]
      exact hd.has i hi
    exact ItemSet.faithful_mk hknown

variable (hd : data.Agrees table) (hpos : 0 < minimum)
include hd hpos

/-- From the frequent sets of one size the step finds those of the next. -/
theorem exists_nextLevel (hl : IsFrequentLevel data table minimum k level) (hk : 0 < k) :
    ∃ next, nextLevel table minimum level = .ok next ∧
      IsFrequentLevel data table minimum (k + 1) next := by
  obtain ⟨next, hnext, hlevel, hmem⟩ := nextLevel_exact minimum hl.toIsLevel hk
  refine ⟨next, hnext, hlevel, fun s => (hmem s).trans ?_⟩
  refine and_congr_right fun hfaithful => and_congr_right fun hsize => ⟨?_, ?_⟩
  · intro ⟨hmin, hall⟩
    have hne : ∃ i, i ∈ s.items := IdSet.size_pos.1 (Nat.lt_of_lt_of_eq (Nat.succ_pos k) hsize.symm)
    have hknown : ∀ i ∈ s.items, i ∈ data.items := by
      intro i hi
      -- some other member can go, and what is left is in the level
      obtain ⟨t, ht, hti⟩ := hall i hi
      have htsize : 0 < t.items.size := Nat.lt_of_lt_of_eq hk (hl.sized t ht).symm
      obtain ⟨j, hj⟩ := IdSet.size_pos.1 htsize
      rw [hti, IdSet.mem_erase] at hj
      obtain ⟨u, hu, huj⟩ := hall j hj.1
      have hcount := Nat.lt_of_lt_of_le hpos ((hl.mem_iff u).1 hu).2.2.2
      exact DataSet.mem_items_of_count_pos hcount (huj ▸ IdSet.mem_erase.2 ⟨hi, hj.2.symm⟩)
    refine ⟨hne, ?_⟩
    rwa [hd.count_eq _ hne hknown, ← hfaithful.support_eq]
  · intro hfreq
    refine ⟨?_, fun i hi => ?_⟩
    · rw [hfaithful.support_eq, ← (hd.of_frequent hpos hfreq).2]
      exact hfreq.2
    · have herase := IdSet.size_erase hi
      have hsize' : s.items.size = k + 1 := hsize
      have hk' : (s.items.erase i).size = k := by omega
      refine hl.exists_mem hd hpos (hfreq.subset (IdSet.size_pos.1 (hk' ▸ hk)) ?_) hk'
      exact fun j hj => (IdSet.mem_erase.1 hj).1

theorem mem_singles : s ∈ (data.items.toList.map (single table)).filter (minimum ≤ ·.support.size) ↔
    s.Faithful table ∧ s.size = 1 ∧ data.Frequent minimum s.items := by
  rw [List.mem_filter, List.mem_map, decide_eq_true_eq]
  refine ⟨?_, ?_⟩
  · intro ⟨⟨i, hi, his⟩, hmin⟩
    subst his
    have hknown : ∀ j ∈ (single table i).items, j ∈ data.items := by
      intro j hj
      rw [mem_single.1 hj]
      exact hi
    have hne : ∃ j, j ∈ (single table i).items := ⟨i, mem_single.2 rfl⟩
    refine ⟨ItemSet.faithful_mk fun j hj => hd.has j (hknown j hj), rfl, hne, ?_⟩
    rw [hd.count_eq _ hne hknown]
    exact hmin
  · intro ⟨hfaithful, hsize, hfreq⟩
    obtain ⟨a, i, hai, hlen⟩ := IdSet.exists_last hsize Nat.one_pos
    obtain rfl := List.eq_nil_of_length_eq_zero (Nat.succ.inj hlen)
    have hitems : (single table i).items = s.items := IdSet.ext fun j => by
      rw [mem_single, IdSet.mem_def, hai, List.nil_append, List.mem_singleton]
    have hown : (single table i).Faithful table :=
      ItemSet.faithful_mk fun j hj => hfaithful.has j (hitems ▸ hj)
    have hsame : single table i = s := hown.eq_of_items_eq hfaithful hitems
    have hi : i ∈ s.items := hsame ▸ mem_single.2 rfl
    have hcount := Nat.lt_of_lt_of_le hpos hfreq.2
    refine ⟨⟨i, DataSet.mem_items_of_count_pos hcount hi, hsame⟩, ?_⟩
    rw [hfaithful.support_eq, ← (hd.of_frequent hpos hfreq).2]
    exact hfreq.2

theorem exists_firstLevel : ∃ level, firstLevel data table minimum = .ok level ∧
    IsFrequentLevel data table minimum 1 level :=
  ⟨_, firstLevel_eq hd minimum, isLevel_singles hd minimum, fun _ => mem_singles hd hpos⟩

/-- A run offers the frequent sets from the size of its first level on, size by size. -/
theorem exists_offerLevels (n : Nat) (hl : IsFrequentLevel data table minimum k level) (hk : 0 < k) :
    ∃ sets, (∀ r, offerLevels table minimum n r level = r.offerAll sets) ∧ ∀ s, s ∈ sets ↔
      s.Faithful table ∧ data.Frequent minimum s.items ∧ k ≤ s.size ∧ s.size < k + n := by
  induction n generalizing k level with
  | zero =>
    refine ⟨[], fun r => rfl, fun s => ⟨fun h => absurd h List.not_mem_nil, ?_⟩⟩
    intro h
    obtain ⟨-, -, hle, hlt⟩ := h
    omega
  | succ n ih =>
    cases level with
    | nil =>
      refine ⟨[], fun r => rfl, fun s => ⟨fun h => absurd h List.not_mem_nil, ?_⟩⟩
      intro h
      obtain ⟨-, hfreq, hle, -⟩ := h
      obtain ⟨x, hsub, hsize⟩ := IdSet.exists_subset_of_le_size hle
      have hx := hfreq.subset (IdSet.size_pos.1 (hsize ▸ hk)) hsub
      obtain ⟨t, ht, -⟩ := hl.exists_mem hd hpos hx hsize
      exact absurd ht List.not_mem_nil
    | cons t rest =>
      obtain ⟨next, hnext, hnextLevel⟩ := exists_nextLevel hd hpos hl hk
      obtain ⟨sets, hsets, hmem⟩ := ih hnextLevel (Nat.succ_pos k)
      refine ⟨(t :: rest) ++ sets, fun r => ?_, fun s => ?_⟩
      · have hcont : (fun r => offerLevels table minimum n r next) = fun r => r.offerAll sets :=
          funext hsets
        rw [Results.offerAll_append, ← hcont, offerLevels, offerLevel_eq hl.faithful, hnext]
        rfl
      · rw [List.mem_append, hl.mem_iff, hmem]
        refine ⟨?_, ?_⟩
        · intro h
          rcases h with ⟨hfaithful, hsize, hfreq⟩ | ⟨hfaithful, hfreq, hle, hlt⟩
          · exact ⟨hfaithful, hfreq, by omega, by omega⟩
          · exact ⟨hfaithful, hfreq, by omega, by omega⟩
        · intro ⟨hfaithful, hfreq, hle, hlt⟩
          by_cases hsize : s.size = k
          · exact .inl ⟨hfaithful, hsize, hfreq⟩
          · exact .inr ⟨hfaithful, hfreq, by omega, by omega⟩

omit hpos in
/-- A level-wise run offers all frequent sets. There is a level for each size that a frequent set can
have, since its items are among those of the transactions. -/
theorem exists_offers {c : Config} (hpos : 0 < c.minSupport) (removal : Bool) :
    ∃ sets, (∀ r, mine data table c r = r.offerAll sets) ∧
      Exhausts data table c.minSupport removal sets := by
  obtain ⟨level, hlevel, hl⟩ := exists_firstLevel hd hpos
  obtain ⟨sets, hsets, hmem⟩ := exists_offerLevels hd hpos data.items.size hl Nat.one_pos
  refine ⟨sets, fun r => ?_, fun s hs => ((hmem s).1 hs).1, fun s hs => ((hmem s).1 hs).2.1, fun x hx => ?_⟩
  · rw [mine, hlevel, ← hsets]
    rfl
  · have hfaithful := ItemSet.faithful_mk (hd.of_frequent hpos hx).1
    have hsub : x ⊆ data.items := fun i hi =>
      DataSet.mem_items_of_count_pos (Nat.lt_of_lt_of_le hpos hx.2) hi
    have hle : 0 < x.size := IdSet.size_pos.2 hx.1
    have hlt : x.size < 1 + data.items.size := by
      have hsize := IdSet.size_le_of_subset hsub
      omega
    exact ⟨_, (hmem _).2 ⟨hfaithful, hx, hle, hlt⟩, IdSet.subset_refl x, rfl, fun _ => rfl⟩

end Levelwise
end StyleMiner
