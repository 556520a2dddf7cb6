import StyleMiner.Proofs.Exactness

/-! No run goes wrong inside. Where enough transactions means none at all, growing sets does what it does
for one transaction, since whatever is in a tree is in some transaction; so each of its offers is
counted by the support that the table gives it, for every minimum. A level-wise run with that minimum
goes through all sets of the items that transactions have, and each level is built from the table, so
its checks pass too and it ends at a level without sets. -/

namespace StyleMiner

namespace Forest

variable {f : Forest} {parent : Nat} {above : List ItemId} {keep keep' : ItemId → Bool}

theorem prune_congr (h : ∀ x ∈ f.nodes parent above, keep x.item = keep' x.item) :
    f.prune keep = f.prune keep' := by
  induction f generalizing parent above with
  | nil => rfl
  | node id item count children siblings ihc ihs =>
    simp only [nodes, List.forall_mem_cons, List.forall_mem_append] at h
    rw [prune, prune, h.1, ihc h.2.1, ihs h.2.2]

end Forest

namespace PrefixTree

variable {t : PrefixTree} {i : ItemId}

/-- whether something was counted at every node -/
def Counted (t : PrefixTree) : Prop := ∀ x ∈ t.nodes, 0 < x.count

theorem counted_empty : empty.Counted := fun _ h => nomatch h

theorem Counted.insert (ht : t.Counted) (items : List ItemId) (count : Nat) :
    (t.insert items count).Counted := by
  unfold PrefixTree.insert
  split
  · exact ht
  · next hc => exact Forest.pos_insert (Nat.pos_of_ne_zero hc) ht

theorem counted_ofBase (base : List WeightedPath) : (ofBase base).Counted := by
  suffices h : ∀ t : PrefixTree, t.Counted →
      (base.foldl (fun t p => t.insert p.items p.count) t).Counted from h empty counted_empty
  induction base with
  | nil => exact fun t ht => ht
  | cons p ps ih => exact fun t ht => ih _ (ht.insert p.items p.count)

theorem Counted.prune (ht : t.Counted) (minimum : Nat) : (t.prune minimum).Counted :=
  Forest.pos_prune _ ht

theorem counted_conditional (t : PrefixTree) (minimum : Nat) (i : ItemId) :
    (t.conditional minimum i).Counted := (counted_ofBase _).prune minimum

theorem Counted.itemCount_pos (ht : t.Counted) {x : ForestNode} (hx : x ∈ t.nodes) :
    0 < t.itemCount x.item := by
  have hmem : x ∈ t.nodes.filter (·.item == x.item) := List.mem_filter.2 ⟨hx, beq_self_eq_true _⟩
  have hle : x.count ≤ t.itemCount x.item := by
    rw [itemCount, ← List.sum_eq_foldr]
    exact List.le_sum_of_mem (List.mem_map_of_mem hmem)
  exact Nat.lt_of_lt_of_le (ht x hx) hle

theorem Counted.prune_zero (ht : t.Counted) : t.prune 0 = t.prune 1 := by
  have hforest : t.forest.prune (fun i => 0 ≤ t.itemCount i) = t.forest.prune fun i => 1 ≤ t.itemCount i :=
    Forest.prune_congr fun x hx => decide_eq_decide.2 (iff_of_true (Nat.zero_le _) (ht.itemCount_pos hx))
  rw [PrefixTree.prune, hforest]
  rfl

theorem conditional_zero (t : PrefixTree) (i : ItemId) : t.conditional 0 i = t.conditional 1 i :=
  (counted_ofBase _).prune_zero

end PrefixTree

namespace Projection

variable {p q : Projection} {c : Config}

theorem frequent_zero (hp : p.tree.Counted) : p.frequent 0 = p.frequent 1 := by
  refine List.filter_congr fun i hi => ?_
  obtain ⟨x, hx, rfl⟩ := List.mem_map.1 (IdSet.mem_ofList.1 hi)
  exact decide_eq_decide.2 (iff_of_true (Nat.zero_le _) (hp.itemCount_pos hx))

/-- the request with a minimum of one, which a minimum of zero amounts to -/
def raised (c : Config) : Config := { c with minSupport := 1 }

theorem offers_zero (hp : p.tree.Counted) (hc : c.minSupport = 0) : p.offers c = p.offers (raised c) := by
  have hfreq : p.frequent c.minSupport = p.frequent (raised c).minSupport := by
    rw [hc]
    exact frequent_zero hp
  unfold offers
  rw [hfreq]
  rfl

theorem counted_follower (hq : q ∈ p.followers c) : q.tree.Counted := by
  obtain ⟨-, -, i, -, rfl⟩ := mem_followers.1 hq
  exact PrefixTree.counted_conditional _ _ i

theorem counted_of_mem_visited (hp : p.tree.Counted) : ∀ q ∈ p.visited c, q.tree.Counted := by
  induction p using follow_induction c with
  | h p ih =>
    intro q hq
    rcases mem_visited.1 hq with rfl | ⟨f, hf, hq⟩
    · exact hp
    · exact ih f hf (counted_follower hf) q hq

theorem followers_zero (hp : p.tree.Counted) (hc : c.minSupport = 0) :
    p.followers c = p.followers (raised c) := by
  have hextend : p.extend 0 = p.extend 1 := funext fun i =>
    congrArg (Projection.mk · _) (p.tree.conditional_zero i)
  unfold followers
  rw [hc, frequent_zero hp, hextend]
  rfl

theorem visited_zero (hp : p.tree.Counted) (hc : c.minSupport = 0) :
    p.visited c = p.visited (raised c) := by
  induction p using follow_induction c with
  | h p ih =>
    rw [visited_eq, visited_eq (raised c), ← followers_zero hp hc]
    exact congrArg (p :: ·) (List.flatMap_congr fun f hf => ih f hf (counted_follower hf))

theorem length_combinations (path : List (ItemId × Nat)) :
    (combinations path).length = 2 ^ path.length := by
  rw [combinations_eq_sublists, List.length_sublists]

/-- A path whose combinations are all kept has a bit for each of its items in 64 bits. -/
theorem length_lt_of_path? {path : List (ItemId × Nat)} (h : p.path? c = some path)
    (hkeep : c.removeSubsumed = false) : path.length < 64 := by
  unfold path? at h
  split at h
  · have hlen : path.length ≤ longestPath := by
      simpa [enumerable, hkeep] using (Option.filter_eq_some_iff.1 h).2
    exact Nat.lt_succ_of_le hlen
  · cases h

end Projection

namespace Growth

variable {data : DataSet} {table : ItemTable} {c : Config} {o : Offer}

theorem offers_zero (hc : c.minSupport = 0) : offers data c = offers data (Projection.raised c) := by
  have hcounted := (PrefixTree.counted_ofBase (data.transactions.map fun x => ⟨x.items.toList, 1⟩)).prune 1
  have hstart : Projection.ofDataSet data c.minSupport =
      Projection.ofDataSet data (Projection.raised c).minSupport := by
    rw [hc, Projection.ofDataSet, (PrefixTree.counted_ofBase _).prune_zero]
    rfl
  rw [offers, offers, hstart, Projection.visited_zero hcounted hc]
  refine List.flatMap_congr fun q hq => Projection.offers_zero ?_ hc
  rw [← Projection.visited_zero hcounted hc] at hq
  exact Projection.counted_of_mem_visited hcounted q hq

/-- Whatever the minimum, a run makes the offers of a run with a positive one. -/
theorem exists_offers_eq (data : DataSet) (c : Config) :
    ∃ c', 0 < c'.minSupport ∧ c.minSupport ≤ c'.minSupport ∧ offers data c = offers data c' := by
  cases hc : c.minSupport with
  | zero => exact ⟨Projection.raised c, Nat.one_pos, Nat.zero_le _, offers_zero hc⟩
  | succ n => exact ⟨c, hc ▸ Nat.succ_pos n, Nat.le_of_eq hc.symm, rfl⟩

/-- Each offer is a set of the table, counted by the selectors that declare all its items. -/
theorem offer_spec (hd : data.Agrees table) (ho : o ∈ offers data c) :
    (offered table o).Faithful table ∧ (offered table o).isEmpty = false ∧
      c.minSupport ≤ (offered table o).support.size ∧
      ItemSet.ofIds table o.members = .ok (offered table o) ∧ (offered table o).support.size = o.count := by
  obtain ⟨c', hpos, hle, heq⟩ := exists_offers_eq data c
  obtain ⟨hfaithful, hne, hmin, hset⟩ := offered_spec hd hpos (offers_sound hpos (heq ▸ ho))
  exact ⟨hfaithful, hne, Nat.le_trans hle hmin, hset⟩

theorem mine_eq_offerAll (hd : data.Agrees table) (r : Results) :
    mine data table c r = r.offerAll ((offers data c).map (offered table)) := by
  obtain ⟨c', hpos, -, heq⟩ := exists_offers_eq data c
  exact foldlM_accept (fun o ho => accept_eq hd hpos (offers_sound hpos (heq ▸ ho))) r

end Growth

namespace Levelwise

/-- the levels of a run, from one on to the last that holds a set -/
inductive Runs (table : ItemTable) (minimum : Nat) : List ItemSet → List (List ItemSet) → Prop where
  | done : Runs table minimum [] []
  | step {level next : List ItemSet} {levels : List (List ItemSet)} (hne : level ≠ [])
    (hnext : nextLevel table minimum level = .ok next) (hrest : Runs table minimum next levels) :
    Runs table minimum level (level :: levels)

variable {data : DataSet} {table : ItemTable} {minimum k : Nat} {level : List ItemSet} {x : IdSet}

/-- The items of the next level are those of the level. -/
theorem subset_of_nextLevel (hk : 0 < k) (hl : IsLevel table k level) {next : List ItemSet}
    (hsub : ∀ s ∈ level, s.items ⊆ x) (hnext : nextLevel table minimum level = .ok next) :
    ∀ s ∈ next, s.items ⊆ x := by
  obtain ⟨next', hnext', -, hmem⟩ := nextLevel_exact minimum hl hk
  obtain rfl : next' = next := Except.ok.inj (hnext'.symm.trans hnext)
  intro s hs i hi
  obtain ⟨-, hsize, -, hall⟩ := (hmem s).1 hs
  -- some other member can go, and what is left is in the level
  have hrest : 0 < (s.items.erase i).size := by
    have hsize' := IdSet.size_erase hi
    simp only [ItemSet.size] at hsize
    omega
  obtain ⟨j, hj⟩ := IdSet.size_pos.1 hrest
  obtain ⟨hj, hne⟩ := IdSet.mem_erase.1 hj
  obtain ⟨t, ht, heq⟩ := hall j hj
  exact hsub t ht i (heq ▸ IdSet.mem_erase.2 ⟨hi, hne.symm⟩)

/-- From a level on a run goes through levels that are built from the table, each with enough support,
and it ends before their sets could outgrow the items that there are. -/
theorem exists_runs (n : Nat) (hk : 0 < k) (hl : IsLevel table k level)
    (hmin : ∀ s ∈ level, minimum ≤ s.support.size) (hsub : ∀ s ∈ level, s.items ⊆ x)
    (hn : x.size < k + n) :
    ∃ levels, Runs table minimum level levels ∧
      (∀ r, offerLevels table minimum n r level = r.offerAll levels.flatten) ∧
      ∀ l ∈ levels, ∀ s ∈ l, s.Faithful table ∧ s.isEmpty = false ∧ minimum ≤ s.support.size := by
  induction n generalizing k level with
  | zero =>
    have hnil : level = [] := List.eq_nil_iff_forall_not_mem.2 fun s hs => by
      have hsize : s.items.size = k := hl.sized s hs
      have hle := IdSet.size_le_of_subset (hsub s hs)
      omega
    subst hnil
    exact ⟨[], .done, fun _ => rfl, fun _ h => absurd h List.not_mem_nil⟩
  | succ n ih =>
    by_cases hnil : level = []
    · subst hnil
      exact ⟨[], .done, fun _ => rfl, fun _ h => absurd h List.not_mem_nil⟩
    obtain ⟨next, hnext, hlevel, hmem⟩ := nextLevel_exact minimum hl hk
    obtain ⟨levels, hruns, hoffer, hall⟩ := ih (Nat.succ_pos k) hlevel (fun s hs => ((hmem s).1 hs).2.2.1)
      (subset_of_nextLevel hk hl hsub hnext) (by omega)
    refine ⟨level :: levels, .step hnil hnext hruns, fun r => ?_, ?_⟩
    · have hcont : (fun r => offerLevels table minimum n r next) = fun r => r.offerAll levels.flatten :=
        funext hoffer
      have hempty : level.isEmpty = false := by simpa using hnil
      rw [List.flatten_cons, Results.offerAll_append, ← hcont, offerLevels, hempty,
        offerLevel_eq hl.faithful, hnext]
      rfl
    · intro l hl' s hs
      rcases List.mem_cons.1 hl' with rfl | hl'
      · refine ⟨hl.faithful s hs, ItemSet.isEmpty_eq_false.2 (IdSet.size_pos.1 ?_), hmin s hs⟩
        exact Nat.lt_of_lt_of_eq hk (hl.sized s hs).symm
      · exact hall l hl' s hs

/-- A run over transactions goes through levels up to one without sets, whatever the minimum. -/
theorem exists_runs_of_agrees (hd : data.Agrees table) (c : Config) :
    ∃ first levels, firstLevel data table c.minSupport = .ok first ∧
      Runs table c.minSupport first levels ∧ (∀ r, mine data table c r = r.offerAll levels.flatten) ∧
      ∀ l ∈ levels, ∀ s ∈ l, s.Faithful table ∧ s.isEmpty = false ∧ c.minSupport ≤ s.support.size := by
  have hfirst := firstLevel_eq hd c.minSupport
  have hmin : ∀ s ∈ (data.items.toList.map (single table)).filter (c.minSupport ≤ ·.support.size),
      c.minSupport ≤ s.support.size := fun s hs => of_decide_eq_true (List.mem_filter.1 hs).2
  have hsub : ∀ s ∈ (data.items.toList.map (single table)).filter (c.minSupport ≤ ·.support.size),
      s.items ⊆ data.items := by
    intro s hs j hj
    obtain ⟨i, hi, rfl⟩ := List.mem_map.1 (List.mem_filter.1 hs).1
    exact mem_single.1 hj ▸ hi
  obtain ⟨levels, hruns, hoffer, hall⟩ := exists_runs data.items.size Nat.one_pos
    (isLevel_singles hd c.minSupport) hmin hsub (Nat.lt_one_add_iff.2 (Nat.le_refl _))
  refine ⟨_, levels, hfirst, hruns, fun r => ?_, hall⟩
  rw [mine, hfirst]
  exact hoffer r

end Levelwise

/-- Over the transactions of a sheet neither miner goes wrong, for every minimum and every minimum of the
results that is no greater. Growing sets counts each set that it builds by the selectors that the table
gives it, and of a single path it takes all combinations only where their number fits in 64 bits; the
level-wise run passes its check at every level and ends at a level without sets. -/
theorem mining_never_faults (sheet : Stylesheet) (c : Config) (d least : Nat) (removal : Bool)
    (hle : least ≤ c.minSupport) :
    let table := ItemTable.ofSheet sheet
    let data := DataSet.ofSheet sheet table d
    (∃ r, Growth.mine data table c (.empty least removal) = .ok r) ∧
      (∀ o ∈ Growth.offers data c, ∃ s, ItemSet.ofIds table o.members = .ok s ∧
        s.support.size = o.count ∧ s.isEmpty = false ∧ least ≤ s.support.size) ∧
      (∀ p ∈ (Projection.ofDataSet data c.minSupport).visited c, ∀ path, p.path? c = some path →
        c.removeSubsumed = false →
          (Projection.combinations path).length = 2 ^ path.length ∧ path.length < 64) ∧
      (∃ r, Levelwise.mine data table c (.empty least removal) = .ok r) ∧
      ∃ first levels, Levelwise.firstLevel data table c.minSupport = .ok first ∧
        Levelwise.Runs table c.minSupport first levels ∧
        ∀ level ∈ levels, ∀ s ∈ level, s.checkSupport table = .ok () ∧ s.isEmpty = false ∧
          least ≤ s.support.size := by
  intro table data
  have hd : data.Agrees table := DataSet.agrees_ofSheet sheet d
  have hgrown : ∀ s ∈ (Growth.offers data c).map (Growth.offered table),
      s.Faithful table ∧ s.isEmpty = false ∧ least ≤ s.support.size := by
    intro s hs
    obtain ⟨o, ho, rfl⟩ := List.mem_map.1 hs
    obtain ⟨hfaithful, hne, hmin, -⟩ := Growth.offer_spec hd ho
    exact ⟨hfaithful, hne, Nat.le_trans hle hmin⟩
  obtain ⟨first, levels, hfirst, hruns, hmine, hall⟩ := Levelwise.exists_runs_of_agrees hd c
  have hleveled : ∀ s ∈ levels.flatten, s.Faithful table ∧ s.isEmpty = false ∧ least ≤ s.support.size := by
    intro s hs
    obtain ⟨level, hlevel, hs⟩ := List.mem_flatten.1 hs
    obtain ⟨hfaithful, hne, hmin⟩ := hall level hlevel s hs
    exact ⟨hfaithful, hne, Nat.le_trans hle hmin⟩
  refine ⟨?_, fun o ho => ?_, fun p _ path hpath hkeep => ?_, ?_, first, levels, hfirst, hruns,
    fun level hlevel s hs => ?_⟩
  · obtain ⟨r, hr, -⟩ := Results.keeps_offerAll removal hgrown
    exact ⟨r, (Growth.mine_eq_offerAll hd _).trans hr⟩
  · obtain ⟨-, hne, hmin, hset, hsize⟩ := Growth.offer_spec hd ho
    exact ⟨_, hset, hsize, hne, Nat.le_trans hle hmin⟩
  · exact ⟨Projection.length_combinations path, Projection.length_lt_of_path? hpath hkeep⟩
  · obtain ⟨r, hr, -⟩ := Results.keeps_offerAll removal hleveled
    exact ⟨r, (hmine _).trans hr⟩
  · obtain ⟨hfaithful, hne, hmin⟩ := hleveled s (List.mem_flatten.2 ⟨level, hlevel, hs⟩)
    exact ⟨hfaithful.checkSupport_eq, hne, hmin⟩

/-- With a minimum of zero the level-wise run takes sets that no selector declares whole. -/
theorem mining_never_faults_threeRules : 0 ≤ (⟨0, false, true⟩ : Config).minSupport ∧
    (∃ r, Growth.mine (.ofSheet threeRules (.ofSheet threeRules) 0) (.ofSheet threeRules) ⟨0, false, true⟩
      (.empty 0 true) = .ok r) ∧
    ∃ r, Levelwise.mine (.ofSheet threeRules (.ofSheet threeRules) 0) (.ofSheet threeRules)
      ⟨0, false, true⟩ (.empty 0 true) = .ok r := by
  have hle : 0 ≤ (⟨0, false, true⟩ : Config).minSupport := Nat.le_refl 0
  obtain ⟨hgrown, -, -, hleveled, -⟩ := mining_never_faults threeRules ⟨0, false, true⟩ 0 0 true hle
  exact ⟨hle, hgrown, hleveled⟩

end StyleMiner
