import StyleMiner.Proofs.Unfailing

/-! What a single path offers at once, and what its projection and all that follow from it offer when
they are recursed into. Both offer frequent sets with the projection's stem, rightly counted, and each
of them has above every set of the other one that is counted alike, so whatever was kept before, the
same is kept after. Where all combinations are offered, they are those of the masks from one up, each
counted by the node of the mask's greatest bit. -/

namespace StyleMiner

namespace Projection

open WeightedPath

/-- the settings of a run that recurses into single paths too -/
def recursive (c : Config) : Config := { c with singlePath := false }

def direct (c : Config) : Config := { c with singlePath := true }

/-- what a projection to a single path offers at once, its stem included -/
def shortcut (c : Config) (p : Projection) (path : List (ItemId × Nat)) : List Offer :=
  (pathOffers c path).map fun o => { o with members := p.stem.toList ++ o.members }

/-- what a projection and those that follow from it offer, no path taken at once -/
def recursion (c : Config) (p : Projection) : List Offer :=
  (p.visited (recursive c)).flatMap (offers (recursive c))

/-- whether a set has items of a path alone, of which the deepest has the count `n` there -/
def Deepest (path : List (ItemId × Nat)) (x : IdSet) (n : Nat) : Prop :=
  ∃ a i b, path = a ++ (i, n) :: b ∧ i ∈ x ∧ ∀ j ∈ x, j = i ∨ j ∈ a.map (·.1)

def masked (mask : Nat) (path : List (ItemId × Nat)) : List (ItemId × Nat) :=
  (path.zipIdx.filter fun x => mask.testBit x.2).map (·.1)

/-- the offer of the nodes that a mask has, counted by the node of its greatest bit -/
def maskOffer? (path : List (ItemId × Nat)) (mask : Nat) : Option Offer :=
  path[mask.log2]?.map fun deepest => ⟨(masked mask path).map (·.1), deepest.2, true⟩

/-- whether an offer is counted as another one and has its items, and no others where all sets are kept -/
def Covers (c : Config) (o f : Offer) : Prop :=
  IdSet.ofList f.members ⊆ .ofList o.members ∧ o.count = f.count ∧
    (c.removeSubsumed = false → IdSet.ofList o.members = .ofList f.members)

variable {data : DataSet} {p q : Projection} {ps : List WeightedPath} {x : IdSet} {i : ItemId} {mask : Nat}
  {c : Config} {path : List (ItemId × Nat)} {f o : Offer}

theorem masked_zero (path : List (ItemId × Nat)) : masked 0 path = [] := by simp [masked]

theorem masked_cons (mask : Nat) (y : ItemId × Nat) (ys : List (ItemId × Nat)) :
    masked mask (y :: ys) = if mask.testBit 0 then y :: masked (mask / 2) ys else masked (mask / 2) ys := by
  have hrest : ((ys.zipIdx 1).filter fun x => mask.testBit x.2).map (·.1) = masked (mask / 2) ys := by
    rw [List.zipIdx_succ, List.filter_map, List.map_map, masked]
    simp only [Function.comp_def, Nat.testBit_add_one]
  unfold masked at hrest ⊢
  rw [List.zipIdx_cons, List.filter_cons]
  split
  · rw [List.map_cons, hrest]
  · exact hrest

theorem range_two_mul (n : Nat) : List.range (2 * n) = (List.range n).flatMap fun m => [2 * m, 2 * m + 1] := by
  induction n with
  | zero => rfl
  | succ n ih => simp [Nat.mul_succ, List.range_succ, ih]

theorem combinations_eq_masked (path : List (ItemId × Nat)) :
    combinations path = (List.range (2 ^ path.length)).map (masked · path) := by
  induction path with
  | nil => rfl
  | cons y ys ih =>
    have heven (m : Nat) : masked (2 * m) (y :: ys) = masked m ys := by simp [masked_cons]
    have hodd (m : Nat) : masked (2 * m + 1) (y :: ys) = y :: masked m ys := by
      simp [masked_cons, Nat.mul_add_div]
    rw [combinations, ih, List.length_cons, Nat.pow_succ', range_two_mul, List.flatMap_map, List.map_flatMap]
    simp only [List.map_cons, List.map_nil, heven, hodd]

theorem getLast?_masked (hpos : 0 < mask) (hlt : mask < 2 ^ path.length) :
    (masked mask path).getLast? = path[mask.log2]? := by
  induction path generalizing mask with
  | nil => simp at hlt; omega
  | cons y ys ih =>
    rw [List.length_cons, Nat.pow_succ'] at hlt
    rw [masked_cons, Nat.log2_def]
    by_cases htop : 2 ≤ mask
    · have hlen : (mask / 2).log2 < ys.length := (Nat.log2_lt (by omega)).2 (by omega)
      have hlast : (masked (mask / 2) ys).getLast? = some ys[(mask / 2).log2] := by
        rw [ih (by omega) (by omega), List.getElem?_eq_getElem hlen]
      rw [if_pos htop, List.getElem?_cons_succ, List.getElem?_eq_getElem hlen]
      split
      · rw [List.getLast?_cons, hlast]
        rfl
      · exact hlast
    · obtain rfl : mask = 1 := by omega
      simp [masked_zero]

theorem map_some_filterMap {α β : Type} {g : α → Option β} {l : List α} (h : ∀ a ∈ l, (g a).isSome) :
    (l.filterMap g).map some = l.map g := by
  induction l with
  | nil => rfl
  | cons a l ih =>
    obtain ⟨b, hb⟩ := Option.isSome_iff_exists.1 (h a List.mem_cons_self)
    rw [List.filterMap_cons_some hb, List.map_cons, List.map_cons, hb,
      ih fun a ha => h a (List.mem_cons_of_mem _ ha)]

theorem pathOffers_eq_masks (hkeep : c.removeSubsumed = false) (path : List (ItemId × Nat)) :
    (pathOffers c path).map some = (List.range' 1 (2 ^ path.length - 1)).map (maskOffer? path) := by
  have hmask : ∀ mask ∈ List.range' 1 (2 ^ path.length - 1), 0 < mask ∧ mask < 2 ^ path.length := by
    intro mask hmask
    have hmem := List.mem_range'_1.1 hmask
    have hpos := Nat.two_pow_pos path.length
    omega
  have hoffer : ∀ mask ∈ List.range' 1 (2 ^ path.length - 1),
      combinationOffer? (masked mask path) = maskOffer? path mask := by
    intro mask hm
    obtain ⟨hpos, hlt⟩ := hmask mask hm
    rw [combinationOffer?, getLast?_masked hpos hlt, maskOffer?]
  have hsome : ∀ mask ∈ List.range' 1 (2 ^ path.length - 1), (maskOffer? path mask).isSome := by
    intro mask hm
    obtain ⟨hpos, hlt⟩ := hmask mask hm
    have hlen : mask.log2 < path.length := (Nat.log2_lt (Nat.ne_of_gt hpos)).2 hlt
    simp [maskOffer?, hlen]
  have hrange : List.range (2 ^ path.length) = 0 :: List.range' 1 (2 ^ path.length - 1) := by
    have hpos := Nat.two_pow_pos path.length
    conv_lhs => rw [List.range_eq_range', ← Nat.sub_add_cancel hpos, List.range'_succ]
  rw [← map_some_filterMap hsome, pathOffers, if_neg (by simp [hkeep]), combinations_eq_masked, hrange,
    List.map_cons, masked_zero, List.filterMap_cons_none rfl, List.filterMap_map]
  exact congrArg (List.map some) (List.filterMap_congr hoffer)

theorem Deepest.exists_mem {n : Nat} (h : Deepest path x n) : ∃ i, i ∈ x := by
  obtain ⟨-, i, -, -, hi, -⟩ := h
  exact ⟨i, hi⟩

theorem deepest_offer (hf : f ∈ pathOffers c path) : Deepest path (.ofList f.members) f.count := by
  simpa only [Deepest, IdSet.mem_ofList] using deepest_of_mem_pathOffers hf

theorem sublist_of_mem_pathOffers (hf : f ∈ pathOffers c path) : f.members.Sublist (path.map (·.1)) := by
  unfold pathOffers at hf
  split at hf
  · obtain ⟨a, i, n, b, rfl, -, rfl⟩ := mem_runs.1 hf
    simp
  · obtain ⟨ys, hys, hoffer⟩ := List.mem_filterMap.1 hf
    obtain ⟨-, -, rfl⟩ := Option.map_eq_some_iff.1 hoffer
    exact (mem_combinations.1 hys).map _

theorem runs_lengthen (before : List ItemId) (path : List (ItemId × Nat)) :
    (runs before path).Pairwise (·.members.length < ·.members.length) := by
  induction path generalizing before with
  | nil => exact List.Pairwise.nil
  | cons y ys ih =>
    rw [runs]
    split
    · refine List.pairwise_cons.2 ⟨fun f hf => ?_, ih _⟩
      obtain ⟨a, i, n, b, -, -, rfl⟩ := mem_runs.1 hf
      simp
    · exact ih _

theorem members_combinations (ls : List (List (ItemId × Nat))) :
    (ls.filterMap combinationOffer?).map (·.members) = (ls.map (·.map (·.1))).filter (!·.isEmpty) := by
  induction ls with
  | nil => rfl
  | cons l ls ih =>
    obtain rfl | ⟨zs, z, rfl⟩ := l.eq_nil_or_concat'
    · rw [List.filterMap_cons_none rfl, ih]
      rfl
    · simp [combinationOffer?, ih]

theorem nodup_pathOffers (hnodup : (path.map (·.1)).Nodup) : ((pathOffers c path).map (·.members)).Nodup := by
  unfold pathOffers
  split
  · exact List.pairwise_map.2 ((runs_lengthen [] path).imp fun hlt heq =>
      absurd hlt (by simp [heq]))
  · rw [members_combinations, combinations_eq_sublists, ← List.sublists_map]
    exact (List.nodup_sublists.2 hnodup).filter _

theorem mem_shortcut : o ∈ p.shortcut c path ↔
    ∃ f ∈ pathOffers c path, o = { f with members := p.stem.toList ++ f.members } := by
  simp only [shortcut, List.mem_map, eq_comm]

theorem path?_eq_some (hc : c.singlePath = true) (h : p.tree.singlePath? = some path)
    (hlen : enumerable c path.length = true) : p.path? c = some path := by
  rw [path?, if_pos hc, Option.filter_eq_some_iff]
  exact ⟨h, hlen⟩

theorem offers_eq_shortcut (h : p.path? c = some path) : p.offers c = p.shortcut c path := by
  rw [offers, h]
  rfl

theorem visited_eq_singleton (h : p.path? c = some path) : p.visited c = [p] := by
  rw [visited_eq, followers, h]
  rfl

theorem shortcut_eq_offers (h : p.tree.singlePath? = some path) (hlen : enumerable c path.length = true) :
    p.shortcut c path = p.offers (direct c) :=
  (offers_eq_shortcut (c := direct c) (path?_eq_some (c := direct c) rfl h hlen)).symm

namespace Shows

variable (hp : p.Shows data c.minSupport ps)
include hp

theorem lt_of_mem_path (h : p.tree.singlePath? = some path) (hi : i ∈ path.map (·.1)) : ∀ j ∈ p.stem, i < j := by
  obtain ⟨r, hr, hir⟩ := hp.represents.exists_path_of_mem h hi
  exact hp.below r hr i hir

theorem nodup_shortcut (h : p.tree.singlePath? = some path) :
    ((p.shortcut c path).map fun o => IdSet.ofList o.members).Nodup := by
  have hasc := hp.represents.path_ascending hp.ascending h
  have hnodup := nodup_pathOffers (c := c) (hasc.imp Nat.ne_of_lt)
  have hsub : ∀ ids ∈ (pathOffers c path).map (·.members), ids.Sublist (path.map (·.1)) := by
    intro ids hids
    obtain ⟨f, hf, rfl⟩ := List.mem_map.1 hids
    exact sublist_of_mem_pathOffers hf
  have hmem {ids : List ItemId} (hids : ids.Sublist (path.map (·.1))) (j : ItemId) :
      j ∈ ids ↔ j ∈ p.stem.union (.ofList ids) ∧ j ∉ p.stem := by
    rw [IdSet.mem_union, IdSet.mem_ofList]
    have hnot : j ∈ ids → j ∉ p.stem := fun hj hstem =>
      absurd (hp.lt_of_mem_path h (hids.subset hj) j hstem) (Nat.lt_irrefl j)
    tauto
  have hsets : (p.shortcut c path).map (fun o => IdSet.ofList o.members) =
      ((pathOffers c path).map (·.members)).map fun ids => p.stem.union (.ofList ids) := by
    simp only [shortcut, List.map_map, Function.comp_def, ofList_stem_append]
  rw [hsets]
  refine hnodup.map_on fun a ha b hb heq => ?_
  have hset : (⟨a, hasc.sublist (hsub a ha)⟩ : IdSet) = ⟨b, hasc.sublist (hsub b hb)⟩ := by
    refine IdSet.ext fun j => ?_
    rw [IdSet.mem_def, IdSet.mem_def, hmem (hsub a ha), hmem (hsub b hb), heq]
  exact congrArg IdSet.toList hset

theorem exists_below_offer (hpos : 0 < c.minSupport) (ho : o ∈ p.offers c) :
    ∃ x, (∃ i, i ∈ x) ∧ (∀ i ∈ x, ∀ j ∈ p.stem, i < j) ∧ IdSet.ofList o.members = p.stem.union x := by
  obtain ⟨f, hf, rfl⟩ := mem_offers.1 ho
  have hmem := p.ofList_stem_append f
  cases hpath : p.path? c with
  | some path =>
    rw [hpath] at hf
    refine ⟨_, (deepest_offer hf).exists_mem, fun j hj => ?_, hmem⟩
    rw [IdSet.mem_ofList] at hj
    exact hp.lt_of_mem_path (singlePath_of_path? hpath) ((sublist_of_mem_pathOffers hf).subset hj)
  | none =>
    rw [hpath] at hf
    obtain ⟨i, hi, rfl⟩ := hf
    obtain ⟨r, hr, hir⟩ := hp.exists_path_of_le hpos ((hp.mem_frequent hpos).1 hi)
    refine ⟨_, ⟨i, IdSet.mem_ofList.2 List.mem_cons_self⟩, fun j hj => ?_, hmem⟩
    obtain rfl := List.mem_singleton.1 (IdSet.mem_ofList.1 hj)
    exact hp.below r hr j hir

theorem exists_below (hpos : 0 < c.minSupport) : ∀ q ∈ p.visited c, ∀ o ∈ q.offers c,
    ∃ x, (∃ i, i ∈ x) ∧ (∀ i ∈ x, ∀ j ∈ p.stem, i < j) ∧ IdSet.ofList o.members = p.stem.union x := by
  induction p using follow_induction c generalizing ps with
  | h p ih =>
    intro q hq o ho
    rcases mem_visited.1 hq with rfl | ⟨f, hf, hq⟩
    · exact hp.exists_below_offer hpos ho
    · obtain ⟨-, -, i, hi, rfl⟩ := mem_followers.1 hf
      have hocc := (hp.mem_frequent hpos).1 hi
      obtain ⟨r, hr, hir⟩ := hp.exists_path_of_le hpos hocc
      obtain ⟨x, -, hlow, hmem⟩ := ih _ hf (hp.extend hpos hocc) q hq o ho
      refine ⟨x.insert i, ⟨i, IdSet.mem_insert.2 (.inl rfl)⟩, fun j hj k hk => ?_, ?_⟩
      · rcases IdSet.mem_insert.1 hj with rfl | hj
        · exact hp.below r hr j hir k hk
        · exact hlow j hj k (IdSet.mem_insert.2 (.inr hk))
      · rw [hmem, IdSet.union_insert]
        rfl

theorem shortcut_sound (hpos : 0 < c.minSupport) (h : p.tree.singlePath? = some path)
    (hlen : enumerable c path.length = true) (ho : o ∈ p.shortcut c path) : o.Sound data c.minSupport := by
  rw [shortcut_eq_offers h hlen] at ho
  exact hp.offers_sound (c := direct c) hpos ho

theorem recursion_sound (hpos : 0 < c.minSupport) (ho : o ∈ p.recursion c) : o.Sound data c.minSupport := by
  obtain ⟨q, hq, ho⟩ := List.mem_flatMap.1 ho
  obtain ⟨qs, hqs⟩ := hp.visited (c := recursive c) hpos q hq
  exact hqs.offers_sound (c := recursive c) hpos ho

/-- What is offered at once is found by recursion, for enough transactions have it. -/
theorem exists_recursion (hpos : 0 < c.minSupport) (h : p.tree.singlePath? = some path)
    (ho : o ∈ p.shortcut c path) : ∃ f ∈ p.recursion c, Covers c f o := by
  obtain ⟨f, hf, rfl⟩ := mem_shortcut.1 ho
  obtain ⟨hshare, hmin⟩ := hp.share_pathOffer h hf
  obtain ⟨i, hi⟩ := (deepest_offer hf).exists_mem
  obtain ⟨q, hq, o, ho, hsub, hcount, hsame⟩ :=
    hp.exists_offer (c := recursive c) hpos ⟨i, hi⟩ (hshare.symm ▸ hmin)
  rw [← ofList_stem_append] at hsub hsame
  exact ⟨o, List.mem_flatMap.2 ⟨q, hq, ho⟩, hsub, hcount.trans hshare, hsame⟩

/-- What is found by recursion has items of the path with the stem, so it is offered at once, or one
above it is. -/
theorem exists_shortcut (hpos : 0 < c.minSupport) (h : p.tree.singlePath? = some path)
    (hlen : enumerable c path.length = true) (ho : o ∈ p.recursion c) :
    ∃ f ∈ p.shortcut c path, Covers c f o := by
  obtain ⟨⟨-, hmin⟩, hcount⟩ := hp.recursion_sound hpos ho
  obtain ⟨q, hq, ho⟩ := List.mem_flatMap.1 ho
  obtain ⟨x, hx, hlow, hmem⟩ := hp.exists_below (c := recursive c) hpos q hq o ho
  rw [hmem] at hmin hcount
  have hshare := hp.complete x hx hlow hmin
  obtain ⟨f, hf, hsub, hcountf, hsame⟩ :=
    hp.exists_offer_path (c := direct c) hpos (path?_eq_some rfl h hlen) hx hshare
  rw [← shortcut_eq_offers h hlen] at hf
  rw [← hmem] at hsub hsame
  exact ⟨f, hf, hsub, hcountf.trans ((hp.share_eq x hx hshare).trans hcount.symm), hsame⟩

theorem exists_choice_offer (h : p.tree.singlePath? = some path) (hkeep : c.removeSubsumed = false)
    (hx : ∃ i, i ∈ x) (hpath : ∀ i ∈ x, i ∈ path.map (·.1)) :
    ∃ o ∈ p.shortcut c path, .ofList o.members = p.stem.union x ∧ Deepest path x o.count := by
  obtain ⟨f, hf, -, -, hsame⟩ := hp.exists_pathOffer h hx hpath
  have hdeepest := deepest_offer hf
  rw [hsame hkeep] at hdeepest
  exact ⟨_, mem_shortcut.2 ⟨f, hf, rfl⟩, by rw [ofList_stem_append, hsame hkeep], hdeepest⟩

end Shows
end Projection

namespace Growth

variable {data : DataSet} {table : ItemTable} {c : Config} {os fs : List Offer} {removal : Bool}

theorem dominated_of_covers (hd : data.Agrees table) (hpos : 0 < c.minSupport)
    (hos : ∀ o ∈ os, o.Sound data c.minSupport) (hfs : ∀ f ∈ fs, f.Sound data c.minSupport)
    (hrem : c.removeSubsumed = true → removal = true)
    (hcovers : ∀ o ∈ os, ∃ f ∈ fs, Projection.Covers c f o) :
    Results.Dominated removal (os.map (offered table)) (fs.map (offered table)) := by
  intro s hs
  obtain ⟨o, ho, rfl⟩ := List.mem_map.1 hs
  obtain ⟨f, hf, hsub, hcount, hsame⟩ := hcovers o ho
  refine ⟨offered table f, List.mem_map_of_mem hf, ?_⟩
  by_cases heq : IdSet.ofList f.members = .ofList o.members
  · exact .inl (by rw [offered, offered, heq])
  · have hremoved : c.removeSubsumed = true := by
      by_contra hkeep
      exact heq (hsame (Bool.eq_false_iff.2 hkeep))
    have hsup : table.common (.ofList f.members) = table.common (.ofList o.members) := by
      refine ItemTable.common_eq_of_size_eq hsub ?_
      rw [← (hd.of_frequent hpos (hfs f hf).frequent).2, ← (hd.of_frequent hpos (hos o ho).frequent).2,
        ← (hfs f hf).count_eq, ← (hos o ho).count_eq, hcount]
    have hstrict := IdSet.ssubset_of_subset_of_ne hsub fun h => heq h.symm
    exact .inr ⟨hrem hremoved, ItemSet.subsumedBy_iff.2 ⟨hstrict, hsup.symm⟩⟩

end Growth

namespace Projection.Shows

open WeightedPath

variable {data : DataSet} {table : ItemTable} {p : Projection} {ps : List WeightedPath} {c : Config}
  {path : List (ItemId × Nat)} {removal : Bool} {least : Nat} {seen : List ItemSet} {r : Results}

/-- Whatever was kept before, offering a path at once keeps the same as recursing into it. -/
theorem kept_eq (hp : p.Shows data c.minSupport ps) (hd : data.Agrees table) (hpos : 0 < c.minSupport)
    (hle : least ≤ c.minSupport) (hrem : c.removeSubsumed = true → removal = true)
    (h : p.tree.singlePath? = some path) (hlen : enumerable c path.length = true)
    (hseen : ∀ s ∈ seen, s.Faithful table) (hr : Results.Keeps least removal seen r) :
    ∃ r₁ r₂, (p.shortcut c path).foldlM (Growth.accept table) r = .ok r₁ ∧
      (p.recursion c).foldlM (Growth.accept table) r = .ok r₂ ∧ r₁.kept = r₂.kept := by
  have hshort := fun o (ho : o ∈ p.shortcut c path) => hp.shortcut_sound hpos h hlen ho
  have hrec := fun o (ho : o ∈ p.recursion c) => hp.recursion_sound hpos ho
  have hspec {os : List Offer} (hos : ∀ o ∈ os, o.Sound data c.minSupport) :
      ∀ s ∈ os.map (Growth.offered table),
        s.Faithful table ∧ s.isEmpty = false ∧ least ≤ s.support.size := by
    intro s hs
    obtain ⟨o, ho, rfl⟩ := List.mem_map.1 hs
    obtain ⟨hfaithful, hne, hmin, -⟩ := Growth.offered_spec hd hpos (hos o ho)
    exact ⟨hfaithful, hne, Nat.le_trans hle hmin⟩
  rw [Growth.foldlM_accept fun o ho => Growth.accept_eq hd hpos (hshort o ho),
    Growth.foldlM_accept fun o ho => Growth.accept_eq hd hpos (hrec o ho)]
  refine hr.offerAll_dominated hseen (hspec hshort) (hspec hrec) ?_ ?_
  · exact Growth.dominated_of_covers hd hpos hshort hrec hrem fun o ho => hp.exists_recursion hpos h ho
  · exact Growth.dominated_of_covers hd hpos hrec hshort hrem fun o ho => hp.exists_shortcut hpos h hlen ho

end Projection.Shows

open Projection in
/-- Taking a single path at once replaces the recursion. Wherever a run over a sheet meets a single path
that may be taken at once, whatever sets of the table the results took in before, the offers at once
pass their checks and leave the same sets with the same supports as the offers of the projection and
of all that follow from it. No set is offered twice. Where all sets are kept, each choice of items of
the path is offered with the count of its deepest node, in the order of the masks; where subsumed ones
are removed, the offers are the runs from the top that end where the count drops. -/
theorem shortcut_replaces_recursion (sheet : Stylesheet) (c : Config) (d least : Nat) (removal : Bool)
    (hmin : 1 ≤ c.minSupport) (hle : least ≤ c.minSupport)
    (hrem : c.removeSubsumed = true → removal = true) :
    let table := ItemTable.ofSheet sheet
    let data := DataSet.ofSheet sheet table d
    ∀ p ∈ (Projection.ofDataSet data c.minSupport).visited c, ∀ path,
      p.tree.singlePath? = some path → enumerable c path.length = true →
      (c.singlePath = true → p.visited c = [p] ∧ p.offers c = p.shortcut c path) ∧
      (∀ sets r, (∀ s ∈ sets, s.Built table) → (Results.empty least removal).offerAll sets = .ok r →
        ∃ r₁ r₂, (p.shortcut c path).foldlM (Growth.accept table) r = .ok r₁ ∧
          (p.recursion c).foldlM (Growth.accept table) r = .ok r₂ ∧ r₁.kept = r₂.kept) ∧
      ((p.shortcut c path).map fun o => IdSet.ofList o.members).Nodup ∧
      (c.removeSubsumed = false →
        (∀ o ∈ p.shortcut c path, ∃ x, .ofList o.members = p.stem.union x ∧ Deepest path x o.count) ∧
        (∀ x, (∃ i, i ∈ x) → (∀ i ∈ x, i ∈ path.map (·.1)) →
          ∃ o ∈ p.shortcut c path, .ofList o.members = p.stem.union x ∧ Deepest path x o.count) ∧
        path.length < 64 ∧
        (pathOffers c path).map some = (List.range' 1 (2 ^ path.length - 1)).map (maskOffer? path)) ∧
      (c.removeSubsumed = true → ∀ o, o ∈ p.shortcut c path ↔
        ∃ a i n b, path = a ++ (i, n) :: b ∧ b.head?.all (·.2 < n) = true ∧
          o = ⟨p.stem.toList ++ (a.map (·.1) ++ [i]), n, true⟩) := by
  intro table data p hvisited path h hlen
  have hd : data.Agrees table := DataSet.agrees_ofSheet sheet d
  obtain ⟨ps, hp⟩ := (shows_ofDataSet data hmin).visited hmin p hvisited
  refine ⟨fun hsingle => ?_, fun sets r hbuilt hoffers => ?_, hp.nodup_shortcut h, fun hkeep => ?_,
    fun hremove o => ?_⟩
  · have hpath := path?_eq_some hsingle h hlen
    exact ⟨visited_eq_singleton hpath, offers_eq_shortcut hpath⟩
  · obtain ⟨seen, hseen, hkeeps⟩ := (Results.keeps_empty least removal).of_offerAll
      (fun _ h => absurd h List.not_mem_nil) (fun s hs => (hbuilt s hs).faithful) hoffers
    exact hp.kept_eq hd hmin hle hrem h hlen hseen hkeeps
  · refine ⟨fun o ho => ?_, fun x hx hpath => hp.exists_choice_offer h hkeep hx hpath, ?_,
      pathOffers_eq_masks hkeep path⟩
    · obtain ⟨f, hf, rfl⟩ := mem_shortcut.1 ho
      exact ⟨_, ofList_stem_append p f, deepest_offer hf⟩
    · exact length_lt_of_path? (c := direct c) (path?_eq_some rfl h hlen) hkeep
  · simp only [mem_shortcut, pathOffers, if_pos hremove, mem_runs, List.nil_append]
    refine ⟨?_, ?_⟩
    · rintro ⟨-, ⟨a, i, n, b, heq, hend, rfl⟩, rfl⟩
      exact ⟨a, i, n, b, heq, hend, rfl⟩
    · rintro ⟨a, i, n, b, heq, hend, rfl⟩
      exact ⟨_, ⟨a, i, n, b, heq, hend, rfl⟩, rfl⟩

theorem transactions_threeRules : (DataSet.ofSheet threeRules (.ofSheet threeRules) 2).transactions =
    [⟨0, .ofList [0, 1]⟩, ⟨1, .ofList [0, 1]⟩, ⟨2, .ofList [0]⟩] := by
  simp only [DataSet.ofSheet, DataSet.itemsOf, ItemTable.find?, items_eq_threeRules]
  rfl

theorem singlePath_threeRules :
    (Projection.ofDataSet (.ofSheet threeRules (.ofSheet threeRules) 2) 2).tree.singlePath? =
      some [(0, 3), (1, 2)] := by
  rw [Projection.ofDataSet, transactions_threeRules]
  rfl

open Projection in
theorem shortcut_replaces_recursion_threeRules :
    let table := ItemTable.ofSheet threeRules
    let p := ofDataSet (.ofSheet threeRules table 2) Config.default.minSupport
    1 ≤ Config.default.minSupport ∧ 2 ≤ Config.default.minSupport ∧ p ∈ p.visited .default ∧
      p.tree.singlePath? = some [(0, 3), (1, 2)] ∧ enumerable .default 2 = true ∧
      (∃ r₁ r₂, (p.shortcut .default [(0, 3), (1, 2)]).foldlM (Growth.accept table) (.empty 2 true) = .ok r₁ ∧
        (p.recursion .default).foldlM (Growth.accept table) (.empty 2 true) = .ok r₂ ∧ r₁.kept = r₂.kept) ∧
      ⟨[0], 3, true⟩ ∈ p.shortcut .default [(0, 3), (1, 2)] := by
  intro table p
  have hmin : 1 ≤ Config.default.minSupport := by decide
  have hle : 2 ≤ Config.default.minSupport := by decide
  have hvisited : p ∈ p.visited .default := mem_visited_self p .default
  have hpath : p.tree.singlePath? = some [(0, 3), (1, 2)] := singlePath_threeRules
  have hlen : enumerable .default 2 = true := by decide
  obtain ⟨-, hkept, -, -, hruns⟩ :=
    shortcut_replaces_recursion threeRules .default 2 2 true hmin hle (fun _ => rfl) p hvisited _ hpath hlen
  refine ⟨hmin, hle, hvisited, hpath, hlen, ?_, ?_⟩
  · exact hkept [] _ (fun _ h => absurd h List.not_mem_nil) rfl
  · exact (hruns rfl _).2 ⟨[], 0, 3, [(1, 2)], rfl, by decide, rfl⟩

end StyleMiner
