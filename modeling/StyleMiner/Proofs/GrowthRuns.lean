import StyleMiner.Proofs.MinedSets
import StyleMiner.Proofs.Offers

/-! A run of growing sets is exact. Every projection that it visits counts as the transactions do, so
each offer has the support that its count says and is accepted; and the offers exhaust the
transactions, so what the run keeps is decided by them alone. -/

namespace StyleMiner

namespace Projection

open WeightedPath

variable {data : DataSet} {minimum : Nat} {p q : Projection} {ps : List WeightedPath} {x : IdSet} {i : ItemId}
  {c : Config} {o : Offer}

theorem ofList_stem_append (p : Projection) (f : Offer) :
    IdSet.ofList (p.stem.toList ++ f.members) = p.stem.union (.ofList f.members) := by
  rw [IdSet.ofList_append, IdSet.ofList_toList]

theorem mem_offers : o ∈ p.offers c ↔
    ∃ f, (match p.path? c with
      | some path => f ∈ pathOffers c path
      | none => ∃ i ∈ p.frequent c.minSupport, f = ⟨[i], p.tree.itemCount i, false⟩) ∧
      o = { f with members := p.stem.toList ++ f.members } := by
  unfold offers
  cases p.path? c with
  | some path => simp only [List.mem_map, eq_comm]
  | none => simp only [List.mem_map, List.mem_reverse, eq_comm]

theorem mem_offers_of_none (hpath : p.path? c = none) :
    o ∈ p.offers c ↔
      ∃ i ∈ p.frequent c.minSupport, o = ⟨p.stem.toList ++ [i], p.tree.itemCount i, false⟩ := by
  simp only [offers, hpath, List.map_map, List.mem_map, List.mem_reverse, Function.comp_apply, eq_comm]

theorem singlePath_of_path? {path : List (ItemId × Nat)} (h : p.path? c = some path) :
    p.tree.singlePath? = some path := by
  unfold path? at h
  split at h
  · exact (Option.filter_eq_some_iff.1 h).1
  · cases h

theorem mem_followers : q ∈ p.followers c ↔ p.path? c = none ∧ q.tree.isEmpty = false ∧
    ∃ i ∈ p.frequent c.minSupport, p.extend c.minSupport i = q := by
  rw [followers]
  split
  · next h => simp [Option.isSome_iff_ne_none.1 h]
  · next h => simp [Option.not_isSome_iff_eq_none.1 h, and_comm]

/-- A property of projections that each has from its followers holds of all of them. -/
theorem follow_induction (c : Config) {motive : Projection → Prop}
    (h : ∀ p, (∀ q ∈ p.followers c, motive q) → motive p) (p : Projection) : motive p := by
  induction p using Projection.visited.induct c with
  | case1 p ih =>
    refine h p fun q hq => ?_
    obtain ⟨-, hne, i, -, rfl⟩ := mem_followers.1 hq
    exact ih i (by simpa [extend] using hne)

theorem mem_visited : q ∈ p.visited c ↔ q = p ∨ ∃ f ∈ p.followers c, q ∈ f.visited c := by
  rw [visited_eq, List.mem_cons, List.mem_flatMap]

theorem mem_visited_self (p : Projection) (c : Config) : p ∈ p.visited c := mem_visited.2 (.inl rfl)

namespace Shows

theorem offers_sound (hp : p.Shows data c.minSupport ps) (hpos : 0 < c.minSupport) (ho : o ∈ p.offers c) :
    o.Sound data c.minSupport := by
  obtain ⟨f, hf, rfl⟩ := mem_offers.1 ho
  have hmem := p.ofList_stem_append f
  cases hpath : p.path? c with
  | some path =>
    rw [hpath] at hf
    obtain ⟨hshare, hmin⟩ := hp.share_pathOffer (singlePath_of_path? hpath) hf
    obtain ⟨a, i, b, -, hi, -⟩ := deepest_of_mem_pathOffers hf
    exact hp.sound ⟨i, IdSet.mem_ofList.2 hi⟩ (hshare ▸ hmin) hmem hshare.symm
  | none =>
    rw [hpath] at hf
    obtain ⟨i, hi, rfl⟩ := hf
    have hshare : share ps (.ofList [i]) = occurrences ps i := share_singleton
    have hmin := (hp.mem_frequent hpos).1 hi
    exact hp.sound ⟨i, IdSet.mem_ofList.2 List.mem_cons_self⟩ (hshare ▸ hmin) hmem
      ((hp.represents.itemCount_eq i).trans hshare.symm)

/-- A follower counts as the transactions do, and so does every projection of a run. -/
theorem follower (hp : p.Shows data c.minSupport ps) (hpos : 0 < c.minSupport) (hq : q ∈ p.followers c) :
    ∃ qs, q.Shows data c.minSupport qs := by
  obtain ⟨-, -, i, hi, rfl⟩ := mem_followers.1 hq
  exact ⟨_, hp.extend hpos ((hp.mem_frequent hpos).1 hi)⟩

theorem visited (hp : p.Shows data c.minSupport ps) (hpos : 0 < c.minSupport) :
    ∀ q ∈ p.visited c, ∃ qs, q.Shows data c.minSupport qs := by
  induction p using follow_induction c generalizing ps with
  | h p ih =>
    intro q hq
    rcases mem_visited.1 hq with rfl | ⟨f, hf, hq⟩
    · exact ⟨ps, hp⟩
    · obtain ⟨fs, hfs⟩ := hp.follower hpos hf
      exact ih f hf hfs q hq

theorem not_isEmpty (hp : p.Shows data minimum ps) (hx : ∃ j, j ∈ x) (hpos : 0 < share ps x) :
    ¬ p.tree.isEmpty = true := by
  intro hnil
  obtain ⟨r, hr, hall⟩ := (share_pos hp.represents.path_pos).1 hpos
  obtain ⟨j, hj⟩ := hx
  obtain ⟨a, b, heq⟩ := List.append_of_mem (hall j hj)
  obtain ⟨y, hy, -⟩ := hp.represents.exists_node hr heq
  have hforest : p.tree.forest = .nil := by
    cases hf : p.tree.forest with
    | nil => rfl
    | node => simp [PrefixTree.isEmpty, hf, Forest.isNil] at hnil
  have hnodes : p.tree.nodes = [] := congrArg (Forest.nodes 0 []) hforest
  rw [hnodes] at hy
  exact absurd hy List.not_mem_nil

theorem share_extend (hp : p.Shows data minimum ps) (hx : ∃ j, j ∈ x) (hlow : ∀ j ∈ x.toList, j < i)
    (hmin : minimum ≤ share ps (x.insert i)) :
    share (pruned (p.tree.conditionalBase i) minimum) x = share ps (x.insert i) := by
  have hbase := hp.share_conditionalBase (i := i) hx
  rw [if_pos hlow] at hbase
  rw [share_pruned_eq (hbase ▸ hmin), hbase]

theorem exists_offer_path (hp : p.Shows data c.minSupport ps) (hpos : 0 < c.minSupport)
    {path : List (ItemId × Nat)} (hpath : p.path? c = some path) (hx : ∃ j, j ∈ x)
    (hmin : c.minSupport ≤ share ps x) :
    ∃ o ∈ p.offers c, p.stem.union x ⊆ .ofList o.members ∧ o.count = share ps x ∧
      (c.removeSubsumed = false → .ofList o.members = p.stem.union x) := by
  have hsingle := singlePath_of_path? hpath
  obtain ⟨r, hr, hall⟩ := (share_pos hp.represents.path_pos).1 (Nat.lt_of_lt_of_le hpos hmin)
  have hitems : ∀ j ∈ x, j ∈ path.map (·.1) := by
    intro j hj
    exact hp.represents.item_mem_path hsingle hr (hall j hj)
  obtain ⟨f, hf, hsub, hcount, hsame⟩ := hp.exists_pathOffer hsingle hx hitems
  refine ⟨_, mem_offers.2 ⟨f, by rwa [hpath], rfl⟩, ?_, hcount, fun h => ?_⟩
  · rw [p.ofList_stem_append]
    exact IdSet.union_subset_union_left hsub
  · rw [p.ofList_stem_append, hsame h]

theorem exists_offer_item (hp : p.Shows data c.minSupport ps) (hpath : p.path? c = none)
    (hi : i ∈ p.frequent c.minSupport) :
    ∃ o ∈ p.offers c, .ofList o.members = p.stem.union (.ofList [i]) ∧ o.count = share ps (.ofList [i]) := by
  refine ⟨_, (mem_offers_of_none hpath).2 ⟨i, hi, rfl⟩, p.ofList_stem_append ⟨[i], 0, false⟩, ?_⟩
  have hshare : share ps (.ofList [i]) = occurrences ps i := share_singleton
  exact (hp.represents.itemCount_eq i).trans hshare.symm

/-- Each set that enough transactions have is offered by one of the projections of a run, or a set
above it that as many have. -/
theorem exists_offer (hp : p.Shows data c.minSupport ps) (hpos : 0 < c.minSupport) (hx : ∃ j, j ∈ x)
    (hmin : c.minSupport ≤ share ps x) :
    ∃ q ∈ p.visited c, ∃ o ∈ q.offers c, p.stem.union x ⊆ .ofList o.members ∧ o.count = share ps x ∧
      (c.removeSubsumed = false → .ofList o.members = p.stem.union x) := by
  induction p using follow_induction c generalizing ps x with
  | h p ih =>
    cases hpath : p.path? c with
    | some path => exact ⟨p, mem_visited_self p c, hp.exists_offer_path hpos hpath hx hmin⟩
    | none =>
      obtain ⟨i, hi, hmax⟩ := IdSet.exists_greatest hx
      have hocc : c.minSupport ≤ occurrences ps i := Nat.le_trans hmin (share_le_occurrences hi)
      have hfreq : i ∈ p.frequent c.minSupport := (hp.mem_frequent hpos).2 hocc
      have hsplit := IdSet.insert_erase hi
      by_cases hrest : ∃ j, j ∈ x.erase i
      · -- the greatest item extends the stem, and the others are found in its projection
        have hlow : ∀ j ∈ (x.erase i).toList, j < i := by
          intro j hj
          obtain ⟨hj, hne⟩ := IdSet.mem_erase.1 hj
          exact Nat.lt_of_le_of_ne (hmax j hj) hne
        have hext := hp.extend hpos hocc
        have hshare := hp.share_extend hrest hlow (by rwa [hsplit])
        rw [hsplit] at hshare
        have hne := hext.not_isEmpty hrest (hshare ▸ Nat.lt_of_lt_of_le hpos hmin)
        have hf := mem_followers.2 ⟨hpath, Bool.eq_false_iff.2 hne, i, hfreq, rfl⟩
        obtain ⟨q, hq, o, ho, hsub, hcount, hsame⟩ := ih _ hf hext hrest (hshare ▸ hmin)
        have hunion : (p.extend c.minSupport i).stem.union (x.erase i) = p.stem.union x := by
          conv_rhs => rw [← hsplit, IdSet.union_insert]
          rfl
        rw [hunion] at hsub hsame
        exact ⟨q, mem_visited.2 (.inr ⟨_, hf, hq⟩), o, ho, hsub, hcount.trans hshare, hsame⟩
      · have hsame : IdSet.ofList [i] = x := by
          rw [← hsplit]
          refine IdSet.ext fun j => ?_
          rw [IdSet.mem_ofList, IdSet.mem_insert, List.mem_singleton]
          exact (or_iff_left fun hj => hrest ⟨j, hj⟩).symm
        obtain ⟨o, ho, hmembers, hcount⟩ := hp.exists_offer_item hpath hfreq
        rw [hsame] at hmembers hcount
        exact ⟨p, mem_visited_self p c, o, ho, hmembers ▸ IdSet.subset_refl _, hcount, fun _ => hmembers⟩

end Shows
end Projection

namespace Growth

variable {data : DataSet} {table : ItemTable} {c : Config} {o : Offer}

def offered (table : ItemTable) (o : Offer) : ItemSet :=
  ⟨.ofList o.members, table.common (.ofList o.members)⟩

theorem offers_sound (hpos : 0 < c.minSupport) (ho : o ∈ offers data c) : o.Sound data c.minSupport := by
  obtain ⟨q, hq, ho⟩ := List.mem_flatMap.1 ho
  obtain ⟨qs, hqs⟩ := (Projection.shows_ofDataSet data hpos).visited hpos q hq
  exact hqs.offers_sound hpos ho

/-- Above each frequent set a run offers one that is counted alike. -/
theorem exists_offer (hpos : 0 < c.minSupport) {x : IdSet} (hx : data.Frequent c.minSupport x) :
    ∃ o ∈ offers data c, x ⊆ .ofList o.members ∧ o.count = data.count x ∧
      (c.removeSubsumed = false → .ofList o.members = x) := by
  have hstart := Projection.shows_ofDataSet data hpos
  have hstem : (Projection.ofDataSet data c.minSupport).stem.union x = x := IdSet.empty_union x
  have hmin := hstart.complete x hx.1 (fun _ _ _ hj => absurd hj IdSet.not_mem_empty)
    (hstem.symm ▸ hx.2)
  obtain ⟨q, hq, o, ho, hsub, hcount, hsame⟩ := hstart.exists_offer hpos hx.1 hmin
  rw [hstart.share_eq x hx.1 hmin] at hcount
  rw [hstem] at hsub hcount hsame
  exact ⟨o, List.mem_flatMap.2 ⟨q, hq, ho⟩, hsub, hcount, hsame⟩

theorem foldlM_accept {os : List Offer} (hall : ∀ o ∈ os, ∀ r, accept table r o = r.offer (offered table o))
    (r : Results) : os.foldlM (accept table) r = r.offerAll (os.map (offered table)) := by
  rw [Results.offerAll, List.foldlM_map]
  induction os generalizing r with
  | nil => rfl
  | cons o os ih =>
    rw [List.foldlM_cons, List.foldlM_cons, hall o List.mem_cons_self]
    exact bind_congr fun r => ih (fun o ho => hall o (List.mem_cons_of_mem _ ho)) r

theorem offered_spec {minimum : Nat} (hd : data.Agrees table) (hpos : 0 < minimum)
    (ho : o.Sound data minimum) : (offered table o).Faithful table ∧ (offered table o).isEmpty = false ∧
      minimum ≤ (offered table o).support.size ∧
      ItemSet.ofIds table o.members = .ok (offered table o) ∧ (offered table o).support.size = o.count := by
  obtain ⟨hne, hmin⟩ := ho.frequent
  obtain ⟨hhas, hsize⟩ := hd.of_frequent hpos ho.frequent
  exact ⟨ItemSet.faithful_mk hhas, ItemSet.isEmpty_eq_false.2 hne, hsize ▸ hmin,
    ItemSet.ofIds_eq fun i hi => hhas i (IdSet.mem_ofList.2 hi), hsize.symm.trans ho.count_eq.symm⟩

theorem accept_eq {minimum : Nat} (hd : data.Agrees table) (hpos : 0 < minimum) (ho : o.Sound data minimum)
    (r : Results) : accept table r o = r.offer (offered table o) := by
  obtain ⟨-, -, -, hset, hsize⟩ := offered_spec hd hpos ho
  unfold accept
  rw [hset]
  exact if_pos hsize

/-- A run of growing sets leaves out no frequent set that matters. -/
theorem exists_offers (hd : data.Agrees table) (hpos : 0 < c.minSupport) :
    ∃ sets, (∀ r, mine data table c r = r.offerAll sets) ∧
      Exhausts data table c.minSupport c.removeSubsumed sets := by
  refine ⟨(offers data c).map (offered table), ?_, fun s hs => ?_, fun s hs => ?_, fun x hx => ?_⟩
  · exact foldlM_accept fun o ho => accept_eq hd hpos (offers_sound hpos ho)
  · obtain ⟨o, ho, rfl⟩ := List.mem_map.1 hs
    exact (offered_spec hd hpos (offers_sound hpos ho)).1
  · obtain ⟨o, ho, rfl⟩ := List.mem_map.1 hs
    exact (offers_sound hpos ho).frequent
  · obtain ⟨o, ho, hsub, hcount, hsame⟩ := exists_offer hpos hx
    obtain ⟨hfreq, hown⟩ := offers_sound hpos ho
    have hsize := (hd.of_frequent hpos hfreq).2
    have hsizex := (hd.of_frequent hpos hx).2
    refine ⟨offered table o, List.mem_map_of_mem ho, hsub, ?_, hsame⟩
    exact ItemTable.common_eq_of_size_eq hsub (by omega)

end Growth
end StyleMiner
