import Mathlib.Data.Set.Card
import Mathlib.Logic.Relation
import StyleMiner.Mining.Worklist
import StyleMiner.Proofs.Closures
import StyleMiner.Proofs.Shortcut

/-! Growing sets repeats nothing. A projection holds only items that rank before its stem, so the stem of
a follower is an item and then the stem, and what stems from a projection ends in its stem. Hence two
followers share no stem and no offer, and no projection is taken up and no set offered twice. Each stem
but the first was offered before, so the loop takes up one projection more than there are sets to offer,
at most. -/

namespace StyleMiner

namespace IdSet

variable {s x : IdSet} {i : Nat}

theorem toList_union_of_lt (h : ∀ i ∈ x, ∀ j ∈ s, i < j) : (s.union x).toList = x.toList ++ s.toList := by
  have hasc : (x.toList ++ s.toList).Pairwise (· < ·) := List.pairwise_append.2 ⟨x.ascending, s.ascending, h⟩
  refine congrArg toList (ext (t := ⟨_, hasc⟩) fun i => ?_)
  rw [mem_union, mem_def (s := ⟨_, hasc⟩), List.mem_append, or_comm]
  rfl

theorem toList_insert_of_lt (h : ∀ j ∈ s, i < j) : (s.insert i).toList = i :: s.toList := by
  have hasc : (i :: s.toList).Pairwise (· < ·) := List.pairwise_cons.2 ⟨h, s.ascending⟩
  refine congrArg toList (ext (t := ⟨_, hasc⟩) fun j => ?_)
  rw [mem_insert, mem_def (s := ⟨_, hasc⟩), List.mem_cons]
  rfl

theorem ofList_snoc (s : IdSet) (i : Nat) : ofList (s.toList ++ [i]) = s.insert i :=
  ext fun j => by rw [mem_ofList, mem_insert, List.mem_append, List.mem_singleton, or_comm, mem_def]

theorem toList_injective : Function.Injective toList := fun s t h =>
  ext fun i => by rw [mem_def, mem_def, h]

end IdSet

namespace Projection

open WeightedPath

variable {data : DataSet} {p q : Projection} {ps : List WeightedPath} {c : Config} {o : Offer} {i : ItemId}

theorem exists_offer_of_follower (hq : q ∈ p.followers c) :
    ∃ o ∈ p.offers c, IdSet.ofList o.members = q.stem := by
  obtain ⟨hpath, -, i, hi, rfl⟩ := mem_followers.1 hq
  exact ⟨_, (mem_offers_of_none hpath).2 ⟨i, hi, rfl⟩, IdSet.ofList_snoc p.stem i⟩

namespace Shows

theorem lt_of_mem_header (hp : p.Shows data c.minSupport ps) (hi : i ∈ p.tree.header) :
    ∀ j ∈ p.stem, i < j := by
  obtain ⟨r, hr, hir⟩ := (hp.represents.mem_header i).1 hi
  exact hp.below r hr i hir

theorem toList_insert_stem (hp : p.Shows data c.minSupport ps) (hi : i ∈ p.frequent c.minSupport) :
    (p.stem.insert i).toList = i :: p.stem.toList :=
  IdSet.toList_insert_of_lt (hp.lt_of_mem_header (List.mem_filter.1 hi).1)

theorem stem_follower (hp : p.Shows data c.minSupport ps) (hq : q ∈ p.followers c) :
    ∃ i, q.stem.toList = i :: p.stem.toList := by
  obtain ⟨-, -, i, hi, rfl⟩ := mem_followers.1 hq
  exact ⟨i, hp.toList_insert_stem hi⟩

theorem length_follower (hp : p.Shows data c.minSupport ps) (hq : q ∈ p.followers c) :
    q.stem.toList.length = p.stem.toList.length + 1 := by
  obtain ⟨i, hi⟩ := hp.stem_follower hq
  rw [hi, List.length_cons]

theorem nodup_insert_stem (hp : p.Shows data c.minSupport ps) :
    ((p.frequent c.minSupport).map fun i => p.stem.insert i).Nodup := by
  have hfrequent : (p.frequent c.minSupport).Nodup := (p.tree.header.ascending.imp Nat.ne_of_lt).filter _
  refine hfrequent.map_on fun i hi j hj heq => ?_
  have hlist := congrArg IdSet.toList heq
  rw [hp.toList_insert_stem hi, hp.toList_insert_stem hj] at hlist
  exact (List.cons.inj hlist).1

theorem nodup_followers (hp : p.Shows data c.minSupport ps) : ((p.followers c).map (·.stem)).Nodup := by
  rw [followers]
  split
  · exact List.nodup_nil
  · have hsub := (List.filter_sublist (p := (!·.tree.isEmpty))
      (l := (p.frequent c.minSupport).map (p.extend c.minSupport))).map (·.stem)
    rw [List.map_map] at hsub
    exact hp.nodup_insert_stem.sublist hsub

/-- Where all that comes of a follower ends in the follower's stem, different followers have nothing in
common. -/
theorem nodup_flatMap_followers {α : Type} {f : Projection → List α} {key : α → IdSet}
    (hp : p.Shows data c.minSupport ps) (hnodup : ∀ q ∈ p.followers c, ((f q).map key).Nodup)
    (hend : ∀ q ∈ p.followers c, ∀ a ∈ f q, q.stem.toList <:+ (key a).toList) :
    (((p.followers c).flatMap f).map key).Nodup := by
  rw [List.map_flatMap, List.nodup_flatMap]
  refine ⟨hnodup, (List.pairwise_map.1 hp.nodup_followers).imp_of_mem fun {q q'} hq hq' hne => ?_⟩
  simp only [Function.onFun, List.disjoint_left, List.mem_map, not_exists, not_and]
  intro k hk a' ha' heq
  obtain ⟨a, ha, rfl⟩ := hk
  have hlength := (hp.length_follower hq).trans (hp.length_follower hq').symm
  have hsuffix := List.suffix_of_suffix_length_le (hend q hq a ha) (heq ▸ hend q' hq' a' ha')
    (Nat.le_of_eq hlength)
  exact hne (IdSet.toList_injective (hsuffix.eq_of_length hlength))

theorem stem_suffix (hpos : 0 < c.minSupport) (hp : p.Shows data c.minSupport ps) :
    ∀ q ∈ p.visited c, p.stem.toList <:+ q.stem.toList := by
  induction p using follow_induction c generalizing ps with
  | h p ih =>
    intro q hq
    rcases mem_visited.1 hq with rfl | ⟨f, hf, hq⟩
    · exact List.suffix_refl _
    · obtain ⟨fs, hfs⟩ := hp.follower hpos hf
      obtain ⟨i, hstem⟩ := hp.stem_follower hf
      have hrest := ih f hf hfs q hq
      rw [hstem] at hrest
      exact (List.suffix_cons i _).trans hrest

/-- No projection is visited twice. -/
theorem nodup_visited (hpos : 0 < c.minSupport) (hp : p.Shows data c.minSupport ps) :
    ((p.visited c).map (·.stem)).Nodup := by
  induction p using follow_induction c generalizing ps with
  | h p ih =>
    have hend : ∀ f ∈ p.followers c, ∀ q ∈ f.visited c, f.stem.toList <:+ q.stem.toList := by
      intro f hf
      obtain ⟨fs, hfs⟩ := hp.follower hpos hf
      exact hfs.stem_suffix hpos
    rw [visited_eq, List.map_cons, List.nodup_cons]
    refine ⟨fun hmem => ?_, hp.nodup_flatMap_followers (fun f hf => ?_) hend⟩
    · obtain ⟨q, hq, heq⟩ := List.mem_map.1 hmem
      obtain ⟨f, hf, hq⟩ := List.mem_flatMap.1 hq
      have hle := (hend f hf q hq).length_le
      rw [heq, hp.length_follower hf] at hle
      exact Nat.not_succ_le_self _ hle
    · obtain ⟨fs, hfs⟩ := hp.follower hpos hf
      exact ih f hf hfs

theorem exists_offer_append (hpos : 0 < c.minSupport) (hp : p.Shows data c.minSupport ps)
    (ho : o ∈ (p.visited c).flatMap (offers c)) :
    ∃ l, l ≠ [] ∧ (IdSet.ofList o.members).toList = l ++ p.stem.toList := by
  obtain ⟨q, hq, ho⟩ := List.mem_flatMap.1 ho
  obtain ⟨x, hx, hlow, hmem⟩ := hp.exists_below hpos q hq o ho
  obtain ⟨i, hi⟩ := hx
  exact ⟨x.toList, List.ne_nil_of_mem hi, hmem ▸ IdSet.toList_union_of_lt hlow⟩

/-- The offers of one projection differ, and where it has followers, they have an item more than its stem. -/
theorem nodup_offers (hp : p.Shows data c.minSupport ps) :
    ((p.offers c).map fun o => IdSet.ofList o.members).Nodup := by
  cases hpath : p.path? c with
  | some path =>
    rw [offers_eq_shortcut hpath]
    exact hp.nodup_shortcut (singlePath_of_path? hpath)
  | none =>
    have hsets : ((p.offers c).map fun o => IdSet.ofList o.members) =
        ((p.frequent c.minSupport).map fun i => p.stem.insert i).reverse := by
      simp only [offers, hpath, List.map_map, List.map_reverse, Function.comp_def, IdSet.ofList_snoc]
    rw [hsets, List.nodup_reverse]
    exact hp.nodup_insert_stem

theorem length_offer_of_follower (hp : p.Shows data c.minSupport ps) (hq : q ∈ p.followers c)
    (ho : o ∈ p.offers c) : (IdSet.ofList o.members).toList.length = p.stem.toList.length + 1 := by
  obtain ⟨hpath, -⟩ := mem_followers.1 hq
  obtain ⟨i, hi, rfl⟩ := (mem_offers_of_none hpath).1 ho
  rw [IdSet.ofList_snoc, hp.toList_insert_stem hi, List.length_cons]

/-- No set is offered twice. -/
theorem nodup_offers_visited (hpos : 0 < c.minSupport) (hp : p.Shows data c.minSupport ps) :
    (((p.visited c).flatMap (offers c)).map fun o => IdSet.ofList o.members).Nodup := by
  induction p using follow_induction c generalizing ps with
  | h p ih =>
    have happend : ∀ f ∈ p.followers c, ∀ o ∈ (f.visited c).flatMap (offers c),
        ∃ l, l ≠ [] ∧ (IdSet.ofList o.members).toList = l ++ f.stem.toList := by
      intro f hf o ho
      obtain ⟨fs, hfs⟩ := hp.follower hpos hf
      exact hfs.exists_offer_append hpos ho
    rw [visited_eq, List.flatMap_cons, List.map_append, List.flatMap_assoc, List.nodup_append]
    refine ⟨hp.nodup_offers, hp.nodup_flatMap_followers (fun f hf => ?_) (fun f hf o ho => ?_),
      fun x hx y hy heq => ?_⟩
    · obtain ⟨fs, hfs⟩ := hp.follower hpos hf
      exact ih f hf hfs
    · obtain ⟨l, -, hl⟩ := happend f hf o ho
      exact hl ▸ List.suffix_append l _
    · obtain ⟨o, ho, rfl⟩ := List.mem_map.1 hx
      obtain ⟨o', ho', rfl⟩ := List.mem_map.1 hy
      obtain ⟨f, hf, ho'⟩ := List.mem_flatMap.1 ho'
      obtain ⟨l, hne, hl⟩ := happend f hf o' ho'
      have hlength := congrArg List.length hl
      rw [← heq, hp.length_offer_of_follower hf ho, List.length_append, hp.length_follower hf] at hlength
      have hpositive := List.length_pos_iff.2 hne
      omega

end Shows
end Projection

namespace ItemTable

theorem finite_shares (t : ItemTable) (m : Nat) : {x | t.Shares m x}.Finite := by
  have hinj : Function.Injective fun x : IdSet => x.toList.toFinset := by
    intro x y h
    refine IdSet.ext fun i => ?_
    rw [IdSet.mem_def, IdSet.mem_def, ← List.mem_toFinset, ← List.mem_toFinset]
    exact Finset.ext_iff.1 h i
  refine ((Finset.range t.size).powerset.finite_toSet.preimage hinj.injOn).subset fun x hx => ?_
  rw [Set.mem_preimage, Finset.mem_coe, Finset.mem_powerset]
  intro i hi
  exact Finset.mem_range.2 (hx.2.1 i (List.mem_toFinset.1 hi))

end ItemTable

namespace Work

/-- whether one step of the loop leads from one place to another -/
def Steps (table : ItemTable) (c : Config) (w w' : Work) : Prop := w.step? table c = .ok (some w')

/-- how the loop stands that began with `first`: what was taken up, then what the pending projections
lead to, is what the recursion visits; the offers are those of what was taken up, and went through; and
each projection but the first follows from one that was taken up -/
structure Sound (table : ItemTable) (c : Config) (first : Projection) (r : Results) (w : Work) : Prop where
  visited_eq : w.taken ++ w.pending.flatMap (Projection.visited c) = first.visited c
  offered_eq : w.offered = w.taken.flatMap (Projection.offers c)
  accepted : w.offered.foldlM (Growth.accept table) r = .ok w.results
  followed : ∀ q ∈ w.taken ++ w.pending, q = first ∨ ∃ p ∈ w.taken, q ∈ p.followers c

variable {data : DataSet} {table : ItemTable} {c : Config} {first : Projection} {r : Results} {w w' : Work}

theorem sound_start (table : ItemTable) (data : DataSet) (c : Config) (r : Results) :
    Sound table c (.ofDataSet data c.minSupport) r (start data c r) :=
  ⟨by simp [start], rfl, rfl, fun q hq => .inl (by simpa [start] using hq)⟩

theorem steps_iff : Steps table c w w' ↔ ∃ p rest r, w.pending = p :: rest ∧
    (p.offers c).foldlM (Growth.accept table) w.results = .ok r ∧
    w' = ⟨p.followers c ++ rest, w.taken ++ [p], w.offered ++ p.offers c, r⟩ := by
  obtain ⟨pending, taken, offered, results⟩ := w
  cases pending with
  | nil => simp [Steps, step?, pure, Except.pure]
  | cons p rest =>
    rw [Steps, step?_cons]
    cases h : (p.offers c).foldlM (Growth.accept table) results with
    | error e => simp [Except.map, h]
    | ok r => simp [Except.map, h, eq_comm]

theorem Sound.step (hw : Sound table c first r w) (h : Steps table c w w') : Sound table c first r w' := by
  obtain ⟨p, rest, r', hpending, hr', rfl⟩ := steps_iff.1 h
  refine ⟨?_, ?_, ?_, fun q hq => ?_⟩
  · rw [← hw.visited_eq, hpending, Projection.flatMap_visited_cons, List.append_assoc]
    rfl
  · simp [hw.offered_eq]
  · rw [List.foldlM_append, hw.accepted]
    exact hr'
  · have hq' : q ∈ w.taken ++ w.pending ∨ q ∈ p.followers c := by
      simp only [List.mem_append, hpending, List.mem_cons] at hq ⊢
      tauto
    rcases hq' with hq' | hq'
    · refine (hw.followed q hq').imp_right fun ⟨p', hp', hfollows⟩ => ?_
      exact ⟨p', List.mem_append_left _ hp', hfollows⟩
    · exact .inr ⟨p, List.mem_append_right _ List.mem_cons_self, hq'⟩

theorem Sound.reaches (hw : Sound table c first r w) (h : Relation.ReflTransGen (Steps table c) w w') :
    Sound table c first r w' := by
  induction h with
  | refl => exact hw
  | tail _ hstep ih => exact ih.step hstep

/-- The loop makes the offers of what is left to visit, and fails where that fails. The induction is on
what is left, the first of which is on top of the stack. -/
theorem run_eq {pending todo : List Projection} (htodo : pending.flatMap (Projection.visited c) = todo)
    (taken : List Projection) (offered : List Offer) (r : Results) :
    run table c ⟨pending, taken, offered, r⟩ =
      ((todo.flatMap (Projection.offers c)).foldlM (Growth.accept table) r).map fun r =>
        ⟨[], taken ++ todo, offered ++ todo.flatMap (Projection.offers c), r⟩ := by
  induction todo generalizing pending taken offered r with
  | nil =>
    cases pending with
    | nil => simp [run_nil, pure, Except.pure, Except.map]
    | cons p rest =>
      rw [Projection.flatMap_visited_cons] at htodo
      cases htodo
  | cons q todo ih =>
    cases pending with
    | nil => cases htodo
    | cons p rest =>
      rw [Projection.flatMap_visited_cons] at htodo
      obtain ⟨rfl, hrest⟩ := List.cons.inj htodo
      rw [run_cons, List.flatMap_cons, List.foldlM_append]
      cases (p.offers c).foldlM (Growth.accept table) r with
      | error e => rfl
      | ok r' => exact (ih hrest _ _ _).trans (by simp [bind, Except.bind])

theorem run_start (table : ItemTable) (data : DataSet) (c : Config) (r : Results) :
    (start data c r).run table c = (Growth.mine data table c r).map fun r =>
      ⟨[], (Projection.ofDataSet data c.minSupport).visited c, Growth.offers data c, r⟩ :=
  run_eq (List.flatMap_singleton _ _) [] [] r

theorem eq_of_run_start (h : (start data c r).run table c = .ok w) :
    w.taken = (Projection.ofDataSet data c.minSupport).visited c ∧ w.offered = Growth.offers data c := by
  rw [run_start] at h
  cases hr : Growth.mine data table c r with
  | error e =>
    rw [hr] at h
    cases h
  | ok r' =>
    rw [hr] at h
    obtain rfl := Except.ok.inj h
    exact ⟨rfl, rfl⟩

theorem reaches_of_run (h : w.run table c = .ok w') : Relation.ReflTransGen (Steps table c) w w' := by
  induction w using run.induct table c with
  | case1 w fault hstep =>
    rw [run_eq_bind, hstep] at h
    cases h
  | case2 w hstep =>
    rw [run_eq_bind, hstep] at h
    obtain rfl := Except.ok.inj h
    exact .refl
  | case3 w next hstep ih =>
    rw [run_eq_bind, hstep] at h
    exact .head hstep (ih h)

namespace Sound

variable (hw : Sound table c first r w)
include hw

/-- A place of the loop is on the way that the recursion goes. -/
theorem sublist : (w.taken ++ w.pending).Sublist (first.visited c) := by
  rw [← hw.visited_eq]
  refine List.Sublist.append_left ?_ _
  induction w.pending with
  | nil => exact List.Sublist.slnil
  | cons p rest ih =>
    rw [List.flatMap_cons, Projection.visited_eq, List.cons_append]
    exact (ih.trans (List.sublist_append_right _ _)).cons_cons p

theorem mem_visited {q : Projection} (hq : q ∈ w.taken) : q ∈ first.visited c :=
  hw.sublist.subset (List.mem_append_left _ hq)

/-- Each stem but the first was offered by then. -/
theorem offered_before : ∀ q ∈ w.taken ++ w.pending,
    q = first ∨ ∃ o ∈ w.offered, IdSet.ofList o.members = q.stem := by
  intro q hq
  refine (hw.followed q hq).imp_right fun ⟨p, hp, hfollows⟩ => ?_
  obtain ⟨o, ho, heq⟩ := Projection.exists_offer_of_follower hfollows
  rw [hw.offered_eq]
  exact ⟨o, List.mem_flatMap.2 ⟨p, hp, ho⟩, heq⟩

theorem nodup_offered {ps : List WeightedPath} (hpos : 0 < c.minSupport)
    (hfirst : first.Shows data c.minSupport ps) :
    (w.offered.map fun o => IdSet.ofList o.members).Nodup := by
  have hnodup := hfirst.nodup_offers_visited hpos
  rw [← hw.visited_eq, List.flatMap_append, List.map_append, ← hw.offered_eq] at hnodup
  exact hnodup.of_append_left

end Sound

/-- One projection more is taken up than there are sets to offer, at most. -/
theorem Sound.length_taken_le (hd : data.Agrees table) (hpos : 0 < c.minSupport)
    (hw : Sound table c (.ofDataSet data c.minSupport) r w) :
    w.taken.length ≤ 1 + {x | table.Shares c.minSupport x}.ncard := by
  have hfirst := Projection.shows_ofDataSet data hpos
  have hnodup : (w.taken.map (·.stem)).Nodup :=
    (hfirst.nodup_visited hpos).sublist (((List.sublist_append_left _ _).trans hw.sublist).map _)
  have hstems : ∀ q ∈ w.taken, q.stem = .empty ∨ table.Shares c.minSupport q.stem := by
    intro q hq
    refine (hw.offered_before q (List.mem_append_left _ hq)).imp (congrArg Projection.stem) fun ⟨o, ho, heq⟩ => ?_
    rw [hw.offered_eq] at ho
    obtain ⟨p, hp, ho⟩ := List.mem_flatMap.1 ho
    have hsound := Growth.offers_sound hpos (List.mem_flatMap.2 ⟨p, hw.mem_visited hp, ho⟩)
    obtain ⟨hhas, hcount⟩ := hd.of_frequent hpos hsound.frequent
    exact heq ▸ ⟨hsound.frequent.1, hhas, hcount ▸ hsound.frequent.2⟩
  have hsub : ((w.taken.map (·.stem)).toFinset : Set IdSet) ⊆
      insert .empty {x | table.Shares c.minSupport x} := by
    intro x hx
    obtain ⟨q, hq, rfl⟩ := List.mem_map.1 (List.mem_toFinset.1 hx)
    exact hstems q hq
  calc w.taken.length = (w.taken.map (·.stem)).toFinset.card := by
        rw [List.toFinset_card_of_nodup hnodup, List.length_map]
    _ = ((w.taken.map (·.stem)).toFinset : Set IdSet).ncard := (Set.ncard_coe_finset _).symm
    _ ≤ (insert .empty {x | table.Shares c.minSupport x}).ncard :=
        Set.ncard_le_ncard hsub ((table.finite_shares c.minSupport).insert _)
    _ ≤ 1 + {x | table.Shares c.minSupport x}.ncard := Nat.add_comm .. ▸ Set.ncard_insert_le _ _

/-- The loop ends, and it repeats nothing. It does what the recursion does, with any results; with empty
ones it goes through to where nothing is pending. Wherever it stands, the offers it made are those that
the results took in; each projection it came by holds only items that rank before its stem; no stem comes
twice, and each but the first one's was offered before; no set was offered twice; and one projection more
was taken up than there are sets to offer, at most. -/
theorem loop_repeats_nothing (sheet : Stylesheet) (c : Config) (d least : Nat) (removal : Bool)
    (hmin : 1 ≤ c.minSupport) (hle : least ≤ c.minSupport) :
    let table := ItemTable.ofSheet sheet
    let data := DataSet.ofSheet sheet table d
    (∀ r, ((start data c r).run table c).map (·.results) = Growth.mine data table c r) ∧
      (∃ w, (start data c (.empty least removal)).run table c = .ok w ∧ w.pending = [] ∧
        Relation.ReflTransGen (Steps table c) (start data c (.empty least removal)) w) ∧
      {x | table.Shares c.minSupport x}.Finite ∧
      ∀ r w, Relation.ReflTransGen (Steps table c) (start data c r) w →
        w.offered.foldlM (Growth.accept table) r = .ok w.results ∧
        (∀ p ∈ w.taken ++ w.pending, ∀ i ∈ p.tree.header, ∀ j ∈ p.stem, i < j) ∧
        ((w.taken ++ w.pending).map (·.stem)).Nodup ∧
        (∀ p ∈ w.taken ++ w.pending, p = .ofDataSet data c.minSupport ∨
          ∃ o ∈ w.offered, IdSet.ofList o.members = p.stem) ∧
        (w.offered.map fun o => IdSet.ofList o.members).Nodup ∧
        w.taken.length ≤ 1 + {x | table.Shares c.minSupport x}.ncard := by
  intro table data
  have hd : data.Agrees table := DataSet.agrees_ofSheet sheet d
  have hfirst := Projection.shows_ofDataSet data hmin
  refine ⟨fun r => ?_, ?_, table.finite_shares c.minSupport, fun r w hreach => ?_⟩
  · rw [run_start]
    cases Growth.mine data table c r <;> rfl
  · obtain ⟨⟨r, hr⟩, -⟩ := mining_never_faults sheet c d least removal hle
    have hrun := run_start table data c (.empty least removal)
    rw [hr] at hrun
    exact ⟨_, hrun, rfl, reaches_of_run hrun⟩
  · have hw := (sound_start table data c r).reaches hreach
    refine ⟨hw.accepted, fun p hp i hi => ?_, ?_, hw.offered_before, hw.nodup_offered hmin hfirst,
      hw.length_taken_le hd hmin⟩
    · obtain ⟨ps, hshows⟩ := hfirst.visited hmin p (hw.sublist.subset hp)
      exact hshows.lt_of_mem_header hi
    · exact (hfirst.nodup_visited hmin).sublist (hw.sublist.map _)

/-- The single path of these rules is recursed into here. -/
theorem loop_repeats_nothing_threeRules :
    let table := ItemTable.ofSheet threeRules
    let data := DataSet.ofSheet threeRules table 2
    let c : Config := ⟨2, false, false⟩
    1 ≤ c.minSupport ∧ 2 ≤ c.minSupport ∧
      ∃ w, (start data c (.empty 2 false)).run table c = .ok w ∧
        w.taken.map (·.stem) = [.empty, .ofList [1]] ∧ w.offered.map (·.members) = [[1], [0], [1, 0]] ∧
        ((w.taken ++ w.pending).map (·.stem)).Nodup ∧
        w.taken.length ≤ 1 + {x | table.Shares c.minSupport x}.ncard := by
  intro table data c
  have hmin : 1 ≤ c.minSupport := by decide
  have hle : 2 ≤ c.minSupport := by decide
  obtain ⟨-, ⟨w, hw, -, hreach⟩, -, hplaces⟩ := loop_repeats_nothing threeRules c 2 2 false hmin hle
  obtain ⟨-, -, hstems, -, -, hlength⟩ := hplaces _ w hreach
  obtain ⟨htaken, hoffered⟩ := eq_of_run_start hw
  have hdata : DataSet.ofSheet threeRules (.ofSheet threeRules) 2 =
      ⟨[⟨0, .ofList [0, 1]⟩, ⟨1, .ofList [0, 1]⟩, ⟨2, .ofList [0]⟩]⟩ :=
    congrArg DataSet.mk transactions_threeRules
  rw [hdata] at htaken hoffered
  refine ⟨hmin, hle, w, hw, ?_, ?_, hstems, hlength⟩
  · rw [htaken]
    cbv
  · rw [hoffered]
    cbv

end Work
end StyleMiner
