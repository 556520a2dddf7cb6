import StyleMiner.Mining.Levelwise
import StyleMiner.Proofs.CommonSupport
import StyleMiner.Proofs.ResultLists

/-! Joining the sets of a level. In the order of members, sets of one size that agree on all but their
last members stand together, so a set finds all its partners right after it. The joins then come out
in that order too, each once. -/

namespace StyleMiner

namespace IdSet

variable {s t u : IdSet} {a b : List Nat} {x y : Nat}

theorem compare_append (h : a.length = b.length) (c d : List Nat) :
    compare (a ++ c) (b ++ d) = (compare a b).then (compare c d) := by
  induction a generalizing b with
  | nil =>
    obtain rfl := List.eq_nil_of_length_eq_zero h.symm
    rfl
  | cons x a ih =>
    cases b with
    | nil => cases h
    | cons y b =>
      rw [List.cons_append, List.cons_append, List.compare_cons_cons, List.compare_cons_cons,
        ih (Nat.succ.inj h), Ordering.then_assoc]

theorem compare_append_self (a c d : List Nat) : compare (a ++ c) (a ++ d) = compare c d := by
  rw [compare_append rfl, Std.ReflOrd.compare_self]
  rfl

theorem compare_singleton : compare [x] [y] = .lt ↔ x < y := by
  rw [List.compare_cons_cons, Std.ReflOrd.compare_self (a := ([] : List Nat)), Ordering.then_eq]
  exact Nat.compare_eq_lt

theorem exists_last {k : Nat} (h : s.size = k) (hk : 0 < k) :
    ∃ a x, s.toList = a ++ [x] ∧ a.length + 1 = k := by
  subst h
  obtain hnil | ⟨a, x, hs⟩ := s.toList.eq_nil_or_concat'
  · rw [size, hnil] at hk
    exact absurd hk (Nat.lt_irrefl _)
  · refine ⟨a, x, hs, ?_⟩
    rw [size, hs, List.length_append, List.length_singleton]

theorem last_greatest (h : s.toList = a ++ [x]) : ∀ y ∈ a, y < x := by
  have hasc := s.ascending
  rw [h] at hasc
  intro y hy
  exact (List.pairwise_append.1 hasc).2.2 y hy x List.mem_cons_self

theorem toList_insert (h : ∀ y ∈ s, y < x) : (s.insert x).toList = s.toList ++ [x] := by
  have hasc : (s.toList ++ [x]).Pairwise (· < ·) := by
    refine List.pairwise_append.2 ⟨s.ascending, List.pairwise_singleton _ _, fun y hy z hz => ?_⟩
    rw [List.mem_singleton.1 hz]
    exact h y hy
  have heq : s.insert x = ⟨s.toList ++ [x], hasc⟩ := IdSet.ext fun y => by
    rw [mem_insert, mem_def, mem_def, List.mem_append, List.mem_singleton]
    exact or_comm
  rw [heq]

end IdSet

/-- In a list where `p` holds before each place where it holds, what it holds of stands first. -/
theorem mem_takeWhile_of_pairwise {α : Type} {R : α → α → Prop} {p : α → Bool} {xs : List α} {x : α}
    (hxs : xs.Pairwise R) (hp : ∀ x ∈ xs, ∀ y ∈ xs, R x y → p y = true → p x = true) :
    x ∈ xs.takeWhile p ↔ x ∈ xs ∧ p x = true := by
  induction xs with
  | nil => simp
  | cons y ys ih =>
    obtain ⟨hy, hys⟩ := List.pairwise_cons.1 hxs
    have hrest := ih hys fun a ha b hb => hp a (List.mem_cons_of_mem _ ha) b (List.mem_cons_of_mem _ hb)
    by_cases hpy : p y = true
    · rw [List.takeWhile_cons_of_pos hpy, List.mem_cons, hrest, List.mem_cons]
      refine ⟨?_, ?_⟩
      · intro h
        rcases h with rfl | ⟨h, hpx⟩
        · exact ⟨.inl rfl, hpy⟩
        · exact ⟨.inr h, hpx⟩
      · intro ⟨h, hpx⟩
        exact h.imp_right fun h => ⟨h, hpx⟩
    · rw [List.takeWhile_cons_of_neg hpy]
      refine ⟨fun h => absurd h List.not_mem_nil, ?_⟩
      intro ⟨h, hpx⟩
      rcases List.mem_cons.1 h with rfl | h
      · exact absurd hpx hpy
      · exact absurd (hp y List.mem_cons_self x (List.mem_cons_of_mem _ h) (hy x h) hpx) hpy

namespace Levelwise

variable {table : ItemTable} {k : Nat} {level rest : List ItemSet} {s t u : ItemSet} {i j : ItemId}
  {stem : List ItemId}

/-- a level: sets of one size in strict order that carry their supports -/
structure IsLevel (table : ItemTable) (k : Nat) (level : List ItemSet) : Prop where
  sorted : level.Pairwise ItemSet.Precedes
  sized : ∀ s ∈ level, s.size = k
  faithful : ∀ s ∈ level, s.Faithful table

theorem IsLevel.tail (hl : IsLevel table k (s :: rest)) : IsLevel table k rest :=
  ⟨(List.pairwise_cons.1 hl.sorted).2, fun t ht => hl.sized t (List.mem_cons_of_mem _ ht),
    fun t ht => hl.faithful t (List.mem_cons_of_mem _ ht)⟩

theorem joins_iff (hs : s.size = k) (ht : t.size = k) (hk : 0 < k) :
    joins s t = true ↔
      ∃ stem i j, s.items.toList = stem ++ [i] ∧ t.items.toList = stem ++ [j] := by
  obtain ⟨a, i, ha, hsize⟩ := IdSet.exists_last hs hk
  obtain ⟨b, j, hb, hsize'⟩ := IdSet.exists_last ht hk
  have hlen : a.length = b.length := by omega
  have hjoins : joins s t = true ↔ a <+: b ++ [j] := by
    unfold joins
    rw [ha, hb, List.dropLast_concat, List.isPrefixOf_iff_prefix]
  rw [hjoins]
  refine ⟨?_, ?_⟩
  · intro h
    have hab := List.prefix_of_prefix_length_le h (List.prefix_append b [j]) (Nat.le_of_eq hlen)
    obtain rfl := hab.eq_of_length hlen
    exact ⟨a, i, j, ha, hb⟩
  · intro ⟨stem, i', j', hsi, htj⟩
    obtain ⟨rfl, -⟩ := List.append_inj' (ha.symm.trans hsi) rfl
    rw [← hb, htj]
    exact List.prefix_append _ _

theorem precedes_iff_lt (hs : s.items.toList = stem ++ [i]) (ht : t.items.toList = stem ++ [j]) :
    s.Precedes t ↔ i < j := by
  rw [ItemSet.precedes_def, IdSet.compare_def, hs, ht, IdSet.compare_append_self,
    IdSet.compare_singleton]

/-- Between two sets that agree on all but their last members stand only others that do. -/
theorem joins_between (hs : s.size = k) (ht : t.size = k) (hu : u.size = k) (hk : 0 < k)
    (hst : s.Precedes t) (htu : t.Precedes u) (h : joins s u = true) : joins s t = true := by
  obtain ⟨a, i, j, hsi, huj⟩ := (joins_iff hs hu hk).1 h
  obtain ⟨b, y, hty, hsize⟩ := IdSet.exists_last ht hk
  have hlen : a.length = b.length := by
    have hs' : (a ++ [i]).length = k := hsi ▸ hs
    rw [List.length_append, List.length_singleton] at hs'
    omega
  rw [ItemSet.precedes_def, IdSet.compare_def, hsi, hty, IdSet.compare_append hlen,
    Ordering.then_eq_lt] at hst
  rw [ItemSet.precedes_def, IdSet.compare_def, hty, huj, IdSet.compare_append hlen.symm,
    Ordering.then_eq_lt] at htu
  have hab : a = b := by
    rcases hst with hlt | ⟨heq, -⟩
    · rcases htu with hlt' | ⟨heq', -⟩
      · have hself := Std.TransCmp.lt_trans hlt hlt'
        rw [Std.ReflOrd.compare_self] at hself
        cases hself
      · exact (Std.LawfulEqOrd.eq_of_compare heq').symm
    · exact Std.LawfulEqOrd.eq_of_compare heq
  subst hab
  exact (joins_iff hs ht hk).2 ⟨a, i, y, hsi, hty⟩

theorem mem_partners (hl : IsLevel table k (s :: rest)) (hk : 0 < k) :
    t ∈ rest.takeWhile (joins s) ↔ t ∈ rest ∧ joins s t = true := by
  have hs := hl.sized s List.mem_cons_self
  refine mem_takeWhile_of_pairwise hl.tail.sorted fun x hx y hy hxy h => ?_
  exact joins_between hs (hl.tail.sized x hx) (hl.tail.sized y hy) hk
    ((List.pairwise_cons.1 hl.sorted).1 x hx) hxy h

theorem partners_sorted (hl : IsLevel table k (s :: rest)) (hk : 0 < k) :
    ((rest.takeWhile (joins s)).filterMap (·.items.toList.getLast?)).Pairwise (· < ·) := by
  rw [List.pairwise_filterMap]
  refine (hl.tail.sorted.sublist (List.takeWhile_sublist _)).imp_of_mem ?_
  intro t u ht hu htu x hx y hy
  obtain ⟨ht, hst⟩ := (mem_partners hl hk).1 ht
  obtain ⟨hu, hsu⟩ := (mem_partners hl hk).1 hu
  have hs := hl.sized s List.mem_cons_self
  obtain ⟨a, i, x', hsi, htx⟩ := (joins_iff hs (hl.tail.sized t ht) hk).1 hst
  obtain ⟨b, j, y', hsj, huy⟩ := (joins_iff hs (hl.tail.sized u hu) hk).1 hsu
  obtain ⟨rfl, -⟩ := List.append_inj' (hsi.symm.trans hsj) rfl
  rw [htx, List.getLast?_concat] at hx
  rw [huy, List.getLast?_concat] at hy
  obtain rfl := Option.some.inj hx
  obtain rfl := Option.some.inj hy
  exact (precedes_iff_lt htx huy).1 htu

theorem pairs_cons : (s, i) ∈ pairs (t :: rest) ↔
    (s = t ∧ ∃ u ∈ rest.takeWhile (joins t), u.items.toList.getLast? = some i) ∨ (s, i) ∈ pairs rest := by
  rw [pairs, List.mem_append, List.mem_map]
  refine or_congr_left ⟨?_, ?_⟩
  · intro ⟨j, hj, heq⟩
    obtain ⟨rfl, rfl⟩ := Prod.mk.inj heq
    exact ⟨rfl, List.mem_filterMap.1 hj⟩
  · intro ⟨hst, hu⟩
    exact ⟨i, List.mem_filterMap.2 hu, by rw [hst]⟩

theorem mem_pairs (hl : IsLevel table k level) (hk : 0 < k) :
    (s, i) ∈ pairs level ↔ s ∈ level ∧ ∃ t ∈ level, ∃ stem j,
      s.items.toList = stem ++ [j] ∧ t.items.toList = stem ++ [i] ∧ j < i := by
  induction level with
  | nil => simp [pairs]
  | cons t rest ih =>
    have hfirst := (List.pairwise_cons.1 hl.sorted).1
    rw [pairs_cons, ih hl.tail]
    refine ⟨?_, ?_⟩
    · intro h
      rcases h with ⟨rfl, u, hu, hlast⟩ | ⟨hs, u, hu, h⟩
      · obtain ⟨hu, hjoin⟩ := (mem_partners hl hk).1 hu
        obtain ⟨stem, j, i', hsj, hui⟩ := (joins_iff (hl.sized s List.mem_cons_self)
          (hl.tail.sized u hu) hk).1 hjoin
        rw [hui, List.getLast?_concat] at hlast
        obtain rfl := Option.some.inj hlast
        have hlt := (precedes_iff_lt hsj hui).1 (hfirst u hu)
        exact ⟨List.mem_cons_self, u, List.mem_cons_of_mem _ hu, stem, j, hsj, hui, hlt⟩
      · exact ⟨List.mem_cons_of_mem _ hs, u, List.mem_cons_of_mem _ hu, h⟩
    · intro ⟨hs, u, hu, stem, j, hsj, hui, hlt⟩
      have hsu := (precedes_iff_lt hsj hui).2 hlt
      have hirrefl := Std.Irrefl.irrefl (r := ItemSet.Precedes)
      rcases List.mem_cons.1 hs with rfl | hsr
      · rcases List.mem_cons.1 hu with rfl | hu
        · exact absurd hsu (hirrefl u)
        · have hjoin := (joins_iff (hl.sized s List.mem_cons_self) (hl.tail.sized u hu) hk).2
            ⟨stem, j, i, hsj, hui⟩
          refine .inl ⟨rfl, u, (mem_partners hl hk).2 ⟨hu, hjoin⟩, ?_⟩
          rw [hui, List.getLast?_concat]
      · rcases List.mem_cons.1 hu with rfl | hu
        · exact absurd (hsu.trans (hfirst s hsr)) (hirrefl s)
        · exact .inr ⟨hsr, u, hu, stem, j, hsj, hui, hlt⟩

/-- the set that a pair joins to -/
def joined (table : ItemTable) (p : ItemSet × ItemId) : ItemSet :=
  ⟨p.1.items.insert p.2, table.common (p.1.items.insert p.2)⟩

theorem toList_joined (hl : IsLevel table k level) (hk : 0 < k) (h : (s, i) ∈ pairs level) :
    (joined table (s, i)).items.toList = s.items.toList ++ [i] := by
  obtain ⟨-, t, ht, stem, j, hsj, hti, hlt⟩ := (mem_pairs hl hk).1 h
  refine IdSet.toList_insert fun y hy => ?_
  rw [IdSet.mem_def, hsj, List.mem_append, List.mem_singleton] at hy
  rcases hy with hy | rfl
  · exact Nat.lt_trans (IdSet.last_greatest hsj y hy) hlt
  · exact hlt

/-- The joins come out in strict order. -/
theorem joined_sorted (hl : IsLevel table k level) (hk : 0 < k) :
    ((pairs level).map (joined table)).Pairwise ItemSet.Precedes := by
  suffices h : (pairs level).Pairwise fun p q =>
      compare (p.1.items.toList ++ [p.2]) (q.1.items.toList ++ [q.2]) = .lt by
    refine List.pairwise_map.2 (h.imp_of_mem fun {p q} hp hq hpq => ?_)
    rw [ItemSet.precedes_def, IdSet.compare_def, toList_joined hl hk hp, toList_joined hl hk hq]
    exact hpq
  induction level with
  | nil => exact List.Pairwise.nil
  | cons s rest ih =>
    refine List.pairwise_append.2 ⟨?_, ih hl.tail, fun p hp q hq => ?_⟩
    · refine List.pairwise_map.2 ((partners_sorted hl hk).imp fun {i j} hij => ?_)
      rw [IdSet.compare_append_self, IdSet.compare_singleton]
      exact hij
    · obtain ⟨i, -, rfl⟩ := List.mem_map.1 hp
      have hmem := ((mem_pairs hl.tail hk (s := q.1) (i := q.2)).1 hq).1
      have hsq := (List.pairwise_cons.1 hl.sorted).1 q.1 hmem
      have hlen : s.items.toList.length = q.1.items.toList.length :=
        (hl.sized s List.mem_cons_self).trans (hl.tail.sized q.1 hmem).symm
      rw [ItemSet.precedes_def, IdSet.compare_def] at hsq
      rw [IdSet.compare_append hlen, Ordering.then_eq_lt]
      exact .inl hsq

end Levelwise
end StyleMiner
