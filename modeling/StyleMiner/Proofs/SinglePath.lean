import StyleMiner.Mining.Growth
import StyleMiner.Proofs.SharedPaths

/-! A tree that is a single path. All transactions with an item of the path have the items above it,
so a choice of its items is shared by as many as its deepest item alone; the counts fall along the
path. Hence each combination is counted by its deepest node, and above each combination the run
that ends where the count next drops is shared by as many. -/

namespace StyleMiner

namespace Forest

variable {t : Forest} {path : List (ItemId × Nat)} {parent : Nat} {above : List ItemId} {i : ItemId}
  {n : Nat}

theorem map_nodes_of_path (h : t.path? = some path) :
    (t.nodes parent above).map (fun x => (x.item, x.count)) = path := by
  induction t generalizing path parent above with
  | nil => obtain rfl := Option.some.inj h; rfl
  | node id item count children siblings ihc _ =>
    cases siblings with
    | node => simp [path?, isNil] at h
    | nil =>
      obtain ⟨rest, hrest, rfl⟩ := Option.map_eq_some_iff.1 (by simpa [path?, isNil] using h)
      simp [nodes, ihc hrest]

theorem above_of_path (h : t.path? = some path) {x : ForestNode} (hx : x ∈ t.nodes parent above) :
    ∃ a b, path = a ++ (x.item, x.count) :: b ∧ x.above = above ++ a.map (·.1) := by
  induction t generalizing path parent above with
  | nil => exact absurd hx List.not_mem_nil
  | node id item count children siblings ihc _ =>
    cases siblings with
    | node => simp [path?, isNil] at h
    | nil =>
      obtain ⟨rest, hrest, rfl⟩ := Option.map_eq_some_iff.1 (by simpa [path?, isNil] using h)
      simp only [nodes, List.append_nil, List.mem_cons] at hx
      rcases hx with rfl | hx
      · exact ⟨[], rest, rfl, by simp⟩
      · obtain ⟨a, b, rfl, habove⟩ := ihc hrest hx
        exact ⟨(item, count) :: a, b, rfl, by simp [habove]⟩

theorem exists_node_of_path (parent : Nat) (above : List ItemId) {a b : List (ItemId × Nat)}
    (h : t.path? = some (a ++ (i, n) :: b)) :
    ∃ x ∈ t.nodes parent above, x.item = i ∧ x.count = n ∧ x.above = above ++ a.map (·.1) := by
  induction t generalizing a parent above with
  | nil => simp [path?] at h
  | node id item count children siblings ihc _ =>
    cases siblings with
    | node => simp [path?, isNil] at h
    | nil =>
      obtain ⟨rest, hrest, heq⟩ := Option.map_eq_some_iff.1 (by simpa [path?, isNil] using h)
      cases a with
      | nil =>
        obtain ⟨hpair, -⟩ := List.cons.inj heq
        obtain ⟨rfl, rfl⟩ := Prod.mk.inj hpair
        exact ⟨_, List.mem_cons_self, rfl, rfl, by simp⟩
      | cons p a =>
        obtain ⟨rfl, rfl⟩ := List.cons.inj heq
        obtain ⟨x, hx, hitem, hcount, habove⟩ := ihc id (above ++ [item]) hrest
        exact ⟨x, List.mem_cons_of_mem _ (List.mem_append_left _ hx), hitem, hcount, by simp [habove]⟩

end Forest

namespace PrefixTree.Represents

open WeightedPath

variable {t : PrefixTree} {ps : List WeightedPath} {path a b : List (ItemId × Nat)} {i : ItemId} {n : Nat}
  {x : IdSet}
variable (ht : t.Represents ps) (hasc : ∀ p ∈ ps, p.items.Pairwise (· < ·))
include ht hasc

/-- The items of a single path ascend. -/
theorem path_ascending (h : t.singlePath? = some path) : (path.map (·.1)).Pairwise (· < ·) := by
  obtain rfl | ⟨a, ⟨i, n⟩, rfl⟩ := path.eq_nil_or_concat'
  · exact List.Pairwise.nil
  · obtain ⟨y, hy, rfl, -, habove⟩ := Forest.exists_node_of_path 0 [] h
    obtain ⟨p, hp, r, heq⟩ := ht.exists_path hy
    have hsub : (a.map (·.1) ++ [y.item]).Sublist p.items := by
      rw [heq, habove]
      exact List.Sublist.append_left (List.Sublist.cons_cons _ (List.nil_sublist r)) _
    rw [List.map_append]
    exact (hasc p hp).sublist hsub

theorem items_of_path (h : t.singlePath? = some (a ++ (i, n) :: b)) {p : WeightedPath} (hp : p ∈ ps)
    (hi : i ∈ p.items) : ∃ r, p.items = a.map (·.1) ++ i :: r := by
  have hnodup := (ht.path_ascending hasc h).imp Nat.ne_of_lt
  obtain ⟨q, r, heq⟩ := List.append_of_mem hi
  obtain ⟨y, hy, habove, rfl⟩ := ht.exists_node hp heq
  obtain ⟨a', b', hpath, hq⟩ := Forest.above_of_path h hy
  have hmap : a.map (·.1) ++ y.item :: b.map (·.1) = a'.map (·.1) ++ y.item :: b'.map (·.1) := by
    simpa using congrArg (List.map (·.1)) hpath
  have hsplit : a.map (·.1) = a'.map (·.1) := by
    rw [List.map_append, List.map_cons] at hnodup
    have htake {u v : List ItemId} (huv : (u ++ y.item :: v).Nodup) :
        (u ++ y.item :: v).takeWhile (· ≠ y.item) = u := by
      have hnot : ∀ k ∈ u, k ≠ y.item := fun k hk =>
        (List.nodup_append.1 huv).2.2 k hk _ List.mem_cons_self
      rw [List.takeWhile_append_of_pos fun k hk => decide_eq_true (hnot k hk),
        List.takeWhile_cons_of_neg (by simp), List.append_nil]
    rw [← htake hnodup, hmap, htake (hmap ▸ hnodup)]
  exact ⟨r, by rw [heq, hsplit, ← habove, hq, List.nil_append]⟩

omit hasc in
theorem item_mem_path (h : t.singlePath? = some path) {p : WeightedPath} (hp : p ∈ ps)
    (hi : i ∈ p.items) : i ∈ path.map (·.1) := by
  obtain ⟨q, r, heq⟩ := List.append_of_mem hi
  obtain ⟨y, hy, -, rfl⟩ := ht.exists_node hp heq
  rw [← Forest.map_nodes_of_path h, List.map_map]
  exact List.mem_map_of_mem hy

omit hasc in
theorem exists_path_of_mem (h : t.singlePath? = some path) (hi : i ∈ path.map (·.1)) :
    ∃ p ∈ ps, i ∈ p.items := by
  obtain ⟨⟨j, n⟩, hj, rfl⟩ := List.mem_map.1 hi
  obtain ⟨a, b, rfl⟩ := List.append_of_mem hj
  obtain ⟨y, hy, rfl, -, -⟩ := Forest.exists_node_of_path 0 [] h
  obtain ⟨p, hp, r, heq⟩ := ht.exists_path hy
  exact ⟨p, hp, by simp [heq]⟩

theorem occurrences_path (h : t.singlePath? = some (a ++ (i, n) :: b)) : occurrences ps i = n := by
  have hnodup := (ht.path_ascending hasc h).imp Nat.ne_of_lt
  rw [List.map_append, List.map_cons] at hnodup
  have hfilter : (a ++ (i, n) :: b).filter (·.1 == i) = [(i, n)] := by
    have ha : a.filter (·.1 == i) = [] := List.filter_eq_nil_iff.2 fun k hk => by
      simpa using (List.nodup_append.1 hnodup).2.2 k.1 (List.mem_map_of_mem hk) i List.mem_cons_self
    have hb : b.filter (·.1 == i) = [] := List.filter_eq_nil_iff.2 fun k hk => by
      have hnot := (List.nodup_cons.1 (List.nodup_append.1 hnodup).2.1).1
      simpa using fun heq : k.1 = i => hnot (heq ▸ List.mem_map_of_mem (f := (·.1)) hk)
    simp [ha, hb]
  rw [← ht.itemCount_eq, itemCount, ← List.sum_eq_foldr]
  have hnodes : (t.nodes.filter (·.item == i)).map (·.count) =
      ((t.nodes.map fun x => (x.item, x.count)).filter (·.1 == i)).map (·.2) := by
    rw [List.filter_map, List.map_map]
    rfl
  rw [hnodes, nodes, Forest.map_nodes_of_path h, hfilter]
  rfl

/-- A choice of items of the path is shared by as many as its deepest item. -/
theorem share_path (h : t.singlePath? = some (a ++ (i, n) :: b)) (hi : i ∈ x)
    (hx : ∀ j ∈ x, j = i ∨ j ∈ a.map (·.1)) : share ps x = n := by
  rw [← ht.occurrences_path hasc h, ← share_singleton]
  refine share_congr fun p hp => ⟨fun hall j hj => ?_, fun hall j hj => ?_⟩
  · rcases IdSet.mem_insert.1 hj with rfl | hj
    · exact hall j hi
    · exact absurd hj IdSet.not_mem_empty
  · have hip := hall i (IdSet.mem_insert.2 (.inl rfl))
    obtain ⟨r, heq⟩ := ht.items_of_path hasc h hp hip
    rcases hx j hj with rfl | hj
    · exact hip
    · rw [heq]
      exact List.mem_append_left _ hj

/-- Counts never rise along the path. -/
theorem count_le_of_path {j : ItemId} {k : Nat} {c : List (ItemId × Nat)}
    (h : t.singlePath? = some (a ++ (i, n) :: (j, k) :: c)) : k ≤ n := by
  have hnext : t.singlePath? = some ((a ++ [(i, n)]) ++ (j, k) :: c) := by simpa using h
  have hn := ht.share_path hasc h (x := .ofList (a.map (·.1) ++ [i])) (by simp [IdSet.mem_ofList])
    (by simp [IdSet.mem_ofList, or_comm])
  have hk := ht.share_path hasc hnext (x := .ofList (a.map (·.1) ++ [i] ++ [j]))
    (by simp [IdSet.mem_ofList]) fun y hy => by
      simp only [IdSet.mem_ofList, List.mem_append, List.mem_singleton, List.map_append, List.map_cons,
        List.map_nil] at hy ⊢
      tauto
  rw [← hn, ← hk]
  refine share_anti fun y hy => ?_
  rw [IdSet.mem_ofList] at hy ⊢
  exact List.mem_append_left _ hy

end PrefixTree.Represents
end StyleMiner
