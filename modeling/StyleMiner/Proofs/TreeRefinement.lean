import Mathlib.Data.List.Dedup
import StyleMiner.Proofs.Inclusion
import StyleMiner.Proofs.PathTotals

/-! A prefix tree refines a plain list of weighted paths. Insertion appends to the list, and pruning
takes from every path of it the items that too few of its paths have. A tree stands for a list when
all totals over both agree; each step on both sides keeps that, so after any run the tree answers as
the list does: its items, their counts, the number of all paths, and the paths above an item. -/

namespace StyleMiner

/-- what is done to a tree -/
inductive TreeStep where
  | insert (items : List ItemId) (count : Nat)
  | prune (minimum : Nat)
  deriving DecidableEq, Repr

namespace TreeStep

/-- whether no item is inserted twice at once -/
def Distinct : TreeStep → Prop
  | insert items _ => items.Nodup
  | prune _ => True

instance : DecidablePred Distinct
  | insert items _ => inferInstanceAs (Decidable items.Nodup)
  | prune _ => inferInstanceAs (Decidable True)

/-- how many transactions a step adds -/
def count : TreeStep → Nat
  | insert _ count => count
  | prune _ => 0

end TreeStep

namespace WeightedPath

/-- how many transactions have an item -/
def occurrences (ps : List WeightedPath) (i : ItemId) : Nat :=
  ((ps.filter (i ∈ ·.items)).map (·.count)).sum

/-- the paths without the items that fewer than `minimum` transactions have -/
def pruned (ps : List WeightedPath) (minimum : Nat) : List WeightedPath :=
  ps.map fun p => ⟨p.items.filter (minimum ≤ occurrences ps ·), p.count⟩

/-- the paths that have an item, down to it; empty ones are left out -/
def baseOf (ps : List WeightedPath) (i : ItemId) : List WeightedPath :=
  ((ps.filter (i ∈ ·.items)).map fun p => ⟨p.items.takeWhile (· ≠ i), p.count⟩).filter
    (!·.items.isEmpty)

/-- equal paths made one, their counts added up -/
def addUp (ps : List WeightedPath) : List WeightedPath :=
  (ps.map (·.items)).dedup.map fun q => ⟨q, ((ps.filter (·.items == q)).map (·.count)).sum⟩

def step (ps : List WeightedPath) : TreeStep → List WeightedPath
  | .insert items count => if count = 0 then ps else ps ++ [⟨items, count⟩]
  | .prune minimum => pruned ps minimum

/-- the paths after a run from none on -/
def run (steps : List TreeStep) : List WeightedPath := steps.foldl step []

variable {ps ps' : List WeightedPath} {h : List ItemId → Nat} {i : ItemId}

theorem occurrences_le (ps : List WeightedPath) (i : ItemId) :
    occurrences ps i ≤ (ps.map (·.count)).sum :=
  (List.filter_sublist.map _).sum_le_sum fun _ _ => Nat.zero_le _

theorem sum_count_step (ps : List WeightedPath) (s : TreeStep) :
    ((step ps s).map (·.count)).sum = (ps.map (·.count)).sum + s.count := by
  cases s with
  | insert items count =>
    by_cases hc : count = 0
    · simp [step, TreeStep.count, hc]
    · simp [step, TreeStep.count, hc]
  | prune minimum =>
    rw [step, pruned, List.map_map]
    rfl

/-- The paths after a run count what its insertions counted. -/
theorem sum_count_run (steps : List TreeStep) :
    ((run steps).map (·.count)).sum = (steps.map (·.count)).sum := by
  suffices h : ∀ ps : List WeightedPath, ((steps.foldl step ps).map (·.count)).sum =
      (ps.map (·.count)).sum + (steps.map (·.count)).sum from
    (h []).trans (Nat.zero_add _)
  induction steps with
  | nil => exact fun _ => rfl
  | cons s steps ih =>
    intro ps
    rw [List.foldl_cons, ih, sum_count_step, List.map_cons, List.sum_cons, Nat.add_assoc]

theorem occurrences_eq (ps : List WeightedPath) (i : ItemId) :
    occurrences ps i = weigh (fun q => if i ∈ q then 1 else 0) ps := by
  have hsum := sum_count_filter ps fun q => decide (i ∈ q)
  simp only [decide_eq_true_eq] at hsum
  exact hsum

theorem weigh_pruned (minimum : Nat) :
    weigh h (pruned ps minimum) = weigh (fun q => h (q.filter (minimum ≤ occurrences ps ·))) ps :=
  weigh_map_items _

theorem weigh_baseOf :
    weigh h (baseOf ps i) = weigh (fun q => if i ∈ q then
      if (q.takeWhile (· ≠ i)).isEmpty then 0 else h (q.takeWhile (· ≠ i)) else 0) ps := by
  have hfilter := weigh_filter ps (fun q => decide (i ∈ q)) (h := fun q =>
    if (q.takeWhile (· ≠ i)).isEmpty then 0 else h (q.takeWhile (· ≠ i)))
  simp only [decide_eq_true_eq] at hfilter
  rw [← hfilter, baseOf, weigh_filter _ (fun q => !q.isEmpty), weigh_map_items]
  exact weigh_congr fun p _ => by cases (p.items.takeWhile (· ≠ i)).isEmpty <;> rfl

/-- Lists of counted paths that weigh the same path by path add up to the same. -/
theorem addUp_perm (hps : ∀ p ∈ ps, 0 < p.count) (hps' : ∀ p ∈ ps', 0 < p.count)
    (heq : ∀ h, weigh h ps = weigh h ps') : (addUp ps).Perm (addUp ps') := by
  have hcount (ps : List WeightedPath) (q : List ItemId) :
      ((ps.filter (·.items == q)).map (·.count)).sum = weigh (fun r => if r == q then 1 else 0) ps :=
    sum_count_filter ps (· == q)
  have hmem {ps : List WeightedPath} (hps : ∀ p ∈ ps, 0 < p.count) (q : List ItemId) :
      q ∈ ps.map (·.items) ↔ 0 < weigh (fun r => if r == q then 1 else 0) ps := by
    rw [weigh_pos hps, List.mem_map]
    refine exists_congr fun p => and_congr_right fun _ => ?_
    by_cases h : p.items = q <;> simp [h]
  have hkeys : (ps.map (·.items)).dedup.Perm (ps'.map (·.items)).dedup := by
    rw [List.perm_ext_iff_of_nodup (List.nodup_dedup _) (List.nodup_dedup _)]
    intro q
    rw [List.mem_dedup, List.mem_dedup, hmem hps, hmem hps', heq]
  have hvalues : (fun q => (⟨q, ((ps.filter (·.items == q)).map (·.count)).sum⟩ : WeightedPath)) =
      fun q => ⟨q, ((ps'.filter (·.items == q)).map (·.count)).sum⟩ := by
    funext q
    rw [hcount, hcount, heq]
  rw [addUp, addUp, hvalues]
  exact hkeys.map _

end WeightedPath

open WeightedPath

namespace PrefixTree

def step (t : PrefixTree) : TreeStep → PrefixTree
  | .insert items count => t.insert items count
  | .prune minimum => t.prune minimum

/-- the tree after a run from the empty one on -/
def run (steps : List TreeStep) : PrefixTree := steps.foldl step empty

variable {t : PrefixTree} {f : List ItemId → ItemId → Nat} {i : ItemId}

def total (f : List ItemId → ItemId → Nat) (t : PrefixTree) : Nat := t.forest.total f []

theorem sum_nodes : (t.nodes.map fun x => x.count * f x.above x.item).sum = t.total f :=
  Forest.sum_nodes 0

theorem itemCount_eq : t.itemCount i = t.total fun _ j => if j = i then 1 else 0 := by
  rw [itemCount, ← List.sum_eq_foldr, sum_map_filter, ← sum_nodes]
  simp only [mul_ite, mul_one, mul_zero, beq_iff_eq]

/-- The base of an item totals what stands above the item's nodes. -/
theorem weigh_conditionalBase {h : List ItemId → Nat} :
    weigh h (t.conditionalBase i) =
      t.total fun q j => if j = i then if q.isEmpty then 0 else h q else 0 := by
  have hperm : (t.chain i).Perm (t.nodes.filter (·.item == i)) := List.mergeSort_perm _ _
  rw [conditionalBase, weigh_filter _ (fun q => !q.isEmpty), weigh, List.map_map,
    (hperm.map _).sum_eq, sum_map_filter, ← sum_nodes]
  congr 1
  refine List.map_congr_left fun x _ => ?_
  by_cases hx : x.item = i <;> by_cases hq : x.above = [] <;> simp [hx, hq]

theorem conditionalBase_pos (h : ∀ x ∈ t.nodes, 0 < x.count) :
    ∀ p ∈ t.conditionalBase i, 0 < p.count := by
  intro p hp
  obtain ⟨x, hx, rfl⟩ := List.mem_map.1 (List.mem_filter.1 hp).1
  exact h x (List.mem_filter.1 (List.mem_mergeSort.1 hx)).1

theorem sum_conditionalBase_le (t : PrefixTree) (i : ItemId) :
    ((t.conditionalBase i).map (·.count)).sum ≤ t.itemCount i := by
  have hperm : (t.chain i).Perm (t.nodes.filter (·.item == i)) := List.mergeSort_perm _ _
  rw [itemCount, ← List.sum_eq_foldr, ← (hperm.map _).sum_eq]
  have hchain : ((t.chain i).map fun x => (⟨x.above, x.count⟩ : WeightedPath)).map (·.count) =
      (t.chain i).map (·.count) := List.map_map
  rw [← hchain]
  exact (List.filter_sublist.map _).sum_le_sum fun _ _ => Nat.zero_le _

/-- A tree stands for a list of paths: all totals agree, and nothing has the count zero. -/
structure Represents (t : PrefixTree) (ps : List WeightedPath) : Prop where
  total_eq : ∀ f, t.total f = weigh (stepTotal f []) ps
  count_eq : t.count = (ps.map (·.count)).sum
  node_pos : ∀ x ∈ t.nodes, 0 < x.count
  path_pos : ∀ p ∈ ps, 0 < p.count
  nodup : ∀ p ∈ ps, p.items.Nodup

theorem represents_empty : empty.Represents [] :=
  ⟨fun _ => rfl, rfl, fun _ h => (nomatch h), fun _ h => (nomatch h), fun _ h => nomatch h⟩

namespace Represents

variable {ps : List WeightedPath} (ht : t.Represents ps)
include ht

theorem insert {items : List ItemId} {count : Nat} (hn : items.Nodup) :
    (t.insert items count).Represents (WeightedPath.step ps (.insert items count)) := by
  unfold PrefixTree.insert WeightedPath.step
  by_cases hc : count = 0
  · simpa only [hc, ↓reduceIte] using ht
  have hpos : 0 < count := Nat.pos_of_ne_zero hc
  simp only [hc, ↓reduceIte]
  refine ⟨fun f => ?_, ?_, Forest.pos_insert hpos ht.node_pos, fun p hp => ?_, fun p hp => ?_⟩
  · rw [weigh_append, weigh_singleton, ← ht.total_eq]
    exact Forest.total_insert count t.fresh
  · simp [ht.count_eq]
  · rcases List.mem_append.1 hp with hp | hp
    · exact ht.path_pos p hp
    · rw [List.mem_singleton.1 hp]
      exact hpos
  · rcases List.mem_append.1 hp with hp | hp
    · exact ht.nodup p hp
    · rw [List.mem_singleton.1 hp]
      exact hn

theorem itemCount_eq (i : ItemId) : t.itemCount i = occurrences ps i := by
  rw [PrefixTree.itemCount_eq, ht.total_eq, occurrences_eq]
  refine weigh_congr fun p hp => ?_
  exact stepTotal_at (h := fun _ => 1) (ht.nodup p hp)

theorem prune (minimum : Nat) : (t.prune minimum).Represents (pruned ps minimum) := by
  have hkeep : (fun i => decide (minimum ≤ t.itemCount i)) = (minimum ≤ occurrences ps ·) := by
    funext i
    rw [ht.itemCount_eq]
  refine ⟨fun f => ?_, ?_, ?_, fun p hp => ?_, fun p hp => ?_⟩
  · unfold PrefixTree.prune
    rw [weigh_pruned, hkeep]
    refine (Forest.total_prune _ []).trans ((ht.total_eq _).trans ?_)
    exact weigh_congr fun p _ => (stepTotal_filter _ []).symm
  · rw [PrefixTree.prune, pruned, List.map_map]
    exact ht.count_eq
  · exact Forest.pos_prune _ ht.node_pos
  · obtain ⟨q, hq, rfl⟩ := List.mem_map.1 hp
    exact ht.path_pos q hq
  · obtain ⟨q, hq, rfl⟩ := List.mem_map.1 hp
    exact (ht.nodup q hq).filter _

theorem step {s : TreeStep} (hs : s.Distinct) : (t.step s).Represents (WeightedPath.step ps s) := by
  cases s with
  | insert items count => exact ht.insert hs
  | prune minimum => exact ht.prune minimum

theorem foldl {steps : List TreeStep} (hs : ∀ s ∈ steps, s.Distinct) :
    (steps.foldl PrefixTree.step t).Represents (steps.foldl WeightedPath.step ps) := by
  induction steps generalizing t ps with
  | nil => exact ht
  | cons s steps ih =>
    exact ih (ht.step (hs s List.mem_cons_self)) fun s' h => hs s' (List.mem_cons_of_mem _ h)

theorem weigh_conditionalBase (h : List ItemId → Nat) (i : ItemId) :
    weigh h (t.conditionalBase i) = weigh h (baseOf ps i) := by
  rw [PrefixTree.weigh_conditionalBase, ht.total_eq, weigh_baseOf]
  exact weigh_congr fun p hp => stepTotal_at (h := fun q => if q.isEmpty then 0 else h q)
    (ht.nodup p hp)

theorem itemCount_le (i : ItemId) : t.itemCount i ≤ t.count := by
  rw [ht.itemCount_eq, ht.count_eq]
  exact occurrences_le ps i

theorem node_le {x : ForestNode} (hx : x ∈ t.nodes) : x.count ≤ t.count := by
  refine Nat.le_trans ?_ (ht.itemCount_le x.item)
  rw [itemCount, ← List.sum_eq_foldr]
  exact List.le_sum_of_mem (List.mem_map_of_mem (List.mem_filter.2 ⟨hx, beq_self_eq_true _⟩))

theorem addUp_conditionalBase (i : ItemId) :
    (addUp (t.conditionalBase i)).Perm (addUp (baseOf ps i)) := by
  refine addUp_perm (conditionalBase_pos ht.node_pos) (fun p hp => ?_) fun h =>
    ht.weigh_conditionalBase h i
  obtain ⟨q, hq, rfl⟩ := List.mem_map.1 (List.mem_filter.1 hp).1
  exact ht.path_pos q (List.mem_filter.1 hq).1

/-- What stands on a path down to a node is the beginning of a path of the list. -/
theorem exists_path {x : ForestNode} (hx : x ∈ t.nodes) :
    ∃ p ∈ ps, ∃ r, p.items = x.above ++ x.item :: r := by
  have hpos : 0 < t.total fun q j => if q = x.above ∧ j = x.item then 1 else 0 := by
    rw [← sum_nodes]
    have hle : x.count * 1 ≤ (t.nodes.map fun y =>
        y.count * if y.above = x.above ∧ y.item = x.item then 1 else 0).sum :=
      List.le_sum_of_mem (List.mem_map.2 ⟨x, hx, by simp⟩)
    have := ht.node_pos x hx
    omega
  rw [ht.total_eq, weigh_pos ht.path_pos] at hpos
  obtain ⟨p, hp, hstep⟩ := hpos
  obtain ⟨q, i, r, heq, hqi⟩ := stepTotal_pos.1 hstep
  by_cases h : [] ++ q = x.above ∧ i = x.item
  · exact ⟨p, hp, r, by rw [heq, ← h.1, ← h.2, List.nil_append]⟩
  · rw [if_neg h] at hqi
    exact absurd hqi (Nat.lt_irrefl 0)

theorem conditionalBase_nodup {p : WeightedPath} (hp : p ∈ t.conditionalBase i) : p.items.Nodup := by
  obtain ⟨x, hx, rfl⟩ := List.mem_map.1 (List.mem_filter.1 hp).1
  obtain ⟨q, hq, r, heq⟩ := ht.exists_path (List.mem_filter.1 (List.mem_mergeSort.1 hx)).1
  exact (List.nodup_append.1 (heq ▸ ht.nodup q hq)).1

/-- Each step of a path of the list is that to a node. -/
theorem exists_node {p : WeightedPath} (hp : p ∈ ps) {q r : List ItemId} {i : ItemId}
    (heq : p.items = q ++ i :: r) : ∃ x ∈ t.nodes, x.above = q ∧ x.item = i := by
  by_contra hnone
  have hpos : 0 < t.total fun q' j => if q' = q ∧ j = i then 1 else 0 := by
    rw [ht.total_eq, weigh_pos ht.path_pos]
    exact ⟨p, hp, stepTotal_pos.2 ⟨q, i, r, heq, by simp⟩⟩
  have hzero : (t.nodes.map fun x => x.count * if x.above = q ∧ x.item = i then 1 else 0).sum = 0 := by
    refine List.sum_eq_zero_iff.2 fun n hn => ?_
    obtain ⟨x, hx, rfl⟩ := List.mem_map.1 hn
    rw [if_neg fun h => hnone ⟨x, hx, h⟩, Nat.mul_zero]
  rw [← sum_nodes, hzero] at hpos
  exact absurd hpos (Nat.lt_irrefl 0)

theorem mem_header (i : ItemId) : i ∈ t.header ↔ ∃ p ∈ ps, i ∈ p.items := by
  rw [header, IdSet.mem_ofList, List.mem_map]
  refine ⟨?_, ?_⟩
  · rintro ⟨x, hx, rfl⟩
    obtain ⟨p, hp, r, heq⟩ := ht.exists_path hx
    exact ⟨p, hp, by rw [heq]; simp⟩
  · rintro ⟨p, hp, hi⟩
    obtain ⟨q, r, heq⟩ := List.append_of_mem hi
    obtain ⟨x, hx, -, hitem⟩ := ht.exists_node hp heq
    exact ⟨x, hx, hitem⟩

end Represents

theorem represents_ofBase {base : List WeightedPath} (hpos : ∀ p ∈ base, 0 < p.count)
    (hn : ∀ p ∈ base, p.items.Nodup) : (ofBase base).Represents base := by
  have hstep (ps : List WeightedPath) {p : WeightedPath} (hp : p ∈ base) :
      WeightedPath.step ps (.insert p.items p.count) = ps ++ [p] :=
    if_neg (Nat.ne_of_gt (hpos p hp))
  suffices h : ∀ (qs : List WeightedPath) (t : PrefixTree) (ps : List WeightedPath), (∀ q ∈ qs, q ∈ base) →
      t.Represents ps → (qs.foldl (fun t q => t.insert q.items q.count) t).Represents (ps ++ qs) from
    h base empty [] (fun _ hq => hq) represents_empty
  intro qs
  induction qs with
  | nil => intro t ps _ ht; simpa using ht
  | cons q qs ih =>
    intro t ps hqs ht
    have hq := hqs q List.mem_cons_self
    rw [List.foldl_cons, List.append_cons, ← hstep ps hq]
    exact ih _ _ (fun r hr => hqs r (List.mem_cons_of_mem _ hr)) (ht.insert (hn q hq))

theorem run_represents {steps : List TreeStep} (h : ∀ s ∈ steps, s.Distinct) :
    (run steps).Represents (WeightedPath.run steps) := represents_empty.foldl h

end PrefixTree
end StyleMiner
