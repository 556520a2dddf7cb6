import StyleMiner.Mining.Forest

/-! A tree of counted transactions with shared beginnings. Nodes are numbered as they are made, and
a number is never used again. The nodes of an item, by ascending id, are its chain; the paths down
to them, weighted by their counts, are its conditional base. Counts are unbounded here: the tree of a sheet
counts each selector at most once, and what counts more is the tree in memory, whose counts are words. -/

namespace StyleMiner

/-- a path of items that `count` transactions share -/
structure WeightedPath where
  items : List ItemId
  count : Nat
  deriving DecidableEq, Repr

/-- a forest under a root with the id zero; `count` is the root's, `fresh` the next id -/
structure PrefixTree where
  count : Nat
  forest : Forest
  fresh : Nat
  deriving DecidableEq, Repr

namespace PrefixTree

def empty : PrefixTree := ⟨0, .nil, 1⟩

def isEmpty (t : PrefixTree) : Bool := t.forest.isNil

/-- adds a path that `count` transactions share; without a transaction there is nothing to add -/
def insert (t : PrefixTree) (items : List ItemId) (count : Nat) : PrefixTree :=
  if count = 0 then t
  else ⟨t.count + count, t.forest.insert count t.fresh items, t.fresh + t.forest.missing items⟩

def ofBase (base : List WeightedPath) : PrefixTree :=
  base.foldl (fun t p => t.insert p.items p.count) empty

/-- the nodes under the root, each before its children -/
def nodes (t : PrefixTree) : List ForestNode := t.forest.nodes 0 []

/-- the items of the nodes -/
def header (t : PrefixTree) : IdSet := .ofList (t.nodes.map (·.item))

/-- the nodes of an item by ascending id -/
def chain (t : PrefixTree) (item : ItemId) : List ForestNode :=
  (t.nodes.filter (·.item == item)).mergeSort fun a b => a.id ≤ b.id

/-- how many transactions have an item -/
def itemCount (t : PrefixTree) (item : ItemId) : Nat :=
  ((t.nodes.filter (·.item == item)).map (·.count)).foldr (· + ·) 0

/-- the paths down to the nodes of an item; empty ones are left out -/
def conditionalBase (t : PrefixTree) (item : ItemId) : List WeightedPath :=
  ((t.chain item).map fun x => ⟨x.above, x.count⟩).filter (!·.items.isEmpty)

/-- removes the items that fewer than `minimum` transactions have -/
def prune (t : PrefixTree) (minimum : Nat) : PrefixTree :=
  { t with forest := t.forest.prune fun item => minimum ≤ t.itemCount item }

def hasSinglePath (t : PrefixTree) : Bool := t.forest.isPath

def singlePath? (t : PrefixTree) : Option (List (ItemId × Nat)) := t.forest.path?

/-- the tree of the transactions that have an item, without it and what stands below it -/
def conditional (t : PrefixTree) (minimum : Nat) (item : ItemId) : PrefixTree :=
  (ofBase (t.conditionalBase item)).prune minimum

theorem height_insert_le (t : PrefixTree) (items : List ItemId) (count : Nat) :
    (t.insert items count).forest.height ≤ max t.forest.height items.length := by
  unfold insert
  split
  · omega
  · exact Forest.height_insert_le ..

theorem height_ofBase_le {base : List WeightedPath} {n : Nat} (h : ∀ p ∈ base, p.items.length ≤ n) :
    (ofBase base).forest.height ≤ n := by
  suffices hs : ∀ t : PrefixTree, t.forest.height ≤ n →
      (base.foldl (fun t p => t.insert p.items p.count) t).forest.height ≤ n from
    hs empty (Nat.zero_le n)
  induction base with
  | nil => exact fun t ht => ht
  | cons p ps ih =>
    intro t ht
    refine ih (fun q hq => h q (List.mem_cons_of_mem p hq)) _ ?_
    have := h p List.mem_cons_self
    exact Nat.le_trans (height_insert_le ..) (by omega)

/-- A path down to a node is shorter than the longest path of the tree. -/
theorem height_conditional_lt {t : PrefixTree} {minimum : Nat} {item : ItemId}
    (h : (t.conditional minimum item).isEmpty = false) :
    (t.conditional minimum item).forest.height < t.forest.height := by
  have hle : (t.conditional minimum item).forest.height ≤ t.forest.height - 1 := by
    refine Nat.le_trans (Forest.height_prune_le ..) (height_ofBase_le fun p hp => ?_)
    simp only [conditionalBase, chain, List.mem_filter, List.mem_map, List.mem_mergeSort] at hp
    obtain ⟨⟨x, ⟨hx, -⟩, rfl⟩, -⟩ := hp
    have := Forest.above_length_lt hx
    simp only [List.length_nil] at this ⊢
    omega
  have hpos : 0 < (t.conditional minimum item).forest.height := by
    unfold isEmpty at h
    cases hf : (t.conditional minimum item).forest with
    | nil => simp [hf, Forest.isNil] at h
    | node => simp only [Forest.height]; omega
  omega

end PrefixTree
end StyleMiner
