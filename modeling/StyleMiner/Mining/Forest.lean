import StyleMiner.Mining.Item

/-! Forests of counted items. A node has an id, an item, a count, its children and the nodes after
it under the same parent; a path of items from the top is shared by all that begin with it. -/

namespace StyleMiner

inductive Forest where
  | nil
  | node (id : Nat) (item : ItemId) (count : Nat) (children siblings : Forest)
  deriving DecidableEq, Repr

/-- a node of a forest as seen from outside; `above` are the items on the path down to its parent -/
structure ForestNode where
  id : Nat
  item : ItemId
  count : Nat
  parent : Nat
  above : List ItemId
  children : List Nat
  deriving DecidableEq, Repr

namespace Forest

def isNil : Forest → Bool
  | nil => true
  | node .. => false

/-- the ids at the top -/
def tops : Forest → List Nat
  | nil => []
  | node id _ _ _ siblings => id :: siblings.tops

/-- all nodes, each before its children and those before its siblings -/
def nodes (parent : Nat) (above : List ItemId) : Forest → List ForestNode
  | nil => []
  | node id item count children siblings =>
    ⟨id, item, count, parent, above, children.tops⟩ ::
      (children.nodes id (above ++ [item]) ++ siblings.nodes parent above)

/-- the length of the longest path -/
def height : Forest → Nat
  | nil => 0
  | node _ _ _ children siblings => max (children.height + 1) siblings.height

def append : Forest → Forest → Forest
  | nil, g => g
  | node id item count children siblings, g => node id item count children (siblings.append g)

/-- a single path, its ids from `fresh` on -/
def path (count fresh : Nat) : List ItemId → Forest
  | [] => nil
  | item :: items => node fresh item count (path count (fresh + 1) items) nil

/-- Raises the counts along a path of items by `count`. Where the forest has no node for the next
item, the rest of the path is added behind its siblings, with ids from `fresh` on. -/
def insert (count fresh : Nat) (items : List ItemId) : Forest → Forest
  | nil => path count fresh items
  | node id item n children siblings =>
    match items with
    | [] => node id item n children siblings
    | i :: is =>
      if item = i then node id item (n + count) (children.insert count fresh is) siblings
      else node id item n children (siblings.insert count fresh (i :: is))

/-- how many nodes the same path would add -/
def missing (items : List ItemId) : Forest → Nat
  | nil => items.length
  | node _ item _ children siblings =>
    match items with
    | [] => 0
    | i :: is => if item = i then children.missing is else siblings.missing (i :: is)

/-- removes the nodes whose item is not kept; their children take their place -/
def prune (keep : ItemId → Bool) : Forest → Forest
  | nil => nil
  | node id item count children siblings =>
    if keep item then node id item count (children.prune keep) (siblings.prune keep)
    else (children.prune keep).append (siblings.prune keep)

def isPath : Forest → Bool
  | nil => true
  | node _ _ _ children siblings => siblings.isNil && children.isPath

/-- the items and counts of a forest that is a single path -/
def path? : Forest → Option (List (ItemId × Nat))
  | nil => some []
  | node _ item count children siblings =>
    if siblings.isNil then children.path?.map ((item, count) :: ·) else none

theorem height_append (f g : Forest) : (f.append g).height = max f.height g.height := by
  induction f with
  | nil => simp [append, height]
  | node id item count children siblings _ ih =>
    simp only [append, height, ih]; omega

theorem height_path (count fresh : Nat) (items : List ItemId) :
    (path count fresh items).height = items.length := by
  induction items generalizing fresh with
  | nil => rfl
  | cons i is ih => simp [path, height, ih]

theorem height_insert_le (count fresh : Nat) (items : List ItemId) (f : Forest) :
    (f.insert count fresh items).height ≤ max f.height items.length := by
  induction f generalizing items with
  | nil => simp only [insert, height_path]; omega
  | node id item n children siblings ihc ihs =>
    unfold insert
    cases items with
    | nil => simp [height]
    | cons i is =>
      simp only []
      split
      · have := ihc is
        simp only [height, List.length_cons]; omega
      · have := ihs (i :: is)
        simp only [height]; omega

theorem height_prune_le (keep : ItemId → Bool) (f : Forest) : (f.prune keep).height ≤ f.height := by
  induction f with
  | nil => exact Nat.le_refl _
  | node id item count children siblings ihc ihs =>
    unfold prune
    split
    · simp only [height]; omega
    · simp only [height_append, height]; omega

theorem above_length_lt {f : Forest} {parent : Nat} {above : List ItemId} {x : ForestNode}
    (h : x ∈ f.nodes parent above) : x.above.length < above.length + f.height := by
  induction f generalizing parent above with
  | nil => simp [nodes] at h
  | node id item count children siblings ihc ihs =>
    simp only [nodes, List.mem_cons, List.mem_append] at h
    simp only [height]
    rcases h with rfl | h | h
    · simp only []; omega
    · have := ihc h
      simp only [List.length_append, List.length_cons, List.length_nil] at this
      omega
    · have := ihs h
      omega

end Forest
end StyleMiner
