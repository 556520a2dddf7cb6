import StyleMiner.Text.Ascii

/-! Finite sets of ids, kept as ascending lists. One set has one list, so sets are equal exactly
when they have the same members, and the order of sets is the order of their lists. -/

namespace StyleMiner

structure IdSet where
  toList : List Nat
  ascending : toList.Pairwise (· < ·)
  deriving DecidableEq, Repr

namespace IdSet

instance : Membership Nat IdSet := ⟨fun s x => x ∈ s.toList⟩

instance (x : Nat) (s : IdSet) : Decidable (x ∈ s) := inferInstanceAs (Decidable (x ∈ s.toList))

instance : Ord IdSet := ⟨compareOn toList⟩

theorem mem_def {x : Nat} {s : IdSet} : x ∈ s ↔ x ∈ s.toList := Iff.rfl

def empty : IdSet := ⟨[], List.Pairwise.nil⟩

def size (s : IdSet) : Nat := s.toList.length

def isEmpty (s : IdSet) : Bool := s.toList.isEmpty

def contains (s : IdSet) (x : Nat) : Bool := s.toList.contains x

/-- puts `x` at its place in an ascending list, unless it is there -/
def place (x : Nat) : List Nat → List Nat
  | [] => [x]
  | y :: ys => if x < y then x :: y :: ys else if x = y then y :: ys else y :: place x ys

theorem mem_place {x y : Nat} {ys : List Nat} : y ∈ place x ys ↔ y = x ∨ y ∈ ys := by
  induction ys with
  | nil => simp [place]
  | cons z zs ih =>
    unfold place
    split
    · simp
    split
    · next h => subst h; simp
    · simp only [List.mem_cons, ih]
      constructor
      · rintro (h | h | h) <;> simp [h]
      · rintro (h | h | h) <;> simp [h]

theorem place_ascending (x : Nat) {ys : List Nat} (h : ys.Pairwise (· < ·)) :
    (place x ys).Pairwise (· < ·) := by
  induction ys with
  | nil => simp [place]
  | cons z zs ih =>
    rw [List.pairwise_cons] at h
    unfold place
    split
    · next hx =>
      refine List.pairwise_cons.2 ⟨fun y hy => ?_, List.pairwise_cons.2 h⟩
      rcases List.mem_cons.1 hy with rfl | hy
      · exact hx
      · exact Nat.lt_trans hx (h.1 y hy)
    split
    · exact List.pairwise_cons.2 h
    · refine List.pairwise_cons.2 ⟨fun y hy => ?_, ih h.2⟩
      rcases mem_place.1 hy with rfl | hy
      · omega
      · exact h.1 y hy

def insert (s : IdSet) (x : Nat) : IdSet := ⟨place x s.toList, place_ascending x s.ascending⟩

/-- the set with a member more, if it is not one already -/
def insert? (s : IdSet) (x : Nat) : Option IdSet := if x ∈ s then none else some (s.insert x)

def erase (s : IdSet) (x : Nat) : IdSet := ⟨s.toList.filter (· ≠ x), s.ascending.filter _⟩

def ofList (xs : List Nat) : IdSet := xs.foldl insert empty

/-- the ids below `n` -/
def below (n : Nat) : IdSet := ⟨List.range n, List.pairwise_lt_range⟩

def inter (s t : IdSet) : IdSet := ⟨s.toList.filter (· ∈ t), s.ascending.filter _⟩

def subset (s t : IdSet) : Bool := s.toList.all (· ∈ t)

/-- One set has one list. -/
theorem ext {s t : IdSet} (h : ∀ x, x ∈ s ↔ x ∈ t) : s = t := by
  obtain ⟨xs, hxs⟩ := s
  obtain ⟨ys, hys⟩ := t
  congr 1
  induction xs generalizing ys with
  | nil =>
    cases ys with
    | nil => rfl
    | cons y ys => exact absurd ((h y).2 List.mem_cons_self) List.not_mem_nil
  | cons x xs ih =>
    cases ys with
    | nil => exact absurd ((h x).1 List.mem_cons_self) List.not_mem_nil
    | cons y ys =>
      have hx := List.pairwise_cons.1 hxs
      have hy := List.pairwise_cons.1 hys
      have hxy : x = y := by
        rcases List.mem_cons.1 ((h x).1 List.mem_cons_self) with rfl | h1
        · rfl
        rcases List.mem_cons.1 ((h y).2 List.mem_cons_self) with rfl | h2
        · rfl
        exact absurd (hx.1 y h2) (Nat.lt_asymm (hy.1 x h1))
      subst hxy
      refine congrArg (x :: ·) (ih hx.2 ys hy.2 fun z => ?_)
      constructor
      · intro hz
        exact (List.mem_cons.1 ((h z).1 (List.mem_cons_of_mem x hz))).resolve_left
          (Nat.ne_of_gt (hx.1 z hz))
      · intro hz
        exact (List.mem_cons.1 ((h z).2 (List.mem_cons_of_mem x hz))).resolve_left
          (Nat.ne_of_gt (hy.1 z hz))

theorem mem_insert {s : IdSet} {x y : Nat} : y ∈ s.insert x ↔ y = x ∨ y ∈ s := mem_place

theorem mem_erase {s : IdSet} {x y : Nat} : y ∈ s.erase x ↔ y ∈ s ∧ y ≠ x := by
  simp [mem_def, erase]

theorem mem_inter {s t : IdSet} {x : Nat} : x ∈ s.inter t ↔ x ∈ s ∧ x ∈ t := by
  simp [mem_def, inter]

theorem mem_below {n x : Nat} : x ∈ below n ↔ x < n := List.mem_range

theorem mem_ofList {xs : List Nat} {x : Nat} : x ∈ ofList xs ↔ x ∈ xs := by
  suffices h : ∀ s : IdSet, x ∈ xs.foldl insert s ↔ x ∈ s ∨ x ∈ xs from
    (h empty).trans (or_iff_right List.not_mem_nil)
  induction xs with
  | nil => simp
  | cons y ys ih =>
    intro s
    rw [List.foldl_cons, ih, mem_insert, List.mem_cons]
    constructor
    · rintro ((h | h) | h) <;> simp [h]
    · rintro (h | h | h) <;> simp [h]

theorem subset_iff {s t : IdSet} : s.subset t = true ↔ ∀ x ∈ s, x ∈ t := by
  simp [subset, mem_def]

end IdSet

/-- the selectors that something occurs in -/
abbrev Support := IdSet

end StyleMiner
