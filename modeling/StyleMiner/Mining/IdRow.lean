/-! Sets of ids as they lie in memory: a row of ids that is searched by halving, and two rows that are
read side by side. Nothing in a row says that it ascends. The operations give right answers only on rows
that do, and they leave such rows behind. -/

namespace StyleMiner

structure IdRow where
  ids : List Nat
  deriving DecidableEq, Repr

/-- where an id stands in a row, or where it belongs -/
inductive Spot where
  | found (place : Nat)
  | missing (place : Nat)
  deriving DecidableEq, Repr

namespace IdRow

instance : Ord IdRow := ⟨compareOn ids⟩

instance : Membership Nat IdRow := ⟨fun r x => x ∈ r.ids⟩

instance (x : Nat) (r : IdRow) : Decidable (x ∈ r) := inferInstanceAs (Decidable (x ∈ r.ids))

theorem mem_def {x : Nat} {r : IdRow} : x ∈ r ↔ x ∈ r.ids := Iff.rfl

def empty : IdRow := ⟨[]⟩

def size (r : IdRow) : Nat := r.ids.length

def isEmpty (r : IdRow) : Bool := r.ids.isEmpty

/-- the ids below `n` -/
def below (n : Nat) : IdRow := ⟨List.range n⟩

/-- without the ids that stand right behind themselves -/
def squeeze : List Nat → List Nat
  | x :: y :: t => if x = y then squeeze (y :: t) else x :: squeeze (y :: t)
  | t => t

def ofList (xs : List Nat) : IdRow := ⟨squeeze xs.mergeSort⟩

/-- Of the `size` places from `base` on, goes on with the half in which `x` can stand until one place is
left. -/
def narrow (ids : List Nat) (x base size : Nat) : Nat :=
  if size ≤ 1 then base
  else
    let middle := base + size / 2
    narrow ids x (if ids[middle]?.any (x < ·) then base else middle) (size - size / 2)
termination_by size

def search (r : IdRow) (x : Nat) : Spot :=
  let place := narrow r.ids x 0 r.size
  match r.ids[place]? with
  | none => .missing place
  | some y => if y = x then .found place else .missing (if y < x then place + 1 else place)

def contains (r : IdRow) (x : Nat) : Bool :=
  match r.search x with
  | .found _ => true
  | .missing _ => false

/-- the row with an id more, and whether it is a new one -/
def insert (r : IdRow) (x : Nat) : IdRow × Bool :=
  match r.search x with
  | .found _ => (r, false)
  | .missing place => (⟨r.ids.insertIdx place x⟩, true)

/-- reads two rows side by side and keeps what stands in both -/
def common : List Nat → List Nat → List Nat
  | x :: xs, y :: ys =>
    if x < y then common xs (y :: ys)
    else if y < x then common (x :: xs) ys
    else x :: common xs ys
  | _, _ => []
termination_by xs ys => xs.length + ys.length

def inter (r s : IdRow) : IdRow := ⟨common r.ids s.ids⟩

def subset (r s : IdRow) : Bool := r.size ≤ s.size && r.ids.all s.contains

end IdRow
end StyleMiner
