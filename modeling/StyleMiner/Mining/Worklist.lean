import StyleMiner.Mining.Growth

/-! Growing sets without recursion. The projections that are still to be taken up wait in a stack. The
one on top is taken up: it makes its offers, and the projections that follow from it are put on the
stack, the one to the least item last. So they are taken up as the recursion visits them, and the loop
ends when nothing is pending. -/

namespace StyleMiner

/-- where the loop stands: the pending projections, the one on top first; those that were taken up and
what was offered, each in order; and the results -/
structure Work where
  pending : List Projection
  taken : List Projection
  offered : List Offer
  results : Results

namespace Work

def start (data : DataSet) (c : Config) (r : Results) : Work :=
  ⟨[.ofDataSet data c.minSupport], [], [], r⟩

/-- offers a set -/
def offer (table : ItemTable) (w : Work) (o : Offer) : Except Fault Work := do
  return { w with offered := w.offered ++ [o], results := ← Growth.accept table w.results o }

/-- offers the stem of a projection with an item, if enough transactions have it, and puts the projection
to it on the stack, if there is anything in it -/
def grow (table : ItemTable) (c : Config) (p : Projection) (w : Work) (item : ItemId) :
    Except Fault Work :=
  if p.tree.itemCount item < c.minSupport then return w
  else do
    let w ← w.offer table ⟨p.stem.toList ++ [item], p.tree.itemCount item, false⟩
    let next := p.extend c.minSupport item
    return if next.tree.isEmpty then w else { w with pending := next :: w.pending }

/-- makes the offers of a projection and puts those that follow from it on the stack -/
def visit (table : ItemTable) (c : Config) (p : Projection) (w : Work) : Except Fault Work :=
  match p.path? c with
  | some path =>
    (Projection.pathOffers c path).foldlM
      (fun w o => w.offer table { o with members := p.stem.toList ++ o.members }) w
  | none => p.tree.header.toList.reverse.foldlM (grow table c p) w

/-- takes up the projection on top; none if nothing is pending -/
def step? (table : ItemTable) (c : Config) (w : Work) : Except Fault (Option Work) :=
  match w.pending with
  | [] => return none
  | p :: rest => return some (← visit table c p { w with pending := rest, taken := w.taken ++ [p] })

variable {table : ItemTable} {c : Config} {w w' : Work} {p : Projection}

theorem foldlM_offer (os : List Offer) (w : Work) :
    os.foldlM (offer table) w = (os.foldlM (Growth.accept table) w.results).map fun r =>
      { w with offered := w.offered ++ os, results := r } := by
  induction os generalizing w with
  | nil => simp [pure, Except.pure, Except.map]
  | cons o os ih =>
    rw [List.foldlM_cons, List.foldlM_cons, offer]
    cases Growth.accept table w.results o with
    | error e => rfl
    | ok r => simp [bind, Except.bind, pure, Except.pure, ih]

/-- The items of a projection make its offers, and the last of them comes on top of the stack. -/
theorem foldlM_grow (p : Projection) (is : List ItemId) (w : Work) :
    is.foldlM (grow table c p) w =
      let grown := is.filter (c.minSupport ≤ p.tree.itemCount ·)
      let os := grown.map fun i => ⟨p.stem.toList ++ [i], p.tree.itemCount i, false⟩
      (os.foldlM (Growth.accept table) w.results).map fun r =>
        { w with
          pending := ((grown.map (p.extend c.minSupport)).filter (!·.tree.isEmpty)).reverse ++ w.pending
          offered := w.offered ++ os
          results := r } := by
  induction is generalizing w with
  | nil => simp [pure, Except.pure, Except.map]
  | cons i is ih =>
    rw [List.foldlM_cons, grow]
    by_cases hlow : p.tree.itemCount i < c.minSupport
    · rw [if_pos hlow, List.filter_cons_of_neg (by simpa using hlow)]
      exact ih w
    · rw [if_neg hlow, List.filter_cons_of_pos (by simpa using Nat.le_of_not_lt hlow), offer]
      simp only [List.map_cons, List.foldlM_cons]
      cases Growth.accept table w.results ⟨p.stem.toList ++ [i], p.tree.itemCount i, false⟩ with
      | error e => rfl
      | ok r =>
        simp only [bind, Except.bind, pure, Except.pure, ih]
        cases hempty : (p.extend c.minSupport i).tree.isEmpty <;> simp [hempty]

theorem visit_eq (p : Projection) (w : Work) :
    visit table c p w = ((p.offers c).foldlM (Growth.accept table) w.results).map fun r =>
      { w with pending := p.followers c ++ w.pending, offered := w.offered ++ p.offers c, results := r } := by
  rw [visit, Projection.offers, Projection.followers]
  cases p.path? c with
  | some path => exact List.foldlM_map.symm.trans (foldlM_offer _ w)
  | none =>
    rw [foldlM_grow]
    simp only [Option.isSome_none, Bool.false_eq_true, ↓reduceIte, List.filter_reverse, List.map_reverse,
      List.reverse_reverse, List.map_map, Projection.frequent]
    rfl

/-- A projection that is taken up makes its offers, and its followers take its place. -/
theorem step?_cons (p : Projection) (rest taken : List Projection) (offered : List Offer) (r : Results) :
    step? table c ⟨p :: rest, taken, offered, r⟩ =
      ((p.offers c).foldlM (Growth.accept table) r).map fun r =>
        some ⟨p.followers c ++ rest, taken ++ [p], offered ++ p.offers c, r⟩ := by
  simp only [step?, visit_eq]
  cases (p.offers c).foldlM (Growth.accept table) r <;> rfl

/-- Taking up a projection leaves less to visit. -/
theorem length_lt_of_step? (h : w.step? table c = .ok (some w')) :
    (w'.pending.flatMap (Projection.visited c)).length < (w.pending.flatMap (Projection.visited c)).length := by
  obtain ⟨pending, taken, offered, r⟩ := w
  cases pending with
  | nil => cases h
  | cons p rest =>
    rw [step?_cons] at h
    cases hr : (p.offers c).foldlM (Growth.accept table) r with
    | error e => rw [hr] at h; cases h
    | ok r' =>
      rw [hr] at h
      obtain rfl := Option.some.inj (Except.ok.inj h)
      rw [Projection.flatMap_visited_cons]
      exact Nat.lt_succ_self _

/-- takes up what is pending until nothing is -/
def run (table : ItemTable) (c : Config) (w : Work) : Except Fault Work :=
  match _h : w.step? table c with
  | .error fault => .error fault
  | .ok none => .ok w
  | .ok (some w') => run table c w'
termination_by (w.pending.flatMap (Projection.visited c)).length
decreasing_by exact length_lt_of_step? _h

theorem run_eq_bind (w : Work) :
    w.run table c = w.step? table c >>= fun next => next.elim (.ok w) (run table c) := by
  rw [run]
  split
  · next h => rw [h]; rfl
  · next h => rw [h]; rfl
  · next h => rw [h]; rfl

theorem run_nil (taken : List Projection) (offered : List Offer) (r : Results) :
    run table c ⟨[], taken, offered, r⟩ = .ok ⟨[], taken, offered, r⟩ := by
  rw [run_eq_bind]
  rfl

theorem run_cons (p : Projection) (rest taken : List Projection) (offered : List Offer) (r : Results) :
    run table c ⟨p :: rest, taken, offered, r⟩ = (p.offers c).foldlM (Growth.accept table) r >>= fun r =>
      run table c ⟨p.followers c ++ rest, taken ++ [p], offered ++ p.offers c, r⟩ := by
  rw [run_eq_bind, step?_cons]
  cases (p.offers c).foldlM (Growth.accept table) r <;> rfl

end Work
end StyleMiner
