import StyleMiner.Mining.PrefixTree

/-! The nodes of a forest by their ids. Insertion gives new ids away, and the nodes that are left out of a
forest take no other id with them. -/

namespace StyleMiner.Forest

variable {f g : Forest} {id k parent count fresh : Nat} {above : List ItemId} {item : ItemId}
  {items : List ItemId} {keep keep' : Nat → ItemId → Bool}

/-- the ids of all nodes -/
def ids : Forest → List Nat
  | nil => []
  | node id _ _ children siblings => id :: (children.ids ++ siblings.ids)

theorem map_id_nodes (parent : Nat) (above : List ItemId) :
    (f.nodes parent above).map (·.id) = f.ids := by
  induction f generalizing parent above with
  | nil => rfl
  | node id item count children siblings ihc ihs =>
    rw [nodes, List.map_cons, List.map_append, ihc, ihs, ids]

theorem mem_ids (parent : Nat) (above : List ItemId) :
    k ∈ f.ids ↔ ∃ x ∈ f.nodes parent above, x.id = k := by
  rw [← map_id_nodes parent above, List.mem_map]

theorem tops_subset : f.tops ⊆ f.ids := by
  induction f with
  | nil => exact List.Subset.refl _
  | node id item count children siblings _ ih =>
    exact List.cons_subset_cons id fun k hk => List.mem_append_right _ (ih hk)

theorem mem_ids_of_child {x : ForestNode} (hx : x ∈ f.nodes parent above) (hk : k ∈ x.children) :
    k ∈ f.ids := by
  induction f generalizing parent above with
  | nil => cases hx
  | node id item count children siblings ihc ihs =>
    simp only [nodes, List.mem_cons, List.mem_append] at hx
    simp only [ids, List.mem_cons, List.mem_append]
    obtain rfl | hx | hx := hx
    · exact .inr (.inl (tops_subset hk))
    · exact .inr (.inl (ihc hx))
    · exact .inr (.inr (ihs hx))

theorem insert_nil_items : f.insert count fresh [] = f := by cases f <;> rfl

theorem missing_nil_items : f.missing [] = 0 := by cases f <;> rfl

theorem ids_path : (path count fresh items).ids = List.range' fresh items.length := by
  induction items generalizing fresh with
  | nil => rfl
  | cons i is ih => simp [path, ids, ih, List.range'_succ]

/-- Insertion gives the next ids away, one for each node that was missing. -/
theorem ids_insert_perm :
    (f.insert count fresh items).ids.Perm (f.ids ++ List.range' fresh (f.missing items)) := by
  induction f generalizing items with
  | nil => rw [insert, ids_path]; rfl
  | node id item n children siblings ihc ihs =>
    cases items with
    | nil => rw [insert_nil_items, missing_nil_items]; simp
    | cons i is =>
      simp only [insert, missing]
      split
      · refine .cons id ?_
        have hmove : ((children.ids ++ List.range' fresh (children.missing is)) ++ siblings.ids).Perm
            (children.ids ++ siblings.ids ++ List.range' fresh (children.missing is)) := by
          rw [List.append_assoc, List.append_assoc]
          exact List.perm_append_comm.append_left _
        exact (ihc.append_right siblings.ids).trans hmove
      · refine .cons id ?_
        have hmove : (children.ids ++ (siblings.insert count fresh (i :: is)).ids).Perm
            (children.ids ++ (siblings.ids ++ List.range' fresh (siblings.missing (i :: is)))) :=
          ihs.append_left _
        rwa [← List.append_assoc] at hmove

/-- the nodes that are kept; the children of the others take their place -/
def select (keep : Nat → ItemId → Bool) : Forest → Forest
  | nil => nil
  | node id item count children siblings =>
    if keep id item then node id item count (children.select keep) (siblings.select keep)
    else (children.select keep).append (siblings.select keep)

theorem select_of_eq_true (hk : keep id item = true) :
    (node id item count f g).select keep = node id item count (f.select keep) (g.select keep) :=
  if_pos hk

theorem select_of_eq_false (hk : keep id item = false) :
    (node id item count f g).select keep = (f.select keep).append (g.select keep) :=
  if_neg (Bool.not_eq_true _ ▸ hk)

theorem prune_eq_select (keep : ItemId → Bool) : f.prune keep = f.select fun _ => keep := by
  induction f with
  | nil => rfl
  | node id item count children siblings ihc ihs => simp only [prune, select, ihc, ihs]

theorem select_congr (parent : Nat) (above : List ItemId)
    (h : ∀ x ∈ f.nodes parent above, keep x.id x.item = keep' x.id x.item) :
    f.select keep = f.select keep' := by
  induction f generalizing parent above with
  | nil => rfl
  | node id item count children siblings ihc ihs =>
    simp only [nodes, List.forall_mem_cons, List.forall_mem_append] at h
    obtain ⟨hnode, hchildren, hsiblings⟩ := h
    simp only [select, hnode, ihc _ _ hchildren, ihs _ _ hsiblings]

theorem select_true : (f.select fun _ _ => true) = f := by
  induction f with
  | nil => rfl
  | node id item count children siblings ihc ihs => simp only [select, ihc, ihs, if_true]

/-- Nothing changes if what is left out is not there. -/
theorem select_ne_of_notMem (h : id ∉ f.ids) : (f.select fun k _ => k ≠ id) = f := by
  refine (select_congr 0 [] fun x hx => ?_).trans select_true
  have hmem : x.id ∈ f.ids := (mem_ids 0 []).2 ⟨x, hx, rfl⟩
  exact decide_eq_true fun heq => h (heq ▸ hmem)

theorem append_assoc (f g h : Forest) : (f.append g).append h = f.append (g.append h) := by
  induction f with
  | nil => rfl
  | node id item count children siblings _ ih => simp only [append, ih]

theorem select_append : (f.append g).select keep = (f.select keep).append (g.select keep) := by
  induction f with
  | nil => rfl
  | node id item count children siblings _ ih =>
    simp only [append, select, ih]
    split
    · rfl
    · rw [append_assoc]

theorem select_select :
    (f.select keep).select keep' = f.select fun k i => keep k i && keep' k i := by
  induction f with
  | nil => rfl
  | node id item count children siblings ihc ihs =>
    cases hk : keep id item with
    | true => simp only [select, hk, if_true, Bool.true_and, ihc, ihs]
    | false => simp only [select, hk, Bool.false_and, Bool.false_eq_true, if_false, select_append, ihc, ihs]

theorem ids_append : (f.append g).ids = f.ids ++ g.ids := by
  induction f with
  | nil => rfl
  | node id item count children siblings _ ih =>
    simp only [append, ids, ih, List.cons_append, List.append_assoc]

theorem ids_select : (f.select keep).ids.Sublist f.ids := by
  induction f with
  | nil => exact List.Sublist.refl _
  | node id item count children siblings ihc ihs =>
    unfold select
    split
    · exact (ihc.append ihs).cons_cons id
    · rw [ids_append]
      exact (ihc.append ihs).cons id

theorem tops_append : (f.append g).tops = f.tops ++ g.tops := by
  induction f with
  | nil => rfl
  | node id item count children siblings _ ih => simp only [append, tops, ih, List.cons_append]

end StyleMiner.Forest
