import Mathlib.Algebra.BigOperators.Group.List.Lemmas
import StyleMiner.Proofs.LinkedReach
import StyleMiner.Proofs.StoredForests
import StyleMiner.Proofs.TreeRefinement

/-! The linked tree and the prefix tree are one tree. After any run of insertions, each without repeated
items, and prunings the cells of the one hold the forest of the other, id by id, and both give the same
answers, as long as the counts of all insertions together fit into a word. So the linked tree refines the
list of paths as well. -/

namespace StyleMiner

theorem Word.foldr_add (ns : List Nat) : (ns.map wrap).foldr add 0 = wrap ns.sum := by
  induction ns with
  | nil => rfl
  | cons n ns ih =>
    rw [List.map_cons, List.foldr_cons, ih, List.sum_cons]
    exact (Nat.add_mod n ns.sum size).symm

theorem PrefixTree.mem_chain {t : PrefixTree} {item : ItemId} {x : ForestNode} :
    x ∈ t.chain item ↔ x ∈ t.nodes ∧ x.item = item := by
  rw [chain, List.mem_mergeSort, List.mem_filter, beq_iff_eq]

namespace LinkedTree

open Forest

variable {a b : LinkedTree} {t : PrefixTree} {id k parent count minimum : Nat} {item : ItemId}
  {ids : List Nat} {items : List ItemId}

/-- The cells of `a` hold the forest of `t`, and of each count what a word keeps of it. -/
structure Holds (a : LinkedTree) (t : PrefixTree) : Prop where
  size : a.cells.size = t.fresh
  root : (a.cell 0).unchained = ⟨none, Word.wrap t.count, none, t.forest.tops, none⟩
  stored : t.forest.Stored a 0
  nodup : (0 :: t.forest.ids).Nodup

theorem holds_empty : Holds empty .empty where
  size := rfl
  root := rfl
  stored := trivial
  nodup := List.nodup_singleton 0

/-- A walk up from a cell meets the items `above`, the last of them first. -/
def Climbs (a : LinkedTree) (k : Nat) (above : List ItemId) : Prop :=
  ∀ fuel, k < fuel → ∃ ids, a.walk (·.parent) fuel (some k) = some ids ∧ (∀ j ∈ ids, j < a.cells.size) ∧
    (ids.filterMap fun j => (a.cell j).item).reverse = above

theorem climbs_root (hs : a.Sound) : a.Climbs 0 [] := by
  intro fuel hfuel
  obtain ⟨fuel, rfl⟩ := Nat.exists_eq_succ_of_ne_zero (Nat.ne_of_gt hfuel)
  refine ⟨[0], ?_, List.forall_mem_singleton.2 hs.tree.size_pos, by simp [hs.root_item]⟩
  simp only [walk, getElem?_cells hs.tree.size_pos, hs.tree.root_parent, Option.bind_eq_bind,
    Option.bind_some]

theorem climbs_above {f : Forest} {above : List ItemId} (ht : a.Tree) (hf : f.Stored a parent)
    (hp : a.Climbs parent above) : ∀ x ∈ f.nodes parent above, a.Climbs x.parent x.above := by
  induction f generalizing parent above with
  | nil => exact nofun
  | node id item count children siblings ihc ihs =>
    have hparent : (a.cell id).parent = some parent := congrArg Cell.parent hf.1
    have hitem : (a.cell id).item = some item := congrArg Cell.item hf.1
    have hid : a.Climbs id (above ++ [item]) := by
      intro fuel hfuel
      obtain ⟨fuel, rfl⟩ := Nat.exists_eq_succ_of_ne_zero (Nat.ne_zero_of_lt hfuel)
      have hlt := ht.parent_lt id parent hparent
      obtain ⟨ids, hwalk, hin, habove⟩ := hp fuel (by omega)
      refine ⟨id :: ids, ?_, List.forall_mem_cons.2 ⟨lt_size_of_item hitem, hin⟩, ?_⟩
      · simp only [walk, getElem?_cells (lt_size_of_item hitem), hparent, hwalk, Option.bind_eq_bind,
          Option.bind_some]
      · simp only [List.filterMap_cons, hitem, List.reverse_cons, habove]
    simp only [nodes, List.forall_mem_cons, List.forall_mem_append]
    exact ⟨hp, ihc hf.2.1 hid, ihs hf.2.2 hp⟩

theorem path_stored {f : Forest} {above : List ItemId} (hf : f.Stored a k) (ht : a.Tree)
    (htops : (a.cell k).children = f.tops) (hk : k < a.cells.size)
    (hfits : ∀ x ∈ f.nodes k above, x.count < Word.size) {fuel : Nat} (hfuel : a.cells.size ≤ k + fuel) :
    a.isPathFrom fuel k = some f.isPath ∧ a.pathFrom fuel k = some f.path? := by
  induction f generalizing k above fuel with
  | nil =>
    obtain ⟨fuel, rfl⟩ : ∃ n, fuel = n + 1 := Nat.exists_eq_succ_of_ne_zero (by omega)
    simp only [isPathFrom, pathFrom, getElem?_cells hk, htops, tops, Option.bind_eq_bind, Option.bind_some]
    exact ⟨rfl, rfl⟩
  | node id item count children siblings ihc _ =>
    obtain ⟨fuel, rfl⟩ : ∃ n, fuel = n + 1 := Nat.exists_eq_succ_of_ne_zero (by omega)
    simp only [isPathFrom, pathFrom, getElem?_cells hk, htops, tops, Option.bind_eq_bind, Option.bind_some]
    cases siblings with
    | node => exact ⟨rfl, rfl⟩
    | nil =>
      have hitem : (a.cell id).item = some item := congrArg Cell.item hf.1
      simp only [nodes, List.append_nil, List.forall_mem_cons] at hfits
      have hcount : (a.cell id).count = count :=
        (congrArg Cell.count hf.1).trans (Word.wrap_of_lt hfits.1)
      have hlt := ht.parent_lt id k (congrArg Cell.parent hf.1)
      have hid := lt_size_of_item hitem
      have hfuel : a.cells.size ≤ id + fuel := by omega
      obtain ⟨hsingle, hpath⟩ := ihc hf.2.1 (congrArg Cell.children hf.1) hid hfits.2 hfuel
      simp only [tops, hsingle, hpath, getElem?_cells hid, hitem, hcount, Option.bind_some]
      exact ⟨rfl, rfl⟩

namespace Holds

variable (h : a.Holds t)
include h

theorem cell_node {x : ForestNode} (hx : x ∈ t.nodes) :
    (a.cell x.id).unchained = ⟨some x.item, Word.wrap x.count, some x.parent, x.children, none⟩ :=
  h.stored.cell_node hx

theorem mem_ids_of_reachable (hk : a.Reachable k) : k = 0 ∨ k ∈ t.forest.ids := by
  induction hk with
  | root => exact .inl rfl
  | @child id k cell hid hcell hk ih =>
    have hmem : k ∈ (a.cell id).children := by rwa [LinkedTree.cell, hcell]
    right
    obtain rfl | hid := ih
    · have htops : (a.cell 0).children = t.forest.tops := congrArg Cell.children h.root
      exact tops_subset (htops ▸ hmem)
    · obtain ⟨x, hx, rfl⟩ := (mem_ids 0 []).1 hid
      have hchildren : (a.cell x.id).children = x.children := congrArg Cell.children (h.cell_node hx)
      exact mem_ids_of_child hx (hchildren ▸ hmem)

/-- The cells with an item are those of the nodes that have it. -/
theorem item_iff (hs : a.Sound) :
    (a.cell k).item = some item ↔ ∃ x ∈ t.nodes, x.id = k ∧ x.item = item := by
  constructor
  · intro hitem
    have hne : k ≠ 0 := by
      rintro rfl
      rw [hs.root_item] at hitem
      cases hitem
    have hk := (h.mem_ids_of_reachable (hs.reachable_of_item hitem)).resolve_left hne
    obtain ⟨x, hx, rfl⟩ := (mem_ids 0 []).1 hk
    have hxitem : (a.cell x.id).item = some x.item := congrArg Cell.item (h.cell_node hx)
    exact ⟨x, hx, rfl, Option.some.inj (hxitem.symm.trans hitem)⟩
  · rintro ⟨x, hx, rfl, rfl⟩
    exact congrArg Cell.item (h.cell_node hx)

theorem chain_ascending : ((t.chain item).map (·.id)).Pairwise (· < ·) := by
  have hsorted : (t.chain item).Pairwise (·.id ≤ ·.id) := by
    have hle : (t.chain item).Pairwise fun x y => decide (x.id ≤ y.id) = true :=
      List.pairwise_mergeSort (fun _ _ _ => by simpa using Nat.le_trans)
        (fun _ _ => by simpa using Nat.le_total _ _) _
    simpa only [decide_eq_true_eq] using hle
  have hdistinct : ((t.chain item).map (·.id)).Nodup := by
    have hperm : (t.chain item).Perm (t.nodes.filter (·.item == item)) := List.mergeSort_perm _ _
    rw [(hperm.map _).nodup_iff]
    have hsub : ((t.nodes.filter (·.item == item)).map (·.id)).Sublist t.forest.ids :=
      map_id_nodes 0 [] ▸ List.filter_sublist.map _
    exact (List.nodup_cons.1 h.nodup).2.sublist hsub
  exact (List.pairwise_map.2 hsorted).imp₂ (fun _ _ hle hne => Nat.lt_of_le_of_ne hle hne) hdistinct

/-- The chain of an item leads through its nodes. -/
theorem chain_eq (hc : a.ChainOf item ids) (hs : a.Sound) : ids = (t.chain item).map (·.id) := by
  have hmem : ∀ k, k ∈ ids ↔ k ∈ (t.chain item).map (·.id) := by
    intro k
    rw [hc.mem_iff, h.item_iff hs, List.mem_map]
    refine exists_congr fun x => ?_
    rw [PrefixTree.mem_chain]
    tauto
  have hperm := (List.perm_ext_iff_of_nodup hc.nodup (h.chain_ascending.imp Nat.ne_of_lt)).2 hmem
  exact hperm.eq_of_pairwise (fun _ _ _ _ hlt hgt => absurd hlt (Nat.lt_asymm hgt)) hc.ascending
    h.chain_ascending

theorem occurrences_eq (hs : a.Sound) (item : ItemId) :
    a.occurrences item = some ((t.chain item).map (·.id)) := by
  obtain ⟨ids, hids⟩ := hs.chained item
  rw [hids.occurrences_eq, h.chain_eq hids hs]

theorem itemSupport_eq (hs : a.Sound) (item : ItemId) :
    a.itemSupport item = some (Word.wrap (t.itemCount item)) := by
  obtain ⟨ids, hids⟩ := hs.chained item
  have hperm : (t.chain item).Perm (t.nodes.filter (·.item == item)) := List.mergeSort_perm _ _
  have hcounts : ((t.chain item).map (·.id)).map (fun k => (a.cell k).count) =
      ((t.chain item).map (·.count)).map Word.wrap := by
    rw [List.map_map, List.map_map]
    exact List.map_congr_left fun x hx => congrArg Cell.count (h.cell_node (PrefixTree.mem_chain.1 hx).1)
  rw [hids.itemSupport_eq, h.chain_eq hids hs, hcounts, Word.foldr_add, PrefixTree.itemCount,
    ← List.sum_eq_foldr, (hperm.map _).sum_eq]

/-- The path down to a node is what a walk up from it meets. -/
theorem ancestors_ok (hs : a.Sound) {x : ForestNode} (hx : x ∈ t.nodes) :
    ∃ ids, a.ancestors (a.cell x.id) = some ids ∧ (∀ k ∈ ids, k < a.cells.size) ∧
      (ids.filterMap fun k => (a.cell k).item).reverse = x.above := by
  have hparent : (a.cell x.id).parent = some x.parent := congrArg Cell.parent (h.cell_node hx)
  have hlt := hs.tree.parent_lt x.id x.parent hparent
  rw [ancestors, hparent]
  exact climbs_above hs.tree h.stored (climbs_root hs) x hx _ (Nat.lt_trans hlt (lt_size_of_parent hparent))

theorem conditionalBase_eq (hs : a.Sound) (hfits : ∀ x ∈ t.nodes, x.count < Word.size) (item : ItemId) :
    a.conditionalBase item = some (t.conditionalBase item) := by
  unfold conditionalBase
  simp only [h.occurrences_eq hs, Option.bind_eq_bind, Option.bind_some, List.mapM_map]
  rw [mapM_some (g := fun x => ⟨x.above, x.count⟩)]
  · rfl
  intro x hx
  have hx := (PrefixTree.mem_chain.1 hx).1
  obtain ⟨ids, hids, hin, habove⟩ := h.ancestors_ok hs hx
  have hcount : (a.cell x.id).count = x.count :=
    (congrArg Cell.count (h.cell_node hx)).trans (Word.wrap_of_lt (hfits x hx))
  have hitem : (a.cell x.id).item = some x.item := congrArg Cell.item (h.cell_node hx)
  have hitems : (ids.mapM fun id => (·.item) <$> a.cells[id]?) = some (ids.map fun k => (a.cell k).item) :=
    mapM_some fun k hk => by rw [getElem?_cells (hin k hk)]; rfl
  simp only [Function.comp, getElem?_cells (lt_size_of_item hitem), hids, hitems, Option.bind_some,
    List.filterMap_map, hcount]
  rw [← habove]

theorem mem_header (hs : a.Sound) : item ∈ a.header ↔ item ∈ t.header := by
  obtain ⟨ids, hids⟩ := hs.chained item
  rw [hids.mem_header, h.chain_eq hids hs, PrefixTree.header, IdSet.mem_ofList, List.mem_map, ne_eq,
    List.map_eq_nil_iff]
  constructor
  · intro hne
    obtain ⟨x, hx⟩ := List.exists_mem_of_ne_nil _ hne
    exact ⟨x, PrefixTree.mem_chain.1 hx⟩
  · rintro ⟨x, hx⟩
    exact List.ne_nil_of_mem (PrefixTree.mem_chain.2 hx)

theorem keys_eq (hs : a.Sound) : a.header.keys = t.header.toList := by
  have hmem : ∀ i, i ∈ a.header.keys ↔ i ∈ t.header.toList := fun i => by
    rw [Std.TreeMap.mem_keys, h.mem_header hs]
    rfl
  have hascending : a.header.keys.Pairwise (· < ·) := by
    simpa only [Nat.compare_eq_lt] using a.header.ordered_keys
  have hperm := (List.perm_ext_iff_of_nodup (hascending.imp Nat.ne_of_lt) t.header.nodup).2 hmem
  exact hperm.eq_of_pairwise (fun _ _ _ _ hlt hgt => absurd hlt (Nat.lt_asymm hgt)) hascending
    t.header.ascending

theorem nodeCount_eq (hs : a.Sound) : a.nodeCount = some t.nodes.length := by
  have hchains : a.header.keys.mapM a.occurrences =
      some (a.header.keys.map fun item => (t.chain item).map (·.id)) :=
    mapM_some fun item _ => h.occurrences_eq hs item
  have hlength : ∀ item, (t.chain item).length = (t.nodes.map (·.item)).count item := by
    intro item
    have hperm : (t.chain item).Perm (t.nodes.filter (·.item == item)) := List.mergeSort_perm _ _
    rw [hperm.length_eq, List.count, List.countP_map, List.countP_eq_length_filter]
    rfl
  have hkeys : a.header.keys.Perm (t.nodes.map (·.item)).dedup := by
    rw [List.perm_ext_iff_of_nodup (h.keys_eq hs ▸ t.header.nodup) (List.nodup_dedup _)]
    intro item
    rw [List.mem_dedup, Std.TreeMap.mem_keys, h.mem_header hs, PrefixTree.header, IdSet.mem_ofList]
  unfold nodeCount
  simp only [hchains, Option.bind_eq_bind, Option.bind_some, List.foldr_map, List.length_map, hlength]
  have hsum := (hkeys.map fun item => (t.nodes.map (·.item)).count item).sum_eq
  rw [List.sum_map_count_dedup_eq_length, List.length_map, List.sum_eq_foldr, List.foldr_map] at hsum
  exact congrArg some hsum

theorem isEmpty_eq (hs : a.Sound) : a.isEmpty = some t.isEmpty := by
  have htops : (a.cell 0).children = t.forest.tops := congrArg Cell.children h.root
  rw [isEmpty, getElem?_cells hs.tree.size_pos, Option.map_eq_map, Option.map_some, htops,
    PrefixTree.isEmpty]
  cases t.forest <;> rfl

theorem path_eq (hs : a.Sound) (hfits : ∀ x ∈ t.nodes, x.count < Word.size) :
    a.hasSinglePath = some t.hasSinglePath ∧ a.singlePath? = some t.singlePath? :=
  path_stored h.stored hs.tree (congrArg Cell.children h.root) hs.tree.size_pos hfits (Nat.le_add_left _ _)

theorem insert (hs : a.Sound) (items : List ItemId) (hfits : count < Word.size) :
    ∃ b, a.insert items count = some b ∧ b.Holds (t.insert items count) := by
  unfold LinkedTree.insert PrefixTree.insert
  by_cases hcount : count = 0
  · rw [if_pos hcount, if_pos hcount]
    exact ⟨a, rfl, h⟩
  rw [if_neg hcount, if_neg hcount]
  obtain ⟨b, hb, hcount'⟩ := recount_ok hs.tree.size_pos count
  have hzero : 0 ∉ t.forest.ids := (List.nodup_cons.1 h.nodup).1
  have hstored : t.forest.Stored b 0 := h.stored.congr fun k hk => by
    rw [hcount'.unchained_eq, if_neg fun heq : k = 0 => hzero (heq ▸ hk)]
    rfl
  have hroot : (b.cell 0).unchained = ⟨none, Word.wrap (t.count + count), none, t.forest.tops, none⟩ := by
    have hcount : (a.cell 0).count = Word.wrap t.count := congrArg Cell.count h.root
    rw [hcount'.unchained_eq, h.root, hcount, Word.add_wrap, if_pos rfl]
  obtain ⟨c, hrun, hgrown⟩ : ∃ c, b.insertBelow count 0 items = some c ∧
      Grown b count 0 items [] t.forest c :=
    grow_stored hfits hstored h.nodup (hcount'.chained hs.chained) (hcount'.size ▸ hs.tree.size_pos)
      (congrArg Cell.children hroot) nofun fun _ _ => nofun
  have hsize : b.cells.size = t.fresh := hcount'.size.trans h.size
  refine ⟨c, ?_, ⟨?_, ?_, ?_, ?_⟩⟩
  · simp only [hb, hrun, Option.bind_eq_bind, Option.bind_some]
  · rw [hgrown.size, hsize]
  · rw [hgrown.above, hroot, hsize]
    rfl
  · exact hsize ▸ hgrown.stored
  · have hperm : (0 :: (t.forest.insert count t.fresh items).ids).Perm
        (0 :: (t.forest.ids ++ List.range' t.fresh (t.forest.missing items))) := ids_insert_perm.cons 0
    have hlt : ∀ k ∈ 0 :: t.forest.ids, k < t.fresh :=
      List.forall_mem_cons.2 ⟨h.size ▸ hs.tree.size_pos, fun k hk => h.size ▸ h.stored.lt_size hk⟩
    refine hperm.nodup_iff.2 (h.nodup.append List.nodup_range' fun k hk hk' => ?_)
    have := hlt k hk
    have := (List.mem_range'_1.1 hk').1
    omega

theorem splice (ht : a.Tree) (hparent : (a.cell id).parent = some parent) (hs : Spliced a id parent b) :
    b.Holds { t with forest := t.forest.select fun k _ => k ≠ id } := by
  have hid : id ≠ 0 := by
    rintro rfl
    rw [ht.root_parent] at hparent
    cases hparent
  have hroot : (a.cell 0).parent ≠ some id := by
    rw [ht.root_parent]
    exact nofun
  have htops : (a.cell 0).children = t.forest.tops := congrArg Cell.children h.root
  refine ⟨hs.size.trans h.size, ?_, hs.stored_select ht hparent h.stored h.nodup hid.symm, ?_⟩
  · rw [hs.unchained_eq ht hparent hid.symm hroot, h.root, htops,
      tops_select_ne h.stored (List.nodup_cons.1 h.nodup).2]
  · exact h.nodup.sublist (ids_select.cons_cons 0)

theorem spliceAll (ht : a.Tree) (hids : ids.Nodup) (hitem : ∀ k ∈ ids, (a.cell k).item = some item)
    (hrun : ids.foldlM LinkedTree.splice a = some b) :
    b.Holds { t with forest := t.forest.select fun k _ => k ∉ ids } := by
  induction ids generalizing a t with
  | nil =>
    cases hrun
    simpa only [List.not_mem_nil, not_false_eq_true, decide_true, select_true] using h
  | cons id ids ih =>
    obtain ⟨hid, hids⟩ := List.nodup_cons.1 hids
    obtain ⟨hfirst, hrest⟩ := List.forall_mem_cons.1 hitem
    obtain ⟨c, parent, hc, hparent, hs⟩ := ht.splice_ok hfirst
    have hrest' : ∀ k ∈ ids, (c.cell k).item = some item := by
      intro k hk
      rw [hs.item_eq, if_neg fun heq : k = id => hid (heq ▸ hk)]
      exact hrest k hk
    rw [List.foldlM_cons, hc] at hrun
    have hholds := ih (h.splice ht hparent hs) (hs.tree ht hparent) hids hrest' hrun
    rw [select_select] at hholds
    simpa [not_or] using hholds

theorem removeItem (hs : a.Sound) (hrun : a.removeItem item = some b) :
    b.Holds { t with forest := t.forest.select fun _ i => i ≠ item } := by
  obtain ⟨ids, hids⟩ := hs.chained item
  have hitem : ∀ k ∈ ids, (a.cell k).item = some item := fun k => (hids.mem_iff k).1
  obtain ⟨c, hc, -⟩ := spliceAll_ok hs.tree hids.nodup hitem
  have hholds := h.spliceAll hs.tree hids.nodup hitem hc
  simp only [LinkedTree.removeItem, hids.occurrences_eq, hc, Option.bind_eq_bind, Option.bind_some,
    Option.some.injEq] at hrun
  subst hrun
  have hsame : t.forest.select (fun k _ => k ∉ ids) = t.forest.select fun _ i => i ≠ item := by
    refine select_congr 0 [] fun x hx => ?_
    have hxitem : (a.cell x.id).item = some x.item := congrArg Cell.item (h.cell_node hx)
    have hmem : x.id ∈ ids ↔ x.item = item := by rw [hids.mem_iff, hxitem, Option.some.injEq]
    simp [hmem]
  rw [hsame] at hholds
  exact ⟨hholds.size, hholds.root, hholds.stored.congr fun _ _ => rfl, hholds.nodup⟩

theorem removeAll (hs : a.Sound) (hrun : items.foldlM LinkedTree.removeItem a = some b) :
    b.Holds { t with forest := t.forest.select fun _ i => i ∉ items } := by
  induction items generalizing a t with
  | nil =>
    cases hrun
    simpa only [List.not_mem_nil, not_false_eq_true, decide_true, select_true] using h
  | cons item items ih =>
    obtain ⟨c, hc, hsound, -⟩ := hs.removeItem_ok item
    rw [List.foldlM_cons, hc] at hrun
    have hholds := ih (h.removeItem hs hc) hsound hrun
    rw [select_select] at hholds
    simpa [not_or] using hholds

theorem prune (hs : a.Sound) (hfits : ∀ i, t.itemCount i < Word.size) (minimum : Nat) :
    ∃ b, a.prune minimum = some b ∧ b.Holds (t.prune minimum) := by
  obtain ⟨items, hitems, hmem⟩ := hs.infrequent_ok minimum
  obtain ⟨b, hb, -⟩ := hs.removeAll_ok items
  refine ⟨b, ?_, ?_⟩
  · simp only [LinkedTree.prune, hitems, hb, Option.bind_eq_bind, Option.bind_some]
  have hsame : (t.forest.select fun _ i => i ∉ items) =
      t.forest.select fun _ i => minimum ≤ t.itemCount i := by
    refine select_congr 0 [] fun x hx => ?_
    have hheader : x.item ∈ a.header := by
      obtain ⟨ids, hids⟩ := hs.chained x.item
      have hk : x.id ∈ ids := (hids.mem_iff x.id).2 ((h.item_iff hs).2 ⟨x, hx, rfl, rfl⟩)
      exact hids.mem_header.2 (List.ne_nil_of_mem hk)
    simp [hmem, hheader, h.itemSupport_eq hs, Word.wrap_of_lt (hfits x.item)]
  unfold PrefixTree.prune
  rw [prune_eq_select, ← hsame]
  exact h.removeAll hs hb

theorem step (hs : a.Sound) (hfits : ∀ i, t.itemCount i < Word.size) {s : TreeStep}
    (hcount : s.count < Word.size) : ∃ b, a.step s = some b ∧ b.Holds (t.step s) := by
  cases s with
  | insert items count => exact h.insert hs items hcount
  | prune minimum => exact h.prune hs hfits minimum

end Holds

/-- After any run the cells hold the forest of the prefix tree after that run. -/
theorem run_holds (steps : List TreeStep) (hdistinct : ∀ s ∈ steps, s.Distinct)
    (hfits : (steps.map (·.count)).sum < Word.size) :
    ∃ a, run steps = some a ∧ a.Sound ∧ a.Holds (PrefixTree.run steps) := by
  suffices hfrom : ∀ (a : LinkedTree) (t : PrefixTree) (ps : List WeightedPath), a.Sound → a.Holds t →
      t.Represents ps → t.count + (steps.map (·.count)).sum < Word.size →
        ∃ b, steps.foldlM step a = some b ∧ b.Sound ∧ b.Holds (steps.foldl PrefixTree.step t) from
    hfrom empty .empty [] sound_empty holds_empty PrefixTree.represents_empty
      ((Nat.zero_add _).symm ▸ hfits)
  clear hfits
  induction steps with
  | nil => exact fun a t ps hs h _ _ => ⟨a, rfl, hs, h⟩
  | cons s steps ih =>
    intro a t ps hs h ht hfits
    obtain ⟨hfirst, hrest⟩ := List.forall_mem_cons.1 hdistinct
    rw [List.map_cons, List.sum_cons] at hfits
    have hitems : ∀ i, t.itemCount i < Word.size := fun i =>
      Nat.lt_of_le_of_lt (ht.itemCount_le i) (by omega)
    obtain ⟨b, hb, hsound, -⟩ := hs.step_ok s
    obtain ⟨b', hb', hholds⟩ := h.step hs hitems (show s.count < Word.size by omega)
    obtain rfl : b = b' := Option.some.inj (hb.symm.trans hb')
    have htree := ht.step hfirst
    have hcount : (t.step s).count = t.count + s.count := by
      rw [htree.count_eq, WeightedPath.sum_count_step, ht.count_eq]
    obtain ⟨c, hc, hfinal⟩ := ih hrest b (t.step s) _ hsound hholds htree (by omega)
    refine ⟨c, ?_, hfinal⟩
    rw [List.foldlM_cons, hb]
    exact hc

theorem ofBase_holds {base : List WeightedPath} (hdistinct : ∀ p ∈ base, p.items.Nodup)
    (hfits : (base.map (·.count)).sum < Word.size) :
    ∃ a, ofBase base = some a ∧ a.Sound ∧ a.Holds (PrefixTree.ofBase base) := by
  have hsteps : ∀ s ∈ base.map fun p => TreeStep.insert p.items p.count, s.Distinct :=
    List.forall_mem_map.2 hdistinct
  obtain ⟨a, ha, hholds⟩ := run_holds _ hsteps (by rwa [List.map_map])
  rw [run, List.foldlM_map] at ha
  rw [PrefixTree.run, List.foldl_map] at hholds
  exact ⟨a, ha, hholds⟩

/-- The trees of the transactions that have an item agree as well. -/
theorem Holds.conditional {ps : List WeightedPath} (h : a.Holds t) (hs : a.Sound) (ht : t.Represents ps)
    (hfits : t.count < Word.size) (minimum : Nat) (item : ItemId) :
    ∃ base b c, a.conditionalBase item = some base ∧ ofBase base = some b ∧ b.prune minimum = some c ∧
      c.Sound ∧ c.Holds (t.conditional minimum item) := by
  have hbase : ∀ p ∈ t.conditionalBase item, p.items.Nodup := fun p hp => ht.conditionalBase_nodup hp
  have hsum : ((t.conditionalBase item).map (·.count)).sum < Word.size :=
    Nat.lt_of_le_of_lt ((t.sum_conditionalBase_le item).trans (ht.itemCount_le item)) hfits
  obtain ⟨b, hb, hbsound, hbholds⟩ := ofBase_holds hbase hsum
  have hrep := PrefixTree.represents_ofBase (PrefixTree.conditionalBase_pos ht.node_pos) hbase
  have hitems : ∀ i, (PrefixTree.ofBase (t.conditionalBase item)).itemCount i < Word.size := fun i =>
    Nat.lt_of_le_of_lt (hrep.itemCount_le i) (hrep.count_eq ▸ hsum)
  obtain ⟨c, hc, hcsound, -⟩ := hbsound.prune_ok minimum
  obtain ⟨c', hc', hcholds⟩ := hbholds.prune hbsound hitems minimum
  obtain rfl : c = c' := Option.some.inj (hc.symm.trans hc')
  have hnodes : ∀ x ∈ t.nodes, x.count < Word.size := fun x hx => Nat.lt_of_le_of_lt (ht.node_le hx) hfits
  exact ⟨_, b, c, h.conditionalBase_eq hs hnodes item, hb, hc, hcsound, hcholds⟩

/-- The cells are the nodes, and both trees give the same answers. -/
structure Agrees (a : LinkedTree) (t : PrefixTree) : Prop where
  root : a.cells[0]?.map Cell.unchained = some ⟨none, t.count, none, t.forest.tops, none⟩
  node : ∀ x ∈ t.nodes, a.cells[x.id]?.map Cell.unchained =
    some ⟨some x.item, x.count, some x.parent, x.children, none⟩
  occurrences : ∀ item, a.occurrences item = some ((t.chain item).map (·.id))
  keys : a.header.keys = t.header.toList
  itemSupport : ∀ item, a.itemSupport item = some (t.itemCount item)
  conditionalBase : ∀ item, a.conditionalBase item = some (t.conditionalBase item)
  nodeCount : a.nodeCount = some t.nodes.length
  isEmpty : a.isEmpty = some t.isEmpty
  hasSinglePath : a.hasSinglePath = some t.hasSinglePath
  singlePath : a.singlePath? = some t.singlePath?

theorem Holds.agrees {ps : List WeightedPath} (h : a.Holds t) (hs : a.Sound) (ht : t.Represents ps)
    (hfits : t.count < Word.size) : a.Agrees t where
  root := by rw [getElem?_cells hs.tree.size_pos, Option.map_some, h.root, Word.wrap_of_lt hfits]
  node x hx := by
    have hitem : (a.cell x.id).item = some x.item := congrArg Cell.item (h.cell_node hx)
    rw [getElem?_cells (lt_size_of_item hitem), Option.map_some, h.cell_node hx,
      Word.wrap_of_lt (Nat.lt_of_le_of_lt (ht.node_le hx) hfits)]
  occurrences := h.occurrences_eq hs
  keys := h.keys_eq hs
  itemSupport item := by
    rw [h.itemSupport_eq hs, Word.wrap_of_lt (Nat.lt_of_le_of_lt (ht.itemCount_le item) hfits)]
  conditionalBase := h.conditionalBase_eq hs fun _ hx => Nat.lt_of_le_of_lt (ht.node_le hx) hfits
  nodeCount := h.nodeCount_eq hs
  isEmpty := h.isEmpty_eq hs
  hasSinglePath := (h.path_eq hs fun _ hx => Nat.lt_of_le_of_lt (ht.node_le hx) hfits).1
  singlePath := (h.path_eq hs fun _ hx => Nat.lt_of_le_of_lt (ht.node_le hx) hfits).2

/-- After any run both trees agree. -/
theorem run_agrees (steps : List TreeStep) (hdistinct : ∀ s ∈ steps, s.Distinct)
    (hfits : (steps.map (·.count)).sum < Word.size) :
    ∃ a, run steps = some a ∧ a.Agrees (PrefixTree.run steps) := by
  obtain ⟨a, ha, hs, h⟩ := run_holds steps hdistinct hfits
  have ht := PrefixTree.run_represents hdistinct
  refine ⟨a, ha, h.agrees hs ht ?_⟩
  rwa [ht.count_eq, WeightedPath.sum_count_run]

/-- After any run of insertions, each without repeated items, and prunings the tree answers as the
list of paths does, if a word holds the count of all paths: its items are those of the paths, in
ascending order, each with the count of the paths that have it; its root counts all paths; and its base of
an item is theirs, once equal paths are added up. -/
theorem run_refines (steps : List TreeStep) (h : ∀ s ∈ steps, s.Distinct)
    (hfits : ((WeightedPath.run steps).map (·.count)).sum < Word.size) :
    ∃ a, run steps = some a ∧ a.header.keys.Pairwise (· < ·) ∧
      (∀ i, i ∈ a.header.keys ↔ ∃ p ∈ WeightedPath.run steps, i ∈ p.items) ∧
      (∀ i, a.itemSupport i = some (WeightedPath.occurrences (WeightedPath.run steps) i)) ∧
      a.cells[0]?.map (·.count) = some ((WeightedPath.run steps).map (·.count)).sum ∧
      ∀ i, ∃ base, a.conditionalBase i = some base ∧
        (WeightedPath.addUp base).Perm (WeightedPath.addUp (WeightedPath.baseOf (WeightedPath.run steps) i)) := by
  have ht := PrefixTree.run_represents h
  obtain ⟨a, ha, hagrees⟩ := run_agrees steps h (by rwa [← WeightedPath.sum_count_run])
  refine ⟨a, ha, ?_, fun i => ?_, fun i => ?_, ?_, fun i => ?_⟩
  · rw [hagrees.keys]
    exact (PrefixTree.run steps).header.ascending
  · rw [hagrees.keys]
    exact ht.mem_header i
  · rw [hagrees.itemSupport, ht.itemCount_eq]
  · have hroot := congrArg (Option.map Cell.count) hagrees.root
    rw [Option.map_map, ht.count_eq] at hroot
    exact hroot
  · exact ⟨_, hagrees.conditionalBase i, ht.addUp_conditionalBase i⟩

/-- three paths that pruning leaves alike, and one more after it -/
def spliced : List TreeStep :=
  [.insert [0, 1, 2] 1, .insert [0, 2] 1, .insert [0, 3, 2] 1, .prune 2, .insert [2] 1]

theorem run_refines_spliced : (∀ s ∈ spliced, s.Distinct) ∧
    ((WeightedPath.run spliced).map (·.count)).sum < Word.size ∧
    ∃ a, run spliced = some a ∧ a.itemSupport 2 = some 4 ∧
      ∃ base, a.conditionalBase 2 = some base ∧ (WeightedPath.addUp base).Perm [⟨[0], 3⟩] := by
  have h : ∀ s ∈ spliced, s.Distinct := by decide
  have hfits : ((WeightedPath.run spliced).map (·.count)).sum < Word.size := by decide
  obtain ⟨a, ha, -, -, hsupport, -, hbase⟩ := run_refines spliced h hfits
  obtain ⟨base, hbase, hperm⟩ := hbase 2
  exact ⟨h, hfits, a, ha, (hsupport 2).trans (by decide), base, hbase, hperm.trans (.of_eq (by decide))⟩

/-- The count of a path that was inserted too often comes back to zero, in the root and for its item. -/
theorem overflowing_not_refines : (∀ s ∈ overflowing, s.Distinct) ∧ ∃ a, run overflowing = some a ∧
    a.cells[0]?.map (·.count) = some 0 ∧ a.itemSupport 0 = some 0 ∧
      ((WeightedPath.run overflowing).map (·.count)).sum = 2 ^ 64 ∧
        WeightedPath.occurrences (WeightedPath.run overflowing) 0 = 2 ^ 64 := by
  have hrun : ((run overflowing).bind fun a => a.cells[0]?.map (·.count)) = some 0 ∧
    ((run overflowing).bind fun a => a.itemSupport 0) = some 0 := by decide
  obtain ⟨a, ha⟩ : ∃ a, run overflowing = some a := Option.isSome_iff_exists.1 (by decide)
  rw [ha] at hrun
  exact ⟨by decide, a, ha, hrun.1, hrun.2, by decide, by decide⟩

end LinkedTree
end StyleMiner
