import StyleMiner.Mining.ItemSet
import StyleMiner.Proofs.Inclusion

/-! The selectors that declare all items of a set, said of the table alone. An item set that is built
from a table by adding and removing items carries these, whatever was added and removed before; the
set that a list of ids builds is known by the ids in it. -/

namespace StyleMiner

namespace ItemTable

variable {t : ItemTable} {x y : IdSet} {id : ItemId} {item : Item} {s : SelectorId}

/-- whether all ids are those of items -/
def Has (t : ItemTable) (x : IdSet) : Prop := ∀ id ∈ x, id < t.size

/-- the selectors that declare all items of a set -/
def common (t : ItemTable) (x : IdSet) : Support :=
  ⟨(List.range t.selectorCount).filter fun s => ∀ item ∈ t.items, item.id ∈ x → s ∈ item.support,
    List.pairwise_lt_range.filter _⟩

theorem mem_common :
    s ∈ t.common x ↔ s < t.selectorCount ∧ ∀ item ∈ t.items, item.id ∈ x → s ∈ item.support := by
  simp [common, IdSet.mem_def]

theorem common_anti (h : x ⊆ y) : t.common y ⊆ t.common x := by
  intro s hs
  rw [mem_common] at hs ⊢
  exact ⟨hs.1, fun item hi hx => hs.2 item hi (h _ hx)⟩

/-- Where no selector is lost, the support is the same. -/
theorem common_eq_of_size_eq (h : x ⊆ y) (hs : (t.common y).size = (t.common x).size) :
    t.common y = t.common x :=
  IdSet.eq_of_subset_of_size_le (common_anti h) (Nat.le_of_eq hs.symm)

theorem common_empty : t.common .empty = t.everySelector :=
  IdSet.ext fun s => by simp [mem_common, everySelector, IdSet.mem_below, IdSet.not_mem_empty]

theorem eq_of_id_eq {a b : Item} (ha : a ∈ t.items) (hb : b ∈ t.items) (h : a.id = b.id) : a = b := by
  have hnodup : (t.items.map (·.id)).Nodup := t.numbered ▸ List.nodup_range
  exact List.inj_on_of_nodup_map hnodup ha hb h

theorem id_lt_size (h : item ∈ t.items) : item.id < t.size := by
  have hmem := List.mem_map_of_mem (f := (·.id)) h
  rw [t.numbered] at hmem
  exact List.mem_range.1 hmem

theorem id_getElem (h : id < t.items.length) : t.items[id].id = id := by
  have hget : (t.items.map (·.id))[id]? = some id := by
    rw [t.numbered, List.getElem?_range h]
  simpa [h] using hget

theorem get_ok (h : id < t.size) : ∃ item ∈ t.items, item.id = id ∧ t.get id = .ok item := by
  have hlen : id < t.items.length := h
  refine ⟨t.items[id], List.getElem_mem hlen, id_getElem hlen, ?_⟩
  simp only [get, OutOfBounds.get, List.getElem?_eq_getElem hlen]
  rfl

theorem of_get_ok (h : t.get id = .ok item) : item ∈ t.items ∧ item.id = id := by
  by_cases hlt : id < t.size
  · obtain ⟨i, hi, hid, hget⟩ := get_ok hlt
    obtain rfl : i = item := Except.ok.inj (hget.symm.trans h)
    exact ⟨hi, hid⟩
  · have hnone : t.items[id]? = none := List.getElem?_eq_none (Nat.le_of_not_lt hlt)
    simp only [get, OutOfBounds.get, hnone] at h
    cases h

theorem has_empty : t.Has .empty := fun _ h => absurd h IdSet.not_mem_empty

theorem has_insert (hx : t.Has x) (hid : id < t.size) : t.Has (x.insert id) := by
  intro i hi
  rcases IdSet.mem_insert.1 hi with rfl | hi
  · exact hid
  · exact hx i hi

theorem has_subset (h : x ⊆ y) (hy : t.Has y) : t.Has x := fun id hid => hy id (h id hid)

theorem has_erase (hx : t.Has x) : t.Has (x.erase id) := has_subset (fun _ hi => (IdSet.mem_erase.1 hi).1) hx

theorem common_insert (hi : item ∈ t.items) :
    t.common (x.insert item.id) = (t.common x).inter item.support := by
  refine IdSet.ext fun s => ?_
  simp only [mem_common, IdSet.mem_inter, IdSet.mem_insert]
  constructor
  · rintro ⟨hs, h⟩
    exact ⟨⟨hs, fun i hm hx => h i hm (.inr hx)⟩, h item hi (.inl rfl)⟩
  · rintro ⟨⟨hs, h⟩, hsup⟩
    refine ⟨hs, fun i hm hx => ?_⟩
    rcases hx with hid | hx
    · exact eq_of_id_eq hm hi hid ▸ hsup
    · exact h i hm hx

end ItemTable

namespace ItemSet

variable {table : ItemTable} {s u : ItemSet} {x : IdSet} {id : ItemId} {item : Item}

/-- what comes of adding and removing items of a table, from no items on -/
inductive Built (table : ItemTable) : ItemSet → Prop where
  | empty : Built table (.empty table)
  | insert {s u : ItemSet} {id : ItemId} (h : Built table s) (hu : insertId table s id = .ok u) :
    Built table u
  | erase {s u : ItemSet} {id : ItemId} (h : Built table s)
    (hu : s.erase? table id = .ok (some u)) : Built table u

/-- whether a set has items of the table alone and carries the selectors that declare them all -/
structure Faithful (table : ItemTable) (s : ItemSet) : Prop where
  has : table.Has s.items
  support_eq : s.support = table.common s.items

theorem Faithful.eq_of_items_eq (hs : s.Faithful table) (hu : u.Faithful table)
    (h : s.items = u.items) : s = u := by
  obtain ⟨i, p⟩ := s
  obtain ⟨j, q⟩ := u
  obtain rfl : i = j := h
  rw [show p = q from hs.support_eq.trans hu.support_eq.symm]

theorem faithful_mk (h : table.Has x) : Faithful table ⟨x, table.common x⟩ := ⟨h, rfl⟩

theorem faithful_empty : (ItemSet.empty table).Faithful table :=
  ⟨ItemTable.has_empty, ItemTable.common_empty.symm⟩

/-- An item that is in the set already is in its support's account already. -/
theorem Faithful.insert_eq (hs : s.Faithful table) (hi : item ∈ table.items) :
    s.insert item = ⟨s.items.insert item.id, table.common (s.items.insert item.id)⟩ := by
  by_cases hmem : item.id ∈ s.items
  · have hsame : s.items.insert item.id = s.items := IdSet.ext fun i => by
      rw [IdSet.mem_insert]
      exact or_iff_right_of_imp fun h => h ▸ hmem
    simp only [insert, insert?, IdSet.insert?, hmem, ↓reduceIte, Option.map_none, Option.getD_none,
      hsame, ← hs.support_eq]
  · simp only [insert, insert?, IdSet.insert?, hmem, ↓reduceIte, Option.map_some, Option.getD_some,
      ItemTable.common_insert hi, hs.support_eq]

theorem Faithful.insertId_eq (hs : s.Faithful table) (h : id < table.size) :
    insertId table s id = .ok ⟨s.items.insert id, table.common (s.items.insert id)⟩ := by
  obtain ⟨item, hi, rfl, hget⟩ := ItemTable.get_ok h
  simp only [insertId, hget, ← hs.insert_eq hi]
  rfl

theorem Faithful.insertId (hs : s.Faithful table) (hu : insertId table s id = .ok u) :
    u.Faithful table := by
  cases hget : table.get id with
  | error e => simp [ItemSet.insertId, hget, bind, Except.bind] at hu
  | ok item =>
    obtain ⟨hi, rfl⟩ := ItemTable.of_get_ok hget
    have hlt := ItemTable.id_lt_size hi
    rw [hs.insertId_eq hlt] at hu
    obtain rfl := Except.ok.inj hu
    exact faithful_mk (ItemTable.has_insert hs.has hlt)

theorem foldlM_insertId (hs : s.Faithful table) {ids : List ItemId} (h : ∀ id ∈ ids, id < table.size) :
    ids.foldlM (ItemSet.insertId table) s =
      .ok ⟨ids.foldl .insert s.items, table.common (ids.foldl .insert s.items)⟩ := by
  induction ids generalizing s with
  | nil =>
    obtain ⟨i, p⟩ := s
    rw [show p = table.common i from hs.support_eq]
    rfl
  | cons id ids ih =>
    have hid := h id List.mem_cons_self
    rw [List.foldlM_cons, hs.insertId_eq hid]
    exact ih (faithful_mk (ItemTable.has_insert hs.has hid)) fun i hi => h i (List.mem_cons_of_mem _ hi)

theorem ofIds_eq {ids : List ItemId} (h : ∀ id ∈ ids, id < table.size) :
    ofIds table ids = .ok ⟨.ofList ids, table.common (.ofList ids)⟩ := foldlM_insertId faithful_empty h

/-- The support of the members is found by narrowing from every selector on. -/
theorem intersection_eq (h : table.Has x) : intersection table x = .ok (table.common x) := by
  suffices hs : ∀ (ids : List ItemId) (y : IdSet), (∀ id ∈ ids, id < table.size) →
      ids.foldlM (fun s id => do return s.inter (← table.get id).support) (table.common y) =
        .ok (table.common (ids.foldl .insert y)) by
    have hx := hs x.toList .empty h
    rw [ItemTable.common_empty] at hx
    have hlist : x.toList.foldl .insert .empty = x := IdSet.ofList_toList x
    rw [intersection, hx, hlist]
  intro ids
  induction ids with
  | nil => intro y _; rfl
  | cons id ids ih =>
    intro y h
    obtain ⟨item, hi, rfl, hget⟩ := ItemTable.get_ok (h id List.mem_cons_self)
    have hrest := ih (y.insert item.id) fun i hm => h i (List.mem_cons_of_mem _ hm)
    rw [ItemTable.common_insert hi] at hrest
    rw [List.foldlM_cons, hget]
    exact hrest

theorem Faithful.checkSupport_eq (hs : s.Faithful table) : s.checkSupport table = .ok () := by
  simp only [checkSupport, intersection_eq hs.has, bind, Except.bind, hs.support_eq, ↓reduceIte]
  rfl

theorem erase?_absent (table : ItemTable) (h : id ∉ s.items) : s.erase? table id = .ok none := if_neg h

/-- What is left of the members has its support built anew. -/
theorem Faithful.erase?_member (hs : s.Faithful table) (h : id ∈ s.items) :
    s.erase? table id = .ok (some ⟨s.items.erase id, table.common (s.items.erase id)⟩) := by
  unfold erase?
  rw [if_pos h]
  simp only [intersection_eq (ItemTable.has_erase hs.has)]
  rfl

theorem Faithful.erase (hs : s.Faithful table) (hu : s.erase? table id = .ok (some u)) :
    u.Faithful table := by
  by_cases h : id ∈ s.items
  · rw [hs.erase?_member h] at hu
    obtain rfl := Option.some.inj (Except.ok.inj hu)
    exact faithful_mk (ItemTable.has_erase hs.has)
  · rw [erase?_absent table h] at hu
    cases hu

theorem Built.faithful (h : s.Built table) : s.Faithful table := by
  induction h with
  | empty => exact faithful_empty
  | insert _ hu ih => exact ih.insertId hu
  | erase _ hu ih => exact ih.erase hu

theorem built_of_foldlM {ids : List ItemId} (h : s.Built table)
    (hu : ids.foldlM (ItemSet.insertId table) s = .ok u) : u.Built table := by
  induction ids generalizing s with
  | nil => obtain rfl := Except.ok.inj hu; exact h
  | cons id ids ih =>
    rw [List.foldlM_cons] at hu
    cases hn : ItemSet.insertId table s id with
    | error e => rw [hn] at hu; cases hu
    | ok next => rw [hn] at hu; exact ih (h.insert hn) hu

/-- A list of ids builds its set in the same way. -/
theorem built_of_ofIds {ids : List ItemId} (h : ofIds table ids = .ok s) : s.Built table :=
  built_of_foldlM .empty h

end ItemSet
end StyleMiner
