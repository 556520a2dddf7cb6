import Mathlib.Data.List.Perm.Subperm
import StyleMiner.Proofs.LinkedInvariants

/-! The chains of a linked tree. The chain of an item leads through the cells that carry the item, in the
order of their positions, and the table has its first and its last cell. A walk along it ends. -/

namespace StyleMiner.LinkedTree

variable {a b : LinkedTree} {id parent : Nat} {item i : ItemId} {count : Nat} {start : Option Nat}
  {ids : List Nat}

/-- The next-links lead from `start` through the cells of a list and end there. -/
def Threads (a : LinkedTree) : Option Nat → List Nat → Prop
  | start, [] => start = none
  | start, id :: ids => start = some id ∧ a.Threads (a.cell id).next ids

theorem Threads.congr (h : a.Threads start ids)
    (hnext : ∀ id ∈ ids, (b.cell id).next = (a.cell id).next) : b.Threads start ids := by
  induction ids generalizing start with
  | nil => exact h
  | cons id ids ih =>
    obtain ⟨hid, hids⟩ := List.forall_mem_cons.1 hnext
    refine ⟨h.1, ?_⟩
    rw [hid]
    exact ih h.2 hids

/-- A cell behind the last one is reached if that links to it. -/
theorem Threads.snoc {new : Nat} (h : a.Threads start ids) (hids : ids.Nodup)
    (hnext : ∀ id ∈ ids, (b.cell id).next =
      if ids.getLast? = some id then some new else (a.cell id).next)
    (hnew : (b.cell new).next = none) : b.Threads (some (start.getD new)) (ids ++ [new]) := by
  induction ids generalizing start with
  | nil =>
    cases h
    exact ⟨rfl, hnew⟩
  | cons id ids ih =>
    obtain ⟨rfl, h⟩ := h
    obtain ⟨hid, hnodup⟩ := List.nodup_cons.1 hids
    refine ⟨rfl, ?_⟩
    rw [hnext id List.mem_cons_self]
    cases ids with
    | nil =>
      rw [if_pos List.getLast?_singleton]
      exact ⟨rfl, hnew⟩
    | cons k ids =>
      have hlast : (id :: k :: ids).getLast? = (k :: ids).getLast? := List.getLast?_cons_cons
      have hne : ¬ (k :: ids).getLast? = some id := fun hl => hid (List.mem_of_getLast? hl)
      rw [hlast, if_neg hne, h.1]
      have hrest := ih h hnodup fun j hj => by rw [hnext j (List.mem_cons_of_mem _ hj), hlast]
      rwa [h.1] at hrest

theorem walk_next (h : a.Threads start ids) (hin : ∀ id ∈ ids, id < a.cells.size) {fuel : Nat}
    (hfuel : ids.length ≤ fuel) : a.walk (·.next) fuel start = some ids := by
  induction ids generalizing start fuel with
  | nil =>
    cases h
    cases fuel <;> rfl
  | cons id ids ih =>
    obtain ⟨rfl, h⟩ := h
    obtain ⟨hid, hin⟩ := List.forall_mem_cons.1 hin
    cases fuel with
    | zero => cases hfuel
    | succ fuel =>
      simp only [walk, getElem?_cells hid, Option.bind_eq_bind, Option.bind_some,
        ih h hin (Nat.le_of_succ_le_succ hfuel)]

/-- The chain of an item is the list `ids`. -/
structure ChainOf (a : LinkedTree) (item : ItemId) (ids : List Nat) : Prop where
  ascending : ids.Pairwise (· < ·)
  mem_iff : ∀ id, id ∈ ids ↔ (a.cell id).item = some item
  threads : a.Threads (a.header[item]?.map (·.head)) ids
  tail : a.header[item]?.map (·.tail) = ids.getLast?

def Chained (a : LinkedTree) : Prop := ∀ item, ∃ ids, a.ChainOf item ids

theorem chained_empty : Chained empty := fun item =>
  ⟨[], .nil, fun id => by rw [cell_empty]; exact ⟨nofun, nofun⟩, by simp [empty, Threads], by simp [empty]⟩

namespace ChainOf

variable (h : a.ChainOf item ids)
include h

theorem nodup : ids.Nodup := h.ascending.imp Nat.ne_of_lt

theorem lt_size (hid : id ∈ ids) : id < a.cells.size := lt_size_of_item ((h.mem_iff id).1 hid)

theorem occurrences_eq : a.occurrences item = some ids := by
  apply walk_next h.threads fun id => h.lt_size
  have hsub : ids ⊆ List.range a.cells.size := fun id hid => List.mem_range.2 (h.lt_size hid)
  simpa using (h.nodup.subperm hsub).length_le

theorem mem_header : item ∈ a.header ↔ ids ≠ [] := by
  have hthreads := h.threads
  rw [Std.TreeMap.mem_iff_isSome_getElem?]
  cases ids with
  | nil => simpa [Threads] using hthreads
  | cons id ids =>
    obtain ⟨hhead, -⟩ := hthreads
    obtain ⟨chain, hchain, -⟩ := Option.map_eq_some_iff.1 hhead
    simp [hchain]

theorem recounted (hr : Recounted a id count b) : b.ChainOf item ids where
  ascending := h.ascending
  mem_iff k := by rw [hr.cell]; exact h.mem_iff k
  threads := by
    rw [hr.header]
    exact h.threads.congr fun k _ => by rw [hr.cell]
  tail := by rw [hr.header]; exact h.tail

/-- Taking out a cell with another item leaves the chain alone. -/
theorem spliced (hs : Spliced a id parent b) (hitem : (a.cell id).item ≠ some item) :
    b.ChainOf item ids where
  ascending := h.ascending
  mem_iff k := by
    rw [h.mem_iff, hs.item_eq]
    split
    · next hk =>
      rw [hk]
      exact ⟨fun hi => absurd hi hitem, nofun⟩
    · exact Iff.rfl
  threads := by
    rw [hs.header]
    exact h.threads.congr fun k _ => hs.next_eq k
  tail := by rw [hs.header]; exact h.tail

/-- A new child is the last of its chain. -/
theorem pushed (hp : Pushed a parent item count b) : b.ChainOf item (ids ++ [a.cells.size]) where
  ascending := by
    refine List.pairwise_append.2 ⟨h.ascending, List.pairwise_singleton _ _, fun k hk m hm => ?_⟩
    rw [List.mem_singleton.1 hm]
    exact h.lt_size hk
  mem_iff k := by
    rw [List.mem_append, List.mem_singleton, h.mem_iff, hp.item_eq]
    split
    · next hk => simp [hk]
    · next hk => simp [hk]
  threads := by
    have hstart : b.header[item]?.map (·.head) =
        some ((a.header[item]?.map (·.head)).getD a.cells.size) := by
      rw [hp.header, if_pos rfl]
      rfl
    rw [hstart]
    refine h.threads.snoc h.nodup (fun k hk => ?_) (by rw [hp.new])
    rw [hp.old k (Nat.ne_of_lt (h.lt_size hk)), ← h.tail]
  tail := by
    rw [hp.header, if_pos rfl]
    simp

/-- It leaves the other chains alone. -/
theorem pushed_of_ne (hp : Pushed a parent i count b) (hne : item ≠ i) (hc : a.Chained) :
    b.ChainOf item ids where
  ascending := h.ascending
  mem_iff k := by
    rw [h.mem_iff, hp.item_eq]
    split
    · next hk =>
      rw [hk, cell_of_le (Nat.le_refl _)]
      simp [Cell.blank, Ne.symm hne]
    · exact Iff.rfl
  threads := by
    rw [hp.header, if_neg hne]
    refine h.threads.congr fun k hk => ?_
    obtain ⟨js, hjs⟩ := hc i
    have htail : ¬ a.header[i]?.map (·.tail) = some k := by
      rw [hjs.tail]
      intro hlast
      have hitem := (hjs.mem_iff k).1 (List.mem_of_getLast? hlast)
      rw [(h.mem_iff k).1 hk] at hitem
      exact hne (Option.some.inj hitem)
    rw [hp.old k (Nat.ne_of_lt (h.lt_size hk)), if_neg htail]
  tail := by
    rw [hp.header, if_neg hne]
    exact h.tail

end ChainOf

theorem Recounted.chained (h : Recounted a id count b) (hc : a.Chained) : b.Chained := fun item =>
  (hc item).imp fun _ hids => hids.recounted h

theorem Pushed.chained (h : Pushed a parent item count b) (hc : a.Chained) : b.Chained := by
  intro i
  obtain ⟨ids, hids⟩ := hc i
  by_cases hi : i = item
  · subst hi
    exact ⟨_, hids.pushed h⟩
  · exact ⟨ids, hids.pushed_of_ne h hi hc⟩

theorem Chained.tail_lt (hc : a.Chained) {chain : Chain} (h : a.header[item]? = some chain) :
    chain.tail < a.cells.size := by
  obtain ⟨ids, hids⟩ := hc item
  have htail := hids.tail
  rw [h] at htail
  exact hids.lt_size (List.mem_of_getLast? htail.symm)

end StyleMiner.LinkedTree
