import StyleMiner.Mining.IdRow
import StyleMiner.Proofs.Inclusion

/-! Rows of ids ascend, whatever they are built from. On an ascending row halving finds each id that stands in
it, and for any other the one place that it belongs at; two ascending rows read side by side give the ids
in both. So a row is the list of the set that the same steps build, and rows are equal where their sets are. -/

namespace StyleMiner

namespace IdRow

variable {ids xs ys : List Nat} {r s t : IdRow} {x y base size : Nat}

/-- a row of ascending ids, none of them twice -/
def Ascends (r : IdRow) : Prop := r.ids.Pairwise (· < ·)

/-- Ascending rows are known by their ids. -/
theorem Ascends.ext (hr : r.Ascends) (hs : s.Ascends) (h : ∀ x, x ∈ r ↔ x ∈ s) : r = s := by
  have hsets : (⟨r.ids, hr⟩ : IdSet) = ⟨s.ids, hs⟩ := IdSet.ext h
  cases r
  cases s
  exact congrArg (fun u : IdSet => IdRow.mk u.toList) hsets

theorem mem_squeeze : x ∈ squeeze xs ↔ x ∈ xs := by
  fun_induction squeeze xs with
  | case1 y t ih => simp [ih]
  | case2 y z t h ih => simp [ih]
  | case3 => rfl

theorem squeeze_ascends (h : xs.Pairwise (· ≤ ·)) : (squeeze xs).Pairwise (· < ·) := by
  fun_induction squeeze xs with
  | case1 y t ih => exact ih h.tail
  | case2 y z t hne ih =>
    obtain ⟨hy, ht⟩ := List.pairwise_cons.1 h
    obtain ⟨hz, -⟩ := List.pairwise_cons.1 ht
    have hlt : y < z := Nat.lt_of_le_of_ne (hy z List.mem_cons_self) hne
    refine List.pairwise_cons.2 ⟨fun w hw => ?_, ih ht⟩
    rcases List.mem_cons.1 (mem_squeeze.1 hw) with rfl | hw
    · exact hlt
    · exact Nat.lt_of_lt_of_le hlt (hz w hw)
  | case3 xs hne =>
    cases xs with
    | nil => exact List.Pairwise.nil
    | cons y t =>
      cases t with
      | nil => exact List.pairwise_singleton _ _
      | cons z t => exact absurd rfl (hne y z t)

theorem mem_ofList : x ∈ ofList xs ↔ x ∈ xs := mem_squeeze.trans List.mem_mergeSort

theorem ascends_ofList (xs : List Nat) : (ofList xs).Ascends := by
  have hsorted : xs.mergeSort.Pairwise fun a b => decide (a ≤ b) = true :=
    List.pairwise_mergeSort (by simp; omega) (by simp; omega) xs
  exact squeeze_ascends (hsorted.imp of_decide_eq_true)

theorem around (hids : ids.Pairwise (· < ·)) {i : Nat} (hi : i < ids.length) :
    (∀ y ∈ ids.take i, y < ids[i]) ∧ ∀ y ∈ ids.drop (i + 1), ids[i] < y := by
  have hsplit : ids.take i ++ ids[i] :: ids.drop (i + 1) = ids := by
    rw [List.getElem_cons_drop, List.take_append_drop]
  rw [← hsplit, List.pairwise_append, List.pairwise_cons] at hids
  obtain ⟨-, ⟨hbehind, -⟩, hbefore⟩ := hids
  exact ⟨fun y hy => hbefore y hy _ List.mem_cons_self, hbehind⟩

/-- `size` places from `base` on, one of which at least, with smaller ids before them and greater ones behind
them than `x` -/
structure Window (ids : List Nat) (x base size : Nat) : Prop where
  size_pos : 0 < size
  le_length : base + size ≤ ids.length
  before : ∀ y ∈ ids.take base, y < x
  behind : ∀ y ∈ ids.drop (base + size), x < y

/-- Halving keeps to the half that `x` can stand in. -/
theorem Window.half (h : Window ids x base size) (hids : ids.Pairwise (· < ·)) (hsize : 1 < size) :
    Window ids x (if ids[base + size / 2]?.any (x < ·) then base else base + size / 2) (size - size / 2) := by
  have hlength := h.le_length
  have hmiddle : base + size / 2 < ids.length := by omega
  obtain ⟨hbefore, hbehind⟩ := around hids hmiddle
  rw [List.getElem?_eq_getElem hmiddle, Option.any_some]
  by_cases hgt : x < ids[base + size / 2]
  · rw [if_pos (decide_eq_true hgt)]
    refine ⟨by omega, by omega, h.before, fun y hy => ?_⟩
    -- the middle may be the last place of the half that is kept
    have hy : y ∈ ids.drop (base + size / 2) :=
      (List.drop_sublist_drop_left ids (by omega)).subset hy
    rw [← List.getElem_cons_drop hmiddle] at hy
    rcases List.mem_cons.1 hy with rfl | hy
    · exact hgt
    · exact Nat.lt_trans hgt (hbehind y hy)
  · rw [if_neg (by simpa using hgt)]
    refine ⟨by omega, by omega, fun y hy => ?_, ?_⟩
    · exact Nat.lt_of_lt_of_le (hbefore y hy) (Nat.le_of_not_lt hgt)
    · rw [show base + size / 2 + (size - size / 2) = base + size by omega]
      exact h.behind

theorem Window.narrow (h : Window ids x base size) (hids : ids.Pairwise (· < ·)) :
    Window ids x (narrow ids x base size) 1 := by
  fun_induction IdRow.narrow ids x base size with
  | case1 base size hle =>
    obtain rfl : size = 1 := Nat.le_antisymm hle h.size_pos
    exact h
  | case2 base size hgt middle ih => exact ih (h.half hids (Nat.lt_of_not_le hgt))

/-- What is found is there. -/
theorem mem_of_found {i : Nat} (h : r.search x = .found i) : x ∈ r := by
  unfold search at h
  dsimp only at h
  split at h
  · cases h
  · next y hy =>
    split at h
    · next heq => exact heq ▸ List.mem_of_getElem? hy
    · cases h

/-- What is missing belongs behind the ids less than it and before the greater ones. -/
theorem Ascends.of_missing (hr : r.Ascends) {i : Nat} (h : r.search x = .missing i) :
    i ≤ r.ids.length ∧ (∀ y ∈ r.ids.take i, y < x) ∧ ∀ y ∈ r.ids.drop i, x < y := by
  cases hnil : r.ids with
  | nil =>
    have hplace : IdRow.narrow [] x 0 0 = 0 := by rw [IdRow.narrow, if_pos (Nat.zero_le 1)]
    rw [search, size, hnil] at h
    obtain rfl : 0 = i := hplace ▸ Spot.missing.inj h
    simp
  | cons z zs =>
    have hwhole : Window r.ids x 0 r.size :=
      ⟨by simp [size, hnil], by simp [size], by simp, by simp [size]⟩
    have hwindow := hwhole.narrow hr
    have hplace : IdRow.narrow r.ids x 0 r.size < r.ids.length := hwindow.le_length
    rw [← hnil]
    unfold search at h
    dsimp only at h
    generalize IdRow.narrow r.ids x 0 r.size = place at h hwindow hplace
    rw [List.getElem?_eq_getElem hplace] at h
    dsimp only at h
    split at h
    · cases h
    · next hne =>
      obtain rfl := Spot.missing.inj h
      split
      · next hlt =>
        refine ⟨hplace, fun y hy => ?_, hwindow.behind⟩
        rw [List.take_succ_eq_append_getElem hplace, List.mem_append, List.mem_singleton] at hy
        rcases hy with hy | rfl
        · exact hwindow.before y hy
        · exact hlt
      · next hle =>
        refine ⟨Nat.le_of_lt hplace, hwindow.before, fun y hy => ?_⟩
        rw [← List.getElem_cons_drop hplace] at hy
        rcases List.mem_cons.1 hy with rfl | hy
        · omega
        · exact hwindow.behind y hy

theorem Ascends.contains_iff (hr : r.Ascends) : r.contains x = true ↔ x ∈ r := by
  unfold contains
  split
  · next h => exact iff_of_true rfl (mem_of_found h)
  · next i h =>
    refine iff_of_false Bool.false_ne_true fun hx => ?_
    obtain ⟨-, hbefore, hbehind⟩ := hr.of_missing h
    rw [mem_def, ← List.take_append_drop i r.ids, List.mem_append] at hx
    rcases hx with hx | hx
    · exact Nat.lt_irrefl x (hbefore x hx)
    · exact Nat.lt_irrefl x (hbehind x hx)

theorem insertIdx_eq {i : Nat} (h : i ≤ ids.length) : ids.insertIdx i x = ids.take i ++ x :: ids.drop i := by
  induction ids generalizing i with
  | nil =>
    obtain rfl := Nat.le_zero.1 h
    rfl
  | cons y ids ih =>
    cases i with
    | zero => rfl
    | succ i => rw [List.insertIdx_succ_cons, ih (Nat.le_of_succ_le_succ h)]; rfl

theorem insert_present (h : r.search x = .found base) : r.insert x = (r, false) := by
  rw [insert, h]

theorem insert_absent (hr : r.Ascends) (h : r.search x = .missing base) :
    r.insert x = (⟨r.ids.take base ++ x :: r.ids.drop base⟩, true) := by
  rw [insert, h, ← insertIdx_eq (hr.of_missing h).1]

/-- An id that comes in makes the row ascend again. -/
theorem Ascends.insert (hr : r.Ascends) (x : Nat) : (r.insert x).1.Ascends := by
  cases h : r.search x with
  | found i => rw [insert_present h]; exact hr
  | missing i =>
    obtain ⟨-, hbefore, hbehind⟩ := hr.of_missing h
    rw [insert_absent hr h]
    refine List.pairwise_append.2 ⟨hr.sublist (List.take_sublist _ _),
      List.pairwise_cons.2 ⟨hbehind, hr.sublist (List.drop_sublist _ _)⟩, fun y hy z hz => ?_⟩
    rcases List.mem_cons.1 hz with rfl | hz
    · exact hbefore y hy
    · exact Nat.lt_trans (hbefore y hy) (hbehind z hz)

theorem Ascends.mem_insert (hr : r.Ascends) : y ∈ (r.insert x).1 ↔ y = x ∨ y ∈ r := by
  cases h : r.search x with
  | found i =>
    rw [insert_present h]
    exact (or_iff_right_of_imp fun heq => heq ▸ mem_of_found h).symm
  | missing i =>
    obtain ⟨hplace, -⟩ := hr.of_missing h
    rw [IdRow.insert, h]
    exact List.mem_insertIdx hplace

/-- The answer says whether the id is new. -/
theorem Ascends.insert_snd (hr : r.Ascends) : (r.insert x).2 = true ↔ x ∉ r := by
  rw [← hr.contains_iff, Bool.not_eq_true]
  cases h : r.search x with
  | found i => simp [IdRow.insert, contains, h]
  | missing i => simp [IdRow.insert, contains, h]

theorem common_sublist (xs ys : List Nat) : (common xs ys).Sublist xs := by
  fun_induction common xs ys with
  | case1 x xs y ys hlt ih => exact ih.cons x
  | case2 x xs y ys hle hgt ih => exact ih
  | case3 x xs y ys hle hge ih => exact ih.cons_cons x
  | case4 => exact List.nil_sublist _

/-- What is less than the first of ascending ids is none of them. -/
theorem notMem_of_lt (h : x < y) (hids : (y :: ids).Pairwise (· < ·)) : x ∉ y :: ids := by
  intro hx
  rcases List.mem_cons.1 hx with rfl | hx
  · exact Nat.lt_irrefl x h
  · exact Nat.lt_asymm h ((List.pairwise_cons.1 hids).1 x hx)

theorem mem_common (hxs : xs.Pairwise (· < ·)) (hys : ys.Pairwise (· < ·)) :
    x ∈ common xs ys ↔ x ∈ xs ∧ x ∈ ys := by
  fun_induction common xs ys with
  | case1 z zs y ys hlt ih =>
    -- the first of one row is passed over where all that is left of the other is greater
    have hz : z ∉ y :: ys := notMem_of_lt hlt hys
    rw [ih hxs.tail hys, List.mem_cons (b := z)]
    refine and_congr_left fun hmem => (or_iff_right ?_).symm
    rintro rfl
    exact hz hmem
  | case2 z zs y ys hle hgt ih =>
    have hy : y ∉ z :: zs := notMem_of_lt hgt hxs
    rw [ih hxs hys.tail, List.mem_cons (b := y)]
    refine and_congr_right fun hmem => (or_iff_right ?_).symm
    rintro rfl
    exact hy hmem
  | case3 z zs y ys hle hge ih =>
    obtain rfl : z = y := Nat.le_antisymm (Nat.le_of_not_lt hge) (Nat.le_of_not_lt hle)
    rw [List.mem_cons, ih hxs.tail hys.tail, List.mem_cons, List.mem_cons, or_and_left]
  | case4 xs ys hnil =>
    refine iff_of_false List.not_mem_nil ?_
    intro ⟨hx, hy⟩
    obtain ⟨z, zs, rfl⟩ := List.exists_cons_of_ne_nil (List.ne_nil_of_mem hx)
    obtain ⟨w, ws, rfl⟩ := List.exists_cons_of_ne_nil (List.ne_nil_of_mem hy)
    exact hnil z zs w ws rfl rfl

theorem Ascends.inter (hr : r.Ascends) (s : IdRow) : (r.inter s).Ascends := hr.sublist (common_sublist _ _)

theorem Ascends.mem_inter (hr : r.Ascends) (hs : s.Ascends) : x ∈ r.inter s ↔ x ∈ r ∧ x ∈ s := mem_common hr hs

theorem Ascends.inter_comm (hr : r.Ascends) (hs : s.Ascends) : r.inter s = s.inter r :=
  (hr.inter s).ext (hs.inter r) fun x => by
    rw [hr.mem_inter hs, hs.mem_inter hr, and_comm]

theorem Ascends.inter_assoc (hr : r.Ascends) (hs : s.Ascends) (ht : t.Ascends) :
    (r.inter s).inter t = r.inter (s.inter t) :=
  ((hr.inter s).inter t).ext (hr.inter _) fun x => by
    rw [(hr.inter s).mem_inter ht, hr.mem_inter hs, hr.mem_inter (hs.inter t), hs.mem_inter ht, and_assoc]

theorem Ascends.inter_self (hr : r.Ascends) : r.inter r = r :=
  (hr.inter r).ext hr fun x => by rw [hr.mem_inter hr, and_self_iff]

/-- The sizes are compared first, which decides nothing that the ids do not. -/
theorem Ascends.subset_iff (hr : r.Ascends) (hs : s.Ascends) : r.subset s = true ↔ ∀ x ∈ r, x ∈ s := by
  have hall : r.ids.all s.contains = true ↔ ∀ x ∈ r, x ∈ s :=
    List.all_eq_true.trans (forall₂_congr fun x _ => hs.contains_iff)
  rw [subset, Bool.and_eq_true, decide_eq_true_eq, hall]
  refine and_iff_right_of_imp fun h => ?_
  exact (List.subperm_of_subset (hr.imp Nat.ne_of_lt) h).length_le

/-- how a row is built -/
inductive Build where
  | empty
  | allBelow (n : Nat)
  | list (xs : List Nat)
  | insert (b : Build) (x : Nat)
  | inter (b c : Build)

namespace Build

def row : Build → IdRow
  | empty => .empty
  | allBelow n => .below n
  | list xs => .ofList xs
  | insert b x => (b.row.insert x).1
  | inter b c => b.row.inter c.row

/-- the set that the same steps build -/
def set : Build → IdSet
  | empty => .empty
  | allBelow n => .below n
  | list xs => .ofList xs
  | insert b x => b.set.insert x
  | inter b c => b.set.inter c.set

theorem ascends_row (b : Build) : b.row.Ascends := by
  induction b with
  | empty => exact List.Pairwise.nil
  | allBelow n => exact List.pairwise_lt_range
  | list xs => exact ascends_ofList xs
  | insert b x ih => exact ih.insert x
  | inter b c ihb ihc => exact ihb.inter c.row

theorem mem_row (b : Build) (x : Nat) : x ∈ b.row ↔ x ∈ b.set := by
  induction b with
  | empty => rfl
  | allBelow n => rfl
  | list xs => exact mem_ofList.trans IdSet.mem_ofList.symm
  | insert b y ih =>
    rw [row, set, b.ascends_row.mem_insert, IdSet.mem_insert, ih]
  | inter b c ihb ihc =>
    rw [row, set, b.ascends_row.mem_inter c.ascends_row, IdSet.mem_inter, ihb, ihc]

/-- A row is the list of its set. -/
theorem ids_row (b : Build) : b.row.ids = b.set.toList :=
  congrArg IdSet.toList (IdSet.ext (s := ⟨b.row.ids, b.ascends_row⟩) b.mem_row)

end Build

/-- A row is the canonical form of its set. Whatever rows are built from, they ascend and are the lists of the
sets that the same steps build. On them halving decides membership, an insertion adds its id alone and tells
whether that is new, reading two rows side by side gives what stands in both, inclusion is decided, and rows
are equal where they hold the same ids; so common ids do not depend on order, grouping or repetition. -/
theorem built_canonical (a b c : Build) :
    a.row.Ascends ∧ a.row.ids = a.set.toList ∧
      (∀ x, (a.row.contains x = true ↔ x ∈ a.row) ∧ a.row.contains x = a.set.contains x) ∧
      (∀ x, (∀ y, y ∈ (a.row.insert x).1 ↔ y = x ∨ y ∈ a.row) ∧
        ((a.row.insert x).2 = true ↔ x ∉ a.row) ∧ (a.row.insert x).2 = (a.set.insert? x).isSome) ∧
      (∀ x, x ∈ a.row.inter b.row ↔ x ∈ a.row ∧ x ∈ b.row) ∧
      (a.row.subset b.row = true ↔ ∀ x ∈ a.row, x ∈ b.row) ∧ a.row.subset b.row = a.set.subset b.set ∧
      (a.row = b.row ↔ ∀ x, x ∈ a.row ↔ x ∈ b.row) ∧
      a.row.inter b.row = b.row.inter a.row ∧
      (a.row.inter b.row).inter c.row = a.row.inter (b.row.inter c.row) ∧
      a.row.inter a.row = a.row := by
  have ha := a.ascends_row
  have hb := b.ascends_row
  have hsubset : a.row.subset b.row = true ↔ ∀ x ∈ a.row, x ∈ b.row := ha.subset_iff hb
  refine ⟨ha, a.ids_row, fun x => ⟨ha.contains_iff, ?_⟩, fun x => ⟨fun y => ha.mem_insert, ha.insert_snd, ?_⟩,
    fun x => ha.mem_inter hb, hsubset, ?_, ⟨?_, ha.ext hb⟩, ha.inter_comm hb, ha.inter_assoc hb c.ascends_row,
    ha.inter_self⟩
  · rw [Bool.eq_iff_iff, ha.contains_iff, a.mem_row, IdSet.contains, List.contains_iff_mem, IdSet.mem_def]
  · rw [Bool.eq_iff_iff, ha.insert_snd, a.mem_row, IdSet.insert?]
    by_cases h : x ∈ a.set <;> simp [h]
  · rw [Bool.eq_iff_iff, hsubset, IdSet.subset_iff]
    exact forall_congr' fun x => by rw [a.mem_row, b.mem_row]
  · intro h x
    rw [h]

end IdRow
end StyleMiner
