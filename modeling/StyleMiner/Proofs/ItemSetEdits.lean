import Mathlib.Data.List.Induction
import StyleMiner.Proofs.Subsumption

/-! Item sets under edits. Items go in, in place or into a copy, and go out, in any order and however
often. What an edit does to the members alone decides what it does to the set, for the support follows
the members: it is narrowed as an item comes in and built anew as one goes, and both times it is what
all members have in common. So of a whole history only the last edit of each id is left to see. -/

namespace StyleMiner.ItemSet

/-- what can be done to an item set -/
inductive Edit where
  | add (id : ItemId)
  | copyWith (id : ItemId)
  | remove (id : ItemId)
  deriving DecidableEq, Repr

namespace Edit

def id : Edit → ItemId
  | add i | copyWith i | remove i => i

def putsIn : Edit → Bool
  | add _ | copyWith _ => true
  | remove _ => false

/-- An item of the table can be put in; any id can be taken out, whatever it stands for. -/
def Allowed (table : ItemTable) (e : Edit) : Prop := e.putsIn = true → e.id < table.size

instance (table : ItemTable) (e : Edit) : Decidable (e.Allowed table) :=
  inferInstanceAs (Decidable (e.putsIn = true → e.id < table.size))

/-- the set after an edit -/
def apply (table : ItemTable) (s : ItemSet) : Edit → Except Fault ItemSet
  | add i => do return (s.insert? (← table.get i)).getD s
  | copyWith i => insertId table s i
  | remove i => do return (← s.erase? table i).getD s

/-- the set after some edits of the set without members -/
def applyAll (table : ItemTable) (es : List Edit) : Except Fault ItemSet :=
  es.foldlM (apply table) (.empty table)

def onMembers (x : IdSet) : Edit → IdSet
  | add i | copyWith i => x.insert i
  | remove i => x.erase i

/-- whether the last edit of an id put it in -/
def leavesIn (es : List Edit) (i : ItemId) : Bool := (es.reverse.find? (·.id == i)).any (·.putsIn)

variable {table : ItemTable} {s : ItemSet} {x : IdSet} {e : Edit} {es : List Edit} {i : ItemId}

theorem mem_onMembers : i ∈ e.onMembers x ↔ if e.id = i then e.putsIn = true else i ∈ x := by
  cases e with
  | add j =>
    simp only [onMembers, IdSet.mem_insert, Edit.id, putsIn]
    grind
  | copyWith j =>
    simp only [onMembers, IdSet.mem_insert, Edit.id, putsIn]
    grind
  | remove j =>
    simp only [onMembers, IdSet.mem_erase, Edit.id, putsIn]
    grind

theorem has_onMembers (he : e.Allowed table) (hx : table.Has x) : table.Has (e.onMembers x) := by
  intro j hj
  rw [mem_onMembers] at hj
  split at hj
  · next heq => exact heq ▸ he hj
  · exact hx j hj

theorem mem_foldl_onMembers (es : List Edit) :
    i ∈ es.foldl onMembers .empty ↔ leavesIn es i = true := by
  induction es using List.reverseRecOn with
  | nil => simp [leavesIn, IdSet.not_mem_empty]
  | append_singleton es e ih =>
    rw [List.foldl_concat, mem_onMembers, ih]
    by_cases heq : e.id = i
    · simp [leavesIn, heq]
    · simp [leavesIn, heq]

end Edit

variable {table : ItemTable} {s u : ItemSet} {x : IdSet} {id : ItemId} {item : Item} {e : Edit}
  {es : List Edit}

theorem insert?_member (h : item.id ∈ s.items) : s.insert? item = none := by
  simp [insert?, IdSet.insert?, h]

theorem insert?_new (h : item.id ∉ s.items) : s.insert? item = some (s.insert item) := by
  simp [insert, insert?, IdSet.insert?, h]

theorem Faithful.support_insert (hs : s.Faithful table) (hi : item ∈ table.items) :
    (s.insert item).support ⊆ s.support := by
  rw [hs.insert_eq hi, hs.support_eq]
  exact ItemTable.common_anti fun i h => IdSet.mem_insert.2 (.inr h)

theorem Faithful.erase?_insert (hs : s.Faithful table) (hi : item ∈ table.items) (h : item.id ∉ s.items) :
    (s.insert item).erase? table item.id = .ok (some s) := by
  have hback : (s.items.insert item.id).erase item.id = s.items := IdSet.ext fun i => by
    rw [IdSet.mem_erase, IdSet.mem_insert]
    grind
  have hhas := ItemTable.has_insert hs.has (ItemTable.id_lt_size hi)
  rw [hs.insert_eq hi, (faithful_mk hhas).erase?_member (IdSet.mem_insert.2 (.inl rfl)), hback,
    ← hs.support_eq]

/-- What an edit does to the members decides what it does to the set. -/
theorem Faithful.apply_eq (hs : s.Faithful table) (he : e.Allowed table) :
    e.apply table s = .ok ⟨e.onMembers s.items, table.common (e.onMembers s.items)⟩ := by
  cases e with
  | add i => exact hs.insertId_eq (he rfl)
  | copyWith i => exact hs.insertId_eq (he rfl)
  | remove i =>
    by_cases h : i ∈ s.items
    · simp only [Edit.apply, hs.erase?_member h]
      rfl
    · have hsame : s.items.erase i = s.items := IdSet.ext fun j => by
        rw [IdSet.mem_erase]
        grind
      simp only [Edit.apply, erase?_absent table h, Edit.onMembers, hsame, ← hs.support_eq]
      rfl

theorem applyAll_eq (h : ∀ e ∈ es, e.Allowed table) : table.Has (es.foldl Edit.onMembers .empty) ∧
    Edit.applyAll table es =
      .ok ⟨es.foldl Edit.onMembers .empty, table.common (es.foldl Edit.onMembers .empty)⟩ := by
  induction es using List.reverseRecOn with
  | nil => exact ⟨ItemTable.has_empty, by rw [List.foldl_nil, ItemTable.common_empty]; rfl⟩
  | append_singleton es e ih =>
    obtain ⟨hhas, hrun⟩ := ih fun d hd => h d (List.mem_append_left _ hd)
    have he := h e (List.mem_append_right _ List.mem_cons_self)
    rw [List.foldl_concat]
    refine ⟨Edit.has_onMembers he hhas, ?_⟩
    rw [Edit.applyAll, List.foldlM_append, ← Edit.applyAll, hrun]
    simp only [List.foldlM_cons, List.foldlM_nil]
    exact congrArg (· >>= pure) ((faithful_mk hhas).apply_eq he)

theorem exists_applyAll (h : ∀ e ∈ es, e.Allowed table) : ∃ s, Edit.applyAll table es = .ok s ∧
    s.Faithful table ∧ ∀ i, i ∈ s.items ↔ Edit.leavesIn es i = true := by
  obtain ⟨hhas, hrun⟩ := applyAll_eq h
  exact ⟨_, hrun, faithful_mk hhas, fun i => Edit.mem_foldl_onMembers es⟩

/-- An item set carries its true support whatever was done to it. After any edits its members ascend and
are the ids that were last put in, and its support are the selectors that declare all of them, every
selector where there are none; so the check of the support passes, and sets with the same members are
the same. Putting in a member or taking out what is none changes nothing; an item that comes in never
widens the support, and taking it out again restores the set. -/
theorem edits_carry_support (table : ItemTable) (es : List Edit) (h : ∀ e ∈ es, e.Allowed table) :
    ∃ s, Edit.applyAll table es = .ok s ∧
      s.items.toList.Pairwise (· < ·) ∧ (∀ i, i ∈ s.items ↔ Edit.leavesIn es i = true) ∧
      (∀ x, x ∈ s.support ↔
        x < table.selectorCount ∧ ∀ item ∈ table.items, item.id ∈ s.items → x ∈ item.support) ∧
      (s.isEmpty = true → s.support = table.everySelector) ∧
      s.checkSupport table = .ok () ∧
      (∀ es' s', (∀ e ∈ es', e.Allowed table) → Edit.applyAll table es' = .ok s' →
        s'.items = s.items → s' = s) ∧
      (∀ item ∈ table.items,
        (item.id ∈ s.items → s.insert? item = none ∧ s.insert item = s) ∧
        (s.insert item).support ⊆ s.support ∧
        (∀ u, s.insert? item = some u →
          u.support ⊆ s.support ∧ u.erase? table item.id = .ok (some s))) ∧
      ∀ i, i ∉ s.items → s.erase? table i = .ok none ∧ (Edit.remove i).apply table s = .ok s := by
  obtain ⟨s, hs, hfaithful, hmem⟩ := exists_applyAll h
  refine ⟨s, hs, s.items.ascending, hmem, fun x => ?_, fun hempty => ?_, hfaithful.checkSupport_eq,
    fun es' s' h' hs' hitems => ?_, fun item hitem => ⟨fun hin => ?_, hfaithful.support_insert hitem,
    fun u hu => ?_⟩, fun i hi => ⟨erase?_absent table hi, ?_⟩⟩
  · rw [hfaithful.support_eq, ItemTable.mem_common]
  · have hitems : s.items = .empty := IdSet.ext fun i => by
      have hnil : s.items.toList = [] := List.isEmpty_iff.1 hempty
      simp [IdSet.mem_def, hnil, IdSet.empty]
    rw [hfaithful.support_eq, hitems, ItemTable.common_empty]
  · obtain ⟨t, ht, hfaithful', -⟩ := exists_applyAll h'
    obtain rfl := Except.ok.inj (ht.symm.trans hs')
    exact hfaithful'.eq_of_items_eq hfaithful hitems
  · have hnone := insert?_member hin
    exact ⟨hnone, by rw [insert, hnone]; rfl⟩
  · have hnew : item.id ∉ s.items := fun hin => by
      rw [insert?_member hin] at hu
      cases hu
    obtain rfl := Option.some.inj ((insert?_new hnew).symm.trans hu)
    exact ⟨hfaithful.support_insert hitem, hfaithful.erase?_insert hitem hnew⟩
  · simp only [Edit.apply, erase?_absent table hi]
    rfl

def backAndForth : List Edit := [.add 2, .copyWith 0, .add 2, .remove 1, .remove 0, .remove 7]

theorem edits_carry_support_backAndForth : (∀ e ∈ backAndForth, e.Allowed Results.threeItems) ∧
    ∃ s, Edit.applyAll Results.threeItems backAndForth = .ok s ∧ 2 ∈ s.items ∧ 0 ∉ s.items ∧
      1 ∈ s.support ∧ 2 ∉ s.support ∧ s.checkSupport Results.threeItems = .ok () := by
  have h : ∀ e ∈ backAndForth, e.Allowed Results.threeItems := by decide
  obtain ⟨s, hs, -, hmem, hsup, -, hcheck, -⟩ := edits_carry_support Results.threeItems backAndForth h
  have hin : 2 ∈ s.items := (hmem 2).2 (by decide)
  have hout : 0 ∉ s.items := fun h0 => absurd ((hmem 0).1 h0) (by decide)
  have hother : 1 ∉ s.items := fun h1 => absurd ((hmem 1).1 h1) (by decide)
  refine ⟨h, s, hs, hin, hout, (hsup 1).2 ?_, fun h2 => ?_, hcheck⟩
  · simp only [Results.threeItems, List.forall_mem_cons]
    exact ⟨by decide, fun h0 => absurd h0 hout, fun h1 => absurd h1 hother, fun _ => by decide,
      fun _ hnil => absurd hnil List.not_mem_nil⟩
  · have hnarrow := ((hsup 2).1 h2).2 ⟨2, ⟨['c'], [], false⟩, .below 2, []⟩ (by simp [Results.threeItems]) hin
    exact absurd hnarrow (by decide)

end StyleMiner.ItemSet
