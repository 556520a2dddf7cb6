import Mathlib.Data.List.Perm.Basic
import StyleMiner.Proofs.Exactness
import StyleMiner.Proofs.Occurrences
import StyleMiner.Report.Basic

/-! A report says what the sheet says. A set is reported by the first declaration of each of its shapes
and by the selectors that have an equivalent of each of these: what the set carries as its support are
just these selectors, and their places in the sheet are the order in which it holds them. Sorting
moves the reports of a list and changes none, so the widest support of the list comes first. -/

namespace StyleMiner

variable {sheet : Stylesheet} {table : ItemTable} {s : ItemSet} {l : ItemSetList}

theorem forall_mem_iff {α β : Type} {P : α → Prop} {Q : β → Prop} {as : List α} {bs : List β}
    (h : List.Forall₂ (fun a b => P a ↔ Q b) as bs) : (∀ a ∈ as, P a) ↔ ∀ b ∈ bs, Q b := by
  induction h with
  | nil => simp
  | cons hab _ ih => simp [hab, ih]

/-- whether declarations are the first of their shapes in the sheet, one for each item in turn -/
def ItemTable.Firsts (table : ItemTable) (sheet : Stylesheet) (items : IdSet) (ds : List Declaration) : Prop :=
  List.Forall₂ (fun i d => ∃ item ∈ table.items, item.id = i ∧
    sheet.declarations.find? (·.shape == item.shape) = some d) items.toList ds

namespace ItemTable

variable {x : IdSet} {ds : List Declaration}

theorem Firsts.mem_common (h : (ofSheet sheet).Firsts sheet x ds) {t : SelectorId} :
    t ∈ (ofSheet sheet).common x ↔ t < sheet.size ∧ ∀ d ∈ ds, t ∈ sheet.declarers d.shape := by
  have hcount : (ofSheet sheet).selectorCount = sheet.size := rfl
  have hall : List.Forall₂ (fun i d => (∀ item ∈ (ofSheet sheet).items, item.id = i → t ∈ item.support) ↔
      t ∈ sheet.declarers d.shape) x.toList ds := by
    refine h.imp fun i d hid => ?_
    obtain ⟨item, hitem, rfl, hd⟩ := hid
    have hshape : d.shape = item.shape := by simpa using List.find?_some hd
    rw [hshape, ← support_eq_declarers hitem]
    constructor
    · intro hsup
      exact hsup item hitem rfl
    · intro hsup j hj hid
      exact eq_of_id_eq hj hitem hid ▸ hsup
  rw [ItemTable.mem_common, hcount, ← forall_mem_iff hall]
  refine and_congr_right fun _ => ?_
  constructor
  · intro hsup i hi item hitem hid
    exact hsup item hitem (hid ▸ hi)
  · intro hsup item hitem hid
    exact hsup item.id hid item hitem rfl

end ItemTable

instance : Std.TransCmp SetReport.compare :=
  have : Std.TransCmp fun a b : SetReport => Ord.compare b.support a.support :=
    @Std.TransCmp.opposite _ (compareOn SetReport.support) inferInstance
  inferInstanceAs (Std.TransCmp (compareLex (fun a b : SetReport => Ord.compare b.support a.support)
    (compareOn SetReport.sortKey)))

end StyleMiner
