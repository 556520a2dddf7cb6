import StyleMiner.Proofs.Exactness

/-! The transactions of a sheet against the supports of its items. Both say which selectors declare which
items: transactions selector by selector, as far as enough selectors declare an item, and supports item
by item. Whatever items are asked for, of those that enough selectors declare, the transactions that have
them all are those of the selectors in the support that the items have together. -/

namespace StyleMiner

namespace DataSet

variable {sheet : Stylesheet} {minimum : Nat} {t : Transaction} {item : Item} {i : ItemId} {ids : List ItemId}

theorem exists_item (ht : t ∈ (ofSheet sheet (.ofSheet sheet) minimum).transactions) (hi : i ∈ t.items) :
    ∃ item ∈ (ItemTable.ofSheet sheet).items,
      item.id = i ∧ minimum ≤ item.support.size ∧ t.selector ∈ item.support := by
  obtain ⟨x, hx, rfl, -⟩ := mem_transactions.1 ht
  exact (mem_itemsOf hx).1 hi

theorem notMem_of_infrequent (hitem : item ∈ (ItemTable.ofSheet sheet).items)
    (hfew : item.support.size < minimum)
    (ht : t ∈ (ofSheet sheet (.ofSheet sheet) minimum).transactions) : item.id ∉ t.items := by
  intro hi
  obtain ⟨other, hother, hid, hmin, -⟩ := exists_item ht hi
  obtain rfl := ItemTable.eq_of_id_eq hother hitem hid
  omega

/-- The transactions with all of some items are those of the selectors that the items' set carries. -/
theorem selectors_eq_support (hne : ids ≠ []) (hknown : ∀ i ∈ ids,
    ∃ item ∈ (ItemTable.ofSheet sheet).items, item.id = i ∧ minimum ≤ item.support.size) :
    ∃ s, ItemSet.ofIds (.ofSheet sheet) ids = .ok s ∧
      ((ofSheet sheet (.ofSheet sheet) minimum).transactions.filter
        fun t => ids.all (· ∈ t.items)).map (·.selector) = s.support.toList := by
  have hlt : ∀ i ∈ ids, i < (ItemTable.ofSheet sheet).size := by
    intro i hi
    obtain ⟨item, hitem, rfl, -⟩ := hknown i hi
    exact ItemTable.id_lt_size hitem
  obtain ⟨i, hi⟩ := List.exists_mem_of_ne_nil ids hne
  have hselectors := selectors_eq_common (x := .ofList ids) ⟨i, IdSet.mem_ofList.2 hi⟩
    fun j hj => hknown j (IdSet.mem_ofList.1 hj)
  refine ⟨_, ItemSet.ofIds_eq hlt, hselectors.symm.trans ?_ |>.symm⟩
  refine congrArg (List.map _) (List.filter_congr fun t _ => ?_)
  have hall : IdSet.ofList ids ⊆ t.items ↔ ∀ j ∈ ids, j ∈ t.items := forall_congr' fun j => by
    rw [IdSet.mem_ofList]
  simp [hall, List.all_eq]

end DataSet

/-- Transactions and supports are two views of one sheet. The transactions stand in document order, no
selector has two, and each has items, which ascend; they are items of the sheet that the selector declares
and enough others do, and none that too few declare. Of some items that enough selectors declare, whatever
their order and however often each is named, the transactions with all of them are those of exactly the
selectors that support the set which is built of them. -/
theorem transactions_show_supports (sheet : Stylesheet) (d : Nat) :
    let table := ItemTable.ofSheet sheet
    let transactions := (DataSet.ofSheet sheet table d).transactions
    (transactions.map (·.selector)).Sublist (sheet.selectors.map (·.id)) ∧
      (transactions.map (·.selector)).Pairwise (· < ·) ∧
      (∀ t ∈ transactions, (∃ i, i ∈ t.items) ∧ t.items.toList.Pairwise (· < ·) ∧
        ∀ i ∈ t.items, ∃ item ∈ table.items,
          item.id = i ∧ d ≤ item.support.size ∧ t.selector ∈ item.support) ∧
      (∀ ids : List ItemId, ids ≠ [] →
        (∀ i ∈ ids, ∃ item ∈ table.items, item.id = i ∧ d ≤ item.support.size) →
        ∃ s, ItemSet.ofIds table ids = .ok s ∧
          (transactions.filter fun t => ids.all (· ∈ t.items)).map (·.selector) = s.support.toList) ∧
      ∀ item ∈ table.items, item.support.size < d → ∀ t ∈ transactions, item.id ∉ t.items := by
  intro table transactions
  refine ⟨DataSet.selectors_sublist sheet table d, DataSet.selectors_ascend sheet table d, fun t ht => ?_,
    fun ids hne hknown => DataSet.selectors_eq_support hne hknown,
    fun item hitem hfew t ht => DataSet.notMem_of_infrequent hitem hfew ht⟩
  obtain ⟨x, -, -, hne⟩ := DataSet.mem_transactions.1 ht
  exact ⟨hne, t.items.ascending, fun i hi => DataSet.exists_item ht hi⟩

theorem transactions_show_supports_threeRules :
    let table := ItemTable.ofSheet threeRules
    (∀ i ∈ [1, 0, 1], ∃ item ∈ table.items, item.id = i ∧ 2 ≤ item.support.size) ∧
      (∃ s, ItemSet.ofIds table [1, 0, 1] = .ok s ∧
        ((DataSet.ofSheet threeRules table 2).transactions.filter
          fun t => [1, 0, 1].all (· ∈ t.items)).map (·.selector) = s.support.toList) ∧
      ∃ item ∈ table.items, item.id = 1 ∧ item.support.size < 3 ∧
        ∀ t ∈ (DataSet.ofSheet threeRules table 3).transactions, item.id ∉ t.items := by
  intro table
  obtain ⟨a, b, hitems, ha, hb, hsupa, hsupb⟩ := items_threeRules
  have hmema : a ∈ table.items := by simp [table, hitems]
  have hmemb : b ∈ table.items := by simp [table, hitems]
  have hsizea : a.support.size = 3 := by rw [hsupa]; decide
  have hsizeb : b.support.size = 2 := by rw [hsupb]; decide
  have hknown : ∀ i ∈ [1, 0, 1], ∃ item ∈ table.items, item.id = i ∧ 2 ≤ item.support.size := by
    simp only [List.forall_mem_cons]
    exact ⟨⟨b, hmemb, hb, by omega⟩, ⟨a, hmema, ha, by omega⟩, ⟨b, hmemb, hb, by omega⟩,
      fun _ h => absurd h List.not_mem_nil⟩
  obtain ⟨-, -, -, hviews, -⟩ := transactions_show_supports threeRules 2
  obtain ⟨-, -, -, -, hfew⟩ := transactions_show_supports threeRules 3
  exact ⟨hknown, hviews _ (List.cons_ne_nil _ _) hknown, b, hmemb, hb, by omega, hfew b hmemb (by omega)⟩

end StyleMiner
