import StyleMiner.Mining.Run
import StyleMiner.Proofs.GrowthRuns
import StyleMiner.Proofs.Levels

/-! What a mining run finds. Both miners offer sets that exhaust the transactions, so a run leaves the
sets that are to be kept, whatever the miner and whatever order it goes in. On the transactions of a
sheet these are decided by the table of the sheet, so two runs that agree on the minimum and on
removal agree on what they find. -/

namespace StyleMiner

variable {sheet : Stylesheet} {data : DataSet} {table : ItemTable} {c : Config} {least d : Nat} {s : ItemSet}

theorem exists_offers (a : Algorithm) (hd : data.Agrees table) (hpos : 0 < c.minSupport) :
    ∃ sets, (∀ r, mineWith a data table c r = r.offerAll sets) ∧
      Exhausts data table c.minSupport c.removeSubsumed sets := by
  cases a with
  | fpGrowth => exact Growth.exists_offers hd hpos
  | apriori => exact Levelwise.exists_offers hd hpos c.removeSubsumed

/-- A run of either miner goes through and leaves the sets that are to be kept. -/
theorem exists_mineWith (a : Algorithm) (hd : data.Agrees table) (hpos : 0 < c.minSupport)
    (hle : least ≤ c.minSupport) :
    ∃ r, mineWith a data table c (.empty least c.removeSubsumed) = .ok r ∧ r.Coherent ∧
      ∀ s, s ∈ r.sets ↔ Mined data table c.minSupport c.removeSubsumed s := by
  obtain ⟨sets, hmine, hex⟩ := exists_offers a hd hpos
  obtain ⟨r, hr, hcoh, hmem⟩ := hex.offerAll hd hpos hle
  exact ⟨r, (hmine _).trans hr, hcoh, hmem⟩

/-- On the transactions of a sheet the table decides which sets are to be kept. -/
theorem mined_ofSheet {minimum : Nat} {removal : Bool} (hle : d ≤ minimum) (hpos : 0 < minimum) :
    Mined (.ofSheet sheet (.ofSheet sheet) d) (.ofSheet sheet) minimum removal s ↔
      (∃ i, i ∈ s.items) ∧ (ItemTable.ofSheet sheet).Has s.items ∧
        s.support = (ItemTable.ofSheet sheet).common s.items ∧ minimum ≤ s.support.size ∧
        (removal = true → ∀ x, (ItemTable.ofSheet sheet).Has x → s.items ⊂ x →
          (ItemTable.ofSheet sheet).common x ≠ s.support) := by
  have hfreq {x : IdSet} : (DataSet.ofSheet sheet (.ofSheet sheet) d).Frequent minimum x ↔ _ :=
    DataSet.frequent_ofSheet hle hpos
  refine ⟨?_, ?_⟩
  · intro h
    obtain ⟨⟨hhas, hsup⟩, hs, hmax⟩ := h
    obtain ⟨hne, -, hmin⟩ := hfreq.1 hs
    rw [← hsup] at hmin
    refine ⟨hne, hhas, hsup, hmin, fun hrem x hx hsub heq => ?_⟩
    obtain ⟨i, hi⟩ := hne
    exact hmax hrem x (hfreq.2 ⟨⟨i, hsub.1 i hi⟩, hx, heq ▸ hmin⟩) hsub heq
  · intro h
    obtain ⟨hne, hhas, hsup, hmin, hmax⟩ := h
    refine ⟨⟨hhas, hsup⟩, hfreq.2 ⟨hne, hhas, hsup ▸ hmin⟩, fun hrem x hx hsub => ?_⟩
    exact hmax hrem x (hfreq.1 hx).2.1 hsub

theorem exists_findDuplicates (sheet : Stylesheet) (a : Algorithm) (hmin : Config.leastSupport ≤ c.minSupport) :
    ∃ r, findDuplicates sheet c a = .ok ⟨.ofSheet sheet, r, c, a⟩ ∧ r.Coherent ∧ ∀ s, s ∈ r.sets ↔
      Mined (.ofSheet sheet (.ofSheet sheet) c.minSupport) (.ofSheet sheet) c.minSupport
        c.removeSubsumed s := by
  have hpos : 0 < c.minSupport := Nat.lt_of_lt_of_le (by decide) hmin
  have hvalid : c.validate = .ok c := if_neg (Nat.not_lt.2 hmin)
  by_cases hempty : (DataSet.ofSheet sheet (.ofSheet sheet) c.minSupport).isEmpty = true
  · refine ⟨.empty c.minSupport c.removeSubsumed, ?_, Results.coherent_empty _ _, fun s => ?_⟩
    · simp only [findDuplicates, hvalid, bind, Except.bind, hempty, if_true]
      rfl
    · refine ⟨fun h => absurd h List.not_mem_nil, fun h => ?_⟩
      exact absurd h.frequent (DataSet.not_frequent_of_isEmpty hempty hpos)
  · obtain ⟨r, hr, hcoh, hmem⟩ := exists_mineWith a (DataSet.agrees_ofSheet sheet c.minSupport) hpos
      (Nat.le_refl c.minSupport)
    refine ⟨r, ?_, hcoh, hmem⟩
    simp only [findDuplicates, hvalid, bind, Except.bind, hempty, hr]
    rfl

/-- Growing sets over a sheet is exact: it finds the sets of items that at least the minimum of
selectors declare together, each once and with these selectors, and with removal those of them
that no larger set has the selectors of. -/
theorem findDuplicates_growth_exact (sheet : Stylesheet) (c : Config) (hmin : 2 ≤ c.minSupport) :
    ∃ o, findDuplicates sheet c .fpGrowth = .ok o ∧ o.table = .ofSheet sheet ∧
      (o.results.sets.map (·.items)).Nodup ∧
      ∀ s, s ∈ o.results.sets ↔
        (∃ i, i ∈ s.items) ∧ o.table.Has s.items ∧ s.support = o.table.common s.items ∧
          c.minSupport ≤ s.support.size ∧
          (c.removeSubsumed = true → ∀ x, o.table.Has x → s.items ⊂ x → o.table.common x ≠ s.support) := by
  obtain ⟨r, hr, hcoh, hmem⟩ := exists_findDuplicates sheet .fpGrowth hmin
  refine ⟨_, hr, rfl, hcoh.ordered.nodup_items, fun s => (hmem s).trans ?_⟩
  exact mined_ofSheet (Nat.le_refl _) (Nat.lt_of_lt_of_le Nat.two_pos hmin)

def threeRules : Stylesheet where
  selectors :=
    let declare (property : Char) (selector : SelectorId) : Declaration :=
      ⟨[property], [⟨['0'], .number, ⟨.number, ['0']⟩⟩], false, selector, .start⟩
    [⟨0, ['p'], none, .start, [declare 'x' 0, declare 'y' 0]⟩,
      ⟨1, ['q'], none, .start, [declare 'y' 1, declare 'x' 1]⟩,
      ⟨2, ['r'], none, .start, [declare 'x' 2]⟩]
  numbered := rfl

theorem items_eq_threeRules : (ItemTable.ofSheet threeRules).items =
    (((threeRules.places.map (·.1)).eraseDups).map (Item.ofShape threeRules.places)).mapIdx
      fun rank item => { item with id := rank } := by
  have hranked : ItemTable.ranked threeRules =
      ((threeRules.places.map (·.1)).eraseDups).map (Item.ofShape threeRules.places) :=
    List.mergeSort_of_pairwise (by decide)
  rw [← hranked]
  rfl

theorem items_threeRules : ∃ a b : Item, (ItemTable.ofSheet threeRules).items = [a, b] ∧ a.id = 0 ∧
    b.id = 1 ∧ a.support = .ofList [0, 1, 2] ∧ b.support = .ofList [0, 1] :=
  ⟨_, _, items_eq_threeRules, rfl, rfl, rfl, rfl⟩

theorem common_threeRules : (ItemTable.ofSheet threeRules).size = 2 ∧
    (ItemTable.ofSheet threeRules).common (.ofList [0, 1]) = .ofList [0, 1] := by
  obtain ⟨a, b, hitems, ha, hb, hsupa, hsupb⟩ := items_threeRules
  have hcount : (ItemTable.ofSheet threeRules).selectorCount = 3 := rfl
  refine ⟨congrArg List.length hitems, IdSet.ext fun s => ?_⟩
  rw [ItemTable.mem_common, hitems, hcount]
  simp only [List.mem_cons, List.not_mem_nil, or_false, forall_eq_or_imp, forall_eq, ha, hb, hsupa,
    hsupb, IdSet.mem_ofList, true_or, or_true, true_implies]
  refine ⟨fun h => h.2.2, fun h => ?_⟩
  rcases h with rfl | rfl
  · decide
  · decide

theorem findDuplicates_growth_exact_threeRules : 2 ≤ Config.default.minSupport ∧
    ∃ o, findDuplicates threeRules .default .fpGrowth = .ok o ∧
      ⟨.ofList [0, 1], .ofList [0, 1]⟩ ∈ o.results.sets ∧ ⟨.ofList [1], .ofList [0, 1]⟩ ∉ o.results.sets := by
  have hmin : 2 ≤ Config.default.minSupport := by decide
  obtain ⟨o, ho, htable, -, hmem⟩ := findDuplicates_growth_exact threeRules .default hmin
  obtain ⟨hsize, hcommon⟩ := common_threeRules
  rw [← htable] at hsize hcommon
  have hhas : o.table.Has (.ofList [0, 1]) := by
    unfold ItemTable.Has
    rw [hsize]
    decide
  refine ⟨hmin, o, ho, (hmem _).2 ⟨⟨0, by decide⟩, hhas, hcommon.symm, by decide, fun _ x hx hsub => ?_⟩,
    fun hin => ?_⟩
  · -- there are no more than the two items
    refine absurd (fun i hi => ?_) hsub.2
    have hlt := hx i hi
    rw [hsize] at hlt
    obtain rfl | rfl : i = 0 ∨ i = 1 := by omega
    · decide
    · decide
  · obtain ⟨-, -, -, -, hmax⟩ := (hmem _).1 hin
    exact hmax rfl _ hhas (by decide) hcommon

/-- The two miners agree on the transactions of a sheet, whatever items these were to leave out; and
as long as they leave out no item that can matter, it does not matter which they do. -/
theorem miners_agree (sheet : Stylesheet) (c : Config) (d least : Nat) (hmin : 1 ≤ c.minSupport)
    (hle : least ≤ c.minSupport) :
    ∃ r r', Growth.mine (.ofSheet sheet (.ofSheet sheet) d) (.ofSheet sheet) c
          (.empty least c.removeSubsumed) = .ok r ∧
      Levelwise.mine (.ofSheet sheet (.ofSheet sheet) d) (.ofSheet sheet) c
          (.empty least c.removeSubsumed) = .ok r' ∧
      r.kept = r'.kept ∧
      (d ≤ c.minSupport → ∀ d' ≤ c.minSupport, ∃ q,
        Growth.mine (.ofSheet sheet (.ofSheet sheet) d') (.ofSheet sheet) c
          (.empty least c.removeSubsumed) = .ok q ∧ q.kept = r.kept) := by
  have hagrees := DataSet.agrees_ofSheet sheet
  obtain ⟨r, hr, hcoh, hmem⟩ := exists_mineWith .fpGrowth (hagrees d) hmin hle
  obtain ⟨r', hr', hcoh', hmem'⟩ := exists_mineWith .apriori (hagrees d) hmin hle
  refine ⟨r, r', hr, hr', hcoh.ordered.kept_eq hcoh'.ordered fun s => ?_, fun hd d' hd' => ?_⟩
  · rw [hmem, hmem']
  · obtain ⟨q, hq, hcohq, hmemq⟩ := exists_mineWith .fpGrowth (hagrees d') hmin hle
    refine ⟨q, hq, hcohq.ordered.kept_eq hcoh.ordered fun s => ?_⟩
    rw [hmemq, hmem, mined_ofSheet hd' hmin, mined_ofSheet hd hmin]

theorem miners_agree_threeRules : 1 ≤ Config.default.minSupport ∧ 0 ≤ Config.default.minSupport ∧
    ∃ r r', Growth.mine (.ofSheet threeRules (.ofSheet threeRules) 3) (.ofSheet threeRules) .default
          (.empty 0 true) = .ok r ∧
      Levelwise.mine (.ofSheet threeRules (.ofSheet threeRules) 3) (.ofSheet threeRules) .default
          (.empty 0 true) = .ok r' ∧
      r.kept = r'.kept := by
  have hmin : 1 ≤ Config.default.minSupport := by decide
  have hle : 0 ≤ Config.default.minSupport := Nat.zero_le _
  obtain ⟨r, r', hr, hr', hkept, -⟩ := miners_agree threeRules .default 3 0 hmin hle
  exact ⟨hmin, hle, r, r', hr, hr', hkept⟩

end StyleMiner
