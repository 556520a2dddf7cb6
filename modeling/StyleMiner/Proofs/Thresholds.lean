import StyleMiner.Proofs.Closures

/-! Raising the minimum filters results. What a run finds depends on the minimum through a set's own
support alone. This holds with removal too, for the closure that explains a set has the same support,
and so reaches the minimum with it. Results stand by size and then by members, hence what is found at
both minimums stands in the same order. -/

namespace StyleMiner

namespace ItemSet

def StandsBefore (s t : ItemSet) : Prop := s.size < t.size ∨ s.size = t.size ∧ s.Precedes t

variable {s t : ItemSet}

instance : Std.Irrefl StandsBefore where
  irrefl s h := by
    rcases h with h | h
    · exact Nat.lt_irrefl _ h
    · exact Std.Irrefl.irrefl s h.2

instance : Std.Antisymm StandsBefore where
  antisymm s t h h' := by
    rcases h with h | h <;> rcases h' with h' | h'
    · omega
    · omega
    · omega
    · exact Std.Antisymm.antisymm s t h.2 h'.2

end ItemSet

namespace Results

variable {r r' : Results}

theorem Ordered.pairwise_sets (hr : r.Ordered) : r.sets.Pairwise ItemSet.StandsBefore := by
  apply List.pairwise_flatMap.2
  constructor
  · intro l hl
    obtain ⟨hsorted, hsized⟩ := hr.wellFormed l hl
    refine hsorted.imp_of_mem fun {s t} hs ht h => .inr ⟨?_, h⟩
    rw [hsized s hs, hsized t ht]
  · refine hr.ascending.imp_of_mem fun {k l} hk hl hlt s hs t ht => .inl ?_
    rwa [(hr.wellFormed k hk).sized s hs, (hr.wellFormed l hl).sized t ht]

theorem Ordered.sets_eq_filter (hr : r.Ordered) (hr' : r'.Ordered) {p : ItemSet → Bool}
    (h : ∀ s, s ∈ r'.sets ↔ s ∈ r.sets ∧ p s = true) : r'.sets = r.sets.filter p := by
  refine hr'.pairwise_sets.eq_of_mem_iff (hr.pairwise_sets.filter _) fun s => ?_
  rw [h, List.mem_filter]

end Results

/-- What is found at a higher minimum is what is found at a lower one, as far as its own support
reaches the higher. -/
theorem found_raise {table : ItemTable} {c c' : Config} {s : ItemSet}
    (hle : c.minSupport ≤ c'.minSupport) (hrem : c'.removeSubsumed = c.removeSubsumed) :
    Found table c' s ↔ Found table c s ∧ c'.minSupport ≤ s.support.size := by
  constructor
  · intro h
    obtain ⟨hfaithful, ⟨hne, hhas, hmin⟩, hclosed⟩ := h
    refine ⟨⟨hfaithful, ⟨hne, hhas, Nat.le_trans hle hmin⟩, hrem ▸ hclosed⟩, ?_⟩
    rwa [hfaithful.support_eq]
  · intro h
    obtain ⟨⟨hfaithful, ⟨hne, hhas, -⟩, hclosed⟩, hmin⟩ := h
    rw [hfaithful.support_eq] at hmin
    exact ⟨hfaithful, ⟨hne, hhas, hmin⟩, hrem.symm ▸ hclosed⟩

/-- The results at a higher minimum are those at a lower one whose support reaches it, with the same
items and the same supports, in the same order, with removal and without. Neither the miner nor the
way it takes single paths makes a difference. -/
theorem findDuplicates_raise (sheet : Stylesheet) (c c' : Config) (a a' : Algorithm)
    (hmin : 2 ≤ c.minSupport) (hle : c.minSupport ≤ c'.minSupport)
    (hrem : c'.removeSubsumed = c.removeSubsumed) :
    ∃ o o', findDuplicates sheet c a = .ok o ∧ findDuplicates sheet c' a' = .ok o' ∧
      o'.table = o.table ∧
      o'.results.sets = o.results.sets.filter (c'.minSupport ≤ ·.support.size) := by
  obtain ⟨o, ho, htable, hord, hmem⟩ := exists_results sheet a hmin
  obtain ⟨o', ho', htable', hord', hmem'⟩ := exists_results sheet a' (Nat.le_trans hmin hle)
  refine ⟨o, o', ho, ho', htable'.trans htable.symm, hord.sets_eq_filter hord' fun s => ?_⟩
  rw [hmem', hmem, found_raise hle hrem, decide_eq_true_eq]

/-- by the other miner and one path at a time -/
def atThree : Config := ⟨3, true, false⟩

theorem findDuplicates_raise_threeRules :
    (2 ≤ Config.default.minSupport ∧ Config.default.minSupport ≤ atThree.minSupport ∧
      atThree.removeSubsumed = Config.default.removeSubsumed) ∧
    ∃ o o', findDuplicates threeRules .default .fpGrowth = .ok o ∧
      findDuplicates threeRules atThree .apriori = .ok o' ∧ o'.table = o.table ∧
      o'.results.sets = o.results.sets.filter (3 ≤ ·.support.size) := by
  have hmin : 2 ≤ Config.default.minSupport := by decide
  have hle : Config.default.minSupport ≤ atThree.minSupport := by decide
  have hrem : atThree.removeSubsumed = Config.default.removeSubsumed := rfl
  exact ⟨⟨hmin, hle, hrem⟩, findDuplicates_raise threeRules .default atThree .fpGrowth .apriori hmin hle hrem⟩

end StyleMiner
