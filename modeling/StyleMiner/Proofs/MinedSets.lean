import StyleMiner.Proofs.Subsumption
import StyleMiner.Proofs.Transactions

/-! What a mining run is to keep, said without any miner. Offers exhaust the transactions if they offer
frequent sets alone and above each frequent set, with the same support, one that has all its items.
What is kept of such offers is decided by the transactions: all frequent sets, or with removal those
that no other frequent set of the same support contains. -/

namespace StyleMiner

/-- whether a set is to be kept: it carries its support and is frequent, and with removal no frequent
set that properly contains it has that support -/
structure Mined (data : DataSet) (table : ItemTable) (minimum : Nat) (removal : Bool) (s : ItemSet) :
    Prop where
  faithful : s.Faithful table
  frequent : data.Frequent minimum s.items
  maximal : removal = true → ∀ x, data.Frequent minimum x → s.items ⊂ x → table.common x ≠ s.support

/-- whether offers leave out no frequent set that matters -/
structure Exhausts (data : DataSet) (table : ItemTable) (minimum : Nat) (removal : Bool)
    (sets : List ItemSet) : Prop where
  faithful : ∀ s ∈ sets, s.Faithful table
  frequent : ∀ s ∈ sets, data.Frequent minimum s.items
  exists_above : ∀ x, data.Frequent minimum x → ∃ s ∈ sets, x ⊆ s.items ∧ s.support = table.common x ∧
    (removal = false → s.items = x)

variable {data : DataSet} {table : ItemTable} {minimum least : Nat} {removal : Bool} {sets : List ItemSet}
  {s : ItemSet}

namespace Exhausts

variable (hs : Exhausts data table minimum removal sets)
include hs

theorem survives_iff : Results.Survives removal sets s ↔ Mined data table minimum removal s := by
  refine ⟨?_, ?_⟩
  · rintro ⟨hmem, hmax⟩
    refine ⟨hs.faithful s hmem, hs.frequent s hmem, fun hrem x hx hsub hsup => ?_⟩
    obtain ⟨t, ht, hxt, hsupt, -⟩ := hs.exists_above x hx
    refine hmax hrem t ht (ItemSet.subsumedBy_iff.2 ⟨⟨IdSet.subset_trans hsub.1 hxt, fun hts => ?_⟩, ?_⟩)
    · exact hsub.2 (IdSet.subset_trans hxt hts)
    · exact hsup.symm.trans hsupt.symm
  · rintro ⟨hfaithful, hfreq, hmax⟩
    obtain ⟨t, ht, hst, hsupt, hsame⟩ := hs.exists_above s.items hfreq
    have hitems : t.items = s.items := by
      cases hrem : removal with
      | false => exact hsame hrem
      | true =>
        by_contra hne
        refine hmax hrem t.items (hs.frequent t ht) ?_ ?_
        · exact IdSet.ssubset_of_subset_of_ne hst fun h => hne h.symm
        · rw [← (hs.faithful t ht).support_eq, hsupt, hfaithful.support_eq]
    obtain rfl := (hs.faithful t ht).eq_of_items_eq hfaithful hitems
    refine ⟨ht, fun hrem u hu hsub => ?_⟩
    obtain ⟨hsub, hsup⟩ := ItemSet.subsumedBy_iff.1 hsub
    exact hmax hrem u.items (hs.frequent u hu) hsub ((hs.faithful u hu).support_eq.symm.trans hsup.symm)

theorem offerAll (hd : data.Agrees table) (hpos : 0 < minimum) (hle : least ≤ minimum) :
    ∃ r, (Results.empty least removal).offerAll sets = .ok r ∧ r.Coherent ∧
      ∀ s, s ∈ r.sets ↔ Mined data table minimum removal s := by
  have hoffers : ∀ s ∈ sets, s.Faithful table ∧ s.isEmpty = false ∧ least ≤ s.support.size := by
    intro s hmem
    obtain ⟨hne, hmin⟩ := hs.frequent s hmem
    have hcount := (hd.of_frequent hpos (hs.frequent s hmem)).2
    refine ⟨hs.faithful s hmem, ItemSet.isEmpty_eq_false.2 hne, ?_⟩
    rw [(hs.faithful s hmem).support_eq, ← hcount]
    exact Nat.le_trans hle hmin
  obtain ⟨r, hr, hkeeps⟩ := Results.keeps_offerAll removal hoffers
  exact ⟨r, hr, hkeeps.coherent, fun s => (hkeeps.mem_sets_iff s).trans hs.survives_iff⟩

end Exhausts
end StyleMiner
