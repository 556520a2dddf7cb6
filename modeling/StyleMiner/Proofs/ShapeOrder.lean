import Mathlib.Data.List.Sort
import StyleMiner.Sheet.Basic

/-! The order of shapes tells any two of them apart. It looks at printed keys and then at values, and
two shapes can share a key. But where the values agree too, the key is decided by property and
importance: what marks a declaration as important holds no colon, so the last colon of a key shows
whether the mark stands behind it. -/

namespace StyleMiner

namespace Kind

theorem all_rank (k : Kind) : all[k.rank]? = some k := by
  cases k <;> rfl

theorem rank_inj {k l : Kind} (h : k.rank = l.rank) : k = l := by
  have hk := all_rank k
  rw [h, all_rank l] at hk
  exact (Option.some.inj hk).symm

instance : Std.TransOrd Kind := inferInstanceAs (Std.TransCmp (compareOn rank))

instance : Std.LawfulEqOrd Kind where
  compare_self := Std.ReflOrd.compare_self
  eq_of_compare := by
    intro k l h
    apply rank_inj
    exact Std.LawfulEqOrd.eq_of_compare h

end Kind

namespace Canonical

instance : Std.TransOrd Canonical :=
  inferInstanceAs (Std.TransCmp (compareLex (compareOn kind) (compareOn text)))

instance : Std.LawfulEqOrd Canonical where
  compare_self := Std.ReflOrd.compare_self
  eq_of_compare := by
    intro v w h
    obtain ⟨hkind, htext⟩ := compareLex_eq_eq.1 h
    obtain ⟨k, s⟩ := v
    obtain ⟨l, t⟩ := w
    obtain rfl : k = l := Std.LawfulEqOrd.eq_of_compare hkind
    obtain rfl : s = t := Std.LawfulEqOrd.eq_of_compare htext
    rfl

end Canonical

/-- what stands behind the last colon of a text, backwards -/
def behindColon (t : Text) : Text := t.reverse.takeWhile (· ≠ ':')

theorem behindColon_append (front behind : Text) :
    behindColon (front ++ ':' :: behind) = behindColon behind := by
  unfold behindColon
  rw [List.reverse_append, List.reverse_cons, List.append_assoc]
  induction behind.reverse with
  | nil => simp
  | cons c cs ih =>
    rw [List.cons_append, List.takeWhile_cons, List.takeWhile_cons, ih]

theorem behindColon_marked {mark : Text} (t : Text) (h : ':' ∉ mark) :
    behindColon (t ++ mark) = mark.reverse ++ behindColon t := by
  unfold behindColon
  rw [List.reverse_append]
  apply List.takeWhile_append_of_pos
  intro c hc
  exact decide_eq_true fun heq => h (heq ▸ List.mem_reverse.1 hc)

/-- The text of a declaration tells its property and its importance to whoever knows the values. -/
theorem declarationText_inj {p q values : Text} {i j : Bool}
    (h : declarationText p values i = declarationText q values j) : p = q ∧ i = j := by
  have hbehind (p : Text) (i : Bool) : behindColon (declarationText p values i) =
      (if i then " !important".toList else []).reverse ++ behindColon (' ' :: values) := by
    have hmark : ':' ∉ if i then " !important".toList else [] := by
      cases i <;> decide
    rw [declarationText, behindColon_marked _ hmark, List.append_assoc]
    exact congrArg (_ ++ ·) (behindColon_append p (' ' :: values))
  have hij : i = j := by
    have hlen := congrArg List.length ((hbehind p i).symm.trans (h ▸ hbehind q j))
    cases i <;> cases j <;> simp at hlen ⊢ <;> omega
  subst hij
  refine ⟨?_, rfl⟩
  unfold declarationText at h
  exact List.append_cancel_right (List.append_cancel_right (List.append_cancel_right h))

namespace Shape

instance : Std.TransOrd Shape :=
  inferInstanceAs (Std.TransCmp (compareLex (compareOn key) (compareOn values)))

variable {s t : Shape}

/-- What the order looks at is enough to know a shape. -/
theorem eq_of_key_eq (hkey : s.key = t.key) (hvalues : s.values = t.values) : s = t := by
  obtain ⟨p, vs, i⟩ := s
  obtain ⟨q, ws, j⟩ := t
  obtain rfl : vs = ws := hvalues
  obtain ⟨rfl, rfl⟩ := declarationText_inj hkey
  rfl

instance : Std.LawfulEqOrd Shape where
  compare_self := Std.ReflOrd.compare_self
  eq_of_compare := by
    intro s t h
    obtain ⟨hkey, hvalues⟩ := compareLex_eq_eq.1 h
    exact eq_of_key_eq (Std.LawfulEqOrd.eq_of_compare hkey) (Std.LawfulEqOrd.eq_of_compare hvalues)

/-- The order of shapes is total, and shapes are equal in it only where they are the same. It reads nothing of
them but the key and the values, and no two shapes have both alike. -/
theorem compare_total (a b c : Shape) :
    compare a b = (compare a.key b.key).then (compare a.values b.values) ∧
    (a.key = b.key → a.values = b.values → a = b) ∧
    (compare a b = .eq ↔ a = b) ∧
    compare b a = (compare a b).swap ∧
    ((compare a b).isLE = true → (compare b c).isLE = true → (compare a c).isLE = true) := by
  refine ⟨rfl, eq_of_key_eq, ⟨Std.LawfulEqOrd.eq_of_compare, ?_⟩, Std.OrientedCmp.eq_swap,
    Std.TransCmp.isLE_trans⟩
  rintro rfl
  exact Std.ReflOrd.compare_self

/-- Two shapes with one key stand apart by their values, and one that differs in importance alone stands
behind. -/
theorem compare_total_sameKey :
    let a : Shape := ⟨['p'], [⟨.keyword, "q: r".toList⟩], false⟩
    let b : Shape := ⟨"p: q".toList, [⟨.keyword, ['r']⟩], false⟩
    let c : Shape := ⟨"p: q".toList, [⟨.keyword, ['r']⟩], true⟩
    a.key = b.key ∧ compare a b ≠ .eq ∧ (compare a b).isLE = true ∧ (compare b c).isLE = true ∧
      (compare a c).isLE = true := by
  intro a b c
  obtain ⟨-, -, heq, -, htrans⟩ := compare_total a b c
  have hab : (compare a b).isLE = true := by decide
  have hbc : (compare b c).isLE = true := by decide
  exact ⟨by decide, fun h => absurd (heq.1 h) (by decide), hab, hbc, htrans hab hbc⟩

end Shape
end StyleMiner
