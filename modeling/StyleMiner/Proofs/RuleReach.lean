import Mathlib.Data.List.Basic
import StyleMiner.Proofs.GroupRules

/-! How far the readers of rules look. Each of them stops at a token or behind one, and what it reads up to
there does not change with the tokens behind, as long as the end of the text is not among those it passes. -/

namespace StyleMiner

variable {source : Source} {front us ts ts' rest : List Located} {t : Located} {contexts contexts' : List Text}

/-- The list between a list and an end of it that both have in common splits in front of that. -/
theorem exists_between {α : Type} {front us rest ys : List α} (h : us ++ rest <:+ ys)
    (h' : ys <:+ front ++ rest) : ∃ w, ys = w ++ rest ∧ w <:+ front := by
  obtain ⟨a, rfl⟩ := h
  obtain ⟨b, hb⟩ := h'
  refine ⟨a ++ us, (List.append_assoc ..).symm, b, (List.append_left_inj rest).1 ?_⟩
  rw [← hb, List.append_assoc, List.append_assoc]

/-- tokens without the end of the text among them -/
def Unended (ts : List Located) : Prop := ∀ t ∈ ts, t.token ≠ .eof

theorem Unended.suffix (h : Unended front) (hus : us <:+ front) : Unended us :=
  fun t ht => h t (hus.subset ht)

theorem Unended.tail (h : Unended (t :: ts)) : Unended ts := h.suffix (List.suffix_cons t ts)

/-- tokens of which the first is not the end of the text -/
def GoesOn (ts : List Located) : Prop := ∃ t ∈ ts.head?, t.token ≠ .eof

theorem GoesOn.ne_nil (h : GoesOn rest) : rest ≠ [] := by
  rintro rfl
  obtain ⟨t, ht, -⟩ := h
  cases ht

namespace Component

variable {ends : Token → Bool} {last : Nat} {fs : List Frame}

theorem gather_cut (hfront : Unended front) (h : (gather ends last fs (front ++ rest)).2 = us ++ rest)
    (hus : us ≠ []) (rest' : List Located) : gather ends last fs (front ++ rest') =
      ((gather ends last fs (front ++ rest)).1, us ++ rest') := by
  induction front generalizing last fs with
  | nil =>
    have hlength := (gather_suffix ends last fs rest).length_le
    rw [List.nil_append] at h
    rw [h, List.length_append] at hlength
    exact absurd (List.length_pos_iff.2 hus) (by omega)
  | cons t front ih =>
    have heof := hfront t (List.mem_cons_self ..)
    rw [List.cons_append, gather, if_neg heof] at h ⊢
    rw [List.cons_append, gather, if_neg heof]
    split at h
    · next hstop =>
      have hwhole : t :: front = us := (List.append_left_inj rest).1 h
      rw [if_pos hstop, if_pos hstop, ← hwhole]
      rfl
    · next hgo =>
      rw [if_neg hgo, if_neg hgo]
      dsimp only at h ⊢
      rw [ih hfront.tail h]

theorem takeUntil_cut (hfront : Unended front) (h : (takeUntil ends (front ++ rest)).2 = us ++ rest)
    (hus : us ≠ []) (rest' : List Located) :
    takeUntil ends (front ++ rest') = ((takeUntil ends (front ++ rest)).1, us ++ rest') :=
  gather_cut hfront h hus rest'

end Component

open Component (takeUntil takeUntil_cut takeUntil_suffix)

namespace BlockItem

variable {property : Text} {location : Location}

theorem readDeclaration_cut (hfront : Unended front)
    (h : (readDeclaration source property location (front ++ rest)).2 = us ++ rest) (hus : us ≠ [])
    (rest' : List Located) : readDeclaration source property location (front ++ rest') =
      ((readDeclaration source property location (front ++ rest)).1, us ++ rest') := by
  cases hdrop : front.dropWhile (·.token == .whitespace) with
  | nil =>
    -- what is read would lie behind `front` whole
    have hbehind : (readDeclaration source property location (front ++ rest)).2 <:+ rest := by
      have hsame : readDeclaration source property location (front ++ rest) =
          readDeclaration source property location rest := by
        rw [readDeclaration, List.dropWhile_append, hdrop, List.isEmpty_nil, if_pos rfl, readDeclaration]
      rw [hsame]
      exact readDeclaration_suffix ..
    have hlength := hbehind.length_le
    rw [h, List.length_append] at hlength
    exact absurd (List.length_pos_iff.2 hus) (by omega)
  | cons t u =>
    have hu : Unended (t :: u) := hfront.suffix (hdrop ▸ List.dropWhile_suffix _)
    have happend (ts : List Located) :
        (front ++ ts).dropWhile (·.token == .whitespace) = t :: (u ++ ts) := by
      rw [List.dropWhile_append, hdrop, List.isEmpty_cons, if_neg Bool.false_ne_true, List.cons_append]
    unfold readDeclaration at h ⊢
    simp only [happend] at h ⊢
    split at h
    · next hcolon =>
      rw [if_pos hcolon, if_pos hcolon, takeUntil_cut hu.tail h hus]
    · next hcolon =>
      rw [if_neg hcolon, if_neg hcolon, ← List.cons_append, takeUntil_cut hu h hus, List.cons_append]

/-- What starts no declaration is skipped with the token that it starts with. -/
theorem skipped_suffix (heof : t.token ≠ .eof) (hbrace : ¬ t.token = .closing .curly)
    (hgap : ¬ (t.token = .whitespace ∨ t.token = .semicolon)) (ts : List Located) :
    (takeUntil endsDeclaration (t :: ts)).2 <:+ ts := by
  refine Component.takeUntil_cons_suffix _ t ts heof ?_
  rw [← Bool.not_eq_true, endsDeclaration_iff]
  exact fun h => h.elim (fun h => hgap (.inr h)) hbrace

/-- A block that goes on takes some token. -/
theorem readBlock_lt (source : Source) (h : GoesOn ts) : (readBlock source ts).2.length < ts.length := by
  obtain ⟨t, ht, heof⟩ := h
  obtain ⟨us, rfl⟩ := List.head?_eq_some_iff.1 ht
  rw [readBlock, if_neg heof]
  refine Nat.lt_succ_of_le ?_
  split
  · exact Nat.le_refl _
  next hbrace =>
  split
  · exact (readBlock_suffix source us).length_le
  next hgap =>
  split
  · exact ((readBlock_suffix source _).trans (readDeclaration_suffix ..)).length_le
  · exact ((readBlock_suffix source _).trans (skipped_suffix heof hbrace hgap us)).length_le

theorem readBlock_ne (source : Source) (hrest : GoesOn rest) (us : List Located) :
    (readBlock source rest).2 ≠ us ++ rest := by
  intro h
  have hlength := readBlock_lt source hrest
  rw [h, List.length_append] at hlength
  omega

theorem readBlock_cut (hrest : GoesOn rest) : ∀ {front us : List Located}, Unended front →
    (readBlock source (front ++ rest)).2 = us ++ rest → ∀ rest', readBlock source (front ++ rest') =
      ((readBlock source (front ++ rest)).1, us ++ rest')
  | [], us, _, h => absurd h (readBlock_ne source hrest us)
  | t :: front, us, hfront, h => by
    intro rest'
    have heof := hfront t (List.mem_cons_self ..)
    -- what a piece leaves begins in `front`, since the block ends there
    have hpiece {ys : List Located} (hys : ys <:+ front ++ rest) (h : (readBlock source ys).2 = us ++ rest) :
        ∃ w, ys = w ++ rest ∧ w ≠ [] ∧ w <:+ front := by
      obtain ⟨w, rfl, hw⟩ := exists_between (h ▸ readBlock_suffix source ys) hys
      refine ⟨w, rfl, ?_, hw⟩
      rintro rfl
      exact readBlock_ne source hrest us h
    rw [List.cons_append, readBlock, if_neg heof] at h ⊢
    rw [List.cons_append, readBlock, if_neg heof]
    split at h
    · next hbrace =>
      rw [if_pos hbrace, if_pos hbrace, ← List.append_cancel_right h]
    next hbrace =>
    rw [if_neg hbrace, if_neg hbrace]
    split at h
    · next hgap =>
      rw [if_pos hgap, if_pos hgap, readBlock_cut hrest hfront.tail h]
    next hgap =>
    rw [if_neg hgap, if_neg hgap]
    cases hname : t.token with
    | ident property =>
      simp only [hname] at h ⊢
      obtain ⟨w, hw, hne, hsuffix⟩ := hpiece (readDeclaration_suffix ..) h
      have hlength := hsuffix.length_le
      rw [hw] at h ⊢
      rw [readDeclaration_cut hfront.tail hw hne, readBlock_cut hrest (hfront.tail.suffix hsuffix) h]
    | _ =>
      simp only [hname] at h ⊢
      obtain ⟨w, hw, hne, hsuffix⟩ := hpiece (skipped_suffix heof hbrace hgap (front ++ rest)) h
      have hlength := hsuffix.length_le
      rw [hw] at h ⊢
      rw [← List.cons_append] at hw
      rw [← List.cons_append, takeUntil_cut hfront hw hne, readBlock_cut hrest (hfront.tail.suffix hsuffix) h]
termination_by front => front.length

end BlockItem

namespace SheetItem

variable {outer : Option Text} {name : Text} {location : Location}

theorem dropBlock_cut (hrest : GoesOn rest) (hfront : Unended front)
    (h : dropBlock (front ++ rest) = us ++ rest) (rest' : List Located) :
    dropBlock (front ++ rest') = us ++ rest' := by
  unfold dropBlock at h ⊢
  cases htake : (takeUntil (· == .closing .curly) (front ++ rest)).2 with
  | nil =>
    rw [htake] at h
    exact absurd (List.append_eq_nil_iff.1 h.symm).2 hrest.ne_nil
  | cons c ts =>
    rw [htake, List.tail_cons] at h
    rw [h, ← List.cons_append] at htake
    rw [takeUntil_cut hfront htake (List.cons_ne_nil c us)]
    rfl

/-- Where a prelude ends in front of `rest`, it ends there whatever is behind. -/
theorem prelude_cut {ends : Token → Bool} (hfront : Unended front) (h : us ++ rest <:+ ts)
    (htake : (takeUntil ends (front ++ rest)).2 = t :: ts) : ∃ w, ts = w ++ rest ∧ Unended w ∧ front ≠ [] ∧
      ∀ rest', (takeUntil ends (front ++ rest')).2 = t :: (w ++ rest') := by
  have hsuffix : t :: ts <:+ front ++ rest := htake ▸ takeUntil_suffix ends _
  obtain ⟨w, rfl, hw⟩ := exists_between h ((List.suffix_cons t ts).trans hsuffix)
  refine ⟨w, rfl, hfront.suffix hw, ?_, fun rest' => ?_⟩
  · rintro rfl
    have hlength := hsuffix.length_le
    rw [List.length_cons, List.length_append, List.nil_append] at hlength
    omega
  · rw [← List.cons_append] at htake
    rw [takeUntil_cut hfront htake (List.cons_ne_nil t w)]
    rfl

theorem readAtRule_cut (hrest : GoesOn rest) (hfront : Unended front)
    (h : (readAtRule source outer name location (front ++ rest)).rest = us ++ rest) (rest' : List Located) :
    readAtRule source outer name location (front ++ rest') =
      { readAtRule source outer name location (front ++ rest) with rest := us ++ rest' } := by
  unfold readAtRule at h ⊢
  dsimp only at h ⊢
  cases htake : (takeUntil endsAtPrelude (front ++ rest)).2 with
  | nil =>
    rw [htake] at h
    exact absurd (List.append_eq_nil_iff.1 h.symm).2 hrest.ne_nil
  | cons t ts =>
    rw [htake] at h
    dsimp only at h
    have hsuffix : us ++ rest <:+ ts := by
      rw [← h]
      split
      · split
        · exact List.suffix_refl _
        · exact dropBlock_suffix _
      · exact List.suffix_refl _
    obtain ⟨w, rfl, hw, hne, hcut⟩ := prelude_cut hfront hsuffix htake
    have hhead : (front ++ rest').head? = (front ++ rest).head? := by
      rw [List.head?_append_of_ne_nil _ hne, List.head?_append_of_ne_nil _ hne]
    rw [hcut, hhead]
    dsimp only
    split at h
    · next hbrace =>
      rw [if_pos hbrace, if_pos hbrace]
      split at h
      · next hname =>
        rw [if_pos hname, if_pos hname, List.append_cancel_right h]
      · next hname =>
        rw [if_neg hname, if_neg hname, dropBlock_cut hrest hw h]
    · next hbrace => rw [if_neg hbrace, if_neg hbrace, List.append_cancel_right h]

theorem readRule_cut (hrest : GoesOn rest) {media : Option Text} (hfront : Unended (t :: front))
    (h : (readRule source media t (front ++ rest)).2 = us ++ rest) (rest' : List Located) :
    readRule source media t (front ++ rest') =
      ((readRule source media t (front ++ rest)).1, us ++ rest') := by
  unfold readRule at h ⊢
  cases htake : (takeUntil endsRulePrelude (t :: (front ++ rest))).2 with
  | nil =>
    rw [htake] at h
    exact absurd (List.append_eq_nil_iff.1 h.symm).2 hrest.ne_nil
  | cons brace ts =>
    rw [htake] at h
    dsimp only at h
    have hsuffix : us ++ rest <:+ ts := by
      rw [← h]
      split
      · split
        · exact dropBlock_suffix _
        · exact BlockItem.readBlock_suffix ..
      · exact List.suffix_refl _
    obtain ⟨w, rfl, hw, -, hcut⟩ := prelude_cut hfront hsuffix htake
    simp only [List.cons_append] at hcut
    rw [hcut]
    dsimp only
    split at h
    · next hbrace =>
      rw [if_pos hbrace, if_pos hbrace]
      split at h
      · next htext =>
        rw [if_pos htext, if_pos htext, dropBlock_cut hrest hw h]
      · next htext =>
        rw [if_neg htext, if_neg htext, BlockItem.readBlock_cut hrest hw h]
    · next hbrace => rw [if_neg hbrace, if_neg hbrace, List.append_cancel_right h]

end SheetItem
end StyleMiner
