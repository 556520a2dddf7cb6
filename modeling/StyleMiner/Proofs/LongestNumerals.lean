import StyleMiner.Proofs.PrintedNumbers
import StyleMiner.Proofs.TokenReach
import StyleMiner.Proofs.TokenShapes

/-! Numerals by a grammar: a sign or none, digits with a point among them or in front of them, and a power of ten
or none. Where a number starts, the reader takes the longest numeral that the text begins with. A text of this
form stands for a number, so a number that is read is never made up. -/

namespace StyleMiner

variable {s m p t ds f fs : Text} {c : Char}

namespace Text

/-- digits, at least one -/
def DigitRun (t : Text) : Prop := t ≠ [] ∧ Digits t

theorem DigitRun.head_ne_sign (h : DigitRun ds) (t : Text) : ∀ c ∈ (ds ++ t).head?, c ≠ '+' ∧ c ≠ '-' := by
  obtain ⟨d, ds', rfl⟩ := List.exists_cons_of_ne_nil h.1
  intro c hc
  obtain rfl := Option.some.inj hc
  have hdigit := h.2 d List.mem_cons_self
  constructor <;> rintro rfl <;> cases hdigit

end Text

namespace Numeral

/-- `[+-]?` -/
inductive SignText : Text → Prop where
  | none : SignText []
  | plus : SignText ['+']
  | minus : SignText ['-']

/-- `digits | digits '.' digits | '.' digits` -/
inductive MantissaText : Text → Prop where
  | whole {ds : Text} (hds : Text.DigitRun ds) : MantissaText ds
  | mixed {ds fs : Text} (hds : Text.DigitRun ds) (hfs : Text.DigitRun fs) : MantissaText (ds ++ '.' :: fs)
  | fraction {fs : Text} (hfs : Text.DigitRun fs) : MantissaText ('.' :: fs)

/-- `([eE] [+-]? digits)?` -/
inductive PowerText : Text → Prop where
  | none : PowerText []
  | power {c : Char} {s ds : Text} (hc : c = 'e' ∨ c = 'E') (hs : SignText s) (hds : Text.DigitRun ds) :
    PowerText (c :: (s ++ ds))

/-- a sign, a mantissa and a power of ten, one behind the other -/
inductive Written : Text → Prop where
  | mk {s m p : Text} (hs : SignText s) (hm : MantissaText m) (hp : PowerText p) : Written (s ++ (m ++ p))

/-- nothing, or a point with digits behind it -/
inductive FractionText : Text → Prop where
  | none : FractionText []
  | digits {fs : Text} (hfs : Text.DigitRun fs) : FractionText ('.' :: fs)

theorem MantissaText.split (h : MantissaText m) :
    ∃ ds f, m = ds ++ f ∧ Text.Digits ds ∧ FractionText f ∧ (f = [] → ds ≠ []) := by
  cases h with
  | whole hds => exact ⟨m, [], (List.append_nil m).symm, hds.2, .none, fun _ => hds.1⟩
  | mixed hds hfs => exact ⟨_, _, rfl, hds.2, .digits hfs, nofun⟩
  | fraction hfs => exact ⟨[], _, rfl, by simp [Text.Digits], .digits hfs, nofun⟩

theorem FractionText.takeWhile_append (h : FractionText f) (hds : Text.Digits ds)
    (hp : ∀ c ∈ p.head?, c.isDigit = false) : (ds ++ (f ++ p)).takeWhile Char.isDigit = ds := by
  refine Text.takeWhile_digits hds fun c hc => ?_
  cases h with
  | none => exact hp c hc
  | digits hfs =>
    obtain rfl := Option.some.inj hc
    rfl

theorem MantissaText.head_ne_sign (h : MantissaText m) (t : Text) : ∀ c ∈ (m ++ t).head?, c ≠ '+' ∧ c ≠ '-' := by
  cases h with
  | whole hds => exact hds.head_ne_sign t
  | mixed hds hfs =>
    rw [List.append_assoc]
    exact hds.head_ne_sign _
  | fraction hfs =>
    intro c hc
    obtain rfl := Option.some.inj hc
    decide

theorem PowerText.head_ne (h : PowerText p) : ∀ c ∈ p.head?, c.isDigit = false ∧ c ≠ '.' := by
  cases h with
  | none => simp
  | power hc hs hds => rcases hc with rfl | rfl <;> simp

end Numeral

namespace Token

open Numeral

theorem signText_signOf (t : Text) : SignText (signOf t) := by
  cases t with
  | nil => exact .none
  | cons c t =>
    by_cases hc : c = '+' ∨ c = '-'
    · rw [signOf, if_pos hc]
      rcases hc with rfl | rfl
      · exact .plus
      · exact .minus
    · rw [signOf, if_neg hc]
      exact .none

theorem digitRun_digitsOf (h : startsDigit t = true) : Text.DigitRun (digitsOf t) :=
  ⟨(startsDigit_iff t).1 h, fun _ hc => isDigit_of_mem_digitsOf hc⟩

theorem fractionText_fractionOf (t : Text) : FractionText (fractionOf t) := by
  cases t with
  | nil => exact .none
  | cons c t =>
    by_cases hpoint : c = '.' ∧ startsDigit t = true
    · obtain ⟨rfl, hdigit⟩ := hpoint
      rw [fractionOf, if_pos ⟨rfl, hdigit⟩]
      exact .digits (digitRun_digitsOf hdigit)
    · rw [fractionOf, if_neg hpoint]
      exact .none

theorem mantissaText_mantissaOf (h : mantissaOf t ≠ []) : MantissaText (mantissaOf t) := by
  unfold mantissaOf at h ⊢
  have hfraction := fractionText_fractionOf (t.drop (digitsOf t).length)
  revert h hfraction
  generalize fractionOf (t.drop (digitsOf t).length) = f
  intro h hf
  by_cases hds : digitsOf t = []
  · rw [hds, List.nil_append] at h ⊢
    cases hf with
    | none => exact absurd rfl h
    | digits hfs => exact .fraction hfs
  · have hrun : Text.DigitRun (digitsOf t) := digitRun_digitsOf ((startsDigit_iff t).2 hds)
    cases hf with
    | none =>
      rw [List.append_nil]
      exact .whole hrun
    | digits hfs => exact .mixed hrun hfs

theorem powerText_powerOf (t : Text) : PowerText (powerOf t) := by
  cases t with
  | nil => exact .none
  | cons c t =>
    by_cases hpower : (c = 'e' ∨ c = 'E') ∧ startsDigit (t.drop (signOf t).length) = true
    · rw [powerOf, if_pos hpower]
      exact .power hpower.1 (signText_signOf t) (digitRun_digitsOf hpower.2)
    · rw [powerOf, if_neg hpower]
      exact .none

/-- Where a number starts, a numeral is read. -/
theorem written_numeralOf (h : startsNumber t = true) : Written (numeralOf t) := by
  rw [numeralOf_eq]
  exact .mk (signText_signOf t) (mantissaText_mantissaOf ((startsNumber_iff t).1 h)) (powerText_powerOf _)

theorem signOf_append_of_ne (hs : SignText s) (ht : ∀ c ∈ t.head?, c ≠ '+' ∧ c ≠ '-') : signOf (s ++ t) = s := by
  cases hs with
  | plus => rfl
  | minus => rfl
  | none =>
    cases t with
    | nil => rfl
    | cons c t => exact if_neg (not_or.2 (ht c rfl))

theorem startsDigit_digitRun (hds : Text.DigitRun ds) (t : Text) : startsDigit (ds ++ t) = true := by
  obtain ⟨d, ds', rfl⟩ := List.exists_cons_of_ne_nil hds.1
  exact hds.2 d List.mem_cons_self

theorem mantissaOf_append (hm : MantissaText m) (hp : ∀ c ∈ p.head?, c.isDigit = false ∧ c ≠ '.') :
    mantissaOf (m ++ p) = m := by
  have hdigit : ∀ c ∈ p.head?, c.isDigit = false := fun c hc => (hp c hc).1
  obtain ⟨ds, f, rfl, hds, hf, -⟩ := hm.split
  have hwhole : digitsOf (ds ++ (f ++ p)) = ds := hf.takeWhile_append hds hdigit
  rw [List.append_assoc, mantissaOf, hwhole, List.drop_left]
  congr 1
  cases hf with
  | none =>
    cases p with
    | nil => rfl
    | cons c p => exact if_neg fun hpoint => (hp c rfl).2 hpoint.1
  | @digits fs hfs =>
    have hfraction : digitsOf (fs ++ p) = fs := Text.takeWhile_digits hfs.2 hdigit
    rw [List.cons_append, fractionOf, if_pos ⟨rfl, startsDigit_digitRun hfs p⟩, hfraction]

theorem powerOf_written (hp : PowerText p) : powerOf p = p := by
  cases hp with
  | none => rfl
  | @power c s ds hc hs hds =>
    have hhead := hds.head_ne_sign []
    have hwhole : digitsOf (ds ++ []) = ds := Text.takeWhile_digits hds.2 (by simp)
    have hstarts := startsDigit_digitRun hds []
    rw [List.append_nil] at hhead hwhole hstarts
    have hsign : signOf (s ++ ds) = s := signOf_append_of_ne hs hhead
    rw [powerOf, hsign, List.drop_left, if_pos ⟨hc, hstarts⟩, hwhole, List.cons_append]

/-- A numeral that stands alone is read whole. -/
theorem numeralOf_written (h : Written t) : numeralOf t = t := by
  obtain ⟨hs, hm, hp⟩ := h
  rw [numeralOf_eq, signOf_append_of_ne hs (hm.head_ne_sign _), List.drop_left,
    mantissaOf_append hm hp.head_ne, List.drop_left, powerOf_written hp]

/-- No numeral that a text begins with is longer than the one that is read. -/
theorem length_le_numeralOf (h : Written p) (hp : p <+: t) : p.length ≤ (numeralOf t).length := by
  obtain ⟨rest, rfl⟩ := hp
  by_contra hlt
  -- what is read within `p` would be read of `p` alone, and that is all of it
  have hcut := takesOwn_numeralOf p rest (Nat.le_of_not_le hlt)
  rw [numeralOf_written h] at hcut
  exact hlt (Nat.le_of_eq (congrArg List.length hcut))

end Token

namespace Numeral

theorem sign_append (hs : SignText s) (ht : ∀ c ∈ t.head?, c ≠ '+' ∧ c ≠ '-') : (sign (s ++ t)).2 = t := by
  cases hs with
  | plus => rfl
  | minus => rfl
  | none =>
    unfold sign
    split
    · next u hu => exact absurd rfl (ht '-' (by rw [← List.nil_append t, hu]; rfl)).2
    · next u hu => exact absurd rfl (ht '+' (by rw [← List.nil_append t, hu]; rfl)).1
    · rfl

theorem isSome_exponent? (hp : PowerText p) : (exponent? p).isSome = true := by
  cases hp with
  | none => rfl
  | @power c s ds hc hs hds =>
    have hhead := hds.head_ne_sign []
    rw [List.append_nil] at hhead
    have hrest := sign_append hs hhead
    have hall : ds.all Char.isDigit = true := List.all_eq_true.2 hds.2
    simp only [exponent?, if_pos hc]
    rw [hrest, if_pos ⟨hds.1, hall⟩]
    rfl

theorem isSome_ofText? (h : Written t) : (ofText? t).isSome = true := by
  obtain @⟨s, m, p, hs, hm, hp⟩ := h
  simp only [ofText?]
  rw [sign_append hs (hm.head_ne_sign _)]
  have hdigit : ∀ c ∈ p.head?, c.isDigit = false := fun c hc => (hp.head_ne c hc).1
  obtain ⟨ds, f, rfl, hds, hf, hne⟩ := hm.split
  rw [List.append_assoc, hf.takeWhile_append hds hdigit, List.drop_left]
  have hexponent := isSome_exponent? hp
  cases hf with
  | none =>
    have hpoint : ¬ p.head? = some '.' := fun h => (hp.head_ne '.' h).2 rfl
    simp [hpoint, hne rfl, hexponent]
  | @digits fs hfs =>
    have hfraction : (fs ++ p).takeWhile Char.isDigit = fs := Text.takeWhile_digits hfs.2 hdigit
    simp [hfraction, hfs.1, hexponent]

end Numeral

namespace Token

theorem exists_ofText?_numeralOf (h : startsNumber t = true) : ∃ v, Double.ofText? (numeralOf t) = some v := by
  obtain ⟨n, hn⟩ := Option.isSome_iff_exists.1 (Numeral.isSome_ofText? (written_numeralOf h))
  exact ⟨n.toDouble, by rw [Double.ofText?, hn]⟩

/-- Where a number starts, the longest numeral that the text begins with is read, and nothing behind it is
taken for the number. It always stands for a number, which is the value of the token; what is behind it
decides whether that is a percentage or has a unit. -/
theorem numeralOf_longest (h : startsNumber t = true) :
    Numeral.Written (numeralOf t) ∧ (∀ p, p <+: t → Numeral.Written p → p <+: numeralOf t) ∧
      ∃ rest v, t = numeralOf t ++ rest ∧ Double.ofText? (numeralOf t) = some v ∧
        (readNumeric t = (.number v, (numeralOf t).length) ∨
          readNumeric t = (.percentage v, (numeralOf t).length + 1) ∨
          readNumeric t = (.dimension v (readName rest).1, (numeralOf t).length + (readName rest).2)) := by
  obtain ⟨rest, hrest⟩ := piece_numeralOf.front t
  obtain ⟨v, hv⟩ := exists_ofText?_numeralOf h
  refine ⟨written_numeralOf h, fun p hp hwritten => ?_, rest, v, hrest.symm, hv, ?_⟩
  · exact List.prefix_of_prefix_length_le hp (piece_numeralOf.front t) (length_le_numeralOf hwritten hp)
  · have hbehind : (numeralOf t ++ rest).drop (numeralOf t).length = rest := List.drop_left
    rw [hrest] at hbehind
    unfold readNumeric
    dsimp only
    rw [hbehind, hv, Option.getD_some]
    split
    · exact .inr (.inr rfl)
    · split
      · exact .inr (.inl rfl)
      · exact .inl rfl

theorem numeralOf_longest_unit : startsNumber "-12.5e3e+.7".toList = true ∧
    Numeral.Written "-12.5e3".toList ∧ ¬ Numeral.Written "-12.5e3e".toList ∧
      ∃ v, Double.ofText? "-12.5e3".toList = some v := by
  have h : startsNumber "-12.5e3e+.7".toList = true := by decide
  have hnumeral : numeralOf "-12.5e3e+.7".toList = "-12.5e3".toList := by decide
  obtain ⟨hwritten, hlongest, rest, v, -, hv, -⟩ := numeralOf_longest h
  rw [hnumeral] at hwritten hlongest hv
  refine ⟨h, hwritten, fun hlonger => ?_, v, hv⟩
  have hprefix := hlongest _ (by decide) hlonger
  exact absurd hprefix (by decide)

end Token
end StyleMiner
