import StyleMiner.Decimal.Numeral
import StyleMiner.Proofs.FourPlaces

/-! A number printed with at most four decimal places is read again as the number that was printed: the
digits are those of a count of ten-thousandths, and the numeral they form rounds to the number nearest to
that count. -/

namespace StyleMiner

variable {a ds ws fs t : Text} {c : Char} {n N k : Nat} {s : Bool} {x : Double}

namespace Text

theorem dropEnd_append_replicate (c : Char) (t : Text) : ∃ j, t = dropEnd c t ++ List.replicate j c := by
  obtain ⟨j, hj⟩ : ∃ j, t.reverse.takeWhile (· == c) = List.replicate j c :=
    ⟨_, List.eq_replicate_of_mem fun d hd => by simpa using List.all_eq_true.1 List.all_takeWhile d hd⟩
  refine ⟨j, ?_⟩
  have hsplit := congrArg List.reverse (List.takeWhile_append_dropWhile (p := (· == c)) (l := t.reverse))
  rw [hj, List.reverse_append, List.reverse_reverse, List.reverse_replicate] at hsplit
  exact hsplit.symm

theorem dropEnd_append_self (c : Char) (a : Text) (j : Nat) :
    dropEnd c (a ++ List.replicate j c) = dropEnd c a := by
  induction j generalizing a with
  | zero => rw [List.replicate_zero, List.append_nil]
  | succ j ih =>
    rw [List.replicate_succ', ← List.append_assoc, dropEnd, List.reverse_concat,
      List.dropWhile_cons_of_pos (by simp)]
    exact ih a

theorem dropEnd_append (a : Text) (h : ∃ d ∈ ds.getLast?, d ≠ c) : dropEnd c (a ++ ds) = a ++ ds := by
  obtain ⟨d, hd, hne⟩ := h
  obtain ⟨us, rfl⟩ := List.getLast?_eq_some_iff.1 hd
  rw [dropEnd, ← List.append_assoc, List.reverse_concat, List.dropWhile_cons_of_neg (by simpa using hne),
    ← List.reverse_concat, List.reverse_reverse]

theorem getLast?_dropEnd (c : Char) (t : Text) :
    dropEnd c t = [] ∨ ∃ d ∈ (dropEnd c t).getLast?, d ≠ c := by
  rw [dropEnd, List.getLast?_reverse]
  cases h : t.reverse.dropWhile (· == c) with
  | nil => exact .inl rfl
  | cons d us =>
    have hne := List.head?_dropWhile_not (· == c) t.reverse
    rw [h] at hne
    exact .inr ⟨d, rfl, by simpa using hne⟩

theorem ofDecimal_append (a ds : Text) :
    ofDecimal (a ++ ds) = 10 ^ ds.length * ofDecimal a + ofDecimal ds := by
  have happend := Nat.ofDigitChars_append (b := 10) (l := a) (m := ds) 0
  rw [Nat.ofDigitChars_eq_ofDigitChars_zero (l := ds)] at happend
  exact happend

theorem ofDecimal_decimal (n : Nat) : ofDecimal (decimal n) = n := Nat.ofDigitChars_ten_toDigits

theorem ofDecimal_zeros (k : Nat) : ofDecimal (List.replicate k '0') = 0 :=
  Nat.ofDigitChars_replicate_zero.trans (Nat.mul_zero _)

/-- nothing but decimal digits -/
def Digits (t : Text) : Prop := ∀ c ∈ t, c.isDigit = true

instance (t : Text) : Decidable (Digits t) := decidable_of_iff (t.all Char.isDigit = true) List.all_eq_true

theorem digits_decimal (n : Nat) : Digits (decimal n) := fun _ h =>
  Nat.isDigit_of_mem_toDigits (by decide) (by decide) h

theorem decimal_ne_nil (n : Nat) : decimal n ≠ [] := Nat.toDigits_ne_nil

theorem length_decimal_le (hk : 0 < k) (h : n < 10 ^ k) : (decimal n).length ≤ k :=
  (Nat.length_toDigits_le_iff (by decide) hk).2 h

theorem digits_paddedDecimal (k n : Nat) : Digits (paddedDecimal k n) := by
  intro c h
  rcases List.mem_append.1 h with h | h
  · rw [List.eq_of_mem_replicate h]
    rfl
  · exact digits_decimal n c h

theorem digits_dropEnd (h : Digits t) (c : Char) : Digits (dropEnd c t) := by
  obtain ⟨j, hj⟩ := dropEnd_append_replicate c t
  exact fun d hd => h d (hj ▸ List.mem_append_left _ hd)

/-- What no digit starts ends a run of digits. -/
theorem takeWhile_digits (h : Digits ds) (ht : ∀ c ∈ t.head?, c.isDigit = false) :
    (ds ++ t).takeWhile Char.isDigit = ds := by
  rw [List.takeWhile_append_of_pos h]
  cases t with
  | nil => exact List.append_nil ds
  | cons c t => rw [List.takeWhile_cons_of_neg (by simp [ht c rfl]), List.append_nil]

theorem length_paddedDecimal (hk : 0 < k) (h : n < 10 ^ k) : (paddedDecimal k n).length = k := by
  have := length_decimal_le hk h
  rw [paddedDecimal, List.length_append, List.length_replicate]
  omega

theorem ofDecimal_paddedDecimal (k n : Nat) : ofDecimal (paddedDecimal k n) = n := by
  rw [paddedDecimal, ofDecimal_append, ofDecimal_zeros, ofDecimal_decimal, Nat.mul_zero, Nat.zero_add]

end Text

namespace Numeral

/-- what stands behind the whole digits -/
def behind (fraction : Text) : Text := if fraction = [] then [] else '.' :: fraction

/-- a sign, whole digits, and behind a point the digits of a fraction if there are any -/
def spell (negative : Bool) (whole fraction : Text) : Text :=
  (if negative then ['-'] else []) ++ (whole ++ behind fraction)

theorem sign_of_digits (hw : ws ≠ []) (h : Text.Digits ws) (t : Text) :
    sign (ws ++ t) = (false, ws ++ t) := by
  cases ws with
  | nil => exact absurd rfl hw
  | cons c ws =>
    have hc := h c (List.mem_cons_self ..)
    rw [List.cons_append, sign]
    all_goals
      rintro u hu
      rw [(List.cons.inj hu).1] at hc
      cases hc

theorem sign_spell (hw : ws ≠ []) (h : Text.Digits ws) (s : Bool) (fs : Text) :
    sign (spell s ws fs) = (s, ws ++ behind fs) := by
  cases s with
  | false => exact sign_of_digits hw h _
  | true => rfl

theorem ofText?_spell (hw : ws ≠ []) (hws : Text.Digits ws) (hfs : Text.Digits fs) (s : Bool) :
    ofText? (spell s ws fs) = some ⟨s, Text.ofDecimal (ws ++ fs), -fs.length⟩ := by
  have hwhole : (ws ++ behind fs).takeWhile Char.isDigit = ws := by
    refine Text.takeWhile_digits hws fun c hc => ?_
    rw [behind] at hc
    split at hc
    · cases hc
    · cases hc
      rfl
  have hfraction : fs.takeWhile Char.isDigit = fs := by
    have := Text.takeWhile_digits (t := []) hfs (by simp)
    rwa [List.append_nil] at this
  simp only [ofText?, sign_spell hw hws, hwhole, List.drop_left]
  rw [behind]
  split
  · next h =>
    subst h
    simp [hw, exponent?]
  · simp [hw, hfraction, exponent?]

end Numeral
namespace Double

/-- Without its zeros and then without its point a fraction leaves the digits that count. -/
theorem dropEnd_point (ha : ∃ d ∈ a.getLast?, d ≠ '.') (hds : Text.Digits ds) :
    Text.dropEnd '.' (Text.dropEnd '0' (a ++ '.' :: ds)) = a ++ Numeral.behind (Text.dropEnd '0' ds) := by
  obtain ⟨j, hj⟩ := Text.dropEnd_append_replicate '0' ds
  have hlast := Text.getLast?_dropEnd '0' ds
  have hdigits := Text.digits_dropEnd hds '0'
  generalize Text.dropEnd '0' ds = fs at hj hlast hdigits ⊢
  rw [hj, ← List.cons_append, ← List.append_assoc, Text.dropEnd_append_self]
  rcases hlast with rfl | ⟨d, hd, hne⟩
  · have hwhole : Text.dropEnd '.' a = a := Text.dropEnd_append [] ha
    rw [Text.dropEnd_append a ⟨'.', rfl, by decide⟩]
    exact (Text.dropEnd_append_self '.' a 1).trans (hwhole.trans (List.append_nil a).symm)
  · have hmem : d ∈ fs := List.mem_of_getLast? hd
    have hpoint : d ≠ '.' := by
      rintro rfl
      exact absurd (hdigits _ hmem) (by decide)
    have hcons : ('.' :: fs).getLast? = fs.getLast? := by
      cases fs with
      | nil => cases hmem
      | cons c fs => rfl
    rw [Text.dropEnd_append a ⟨d, hcons ▸ hd, hne⟩, Text.dropEnd_append a ⟨d, hcons ▸ hd, hpoint⟩,
      Numeral.behind, if_neg (List.ne_nil_of_mem hmem)]

/-- a count of ten-thousandths as a numeral -/
def printed (s : Bool) (N : Nat) : Text :=
  Numeral.spell s (Text.decimal (N / 10000)) (Text.dropEnd '0' (Text.paddedDecimal 4 (N % 10000)))

theorem digits_fraction (N : Nat) : Text.Digits (Text.dropEnd '0' (Text.paddedDecimal 4 (N % 10000))) :=
  Text.digits_dropEnd (Text.digits_paddedDecimal 4 _) '0'

/-- The numeral of a count is worth the count. -/
theorem ofText?_numeral_printed (s : Bool) (N : Nat) : ∃ D k : Nat, k ≤ 4 ∧
    Numeral.ofText? (printed s N) = some ⟨s, D, -k⟩ ∧ D * 10000 = N * 10 ^ k := by
  have hread := Numeral.ofText?_spell (Text.decimal_ne_nil (N / 10000)) (Text.digits_decimal _)
      (digits_fraction N) s
  obtain ⟨j, hj⟩ := Text.dropEnd_append_replicate '0' (Text.paddedDecimal 4 (N % 10000))
  have hlength : (Text.paddedDecimal 4 (N % 10000)).length = 4 :=
    Text.length_paddedDecimal (by decide) (Nat.mod_lt N (by decide))
  have hworth := Text.ofDecimal_append (Text.decimal (N / 10000)) (Text.paddedDecimal 4 (N % 10000))
  rw [hlength, Text.ofDecimal_decimal, Text.ofDecimal_paddedDecimal] at hworth
  rw [printed, hread]
  generalize Text.dropEnd '0' (Text.paddedDecimal 4 (N % 10000)) = fs at hj ⊢
  rw [hj, List.length_append, List.length_replicate] at hlength
  rw [hj, ← List.append_assoc, Text.ofDecimal_append, Text.ofDecimal_zeros, List.length_replicate] at hworth
  refine ⟨_, _, by omega, rfl, ?_⟩
  have hpow : 10000 = 10 ^ j * 10 ^ fs.length := by
    rw [← Nat.pow_add, show j + fs.length = 4 by omega]
  have hcount : 10 ^ j * Text.ofDecimal (Text.decimal (N / 10000) ++ fs) = N := by
    rw [Nat.add_zero] at hworth
    rw [hworth]
    exact Nat.div_add_mod N 10000
  calc Text.ofDecimal (Text.decimal (N / 10000) ++ fs) * 10000
      = 10 ^ j * Text.ofDecimal (Text.decimal (N / 10000) ++ fs) * 10 ^ fs.length := by rw [hpow]; ring
    _ = N * 10 ^ fs.length := by rw [hcount]

theorem ofText?_printed (s : Bool) (hpos : 0 < N) (hN : N ≤ placeLimit) :
    ofText? (printed s N) = some (place s N) := by
  obtain ⟨D, k, hk, hread, hworth⟩ := ofText?_numeral_printed s N
  have hpow : 0 < 10 ^ k := Nat.pow_pos (by decide)
  have hD : 0 < D := by
    refine Nat.pos_of_ne_zero fun h => ?_
    rw [h, Nat.zero_mul] at hworth
    exact (Nat.mul_pos hpos hpow).ne hworth
  have hsmall : D < 10 ^ 30 := by
    have : N * 10 ^ k ≤ placeLimit * 10 ^ 4 := Nat.mul_le_mul hN (Nat.pow_le_pow_right (by decide) hk)
    rw [placeLimit] at this
    omega
  have hwidth : Numeral.width D ≤ 30 := Text.length_decimal_le (by decide) hsmall
  have hround : (Numeral.mk s D (-k)).toDouble = roundQuotient s D (10 ^ k) := by
    rw [Numeral.toDouble]
    dsimp only
    rw [if_neg (by omega), if_neg (by omega), Int.neg_neg, Int.toNat_natCast,
      show (-(k : Int)).toNat = 0 by omega]
    exact congrArg (fun n => roundQuotient s n _) (Nat.mul_one D)
  rw [ofText?, hread]
  dsimp only
  rw [hround, place, if_neg hpos.ne']
  exact congrArg some (roundQuotient_congr hD hpow hpos (by decide) hworth)

theorem printed_ne_minusZero (hs : s = true → N ≠ 0) : printed s N ≠ "-0".toList := by
  intro h
  obtain ⟨D, k, -, hread, hworth⟩ := ofText?_numeral_printed s N
  have hzero : Numeral.ofText? "-0".toList = some ⟨true, 0, 0⟩ := by decide
  rw [h, hzero] at hread
  obtain ⟨rfl, rfl, -⟩ := Numeral.mk.inj (Option.some.inj hread)
  rw [Nat.zero_mul] at hworth
  exact hs rfl ((Nat.mul_eq_zero.1 hworth.symm).resolve_right (Nat.pow_pos (by decide)).ne')

theorem render_of_toPlaces (hx : x.toPlaces = place s N) (hN : N ≤ placeLimit) (hs : s = true → N ≠ 0) :
    x.render = printed s N := by
  have hlast : ∃ d ∈ ((if s then ['-'] else []) ++ Text.decimal (N / 10000)).getLast?, d ≠ '.' := by
    have hne := Text.decimal_ne_nil (N / 10000)
    refine ⟨(Text.decimal (N / 10000)).getLast hne, ?_, ?_⟩
    · rw [List.getLast?_append_of_ne_nil _ hne, List.getLast?_eq_some_getLast hne]
      exact rfl
    · intro h
      have hdigit := Text.digits_decimal _ _ (List.getLast_mem hne)
      rw [h] at hdigit
      cases hdigit
  have htext := dropEnd_point hlast (Text.digits_paddedDecimal 4 (N % 10000))
  rw [List.append_assoc _ _ (Numeral.behind _)] at htext
  rw [render, hx, fixed_place s hN, htext]
  exact if_neg (printed_ne_minusZero hs)

/-- the numbers nearest to a count of ten-thousandths, zero without a sign -/
inductive Settled : Double → Prop where
  | mk {s : Bool} {N : Nat} (hN : N ≤ placeLimit) (hs : s = true → N ≠ 0) : Settled (place s N)

theorem isZero_place (s : Bool) (hN : N ≤ placeLimit) : (place s N).isZero = (N == 0) := by
  rcases Nat.eq_zero_or_pos N with rfl | hpos
  · rfl
  · rw [(normal_place s hpos hN).isZero, beq_eq_false_iff_ne.2 hpos.ne']

namespace Settled

theorem isFinite (h : Settled x) : x.isFinite = true := by
  obtain ⟨hN, -⟩ := h
  obtain ⟨m, e, hplace, -⟩ := place_near _ hN
  rw [hplace]
  rfl

theorem toPlaces (h : Settled x) : x.toPlaces = x := by
  obtain ⟨hN, -⟩ := h
  exact toPlaces_place _ hN

theorem mul_ofNat_one (h : Settled x) : mul x (ofNat 1) = x := by
  obtain ⟨hN, hs⟩ := h
  rename_i s N
  rcases Nat.eq_zero_or_pos N with rfl | hpos
  · cases s with
    | false => decide +kernel
    | true => exact absurd rfl (hs rfl)
  · exact (normal_place s hpos hN).mul_ofNat_one

theorem ofText?_render (h : Settled x) : ofText? x.render = some x := by
  obtain ⟨hN, hs⟩ := h
  rename_i s N
  rw [render_of_toPlaces (toPlaces_place s hN) hN hs]
  rcases Nat.eq_zero_or_pos N with rfl | hpos
  · cases s with
    | false => decide +kernel
    | true => exact absurd rfl (hs rfl)
  · exact ofText?_printed s hpos hN

theorem spelled (h : Settled x) : ∃ s ws fs, x.render = Numeral.spell s ws fs ∧ ws ≠ [] ∧ Text.Digits ws ∧
    Text.Digits fs := by
  obtain ⟨hN, hs⟩ := h
  exact ⟨_, _, _, render_of_toPlaces (toPlaces_place _ hN) hN hs, Text.decimal_ne_nil _,
    Text.digits_decimal _, digits_fraction _⟩

theorem eq_zero (h : Settled x) (hzero : x.isZero = true) : x = zero false := by
  obtain ⟨hN, hs⟩ := h
  rename_i s N
  rw [isZero_place s hN, beq_iff_eq] at hzero
  subst hzero
  cases s with
  | false => rfl
  | true => exact absurd rfl (hs rfl)

end Settled

/-- the numbers whose fourth decimal place is wider than the spacing of numbers as large -/
structure Fits (x : Double) : Prop where
  finite : x.isFinite = true
  bound : |x.value| ≤ 2 ^ 38

/-- A number that fits prints as a settled one does, which is zero when its four places are. -/
theorem Fits.exists_settled (h : Fits x) :
    ∃ y, Settled y ∧ x.render = y.render ∧ x.toPlaces.isZero = y.isZero ∧
    (x.isNegative = false → x.toPlaces = y) := by
  obtain ⟨hx, hbound⟩ := h
  cases x with
  | nan => cases hx
  | infinite s => cases hx
  | finite s m e =>
    have hmag : (0 : ℚ) ≤ m * 2 ^ e := by positivity
    rw [value_finite, abs_signed, abs_of_nonneg hmag] at hbound
    obtain ⟨N, hplaces, herror⟩ := toPlaces_near s (hbound.trans (by norm_num))
    have hN : N ≤ placeLimit := by
      have hlt : (N : ℚ) < (placeLimit + 1 : Nat) := by
        have := (abs_le.1 herror).2
        rw [placeLimit]
        push_cast
        linarith
      exact Nat.lt_succ_iff.1 (by exact_mod_cast hlt)
    rcases Nat.eq_zero_or_pos N with rfl | hpos
    · refine ⟨place false 0, .mk (Nat.zero_le _) (by simp), ?_, ?_, ?_⟩
      · cases s with
        | false => rw [render, hplaces, render, toPlaces_place false hN]
        | true =>
          rw [render, hplaces, render, toPlaces_place false hN]
          decide +kernel
      · rw [hplaces]
        rfl
      · rintro rfl
        exact hplaces
    · refine ⟨place s N, .mk hN fun _ => hpos.ne', ?_, by rw [hplaces], fun _ => hplaces⟩
      rw [render, hplaces, render, toPlaces_place s hN]

end Double
end StyleMiner
