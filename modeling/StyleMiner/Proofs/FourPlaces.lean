import Mathlib.Tactic.GCongr
import StyleMiner.Decimal.Places
import StyleMiner.Proofs.Rounding

/-! Rounding to four decimal places. Up to `2 ^ 38`, where the fourth place is still wider than the
spacing of the numbers, the result is the number nearest to a whole count of ten-thousandths; rounding it
again gives it back, and that count is what is printed. -/

namespace StyleMiner.Double

variable {n d m N : Nat} {e : Int} {s z : Bool} {x : Double} {q r : ℚ}

/-- a magnitude with a sign -/
def signed (s : Bool) (q : ℚ) : ℚ := if s then -q else q

theorem signed_mul (s : Bool) (q r : ℚ) : signed s q * r = signed s (q * r) := by
  cases s
  · rfl
  · exact neg_mul q r

theorem signed_div (s : Bool) (q r : ℚ) : signed s q / r = signed s (q / r) := by
  rw [div_eq_mul_inv, signed_mul, ← div_eq_mul_inv]

theorem abs_signed (s : Bool) (q : ℚ) : |signed s q| = |q| := by
  cases s
  · rfl
  · exact abs_neg q

theorem value_finite (s : Bool) (m : Nat) (e : Int) : value (.finite s m e) = signed s (m * 2 ^ e) := by
  have hq : mkRat (m * Nat.pow 2 e.toNat : Nat) (Nat.pow 2 (-e).toNat) = (m : ℚ) * 2 ^ e := by
    rw [Rat.mkRat_eq_div, two_zpow, ← mul_div_assoc]
    simp only [Nat.pow_eq]
    push_cast
    rfl
  simp only [value, signed, hq]

theorem round_zero (z : Bool) : round z 0 = zero z := rfl

theorem num_natAbs_div_den (hq : 0 < q) : (q.num.natAbs : ℚ) / q.den = q := by
  have hnum : ((q.num.natAbs : Int) : ℚ) = q.num :=
    congrArg _ (Int.natAbs_of_nonneg (Rat.num_nonneg.2 hq.le))
  rw [Int.cast_natCast] at hnum
  rw [hnum, Rat.num_div_den]

/-- Rounding a number is rounding its magnitude as a quotient. -/
theorem round_signed (z s : Bool) (hn : 0 < n) (hd : 0 < d) (hq : q = n / d) :
    round z (signed s q) = roundQuotient s n d := by
  have hpos : 0 < q := hq ▸ quotient_pos hn hd
  have hcross : q.num.natAbs * d = n * q.den := by
    have hquot := (num_natAbs_div_den hpos).trans hq
    rw [div_eq_div_iff (by exact_mod_cast Rat.den_ne_zero _) (by exact_mod_cast hd.ne')] at hquot
    exact_mod_cast hquot
  have hnum : 0 < q.num.natAbs := Int.natAbs_pos.2 (Rat.num_pos.2 hpos).ne'
  have hcongr := roundQuotient_congr (s := s) hnum (Rat.den_pos _) hn hd hcross
  cases s with
  | false =>
    rw [signed, if_neg Bool.false_ne_true, round, if_neg hpos.ne', decide_eq_false (not_lt.2 hpos.le)]
    exact hcongr
  | true =>
    rw [signed, if_pos rfl, round, if_neg (neg_ne_zero.2 hpos.ne'), decide_eq_true (neg_lt_zero.2 hpos),
      Rat.neg_num, Rat.neg_den, Int.natAbs_neg]
    exact hcongr

theorem mul_finite (s t : Bool) (m m' : Nat) (e e' : Int) : mul (.finite s m e) (.finite t m' e') =
    round (s ^^ t) (value (.finite s m e) * value (.finite t m' e')) := rfl

theorem ofNat_tenThousand : ofNat 10000 = .finite false (10000 * 2 ^ 39) (-39) := by decide +kernel

theorem value_tenThousand : value (.finite false (10000 * 2 ^ 39) (-39)) = 10000 := by
  rw [value_finite, signed, if_neg Bool.false_ne_true, Nat.cast_mul, mul_assoc, Nat.cast_pow,
    ← zpow_natCast]
  norm_num

theorem mul_tenThousand (s : Bool) (m : Nat) (e : Int) :
    mul (.finite s m e) (ofNat 10000) = round s (signed s (m * 2 ^ e * 10000)) := by
  rw [ofNat_tenThousand, mul_finite, Bool.xor_false, value_tenThousand, value_finite, signed_mul]

theorem div_tenThousand (s : Bool) (m : Nat) (e : Int) :
    div (.finite s m e) (ofNat 10000) = round s (signed s (m * 2 ^ e / 10000)) := by
  rw [ofNat_tenThousand]
  simp only [div, isNegative, Bool.xor_false, value_tenThousand, value_finite s, signed_div]
  rfl

/-- A magnitude as a quotient of natural numbers. -/
theorem magnitude_quotient (hm : 0 < m) (e : Int) :
    ∃ n d : Nat, 0 < n ∧ 0 < d ∧ (m : ℚ) * 2 ^ e = n / d := by
  have hpow (j : Nat) : 0 < 2 ^ j := Nat.two_pow_pos j
  refine ⟨m * 2 ^ e.toNat, 2 ^ (-e).toNat, Nat.mul_pos hm (hpow _), hpow _, ?_⟩
  rw [two_zpow, ← mul_div_assoc]
  push_cast
  rfl

/-- The ten-thousandfold is a number at most a quarter off. -/
theorem mul_tenThousand_near (s : Bool) (hx : (m : ℚ) * 2 ^ e ≤ 2 ^ 38 + 1) : ∃ m' e',
    mul (.finite s m e) (ofNat 10000) = .finite s m' e' ∧
      |(m' : ℚ) * 2 ^ e' - m * 2 ^ e * 10000| ≤ 1 / 4 := by
  rw [mul_tenThousand]
  rcases Nat.eq_zero_or_pos m with rfl | hm
  · refine ⟨0, minExponent, ?_, by norm_num⟩
    simp [signed, round_zero, zero]
  obtain ⟨n, d, hn, hd, hquot⟩ := magnitude_quotient (m := m * 10000) (by omega) e
  have hq : (m : ℚ) * 2 ^ e * 10000 = n / d := by
    rw [← hquot]
    push_cast
    ring
  have hlt : (n : ℚ) / d < 2 ^ (52 : Int) := by
    rw [← hq]
    norm_num
    linarith
  obtain ⟨m', e', hround, herror⟩ := roundQuotient_near s hn hd (by decide) (by decide) hlt
  refine ⟨m', e', by rw [round_signed s s hn hd hq, hround], ?_⟩
  rw [hq]
  exact herror.trans (by norm_num)

theorem floorMagnitude_error (m : Nat) (he : e < 0) :
    |(floorMagnitude (2 * m + 2 ^ (-e).toNat) (e - 1) : ℚ) - m * 2 ^ e| ≤ 1 / 2 := by
  obtain ⟨j, rfl⟩ : ∃ j : Nat, e = -(j + 1 : Nat) := ⟨(-e - 1).toNat, by omega⟩
  have hfloor : floorMagnitude (2 * m + 2 ^ (j + 1)) (-(j + 1 : Nat) - 1) =
      (2 * m + 2 ^ (j + 1)) / 2 ^ (j + 2) := by
    simp only [floorMagnitude, Nat.pow_eq, show (-((j + 1 : Nat) : Int) - 1).toNat = 0 by omega,
      show (-(-((j + 1 : Nat) : Int) - 1)).toNat = j + 2 by omega, Nat.pow_zero, Nat.mul_one]
  rw [show (-(-((j + 1 : Nat) : Int))).toNat = j + 1 by omega, hfloor, zpow_neg, zpow_natCast, abs_le]
  have hpos : (0 : ℚ) < 2 ^ (j + 1) := by positivity
  have hdouble : (2 : ℚ) ^ (j + 2) = 2 * 2 ^ (j + 1) := by ring
  have hsplit := Nat.div_add_mod (2 * m + 2 ^ (j + 1)) (2 ^ (j + 2))
  have hmod := Nat.mod_lt (2 * m + 2 ^ (j + 1)) (Nat.two_pow_pos (j + 2))
  generalize (2 * m + 2 ^ (j + 1)) / 2 ^ (j + 2) = F at hsplit ⊢
  generalize (2 * m + 2 ^ (j + 1)) % 2 ^ (j + 2) = r at hsplit hmod
  have hsplitq : 2 * 2 ^ (j + 1) * (F : ℚ) + r = 2 * m + 2 ^ (j + 1) := by
    rw [← hdouble]
    exact_mod_cast hsplit
  have hmodq : (r : ℚ) < 2 * 2 ^ (j + 1) := by
    rw [← hdouble]
    exact_mod_cast hmod
  have hr : (0 : ℚ) ≤ r := Nat.cast_nonneg r
  have hF : (F : ℚ) - m * (2 ^ (j + 1))⁻¹ = (1 / 2) - r / (2 * 2 ^ (j + 1)) := by
    field_simp
    linarith
  have hfrac : (r : ℚ) / (2 * 2 ^ (j + 1)) ≤ 1 := (div_le_one (by positivity)).2 hmodq.le
  have hfrac0 : 0 ≤ (r : ℚ) / (2 * 2 ^ (j + 1)) := by positivity
  rw [hF]
  constructor <;> linarith

/-- Rounding to an integer gives a whole number at most a half off. -/
theorem roundHalfUp_near (s : Bool) (hx : (m : ℚ) * 2 ^ e ≤ 2 ^ 52) : ∃ m' e', ∃ N : Nat,
    roundHalfUp (.finite s m e) = .finite s m' e' ∧ (m' : ℚ) * 2 ^ e' = N ∧
      |(N : ℚ) - m * 2 ^ e| ≤ 1 / 2 := by
  rcases le_or_gt 0 e with he | he
  · refine ⟨m, e, m * 2 ^ e.toNat, by rw [roundHalfUp, if_pos he], ?_, ?_⟩
    all_goals
      rw [two_zpow, show (-e).toNat = 0 by omega]
      norm_num
  · have herror := floorMagnitude_error m he
    have hround : roundHalfUp (.finite s m e) =
        round s (signed s (floorMagnitude (2 * m + 2 ^ (-e).toNat) (e - 1))) := by
      rw [roundHalfUp, if_neg (by omega)]
      rfl
    rw [hround]
    generalize floorMagnitude (2 * m + 2 ^ (-e).toNat) (e - 1) = N at herror ⊢
    rcases Nat.eq_zero_or_pos N with rfl | hN
    · refine ⟨0, minExponent, 0, ?_, by norm_num, herror⟩
      simp [signed, round_zero, zero]
    have hsmall : N < 2 ^ 53 := by
      have hlt : (N : ℚ) < (2 ^ 53 : Nat) := by
        have := (abs_le.1 herror).2
        push_cast
        linarith
      exact_mod_cast hlt
    obtain ⟨m', e', hquot, hvalue⟩ :=
      roundQuotient_exact (e := 0) s hN Nat.one_pos hsmall (by decide) (by decide)
      (by norm_num)
    refine ⟨m', e', N, ?_, ?_, herror⟩
    · rw [round_signed s s hN Nat.one_pos (by norm_num), hquot]
    · rw [hvalue]
      norm_num

/-- the number nearest to a count of ten-thousandths -/
def place (s : Bool) (N : Nat) : Double := if N = 0 then zero s else roundQuotient s N 10000

/-- the largest count that is told apart from its neighbours all the way -/
def placeLimit : Nat := 2 ^ 38 * 10000

/-- Rounding to four places finds a count that is less than one off. -/
theorem toPlaces_near (s : Bool) (hx : (m : ℚ) * 2 ^ e ≤ 2 ^ 38 + 1) :
    ∃ N : Nat, toPlaces (.finite s m e) = place s N ∧ |(N : ℚ) - m * 2 ^ e * 10000| ≤ 3 / 4 := by
  obtain ⟨m₁, e₁, hmul, herror₁⟩ := mul_tenThousand_near s hx
  have hsmall : (m₁ : ℚ) * 2 ^ e₁ ≤ 2 ^ 52 := by
    have := (abs_le.1 herror₁).2
    norm_num at hx ⊢
    linarith
  obtain ⟨m₂, e₂, N, hround, hvalue, herror₂⟩ := roundHalfUp_near s hsmall
  refine ⟨N, ?_, ?_⟩
  · rw [toPlaces, hmul, hround, div_tenThousand, hvalue, place]
    split
    · next h =>
      subst h
      simp [signed, round_zero]
    · next h => exact round_signed s s (Nat.pos_of_ne_zero h) (by norm_num) (by norm_num)
  · have hsplit : (N : ℚ) - m * 2 ^ e * 10000 =
      (N - m₁ * 2 ^ e₁) + (m₁ * 2 ^ e₁ - m * 2 ^ e * 10000) := by ring
    rw [hsplit]
    exact (abs_add_le _ _).trans (by linarith)

/-- Up to the limit the number nearest to a count is close enough to tell it. -/
theorem place_near (s : Bool) (hN : N ≤ placeLimit) :
    ∃ m e, place s N = .finite s m e ∧ |(m : ℚ) * 2 ^ e - N / 10000| ≤ 1 / 2 ^ 16 := by
  rcases Nat.eq_zero_or_pos N with rfl | hpos
  · exact ⟨0, minExponent, rfl, by norm_num⟩
  rw [place, if_neg hpos.ne']
  rcases Nat.lt_or_eq_of_le hN with hlt | rfl
  · have hquot : (N : ℚ) / (10000 : Nat) < 2 ^ (38 : Int) := by
      rw [div_lt_iff₀ (by norm_num)]
      exact_mod_cast hlt
    obtain ⟨m, e, hround, herror⟩ := roundQuotient_near s hpos (by norm_num) (by decide) (by decide) hquot
    exact ⟨m, e, hround, by simpa using herror.trans (by norm_num)⟩
  · obtain ⟨m, e, hround, hvalue⟩ :=
      roundQuotient_exact (n := placeLimit) (d := 10000) (m := 1) (e := 38) s hpos
      (by norm_num) (by norm_num) (by decide) (by decide) (by norm_num [placeLimit])
    refine ⟨m, e, hround, ?_⟩
    rw [hvalue]
    norm_num

/-- A count near the ten-thousandfold of a number near to `N` ten-thousandths is `N`. -/
theorem count_eq {N' : Nat} (h : |(N' : ℚ) - q * 10000| ≤ 3 / 4)
    (hq : |q - N / 10000| ≤ 1 / 2 ^ 16) : N' = N := by
  have hsplit : (N' : ℚ) - N = (N' - q * 10000) + (q - N / 10000) * 10000 := by ring
  have hscaled : |(q - N / 10000) * 10000| ≤ 10000 / 2 ^ 16 := by
    rw [abs_mul]
    norm_num at hq ⊢
    linarith
  have hone : |(N' : ℚ) - N| < 1 := by
    rw [hsplit]
    exact lt_of_le_of_lt ((abs_add_le _ _).trans (add_le_add h hscaled)) (by norm_num)
  obtain ⟨hlow, hhigh⟩ := abs_lt.1 hone
  have hle : (N' : ℚ) < (N + 1 : Nat) := by push_cast; linarith
  have hge : (N : ℚ) < (N' + 1 : Nat) := by push_cast; linarith
  exact Nat.le_antisymm (Nat.lt_succ_iff.1 (by exact_mod_cast hle))
    (Nat.lt_succ_iff.1 (by exact_mod_cast hge))

/-- A number rounded to four places stays. -/
theorem toPlaces_place (s : Bool) (hN : N ≤ placeLimit) : (place s N).toPlaces = place s N := by
  obtain ⟨m, e, hplace, herror⟩ := place_near s hN
  have hsmall : (m : ℚ) * 2 ^ e ≤ 2 ^ 38 + 1 := by
    have hcount : (N : ℚ) / 10000 ≤ 2 ^ 38 := by
      rw [div_le_iff₀ (by norm_num)]
      exact_mod_cast hN
    have := (abs_le.1 herror).2
    norm_num at hcount this ⊢
    linarith
  obtain ⟨N', hN', herror'⟩ := toPlaces_near s hsmall
  rw [hplace, hN', ← hplace, count_eq herror' herror]

/-- What is printed is the count. -/
theorem fixed_place (s : Bool) (hN : N ≤ placeLimit) : (place s N).fixed 4 =
    (if s then ['-'] else []) ++ Text.decimal (N / 10000) ++ '.' :: Text.paddedDecimal 4 (N % 10000) := by
  obtain ⟨m, e, hplace, herror⟩ := place_near s hN
  have hcount : nearest (m * 2 ^ e.toNat * 10000) (2 ^ (-e).toNat) = N := by
    have hnearest := nearest_error (n := m * 2 ^ e.toNat * 10000) (Nat.two_pow_pos (-e).toNat)
    have hquot : ((m * 2 ^ e.toNat * 10000 : Nat) : ℚ) / (2 ^ (-e).toNat : Nat) = m * 2 ^ e * 10000 := by
      rw [two_zpow]
      push_cast
      ring
    rw [hquot] at hnearest
    exact count_eq (hnearest.trans (by norm_num)) herror
  rw [hplace, fixed, show m * Nat.pow 2 e.toNat * Nat.pow 10 4 = m * 2 ^ e.toNat * 10000 from rfl,
    show Nat.pow 2 (-e).toNat = 2 ^ (-e).toNat from rfl, hcount]

theorem normal_place (s : Bool) (hpos : 0 < N) (hN : N ≤ placeLimit) : Normal (place s N) := by
  have hd : 0 < 10000 := by norm_num
  rw [place, if_neg hpos.ne']
  refine roundQuotient_normal s hpos hd ?_ ?_
  · have hlow : (2 : ℚ) ^ (-14 : Int) ≤ N / (10000 : Nat) := by
      have hone : (1 : ℚ) ≤ N := by exact_mod_cast hpos
      rw [le_div_iff₀ (by norm_num)]
      norm_num
      linarith
    exact le_trans (by decide) (le_magnitude hpos hd hlow)
  · have hhigh : (N : ℚ) / (10000 : Nat) < 2 ^ (39 : Int) := by
      have hcount : (N : ℚ) ≤ 2 ^ 38 * 10000 := by exact_mod_cast hN
      rw [div_lt_iff₀ (by norm_num)]
      norm_num at hcount ⊢
      linarith
    exact (magnitude_lt hpos hd hhigh).le.trans (by decide)

theorem ofNat_one : ofNat 1 = .finite false (2 ^ 52) (-52) := by decide +kernel

theorem Normal.isZero (h : Normal x) : x.isZero = false := by
  cases h with
  | mk s hlow => exact beq_eq_false_iff_ne.2 (by omega)

theorem Normal.mul_ofNat_one (h : Normal x) : mul x (ofNat 1) = x := by
  cases h with
  | @mk m e s hlow hhigh hmin hmax =>
    obtain ⟨n, d, hn, hd, hquot⟩ := magnitude_quotient (Nat.lt_of_lt_of_le (by norm_num) hlow) e
    have hone : value (.finite false (2 ^ 52) (-52)) = 1 := by
      rw [value_finite, signed, if_neg Bool.false_ne_true, Nat.cast_pow, ← zpow_natCast]
      norm_num
    rw [ofNat_one, mul_finite, Bool.xor_false, hone, Rat.mul_one, value_finite,
      round_signed s s hn hd hquot]
    exact roundQuotient_of_normal hn hd (.mk s hlow hhigh hmin hmax) hquot.symm

end StyleMiner.Double
