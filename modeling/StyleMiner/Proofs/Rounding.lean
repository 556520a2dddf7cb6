import Mathlib.Algebra.Order.Field.Power
import Mathlib.Algebra.Order.Ring.Abs
import Mathlib.Data.Rat.Floor
import Mathlib.Tactic.FieldSimp
import Mathlib.Tactic.Linarith
import Mathlib.Tactic.NormNum
import Mathlib.Tactic.Positivity
import Mathlib.Tactic.Ring
import StyleMiner.Decimal.Double

/-! How far rounding moves a number. A quotient within the range of the format is rounded to a significand
of full precision, at most half a unit of its last place away, whatever fraction it is written as; a
number that already has that form stays. -/

namespace StyleMiner.Double

variable {n d n' d' m : Nat} {e k : Int} {s z : Bool} {x : Double}

theorem two_zpow (k : Int) : (2 : ℚ) ^ k = (2 ^ k.toNat : Nat) / (2 ^ (-k).toNat : Nat) := by
  rcases le_or_gt 0 k with hk | hk
  · obtain ⟨j, rfl⟩ := Int.eq_ofNat_of_zero_le hk
    simp
  · obtain ⟨j, hj⟩ := Int.eq_ofNat_of_zero_le (show 0 ≤ -k by omega)
    obtain rfl : k = -j := by omega
    simp

theorem two_zpow_pos (k : Int) : (0 : ℚ) < 2 ^ k := zpow_pos (by norm_num) k

theorem two_zpow_succ (k : Int) : (2 : ℚ) ^ (k + 1) = 2 * 2 ^ k := by
  rw [zpow_add_one₀ (by norm_num), mul_comm]

theorem nearest_mul (hc : 0 < m) : nearest (n * m) (d * m) = nearest n d := by
  have hlow : 2 * (n % d * m) < d * m ↔ 2 * (n % d) < d := by
    rw [← Nat.mul_assoc, Nat.mul_lt_mul_right hc]
  have hhigh : d * m < 2 * (n % d * m) ↔ d < 2 * (n % d) := by
    rw [← Nat.mul_assoc, Nat.mul_lt_mul_right hc]
  simp only [nearest, Nat.mul_div_mul_right n d hc, Nat.mul_mod_mul_right, hlow, hhigh]

theorem nearest_congr (hd : 0 < d) (hd' : 0 < d') (h : n * d' = n' * d) : nearest n d = nearest n' d' := by
  rw [← nearest_mul (n := n) (d := d) hd', h, Nat.mul_comm d d', nearest_mul hd]

theorem nearest_exact (hd : 0 < d) : nearest (n * d) d = n := by
  simp [nearest, Nat.mul_div_cancel _ hd, Nat.mul_mod_left, hd]

theorem nearest_error (hd : 0 < d) : |(nearest n d : ℚ) - n / d| ≤ 1 / 2 := by
  have hdq : (0 : ℚ) < d := by exact_mod_cast hd
  have hsplit : (n : ℚ) = d * (n / d : Nat) + (n % d : Nat) := by exact_mod_cast (Nat.div_add_mod n d).symm
  have hquot : (n : ℚ) / d = (n / d : Nat) + (n % d : Nat) / d := by
    rw [hsplit]
    field_simp
  have hnonneg : (0 : ℚ) ≤ (n % d : Nat) / d := by positivity
  rw [hquot, abs_le]
  have hlt : ((n % d : Nat) : ℚ) / d < 1 := by
    rw [div_lt_one hdq]
    exact_mod_cast Nat.mod_lt n hd
  have hhalf (h : 2 * (n % d) ≤ d) : ((n % d : Nat) : ℚ) / d ≤ 1 / 2 := by
    rw [div_le_iff₀ hdq]
    have : (2 : ℚ) * (n % d : Nat) ≤ d := by exact_mod_cast h
    linarith
  have hhalf' (h : d ≤ 2 * (n % d)) : (1 : ℚ) / 2 ≤ ((n % d : Nat) : ℚ) / d := by
    rw [le_div_iff₀ hdq]
    have : (d : ℚ) ≤ 2 * (n % d : Nat) := by exact_mod_cast h
    linarith
  unfold nearest
  dsimp only
  split
  · next h =>
    have := hhalf (Nat.le_of_lt h)
    constructor <;> linarith
  split
  · next h =>
    have := hhalf' (Nat.le_of_lt h)
    push_cast
    constructor <;> linarith
  · next hlow hhigh =>
    have hle := hhalf (Nat.le_of_not_lt hhigh)
    have hge := hhalf' (Nat.le_of_not_lt hlow)
    split
    · constructor <;> linarith
    · push_cast
      constructor <;> linarith

theorem quotient_pos (hn : 0 < n) (hd : 0 < d) : (0 : ℚ) < n / d := by
  have hnq : (0 : ℚ) < n := by exact_mod_cast hn
  have hdq : (0 : ℚ) < d := by exact_mod_cast hd
  positivity

/-- The integer test for a power of two not above a quotient. -/
theorem two_zpow_le_iff (hd : 0 < d) (k : Int) :
    (2 : ℚ) ^ k ≤ n / d ↔ d * 2 ^ k.toNat ≤ n * 2 ^ (-k).toNat := by
  have hdq : (0 : ℚ) < d := by exact_mod_cast hd
  have hpow : (0 : ℚ) < (2 ^ (-k).toNat : Nat) := by exact_mod_cast Nat.two_pow_pos _
  rw [two_zpow, div_le_div_iff₀ hpow hdq, mul_comm]
  exact_mod_cast Iff.rfl

/-- The lengths of numerator and denominator fix the magnitude of a quotient up to one. -/
theorem quotient_bracket (hn : 0 < n) (hd : 0 < d) :
    (2 : ℚ) ^ ((n.log2 : Int) - d.log2 - 1) ≤ n / d ∧ (n : ℚ) / d < 2 ^ ((n.log2 : Int) - d.log2 + 1) := by
  have hdq : (0 : ℚ) < d := by exact_mod_cast hd
  have hnlow : (2 : ℚ) ^ n.log2 ≤ n := by exact_mod_cast Nat.log2_self_le (Nat.ne_of_gt hn)
  have hnhigh : (n : ℚ) < 2 ^ (n.log2 + 1) := by exact_mod_cast Nat.lt_log2_self
  have hdlow : (2 : ℚ) ^ d.log2 ≤ d := by exact_mod_cast Nat.log2_self_le (Nat.ne_of_gt hd)
  have hdhigh : (d : ℚ) < 2 ^ (d.log2 + 1) := by exact_mod_cast Nat.lt_log2_self
  constructor
  · have hsplit : (2 : ℚ) ^ ((n.log2 : Int) - d.log2 - 1) * 2 ^ (d.log2 + 1) = 2 ^ n.log2 := by
      rw [← zpow_natCast, ← zpow_natCast, ← zpow_add₀ (by norm_num)]
      congr 1
      push_cast
      ring
    rw [le_div_iff₀ hdq]
    calc (2 : ℚ) ^ ((n.log2 : Int) - d.log2 - 1) * d
        ≤ 2 ^ ((n.log2 : Int) - d.log2 - 1) * 2 ^ (d.log2 + 1) :=
          mul_le_mul_of_nonneg_left hdhigh.le (two_zpow_pos _).le
      _ = 2 ^ n.log2 := hsplit
      _ ≤ n := hnlow
  · have hsplit : (2 : ℚ) ^ ((n.log2 : Int) - d.log2 + 1) * 2 ^ d.log2 = 2 ^ (n.log2 + 1) := by
      rw [← zpow_natCast, ← zpow_natCast, ← zpow_add₀ (by norm_num)]
      congr 1
      push_cast
      ring
    rw [div_lt_iff₀ hdq]
    calc (n : ℚ) < 2 ^ (n.log2 + 1) := hnhigh
      _ = 2 ^ ((n.log2 : Int) - d.log2 + 1) * 2 ^ d.log2 := hsplit.symm
      _ ≤ 2 ^ ((n.log2 : Int) - d.log2 + 1) * d :=
          mul_le_mul_of_nonneg_left hdlow (two_zpow_pos _).le

theorem magnitude_spec (hn : 0 < n) (hd : 0 < d) :
    (2 : ℚ) ^ magnitude n d ≤ n / d ∧ (n : ℚ) / d < 2 ^ (magnitude n d + 1) := by
  obtain ⟨hlow, hhigh⟩ := quotient_bracket hn hd
  have htest := two_zpow_le_iff (n := n) hd ((n.log2 : Int) - d.log2)
  unfold magnitude
  dsimp only
  split
  · next h => exact ⟨htest.2 h, hhigh⟩
  · next h =>
    rw [sub_add_cancel]
    exact ⟨hlow, lt_of_not_ge fun hle => h (htest.1 hle)⟩

theorem magnitude_unique (hn : 0 < n) (hd : 0 < d) (hlow : (2 : ℚ) ^ k ≤ n / d)
    (hhigh : (n : ℚ) / d < 2 ^ (k + 1)) : magnitude n d = k := by
  obtain ⟨hlow', hhigh'⟩ := magnitude_spec hn hd
  have hle : k < magnitude n d + 1 :=
    (zpow_lt_zpow_iff_right₀ (by norm_num)).1 (lt_of_le_of_lt hlow hhigh')
  have hge : magnitude n d < k + 1 :=
    (zpow_lt_zpow_iff_right₀ (by norm_num)).1 (lt_of_le_of_lt hlow' hhigh)
  omega

theorem magnitude_lt (hn : 0 < n) (hd : 0 < d) (h : (n : ℚ) / d < 2 ^ k) : magnitude n d < k :=
  (zpow_lt_zpow_iff_right₀ (by norm_num)).1 (lt_of_le_of_lt (magnitude_spec hn hd).1 h)

theorem le_magnitude (hn : 0 < n) (hd : 0 < d) (h : (2 : ℚ) ^ k ≤ n / d) : k ≤ magnitude n d :=
  Int.lt_add_one_iff.1 ((zpow_lt_zpow_iff_right₀ (by norm_num)).1
    (lt_of_le_of_lt h (magnitude_spec hn hd).2))

theorem magnitude_congr (hn : 0 < n) (hd : 0 < d) (hn' : 0 < n') (hd' : 0 < d') (h : n * d' = n' * d) :
    magnitude n d = magnitude n' d' := by
  have hquot : (n : ℚ) / d = n' / d' := by
    rw [div_eq_div_iff (by exact_mod_cast hd.ne') (by exact_mod_cast hd'.ne')]
    exact_mod_cast h
  obtain ⟨hlow, hhigh⟩ := magnitude_spec hn' hd'
  exact magnitude_unique hn hd (hquot ▸ hlow) (hquot ▸ hhigh)

/-- the exponent that a quotient is rounded at -/
def lastPlace (n d : Nat) : Int := max minExponent (magnitude n d - (precision - 1))

/-- how many units of the last place are nearest to a quotient -/
def units (e : Int) (n d : Nat) : Nat := nearest (n * 2 ^ (-e).toNat) (d * 2 ^ e.toNat)

theorem roundQuotient_eq (s : Bool) (n d : Nat) : roundQuotient s n d =
    if units (lastPlace n d) n d = 2 ^ 53 then pack s (2 ^ 52) (lastPlace n d + 1)
    else pack s (units (lastPlace n d) n d) (lastPlace n d) := rfl

/-- Rounding sees the quotient, not the fraction that it is written as. -/
theorem roundQuotient_congr (hn : 0 < n) (hd : 0 < d) (hn' : 0 < n') (hd' : 0 < d') (h : n * d' = n' * d) :
    roundQuotient s n d = roundQuotient s n' d' := by
  have hplace : lastPlace n d = lastPlace n' d' := by
    rw [lastPlace, magnitude_congr hn hd hn' hd' h, lastPlace]
  have hunits (e : Int) : units e n d = units e n' d' := by
    have hpow (j : Nat) : 0 < 2 ^ j := Nat.two_pow_pos j
    refine nearest_congr (Nat.mul_pos hd (hpow _)) (Nat.mul_pos hd' (hpow _)) ?_
    calc n * 2 ^ (-e).toNat * (d' * 2 ^ e.toNat) = n * d' * (2 ^ (-e).toNat * 2 ^ e.toNat) := by ring
      _ = n' * 2 ^ (-e).toNat * (d * 2 ^ e.toNat) := by rw [h]; ring
  rw [roundQuotient_eq, roundQuotient_eq, hplace, hunits]

theorem scaled_quotient (e : Int) :
    ((n * 2 ^ (-e).toNat : Nat) : ℚ) / (d * 2 ^ e.toNat : Nat) = n / d / 2 ^ e := by
  rw [two_zpow e]
  push_cast
  field_simp

theorem units_error (hd : 0 < d) (e : Int) : |(units e n d : ℚ) * 2 ^ e - n / d| ≤ 2 ^ (e - 1) := by
  have herror := nearest_error (n := n * 2 ^ (-e).toNat) (Nat.mul_pos hd (Nat.two_pow_pos e.toNat))
  rw [scaled_quotient] at herror
  have hsplit : (units e n d : ℚ) * 2 ^ e - n / d = (units e n d - n / d / 2 ^ e) * 2 ^ e := by
    rw [sub_mul, div_mul_cancel₀ _ (two_zpow_pos e).ne']
  rw [hsplit, abs_mul, abs_of_pos (two_zpow_pos e)]
  calc |(units e n d : ℚ) - n / d / 2 ^ e| * 2 ^ e ≤ 1 / 2 * 2 ^ e :=
        mul_le_mul_of_nonneg_right herror (two_zpow_pos e).le
    _ = 2 ^ (e - 1) := by rw [zpow_sub_one₀ (by norm_num)]; ring

theorem units_exact (hd : 0 < d) (h : (n : ℚ) / d = m * 2 ^ e) : units e n d = m := by
  have hpow (j : Nat) : 0 < 2 ^ j := Nat.two_pow_pos j
  have hden : 0 < d * 2 ^ e.toNat := Nat.mul_pos hd (hpow _)
  have hwhole : n * 2 ^ (-e).toNat = m * (d * 2 ^ e.toNat) := by
    have hdq : ((d * 2 ^ e.toNat : Nat) : ℚ) ≠ 0 := by exact_mod_cast hden.ne'
    have hquot := scaled_quotient (n := n) (d := d) e
    rw [h, mul_div_cancel_right₀ _ (two_zpow_pos e).ne', div_eq_iff hdq] at hquot
    exact_mod_cast hquot
  rw [units, hwhole, nearest_exact hden]

/-- A quotient below a power of two is off by at most half a unit of the last place there. -/
theorem units_error_of_lt (hn : 0 < n) (hd : 0 < d) (hmin : minExponent + 53 ≤ k)
    (h : (n : ℚ) / d < 2 ^ k) :
    |(units (lastPlace n d) n d : ℚ) * 2 ^ lastPlace n d - n / d| ≤ 2 ^ (k - 54) := by
  refine (units_error hd _).trans (zpow_le_zpow_right₀ (by norm_num) ?_)
  have hmag := magnitude_lt hn hd h
  simp only [lastPlace, precision]
  omega

theorem units_le (hn : 0 < n) (hd : 0 < d) : units (lastPlace n d) n d ≤ 2 ^ 53 := by
  have hpow (j : Nat) : 0 < 2 ^ j := Nat.two_pow_pos j
  have herror := nearest_error (n := n * 2 ^ (-lastPlace n d).toNat)
      (Nat.mul_pos hd (hpow (lastPlace n d).toNat))
  rw [scaled_quotient, ← units] at herror
  have hquot : (n : ℚ) / d / 2 ^ lastPlace n d < 2 ^ 53 := by
    rw [div_lt_iff₀ (two_zpow_pos _), ← zpow_natCast, ← zpow_add₀ (by norm_num)]
    refine lt_of_lt_of_le (magnitude_spec hn hd).2 (zpow_le_zpow_right₀ (by norm_num) ?_)
    simp only [lastPlace, precision]
    omega
  have hlt : (units (lastPlace n d) n d : ℚ) < (2 ^ 53 + 1 : Nat) := by
    have := (abs_le.1 herror).2
    push_cast
    linarith
  exact Nat.lt_succ_iff.1 (by exact_mod_cast hlt)

theorem le_units (hn : 0 < n) (hd : 0 < d) (hmin : minExponent + 52 ≤ magnitude n d) :
    2 ^ 52 ≤ units (lastPlace n d) n d := by
  have hpow (j : Nat) : 0 < 2 ^ j := Nat.two_pow_pos j
  have herror := nearest_error (n := n * 2 ^ (-lastPlace n d).toNat)
      (Nat.mul_pos hd (hpow (lastPlace n d).toNat))
  rw [scaled_quotient, ← units] at herror
  have hplace : lastPlace n d + 52 = magnitude n d := by
    simp only [lastPlace, precision]
    omega
  have hquot : (2 : ℚ) ^ 52 ≤ n / d / 2 ^ lastPlace n d := by
    rw [le_div_iff₀ (two_zpow_pos _), ← zpow_natCast, ← zpow_add₀ (by norm_num), add_comm]
    exact_mod_cast hplace ▸ (magnitude_spec hn hd).1
  have hlt : ((2 ^ 52 : Nat) : ℚ) < (units (lastPlace n d) n d + 1 : Nat) := by
    have := (abs_le.1 herror).1
    push_cast
    linarith
  exact Nat.lt_succ_iff.1 (by exact_mod_cast hlt)

/-- the finite numbers that use the whole precision -/
inductive Normal : Double → Prop where
  | mk {m : Nat} {e : Int} (s : Bool) (hlow : 2 ^ 52 ≤ m) (hhigh : m < 2 ^ 53) (hmin : minExponent ≤ e)
    (hmax : e ≤ maxExponent) : Normal (.finite s m e)

/-- Below the largest numbers rounding gives as many units as are nearest. -/
theorem roundQuotient_finite (s : Bool) (n d : Nat) (hmax : lastPlace n d < maxExponent) :
    ∃ m e, roundQuotient s n d = .finite s m e ∧
      (m : ℚ) * 2 ^ e = units (lastPlace n d) n d * 2 ^ lastPlace n d := by
  rw [roundQuotient_eq]
  split
  · next htop =>
    refine ⟨2 ^ 52, lastPlace n d + 1, by rw [pack, if_neg (by omega)], ?_⟩
    rw [htop, two_zpow_succ]
    push_cast
    ring
  · exact ⟨_, _, by rw [pack, if_neg (by omega)], rfl⟩

theorem lastPlace_lt_of_lt (hn : 0 < n) (hd : 0 < d) (hmax : k ≤ maxExponent) (h : (n : ℚ) / d < 2 ^ k) :
    lastPlace n d < maxExponent := by
  have := magnitude_lt hn hd h
  simp only [lastPlace, precision, minExponent, maxExponent] at hmax ⊢
  omega

/-- Below a power of two rounding is off by at most half a unit of the last place there. -/
theorem roundQuotient_near (s : Bool) (hn : 0 < n) (hd : 0 < d) (hmin : minExponent + 53 ≤ k)
    (hmax : k ≤ maxExponent) (h : (n : ℚ) / d < 2 ^ k) : ∃ m e, roundQuotient s n d = .finite s m e ∧
      |(m : ℚ) * 2 ^ e - n / d| ≤ 2 ^ (k - 54) := by
  obtain ⟨m, e, hround, hvalue⟩ := roundQuotient_finite s n d (lastPlace_lt_of_lt hn hd hmax h)
  exact ⟨m, e, hround, hvalue ▸ units_error_of_lt hn hd hmin h⟩

/-- A quotient with few enough significant bits is not moved. -/
theorem roundQuotient_exact (s : Bool) (hn : 0 < n) (hd : 0 < d) (hm : m < 2 ^ 53) (hmin : minExponent ≤ e)
    (hmax : e + 53 ≤ maxExponent) (h : (n : ℚ) / d = m * 2 ^ e) :
    ∃ m' e', roundQuotient s n d = .finite s m' e' ∧ (m' : ℚ) * 2 ^ e' = n / d := by
  have hlt : (n : ℚ) / d < 2 ^ (e + 53) := by
    rw [h, add_comm, zpow_add₀ (by norm_num)]
    exact mul_lt_mul_of_pos_right (by exact_mod_cast hm) (two_zpow_pos e)
  have hplace : lastPlace n d ≤ e := by
    have := magnitude_lt hn hd hlt
    simp only [lastPlace, precision]
    omega
  obtain ⟨m', e', hround, hvalue⟩ := roundQuotient_finite s n d (lastPlace_lt_of_lt hn hd hmax hlt)
  refine ⟨m', e', hround, hvalue.trans ?_⟩
  have hwhole : (n : ℚ) / d = (m * 2 ^ (e - lastPlace n d).toNat : Nat) * 2 ^ lastPlace n d := by
    rw [h, Nat.cast_mul, mul_assoc, Nat.cast_pow, Nat.cast_ofNat, ← zpow_natCast, ← zpow_add₀ (by norm_num),
      show ((e - lastPlace n d).toNat : Int) + lastPlace n d = e by omega]
  rw [units_exact hd hwhole, ← hwhole]

theorem roundQuotient_normal (s : Bool) (hn : 0 < n) (hd : 0 < d) (hmin : minExponent + 52 ≤ magnitude n d)
    (hmax : magnitude n d ≤ maxExponent) : Normal (roundQuotient s n d) := by
  have hplace : minExponent ≤ lastPlace n d ∧ lastPlace n d + 1 ≤ maxExponent := by
    simp only [lastPlace, precision, minExponent, maxExponent] at hmax ⊢
    omega
  rw [roundQuotient_eq]
  split
  · rw [pack, if_neg (by omega)]
    exact .mk s le_rfl (by norm_num) (by omega) hplace.2
  · next htop =>
    rw [pack, if_neg (by omega)]
    exact .mk s (le_units hn hd hmin) (lt_of_le_of_ne (units_le hn hd) htop) hplace.1 (by omega)

/-- A quotient of a number that has a full significand is that number. -/
theorem roundQuotient_of_normal (hn : 0 < n) (hd : 0 < d) (hx : Normal (.finite s m e))
    (h : (n : ℚ) / d = m * 2 ^ e) : roundQuotient s n d = .finite s m e := by
  obtain ⟨_, hlow, hhigh, hmin, hmax⟩ := hx
  have hmag : magnitude n d = e + 52 := by
    refine magnitude_unique hn hd ?_ ?_
    · rw [h, add_comm, zpow_add₀ (by norm_num)]
      exact mul_le_mul_of_nonneg_right (by exact_mod_cast hlow) (two_zpow_pos e).le
    · rw [h, show e + 52 + 1 = 53 + e by ring, zpow_add₀ (by norm_num)]
      exact mul_lt_mul_of_pos_right (by exact_mod_cast hhigh) (two_zpow_pos e)
  have hplace : lastPlace n d = e := by
    rw [lastPlace, hmag]
    simp only [precision, minExponent] at hmin ⊢
    omega
  rw [roundQuotient_eq, hplace, units_exact hd h, if_neg (by omega), pack, if_neg (by omega)]

end StyleMiner.Double
