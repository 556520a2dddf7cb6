import StyleMiner.Text.Blank
import StyleMiner.Token.Lexer

/-! Classes of code points by their numbers. The small letter of a code point is in the same classes as
the code point. -/

namespace StyleMiner

variable {c : Char} {t : Text}

namespace Token

theorem isDigit_iff : c.isDigit = true ↔ 48 ≤ c.toNat ∧ c.toNat ≤ 57 := by
  simp only [Char.isDigit, Bool.and_eq_true, decide_eq_true_eq, ge_iff_le, UInt32.le_iff_toNat_le]
  exact Iff.rfl

theorem isUpper_iff : c.isUpper = true ↔ 65 ≤ c.toNat ∧ c.toNat ≤ 90 := by
  change decide (c.val ≥ 65 ∧ c.val ≤ 90) = true ↔ _
  simp only [decide_eq_true_eq, ge_iff_le, UInt32.le_iff_toNat_le]
  exact Iff.rfl

theorem isLower_iff : c.isLower = true ↔ 97 ≤ c.toNat ∧ c.toNat ≤ 122 := by
  change (decide (c.val ≥ 97) && decide (c.val ≤ 122)) = true ↔ _
  simp only [Bool.and_eq_true, decide_eq_true_eq, ge_iff_le, UInt32.le_iff_toNat_le]
  exact Iff.rfl

theorem isNameStart_iff : isNameStart c = true ↔
    (65 ≤ c.toNat ∧ c.toNat ≤ 90) ∨ (97 ≤ c.toNat ∧ c.toNat ≤ 122) ∨ c.toNat = 95 ∨ 128 ≤ c.toNat := by
  have hunder : c = '_' ↔ c.toNat = 95 := Char.toNat_inj.symm
  change (((c.isUpper || c.isLower) || c == '_') || decide (128 ≤ c.toNat)) = true ↔ _
  simp only [Bool.or_eq_true, isUpper_iff, isLower_iff, decide_eq_true_eq, beq_iff_eq, hunder, or_assoc]

theorem isNameChar_iff : isNameChar c = true ↔
    isNameStart c = true ∨ (48 ≤ c.toNat ∧ c.toNat ≤ 57) ∨ c.toNat = 45 := by
  have hdash : c = '-' ↔ c.toNat = 45 := Char.toNat_inj.symm
  simp only [isNameChar, Bool.or_eq_true, isDigit_iff, beq_iff_eq, hdash, or_assoc]

theorem isBlank_iff : isBlank c = true ↔
    c.toNat = 10 ∨ c.toNat = 9 ∨ c.toNat = 32 ∨ c.toNat = 13 ∨ c.toNat = 12 := by
  have hchar (d : Char) : c = d ↔ c.toNat = d.toNat := Char.toNat_inj.symm
  simp only [isBlank, Bool.or_eq_true, beq_iff_eq, hchar, or_assoc]
  exact Iff.rfl

theorem isDigit_eq_false_of_isNameStart (h : isNameStart c = true) : c.isDigit = false := by
  rw [Bool.eq_false_iff, ne_eq, isDigit_iff]
  rw [isNameStart_iff] at h
  omega

end Token

namespace Text

theorem isQuote_iff : isQuote c = true ↔ c = '"' ∨ c = '\'' := by
  rw [isQuote, Bool.or_eq_true_iff, beq_iff_eq, beq_iff_eq]

theorem toNat_toLower (c : Char) :
    c.toLower.toNat = if 65 ≤ c.toNat ∧ c.toNat ≤ 90 then c.toNat + 32 else c.toNat := by
  have hupper : ('A'.val ≤ c.val ∧ c.val ≤ 'Z'.val) ↔ 65 ≤ c.toNat ∧ c.toNat ≤ 90 := by
    simp only [UInt32.le_iff_toNat_le]
    exact Iff.rfl
  unfold Char.toLower
  split
  · next h =>
    have hrange := hupper.1 h
    have hshift : ('a'.val - 'A'.val).toNat = 32 := by decide
    have hval : c.val.toNat = c.toNat := rfl
    rw [if_pos hrange, ← Char.toNat_val, UInt32.toNat_add]
    omega
  · next h => rw [if_neg fun h' => h (hupper.2 h')]

/-- A code point that is no letter is its own small letter, and a small letter has no other. -/
theorem toLower_eq_iff (d : Char) (hd : d.toNat < 65 ∨ 122 < d.toNat ∨ 90 < d.toNat ∧ d.toNat < 97) :
    c.toLower = d ↔ c = d := by
  rw [← Char.toNat_inj, ← Char.toNat_inj, toNat_toLower]
  split <;> omega

theorem toLower_toLower (c : Char) : c.toLower.toLower = c.toLower := by
  rw [← Char.toNat_inj, toNat_toLower c.toLower, if_neg]
  rw [toNat_toLower]
  split <;> omega

theorem lower_lower (t : Text) : t.lower.lower = t.lower := by
  simp only [lower, List.map_map]
  exact List.map_congr_left fun c _ => toLower_toLower c

theorem isSpace_toLower (c : Char) : isSpace c.toLower = isSpace c := by
  simp only [isSpace, toNat_toLower]
  split
  · next h =>
    rw [Bool.eq_iff_iff]
    simp only [Bool.or_eq_true, Bool.and_eq_true, decide_eq_true_eq, beq_iff_eq]
    omega
  · rfl

theorem isSpace_of_isDigit (h : c.isDigit = true) : isSpace c = false := by
  rw [Token.isDigit_iff] at h
  rw [Bool.eq_false_iff, ne_eq]
  simp only [isSpace, Bool.or_eq_true, Bool.and_eq_true, decide_eq_true_eq, beq_iff_eq]
  omega

theorem isNameStart_toLower (c : Char) : Token.isNameStart c.toLower = Token.isNameStart c := by
  rw [Bool.eq_iff_iff, Token.isNameStart_iff, Token.isNameStart_iff, toNat_toLower]
  split <;> omega

theorem isNameChar_toLower (c : Char) : Token.isNameChar c.toLower = Token.isNameChar c := by
  rw [Bool.eq_iff_iff, Token.isNameChar_iff, Token.isNameChar_iff, isNameStart_toLower, toNat_toLower]
  rw [Token.isNameStart_iff]
  split <;> omega

end Text
end StyleMiner
