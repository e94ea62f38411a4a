/-
# Rounding depends on the value only

`Binary64.ofRatio` rounds a quotient of naturals. It sees the value of the quotient and not how it is
written (`ofRatio_congr`), so the same decimal with a zero more or less behind it gives the same
number (`ofDecimal_mul_pow`). A quotient that is the size of a finite number gives that number back
(`ofRatio_ratio`).

Key theorems: `logTwo_eq_log`, `ofRatio_congr`, `ofRatio_ratio`, `ofDecimal_mul_pow`.
-/
import Mathlib
import SelectLang.Number.Shortest

namespace SelectLang
namespace Binary64

/-! ### The binary logarithm -/

/-- The condition of `logTwo` on a candidate, as a comparison of rationals. -/
theorem two_zpow_le_iff {num den : Nat} (hd : 0 < den) (l : Int) :
    (2 : ℚ) ^ l ≤ (num : ℚ) / den ↔
      if 0 ≤ l then den * Nat.pow 2 l.toNat ≤ num else den ≤ num * Nat.pow 2 (-l).toNat := by
  have hdq : (0 : ℚ) < den := by exact_mod_cast hd
  rw [le_div_iff₀ hdq, Nat.pow_eq]
  by_cases hl : 0 ≤ l
  · obtain ⟨n, rfl⟩ := Int.eq_ofNat_of_zero_le hl
    rw [if_pos hl, Int.toNat_natCast, zpow_natCast, mul_comm]
    exact_mod_cast Iff.rfl
  · obtain ⟨n, hn⟩ : ∃ n : Nat, l = -(n : Int) := ⟨(-l).toNat, by omega⟩
    subst hn
    have hp : (0 : ℚ) < 2 ^ n := by positivity
    rw [if_neg hl, neg_neg, Int.toNat_natCast, zpow_neg, zpow_natCast, Nat.pow_eq, inv_mul_le_iff₀ hp,
      mul_comm]
    exact_mod_cast Iff.rfl

theorem logTwo_bounds {num den : Nat} (hn : 0 < num) (hd : 0 < den) :
    (2 : ℚ) ^ logTwo num den ≤ (num : ℚ) / den ∧ (num : ℚ) / den < (2 : ℚ) ^ (logTwo num den + 1) := by
  have hdq : (0 : ℚ) < den := by exact_mod_cast hd
  have h1 : (2 : ℚ) ^ num.log2 ≤ num := by exact_mod_cast Nat.log2_self_le hn.ne'
  have h2 : (num : ℚ) < 2 ^ (num.log2 + 1) := by exact_mod_cast Nat.lt_log2_self
  have h3 : (2 : ℚ) ^ den.log2 ≤ den := by exact_mod_cast Nat.log2_self_le hd.ne'
  have h4 : (den : ℚ) < 2 ^ (den.log2 + 1) := by exact_mod_cast Nat.lt_log2_self
  set l : Int := (num.log2 : Int) - den.log2 with hl
  have hup : (num : ℚ) / den < (2 : ℚ) ^ (l + 1) := by
    rw [div_lt_iff₀ hdq, show l + 1 = ((num.log2 + 1 : Nat) : Int) - (den.log2 : Nat) by push_cast; omega,
      zpow_sub₀ (by norm_num), zpow_natCast, zpow_natCast]
    calc (num : ℚ) < 2 ^ (num.log2 + 1) := h2
      _ = 2 ^ (num.log2 + 1) / 2 ^ den.log2 * 2 ^ den.log2 := by field_simp
      _ ≤ 2 ^ (num.log2 + 1) / 2 ^ den.log2 * den := by gcongr
  have hlow : (2 : ℚ) ^ (l - 1) ≤ (num : ℚ) / den := by
    rw [le_div_iff₀ hdq, show l - 1 = (num.log2 : Int) - ((den.log2 + 1 : Nat) : Int) by push_cast; omega,
      zpow_sub₀ (by norm_num), zpow_natCast, zpow_natCast]
    calc (2 : ℚ) ^ num.log2 / 2 ^ (den.log2 + 1) * den
        ≤ 2 ^ num.log2 / 2 ^ (den.log2 + 1) * 2 ^ (den.log2 + 1) := by gcongr
      _ = 2 ^ num.log2 := by field_simp
      _ ≤ num := h1
  have hiff := @two_zpow_le_iff num den hd l
  have hval : logTwo num den = if (2 : ℚ) ^ l ≤ (num : ℚ) / den then l else l - 1 := by
    unfold logTwo
    simp only [hiff, ← hl]
    split_ifs <;> rfl
  rw [hval]
  split_ifs with h
  · exact ⟨h, hup⟩
  · rw [sub_add_cancel]
    exact ⟨hlow, not_le.mp h⟩

theorem logTwo_eq_log {num den : Nat} (hn : 0 < num) (hd : 0 < den) :
    logTwo num den = Int.log 2 ((num : ℚ) / den) := by
  obtain ⟨h1, h2⟩ := logTwo_bounds hn hd
  have hpos : (0 : ℚ) < (num : ℚ) / den := div_pos (by exact_mod_cast hn) (by exact_mod_cast hd)
  have h3 := Int.zpow_log_le_self (b := 2) (by decide) hpos
  have h4 := Int.lt_zpow_succ_log_self (b := 2) (by decide) ((num : ℚ) / den)
  push_cast at h3 h4
  have ha := (zpow_lt_zpow_iff_right₀ (by norm_num : (1 : ℚ) < 2)).mp (h1.trans_lt h4)
  have hb := (zpow_lt_zpow_iff_right₀ (by norm_num : (1 : ℚ) < 2)).mp (h3.trans_lt h2)
  omega

/-! ### Rounding a quotient -/

theorem roundQuotient_mul (num den : Nat) {k : Nat} (hk : 0 < k) :
    roundQuotient (num * k) (den * k) = roundQuotient num den := by
  have h1 : num * k / (den * k) = num / den := Nat.mul_div_mul_right num den hk
  have h2 : num * k % (den * k) = num % den * k := Nat.mul_mod_mul_right k num den
  have h3 : den * k < 2 * (num % den * k) ↔ den < 2 * (num % den) := by
    rw [← mul_assoc]
    exact Nat.mul_lt_mul_right hk
  have h4 : (2 * (num % den * k) == den * k) = (2 * (num % den) == den) := by
    rw [← mul_assoc, Bool.eq_iff_iff, beq_iff_eq, beq_iff_eq]
    exact Nat.mul_left_inj hk.ne'
  simp only [roundQuotient, h1, h2, h3, h4]

theorem roundQuotient_self (m : Nat) {k : Nat} (hk : 0 < k) : roundQuotient (m * k) k = m := by
  simp only [roundQuotient, Nat.mul_div_cancel m hk, Nat.mul_mod_left]
  rw [if_neg]
  simp
  omega

theorem roundQuotient_one (m : Nat) : roundQuotient m 1 = m :=
  (congrArg (roundQuotient · 1) (mul_one m).symm).trans (roundQuotient_self m one_pos)

theorem ofRatio_mul (negative : Bool) (num : Nat) {den k : Nat} (hd : 0 < den) (hk : 0 < k) :
    ofRatio negative (num * k) (den * k) = ofRatio negative num den := by
  rcases Nat.eq_zero_or_pos num with rfl | hn
  · simp [ofRatio]
  have hlog : logTwo (num * k) (den * k) = logTwo num den := by
    rw [logTwo_eq_log (Nat.mul_pos hn hk) (Nat.mul_pos hd hk), logTwo_eq_log hn hd]
    congr 1
    have hkq : (k : ℚ) ≠ 0 := by exact_mod_cast hk.ne'
    push_cast
    exact mul_div_mul_right _ _ hkq
  have h0 : num * k ≠ 0 := (Nat.mul_pos hn hk).ne'
  simp only [ofRatio, hlog, if_neg h0, if_neg hn.ne']
  have ha (e : Int) : roundQuotient (num * k) (den * k * Nat.pow 2 e.toNat) =
      roundQuotient num (den * Nat.pow 2 e.toNat) := by
    rw [mul_right_comm, roundQuotient_mul _ _ hk]
  have hb (e : Int) : roundQuotient (num * k * Nat.pow 2 (-e).toNat) (den * k) =
      roundQuotient (num * Nat.pow 2 (-e).toNat) den := by
    rw [mul_right_comm, roundQuotient_mul _ _ hk]
  simp only [ha, hb]

/-- Quotients of one value round alike. -/
theorem ofRatio_congr (negative : Bool) {num den num' den' : Nat} (hd : 0 < den) (hd' : 0 < den')
    (h : num * den' = num' * den) : ofRatio negative num den = ofRatio negative num' den' := by
  rw [← ofRatio_mul negative num hd hd', ← ofRatio_mul negative num' hd' hd, h, mul_comm den den']

/-! ### Finite numbers -/

/-- A number is its sign and its other bits. -/
theorem ofMagnitude_magnitude (x : Binary64) : ofMagnitude x.isNegative x.magnitude = x := by
  obtain ⟨bits⟩ := x
  have hb : bits.toNat < 2 ^ 64 := bits.toNat_lt
  have hm : (if Nat.pow 2 63 ≤ bits.toNat then bits.toNat % Nat.pow 2 63 + Nat.pow 2 63
      else bits.toNat % Nat.pow 2 63) = bits.toNat := by
    simp only [Nat.pow_eq]
    split_ifs <;> omega
  simp only [ofMagnitude, isNegative, magnitude, decide_eq_true_eq, hm, UInt64.ofNat_toNat]

/-- The parts of a number that is not zero: its exponent is the least one, or the mantissa has a leading
bit. -/
theorem mantissa_bounds {x : Binary64} (h : x.magnitude ≠ 0) :
    0 < x.mantissa ∧ x.mantissa < 2 ^ 53 ∧ -1074 ≤ x.exponent ∧
      (x.exponent = -1074 ∨ 2 ^ 52 ≤ x.mantissa) ∧
      (x.exponent + 1074).toNat * 2 ^ 52 + x.mantissa = x.magnitude := by
  have h52 : Nat.pow 2 52 = 4503599627370496 := rfl
  rw [mantissa, exponent, h52]
  by_cases hs : x.magnitude < 4503599627370496
  · rw [if_pos hs, if_pos hs]
    omega
  · rw [if_neg hs, if_neg hs]
    omega

/-- The quotient of a number is its mantissa, moved by its exponent. -/
theorem ratio_eq {x : Binary64} (h : 0 < x.mantissa) :
    (x.ratio.1 : ℚ) / x.ratio.2 = x.mantissa * 2 ^ x.exponent ∧ 0 < x.ratio.1 ∧ 0 < x.ratio.2 := by
  by_cases he : 0 ≤ x.exponent
  · obtain ⟨n, hn⟩ := Int.eq_ofNat_of_zero_le he
    rw [ratio, if_pos he, hn, Int.toNat_natCast, zpow_natCast, Nat.pow_eq]
    exact ⟨by push_cast; ring, by positivity, one_pos⟩
  · obtain ⟨n, hn⟩ : ∃ n : Nat, x.exponent = -(n : Int) := ⟨(-x.exponent).toNat, by omega⟩
    rw [ratio, if_neg he, hn, neg_neg, Int.toNat_natCast, zpow_neg, zpow_natCast, Nat.pow_eq]
    exact ⟨by push_cast; ring, h, by positivity⟩

/-- The exponent that rounding picks for a number is its own. -/
theorem exponent_of_ratio {x : Binary64} (h : x.magnitude ≠ 0) :
    max (logTwo x.ratio.1 x.ratio.2 - 52) (-1074) = x.exponent := by
  obtain ⟨hpos, hlt, hle, hnorm, -⟩ := mantissa_bounds h
  obtain ⟨hval, hn, hd⟩ := ratio_eq hpos
  obtain ⟨h1, h2⟩ := logTwo_bounds hn hd
  rw [hval] at h1 h2
  have hlow : logTwo x.ratio.1 x.ratio.2 < 53 + x.exponent := by
    rw [← zpow_lt_zpow_iff_right₀ (by norm_num : (1 : ℚ) < 2)]
    refine h1.trans_lt ?_
    rw [zpow_add₀ (by norm_num)]
    have : (x.mantissa : ℚ) < 2 ^ (53 : Int) := by exact_mod_cast hlt
    gcongr
  have hup : 2 ^ 52 ≤ x.mantissa → 52 + x.exponent < logTwo x.ratio.1 x.ratio.2 + 1 := by
    intro hbig
    rw [← zpow_lt_zpow_iff_right₀ (by norm_num : (1 : ℚ) < 2)]
    refine lt_of_le_of_lt ?_ h2
    rw [zpow_add₀ (by norm_num)]
    have : (2 : ℚ) ^ (52 : Int) ≤ x.mantissa := by exact_mod_cast hbig
    gcongr
  rcases hnorm with he | hbig
  · omega
  · have := hup hbig
    omega

/-- The size of a finite number, rounded, is that number. -/
theorem ofRatio_ratio (negative : Bool) {x : Binary64} (hf : x.isFinite = true) :
    ofRatio negative x.ratio.1 x.ratio.2 = ofMagnitude negative x.magnitude := by
  rw [isFinite, decide_eq_true_eq] at hf
  by_cases h0 : x.magnitude = 0
  · have hm : x.mantissa = 0 := by rw [mantissa, h0, if_pos (by decide)]
    have hr : x.ratio.1 = 0 := by
      rw [ratio, hm]
      split_ifs
      · exact Nat.zero_mul _
      · rfl
    rw [ofRatio, if_pos hr, h0]
  obtain ⟨hpos, -, -, -, hmag⟩ := mantissa_bounds h0
  have hn : x.ratio.1 ≠ 0 := (ratio_eq hpos).2.1.ne'
  have hround : (if 0 ≤ x.exponent then
        roundQuotient x.ratio.1 (x.ratio.2 * Nat.pow 2 x.exponent.toNat)
      else roundQuotient (x.ratio.1 * Nat.pow 2 (-x.exponent).toNat) x.ratio.2) = x.mantissa := by
    rw [ratio]
    split_ifs
    · rw [one_mul, Nat.pow_eq]
      exact roundQuotient_self _ (by positivity)
    · rw [Nat.pow_eq]
      exact roundQuotient_self _ (by positivity)
  simp only [ofRatio, if_neg hn, exponent_of_ratio h0, hround]
  rw [Nat.pow_eq, hmag, min_eq_left hf.le]

/-! ### Decimals -/

/-- A decimal as a quotient of naturals. -/
theorem ofDecimal_eq (negative : Bool) (digits : Nat) (exponent : Int) :
    ofDecimal negative digits exponent =
      ofRatio negative (digits * 10 ^ exponent.toNat) (10 ^ (-exponent).toNat) := by
  unfold ofDecimal
  simp only [Nat.pow_eq]
  split_ifs with h
  · rw [show (-exponent).toNat = 0 by omega, pow_zero]
  · rw [show exponent.toNat = 0 by omega, pow_zero, mul_one]

/-- Zeros behind the digits may go into the exponent. -/
theorem ofDecimal_mul_pow (negative : Bool) (digits k : Nat) (exponent : Int) :
    ofDecimal negative (digits * 10 ^ k) (exponent - k) = ofDecimal negative digits exponent := by
  rw [ofDecimal_eq, ofDecimal_eq]
  refine ofRatio_congr negative (by positivity) (by positivity) ?_
  rw [mul_assoc, mul_assoc, mul_assoc, ← pow_add, ← pow_add, ← pow_add]
  congr 2
  omega

end Binary64
end SelectLang
