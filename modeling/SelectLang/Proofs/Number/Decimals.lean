/-
# Whole numbers as decimals

A decimal with no digits behind its point is a whole number (`Fixed.IsWhole`). Integers are taken as such, and so
are the floats that stand for one: a float below one is halved as often as its mantissa has factors two, and a
larger one is doubled, where there is room for every digit of a word. Sums and products of whole decimals are
whole and exact as long as their digits have room.

Key definitions: `Fixed.IsWhole`.
Key theorems: `Fixed.IsWhole.add?`, `Fixed.IsWhole.mul?`, `Fixed.IsWhole.int?`, `Fixed.ofFloat?_whole`.
-/
import Mathlib
import SelectLang.Number.Fixed
import SelectLang.Proofs.Number.Denotation

namespace SelectLang
namespace Fixed

/-- The decimal is the whole number and has no digits behind the point. -/
structure IsWhole (a : Fixed) (n : ℤ) : Prop where
  scale : a.scale = 0
  units : a.unitsAt 0 = n

variable {a b : Fixed} {m n : ℤ}

theorem digitsAt_zero (a : Fixed) : a.digitsAt 0 = a.digits := by
  rw [digitsAt, Nat.zero_sub, Nat.pow_eq, pow_zero, mul_one]

theorem IsWhole.natAbs (h : a.IsWhole n) : a.digits = n.natAbs := by
  rw [← h.units, unitsAt, digitsAt_zero]
  split_ifs <;> simp

/-- Whole digits with the sign that goes with them. -/
theorem isWhole_of_sign {negative : Bool} (h : n ≠ 0 → negative = decide (n < 0)) :
    IsWhole ⟨negative, n.natAbs, 0⟩ n := by
  refine ⟨rfl, ?_⟩
  rw [unitsAt, digitsAt_zero]
  by_cases hn : n = 0
  · subst hn
    cases negative <;> rfl
  · obtain rfl := h hn
    dsimp only
    split_ifs with hneg <;> rw [decide_eq_true_eq] at hneg <;> omega

theorem isWhole_ofInt (n : ℤ) : (ofInt n).IsWhole n := isWhole_of_sign fun _ => rfl

theorem IsWhole.neg (h : a.IsWhole n) : a.neg.IsWhole (-n) := by
  refine ⟨h.scale, ?_⟩
  have hunits := h.units
  rw [unitsAt, digitsAt_zero] at hunits ⊢
  rw [← hunits, Fixed.neg]
  cases a.negative <;> simp

/-! ### Sums and products -/

/-- Whole digits for which there is room are kept. -/
theorem fit?_of_lt (negative : Bool) {digits : Nat} (h : digits < capacity) :
    fit? negative digits 0 = some ⟨negative, digits, 0⟩ := by
  have hround : Binary64.roundQuotient digits (Nat.pow 10 0) = digits := Binary64.roundQuotient_one digits
  rw [fit?, Nat.zero_sub, fitFrom, hround, if_pos h, if_pos le_rfl]

theorem IsWhole.add? (ha : a.IsWhole m) (hb : b.IsWhole n) (hroom : (m + n).natAbs < capacity) :
    ∃ c, a.add? b = some c ∧ c.IsWhole (m + n) := by
  rw [Fixed.add?]
  split_ifs with hm hn
  · have hzero : m = 0 := Int.natAbs_eq_zero.mp (ha.natAbs ▸ hm)
    exact ⟨b, rfl, by rwa [hzero, zero_add]⟩
  · have hzero : n = 0 := Int.natAbs_eq_zero.mp (hb.natAbs ▸ hn)
    exact ⟨a, rfl, by rwa [hzero, add_zero]⟩
  · rw [ha.scale, hb.scale, Nat.max_self]
    dsimp only
    rw [ha.units, hb.units]
    exact ⟨_, fit?_of_lt _ hroom, isWhole_of_sign fun _ => rfl⟩

theorem IsWhole.sub? (ha : a.IsWhole m) (hb : b.IsWhole n) (hroom : (m - n).natAbs < capacity) :
    ∃ c, a.sub? b = some c ∧ c.IsWhole (m - n) :=
  ha.add? hb.neg hroom

theorem IsWhole.isNegative (h : a.IsWhole n) (hn : n ≠ 0) : a.negative = decide (n < 0) := by
  have hunits := h.units
  rw [unitsAt] at hunits
  split_ifs at hunits with hneg
  · rw [hneg, eq_comm, decide_eq_true_eq]
    omega
  · rw [Bool.not_eq_true] at hneg
    rw [hneg, eq_comm, decide_eq_false_iff_not]
    omega

theorem IsWhole.mul? (ha : a.IsWhole m) (hb : b.IsWhole n) (hroom : (m * n).natAbs < capacity) :
    ∃ c, a.mul? b = some c ∧ c.IsWhole (m * n) := by
  rw [Fixed.mul?]
  split_ifs with hzero
  · rw [ha.natAbs, hb.natAbs, Int.natAbs_eq_zero, Int.natAbs_eq_zero] at hzero
    exact ⟨zero, rfl, rfl, (mul_eq_zero.mpr hzero).symm⟩
  · rw [ha.natAbs, hb.natAbs, Int.natAbs_eq_zero, Int.natAbs_eq_zero, not_or] at hzero
    rw [ha.natAbs, hb.natAbs, ha.scale, hb.scale, ← Int.natAbs_mul, ha.isNegative hzero.1, hb.isNegative hzero.2]
    refine ⟨_, fit?_of_lt _ hroom, isWhole_of_sign fun _ => ?_⟩
    rw [Bool.eq_iff_iff, bne_iff_ne, ne_eq, decide_eq_decide, decide_eq_true_eq]
    rcases lt_or_gt_of_ne hzero.1 with hm | hm <;> rcases lt_or_gt_of_ne hzero.2 with hn | hn
    · simp [hm, hn, (mul_pos_of_neg_of_neg hm hn).le]
    · simp [hm, hn.le, mul_neg_of_neg_of_pos hm hn]
    · simp [hm.le, hn, mul_neg_of_pos_of_neg hm hn]
    · simp [(mul_pos hm hn).le, not_lt.mpr hm.le, not_lt.mpr hn.le]

theorem IsWhole.int? (h : a.IsWhole n) : a.int? = some n := by
  have hunits := h.units
  rw [unitsAt, digitsAt_zero] at hunits
  rw [Fixed.int?, h.scale, Nat.pow_eq, pow_zero, Nat.mod_one, if_pos rfl, Nat.div_one]
  exact congrArg some hunits

/-! ### Floats -/

/-- The factors two are taken out one by one. -/
theorem halve_mul_pow : ∀ (count m : Nat) (e : ℤ),
    Unscaled.halve count ⟨m * 2 ^ count, e⟩ = ⟨m, e + count⟩
  | 0, m, e => by simp [Unscaled.halve]
  | count + 1, m, e => by
    have hsplit : m * 2 ^ (count + 1) = m * 2 ^ count * 2 := by ring
    rw [Unscaled.halve, hsplit, if_pos (Nat.mul_mod_left _ _), Nat.mul_div_cancel _ two_pos, halve_mul_pow]
    push_cast
    congr 1
    ring

/-- Digits that stay small are doubled exactly. -/
theorem double?_of_lt : ∀ (count : Nat) {m : Nat} (e : ℤ), m * 2 ^ count < 2 ^ 95 →
    Unscaled.double? count ⟨m, e⟩ = some ⟨m * 2 ^ count, e - count⟩
  | 0, m, e, _ => by simp [Unscaled.double?]
  | count + 1, m, e, h => by
    have hsplit : m * 2 ^ (count + 1) = m * 2 * 2 ^ count := by ring
    have hsmall : m < Nat.pow 2 95 := lt_of_le_of_lt (Nat.le_mul_of_pos_right m (by positivity)) h
    rw [Unscaled.double?, if_pos hsmall, double?_of_lt count (e - 1) (hsplit ▸ h), hsplit]
    push_cast
    congr 2
    ring

/-- The digits of a finite number when its binary exponent is used up. -/
def unscaled? (x : Binary64) : Option Unscaled :=
  if x.exponent < 0 then some (Unscaled.halve (below x.exponent) ⟨x.mantissa, x.exponent⟩)
  else Unscaled.double? x.exponent.toNat ⟨x.mantissa, x.exponent⟩

namespace Unscaled

/-- The digits cut to a scale and to what a float carries. -/
def settle (u : Unscaled) : Unscaled :=
  let u := u.cut (below u.exponent - greatestScale)
  let u := u.trim (below u.exponent)
  u.strip (below u.exponent)

/-- The digits as a decimal, with the sign that goes with them. -/
def decimal (u : Unscaled) (negative : Bool) : Fixed := ⟨negative, u.digits, below u.exponent⟩

end Unscaled

theorem ofFloat?_eq {x : Binary64} (hx : x.isFinite = true) (h0 : ¬ x.isZero = true) : ofFloat? x =
    (unscaled? x).bind fun u => (u.raise? u.exponent.toNat).map fun v => v.settle.decimal x.isNegative := by
  rw [ofFloat?, if_neg (by simp [hx]), if_neg h0]
  simp only [unscaled?, Option.map_eq_bind]
  split_ifs <;> rfl

/-- A float that stands for an integer of 64 bits is that integer as a decimal. -/
theorem ofFloat?_whole {x : Binary64} (hx : x.isFinite = true)
    (h : x.signedUnits = n * Binary64.unitsOfOne) (hn : n.natAbs ≤ 2 ^ 63) :
    ∃ a, ofFloat? x = some a ∧ a.IsWhole n := by
  have hunits : x.units = n.natAbs * Binary64.unitsOfOne := by
    rw [← Binary64.natAbs_signedUnits, h, Int.natAbs_mul, Int.natAbs_natCast]
  have hratio : x.ratio.1 = n.natAbs * x.ratio.2 := by
    have hmul := Binary64.units_mul_ratio x
    rw [hunits, mul_right_comm] at hmul
    exact Nat.eq_of_mul_eq_mul_right Binary64.unitsOfOne_pos hmul.symm
  have hsign : n ≠ 0 → x.isNegative = decide (n < 0) := fun hne => by
    have hpos : 0 < (Binary64.unitsOfOne : ℤ) := by exact_mod_cast Binary64.unitsOfOne_pos
    rw [Binary64.signedUnits] at h
    split_ifs at h with hneg
    · have hle : n ≤ 0 := nonpos_of_mul_nonpos_left (h ▸ neg_nonpos.mpr (Int.natCast_nonneg _)) hpos
      rw [hneg, decide_eq_true (lt_of_le_of_ne hle hne)]
    · have hle : 0 ≤ n := nonneg_of_mul_nonneg_left (h ▸ Int.natCast_nonneg _) hpos
      rw [Bool.not_eq_true] at hneg
      rw [hneg, decide_eq_false hle.not_gt]
  refine ⟨⟨x.isNegative, n.natAbs, 0⟩, ?_, isWhole_of_sign hsign⟩
  by_cases h0 : x.isZero = true
  · have hzero : n.natAbs = 0 := by
      have hnone : x.units = 0 := Binary64.units_of_zero (by simpa [Binary64.isZero] using h0)
      rw [hunits] at hnone
      exact (Nat.mul_eq_zero.mp hnone).resolve_right Binary64.unitsOfOne_pos.ne'
    rw [ofFloat?, if_neg (by simp [hx]), if_pos h0, hzero]
  · have hdigits : unscaled? x = some ⟨n.natAbs, 0⟩ := by
      rw [Binary64.ratio, Nat.pow_eq, Nat.pow_eq] at hratio
      rw [unscaled?]
      split_ifs at hratio with he
      · obtain ⟨k, hk⟩ := Int.eq_ofNat_of_zero_le he
        simp only [hk, Int.toNat_natCast, mul_one] at hratio
        rw [if_neg he.not_gt, hk, Int.toNat_natCast, double?_of_lt k k (by omega), hratio, sub_self]
      · obtain ⟨k, hk⟩ : ∃ k : Nat, x.exponent = -(k : ℤ) := ⟨(-x.exponent).toNat, by omega⟩
        simp only [hk, neg_neg, Int.toNat_natCast] at hratio
        rw [if_pos (not_le.mp he), hk, below, neg_neg, Int.toNat_natCast, hratio, halve_mul_pow, neg_add_cancel]
    rw [ofFloat?_eq hx h0, hdigits]
    rfl

end Fixed
end SelectLang
