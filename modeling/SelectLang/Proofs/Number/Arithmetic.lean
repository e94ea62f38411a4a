/-
# The arithmetic of floats rounds the exact result

The product, the quotient and the sum of finite floats are the floats nearest to the exact ones, counted in least
units (`mul_eq`, `div_eq`, `add_eq`). So what is known of rounding is known of the arithmetic: it has the sign of the
exact result, it does not hang on the order of the factors, and a larger result is not rounded to a smaller float.

Key theorems: `mul_eq`, `mul_comm_of_isFinite`, `div_eq`, `add_eq`.
-/
import Mathlib
import SelectLang.Proofs.Number.Unpacked

namespace SelectLang
namespace Binary64

open Float.Model (UnpackedFloat)

variable {x y : Binary64}

/-! ### Operations on what is taken apart -/

theorem isNaN_of_isFinite (hx : x.isFinite = true) : ¬ x.isNaN = true := by
  rw [isFinite, decide_eq_true_eq] at hx
  rw [isNaN, decide_eq_true_eq]
  omega

theorem unpack_toFloat (hx : x.isFinite = true) : x.toFloat.toModel.unpack = x.unpacked :=
  congrArg unpacked (packed_unpacked hx)

/-- An operation of floats is the one on what they are taken apart into. -/
theorem apply_eq {op : Float → Float → Float} {combine : UnpackedFloat → UnpackedFloat → UnpackedFloat}
    (hop : ∀ a b : Float, (op a b).toModel = .pack (combine a.toModel.unpack b.toModel.unpack))
    (hx : x.isFinite = true) (hy : y.isFinite = true) {negative : Bool} {num den : Nat}
    (hr : packed (combine x.unpacked y.unpacked) = ofRatio negative num den) :
    apply op x y = ofRatio negative num den := by
  have hbits : (⟨(op x.toFloat y.toFloat).toBits⟩ : Binary64) = packed (combine x.unpacked y.unpacked) := by
    have htoBits : (op x.toFloat y.toFloat).toBits = (op x.toFloat y.toFloat).toModel.toBits := rfl
    rw [htoBits, hop, unpack_toFloat hx, unpack_toFloat hy]
    rfl
  rw [apply, if_neg (isNaN_of_isFinite hx), if_neg (isNaN_of_isFinite hy), hbits, hr]
  exact if_neg (isNaN_ofRatio negative num den)

/-- Factors two may move between exponents. -/
theorem mul_pow_congr (m : Nat) {a b c d : Nat} (h : a + c = b + d) : m * 2 ^ a * 2 ^ c = m * 2 ^ b * 2 ^ d := by
  rw [mul_assoc, mul_assoc, ← pow_add, ← pow_add, h]

theorem ofRatio_zero (negative : Bool) (den : Nat) : ofRatio negative 0 den = ofMagnitude negative 0 := if_pos rfl

/-! ### Products -/

/-- With the mantissas that numbers have, a product has enough bits or the least exponent. -/
theorem le_target_mul (hx : x.magnitude ≠ 0) (hy : y.magnitude ≠ 0) :
    x.exponent + y.exponent ≤ target (x.mantissa * y.mantissa) (x.exponent + y.exponent) := by
  obtain ⟨hmx, -, -, hnx, -⟩ := mantissa_bounds hx
  obtain ⟨hmy, -, -, hny, -⟩ := mantissa_bounds hy
  have hbits : 2 ^ 52 ≤ x.mantissa ∨ 2 ^ 52 ≤ y.mantissa → 52 ≤ (x.mantissa * y.mantissa).log2 := by
    intro h
    have hle : 2 ^ 52 ≤ x.mantissa * y.mantissa := by
      rcases h with h | h
      · exact h.trans (Nat.le_mul_of_pos_right _ hmy)
      · exact h.trans (Nat.le_mul_of_pos_left _ hmx)
    exact (Nat.le_log2 (Nat.mul_pos hmx hmy).ne').mpr hle
  rw [target]
  rcases hnx with hex | hnx
  · rcases hny with hey | hny
    · omega
    · have := hbits (Or.inr hny)
      omega
  · have := hbits (Or.inl hnx)
    omega

theorem packed_mul (hx : x.isFinite = true) (hy : y.isFinite = true) :
    packed (.mul .binary64 x.unpacked y.unpacked) =
      ofRatio (x.isNegative != y.isNegative) (x.units * y.units) (unitsOfOne * unitsOfOne) := by
  by_cases hx0 : x.magnitude = 0
  · rw [units_of_zero hx0, Nat.zero_mul, ofRatio_zero, unpacked_zero hx0]
    by_cases hy0 : y.magnitude = 0
    · rw [unpacked_zero hy0, ← packed_zero, ← sign_mul]
      rfl
    · rw [unpacked_finite hy hy0, ← packed_zero, ← sign_mul]
      rfl
  by_cases hy0 : y.magnitude = 0
  · rw [units_of_zero hy0, Nat.mul_zero, ofRatio_zero, unpacked_zero hy0, unpacked_finite hx hx0, ← packed_zero,
      ← sign_mul]
    rfl
  have hmx := (mantissa_bounds hx0).1
  have hmy := (mantissa_bounds hy0).1
  have hex := le_exponent x
  have hey := le_exponent y
  rw [unpacked_finite hx hx0, unpacked_finite hy hy0, UnpackedFloat.mul, sign_mul,
    packed_roundWithAccuracy (Nat.mul_pos hmx hmy) one_pos (tells_exact _) (le_target_mul hx0 hy0)]
  refine ofRatio_congr _ (by positivity) (Nat.mul_pos unitsOfOne_pos unitsOfOne_pos) ?_
  have hpow : x.mantissa * y.mantissa * 2 ^ (x.exponent + y.exponent).toNat * 2 ^ (1074 + 1074) =
      x.mantissa * y.mantissa * 2 ^ ((x.exponent + 1074).toNat + (y.exponent + 1074).toNat) *
        2 ^ (-(x.exponent + y.exponent)).toNat :=
    mul_pow_congr _ (by omega)
  rw [one_mul, unitsOfOne, ← pow_add, hpow, units, units, pow_add, mul_mul_mul_comm]

/-- **Products are rounded exactly once.** -/
theorem mul_eq (hx : x.isFinite = true) (hy : y.isFinite = true) :
    x * y = ofRatio (x.isNegative != y.isNegative) (x.units * y.units) (unitsOfOne * unitsOfOne) :=
  apply_eq (fun _ _ => rfl) hx hy (packed_mul hx hy)

theorem mul_comm_of_isFinite (hx : x.isFinite = true) (hy : y.isFinite = true) : x * y = y * x := by
  rw [mul_eq hx hy, mul_eq hy hx, Nat.mul_comm, bne_comm]

/-! ### Quotients -/

/-- The exponent that a division starts with, low enough for its whole part to have all bits. -/
def divisionExponent (x y : Binary64) : Int :=
  min (x.exponent - y.exponent)
    (max (((x.mantissa.log2 : Int) + x.exponent) - (y.mantissa.log2 + y.exponent) - 53) (-1074))

/-- The mantissa of the dividend at that exponent. -/
def dividend (x y : Binary64) : Nat :=
  x.mantissa * 2 ^ (x.exponent - y.exponent - divisionExponent x y).toNat

theorem divCore_eq (x y : Binary64) :
    UnpackedFloat.divCore .binary64 x.mantissa x.exponent y.mantissa y.exponent =
      (dividend x y / y.mantissa, divisionExponent x y,
        UnpackedFloat.accuracyOfFraction (dividend x y % y.mantissa) y.mantissa) := by
  have hbits : Float.Model.Format.binary64.mantissaBits = 53 := rfl
  have hleast : Float.Model.Format.binary64.minExponent = -1074 := by decide
  have hexponent : min (x.exponent - y.exponent) (Float.Model.Format.targetExponent .binary64
      (Float.Model.totalExponent x.mantissa x.exponent - Float.Model.totalExponent y.mantissa y.exponent)) =
      divisionExponent x y := by
    rw [Float.Model.Format.targetExponent, Float.Model.totalExponent, Float.Model.totalExponent, hbits, hleast,
      divisionExponent]
    omega
  rw [UnpackedFloat.divCore, hexponent, Nat.shiftLeft_eq, dividend]

/-- The whole part of a quotient has enough bits or the least exponent. -/
theorem le_target_div (hx : 0 < x.mantissa) (hy : 0 < y.mantissa) :
    divisionExponent x y ≤ target (dividend x y / y.mantissa) (divisionExponent x y) := by
  rw [target]
  by_cases hleast : divisionExponent x y ≤ -1074
  · exact hleast.trans (le_max_right _ _)
  have hshift : (y.mantissa.log2 + 53 : Int) ≤
      x.mantissa.log2 + (x.exponent - y.exponent - divisionExponent x y).toNat := by
    rw [divisionExponent] at hleast ⊢
    omega
  have hquotient : 2 ^ 52 ≤ dividend x y / y.mantissa := by
    rw [Nat.le_div_iff_mul_le hy, dividend]
    calc 2 ^ 52 * y.mantissa ≤ 2 ^ 52 * 2 ^ (y.mantissa.log2 + 1) :=
          Nat.mul_le_mul_left _ Nat.lt_log2_self.le
      _ = 2 ^ (y.mantissa.log2 + 53) := by rw [← pow_add]; congr 1; omega
      _ ≤ 2 ^ (x.mantissa.log2 + (x.exponent - y.exponent - divisionExponent x y).toNat) :=
          Nat.pow_le_pow_right two_pos (by omega)
      _ = 2 ^ x.mantissa.log2 * 2 ^ (x.exponent - y.exponent - divisionExponent x y).toNat := pow_add _ _ _
      _ ≤ x.mantissa * 2 ^ (x.exponent - y.exponent - divisionExponent x y).toNat :=
          Nat.mul_le_mul_right _ (Nat.log2_self_le hx.ne')
  have hlog : 52 ≤ (dividend x y / y.mantissa).log2 := (Nat.le_log2 (by omega)).mpr hquotient
  omega

theorem packed_div (hx : x.isFinite = true) (hy : y.isFinite = true) (hy0 : y.magnitude ≠ 0) :
    packed (.div .binary64 x.unpacked y.unpacked) =
      ofRatio (x.isNegative != y.isNegative) x.units y.units := by
  by_cases hx0 : x.magnitude = 0
  · rw [units_of_zero hx0, ofRatio_zero, unpacked_zero hx0, unpacked_finite hy hy0, ← packed_zero, ← sign_div]
    rfl
  have hmx := (mantissa_bounds hx0).1
  have hmy := (mantissa_bounds hy0).1
  have hex := le_exponent x
  have hey := le_exponent y
  have hpos : 0 < dividend x y := Nat.mul_pos hmx (by positivity)
  have hyunits : 0 < y.units := Nat.pos_of_ne_zero fun h => hy0 (units_eq_zero.mp h)
  rw [unpacked_finite hx hx0, unpacked_finite hy hy0, UnpackedFloat.div, divCore_eq, sign_div]
  dsimp only
  rw [packed_roundWithAccuracy hpos hmy (tells_fraction _ hmy) (le_target_div hmx hmy)]
  refine ofRatio_congr _ (by positivity) hyunits ?_
  have hle : divisionExponent x y ≤ x.exponent - y.exponent := min_le_left _ _
  have hpow : x.mantissa * y.mantissa *
        2 ^ ((x.exponent - y.exponent - divisionExponent x y).toNat + (divisionExponent x y).toNat) *
        2 ^ (y.exponent + 1074).toNat =
      x.mantissa * y.mantissa * 2 ^ (x.exponent + 1074).toNat * 2 ^ (-divisionExponent x y).toNat :=
    mul_pow_congr _ (by omega)
  rw [dividend, units, units]
  calc x.mantissa * 2 ^ (x.exponent - y.exponent - divisionExponent x y).toNat * 2 ^ (divisionExponent x y).toNat *
        (y.mantissa * 2 ^ (y.exponent + 1074).toNat)
      = x.mantissa * y.mantissa *
        2 ^ ((x.exponent - y.exponent - divisionExponent x y).toNat + (divisionExponent x y).toNat) *
        2 ^ (y.exponent + 1074).toNat := by rw [pow_add]; ac_rfl
    _ = x.mantissa * y.mantissa * 2 ^ (x.exponent + 1074).toNat * 2 ^ (-divisionExponent x y).toNat := hpow
    _ = x.mantissa * 2 ^ (x.exponent + 1074).toNat * (y.mantissa * 2 ^ (-divisionExponent x y).toNat) := by ac_rfl

/-- **Quotients are rounded exactly once.** -/
theorem div_eq (hx : x.isFinite = true) (hy : y.isFinite = true) (hy0 : y.magnitude ≠ 0) :
    x / y = ofRatio (x.isNegative != y.isNegative) x.units y.units :=
  apply_eq (fun _ _ => rfl) hx hy (packed_div hx hy hy0)

/-! ### Sums of numbers that are not negative -/

/-- A mantissa that is moved to its target first is rounded as it is. -/
theorem packed_round {m : Nat} (hm : 0 < m) (e : Int) (negative : Bool) :
    packed (.round .binary64 (sign negative) m e) = ofRatio negative (m * 2 ^ e.toNat) (2 ^ (-e).toNat) := by
  set k := (e - target m e).toNat with hk
  have hlog : (m * 2 ^ k).log2 = m.log2 + k := by
    rw [Nat.log2_eq_iff (by positivity), add_right_comm, pow_add, pow_add _ (m.log2 + 1)]
    exact ⟨Nat.mul_le_mul_right _ (Nat.log2_self_le hm.ne'),
      Nat.mul_lt_mul_of_pos_right Nat.lt_log2_self (by positivity)⟩
  have hround : UnpackedFloat.round .binary64 (sign negative) m e =
      .roundWithAccuracy .binary64 (sign negative) (m * 2 ^ k) (e - k) .exact := by
    rw [UnpackedFloat.round, UnpackedFloat.decreaseExponent, targetExponent_eq, ← hk, Nat.shiftLeft_eq]
  have htarget : target (m * 2 ^ k) (e - k) = target m e := by
    rw [target, target, hlog]
    congr 1
    push_cast
    ring
  rw [hround, packed_roundWithAccuracy (by positivity) one_pos (tells_exact _) (by rw [htarget]; omega)]
  refine ofRatio_congr _ (by positivity) (by positivity) ?_
  have hpow : m * 2 ^ (k + (e - k).toNat) * 2 ^ (-e).toNat = m * 2 ^ e.toNat * 2 ^ (-(e - k)).toNat :=
    mul_pow_congr _ (by omega)
  rw [one_mul, ← hpow, pow_add, ← mul_assoc]

theorem packed_add (hx : x.isFinite = true) (hy : y.isFinite = true) (hnx : x.isNegative = false)
    (hny : y.isNegative = false) :
    packed (.add .binary64 x.unpacked y.unpacked) = ofRatio false (x.units + y.units) unitsOfOne := by
  by_cases hx0 : x.magnitude = 0
  · have hsum : packed (.add .binary64 x.unpacked y.unpacked) = packed y.unpacked := by
      by_cases hy0 : y.magnitude = 0
      · rw [unpacked_zero hx0, unpacked_zero hy0, hnx, hny]
        rfl
      · rw [unpacked_zero hx0, unpacked_finite hy hy0]
        rfl
    rw [hsum, packed_unpacked hy, units_of_zero hx0, Nat.zero_add, ofRatio_units false hy, ← hny,
      ofMagnitude_magnitude]
  by_cases hy0 : y.magnitude = 0
  · have hsum : packed (.add .binary64 x.unpacked y.unpacked) = packed x.unpacked := by
      rw [unpacked_zero hy0, unpacked_finite hx hx0]
      rfl
    rw [hsum, packed_unpacked hx, units_of_zero hy0, Nat.add_zero, ofRatio_units false hx, ← hnx,
      ofMagnitude_magnitude]
  have hmx := (mantissa_bounds hx0).1
  have hex := le_exponent x
  have hey := le_exponent y
  set e := min x.exponent y.exponent with he
  set m := x.mantissa * 2 ^ (x.exponent - e).toNat + y.mantissa * 2 ^ (y.exponent - e).toNat with hm
  have hpos : 0 < m := by positivity
  have hsum : UnpackedFloat.add .binary64 x.unpacked y.unpacked = .round .binary64 (sign false) m e := by
    have hnormal : UnpackedFloat.normalize .binary64 (m : Int) e .positive = .round .binary64 (sign false) m e := by
      rw [UnpackedFloat.normalize, Int.compare_eq_gt.mpr (by exact_mod_cast hpos)]
      rfl
    rw [unpacked_finite hx hx0, unpacked_finite hy hy0, hnx, hny, UnpackedFloat.add, ← hnormal, hm,
      UnpackedFloat.decreaseExponent, UnpackedFloat.decreaseExponent, Nat.shiftLeft_eq, Nat.shiftLeft_eq, Nat.cast_add]
    rfl
  rw [hsum, packed_round hpos]
  refine ofRatio_congr _ (by positivity) unitsOfOne_pos ?_
  have hpowx : x.mantissa * 2 ^ ((x.exponent - e).toNat + e.toNat) * 2 ^ 1074 =
      x.mantissa * 2 ^ (x.exponent + 1074).toNat * 2 ^ (-e).toNat := mul_pow_congr _ (by omega)
  have hpowy : y.mantissa * 2 ^ ((y.exponent - e).toNat + e.toNat) * 2 ^ 1074 =
      y.mantissa * 2 ^ (y.exponent + 1074).toNat * 2 ^ (-e).toNat := mul_pow_congr _ (by omega)
  have hsplit : (x.units + y.units) * 2 ^ (-e).toNat =
      x.mantissa * 2 ^ (x.exponent + 1074).toNat * 2 ^ (-e).toNat +
        y.mantissa * 2 ^ (y.exponent + 1074).toNat * 2 ^ (-e).toNat := Nat.add_mul _ _ _
  rw [hsplit, ← hpowx, ← hpowy, unitsOfOne, hm, pow_add, pow_add, ← mul_assoc, ← mul_assoc, ← Nat.add_mul,
    ← Nat.add_mul]

/-- **Sums of numbers that are not negative are rounded exactly once.** -/
theorem add_eq (hx : x.isFinite = true) (hy : y.isFinite = true) (hnx : x.isNegative = false)
    (hny : y.isNegative = false) : x + y = ofRatio false (x.units + y.units) unitsOfOne :=
  apply_eq (fun _ _ => rfl) hx hy (packed_add hx hy hnx hny)

end Binary64
end SelectLang
