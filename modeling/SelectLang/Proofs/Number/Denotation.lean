/-
# The numbers that floats stand for

A float that is defined stands for a number, `± mantissa · 2 ^ exponent` or an infinity (`Binary64.number?`). All
of these are counted in the least unit `2 ^ -1074`, the infinities as one step beyond the largest finite number
(`Binary64.units`): the bits without the sign grow with the units, so floats are sorted by their signed units,
and two zeros by their sign (`compare_rank`).

An integer that is rounded stays on its side of every float: it is rounded to no smaller a float than those
below it and to no larger a one than those above it.

Key definitions: `Binary64.number?`, `Binary64.units`, `Binary64.signedUnits`.
Key theorems: `compare_rank`, `compare_ofUnits`, `eq_ofUnits_of_number?`, `signedUnits_ofInt`,
`signedUnits_ofInt_of_lt`.
-/
import Mathlib
import SelectLang.Proofs.Number.Integers

namespace SelectLang
namespace Binary64

/-- The number that a float stands for, if it is defined. -/
noncomputable def number? (x : Binary64) : Option EReal :=
  if x.isNaN then none
  else if x.isFinite then
    some (((if x.isNegative then -1 else 1) * x.mantissa * 2 ^ x.exponent : ℝ) : EReal)
  else some (if x.isNegative then ⊥ else ⊤)

/-! ### Units -/

/-- How many times the least number, `2 ^ -1074`, is in the size of a finite one. -/
def units (x : Binary64) : Nat := x.mantissa * 2 ^ (x.exponent + 1074).toNat

/-- How many times the least number is in one. -/
def unitsOfOne : Nat := 2 ^ 1074

/-- How many times the least number is in a finite one. -/
def signedUnits (x : Binary64) : Int := if x.isNegative then -(x.units : Int) else x.units

theorem units_of_zero {x : Binary64} (h : x.magnitude = 0) : x.units = 0 := by
  rw [units, mantissa, h, if_pos (by decide), Nat.zero_mul]

theorem le_exponent (x : Binary64) : -1074 ≤ x.exponent := by
  by_cases h : x.magnitude = 0
  · rw [exponent, h, if_pos (by decide)]
  · exact (mantissa_bounds h).2.2.1

/-- More bits are more units: where the exponents are equal the mantissa is larger, and otherwise the unit of
the larger number is at least twice as large. -/
theorem units_lt_units {x y : Binary64} (h : x.magnitude < y.magnitude) : x.units < y.units := by
  obtain ⟨hpos, hbound, -, hnorm, hmagnitude⟩ := mantissa_bounds (show y.magnitude ≠ 0 by omega)
  rcases Nat.eq_zero_or_pos x.magnitude with h0 | h0
  · rw [units_of_zero h0]
    exact Nat.mul_pos hpos (by positivity)
  obtain ⟨-, hlt, -, hnorm', hmagnitude'⟩ := mantissa_bounds h0.ne'
  rw [units, units]
  set j := (x.exponent + 1074).toNat with hj
  set k := (y.exponent + 1074).toNat with hk
  rcases Nat.lt_trichotomy j k with hjk | hjk | hjk
  · calc x.mantissa * 2 ^ j < 2 ^ 53 * 2 ^ j := Nat.mul_lt_mul_of_pos_right hlt (by positivity)
      _ = 2 ^ 52 * 2 ^ (j + 1) := by ring
      _ ≤ 2 ^ 52 * 2 ^ k := Nat.mul_le_mul_left _ (Nat.pow_le_pow_right (by decide) hjk)
      _ ≤ y.mantissa * 2 ^ k := Nat.mul_le_mul_right _ (by omega)
  · rw [hjk]
    exact Nat.mul_lt_mul_of_pos_right (by omega) (by positivity)
  · omega

theorem units_le_units {x y : Binary64} (h : x.magnitude ≤ y.magnitude) : x.units ≤ y.units := by
  rcases h.lt_or_eq with hlt | heq
  · exact (units_lt_units hlt).le
  · rw [units, units, mantissa, mantissa, exponent, exponent, heq]

theorem units_eq_zero {x : Binary64} : x.units = 0 ↔ x.magnitude = 0 := by
  constructor
  · intro h
    by_contra h0
    exact (Nat.mul_pos (mantissa_bounds h0).1 (by positivity)).ne' h
  · exact units_of_zero

theorem rank_lt_rank {x y : Binary64} (h : x.signedUnits < y.signedUnits) : x.rank < y.rank := by
  have hle := @units_le_units x y
  have hge := @units_le_units y x
  have hx := @units_eq_zero x
  have hy := @units_eq_zero y
  rw [signedUnits, signedUnits] at h
  rw [rank, rank]
  split_ifs at h ⊢ <;> omega

/-- **How floats are sorted**: by their signed units, and zeros by their signs. -/
theorem compare_rank (x y : Binary64) : compare x.rank y.rank =
    (compare x.signedUnits y.signedUnits).then (compare y.isNegative x.isNegative) := by
  rcases lt_trichotomy x.signedUnits y.signedUnits with h | h | h
  · rw [Int.compare_eq_lt.mpr h, Int.compare_eq_lt.mpr (rank_lt_rank h)]
    rfl
  · have hlt := @units_lt_units x y
    have hgt := @units_lt_units y x
    have hx := @units_eq_zero x
    have hy := @units_eq_zero y
    rw [Int.compare_eq_eq.mpr h, Ordering.eq_then]
    rw [signedUnits, signedUnits] at h
    rw [rank, rank]
    cases x.isNegative <;> cases y.isNegative <;>
      simp only [Bool.false_eq_true, ↓reduceIte] at h ⊢
    · exact Int.compare_eq_eq.mpr (by omega)
    · exact Int.compare_eq_gt.mpr (by omega)
    · exact Int.compare_eq_lt.mpr (by omega)
    · exact Int.compare_eq_eq.mpr (by omega)
  · rw [Int.compare_eq_gt.mpr h, Int.compare_eq_gt.mpr (rank_lt_rank h)]
    rfl

/-! ### Numbers -/

/-- The units of the infinities, which no finite number has. -/
def infiniteUnits : Nat := infinity.units

/-- The number of so many least units. -/
noncomputable def ofUnits (k : Int) : EReal :=
  if (infiniteUnits : Int) ≤ k then ⊤
  else if k ≤ -(infiniteUnits : Int) then ⊥
  else ((k * 2 ^ (-1074 : Int) : ℝ) : EReal)

theorem ofUnits_of_lt {k : Int} (hlow : -(infiniteUnits : Int) < k) (hhigh : k < infiniteUnits) :
    ofUnits k = ((k * 2 ^ (-1074 : Int) : ℝ) : EReal) := by
  rw [ofUnits, if_neg hhigh.not_ge, if_neg hlow.not_ge]

theorem infiniteUnits_pos : 0 < infiniteUnits := by
  rw [infiniteUnits, Nat.pos_iff_ne_zero, ne_eq, units_eq_zero]
  decide

/-- More units are a larger number, from one infinity to the other. -/
theorem ofUnits_strictMonoOn :
    StrictMonoOn ofUnits (Set.Icc (-(infiniteUnits : Int)) (infiniteUnits : Int)) := by
  intro j hj k hk hjk
  have hpos := infiniteUnits_pos
  have hj' : ¬ (infiniteUnits : Int) ≤ j := fun h => absurd hk.2 (by omega)
  have hk' : ¬ k ≤ -(infiniteUnits : Int) := fun h => absurd hj.1 (by omega)
  rw [ofUnits, ofUnits, if_neg hj', if_neg hk']
  split_ifs
  · exact bot_lt_top
  · exact EReal.bot_lt_coe _
  · exact EReal.coe_lt_top _
  · have hreal : (j : ℝ) < k := by exact_mod_cast hjk
    exact EReal.coe_lt_coe_iff.mpr (mul_lt_mul_of_pos_right hreal (by positivity))

theorem compare_ofUnits {j k : Int} (hj : j.natAbs ≤ infiniteUnits) (hk : k.natAbs ≤ infiniteUnits) :
    compare (ofUnits j) (ofUnits k) = compare j k := by
  have h := ofUnits_strictMonoOn.cmp_map_eq (x := j) (y := k) ⟨by omega, by omega⟩ ⟨by omega, by omega⟩
  rwa [cmp_eq_compare, cmp_eq_compare] at h

theorem magnitude_infinity : infinity.magnitude = infinityMagnitude := by decide

theorem natAbs_signedUnits (x : Binary64) : x.signedUnits.natAbs = x.units := by
  rw [signedUnits]
  split <;> simp

theorem number?_of_isFinite {x : Binary64} (h : x.isFinite = true) : x.number? =
    some (((if x.isNegative then -1 else 1) * x.mantissa * 2 ^ x.exponent : ℝ) : EReal) := by
  have hnan : ¬ x.isNaN = true := by
    simp only [isFinite, isNaN, decide_eq_true_eq] at h ⊢
    omega
  rw [number?, if_neg hnan, if_pos h]

theorem isNaN_of_number? {x : Binary64} {u : EReal} (h : x.number? = some u) : ¬ x.isNaN = true := by
  intro hnan
  rw [number?, if_pos hnan] at h
  cases h

theorem magnitude_le_of_number? {x : Binary64} {u : EReal} (h : x.number? = some u) :
    x.magnitude ≤ infinityMagnitude := by
  simpa [isNaN] using isNaN_of_number? h

theorem units_le_of_number? {x : Binary64} {u : EReal} (h : x.number? = some u) :
    x.signedUnits.natAbs ≤ infiniteUnits := by
  rw [natAbs_signedUnits]
  exact units_le_units ((magnitude_le_of_number? h).trans_eq magnitude_infinity.symm)

theorem units_eq (x : Binary64) : (x.units : ℝ) * 2 ^ (-1074 : Int) = x.mantissa * 2 ^ x.exponent := by
  have hexponent : (((x.exponent + 1074).toNat : Nat) : Int) = x.exponent + 1074 :=
    Int.toNat_of_nonneg (by linarith [le_exponent x])
  rw [units, Nat.cast_mul, Nat.cast_pow, Nat.cast_ofNat, ← zpow_natCast, hexponent, mul_assoc,
    ← zpow_add₀ two_ne_zero, add_neg_cancel_right]

/-- A float that is defined stands for the number of its units. -/
theorem eq_ofUnits_of_number? {x : Binary64} {u : EReal} (h : x.number? = some u) :
    u = ofUnits x.signedUnits := by
  have hle := magnitude_le_of_number? h
  have habs := natAbs_signedUnits x
  rw [number?, if_neg (isNaN_of_number? h)] at h
  by_cases hfinite : x.isFinite = true
  · rw [if_pos hfinite] at h
    have hlt : x.units < infiniteUnits := by
      refine units_lt_units ?_
      rw [magnitude_infinity]
      simpa [isFinite] using hfinite
    have hsigned : (x.signedUnits : ℝ) = (if x.isNegative then -1 else 1) * x.units := by
      rw [signedUnits]
      split_ifs <;> simp
    rw [ofUnits_of_lt (by omega) (by omega), hsigned, mul_assoc, units_eq, ← mul_assoc]
    exact (Option.some.inj h).symm
  · rw [if_neg hfinite] at h
    have heq : x.units = infiniteUnits := by
      have hge : infinityMagnitude ≤ x.magnitude := by simpa [isFinite] using hfinite
      rw [← magnitude_infinity] at hle hge
      exact (units_le_units hle).antisymm (units_le_units hge)
    have hpos := infiniteUnits_pos
    rw [← Option.some.inj h, ofUnits, signedUnits, heq]
    split_ifs <;> first | rfl | omega

/-! ### Integers -/

theorem unitsOfOne_pos : 0 < unitsOfOne := by
  rw [unitsOfOne]
  positivity

theorem ratio_pos (x : Binary64) : 0 < x.ratio.2 := by
  rw [ratio]
  split_ifs
  · exact one_pos
  · exact Nat.two_pow_pos _

/-- The units of a number are its quotient, counted in the least unit. -/
theorem units_mul_ratio (x : Binary64) : x.units * x.ratio.2 = x.ratio.1 * unitsOfOne := by
  have hle := le_exponent x
  rw [units, ratio, unitsOfOne]
  by_cases he : 0 ≤ x.exponent
  · rw [if_pos he, mul_one, Nat.pow_eq, mul_assoc, ← pow_add]
    congr 2
    omega
  · rw [if_neg he, Nat.pow_eq, mul_assoc, ← pow_add]
    congr 2
    omega

/-- A finite number is the one nearest to its units. -/
theorem ofRatio_units (negative : Bool) {x : Binary64} (hx : x.isFinite = true) :
    ofRatio negative x.units unitsOfOne = ofMagnitude negative x.magnitude := by
  rw [← ofRatio_ratio negative hx]
  exact ofRatio_congr negative unitsOfOne_pos (ratio_pos x) (units_mul_ratio x)

theorem magnitude_ofRatio_units (negative : Bool) {x : Binary64} (hx : x.isFinite = true) :
    (ofRatio negative x.units unitsOfOne).magnitude = x.magnitude := by
  have hfinite : x.magnitude < infinityMagnitude := by simpa [isFinite] using hx
  have hsmall : infinityMagnitude < 2 ^ 63 := by decide
  rw [ofRatio_units negative hx]
  exact magnitude_ofMagnitude negative (hfinite.trans hsmall)

theorem magnitude_ofRatio_le_infinity (negative : Bool) (num den : Nat) :
    (ofRatio negative num den).magnitude ≤ infinityMagnitude := by
  by_cases hn : num = 0
  · rw [hn, magnitude_ofRatio_zero]
    exact Nat.zero_le _
  · rw [magnitude_ofRatio _ hn]
    exact min_le_right _ _

theorem isNaN_ofRatio (negative : Bool) (num den : Nat) : ¬ (ofRatio negative num den).isNaN = true := by
  rw [isNaN, decide_eq_true_eq]
  exact (magnitude_ofRatio_le_infinity negative num den).not_gt

/-- A quotient of naturals, with its denominator in units. -/
theorem ofRatio_mul_units (negative : Bool) (num : Nat) {den : Nat} (hden : 0 < den) :
    ofRatio negative (num * unitsOfOne) (unitsOfOne * den) = ofRatio negative num den := by
  rw [Nat.mul_comm unitsOfOne den]
  exact ofRatio_mul negative num hden unitsOfOne_pos

/-- A number up to a quotient is up to what the quotient is rounded to. -/
theorem le_magnitude_ofRatio (negative : Bool) {x : Binary64} (hx : x.isFinite = true) {num den : Nat} (hden : 0 < den)
    (h : x.units * den ≤ num * unitsOfOne) : x.magnitude ≤ (ofRatio negative num den).magnitude := by
  have hmono := magnitude_ofRatio_mono negative (Nat.mul_pos unitsOfOne_pos hden) h
  rwa [ofRatio_mul negative x.units unitsOfOne_pos hden, magnitude_ofRatio_units negative hx,
    ofRatio_mul_units negative num hden] at hmono

/-- A number from a quotient on is from what the quotient is rounded to on. -/
theorem magnitude_ofRatio_le (negative : Bool) {x : Binary64} (hx : x.magnitude ≤ infinityMagnitude) {num den : Nat}
    (hden : 0 < den) (h : num * unitsOfOne ≤ x.units * den) :
    (ofRatio negative num den).magnitude ≤ x.magnitude := by
  rcases hx.lt_or_eq with hlt | heq
  · have hfinite : x.isFinite = true := by simpa [isFinite] using hlt
    have hmono := magnitude_ofRatio_mono negative (Nat.mul_pos unitsOfOne_pos hden) h
    rwa [ofRatio_mul negative x.units unitsOfOne_pos hden, magnitude_ofRatio_units negative hfinite,
      ofRatio_mul_units negative num hden] at hmono
  · rw [heq]
    exact magnitude_ofRatio_le_infinity negative num den

theorem magnitude_ofInt_le {n : Int} {x : Binary64} (hx : x.magnitude ≤ infinityMagnitude)
    (h : n.natAbs * unitsOfOne ≤ x.units) : (ofInt n).magnitude ≤ x.magnitude :=
  magnitude_ofRatio_le _ hx one_pos (h.trans_eq (mul_one _).symm)

theorem le_magnitude_ofInt {n : Int} {x : Binary64} (hx : x.isFinite = true)
    (h : x.units ≤ n.natAbs * unitsOfOne) : x.magnitude ≤ (ofInt n).magnitude :=
  le_magnitude_ofRatio _ hx one_pos ((mul_one _).trans_le h)

/-- No word is as large as the infinities. -/
theorem word_lt_infiniteUnits {n : Int} (hn : n.natAbs ≤ 2 ^ 63) :
    n.natAbs * unitsOfOne < infiniteUnits := by
  have hinfinite : 2 ^ 63 * unitsOfOne < infiniteUnits := by decide +kernel
  exact (Nat.mul_le_mul_right _ hn).trans_lt hinfinite

theorem signed_natAbs (n : Int) (c : Nat) :
    n * c = if n < 0 then -((n.natAbs * c : Nat) : Int) else (n.natAbs * c : Nat) := by
  rcases lt_or_ge n 0 with hn | hn
  · rw [if_pos hn, Nat.cast_mul, ← neg_mul, ← Int.eq_neg_natAbs_of_nonpos hn.le]
  · rw [if_neg hn.not_gt, Nat.cast_mul, Int.natAbs_of_nonneg hn]

/-- A rounded integer stays on its side of every number. -/
theorem signedUnits_ofInt {n : Int} {x : Binary64} (hn : n.natAbs ≤ 2 ^ 63)
    (hx : x.magnitude ≤ infinityMagnitude) :
    (n * unitsOfOne ≤ x.signedUnits → (ofInt n).signedUnits ≤ x.signedUnits) ∧
      (x.signedUnits ≤ n * unitsOfOne → x.signedUnits ≤ (ofInt n).signedUnits) := by
  have hsign : (ofInt n).isNegative = decide (n < 0) := isNegative_ofRatio _ _ _
  have hup : n.natAbs * unitsOfOne ≤ x.units → (ofInt n).units ≤ x.units :=
    fun h => units_le_units (magnitude_ofInt_le hx h)
  have hdown : x.units ≤ n.natAbs * unitsOfOne → x.units ≤ (ofInt n).units := fun h => by
    refine units_le_units (le_magnitude_ofInt ?_ h)
    rw [isFinite, decide_eq_true_eq, ← magnitude_infinity]
    by_contra hge
    exact absurd (units_le_units (not_lt.mp hge)) (h.trans_lt (word_lt_infiniteUnits hn)).not_ge
  rw [signed_natAbs, signedUnits, signedUnits, hsign]
  generalize n.natAbs * unitsOfOne = k at *
  by_cases hneg : n < 0 <;> cases x.isNegative <;>
    simp only [hneg, decide_true, decide_false, Bool.false_eq_true, ↓reduceIte] <;> omega

/-! ### Integers that are not rounded -/

theorem units_of_magnitude {x : Binary64} {k m : Nat} (h : x.magnitude = k * 2 ^ 52 + m)
    (hlow : 2 ^ 52 ≤ m) (hhigh : m < 2 ^ 53) : x.units = m * 2 ^ k := by
  obtain ⟨-, hbound, hle, hnorm, hmagnitude⟩ := mantissa_bounds (show x.magnitude ≠ 0 by omega)
  rw [units, show x.mantissa = m by omega, show (x.exponent + 1074).toNat = k by omega]

/-- Integers below `2 ^ 53` in size have room in the mantissa. -/
theorem units_ofInt {n : Int} (hn : n.natAbs < 2 ^ 53) : (ofInt n).units = n.natAbs * unitsOfOne := by
  rcases Nat.eq_zero_or_pos n.natAbs with h0 | hpos
  · rw [h0, Nat.zero_mul, units_eq_zero, ofInt, h0, magnitude_ofRatio_zero]
  have hlog : n.natAbs.log2 < 53 := Nat.log2_lt hpos.ne' |>.mpr hn
  have hexponent := roundingExponent_one hpos
  have hunits := unitsAt_one (e := roundingExponent n.natAbs 1) (by omega) n.natAbs
  rw [show (-roundingExponent n.natAbs 1).toNat = 52 - n.natAbs.log2 by omega] at hunits
  have hlow := (unitsAt_bounds hpos one_pos).2 (by omega)
  have hhigh : n.natAbs * 2 ^ (52 - n.natAbs.log2) < 2 ^ 53 := by
    calc n.natAbs * 2 ^ (52 - n.natAbs.log2) < 2 ^ (n.natAbs.log2 + 1) * 2 ^ (52 - n.natAbs.log2) :=
          Nat.mul_lt_mul_of_pos_right Nat.lt_log2_self (by positivity)
      _ = 2 ^ 53 := by rw [← pow_add]; congr 1; omega
  have hmagnitude : (ofInt n).magnitude =
      (n.natAbs.log2 + 1022) * 2 ^ 52 + n.natAbs * 2 ^ (52 - n.natAbs.log2) := by
    have hinfinite : infinityMagnitude = 2047 * 2 ^ 52 := rfl
    rw [ofInt, magnitude_ofRatio _ hpos.ne', hunits, min_eq_left (by omega)]
    congr 2
    omega
  have hexponents : 52 - n.natAbs.log2 + (n.natAbs.log2 + 1022) = 1074 := by omega
  rw [units_of_magnitude hmagnitude (hunits ▸ hlow) hhigh, mul_assoc, ← pow_add, hexponents, unitsOfOne]

theorem signedUnits_ofInt_of_lt {n : Int} (hn : n.natAbs < 2 ^ 53) :
    (ofInt n).signedUnits = n * unitsOfOne := by
  have hsign : (ofInt n).isNegative = decide (n < 0) := isNegative_ofRatio _ _ _
  rw [signed_natAbs, signedUnits, hsign, units_ofInt hn]
  simp only [decide_eq_true_eq]

end Binary64
end SelectLang
