/-
# Where numbers are compared as what they are

An integer is exact, and a float stands for one number (`Value.number?`). The order of values compares two numbers
as the numbers that they stand for, except in two cases: an integer is level with the float that it is rounded to,
also if that is another number (`Value.Conflated`), and the negative zero comes before the other zeros
(`Value.ZerosApart`). Below `2 ^ 53` in size no integer is rounded.

Key definitions: `Value.number?`, `Value.Conflated`, `Value.ZerosApart`.
Key theorems: `Value.compare_numbers`, `Value.order_eq_compare`, `Value.order_numeric_iff`.
-/
import Mathlib
import SelectLang.Proofs.Number.Denotation
import SelectLang.Proofs.Value.Failures
import SelectLang.Proofs.Value.Transitivity

namespace SelectLang
namespace Value

/-- The number that a value stands for, if it is one. -/
noncomputable def number? : Value → Option EReal
  | integer n => some ((n.toInt : ℝ) : EReal)
  | float x => x.number?
  | _ => none

/-- An integer and the float that it is rounded to, which is another number. -/
inductive Conflated : Value → Value → Prop where
  | integer_float {n : Int64} {x : Binary64} (hround : .ofInt n.toInt = x)
      (hne : x.number? ≠ (integer n).number?) : Conflated (integer n) (float x)
  | float_integer {n : Int64} {x : Binary64} (hround : .ofInt n.toInt = x)
      (hne : x.number? ≠ (integer n).number?) : Conflated (float x) (integer n)

/-- The float zero with its sign set. -/
def negativeZero : Value := float (.ofMagnitude true 0)

/-- Two zeros, one of which is the negative one. -/
def ZerosApart (a b : Value) : Prop := a.IsZero ∧ b.IsZero ∧ Xor (a = negativeZero) (b = negativeZero)

theorem Conflated.symm {a b : Value} (h : Conflated a b) : Conflated b a := by
  cases h with
  | integer_float hround hne => exact .float_integer hround hne
  | float_integer hround hne => exact .integer_float hround hne

theorem ZerosApart.symm {a b : Value} (h : ZerosApart a b) : ZerosApart b a :=
  ⟨h.2.1, h.1, Or.symm h.2.2⟩

/-! ### Units -/

/-- How many times the least number is in the one that the value stands for, with its sign. -/
def units : Value → Int
  | integer n => n.toInt * Binary64.unitsOfOne
  | float x => x.signedUnits
  | _ => 0

theorem natAbs_toInt_le (n : Int64) : n.toInt.natAbs ≤ 2 ^ 63 := by
  have hlow := n.le_toInt
  have hhigh := n.toInt_lt
  omega

open Binary64 in
theorem units_spec {a : Value} {u : EReal} (h : a.number? = some u) :
    u = ofUnits a.units ∧ a.units.natAbs ≤ infiniteUnits := by
  cases a with
  | integer n =>
    have hlt := word_lt_infiniteUnits (natAbs_toInt_le n)
    have habs : (n.toInt * unitsOfOne).natAbs = n.toInt.natAbs * unitsOfOne := by
      rw [Int.natAbs_mul, Int.natAbs_natCast]
    have hone : (unitsOfOne : ℝ) * 2 ^ (-1074 : Int) = 1 := by
      rw [unitsOfOne, Nat.cast_pow, Nat.cast_ofNat, ← zpow_natCast, ← zpow_add₀ two_ne_zero]
      rfl
    refine ⟨?_, by rw [units, habs]; exact hlt.le⟩
    rw [units, ofUnits_of_lt (by omega) (by omega), Int.cast_mul, Int.cast_natCast, mul_assoc, hone, mul_one]
    exact (Option.some.inj h).symm
  | float x => exact ⟨eq_ofUnits_of_number? h, units_le_of_number? h⟩
  | _ => cases h

/-- Numbers are compared as their units are. -/
theorem compare_numbers {a b : Value} {u v : EReal} (ha : a.number? = some u) (hb : b.number? = some v) :
    compare u v = compare a.units b.units := by
  obtain ⟨hu, hale⟩ := units_spec ha
  obtain ⟨hv, hble⟩ := units_spec hb
  rw [hu, hv]
  exact Binary64.compare_ofUnits hale hble

theorem number_eq_iff {a b : Value} {u v : EReal} (ha : a.number? = some u) (hb : b.number? = some v) :
    u = v ↔ a.units = b.units := by
  rw [← compare_eq_iff_eq, compare_numbers ha hb, Int.compare_eq_eq]

/-! ### Zeros -/

/-- Floats with the same units have the same sign, or are zeros. -/
theorem isNegative_of_signedUnits {x y : Binary64} (h : x.signedUnits = y.signedUnits) :
    x.isNegative = y.isNegative ∨ (x.isZero = true ∧ y.isZero = true) := by
  rw [Binary64.isZero, Binary64.isZero, beq_iff_eq, beq_iff_eq, ← Binary64.units_eq_zero,
    ← Binary64.units_eq_zero]
  rw [Binary64.signedUnits, Binary64.signedUnits] at h
  cases hx : x.isNegative <;> cases hy : y.isNegative <;>
    simp only [hx, hy, Bool.false_eq_true, ↓reduceIte] at h
  · exact Or.inl rfl
  · exact Or.inr (by omega)
  · exact Or.inr (by omega)
  · exact Or.inl rfl

theorem eq_negativeZero_iff {x : Binary64} (h : x.isZero = true) :
    float x = negativeZero ↔ x.isNegative = true := by
  rw [negativeZero, float.injEq]
  rcases (Binary64.isZero_iff x).mp h with rfl | rfl <;> decide

theorem number?_of_isZero {a : Value} (h : a.IsZero) : a.number? = some 0 := by
  have hfloat : ∀ negative, (Binary64.ofMagnitude negative 0).number? = some 0 := fun negative => by
    have hmantissa : (Binary64.ofMagnitude negative 0).mantissa = 0 := by cases negative <;> decide
    rw [Binary64.number?_of_isFinite (by cases negative <;> decide), hmantissa]
    simp
  rcases h with rfl | rfl | rfl
  · simp [number?]
  · exact hfloat false
  · exact hfloat true

theorem order_ne_eq_of_zerosApart {a b : Value} (h : ZerosApart a b) : a.order b ≠ .eq := by
  obtain ⟨ha, hb, hzero⟩ := h
  have hsign : Binary64.ofMagnitude false 0 ≠ .ofMagnitude true 0 := by decide
  rcases ha with rfl | rfl | rfl <;> rcases hb with rfl | rfl | rfl <;>
    simp [Xor, negativeZero, hsign] at hzero <;> decide

theorem isNegative_of_not_zerosApart {x y : Binary64} (hx : x.isZero = true) (hy : y.isZero = true)
    (h : ¬ ZerosApart (float x) (float y)) : x.isNegative = y.isNegative := by
  by_contra hsign
  refine h ⟨Operator.isZero_float.mp hx, Operator.isZero_float.mp hy, ?_⟩
  rw [eq_negativeZero_iff hx, eq_negativeZero_iff hy]
  cases hx : x.isNegative <;> cases hy : y.isNegative <;> simp_all [Xor]

/-! ### Two floats -/

theorem floatOrder_eq {x y : Binary64} (h : x.signedUnits = y.signedUnits → x.isNegative = y.isNegative) :
    floatOrder x y = compare x.signedUnits y.signedUnits := by
  rw [floatOrder, Binary64.compare_rank]
  cases hunits : compare x.signedUnits y.signedUnits with
  | lt => rfl
  | gt => rfl
  | eq => rw [h (Int.compare_eq_eq.mp hunits), Ordering.eq_then, Std.ReflOrd.compare_self]

theorem order_float_float {x y : Binary64} {u v : EReal} (hx : x.number? = some u) (hy : y.number? = some v)
    (hz : ¬ ZerosApart (float x) (float y)) : (float x).order (float y) = compare u v := by
  have hcompare := compare_numbers (a := float x) (b := float y) hx hy
  rw [hcompare, order]
  refine floatOrder_eq fun h => ?_
  rcases isNegative_of_signedUnits h with hsign | ⟨hx, hy⟩
  · exact hsign
  · exact isNegative_of_not_zerosApart hx hy hz

/-! ### An integer and a float -/

section Rounded

variable {n : Int64} {x : Binary64} {v : EReal}

theorem isZero_of_rounded (h : (Binary64.ofInt n.toInt).isZero = true) : n = 0 := by
  have hzero : n.toInt = (0 : Int64).toInt := (Binary64.isZero_ofInt n.toInt).mp h
  exact Int64.toInt_inj.mp hzero

/-- A float that is level with a rounded integer has its number, unless the two are conflated. -/
theorem units_eq_of_rounded (hx : x.number? = some v) (hc : ¬ Conflated (integer n) (float x))
    (h : (Binary64.ofInt n.toInt).signedUnits = x.signedUnits) : (integer n).units = (float x).units := by
  rcases isNegative_of_signedUnits h with hsign | ⟨hn, hx⟩
  · have hrank : (Binary64.ofInt n.toInt).rank = x.rank := by
      rw [← Int.compare_eq_eq, Binary64.compare_rank, h, hsign, Std.ReflOrd.compare_self,
        Std.ReflOrd.compare_self]
      rfl
    by_contra hne
    refine hc (.integer_float (Binary64.eq_of_rank hrank) fun hnumber => hne ?_)
    exact (number_eq_iff (a := integer n) (b := float x) rfl (hx.trans (hx.symm.trans hnumber))).mp rfl
  · have hunits : x.signedUnits = 0 := by
      rw [← Int.natAbs_eq_zero, Binary64.natAbs_signedUnits, Binary64.units_eq_zero]
      simpa [Binary64.isZero] using hx
    rw [isZero_of_rounded hn, units, units, hunits]
    exact Int.zero_mul _

theorem compare_rounded (hx : x.number? = some v) (hc : ¬ Conflated (integer n) (float x)) :
    compare (Binary64.ofInt n.toInt).signedUnits x.signedUnits =
      compare (integer n).units (float x).units := by
  obtain ⟨hup, hdown⟩ :=
    Binary64.signedUnits_ofInt (natAbs_toInt_le n) (Binary64.magnitude_le_of_number? hx)
  have hapart : (integer n).units ≠ (float x).units →
      (Binary64.ofInt n.toInt).signedUnits ≠ x.signedUnits :=
    fun hne h => hne (units_eq_of_rounded hx hc h)
  rcases lt_trichotomy (integer n).units (float x).units with h | h | h
  · rw [Int.compare_eq_lt.mpr h]
    exact Int.compare_eq_lt.mpr (lt_of_le_of_ne (hup h.le) (hapart h.ne))
  · rw [Int.compare_eq_eq.mpr h]
    exact Int.compare_eq_eq.mpr (le_antisymm (hup h.le) (hdown h.ge))
  · rw [Int.compare_eq_gt.mpr h]
    exact Int.compare_eq_gt.mpr (lt_of_le_of_ne (hdown h.le) (hapart h.ne').symm)

theorem order_integer_float (hx : x.number? = some v) (hc : ¬ Conflated (integer n) (float x))
    (hz : ¬ ZerosApart (integer n) (float x)) :
    (integer n).order (float x) = compare ((n.toInt : ℝ) : EReal) v := by
  have hcompare := compare_numbers (a := integer n) (b := float x) rfl hx
  rw [hcompare, order, ← compare_rounded hx hc]
  refine floatOrder_eq fun h => ?_
  rcases isNegative_of_signedUnits h with hsign | ⟨hn, hx⟩
  · exact hsign
  · -- the integer zero is rounded to the zero without a sign, so the float has none either
    obtain rfl := isZero_of_rounded hn
    have hpositive : (Binary64.ofInt (0 : Int64).toInt).isNegative = false := by decide
    have hnegative : x.isNegative ≠ true := fun hnegative =>
      hz ⟨Or.inl rfl, Operator.isZero_float.mp hx, Or.inr ⟨(eq_negativeZero_iff hx).mpr hnegative, nofun⟩⟩
    rw [hpositive, Bool.eq_false_of_not_eq_true hnegative]

end Rounded

/-! ### Two numbers -/

theorem order_integer_integer (n m : Int64) : (integer n).order (integer m) =
    compare ((n.toInt : ℝ) : EReal) ((m.toInt : ℝ) : EReal) := by
  have hcompare := compare_numbers (a := integer n) (b := integer m) rfl rfl
  have hpos : (0 : Int) < Binary64.unitsOfOne := by exact_mod_cast Binary64.unitsOfOne_pos
  rw [hcompare, order, units, units, ← cmp_eq_compare, ← cmp_eq_compare]
  exact ((strictMono_mul_right_of_pos hpos).cmp_map_eq _ _).symm

/-- Two numbers that are neither conflated nor zeros apart are compared as what they stand for. -/
theorem order_eq_compare {a b : Value} {u v : EReal} (ha : a.number? = some u) (hb : b.number? = some v)
    (hc : ¬ Conflated a b) (hz : ¬ ZerosApart a b) : a.order b = compare u v := by
  cases a with
  | integer n =>
    cases ha
    cases b with
    | integer m =>
      cases hb
      exact order_integer_integer n m
    | float y => exact order_integer_float hb hc hz
    | _ => cases hb
  | float x =>
    cases b with
    | integer m =>
      cases hb
      rw [order_swap, order_integer_float ha (mt Conflated.symm hc) (mt ZerosApart.symm hz)]
      exact Std.OrientedOrd.eq_swap.symm
    | float y => exact order_float_float ha hb hz
    | _ => cases hb
  | _ => cases ha

theorem order_eq_of_conflated {a b : Value} (h : Conflated a b) : a.order b = .eq := by
  cases h with
  | integer_float hround => exact (order_rounded hround).1
  | float_integer hround => exact (order_rounded hround).2

theorem ne_of_conflated {a b : Value} {u v : EReal} (ha : a.number? = some u) (hb : b.number? = some v)
    (h : Conflated a b) : u ≠ v := by
  rintro rfl
  cases h with
  | integer_float _ hne => exact hne (hb.trans ha.symm)
  | float_integer _ hne => exact hne (ha.trans hb.symm)

/-- Integers below `2 ^ 53` in size are not rounded. -/
theorem not_conflated_of_small {n : Int64} {a : Value} (hn : n.toInt.natAbs < 2 ^ 53) :
    ¬ Conflated (integer n) a := by
  intro h
  cases h with
  | @integer_float _ x hround hne =>
    obtain ⟨v, hv⟩ : ∃ v, x.number? = some v := by
      have hnan : ¬ x.isNaN = true := by
        rw [← hround]
        exact Binary64.isNaN_ofRatio _ _ _
      rw [Binary64.number?, if_neg hnan]
      split_ifs <;> exact ⟨_, rfl⟩
    have hunits : (float x).units = (integer n).units := by
      rw [units, units, ← hround, Binary64.signedUnits_ofInt_of_lt hn]
    have hnumber := (number_eq_iff (a := float x) (b := integer n) hv rfl).mpr hunits
    exact hne (hv.trans (congrArg some hnumber))

/-- **Where numbers are compared as what they are.** The order of two numbers is that of the exact numbers they
stand for, unless an integer meets the float that it is rounded to, or the negative zero another zero. There
different numbers are level, or the same number is not level with itself. Integers below `2 ^ 53` in size are
compared with every float as what they are, but for the negative zero. -/
theorem order_numeric_iff {a b : Value} {u v : EReal} (ha : a.number? = some u) (hb : b.number? = some v) :
    (a.order b = compare u v ↔ ¬ Conflated a b ∧ ¬ ZerosApart a b) ∧
      (Conflated a b → a.order b = .eq ∧ u ≠ v) ∧ (ZerosApart a b → a.order b ≠ .eq ∧ u = v) ∧
        ∀ n : Int64, n.toInt.natAbs < 2 ^ 53 → a = .integer n ∨ b = .integer n → ¬ Conflated a b := by
  have hconflated : Conflated a b → a.order b = .eq ∧ u ≠ v :=
    fun h => ⟨order_eq_of_conflated h, ne_of_conflated ha hb h⟩
  have hzeros : ZerosApart a b → a.order b ≠ .eq ∧ u = v := fun h => by
    rw [number?_of_isZero h.1] at ha
    rw [number?_of_isZero h.2.1] at hb
    exact ⟨order_ne_eq_of_zerosApart h, Option.some.inj (ha.symm.trans hb)⟩
  refine ⟨⟨fun h => ⟨fun hc => ?_, fun hz => ?_⟩, fun ⟨hc, hz⟩ => order_eq_compare ha hb hc hz⟩,
    hconflated, hzeros, ?_⟩
  · obtain ⟨hlevel, hne⟩ := hconflated hc
    exact hne (compare_eq_iff_eq.mp (h.symm.trans hlevel))
  · obtain ⟨hapart, heq⟩ := hzeros hz
    exact hapart (h.trans (compare_eq_iff_eq.mpr heq))
  · rintro n hn (rfl | rfl)
    · exact not_conflated_of_small hn
    · exact mt Conflated.symm (not_conflated_of_small hn)

/-- Two and a half. -/
def twoAndHalf : Value := float ⟨0x4004000000000000⟩

theorem number?_twoAndHalf : twoAndHalf.number? = some ((5 / 2 : ℝ) : EReal) := by
  have hmantissa : Binary64.mantissa ⟨0x4004000000000000⟩ = 5629499534213120 := by decide +kernel
  have hexponent : Binary64.exponent ⟨0x4004000000000000⟩ = -51 := by decide +kernel
  have hpositive : Binary64.isNegative ⟨0x4004000000000000⟩ = false := by decide +kernel
  rw [twoAndHalf, number?, Binary64.number?_of_isFinite (by decide +kernel), hmantissa, hexponent, hpositive]
  norm_num

theorem order_numeric_iff_three : (integer 3).number? = some ((3 : ℝ) : EReal) ∧
    twoAndHalf.number? = some ((5 / 2 : ℝ) : EReal) ∧
      ((integer 3).order twoAndHalf = compare ((3 : ℝ) : EReal) ((5 / 2 : ℝ) : EReal) ↔
        ¬ Conflated (integer 3) twoAndHalf ∧ ¬ ZerosApart (integer 3) twoAndHalf) ∧
      ¬ Conflated (integer 3) twoAndHalf := by
  have hthree : (integer 3).number? = some ((3 : ℝ) : EReal) := by
    have hword : (3 : Int64).toInt = 3 := by decide
    rw [number?, hword]
    norm_num
  obtain ⟨hiff, -, -, hsmall⟩ := order_numeric_iff hthree number?_twoAndHalf
  exact ⟨hthree, number?_twoAndHalf, hiff, hsmall 3 (by decide) (Or.inl rfl)⟩

/-- The first integer that is rounded is level with the float below it, and the negative zero comes before zero. -/
theorem order_not_numeric :
    (∃ u v, (integer 9007199254740993).number? = some u ∧ (float ⟨0x4340000000000000⟩).number? = some v ∧
      (integer 9007199254740993).order (float ⟨0x4340000000000000⟩) ≠ compare u v) ∧
    ∃ u v, (float ⟨0x8000000000000000⟩).number? = some u ∧ (integer 0).number? = some v ∧
      (float ⟨0x8000000000000000⟩).order (integer 0) ≠ compare u v := by
  constructor
  · have hlevel : (integer 9007199254740993).order (float ⟨0x4340000000000000⟩) = .eq := by decide +kernel
    have hunits : (integer 9007199254740993).units ≠ (float ⟨0x4340000000000000⟩).units := by decide +kernel
    have hfloat : (float ⟨0x4340000000000000⟩).number? = some _ :=
      Binary64.number?_of_isFinite (by decide +kernel)
    refine ⟨_, _, rfl, hfloat, ?_⟩
    rw [hlevel, compare_numbers (a := integer 9007199254740993) rfl hfloat]
    exact fun h => hunits (Int.compare_eq_eq.mp h.symm)
  · have hapart : (float ⟨0x8000000000000000⟩).order (integer 0) = .lt := by decide +kernel
    have hzero : (float ⟨0x8000000000000000⟩).IsZero := Or.inr (Or.inr (congrArg float (by decide +kernel)))
    refine ⟨0, 0, number?_of_isZero hzero, number?_of_isZero (Or.inl rfl), ?_⟩
    rw [hapart, compare_eq_iff_eq.mpr rfl]
    decide

end Value
end SelectLang
