/-
# Products of an integer and a float

An integer and a float are multiplied as decimals where there are decimals for them, and what does not fit is
rounded off. The product of two decimals that are not zero is not zero either (`Fixed.mul?_spec`), so a product is
lost in one place only: where the float itself vanishes as a decimal. That is the case for every float of a size up
to `17 / 18 * 10 ^ -28`, and for no other (`Operator.multiply_mixed`).

Key definitions: `Value.HasSign`, `Binary64.IsNormal`.
Key theorems: `Fixed.mul?_spec`, `Operator.hasSign_decimalValue`, `Operator.multiply_mixed`, `Operator.multiply_vanishing`.
-/
import Mathlib
import SelectLang.Proofs.Number.Standing
import SelectLang.Proofs.Number.Vanishing
import SelectLang.Proofs.Value.Mixed

namespace SelectLang

/-- A number other than zero with the sign. -/
inductive Value.HasSign (negative : Bool) : Value → Prop where
  | integer {n : Int64} (hne : n ≠ 0) (hsign : decide (n.toInt < 0) = negative) : HasSign negative (.integer n)
  | float {x : Binary64} (hfinite : x.isFinite = true) (hne : x.isZero = false) (hsign : x.isNegative = negative) :
      HasSign negative (.float x)

/-- Finite, and neither zero nor of less than all bits. -/
structure Binary64.IsNormal (x : Binary64) : Prop where
  finite : x.isFinite = true
  le : 2 ^ 52 ≤ x.magnitude

/-! ### Products of decimals -/

namespace Fixed

/-- Rounding off digits leaves some, for it goes on only while there are too many. -/
theorem fitFrom_spec {negative : Bool} {digits scale : Nat} : ∀ {rounds dropped : Nat} {r : Fixed},
    0 < Binary64.roundQuotient digits (10 ^ dropped) → fitFrom negative digits scale rounds dropped = some r →
    0 < r.digits ∧ r.digits < capacity ∧ r.scale ≤ scale ∧ r.negative = negative
  | 0, _, _, _, hr => nomatch hr
  | rounds + 1, dropped, r, hpos, hr => by
    rw [fitFrom, Nat.pow_eq] at hr
    split_ifs at hr with hroom hscale
    · cases hr
      exact ⟨hpos, hroom, Nat.sub_le _ _, rfl⟩
    · refine fitFrom_spec ?_ hr
      have hcapacity : capacity = 2 ^ 96 := rfl
      have hmany : capacity ≤ digits / 10 ^ dropped + 1 := by
        refine (not_lt.mp hroom).trans ?_
        rw [Binary64.roundQuotient]
        split_ifs <;> omega
      have htenth : digits / 10 ^ (dropped + 1) = digits / 10 ^ dropped / 10 := by
        rw [pow_succ, Nat.div_div_eq_div_mul]
      rw [Binary64.roundQuotient, htenth]
      split_ifs <;> omega

theorem fit?_spec {negative : Bool} {digits scale : Nat} {r : Fixed} (hpos : 0 < digits)
    (hscale : scale ≤ greatestScale) (hr : fit? negative digits scale = some r) :
    0 < r.digits ∧ r.digits < capacity ∧ r.scale ≤ scale ∧ r.negative = negative := by
  rw [fit?, Nat.sub_eq_zero_of_le hscale] at hr
  refine fitFrom_spec ?_ hr
  rw [pow_zero, Binary64.roundQuotient_one]
  exact hpos

variable {a b r : Fixed}

/-- A product of decimals that are not zero is not zero. -/
theorem mul?_spec (ha : 0 < a.digits) (hb : 0 < b.digits) (hscale : a.scale + b.scale ≤ greatestScale)
    (hr : a.mul? b = some r) :
    0 < r.digits ∧ r.digits < capacity ∧ r.scale ≤ greatestScale ∧ r.negative = (a.negative != b.negative) := by
  rw [mul?, if_neg (by omega)] at hr
  obtain ⟨hpos, hroom, hle, hsign⟩ := fit?_spec (Nat.mul_pos ha hb) hscale hr
  exact ⟨hpos, hroom, hle.trans hscale, hsign⟩

theorem mul?_comm (a b : Fixed) : a.mul? b = b.mul? a := by
  simp only [mul?, or_comm, Nat.mul_comm, Nat.add_comm, bne_comm]

theorem mul?_zero (hb : b.digits = 0) : a.mul? b = some zero := if_pos (Or.inr hb)

end Fixed

/-- A decimal that is not zero is a number with its sign. -/
theorem Operator.hasSign_decimalValue {r : Fixed} (hpos : 0 < r.digits) (hroom : r.digits < Fixed.capacity)
    (hscale : r.scale ≤ Fixed.greatestScale) : (Operator.decimalValue r).HasSign r.negative := by
  rw [Operator.decimalValue]
  split
  · rename_i n hn
    obtain ⟨m, hm, hword⟩ := Option.bind_eq_some_iff.mp hn
    have hn : n.toInt = m := int64?_eq_some.mp hword
    rw [Fixed.int?, Nat.pow_eq] at hm
    split_ifs at hm with hwhole hneg
    · have hquotient : 0 < r.digits / 10 ^ r.scale :=
        Nat.div_pos (Nat.le_of_dvd hpos (Nat.dvd_of_mod_eq_zero hwhole)) (by positivity)
      have hvalue := Option.some.inj hm
      refine .integer (fun h0 => ?_) ?_
      · rw [h0, Int64.toInt_zero] at hn
        omega
      · rw [hneg, decide_eq_true_eq]
        omega
    · have hquotient : 0 < r.digits / 10 ^ r.scale :=
        Nat.div_pos (Nat.le_of_dvd hpos (Nat.dvd_of_mod_eq_zero hwhole)) (by positivity)
      have hvalue := Option.some.inj hm
      rw [Bool.not_eq_true] at hneg
      refine .integer (fun h0 => ?_) ?_
      · rw [h0, Int64.toInt_zero] at hn
        omega
      · rw [hneg, decide_eq_false_iff_not]
        omega
  · obtain ⟨hfinite, hne, hsign⟩ := Fixed.toFloat_spec hpos hroom hscale
    exact .float hfinite hne hsign

/-! ### Products of an integer and a float -/

namespace Binary64

theorem isFinite_ofInt (n : Int64) : (ofInt n.toInt).isFinite = true :=
  (units_ofRatio_le _ (by norm_num) one_pos ((Value.natAbs_toInt_le n).trans_eq (mul_one _).symm)).1

/-- The sign of a product. -/
theorem isNegative_mul_ofInt (n : Int64) {x : Binary64} (hx : x.isFinite = true) :
    (ofInt n.toInt * x).isNegative = (decide (n.toInt < 0) != x.isNegative) := by
  rw [mul_eq (isFinite_ofInt n) hx, isNegative_ofRatio, ofInt, isNegative_ofRatio]

/-- The size of a finite number is the absolute value of what it stands for. -/
theorem size_eq_abs {x : Binary64} {r : ℝ} (h : x.number? = some (r : EReal)) : (x.size : ℝ) = |r| := by
  have hfinite := isFinite_of_number? h
  rw [number?_of_isFinite hfinite, Option.some.injEq, EReal.coe_eq_coe_iff] at h
  have hunits := units_eq x
  have hone : (unitsOfOne : ℝ)⁻¹ = 2 ^ (-1074 : Int) := by
    rw [unitsOfOne, Nat.cast_pow, Nat.cast_ofNat, zpow_neg]
    rfl
  have hnonneg : (0 : ℝ) ≤ x.mantissa * 2 ^ x.exponent := by positivity
  rw [size, Rat.cast_div, Rat.cast_natCast, Rat.cast_natCast, div_eq_mul_inv, hone, hunits, ← h, mul_assoc, abs_mul,
    abs_of_nonneg hnonneg]
  split_ifs <;> simp

end Binary64

namespace Operator

variable {a : Int64} {x : Binary64}

theorem onMixed_multiply_of_some {b c r : Fixed} (x y : Binary64) (h : b.mul? c = some r) :
    multiply.onMixed x y (some b) (some c) = .ok (decimalValue r) := by
  have hresult : multiply.onDecimals? b c = some r := h
  rw [onMixed, if_neg nofun]
  simp only [hresult]

theorem onMixed_multiply_of_none {b c : Fixed} (x y : Binary64) (h : b.mul? c = none) :
    multiply.onMixed x y (some b) (some c) = .ok (.float (x * y)) := by
  have hresult : multiply.onDecimals? b c = none := h
  rw [onMixed, if_neg nofun]
  simp only [hresult]
  rfl

/-- Where the float vanishes as a decimal, so does the product. -/
theorem multiply_of_small (hx : x.isFinite = true) (h : x.size ≤ Fixed.leastSize) :
    multiply.apply (.integer a) (.float x) = .ok (.integer 0) ∧
      multiply.apply (.float x) (.integer a) = .ok (.integer 0) := by
  obtain ⟨d, hd, hzero⟩ := Fixed.ofFloat?_vanishes hx h
  have hproduct : (Fixed.ofInt a.toInt).mul? d = some .zero := Fixed.mul?_zero hzero
  have hvalue : decimalValue .zero = .integer 0 := rfl
  constructor
  · rw [apply, hd, onMixed_multiply_of_some _ _ hproduct, hvalue]
  · rw [apply, hd, onMixed_multiply_of_some _ _ (Fixed.mul?_comm d _ ▸ hproduct), hvalue]

/-- Otherwise the product is kept, as a decimal or as a float. -/
theorem multiply_of_large (ha : a ≠ 0) (hx : x.isFinite = true) (h : Fixed.leastSize < x.size)
    (hp : (Binary64.ofInt a.toInt * x).IsNormal) :
    (∃ v, multiply.apply (.integer a) (.float x) = .ok v ∧ v.HasSign (Binary64.ofInt a.toInt * x).isNegative) ∧
      ∃ v, multiply.apply (.float x) (.integer a) = .ok v ∧ v.HasSign (Binary64.ofInt a.toInt * x).isNegative := by
  have hfloat : (Value.float (.ofInt a.toInt * x)).HasSign (Binary64.ofInt a.toInt * x).isNegative := by
    refine .float hp.finite ?_ rfl
    have hle := hp.le
    rw [Binary64.isZero, beq_eq_false_iff_ne]
    omega
  have hcomm := Binary64.mul_comm_of_isFinite (Binary64.isFinite_ofInt a) hx
  cases hd : Fixed.ofFloat? x with
  | none =>
    refine ⟨⟨_, ?_, hfloat⟩, ⟨_, ?_, hfloat⟩⟩
    · rw [apply, hd]
      rfl
    · rw [apply, hd, hcomm]
      rfl
  | some d =>
    obtain ⟨hdigits, hscale, hsign⟩ := Fixed.ofFloat?_kept hx h hd
    cases hr : (Fixed.ofInt a.toInt).mul? d with
    | none =>
      refine ⟨⟨_, ?_, hfloat⟩, ⟨_, ?_, hfloat⟩⟩
      · rw [apply, hd, onMixed_multiply_of_none _ _ hr]
      · rw [apply, hd, onMixed_multiply_of_none _ _ (Fixed.mul?_comm d _ ▸ hr), hcomm]
    | some r =>
      have hinteger : 0 < (Fixed.ofInt a.toInt).digits :=
        Int.natAbs_pos.mpr fun h0 => ha (Int64.toInt_inj.mp h0)
      obtain ⟨hpos, hroom, hplaces, hnegative⟩ :=
        Fixed.mul?_spec hinteger hdigits ((Nat.zero_add _).trans_le hscale) hr
      have hvalue : (decimalValue r).HasSign (Binary64.ofInt a.toInt * x).isNegative := by
        rw [Binary64.isNegative_mul_ofInt a hx, ← hsign]
        exact hnegative ▸ hasSign_decimalValue hpos hroom hplaces
      refine ⟨⟨_, ?_, hvalue⟩, ⟨_, ?_, hvalue⟩⟩
      · rw [apply, hd, onMixed_multiply_of_some _ _ hr]
      · rw [apply, hd, onMixed_multiply_of_some _ _ (Fixed.mul?_comm d _ ▸ hr)]

/-- **Where the product of an integer and a float is kept.** If the product as floats is a normal number, then the
product of the two, in either order, is a number other than zero with the same sign where the float is above
`17 / 18 * 10 ^ -28` in size; and for every float up to that size it is the integer zero. -/
theorem multiply_mixed {r : ℝ} (ha : a ≠ 0) (hx : x.number? = some (r : EReal))
    (hp : (Binary64.ofInt a.toInt * x).IsNormal) :
    (17 / 18 * 10 ^ (-28 : ℤ) < |r| →
      (∃ v, multiply.apply (.integer a) (.float x) = .ok v ∧ v.HasSign (Binary64.ofInt a.toInt * x).isNegative) ∧
        ∃ v, multiply.apply (.float x) (.integer a) = .ok v ∧ v.HasSign (Binary64.ofInt a.toInt * x).isNegative) ∧
    (|r| ≤ 17 / 18 * 10 ^ (-28 : ℤ) →
      multiply.apply (.integer a) (.float x) = .ok (.integer 0) ∧
        multiply.apply (.float x) (.integer a) = .ok (.integer 0)) := by
  have hfinite := Binary64.isFinite_of_number? hx
  have hleast : ((Fixed.leastSize : ℚ) : ℝ) = 17 / 18 * 10 ^ (-28 : ℤ) := by norm_num [Fixed.leastSize]
  rw [← hleast, ← Binary64.size_eq_abs hx, Rat.cast_lt, Rat.cast_le]
  exact ⟨fun h => multiply_of_large ha hfinite h hp, multiply_of_small hfinite⟩

/-- Three times two and a half has a number above zero for a product. -/
theorem multiply_mixed_three : Binary64.number? ⟨0x4004000000000000⟩ = some ((5 / 2 : ℝ) : EReal) ∧
    (Binary64.ofInt (3 : Int64).toInt * ⟨0x4004000000000000⟩).IsNormal ∧
    ∃ v, multiply.apply (.integer 3) (.float ⟨0x4004000000000000⟩) = .ok v ∧
      v.HasSign (Binary64.ofInt (3 : Int64).toInt * ⟨0x4004000000000000⟩).isNegative := by
  have hx : Binary64.number? ⟨0x4004000000000000⟩ = some ((5 / 2 : ℝ) : EReal) := Value.number?_twoAndHalf
  have hp : (Binary64.ofInt (3 : Int64).toInt * ⟨0x4004000000000000⟩).IsNormal :=
    ⟨by decide +kernel, by decide +kernel⟩
  exact ⟨hx, hp, ((multiply_mixed (a := 3) (by decide) hx hp).1 (by norm_num [abs_of_pos])).1⟩

/-- One times `1e-30` is a normal number as floats, and the integer zero as decimals. -/
theorem multiply_vanishing :
    Binary64.isFinite ⟨0x39b4484bfeebc2a0⟩ = true ∧ Binary64.isZero ⟨0x39b4484bfeebc2a0⟩ = false ∧
      (Binary64.ofInt (1 : Int64).toInt * ⟨0x39b4484bfeebc2a0⟩).IsNormal ∧
      multiply.apply (.integer 1) (.float ⟨0x39b4484bfeebc2a0⟩) = .ok (.integer 0) ∧
      ¬ ∃ v, multiply.apply (.integer 1) (.float ⟨0x39b4484bfeebc2a0⟩) = .ok v ∧
        v.HasSign (Binary64.ofInt (1 : Int64).toInt * ⟨0x39b4484bfeebc2a0⟩).isNegative := by
  have hzero : multiply.apply (.integer 1) (.float ⟨0x39b4484bfeebc2a0⟩) = .ok (.integer 0) := by
    have hd : Fixed.ofFloat? ⟨0x39b4484bfeebc2a0⟩ = some .zero := by decide +kernel
    rw [apply, hd]
    rfl
  refine ⟨by decide +kernel, by decide +kernel, ⟨by decide +kernel, by decide +kernel⟩, hzero, ?_⟩
  rintro ⟨v, hv, hsign⟩
  rw [hzero] at hv
  obtain rfl := Except.ok.inj hv
  cases hsign with
  | integer hne => exact hne rfl

end Operator
end SelectLang
