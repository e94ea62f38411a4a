/-
# The float that stands for a decimal

A decimal that is not zero is given back as a float that is not zero either, is finite and has the sign of the
decimal (`Fixed.toFloat_spec`). The whole part and the fraction are added as floats, and the sum is rounded to the
places of the decimal: multiplied by a power of ten, rounded and divided again. Every step is bounded by powers of
two, from above for the result to be finite (`units_ofRatio_le`) and from below for something to be left
(`le_units_ofRatio`). That at least a half is left to be rounded hangs on the powers of ten themselves, of which
there are 28 (`placesFit_of_mem`).

Key definitions: `Binary64.twoPow`, `Fixed.PlacesFit`.
Key theorems: `Binary64.units_ofRatio_le`, `Binary64.le_units_ofRatio`, `Fixed.toFloat_spec`.
-/
import Mathlib
import SelectLang.Number.Fixed
import SelectLang.Proofs.Number.Arithmetic

namespace SelectLang
namespace Binary64

/-! ### Powers of two -/

/-- The float `2 ^ k`. -/
def twoPow (k : Int) : Binary64 := ofMagnitude false ((k + 1023).toNat * 2 ^ 52)

theorem twoPow_spec {k : Int} (hlow : -1022 ≤ k) (hhigh : k ≤ 1023) :
    (twoPow k).isFinite = true ∧ (twoPow k).units = 2 ^ 52 * 2 ^ (k + 1022).toNat := by
  have hinf : infinityMagnitude = 2047 * 2 ^ 52 := rfl
  have hmagnitude : (twoPow k).magnitude = (k + 1022).toNat * 2 ^ 52 + 2 ^ 52 := by
    rw [twoPow, magnitude_ofMagnitude _ (by omega)]
    omega
  refine ⟨?_, units_of_magnitude hmagnitude le_rfl (by norm_num)⟩
  rw [isFinite, decide_eq_true_eq, hmagnitude, hinf]
  omega

variable {num den : Nat}

/-- A quotient up to a power of two is rounded to no more than the power. -/
theorem units_ofRatio_le (negative : Bool) {k : Nat} (hk : k ≤ 1023) (hden : 0 < den) (h : num ≤ 2 ^ k * den) :
    (ofRatio negative num den).isFinite = true ∧ (ofRatio negative num den).units ≤ 2 ^ k * unitsOfOne := by
  obtain ⟨hfinite, hunits⟩ := twoPow_spec (k := k) (by omega) (by exact_mod_cast hk)
  have hpow : (twoPow k).units = 2 ^ k * unitsOfOne := by
    rw [hunits, unitsOfOne, ← pow_add, ← pow_add]
    exact congrArg (2 ^ ·) (by omega)
  have hle : (ofRatio negative num den).magnitude ≤ (twoPow k).magnitude := by
    refine magnitude_ofRatio_le negative (of_decide_eq_true hfinite).le hden ?_
    rw [hpow, mul_right_comm]
    exact Nat.mul_le_mul_right _ h
  refine ⟨?_, (units_le_units hle).trans_eq hpow⟩
  rw [isFinite, decide_eq_true_eq] at hfinite ⊢
  omega

/-- A quotient from a power of two on is rounded to no less than the power. -/
theorem le_units_ofRatio (negative : Bool) {k : Nat} (hk : k ≤ 1022) (hden : 0 < den) (h : den ≤ 2 ^ k * num) :
    unitsOfOne ≤ 2 ^ k * (ofRatio negative num den).units := by
  obtain ⟨hfinite, hunits⟩ := twoPow_spec (k := -(k : Int)) (by omega) (by omega)
  have hpow : 2 ^ k * (twoPow (-(k : Int))).units = unitsOfOne := by
    rw [hunits, unitsOfOne, ← pow_add, ← pow_add]
    exact congrArg (2 ^ ·) (by omega)
  have hle : (twoPow (-(k : Int))).magnitude ≤ (ofRatio negative num den).magnitude := by
    refine le_magnitude_ofRatio negative hfinite hden ?_
    rw [← hpow]
    calc (twoPow (-(k : Int))).units * den ≤ (twoPow (-(k : Int))).units * (2 ^ k * num) :=
          Nat.mul_le_mul_left _ h
      _ = num * (2 ^ k * (twoPow (-(k : Int))).units) := by ac_rfl
  rw [← hpow]
  exact Nat.mul_le_mul_left _ (units_le_units hle)

/-! ### Positive floats -/

/-- A finite number above zero, at most `2 ^ k`. -/
structure PositiveUpTo (x : Binary64) (k : Nat) : Prop where
  finite : x.isFinite = true
  positive : x.isNegative = false
  ne_zero : x.magnitude ≠ 0
  le : x.units ≤ 2 ^ k * unitsOfOne

theorem units_ofNat_mono {m n : Nat} (h : m ≤ n) : (ofNat m).units ≤ (ofNat n).units :=
  units_le_units (magnitude_ofRatio_mono false one_pos h)

theorem units_ofNat_one : (ofNat 1).units = unitsOfOne := by decide +kernel

theorem positiveUpTo_ofNat {n k : Nat} (hk : k ≤ 1023) (hpos : 0 < n) (hle : n ≤ 2 ^ k) :
    (ofNat n).PositiveUpTo k := by
  obtain ⟨hfinite, hunits⟩ := units_ofRatio_le false hk one_pos (hle.trans_eq (mul_one _).symm)
  refine ⟨hfinite, isNegative_ofRatio _ _ _, fun h0 => ?_, hunits⟩
  have hone := units_ofNat_mono hpos
  rw [units_ofNat_one, units_of_zero h0] at hone
  exact absurd hone unitsOfOne_pos.not_ge

end Binary64

namespace Fixed

open Binary64

/-- The power of ten by which a float is rounded to so many places. -/
def places (scale : Nat) : Binary64 := power (.ofNat 1) (.ofNat 10) 6 scale

/-- The power of ten is between one and `2 ^ 94` as a float, and what one unit in the last place is as a float is
not much less than one when it is multiplied by it. -/
@[mk_iff]
structure PlacesFit (scale : Nat) : Prop where
  finite : (places scale).isFinite = true
  positive : (places scale).isNegative = false
  le : (places scale).units ≤ 2 ^ 94 * unitsOfOne
  ge : unitsOfOne ≤ (places scale).units
  half : unitsOfOne * unitsOfOne ≤
    2 * ((ofRatio false unitsOfOne (Binary64.ofNat (10 ^ scale)).units).units * (places scale).units)

instance (scale : Nat) : Decidable (PlacesFit scale) := decidable_of_iff' _ (placesFit_iff scale)

/-- The powers of ten fit for all scales that there are. -/
theorem placesFit_of_mem : ∀ scale ∈ List.range' 1 greatestScale, PlacesFit scale := by
  decide +kernel

theorem placesFit {scale : Nat} (hpos : 0 < scale) (hscale : scale ≤ greatestScale) : PlacesFit scale :=
  placesFit_of_mem scale (List.mem_range'_1.mpr (by omega))

/-! ### Rounding to the places -/

/-- Rounded to a whole number, at least a half is at least one. -/
theorem round_spec {x : Binary64} {k : Nat} (hk : 53 ≤ k) (hk' : k ≤ 1023) (hx : x.PositiveUpTo k)
    (hhalf : unitsOfOne ≤ 2 * x.units) : x.round.PositiveUpTo k ∧ unitsOfOne ≤ x.round.units := by
  obtain ⟨hm, hlt, hleast, -, -⟩ := mantissa_bounds hx.ne_zero
  by_cases he : 0 ≤ x.exponent
  · have hround : x.round = x := if_pos (by simp [he])
    have hratio := units_mul_ratio x
    rw [Binary64.ratio, if_pos he, mul_one] at hratio
    rw [hround]
    refine ⟨hx, ?_⟩
    rw [hratio]
    exact Nat.le_mul_of_pos_left _ (Nat.mul_pos hm (Nat.two_pow_pos _))
  · have hround : x.round =
        ofRatio x.isNegative ((2 * x.mantissa + 2 ^ (-x.exponent).toNat) / (2 * 2 ^ (-x.exponent).toNat)) 1 :=
      if_neg (by simp [hx.finite, he])
    set unit := 2 ^ (-x.exponent).toNat with hunit
    have hpos : 0 < unit := Nat.two_pow_pos _
    have hle : unit ≤ 2 * x.mantissa := by
      have hratio := units_mul_ratio x
      rw [Binary64.ratio, if_neg he, Nat.pow_eq, ← hunit] at hratio
      have hmul : unitsOfOne * unit ≤ 2 * x.mantissa * unitsOfOne := by
        calc unitsOfOne * unit ≤ 2 * x.units * unit := Nat.mul_le_mul_right _ hhalf
          _ = 2 * (x.units * unit) := Nat.mul_assoc _ _ _
          _ = 2 * x.mantissa * unitsOfOne := by rw [hratio, Nat.mul_assoc]
      rw [mul_comm] at hmul
      exact Nat.le_of_mul_le_mul_right hmul unitsOfOne_pos
    have hone : 1 ≤ (2 * x.mantissa + unit) / (2 * unit) := (Nat.one_le_div_iff (by positivity)).mpr (by omega)
    have hmax : (2 * x.mantissa + unit) / (2 * unit) ≤ 2 ^ k := by
      have hdiv : (2 * x.mantissa + unit) / (2 * unit) ≤ x.mantissa + 1 := by
        refine Nat.div_le_of_le_mul ?_
        nlinarith
      have hpow : 2 ^ 53 ≤ 2 ^ k := Nat.pow_le_pow_right two_pos hk
      omega
    rw [hround, hx.positive]
    refine ⟨positiveUpTo_ofNat hk' hone hmax, ?_⟩
    exact units_ofNat_one.ge.trans (units_ofNat_mono hone)

/-- A float that is one unit in the last place or more keeps something when it is rounded to the places. -/
theorem rounded_places {scale : Nat} (hpos : 0 < scale) (hscale : scale ≤ greatestScale) {sum : Binary64}
    (hsum : sum.PositiveUpTo 97)
    (hunit : (ofRatio false unitsOfOne (Binary64.ofNat (10 ^ scale)).units).units ≤ sum.units) :
    ((sum * places scale).round / places scale).PositiveUpTo 191 := by
  obtain ⟨hfinite, hpositive, hle, hge, hhalf⟩ := placesFit hpos hscale
  have hone := unitsOfOne_pos
  have hne : (places scale).magnitude ≠ 0 := fun h0 => by
    rw [units_of_zero h0] at hge
    omega
  have hproduct : sum * places scale =
      ofRatio false (sum.units * (places scale).units) (unitsOfOne * unitsOfOne) := by
    rw [mul_eq hsum.finite hfinite, hsum.positive, hpositive]
    rfl
  have hupper : sum.units * (places scale).units ≤ 2 ^ 191 * (unitsOfOne * unitsOfOne) := by
    calc sum.units * (places scale).units ≤ 2 ^ 97 * unitsOfOne * (2 ^ 94 * unitsOfOne) :=
          Nat.mul_le_mul hsum.le hle
      _ = 2 ^ 97 * 2 ^ 94 * (unitsOfOne * unitsOfOne) := Nat.mul_mul_mul_comm _ _ _ _
      _ = 2 ^ 191 * (unitsOfOne * unitsOfOne) := by rw [← pow_add]
  have hlower : unitsOfOne * unitsOfOne ≤ 2 ^ 1 * (sum.units * (places scale).units) := by
    rw [pow_one]
    exact hhalf.trans (Nat.mul_le_mul_left _ (Nat.mul_le_mul_right _ hunit))
  obtain ⟨hpfinite, hpunits⟩ := units_ofRatio_le false (by norm_num) (Nat.mul_pos hone hone) hupper
  have hphalf := le_units_ofRatio false (by norm_num) (Nat.mul_pos hone hone) hlower
  rw [← hproduct] at hpfinite hpunits hphalf
  have hp : (sum * places scale).PositiveUpTo 191 := by
    refine ⟨hpfinite, hproduct ▸ isNegative_ofRatio _ _ _, fun h0 => ?_, hpunits⟩
    rw [units_of_zero h0] at hphalf
    omega
  obtain ⟨hround, hwhole⟩ := round_spec (by norm_num) (by norm_num) hp (by rwa [pow_one] at hphalf)
  have hquotient : (sum * places scale).round / places scale =
      ofRatio false (sum * places scale).round.units (places scale).units := by
    rw [div_eq hround.finite hfinite hne, hround.positive, hpositive]
    rfl
  have hqupper : (sum * places scale).round.units ≤ 2 ^ 191 * (places scale).units :=
    hround.le.trans (Nat.mul_le_mul_left _ hge)
  have hqlower : (places scale).units ≤ 2 ^ 94 * (sum * places scale).round.units :=
    hle.trans (Nat.mul_le_mul_left _ hwhole)
  obtain ⟨hqfinite, hqunits⟩ := units_ofRatio_le false (by norm_num) (hone.trans_le hge) hqupper
  have hqpos := le_units_ofRatio false (by norm_num) (hone.trans_le hge) hqlower
  rw [hquotient]
  refine ⟨hqfinite, isNegative_ofRatio _ _ _, fun h0 => ?_, hqunits⟩
  rw [units_of_zero h0] at hqpos
  omega

/-! ### Decimals -/

/-- The size of the float that stands for a decimal. -/
def floatSize (a : Fixed) : Binary64 := ({ a with negative := false } : Fixed).toFloat

theorem toFloat_eq (a : Fixed) : a.toFloat = if a.negative then -a.floatSize else a.floatSize := rfl

theorem floatSize_of_whole {a : Fixed} (h : 0 < a.digits) (hroom : a.digits < capacity) (hscale : a.scale = 0) :
    a.floatSize.PositiveUpTo 191 := by
  have hsize : a.floatSize = Binary64.ofNat a.digits := by
    rw [floatSize, toFloat, if_pos hscale]
    exact if_neg Bool.false_ne_true
  have hcapacity : capacity = 2 ^ 96 := rfl
  rw [hsize]
  exact positiveUpTo_ofNat (by norm_num) h (hroom.le.trans (hcapacity.trans_le (by norm_num)))

theorem ofNat_spec {n k : Nat} (hk : k ≤ 1023) (hle : n ≤ 2 ^ k) :
    (Binary64.ofNat n).isFinite = true ∧ (Binary64.ofNat n).units ≤ 2 ^ k * unitsOfOne :=
  units_ofRatio_le false hk one_pos (hle.trans_eq (mul_one _).symm)

theorem power_le {scale : Nat} (hscale : scale ≤ greatestScale) : 10 ^ scale ≤ 2 ^ 94 :=
  (Nat.pow_le_pow_right (by norm_num) hscale).trans (by decide : 10 ^ greatestScale ≤ 2 ^ 94)

/-- The part of a decimal behind the point, as a float. -/
theorem fraction_spec {rest scale : Nat} (hrest : rest < 10 ^ scale) (hpos : 0 < scale)
    (hscale : scale ≤ greatestScale) {fraction : Binary64}
    (hfraction : fraction = Binary64.ofNat rest / Binary64.ofNat (10 ^ scale)) :
    (rest = 0 → fraction.isZero = true) ∧ (0 < rest → fraction.PositiveUpTo 0 ∧
      (ofRatio false unitsOfOne (Binary64.ofNat (10 ^ scale)).units).units ≤ fraction.units) := by
  have hunit := positiveUpTo_ofNat (k := 94) (by norm_num) (Nat.zero_lt_of_lt hrest) (power_le hscale)
  have hunits : 0 < (Binary64.ofNat (10 ^ scale)).units :=
    Nat.pos_of_ne_zero fun h0 => hunit.ne_zero (units_eq_zero.mp h0)
  have hquotient : fraction = ofRatio false (Binary64.ofNat rest).units (Binary64.ofNat (10 ^ scale)).units := by
    have hfinite := (ofNat_spec (k := 94) (by norm_num) (hrest.le.trans (power_le hscale))).1
    rw [hfraction, div_eq hfinite hunit.finite hunit.ne_zero, hunit.positive]
    exact congrArg (ofRatio · _ _) (by rw [Binary64.ofNat, isNegative_ofRatio]; rfl)
  refine ⟨fun h0 => ?_, fun hrest' => ?_⟩
  · have hzero : (Binary64.ofNat 0).units = 0 := by decide
    rw [hquotient, h0, hzero, isZero, magnitude_ofRatio_zero]
    rfl
  · have hle : (Binary64.ofNat rest).units ≤ 2 ^ 0 * (Binary64.ofNat (10 ^ scale)).units := by
      rw [pow_zero, one_mul]
      exact units_ofNat_mono hrest.le
    have hge : (ofRatio false unitsOfOne (Binary64.ofNat (10 ^ scale)).units).magnitude ≤ fraction.magnitude := by
      rw [hquotient]
      exact magnitude_ofRatio_mono false hunits (units_ofNat_one.ge.trans (units_ofNat_mono hrest'))
    obtain ⟨hfinite, hbound⟩ := units_ofRatio_le false (by norm_num) hunits hle
    rw [← hquotient] at hfinite hbound
    refine ⟨⟨hfinite, hquotient ▸ isNegative_ofRatio _ _ _, fun h0 => ?_, hbound⟩, units_le_units hge⟩
    have hhalf := (placesFit hpos hscale).half
    rw [units_of_zero (Nat.le_zero.mp (hge.trans_eq h0)), Nat.zero_mul, Nat.mul_zero] at hhalf
    exact absurd hhalf (Nat.mul_pos unitsOfOne_pos unitsOfOne_pos).not_ge

theorem floatSize_of_places {a : Fixed} (h : 0 < a.digits) (hroom : a.digits < capacity) (hpos : 0 < a.scale)
    (hscale : a.scale ≤ greatestScale) : a.floatSize.PositiveUpTo 191 := by
  have hcapacity : capacity = 2 ^ 96 := rfl
  have hwhole : a.digits / 10 ^ a.scale ≤ 2 ^ 96 := (Nat.div_le_self _ _).trans (hroom.le.trans_eq hcapacity)
  obtain ⟨fraction, hfraction⟩ : ∃ fraction,
    fraction = Binary64.ofNat (a.digits % 10 ^ a.scale) / Binary64.ofNat (10 ^ a.scale) := ⟨_, rfl⟩
  have hsize : a.floatSize = if fraction.isZero then Binary64.ofNat (a.digits / 10 ^ a.scale)
      else ((Binary64.ofNat (a.digits / 10 ^ a.scale) + fraction) * places a.scale).round / places a.scale := by
    rw [floatSize, toFloat, if_neg hpos.ne', hfraction]
    exact if_neg Bool.false_ne_true
  have hrest : a.digits % 10 ^ a.scale < 10 ^ a.scale := Nat.mod_lt _ (by positivity)
  obtain ⟨hzero, hsome⟩ := fraction_spec hrest hpos hscale hfraction
  rcases Nat.eq_zero_or_pos (a.digits % 10 ^ a.scale) with h0 | hrest
  · have hdigits : 0 < a.digits / 10 ^ a.scale :=
      Nat.div_pos (Nat.le_of_dvd h (Nat.dvd_of_mod_eq_zero h0)) (by positivity)
    rw [hsize, if_pos (hzero h0)]
    exact positiveUpTo_ofNat (by norm_num) hdigits (hwhole.trans (by norm_num))
  · obtain ⟨hpositive, hunit⟩ := hsome hrest
    have hne : ¬ fraction.isZero = true := by simpa [isZero] using hpositive.ne_zero
    rw [hsize, if_neg hne]
    obtain ⟨hwfinite, hwunits⟩ := ofNat_spec (by norm_num) hwhole
    have hsum : Binary64.ofNat (a.digits / 10 ^ a.scale) + fraction =
        ofRatio false ((Binary64.ofNat (a.digits / 10 ^ a.scale)).units + fraction.units) unitsOfOne :=
      add_eq hwfinite hpositive.finite (isNegative_ofRatio _ _ _) hpositive.positive
    have hbound : (Binary64.ofNat (a.digits / 10 ^ a.scale)).units + fraction.units ≤ 2 ^ 97 * unitsOfOne := by
      have hle := hpositive.le
      generalize unitsOfOne = one at *
      omega
    have hmono : fraction.magnitude ≤ (Binary64.ofNat (a.digits / 10 ^ a.scale) + fraction).magnitude := by
      rw [hsum]
      exact le_magnitude_ofRatio false hpositive.finite unitsOfOne_pos
        (Nat.mul_le_mul_right _ (Nat.le_add_left _ _))
    obtain ⟨hsfinite, hsunits⟩ := units_ofRatio_le false (by norm_num) unitsOfOne_pos hbound
    rw [← hsum] at hsfinite hsunits
    refine rounded_places hpos hscale ⟨hsfinite, hsum ▸ isNegative_ofRatio _ _ _, fun h0 => ?_, hsunits⟩
      (hunit.trans (units_le_units hmono))
    exact hpositive.ne_zero (Nat.le_zero.mp (hmono.trans_eq h0))

theorem floatSize_spec {a : Fixed} (h : 0 < a.digits) (hroom : a.digits < capacity)
    (hscale : a.scale ≤ greatestScale) : a.floatSize.PositiveUpTo 191 := by
  rcases Nat.eq_zero_or_pos a.scale with h0 | hpos
  · exact floatSize_of_whole h hroom h0
  · exact floatSize_of_places h hroom hpos hscale

/-- **A decimal that is not zero is given back as a float that is not**, is finite and has the sign of the decimal. -/
theorem toFloat_spec {a : Fixed} (h : 0 < a.digits) (hroom : a.digits < capacity)
    (hscale : a.scale ≤ greatestScale) :
    a.toFloat.isFinite = true ∧ a.toFloat.isZero = false ∧ a.toFloat.isNegative = a.negative := by
  obtain ⟨hfinite, hpositive, hne, -⟩ := floatSize_spec h hroom hscale
  have hinf : infinityMagnitude < 2 ^ 63 := by decide
  rw [isFinite, decide_eq_true_eq] at hfinite
  rw [toFloat_eq]
  cases hneg : a.negative
  · exact ⟨by simpa [isFinite] using hfinite, by simpa [isZero] using hne, hpositive⟩
  · have hflip : -a.floatSize = ofMagnitude true a.floatSize.magnitude := by
      have hneg : -a.floatSize = ofMagnitude (!a.floatSize.isNegative) a.floatSize.magnitude := rfl
      rw [hneg, hpositive]
      rfl
    have hmagnitude := magnitude_ofMagnitude true (hfinite.trans hinf)
    rw [if_pos rfl, hflip, isFinite, isZero, hmagnitude]
    exact ⟨decide_eq_true hfinite, by simpa using hne, isNegative_ofMagnitude true (hfinite.trans hinf)⟩

end Fixed
end SelectLang
