/-
# Numbers taken apart

The arithmetic of floats is done on numbers that are taken apart into a sign, a mantissa and an exponent, and that
are put together again when the result is rounded. Here the two ways are joined to the bits of a number: what is
taken apart is the mantissa and the exponent of the number (`unpacked_finite`), and what is put together in
canonical form has the bits that the form tells, or those of an infinity (`packed_finite`).

Rounding drops bits from the end of a mantissa and keeps of them what it must know: the first one, and whether any
other is set. So a mantissa with its two further bits stands for a quotient (`Tells`) as exactly as rounding to the
nearest needs it, and each bit that is dropped doubles the denominator (`Tells.shift`).

Key definitions: `unpacked`, `packed`, `IsCanonical`, `Tells`.
Key theorems: `packed_finite`, `packed_unpacked`, `Tells.roundedMantissa`, `packed_roundWithAccuracy`.
-/
import Mathlib
import SelectLang.Proofs.Number.Denotation

namespace SelectLang
namespace Binary64

open Float.Model (UnpackedFloat)
open Float.Model.UnpackedFloat (ExtendedMantissa Accuracy)

/-! ### Signs -/

def sign (negative : Bool) : UnpackedFloat.Sign := if negative then .negative else .positive

theorem toNat_sign (negative : Bool) :
    (sign negative).toBitVec.toNat = if negative then 1 else 0 := by
  cases negative <;> rfl

theorem sign_mul (a b : Bool) : sign a * sign b = sign (a != b) := by
  cases a <;> cases b <;> rfl

theorem sign_div (a b : Bool) : sign a / sign b = sign (a != b) := by
  cases a <;> cases b <;> rfl

/-! ### Bits -/

theorem eq_of_toNat {x y : Binary64} (h : x.bits.toNat = y.bits.toNat) : x = y := by
  obtain ⟨a⟩ := x
  obtain ⟨b⟩ := y
  exact congrArg mk (UInt64.toNat_inj.mp h)

theorem toNat_ofMagnitude (negative : Bool) {m : Nat} (h : m < 2 ^ 63) :
    (ofMagnitude negative m).bits.toNat = (if negative then 1 else 0) * 2 ^ 63 + m := by
  have h63 : Nat.pow 2 63 = 2 ^ 63 := rfl
  rw [ofMagnitude, h63, UInt64.toNat_ofNat']
  cases negative <;> simp <;> omega

/-- The bits of a number are its sign and its other bits. -/
theorem toNat_bits (x : Binary64) :
    x.bits.toNat = (if x.isNegative then 1 else 0) * 2 ^ 63 + x.magnitude ∧ x.magnitude < 2 ^ 63 := by
  have h63 : Nat.pow 2 63 = 2 ^ 63 := rfl
  have hlt := x.bits.toNat_lt
  rw [isNegative, magnitude, h63]
  simp only [decide_eq_true_eq]
  split_ifs <;> omega

theorem toNat_packComponents (s : UnpackedFloat.Sign) (e : BitVec 11) (m : BitVec 52) :
    (UnpackedFloat.packComponents .binary64 s e m).toNat =
      s.toBitVec.toNat * 2 ^ 63 + (e.toNat * 2 ^ 52 + m.toNat) := by
  have hm := m.isLt
  have he := e.isLt
  rw [UnpackedFloat.packComponents]
  simp only [BitVec.toNat_append]
  rw [← Nat.shiftLeft_add_eq_or_of_lt he, ← Nat.shiftLeft_add_eq_or_of_lt hm, Nat.shiftLeft_eq, Nat.shiftLeft_eq]
  ring

theorem toNat_unpackMantissa (b : BitVec 64) :
    (@UnpackedFloat.unpackMantissa .binary64 b).toNat = b.toNat % 2 ^ 52 := by
  rw [UnpackedFloat.unpackMantissa, BitVec.toNat_cast, BitVec.extractLsb_toNat, Nat.shiftRight_zero]
  rfl

theorem toNat_unpackExponent (b : BitVec 64) :
    (@UnpackedFloat.unpackExponent .binary64 b).toNat = b.toNat / 2 ^ 52 % 2 ^ 11 := by
  rw [UnpackedFloat.unpackExponent, BitVec.toNat_cast, BitVec.extractLsb_toNat, Nat.shiftRight_eq_div_pow]
  rfl

theorem toNat_unpackSign (b : BitVec 64) :
    (@UnpackedFloat.unpackSign .binary64 b).toNat = b.toNat / 2 ^ 63 % 2 ^ 1 := by
  rw [UnpackedFloat.unpackSign, BitVec.toNat_cast, BitVec.extractLsb_toNat, Nat.shiftRight_eq_div_pow]
  rfl

/-! ### Taking apart -/

/-- The number taken apart. -/
def unpacked (x : Binary64) : UnpackedFloat := .unpack .binary64 x.bits.toBitVec

section Unpacked

variable {x : Binary64}

theorem toNat_exponent_bits (x : Binary64) :
    (@UnpackedFloat.unpackExponent .binary64 x.bits.toBitVec).toNat = x.magnitude / 2 ^ 52 := by
  obtain ⟨hbits, hlt⟩ := toNat_bits x
  rw [toNat_unpackExponent, UInt64.toNat_toBitVec, hbits]
  split_ifs <;> omega

theorem toNat_mantissa_bits (x : Binary64) :
    (@UnpackedFloat.unpackMantissa .binary64 x.bits.toBitVec).toNat = x.magnitude % 2 ^ 52 := by
  obtain ⟨hbits, hlt⟩ := toNat_bits x
  rw [toNat_unpackMantissa, UInt64.toNat_toBitVec, hbits]
  split_ifs <;> omega

theorem ofBitVec_unpackSign (x : Binary64) :
    UnpackedFloat.Sign.ofBitVec (@UnpackedFloat.unpackSign .binary64 x.bits.toBitVec) =
      sign x.isNegative := by
  obtain ⟨hbits, hlt⟩ := toNat_bits x
  have hbit : @UnpackedFloat.unpackSign .binary64 x.bits.toBitVec =
      BitVec.ofNat 1 (if x.isNegative then 1 else 0) := by
    rw [← BitVec.toNat_inj, toNat_unpackSign, UInt64.toNat_toBitVec, hbits, BitVec.toNat_ofNat]
    split_ifs <;> omega
  rw [hbit]
  cases x.isNegative <;> rfl

theorem exponent_bits_ne (h : x.isFinite = true) :
    @UnpackedFloat.unpackExponent .binary64 x.bits.toBitVec ≠ -1#11 := by
  have hinf : infinityMagnitude = 2047 * 2 ^ 52 := rfl
  rw [isFinite, decide_eq_true_eq, hinf] at h
  rw [ne_eq, ← BitVec.toNat_inj, toNat_exponent_bits]
  have hones : (-1#11).toNat = 2047 := rfl
  rw [hones]
  omega

theorem unpacked_zero (h : x.magnitude = 0) : x.unpacked = .zero (sign x.isNegative) := by
  have hfinite : x.isFinite = true := by
    rw [isFinite, h]
    rfl
  have hexponent : @UnpackedFloat.unpackExponent .binary64 x.bits.toBitVec = 0#11 := by
    rw [← BitVec.toNat_inj, toNat_exponent_bits, h]
    rfl
  have hmantissa : @UnpackedFloat.unpackMantissa .binary64 x.bits.toBitVec = 0#52 := by
    rw [← BitVec.toNat_inj, toNat_mantissa_bits, h]
    rfl
  rw [unpacked, UnpackedFloat.unpack]
  simp only
  rw [if_neg (exponent_bits_ne hfinite), if_pos hexponent, dif_pos hmantissa, ofBitVec_unpackSign]

theorem unpacked_finite (hx : x.isFinite = true) (h0 : x.magnitude ≠ 0) :
    x.unpacked = .finite (sign x.isNegative) x.mantissa x.exponent (mantissa_bounds h0).1 := by
  have h52 : Nat.pow 2 52 = 2 ^ 52 := rfl
  have hbias : Float.Model.Format.binary64.exponentBias = 1023 := rfl
  have hzero : (0#11).toNat = 0 := rfl
  have hzero' : (0#52).toNat = 0 := rfl
  rw [unpacked, UnpackedFloat.unpack]
  simp only [hbias]
  rw [if_neg (exponent_bits_ne hx)]
  by_cases hexponent : @UnpackedFloat.unpackExponent .binary64 x.bits.toBitVec = 0#11
  · have hsmall : x.magnitude < 2 ^ 52 := by
      rw [← BitVec.toNat_inj, toNat_exponent_bits, hzero] at hexponent
      omega
    have hmantissa : @UnpackedFloat.unpackMantissa .binary64 x.bits.toBitVec ≠ 0#52 := by
      rw [ne_eq, ← BitVec.toNat_inj, toNat_mantissa_bits, hzero']
      omega
    rw [if_pos hexponent, dif_neg hmantissa, UnpackedFloat.finite.injEq, ofBitVec_unpackSign, toNat_mantissa_bits,
      toNat_exponent_bits, mantissa, exponent, h52, if_pos hsmall, if_pos hsmall]
    exact ⟨rfl, by omega, by omega⟩
  · have hlarge : ¬ x.magnitude < 2 ^ 52 := by
      rw [← BitVec.toNat_inj, toNat_exponent_bits, hzero] at hexponent
      omega
    have happend : (1#1 ++ @UnpackedFloat.unpackMantissa .binary64 x.bits.toBitVec).toNat =
        2 ^ 52 + x.magnitude % 2 ^ 52 := by
      rw [BitVec.toNat_append, ← Nat.shiftLeft_add_eq_or_of_lt (BitVec.isLt _), toNat_mantissa_bits]
      rfl
    rw [if_neg hexponent, UnpackedFloat.finite.injEq, ofBitVec_unpackSign, happend, toNat_exponent_bits, mantissa,
      exponent, h52, if_neg hlarge, if_neg hlarge]
    exact ⟨rfl, by omega, by omega⟩

end Unpacked

/-! ### Putting together -/

/-- The number that is put together. -/
def packed (f : UnpackedFloat) : Binary64 := ⟨.ofBitVec (f.pack .binary64)⟩

/-- The mantissa and the exponent of a number, which is not too small and need not be finite. -/
structure IsCanonical (m : Nat) (e : Int) : Prop where
  lt : m < 2 ^ 53
  least : -1074 ≤ e
  normal : e = -1074 ∨ 2 ^ 52 ≤ m

theorem toNat_packed (f : UnpackedFloat) : (packed f).bits.toNat = (f.pack .binary64).toNat := rfl

theorem packed_zero (negative : Bool) : packed (.zero (sign negative)) = ofMagnitude negative 0 := by
  cases negative <;> rfl

theorem packed_finite {m : Nat} {e : Int} (h : IsCanonical m e) (hm : 0 < m) (negative : Bool) :
    packed (.finite (sign negative) m e hm) =
      ofMagnitude negative (min ((e + 1074).toNat * 2 ^ 52 + m) infinityMagnitude) := by
  obtain ⟨hlt, hleast, hnormal⟩ := h
  have hbias : Float.Model.Format.binary64.exponentBias = 1023 := rfl
  have hinf : infinityMagnitude = 2047 * 2 ^ 52 := rfl
  have hones : (-1#11).toNat = 2047 := rfl
  have hroom : Float.Model.Format.binary64.mantissaBits = 53 := rfl
  apply eq_of_toNat
  rw [toNat_packed, toNat_ofMagnitude negative (by omega), UnpackedFloat.pack]
  simp only [hbias, hroom]
  obtain ⟨top, htop⟩ : ∃ top, top = (if negative = true then 1 else 0) * 2 ^ 63 := ⟨_, rfl⟩
  rw [← htop]
  by_cases hlarge : 2 ^ 11 ≤ (e + (1023 : Nat) + (52 : Nat)).toNat + 1
  · rw [if_pos hlarge, UnpackedFloat.packedInfinity, toNat_packComponents, toNat_sign, ← htop, hones,
      min_eq_right (by omega)]
    rfl
  rw [if_neg hlarge]
  by_cases hbits : m.log2 + 1 = 53
  · have hge : 2 ^ 52 ≤ m := by
      rw [← Nat.succ_injective hbits]
      exact Nat.log2_self_le hm.ne'
    rw [if_pos hbits, toNat_packComponents, toNat_sign, ← htop, BitVec.toNat_ofNat, BitVec.toNat_ofNat,
      min_eq_left (by omega)]
    omega
  · have hlog : m.log2 < 53 := (Nat.log2_lt hm.ne').mpr hlt
    have hsmall : m < 2 ^ 52 := (Nat.log2_lt hm.ne').mp (by omega)
    rw [if_neg hbits, toNat_packComponents, toNat_sign, ← htop, BitVec.toNat_ofNat, BitVec.toNat_ofNat,
      min_eq_left (by omega)]
    omega

/-- A number is put together from what it is taken apart into. -/
theorem packed_unpacked {x : Binary64} (hx : x.isFinite = true) : packed x.unpacked = x := by
  by_cases h0 : x.magnitude = 0
  · rw [unpacked_zero h0, packed_zero, ← h0, ofMagnitude_magnitude]
  · obtain ⟨hpos, hlt, hleast, hnormal, hmagnitude⟩ := mantissa_bounds h0
    rw [isFinite, decide_eq_true_eq] at hx
    rw [unpacked_finite (by simpa [isFinite] using hx) h0, packed_finite ⟨hlt, hleast, hnormal⟩, hmagnitude,
      min_eq_left hx.le, ofMagnitude_magnitude]

/-! ### What is known of the bits that are dropped -/

/-- The mantissa is the whole part of the quotient. The round bit tells whether the rest is a half or more, and the
sticky bit whether it is anything but nothing or a half. -/
structure Tells (em : ExtendedMantissa) (num den : Nat) : Prop where
  mantissa : em.mantissa = num / den
  round : em.roundBit = decide (den ≤ 2 * (num % den))
  sticky : em.stickyBit = decide (num % den ≠ 0 ∧ 2 * (num % den) ≠ den)

variable {em : ExtendedMantissa} {num den : Nat}

/-- The mantissa is rounded to what the quotient is rounded to. -/
theorem Tells.roundedMantissa (h : Tells em num den) (hden : 0 < den) :
    em.roundedMantissa = roundQuotient num den := by
  obtain ⟨m, round, sticky⟩ := em
  obtain ⟨hm, hround, hsticky⟩ := h
  simp only at hm hround hsticky
  subst hm hround hsticky
  have hlt := Nat.mod_lt num hden
  rw [ExtendedMantissa.roundedMantissa, roundQuotient]
  simp only [Bool.or_eq_true, Bool.and_eq_true, decide_eq_true_eq, beq_iff_eq]
  by_cases hhalf : den ≤ 2 * (num % den)
  · by_cases htie : 2 * (num % den) = den
    · rw [decide_eq_true hhalf, decide_eq_false fun h => h.2 htie]
      simp only [ExtendedMantissa.accuracy, Accuracy.roundToNearestEven]
      split_ifs <;> omega
    · rw [decide_eq_true hhalf, decide_eq_true ⟨by omega, htie⟩, if_pos (Or.inl (by omega))]
      rfl
  · rw [decide_eq_false hhalf, if_neg (by omega)]
    cases hrest : decide (num % den ≠ 0 ∧ 2 * (num % den) ≠ den) <;> rfl

/-- One more bit that is dropped is one more factor two below. -/
theorem Tells.shiftRightOne (h : Tells em num den) (hden : 0 < den) : Tells em.shiftRightOne num (den * 2) := by
  obtain ⟨m, round, sticky⟩ := em
  obtain ⟨hm, hround, hsticky⟩ := h
  simp only at hm hround hsticky
  have hlt := Nat.mod_lt num hden
  have hrest : num % (den * 2) = num % den + den * (num / den % 2) := Nat.mod_mul
  refine ⟨?_, ?_, ?_⟩
  · rw [ExtendedMantissa.shiftRightOne, hm, Nat.div_div_eq_div_mul]
  · rw [ExtendedMantissa.shiftRightOne, hm, hrest, Bool.eq_iff_iff, bne_iff_ne, decide_eq_true_eq]
    rcases Nat.mod_two_eq_zero_or_one (num / den) with hbit | hbit <;> rw [hbit] <;> omega
  · rw [ExtendedMantissa.shiftRightOne, hround, hsticky, hrest, Bool.eq_iff_iff, Bool.or_eq_true,
      decide_eq_true_eq, decide_eq_true_eq, decide_eq_true_eq]
    rcases Nat.mod_two_eq_zero_or_one (num / den) with hbit | hbit <;> rw [hbit] <;> omega

theorem Tells.shift (h : Tells em num den) (hden : 0 < den) : ∀ k : Nat, Tells (em >>> k) num (den * 2 ^ k)
  | 0 => by
    rw [pow_zero, mul_one]
    exact h
  | k + 1 => by
    have hnext := (h.shift hden k).shiftRightOne (by positivity)
    rw [mul_assoc, ← pow_succ] at hnext
    exact hnext

theorem tells_exact (m : Nat) : Tells (.ofMantissaAndAccuracy m .exact) m 1 :=
  ⟨(Nat.div_one m).symm, by rw [Nat.mod_one]; rfl, by rw [Nat.mod_one]; rfl⟩

/-- What a division leaves is told by its whole part and the rest. -/
theorem tells_fraction (num : Nat) (hden : 0 < den) :
    Tells (.ofMantissaAndAccuracy (num / den) (UnpackedFloat.accuracyOfFraction (num % den) den)) num den := by
  rw [UnpackedFloat.accuracyOfFraction]
  split_ifs with hrest
  · refine ⟨rfl, ?_, ?_⟩
    · rw [hrest, decide_eq_false (by omega)]
      rfl
    · rw [hrest, decide_eq_false (by omega)]
      rfl
  · rcases lt_trichotomy (2 * (num % den)) den with h | h | h
    · rw [Nat.compare_eq_lt.mpr h]
      exact ⟨rfl, (decide_eq_false (by omega)).symm, (decide_eq_true (by omega)).symm⟩
    · rw [Nat.compare_eq_eq.mpr h]
      exact ⟨rfl, (decide_eq_true (by omega)).symm, (decide_eq_false (by omega)).symm⟩
    · rw [Nat.compare_eq_gt.mpr h]
      exact ⟨rfl, (decide_eq_true (by omega)).symm, (decide_eq_true (by omega)).symm⟩

/-! ### Rounding -/

theorem roundQuotient_congr {num den num' den' : Nat} (hden : 0 < den) (hden' : 0 < den')
    (h : num * den' = num' * den) : roundQuotient num den = roundQuotient num' den' := by
  rw [← roundQuotient_mul num den hden', ← roundQuotient_mul num' den' hden, h, mul_comm den den']

theorem logTwo_eq {num den : Nat} (hnum : 0 < num) (hden : 0 < den) {l : Int}
    (hlow : (2 : ℚ) ^ l ≤ (num : ℚ) / den) (hup : (num : ℚ) / den < (2 : ℚ) ^ (l + 1)) : logTwo num den = l := by
  obtain ⟨hlow', hup'⟩ := logTwo_bounds hnum hden
  have hle := (zpow_lt_zpow_iff_right₀ (by norm_num : (1 : ℚ) < 2)).mp (hlow.trans_lt hup')
  have hge := (zpow_lt_zpow_iff_right₀ (by norm_num : (1 : ℚ) < 2)).mp (hlow'.trans_lt hup)
  omega

/-- The exponent that a number is rounded to. -/
def target (m : Nat) (e : Int) : Int := max (m.log2 + e - 52) (-1074)

theorem targetExponent_eq (m : Nat) (e : Int) :
    Float.Model.Format.targetExponent .binary64 (Float.Model.totalExponent m e) = target m e := by
  have hbits : Float.Model.Format.binary64.mantissaBits = 53 := rfl
  have hleast : Float.Model.Format.binary64.minExponent = -1074 := by decide
  rw [Float.Model.Format.targetExponent, Float.Model.totalExponent, hbits, hleast, target]
  congr 1
  push_cast
  ring

/-- The value of a quotient that is moved by an exponent. -/
theorem scaled_div (num den : Nat) (e : Int) :
    ((num * 2 ^ e.toNat : Nat) : ℚ) / (den * 2 ^ (-e).toNat : Nat) = (num : ℚ) / den * 2 ^ e := by
  rcases le_total 0 e with he | he
  · obtain ⟨k, rfl⟩ := Int.eq_ofNat_of_zero_le he
    rw [Int.toNat_natCast, Int.toNat_neg_natCast, zpow_natCast]
    push_cast
    ring
  · obtain ⟨k, rfl⟩ : ∃ k : Nat, e = -(k : Int) := ⟨(-e).toNat, by omega⟩
    rw [neg_neg, Int.toNat_natCast, Int.toNat_neg_natCast, zpow_neg, zpow_natCast]
    push_cast
    field_simp

/-- The exponent of a quotient is found from its whole part, if that has enough bits. -/
theorem roundingExponent_scaled {e : Int} (hnum : 0 < num) (hden : 0 < den) (hlow : e ≤ target (num / den) e) :
    roundingExponent (num * 2 ^ e.toNat) (den * 2 ^ (-e).toNat) = target (num / den) e := by
  have hnum' : 0 < num * 2 ^ e.toNat := by positivity
  have hden' : 0 < den * 2 ^ (-e).toNat := by positivity
  have hdenq : (0 : ℚ) < den := by exact_mod_cast hden
  have hpow : (0 : ℚ) < 2 ^ e := by positivity
  rw [roundingExponent]
  rcases Nat.eq_zero_or_pos (num / den) with hm | hm
  · -- less than one unit: both exponents are the least one
    rw [hm, target, Nat.log2_zero] at hlow ⊢
    obtain ⟨hle, -⟩ := logTwo_bounds hnum' hden'
    have hsmall : (num : ℚ) / den < 1 := by
      rw [div_lt_one hdenq]
      exact_mod_cast (Nat.div_eq_zero_iff_lt hden).mp hm
    rw [scaled_div] at hle
    have hlt : (2 : ℚ) ^ logTwo (num * 2 ^ e.toNat) (den * 2 ^ (-e).toNat) < 2 ^ e :=
      hle.trans_lt (mul_lt_of_lt_one_left hpow hsmall)
    have hlog := (zpow_lt_zpow_iff_right₀ (by norm_num : (1 : ℚ) < 2)).mp hlt
    omega
  · have hself : ((2 ^ (num / den).log2 : Nat) : ℚ) ≤ (num : ℚ) / den :=
      (Nat.cast_le.mpr (Nat.log2_self_le hm.ne')).trans Nat.cast_div_le
    have hnext : (num : ℚ) / den < ((2 ^ ((num / den).log2 + 1) : Nat) : ℚ) := by
      rw [div_lt_iff₀ hdenq]
      exact_mod_cast (Nat.div_lt_iff_lt_mul hden).mp (Nat.lt_log2_self (n := num / den))
    rw [target, logTwo_eq (l := (num / den).log2 + e) hnum' hden']
    · rw [scaled_div, zpow_add₀ two_ne_zero, zpow_natCast]
      push_cast at hself
      gcongr
    · rw [scaled_div, add_right_comm, zpow_add₀ two_ne_zero, ← Nat.cast_succ, zpow_natCast]
      push_cast at hnext
      gcongr

/-- What is put together after rounding. -/
def settled (negative : Bool) (m : Nat) (e : Int) : UnpackedFloat :=
  if h : m = 0 then .zero (sign negative) else .finite (sign negative) m e (Nat.pos_of_ne_zero h)

theorem packed_settled {m : Nat} {e : Int} (h : IsCanonical m e) (negative : Bool) :
    packed (settled negative m e) =
      ofMagnitude negative (min ((e + 1074).toNat * 2 ^ 52 + m) infinityMagnitude) := by
  rw [settled]
  split_ifs with h0
  · have hleast : e = -1074 := h.normal.resolve_right (by omega)
    rw [packed_zero, h0, hleast]
    rfl
  · exact packed_finite h _ negative

/-- The second shift, after rounding: it takes a bit off where the mantissa has grown by one. -/
theorem packed_shifted {r : Nat} {e : Int} (hr : r ≤ 2 ^ 53) (hleast : -1074 ≤ e) (hnormal : e ≠ -1074 → 2 ^ 52 ≤ r)
    (negative : Bool) :
    packed (settled negative (UnpackedFloat.shiftToTargetExponent .binary64 r e .exact).1.mantissa
        (UnpackedFloat.shiftToTargetExponent .binary64 r e .exact).2) =
      ofMagnitude negative (min ((e + 1074).toNat * 2 ^ 52 + r) infinityMagnitude) := by
  have hshift : UnpackedFloat.shiftToTargetExponent .binary64 r e .exact =
      (ExtendedMantissa.ofMantissaAndAccuracy r .exact >>> (target r e - e).toNat,
        e + ((target r e - e).toNat : Int)) := by
    rw [UnpackedFloat.shiftToTargetExponent, UnpackedFloat.shiftToExponent, targetExponent_eq]
  rw [hshift]
  rcases hr.lt_or_eq with hlt | rfl
  · have hlog : r.log2 ≤ 52 := by
      rcases Nat.eq_zero_or_pos r with rfl | hpos
      · decide
      · exact Nat.le_of_lt_succ ((Nat.log2_lt hpos.ne').mpr hlt)
    have hstay : (target r e - e).toNat = 0 := by
      rw [target]
      omega
    have hmantissa : (ExtendedMantissa.ofMantissaAndAccuracy r .exact >>> 0).mantissa = r := rfl
    rw [hstay, hmantissa, Nat.cast_zero, add_zero, packed_settled ⟨hlt, hleast, by omega⟩]
  · have hlog : Nat.log2 (2 ^ 53) = 53 := Nat.log2_two_pow
    have hmove : (target (2 ^ 53) e - e).toNat = 1 := by
      rw [target, hlog]
      omega
    have hmantissa : (ExtendedMantissa.ofMantissaAndAccuracy (2 ^ 53) .exact >>> 1).mantissa = 2 ^ 52 := rfl
    have hsame : (e + ((1 : Nat) : Int) + 1074).toNat * 2 ^ 52 + 2 ^ 52 = (e + 1074).toNat * 2 ^ 52 + 2 ^ 53 := by
      omega
    rw [hmove, hmantissa, packed_settled ⟨by norm_num, by omega, Or.inr le_rfl⟩, hsame]

/-- **Rounding is to the nearest.** A mantissa with what is known of the dropped bits is rounded and put together to
the number that is nearest to the quotient it tells. -/
theorem packed_roundWithAccuracy {m : Nat} {e : Int} {accuracy : Accuracy} (hnum : 0 < num) (hden : 0 < den)
    (h : Tells (.ofMantissaAndAccuracy m accuracy) num den) (hlow : e ≤ target m e) (negative : Bool) :
    packed (.roundWithAccuracy .binary64 (sign negative) m e accuracy) =
      ofRatio negative (num * 2 ^ e.toNat) (den * 2 ^ (-e).toNat) := by
  have hm : m = num / den := by
    rw [← h.mantissa]
    rcases accuracy with _ | _ | _ | _ <;> rfl
  subst hm
  have hnum' : 0 < num * 2 ^ e.toNat := by positivity
  have hden' : 0 < den * 2 ^ (-e).toNat := by positivity
  have hexponent := roundingExponent_scaled hnum hden hlow
  obtain ⟨hup, hnormal⟩ := unitsAt_bounds hnum' hden'
  set k := (target (num / den) e - e).toNat with hk
  have hk' : (k : Int) = target (num / den) e - e := Int.toNat_of_nonneg (by omega)
  have hround : (ExtendedMantissa.ofMantissaAndAccuracy (num / den) accuracy >>> k).roundedMantissa =
      unitsAt (target (num / den) e) (num * 2 ^ e.toNat) (den * 2 ^ (-e).toNat) := by
    rw [(h.shift hden k).roundedMantissa (by positivity), unitsAt]
    refine roundQuotient_congr (by positivity) (by positivity) ?_
    have hpow : (-e).toNat + (target (num / den) e).toNat = e.toNat + (-target (num / den) e).toNat + k := by
      omega
    calc num * (den * 2 ^ (-e).toNat * 2 ^ (target (num / den) e).toNat)
        = num * den * 2 ^ ((-e).toNat + (target (num / den) e).toNat) := by rw [pow_add]; ring
      _ = num * den * 2 ^ (e.toNat + (-target (num / den) e).toNat + k) := by rw [hpow]
      _ = num * 2 ^ e.toNat * 2 ^ (-target (num / den) e).toNat * (den * 2 ^ k) := by
        rw [pow_add, pow_add]; ring
  have hfirst : UnpackedFloat.shiftToTargetExponent .binary64 (num / den) e accuracy =
      (ExtendedMantissa.ofMantissaAndAccuracy (num / den) accuracy >>> k, target (num / den) e) := by
    rw [UnpackedFloat.shiftToTargetExponent, UnpackedFloat.shiftToExponent, targetExponent_eq, ← hk, hk']
    congr 1
    ring
  rw [hexponent] at hup hnormal
  rw [UnpackedFloat.roundWithAccuracy, hfirst]
  dsimp only
  rw [hround]
  have hleast : -1074 ≤ target (num / den) e := le_max_right _ _
  refine (packed_shifted hup hleast hnormal negative).trans ?_
  have hmagnitude := magnitude_ofRatio negative hnum'.ne' (den * 2 ^ (-e).toNat)
  rw [hexponent] at hmagnitude
  rw [← hmagnitude]
  nth_rewrite 1 [← isNegative_ofRatio negative (num * 2 ^ e.toNat) (den * 2 ^ (-e).toNat)]
  exact ofMagnitude_magnitude _

end Binary64
end SelectLang
