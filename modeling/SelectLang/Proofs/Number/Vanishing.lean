/-
# Floats that vanish as decimals

A decimal has no more than 28 digits behind its point, so a small float is cut when it becomes one. It is cut digit
by digit, a five going up, and nothing is left of it once the digits run out before the cuts: what is kept is what
is above `17 / 18 * 10 ^ -28` (`leastSize`), and the rest is a zero.

The bound is met exactly. Halving makes a number smaller by less than one part in `2 ^ 94` at a time
(`le_value_halve`), which is much less than what lies between the bound and the first float above it
(`leastSize_lt_value`).

Key definitions: `Binary64.size`, `Fixed.leastSize`.
Key theorems: `Fixed.le_value_halve`, `Fixed.cut_eq`, `Fixed.settle_digits`, `Fixed.ofFloat?_vanishes`,
`Fixed.ofFloat?_kept`.
-/
import Mathlib
import SelectLang.Proofs.Number.Decimals

namespace SelectLang

/-- The size of a finite number. -/
def Binary64.size (x : Binary64) : ℚ := (x.units : ℚ) / Binary64.unitsOfOne

namespace Fixed

/-- Floats up to this size are zeros as decimals. -/
def leastSize : ℚ := 17 / (18 * 10 ^ 28)

/-- The number that the digits stand for. -/
def Unscaled.value (u : Unscaled) : ℚ := u.digits * 10 ^ u.exponent

/-! ### Halving -/

/-- What is left of a number when it is still to be halved so often. -/
def halved (count : Nat) (u : Unscaled) : ℚ := u.digits * 10 ^ (u.exponent + count) / 2 ^ count

theorem halved_zero (u : Unscaled) : halved 0 u = u.value := by
  rw [halved, Unscaled.value, pow_zero, div_one, Nat.cast_zero, add_zero]

/-- At most so much of a number is lost when it is halved. -/
def loss : ℚ := 5 / 2 ^ 96

/-- The digits are halved, with a loss if they are odd and many. -/
theorem halved_half {m : Nat} (count : Nat) (e : ℤ) (h : m % 2 = 0 ∨ capacity ≤ m * 5) :
    halved (count + 1) ⟨m, e⟩ * (1 - loss) ≤ halved count ⟨m / 2, e + 1⟩ ∧
      halved count ⟨m / 2, e + 1⟩ ≤ halved (count + 1) ⟨m, e⟩ := by
  have hpow : (0 : ℚ) < 10 ^ (e + 1 + count) / 2 ^ count := by positivity
  have hfactor : halved count ⟨m / 2, e + 1⟩ = ((m / 2 : Nat) : ℚ) * (10 ^ (e + 1 + count) / 2 ^ count) := by
    rw [halved, mul_div_assoc]
  have hfactor' : halved (count + 1) ⟨m, e⟩ = (m : ℚ) / 2 * (10 ^ (e + 1 + count) / 2 ^ count) := by
    have hexponent : e + ((count + 1 : Nat) : ℤ) = e + 1 + count := by
      push_cast
      ring
    rw [halved, hexponent, pow_succ]
    ring
  have hhalf : ((m / 2 : Nat) : ℚ) ≤ (m : ℚ) / 2 := Nat.cast_div_le
  rw [hfactor, hfactor', mul_right_comm]
  refine ⟨mul_le_mul_of_nonneg_right ?_ hpow.le, mul_le_mul_of_nonneg_right hhalf hpow.le⟩
  rcases h with heven | hmany
  · have hexact : ((m / 2 : Nat) : ℚ) = (m : ℚ) / 2 := Nat.cast_div (Nat.dvd_of_mod_eq_zero heven) two_ne_zero
    rw [hexact]
    have hpos : (0 : ℚ) ≤ (m : ℚ) / 2 := by positivity
    have hloss : (0 : ℚ) ≤ loss := by rw [loss]; positivity
    nlinarith
  · have hmany' : (2 : ℚ) ^ 96 ≤ m * 5 := by exact_mod_cast hmany
    have hlow : (m : ℚ) ≤ 2 * ((m / 2 : Nat) : ℚ) + 1 := by exact_mod_cast (by omega : m ≤ 2 * (m / 2) + 1)
    rw [loss]
    linarith

theorem halved_fifth {m count : Nat} (e : ℤ) : halved count ⟨m * 5, e⟩ = halved (count + 1) ⟨m, e⟩ := by
  rw [halved, halved, Nat.cast_succ, ← add_assoc, zpow_add_one₀ (by norm_num), pow_succ]
  push_cast
  ring

theorem halved_nonneg (count : Nat) (u : Unscaled) : 0 ≤ halved count u := by
  rw [halved]
  positivity

/-- Halving takes no more than the loss each time, and leaves some digits. -/
theorem le_value_halve : ∀ (count : Nat) {u : Unscaled}, 0 < u.digits →
    halved count u * (1 - loss) ^ count ≤ (Unscaled.halve count u).value ∧
      (Unscaled.halve count u).value ≤ halved count u ∧ 0 < (Unscaled.halve count u).digits ∧
      (Unscaled.halve count u).exponent ≤ u.exponent + count
  | 0, u, h => by
    rw [pow_zero, mul_one, halved_zero]
    exact ⟨le_rfl, le_rfl, h, by simp [Unscaled.halve]⟩
  | count + 1, ⟨m, e⟩, h => by
    have hkept : (0 : ℚ) ≤ 1 - loss := by norm_num [loss]
    have hstep : ∀ {v : Unscaled}, 0 < v.digits → v.exponent ≤ e + 1 →
        halved (count + 1) ⟨m, e⟩ * (1 - loss) ≤ halved count v → halved count v ≤ halved (count + 1) ⟨m, e⟩ →
        halved (count + 1) ⟨m, e⟩ * (1 - loss) ^ (count + 1) ≤ (Unscaled.halve count v).value ∧
          (Unscaled.halve count v).value ≤ halved (count + 1) ⟨m, e⟩ ∧ 0 < (Unscaled.halve count v).digits ∧
          (Unscaled.halve count v).exponent ≤ e + (count + 1 : Nat) := by
      intro v hv he hlow hup
      obtain ⟨ihlow, ihup, ihpos, ihexp⟩ := le_value_halve count hv
      refine ⟨?_, ihup.trans hup, ihpos, by push_cast; omega⟩
      calc halved (count + 1) ⟨m, e⟩ * (1 - loss) ^ (count + 1)
          = halved (count + 1) ⟨m, e⟩ * (1 - loss) * (1 - loss) ^ count := by rw [pow_succ']; ring
        _ ≤ halved count v * (1 - loss) ^ count := mul_le_mul_of_nonneg_right hlow (pow_nonneg hkept count)
        _ ≤ _ := ihlow
    dsimp only at h
    rw [Unscaled.halve]
    split_ifs with heven hroom
    · obtain ⟨hlow, hup⟩ := halved_half count e (Or.inl heven)
      exact hstep (by dsimp only; omega) le_rfl hlow hup
    · refine hstep (by dsimp only; omega) (by dsimp only; omega) ?_ (halved_fifth e).le
      rw [halved_fifth]
      exact mul_le_of_le_one_right (halved_nonneg _ _) (by norm_num [loss])
    · obtain ⟨hlow, hup⟩ := halved_half count e (Or.inr (not_lt.mp hroom))
      have hcapacity : capacity = 2 ^ 96 := rfl
      exact hstep (by dsimp only; omega) le_rfl hlow hup

/-! ### Cutting -/

/-- One digit less, a five going up. -/
def tenth (m : Nat) : Nat := if 5 ≤ m % 10 then m / 10 + 1 else m / 10

theorem tenth_eq (m : Nat) : tenth m = (m + 5) / 10 := by
  rw [tenth]
  split_ifs <;> omega

theorem cut_succ (count m : Nat) (e : ℤ) : Unscaled.cut (count + 1) ⟨m, e⟩ =
    if m / 10 = 0 then ⟨0, 0⟩ else Unscaled.cut count ⟨tenth m, e + 1⟩ := rfl

theorem trim_succ (count m : Nat) (e : ℤ) : Unscaled.trim (count + 1) ⟨m, e⟩ =
    if m < 2 ^ 52 then ⟨m, e⟩ else Unscaled.trim count ⟨tenth m, e + 1⟩ := rfl

/-- The least digits of which something is left after one cut and so many more. -/
def leastKept : Nat → Nat
  | 0 => 10
  | more + 1 => 10 * leastKept more - 5

theorem leastKept_eq : ∀ more, 18 * leastKept more = 17 * 10 ^ (more + 1) + 10
  | 0 => rfl
  | more + 1 => by
    have ih := leastKept_eq more
    rw [leastKept, pow_succ]
    omega

/-- What is left of the digits after cuts: nothing if they are too few. -/
theorem cut_eq : ∀ (more m : Nat) (e : ℤ),
    (m < leastKept more → Unscaled.cut (more + 1) ⟨m, e⟩ = ⟨0, 0⟩) ∧
      (leastKept more ≤ m → ∃ d, 0 < d ∧ Unscaled.cut (more + 1) ⟨m, e⟩ = ⟨d, e + (more + 1 : Nat)⟩)
  | 0, m, e => by
    rw [cut_succ, leastKept]
    refine ⟨fun h => if_pos (by omega), fun h => ?_⟩
    rw [if_neg (by omega)]
    exact ⟨tenth m, by rw [tenth_eq]; omega, rfl⟩
  | more + 1, m, e => by
    have hleast := leastKept_eq more
    obtain ⟨hgone, hkept⟩ := cut_eq more (tenth m) (e + 1)
    rw [tenth_eq] at hgone hkept
    rw [cut_succ, tenth_eq, leastKept]
    refine ⟨fun h => ?_, fun h => ?_⟩
    · split_ifs
      · rfl
      · exact hgone (by omega)
    · obtain ⟨d, hd, hcut⟩ := hkept (by omega)
      rw [if_neg (by omega)]
      refine ⟨d, hd, hcut.trans ?_⟩
      push_cast
      congr 1
      ring

/-! ### Trimming and stripping -/

theorem trim_digits : ∀ (count : Nat) {u : Unscaled}, 0 < u.digits →
    0 < (u.trim count).digits ∧ u.exponent ≤ (u.trim count).exponent
  | 0, u, h => ⟨h, le_rfl⟩
  | count + 1, ⟨m, e⟩, h => by
    rw [trim_succ]
    split_ifs with hfew
    · exact ⟨h, le_rfl⟩
    · obtain ⟨hpos, hle⟩ := trim_digits count (u := ⟨tenth m, e + 1⟩) (by dsimp only; rw [tenth_eq]; omega)
      exact ⟨hpos, (Int.le_add_one le_rfl).trans hle⟩

theorem strip_digits : ∀ (count : Nat) {u : Unscaled}, 0 < u.digits →
    0 < (u.strip count).digits ∧ u.exponent ≤ (u.strip count).exponent
  | 0, u, h => ⟨h, le_rfl⟩
  | count + 1, ⟨m, e⟩, h => by
    dsimp only at h
    rw [Unscaled.strip]
    split_ifs with hzero
    · obtain ⟨hpos, hle⟩ := strip_digits count (u := ⟨m / 10, e + 1⟩) (by dsimp only; omega)
      exact ⟨hpos, (Int.le_add_one le_rfl).trans hle⟩
    · exact ⟨h, le_rfl⟩

/-- Trimming and stripping leave a zero what it is. -/
theorem settle_of_cut {u v : Unscaled} (h : u.cut (below u.exponent - greatestScale) = v) :
    u.settle = (v.trim (below v.exponent)).strip (below (v.trim (below v.exponent)).exponent) := by
  rw [← h]
  rfl

/-- Digits that are settled are a decimal, which is zero if the number is too small. -/
theorem settle_digits {u : Unscaled} (h : 0 < u.digits) :
    (u.value ≤ leastSize → u.settle.digits = 0) ∧
      (leastSize < u.value → 0 < u.settle.digits ∧ below u.settle.exponent ≤ greatestScale) := by
  have hscale : greatestScale = 28 := rfl
  have hkept : ∀ {v : Unscaled}, u.cut (below u.exponent - greatestScale) = v → 0 < v.digits → -28 ≤ v.exponent →
      0 < u.settle.digits ∧ below u.settle.exponent ≤ greatestScale := by
    intro v hcut hv hexponent
    obtain ⟨htrim, hle⟩ := trim_digits (below v.exponent) hv
    obtain ⟨hstrip, hle'⟩ := strip_digits (below (v.trim (below v.exponent)).exponent) htrim
    rw [settle_of_cut hcut]
    refine ⟨hstrip, ?_⟩
    rw [below, hscale]
    omega
  obtain ⟨m, e⟩ := u
  dsimp only at h hkept
  by_cases he : -28 ≤ e
  · have hnone : below e - greatestScale = 0 := by
      rw [below, hscale]
      omega
    have hlarge : leastSize < Unscaled.value ⟨m, e⟩ := by
      have hone : (1 : ℚ) ≤ m := by exact_mod_cast h
      calc leastSize < 1 * 10 ^ (-28 : ℤ) := by norm_num [leastSize]
        _ ≤ m * 10 ^ e := mul_le_mul hone (zpow_le_zpow_right₀ (by norm_num) he) (by positivity) (by positivity)
    rw [hnone] at hkept
    exact ⟨fun hle => absurd hlarge hle.not_gt, fun _ => hkept rfl h he⟩
  · obtain ⟨more, hmore⟩ : ∃ more : Nat, e = -28 - (more + 1 : Nat) := ⟨(-29 - e).toNat, by push_cast; omega⟩
    have hcount : below e - greatestScale = more + 1 := by
      rw [below, hscale, hmore]
      push_cast
      omega
    have hvalue : leastSize < Unscaled.value ⟨m, e⟩ ↔ leastKept more ≤ m := by
      have hleast := leastKept_eq more
      have hnat : leastKept more ≤ m ↔ 17 * 10 ^ (more + 1) < 18 * m := by omega
      have hcast : (17 * 10 ^ (more + 1) < 18 * m) ↔ (17 : ℚ) * 10 ^ (more + 1) < 18 * m := by norm_cast
      rw [hnat, hcast, Unscaled.value, hmore, leastSize, zpow_sub₀ (by norm_num), zpow_natCast,
        div_lt_iff₀ (by norm_num), mul_div_assoc', div_mul_eq_mul_div, lt_div_iff₀ (by positivity)]
      have hten : (10 : ℚ) ^ (-28 : ℤ) * 10 ^ 28 = 1 := by norm_num
      have hright : (m : ℚ) * 10 ^ (-28 : ℤ) * (18 * 10 ^ 28) = 18 * m := by linear_combination 18 * (m : ℚ) * hten
      rw [hright]
    obtain ⟨hgone, hkeep⟩ := cut_eq more m e
    rw [hcount] at hkept
    refine ⟨fun hle => ?_, fun hlt => ?_⟩
    · have hcut := hgone (not_le.mp fun hge => absurd (hvalue.mpr hge) hle.not_gt)
      rw [settle_of_cut (u := ⟨m, e⟩) (hcount ▸ hcut)]
      rfl
    · obtain ⟨d, hd, hcut⟩ := hkeep (hvalue.mp hlt)
      exact hkept hcut hd (by dsimp only; omega)

/-! ### Floats below one -/

/-- The first float above the bound. -/
def firstKept : Binary64 := ⟨0x3a1dee3e5e685ac3⟩

/-- The last float up to the bound. -/
def lastGone : Binary64 := ⟨0x3a1dee3e5e685ac2⟩

theorem size_le_size {x y : Binary64} (h : x.magnitude ≤ y.magnitude) : x.size ≤ y.size := by
  rw [Binary64.size, Binary64.size]
  have hle : (x.units : ℚ) ≤ y.units := by exact_mod_cast Binary64.units_le_units h
  exact div_le_div_of_nonneg_right hle (Nat.cast_nonneg _)

theorem size_lastGone : lastGone.size ≤ leastSize := by
  have hunits : lastGone.units * (18 * 10 ^ 28) ≤ 17 * Binary64.unitsOfOne := by decide +kernel
  have hone : (0 : ℚ) < Binary64.unitsOfOne := by exact_mod_cast Binary64.unitsOfOne_pos
  rw [Binary64.size, leastSize, div_le_div_iff₀ hone (by norm_num)]
  exact_mod_cast hunits

theorem leastSize_lt_firstKept : leastSize < firstKept.size * (1 - 1074 * loss) := by
  have hunits : 17 * Binary64.unitsOfOne * 2 ^ 96 < firstKept.units * (18 * 10 ^ 28) * (2 ^ 96 - 5370) := by
    decide +kernel
  have hone : (0 : ℚ) < Binary64.unitsOfOne := by exact_mod_cast Binary64.unitsOfOne_pos
  have hunits' : (17 : ℚ) * Binary64.unitsOfOne * 2 ^ 96 <
      firstKept.units * (18 * 10 ^ 28) * (2 ^ 96 - 5370) := by
    have hsub : ((2 ^ 96 - 5370 : Nat) : ℚ) = 2 ^ 96 - 5370 := by
      rw [Nat.cast_sub (by norm_num)]
      norm_num
    rw [← hsub]
    exact_mod_cast hunits
  rw [Binary64.size, leastSize, loss, div_mul_eq_mul_div, div_lt_div_iff₀ (by norm_num) hone]
  generalize (Binary64.unitsOfOne : ℚ) = one at *
  generalize (firstKept.units : ℚ) = units at *
  linarith

/-- A float above the bound is at least the first one. -/
theorem firstKept_le {x : Binary64} (h : leastSize < x.size) : firstKept.size ≤ x.size := by
  have hnext : firstKept.magnitude = lastGone.magnitude + 1 := by decide +kernel
  refine size_le_size (not_lt.mp fun hlt => ?_)
  exact absurd ((size_le_size (by omega)).trans size_lastGone) h.not_ge

/-- The size of a number below one is its mantissa, halved as often as its exponent says. -/
theorem halved_mantissa {x : Binary64} (he : x.exponent < 0) :
    halved (below x.exponent) ⟨x.mantissa, x.exponent⟩ = x.size := by
  have hbelow : ((below x.exponent : Nat) : ℤ) = -x.exponent := by
    rw [below]
    omega
  have hunits : x.units * 2 ^ below x.exponent = x.mantissa * Binary64.unitsOfOne := by
    have hle := Binary64.le_exponent x
    rw [Binary64.units, Binary64.unitsOfOne, mul_assoc, ← pow_add, below]
    congr 2
    omega
  have hone : (Binary64.unitsOfOne : ℚ) ≠ 0 := by exact_mod_cast Binary64.unitsOfOne_pos.ne'
  rw [halved, hbelow, add_neg_cancel, zpow_zero, mul_one, Binary64.size, div_eq_div_iff (by positivity) hone]
  exact_mod_cast hunits.symm

/-- **No float above the bound falls below it** when its binary exponent is used up. -/
theorem leastSize_lt_value {x : Binary64} (he : x.exponent < 0) (hm : 0 < x.mantissa) (h : leastSize < x.size) :
    leastSize < (Unscaled.halve (below x.exponent) ⟨x.mantissa, x.exponent⟩).value := by
  have hcount : below x.exponent ≤ 1074 := by
    have hle := Binary64.le_exponent x
    rw [below]
    omega
  have hcount' : ((below x.exponent : Nat) : ℚ) ≤ 1074 := by exact_mod_cast hcount
  obtain ⟨hlow, -⟩ := le_value_halve (below x.exponent) (u := ⟨x.mantissa, x.exponent⟩) hm
  rw [halved_mantissa he] at hlow
  have hsize : 0 ≤ x.size := (by norm_num [leastSize] : (0 : ℚ) ≤ leastSize).trans h.le
  have hloss : (0 : ℚ) ≤ loss := by norm_num [loss]
  have hbernoulli := one_add_mul_le_pow (a := -loss) (by norm_num [loss]) (below x.exponent)
  calc leastSize < firstKept.size * (1 - 1074 * loss) := leastSize_lt_firstKept
    _ ≤ x.size * (1 - 1074 * loss) := mul_le_mul_of_nonneg_right (firstKept_le h) (by norm_num [loss])
    _ ≤ x.size * (1 - loss) ^ below x.exponent := by
      refine mul_le_mul_of_nonneg_left ?_ hsize
      rw [← sub_eq_add_neg] at hbernoulli
      refine le_trans ?_ hbernoulli
      nlinarith
    _ ≤ _ := hlow

/-! ### Floats from one on -/

theorem double?_digits : ∀ (count : Nat) {u v : Unscaled}, 0 < u.digits → (count : ℤ) ≤ u.exponent →
    u.double? count = some v → 0 < v.digits ∧ 0 ≤ v.exponent
  | 0, u, v, h, he, hv => by
    cases hv
    exact ⟨h, he⟩
  | count + 1, ⟨m, e⟩, v, h, he, hv => by
    have h95 : Nat.pow 2 95 = 2 ^ 95 := rfl
    dsimp only at h he
    rw [Unscaled.double?, h95] at hv
    split_ifs at hv with hroom hnone
    · exact double?_digits count (u := ⟨m * 2, e - 1⟩) (by dsimp only; omega) (by dsimp only; omega) hv
    · exact double?_digits count (u := ⟨m / 5, e⟩) (by dsimp only; omega) (by dsimp only; omega) hv

theorem raise?_digits : ∀ (count : Nat) {u v : Unscaled}, 0 < u.digits → u.raise? count = some v →
    0 < v.digits ∧ v.exponent = u.exponent - count
  | 0, u, v, h, hv => by
    cases hv
    exact ⟨h, by simp⟩
  | count + 1, ⟨m, e⟩, v, h, hv => by
    dsimp only at h
    rw [Unscaled.raise?] at hv
    split_ifs at hv with hroom
    obtain ⟨hpos, hexponent⟩ := raise?_digits count (u := ⟨m * 10, e - 1⟩) (by dsimp only; omega) hv
    exact ⟨hpos, by rw [hexponent]; push_cast; ring⟩

/-! ### What becomes of a float -/

variable {x : Binary64}

theorem leastSize_lt_one : leastSize < 1 := by norm_num [leastSize]

theorem leastSize_lt_value_of_one {u : Unscaled} (h : 0 < u.digits) (he : 0 ≤ u.exponent) : leastSize < u.value := by
  have hone : (1 : ℚ) ≤ u.digits := by exact_mod_cast h
  exact leastSize_lt_one.trans_le (one_le_mul_of_one_le_of_one_le hone (one_le_zpow₀ (by norm_num) he))

/-- A small float is a zero as a decimal. -/
theorem ofFloat?_vanishes (hx : x.isFinite = true) (h : x.size ≤ leastSize) :
    ∃ a, ofFloat? x = some a ∧ a.digits = 0 := by
  by_cases h0 : x.magnitude = 0
  · refine ⟨⟨x.isNegative, 0, 0⟩, ?_, rfl⟩
    rw [ofFloat?, if_neg (by simp [hx]), if_pos (by simpa [Binary64.isZero] using h0)]
  have hm := (Binary64.mantissa_bounds h0).1
  have he : x.exponent < 0 := by
    by_contra hge
    have hunits : Binary64.unitsOfOne ≤ x.units := by
      have hratio := Binary64.units_mul_ratio x
      rw [Binary64.ratio, if_pos (not_lt.mp hge), mul_one] at hratio
      rw [hratio]
      exact Nat.le_mul_of_pos_left _ (Nat.mul_pos hm (Nat.two_pow_pos _))
    have hone : (1 : ℚ) ≤ x.size := by
      rw [Binary64.size, one_le_div (by exact_mod_cast Binary64.unitsOfOne_pos)]
      exact_mod_cast hunits
    exact absurd (hone.trans h) leastSize_lt_one.not_ge
  obtain ⟨-, hup, hpos, hexponent⟩ := le_value_halve (below x.exponent) (u := ⟨x.mantissa, x.exponent⟩) hm
  rw [halved_mantissa he] at hup
  have hraise : (Unscaled.halve (below x.exponent) ⟨x.mantissa, x.exponent⟩).exponent.toNat = 0 := by
    dsimp only at hexponent
    rw [below] at hexponent ⊢
    omega
  refine ⟨(Unscaled.halve (below x.exponent) ⟨x.mantissa, x.exponent⟩).settle.decimal x.isNegative, ?_,
    (settle_digits hpos).1 (hup.trans h)⟩
  rw [ofFloat?_eq hx (by simpa [Binary64.isZero] using h0), unscaled?, if_pos he, Option.bind_some, hraise]
  rfl

/-- Of any other float some digits are kept, if it becomes a decimal. -/
theorem ofFloat?_kept (hx : x.isFinite = true) (h : leastSize < x.size) {a : Fixed} (ha : ofFloat? x = some a) :
    0 < a.digits ∧ a.scale ≤ greatestScale ∧ a.negative = x.isNegative := by
  have h0 : x.magnitude ≠ 0 := fun h0 => by
    rw [Binary64.size, Binary64.units_of_zero h0, Nat.cast_zero, zero_div] at h
    exact absurd h (by norm_num [leastSize])
  have hm := (Binary64.mantissa_bounds h0).1
  rw [ofFloat?_eq hx (by simpa [Binary64.isZero] using h0)] at ha
  obtain ⟨u, hu, ha⟩ := Option.bind_eq_some_iff.mp ha
  obtain ⟨v, hv, rfl⟩ := Option.map_eq_some_iff.mp ha
  have hkept : 0 < v.digits ∧ leastSize < v.value := by
    rw [unscaled?] at hu
    split_ifs at hu with he
    · obtain ⟨-, -, hpos, hexponent⟩ := le_value_halve (below x.exponent) (u := ⟨x.mantissa, x.exponent⟩) hm
      have hraise : u.exponent.toNat = 0 := by
        rw [← Option.some.inj hu]
        dsimp only at hexponent
        rw [below] at hexponent ⊢
        omega
      rw [hraise] at hv
      obtain rfl : u = v := Option.some.inj hv
      rw [← Option.some.inj hu]
      exact ⟨hpos, leastSize_lt_value he hm h⟩
    · obtain ⟨hpos, hexponent⟩ := double?_digits _ (u := ⟨x.mantissa, x.exponent⟩) hm (by dsimp only; omega) hu
      obtain ⟨hpos', hexponent'⟩ := raise?_digits _ hpos hv
      exact ⟨hpos', leastSize_lt_value_of_one hpos' (by omega)⟩
  obtain ⟨hdigits, hscale⟩ := (settle_digits hkept.1).2 hkept.2
  exact ⟨hdigits, hscale, rfl⟩

end Fixed
end SelectLang
