/-
# Integers are computed exactly

Two integers have the exact sum, difference or product as their result, or none: a result that is no word of 64
bits is refused and never wrapped. A quotient is an integer if the division comes out and a float if it does not,
and the remainder is what is left of the dividend after the whole part of the quotient, so it is smaller than the
divisor and on the side of the dividend.

The whole part is taken of the quotient as a rational number (`truncated`), so that what the operators answer
(`Operator.Answers`) is said without the division of integers that computes it.

Key definitions: `truncated`, `Operator.Answers`.
Key theorems: `truncated_div`, `Operator.onIntegers_eq_ok`, `Operator.remainder_bounds`,
`Operator.apply_integers`.
-/
import Mathlib
import SelectLang.Proofs.Value.Failures

namespace SelectLang

/-! ### The whole part of a quotient -/

/-- The whole part of a number, that is the number with its fraction dropped. -/
def truncated (q : ℚ) : ℤ := if 0 ≤ q then ⌊q⌋ else ⌈q⌉

theorem truncated_div_of_pos (m : ℤ) {n : ℤ} (hn : 0 < n) : truncated ((m : ℚ) / n) = m.tdiv n := by
  obtain ⟨k, rfl⟩ := Int.eq_ofNat_of_zero_le hn.le
  have hk : (0 : ℚ) < ((k : ℤ) : ℚ) := by exact_mod_cast hn
  have hfloor : ∀ j : ℤ, ⌊(j : ℚ) / ((k : ℤ) : ℚ)⌋ = j / k := fun j => by
    rw [Int.cast_natCast, Rat.floor_intCast_div_natCast]
  rcases le_or_gt 0 m with hm | hm
  · have hq : (0 : ℚ) ≤ (m : ℚ) / ((k : ℤ) : ℚ) := div_nonneg (by exact_mod_cast hm) hk.le
    rw [truncated, if_pos hq, hfloor, Int.tdiv_eq_ediv_of_nonneg hm]
  · have hq : (m : ℚ) / ((k : ℤ) : ℚ) < 0 := div_neg_of_neg_of_pos (by exact_mod_cast hm) hk
    have hneg : (m : ℚ) / ((k : ℤ) : ℚ) = -(((-m : ℤ) : ℚ) / ((k : ℤ) : ℚ)) := by
      push_cast
      ring
    rw [truncated, if_neg hq.not_ge, hneg, Int.ceil_neg, hfloor,
      ← Int.tdiv_eq_ediv_of_nonneg (by omega), Int.neg_tdiv, neg_neg]

/-- Division of integers drops the fraction of the quotient. -/
theorem truncated_div (m : ℤ) {n : ℤ} (hn : n ≠ 0) : truncated ((m : ℚ) / n) = m.tdiv n := by
  rcases lt_or_gt_of_ne hn with hneg | hpos
  · have h := truncated_div_of_pos (-m) (neg_pos.mpr hneg)
    rwa [Int.cast_neg, Int.cast_neg, neg_div_neg_eq, Int.neg_tdiv, Int.tdiv_neg, neg_neg] at h
  · exact truncated_div_of_pos m hpos

/-! ### Words -/

theorem int64?_eq_some {n : ℤ} {r : Int64} : int64? n = some r ↔ r.toInt = n := by
  have hmin : Int64.minValue.toInt = -2 ^ 63 := by decide
  have hmax : Int64.maxValue.toInt = 2 ^ 63 - 1 := by decide
  have hlow := r.le_toInt
  have hhigh := r.toInt_lt
  rw [int64?, hmin, hmax]
  constructor
  · intro h
    split_ifs at h with hfits
    cases h
    exact Int64.toInt_ofInt_of_le hfits.1 (by omega)
  · rintro rfl
    rw [if_pos ⟨hlow, by omega⟩, Int64.ofInt_toInt]

/-- An integer is a word if it is not too large for one. -/
theorem exists_toInt_eq {n : ℤ} : (∃ r : Int64, r.toInt = n) ↔ ¬ Exceeds n := by
  simp only [← int64?_eq_some, ← int64?_eq_none, ← Option.ne_none_iff_exists', ne_eq]

namespace Operator

/-! ### Answers -/

/-- What the operators answer for two integers: the exact result, where it is a word. -/
inductive Answers (a b : Int64) : Operator → Value → Prop where
  | sum {r : Int64} (h : r.toInt = a.toInt + b.toInt) : Answers a b .add (.integer r)
  | difference {r : Int64} (h : r.toInt = a.toInt - b.toInt) : Answers a b .subtract (.integer r)
  | product {r : Int64} (h : r.toInt = a.toInt * b.toInt) : Answers a b .multiply (.integer r)
  | quotient {r : Int64} (hb : b.toInt ≠ 0) (h : r.toInt * b.toInt = a.toInt) :
      Answers a b .divide (.integer r)
  /-- A division that does not come out is one of floats. -/
  | fraction (hb : b.toInt ≠ 0) (h : ¬ b.toInt ∣ a.toInt) :
      Answers a b .divide (.float (.ofInt a.toInt / .ofInt b.toInt))
  /-- There is a remainder where the whole part of the quotient is a word. -/
  | remainder {r : Int64} (hb : b.toInt ≠ 0) (hq : ¬ Exceeds (truncated ((a.toInt : ℚ) / b.toInt)))
      (h : r.toInt = a.toInt - b.toInt * truncated ((a.toInt : ℚ) / b.toInt)) :
      Answers a b .remainder (.integer r)

variable {op : Operator} {a b : Int64} {v : Value}

/-- An exact result is answered if it is a word. -/
theorem exactly_eq_ok {n : ℤ} {e : EvalError} :
    (match int64? n with
      | some r => Except.ok (.integer r)
      | none => .error e) = Except.ok v ↔ ∃ r : Int64, r.toInt = n ∧ v = .integer r := by
  simp only [← int64?_eq_some]
  cases int64? n with
  | none => simp
  | some r => simp [eq_comm]

theorem answers_divide : Answers a b .divide v ↔ b.toInt ≠ 0 ∧
    ((∃ r : Int64, r.toInt * b.toInt = a.toInt ∧ v = .integer r) ∨
      (¬ b.toInt ∣ a.toInt ∧ v = .float (.ofInt a.toInt / .ofInt b.toInt))) := by
  constructor
  · rintro (_ | _ | _ | ⟨hb, h⟩ | ⟨hb, h⟩)
    · exact ⟨hb, Or.inl ⟨_, h, rfl⟩⟩
    · exact ⟨hb, Or.inr ⟨h, rfl⟩⟩
  · rintro ⟨hb, ⟨r, h, rfl⟩ | ⟨h, rfl⟩⟩
    · exact .quotient hb h
    · exact .fraction hb h

theorem divide_eq_ok : divide.onIntegers a b = .ok v ↔ Answers a b .divide v := by
  rw [answers_divide]
  by_cases hb : b.toInt = 0
  · have hzero : divide.onIntegers a b = .error .divisionByZero := if_pos hb
    rw [hzero]
    exact iff_of_false nofun fun h => h.1 hb
  by_cases hdvd : b.toInt ∣ a.toInt
  · have hexact : divide.onIntegers a b = match int64? (a.toInt.tdiv b.toInt) with
        | some r => .ok (.integer r)
        | none => .error (.overflow divide a b) :=
      (if_neg hb).trans (if_pos (Int.tmod_eq_zero_of_dvd hdvd))
    have hquotient : ∀ r : Int64, r.toInt = a.toInt.tdiv b.toInt ↔ r.toInt * b.toInt = a.toInt := fun r => by
      conv_rhs => rw [← Int.tdiv_mul_cancel hdvd]
      exact (mul_left_inj' hb).symm
    rw [hexact, exactly_eq_ok]
    simp only [hquotient, hb, hdvd, ne_eq, not_false_eq_true, not_true_eq_false, false_and, or_false, true_and]
  · have hfloat : divide.onIntegers a b = .ok (.float (.ofInt a.toInt / .ofInt b.toInt)) :=
      (if_neg hb).trans (if_neg fun h => hdvd (Int.dvd_of_tmod_eq_zero h))
    rw [hfloat]
    constructor
    · intro h
      exact ⟨hb, Or.inr ⟨hdvd, (Except.ok.inj h).symm⟩⟩
    · rintro ⟨-, ⟨r, h, -⟩ | ⟨-, rfl⟩⟩
      · exact absurd ⟨r.toInt, by rw [← h, mul_comm]⟩ hdvd
      · rfl

theorem remainder_eq_ok : remainder.onIntegers a b = .ok v ↔ Answers a b .remainder v := by
  have hanswers : Answers a b .remainder v ↔ b.toInt ≠ 0 ∧
      ¬ Exceeds (truncated ((a.toInt : ℚ) / b.toInt)) ∧
        ∃ r : Int64, r.toInt = a.toInt - b.toInt * truncated ((a.toInt : ℚ) / b.toInt) ∧ v = .integer r :=
    ⟨fun h => by cases h with | remainder hb hq h => exact ⟨hb, hq, _, h, rfl⟩,
      fun ⟨hb, hq, _, h, hv⟩ => hv ▸ .remainder hb hq h⟩
  rw [hanswers]
  by_cases hb : b.toInt = 0
  · have hzero : remainder.onIntegers a b = .error .divisionByZero := if_pos hb
    rw [hzero]
    exact iff_of_false nofun fun h => h.1 hb
  rw [truncated_div _ hb, ← Int.tmod_def]
  by_cases hq : Exceeds (a.toInt.tdiv b.toInt)
  · have hnone : (int64? (a.toInt.tdiv b.toInt)).isNone = true :=
      Option.isNone_iff_eq_none.mpr (int64?_eq_none.mpr hq)
    have hover : remainder.onIntegers a b = .error (.overflow remainder a b) :=
      (if_neg hb).trans (if_pos hnone)
    rw [hover]
    exact iff_of_false nofun fun h => h.2.1 hq
  · have hsome : ¬ (int64? (a.toInt.tdiv b.toInt)).isNone = true := fun h =>
      hq (int64?_eq_none.mp (Option.isNone_iff_eq_none.mp h))
    have hexact : remainder.onIntegers a b = match int64? (a.toInt.tmod b.toInt) with
        | some r => .ok (.integer r)
        | none => .error (.overflow remainder a b) :=
      (if_neg hb).trans (if_neg hsome)
    rw [hexact, exactly_eq_ok]
    exact (and_iff_right hb).trans (and_iff_right hq) |>.symm

/-- What the operator answers is answered, and nothing else. -/
theorem onIntegers_eq_ok (op : Operator) (a b : Int64) (v : Value) :
    op.onIntegers a b = .ok v ↔ op.Answers a b v := by
  cases op with
  | add =>
    refine exactly_eq_ok.trans ⟨?_, ?_⟩
    · rintro ⟨r, h, rfl⟩
      exact .sum h
    · rintro (h | _)
      exact ⟨_, h, rfl⟩
  | subtract =>
    refine exactly_eq_ok.trans ⟨?_, ?_⟩
    · rintro ⟨r, h, rfl⟩
      exact .difference h
    · rintro (_ | h | _)
      exact ⟨_, h, rfl⟩
  | multiply =>
    refine exactly_eq_ok.trans ⟨?_, ?_⟩
    · rintro ⟨r, h, rfl⟩
      exact .product h
    · rintro (_ | _ | h | _)
      exact ⟨_, h, rfl⟩
  | divide => exact divide_eq_ok
  | remainder => exact remainder_eq_ok

/-- There is a whole quotient where the division comes out and what comes out is a word. -/
theorem answers_whole : (∃ r : Int64, Answers a b .divide (.integer r)) ↔
    b.toInt ≠ 0 ∧ b.toInt ∣ a.toInt ∧ ¬ Exceeds (a.toInt / b.toInt) := by
  constructor
  · rintro ⟨r, h⟩
    obtain ⟨hb, ⟨r, h, -⟩ | ⟨-, h⟩⟩ := answers_divide.mp h
    · have hq : r.toInt = a.toInt / b.toInt := (Int.ediv_eq_of_eq_mul_left hb h.symm).symm
      exact ⟨hb, ⟨r.toInt, by rw [← h, mul_comm]⟩, exists_toInt_eq.mp ⟨r, hq⟩⟩
    · cases h
  · rintro ⟨hb, hdvd, hfits⟩
    obtain ⟨r, hr⟩ := exists_toInt_eq.mpr hfits
    exact ⟨r, .quotient hb (by rw [hr, Int.ediv_mul_cancel hdvd])⟩

theorem answers_fraction : (∃ x, Answers a b .divide (.float x)) ↔
    b.toInt ≠ 0 ∧ ¬ b.toInt ∣ a.toInt := by
  constructor
  · rintro ⟨x, h⟩
    cases h with
    | fraction hb h => exact ⟨hb, h⟩
  · rintro ⟨hb, h⟩
    exact ⟨_, .fraction hb h⟩

/-- The remainder is smaller than the divisor, and on the side of the dividend. -/
theorem remainder_bounds {r : Int64} (h : Answers a b .remainder (.integer r)) :
    |r.toInt| < |b.toInt| ∧ (r.toInt = 0 ∨ r.toInt.sign = a.toInt.sign) := by
  cases h with
  | remainder hb _ h =>
    rw [truncated_div _ hb, ← Int.tmod_def] at h
    rw [h]
    constructor
    · rw [Int.abs_eq_natAbs, Int.abs_eq_natAbs, Int.natAbs_tmod]
      exact_mod_cast Nat.mod_lt _ (Int.natAbs_pos.mpr hb)
    · by_cases hdvd : b.toInt ∣ a.toInt
      · exact Or.inl (Int.tmod_eq_zero_of_dvd hdvd)
      · exact Or.inr (by rw [Int.sign_tmod, if_neg hdvd])

/-- **Integers are computed exactly or not at all.** What an operator answers for two integers is exact: a sum,
difference, product, quotient or remainder that is a word, or the quotient of the two as floats where their
division does not come out. -/
theorem apply_integers (a b : Int64) :
    (∀ (op : Operator) (v : Value), op.apply (.integer a) (.integer b) = .ok v ↔ op.Answers a b v) ∧
      ((∃ r, divide.apply (.integer a) (.integer b) = .ok (.integer r)) ↔
        b.toInt ≠ 0 ∧ b.toInt ∣ a.toInt ∧ ¬ Exceeds (a.toInt / b.toInt)) ∧
      ((∃ x, divide.apply (.integer a) (.integer b) = .ok (.float x)) ↔
        b.toInt ≠ 0 ∧ ¬ b.toInt ∣ a.toInt) ∧
      ∀ r, remainder.apply (.integer a) (.integer b) = .ok (.integer r) →
        |r.toInt| < |b.toInt| ∧ (r.toInt = 0 ∨ r.toInt.sign = a.toInt.sign) := by
  have hanswers : ∀ (op : Operator) (v : Value),
      op.apply (.integer a) (.integer b) = .ok v ↔ op.Answers a b v :=
    fun op v => onIntegers_eq_ok op a b v
  refine ⟨hanswers, ?_, ?_, fun r h => remainder_bounds ((hanswers _ _).mp h)⟩
  · simp only [hanswers]
    exact answers_whole
  · simp only [hanswers]
    exact answers_fraction

end Operator
end SelectLang
