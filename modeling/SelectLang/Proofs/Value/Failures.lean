/-
# Where arithmetic fails

An operator fails on two values for one of three reasons: it is not for values of these kinds, it divides by
zero, or the result of two integers is beyond 64 bits (`Operator.Fails`). Everything else has a value.

For an integer and a float this must not hang on the decimals that the two are taken as: where one of the two
has none, or the divisor is rounded to zero as a decimal, the floats decide. So the decimals are left open here
(`Decimals`): of their operations nothing is known but that each has a result or none. The arithmetic of values
is the one over the decimals of fixed size (`apply_eq_applyOver`).

Key definitions: `Operator.Fails`, `Decimals`, `Operator.applyOver`.
Key theorems: `onIntegers_settles`, `onMixedOver_settles`, `Operator.apply_fails_iff`.
-/
import Mathlib
import SelectLang.Proofs.Number.Integers
import SelectLang.Value.Arithmetic

namespace SelectLang

/-! ### Operands -/

/-- An integer or a float. -/
def Value.IsNumber (v : Value) : Prop := (∃ n, v = .integer n) ∨ ∃ x, v = .float x

/-- Zero as an integer, or as a float of either sign. -/
def Value.IsZero (v : Value) : Prop :=
  v = .integer 0 ∨ v = .float (.ofMagnitude false 0) ∨ v = .float (.ofMagnitude true 0)

/-- The integer is no word of 64 bits. -/
def Exceeds (n : ℤ) : Prop := n < -2 ^ 63 ∨ 2 ^ 63 ≤ n

namespace Operator

/-- Every operator is for two numbers, and `+` for two texts as well. -/
def Takes (op : Operator) (left right : Value) : Prop :=
  (left.IsNumber ∧ right.IsNumber) ∨
    (op = .add ∧ (∃ s, left = .string s) ∧ ∃ t, right = .string t)

/-- The exact result of the two integers is no word. A quotient is too large in one case only, and in that case
there is no remainder either. -/
def Overflows (op : Operator) (a b : Int64) : Prop :=
  match op with
  | add => Exceeds (a.toInt + b.toInt)
  | subtract => Exceeds (a.toInt - b.toInt)
  | multiply => Exceeds (a.toInt * b.toInt)
  | divide | remainder => a = Int64.minValue ∧ b = -1

/-- The reasons for which the operator fails on two values, with the errors. -/
inductive Fails (op : Operator) : Value → Value → EvalError → Prop where
  | mismatch {left right : Value} (h : ¬ op.Takes left right) :
      Fails op left right (.mismatch op left.kind right.kind)
  | divisionByZero {left right : Value} (hleft : left.IsNumber) (hright : right.IsNumber)
      (hdivides : op.divides = true) (hzero : right.IsZero) : Fails op left right .divisionByZero
  | overflow {a b : Int64} (h : op.Overflows a b) :
      Fails op (.integer a) (.integer b) (.overflow op a b)

/-- The outcome is the error with which the operator fails, or a value if it does not fail. -/
def Settles (op : Operator) (left right : Value) (outcome : Except EvalError Value) : Prop :=
  (∀ e, outcome = .error e ↔ op.Fails left right e) ∧
    ((∃ v, outcome = .ok v) ↔ ∀ e, ¬ op.Fails left right e)

end Operator

/-! ### Zeros and words -/

namespace Binary64

theorem isZero_iff (x : Binary64) :
    x.isZero = true ↔ x = ofMagnitude false 0 ∨ x = ofMagnitude true 0 := by
  constructor
  · intro h
    have hmagnitude : x.magnitude = 0 := by simpa [isZero] using h
    rw [← ofMagnitude_magnitude x, hmagnitude]
    cases x.isNegative
    · exact Or.inl rfl
    · exact Or.inr rfl
  · rintro (rfl | rfl) <;> decide

/-- No integer but zero is rounded to a zero. -/
theorem isZero_ofInt (n : ℤ) : (ofInt n).isZero = true ↔ n = 0 := by
  constructor
  · intro h
    by_contra hn
    have hone := magnitude_ofRatio_lt (decide (n < 0)) (show 0 < 1 by omega) (by norm_num)
    have hmono := magnitude_ofRatio_mono (decide (n < 0)) one_pos (show 1 ≤ n.natAbs by omega)
    have hzero : (ofInt n).magnitude = 0 := by simpa [isZero] using h
    rw [ofInt] at hzero
    omega
  · rintro rfl
    decide

end Binary64

theorem int64?_eq_none {n : ℤ} : int64? n = none ↔ Exceeds n := by
  have hmin : Int64.minValue.toInt = -2 ^ 63 := by decide
  have hmax : Int64.maxValue.toInt = 2 ^ 63 - 1 := by decide
  rw [int64?, hmin, hmax, Exceeds]
  by_cases h : -2 ^ 63 ≤ n ∧ n ≤ 2 ^ 63 - 1
  · rw [if_pos h]
    simp
    omega
  · rw [if_neg h]
    simp
    omega

/-- One quotient of two words is no word. -/
theorem exceeds_tdiv {a b : Int64} (hb : b.toInt ≠ 0) :
    Exceeds (a.toInt.tdiv b.toInt) ↔ a = Int64.minValue ∧ b = -1 := by
  have hlow := a.le_toInt
  have hhigh := a.toInt_lt
  have hmin : a = Int64.minValue ↔ a.toInt = -2 ^ 63 := Int64.toInt_inj.symm
  have hone : b = -1 ↔ b.toInt = -1 := Int64.toInt_inj.symm
  rw [hmin, hone, Exceeds]
  constructor
  · intro h
    have habs : (a.toInt.tdiv b.toInt).natAbs = a.toInt.natAbs / b.toInt.natAbs := Int.natAbs_tdiv _ _
    have hunit : b.toInt.natAbs = 1 := by
      by_contra hne
      have hle : a.toInt.natAbs / b.toInt.natAbs ≤ a.toInt.natAbs / 2 :=
        Nat.div_le_div_left (by omega) (by omega)
      omega
    rcases Int.natAbs_eq_iff.mp hunit with hpos | hneg
    · rw [hpos, Nat.cast_one, Int.tdiv_one] at h
      omega
    · rw [hneg, Nat.cast_one, Int.tdiv_neg, Int.tdiv_one] at h
      exact ⟨by omega, by simpa using hneg⟩
  · rintro ⟨ha, hb⟩
    rw [ha, hb]
    decide

theorem not_exceeds_tmod {a b : Int64} (hb : b.toInt ≠ 0) : ¬ Exceeds (a.toInt.tmod b.toInt) := by
  have hlow := b.le_toInt
  have hhigh := b.toInt_lt
  have habs : (a.toInt.tmod b.toInt).natAbs = a.toInt.natAbs % b.toInt.natAbs := Int.natAbs_tmod _ _
  have hsmall := Nat.mod_lt a.toInt.natAbs (Int.natAbs_pos.mpr hb)
  rw [Exceeds]
  omega

/-! ### Outcomes -/

namespace Operator

variable {op : Operator} {left right : Value} {outcome : Except EvalError Value}

theorem Overflows.exceeds {a b : Int64} (hdivides : op.divides = true) (h : op.Overflows a b) :
    a = Int64.minValue ∧ b = -1 := by
  cases op with
  | divide => exact h
  | remainder => exact h
  | _ => cases hdivides

/-- There is at most one reason to fail. -/
theorem Fails.unique {e e' : EvalError} (h : op.Fails left right e) (h' : op.Fails left right e') :
    e = e' := by
  have hinteger : ∀ {a b : Int64}, op.Takes (.integer a) (.integer b) := fun {a b} =>
    Or.inl ⟨Or.inl ⟨a, rfl⟩, Or.inl ⟨b, rfl⟩⟩
  have hdivisor : ∀ {a b : Int64}, op.divides = true → (Value.integer b).IsZero → ¬ op.Overflows a b := by
    intro a b hdivides hzero h
    rw [(h.exceeds hdivides).2] at hzero
    rcases hzero with hzero | hzero | hzero <;> cases hzero
  cases h with
  | mismatch h =>
    cases h' with
    | mismatch => rfl
    | divisionByZero hleft hright => exact absurd (Or.inl ⟨hleft, hright⟩) h
    | overflow => exact absurd hinteger h
  | divisionByZero hleft hright hdivides hzero =>
    cases h' with
    | mismatch h => exact absurd (Or.inl ⟨hleft, hright⟩) h
    | divisionByZero => rfl
    | overflow h => exact absurd h (hdivisor hdivides hzero)
  | overflow h =>
    cases h' with
    | mismatch h => exact absurd hinteger h
    | divisionByZero _ _ hdivides hzero => exact absurd h (hdivisor hdivides hzero)
    | overflow => rfl

theorem settles_of_ok {v : Value} (h : outcome = .ok v) (hfails : ∀ e, ¬ op.Fails left right e) :
    op.Settles left right outcome := by
  subst h
  refine ⟨fun e => ?_, ?_⟩
  · exact iff_of_false nofun (hfails e)
  · exact iff_of_true ⟨v, rfl⟩ hfails

theorem settles_of_error {e : EvalError} (h : outcome = .error e) (hfails : op.Fails left right e) :
    op.Settles left right outcome := by
  subst h
  refine ⟨fun e' => ⟨fun h => ?_, fun h => ?_⟩, ?_⟩
  · cases h
    exact hfails
  · rw [hfails.unique h]
  · exact iff_of_false nofun fun hnone => hnone e hfails

/-! ### Integers -/

section Integers

variable {a b : Int64}

theorem isZero_integer : (Value.integer b).IsZero ↔ b.toInt = 0 := by
  have hzero : b = 0 ↔ b.toInt = 0 := Int64.toInt_inj.symm
  simp [Value.IsZero, hzero]

theorem isZero_float {y : Binary64} : y.isZero = true ↔ (Value.float y).IsZero := by
  simp [Value.IsZero, Binary64.isZero_iff]

theorem not_fails_of_integers (hzero : op.divides = true → b.toInt ≠ 0) (h : ¬ op.Overflows a b)
    (e : EvalError) : ¬ op.Fails (.integer a) (.integer b) e := by
  intro hfails
  cases hfails with
  | mismatch h => exact h (Or.inl ⟨Or.inl ⟨a, rfl⟩, Or.inl ⟨b, rfl⟩⟩)
  | divisionByZero _ _ hdivides h => exact hzero hdivides (isZero_integer.mp h)
  | overflow h' => exact h h'

theorem fails_of_zero (hdivides : op.divides = true) (hzero : b.toInt = 0) :
    op.Fails (.integer a) (.integer b) .divisionByZero :=
  .divisionByZero (Or.inl ⟨a, rfl⟩) (Or.inl ⟨b, rfl⟩) hdivides (isZero_integer.mpr hzero)

/-- An exact result is a value if it is a word. -/
theorem settles_of_exact {n : ℤ} (houtcome : outcome = match int64? n with
      | some r => .ok (.integer r)
      | none => .error (.overflow op a b))
    (hzero : op.divides = true → b.toInt ≠ 0) (h : op.Overflows a b ↔ Exceeds n) :
    op.Settles (.integer a) (.integer b) outcome := by
  cases hword : int64? n with
  | none =>
    rw [hword] at houtcome
    exact settles_of_error houtcome (.overflow (h.mpr (int64?_eq_none.mp hword)))
  | some r =>
    rw [hword] at houtcome
    refine settles_of_ok houtcome (not_fails_of_integers hzero fun hover => ?_)
    rw [int64?_eq_none.mpr (h.mp hover)] at hword
    cases hword

theorem onIntegers_settles (op : Operator) (a b : Int64) :
    op.Settles (.integer a) (.integer b) (op.onIntegers a b) := by
  cases op with
  | add => exact settles_of_exact rfl nofun Iff.rfl
  | subtract => exact settles_of_exact rfl nofun Iff.rfl
  | multiply => exact settles_of_exact rfl nofun Iff.rfl
  | divide =>
    by_cases hzero : b.toInt = 0
    · exact settles_of_error (if_pos hzero) (fails_of_zero rfl hzero)
    by_cases hexact : a.toInt.tmod b.toInt = 0
    · refine settles_of_exact ?_ (fun _ => hzero) (exceeds_tdiv hzero).symm
      exact (if_neg hzero).trans (if_pos hexact)
    · refine settles_of_ok ((if_neg hzero).trans (if_neg hexact)) ?_
      refine not_fails_of_integers (fun _ => hzero) fun ⟨_, hb⟩ => hexact ?_
      rw [hb]
      exact Int.tmod_eq_zero_of_dvd (by simp)
  | remainder =>
    by_cases hzero : b.toInt = 0
    · exact settles_of_error (if_pos hzero) (fails_of_zero rfl hzero)
    by_cases hquotient : (int64? (a.toInt.tdiv b.toInt)).isNone = true
    · refine settles_of_error ((if_neg hzero).trans (if_pos hquotient)) (.overflow ?_)
      rw [Option.isNone_iff_eq_none, int64?_eq_none] at hquotient
      exact (exceeds_tdiv hzero).mp hquotient
    · refine settles_of_exact ((if_neg hzero).trans (if_neg hquotient)) (fun _ => hzero) ?_
      rw [Option.isNone_iff_eq_none, int64?_eq_none, exceeds_tdiv hzero] at hquotient
      exact iff_of_false hquotient (not_exceeds_tmod hzero)

end Integers

/-! ### Floats and decimals -/

/-- Two numbers that are not both integers are divided by no zero and otherwise have a value. -/
theorem settles_of_guarded (hleft : left.IsNumber) (hright : right.IsNumber)
    (hfloat : ∀ a b, ¬ (left = .integer a ∧ right = .integer b)) {y : Binary64}
    (hy : y.isZero = true ↔ right.IsZero)
    (hguard : (op.divides && y.isZero) = true → outcome = .error .divisionByZero)
    (hvalue : ¬ (op.divides && y.isZero) = true → ∃ v, outcome = .ok v) :
    op.Settles left right outcome := by
  by_cases hzero : (op.divides && y.isZero) = true
  · obtain ⟨hdivides, hzero'⟩ := Bool.and_eq_true_iff.mp hzero
    exact settles_of_error (hguard hzero) (.divisionByZero hleft hright hdivides (hy.mp hzero'))
  · obtain ⟨v, hv⟩ := hvalue hzero
    refine settles_of_ok hv fun e hfails => ?_
    cases hfails with
    | mismatch h => exact h (Or.inl ⟨hleft, hright⟩)
    | divisionByZero _ _ hdivides h => exact hzero (Bool.and_eq_true_iff.mpr ⟨hdivides, hy.mpr h⟩)
    | overflow => exact hfloat _ _ ⟨rfl, rfl⟩

end Operator

/-- Decimals, as far as arithmetic goes through them: an operation on them has a result or none. -/
structure Decimals (Number : Type) where
  ofInt? : ℤ → Option Number
  ofFloat? : Binary64 → Option Number
  combine? : Operator → Number → Number → Option Number
  int64? : Number → Option Int64
  float? : Number → Option Binary64

namespace Decimals

/-- The decimals of fixed size. -/
def fixed : Decimals Fixed where
  ofInt? n := some (.ofInt n)
  ofFloat? := Fixed.ofFloat?
  combine? := Operator.onDecimals?
  int64? a := a.int?.bind SelectLang.int64?
  float? a := some a.toFloat

variable {Number : Type} (decimals : Decimals Number)

/-- The value of a decimal: an integer if it is whole and fits, else a float if it has one. -/
def value? (a : Number) : Option Value :=
  ((decimals.int64? a).map Value.integer).or ((decimals.float? a).map Value.float)

/-- The value of the operation on two decimals, if there are both and it has one. -/
def result? (op : Operator) (a b : Option Number) : Option Value := do
  let r ← decimals.combine? op (← a) (← b)
  decimals.value? r

end Decimals

namespace Operator

variable {Number : Type} (decimals : Decimals Number)

/-- The operator on an integer and a float, by way of the decimals. -/
def onMixedOver (op : Operator) (x y : Binary64) (a b : Option Number) : Except EvalError Value :=
  if op.divides && y.isZero then .error .divisionByZero
  else
    match decimals.result? op a b with
    | some v => .ok v
    | none => op.onFloats x y

/-- The operator on two values, with the decimals left open. -/
def applyOver (op : Operator) (left right : Value) : Except EvalError Value :=
  match left, right with
  | .integer a, .float y =>
    op.onMixedOver decimals (.ofInt a.toInt) y (decimals.ofInt? a.toInt) (decimals.ofFloat? y)
  | .float x, .integer b =>
    op.onMixedOver decimals x (.ofInt b.toInt) (decimals.ofFloat? x) (decimals.ofInt? b.toInt)
  | left, right => op.apply left right

theorem value?_fixed (a : Fixed) : Decimals.fixed.value? a = some (decimalValue a) := by
  have hint : Decimals.fixed.int64? a = a.int?.bind int64? := rfl
  rw [Decimals.value?, decimalValue, hint]
  cases a.int?.bind int64? with
  | none => rfl
  | some n => rfl

theorem result?_fixed (op : Operator) (a b : Fixed) :
    Decimals.fixed.result? op (some a) (some b) = (op.onDecimals? a b).map decimalValue := by
  have hbind : Decimals.fixed.result? op (some a) (some b) =
      (op.onDecimals? a b).bind Decimals.fixed.value? := rfl
  rw [hbind, funext value?_fixed]
  cases op.onDecimals? a b with
  | none => rfl
  | some r => rfl

theorem onMixedOver_fixed (op : Operator) (x y : Binary64) (a b : Option Fixed) :
    op.onMixedOver .fixed x y a b = op.onMixed x y a b := by
  unfold onMixedOver onMixed
  by_cases hzero : (op.divides && y.isZero) = true
  · rw [if_pos hzero, if_pos hzero]
  · rw [if_neg hzero, if_neg hzero]
    cases a with
    | none => rfl
    | some a =>
      cases b with
      | none => rfl
      | some b =>
        rw [result?_fixed]
        dsimp only
        cases op.onDecimals? a b with
        | none => rfl
        | some r => rfl

/-- The arithmetic of values goes through the decimals of fixed size. -/
theorem apply_eq_applyOver (op : Operator) (left right : Value) :
    op.apply left right = op.applyOver .fixed left right := by
  unfold applyOver
  split
  · exact (onMixedOver_fixed ..).symm
  · exact (onMixedOver_fixed ..).symm
  · rfl

variable {op : Operator} {left right : Value}

theorem onFloats_settles (hleft : left.IsNumber) (hright : right.IsNumber)
    (hfloat : ∀ a b, ¬ (left = .integer a ∧ right = .integer b)) (x : Binary64) {y : Binary64}
    (hy : y.isZero = true ↔ right.IsZero) : op.Settles left right (op.onFloats x y) := by
  unfold onFloats
  exact settles_of_guarded hleft hright hfloat hy (fun h => if_pos h) fun h => ⟨_, if_neg h⟩

/-- Whatever the decimals do, two numbers have a value unless a zero divides. -/
theorem onMixedOver_settles (hleft : left.IsNumber) (hright : right.IsNumber)
    (hfloat : ∀ a b, ¬ (left = .integer a ∧ right = .integer b)) (x : Binary64) {y : Binary64}
    (hy : y.isZero = true ↔ right.IsZero) (a b : Option Number) :
    op.Settles left right (op.onMixedOver decimals x y a b) := by
  refine settles_of_guarded hleft hright hfloat hy (fun h => if_pos h) fun h => ?_
  rw [onMixedOver, if_neg h]
  split
  · exact ⟨_, rfl⟩
  · exact ⟨_, if_neg h⟩

theorem apply_of_not_takes (h : ¬ op.Takes left right) :
    op.apply left right = .error (.mismatch op left.kind right.kind) := by
  unfold apply
  split
  · exact absurd (Or.inl ⟨Or.inl ⟨_, rfl⟩, Or.inl ⟨_, rfl⟩⟩) h
  · exact absurd (Or.inl ⟨Or.inr ⟨_, rfl⟩, Or.inr ⟨_, rfl⟩⟩) h
  · exact absurd (Or.inl ⟨Or.inl ⟨_, rfl⟩, Or.inr ⟨_, rfl⟩⟩) h
  · exact absurd (Or.inl ⟨Or.inr ⟨_, rfl⟩, Or.inl ⟨_, rfl⟩⟩) h
  · split
    · exact absurd (Or.inr ⟨rfl, ⟨_, rfl⟩, _, rfl⟩) h
    · rfl
  · rfl

/-- Two texts are added, and nothing else is done with values that are not both numbers. -/
theorem settles_of_not_numbers (h : ¬ (left.IsNumber ∧ right.IsNumber)) :
    op.Settles left right (op.apply left right) := by
  by_cases htakes : op.Takes left right
  · obtain hnumbers | ⟨rfl, ⟨s, rfl⟩, t, rfl⟩ := htakes
    · exact absurd hnumbers h
    · refine settles_of_ok (v := .string (s ++ t)) rfl fun e hfails => ?_
      cases hfails with
      | mismatch hnot => exact hnot (Or.inr ⟨rfl, ⟨s, rfl⟩, t, rfl⟩)
      | divisionByZero hleft hright => exact h ⟨hleft, hright⟩
  · exact settles_of_error (apply_of_not_takes htakes) (.mismatch htakes)

/-- Decimals are for a number of each kind. -/
theorem applyOver_of_not_numbers (h : ¬ (left.IsNumber ∧ right.IsNumber)) :
    op.applyOver decimals left right = op.apply left right := by
  unfold applyOver
  split
  · exact absurd ⟨Or.inl ⟨_, rfl⟩, Or.inr ⟨_, rfl⟩⟩ h
  · exact absurd ⟨Or.inr ⟨_, rfl⟩, Or.inl ⟨_, rfl⟩⟩ h
  · rfl

theorem applyOver_settles (op : Operator) (left right : Value) :
    op.Settles left right (op.applyOver decimals left right) := by
  by_cases hnumbers : left.IsNumber ∧ right.IsNumber
  swap
  · rw [applyOver_of_not_numbers decimals hnumbers]
    exact settles_of_not_numbers hnumbers
  obtain ⟨hleft, hright⟩ := hnumbers
  rcases hleft with ⟨a, rfl⟩ | ⟨x, rfl⟩
  · rcases hright with ⟨b, rfl⟩ | ⟨y, rfl⟩
    · exact onIntegers_settles op a b
    · have hfloat : ∀ a' b', ¬ (Value.integer a = .integer a' ∧ Value.float y = .integer b') := by
        rintro a' b' ⟨-, h⟩
        cases h
      exact onMixedOver_settles decimals (Or.inl ⟨a, rfl⟩) (Or.inr ⟨y, rfl⟩) hfloat _ isZero_float _ _
  · have hfloat : ∀ a' b', ¬ (Value.float x = .integer a' ∧ right = .integer b') := by
      rintro a' b' ⟨h, -⟩
      cases h
    rcases hright with ⟨b, rfl⟩ | ⟨y, rfl⟩
    · have hzero := (Binary64.isZero_ofInt b.toInt).trans isZero_integer.symm
      exact onMixedOver_settles decimals (Or.inr ⟨x, rfl⟩) (Or.inl ⟨b, rfl⟩) hfloat _ hzero _ _
    · exact onFloats_settles (Or.inr ⟨x, rfl⟩) (Or.inr ⟨y, rfl⟩) hfloat x isZero_float

/-- **When arithmetic fails.** The operator fails on two values with the error of the reason that there is, and
has a value if there is none; and it would whatever the decimals were. -/
theorem apply_fails_iff (op : Operator) (left right : Value) :
    op.Settles left right (op.apply left right) ∧
      op.apply left right = op.applyOver .fixed left right ∧
      ∀ {Number : Type} (decimals : Decimals Number),
        op.Settles left right (op.applyOver decimals left right) := by
  refine ⟨?_, apply_eq_applyOver op left right, fun decimals => applyOver_settles decimals op left right⟩
  rw [apply_eq_applyOver]
  exact applyOver_settles .fixed op left right

end Operator

end SelectLang
