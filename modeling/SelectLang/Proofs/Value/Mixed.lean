/-
# Integers and floats that are whole

A float that stands for an integer is as good as the integer: added to another integer, subtracted or multiplied, in
either order, it has the integer for a result that the two integers have, if that is a word of 64 bits. The integer
may be one that no float stands for, since the two meet as decimals and not as floats.

It takes no more than that the decimals are exact on whole numbers (`Decimals.Exact`), which those of fixed size
are (`exact_fixed`).

Key definitions: `Operator.Makes`, `Decimals.Exact`.
Key theorems: `exact_fixed`, `Operator.applyOver_whole`, `Operator.apply_whole`.
-/
import Mathlib
import SelectLang.Proofs.Number.Decimals
import SelectLang.Proofs.Value.Exactness
import SelectLang.Proofs.Value.Numeric

namespace SelectLang

/-- The sum, the difference or the product of two whole numbers. -/
inductive Operator.Makes : Operator → ℤ → ℤ → ℤ → Prop where
  | sum (m n : ℤ) : Makes .add m n (m + n)
  | difference (m n : ℤ) : Makes .subtract m n (m - n)
  | product (m n : ℤ) : Makes .multiply m n (m * n)

variable {op : Operator} {m n k : ℤ}

theorem Operator.Makes.divides (h : op.Makes m n k) : op.divides = false := by
  cases h <;> rfl

/-! ### Decimals that are exact -/

/-- The decimals are exact on whole numbers: words and floats that stand for a word are held as such, sums,
differences and products of whole decimals are whole as long as they are below `2 ^ 96`, and a whole decimal that is
a word is given back as the word. -/
structure Decimals.Exact {Number : Type} (decimals : Decimals Number) (IsWhole : Number → ℤ → Prop) : Prop where
  ofInt? (n : Int64) : ∃ a, decimals.ofInt? n.toInt = some a ∧ IsWhole a n.toInt
  ofFloat? {x : Binary64} {n : ℤ} (hx : x.number? = some ((n : ℝ) : EReal)) (hn : n.natAbs < 2 ^ 63) :
    ∃ a, decimals.ofFloat? x = some a ∧ IsWhole a n
  combine? {op : Operator} {a b : Number} {m n k : ℤ} (ha : IsWhole a m) (hb : IsWhole b n) (hk : op.Makes m n k)
    (hroom : k.natAbs < 2 ^ 96) : ∃ c, decimals.combine? op a b = some c ∧ IsWhole c k
  int64? {a : Number} {n : Int64} (ha : IsWhole a n.toInt) : decimals.int64? a = some n

theorem Binary64.isFinite_of_number? {x : Binary64} {u : ℝ} (h : x.number? = some (u : EReal)) :
    x.isFinite = true := by
  by_contra hinfinite
  rw [number?, if_neg (isNaN_of_number? h), if_neg hinfinite, Option.some.injEq] at h
  split_ifs at h
  · exact EReal.bot_ne_coe u h
  · exact EReal.top_ne_coe u h

theorem Binary64.signedUnits_of_number? {x : Binary64} {n : Int64}
    (h : x.number? = (Value.integer n).number?) : x.signedUnits = n.toInt * unitsOfOne :=
  (Value.number_eq_iff (a := .float x) (b := .integer n) h rfl).mp rfl

/-- The decimals of fixed size are exact on whole numbers. -/
theorem exact_fixed : Decimals.fixed.Exact Fixed.IsWhole where
  ofInt? n := ⟨_, rfl, Fixed.isWhole_ofInt n.toInt⟩
  ofFloat? {x n} hx hn := by
    obtain ⟨m, rfl⟩ : ∃ m : Int64, m.toInt = n := exists_toInt_eq.mpr (by rw [Exceeds]; omega)
    exact Fixed.ofFloat?_whole (Binary64.isFinite_of_number? hx) (Binary64.signedUnits_of_number? hx) hn.le
  combine? ha hb hk hroom := by
    cases hk with
    | sum => exact ha.add? hb hroom
    | difference => exact ha.sub? hb hroom
    | product => exact ha.mul? hb hroom
  int64? {a n} ha := by
    have hint : Decimals.fixed.int64? a = a.int?.bind SelectLang.int64? := rfl
    rw [hint, ha.int?]
    exact int64?_eq_some.mpr rfl

namespace Operator

variable {Number : Type} {decimals : Decimals Number} {IsWhole : Number → ℤ → Prop}

/-- Two whole decimals make an integer. -/
theorem onMixedOver_whole (hexact : decimals.Exact IsWhole) {a b : Number} {r : Int64} (x y : Binary64)
    (ha : IsWhole a m) (hb : IsWhole b n) (hr : op.Makes m n r.toInt) :
    op.onMixedOver decimals x y (some a) (some b) = .ok (.integer r) := by
  have hroom : r.toInt.natAbs < 2 ^ 96 := (Value.natAbs_toInt_le r).trans_lt (by norm_num)
  obtain ⟨c, hcombine, hc⟩ := hexact.combine? ha hb hr hroom
  have hvalue : decimals.result? op (some a) (some b) = some (.integer r) := by
    have hbind : decimals.result? op (some a) (some b) = (decimals.combine? op a b).bind decimals.value? := rfl
    rw [hbind, hcombine, Option.bind_some, Decimals.value?, hexact.int64? hc]
    rfl
  rw [onMixedOver, hr.divides, Bool.false_and, if_neg Bool.false_ne_true, hvalue]

variable {a p r : Int64} {x : Binary64}

theorem applyOver_whole (hexact : decimals.Exact IsWhole) (hx : x.number? = (Value.integer p).number?)
    (hp : p.toInt.natAbs < 2 ^ 63) :
    (op.Makes a.toInt p.toInt r.toInt → op.applyOver decimals (.integer a) (.float x) = .ok (.integer r)) ∧
      (op.Makes p.toInt a.toInt r.toInt → op.applyOver decimals (.float x) (.integer a) = .ok (.integer r)) := by
  obtain ⟨c, hc, hwhole⟩ := hexact.ofInt? a
  obtain ⟨d, hd, hwhole'⟩ := hexact.ofFloat? hx hp
  constructor
  · intro hr
    rw [applyOver, hc, hd]
    exact onMixedOver_whole hexact _ _ hwhole hwhole' hr
  · intro hr
    rw [applyOver, hc, hd]
    exact onMixedOver_whole hexact _ _ hwhole' hwhole hr

theorem apply_integers_of_makes (h : op.Makes a.toInt p.toInt r.toInt) :
    op.apply (.integer a) (.integer p) = .ok (.integer r) := by
  refine (onIntegers_eq_ok op a p (.integer r)).mpr ?_
  generalize hk : r.toInt = k at h
  cases h with
  | sum => exact .sum hk
  | difference => exact .difference hk
  | product => exact .product hk

/-- **Mixed and integer arithmetic agree on whole numbers.** A float that stands for an integer makes the same with
another integer as the integer itself, in either order, where the exact result is a word; and it would over all
decimals that are exact on whole numbers. -/
theorem apply_whole (hx : x.number? = (Value.integer p).number?) (hp : p.toInt.natAbs < 2 ^ 63) :
    (op.Makes a.toInt p.toInt r.toInt →
      op.apply (.integer a) (.float x) = .ok (.integer r) ∧
        op.apply (.integer a) (.integer p) = .ok (.integer r)) ∧
    (op.Makes p.toInt a.toInt r.toInt →
      op.apply (.float x) (.integer a) = .ok (.integer r) ∧
        op.apply (.integer p) (.integer a) = .ok (.integer r)) ∧
    ∀ {Number : Type} {decimals : Decimals Number} {IsWhole : Number → ℤ → Prop}, decimals.Exact IsWhole →
      (op.Makes a.toInt p.toInt r.toInt → op.applyOver decimals (.integer a) (.float x) = .ok (.integer r)) ∧
        (op.Makes p.toInt a.toInt r.toInt → op.applyOver decimals (.float x) (.integer a) = .ok (.integer r)) := by
  refine ⟨fun hr => ⟨?_, apply_integers_of_makes hr⟩, fun hr => ⟨?_, apply_integers_of_makes hr⟩,
    fun hexact => applyOver_whole hexact hx hp⟩
  · rw [apply_eq_applyOver]
    exact (applyOver_whole exact_fixed hx hp).1 hr
  · rw [apply_eq_applyOver]
    exact (applyOver_whole exact_fixed hx hp).2 hr

/-- The sum of two and the first integer that is rounded as a float. -/
theorem apply_whole_two : Binary64.number? ⟨0x4000000000000000⟩ = (Value.integer 2).number? ∧
    add.apply (.integer 9007199254740993) (.float ⟨0x4000000000000000⟩) = .ok (.integer 9007199254740995) ∧
    add.applyOver .fixed (.float ⟨0x4000000000000000⟩) (.integer 9007199254740993) =
      .ok (.integer 9007199254740995) := by
  have hx : Binary64.number? ⟨0x4000000000000000⟩ = (Value.integer 2).number? := by
    have hmantissa : Binary64.mantissa ⟨0x4000000000000000⟩ = 4503599627370496 := by decide +kernel
    have hexponent : Binary64.exponent ⟨0x4000000000000000⟩ = -51 := by decide +kernel
    have hpositive : Binary64.isNegative ⟨0x4000000000000000⟩ = false := by decide +kernel
    have hword : (2 : Int64).toInt = 2 := by decide
    rw [Binary64.number?_of_isFinite (by decide +kernel), hmantissa, hexponent, hpositive, Value.number?, hword]
    norm_num
  have hsum : add.Makes (9007199254740993 : Int64).toInt (2 : Int64).toInt (9007199254740995 : Int64).toInt := by
    rw [show (9007199254740995 : Int64).toInt = (9007199254740993 : Int64).toInt + (2 : Int64).toInt by decide]
    exact .sum _ _
  have hsum' : add.Makes (2 : Int64).toInt (9007199254740993 : Int64).toInt (9007199254740995 : Int64).toInt := by
    rw [show (9007199254740995 : Int64).toInt = (2 : Int64).toInt + (9007199254740993 : Int64).toInt by decide]
    exact .sum _ _
  obtain ⟨hleft, -, hdecimals⟩ := @apply_whole add 9007199254740993 2 9007199254740995 _ hx (by decide)
  exact ⟨hx, (hleft hsum).1, (hdecimals exact_fixed).2 hsum'⟩

end Operator
end SelectLang
