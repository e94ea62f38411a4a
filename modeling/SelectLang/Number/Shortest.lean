/-
# Shortest decimals

The decimal with the fewest digits that reads back to a given binary number. For each number of
digits there is a decimal grid, and only the two points of it around the number can be meant; the
first grid of which one reads back gives the digits. Where both read back the nearer is taken, and
if they are equally near the given rule for ties decides.

Key definitions: `Decimal`, `Decimal.Tie`, `Decimal.shortest`.
-/
import SelectLang.Number.Binary64

namespace SelectLang

/-- The number `significand · 10 ^ exponent`. -/
structure Decimal where
  significand : Nat
  exponent : Int
deriving DecidableEq, Repr

namespace Decimal

/-- Which of two equally near decimals is meant. -/
inductive Tie where
  | up
  | even
deriving DecidableEq, Repr

/-- The nearest binary number. -/
def toBinary64 (d : Decimal) : Binary64 := Binary64.ofDecimal false d.significand d.exponent

/-- Is `num / den` less than `10 ^ k`? -/
def belowTen (num den : Nat) (k : Int) : Bool :=
  if 0 ≤ k then num < den * Nat.pow 10 k.toNat else num * Nat.pow 10 (-k).toNat < den

/-- The least `k` with `num / den < 10 ^ k`, for positive `num` and `den`. -/
def logTen (num den : Nat) : Int :=
  let k := Int.fdiv (Binary64.logTwo num den * 30103) 100000
  if belowTen num den k then k
  else if belowTen num den (k + 1) then k + 1
  else k + 2

/-- The numerator and denominator of `(num / den) / 10 ^ k`. -/
def scaled (num den : Nat) (k : Int) : Nat × Nat :=
  if 0 ≤ k then (num, den * Nat.pow 10 k.toNat) else (num * Nat.pow 10 (-k).toNat, den)

/-- Of the two points around `x` on the grid of `10 ^ k`, the one that stands for `x`. -/
def onGrid (tie : Tie) (x : Binary64) (k : Int) : Option Decimal :=
  let (num, den) := scaled x.ratio.1 x.ratio.2 k
  let low : Decimal := ⟨num / den, k⟩
  let high : Decimal := ⟨num / den + 1, k⟩
  let rest := num % den
  let nearer :=
    if 2 * rest < den then low
    else if den < 2 * rest then high
    else match tie with
      | .up => high
      | .even => if low.significand % 2 = 0 then low else high
  match low.toBinary64 == x, high.toBinary64 == x with
  | true, true => some nearer
  | true, false => some low
  | false, true => some high
  | false, false => none

/-- The first grid, of the next `rounds` ones from `10 ^ k` downward, that has a point for `x`. -/
def search (tie : Tie) (x : Binary64) : Nat → Int → Option Decimal
  | 0, _ => none
  | rounds + 1, k => (onGrid tie x k).or (search tie x rounds (k - 1))

/-- The value of `x` itself as a decimal: halves are fives one place further down. -/
def exact (x : Binary64) : Decimal :=
  if 0 ≤ x.exponent then ⟨x.mantissa * Nat.pow 2 x.exponent.toNat, 0⟩
  else ⟨x.mantissa * Nat.pow 5 (-x.exponent).toNat, x.exponent⟩

/-- Moves zeros at the end of the significand into the exponent, at most `rounds` of them. -/
def stripZeros : Nat → Decimal → Decimal
  | 0, d => d
  | rounds + 1, d =>
    if d.significand ≠ 0 ∧ d.significand % 10 = 0 then
      stripZeros rounds ⟨d.significand / 10, d.exponent + 1⟩
    else d

/-- The shortest decimal for the size of a finite number. -/
def shortest (tie : Tie) (x : Binary64) : Decimal :=
  let size := Binary64.ofMagnitude false x.magnitude
  if size.isZero then ⟨0, 0⟩
  else
    match search tie size 17 (logTen size.ratio.1 size.ratio.2 - 1) with
    | some d => stripZeros 17 d
    | none => exact size

end Decimal
end SelectLang
