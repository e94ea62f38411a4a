/-
# Binary numbers of 64 bits

A `Binary64` is its bits: a sign, eleven bits of exponent and 52 of fraction. A finite one has the
exact value `± mantissa · 2 ^ exponent`. `ofRatio` is the way back: the number nearest to a quotient,
of two equally near ones the one with the even mantissa, and an infinity beyond the largest.

Two equalities matter. As data, two numbers are equal if their bits are. As numbers (`Binary64.same`)
the zeros are equal and an undefined number differs from itself. The order used for sorting
(`Binary64.rank`) tells all bit patterns apart: undefined numbers come first or last by their sign,
and the negative zero comes before the positive one.

An operation that has no result (`∞ - ∞`) yields the undefined number with the sign set, and an
undefined operand is handed on.

Key definitions: `Binary64.mantissa`, `Binary64.exponent`, `Binary64.ofRatio`, `Binary64.rank`,
`Binary64.same`.
-/

namespace SelectLang

/-- A number of 64 bits, by its bits. -/
structure Binary64 where
  bits : UInt64
deriving DecidableEq, Repr, Inhabited

namespace Binary64

/-! ### The parts of a number -/

/-- The bits without the sign, as a number. -/
def magnitude (x : Binary64) : Nat := x.bits.toNat % Nat.pow 2 63

/-- The sign is set, which zeros and undefined numbers have too. -/
def isNegative (x : Binary64) : Bool := Nat.pow 2 63 ≤ x.bits.toNat

/-- The bits of infinity without the sign. -/
def infinityMagnitude : Nat := 2047 * Nat.pow 2 52

/-- The number is no infinity and not undefined. -/
def isFinite (x : Binary64) : Bool := x.magnitude < infinityMagnitude

/-- The number is undefined. -/
def isNaN (x : Binary64) : Bool := infinityMagnitude < x.magnitude

/-- The number is one of the two zeros. -/
def isZero (x : Binary64) : Bool := x.magnitude == 0

/-- The number with the given sign and other bits. -/
def ofMagnitude (negative : Bool) (magnitude : Nat) : Binary64 :=
  ⟨UInt64.ofNat (if negative then magnitude + Nat.pow 2 63 else magnitude)⟩

/-- The positive zero. -/
def zero : Binary64 := ofMagnitude false 0

/-- The positive infinity. -/
def infinity : Binary64 := ofMagnitude false infinityMagnitude

/-- The undefined number that is given as such. -/
def nan : Binary64 := ofMagnitude false (infinityMagnitude + Nat.pow 2 51)

/-- What an operation yields that has no result. -/
def undefined : Binary64 := ofMagnitude true (infinityMagnitude + Nat.pow 2 51)

/-- For a finite number, `m` in `± m · 2 ^ e`. -/
def mantissa (x : Binary64) : Nat :=
  if x.magnitude < Nat.pow 2 52 then x.magnitude else x.magnitude % Nat.pow 2 52 + Nat.pow 2 52

/-- For a finite number, `e` in `± m · 2 ^ e`. -/
def exponent (x : Binary64) : Int :=
  if x.magnitude < Nat.pow 2 52 then -1074 else ((x.magnitude / Nat.pow 2 52 : Nat) : Int) - 1075

/-! ### Rounding -/

/-- The whole number nearest to `num / den`, of two the even one. -/
def roundQuotient (num den : Nat) : Nat :=
  let q := num / den
  let r := num % den
  if den < 2 * r || (2 * r == den && q % 2 == 1) then q + 1 else q

/-- The `l` with `2 ^ l ≤ num / den < 2 ^ (l + 1)`, for positive `num` and `den`. -/
def logTwo (num den : Nat) : Int :=
  let l : Int := (num.log2 : Int) - den.log2
  if 0 ≤ l then (if den * Nat.pow 2 l.toNat ≤ num then l else l - 1)
  else if den ≤ num * Nat.pow 2 (-l).toNat then l else l - 1

/-- The number nearest to `± num / den`. -/
def ofRatio (negative : Bool) (num den : Nat) : Binary64 :=
  if num = 0 then ofMagnitude negative 0
  else
    let e := max (logTwo num den - 52) (-1074)
    let m := if 0 ≤ e then roundQuotient num (den * Nat.pow 2 e.toNat)
      else roundQuotient (num * Nat.pow 2 (-e).toNat) den
    ofMagnitude negative (min ((e + 1074).toNat * Nat.pow 2 52 + m) infinityMagnitude)

/-- The number nearest to `± digits · 10 ^ exponent`. -/
def ofDecimal (negative : Bool) (digits : Nat) (exponent : Int) : Binary64 :=
  if 0 ≤ exponent then ofRatio negative (digits * Nat.pow 10 exponent.toNat) 1
  else ofRatio negative digits (Nat.pow 10 (-exponent).toNat)

/-- The number nearest to a natural. -/
def ofNat (n : Nat) : Binary64 := ofRatio false n 1

/-- The number nearest to an integer. -/
def ofInt (n : Int) : Binary64 := ofRatio (n < 0) n.natAbs 1

/-- The size of a finite number as a quotient of naturals. -/
def ratio (x : Binary64) : Nat × Nat :=
  if 0 ≤ x.exponent then (x.mantissa * Nat.pow 2 x.exponent.toNat, 1)
  else (x.mantissa, Nat.pow 2 (-x.exponent).toNat)

/-! ### Order and equality -/

/-- Ascending in the order in which numbers are sorted. -/
def rank (x : Binary64) : Int :=
  if x.isNegative then -(x.magnitude : Int) - 1 else x.magnitude

/-- Equal as numbers. -/
def same (x y : Binary64) : Bool :=
  !x.isNaN && !y.isNaN && (x == y || (x.isZero && y.isZero))

/-! ### Arithmetic -/

/-- The number with the other sign. -/
protected def neg (x : Binary64) : Binary64 := ofMagnitude (!x.isNegative) x.magnitude

instance : Neg Binary64 := ⟨Binary64.neg⟩

/-- The number as the machine computes with it. -/
def toFloat (x : Binary64) : Float := Float.ofBits x.bits

/-- The result of `op`, with the operand handed on that is undefined, if one is. -/
def apply (op : Float → Float → Float) (x y : Binary64) : Binary64 :=
  if x.isNaN then x
  else if y.isNaN then y
  else
    let r : Binary64 := ⟨(op x.toFloat y.toFloat).toBits⟩
    if r.isNaN then undefined else r

protected def add : Binary64 → Binary64 → Binary64 := apply (· + ·)
protected def sub : Binary64 → Binary64 → Binary64 := apply (· - ·)
protected def mul : Binary64 → Binary64 → Binary64 := apply (· * ·)
protected def div : Binary64 → Binary64 → Binary64 := apply (· / ·)

instance : Add Binary64 := ⟨Binary64.add⟩
instance : Sub Binary64 := ⟨Binary64.sub⟩
instance : Mul Binary64 := ⟨Binary64.mul⟩
instance : Div Binary64 := ⟨Binary64.div⟩

/-- The exact remainder of the division toward zero, with the sign of the dividend. -/
protected def mod (x y : Binary64) : Binary64 :=
  if x.isNaN then x
  else if y.isNaN then y
  else if !x.isFinite || y.isZero then undefined
  else if !y.isFinite then x
  else
    let e := min x.exponent y.exponent
    let a := x.mantissa * Nat.pow 2 (x.exponent - e).toNat
    let b := y.mantissa * Nat.pow 2 (y.exponent - e).toNat
    if 0 ≤ e then ofRatio x.isNegative (a % b * Nat.pow 2 e.toNat) 1
    else ofRatio x.isNegative (a % b) (Nat.pow 2 (-e).toNat)

instance : Mod Binary64 := ⟨Binary64.mod⟩

/-- The nearest whole number, of two the one further from zero. -/
def round (x : Binary64) : Binary64 :=
  if !x.isFinite || 0 ≤ x.exponent then x
  else
    let unit := Nat.pow 2 (-x.exponent).toNat
    ofRatio x.isNegative ((2 * x.mantissa + unit) / (2 * unit)) 1

end Binary64
end SelectLang
