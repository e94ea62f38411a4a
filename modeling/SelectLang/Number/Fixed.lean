/-
# Decimals of fixed size

A `Fixed` is `± digits / 10 ^ scale` with fewer than 96 bits of digits and a scale of at most 28.
Mixed arithmetic goes through these, so that `0.1 * 3` is what it looks like. A float becomes a
decimal by trading factors two for factors five until it has no binary exponent left, and is then
cut to about the sixteen digits that it carries. An operation whose result does not fit has none;
what does not fit at the end of the digits is rounded, a half to the even neighbour.

Key definitions: `Fixed.ofInt`, `Fixed.ofFloat?`, `Fixed.add?`, `Fixed.sub?`, `Fixed.mul?`,
`Fixed.div?`, `Fixed.mod?`, `Fixed.int?`, `Fixed.toFloat`.
-/
import SelectLang.Number.Binary64

namespace SelectLang

/-- A decimal, by its sign, digits and scale. The digits may end with zeros. -/
structure Fixed where
  negative : Bool
  digits : Nat
  scale : Nat
deriving DecidableEq, Repr

namespace Fixed

/-- The digits stay below this. -/
def capacity : Nat := Nat.pow 2 96

/-- No decimal has more places. -/
def greatestScale : Nat := 28

/-- Zero without places. -/
def zero : Fixed := ⟨false, 0, 0⟩

/-! ### Whole numbers and floats -/

/-- The integer as a decimal without places. -/
def ofInt (n : Int) : Fixed := ⟨n < 0, n.natAbs, 0⟩

/-- Digits with a decimal exponent that is still to become a scale. -/
structure Unscaled where
  digits : Nat
  exponent : Int

namespace Unscaled

/-- Divides by two `count` times: a factor two is taken out if there is one, and a factor ten
moves to the exponent in exchange for a five otherwise. -/
def halve : Nat → Unscaled → Unscaled
  | 0, u => u
  | count + 1, ⟨m, e⟩ =>
    if m % 2 = 0 then halve count ⟨m / 2, e + 1⟩
    else if m * 5 < capacity then halve count ⟨m * 5, e⟩
    else halve count ⟨m / 2, e + 1⟩

/-- Multiplies by two `count` times, by dividing by five where there is no room. -/
def double? : Nat → Unscaled → Option Unscaled
  | 0, u => some u
  | count + 1, ⟨m, e⟩ =>
    if m < Nat.pow 2 95 then double? count ⟨m * 2, e - 1⟩
    else if 2 * e > (count + 1 : Nat) then none
    else double? count ⟨m / 5, e⟩

/-- Multiplies a positive exponent into the digits. -/
def raise? : Nat → Unscaled → Option Unscaled
  | 0, u => some u
  | count + 1, ⟨m, e⟩ => if m * 10 < capacity then raise? count ⟨m * 10, e - 1⟩ else none

/-- Drops digits until the exponent is a scale; a five goes up. -/
def cut : Nat → Unscaled → Unscaled
  | 0, u => u
  | count + 1, ⟨m, e⟩ =>
    if m / 10 = 0 then ⟨0, 0⟩
    else cut count ⟨if 5 ≤ m % 10 then m / 10 + 1 else m / 10, e + 1⟩

/-- Drops digits that a float does not carry; a five goes up. -/
def trim : Nat → Unscaled → Unscaled
  | 0, u => u
  | count + 1, ⟨m, e⟩ =>
    if m < Nat.pow 2 52 then ⟨m, e⟩
    else trim count ⟨if 5 ≤ m % 10 then m / 10 + 1 else m / 10, e + 1⟩

/-- Drops zeros at the end of the digits. -/
def strip : Nat → Unscaled → Unscaled
  | 0, u => u
  | count + 1, ⟨m, e⟩ => if m % 10 = 0 then strip count ⟨m / 10, e + 1⟩ else ⟨m, e⟩

end Unscaled

/-- How far the exponent is below zero. -/
def below (e : Int) : Nat := (-e).toNat

/-- The decimal that stands for a float, if it is finite and not too large. -/
def ofFloat? (x : Binary64) : Option Fixed :=
  if !x.isFinite then none
  else if x.isZero then some ⟨x.isNegative, 0, 0⟩
  else do
    let u : Unscaled := ⟨x.mantissa, x.exponent⟩
    let u ← if u.exponent < 0 then some (u.halve (below u.exponent))
      else u.double? u.exponent.toNat
    let u ← u.raise? u.exponent.toNat
    let u := u.cut (below u.exponent - greatestScale)
    let u := u.trim (below u.exponent)
    let u := u.strip (below u.exponent)
    some ⟨x.isNegative, u.digits, below u.exponent⟩

/-! ### Sums and products -/

/-- The decimal `± digits / 10 ^ scale` with the last `dropped` digits rounded off, or more if that
leaves too many. -/
def fitFrom (negative : Bool) (digits scale : Nat) : Nat → Nat → Option Fixed
  | 0, _ => none
  | rounds + 1, dropped =>
    let m := Binary64.roundQuotient digits (Nat.pow 10 dropped)
    if m < capacity then
      if dropped ≤ scale then some ⟨negative, m, scale - dropped⟩ else none
    else fitFrom negative digits scale rounds (dropped + 1)

/-- The decimal `± digits / 10 ^ scale`, rounded as far as it must be to fit. -/
def fit? (negative : Bool) (digits scale : Nat) : Option Fixed :=
  fitFrom negative digits scale (digits.log2 + 1) (scale - greatestScale)

/-- The digits of `a` at the scale `s`. -/
def digitsAt (a : Fixed) (s : Nat) : Nat := a.digits * Nat.pow 10 (s - a.scale)

/-- The signed digits of `a` at the scale `s`. -/
def unitsAt (a : Fixed) (s : Nat) : Int :=
  if a.negative then -(a.digitsAt s : Int) else a.digitsAt s

/-- The decimal with the other sign. -/
protected def neg (a : Fixed) : Fixed := { a with negative := !a.negative }

/-- The sum, at the greater of the two scales. -/
def add? (a b : Fixed) : Option Fixed :=
  if a.digits = 0 then some b
  else if b.digits = 0 then some a
  else
    let s := max a.scale b.scale
    let sum := a.unitsAt s + b.unitsAt s
    fit? (sum < 0) sum.natAbs s

/-- The difference. -/
def sub? (a b : Fixed) : Option Fixed := add? a b.neg

/-- The product, rounded to the places that there are. -/
def mul? (a b : Fixed) : Option Fixed :=
  if a.digits = 0 ∨ b.digits = 0 then some zero
  else fit? (a.negative != b.negative) (a.digits * b.digits) (a.scale + b.scale)

/-! ### Quotients and remainders -/

/-- The remainder of the division toward zero. -/
def mod? (a b : Fixed) : Option Fixed :=
  if b.digits = 0 then none
  else if a.digits = 0 then some zero
  else
    let s := max a.scale b.scale
    let m := a.digitsAt s
    let n := b.digitsAt s
    if m = n then some zero
    else if m < n then some a
    else some ⟨a.negative, m % n, s⟩

/-- A quotient under way: the digits so far, their scale, what is left of the dividend, and whether
zeros at the end are to go. -/
structure Quotient where
  digits : Nat
  scale : Int
  rest : Nat
  strip : Bool

namespace Quotient

/-- The most further digits, up to `most`, for which there is room. -/
def room (q : Nat) : Nat → Nat
  | 0 => 0
  | most + 1 => if q * Nat.pow 10 (most + 1) < capacity then most + 1 else room q most

/-- The digits rounded to the nearest, where no further digit has room. -/
def close (d : Nat) (u : Quotient) : Option Quotient :=
  if d < 2 * u.rest ∨ (2 * u.rest = d ∧ u.digits % 2 = 1) then
    let q := u.digits + 1
    if q < capacity then some { u with digits := q }
    else if u.scale < 1 then none
    else some { u with digits := Binary64.roundQuotient q 10, scale := u.scale - 1 }
  else some u

/-- Adds up to nine digits at a time until the division by `d` comes out or the room is used up. -/
def run (d : Nat) : Nat → Quotient → Option Quotient
  | 0, _ => none
  | rounds + 1, u =>
    if u.rest = 0 ∧ 0 ≤ u.scale then some u
    else
      let strip := u.strip || u.rest != 0
      let p :=
        if u.rest = 0 then min 9 u.scale.natAbs
        else room u.digits (min 9 ((greatestScale : Int) - u.scale).toNat)
      if u.rest ≠ 0 ∧ p < 9 ∧ u.scale + p < 0 then none
      else if u.rest ≠ 0 ∧ p = 0 then close d { u with strip }
      else
        let raised := u.digits * Nat.pow 10 p
        if capacity ≤ raised then none
        else
          let scale := u.scale + p
          let digits := raised + u.rest * Nat.pow 10 p / d
          let rest := u.rest * Nat.pow 10 p % d
          if digits < capacity then run d rounds ⟨digits, scale, rest, strip⟩
          else if scale < 1 then none
          else
            let last := digits % 10
            let cut := digits / 10
            let up := 5 < last || (last == 5 && (rest != 0 || cut % 2 == 1))
            some ⟨if up then cut + 1 else cut, scale - 1, rest, strip⟩

/-- Drops `places` zeros from the end if the digits have them and the scale is large enough. -/
def dropZeros (places : Nat) (multiple : Nat) (u : Quotient) : Quotient :=
  if u.digits % multiple = 0 ∧ (places : Int) ≤ u.scale ∧ u.digits % Nat.pow 10 places = 0 then
    { u with digits := u.digits / Nat.pow 10 places, scale := u.scale - places }
  else u

/-- Drops eight zeros at a time as often as it goes, at most `rounds` times. -/
def dropEights : Nat → Quotient → Quotient
  | 0, u => u
  | rounds + 1, u =>
    let v := u.dropZeros 8 (Nat.pow 2 32)
    if v.scale = u.scale then u else dropEights rounds v

/-- The digits without their zeros at the end. -/
def stripped (u : Quotient) : Quotient :=
  if u.strip then
    (((u.dropEights 4).dropZeros 4 16).dropZeros 2 4).dropZeros 1 2
  else u

end Quotient

/-- The quotient, with as many places as it takes and fit, and without the zeros at its end. -/
def div? (a b : Fixed) : Option Fixed :=
  if b.digits = 0 then none
  else if a.digits = 0 then some zero
  else
    let d := b.digits
    let start : Quotient := ⟨a.digits / d, (a.scale : Int) - b.scale, a.digits % d, false⟩
    (start.run d 16).map fun u =>
      ⟨a.negative != b.negative, u.stripped.digits, u.stripped.scale.toNat⟩

/-! ### Results -/

/-- The integer that the decimal is, if it is one. -/
def int? (a : Fixed) : Option Int :=
  if a.digits % Nat.pow 10 a.scale = 0 then
    let n : Int := (a.digits / Nat.pow 10 a.scale : Nat)
    some (if a.negative then -n else n)
  else none

/-- `x ^ n` by repeated squaring, the factors taken from the lowest bit of `n` on. -/
def power (r x : Binary64) : Nat → Nat → Binary64
  | 0, _ => r
  | rounds + 1, n =>
    let r := if n % 2 = 1 then r * x else r
    if n / 2 = 0 then r else power r (x * x) rounds (n / 2)

/-- The float that stands for the decimal: the whole part plus the fraction, rounded to as many
places as the decimal has. -/
def toFloat (a : Fixed) : Binary64 :=
  let size :=
    if a.scale = 0 then Binary64.ofNat a.digits
    else
      let unit := Nat.pow 10 a.scale
      let whole := Binary64.ofNat (a.digits / unit)
      let fraction := Binary64.ofNat (a.digits % unit) / Binary64.ofNat unit
      if fraction.isZero then whole
      else
        let p := power (.ofNat 1) (.ofNat 10) 6 a.scale
        ((whole + fraction) * p).round / p
  if a.negative then -size else size

end Fixed
end SelectLang
