/-
# JSON numbers

The meaning of a written number. Without a point and an exponent it is an integer, if it fits into 64
bits with or without a sign; a negative zero is a float. Otherwise its digits are gathered into a
significand of 64 bits: a digit before the point that no longer fits is counted as a power of ten,
one behind the point ends the gathering. The significand is then rounded and multiplied or divided
by the power of ten that is left, which rounds once more. A number beyond the largest float has no
meaning.

Key definitions: `Json.Numeral`, `Json.Numeral.toJson?`.
-/
import SelectLang.Json.Basic

namespace SelectLang
namespace Json

/-- A number as it is written, by its digits. -/
structure Numeral where
  negative : Bool
  whole : List Char
  places : List Char
  /-- The exponent, if one is written: is it negative, and its digits. -/
  exponent : Option (Bool × List Char)
deriving DecidableEq, Repr

namespace Numeral

/-- The significand with as many of the digits as fit, and the digits that do not. -/
def gather (significand : Nat) : List Char → Nat × List Char
  | [] => (significand, [])
  | d :: ds =>
    let next := Nat.ofDigitChars 10 [d] significand
    if next < UInt64.size then gather next ds else (significand, d :: ds)

/-- The float nearest to `10 ^ k`. -/
def tenTo (k : Nat) : Binary64 := .ofDecimal false 1 k

/-- `x / 10 ^ k`, where a power beyond the largest float is divided off in steps. -/
def divideByTenTo (x : Binary64) (k : Nat) : Binary64 :=
  if k ≤ 308 then x / tenTo k
  else if x.isZero then x
  else divideByTenTo (x / tenTo 308) (k - 308)
termination_by k

/-- `significand · 10 ^ exponent`, if it is not beyond the largest float. -/
def scale? (significand : Nat) (exponent : Int) : Option Binary64 :=
  let x := Binary64.ofNat significand
  if exponent < 0 then some (divideByTenTo x exponent.natAbs)
  else if significand = 0 then some x
  else if 308 < exponent then none
  else
    let product := x * tenTo exponent.toNat
    if product.isFinite then some product else none

/-- The greatest exponent that is told from the greater ones. -/
def greatestExponent : Nat := Nat.pow 2 31 - 1

/-- The float with the given significand and the written exponent on top of `shift`. -/
def float? (significand : Nat) (shift : Int) : Option (Bool × List Char) → Option Binary64
  | none => scale? significand shift
  | some (negative, digits) =>
    let e := Nat.ofDigitChars 10 digits 0
    if e ≤ greatestExponent then
      scale? significand (if negative then shift - e else min (shift + e) greatestExponent)
    else if negative || significand = 0 then some .zero
    else none

/-- What the number means. The digits behind the point lower the exponent as far as they are
gathered. -/
def toJson? (n : Numeral) : Option Json :=
  let (significand, excess) := gather 0 n.whole
  if n.places.isEmpty && n.exponent.isNone && excess.isEmpty then
    if !n.negative then some (.integer significand)
    else if significand = 0 || Nat.pow 2 63 < significand then
      some (.float (.ofRatio true significand 1))
    else some (.integer (-significand))
  else
    let (significand, left) := gather significand n.places
    let shift : Int := excess.length - (n.places.length - left.length : Nat)
    (float? significand shift n.exponent).map fun x =>
      .float (if n.negative then x.neg else x)

end Numeral
end Json
end SelectLang
