/-
# How numbers are written

A number is written with the fewest digits that read back to it and at least one digit on each side
of the point. Numbers whose decimal exponent lies outside a given window are written with an
exponent instead: the digits with a point after the first, and `e` with a signed exponent. Such a
number has a point only if it has more than one digit.

A `NumberFormat` holds the two decisions that differ between the outputs of the program: the window,
and which of two equally near digits is taken.

Key definitions: `NumberFormat`, `NumberFormat.write`.
-/
import SelectLang.Number.Shortest

namespace SelectLang

/-- How a finite number is written. -/
structure NumberFormat where
  /-- The decimal exponents, from the first up to but without the second, that are written
  without an exponent; `none` if all are. -/
  positional : Option (Int × Int)
  tie : Decimal.Tie

namespace NumberFormat

/-- The digits with a point and no exponent. -/
def writePositional (d : Decimal) : String :=
  let digits := Nat.toDigits 10 d.significand
  if 0 ≤ d.exponent then
    String.ofList (digits ++ List.replicate d.exponent.toNat '0') ++ ".0"
  else
    let places := (-d.exponent).toNat
    let padded := List.replicate (places + 1 - digits.length) '0' ++ digits
    let whole := padded.length - places
    String.ofList (padded.take whole) ++ "." ++ String.ofList (padded.drop whole)

/-- The digits with an exponent. -/
def writeExponent (d : Decimal) : String :=
  let digits := Nat.toDigits 10 d.significand
  let e : Int := d.exponent + digits.length - 1
  let tail := digits.drop 1
  String.ofList (digits.take 1) ++ (if tail.isEmpty then "" else "." ++ String.ofList tail) ++
    "e" ++ (if e < 0 then "-" else "+") ++ Nat.repr e.natAbs

/-- The text of a finite number. -/
def write (format : NumberFormat) (x : Binary64) : String :=
  let d := Decimal.shortest format.tie x
  let e : Int := d.exponent + (Nat.toDigits 10 d.significand).length - 1
  let body :=
    match format.positional with
    | none => writePositional d
    | some (low, high) => if low ≤ e ∧ e < high then writePositional d else writeExponent d
  if x.isNegative then "-" ++ body else body

end NumberFormat
end SelectLang
