/-
# Arithmetic on values

Integers stay integers where the result is one: a division that does not come out gives a float, and
a result beyond 64 bits is an error. Floats follow their own arithmetic. An integer and a float are
taken as decimals of fixed size, and the result is an integer if it is whole; where the decimals
cannot hold an operand or the result, the two are taken as floats. `+` also joins two strings.

Key definitions: `EvalError`, `Operator.apply`.
-/
import SelectLang.Syntax.Expr
import SelectLang.Syntax.Render
import SelectLang.Value.Basic
import SelectLang.Number.Fixed

namespace SelectLang

/-- Why an operation has no result. -/
inductive EvalError where
  /-- The operator is not for operands of these kinds. -/
  | mismatch (op : Operator) (left right : String)
  | divisionByZero
  | overflow (op : Operator) (left right : Int64)
deriving DecidableEq, Repr

namespace EvalError

/-- What is said of the failure. The operands of a subtraction are named from the right. -/
def message : EvalError → String
  | mismatch .add a b => "Type error: Cannot add " ++ a ++ " and " ++ b
  | mismatch .subtract a b => "Type error: Cannot subtract " ++ b ++ " from " ++ a
  | mismatch .multiply a b => "Type error: Cannot multiply " ++ a ++ " by " ++ b
  | mismatch .divide a b => "Type error: Cannot divide " ++ a ++ " by " ++ b
  | mismatch .remainder a b => "Type error: Cannot compute modulo of " ++ a ++ " by " ++ b
  | divisionByZero => "Division by zero"
  | overflow op a b =>
    "Arithmetic overflow: " ++ renderInt a.toInt ++ " " ++ op.symbol.toString ++ " " ++
      renderInt b.toInt

end EvalError

namespace Operator

/-- The operator divides, by its right operand. -/
def divides : Operator → Bool
  | divide | remainder => true
  | _ => false

/-! ### Integers -/

/-- Exact arithmetic within 64 bits. A quotient that is not whole is a float; a remainder has the
sign of the left operand, and none is computed where the quotient overflows. -/
def onIntegers (op : Operator) (a b : Int64) : Except EvalError Value :=
  let exactly (n : Int) : Except EvalError Value :=
    match int64? n with
    | some r => .ok (.integer r)
    | none => .error (.overflow op a b)
  let m := a.toInt
  let n := b.toInt
  match op with
  | add => exactly (m + n)
  | subtract => exactly (m - n)
  | multiply => exactly (m * n)
  | divide =>
    if n = 0 then .error .divisionByZero
    else if m.tmod n = 0 then exactly (m.tdiv n)
    else .ok (.float (.ofInt m / .ofInt n))
  | remainder =>
    if n = 0 then .error .divisionByZero
    else if (int64? (m.tdiv n)).isNone then .error (.overflow op a b)
    else exactly (m.tmod n)

/-! ### Floats -/

/-- Float arithmetic, where dividing by either zero is an error. -/
def onFloats (op : Operator) (x y : Binary64) : Except EvalError Value :=
  if op.divides && y.isZero then .error .divisionByZero
  else
    .ok (.float (match op with
      | add => x + y
      | subtract => x - y
      | multiply => x * y
      | divide => x / y
      | remainder => x % y))

/-! ### Both -/

/-- Decimal arithmetic, which has no result where the decimals cannot hold it. -/
def onDecimals? (op : Operator) (a b : Fixed) : Option Fixed :=
  match op with
  | add => a.add? b
  | subtract => a.sub? b
  | multiply => a.mul? b
  | divide => a.div? b
  | remainder => a.mod? b

/-- The value of a decimal: an integer if it is whole and fits. -/
def decimalValue (a : Fixed) : Value :=
  match a.int?.bind int64? with
  | some n => .integer n
  | none => .float a.toFloat

/-- Two numbers, each as a float and, if it can be, as a decimal. -/
def onMixed (op : Operator) (x y : Binary64) (a b : Option Fixed) : Except EvalError Value :=
  if op.divides && y.isZero then .error .divisionByZero
  else
    match a, b with
    | some a, some b =>
      match op.onDecimals? a b with
      | some r => .ok (decimalValue r)
      | none => op.onFloats x y
    | _, _ => op.onFloats x y

/-- The operator applied to two values of any kinds. -/
def apply (op : Operator) (left right : Value) : Except EvalError Value :=
  match left, right with
  | .integer a, .integer b => op.onIntegers a b
  | .float x, .float y => op.onFloats x y
  | .integer a, .float y =>
    op.onMixed (.ofInt a.toInt) y (some (Fixed.ofInt a.toInt)) (Fixed.ofFloat? y)
  | .float x, .integer b =>
    op.onMixed x (.ofInt b.toInt) (Fixed.ofFloat? x) (some (Fixed.ofInt b.toInt))
  | .string a, .string b =>
    match op with
    | add => .ok (.string (a ++ b))
    | op => .error (.mismatch op "string" "string")
  | a, b => .error (.mismatch op a.kind b.kind)

end Operator
end SelectLang
