/-
# Expressions

The expressions of the language: literals, names, wildcards, arithmetic, calls and pipes. Arithmetic
associates to the left; `*`, `/` and `%` bind tighter than `+` and `-`, and a pipe binds loosest.
Literals carry no sign.

Key definitions: `NamePath`, `Literal`, `Operator`, `Expr`, `Parameter`.
-/
import SelectLang.Number.Binary64

namespace SelectLang

/-- Names with dots between them. -/
structure NamePath where
  segments : List String
deriving DecidableEq, Repr

namespace NamePath

/-- The path as it is written. -/
def dotted (path : NamePath) : String := ".".intercalate path.segments

/-- The path whose segments stand between the dots of `text`. -/
def ofDotted (text : String) : NamePath := ⟨(text.splitOn ".")⟩

/-- The name that the path ends with. -/
def last? (path : NamePath) : Option String := path.segments.getLast?

end NamePath

/-- A value that is written out. -/
inductive Literal where
  | string (text : String)
  | boolean (value : Bool)
  | integer (value : Int64)
  | float (value : Binary64)
deriving DecidableEq, Repr

/-- The operators of arithmetic; `remainder` is written `%`. -/
inductive Operator where
  | add
  | subtract
  | multiply
  | divide
  | remainder
deriving DecidableEq, Repr

namespace Operator

/-- How tightly the operator binds; a higher one binds tighter. -/
def precedence : Operator → Nat
  | add | subtract => 1
  | multiply | divide | remainder => 2

/-- The character that the operator is written with. -/
def symbol : Operator → Char
  | add => '+'
  | subtract => '-'
  | multiply => '*'
  | divide => '/'
  | remainder => '%'

end Operator

mutual

/-- An expression as a tree. Parentheses leave no trace in it. -/
inductive Expr where
  | literal (value : Literal)
  | path (name : NamePath)
  /-- As many stars as the level says. -/
  | wildcard (level : Nat)
  | binary (op : Operator) (left right : Expr)
  | call (target : Expr) (parameters : List Parameter)
  /-- `value |> target` -/
  | pipe (value target : Expr)

/-- What a call is given. -/
inductive Parameter where
  | positional (value : Expr)
  | named (name : String) (value : Expr)

end

deriving instance BEq for Expr
deriving instance BEq for Parameter
deriving instance Repr for Expr
deriving instance Repr for Parameter

/-- A single star. -/
instance : Inhabited Expr := ⟨.wildcard 1⟩

namespace Expr

/-- The bare name path that the expression is, if it is one. -/
def path? : Expr → Option NamePath
  | path name => some name
  | _ => none

/-- Pipes bind loosest; what is not put together by an operator binds tightest. -/
def precedence : Expr → Nat
  | pipe _ _ => 0
  | binary op _ _ => op.precedence
  | _ => 3

end Expr
end SelectLang
