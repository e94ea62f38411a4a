/-
# The canonical text

Every tree has one text: words in lower case, one blank where one is needed, parentheses only where
the tree would otherwise read differently, clauses in a fixed order and a semicolon at the end of a
query. A string is quoted with `"` unless it holds one, a number that is no integer is written
without an exponent and with at least one digit after the point.

Key definitions: `Expr.render`, `Query.render`, `Script.render`.
-/
import SelectLang.Syntax.Query
import SelectLang.Number.Notation

namespace SelectLang

/-- Literals never have an exponent, and a digit goes up if it might as well go down. -/
def literalFormat : NumberFormat := ⟨none, .up⟩

/-- The canonical text of a number, which is a bare word if it is not finite. -/
def renderNumber (x : Binary64) : String :=
  if x.isNaN then "NaN"
  else if x.isFinite then literalFormat.write x
  else if x.isNegative then "-inf"
  else "inf"

/-- The decimal digits of an integer, with its sign if it is negative. -/
def renderInt (n : Int) : String :=
  if n < 0 then "-" ++ Nat.repr n.natAbs else Nat.repr n.natAbs

namespace Literal

/-- A string is put between quotes that it does not hold. -/
def quote (text : String) : String :=
  if text.toList.contains '"' then "'" ++ text ++ "'" else "\"" ++ text ++ "\""

/-- The canonical text of a literal. A string that holds quotes of both kinds has none that reads
back. -/
def render : Literal → String
  | string text => quote text
  | boolean true => "true"
  | boolean false => "false"
  | integer n => renderInt n.toInt
  | float x => renderNumber x

end Literal

/-- The text in parentheses if they are needed. -/
def enclose (needed : Bool) (text : String) : String :=
  if needed then "(" ++ text ++ ")" else text

mutual

/-- The canonical text of an expression. The right operand is enclosed at equal precedence, for
operators gather from the left. -/
def Expr.render : Expr → String
  | .literal value => value.render
  | .path name => name.dotted
  | .wildcard level => String.ofList (List.replicate level '*')
  | .binary op left right =>
    enclose (left.precedence < op.precedence) left.render ++ " " ++ op.symbol.toString ++ " " ++
      enclose (right.precedence ≤ op.precedence) right.render
  | .call target parameters =>
    enclose (target.precedence < 3) target.render ++ "(" ++ renderParameters parameters ++ ")"
  | .pipe value target =>
    value.render ++ " |> " ++ enclose (target.precedence == 0) target.render

/-- The canonical text of a parameter. -/
def Parameter.render : Parameter → String
  | .positional value => value.render
  | .named name value => name ++ ": " ++ value.render

/-- The parameters with a comma and a blank between them. -/
def renderParameters : List Parameter → String
  | [] => ""
  | [p] => p.render
  | p :: q :: ps => p.render ++ ", " ++ renderParameters (q :: ps)

end

namespace Top

/-- The words of the modifier; none for `all`. -/
def render : Top → String
  | all => ""
  | first => "first"
  | last => "last"
  | one => "one"
  | position n => "at " ++ Nat.repr n.toNat
  | quantity n => "top " ++ Nat.repr n.toNat
  | percentage n => "top " ++ Nat.repr n.toNat ++ "%"

end Top

/-- Ascending is left unsaid. -/
def SortTerm.render (term : SortTerm) : String :=
  match term.direction with
  | .ascending => term.expression.render
  | .descending => term.expression.render ++ " desc"

/-- Each of the two forms of an item keeps its own text. -/
def Atom.render : Atom → String
  | .expression e none => e.render
  | .expression e (some output) => e.render ++ " as " ++ output.dotted
  | .assignment output e => output.dotted ++ " = " ++ e.render

namespace Query

/-- The clauses behind the source, each with a blank before it. -/
def renderClauses (query : Query) : String :=
  (if query.orderings.isEmpty then ""
    else " order by " ++ ", ".intercalate (query.orderings.map SortTerm.render)) ++
  (match query.offset with
    | some n => " offset " ++ Nat.repr n.toNat
    | none => "") ++
  (match query.limit with
    | some n => " limit " ++ Nat.repr n.toNat
    | none => "") ++
  (match query.pagination with
    | some p => " paginated on " ++ Nat.repr p.page.toNat ++ " by " ++ Nat.repr p.size.toNat
    | none => "")

/-- The canonical text of a query. The top modifier goes in front of the selection, wherever it was
written. -/
def render (query : Query) : String :=
  "select " ++ (if query.top = .all then "" else query.top.render ++ " ") ++
    ", ".intercalate (query.atoms.map Atom.render) ++ " from " ++ query.source.dotted ++
    query.renderClauses ++ ";"

end Query

/-- One query a line. -/
def Script.render (script : Script) : String :=
  "\n".intercalate (script.statements.map Query.render)

end SelectLang
