/-
# Expressions, read

Pipes bind loosest, then `+` and `-`, then `*`, `/` and `%`; each of them gathers from the left. A
factor is a call, a literal, a name path, stars, or an expression in parentheses, tried in this
order. A call is a name path with one or more parameter lists, the first of which belongs to the
innermost call.

Each layer is written over the parser `inner` for the expressions inside parentheses and parameter
lists, and `expression` ties the knot. An inner expression always stands behind a parenthesis, so it
is read from a shorter text.

Key definitions: `Grammar.expression`, `Expr.parse`.
-/
import SelectLang.Grammar.Name
import SelectLang.Grammar.Literal
import SelectLang.Text.Diagnostic

namespace SelectLang
namespace Grammar
open SelectLang.Parser

/-- `name: value`, or a value alone. -/
def parameter (inner : Parser Expr) : Parser Parameter :=
  firstOf [
    do
      let (name, value) ← separatedPair (lexeme identifier) (symbol ':') inner
      pure (.named name value),
    do let value ← inner; pure (.positional value)]

/-- One list of parameters in parentheses, which may be empty. -/
def parameters (inner : Parser Expr) : Parser (List Parameter) :=
  parenthesized (separated (symbol ',') (parameter inner))

/-- A name path and the parameter lists behind it, each of which calls what is read before it. -/
def call (inner : Parser Expr) : Parser Expr := do
  let target ← namePath
  let lists ← many1 (parameters inner)
  pure (lists.foldl Expr.call (.path target))

/-- The level of a wildcard is the number of its stars, which stand without blanks. -/
def wildcard : Parser Expr := do
  let stars ← many1 (char '*')
  pure (.wildcard stars.length)

/-- What stands between two operators. A call comes before the name path that it begins with. -/
def factor (inner : Parser Expr) : Parser Expr :=
  lexeme (firstOf [
    call inner,
    do let value ← literal; pure (.literal value),
    do let name ← namePath; pure (.path name),
    wildcard,
    parenthesized inner])

/-- The first of the operators whose symbol is there. -/
def operator (ops : List Operator) : Parser Operator :=
  firstOf (ops.map fun op => do let _ ← char op.symbol; pure op)

/-- Operands with operators of one precedence between them, gathered from the left. -/
def chain (ops : List Operator) (operand : Parser Expr) : Parser Expr := do
  let first ← operand
  foldMany (both (lexeme (operator ops)) operand) first
    fun left (op, right) => .binary op left right

/-- Factors with `*`, `/` and `%` between them. -/
def term (inner : Parser Expr) : Parser Expr :=
  chain [.multiply, .divide, .remainder] (factor inner)

/-- Terms with `+` and `-` between them. -/
def additive (inner : Parser Expr) : Parser Expr :=
  chain [.add, .subtract] (term inner)

/-- One layer of expressions over the inner ones. -/
def expressionOver (inner : Parser Expr) : Parser Expr := do
  let first ← additive inner
  foldMany ((symbols "|>").after (additive inner)) first Expr.pipe

/-- Expressions of any depth. -/
def expression : Parser Expr := fix expressionOver

end Grammar

/-- Reads a text that is one expression. -/
def Expr.parse (text : String) : Except Diagnostic Expr :=
  (Grammar.expression.followedBy Parser.blanks).run text

end SelectLang
