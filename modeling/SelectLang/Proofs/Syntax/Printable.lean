/-
# Well-formed and printable trees

Not every tree is the tree of a text. In a well-formed one the names are names that are not reserved
words, paths and selections are not empty, stars are at least one, integers carry no sign, a string can
be put between quotes, and what is called is a name path or another call. Which numbers may stand in
it is left open: a tree is *printable* if its numbers are finite and without a sign.

Everything here can be computed.

Key definitions: `isName`, `NamePath.isProper`, `Expr.wellFormed`, `Query.wellFormed`,
`Script.wellFormed`, `Binary64.isPlain`, `Binary64.isUnsigned`, `Expr.isPrintable`,
`Query.isPrintable`, `Script.isPrintable`.
-/
import SelectLang.Grammar.Name
import SelectLang.Syntax.Query

namespace SelectLang

/-- A name character that may begin a name, then name characters, and no reserved word. -/
def isName (name : String) : Bool :=
  match name.toList with
  | [] => false
  | c :: cs => isNameStart c && cs.all isNameChar && !isReserved name

/-- One or more names. -/
def NamePath.isProper (path : NamePath) : Bool :=
  !path.segments.isEmpty && path.segments.all isName

/-- What can be called: a name path or another call. -/
def Expr.isCallee : Expr → Bool
  | .path _ => true
  | .call _ _ => true
  | _ => false

section WellFormed

-- which numbers may stand in a tree
variable (number : Binary64 → Bool)

/-- A string holds no newline and not both kinds of quotes. -/
def Literal.wellFormed : Literal → Bool
  | string text =>
    !text.toList.contains '\n' && !(text.toList.contains '\'' && text.toList.contains '"')
  | boolean _ => true
  | integer n => 0 ≤ n.toInt
  | float x => number x

mutual

/-- The literals and names are well formed, wildcards have a star, and what is called can be called. -/
def Expr.wellFormed : Expr → Bool
  | .literal value => value.wellFormed number
  | .path name => name.isProper
  | .wildcard level => 1 ≤ level
  | .binary _ left right => left.wellFormed && right.wellFormed
  | .call target parameters =>
    target.isCallee && target.wellFormed && parametersWellFormed parameters
  | .pipe value target => value.wellFormed && target.wellFormed

/-- The name, if there is one, is a name, and the value is well formed. -/
def Parameter.wellFormed : Parameter → Bool
  | .positional value => value.wellFormed
  | .named name value => isName name && value.wellFormed

/-- All parameters are well formed. -/
def parametersWellFormed : List Parameter → Bool
  | [] => true
  | p :: ps => p.wellFormed && parametersWellFormed ps

end

/-- The expression is well formed. -/
def SortTerm.wellFormed (term : SortTerm) : Bool := term.expression.wellFormed number

/-- The expression is well formed, and the output name a proper path. -/
def Atom.wellFormed (atom : Atom) : Bool :=
  atom.expr.wellFormed number && atom.output.all NamePath.isProper

/-- The names and expressions are well formed, and something is selected. -/
def Query.wellFormed (query : Query) : Bool :=
  query.source.isProper && !query.atoms.isEmpty && query.atoms.all (Atom.wellFormed number) &&
    query.orderings.all (SortTerm.wellFormed number)

/-- All queries are well formed. -/
def Script.wellFormed (script : Script) : Bool := script.statements.all (Query.wellFormed number)

end WellFormed

/-- Finite and without a sign. -/
def Binary64.isPlain (x : Binary64) : Bool := x.isFinite && !x.isNegative

/-- Without a sign: finite or infinity. -/
def Binary64.isUnsigned (x : Binary64) : Bool := !x.isNaN && !x.isNegative

/-- The tree is well formed with plain numbers, so that its canonical text reads back. -/
def Expr.isPrintable (e : Expr) : Bool := e.wellFormed Binary64.isPlain

/-- The query is well formed with plain numbers. -/
def Query.isPrintable (query : Query) : Bool := query.wellFormed Binary64.isPlain

/-- The queries are well formed with plain numbers. -/
def Script.isPrintable (script : Script) : Bool := script.wellFormed Binary64.isPlain

/-! ### Names -/

theorem isName_iff {name : String} : isName name = true ↔ ∃ c cs, name.toList = c :: cs ∧
    isNameStart c = true ∧ (∀ d ∈ cs, isNameChar d = true) ∧ isReserved name = false := by
  unfold isName
  cases h : name.toList with
  | nil => simp
  | cons c cs => simp [and_assoc]

theorem isProper_iff {path : NamePath} : path.isProper = true ↔
    path.segments ≠ [] ∧ ∀ name ∈ path.segments, isName name = true := by
  simp [NamePath.isProper]

/-! ### Queries -/

/-- What well-formed means of a query, part by part. -/
theorem Query.wellFormed_iff {number : Binary64 → Bool} {query : Query} :
    query.wellFormed number = true ↔ query.source.isProper = true ∧ query.atoms ≠ [] ∧
      (∀ a ∈ query.atoms, a.wellFormed number = true) ∧
      ∀ term ∈ query.orderings, term.wellFormed number = true := by
  simp only [Query.wellFormed, Bool.and_eq_true, Bool.not_eq_true', List.isEmpty_eq_false_iff,
    List.all_eq_true, and_assoc]

end SelectLang
