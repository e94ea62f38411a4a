/-
# Queries and scripts, read

A query is `select`, perhaps a top modifier, the selection, `from` with the source, clauses, and
perhaps a semicolon. Behind the word `select` there is no other way of reading. A clause of a kind
that was given before is refused where it begins, as if the text ended there.

Key definitions: `Grammar.statement`, `Query.parse`, `Script.parse`.
-/
import SelectLang.Grammar.Clause

namespace SelectLang
namespace Grammar
open SelectLang.Parser

/-- The assignment is tried first, for its output name alone is an expression too. -/
def atom : Parser Atom :=
  firstOf [
    do
      let (output, e) ← separatedPair (lexeme namePath) (symbol '=') expression
      pure (.assignment output e),
    do
      let e ← expression
      let output ← optional
        ((lexeme (keyword "as")).after (commit (expecting "alias" (lexeme namePath))))
      pure (.expression e output)]

/-- Where the first clause begins whose kind was given before. -/
def repeated? (given : List Clause.Kind) : List (List Char × Clause) → Option (List Char)
  | [] => none
  | (start, c) :: clauses =>
    if given.contains c.kind then some start else repeated? (c.kind :: given) clauses

/-- A query behind the word `select`. -/
def body : Parser Query := do
  let lead ← optional (lexeme topModifier)
  let atoms ← expecting "selection" (separated1 (symbol ',') atom)
  let _ ← expecting "`from`" (lexeme (keyword "from"))
  let source ← expecting "source name" (lexeme namePath)
  let clauses ← many (lexeme (both here clause))
  let _ ← termination
  match repeated? (if lead.isSome then [.top] else []) clauses with
  | some start => fun _ => .stop ⟨start, some "clause that was not given before", []⟩
  | none =>
    let bare : Query := ⟨source, atoms, lead.getD .all, [], none, none, none⟩
    pure ((clauses.map Prod.snd).foldl Query.withClause bare)

/-- The word `select` and the query behind it. -/
def statement : Parser Query := (lexeme (keyword "select")).after (commit body)

/-- Queries up to the end of the text. -/
def script : Parser Script := do
  let statements ← many statement
  let _ ← blanks
  let _ ← commit (expecting "select statement" atEnd)
  pure ⟨statements⟩

end Grammar

/-- Reads a text that is one query. -/
def Query.parse (text : String) : Except Diagnostic Query :=
  (Grammar.statement.followedBy Parser.blanks).run text

/-- Reads a text of any number of queries. -/
def Script.parse (text : String) : Except Diagnostic Script :=
  Grammar.script.run text

end SelectLang
