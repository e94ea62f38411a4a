/-
# Clauses

What may follow the source of a query, in any order and each at most once: the ordering, the offset,
the limit, the page and the top modifier. The top modifier may stand before the selection instead.

Key definitions: `Clause`, `Grammar.clause`, `Grammar.topModifier`.
-/
import SelectLang.Grammar.Expression
import SelectLang.Syntax.Query

namespace SelectLang

/-- One clause, with what it says. -/
inductive Clause where
  | order (terms : List SortTerm)
  | offset (quantity : UInt64)
  | limit (quantity : UInt64)
  | page (pagination : Pagination)
  | top (top : Top)
deriving BEq, Repr

namespace Clause

/-- What a clause is about. A query has at most one clause of a kind. -/
inductive Kind where
  | order
  | offset
  | limit
  | page
  | top
deriving DecidableEq, Repr

/-- The top modifier is of one kind, whichever of its forms is written. -/
def kind : Clause → Kind
  | order _ => .order
  | offset _ => .offset
  | limit _ => .limit
  | page _ => .page
  | top _ => .top

end Clause

/-- Puts a clause into a query. -/
def Query.withClause (query : Query) : Clause → Query
  | .order terms => { query with orderings := terms }
  | .offset n => { query with offset := some n }
  | .limit n => { query with limit := some n }
  | .page p => { query with pagination := some p }
  | .top t => { query with top := t }

namespace Grammar
open SelectLang.Parser

/-- `asc` or `desc`, or either word in full. -/
def direction : Parser Direction :=
  firstOf [
    do let _ ← firstOf [keyword "asc", keyword "ascending"]; pure .ascending,
    do let _ ← firstOf [keyword "desc", keyword "descending"]; pure .descending]

/-- An expression sorts ascending unless a direction follows it. -/
def sortTerm : Parser SortTerm := do
  let e ← expression
  let d ← optional (lexeme direction)
  pure ⟨e, d.getD .ascending⟩

/-- `order by` and its keys, with commas between them. Behind the two words there have to be keys. -/
def orderBy : Parser (List SortTerm) :=
  (keywords ["order", "by"]).after
    (commit (expecting "ordering" (separated1 (symbol ',') sortTerm)))

/-- `offset <quantity>` -/
def offset : Parser UInt64 :=
  (keyword "offset").after (commit (expecting "offset quantity" (lexeme quantity)))

/-- `limit <quantity>` -/
def limit : Parser UInt64 :=
  (keyword "limit").after (commit (expecting "limit quantity" (lexeme quantity)))

/-- `paginated on <page> by <size>` -/
def paginated : Parser Pagination :=
  (keyword "paginated").after (commit (expecting "`on <page> by <size>`" do
    let _ ← lexeme (keyword "on")
    let page ← lexeme quantity
    let _ ← lexeme (keyword "by")
    let size ← lexeme quantity
    pure ⟨page, size⟩))

/-- `first`, `last`, `one`, `top <count>`, `top <percent>%` or `at <index>`. A count is no
percentage cut short: it must not be followed by `%`. -/
def topModifier : Parser Top :=
  firstOf [
    do let _ ← keyword "first"; pure .first,
    do let _ ← keyword "last"; pure .last,
    do let _ ← keyword "one"; pure .one,
    do
      let _ ← keyword "top"
      let _ ← blanks1
      let n ← quantity
      let _ ← absent (char '%')
      pure (.quantity n),
    do
      let _ ← keyword "top"
      let _ ← blanks1
      let n ← quantity
      let _ ← char '%'
      pure (.percentage n),
    do
      let _ ← keyword "at"
      let _ ← blanks1
      let n ← quantity
      pure (.position n)]

/-- No two clauses begin with the same word, so that at most one of them can be read. -/
def clause : Parser Clause :=
  firstOf [
    do let terms ← orderBy; pure (.order terms),
    do let n ← offset; pure (.offset n),
    do let n ← limit; pure (.limit n),
    do let p ← paginated; pure (.page p),
    do let t ← topModifier; pure (.top t)]

end Grammar
end SelectLang
