/-
# Queries

A query selects columns of the records of one source. Beside the columns it may say how many records
count (`top`), in which order they come, and which stretch of them is wanted. A script is any number
of queries.

A column is given an output name by `expression as name` or by `name = expression`; the two mean the
same, and `Query.normalized` turns the second into the first.

Key definitions: `Top`, `SortTerm`, `Pagination`, `Atom`, `Query`, `Script`.
-/
import SelectLang.Syntax.Expr

namespace SelectLang

/-- How many of the records count. -/
inductive Top where
  | all
  | first
  | last
  /-- The only record; more than one is an error. -/
  | one
  | position (index : UInt64)
  | quantity (count : UInt64)
  | percentage (percent : UInt64)
deriving DecidableEq, Repr

/-- Whether the least or the greatest comes first. -/
inductive Direction where
  | ascending
  | descending
deriving DecidableEq, Repr

/-- One key of an `order by` clause. -/
structure SortTerm where
  expression : Expr
  direction : Direction
deriving BEq, Repr

/-- Pages are counted from 1. -/
structure Pagination where
  page : UInt64
  size : UInt64
deriving DecidableEq, Repr

/-- One item of a selection. -/
inductive Atom where
  /-- `expression`, or `expression as output` -/
  | expression (expression : Expr) (output : Option NamePath)
  /-- `output = expression` -/
  | assignment (output : NamePath) (expression : Expr)
deriving BEq, Repr

namespace Atom

/-- The expression of the item, in either form. -/
def expr : Atom → Expr
  | expression e _ => e
  | assignment _ e => e

/-- The output name of the item, if it is given one. -/
def output : Atom → Option NamePath
  | expression _ name => name
  | assignment name _ => some name

/-- The form with the output name last. -/
def normalized (atom : Atom) : Atom := expression atom.expr atom.output

end Atom

/-- A query as a tree. A clause that is not given is `none`, and the list of orderings empty. -/
structure Query where
  source : NamePath
  atoms : List Atom
  top : Top
  orderings : List SortTerm
  offset : Option UInt64
  limit : Option UInt64
  pagination : Option Pagination
deriving BEq, Repr

namespace Query

/-- The name under which the result is reported. -/
def name (query : Query) : String := query.source.dotted

/-- The query with every item in the form `expression as name`. -/
def normalized (query : Query) : Query :=
  { query with atoms := query.atoms.map Atom.normalized }

end Query

/-- Queries in the order in which they are run. -/
structure Script where
  statements : List Query
deriving BEq, Repr

end SelectLang
