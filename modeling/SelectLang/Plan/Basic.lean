/-
# Plans

A plan is a query made ready for one source. Run on the records of the source it computes a row from
each of them, sorts the rows, keeps as many as the top modifier says, skips the offset, cuts at the
limit and takes the page. The first record that has no row ends the run, whatever would have been
kept.

A sort key reads a column of the row or a field of the record. Rows whose keys are level keep the
order of their records. The order of the values is not transitive where integers are beyond what
floats tell apart, so the sort may find that the order of the keys contradicts itself. It then gives
up, and so does the run, after all rows are computed and before any is kept.

Key definitions: `Plan`, `Plan.run`, `QueryResult`.
-/
import SelectLang.Number.Word
import SelectLang.Plan.Column
import SelectLang.Schema.Catalog
import SelectLang.Sort.Basic
import SelectLang.Text.Diagnostic
import SelectLang.Value.Order

namespace SelectLang

/-! ### Errors -/

/-- Why a compiled query has no result. -/
inductive ExecutionError where
  | resolver (source message : String)
  /-- The value of a resolver is no array. -/
  | notEnumerable (source found : String)
  | evaluation (error : EvalError)
  /-- Two queries of a script read the same source. -/
  | duplicateResult (source : String)
deriving DecidableEq, Repr

/-- What is said of the failure. -/
def ExecutionError.message : ExecutionError → String
  | resolver source text => "resolver for `" ++ source ++ "` failed: " ++ text
  | notEnumerable source found =>
    "resolver for `" ++ source ++ "` returned " ++ found ++ ", expected an array of records"
  | evaluation e => e.message
  | duplicateResult source => "source `" ++ source ++ "` is queried more than once"

/-- Why a script has no results, by the stage that failed. -/
inductive Error where
  | parse (diagnostic : Diagnostic)
  | schema (error : SchemaError)
  | compile (error : CompileError)
  | execution (error : ExecutionError)
  /-- The sort of the rows has given up. No part of the program expects that: it halts, and only releases
  what scopes are open. -/
  | disordered
deriving BEq, Repr

/-- What is said of the failure, with the stage in front. -/
def Error.message : Error → String
  | parse d => "Parse error: " ++ d.message
  | schema e => "Schema error: " ++ e.message
  | compile e => "Compile error: " ++ e.message
  | execution e => "Execution error: " ++ e.message
  | disordered => "user-provided comparison function does not correctly implement a total order"

/-! ### Results -/

/-- The rows of a query, or the one row of a query that asks for a single record. -/
inductive QueryResult where
  | one (row : Option Record)
  | many (rows : List Record)
deriving BEq, Repr

namespace QueryResult

/-- The rows of a result of either form. -/
def rows : QueryResult → List Record
  | one row => row.toList
  | many rows => rows

/-- A result as a document: an array of records, or one record or null. -/
def toJson : QueryResult → Json
  | one (some row) => (Value.object row).toJson
  | one none => .null
  | many rows => .array (rows.map fun row => (Value.object row).toJson)

end QueryResult

/-! ### Plans -/

/-- What a key reads: a column of the row by its name, or the record along accessors. -/
inductive SortTarget where
  | column (name : String)
  | source (accessors : List String)
deriving DecidableEq, Repr

/-- What rows are compared by, and which way round. -/
structure SortKey where
  target : SortTarget
  direction : Direction
deriving DecidableEq, Repr

/-- How many of the sorted rows are kept. -/
inductive Reduction where
  | all
  | take (count : Nat)
  | first
  | last
  | one
deriving DecidableEq, Repr

/-- At most one row is kept, and the result is that row. -/
def Reduction.isSingle : Reduction → Bool
  | first | last | one => true
  | all | take _ => false

/-- The number of rows on the pages before this one. -/
def Pagination.skipped (p : Pagination) : UInt64 := saturatingMul (saturatingSub p.page 1) p.size

/-- A query made ready. The counts are those of the query as naturals. -/
structure Plan where
  columns : List Column
  sortKeys : List SortKey
  reduction : Reduction
  offset : Option Nat
  limit : Option Nat
  pagination : Option Pagination
deriving BEq, Repr

namespace Plan

/-! ### Rows and keys -/

/-- The value that a key reads for a row and its record. -/
def keyValue (record : Value) (row : Record) (key : SortKey) : Value :=
  match key.target with
  | .column name => (row.get? name).getD .null
  | .source accessors => record.follow accessors

/-- The row of a record with the values it is sorted by. -/
def rowOf (plan : Plan) (record : Value) : Except EvalError (Record × List Value) :=
  match project plan.columns record with
  | .error e => .error e
  | .ok row => .ok (row, plan.sortKeys.map (keyValue record row))

/-- The rows of the records with the values they are sorted by, unless one has none. -/
def rowsOf (plan : Plan) : List Value → Except EvalError (List (Record × List Value))
  | [] => .ok []
  | record :: records =>
    match plan.rowOf record with
    | .error e => .error e
    | .ok row =>
      match plan.rowsOf records with
      | .error e => .error e
      | .ok rows => .ok (row :: rows)

/-- Compares by the first key whose values are not level. -/
def keyOrder : List SortKey → List Value → List Value → Ordering
  | key :: keys, a :: as, b :: bs =>
    (match key.direction with
      | .ascending => a.order b
      | .descending => b.order a).then (keyOrder keys as bs)
  | _, _, _ => .eq

/-- The rows in the order of their keys. Where that order is not transitive the sort leaves open which
of the rows comes first, and it may give up if there are more than twenty. -/
def sortRows? (plan : Plan) (rows : List (Record × List Value)) : Option (List Record) :=
  if plan.sortKeys.isEmpty then some (rows.map Prod.fst)
  else
    (stableSort? (fun a b => keyOrder plan.sortKeys a.2 b.2) rows).map fun sorted =>
      sorted.map Prod.fst

/-! ### Keeping rows -/

/-- The rows that the top modifier keeps. That there is only one is checked before anything is cut
off. -/
def reduce (plan : Plan) (rows : List Record) : Except CompileError (List Record) :=
  match plan.reduction with
  | .all => .ok rows
  | .take count => .ok (rows.take count)
  | .first => .ok (rows.take 1)
  | .last => .ok rows.getLast?.toList
  | .one => if 1 < rows.length then .error (.multipleResults rows.length) else .ok rows

/-- Skips the offset, cuts at the limit and takes the page. -/
def window (plan : Plan) (rows : List Record) : List Record :=
  let rows := match plan.offset with
    | some n => rows.drop n
    | none => rows
  let rows := match plan.limit with
    | some n => rows.take n
    | none => rows
  match plan.pagination with
  | some p => (rows.drop p.skipped.toNat).take p.size.toNat
  | none => rows

/-- What the plan makes of the records of the source. -/
def run (plan : Plan) (records : List Value) : Except Error QueryResult :=
  match plan.rowsOf records with
  | .error e => .error (.execution (.evaluation e))
  | .ok rows =>
    match plan.sortRows? rows with
    | none => .error .disordered
    | some rows =>
      match plan.reduce rows with
      | .error e => .error (.compile e)
      | .ok rows =>
        let rows := plan.window rows
        .ok (if plan.reduction.isSingle then .one rows.head? else .many rows)

end Plan
end SelectLang
