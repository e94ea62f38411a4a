/-
# From a query to a plan

A source whose records are objects, a selection that has columns, orderings that name a column or
else a property, a top modifier other than `at` and a percentage, and a page and a size of at least
one make a plan. What is wrong first in this order is reported.

Key definitions: `Query.compile`.
-/
import SelectLang.Plan.Basic

namespace SelectLang

/-- A column is found before a property. -/
def SortTerm.key (columns : List Column) (properties : Properties) (term : SortTerm) :
    Except CompileError SortKey :=
  match term.expression with
  | .path path =>
    if columns.any (·.name == path.dotted) then .ok ⟨.column path.dotted, term.direction⟩
    else
      match resolve properties path with
      | .error e => .error e
      | .ok (accessors, _) => .ok ⟨.source accessors, term.direction⟩
  | e => .error (.unsupportedOrdering e)

/-- The keys of the orderings, in their order. -/
def sortKeysOf (columns : List Column) (properties : Properties) :
    List SortTerm → Except CompileError (List SortKey)
  | [] => .ok []
  | term :: terms =>
    match term.key columns properties with
    | .error e => .error e
    | .ok key =>
      match sortKeysOf columns properties terms with
      | .error e => .error e
      | .ok keys => .ok (key :: keys)

/-- What the modifier keeps, if plans know it. -/
def Top.reduction : Top → Except CompileError Reduction
  | all => .ok .all
  | first => .ok .first
  | last => .ok .last
  | one => .ok .one
  | quantity n => .ok (.take n.toNat)
  | position n => .error (.notSupported (.top (.position n)))
  | percentage n => .error (.notSupported (.top (.percentage n)))

/-- Refuses the page zero and pages of no size. -/
def checkPagination : Option Pagination → Except CompileError Unit
  | some ⟨page, size⟩ =>
    if page < 1 || size < 1 then .error (.invalidPagination page size) else .ok ()
  | none => .ok ()

/-- The plan of a query over records with the given properties. -/
def Query.planOver (query : Query) (properties : Properties) : Except CompileError Plan := do
  let columns ← columnsOf properties query.atoms
  let sortKeys ← sortKeysOf columns properties query.orderings
  let reduction ← query.top.reduction
  checkPagination query.pagination
  return {
    columns, sortKeys, reduction
    offset := query.offset.map UInt64.toNat
    limit := query.limit.map UInt64.toNat
    pagination := query.pagination }

/-- The plan of a query over a source, whose type has to have properties. -/
def Query.compile (query : Query) (source : Source) : Except Error Plan :=
  match source.type.recordProperties? with
  | none => .error (.schema (.unsupportedShape source.name source.type.render))
  | some properties =>
    match query.planOver properties with
    | .error e => .error (.compile e)
    | .ok plan => .ok plan

end SelectLang
