/-
# Columns

The columns of a plan, worked out from the selection of a query and the properties of its source. A
name path is resolved through nested objects, at each step to the first property of that name. A
wildcard stands for all properties in their order. A column is named by its output name, or by the
property it reads, or else `column1`, `column2` and so on, where numbers are skipped whose name is
given anywhere in the selection. Names must differ.

Key definitions: `ColumnExpr`, `Column`, `resolve`, `columnsOf`, `project`.
-/
import SelectLang.Schema.Shape
import SelectLang.Syntax.Query
import SelectLang.Syntax.Render
import SelectLang.Value.Arithmetic

namespace SelectLang

/-! ### Errors -/

/-- What the grammar knows and plans do not. -/
inductive Unsupported where
  | wildcardLevel (level : Nat)
  | innerWildcard
  | call (expression : Expr)
  | pipe (expression : Expr)
  | top (top : Top)
deriving BEq, Repr

/-- What is said of the construct. -/
def Unsupported.message : Unsupported → String
  | wildcardLevel level => "wildcard of level " ++ Nat.repr level
  | innerWildcard => "wildcard inside an expression"
  | call e => "invocation `" ++ e.render ++ "`"
  | pipe e => "pipeline `" ++ e.render ++ "`"
  | top t => "`" ++ t.render ++ "`"

/-- Why a query has no plan, or its rows no reduction. -/
inductive CompileError where
  | unknownReference (path : NamePath)
  | duplicateOutputName (name : String)
  | unsupportedOrdering (expression : Expr)
  | invalidPagination (page size : UInt64)
  | notSupported (construct : Unsupported)
  /-- `one` over more than one record. -/
  | multipleResults (count : Nat)
  | aliasedWildcard (output : NamePath)
deriving BEq, Repr

namespace CompileError

/-- What is said of the failure. -/
def message : CompileError → String
  | unknownReference path => "unknown reference `" ++ path.dotted ++ "`"
  | duplicateOutputName name => "duplicate output name `" ++ name ++ "`"
  | unsupportedOrdering e =>
    "cannot order by `" ++ e.render ++ "`; orderings must name a column or property"
  | invalidPagination page size =>
    "invalid pagination: page " ++ Nat.repr page.toNat ++ " of size " ++ Nat.repr size.toNat ++
      "; both must be at least 1"
  | notSupported construct => "not supported: " ++ construct.message
  | multipleResults count => "expected at most one record, found " ++ Nat.repr count
  | aliasedWildcard output => "wildcard cannot be aliased as `" ++ output.dotted ++ "`"

end CompileError

/-! ### Columns -/

/-- How the value of a column is computed from a record. -/
inductive ColumnExpr where
  /-- The field of the field of …, along the accessors. -/
  | read (accessors : List String)
  | literal (value : Value)
  | binary (op : Operator) (left right : ColumnExpr)
deriving BEq, Repr

/-- What is known of the values of a column. -/
inductive ColumnType where
  | typed (type : DataType)
  | dynamic
deriving BEq, Repr

/-- A column of the rows: its name, what is known of its values, and how they are computed. -/
structure Column where
  name : String
  type : ColumnType
  expr : ColumnExpr
deriving BEq, Repr

/-- The properties of a record type, in the order of its fields. -/
abbrev Properties : Type := List (Property DataType)

/-- The value that a literal denotes. -/
def Literal.value : Literal → Value
  | string text => .string text
  | boolean value => .boolean value
  | integer n => .integer n
  | float x => .float x

/-! ### Name paths -/

/-- The first property of that name. -/
def Properties.find? (properties : Properties) (identifier : String) :
    Option (Property DataType) :=
  List.find? (·.identifier == identifier) properties

/-- The accessors along a path, and the property at its end. -/
def resolveSegments? (properties : Properties) :
    List String → Option (List String × Property DataType)
  | [] => none
  | [segment] => (properties.find? segment).map fun p => ([p.accessor], p)
  | segment :: next :: segments =>
    match properties.find? segment with
    | some ⟨_, accessor, .object _ inner⟩ =>
      (resolveSegments? inner (next :: segments)).map fun (accessors, p) =>
        (accessor :: accessors, p)
    | _ => none

/-- The accessors along a name path and the property at its end, or the reference that is unknown. -/
def resolve (properties : Properties) (path : NamePath) :
    Except CompileError (List String × Property DataType) :=
  match resolveSegments? properties path.segments with
  | some found => .ok found
  | none => .error (.unknownReference path)

/-! ### Expressions -/

/-- An expression as the computation of a column. -/
def lower (properties : Properties) : Expr → Except CompileError ColumnExpr
  | .literal value => .ok (.literal value.value)
  | .path name =>
    match resolve properties name with
    | .ok (accessors, _) => .ok (.read accessors)
    | .error e => .error e
  | .binary op left right =>
    match lower properties left with
    | .error e => .error e
    | .ok l =>
      match lower properties right with
      | .error e => .error e
      | .ok r => .ok (.binary op l r)
  | .wildcard _ => .error (.notSupported .innerWildcard)
  | .call target parameters => .error (.notSupported (.call (.call target parameters)))
  | .pipe value target => .error (.notSupported (.pipe (.pipe value target)))

/-- A column whose name may still have to be found. -/
structure Draft where
  name : Option String
  type : ColumnType
  expr : ColumnExpr
deriving BEq, Repr

/-- The columns of one atom. -/
def Atom.drafts (properties : Properties) (atom : Atom) : Except CompileError (List Draft) :=
  match atom.expr with
  | .wildcard level =>
    match atom.output with
    | some output => .error (.aliasedWildcard output)
    | none =>
      if level = 1 then
        .ok (properties.map fun p => ⟨some p.identifier, .typed p.type, .read [p.accessor]⟩)
      else .error (.notSupported (.wildcardLevel level))
  | .path name =>
    match resolve properties name with
    | .error e => .error e
    | .ok (accessors, p) =>
      let output := (atom.output.map NamePath.dotted).getD p.identifier
      .ok [⟨some output, .typed p.type, .read accessors⟩]
  | e =>
    match lower properties e with
    | .error e => .error e
    | .ok expr => .ok [⟨atom.output.map NamePath.dotted, .dynamic, expr⟩]

/-- The columns of the atoms, in order. -/
def draftsOf (properties : Properties) : List Atom → Except CompileError (List Draft)
  | [] => .ok []
  | atom :: atoms =>
    match atom.drafts properties with
    | .error e => .error e
    | .ok drafts =>
      match draftsOf properties atoms with
      | .error e => .error e
      | .ok more => .ok (drafts ++ more)

/-! ### Names -/

/-- The name of the `n`th column without a name of its own. -/
def numberedName (n : Nat) : String := "column" ++ Nat.repr n

/-- The first number above `n` whose name is not given. Of as many numbers as there are given
names and one more, one is free. -/
def nextNumber (given : List String) (n : Nat) : Nat :=
  (((List.range (given.length + 1)).map (n + 1 + ·)).find?
    fun k => !given.contains (numberedName k)).getD (n + 1)

/-- The columns with all their names, when the numbers up to `used` are gone and `seen` are the
names so far. -/
def nameColumns (given : List String) :
    Nat → List String → List Draft → Except CompileError (List Column)
  | _, _, [] => .ok []
  | used, seen, ⟨name, type, expr⟩ :: drafts =>
    let (used, name) := match name with
      | some name => (used, name)
      | none =>
        let n := nextNumber given used
        (n, numberedName n)
    if seen.contains name then .error (.duplicateOutputName name)
    else
      match nameColumns given used (name :: seen) drafts with
      | .error e => .error e
      | .ok columns => .ok (⟨name, type, expr⟩ :: columns)

/-- The columns of a selection. -/
def columnsOf (properties : Properties) (atoms : List Atom) : Except CompileError (List Column) :=
  match draftsOf properties atoms with
  | .error e => .error e
  | .ok drafts => nameColumns (drafts.filterMap Draft.name) 0 [] drafts

/-! ### Evaluation -/

namespace ColumnExpr

/-- The value of a column for a record, the left operand before the right one. -/
def eval (record : Value) : ColumnExpr → Except EvalError Value
  | read accessors => .ok (record.follow accessors)
  | literal value => .ok value
  | binary op left right =>
    match left.eval record with
    | .error e => .error e
    | .ok l =>
      match right.eval record with
      | .error e => .error e
      | .ok r => op.apply l r

end ColumnExpr

/-- The row of a record: its value under each column, put into `row` one after the other. -/
def projectInto (record : Value) : Record → List Column → Except EvalError Record
  | row, [] => .ok row
  | row, column :: columns =>
    match column.expr.eval record with
    | .error e => .error e
    | .ok value => projectInto record (row.insert column.name value) columns

/-- The row of a record. -/
def project (columns : List Column) (record : Value) : Except EvalError Record :=
  projectInto record .empty columns

end SelectLang
