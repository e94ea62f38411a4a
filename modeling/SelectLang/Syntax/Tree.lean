/-
# Trees as JSON

The document that shows a tree: an object for each node, named after its kind where a node may be of
several kinds.

Key definitions: `Expr.toJson`, `Query.toJson`, `Script.toJson`.
-/
import SelectLang.Syntax.Query
import SelectLang.Json.Basic

namespace SelectLang

/-- A node of the given kind. -/
def node (kind : String) (content : Json) : Json := .object [(kind, content)]

/-- A quantity of 64 bits as a number. -/
def Json.quantity (n : UInt64) : Json := .integer n.toNat

/-- What there is, encoded, and null if there is nothing. -/
def Json.ofOption {α : Type} (encode : α → Json) : Option α → Json
  | some a => encode a
  | none => .null

/-- A path is shown by its segments. -/
def NamePath.toJson (path : NamePath) : Json :=
  .object [("segments", .array (path.segments.map Json.string))]

/-- A literal is named after its kind; a float that is not finite is written as null in the end. -/
def Literal.toJson : Literal → Json
  | .string text => node "String" (.string text)
  | .boolean value => node "Boolean" (.bool value)
  | .integer n => node "Integer" (.integer n.toInt)
  | .float x => node "Float" (.float x)

/-- Operators are shown by their names and not by their symbols. -/
def Operator.toJson : Operator → Json
  | .add => .string "Add"
  | .subtract => .string "Subtract"
  | .multiply => .string "Multiply"
  | .divide => .string "Divide"
  | .remainder => .string "Modulo"

mutual

/-- The tree of an expression. -/
def Expr.toJson : Expr → Json
  | .literal value => node "Literal" value.toJson
  | .path name => node "NamePath" name.toJson
  | .wildcard level => node "Wildcard" (.object [("level", .integer level)])
  | .binary op left right =>
    node "BinaryOp" (.object [("op", op.toJson), ("left", left.toJson), ("right", right.toJson)])
  | .call target parameters =>
    node "Invocation"
      (.object [("target", target.toJson), ("parameters", .array (parametersToJson parameters))])
  | .pipe value target =>
    node "Pipeline" (.object [("value", value.toJson), ("target", target.toJson)])

/-- The tree of a parameter. -/
def Parameter.toJson : Parameter → Json
  | .positional value => node "Positional" value.toJson
  | .named name value =>
    node "Named" (.object [("name", .string name), ("value", value.toJson)])

/-- The trees of the parameters, in their order. -/
def parametersToJson : List Parameter → List Json
  | [] => []
  | p :: ps => p.toJson :: parametersToJson ps

end

/-- A modifier without a quantity is a bare name. -/
def Top.toJson : Top → Json
  | .all => .string "All"
  | .first => .string "First"
  | .last => .string "Last"
  | .one => .string "One"
  | .position n => node "AtPosition" (.quantity n)
  | .quantity n => node "Quantity" (.quantity n)
  | .percentage n => node "Percentage" (.quantity n)

/-- The direction by its name. -/
def Direction.toJson : Direction → Json
  | .ascending => .string "Ascending"
  | .descending => .string "Descending"

/-- The tree of a key of an `order by` clause. -/
def SortTerm.toJson (term : SortTerm) : Json :=
  .object [("expression", term.expression.toJson), ("direction", term.direction.toJson)]

/-- The tree of an item, named after the form that it is written in. -/
def Atom.toJson : Atom → Json
  | .expression e output =>
    node "Expression"
      (.object [("expression", e.toJson), ("output", .ofOption NamePath.toJson output)])
  | .assignment output e =>
    node "Assignment" (.object [("output", output.toJson), ("expression", e.toJson)])

/-- The tree of a page. -/
def Pagination.toJson (p : Pagination) : Json :=
  .object [("page", .quantity p.page), ("size", .quantity p.size)]

/-- The tree of a query. Every clause has a field, also where it is not given. -/
def Query.toJson (query : Query) : Json :=
  let counted (n : UInt64) : Json := .object [("quantity", .quantity n)]
  .object [
    ("source", .object [("path", query.source.toJson)]),
    ("selection", node "Tuple" (.object [("atoms", .array (query.atoms.map Atom.toJson))])),
    ("top", query.top.toJson),
    ("orderings", .array (query.orderings.map SortTerm.toJson)),
    ("offset", .ofOption counted query.offset),
    ("limit", .ofOption counted query.limit),
    ("pagination", .ofOption Pagination.toJson query.pagination)]

/-- The tree of a script; every statement is a `Select`. -/
def Script.toJson (script : Script) : Json :=
  .object [("statements", .array (script.statements.map fun q => node "Select" q.toJson))]

end SelectLang
