/-
# Values as JSON

A value is written as a document, its records field by field in their order. Read from a document,
an integer that does not fit into 64 bits becomes a float. A value that passes through JSON
(`Value.normalized`) comes back with the fields of its objects in the order of their names and null
in place of the floats that are not finite.

Key definitions: `Value.toJson`, `Value.ofJson`, `Value.normalized`.
-/
import SelectLang.Json.Read
import SelectLang.Value.Basic

namespace SelectLang
namespace Value

mutual

/-- The document that a value is written as. -/
def toJson : Value → Json
  | null => .null
  | boolean value => .bool value
  | integer n => .integer n.toInt
  | float x => .float x
  | string text => .string text
  | array items => .array (itemsToJson items)
  | object fields => .object (fieldsToJson fields)

/-- The documents of the items of an array. -/
def itemsToJson : List Value → List Json
  | [] => []
  | item :: items => item.toJson :: itemsToJson items

/-- The fields of an object with their values as documents. -/
def fieldsToJson : List (String × Value) → List (String × Json)
  | [] => []
  | (key, value) :: fields => (key, value.toJson) :: fieldsToJson fields

end

mutual

/-- The value that a document is read as. Of the fields of one name in an object the last one
counts. -/
def ofJson : Json → Value
  | .null => null
  | .bool value => boolean value
  | .integer n =>
    match int64? n with
    | some k => integer k
    | none => float (.ofInt n)
  | .float x => float x
  | .string text => string text
  | .array items => array (itemsOfJson items)
  | .object fields => object (Record.ofList (fieldsOfJson fields))

/-- The values of the items of an array. -/
def itemsOfJson : List Json → List Value
  | [] => []
  | item :: items => ofJson item :: itemsOfJson items

/-- The fields of an object as values, with the names that are repeated. -/
def fieldsOfJson : List (String × Json) → List (String × Value)
  | [] => []
  | (key, value) :: fields => (key, ofJson value) :: fieldsOfJson fields

end

end Value

namespace Json

mutual

/-- The document with the keys of its objects ascending and null for every float that is not
finite. -/
def sorted : Json → Json
  | float x => if x.isFinite then .float x else .null
  | array items => .array (sortedItems items)
  | object fields => .object (sortedFields [] fields)
  | document => document

/-- The items in their places, each of them sorted. -/
def sortedItems : List Json → List Json
  | [] => []
  | item :: items => item.sorted :: sortedItems items

/-- The fields put, each with its value sorted, into those that are there. -/
def sortedFields (read : List (String × Json)) : List (String × Json) → List (String × Json)
  | [] => read
  | (key, value) :: fields => sortedFields (insertSorted key value.sorted read) fields

end

end Json

/-- The value after a passage through JSON. -/
def Value.normalized (value : Value) : Value := .ofJson value.toJson.sorted

end SelectLang
