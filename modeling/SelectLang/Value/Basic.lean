/-
# Values and records

A value is what a source delivers and what a column holds. A record is fields in the order in which
they were first inserted; inserting under a name that is there replaces the value and leaves the
field where it stands.

Key definitions: `Value`, `Value.field`, `Record.insert`, `Record.get?`.
-/
import SelectLang.Number.Binary64
import SelectLang.Number.Word

namespace SelectLang

/-- What a field of a record holds: a JSON document whose numbers are integers of 64 bits or floats. -/
inductive Value where
  | null
  | boolean (value : Bool)
  | integer (value : Int64)
  | float (value : Binary64)
  | string (text : String)
  | array (items : List Value)
  | object (fields : List (String × Value))
deriving BEq, Repr, Inhabited

/-- Fields by name, in the order of their first insertion. -/
abbrev Record : Type := List (String × Value)

namespace Record

/-- The record without fields. -/
def empty : Record := []

/-- Sets the field `name`, in its place if it is there and at the end otherwise. -/
def insert : Record → String → Value → Record
  | [], name, value => [(name, value)]
  | (key, old) :: fields, name, value =>
    if key = name then (key, value) :: fields else (key, old) :: insert fields name value

/-- The value under a name, if there is one. -/
def get? : Record → String → Option Value
  | [], _ => none
  | (key, value) :: fields, name => if key = name then some value else get? fields name

/-- The names of the fields, in their order. -/
def keys (record : Record) : List String := record.map Prod.fst

/-- The record that the fields make when they are inserted one after the other. -/
def ofList (fields : List (String × Value)) : Record :=
  fields.foldl (fun record field => record.insert field.1 field.2) empty

end Record

namespace Value

/-- The kind of the value, as messages name it. -/
def kind : Value → String
  | null => "null"
  | boolean _ => "boolean"
  | integer _ => "integer"
  | float _ => "float"
  | string _ => "string"
  | array _ => "array"
  | object _ => "object"

/-- A number as a float, to which an integer is rounded. -/
def float? : Value → Option Binary64
  | integer n => some (.ofInt n.toInt)
  | float x => some x
  | _ => none

/-- The fields of an object. -/
def record? : Value → Option Record
  | object fields => some fields
  | _ => none

/-- The named field of an object; null if there is none or the value is no object. -/
def field (value : Value) (name : String) : Value :=
  match value.record? with
  | some record => (record.get? name).getD null
  | none => null

/-- The field of the field of …, along the names. -/
def follow (value : Value) (names : List String) : Value := names.foldl field value

end Value
end SelectLang
