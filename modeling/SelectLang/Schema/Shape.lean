/-
# Shapes and types

A shape declares the records of a source: the accessors under which their fields are read, and what
the fields hold. A script sees a shape as a type, in which a field goes by its accessor in camel case
and all kinds of numbers are one.

Key definitions: `FieldRepr`, `Shape`, `DataType`, `DataType.ofShape`, `DataType.recordProperties?`.
-/
import SelectLang.Schema.Naming

namespace SelectLang

/-! ### Declarations -/

/-- The kinds of numbers that a declaration tells apart. -/
inductive NumericKind where
  | u8 | u16 | u32 | u64
  | i8 | i16 | i32 | i64
  | f32 | f64
  | decimal
deriving DecidableEq, Repr

/-- What a field holds. -/
inductive FieldRepr where
  | string
  | boolean
  | numeric (kind : NumericKind)
  | list (element : FieldRepr)
  /-- A nested record: the name of its shape, and its fields by accessor. -/
  | shape (name : String) (fields : List (String × FieldRepr))
deriving BEq, Repr

/-- The records of a source as they are declared. -/
structure Shape where
  name : String
  /-- What the fields hold, by accessor. -/
  fields : List (String × FieldRepr)
deriving BEq, Repr

/-! ### Types -/

/-- The types without parts. -/
inductive BasicKind where
  | undefined
  | null
  | boolean
  | number
  | string
deriving DecidableEq, Repr

/-- A property: its name in scripts, the key it is read under in a record, and its type. -/
structure Property (τ : Type) where
  identifier : String
  accessor : String
  type : τ
deriving BEq, Repr

/-- The type of a value as a script sees it. -/
inductive DataType where
  | basic (kind : BasicKind)
  | object (shape : String) (properties : List (Property DataType))
  | array (element : DataType)
deriving BEq, Repr

namespace BasicKind

/-- The name of the type in messages. -/
def render : BasicKind → String
  | undefined => "undefined"
  | null => "null"
  | boolean => "boolean"
  | number => "number"
  | string => "string"

end BasicKind

namespace DataType

mutual

/-- The type of a field, in which the kind of a number is gone. -/
def ofRepr : FieldRepr → DataType
  | .string => basic .string
  | .boolean => basic .boolean
  | .numeric _ => basic .number
  | .list element => array (ofRepr element)
  | .shape name fields => object name (propertiesOf fields)

/-- The properties that the fields make, one for each and in their order. -/
def propertiesOf : List (String × FieldRepr) → List (Property DataType)
  | [] => []
  | (accessor, repr) :: fields => ⟨camelCase accessor, accessor, ofRepr repr⟩ :: propertiesOf fields

end

/-- The type of the records of a shape. -/
def ofShape (shape : Shape) : DataType := object shape.name (propertiesOf shape.fields)

/-- The properties of the records that the type describes: its own, or those of its elements. -/
def recordProperties? : DataType → Option (List (Property DataType))
  | object _ properties => some properties
  | array (object _ properties) => some properties
  | _ => none

/-- The type as it is named in messages, without its properties. -/
def render : DataType → String
  | basic kind => kind.render
  | object shape _ => "object " ++ shape
  | array element => "array of " ++ element.render

end DataType
end SelectLang
