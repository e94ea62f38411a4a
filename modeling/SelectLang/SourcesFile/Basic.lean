/-
# Sources files

A sources file declares sources by the fields of their records, and gives their records. Made into a
context it is one schema with a shape for each entry, in the order of the file; an entry with records
also adds the member that delivers them, named for the entry in the plural. A source without such a
member is known but cannot be read.

A type is the name of a scalar in any case, the list of one type, or a nested shape. Which names there
are, and that a list holds one type, is checked when the context is made; the first mistake of the
file counts.

Key definitions: `FieldType`, `SourceEntry`, `SourcesFile`, `SourcesFile.context`.
-/
import SelectLang.Session.Basic
import SelectLang.Unicode.Case

namespace SelectLang

/-- What a sources file says of a field. -/
inductive FieldType where
  | scalar (name : String)
  | list (elements : List FieldType)
  | shape (name : String) (fields : List (String × FieldType))
deriving BEq, Repr

/-- One source of a file. Without records it cannot be read. -/
structure SourceEntry where
  name : String
  /-- The types of the fields by accessor. -/
  fields : List (String × FieldType)
  records : Option (List Json)
deriving BEq, Repr

/-- What a sources file declares. -/
structure SourcesFile where
  sources : List SourceEntry
deriving BEq, Repr

/-! ### Shapes -/

/-- Why a file makes no context. -/
inductive ConfigError where
  | elementCount (count : Nat)
  | unknownType (name : String)
deriving DecidableEq, Repr

namespace ConfigError

/-- What is said of the failure. -/
def message : ConfigError → String
  | elementCount count =>
    "an enumerable type lists exactly one element type, found " ++ Nat.repr count
  | unknownType name => "unknown field type `" ++ name ++ "`"

end ConfigError

namespace FieldType

/-- What a field of a scalar type holds. Several names stand for one type. -/
def scalarRepr? (name : String) : Option FieldRepr :=
  match Unicode.lowered name with
  | "string" => some .string
  | "boolean" | "bool" => some .boolean
  | "number" | "float" | "double" => some (.numeric .f64)
  | "integer" | "int" | "long" => some (.numeric .i64)
  | "decimal" => some (.numeric .decimal)
  | _ => none

mutual

/-- What a field of the type holds. -/
def repr : FieldType → Except ConfigError FieldRepr
  | scalar name =>
    match scalarRepr? name with
    | some r => .ok r
    | none => .error (.unknownType name)
  | list [element] => element.repr.map .list
  | list elements => .error (.elementCount elements.length)
  | shape name fields => (fieldReprs fields).map (.shape name)

/-- What the fields hold, by accessor. -/
def fieldReprs : List (String × FieldType) → Except ConfigError (List (String × FieldRepr))
  | [] => .ok []
  | (accessor, type) :: fields =>
    match type.repr with
    | .error e => .error e
    | .ok r => (fieldReprs fields).map ((accessor, r) :: ·)

end

end FieldType

namespace SourceEntry

/-- The shape that an entry declares. -/
def shape (entry : SourceEntry) : Except ConfigError Shape :=
  (FieldType.fieldReprs entry.fields).map (⟨entry.name, ·⟩)

/-- The records as an array. -/
def value? (entry : SourceEntry) : Option Value :=
  entry.records.map fun records => .ofJson (.array records)

/-- The member that delivers the records, if there are any. -/
def member? (entry : SourceEntry) : Option Member :=
  entry.value?.map fun records =>
    .raw ("get" ++ entry.name ++ "s") .enumerable fun _ => ⟨[], .ok records⟩

end SourceEntry

/-! ### Contexts -/

namespace SourcesFile

/-- The members that deliver the records of the file, in one container. -/
def container (file : SourcesFile) : Container :=
  ⟨"SourcesFile", file.sources.filterMap SourceEntry.member?⟩

/-- The context of the file. Its resolvers share nothing. -/
def context (file : SourcesFile) : Except ConfigError Context :=
  match file.sources.mapM SourceEntry.shape with
  | .error e => .error e
  | .ok shapes => .ok ⟨[.build 0 shapes [file.container]], .resolvers .empty⟩

end SourcesFile
end SelectLang
