/-
# Schemas

A schema has one source for each of its shapes. A source answers to the camel case of the shape's
name and of the name with an `s` behind it, as far as no earlier source of the schema took them; a
shape to which neither is left has no source. It is bound to the first member, over all containers,
that serves the first of the two names, or else the second: only members that declare an enumerable
count. A source without a binding is known but cannot be read.

Names are looked up in the schemas in order.

Key definitions: `Source`, `Schema.build`, `Schema.find?`, `findSource`.
-/
import SelectLang.Schema.Resolver
import SelectLang.Schema.Shape

namespace SelectLang

/-- Why a source cannot be queried. -/
inductive SchemaError where
  | unknownSource (name : String)
  | unsupportedShape (name found : String)
  | missingResolver (name : String)
deriving DecidableEq, Repr

namespace SchemaError

/-- What is said of the failure. -/
def message : SchemaError → String
  | unknownSource name => "unknown source `" ++ name ++ "`"
  | unsupportedShape name found =>
    "source `" ++ name ++ "` has type " ++ found ++ "; only records can be queried"
  | missingResolver name => "source `" ++ name ++ "` has no resolver"

end SchemaError

/-- The number of a schema and the place of a source in it. -/
structure SourceId where
  schema : Nat
  index : Nat
deriving DecidableEq, Repr

/-- The member that serves a source, and its container. -/
structure Binding where
  container : String
  member : Member

/-- What a query can select from. -/
structure Source where
  id : SourceId
  identifiers : List String
  type : DataType
  binding : Option Binding

namespace Source

/-- The first identifier. -/
def name (source : Source) : String := source.identifiers.headD ""

/-- The name is one of the identifiers, letter for letter. -/
def answersTo (source : Source) (name : String) : Bool := source.identifiers.contains name

end Source

/-- The sources of a schema, in the order of their shapes. -/
structure Schema where
  sources : List Source

namespace Schema

/-- The two names that a shape may go by. -/
def synonyms (shape : Shape) : List String :=
  [camelCase shape.name, camelCase (shape.name ++ "s")]

/-! ### Bindings -/

/-- What a member serves, if it may serve a source. -/
def candidate? (container : Container) (member : Member) : Option (String × Binding) :=
  if member.returns.isEnumerable then
    (candidateName? member.name).map fun name => (name, ⟨container.name, member⟩)
  else none

/-- The members that may serve a source with the names they serve, in order of registration. -/
def candidates (containers : List Container) : List (String × Binding) :=
  containers.flatMap fun container => container.members.filterMap (candidate? container)

/-- The first candidate for the first name that has one. -/
def bind? (candidates : List (String × Binding)) (names : List String) : Option Binding :=
  names.findSome? fun name => candidates.lookup name

/-! ### Sources -/

/-- The names that are not taken, each once. -/
def free (taken : List String) : List String → List String
  | [] => []
  | name :: names =>
    if taken.contains name then free taken names else name :: free (name :: taken) names

/-- The sources of the shapes, when the names `taken` are gone and `index` is the next place. -/
def declare (schema : Nat) (candidates : List (String × Binding)) :
    List String → Nat → List Shape → List Source
  | _, _, [] => []
  | taken, index, shape :: shapes =>
    let names := synonyms shape
    match free taken names with
    | [] => declare schema candidates taken index shapes
    | identifiers =>
      ⟨⟨schema, index⟩, identifiers, .ofShape shape, bind? candidates names⟩ ::
        declare schema candidates (identifiers ++ taken) (index + 1) shapes

/-- The schema with the given number. -/
def build (number : Nat) (shapes : List Shape) (containers : List Container) : Schema :=
  ⟨declare number (candidates containers) [] 0 shapes⟩

/-- The source of that name. There is at most one. -/
def find? (schema : Schema) (name : String) : Option Source :=
  schema.sources.find? (·.answersTo name)

end Schema

/-- The source of that name in the first schema that has one. -/
def findSource (schemas : List Schema) (name : String) : Except SchemaError Source :=
  match schemas.findSome? (·.find? name) with
  | some source => .ok source
  | none => .error (.unknownSource name)

end SelectLang
