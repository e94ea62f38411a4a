/-
# Resolvers

A source gets its records from a member of a container. A call of a member happens in a scope, which
has a number and the services of the session, and may leave hooks that are to run when the scope is
released. A member that delivers records of its own types has them pass through JSON; one that
delivers a value as it is declares itself what kind of value that is.

Key definitions: `Scope`, `Resolution`, `Member`, `Container`.
-/
import SelectLang.Value.Document

namespace SelectLang

/-- What resolvers share, one service of each kind. -/
abbrev Services : Type := Record

/-- The surroundings of one call. -/
structure Scope where
  id : Nat
  services : Services
deriving BEq, Repr

/-- Why a call delivers nothing. -/
inductive ResolverError where
  | failed (message : String)
  /-- The records have no form in JSON. -/
  | notSerializable (reason : String)
deriving DecidableEq, Repr

namespace ResolverError

/-- What is said of the failure. -/
def message : ResolverError → String
  | failed text => text
  | notSerializable reason => "records could not be serialized: " ++ reason

end ResolverError

/-- What a call comes to: the hooks it leaves, in order, and its value. -/
structure Resolution where
  hooks : List String
  outcome : Except ResolverError Value

/-- What a member declares that it returns. -/
inductive ReturnKind where
  | enumerable
  | futureOfEnumerable
  | other
deriving DecidableEq, Repr

/-- Only a member of these kinds can serve a source. -/
def ReturnKind.isEnumerable : ReturnKind → Bool
  | enumerable | futureOfEnumerable => true
  | other => false

/-- Whether the value is there when the call returns. -/
inductive Delivery where
  | direct
  | deferred
deriving DecidableEq, Repr

/-- A member of a container: what it declares, and what a call of it does. -/
structure Member where
  name : String
  returns : ReturnKind
  delivery : Delivery
  resolve : Scope → Resolution

/-- Members that are registered together, in order. -/
structure Container where
  name : String
  members : List Member

/-- Records of the member's own types, with the hooks of the call. -/
structure TypedResolution where
  hooks : List String
  outcome : Except ResolverError (List Value)

namespace TypedResolution

/-- The records as one value that has passed through JSON. -/
def toResolution (r : TypedResolution) : Resolution :=
  ⟨r.hooks, r.outcome.map fun records => (Value.array records).normalized⟩

end TypedResolution

namespace Member

/-- A member that returns records. -/
def typed (name : String) (resolve : Scope → TypedResolution) : Member :=
  ⟨name, .enumerable, .direct, fun scope => (resolve scope).toResolution⟩

/-- A member that returns records in the future. -/
def deferred (name : String) (resolve : Scope → TypedResolution) : Member :=
  ⟨name, .futureOfEnumerable, .deferred, fun scope => (resolve scope).toResolution⟩

/-- A member that returns a value as it is, of a kind that it declares. -/
def raw (name : String) (returns : ReturnKind) (resolve : Scope → Resolution) : Member :=
  ⟨name, returns, .direct, resolve⟩

end Member
end SelectLang
