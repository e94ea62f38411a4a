/-
# The cache of plans

Plans are kept by the source and the canonical text of the query, the output names put last. A plan
is made when it is first asked for: its slot is opened, the query is compiled, and the slot is
filled, or closed again if there is no plan. How often a query was compiled is counted, with or
without success.

Key definitions: `PlanKey`, `Cache.fetch`.
-/
import SelectLang.Plan.Compile

namespace SelectLang

/-- What a plan is kept by. -/
structure PlanKey where
  source : SourceId
  text : String
deriving DecidableEq, Repr

/-- The key of a query over a source. Two queries that are written alike have one key. -/
def PlanKey.of (source : Source) (query : Query) : PlanKey :=
  ⟨source.id, query.normalized.render⟩

/-- The plans that were made, and how often one was asked of the compiler. -/
structure Cache where
  /-- A slot is empty while its plan is being made. -/
  slots : List (PlanKey × Option Plan)
  compilations : Nat
deriving BEq, Repr

namespace Cache

/-- No plan is held and none was made. -/
def empty : Cache := ⟨[], 0⟩

/-- The number of plans that are held. -/
def size (cache : Cache) : Nat := cache.slots.countP fun slot => slot.2.isSome

/-- The number of slots, filled or not. -/
def slotCount (cache : Cache) : Nat := cache.slots.length

/-- No plan is held. -/
def isEmpty (cache : Cache) : Bool := cache.size == 0

/-- The plan that is held for a key. -/
def get? (cache : Cache) (key : PlanKey) : Option Plan := (cache.slots.lookup key).join

/-- Sees to it that there is a slot for the key. -/
def openSlot (cache : Cache) (key : PlanKey) : Cache :=
  if (cache.slots.lookup key).isSome then cache
  else { cache with slots := cache.slots ++ [(key, none)] }

/-- Puts a plan into the slot of the key. -/
def fillSlot (cache : Cache) (key : PlanKey) (plan : Plan) : Cache :=
  { cache with
    slots := cache.slots.map fun slot => if slot.1 = key then (key, some plan) else slot }

/-- Removes the slot of the key if it is empty. -/
def closeSlot (cache : Cache) (key : PlanKey) : Cache :=
  { cache with slots := cache.slots.filter fun slot => slot.1 != key || slot.2.isSome }

/-- Counts one compilation more. -/
def countCompilation (cache : Cache) : Cache :=
  { cache with compilations := cache.compilations + 1 }

/-- The plan of a query over a source, made now if it is not held. -/
def fetch (cache : Cache) (source : Source) (query : Query) : Except Error Plan × Cache :=
  let key := PlanKey.of source query
  match cache.get? key with
  | some plan => (.ok plan, cache)
  | none =>
    let cache := (cache.openSlot key).countCompilation
    match query.compile source with
    | .ok plan => (.ok plan, cache.fillSlot key plan)
    | .error e => (.error e, cache.closeSlot key)

end Cache
end SelectLang
