/-
# Sessions

A context holds schemas and says how sources get their records: from the resolvers, or the same
fixed records for all of them. What changes while scripts are run on it is its state: the cache, the
number of the next scope, and the trace of what happened to the world outside.

A resolver is called in a scope of its own, in which it may leave hooks. The scope is released, and the
hooks run in order, at once if the call delivers no records, and otherwise when the plan has been run
on them.

The queries of a script run one after the other, and the first that fails ends the run. A source
may be read once in a script.

Key definitions: `Context`, `State`, `State.release`, `Context.materialize`, `Context.withRecords`,
`Context.run`, `Context.execute`.
-/
import SelectLang.Grammar.Script
import SelectLang.Plan.Cache

namespace SelectLang

/-- What a session does to the world outside. -/
inductive Event where
  | called (container member : String) (scope : Nat)
  | released (scope : Nat) (hook : String)
deriving DecidableEq, Repr

/-- Where sources get their records from. -/
inductive Executor where
  | resolvers (services : Services)
  | fixed (records : List Value)

/-- What a session is given and never changes. -/
structure Context where
  schemas : List Schema
  executor : Executor

/-- What scripts leave behind for those that are run after them. -/
structure State where
  cache : Cache
  nextScope : Nat
  trace : List Event

/-- A scope that is not released yet, with the hooks that were left in it. -/
structure OpenScope where
  id : Nat
  hooks : List String

/-- The records of a source with the scope that they belong to, if they belong to one. -/
structure ScopedRecords where
  records : List Value
  scope : Option OpenScope

namespace State

/-- The state before any script, when scopes are numbered from `first`. -/
def initial (first : Nat) : State := ⟨.empty, first, []⟩

/-- The plan of a query over a source, out of the cache. -/
def plan (state : State) (source : Source) (query : Query) : Except Error Plan × State :=
  let (plan, cache) := state.cache.fetch source query
  (plan, { state with cache })

/-- A new scope, under the next number. -/
def createScope (state : State) (services : Services) : Scope × State :=
  (⟨state.nextScope, services⟩, { state with nextScope := state.nextScope + 1 })

/-- Adds an event to the trace. -/
def log (state : State) (event : Event) : State := { state with trace := state.trace ++ [event] }

/-- Runs the hooks of a scope, in the order in which they were left. -/
def release (state : State) (scope : OpenScope) : State :=
  { state with trace := state.trace ++ scope.hooks.map (Event.released scope.id) }

end State

/-- The results by the names of the sources, in the order of the names. -/
abbrev Results : Type := List (String × QueryResult)

namespace Results

/-- The results as an object, by the names of the sources. -/
def toJson (results : Results) : Json := .object (results.map fun (name, r) => (name, r.toJson))

end Results

namespace Context

/-- The source of that name in the schemas of the context. -/
def findSource (context : Context) (name : String) : Except Error Source :=
  match SelectLang.findSource context.schemas name with
  | .ok source => .ok source
  | .error e => .error (.schema e)

/-- Gets the records of a source. The scope of a call that delivers none is released. -/
def materialize (context : Context) (source : Source) (state : State) :
    Except Error ScopedRecords × State :=
  match context.executor with
  | .fixed records => (.ok ⟨records, none⟩, state)
  | .resolvers services =>
    match source.binding with
    | none => (.error (.schema (.missingResolver source.name)), state)
    | some binding =>
      let (scope, state) := state.createScope services
      let state := state.log (.called binding.container binding.member.name scope.id)
      let resolution := binding.member.resolve scope
      let opened : OpenScope := ⟨scope.id, resolution.hooks⟩
      match resolution.outcome with
      | .error e => (.error (.execution (.resolver source.name e.message)), state.release opened)
      | .ok (.array records) => (.ok ⟨records, some opened⟩, state)
      | .ok other => (.error (.execution (.notEnumerable source.name other.kind)), state.release opened)

/-- Uses the records of a source and then releases their scope, whatever came of it. -/
def withRecords {α : Type} (context : Context) (source : Source)
    (use : List Value → Except Error α) (state : State) : Except Error α × State :=
  match context.materialize source state with
  | (.error e, state) => (.error e, state)
  | (.ok ⟨records, none⟩, state) => (use records, state)
  | (.ok ⟨records, some scope⟩, state) => (use records, state.release scope)

/-- Runs one query, when `results` are those of the queries before it. -/
def runQuery (context : Context) (results : Results) (query : Query) (state : State) :
    Except Error QueryResult × State :=
  if (results.lookup query.name).isSome then
    (.error (.execution (.duplicateResult query.name)), state)
  else
    match context.findSource query.name with
    | .error e => (.error e, state)
    | .ok source =>
      match state.plan source query with
      | (.error e, state) => (.error e, state)
      | (.ok plan, state) => context.withRecords source plan.run state

/-- Runs queries, when `results` are those of the queries before them. -/
def runFrom (context : Context) : Results → List Query → State → Except Error Results × State
  | results, [], state => (.ok results, state)
  | results, query :: queries, state =>
    match context.runQuery results query state with
    | (.error e, state) => (.error e, state)
    | (.ok result, state) =>
      context.runFrom (insertSorted query.name result results) queries state

/-- Runs the queries of a script. -/
def run (context : Context) (script : Script) (state : State) : Except Error Results × State :=
  context.runFrom [] script.statements state

/-- Reads and runs a script. -/
def execute (context : Context) (text : String) (state : State) : Except Error Results × State :=
  match Script.parse text with
  | .error d => (.error (.parse d), state)
  | .ok script => context.run script state

end Context
end SelectLang
