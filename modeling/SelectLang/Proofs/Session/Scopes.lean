/-
# Scopes are released

What a session does to the world outside comes in blocks: a call in the next scope, and right after it the
hooks that were left in that scope, each once and in order (`Call.events`). A block is whole before the next
begins and before a result is handed out, whether the call fails, delivers no records, or delivers records
that the plan fails on.

A query makes at most one call, and none if it fails before: when its source was read already or is unknown,
when it has no plan, or when nothing serves its source (`Context.callOf?`). Then it takes no scope either. So
over all scripts that are run on a context the scopes are numbered one after the other
(`Context.session_scopes`).

Key definitions: `callEvents`, `eventsOf`, `Performs`, `Context.callOf?`, `Context.calls`.
Key theorems: `Performs.trans`, `Context.withRecords_performs`, `Context.runQuery_performs`,
`Context.runFrom_performs`, `Context.session_scopes`.
-/
import Mathlib
import SelectLang.Session.Basic

namespace SelectLang

variable {services : Services}

/-! ### Calls and their events -/

/-- A call of a member in a scope, and the hooks that it left. -/
def callEvents (services : Services) (binding : Binding) (scope : Nat) : List Event :=
  .called binding.container binding.member.name scope ::
    (binding.member.resolve ⟨scope, services⟩).hooks.map (Event.released scope)

/-- Calls one after the other, each in its scope, numbered from `first`. -/
def eventsOf (services : Services) (first : Nat) (calls : List Binding) : List Event :=
  (calls.zipIdx first).flatMap fun (binding, scope) => callEvents services binding scope

theorem eventsOf_append (first : Nat) (calls more : List Binding) :
    eventsOf services first (calls ++ more) =
      eventsOf services first calls ++ eventsOf services (first + calls.length) more := by
  rw [eventsOf, List.zipIdx_append, List.flatMap_append, Nat.add_comm]
  rfl

/-- Between the two states the calls were made, one after the other and in scopes of their own, and nothing
else happened outside. -/
structure Performs (services : Services) (calls : List Binding) (before after : State) : Prop where
  trace : after.trace = before.trace ++ eventsOf services before.nextScope calls
  nextScope : after.nextScope = before.nextScope + calls.length

namespace Performs

/-- Only the cache was asked. -/
theorem of_eq {before after : State} (htrace : after.trace = before.trace)
    (hnext : after.nextScope = before.nextScope) : Performs services [] before after :=
  ⟨by rw [htrace]; exact (List.append_nil _).symm, hnext⟩

theorem trans {calls more : List Binding} {before between after : State}
    (h : Performs services calls before between) (h' : Performs services more between after) :
    Performs services (calls ++ more) before after where
  trace := by rw [h'.trace, h.trace, h.nextScope, eventsOf_append, List.append_assoc]
  nextScope := by rw [h'.nextScope, h.nextScope, List.length_append, Nat.add_assoc]

end Performs

namespace Context

/-! ### One query -/

/-- The member that a query calls in a state, when `results` are those of the queries before it. -/
def callOf? (context : Context) (results : Results) (query : Query) (state : State) : Option Binding :=
  if (results.lookup query.name).isSome then none
  else
    match context.findSource query.name with
    | .error _ => none
    | .ok source =>
      match (state.plan source query).1 with
      | .error _ => none
      | .ok _ => source.binding

/-- A call whose scope is released next. -/
theorem performs_call (services : Services) (binding : Binding) (state : State) :
    Performs services [binding] state
      (((state.createScope services).2.log
          (.called binding.container binding.member.name state.nextScope)).release
        ⟨state.nextScope, (binding.member.resolve ⟨state.nextScope, services⟩).hooks⟩) where
  trace := by simp [State.release, State.log, State.createScope, eventsOf, callEvents]
  nextScope := rfl

section

variable {context : Context} (hexecutor : context.executor = .resolvers services)
include hexecutor

/-- However the records of a source are used, and if there are none: the scope is released by then. -/
theorem withRecords_performs {α : Type} (source : Source) (use : List Value → Except Error α)
    (state : State) :
    Performs services source.binding.toList state (context.withRecords source use state).2 := by
  unfold withRecords materialize
  rw [hexecutor]
  cases source.binding with
  | none => exact .of_eq rfl rfl
  | some binding =>
    have hcall := performs_call services binding state
    -- the scope is released where the call fails, where it delivers no records, or behind their use
    dsimp only [State.createScope]
    cases (binding.member.resolve ⟨state.nextScope, services⟩).outcome with
    | error e => exact hcall
    | ok value => cases value <;> exact hcall

theorem withRecords_of_binding_none {α : Type} {source : Source} (h : source.binding = none)
    (use : List Value → Except Error α) (state : State) :
    context.withRecords source use state = (.error (.schema (.missingResolver source.name)), state) := by
  rw [withRecords, materialize, hexecutor, h]

/-- A query makes its call, if it makes one, and the scope is released; if it makes none, it fails. -/
theorem runQuery_performs (results : Results) (query : Query) (state : State) :
    Performs services (context.callOf? results query state).toList state
        (context.runQuery results query state).2 ∧
      (context.callOf? results query state = none →
        ∃ e, (context.runQuery results query state).1 = .error e) := by
  rw [callOf?, runQuery]
  by_cases hdouble : (results.lookup query.name).isSome = true
  · rw [if_pos hdouble, if_pos hdouble]
    exact ⟨.of_eq rfl rfl, fun _ => ⟨_, rfl⟩⟩
  rw [if_neg hdouble, if_neg hdouble]
  cases context.findSource query.name with
  | error e => exact ⟨.of_eq rfl rfl, fun _ => ⟨e, rfl⟩⟩
  | ok source =>
    have hasked : Performs services [] state (state.plan source query).2 := .of_eq rfl rfl
    dsimp only
    generalize state.plan source query = answer at hasked ⊢
    obtain ⟨plan, after⟩ := answer
    cases plan with
    | error e => exact ⟨hasked, fun _ => ⟨e, rfl⟩⟩
    | ok plan =>
      refine ⟨hasked.trans (withRecords_performs hexecutor source plan.run after), fun hnone => ?_⟩
      exact ⟨_, congrArg Prod.fst (withRecords_of_binding_none hexecutor hnone plan.run after)⟩

end

/-! ### Scripts -/

/-- The calls of queries that are run one after the other until one fails. -/
def callsFrom (context : Context) : Results → List Query → State → List Binding
  | _, [], _ => []
  | results, query :: queries, state =>
    (context.callOf? results query state).toList ++
      match context.runQuery results query state with
      | (.error _, _) => []
      | (.ok result, after) => context.callsFrom (insertSorted query.name result results) queries after

theorem runFrom_performs {context : Context} (hexecutor : context.executor = .resolvers services) :
    ∀ (results : Results) (queries : List Query) (state : State),
      Performs services (context.callsFrom results queries state) state
        (context.runFrom results queries state).2
  | _, [], _ => .of_eq rfl rfl
  | results, query :: queries, state => by
    have hfirst := (runQuery_performs hexecutor results query state).1
    rw [callsFrom, runFrom]
    generalize context.runQuery results query state = answer at hfirst ⊢
    obtain ⟨outcome, after⟩ := answer
    cases outcome with
    | error e => exact hfirst.trans (.of_eq rfl rfl)
    | ok result => exact hfirst.trans (runFrom_performs hexecutor _ queries after)

/-! ### Sessions -/

/-- A script as a text that is still to be read, or as it was read elsewhere. -/
inductive Request where
  | text (text : String)
  | tree (script : Script)

/-- Runs a script. -/
def serve (context : Context) (request : Request) (state : State) : Except Error Results × State :=
  match request with
  | .text text => context.execute text state
  | .tree script => context.run script state

/-- The calls that are made for a script. -/
def callsOf (context : Context) (request : Request) (state : State) : List Binding :=
  match request with
  | .text text =>
    match Script.parse text with
    | .error _ => []
    | .ok script => context.callsFrom [] script.statements state
  | .tree script => context.callsFrom [] script.statements state

/-- The state after some scripts. -/
def stateAfter (context : Context) : List Request → State → State
  | [], state => state
  | request :: requests, state => context.stateAfter requests (context.serve request state).2

/-- The calls that are made over some scripts. -/
def calls (context : Context) : List Request → State → List Binding
  | [], _ => []
  | request :: requests, state =>
    context.callsOf request state ++ context.calls requests (context.serve request state).2

section

variable {context : Context} (hexecutor : context.executor = .resolvers services)
include hexecutor

theorem serve_performs (request : Request) (state : State) :
    Performs services (context.callsOf request state) state (context.serve request state).2 := by
  cases request with
  | tree script => exact runFrom_performs hexecutor [] script.statements state
  | text text =>
    rw [callsOf, serve, execute]
    cases Script.parse text with
    | error d => exact .of_eq rfl rfl
    | ok script => exact runFrom_performs hexecutor [] script.statements state

theorem stateAfter_performs : ∀ (requests : List Request) (state : State),
    Performs services (context.calls requests state) state (context.stateAfter requests state)
  | [], _ => .of_eq rfl rfl
  | request :: requests, state =>
    (serve_performs hexecutor request state).trans (stateAfter_performs requests _)

end

/-- Over all scripts, each call is in the next scope and followed by the hooks that it left. Every script
has all its calls released when its outcome is there, and every query before the next; a query that makes
no call takes no scope and fails. -/
theorem session_scopes (schemas : List Schema) (services : Services) (first : Nat)
    (requests : List Request) :
    let context : Context := ⟨schemas, .resolvers services⟩
    let calls := context.calls requests (.initial first)
    let after := context.stateAfter requests (.initial first)
    (after.trace = eventsOf services first calls ∧ after.nextScope = first + calls.length) ∧
      (∀ request state,
        Performs services (context.callsOf request state) state (context.serve request state).2) ∧
      ∀ results query state,
        Performs services (context.callOf? results query state).toList state
          (context.runQuery results query state).2 ∧
        (context.callOf? results query state = none →
          ∃ e, (context.runQuery results query state).1 = .error e) := by
  intro context calls after
  have hsession : Performs services calls (.initial first) after :=
    stateAfter_performs rfl requests (.initial first)
  exact ⟨⟨hsession.trace, hsession.nextScope⟩, serve_performs rfl, runQuery_performs rfl⟩

end Context
end SelectLang
