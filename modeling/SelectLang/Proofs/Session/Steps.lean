/-
# What the run of a query can do

A query fails at its name, at its source or at its plan, and then nothing is called. Otherwise it is run on the
fixed records, or its source has no member to be served by, or that member is called in the next scope and the
scope is released again, whatever the call comes to (`Context.QueryRun`). What holds of a query is shown case by
case; what holds of a script follows from one query to the next.

Key definitions: `State.called`, `Plan.runOn`, `Context.Planned`, `Context.QueryRun`.
Key theorems: `Context.queryRun`, `Context.runFrom_append`, `Context.runFrom_eq_error_iff`.
-/
import Mathlib
import SelectLang.Proofs.Session.Scopes

namespace SelectLang

/-- What a call of the member in the next scope comes to. -/
def State.outcome (state : State) (services : Services) (binding : Binding) : Except ResolverError Value :=
  (binding.member.resolve ⟨state.nextScope, services⟩).outcome

/-- The state after a call of the member in the next scope, which is released. -/
def State.called (state : State) (services : Services) (binding : Binding) : State :=
  ((state.createScope services).2.log
    (.called binding.container binding.member.name state.nextScope)).release
      ⟨state.nextScope, (binding.member.resolve ⟨state.nextScope, services⟩).hooks⟩

/-- What a plan gives on the outcome of a call for the records of a source. -/
def Plan.runOn (plan : Plan) (source : Source) : Except ResolverError Value → Except Error QueryResult
  | .error e => .error (.execution (.resolver source.name e.message))
  | .ok (.array records) => plan.run records
  | .ok other => .error (.execution (.notEnumerable source.name other.kind))

namespace Context

/-! ### Queries -/

/-- A query gets as far as its plan. -/
structure Planned (context : Context) (results : Results) (query : Query) (state : State) (source : Source)
    (plan : Plan) : Prop where
  fresh : (results.lookup query.name).isSome = false
  found : context.findSource query.name = .ok source
  compiled : (state.cache.fetch source query).1 = .ok plan

/-- What the run of a query behind queries with these results comes to, and the state that it leaves. -/
inductive QueryRun (context : Context) (results : Results) (query : Query) (state : State) :
    Except Error QueryResult × State → Prop where
  | duplicate (hname : (results.lookup query.name).isSome = true) :
      QueryRun context results query state (.error (.execution (.duplicateResult query.name)), state)
  | unknown {e : Error} (hname : (results.lookup query.name).isSome = false)
      (hsource : context.findSource query.name = .error e) :
      QueryRun context results query state (.error e, state)
  | noPlan {source : Source} {e : Error} (hname : (results.lookup query.name).isSome = false)
      (hsource : context.findSource query.name = .ok source)
      (hplan : (state.cache.fetch source query).1 = .error e) :
      QueryRun context results query state (.error e, (state.plan source query).2)
  | fixed {source : Source} {plan : Plan} {records : List Value}
      (hplanned : context.Planned results query state source plan)
      (hexecutor : context.executor = .fixed records) :
      QueryRun context results query state (plan.run records, (state.plan source query).2)
  | noMember {source : Source} {plan : Plan} {services : Services}
      (hplanned : context.Planned results query state source plan)
      (hexecutor : context.executor = .resolvers services) (hbinding : source.binding = none) :
      QueryRun context results query state
        (.error (.schema (.missingResolver source.name)), (state.plan source query).2)
  | called {source : Source} {plan : Plan} {services : Services} {binding : Binding}
      (hplanned : context.Planned results query state source plan)
      (hexecutor : context.executor = .resolvers services) (hbinding : source.binding = some binding) :
      QueryRun context results query state
        (plan.runOn source (state.outcome services binding),
          (state.plan source query).2.called services binding)

variable {context : Context}

theorem findSource_eq_error {name : String} {e : Error} (h : context.findSource name = .error e) :
    (∀ schema ∈ context.schemas, ∀ source ∈ schema.sources, name ∉ source.identifiers) ∧
      e = .schema (.unknownSource name) := by
  unfold findSource SelectLang.findSource at h
  cases hfind : context.schemas.findSome? (·.find? name) with
  | some source =>
    rw [hfind] at h
    cases h
  | none =>
    rw [hfind] at h
    cases h
    refine ⟨fun schema hschema source hsource hname => ?_, rfl⟩
    have hnone := List.find?_eq_none.mp (List.findSome?_eq_none_iff.mp hfind schema hschema) source hsource
    exact hnone (List.elem_iff.mpr hname)

theorem exists_of_findSource {name : String} {source : Source} (h : context.findSource name = .ok source) :
    ∃ schema ∈ context.schemas, source ∈ schema.sources ∧ name ∈ source.identifiers := by
  unfold findSource SelectLang.findSource at h
  cases hfind : context.schemas.findSome? (·.find? name) with
  | none =>
    rw [hfind] at h
    cases h
  | some found =>
    rw [hfind] at h
    cases h
    obtain ⟨schema, hschema, hsource⟩ := List.exists_of_findSome?_eq_some hfind
    have hfound : schema.sources.find? (Source.answersTo · name) = some source := hsource
    have hanswers := List.find?_some hfound
    exact ⟨schema, hschema, List.mem_of_find?_eq_some hfound, List.elem_iff.mp hanswers⟩

/-- Fixed records are there without a call. -/
theorem withRecords_of_fixed {records : List Value} (hexecutor : context.executor = .fixed records)
    (source : Source) (plan : Plan) (state : State) :
    context.withRecords source plan.run state = (plan.run records, state) := by
  unfold withRecords materialize
  rw [hexecutor]

/-- However the call ends, the scope is released and the plan is run on its outcome. -/
theorem withRecords_eq {services : Services} (hexecutor : context.executor = .resolvers services)
    {source : Source} {binding : Binding} (hbinding : source.binding = some binding) (plan : Plan)
    (state : State) : context.withRecords source plan.run state =
      (plan.runOn source (state.outcome services binding), state.called services binding) := by
  unfold withRecords materialize Plan.runOn State.outcome
  rw [hexecutor, hbinding]
  dsimp only [State.createScope]
  cases (binding.member.resolve ⟨state.nextScope, services⟩).outcome with
  | error e => rfl
  | ok value => cases value <;> rfl

theorem queryRun (results : Results) (query : Query) (state : State) :
    context.QueryRun results query state (context.runQuery results query state) := by
  unfold runQuery
  by_cases hname : (results.lookup query.name).isSome = true
  · rw [if_pos hname]
    exact .duplicate hname
  rw [if_neg hname]
  rw [Bool.not_eq_true] at hname
  cases hsource : context.findSource query.name with
  | error e => exact .unknown hname hsource
  | ok source =>
    have hstate : state.plan source query =
      ((state.cache.fetch source query).1, (state.plan source query).2) := rfl
    dsimp only
    rw [hstate]
    cases hplan : (state.cache.fetch source query).1 with
    | error e => exact .noPlan hname hsource hplan
    | ok plan =>
      have hplanned : context.Planned results query state source plan := ⟨hname, hsource, hplan⟩
      dsimp only
      cases hexecutor : context.executor with
      | fixed records =>
        rw [withRecords_of_fixed hexecutor]
        exact .fixed hplanned hexecutor
      | resolvers services =>
        cases hbinding : source.binding with
        | none =>
          rw [withRecords_of_binding_none hexecutor hbinding]
          exact .noMember hplanned hexecutor hbinding
        | some binding =>
          rw [withRecords_eq hexecutor hbinding]
          exact .called hplanned hexecutor hbinding

theorem fresh_of_ok {results : Results} {query : Query} {state after : State} {result : QueryResult}
    (h : context.runQuery results query state = (.ok result, after)) :
    (results.lookup query.name).isSome = false := by
  by_contra hname
  rw [Bool.not_eq_false] at hname
  unfold runQuery at h
  rw [if_pos hname] at h
  cases h

/-- Behind its plan there are only the records of the source. -/
theorem Planned.runQuery_eq {results : Results} {query : Query} {state : State} {source : Source} {plan : Plan}
    (h : context.Planned results query state source plan) :
    context.runQuery results query state = context.withRecords source plan.run (state.plan source query).2 := by
  have hplan : state.plan source query = (.ok plan, (state.plan source query).2) := Prod.ext h.compiled rfl
  unfold runQuery
  rw [h.fresh, h.found]
  dsimp only
  rw [hplan]
  rfl

/-! ### Queries one after the other -/

/-- The queries behind others are run on from where these end, if they do not fail. -/
theorem runFrom_append (context : Context) (back : List Query) :
    ∀ (front : List Query) (results : Results) (state : State), context.runFrom results (front ++ back) state =
      match context.runFrom results front state with
      | (.error e, after) => (.error e, after)
      | (.ok more, after) => context.runFrom more back after
  | [], _, _ => rfl
  | query :: front, results, state => by
    rw [List.cons_append, runFrom, runFrom]
    cases hquery : context.runQuery results query state with
    | mk outcome after =>
      cases outcome with
      | error e => rfl
      | ok result => exact runFrom_append context back front _ after

/-- Queries succeed if the first does and the others do behind it. -/
theorem runFrom_cons_eq_ok_iff {results last : Results} {query : Query} {queries : List Query}
    {state after : State} : context.runFrom results (query :: queries) state = (.ok last, after) ↔
      ∃ result between, context.runQuery results query state = (.ok result, between) ∧
        context.runFrom (insertSorted query.name result results) queries between = (.ok last, after) := by
  rw [runFrom]
  cases context.runQuery results query state with
  | mk outcome between =>
    cases outcome with
    | error e =>
      constructor
      · intro h
        cases h
      · rintro ⟨_, _, heq, -⟩
        cases heq
    | ok result =>
      constructor
      · intro h
        exact ⟨result, between, rfl, h⟩
      · rintro ⟨_, _, heq, h⟩
        cases heq
        exact h

theorem runFrom_concat {results more : Results} {front : List Query} {state between : State}
    (h : context.runFrom results front state = (.ok more, between)) (query : Query) :
    context.runFrom results (front ++ [query]) state =
      match context.runQuery more query between with
      | (.error e, after) => (.error e, after)
      | (.ok result, after) => (.ok (insertSorted query.name result more), after) := by
  rw [runFrom_append, h]
  rfl

/-- Queries succeed if all but the last do, and then the last does too. -/
theorem exists_of_runFrom_concat {results last : Results} {front : List Query} {query : Query}
    {state after : State} (h : context.runFrom results (front ++ [query]) state = (.ok last, after)) :
    ∃ more between result, context.runFrom results front state = (.ok more, between) ∧
      context.runQuery more query between = (.ok result, after) ∧
      last = insertSorted query.name result more := by
  cases hfront : context.runFrom results front state with
  | mk outcome between =>
    cases outcome with
    | error e =>
      rw [runFrom_append, hfront] at h
      cases h
    | ok more =>
      rw [runFrom_concat hfront] at h
      cases hquery : context.runQuery more query between with
      | mk answer final =>
        rw [hquery] at h
        cases answer with
        | error e => cases h
        | ok result =>
          cases h
          exact ⟨more, between, result, rfl, hquery, rfl⟩

/-- Queries fail where one of them does behind others that do not. -/
theorem runFrom_eq_error_iff {e : Error} {queries : List Query} {results : Results} {state after : State} :
    context.runFrom results queries state = (.error e, after) ↔
      ∃ front query back more between, queries = front ++ query :: back ∧
        context.runFrom results front state = (.ok more, between) ∧
        context.runQuery more query between = (.error e, after) := by
  constructor
  · intro h
    induction queries generalizing results state with
    | nil => cases h
    | cons query queries ih =>
      rw [runFrom] at h
      cases hquery : context.runQuery results query state with
      | mk outcome between =>
        rw [hquery] at h
        cases outcome with
        | error e' =>
          cases h
          exact ⟨[], query, queries, results, state, rfl, rfl, hquery⟩
        | ok result =>
          obtain ⟨front, failing, back, more, met, rfl, hfront, hfailing⟩ := ih h
          refine ⟨query :: front, failing, back, more, met, rfl, ?_, hfailing⟩
          rw [runFrom, hquery]
          exact hfront
  · rintro ⟨front, query, back, more, between, rfl, hfront, hquery⟩
    rw [runFrom_append, hfront]
    dsimp only
    rw [runFrom, hquery]

end Context
end SelectLang
