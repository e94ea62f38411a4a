/-
# The first query that fails ends a script

What may keep a query from its result is seen in stages: its name was used before, no source answers to the
name, there is no plan, nothing serves the source, the call fails, its value is no array, the plan fails on the
records (`Context.Obstacle`). Each is a condition on the query, the queries before it and the state in which it
is met. A query fails with the first that applies (`Context.Fails`); it calls a resolver if none of the first
four does, and no other (`Context.Calls`).

A script fails at its first query that fails, and with its error. It leaves the state that the queries up to this
one leave, and the queries behind it make no calls. A script of which no query fails has one result for each of
its queries, under its name (`Context.run_aborts`).

Key definitions: `Stage`, `Context.Obstacle`, `Context.Fails`, `Context.Yields`, `Context.Calls`.
Key theorems: `Context.runQuery_cases`, `Context.run_aborts`.
-/
import Mathlib
import SelectLang.Proofs.Session.Steps
import SelectLang.Proofs.Text.Entries

namespace SelectLang

/-! ### Stages -/

/-- Where a query may fail. -/
inductive Stage where
  | name
  | source
  | plan
  | binding
  | call
  | array
  | rows
deriving DecidableEq

/-- The order of the stages. -/
def Stage.place : Stage → ℕ
  | name => 0
  | source => 1
  | plan => 2
  | binding => 3
  | call => 4
  | array => 5
  | rows => 6

theorem Stage.place_injective {a b : Stage} (h : a.place = b.place) : a = b := by
  cases a <;> cases b <;> first | rfl | cases h

/-! ### Calls -/

/-- The event is a call of a resolver. -/
def Event.isCall : Event → Bool
  | called _ _ _ => true
  | released _ _ => false

/-- The calls of resolvers among what happened. -/
def State.calls (state : State) : List Event := state.trace.filter Event.isCall

theorem State.calls_called (state : State) (services : Services) (binding : Binding) :
    (state.called services binding).calls =
      state.calls ++ [.called binding.container binding.member.name state.nextScope] := by
  have hhooks : ∀ hooks : List String,
      (hooks.map (Event.released state.nextScope)).filter Event.isCall = [] := fun hooks => by
    rw [List.filter_eq_nil_iff]
    rintro event hevent
    obtain ⟨hook, -, rfl⟩ := List.mem_map.mp hevent
    exact Bool.false_ne_true
  unfold calls called
  dsimp only [release, log, createScope]
  rw [List.append_assoc, List.filter_append, List.filter_append, hhooks, List.append_nil]
  rfl

namespace Context

/-- The records that a source has in a state. -/
inductive Provides (context : Context) (source : Source) (state : State) : List Value → Prop where
  | fixed {records : List Value} (hexecutor : context.executor = .fixed records) :
      Provides context source state records
  | called {services : Services} {binding : Binding} {records : List Value}
      (hexecutor : context.executor = .resolvers services) (hbinding : source.binding = some binding)
      (houtcome : state.outcome services binding = .ok (.array records)) :
      Provides context source state records

section

variable (context : Context) (earlier : List Query) (query : Query) (state : State)

/-- What keeps a query that is met in a state from its result, when some queries came before it. -/
inductive Obstacle : Stage → Error → Prop where
  | name (hname : query.name ∈ earlier.map Query.name) :
      Obstacle .name (.execution (.duplicateResult query.name))
  | source (hnone : ∀ schema ∈ context.schemas, ∀ source ∈ schema.sources, query.name ∉ source.identifiers) :
      Obstacle .source (.schema (.unknownSource query.name))
  | plan {source : Source} {e : Error} (hsource : context.findSource query.name = .ok source)
      (hplan : (state.cache.fetch source query).1 = .error e) : Obstacle .plan e
  | binding {source : Source} {services : Services} (hsource : context.findSource query.name = .ok source)
      (hexecutor : context.executor = .resolvers services) (hbinding : source.binding = none) :
      Obstacle .binding (.schema (.missingResolver source.name))
  | call {source : Source} {services : Services} {binding : Binding} {e : ResolverError}
      (hsource : context.findSource query.name = .ok source)
      (hexecutor : context.executor = .resolvers services) (hbinding : source.binding = some binding)
      (houtcome : state.outcome services binding = .error e) :
      Obstacle .call (.execution (.resolver source.name e.message))
  | array {source : Source} {services : Services} {binding : Binding} {value : Value}
      (hsource : context.findSource query.name = .ok source)
      (hexecutor : context.executor = .resolvers services) (hbinding : source.binding = some binding)
      (houtcome : state.outcome services binding = .ok value) (harray : ∀ records, value ≠ .array records) :
      Obstacle .array (.execution (.notEnumerable source.name value.kind))
  | rows {source : Source} {plan : Plan} {records : List Value} {e : Error}
      (hsource : context.findSource query.name = .ok source)
      (hplan : (state.cache.fetch source query).1 = .ok plan)
      (hrecords : context.Provides source state records) (hrun : plan.run records = .error e) :
      Obstacle .rows e

/-- Nothing keeps the query from this stage. -/
def Reaches (stage : Stage) : Prop :=
  ∀ prior e, prior.place < stage.place → ¬ context.Obstacle earlier query state prior e

/-- A query fails with the first obstacle. -/
def Fails (e : Error) : Prop :=
  ∃ stage, context.Obstacle earlier query state stage e ∧ context.Reaches earlier query state stage

/-- The result of a query is that of its plan on the records of its source. -/
def Yields (result : QueryResult) : Prop :=
  ∃ source plan records, context.findSource query.name = .ok source ∧
    (state.cache.fetch source query).1 = .ok plan ∧ context.Provides source state records ∧
    plan.run records = .ok result

/-- The call that a query makes if it gets so far, in the next scope. -/
inductive Calls : Event → Prop where
  | intro {source : Source} {services : Services} {binding : Binding}
      (hreaches : context.Reaches earlier query state .call)
      (hsource : context.findSource query.name = .ok source)
      (hexecutor : context.executor = .resolvers services) (hbinding : source.binding = some binding) :
      Calls (.called binding.container binding.member.name state.nextScope)

end

variable {context : Context} {earlier : List Query} {query : Query} {state : State}

theorem Provides.unique {source : Source} {records more : List Value}
    (h : context.Provides source state records) (h' : context.Provides source state more) :
    records = more := by
  cases h <;> cases h' <;> simp_all

/-- At one stage there is one obstacle. -/
theorem Obstacle.unique {stage : Stage} {e e' : Error} (h : context.Obstacle earlier query state stage e)
    (h' : context.Obstacle earlier query state stage e') : e = e' := by
  cases h with
  | rows hsource hplan hrecords hrun =>
    cases h' with
    | rows hsource' hplan' hrecords' hrun' =>
      rw [hsource, Except.ok.injEq] at hsource'
      subst hsource'
      rw [hplan, Except.ok.injEq] at hplan'
      subst hplan'
      rw [hrecords.unique hrecords', hrun', Except.error.injEq] at hrun
      exact hrun.symm
  | _ =>
    cases h'
    simp_all

/-- There is one first obstacle. -/
theorem Fails.unique {e e' : Error} (h : context.Fails earlier query state e)
    (h' : context.Fails earlier query state e') : e = e' := by
  obtain ⟨stage, hstage, hreaches⟩ := h
  obtain ⟨stage', hstage', hreaches'⟩ := h'
  have hplace : stage.place = stage'.place := by
    rcases Nat.lt_trichotomy stage.place stage'.place with hlt | heq | hgt
    · exact absurd hstage (hreaches' stage e hlt)
    · exact heq
    · exact absurd hstage' (hreaches stage' e' hgt)
  rw [← Stage.place_injective hplace] at hstage'
  exact hstage.unique hstage'

/-! ### From stage to stage -/

theorem reaches_name : context.Reaches earlier query state .name :=
  fun _ _ hplace => absurd hplace (Nat.not_lt_zero _)

/-- Without an obstacle at a stage the next is reached. -/
theorem Reaches.next {stage after : Stage} (h : context.Reaches earlier query state stage)
    (hplace : after.place = stage.place + 1) (hclear : ∀ e, ¬ context.Obstacle earlier query state stage e) :
    context.Reaches earlier query state after := by
  intro prior e hprior
  by_cases hlt : prior.place < stage.place
  · exact h prior e hlt
  · have heq : prior = stage := Stage.place_injective (by omega)
    rw [heq]
    exact hclear e

section

variable {results : Results} {source : Source} {plan : Plan}

theorem reaches_source (hfresh : query.name ∉ earlier.map Query.name) :
    context.Reaches earlier query state .source := by
  refine reaches_name.next rfl fun e h => ?_
  cases h with
  | name hname => exact hfresh hname

theorem reaches_plan (hfresh : query.name ∉ earlier.map Query.name)
    (hsource : context.findSource query.name = .ok source) : context.Reaches earlier query state .plan := by
  refine (reaches_source hfresh).next rfl fun e h => ?_
  cases h with
  | source hnone =>
    obtain ⟨schema, hschema, hmem, hname⟩ := exists_of_findSource hsource
    exact hnone schema hschema source hmem hname

theorem reaches_binding (hfresh : query.name ∉ earlier.map Query.name)
    (hsource : context.findSource query.name = .ok source)
    (hplan : (state.cache.fetch source query).1 = .ok plan) :
    context.Reaches earlier query state .binding := by
  refine (reaches_plan hfresh hsource).next rfl fun e h => ?_
  cases h with
  | plan hsource' hplan' =>
    rw [hsource, Except.ok.injEq] at hsource'
    subst hsource'
    rw [hplan] at hplan'
    cases hplan'

/-- Fixed records are there without a call. -/
theorem reaches_rows_of_fixed (h : context.Reaches earlier query state .binding) {records : List Value}
    (hexecutor : context.executor = .fixed records) : context.Reaches earlier query state .rows := by
  have hnone : ∀ {services : Services}, context.executor ≠ .resolvers services := by
    rw [hexecutor]
    nofun
  have hcall : context.Reaches earlier query state .call := h.next rfl fun e h => by
    cases h with
    | binding _ hexecutor' _ => exact hnone hexecutor'
  have harray : context.Reaches earlier query state .array := hcall.next rfl fun e h => by
    cases h with
    | call _ hexecutor' _ _ => exact hnone hexecutor'
  exact harray.next rfl fun e h => by
    cases h with
    | array _ hexecutor' _ _ _ => exact hnone hexecutor'

section

variable {services : Services} {binding : Binding} (hsource : context.findSource query.name = .ok source)
  (hbinding : source.binding = some binding)
include hsource hbinding

theorem reaches_call (h : context.Reaches earlier query state .binding) :
    context.Reaches earlier query state .call := by
  refine h.next rfl fun e h => ?_
  cases h with
  | binding hsource' _ hnone =>
    rw [hsource, Except.ok.injEq] at hsource'
    subst hsource'
    rw [hbinding] at hnone
    cases hnone

variable (hexecutor : context.executor = .resolvers services)
include hexecutor

theorem reaches_array (h : context.Reaches earlier query state .call) {value : Value}
    (houtcome : state.outcome services binding = .ok value) : context.Reaches earlier query state .array := by
  refine h.next rfl fun e h => ?_
  cases h with
  | call => simp_all

theorem reaches_rows (h : context.Reaches earlier query state .array) {records : List Value}
    (houtcome : state.outcome services binding = .ok (.array records)) :
    context.Reaches earlier query state .rows := by
  refine h.next rfl fun e h => ?_
  cases h with
  | array => simp_all

end

/-! ### The run of a query -/

/-- No obstacle is in the way of the query. -/
def IsFree (context : Context) (earlier : List Query) (query : Query) (state : State) : Prop :=
  ∀ stage e, ¬ context.Obstacle earlier query state stage e

/-- What the plan gives on the records is what the query comes to. -/
theorem rows_cases (h : context.Reaches earlier query state .rows)
    (hsource : context.findSource query.name = .ok source)
    (hplan : (state.cache.fetch source query).1 = .ok plan) {records : List Value}
    (hrecords : context.Provides source state records) :
    (∃ e, plan.run records = .error e ∧ context.Fails earlier query state e) ∨
    ∃ result, plan.run records = .ok result ∧ context.Yields query state result ∧
      context.IsFree earlier query state := by
  cases hrun : plan.run records with
  | error e => exact Or.inl ⟨e, rfl, .rows, .rows hsource hplan hrecords hrun, h⟩
  | ok result =>
    have hyields : context.Yields query state result := ⟨source, plan, records, hsource, hplan, hrecords, hrun⟩
    refine Or.inr ⟨result, rfl, hyields, fun stage e hstage => ?_⟩
    by_cases hrows : stage = .rows
    · subst hrows
      cases hstage with
      | rows hsource' hplan' hrecords' hrun' =>
        rw [hsource, Except.ok.injEq] at hsource'
        subst hsource'
        rw [hplan, Except.ok.injEq] at hplan'
        subst hplan'
        rw [hrecords.unique hrecords', hrun'] at hrun
        cases hrun
    · refine h stage e ?_ hstage
      cases stage <;> first | decide | exact absurd rfl hrows

/-- Either a query fails with the first obstacle, or there is none and it yields its result. -/
theorem runQuery_cases (context : Context)
    (hnames : ∀ name, (results.lookup name).isSome = true ↔ name ∈ earlier.map Query.name)
    (query : Query) (state : State) :
    (∃ e, (context.runQuery results query state).1 = .error e ∧ context.Fails earlier query state e) ∨
    ∃ result, (context.runQuery results query state).1 = .ok result ∧ context.Yields query state result ∧
      context.IsFree earlier query state := by
  have hfresh : (results.lookup query.name).isSome = false → query.name ∉ earlier.map Query.name := by
    intro hnone hmem
    rw [(hnames query.name).mpr hmem] at hnone
    cases hnone
  have hrun := context.queryRun results query state
  generalize context.runQuery results query state = answer at hrun ⊢
  cases hrun with
  | duplicate hname => exact Or.inl ⟨_, rfl, .name, .name ((hnames query.name).mp hname), reaches_name⟩
  | unknown hname hsource =>
    obtain ⟨hnone, rfl⟩ := findSource_eq_error hsource
    exact Or.inl ⟨_, rfl, .source, .source hnone, reaches_source (hfresh hname)⟩
  | noPlan hname hsource hplan =>
    exact Or.inl ⟨_, rfl, .plan, .plan hsource hplan, reaches_plan (hfresh hname) hsource⟩
  | fixed hplanned hexecutor =>
    have hreaches := reaches_binding (hfresh hplanned.fresh) hplanned.found hplanned.compiled
    exact rows_cases (reaches_rows_of_fixed hreaches hexecutor) hplanned.found hplanned.compiled
      (.fixed hexecutor)
  | noMember hplanned hexecutor hbinding =>
    have hreaches := reaches_binding (hfresh hplanned.fresh) hplanned.found hplanned.compiled
    exact Or.inl ⟨_, rfl, .binding, .binding hplanned.found hexecutor hbinding, hreaches⟩
  | @called source plan services binding hplanned hexecutor hbinding =>
    have hsource := hplanned.found
    have hcall := reaches_call hsource hbinding
      (reaches_binding (hfresh hplanned.fresh) hsource hplanned.compiled)
    dsimp only
    cases houtcome : state.outcome services binding with
    | error e => exact Or.inl ⟨_, rfl, .call, .call hsource hexecutor hbinding houtcome, hcall⟩
    | ok value =>
      have harray := reaches_array hsource hbinding hexecutor hcall houtcome
      cases value with
      | array records =>
        exact rows_cases (reaches_rows hsource hbinding hexecutor harray houtcome) hsource hplanned.compiled
          (.called hexecutor hbinding houtcome)
      | _ => exact Or.inl ⟨_, rfl, .array, .array hsource hexecutor hbinding houtcome nofun, harray⟩

theorem runQuery_eq_error_iff
    (hnames : ∀ name, (results.lookup name).isSome = true ↔ name ∈ earlier.map Query.name) {e : Error} :
    (context.runQuery results query state).1 = .error e ↔ context.Fails earlier query state e := by
  rcases runQuery_cases context hnames query state with
    ⟨e', he, hfails⟩ | ⟨result, hresult, -, hfree⟩
  · rw [he, Except.error.injEq]
    exact ⟨fun heq => heq ▸ hfails, hfails.unique⟩
  · rw [hresult]
    exact iff_of_false nofun fun ⟨stage, hstage, _⟩ => hfree stage e hstage

theorem yields_of_ok (hnames : ∀ name, (results.lookup name).isSome = true ↔ name ∈ earlier.map Query.name)
    {result : QueryResult} {after : State} (h : context.runQuery results query state = (.ok result, after)) :
    context.Yields query state result := by
  rcases runQuery_cases context hnames query state with ⟨e, he, -⟩ | ⟨found, hfound, hyields, -⟩
  · rw [h] at he
    cases he
  · rw [h] at hfound
    cases hfound
    exact hyields

theorem not_calls_of_obstacle {stage : Stage} {e : Error} (h : context.Obstacle earlier query state stage e)
    (hplace : stage.place < Stage.call.place) (event : Event) : ¬ context.Calls earlier query state event := by
  rintro ⟨hreaches, -, -, -⟩
  exact hreaches stage e hplace h

/-- A query makes one call, or none if it fails before or reads fixed records. -/
theorem runQuery_calls (context : Context)
    (hnames : ∀ name, (results.lookup name).isSome = true ↔ name ∈ earlier.map Query.name)
    (query : Query) (state : State) :
    ∃ call : Option Event, (context.runQuery results query state).2.calls = state.calls ++ call.toList ∧
      ∀ event, call = some event ↔ context.Calls earlier query state event := by
  have hnone : ∀ {after : State}, after.calls = state.calls →
      (∀ event, ¬ context.Calls earlier query state event) →
        ∃ call : Option Event, after.calls = state.calls ++ call.toList ∧
          ∀ event, call = some event ↔ context.Calls earlier query state event :=
    fun hcalls hno =>
      ⟨none, hcalls.trans (List.append_nil _).symm, fun event => iff_of_false nofun (hno event)⟩
  have hrun := context.queryRun results query state
  generalize context.runQuery results query state = answer at hrun ⊢
  cases hrun with
  | duplicate hname =>
    exact hnone rfl (not_calls_of_obstacle (.name ((hnames query.name).mp hname)) (by decide))
  | unknown hname hsource =>
    obtain ⟨hunknown, rfl⟩ := findSource_eq_error hsource
    exact hnone rfl (not_calls_of_obstacle (.source hunknown) (by decide))
  | noPlan hname hsource hplan =>
    exact hnone rfl (not_calls_of_obstacle (.plan hsource hplan) (by decide))
  | fixed hplanned hexecutor =>
    refine hnone rfl fun event hevent => ?_
    cases hevent with
    | intro _ _ hexecutor' _ =>
      rw [hexecutor] at hexecutor'
      cases hexecutor'
  | noMember hplanned hexecutor hbinding =>
    exact hnone rfl (not_calls_of_obstacle (.binding hplanned.found hexecutor hbinding) (by decide))
  | @called source plan services binding hplanned hexecutor hbinding =>
    have hsource := hplanned.found
    refine ⟨some (.called binding.container binding.member.name state.nextScope),
      State.calls_called (state.plan source query).2 services binding, fun event => ⟨fun heq => ?_, fun h => ?_⟩⟩
    · cases heq
      have hfresh : query.name ∉ earlier.map Query.name := fun hmem => by
        rw [← hnames, hplanned.fresh] at hmem
        cases hmem
      exact .intro (reaches_call hsource hbinding (reaches_binding hfresh hsource hplanned.compiled)) hsource
        hexecutor hbinding
    · cases h with
      | intro _ hsource' hexecutor' hbinding' =>
        rw [hsource, Except.ok.injEq] at hsource'
        subst hsource'
        rw [hbinding, Option.some.injEq] at hbinding'
        rw [hbinding']

end

/-! ### Queries that succeed -/

/-- Queries that succeed have different names, and their results stand under these. -/
theorem names_of_runFrom {front : List Query} {results : Results} {state after : State}
    (h : context.runFrom [] front state = (.ok results, after)) :
    (results.map Prod.fst).Perm (front.map Query.name) ∧ (front.map Query.name).Nodup := by
  induction front using List.reverseRecOn generalizing results after with
  | nil =>
    cases h
    exact ⟨.refl _, .nil⟩
  | append_singleton front query ih =>
    obtain ⟨more, between, result, hfront, hquery, rfl⟩ := exists_of_runFrom_concat h
    obtain ⟨hperm, hnodup⟩ := ih hfront
    have hnew : query.name ∉ more.map Prod.fst := isSome_lookup_eq_false_iff.mp (fresh_of_ok hquery)
    have hinsert := (insertSorted_perm hnew result).map Prod.fst
    rw [hperm.mem_iff] at hnew
    refine ⟨?_, nodup_map_append hnodup hnew⟩
    rw [List.map_append, List.map_singleton]
    exact (hinsert.trans (hperm.cons query.name)).trans (List.perm_append_singleton _ _).symm

theorem isSome_lookup_of_runFrom {front : List Query} {results : Results} {state after : State}
    (h : context.runFrom [] front state = (.ok results, after)) (name : String) :
    (results.lookup name).isSome = true ↔ name ∈ front.map Query.name := by
  rw [isSome_lookup_iff_mem, (names_of_runFrom h).1.mem_iff]

/-! ### Scripts -/

/-- The state in which the query at a place is met, if the queries before it succeed. -/
def stateAt (context : Context) (queries : List Query) (state : State) (place : ℕ) : State :=
  (context.runFrom [] (queries.take place) state).2

/-- The query at a place fails. -/
def FailsAt (context : Context) (queries : List Query) (state : State) (place : ℕ) (e : Error) : Prop :=
  ∃ query, queries[place]? = some query ∧
    context.Fails (queries.take place) query (context.stateAt queries state place) e

/-- No query before a place fails. -/
def ClearTo (context : Context) (queries : List Query) (state : State) (place : ℕ) : Prop :=
  ∀ prior < place, ∀ e, ¬ context.FailsAt queries state prior e

/-- The query at a place is run and makes a call. -/
def CallsAt (context : Context) (queries : List Query) (state : State) (place : ℕ) (event : Event) : Prop :=
  context.ClearTo queries state place ∧ ∃ query, queries[place]? = some query ∧
    context.Calls (queries.take place) query (context.stateAt queries state place) event

section

variable {queries : List Query} {place : ℕ}

theorem take_succ_of_getElem? (h : queries[place]? = some query) :
    queries.take (place + 1) = queries.take place ++ [query] := by
  rw [List.take_add_one, h]
  rfl

/-- Where queries up to a place succeed, that at the place is run behind them. -/
theorem runFrom_take_succ {more : Results} {between : State} (hquery : queries[place]? = some query)
    (h : context.runFrom [] (queries.take place) state = (.ok more, between)) :
    context.runFrom [] (queries.take (place + 1)) state =
      match context.runQuery more query between with
      | (.error e, after) => (.error e, after)
      | (.ok result, after) => (.ok (insertSorted query.name result more), after) := by
  rw [take_succ_of_getElem? hquery]
  exact runFrom_concat h query

/-- Where one of them fails, nothing more is run. -/
theorem runFrom_take_of_error {e : Error} {after : State}
    (h : context.runFrom [] (queries.take place) state = (.error e, after)) :
    context.runFrom [] (queries.take (place + 1)) state = (.error e, after) := by
  rw [List.take_add_one, runFrom_append, h]

/-- The query at a place fails as it is run behind the queries before it. -/
theorem failsAt_iff {more : Results} {between : State} (hquery : queries[place]? = some query)
    (h : context.runFrom [] (queries.take place) state = (.ok more, between)) {e : Error} :
    context.FailsAt queries state place e ↔ (context.runQuery more query between).1 = .error e := by
  rw [runQuery_eq_error_iff (isSome_lookup_of_runFrom h), FailsAt, stateAt, h]
  constructor
  · rintro ⟨other, hother, hfails⟩
    rw [hquery, Option.some.injEq] at hother
    rwa [hother]
  · exact fun hfails => ⟨query, hquery, hfails⟩

/-- No query before a place fails if they all succeed together. -/
theorem clearTo_iff : context.ClearTo queries state place ↔
    ∃ more between, context.runFrom [] (queries.take place) state = (.ok more, between) := by
  induction place with
  | zero => exact iff_of_true (fun prior hprior => absurd hprior (Nat.not_lt_zero _)) ⟨[], state, rfl⟩
  | succ place ih =>
    rw [ClearTo, Nat.forall_lt_succ_right, ← ClearTo, ih]
    symm
    constructor
    · rintro ⟨last, after, hlast⟩
      cases hplace : context.runFrom [] (queries.take place) state with
      | mk outcome between =>
        cases outcome with
        | error e =>
          rw [runFrom_take_of_error hplace] at hlast
          cases hlast
        | ok more =>
          refine ⟨⟨more, between, rfl⟩, fun e hfails => ?_⟩
          obtain ⟨query, hquery, -⟩ := id hfails
          rw [failsAt_iff hquery hplace] at hfails
          rw [runFrom_take_succ hquery hplace] at hlast
          cases hrun : context.runQuery more query between with
          | mk answer last =>
            rw [hrun] at hfails hlast
            cases hfails
            cases hlast
    · rintro ⟨⟨more, between, hplace⟩, hclear⟩
      cases hquery : queries[place]? with
      | none =>
        rw [List.take_add_one, hquery, Option.toList_none, List.append_nil]
        exact ⟨more, between, hplace⟩
      | some query =>
        rw [runFrom_take_succ hquery hplace]
        cases hrun : context.runQuery more query between with
        | mk answer last =>
          cases answer with
          | ok result => exact ⟨_, last, rfl⟩
          | error e =>
            refine absurd ?_ (hclear e)
            rw [failsAt_iff hquery hplace, hrun]

/-- The queries fail at the first place where one does, and leave the state that is left there. -/
theorem runFrom_of_failsAt {e : Error} (h : context.FailsAt queries state place e)
    (hclear : context.ClearTo queries state place) :
    context.runFrom [] queries state = (.error e, context.stateAt queries state (place + 1)) := by
  obtain ⟨more, between, hplace⟩ := clearTo_iff.mp hclear
  obtain ⟨query, hquery, -⟩ := id h
  rw [failsAt_iff hquery hplace] at h
  have hfailed := runFrom_take_succ hquery hplace
  cases hrun : context.runQuery more query between with
  | mk answer last =>
    rw [hrun] at h hfailed
    cases h
    have hsplit := runFrom_append context (queries.drop (place + 1)) (queries.take (place + 1)) [] state
    rw [List.take_append_drop, hfailed] at hsplit
    rw [hsplit, stateAt, hfailed]

/-- Where the queries fail, one of them is the first to fail. -/
theorem exists_failsAt {e : Error} {after : State} (h : context.runFrom [] queries state = (.error e, after)) :
    ∃ place, context.FailsAt queries state place e ∧ context.ClearTo queries state place := by
  obtain ⟨front, query, back, more, between, rfl, hfront, hquery⟩ := runFrom_eq_error_iff.mp h
  have hplace : context.runFrom [] ((front ++ query :: back).take front.length) state = (.ok more, between) := by
    rw [List.take_left]
    exact hfront
  have hmet : (front ++ query :: back)[front.length]? = some query := by
    rw [List.getElem?_append_right (Nat.le_refl _), Nat.sub_self]
    rfl
  refine ⟨front.length, ?_, clearTo_iff.mpr ⟨more, between, hplace⟩⟩
  rw [failsAt_iff hmet hplace, hquery]

/-- At a place there is one call or none. -/
theorem calls_stateAt (context : Context) (queries : List Query) (state : State) (place : ℕ) :
    ∃ call : Option Event, (context.stateAt queries state (place + 1)).calls =
        (context.stateAt queries state place).calls ++ call.toList ∧
      ∀ event, call = some event ↔ context.CallsAt queries state place event := by
  have hnone : context.stateAt queries state (place + 1) = context.stateAt queries state place →
      (∀ event, ¬ context.CallsAt queries state place event) →
        ∃ call : Option Event, (context.stateAt queries state (place + 1)).calls =
            (context.stateAt queries state place).calls ++ call.toList ∧
          ∀ event, call = some event ↔ context.CallsAt queries state place event := fun hstate hno => by
    rw [hstate]
    exact ⟨none, (List.append_nil _).symm, fun event => iff_of_false nofun (hno event)⟩
  cases hplace : context.runFrom [] (queries.take place) state with
  | mk outcome between =>
    cases outcome with
    | error e =>
      refine hnone ?_ fun event hevent => ?_
      · rw [stateAt, stateAt, runFrom_take_of_error hplace, hplace]
      · obtain ⟨more, met, hclear⟩ := clearTo_iff.mp hevent.1
        rw [hplace] at hclear
        cases hclear
    | ok more =>
      have hclear : context.ClearTo queries state place := clearTo_iff.mpr ⟨more, between, hplace⟩
      cases hquery : queries[place]? with
      | none =>
        refine hnone ?_ fun event ⟨_, query, hmet, _⟩ => ?_
        · rw [stateAt, stateAt, List.take_add_one, hquery, Option.toList_none, List.append_nil]
        · rw [hquery] at hmet
          cases hmet
      | some query =>
        have hbetween : context.stateAt queries state place = between := congrArg Prod.snd hplace
        have hafter : context.stateAt queries state (place + 1) = (context.runQuery more query between).2 := by
          rw [stateAt, runFrom_take_succ hquery hplace]
          rcases context.runQuery more query between with ⟨_ | _, _⟩ <;> rfl
        obtain ⟨call, hcalls, hcall⟩ := runQuery_calls context (isSome_lookup_of_runFrom hplace) query between
        rw [hafter, hbetween]
        refine ⟨call, hcalls, fun event => ?_⟩
        rw [hcall, CallsAt, hbetween, hquery]
        simp [hclear]

/-- Queries that succeed have their results under their names. -/
theorem yields_of_runFrom {results : Results} {after : State}
    (h : context.runFrom [] queries state = (.ok results, after)) (hquery : queries[place]? = some query) :
    ∃ result, (query.name, result) ∈ results ∧
      context.Yields query (context.stateAt queries state place) result := by
  induction queries using List.reverseRecOn generalizing results after with
  | nil => cases hquery
  | append_singleton front last ih =>
    obtain ⟨more, between, result, hfront, hlast, rfl⟩ := exists_of_runFrom_concat h
    have hnew : last.name ∉ more.map Prod.fst := isSome_lookup_eq_false_iff.mp (fresh_of_ok hlast)
    have hinsert := insertSorted_perm hnew result
    by_cases hplace : place < front.length
    · rw [List.getElem?_append_left hplace] at hquery
      obtain ⟨found, hmem, hyields⟩ := ih hfront hquery
      refine ⟨found, hinsert.mem_iff.mpr (List.mem_cons_of_mem _ hmem), ?_⟩
      rwa [stateAt, List.take_append_of_le_length hplace.le]
    · have heq : place = front.length := by
        have hbound := (List.getElem?_eq_some_iff.mp hquery).1
        rw [List.length_append, List.length_singleton] at hbound
        omega
      subst heq
      rw [List.getElem?_append_right (Nat.le_refl _), Nat.sub_self] at hquery
      cases hquery
      refine ⟨result, hinsert.mem_iff.mpr List.mem_cons_self, ?_⟩
      rw [stateAt, List.take_left, hfront]
      exact yields_of_ok (isSome_lookup_of_runFrom hfront) hlast

end

/-- A script fails exactly where a query fails, with the first obstacle of the first query that does, and leaves
the state of a script that ends there. Otherwise it has one result for each query, under its name. A query makes
one call if nothing keeps it from it and all queries before it succeed, and none otherwise. -/
theorem run_aborts (context : Context) (script : Script) (state : State) :
    let failsFirst place e := context.FailsAt script.statements state place e ∧
      context.ClearTo script.statements state place
    (∀ e, (context.run script state).1 = .error e ↔ ∃ place, failsFirst place e) ∧
    (∀ place e, failsFirst place e →
      context.run script state = (.error e, (context.run ⟨script.statements.take (place + 1)⟩ state).2)) ∧
    (∀ results, (context.run script state).1 = .ok results →
      (results.map Prod.fst).Perm (script.statements.map Query.name) ∧ (results.map Prod.fst).Nodup ∧
      ∀ place query, script.statements[place]? = some query → ∃ result, (query.name, result) ∈ results ∧
        context.Yields query (context.stateAt script.statements state place) result) ∧
    ∀ place, ∃ call : Option Event,
      (context.stateAt script.statements state (place + 1)).calls =
        (context.stateAt script.statements state place).calls ++ call.toList ∧
      ∀ event, call = some event ↔ context.CallsAt script.statements state place event := by
  refine ⟨fun e => ⟨fun h => exists_failsAt (Prod.ext h rfl), ?_⟩, fun place e ⟨h, hclear⟩ =>
    runFrom_of_failsAt h hclear, fun results h => ?_, calls_stateAt context script.statements state⟩
  · rintro ⟨place, h, hclear⟩
    exact congrArg Prod.fst (runFrom_of_failsAt h hclear)
  · have hrun : context.runFrom [] script.statements state = (.ok results, (context.run script state).2) :=
      Prod.ext h rfl
    obtain ⟨hperm, hnodup⟩ := names_of_runFrom hrun
    exact ⟨hperm, hperm.nodup_iff.mpr hnodup, fun place query hquery => yields_of_runFrom hrun hquery⟩

end Context
end SelectLang
