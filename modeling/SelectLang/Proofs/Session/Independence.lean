/-
# The queries of a script do not depend on each other

A query reads the cache under its own key only. The keys of two queries that were read off texts differ when
their names do, even where both names are of one source, as canonical texts are read back
(`Query.name_eq_of_key`). So what one query of a script leaves in the cache is not seen by another, and two
queries that follow each other may change places (`Context.runFrom_swap`): the results are the same, and the
caches hold the same in another order (`Cache.Alike`). From there caches that are alike are not told apart
(`Context.runFrom_alike`).

The resolvers must not tell the calls apart either: what a member comes to may not depend on the number of the
scope that it is called in (`Context.IsSteady`).

Key definitions: `Cache.IsTidy`, `Cache.Alike`, `Cache.growth`, `Context.IsSteady`.
Key theorems: `Query.name_eq_of_key`, `Cache.fetch_eq`, `Context.runQuery_alike`, `Context.runFrom_swap`,
`Context.run_permuted`.
-/
import Mathlib
import SelectLang.Proofs.Plan.Transparency
import SelectLang.Proofs.Session.Steps
import SelectLang.Proofs.Text.Entries

namespace SelectLang

/-! ### Keys -/

/-- Over whatever sources, the keys of queries of different names differ. -/
theorem Query.name_eq_of_key {query other : Query} (h : query.wellFormed Binary64.isUnsigned = true)
    (hother : other.wellFormed Binary64.isUnsigned = true) {source source' : Source}
    (hkey : PlanKey.of source query = .of source' other) : query.name = other.name := by
  have hread := Query.parse_render_reread (Call.wellFormed_normalized h)
  have htext : query.normalized.render = other.normalized.render := congrArg PlanKey.text hkey
  rw [htext, Query.parse_render_reread (Call.wellFormed_normalized hother), Except.ok.injEq] at hread
  -- neither the normal form nor reading again changes the source
  exact (congrArg Query.name hread).symm

/-! ### Caches -/

namespace Cache

variable {cache other : Cache}

/-- No slot is empty, and no two have one key. -/
structure IsTidy (cache : Cache) : Prop where
  settled : cache.IsSettled
  keys : (cache.slots.map Prod.fst).Nodup

theorem isTidy_empty : empty.IsTidy where
  settled _ h := absurd h List.not_mem_nil
  keys := .nil

/-- What is held is the same, and so is the number of compilations. -/
structure Alike (cache other : Cache) : Prop where
  slots : cache.slots.Perm other.slots
  compilations : cache.compilations = other.compilations

theorem Alike.refl (cache : Cache) : cache.Alike cache := ⟨.refl _, rfl⟩

theorem Alike.trans {last : Cache} (h : cache.Alike other) (h' : other.Alike last) : cache.Alike last :=
  ⟨h.slots.trans h'.slots, h.compilations.trans h'.compilations⟩

theorem Alike.isTidy (h : cache.Alike other) (htidy : cache.IsTidy) : other.IsTidy where
  settled slot hslot := htidy.settled slot (h.slots.mem_iff.mpr hslot)
  keys := (h.slots.map Prod.fst).nodup_iff.mp htidy.keys

theorem Alike.get?_eq (h : cache.Alike other) (htidy : cache.IsTidy) (key : PlanKey) :
    cache.get? key = other.get? key := by
  unfold get?
  rw [lookup_eq_of_perm h.slots htidy.keys]

/-- The slots that a call makes, and how often it compiles. -/
def growth (cache : Cache) (source : Source) (query : Query) : List (PlanKey × Option Plan) × ℕ :=
  match cache.get? (.of source query) with
  | some _ => ([], 0)
  | none =>
    match query.compile source with
    | .ok plan => ([(.of source query, some plan)], 1)
    | .error _ => ([], 1)

/-- What a call is answered with. -/
def answer (cache : Cache) (source : Source) (query : Query) : Except Error Plan :=
  match cache.get? (.of source query) with
  | some plan => .ok plan
  | none => query.compile source

/-- The cache with more slots at the end and more compilations. -/
def grow (cache : Cache) (growth : List (PlanKey × Option Plan) × ℕ) : Cache :=
  ⟨cache.slots ++ growth.1, cache.compilations + growth.2⟩

theorem fetch_eq (h : cache.IsSettled) (source : Source) (query : Query) :
    cache.fetch source query = (cache.answer source query, cache.grow (cache.growth source query)) := by
  unfold answer grow growth
  rcases fetch_cases h source query with
    ⟨plan, hget, hfetch⟩ | ⟨hget, ⟨plan, hplan, hfetch⟩ | ⟨e, he, hfetch⟩⟩
  · rw [hfetch, hget]
    simp
  · rw [hfetch, hget, hplan]
  · rw [hfetch, hget, he]
    simp

/-- The key of the call is all of the cache that is read. -/
theorem growth_congr {source : Source} {query : Query}
    (h : cache.get? (.of source query) = other.get? (.of source query)) :
    cache.growth source query = other.growth source query := by
  unfold growth
  rw [h]

theorem answer_congr {source : Source} {query : Query}
    (h : cache.get? (.of source query) = other.get? (.of source query)) :
    cache.answer source query = other.answer source query := by
  unfold answer
  rw [h]

/-- A call leaves what is held under other keys. -/
theorem get?_grow (h : cache.IsSettled) {source : Source} {query : Query} {key : PlanKey}
    (hne : key ≠ .of source query) : (cache.grow (cache.growth source query)).get? key = cache.get? key := by
  unfold grow growth
  cases hget : cache.get? (.of source query) with
  | some plan =>
    dsimp only
    rw [List.append_nil]
    rfl
  | none =>
    cases query.compile source with
    | ok plan =>
      dsimp only
      rw [get?_append (lookup_of_get? h hget), if_neg hne]
    | error e =>
      dsimp only
      rw [List.append_nil]
      rfl

/-- Caches that are alike answer alike and stay alike. -/
theorem Alike.fetch (h : cache.Alike other) (htidy : cache.IsTidy) (source : Source) (query : Query) :
    (cache.fetch source query).1 = (other.fetch source query).1 ∧
      (cache.fetch source query).2.Alike (other.fetch source query).2 := by
  have hget := h.get?_eq htidy (.of source query)
  rw [fetch_eq htidy.settled, fetch_eq (h.isTidy htidy).settled, growth_congr hget]
  exact ⟨answer_congr hget, h.slots.append_right _, congrArg (· + _) h.compilations⟩

namespace IsTidy

variable (h : cache.IsTidy)
include h

theorem fetch (source : Source) (query : Query) : (cache.fetch source query).2.IsTidy := by
  rcases fetch_cases h.settled source query with
    ⟨plan, hget, hfetch⟩ | ⟨hget, ⟨plan, hplan, hfetch⟩ | ⟨e, he, hfetch⟩⟩
  · rw [hfetch]
    exact h
  · rw [hfetch]
    refine ⟨fun slot hslot => ?_, nodup_map_append h.keys ?_⟩
    · rcases List.mem_append.mp hslot with hslot | hslot
      · exact h.settled slot hslot
      · rw [List.mem_singleton.mp hslot]
        rfl
    · rw [← isSome_lookup_eq_false_iff, lookup_of_get? h.settled hget]
      rfl
  · rw [hfetch]
    exact ⟨h.settled, h.keys⟩

variable {source source' : Source} {query query' : Query}
  (hne : PlanKey.of source query ≠ .of source' query')
include hne

/-- A call behind one for another key is answered and grows the cache as it does without it. -/
theorem fetch_behind : (cache.fetch source query).2.fetch source' query' =
    ((cache.fetch source' query').1, (cache.fetch source query).2.grow (cache.growth source' query')) := by
  have hbetween := (h.fetch source query).settled
  have hget : (cache.fetch source query).2.get? (.of source' query') = cache.get? (.of source' query') := by
    rw [fetch_eq h.settled]
    exact get?_grow h.settled hne.symm
  rw [fetch_eq hbetween, fetch_eq h.settled source' query', answer_congr hget, growth_congr hget]

/-- Calls for two keys may change places. -/
theorem fetch_swap : ((cache.fetch source query).2.fetch source' query').2.Alike
    ((cache.fetch source' query').2.fetch source query).2 := by
  rw [h.fetch_behind hne, h.fetch_behind hne.symm, fetch_eq h.settled, fetch_eq h.settled]
  unfold grow
  refine ⟨?_, Nat.add_right_comm _ _ _⟩
  dsimp only
  rw [List.append_assoc, List.append_assoc]
  exact List.perm_append_comm.append_left _

end IsTidy
end Cache

/-! ### One query -/

namespace Context

variable {context : Context}

/-- What a member of the context comes to does not depend on the scope that it is called in. -/
def IsSteady (context : Context) : Prop :=
  ∀ services, context.executor = .resolvers services → ∀ schema ∈ context.schemas,
    ∀ source ∈ schema.sources, ∀ binding, source.binding = some binding → ∀ a b,
      (binding.member.resolve ⟨a, services⟩).outcome = (binding.member.resolve ⟨b, services⟩).outcome

section

variable {source : Source} {plan : Plan}

theorem withRecords_cache (context : Context) (source : Source) (plan : Plan) (state : State) :
    (context.withRecords source plan.run state).2.cache = state.cache := by
  cases hexecutor : context.executor with
  | fixed records => rw [withRecords_of_fixed hexecutor]
  | resolvers services =>
    cases hbinding : source.binding with
    | none => rw [withRecords_of_binding_none hexecutor hbinding]
    | some binding =>
      rw [withRecords_eq hexecutor hbinding]
      rfl

theorem IsSteady.withRecords (h : context.IsSteady) {name : String}
    (hsource : context.findSource name = .ok source) (plan : Plan) (a b : State) :
    (context.withRecords source plan.run a).1 = (context.withRecords source plan.run b).1 := by
  cases hexecutor : context.executor with
  | fixed records => rw [withRecords_of_fixed hexecutor, withRecords_of_fixed hexecutor]
  | resolvers services =>
    cases hbinding : source.binding with
    | none =>
      rw [withRecords_of_binding_none hexecutor hbinding, withRecords_of_binding_none hexecutor hbinding]
    | some binding =>
      obtain ⟨schema, hschema, hmem, -⟩ := exists_of_findSource hsource
      have houtcome : a.outcome services binding = b.outcome services binding :=
        h services hexecutor schema hschema source hmem binding hbinding _ _
      rw [withRecords_eq hexecutor hbinding, withRecords_eq hexecutor hbinding, houtcome]

end

section

variable {results : Results} {query : Query} {state after : State} {result : QueryResult}

/-- A query that succeeds has a plan, and leaves the cache that the plan was got from. -/
theorem exists_planned (h : context.runQuery results query state = (.ok result, after)) :
    ∃ source plan, context.Planned results query state source plan ∧
      (context.withRecords source plan.run (state.plan source query).2).1 = .ok result ∧
      after.cache = (state.cache.fetch source query).2 := by
  have hplanned : ∃ source plan, context.Planned results query state source plan := by
    have hrun := context.queryRun results query state
    generalize hanswer : context.runQuery results query state = answer at hrun
    cases hrun with
    | fixed hplanned | noMember hplanned | called hplanned => exact ⟨_, _, hplanned⟩
    | _ =>
      rw [h] at hanswer
      cases hanswer
  obtain ⟨source, plan, hplanned⟩ := hplanned
  have hrun := hplanned.runQuery_eq.symm.trans h
  have hcache := context.withRecords_cache source plan (state.plan source query).2
  rw [hrun] at hcache
  exact ⟨source, plan, hplanned, congrArg Prod.fst hrun, hcache⟩

/-- A query that has a plan succeeds if the plan does in any state. -/
theorem Planned.exists_run (h : context.IsSteady) {source : Source} {plan : Plan}
    (hplanned : context.Planned results query state source plan) {met : State}
    (hresult : (context.withRecords source plan.run met).1 = .ok result) :
    ∃ after, context.runQuery results query state = (.ok result, after) ∧
      after.cache = (state.cache.fetch source query).2 := by
  refine ⟨_, Prod.ext ?_ rfl, ?_⟩
  · rw [hplanned.runQuery_eq, ← hresult]
    exact h.withRecords hplanned.found plan _ _
  · rw [hplanned.runQuery_eq]
    exact context.withRecords_cache source plan _

theorem isTidy_runQuery (h : state.cache.IsTidy) {outcome : Except Error QueryResult}
    (hrun : context.runQuery results query state = (outcome, after)) : after.cache.IsTidy := by
  have hcases := context.queryRun results query state
  generalize hanswer : context.runQuery results query state = answer at hcases
  rw [hrun] at hanswer
  cases hcases with
  | duplicate | unknown =>
    cases hanswer
    exact h
  | noPlan | fixed | noMember | called =>
    cases hanswer
    exact h.fetch _ query

end

/-- Where the caches are alike a query has the same result, and they stay alike. -/
theorem runQuery_alike (h : context.IsSteady) {results : Results} {query : Query} {a b after : State}
    {result : QueryResult} (htidy : a.cache.IsTidy) (halike : a.cache.Alike b.cache)
    (hrun : context.runQuery results query a = (.ok result, after)) :
    ∃ after', context.runQuery results query b = (.ok result, after') ∧ after.cache.Alike after'.cache := by
  obtain ⟨source, plan, hplanned, hresult, hcache⟩ := exists_planned hrun
  obtain ⟨hanswer, hgrown⟩ := halike.fetch htidy source query
  have hplanned' : context.Planned results query b source plan :=
    ⟨hplanned.fresh, hplanned.found, hanswer.symm.trans hplanned.compiled⟩
  obtain ⟨after', hrun', hcache'⟩ := hplanned'.exists_run h hresult
  refine ⟨after', hrun', ?_⟩
  rw [hcache, hcache']
  exact hgrown

/-! ### Two queries -/

theorem fresh_insertSorted {results : Results} {name other : String}
    (h : (results.lookup name).isSome = false) (result : QueryResult) :
    ((insertSorted name result results).lookup other).isSome = false ↔
      other ≠ name ∧ (results.lookup other).isSome = false := by
  rw [isSome_lookup_eq_false_iff] at h
  rw [isSome_lookup_eq_false_iff, isSome_lookup_eq_false_iff, mem_names_insertSorted h, not_or]

/-- Two queries that follow each other and succeed may change places. -/
theorem runQuery_swap (h : context.IsSteady) {results : Results} {one two : Query}
    (hone : one.wellFormed Binary64.isUnsigned = true) (htwo : two.wellFormed Binary64.isUnsigned = true)
    {state between after : State} {result result' : QueryResult} (htidy : state.cache.IsTidy)
    (hfirst : context.runQuery results one state = (.ok result, between))
    (hsecond : context.runQuery (insertSorted one.name result results) two between = (.ok result', after)) :
    one.name ≠ two.name ∧ ∃ between' after',
      context.runQuery results two state = (.ok result', between') ∧
      context.runQuery (insertSorted two.name result' results) one between' = (.ok result, after') ∧
      after.cache.Alike after'.cache := by
  obtain ⟨source, plan, hplanned, hresult, hcache⟩ := exists_planned hfirst
  obtain ⟨source', plan', hplanned', hresult', hcache'⟩ := exists_planned hsecond
  obtain ⟨hname, hfresh⟩ := (fresh_insertSorted hplanned.fresh result).mp hplanned'.fresh
  have hkey : PlanKey.of source one ≠ .of source' two := fun hkey =>
    hname (Query.name_eq_of_key hone htwo hkey).symm
  -- the second query is answered by the cache as if the first had not been asked for
  have hcompiled := hplanned'.compiled
  rw [hcache, htidy.fetch_behind hkey] at hcompiled
  have hmoved : context.Planned results two state source' plan' := ⟨hfresh, hplanned'.found, hcompiled⟩
  obtain ⟨between', hbetween, hmet⟩ := hmoved.exists_run h hresult'
  have hagain : (between'.cache.fetch source one).1 = .ok plan := by
    rw [hmet, htidy.fetch_behind hkey.symm]
    exact hplanned.compiled
  have hfresh' := (fresh_insertSorted hfresh result').mpr ⟨hname.symm, hplanned.fresh⟩
  obtain ⟨after', hafter, hlast⟩ := Planned.exists_run h ⟨hfresh', hplanned.found, hagain⟩ hresult
  refine ⟨hname.symm, between', after', hbetween, hafter, ?_⟩
  rw [hcache', hcache, hlast, hmet]
  exact htidy.fetch_swap hkey

/-! ### Scripts -/

theorem isTidy_runFrom : ∀ (queries : List Query) (results : Results) {state : State}, state.cache.IsTidy →
    (context.runFrom results queries state).2.cache.IsTidy
  | [], _, _, h => h
  | query :: queries, results, state, h => by
    rw [runFrom]
    cases hquery : context.runQuery results query state with
    | mk outcome between =>
      have hbetween := isTidy_runQuery h hquery
      cases outcome with
      | error e => exact hbetween
      | ok result => exact isTidy_runFrom queries _ hbetween

/-- Queries that succeed do so wherever the caches are alike. -/
theorem runFrom_alike (h : context.IsSteady) : ∀ {queries : List Query} {results last : Results}
    {a b after : State}, a.cache.IsTidy → a.cache.Alike b.cache →
    context.runFrom results queries a = (.ok last, after) →
      ∃ after', context.runFrom results queries b = (.ok last, after') ∧ after.cache.Alike after'.cache
  | [], _, _, _, b, _, _, halike, hrun => by
    cases hrun
    exact ⟨b, rfl, halike⟩
  | query :: queries, results, _, a, _, _, htidy, halike, hrun => by
    obtain ⟨result, between, hquery, hrest⟩ := runFrom_cons_eq_ok_iff.mp hrun
    obtain ⟨between', hquery', hbetween⟩ := runQuery_alike h htidy halike hquery
    obtain ⟨after', hrest', hafter⟩ := runFrom_alike h (isTidy_runQuery htidy hquery) hbetween hrest
    exact ⟨after', runFrom_cons_eq_ok_iff.mpr ⟨result, between', hquery', hrest'⟩, hafter⟩

/-- Queries that succeed do so if the first two change places. -/
theorem runFrom_swap (h : context.IsSteady) {one two : Query} {queries : List Query}
    (hone : one.wellFormed Binary64.isUnsigned = true) (htwo : two.wellFormed Binary64.isUnsigned = true)
    {results last : Results} (hresults : Ascending results) {state after : State} (htidy : state.cache.IsTidy)
    (hrun : context.runFrom results (one :: two :: queries) state = (.ok last, after)) :
    ∃ after', context.runFrom results (two :: one :: queries) state = (.ok last, after') ∧
      after.cache.Alike after'.cache := by
  obtain ⟨result, between, hfirst, hrest⟩ := runFrom_cons_eq_ok_iff.mp hrun
  obtain ⟨result', behind, hsecond, hqueries⟩ := runFrom_cons_eq_ok_iff.mp hrest
  obtain ⟨hne, between', behind', hfirst', hsecond', halike⟩ := runQuery_swap h hone htwo htidy hfirst hsecond
  have hcomm := insertSorted_comm hresults hne (isSome_lookup_eq_false_iff.mp (fresh_of_ok hfirst))
    (isSome_lookup_eq_false_iff.mp (fresh_of_ok hfirst')) result result'
  have hbehind := isTidy_runQuery (isTidy_runQuery htidy hfirst) hsecond
  obtain ⟨after', hqueries', hafter⟩ := runFrom_alike h hbehind halike hqueries
  rw [hcomm] at hqueries'
  have hrest' := runFrom_cons_eq_ok_iff.mpr ⟨result, behind', hsecond', hqueries'⟩
  exact ⟨after', runFrom_cons_eq_ok_iff.mpr ⟨result', between', hfirst', hrest'⟩, hafter⟩

/-- Queries that succeed do so in any order, with the same results. -/
theorem runFrom_perm (h : context.IsSteady) {queries others : List Query} (hperm : queries.Perm others)
    (hform : ∀ query ∈ queries, query.wellFormed Binary64.isUnsigned = true) {results last : Results}
    (hresults : Ascending results) {state after : State} (htidy : state.cache.IsTidy)
    (hrun : context.runFrom results queries state = (.ok last, after)) :
    ∃ after', context.runFrom results others state = (.ok last, after') ∧ after.cache.Alike after'.cache := by
  induction hperm generalizing results state after with
  | nil => exact ⟨after, hrun, .refl _⟩
  | cons query hperm ih =>
    obtain ⟨result, between, hquery, hrest⟩ := runFrom_cons_eq_ok_iff.mp hrun
    obtain ⟨after', hrest', hafter⟩ := ih (fun q hq => hform q (List.mem_cons_of_mem query hq))
      hresults.insertSorted (isTidy_runQuery htidy hquery) hrest
    exact ⟨after', runFrom_cons_eq_ok_iff.mpr ⟨result, between, hquery, hrest'⟩, hafter⟩
  | swap two one queries =>
    have htwo := hform two (List.mem_cons_of_mem one List.mem_cons_self)
    exact runFrom_swap h (hform one List.mem_cons_self) htwo hresults htidy hrun
  | trans hfirst hsecond ih ih' =>
    obtain ⟨between, hbetween, halike⟩ := ih hform hresults htidy hrun
    obtain ⟨after', hafter, halike'⟩ :=
      ih' (fun q hq => hform q (hfirst.mem_iff.mpr hq)) hresults htidy hbetween
    exact ⟨after', hafter, halike.trans halike'⟩

/-! ### Sessions -/

theorem isTidy_serve (request : Request) {state : State} (h : state.cache.IsTidy) :
    (context.serve request state).2.cache.IsTidy := by
  cases request with
  | tree script => exact isTidy_runFrom script.statements [] h
  | text text =>
    rw [serve, execute]
    cases Script.parse text with
    | error d => exact h
    | ok script => exact isTidy_runFrom script.statements [] h

theorem isTidy_stateAfter : ∀ (requests : List Request) {state : State}, state.cache.IsTidy →
    (context.stateAfter requests state).cache.IsTidy
  | [], _, h => h
  | request :: requests, _, h => isTidy_stateAfter requests (isTidy_serve request h)

/-- Where a member comes to the same whenever it is called, and whatever was run before: a script of queries
that were read off texts has the same results if its queries stand in any other order, and leaves a cache that
holds the same plans under the same keys, out of as many compilations. -/
theorem run_permuted (context : Context) (h : context.IsSteady) (requests : List Request) (first : ℕ)
    (script permuted : Script) (hparsed : ∀ query ∈ script.statements, query.IsParsed)
    (hperm : script.statements.Perm permuted.statements) (results : Results)
    (hrun : (context.run script (context.stateAfter requests (.initial first))).1 = .ok results) :
    let before := context.stateAfter requests (.initial first)
    let cache := (context.run script before).2.cache
    let cache' := (context.run permuted before).2.cache
    (context.run permuted before).1 = .ok results ∧ cache.slots.Perm cache'.slots ∧
      (∀ key, cache.get? key = cache'.get? key) ∧ cache.size = cache'.size ∧
      cache.slotCount = cache'.slotCount ∧ cache.compilations = cache'.compilations := by
  intro before cache cache'
  have htidy : before.cache.IsTidy := isTidy_stateAfter requests Cache.isTidy_empty
  have hresults : Ascending ([] : Results) := .nil
  obtain ⟨after, hrun', halike⟩ := runFrom_perm h hperm (fun query hquery => (hparsed query hquery).wellFormed)
    hresults htidy (Prod.ext hrun rfl)
  have hafter : cache' = after.cache := congrArg (fun answer => answer.2.cache) hrun'
  have halike' : cache.Alike cache' := by
    rw [hafter]
    exact halike
  have hcache : cache.IsTidy := isTidy_runFrom script.statements [] htidy
  exact ⟨congrArg Prod.fst hrun', halike'.slots, halike'.get?_eq hcache, halike'.slots.countP_eq _,
    halike'.slots.length_eq, halike'.compilations⟩

end Context

/-- A member that lists the same books whenever it is called. -/
def getBooks : Member := .typed "GetBooks" fun _ =>
  ⟨["close"], .ok [.object [("Title", .string "Emma")], .object [("Title", .string "Ulysses")]]⟩

/-- One source, which goes by two names. -/
def library : Context :=
  ⟨schemasOf [([⟨"Book", [("Title", .string)]⟩], [⟨"Library", [getBooks]⟩])], .resolvers []⟩

theorem library_isSteady : library.IsSteady := by
  intro services hexecutor schema hschema source hsource binding hbinding a b
  have hschema' : schema ∈ [Schema.mk [⟨⟨0, 0⟩, ["book", "books"], .ofShape ⟨"Book", [("Title", .string)]⟩,
    some ⟨"Library", getBooks⟩⟩]] := hschema
  rw [List.mem_singleton] at hschema'
  subst hschema'
  rw [List.mem_singleton] at hsource
  subst hsource
  cases hbinding
  rfl

def titlesFrom (name : String) : Query :=
  ⟨⟨[name]⟩, [.expression (.path ⟨["title"]⟩) none], .all, [], none, none, none⟩

/-- The source is read under both of its names, when there is a plan for one of them. -/
theorem run_permuted_synonyms :
    let before := library.stateAfter [.tree ⟨[titlesFrom "book"]⟩] (.initial 7)
    ∃ results, (library.run ⟨[titlesFrom "book", titlesFrom "books"]⟩ before).1 = .ok results ∧
      (library.run ⟨[titlesFrom "books", titlesFrom "book"]⟩ before).1 = .ok results := by
  intro before
  have hparsed : ∀ query ∈ [titlesFrom "book", titlesFrom "books"], query.IsParsed := by
    intro query hquery
    rw [List.mem_pair] at hquery
    rcases hquery with rfl | rfl <;> exact Or.inl ⟨_, parse_render_query (by decide)⟩
  cases hrun : (library.run ⟨[titlesFrom "book", titlesFrom "books"]⟩ before).1 with
  | error e =>
    have hok : (library.run ⟨[titlesFrom "book", titlesFrom "books"]⟩ before).1.isOk = true := by decide +kernel
    rw [hrun] at hok
    cases hok
  | ok results =>
    exact ⟨results, rfl, (Context.run_permuted library library_isSteady _ 7 _
      ⟨[titlesFrom "books", titlesFrom "book"]⟩ hparsed (.swap _ _ _) results hrun).1⟩

end SelectLang
