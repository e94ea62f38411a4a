/-
# Whose results a script has

In a fresh session the cache holds plans of the queries that were run, and of no others (`Cache.HoldsFor`). A
query whose name was not used before has a key of its own, so it is compiled when it is met: each result of a
script is that of a plan which its very query was compiled to (`Context.exists_plan_of_mem`), even where the cache
would confuse queries over several scripts.

Key definitions: `Cache.HoldsFor`.
Key theorems: `Cache.HoldsFor.fetch_eq_compile`, `Context.holdsFor_of_runFrom`, `Context.exists_plan_of_mem`.
-/
import Mathlib
import SelectLang.Proofs.Session.Aborts
import SelectLang.Proofs.Session.Independence

namespace SelectLang

namespace Cache

variable {cache : Cache} {queries : List Query} {source : Source} {query : Query}

/-- Every plan that is held is under the key of one of the queries. -/
def HoldsFor (cache : Cache) (queries : List Query) : Prop :=
  ∀ key plan, cache.get? key = some plan → ∃ source, ∃ query ∈ queries, key = .of source query

theorem holdsFor_empty : empty.HoldsFor [] := fun _ _ h => by
  simp [get?, empty] at h

/-- A call adds at most the key of its query. -/
theorem HoldsFor.fetch (h : cache.HoldsFor queries) (hsettled : cache.IsSettled) (source : Source)
    (query : Query) : (cache.fetch source query).2.HoldsFor (queries ++ [query]) := by
  intro key plan hget
  by_cases hkey : key = .of source query
  · exact ⟨source, query, by simp, hkey⟩
  · rw [fetch_eq hsettled, get?_grow hsettled hkey] at hget
    obtain ⟨held, earlier, hmem, heq⟩ := h key plan hget
    exact ⟨held, earlier, List.mem_append_left _ hmem, heq⟩

/-- A query of another name than those before it is compiled. -/
theorem HoldsFor.fetch_eq_compile (h : cache.HoldsFor queries) (hsettled : cache.IsSettled)
    (hqueries : ∀ earlier ∈ queries, earlier.wellFormed Binary64.isUnsigned = true)
    (hquery : query.wellFormed Binary64.isUnsigned = true) (hnew : query.name ∉ queries.map Query.name) :
    (cache.fetch source query).1 = query.compile source := by
  have hnone : cache.get? (.of source query) = none := by
    rw [Option.eq_none_iff_forall_ne_some]
    intro plan hget
    obtain ⟨held, earlier, hmem, hkey⟩ := h _ plan hget
    have hname : query.name = earlier.name := Query.name_eq_of_key hquery (hqueries earlier hmem) hkey
    exact hnew (hname ▸ List.mem_map_of_mem hmem)
  rw [fetch_eq hsettled, answer, hnone]

end Cache

namespace Context

variable {context : Context} {queries : List Query} {results : Results} {state after : State}

theorem isTidy_of_runFrom (hstate : state.cache = .empty)
    (h : context.runFrom [] queries state = (.ok results, after)) : after.cache.IsTidy := by
  have hafter := @isTidy_runFrom context queries [] state (hstate ▸ Cache.isTidy_empty)
  rwa [h] at hafter

/-- The cache holds plans of the queries that were run. -/
theorem holdsFor_of_runFrom (hstate : state.cache = .empty)
    (h : context.runFrom [] queries state = (.ok results, after)) : after.cache.HoldsFor queries := by
  induction queries using List.reverseRecOn generalizing results after with
  | nil =>
    cases h
    rw [hstate]
    exact Cache.holdsFor_empty
  | append_singleton front query ih =>
    obtain ⟨more, between, result, hfront, hquery, -⟩ := exists_of_runFrom_concat h
    obtain ⟨source, plan, -, -, hcache⟩ := exists_planned hquery
    rw [hcache]
    exact (ih hfront).fetch (isTidy_of_runFrom hstate hfront).settled source query

/-- **Each result is that of its own query.** In a fresh session a result of a script stands under the name of a
query, and a plan that the query is compiled to over the source of that name has it on some records. -/
theorem exists_plan_of_mem (hstate : state.cache = .empty)
    (hform : ∀ query ∈ queries, query.wellFormed Binary64.isUnsigned = true)
    (h : context.runFrom [] queries state = (.ok results, after)) {name : String} {result : QueryResult}
    (hmem : (name, result) ∈ results) :
    ∃ query ∈ queries, query.name = name ∧ ∃ source plan records, context.findSource name = .ok source ∧
      query.compile source = .ok plan ∧ plan.run records = .ok result := by
  induction queries using List.reverseRecOn generalizing results after with
  | nil =>
    cases h
    cases hmem
  | append_singleton front query ih =>
    obtain ⟨more, between, last, hfront, hquery, rfl⟩ := exists_of_runFrom_concat h
    have hnew : query.name ∉ more.map Prod.fst := isSome_lookup_eq_false_iff.mp (fresh_of_ok hquery)
    rcases List.mem_cons.mp ((insertSorted_perm hnew last).mem_iff.mp hmem) with heq | hmem
    · cases heq
      obtain ⟨source, plan, records, hsource, hfetch, -, hrun⟩ :=
        yields_of_ok (isSome_lookup_of_runFrom hfront) hquery
      have hnext : query.name ∉ front.map Query.name := by
        rwa [← (names_of_runFrom hfront).1.mem_iff]
      have hcompile : (between.cache.fetch source query).1 = query.compile source :=
        (holdsFor_of_runFrom hstate hfront).fetch_eq_compile (isTidy_of_runFrom hstate hfront).settled
          (fun earlier hearlier => hform earlier (List.mem_append_left _ hearlier)) (hform query (by simp)) hnext
      exact ⟨query, by simp, rfl, source, plan, records, hsource, hcompile.symm.trans hfetch, hrun⟩
    · obtain ⟨earlier, hearlier, hrest⟩ :=
        ih (fun earlier hearlier => hform earlier (List.mem_append_left _ hearlier)) hfront hmem
      exact ⟨earlier, List.mem_append_left _ hearlier, hrest⟩

end Context
end SelectLang
