/-
# Plans are made once

What a cache hands out again is not an equal plan but the same one. To tell the two apart, compilations are
numbered and a plan carries the number of the compilation that it came out of: it is an *instance*, of which
there is one for a number. The cache is what is left of the numbered one without the numbers
(`NumberedCache.toCache_fetch`).

Whatever is asked for, one call after the other, there is a slot for a key exactly if a call with the key was
answered with a plan. From then on the key is answered with that instance and nothing is compiled for it.
Every other call is a compilation, and the ones that fail leave the slots as they are
(`NumberedCache.Records`, `Cache.serve_records`).

Key definitions: `Instance`, `NumberedCache.fetch`, `NumberedCache.serve`, `servedKeys`.
Key theorems: `NumberedCache.toCache_fetch`, `NumberedCache.Records.fetch`, `Cache.serve_records`.
-/
import Mathlib
import SelectLang.Proofs.Plan.Transparency
import SelectLang.Proofs.Text.Entries

namespace SelectLang

/-- A plan that came out of the compilation with a number. -/
structure Instance where
  number : ℕ
  plan : Plan

/-- The cache between calls, of which the compilations are numbered. -/
structure NumberedCache where
  slots : List (PlanKey × Instance)
  compilations : ℕ

/-- What a call is answered with, by its key. -/
abbrev Answers : Type := List (PlanKey × Except Error Instance)

/-- The keys of the calls that are answered with a plan. -/
def servedKeys (answers : Answers) : Finset PlanKey :=
  (answers.filterMap fun (key, answer) => answer.toOption.map fun _ => key).toFinset

/-- How many calls are answered with an error. -/
def failures (answers : Answers) : ℕ := answers.countP fun call => !call.2.isOk

theorem mem_servedKeys {answers : Answers} {key : PlanKey} :
    key ∈ servedKeys answers ↔ ∃ held, (key, .ok held) ∈ answers := by
  rw [servedKeys, List.mem_toFinset, List.mem_filterMap]
  constructor
  · rintro ⟨⟨other, answer⟩, hmem, hkey⟩
    cases answer with
    | error e => cases hkey
    | ok held =>
      cases hkey
      exact ⟨held, hmem⟩
  · rintro ⟨held, hmem⟩
    exact ⟨_, hmem, rfl⟩

namespace NumberedCache

/-- No plan is held, and the first instance will have the number zero. -/
def empty : NumberedCache := ⟨[], 0⟩

/-- The cache without the numbers. -/
def toCache (cache : NumberedCache) : Cache :=
  ⟨cache.slots.map fun (key, held) => (key, some held.plan), cache.compilations⟩

/-- A compilation takes the next number, and its plan is kept with it. -/
def fetch (cache : NumberedCache) (source : Source) (query : Query) : Except Error Instance × NumberedCache :=
  match cache.slots.lookup (.of source query) with
  | some held => (.ok held, cache)
  | none =>
    let number := cache.compilations + 1
    match query.compile source with
    | .ok plan => (.ok ⟨number, plan⟩, ⟨cache.slots ++ [(.of source query, ⟨number, plan⟩)], number⟩)
    | .error e => (.error e, ⟨cache.slots, number⟩)

/-- The answers to calls, one after the other, and the cache behind them. -/
def serve (cache : NumberedCache) : List (Source × Query) → Answers × NumberedCache
  | [] => ([], cache)
  | (source, query) :: calls =>
    let (answer, after) := cache.fetch source query
    let (answers, last) := after.serve calls
    ((.of source query, answer) :: answers, last)

end NumberedCache

/-- The answers to calls, one after the other, and the cache behind them. -/
def Cache.serve (cache : Cache) : List (Source × Query) → List (Except Error Plan) × Cache
  | [] => ([], cache)
  | (source, query) :: calls =>
    let (answer, after) := cache.fetch source query
    let (answers, last) := after.serve calls
    (answer :: answers, last)

namespace NumberedCache

/-! ### The numbers are only added -/

theorem isSettled_toCache (cache : NumberedCache) : cache.toCache.IsSettled := by
  intro slot hslot
  obtain ⟨numbered, -, rfl⟩ := List.mem_map.mp hslot
  rfl

theorem get?_toCache (cache : NumberedCache) (key : PlanKey) :
    cache.toCache.get? key = (cache.slots.lookup key).map Instance.plan := by
  obtain ⟨slots, n⟩ := cache
  show ((slots.map fun (key, held) => (key, some held.plan)).lookup key).join = _
  induction slots with
  | nil => rfl
  | cons slot slots ih =>
    obtain ⟨other, held⟩ := slot
    rw [List.map_cons, List.lookup_cons, List.lookup_cons]
    by_cases h : key = other
    · simp [h]
    · simpa [beq_eq_false_iff_ne.mpr h] using ih

/-- A call does to the cache what it does to the numbered one. -/
theorem toCache_fetch (cache : NumberedCache) (source : Source) (query : Query) :
    cache.toCache.fetch source query =
      ((cache.fetch source query).1.map Instance.plan, (cache.fetch source query).2.toCache) := by
  unfold fetch
  rcases Cache.fetch_cases cache.isSettled_toCache source query with
    ⟨plan, hget, hfetch⟩ | ⟨hget, ⟨plan, hplan, hfetch⟩ | ⟨e, he, hfetch⟩⟩
  · rw [get?_toCache, Option.map_eq_some_iff] at hget
    obtain ⟨held, hheld, rfl⟩ := hget
    rw [hfetch, hheld]
    rfl
  · rw [get?_toCache, Option.map_eq_none_iff] at hget
    rw [hfetch, hget, hplan]
    simp [toCache, Except.map]
  · rw [get?_toCache, Option.map_eq_none_iff] at hget
    rw [hfetch, hget, he]
    rfl

/-- A call that fails is a compilation and nothing else. -/
theorem fetch_of_error {cache : NumberedCache} {source : Source} {query : Query} {e : Error}
    (h : (cache.toCache.fetch source query).1 = .error e) :
    cache.fetch source query = (.error e, ⟨cache.slots, cache.compilations + 1⟩) := by
  rw [toCache_fetch] at h
  unfold fetch at h ⊢
  cases hlookup : cache.slots.lookup (.of source query) with
  | some held =>
    rw [hlookup] at h
    cases h
  | none =>
    rw [hlookup] at h
    cases hcompile : query.compile source with
    | ok plan =>
      rw [hcompile] at h
      cases h
    | error e' =>
      rw [hcompile] at h
      cases h
      rfl

theorem toCache_serve : ∀ (calls : List (Source × Query)) (cache : NumberedCache),
    cache.toCache.serve calls =
      ((cache.serve calls).1.map fun (_, answer) => answer.map Instance.plan, (cache.serve calls).2.toCache)
  | [], _ => rfl
  | (source, query) :: calls, cache => by
    rw [Cache.serve, serve, toCache_fetch]
    dsimp only
    rw [toCache_serve calls]
    rfl

/-! ### What is recorded of the calls -/

/-- The slots are those of the calls that were answered with a plan, each made by a compilation of its own, and
the other compilations are the calls that were not. -/
structure Records (cache : NumberedCache) (past : Answers) : Prop where
  slots : ∀ key held, (key, held) ∈ cache.slots ↔ (key, .ok held) ∈ past
  keys : (cache.slots.map Prod.fst).Nodup
  numbers : (cache.slots.map fun slot => slot.2.number).Nodup
  counted : ∀ slot ∈ cache.slots, slot.2.number ≤ cache.compilations
  compilations : cache.compilations = cache.slots.length + failures past

theorem records_empty : Records empty [] where
  slots _ _ := iff_of_false List.not_mem_nil List.not_mem_nil
  keys := .nil
  numbers := .nil
  counted _ h := absurd h List.not_mem_nil
  compilations := rfl

theorem failures_append_ok (past : Answers) (key : PlanKey) (held : Instance) :
    failures (past ++ [(key, .ok held)]) = failures past := by
  rw [failures, List.countP_append]
  rfl

theorem failures_append_error (past : Answers) (key : PlanKey) (e : Error) :
    failures (past ++ [(key, .error e)]) = failures past + 1 := by
  rw [failures, List.countP_append]
  rfl

namespace Records

variable {cache : NumberedCache} {past : Answers} {key : PlanKey}

/-- A key that was answered with a plan is answered with the same instance, and nothing is compiled. -/
theorem fetch_eq (h : cache.Records past) {source : Source} {query : Query} {held : Instance}
    (hpast : (PlanKey.of source query, .ok held) ∈ past) : cache.fetch source query = (.ok held, cache) := by
  unfold NumberedCache.fetch
  rw [(lookup_eq_some_iff_mem h.keys).mpr ((h.slots _ _).mpr hpast)]

theorem repeated (h : cache.Records past) {held : Instance} (hheld : (key, held) ∈ cache.slots) :
    cache.Records (past ++ [(key, .ok held)]) where
  slots other found := by
    rw [h.slots, List.mem_append, List.mem_singleton]
    constructor
    · exact Or.inl
    · rintro (hpast | heq)
      · exact hpast
      · cases heq
        exact (h.slots _ _).mp hheld
  keys := h.keys
  numbers := h.numbers
  counted := h.counted
  compilations := by
    rw [failures_append_ok]
    exact h.compilations

theorem failed (h : cache.Records past) (e : Error) :
    Records ⟨cache.slots, cache.compilations + 1⟩ (past ++ [(key, .error e)]) where
  slots other found := by
    rw [h.slots, List.mem_append, List.mem_singleton]
    exact ⟨Or.inl, fun hor => hor.elim id nofun⟩
  keys := h.keys
  numbers := h.numbers
  counted slot hslot := (h.counted slot hslot).trans (Nat.le_succ _)
  compilations := by
    rw [failures_append_error, h.compilations, Nat.add_assoc]

theorem made (h : cache.Records past) (hnew : key ∉ cache.slots.map Prod.fst) (plan : Plan) :
    Records ⟨cache.slots ++ [(key, ⟨cache.compilations + 1, plan⟩)], cache.compilations + 1⟩
      (past ++ [(key, .ok ⟨cache.compilations + 1, plan⟩)]) where
  slots other found := by
    rw [List.mem_append, List.mem_append, h.slots, List.mem_singleton, List.mem_singleton, Prod.mk.injEq,
      Prod.mk.injEq, Except.ok.injEq]
  keys := nodup_map_append h.keys hnew
  numbers := by
    refine nodup_map_append h.numbers fun hmem => ?_
    obtain ⟨slot, hslot, hnumber⟩ := List.mem_map.mp hmem
    have hcounted := h.counted slot hslot
    rw [hnumber] at hcounted
    exact Nat.not_succ_le_self _ hcounted
  counted slot hslot := by
    rcases List.mem_append.mp hslot with hslot | hslot
    · exact (h.counted slot hslot).trans (Nat.le_succ _)
    · rw [List.mem_singleton.mp hslot]
  compilations := by
    rw [failures_append_ok, List.length_append, List.length_singleton]
    have hcompilations := h.compilations
    dsimp only
    omega

/-- One call more is recorded. -/
theorem fetch (h : cache.Records past) (source : Source) (query : Query) :
    (cache.fetch source query).2.Records
      (past ++ [(.of source query, (cache.fetch source query).1)]) := by
  unfold NumberedCache.fetch
  cases hlookup : cache.slots.lookup (.of source query) with
  | some held => exact h.repeated ((lookup_eq_some_iff_mem h.keys).mp hlookup)
  | none =>
    dsimp only
    cases query.compile source with
    | error e => exact h.failed e
    | ok plan =>
      refine h.made (fun hmem => ?_) plan
      obtain ⟨slot, hslot, hkey⟩ := List.mem_map.mp hmem
      have hne := List.lookup_eq_none_iff.mp hlookup slot hslot
      exact bne_iff_ne.mp hne hkey.symm

/-- Calls one after the other are recorded. -/
theorem serve : ∀ {calls : List (Source × Query)} {cache : NumberedCache} {past : Answers},
    cache.Records past → (cache.serve calls).2.Records (past ++ (cache.serve calls).1)
  | [], _, past, h => by
    rw [NumberedCache.serve, List.append_nil]
    exact h
  | (source, query) :: calls, cache, past, h => by
    have hrest := @serve calls _ _ (h.fetch source query)
    rw [List.append_assoc, List.singleton_append] at hrest
    exact hrest

/-- There are as many slots as keys that were answered with a plan. -/
theorem length_slots (h : cache.Records past) : cache.slots.length = (servedKeys past).card := by
  have hkeys : (cache.slots.map Prod.fst).toFinset = servedKeys past := by
    ext key
    rw [List.mem_toFinset, mem_servedKeys, List.mem_map]
    constructor
    · rintro ⟨⟨other, held⟩, hslot, rfl⟩
      exact ⟨held, (h.slots _ _).mp hslot⟩
    · rintro ⟨held, hpast⟩
      exact ⟨(key, held), (h.slots _ _).mpr hpast, rfl⟩
  rw [← hkeys, List.toFinset_card_of_nodup h.keys, List.length_map]

/-- Calls are answered with one instance exactly if they have one key. -/
theorem number_eq_iff (h : cache.Records past) {other : PlanKey} {held found : Instance}
    (hkey : (key, .ok held) ∈ past) (hother : (other, .ok found) ∈ past) :
    held.number = found.number ↔ key = other := by
  have hmem := (h.slots _ _).mpr hkey
  have hmem' := (h.slots _ _).mpr hother
  constructor
  · intro hnumber
    exact congrArg Prod.fst (List.inj_on_of_nodup_map h.numbers hmem hmem' hnumber)
  · rintro rfl
    exact congrArg (fun slot => slot.2.number) (List.inj_on_of_nodup_map h.keys hmem hmem' rfl)

end Records
end NumberedCache

/-! ### Any calls -/

/-- Over any calls there are as many slots as plans, and as many plans as keys that were answered with one; the
other compilations are the calls that failed. A key that was answered with a plan is answered with the same
instance and without a compilation, other keys with other instances, and a call that fails leaves the slots
as they are. -/
theorem Cache.serve_records (calls : List (Source × Query)) :
    let answers := (NumberedCache.empty.serve calls).1
    let numbered := (NumberedCache.empty.serve calls).2
    let cache := (Cache.empty.serve calls).2
    ((Cache.empty.serve calls).1 = answers.map (fun call => call.2.map Instance.plan) ∧
      cache = numbered.toCache) ∧
    (cache.slotCount = cache.size ∧ cache.size = (servedKeys answers).card ∧
      cache.compilations = cache.size + failures answers) ∧
    (∀ source query held, (PlanKey.of source query, .ok held) ∈ answers →
      numbered.fetch source query = (.ok held, numbered) ∧
        cache.fetch source query = (.ok held.plan, cache)) ∧
    (∀ key held other found, (key, .ok held) ∈ answers → (other, .ok found) ∈ answers →
      (held.number = found.number ↔ key = other)) ∧
    ∀ source query e, (cache.fetch source query).1 = .error e →
      numbered.fetch source query = (.error e, ⟨numbered.slots, numbered.compilations + 1⟩) ∧
        cache.fetch source query = (.error e, ⟨cache.slots, cache.compilations + 1⟩) := by
  intro answers numbered cache
  have hserve : Cache.empty.serve calls = (answers.map fun call => call.2.map Instance.plan, numbered.toCache) :=
    NumberedCache.toCache_serve calls .empty
  have hcache : cache = numbered.toCache := congrArg Prod.snd hserve
  have hrecords : numbered.Records answers := NumberedCache.records_empty.serve
  have hslots : cache.slotCount = numbered.slots.length := by
    rw [hcache]
    exact List.length_map _
  have hsize : cache.size = cache.slotCount := by
    rw [hcache]
    exact List.countP_eq_length.mpr numbered.isSettled_toCache
  have hcompilations : cache.compilations = numbered.compilations := congrArg Cache.compilations hcache
  refine ⟨⟨congrArg Prod.fst hserve, hcache⟩, ⟨hsize.symm, ?_, ?_⟩, fun source query held hheld => ?_,
    fun key held other found hheld hfound => hrecords.number_eq_iff hheld hfound,
    fun source query e he => ?_⟩
  · rw [hsize, hslots, hrecords.length_slots]
  · rw [hcompilations, hrecords.compilations, hsize, hslots]
  · have hfetch := hrecords.fetch_eq hheld
    refine ⟨hfetch, ?_⟩
    rw [hcache, NumberedCache.toCache_fetch, hfetch]
    rfl
  · rw [hcache] at he
    have hfetch := NumberedCache.fetch_of_error he
    refine ⟨hfetch, ?_⟩
    rw [hcache, NumberedCache.toCache_fetch, hfetch]
    rfl

end SelectLang
