/-
# Which plans come out of the cache

A context is asked for plans, one call after the other, and answers out of one cache. What the cache does
in a call is one of three things (`fetch_cases`): it hands out the plan that it holds, it makes a plan and
keeps it, or it reports why there is none and stays as it was. So it holds, for every key, the plan of the
first call with that key that had one.

An answer is then the plan of the very query that was asked for unless an earlier call with the same key
had a plan and was for another query (`Call.Clashes`). As canonical texts are read back, two queries
share a key only if they are read again alike, which sets infinite numbers and the names that are
written like them equal; where all numbers are finite the cache makes no difference.

Key definitions: `Query.IsParsed`, `Call`, `Call.Clashes`, `Cache.answers`, `Cache.Holds`.
Key theorems: `Call.key_eq_iff`, `Cache.fetch_cases`, `Cache.Holds.fetch`, `answers_eq_iff`.
-/
import Mathlib
import SelectLang.Plan.Cache
import SelectLang.Proofs.Plan.Compiling
import SelectLang.Proofs.Schema.Sources

namespace SelectLang

open SelectLang.Grammar SelectLang.Parser

/-! ### Calls -/

/-- The query is read off a text, alone or within a script. -/
def Query.IsParsed (query : Query) : Prop :=
  (∃ text, Query.parse text = .ok query) ∨
    ∃ text script, Script.parse text = .ok script ∧ query ∈ script.statements

theorem Query.IsParsed.wellFormed {query : Query} (h : query.IsParsed) :
    query.wellFormed Binary64.isUnsigned = true := by
  rcases h with ⟨text, h⟩ | ⟨text, script, h, hmem⟩
  · exact wellFormed_of_parse_query h
  · exact List.all_eq_true.mp (wellFormed_of_parse_script h) query hmem

/-- The query of which an expression is the only column. -/
def Query.ofColumn (source : NamePath) (e : Expr) : Query :=
  ⟨source, [.expression e none], .all, [], none, none, none⟩

/-- Digits and a point are read as the only column of a query. -/
theorem isParsed_of_digits {ds : List Char} (hne : ds ≠ []) (hd : ∀ c ∈ ds, c.isDigit = true)
    {source : NamePath} (hs : source.isProper = true) : Query.IsParsed (.ofColumn source
      (.literal (.float (.ofDecimal false (Nat.ofDigitChars 10 ds 0) 0)))) := by
  set number := Binary64.ofDecimal false (Nat.ofDigitChars 10 ds 0) 0
  have hmark : ∀ t, Marked ((ds ++ ['.']) ++ t) := fun t => by
    obtain ⟨c, digits, rfl⟩ := List.exists_cons_of_ne_nil hne
    exact .digit (c := c) rfl (hd c List.mem_cons_self)
  have hbegins : ∀ t, EndsToken t → ((ds ++ ['.']) ++ t).dropWhile isBlank = (ds ++ ['.']) ++ t ∧
      ∀ word ∈ ["first", "last", "one", "top", "at"],
        (wordOf ((ds ++ ['.']) ++ t)).map Char.toLower ≠ word.toList := by
    refine fun t _ => ⟨(hmark t).solid, fun word hw => ?_⟩
    simp only [List.mem_cons, List.not_mem_nil, or_false] at hw
    rcases hw with rfl | rfl | rfl | rfl | rfl <;> exact (hmark t).wordOf_ne (by decide) (by decide)
  have hatoms : ∀ t, EndsList t → separated1 (symbol ',') atom ((ds ++ ['.']) ++ t) =
      .done [.expression (.literal (.float number)) none] t := by
    intro t ht
    have he : expression ((ds ++ ['.']) ++ t) = .done (.literal (.float number)) t := by
      rw [List.append_assoc]
      exact expression_of_digits hne hd ht.ends
    exact separated1_done (atom_of_expression (Or.inl (hmark t)) he ht.toEndsItem)
      (separatedTail_of_misses (misses_symbol ht.comma))
  have hread := @statement_of_selection (.ofColumn source (.literal (.float number))) _ hs
    (fun c hc => nomatch hc) hbegins hatoms []
  rw [← String.toList_ofList (l := "select".toList ++ _)] at hread
  exact Or.inl ⟨_, run_of_done (followedBy_done hread (by rfl : blanks [] = .done [] []))⟩

/-- A call for the plan of a query that was read, over a source of the context. -/
structure Call (declarations : List (List Shape × List Container)) where
  source : Source
  query : Query
  known : ∃ schema ∈ schemasOf declarations, source ∈ schema.sources
  parsed : query.IsParsed

namespace Call

variable {declarations : List (List Shape × List Container)}

def key (call : Call declarations) : PlanKey := .of call.source call.query

/-- The plan that is made for the call itself, or why there is none. -/
def compiled (call : Call declarations) : Except Error Plan := call.query.compile call.source

/-- The earlier call has a plan and is for another query over the same source, but one from which the
later differs only in infinite numbers and the names that are written like them. -/
structure Clashes (a b : Call declarations) : Prop where
  source : a.source = b.source
  reread : a.query.normalized.reread = b.query.normalized.reread
  compiled : ∃ plan, a.compiled = .ok plan
  ne : a.query.normalized ≠ b.query.normalized

theorem wellFormed_normalized {number : Binary64 → Bool} {query : Query}
    (h : query.wellFormed number = true) : query.normalized.wellFormed number = true := by
  obtain ⟨hsource, hne, hatoms, hterms⟩ := Query.wellFormed_iff.mp h
  refine Query.wellFormed_iff.mpr ⟨hsource, by simpa [Query.normalized] using hne, fun a ha => ?_, hterms⟩
  obtain ⟨b, hb, rfl⟩ := List.mem_map.mp ha
  exact hatoms b hb

/-- Calls have one key if their sources are the same and their queries are read again alike. -/
theorem key_eq_iff {a b : Call declarations} : a.key = b.key ↔
    a.source = b.source ∧ a.query.normalized.reread = b.query.normalized.reread := by
  have ha := wellFormed_normalized a.parsed.wellFormed
  have hb := wellFormed_normalized b.parsed.wellFormed
  constructor
  · intro h
    obtain ⟨s, hs, hsa⟩ := a.known
    obtain ⟨t, ht, htb⟩ := b.known
    refine ⟨source_eq_of_id hs hsa ht htb (congrArg PlanKey.source h), ?_⟩
    have hread := Query.parse_render_reread ha
    rw [show a.query.normalized.render = b.query.normalized.render from congrArg PlanKey.text h,
      Query.parse_render_reread hb, Except.ok.injEq] at hread
    exact hread.symm
  · rintro ⟨hsource, hreread⟩
    rw [key, key, PlanKey.of, PlanKey.of, hsource, ← Query.render_reread ha, hreread,
      Query.render_reread hb]

theorem Clashes.key_eq {a b : Call declarations} (h : a.Clashes b) : a.key = b.key :=
  key_eq_iff.mpr ⟨h.source, h.reread⟩

/-- Of calls with one key, the earlier with a plan, the later has that plan exactly if they do not
clash. -/
theorem compiled_eq_iff {a b : Call declarations} {plan : Plan} (h : a.key = b.key)
    (ha : a.compiled = .ok plan) : b.compiled = .ok plan ↔ ¬ a.Clashes b := by
  have ha' : a.query.normalized.compile a.source = .ok plan := by
    rw [Query.compile_normalized]
    exact ha
  obtain ⟨hsource, hreread⟩ := key_eq_iff.mp h
  constructor
  · intro hb hclash
    refine hclash.ne (Query.eq_of_compile hreread ha' ?_)
    rw [Query.compile_normalized, hsource]
    exact hb
  · intro hclash
    have hq : a.query.normalized = b.query.normalized := by
      by_contra hne
      exact hclash ⟨hsource, hreread, ⟨plan, ha⟩, hne⟩
    rw [compiled, ← Query.compile_normalized, ← hq, ← hsource]
    exact ha'

/-- Queries whose numbers are finite do not clash. -/
theorem not_clashes {a b : Call declarations} (ha : a.query.wellFormed Binary64.isFinite = true)
    (hb : b.query.wellFormed Binary64.isFinite = true) : ¬ a.Clashes b := by
  intro h
  have hreread := h.reread
  rw [(Query.reread_eq_self_iff (wellFormed_normalized a.parsed.wellFormed)).mpr
    (wellFormed_normalized ha), (Query.reread_eq_self_iff
      (wellFormed_normalized b.parsed.wellFormed)).mpr (wellFormed_normalized hb)] at hreread
  exact h.ne hreread

end Call

/-! ### One call -/

namespace Cache

/-- No slot is empty, as it is between calls. -/
def IsSettled (cache : Cache) : Prop := ∀ slot ∈ cache.slots, slot.2.isSome = true

theorem lookup_of_get? {cache : Cache} (hs : cache.IsSettled) {key : PlanKey}
    (h : cache.get? key = none) : cache.slots.lookup key = none := by
  unfold get? at h
  cases hl : cache.slots.lookup key with
  | none => rfl
  | some plan =>
    obtain ⟨front, back, hslots, -⟩ := List.lookup_eq_some_iff.mp hl
    have hsome : plan.isSome = true := hs (key, plan) (by rw [hslots]; simp)
    rw [hl, Option.join_some] at h
    rw [h] at hsome
    cases hsome

/-- What the cache does in a call. -/
theorem fetch_cases {cache : Cache} (hs : cache.IsSettled) (source : Source) (query : Query) :
    (∃ plan, cache.get? (.of source query) = some plan ∧
      cache.fetch source query = (.ok plan, cache)) ∨
    (cache.get? (.of source query) = none ∧
      ((∃ plan, query.compile source = .ok plan ∧ cache.fetch source query = (.ok plan,
          ⟨cache.slots ++ [(.of source query, some plan)], cache.compilations + 1⟩)) ∨
        ∃ e, query.compile source = .error e ∧
          cache.fetch source query = (.error e, ⟨cache.slots, cache.compilations + 1⟩))) := by
  set key := PlanKey.of source query with hkey
  cases hget : cache.get? key with
  | some plan => exact Or.inl ⟨plan, rfl, by simp only [fetch, ← hkey, hget]⟩
  | none =>
    have hlookup := lookup_of_get? hs hget
    have hne : ∀ slot ∈ cache.slots, slot.1 ≠ key := fun slot hslot heq => by
      have h := List.lookup_eq_none_iff.mp hlookup slot hslot
      simp [heq] at h
    have hopen : cache.openSlot key = { cache with slots := cache.slots ++ [(key, none)] } := by
      rw [openSlot, hlookup]
      rfl
    refine Or.inr ⟨rfl, ?_⟩
    cases hc : query.compile source with
    | ok plan =>
      have hmap : cache.slots.map (fun slot => if slot.1 = key then (key, some plan) else slot) =
          cache.slots :=
        map_eq_self_iff.mpr fun slot hslot => if_neg (hne slot hslot)
      refine Or.inl ⟨plan, rfl, ?_⟩
      simp only [fetch, ← hkey, hget, hc, hopen, countCompilation, fillSlot, List.map_append, hmap,
        List.map_cons, List.map_nil, if_true]
    | error e =>
      have hfilter : cache.slots.filter (fun slot => slot.1 != key || slot.2.isSome) = cache.slots :=
        List.filter_eq_self.mpr fun slot hslot => by simp [hne slot hslot]
      refine Or.inr ⟨e, rfl, ?_⟩
      simp only [fetch, ← hkey, hget, hc, hopen, countCompilation, closeSlot, List.filter_append,
        hfilter]
      simp

/-! ### Many calls -/

variable {declarations : List (List Shape × List Container)}

/-- The answers to the calls, one after the other. -/
def answers : Cache → List (Call declarations) → List (Except Error Plan)
  | _, [] => []
  | cache, call :: calls =>
    (cache.fetch call.source call.query).1 :: answers (cache.fetch call.source call.query).2 calls

/-- The cache holds the plans of the calls so far, all of which were answered with their own plan. -/
structure Holds (cache : Cache) (past : List (Call declarations)) : Prop where
  settled : cache.IsSettled
  held : ∀ key plan, cache.get? key = some plan → ∃ a ∈ past, a.key = key ∧ a.compiled = .ok plan
  kept : ∀ a ∈ past, ∀ plan, a.compiled = .ok plan → cache.get? a.key = some plan

theorem holds_empty : Holds empty ([] : List (Call declarations)) where
  settled _ h := by simp [empty] at h
  held _ _ h := by simp [get?, empty] at h
  kept _ h := by simp at h

/-- A plan that is put behind the others is held under its key, if none was, and no other. -/
theorem get?_append {cache : Cache} {key : PlanKey} (hl : cache.slots.lookup key = none) (plan : Plan)
    (n : Nat) (other : PlanKey) : get? ⟨cache.slots ++ [(key, some plan)], n⟩ other =
      if other = key then some plan else cache.get? other := by
  rw [get?, get?, List.lookup_append, List.lookup_cons, List.lookup_nil]
  by_cases h : other = key
  · subst h
    simp [hl]
  · simp [h, beq_eq_false_iff_ne.mpr h]

/-- The plan that is held for a call is its own exactly if it clashes with no call so far. -/
theorem Holds.plan_eq_iff {cache : Cache} {past : List (Call declarations)} (h : cache.Holds past)
    {call : Call declarations} {plan : Plan} (hget : cache.get? call.key = some plan) :
    call.compiled = .ok plan ↔ ∀ a ∈ past, ¬ a.Clashes call := by
  constructor
  · intro hanswer a ha hclash
    -- the plan that is held is that of `a`, for `a` was answered with its own
    obtain ⟨p, hp⟩ := hclash.compiled
    have hkey := hclash.key_eq
    have hheld := h.kept a ha p hp
    rw [hkey, hget] at hheld
    cases hheld
    exact (Call.compiled_eq_iff hkey hp).mp hanswer hclash
  · intro hclash
    obtain ⟨first, hfirst, hkey, hplan⟩ := h.held call.key plan hget
    exact (Call.compiled_eq_iff hkey hplan).mpr (hclash first hfirst)

/-- A call for which no plan is held clashes with no call so far. -/
theorem Holds.not_clashes {cache : Cache} {past : List (Call declarations)} (h : cache.Holds past)
    {call : Call declarations} (hget : cache.get? call.key = none) : ∀ a ∈ past, ¬ a.Clashes call := by
  intro a ha hclash
  obtain ⟨p, hp⟩ := hclash.compiled
  have hheld := h.kept a ha p hp
  rw [hclash.key_eq, hget] at hheld
  cases hheld

/-- A call whose outcome changes nothing in the cache is one of the calls. -/
theorem Holds.cons {cache : Cache} {past : List (Call declarations)} (h : cache.Holds past)
    {call : Call declarations} (hkept : ∀ plan, call.compiled = .ok plan → cache.get? call.key = some plan)
    (n : Nat) : Holds ⟨cache.slots, n⟩ (call :: past) where
  settled := h.settled
  held key plan hget := by
    obtain ⟨a, ha, hkey, hplan⟩ := h.held key plan hget
    exact ⟨a, List.mem_cons_of_mem call ha, hkey, hplan⟩
  kept := List.forall_mem_cons.mpr ⟨hkept, h.kept⟩

/-- A plan that is made for a call is put behind those that are held. -/
theorem Holds.append {cache : Cache} {past : List (Call declarations)} (h : cache.Holds past)
    {call : Call declarations} {plan : Plan} (hget : cache.get? call.key = none)
    (hplan : call.compiled = .ok plan) (n : Nat) :
    Holds ⟨cache.slots ++ [(call.key, some plan)], n⟩ (call :: past) := by
  have hlookup := lookup_of_get? h.settled hget
  refine ⟨fun slot hslot => ?_, fun key p hp => ?_, List.forall_mem_cons.mpr ⟨fun p hp => ?_,
    fun a ha p hp => ?_⟩⟩
  · rcases List.mem_append.mp hslot with hslot | hslot
    · exact h.settled slot hslot
    · rw [List.mem_singleton.mp hslot]
      rfl
  · rw [get?_append hlookup] at hp
    by_cases hkey : key = call.key
    · rw [if_pos hkey] at hp
      cases hp
      exact ⟨call, List.mem_cons_self, hkey.symm, hplan⟩
    · rw [if_neg hkey] at hp
      obtain ⟨a, ha, hak, hap⟩ := h.held key p hp
      exact ⟨a, List.mem_cons_of_mem call ha, hak, hap⟩
  · rw [hplan] at hp
    cases hp
    rw [get?_append hlookup, if_pos rfl]
  · have hheld := h.kept a ha p hp
    have hne : a.key ≠ call.key := by
      intro heq
      rw [heq, hget] at hheld
      cases hheld
    rw [get?_append hlookup, if_neg hne, hheld]

/-- A call is answered with its own plan exactly if it clashes with no call so far, and the cache then
holds its plan too. -/
theorem Holds.fetch {cache : Cache} {past : List (Call declarations)} (h : cache.Holds past)
    (call : Call declarations) :
    ((cache.fetch call.source call.query).1 = call.compiled ↔ ∀ a ∈ past, ¬ a.Clashes call) ∧
      ((cache.fetch call.source call.query).1 = call.compiled →
        (cache.fetch call.source call.query).2.Holds (call :: past)) := by
  rcases fetch_cases h.settled call.source call.query with
    ⟨plan, hget, hfetch⟩ | ⟨hget, ⟨plan, hplan, hfetch⟩ | ⟨e, he, hfetch⟩⟩
  · rw [hfetch]
    refine ⟨eq_comm.trans (h.plan_eq_iff hget), fun hanswer => h.cons (fun p hp => ?_) _⟩
    rw [← hanswer] at hp
    cases hp
    exact hget
  · rw [hfetch]
    exact ⟨iff_of_true hplan.symm (h.not_clashes hget), fun _ => h.append hget hplan _⟩
  · rw [hfetch]
    refine ⟨iff_of_true he.symm (h.not_clashes hget), fun _ => h.cons (fun p hp => ?_) _⟩
    rw [Call.compiled, he] at hp
    cases hp

theorem answers_eq_iff_of_holds : ∀ {calls past : List (Call declarations)} {cache : Cache},
    cache.Holds past → (cache.answers calls = calls.map Call.compiled ↔
      (∀ b ∈ calls, ∀ a ∈ past, ¬ a.Clashes b) ∧ calls.Pairwise fun a b => ¬ a.Clashes b)
  | [], _, _, _ => by simp [answers]
  | call :: calls, past, cache, h => by
    obtain ⟨hanswer, hnext⟩ := h.fetch call
    rw [answers, List.map_cons, List.cons.injEq, List.pairwise_cons, List.forall_mem_cons]
    constructor
    · rintro ⟨hcall, hrest⟩
      obtain ⟨hpast, hpairs⟩ := (answers_eq_iff_of_holds (hnext hcall)).mp hrest
      exact ⟨⟨hanswer.mp hcall, fun b hb a ha => hpast b hb a (List.mem_cons_of_mem call ha)⟩,
        fun b hb => hpast b hb call List.mem_cons_self, hpairs⟩
    · rintro ⟨⟨hcall, hpast⟩, hfirst, hpairs⟩
      have hok := hanswer.mpr hcall
      exact ⟨hok, (answers_eq_iff_of_holds (hnext hok)).mpr ⟨fun b hb =>
        List.forall_mem_cons.mpr ⟨hfirst b hb, hpast b hb⟩, hpairs⟩⟩

end Cache

/-- Out of a new cache every call is answered with its own plan, or with why it has none, exactly if no
call clashes with an earlier one. So it is whenever the numbers of the queries are finite. -/
theorem answers_eq_iff {declarations : List (List Shape × List Container)}
    (calls : List (Call declarations)) :
    (Cache.empty.answers calls = calls.map Call.compiled ↔
      calls.Pairwise fun a b => ¬ a.Clashes b) ∧
    ((∀ call ∈ calls, call.query.wellFormed Binary64.isFinite = true) →
      Cache.empty.answers calls = calls.map Call.compiled) := by
  have hiff : Cache.empty.answers calls = calls.map Call.compiled ↔
      calls.Pairwise fun a b => ¬ a.Clashes b := by
    rw [Cache.answers_eq_iff_of_holds Cache.holds_empty]
    exact and_iff_right fun _ _ _ ha => by cases ha
  refine ⟨hiff, fun hfinite => hiff.mpr (List.pairwise_iff_forall_sublist.mpr fun hsub => ?_)⟩
  have hmem := hsub.subset
  exact Call.not_clashes (hfinite _ (hmem (by simp))) (hfinite _ (hmem (by simp)))

/-- A source whose records have a field that is called as infinity is written. -/
def infSource : Source :=
  ⟨⟨0, 0⟩, ["s", "ss"], .ofShape ⟨"S", [("Inf", .numeric .i32)]⟩, none⟩

/-- Out of one cache the column of an infinite number is handed out for the column of that name. -/
theorem answers_infinite_then_named :
    ∃ (declarations : List (List Shape × List Container)) (calls : List (Call declarations)),
      Cache.empty.answers calls ≠ calls.map Call.compiled := by
  have hsource : (NamePath.mk ["s"]).isProper = true := by decide
  have hlarge := isParsed_of_digits (by decide) overlongDigits_isDigit hsource
  rw [ofDecimal_overlongDigits] at hlarge
  have hnamed : (Query.ofColumn ⟨["s"]⟩ (.path infinityName)).IsParsed :=
    Or.inl ⟨_, parse_render_query (by decide)⟩
  have hknown : ∃ schema ∈ schemasOf [([⟨"S", [("Inf", .numeric .i32)]⟩], [])],
    infSource ∈ schema.sources := ⟨_, .head _, .head _⟩
  refine ⟨_, [⟨infSource, _, hknown, hlarge⟩, ⟨infSource, _, hknown, hnamed⟩], fun h => ?_⟩
  have hsecond : ((Cache.empty.fetch infSource (.ofColumn ⟨["s"]⟩ (.literal (.float .infinity)))).2.fetch
      infSource (.ofColumn ⟨["s"]⟩ (.path infinityName))).1 =
        (Query.ofColumn ⟨["s"]⟩ (.path infinityName)).compile infSource :=
    (List.cons.inj (List.cons.inj h).2).1
  have hnames := congrArg (fun answer => answer.toOption.map fun plan => plan.columns.map Column.name)
    hsecond
  revert hnames
  decide +kernel

end SelectLang
