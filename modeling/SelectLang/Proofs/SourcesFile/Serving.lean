/-
# Whose records a source of a file delivers

The member of an entry serves the camel case of the entry's plural, so a source delivers the records
of the first entry whose plural is the camel case of its own name, or else of the first whose plural is
its own (`SourcesFile.server?`); an entry without records, or with a line break in its name, has no
such member. Nothing says that this is the entry that the source was declared from: where another
entry's plural is the source's name, or its plural and comes earlier, the source delivers the records
of that one.

Key definitions: `SourcesFile.declared`, `SourcesFile.server?`, `Context.Delivers`.
Key theorems: `SourcesFile.lookup_candidates`, `SourcesFile.delivers_server`,
`SourcesFile.delivers_own_iff`.
-/
import Mathlib
import SelectLang.Proofs.Schema.Naming
import SelectLang.Proofs.Schema.Sources
import SelectLang.SourcesFile.Read

namespace SelectLang

/-! ### Records of a source -/

/-- The use of the records of a source, which has no resolver if there are none. -/
def Source.useRecords {α : Type} (source : Source) (use : List Value → Except Error α) :
    Option (List Value) → Except Error α
  | some records => use records
  | none => .error (.schema (.missingResolver source.name))

/-- Whoever uses the records of the source in the context uses these. -/
def Context.Delivers (context : Context) (source : Source) (records? : Option (List Value)) : Prop :=
  ∀ (α : Type) (use : List Value → Except Error α) (state : State),
    (context.withRecords source use state).1 = source.useRecords use records?

namespace Context.Delivers

variable {context : Context} {source : Source} {records? : Option (List Value)}

/-- A source delivers one thing only. -/
theorem unique (h : context.Delivers source records?) {other? : Option (List Value)}
    (h' : context.Delivers source other?) : records? = other? := by
  have heq := (h _ .ok (.initial 0)).symm.trans (h' _ .ok (.initial 0))
  cases records? <;> cases other? <;> cases heq <;> rfl

/-- A query that has a plan runs it on the records. -/
theorem runQuery (h : context.Delivers source records?) {query : Query}
    (hsource : context.findSource query.name = .ok source) {results : Results}
    (hnew : results.lookup query.name = none) {state next : State} {plan : Plan}
    (hplan : state.plan source query = (.ok plan, next)) :
    (context.runQuery results query state).1 = source.useRecords plan.run records? := by
  rw [Context.runQuery, hnew, Option.isSome_none, if_neg Bool.false_ne_true, hsource]
  simp only [hplan]
  exact h _ plan.run next

end Context.Delivers

/-! ### Members -/

namespace SourceEntry

/-- The records of the entry as values. -/
def values? (entry : SourceEntry) : Option (List Value) := entry.records.map Value.itemsOfJson

/-- The entry has a member, and it serves this name. -/
def serves (entry : SourceEntry) (name : String) : Bool :=
  entry.records.isSome && !entry.name.toList.contains '\n' && name == camelCase (entry.name ++ "s")

theorem name_of_shape (entry : SourceEntry) {shape : Shape} (h : entry.shape = .ok shape) :
    shape.name = entry.name := by
  rw [SourceEntry.shape] at h
  cases hfields : FieldType.fieldReprs entry.fields with
  | error e => rw [hfields] at h; cases h
  | ok fields =>
    rw [hfields] at h
    cases h
    rfl

theorem value?_eq (entry : SourceEntry) : entry.value? = entry.values?.map Value.array := by
  rw [value?, values?, Option.map_map]
  exact congrArg (entry.records.map ·) (funext fun records => Value.ofJson.eq_6 records)

theorem isSome_member? (entry : SourceEntry) : entry.member?.isSome = entry.records.isSome := by
  rw [member?, value?, Option.isSome_map, Option.isSome_map]

theorem member?_of_serves {entry : SourceEntry} {name : String} (h : entry.serves name = true) :
    ∃ member, entry.member? = some member := by
  rw [serves, Bool.and_eq_true, Bool.and_eq_true, ← isSome_member?] at h
  exact Option.isSome_iff_exists.mp h.1.1

end SourceEntry

namespace SourcesFile

variable {file : SourcesFile} {context : Context}

/-- The binding to the member of an entry. -/
def bindingOf (entry : SourceEntry) : Option Binding := entry.member?.map (⟨"SourcesFile", ·⟩)

/-- The member of an entry with records may serve the name that the entry serves, if it serves one. -/
theorem candidate?_member {entry : SourceEntry} {member : Member} (h : entry.member? = some member)
    (container : Container) : Schema.candidate? container member =
      if '\n' ∈ entry.name.toList then none
      else some (camelCase (entry.name ++ "s"), ⟨container.name, member⟩) := by
  obtain ⟨records, -, rfl⟩ := Option.map_eq_some_iff.mp h
  rw [Schema.candidate?, Member.raw, ReturnKind.isEnumerable, if_pos rfl, candidateName?_getter]
  split <;> rfl

/-- The first candidate for a name is the member of the first entry that serves it. -/
theorem lookup_candidates (file : SourcesFile) (name : String) :
    (Schema.candidates [file.container]).lookup name =
      (file.sources.find? (·.serves name)).bind bindingOf := by
  obtain ⟨sources⟩ := file
  rw [Schema.candidates, List.flatMap_singleton, container]
  generalize hc : Container.mk "SourcesFile" (sources.filterMap SourceEntry.member?) = c
  have hname : c.name = "SourcesFile" := by rw [← hc]
  have hmembers : c.members = sources.filterMap SourceEntry.member? := by rw [← hc]
  rw [hmembers]
  clear hc hmembers
  induction sources with
  | nil => rfl
  | cons entry sources ih =>
    cases hm : entry.member? with
    | none =>
      have hnone : entry.serves name = false := by
        rw [SourceEntry.serves, ← entry.isSome_member?, hm]
        rfl
      rw [List.filterMap_cons_none hm, List.find?_cons_of_neg (by simp [hnone]), ih]
    | some member =>
      have hsome : entry.records.isSome = true := by rw [← entry.isSome_member?, hm, Option.isSome_some]
      rw [List.filterMap_cons_some hm]
      by_cases hline : '\n' ∈ entry.name.toList
      · have hnone : entry.serves name = false := by simp [SourceEntry.serves, hline]
        rw [List.filterMap_cons_none (by rw [candidate?_member hm, if_pos hline]),
          List.find?_cons_of_neg (by simp [hnone]), ih]
      · rw [List.filterMap_cons_some (by rw [candidate?_member hm, if_neg hline]), List.lookup_cons]
        have hserves : entry.serves name = (name == camelCase (entry.name ++ "s")) := by
          simp [SourceEntry.serves, hsome, hline]
        cases hb : name == camelCase (entry.name ++ "s") with
        | true =>
          rw [List.find?_cons_of_pos (by rw [hserves, hb]), Option.bind_some, bindingOf, hm, hname]
          rfl
        | false => rw [List.find?_cons_of_neg (by simp [hserves, hb]), ih]

/-- The entry that a source declared from the given one has its records from. -/
def server? (file : SourcesFile) (entry : SourceEntry) : Option SourceEntry :=
  (file.sources.find? (·.serves (camelCase entry.name))).or
    (file.sources.find? (·.serves (camelCase (entry.name ++ "s"))))

/-- The sources of the file, each with the entry that it is declared from. -/
def declared (file : SourcesFile) : List (SourceEntry × Source) :=
  match file.sources.mapM SourceEntry.shape with
  | .ok shapes =>
    Schema.declareLabelled 0 (Schema.candidates [file.container]) [] 0 (file.sources.zip shapes)
  | .error _ => []

theorem shapes_of_mapM : ∀ {entries : List SourceEntry} {shapes : List Shape},
    entries.mapM SourceEntry.shape = .ok shapes →
      shapes.length = entries.length ∧ ∀ p ∈ entries.zip shapes, p.2.name = p.1.name
  | [], shapes, h => by
    cases h
    exact ⟨rfl, nofun⟩
  | entry :: entries, shapes, h => by
    rw [List.mapM_cons] at h
    cases hshape : entry.shape with
    | error e => rw [hshape] at h; cases h
    | ok shape =>
      cases hrest : entries.mapM SourceEntry.shape with
      | error e => rw [hshape, hrest] at h; cases h
      | ok rest =>
        rw [hshape, hrest] at h
        cases h
        obtain ⟨hlength, hnames⟩ := shapes_of_mapM hrest
        exact ⟨congrArg (· + 1) hlength, List.forall_mem_cons.mpr ⟨entry.name_of_shape hshape, hnames⟩⟩

theorem context_eq (h : file.context = .ok context) :
    context = ⟨[⟨file.declared.map Prod.snd⟩], .resolvers .empty⟩ := by
  rw [SourcesFile.context] at h
  rw [declared]
  cases hs : file.sources.mapM SourceEntry.shape with
  | error e => rw [hs] at h; cases h
  | ok shapes =>
    rw [hs] at h
    cases h
    obtain ⟨hlength, -⟩ := shapes_of_mapM hs
    simp only [Schema.map_snd_declareLabelled, Schema.build, List.map_snd_zip hlength.le]

/-- A source is bound by the two names of the entry that it is declared from. -/
theorem bind?_of_declared {entry : SourceEntry} {source : Source} (h : (entry, source) ∈ file.declared) :
    entry ∈ file.sources ∧ source.binding = Schema.bind? (Schema.candidates [file.container])
      [camelCase entry.name, camelCase (entry.name ++ "s")] := by
  rw [declared] at h
  cases hs : file.sources.mapM SourceEntry.shape with
  | error e => rw [hs] at h; cases h
  | ok shapes =>
    rw [hs] at h
    obtain ⟨shape, hmem, hbind⟩ := Schema.bind?_of_mem_declareLabelled h
    have hname : shape.name = entry.name := (shapes_of_mapM hs).2 _ hmem
    rw [Schema.synonyms, hname] at hbind
    exact ⟨(List.of_mem_zip hmem).1, hbind⟩

/-- A source is bound to the member of its server. -/
theorem binding_of_declared {entry : SourceEntry} {source : Source} (h : (entry, source) ∈ file.declared) :
    source.binding = (file.server? entry).bind bindingOf := by
  rw [(bind?_of_declared h).2, Schema.bind?_pair, lookup_candidates, lookup_candidates, server?]
  cases hfirst : file.sources.find? fun other => other.serves (camelCase entry.name) with
  | none => rw [Option.bind_none, Option.none_or, Option.none_or]
  | some other =>
    have hserves := List.find?_some hfirst
    obtain ⟨member, hmember⟩ := SourceEntry.member?_of_serves hserves
    rw [Option.some_or, Option.bind_some, bindingOf, hmember, Option.map_some, Option.some_or]

/-- A source delivers the records of its server. -/
theorem delivers_server (h : file.context = .ok context) {entry : SourceEntry} {source : Source}
    (hd : (entry, source) ∈ file.declared) :
    context.Delivers source ((file.server? entry).bind SourceEntry.values?) := by
  intro α use state
  rw [context_eq h, Context.withRecords, Context.materialize]
  simp only [binding_of_declared hd]
  cases file.server? entry with
  | none => rfl
  | some server =>
    rw [Option.bind_some, Option.bind_some, bindingOf, SourceEntry.member?, server.value?_eq]
    cases server.values? <;> rfl

/-- An entry has the records of its sources to itself if no entry with other records serves one of its
two names and, when it has records, its name is on one line. -/
theorem delivers_own_of_alone (h : file.context = .ok context) {entry : SourceEntry} {source : Source}
    (hd : (entry, source) ∈ file.declared)
    (hline : entry.records.isSome = true → '\n' ∉ entry.name.toList)
    (halone : ∀ other ∈ file.sources, other.serves (camelCase entry.name) = true ∨
      other.serves (camelCase (entry.name ++ "s")) = true → other.values? = entry.values?) :
    context.Delivers source entry.values? := by
  have hserver := delivers_server h hd
  cases hs : file.server? entry with
  | some server =>
    have hserves : server ∈ file.sources ∧ (server.serves (camelCase entry.name) = true ∨
        server.serves (camelCase (entry.name ++ "s")) = true) := by
      rcases Option.or_eq_some_iff.mp hs with hfound | ⟨-, hfound⟩
      · exact ⟨List.mem_of_find?_eq_some hfound, Or.inl (List.find?_some hfound :)⟩
      · exact ⟨List.mem_of_find?_eq_some hfound, Or.inr (List.find?_some hfound :)⟩
    rwa [hs, Option.bind_some, halone server hserves.1 hserves.2] at hserver
  | none =>
    -- not even the entry serves its plural, so it has no records
    have hnone := List.find?_eq_none.mp (Option.or_eq_none_iff.mp hs).2 entry (bind?_of_declared hd).1
    have hrecords : entry.records = none := by
      by_contra hne
      have hsome : entry.records.isSome = true := Option.isSome_iff_ne_none.mpr hne
      exact hnone (by simp [SourceEntry.serves, hsome, hline hsome])
    rwa [hs, Option.bind_none, ← show entry.values? = none by rw [SourceEntry.values?, hrecords]; rfl]
      at hserver

/-- The schema of a loaded file has the declared sources, of which each delivers the records of the
entry that it was declared from exactly if its server has them too. -/
theorem delivers_own_iff (h : file.context = .ok context) :
    context.schemas = [⟨file.declared.map Prod.snd⟩] ∧
      ∀ entry source, (entry, source) ∈ file.declared →
        (context.Delivers source entry.values? ↔
          (file.server? entry).bind SourceEntry.values? = entry.values?) := by
  refine ⟨by rw [context_eq h], fun entry source hd => ?_⟩
  have hserver := delivers_server h hd
  exact ⟨fun hown => hserver.unique hown, fun heq => heq ▸ hserver⟩

theorem delivers_own_iff_book : ∃ context,
    (SourcesFile.mk [⟨"Book", [], some [.null]⟩]).context = .ok context ∧
      ∃ source, context.schemas = [⟨[source]⟩] ∧ context.Delivers source (some [.null]) := by
  obtain ⟨hschemas, hown⟩ := delivers_own_iff
    (rfl : (SourcesFile.mk [⟨"Book", [], some [.null]⟩]).context = .ok _)
  exact ⟨_, rfl, _, hschemas, (hown _ _ (.head _)).mpr rfl⟩

/-- A source without records delivers those of another entry, of whose name its own is the plural. -/
theorem delivers_records_of_singular : ∃ text file context entry source,
    SourcesFile.parse? text = some file ∧ file.context = .ok context ∧ (entry, source) ∈ file.declared ∧
      entry.records = none ∧ ¬ context.Delivers source entry.values? := by
  have hload : ((SourcesFile.parse? "[[[\"Book\",[],[]],[\"Books\",[]]]]").any fun file =>
      file.context.toOption.any fun context => file.declared.any fun (entry, source) =>
        entry.records.isNone && (context.withRecords source Except.ok (.initial 0)).1.toOption.isSome) =
      true := by
    decide +kernel
  obtain ⟨file, hparse, hload⟩ := (Option.any_eq_true _ _).mp hload
  cases hcontext : file.context with
  | error e => rw [hcontext] at hload; cases hload
  | ok context =>
    rw [hcontext] at hload
    obtain ⟨⟨entry, source⟩, hd, hrecords⟩ := List.any_eq_true.mp hload
    rw [Bool.and_eq_true, Option.isNone_iff_eq_none] at hrecords
    refine ⟨_, file, context, entry, source, hparse, hcontext, hd, hrecords.1, fun hown => ?_⟩
    rw [hown, SourceEntry.values?, hrecords.1] at hrecords
    cases hrecords.2

end SourcesFile
end SelectLang
