/-
# What a run prints

A run prints the document of its results with the names of every object ascending. A row has the columns of its
query as fields, in their order, and so it is written in the text of the results themselves; but what is printed
has its fields in the order of their names. So the columns keep their order only where they ascend
(`Command.output_run_rows`).

Key definitions: `Json.ShowsObject`, `Command.Runs`.
Key theorems: `Plan.keys_of_run`, `Results.showsObject`, `Results.showsObject_sorted`, `Command.exists_runs`,
`Command.output_run_rows`.
-/
import Mathlib
import SelectLang.Command.Basic
import SelectLang.Proofs.Plan.Typing
import SelectLang.Proofs.Session.Results
import SelectLang.Proofs.Value.Normalizing
import SelectLang.Proofs.Value.Writing

namespace SelectLang

/-! ### Rows of a result -/

theorem Query.nodup_names_of_compile {query : Query} {source : Source} {plan : Plan}
    (h : query.compile source = .ok plan) : (plan.columns.map Column.name).Nodup := by
  obtain ⟨properties, -, hplan⟩ := Query.planOver_of_compile h
  exact nodup_of_columnsOf (planOver_eq_ok.mp hplan).1

/-- The rows of a plan's result have the columns as fields, in their order. -/
theorem Plan.keys_of_run {plan : Plan} (h : (plan.columns.map Column.name).Nodup) {records : List Value}
    {result : QueryResult} (hrun : plan.run records = .ok result) {row : Record} (hrow : row ∈ result.rows) :
    row.keys = plan.columns.map Column.name := by
  obtain ⟨record, -, hproject⟩ := exists_record_of_mem_rows hrun hrow
  exact keys_of_project h hproject

namespace Json

/-- In the text an object stands with these fields, in this order. -/
def ShowsObject (spread : Bool) (fields : List (String × Json)) (text : String) : Prop :=
  ∃ level, (bracketed spread level "\x7b" "\x7d" (fields.map (fieldText spread (level + 1)))).toList <:+: text.toList

theorem writeJson_eq (spread : Bool) (document : Json) : writeJson spread document = document.textAt spread 0 := rfl

/-- An object within a document is shown in its text. -/
theorem Within.showsObject {fields : List (String × Json)} {depth : ℕ} {whole : Json}
    (h : (object fields).Within depth whole) (spread : Bool) : ShowsObject spread fields (writeJson spread whole) := by
  refine ⟨0 + depth, ?_⟩
  rw [← textAt_object, writeJson_eq]
  exact h.textAt_isInfix

end Json

/-- A row stands within the document of its result, and within this one sorted. -/
theorem QueryResult.within_toJson {result : QueryResult} {row : Record} (h : row ∈ result.rows) :
    ∃ depth, (Value.object row).toJson.Within depth result.toJson ∧
      (Value.object row).toJson.sorted.Within depth result.toJson.sorted := by
  cases result with
  | one found =>
    cases found with
    | none => cases h
    | some found =>
      cases List.mem_singleton.mp h
      exact ⟨0, .itself, .itself⟩
  | many rows =>
    have hmem : (Value.object row).toJson ∈ rows.map fun row => (Value.object row).toJson := List.mem_map_of_mem h
    refine ⟨1, .item hmem .itself, ?_⟩
    rw [toJson, Json.sorted, Json.sortedItems_eq]
    exact .item (List.mem_map_of_mem hmem) .itself

section

variable {results : Results} {name : String} {result : QueryResult} {row : Record}

/-- The text of some results shows their rows as they are. -/
theorem Results.showsObject (spread : Bool) (hmem : (name, result) ∈ results) (hrow : row ∈ result.rows) :
    Json.ShowsObject spread (row.map fun field => (field.1, field.2.toJson)) (writeJson spread results.toJson) := by
  obtain ⟨depth, hwithin, -⟩ := QueryResult.within_toJson hrow
  rw [Value.toJson, Value.fieldsToJson_eq] at hwithin
  have hfield : (name, result.toJson) ∈ results.map fun entry => (entry.1, entry.2.toJson) :=
    List.mem_map_of_mem hmem
  exact (Json.Within.field hfield hwithin).showsObject spread

/-- Once they are sorted the text shows the rows sorted. -/
theorem Results.showsObject_sorted (spread : Bool) (hnames : (results.map Prod.fst).Nodup)
    (hmem : (name, result) ∈ results) (hrow : row ∈ result.rows) (hkeys : row.keys.Nodup) :
    Json.ShowsObject spread (sortByName (row.map fun field => (field.1, field.2.toJson.sorted)))
      (writeJson spread results.toJson.sorted) := by
  obtain ⟨depth, -, hwithin⟩ := QueryResult.within_toJson hrow
  have hfields : ((row.map fun field => (field.1, field.2.toJson)).map Prod.fst).Nodup := by
    rwa [List.map_map]
  rw [Value.toJson, Value.fieldsToJson_eq, Json.sorted_object hfields, List.map_map] at hwithin
  have hresults : ((results.map fun entry => (entry.1, entry.2.toJson)).map Prod.fst).Nodup := by
    rwa [List.map_map]
  have hfield : (name, result.toJson.sorted) ∈
      sortByName ((results.map fun entry => (entry.1, entry.2.toJson)).map fun field =>
        (field.1, field.2.sorted)) := by
    rw [(sortByName_perm _).mem_iff, List.map_map]
    exact List.mem_map_of_mem hmem
  have hwhole := Json.Within.field hfield hwithin
  rw [← Json.sorted_object hresults] at hwhole
  exact hwhole.showsObject spread

end

/-- Entries that are sorted have their names in the old order if these ascend. -/
theorem names_sortByName_eq_iff {α : Type} {entries : List (String × α)} (h : (entries.map Prod.fst).Nodup) :
    (sortByName entries).map Prod.fst = entries.map Prod.fst ↔ (entries.map Prod.fst).Pairwise (· < ·) := by
  constructor
  · intro heq
    rw [← heq]
    exact List.pairwise_map.mpr (ascending_sortByName h)
  · intro hascending
    rw [sortByName_eq (.refl _) (List.pairwise_map.mp hascending)]

namespace Command

variable {around : Surroundings} {script : Option String} {path : String}

/-- A script and a file are there that are read as this script and this context, in which it has these results. -/
structure Runs (around : Surroundings) (script : Option String) (path : String) (context : Context)
    (tree : Script) (results : Results) : Prop where
  loads : ∃ sources, around.file path = .ok sources ∧ loadSources sources = .ok context
  reads : ∃ text, around.script script = .ok text ∧ Script.parse text = .ok tree
  ran : (context.run tree (.initial 1)).1 = .ok results

/-- What a run that succeeds prints. -/
theorem exists_runs {spread : Bool} {printed : String} (h : (run script path spread).output around = .ok printed) :
    ∃ context tree results, Runs around script path context tree results ∧
      printed = writeJson spread results.toJson.sorted ++ "\n" := by
  rw [output] at h
  cases hscript : around.script script with
  | error e => simp [hscript] at h
  | ok text =>
    cases hfile : around.file path with
    | error e => simp [hscript, hfile] at h
    | ok sources =>
      simp only [hscript, hfile, runScript, Context.execute] at h
      cases hloads : loadSources sources with
      | error e => simp [hloads, Except.map] at h
      | ok context =>
        cases hparse : Script.parse text with
        | error d => simp [hloads, hparse, Except.map] at h
        | ok tree =>
          cases hran : (context.run tree (.initial 1)).1 with
          | error e => simp [hloads, hparse, hran, Except.map] at h
          | ok results =>
            simp only [hloads, hparse, hran, Except.map, Except.ok.injEq] at h
            exact ⟨context, tree, results, ⟨⟨sources, hfile, hloads⟩, ⟨text, hscript, hparse⟩, hran⟩, h.symm⟩

/-- **Columns are printed in the order of their names.** A run that succeeds has one result for each query, under its
name. The rows have the columns of the query's plan as fields, in their order, and the text of the results shows them
so. What is printed shows their fields in the order of the names, which is that of the columns if these ascend. -/
theorem output_run_rows {spread : Bool} {printed : String}
    (h : (run script path spread).output around = .ok printed) : ∃ context tree results,
      Runs around script path context tree results ∧ printed = writeJson spread results.toJson.sorted ++ "\n" ∧
      (results.map Prod.fst).Perm (tree.statements.map Query.name) ∧
      ∀ name result, (name, result) ∈ results → ∃ query ∈ tree.statements, query.name = name ∧
        ∃ source plan, context.findSource name = .ok source ∧ query.compile source = .ok plan ∧
          ∀ row ∈ result.rows,
            let columns := plan.columns.map Column.name
            let fields := row.map fun field => (field.1, field.2.toJson)
            let sorted := sortByName (row.map fun field => (field.1, field.2.toJson.sorted))
            row.keys = columns ∧ Json.ShowsObject spread fields (writeJson spread results.toJson) ∧
            Json.ShowsObject spread sorted printed ∧ (sorted.map Prod.fst = columns ↔ columns.Pairwise (· < ·)) := by
  obtain ⟨context, tree, results, hruns, rfl⟩ := exists_runs h
  obtain ⟨text, -, hparse⟩ := hruns.reads
  have hrun : context.runFrom [] tree.statements (.initial 1) =
      (.ok results, (context.run tree (.initial 1)).2) := Prod.ext hruns.ran rfl
  obtain ⟨hperm, hnodup⟩ := Context.names_of_runFrom hrun
  have hform : ∀ query ∈ tree.statements, query.wellFormed Binary64.isUnsigned = true := fun query hquery =>
    Query.IsParsed.wellFormed (.inr ⟨text, tree, hparse, hquery⟩)
  refine ⟨context, tree, results, hruns, rfl, hperm, fun name result hmem => ?_⟩
  obtain ⟨query, hquery, hname, source, plan, records, hsource, hplan, hrows⟩ :=
    Context.exists_plan_of_mem rfl hform hrun hmem
  refine ⟨query, hquery, hname, source, plan, hsource, hplan, fun row hrow => ?_⟩
  intro columns fields sorted
  have hdistinct : columns.Nodup := Query.nodup_names_of_compile hplan
  have hkeys : row.keys = columns := Plan.keys_of_run hdistinct hrows hrow
  have hnames : (row.map fun field => (field.1, field.2.toJson.sorted)).map Prod.fst = columns := by
    rw [← hkeys, List.map_map]
    rfl
  obtain ⟨level, hshown⟩ :=
    Results.showsObject_sorted spread (hperm.nodup_iff.mpr hnodup) hmem hrow (hkeys ▸ hdistinct)
  refine ⟨hkeys, Results.showsObject spread hmem hrow, ⟨level, ?_⟩, ?_⟩
  · rw [String.toList_append]
    exact hshown.trans (List.prefix_append _ _).isInfix
  · rw [← hnames]
    exact names_sortByName_eq_iff (by rwa [hnames])

/-- One book, and a file that holds it whatever its name. -/
def bookFile : String :=
  "\x7b\"sources\": [\x7b\"name\": \"Book\", \"fields\": [\x7b\"accessor\": \"BookId\", \"type\": \"integer\"\x7d," ++
  "\x7b\"accessor\": \"Title\", \"type\": \"string\"\x7d], \"records\": [\x7b\"BookId\": 1, \"Title\": \"Dune\"\x7d]\x7d]\x7d"

def bookSurroundings : Surroundings := ⟨.terminal, fun _ => .ok bookFile⟩

/-- Columns that ascend are printed in their order. -/
theorem output_run_rows_ascending : ∃ printed context tree results,
    (run (some "select bookId, title from books") "books.json" false).output bookSurroundings = .ok printed ∧
    printed = "\x7b\"books\":[\x7b\"bookId\":1,\"title\":\"Dune\"\x7d]\x7d\n" ∧
    Runs bookSurroundings (some "select bookId, title from books") "books.json" context tree results ∧
    printed = writeJson false results.toJson.sorted ++ "\n" := by
  have hprints : ((run (some "select bookId, title from books") "books.json" false).output
      bookSurroundings).toOption = some "\x7b\"books\":[\x7b\"bookId\":1,\"title\":\"Dune\"\x7d]\x7d\n" := by
    decide +kernel
  cases h : (run (some "select bookId, title from books") "books.json" false).output bookSurroundings with
  | error e =>
    rw [h] at hprints
    cases hprints
  | ok printed =>
    rw [h] at hprints
    obtain ⟨context, tree, results, hruns, hprinted, -⟩ := output_run_rows h
    exact ⟨printed, context, tree, results, rfl, Option.some.inj hprints, hruns, hprinted⟩

/-- The columns `title` and `bookId` are printed the other way round, though the results have them in this order. -/
theorem output_run_unordered :
    ((run (some "select title, bookId from books") "books.json" false).output bookSurroundings).toOption =
      some "\x7b\"books\":[\x7b\"bookId\":1,\"title\":\"Dune\"\x7d]\x7d\n" ∧
    ((loadSources bookFile).toOption.bind fun context =>
      (context.execute "select title, bookId from books" (.initial 1)).1.toOption.map fun results =>
        writeJson false results.toJson) = some "\x7b\"books\":[\x7b\"title\":\"Dune\",\"bookId\":1\x7d]\x7d" :=
  ⟨by decide +kernel, by decide +kernel⟩

end Command
end SelectLang
