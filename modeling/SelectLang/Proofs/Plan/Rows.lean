/-
# The rows of records

The names of the columns differ, so nothing in a row is overwritten: the row of a record holds the values of
the columns, computed from left to right, under the names of the columns and in their order (`project_eq`).
The rows of some records are those of each of them, and the first record that has none ends the run. If all
have one, the run fails only if the sort gives up, or if a single record of more is asked for, and what is
kept is some of the rows.

Key definitions: `valuesOf`, `Query.KeepsAll`.
Key theorems: `mapM_eq_ok`, `project_eq`, `Plan.rowsOf_eq_ofFn`, `Plan.run_cases`, `Query.KeepsAll.run`.
-/
import Mathlib
import SelectLang.Proofs.Plan.Compiling
import SelectLang.Proofs.Value.Records
import SelectLang.Proofs.Sort.Moving

namespace SelectLang

/-! ### Lists of results -/

section

variable {α β ε : Type} {f : α → Except ε β}

theorem mapM_eq_ok : ∀ {as : List α} {bs : List β},
    as.mapM f = .ok bs ↔ List.Forall₂ (fun a b => f a = .ok b) as bs
  | [], bs => by
    rw [List.mapM_nil, List.forall₂_nil_left_iff]
    exact ⟨fun h => by cases h; rfl, fun h => by rw [h]; rfl⟩
  | a :: as, bs => by
    rw [List.mapM_cons, List.forall₂_cons_left_iff]
    cases ha : f a with
    | error e => simp [bind, Except.bind]
    | ok b =>
      cases has : as.mapM f with
      | error e =>
        have hnone : ∀ bs, ¬ List.Forall₂ (fun a b => f a = .ok b) as bs := fun bs h => by
          rw [← mapM_eq_ok, has] at h
          cases h
        simp [bind, Except.bind, hnone]
      | ok more =>
        have hiff : ∀ bs, List.Forall₂ (fun a b => f a = .ok b) as bs ↔ more = bs := fun bs => by
          rw [← mapM_eq_ok, has, Except.ok.injEq]
        simp [bind, Except.bind, pure, Except.pure, hiff, eq_comm]

theorem exists_of_mem_mapM {as : List α} {bs : List β} (h : as.mapM f = .ok bs) {b : β} (hb : b ∈ bs) :
    ∃ a ∈ as, f a = .ok b := by
  rw [mapM_eq_ok] at h
  induction h with
  | nil => cases hb
  | cons hhead _ ih =>
    rcases List.mem_cons.mp hb with rfl | hb
    · exact ⟨_, List.mem_cons_self, hhead⟩
    · obtain ⟨a, ha, hab⟩ := ih hb
      exact ⟨a, List.mem_cons_of_mem _ ha, hab⟩

theorem mapM_map {γ : Type} {g : α → Except ε γ} {make : β → γ} (h : ∀ a, g a = (f a).map make) :
    ∀ as : List α, as.mapM g = (as.mapM f).map (List.map make)
  | [] => rfl
  | a :: as => by
    rw [List.mapM_cons, List.mapM_cons, h, mapM_map h as]
    cases f a with
    | error e => rfl
    | ok b => cases as.mapM f <;> rfl

theorem mapM_mapError {ε' : Type} {g : α → Except ε' β} {make : ε → ε'}
    (h : ∀ a, g a = (f a).mapError make) : ∀ as : List α, as.mapM g = (as.mapM f).mapError make
  | [] => rfl
  | a :: as => by
    rw [List.mapM_cons, List.mapM_cons, h, mapM_mapError h as]
    cases f a with
    | error e => rfl
    | ok b => cases as.mapM f <;> rfl

end

/-! ### One row -/

/-- The values of the columns for a record, from left to right up to the first that fails. -/
def valuesOf (columns : List Column) (record : Value) : Except EvalError (List Value) :=
  (columns.map Column.expr).mapM (ColumnExpr.eval record)

/-- The columns put their values behind what is in the row. -/
theorem projectInto_eq (record : Value) : ∀ {columns : List Column} {row : Record},
    (columns.map Column.name).Nodup → (∀ name ∈ columns.map Column.name, name ∉ row.keys) →
      projectInto record row columns =
        (valuesOf columns record).map fun values => row ++ (columns.map Column.name).zip values
  | [], row, _, _ => congrArg Except.ok (List.append_nil row).symm
  | column :: columns, row, hnodup, hfresh => by
    obtain ⟨hname, hnodup⟩ := List.nodup_cons.mp hnodup
    obtain ⟨hrow, hfresh⟩ := List.forall_mem_cons.mp hfresh
    have hcons : valuesOf (column :: columns) record = do
        let value ← column.expr.eval record
        let values ← valuesOf columns record
        return value :: values := by
      rw [valuesOf, List.map_cons, List.mapM_cons]
      rfl
    rw [projectInto, hcons, List.map_cons]
    cases column.expr.eval record with
    | error e => rfl
    | ok value =>
      simp only [bind, Except.bind]
      rw [projectInto_eq record hnodup, Record.insert_of_not_mem value hrow]
      · cases valuesOf columns record with
        | error e => rfl
        | ok values => simp [Except.map, pure, Except.pure]
      · intro name hmem
        rw [Record.insert_of_not_mem value hrow, Record.keys, List.map_append, List.mem_append]
        rintro (hold | hnew)
        · exact hfresh name hmem hold
        · rw [List.map_singleton, List.mem_singleton] at hnew
          exact hname (by rwa [hnew] at hmem)

/-- The row of a record holds the values of the columns under their names. -/
theorem project_eq {columns : List Column} (h : (columns.map Column.name).Nodup) (record : Value) :
    project columns record = (valuesOf columns record).map (columns.map Column.name).zip := by
  rw [project, projectInto_eq record h fun _ _ => List.not_mem_nil]
  rfl

theorem length_of_values {columns : List Column} {record : Value} {values : List Value}
    (h : valuesOf columns record = .ok values) : (columns.map Column.name).length = values.length := by
  rw [← (mapM_eq_ok.mp h).length_eq, List.length_map, List.length_map]

/-- The fields of a row are the columns. -/
theorem keys_of_project {columns : List Column} (h : (columns.map Column.name).Nodup) {record : Value}
    {row : Record} (hrow : project columns record = .ok row) : row.keys = columns.map Column.name := by
  rw [project_eq h] at hrow
  cases hvalues : valuesOf columns record with
  | error e =>
    rw [hvalues] at hrow
    cases hrow
  | ok values =>
    rw [hvalues] at hrow
    cases hrow
    exact Record.keys_zip (length_of_values hvalues)

/-! ### All rows -/

/-- The rows hold the values that the columns have for the records. -/
theorem exists_rows_of_values {columns : List Column} (h : (columns.map Column.name).Nodup)
    {records : List Value} {values : List (List Value)}
    (hvalues : records.mapM (valuesOf columns) = .ok values) :
    ∃ rows, records.mapM (project columns) = .ok rows ∧
      (∀ row ∈ rows, row.keys = columns.map Column.name) ∧ rows.map (List.map Prod.snd) = values := by
  have hlength : ∀ vs ∈ values, (columns.map Column.name).length = vs.length := by
    have hvalues := (mapM_eq_ok.mp hvalues).flip
    exact ((List.forall₂_and_left _ _).mp (hvalues.imp fun vs _ hvs => ⟨length_of_values hvs, hvs⟩)).1
  refine ⟨values.map (columns.map Column.name).zip, ?_, ?_, ?_⟩
  · rw [mapM_map (project_eq h), hvalues]
    rfl
  · rintro row hrow
    obtain ⟨vs, hvs, rfl⟩ := List.mem_map.mp hrow
    exact Record.keys_zip (hlength vs hvs)
  · rw [List.map_map]
    exact (List.map_congr_left fun vs hvs => List.map_snd_zip (hlength vs hvs).ge).trans (List.map_id values)

theorem Plan.rowsOf_eq_mapM (plan : Plan) : ∀ records : List Value,
    plan.rowsOf records = records.mapM plan.rowOf
  | [] => rfl
  | record :: records => by
    rw [rowsOf, List.mapM_cons, rowsOf_eq_mapM plan records]
    cases plan.rowOf record with
    | error e => rfl
    | ok row => cases records.mapM plan.rowOf <;> rfl

theorem Plan.rowOf_eq_ok {plan : Plan} {record : Value} {row : Record}
    (h : project plan.columns record = .ok row) :
    plan.rowOf record = .ok (row, plan.sortKeys.map (keyValue record row)) := by
  rw [rowOf, h]

/-- Where every record has a row, the rows are these, with what the keys read for them. -/
theorem Plan.rowsOf_eq_ofFn {plan : Plan} {records : List Value} {row : Fin records.length → Record}
    (h : ∀ i, project plan.columns (records.get i) = .ok (row i)) : plan.rowsOf records =
      .ok (List.ofFn fun i => (row i, plan.sortKeys.map (keyValue (records.get i) (row i)))) := by
  rw [rowsOf_eq_mapM, mapM_eq_ok, List.forall₂_iff_get]
  refine ⟨(List.length_ofFn).symm, fun i hi _ => ?_⟩
  rw [List.get_eq_getElem, List.get_ofFn]
  exact rowOf_eq_ok (h ⟨i, hi⟩)

/-- Without the keys the rows are those of each record. -/
theorem Plan.mapM_project (plan : Plan) (records : List Value) :
    records.mapM (project plan.columns) = (plan.rowsOf records).map (List.map Prod.fst) := by
  rw [rowsOf_eq_mapM]
  refine mapM_map (fun record => ?_) records
  rw [rowOf]
  cases project plan.columns record <;> rfl

theorem Plan.exists_rowsOf {plan : Plan} {records : List Value} {rows : List Record}
    (h : records.mapM (project plan.columns) = .ok rows) :
    ∃ keyed, plan.rowsOf records = .ok keyed ∧ keyed.map Prod.fst = rows := by
  rw [mapM_project] at h
  cases hkeyed : plan.rowsOf records with
  | error e =>
    rw [hkeyed] at h
    cases h
  | ok keyed =>
    rw [hkeyed] at h
    exact ⟨keyed, rfl, Except.ok.inj h⟩

/-! ### The rows of a result -/

namespace Plan

variable {plan : Plan} {records : List Value}

theorem sortRows?_perm {rows : List (Record × List Value)} {sorted : List Record}
    (h : plan.sortRows? rows = some sorted) : sorted.Perm (rows.map Prod.fst) := by
  rw [sortRows?] at h
  split at h
  · cases h
    exact .refl _
  · obtain ⟨keyed, hkeyed, rfl⟩ := Option.map_eq_some_iff.mp h
    exact (stableSort?_perm hkeyed).map Prod.fst

/-- Few rows are sorted whatever their keys are, and so are rows without keys. -/
theorem sortRows?_eq_none {rows : List (Record × List Value)} (h : plan.sortRows? rows = none) :
    plan.sortKeys ≠ [] ∧ 20 < rows.length := by
  rw [sortRows?] at h
  split at h
  · cases h
  · rename_i hkeys
    refine ⟨fun hnone => hkeys (List.isEmpty_iff.mpr hnone), ?_⟩
    by_contra hfew
    rw [stableSort?_of_length_le (Nat.le_of_not_lt hfew)] at h
    cases h

/-- Only `one` fails to keep some of the rows, if there are more. -/
theorem reduce_cases (plan : Plan) (rows : List Record) :
    (plan.reduction = .one ∧ 1 < rows.length ∧
      plan.reduce rows = .error (.multipleResults rows.length)) ∨
    (¬ (plan.reduction = .one ∧ 1 < rows.length) ∧
      ∃ kept, plan.reduce rows = .ok kept ∧ kept.Sublist rows) := by
  unfold reduce
  cases plan.reduction with
  | all => exact Or.inr ⟨nofun, rows, rfl, .refl rows⟩
  | take count => exact Or.inr ⟨nofun, _, rfl, List.take_sublist count rows⟩
  | first => exact Or.inr ⟨nofun, _, rfl, List.take_sublist 1 rows⟩
  | last =>
    refine Or.inr ⟨nofun, _, rfl, ?_⟩
    cases hlast : rows.getLast? with
    | none => exact List.nil_sublist rows
    | some row => exact List.singleton_sublist.mpr (List.mem_of_getLast? hlast)
  | one =>
    by_cases hlength : 1 < rows.length
    · exact Or.inl ⟨rfl, hlength, if_pos hlength⟩
    · exact Or.inr ⟨fun h => hlength h.2, rows, if_neg hlength, .refl rows⟩

theorem window_sublist (plan : Plan) (rows : List Record) : (plan.window rows).Sublist rows := by
  have hdrop : ∀ {n : Nat} {kept : List Record}, kept.Sublist rows → (kept.drop n).Sublist rows :=
    fun h => (List.drop_sublist _ _).trans h
  have htake : ∀ {n : Nat} {kept : List Record}, kept.Sublist rows → (kept.take n).Sublist rows :=
    fun h => (List.take_sublist _ _).trans h
  unfold window
  cases plan.offset <;> cases plan.limit <;> cases plan.pagination <;>
    apply_rules [hdrop, htake, List.Sublist.refl]

/-- A record without a row ends the run. -/
theorem run_eq_error {e : EvalError} (h : records.mapM (project plan.columns) = .error e) :
    plan.run records = .error (.execution (.evaluation e)) := by
  rw [mapM_project] at h
  cases hkeyed : plan.rowsOf records with
  | error e' =>
    rw [hkeyed] at h
    cases h
    rw [run, hkeyed]
  | ok keyed =>
    rw [hkeyed] at h
    cases h

/-- Once all records have rows, a run fails only if the sort gives up, or if a single one of more is asked
for, and what it gives is some of the rows. -/
theorem run_cases {keyed : List (Record × List Value)} (hkeyed : plan.rowsOf records = .ok keyed) :
    (plan.sortRows? keyed = none ∧ plan.run records = .error .disordered) ∨
      ∃ sorted, plan.sortRows? keyed = some sorted ∧
        ((plan.reduction = .one ∧ 1 < records.length ∧
          plan.run records = .error (.compile (.multipleResults records.length))) ∨
        (¬ (plan.reduction = .one ∧ 1 < records.length) ∧
          ∃ result, plan.run records = .ok result ∧ result.rows.Subperm (keyed.map Prod.fst))) := by
  have hrows : records.mapM (project plan.columns) = .ok (keyed.map Prod.fst) := by
    rw [mapM_project, hkeyed]
    rfl
  cases hsorted : plan.sortRows? keyed with
  | none => exact Or.inl ⟨rfl, by simp only [run, hkeyed, hsorted]⟩
  | some sorted =>
    refine Or.inr ⟨sorted, rfl, ?_⟩
    have hperm := sortRows?_perm hsorted
    have hlength : sorted.length = records.length :=
      hperm.length_eq.trans (mapM_eq_ok.mp hrows).length_eq.symm
    simp only [run, hkeyed, hsorted]
    rcases plan.reduce_cases sorted with ⟨hone, hmany, herror⟩ | ⟨hfine, kept, hkept, hsub⟩
    · rw [hlength] at hmany herror
      rw [herror]
      exact Or.inl ⟨hone, hmany, rfl⟩
    · rw [hlength] at hfine
      rw [hkept]
      refine Or.inr ⟨hfine, _, rfl, ?_⟩
      have hsome := ((plan.window_sublist kept).trans hsub).subperm.trans hperm.subperm
      split
      · have hhead : (plan.window kept).head?.toList.Sublist (plan.window kept) := by
          rw [← List.take_one]
          exact List.take_sublist 1 _
        exact hhead.subperm.trans hsome
      · exact hsome

/-- What a run gives is some of the rows of the records. -/
theorem exists_rows_of_run {result : QueryResult} (h : plan.run records = .ok result) :
    ∃ rows, records.mapM (project plan.columns) = .ok rows ∧ result.rows.Subperm rows := by
  cases hkeyed : plan.rowsOf records with
  | error e =>
    rw [run, hkeyed] at h
    cases h
  | ok keyed =>
    rcases run_cases hkeyed with ⟨-, herror⟩ | ⟨sorted, -, ⟨-, -, herror⟩ | ⟨-, result', hresult, hsub⟩⟩
    · rw [herror] at h
      cases h
    · rw [herror] at h
      cases h
    · rw [h] at hresult
      cases hresult
      exact ⟨_, by rw [mapM_project, hkeyed]; rfl, hsub⟩

end Plan

/-- All rows are kept. -/
structure Query.KeepsAll (query : Query) : Prop where
  top : query.top = .all
  offset : query.offset = none
  limit : query.limit = none
  pagination : query.pagination = none

/-- Where all rows are kept, the result is the sorted rows. -/
theorem Query.KeepsAll.run {query : Query} (h : query.KeepsAll) {properties : Properties} {plan : Plan}
    (hplan : query.planOver properties = .ok plan) {records : List Value}
    {rows : List (Record × List Value)} (hrows : plan.rowsOf records = .ok rows) {sorted : List Record}
    (hsorted : plan.sortRows? rows = some sorted) : plan.run records = .ok (.many sorted) := by
  obtain ⟨-, -, hreduction, -, hoffset, hlimit, hpage⟩ := planOver_eq_ok.mp hplan
  rw [h.top, Top.reduction, Except.ok.injEq] at hreduction
  rw [h.offset, Option.map_none] at hoffset
  rw [h.limit, Option.map_none] at hlimit
  rw [h.pagination] at hpage
  simp [Plan.run, hrows, hsorted, Plan.reduce, ← hreduction, Plan.window, hoffset, hlimit, hpage,
    Reduction.isSingle]

end SelectLang
