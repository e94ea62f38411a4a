/-
# Typed columns

A column that reads a property has the type of the property. Where the records conform to the record type of
the source, so do the values under these columns, in every row of every result (`Query.run_typed`). The
columns follow identifiers through nested properties and the rows follow accessors through nested records; in
between stands `Properties.Offers`, which knows the accessors and the types only. What is offered at the end
of a path is held by every record that conforms (`Properties.Offers.holds`), so that no read of a plan meets a
field that is not there.

Key definitions: `Value.Conforms`, `Value.Holds`, `Properties.Offers`, `Plan.reads`.
Key theorems: `Properties.Offers.holds`, `offers_of_mem_reads`, `get?_of_project`, `Query.run_typed`.
-/
import Mathlib
import SelectLang.Proofs.Plan.Acceptance

namespace SelectLang

/-! ### Values and types -/

/-- The value is of the type. An object may have more fields than its type knows; no value is undefined. -/
inductive Value.Conforms : Value → DataType → Prop where
  | null : Conforms .null (.basic .null)
  | boolean (value : Bool) : Conforms (.boolean value) (.basic .boolean)
  | integer (n : Int64) : Conforms (.integer n) (.basic .number)
  | float (x : Binary64) : Conforms (.float x) (.basic .number)
  | string (text : String) : Conforms (.string text) (.basic .string)
  | array {items : List Value} {element : DataType} (h : ∀ item ∈ items, Conforms item element) :
      Conforms (.array items) (.array element)
  | object {fields : Record} {shape : String} {properties : Properties}
      (hfields : ∀ p ∈ properties, ∃ value, fields.get? p.accessor = some value)
      (h : ∀ p ∈ properties, ∀ value, fields.get? p.accessor = some value → Conforms value p.type) :
      Conforms (.object fields) (.object shape properties)

/-- The record conforms to the type of the records that the type describes. -/
def DataType.Delivers (type : DataType) (record : Value) : Prop :=
  ∃ shape properties, (type = .object shape properties ∨ type = .array (.object shape properties)) ∧
    record.Conforms (.object shape properties)

/-- Along the names there is a field at each step, and the value is in the last. -/
inductive Value.Holds : Value → List String → Value → Prop where
  | here (value : Value) : Holds value [] value
  | inside {fields : Record} {name : String} {names : List String} {inner value : Value}
      (hfield : fields.get? name = some inner) (h : Holds inner names value) :
      Holds (.object fields) (name :: names) value

theorem Value.Holds.follow_eq {record value : Value} {names : List String} (h : record.Holds names value) :
    record.follow names = value := by
  induction h with
  | here value => rfl
  | @inside fields name names inner value hfield _ ih =>
    have hread : (Value.object fields).field name = inner :=
      congrArg (fun found : Option Value => found.getD .null) hfield
    rw [← ih, ← hread]
    rfl

/-! ### What properties offer -/

/-- The accessors lead through nested objects to a property of the type. -/
inductive Properties.Offers : Properties → List String → DataType → Prop where
  | here {properties : Properties} {p : Property DataType} (hp : p ∈ properties) :
      Offers properties [p.accessor] p.type
  | inside {properties : Properties} {p : Property DataType} {shape : String} {inner : Properties}
      {accessors : List String} {type : DataType} (hp : p ∈ properties) (hobject : p.type = .object shape inner)
      (h : Offers inner accessors type) : Offers properties (p.accessor :: accessors) type

theorem Properties.IsFirst.mem {properties : Properties} {name : String} {p : Property DataType}
    (h : properties.IsFirst name p) : p ∈ properties := by
  obtain ⟨-, front, back, rfl, -⟩ := h
  exact List.mem_append_right front List.mem_cons_self

theorem Properties.Leads.offers {properties : Properties} {segments accessors : List String}
    {p : Property DataType} (h : properties.Leads segments accessors p) : properties.Offers accessors p.type := by
  induction h with
  | here hfirst => exact .here hfirst.mem
  | inside hfirst hobject _ ih => exact .inside hfirst.mem hobject ih

/-- A record that conforms holds what its properties offer. -/
theorem Properties.Offers.holds {properties : Properties} {accessors : List String} {type : DataType}
    (h : properties.Offers accessors type) : ∀ {shape : String} {record : Value},
      record.Conforms (.object shape properties) →
        record.Holds accessors (record.follow accessors) ∧ (record.follow accessors).Conforms type := by
  suffices hholds : ∀ {shape : String} {record : Value}, record.Conforms (.object shape properties) →
      ∃ value, record.Holds accessors value ∧ value.Conforms type by
    intro shape record hrecord
    obtain ⟨value, hvalue, htype⟩ := hholds hrecord
    rw [hvalue.follow_eq]
    exact ⟨hvalue, htype⟩
  induction h with
  | here hp =>
    rintro shape _ ⟨⟩
    rename_i fields hfields hall
    obtain ⟨value, hvalue⟩ := hfields _ hp
    exact ⟨value, .inside hvalue (.here value), hall _ hp value hvalue⟩
  | inside hp hobject _ ih =>
    rintro shape _ ⟨⟩
    rename_i fields hfields hall
    obtain ⟨inner, hinner⟩ := hfields _ hp
    obtain ⟨value, hvalue, htype⟩ := ih (hobject ▸ hall _ hp inner hinner)
    exact ⟨value, .inside hinner hvalue, htype⟩

/-! ### What plans read -/

/-- The paths that the computation reads from a record. -/
def ColumnExpr.reads : ColumnExpr → List (List String)
  | read accessors => [accessors]
  | literal _ => []
  | binary _ left right => left.reads ++ right.reads

/-- A key that reads a column reads nothing from the record itself. -/
def SortTarget.reads : SortTarget → List (List String)
  | column _ => []
  | source accessors => [accessors]

/-- The paths that the columns and the sort keys read. -/
def Plan.reads (plan : Plan) : List (List String) :=
  plan.columns.flatMap (·.expr.reads) ++ plan.sortKeys.flatMap (·.target.reads)

section

variable {properties : Properties}

theorem offers_of_resolve {path : NamePath} {accessors : List String} {p : Property DataType}
    (h : resolve properties path = .ok (accessors, p)) : properties.Offers accessors p.type := by
  rw [resolve] at h
  split at h
  · rename_i found hfound
    cases h
    exact (leads_iff.mpr hfound).offers
  · cases h

theorem offers_of_lower : ∀ {e : Expr} {c : ColumnExpr}, lower properties e = .ok c →
    ∀ accessors ∈ c.reads, ∃ type, properties.Offers accessors type
  | .literal _, _, h, accessors, hmem => by
    cases h
    cases hmem
  | .path name, _, h, accessors, hmem => by
    rw [lower] at h
    split at h
    · rename_i found p hfound
      cases h
      rw [ColumnExpr.reads, List.mem_singleton] at hmem
      exact ⟨p.type, hmem ▸ offers_of_resolve hfound⟩
    · cases h
  | .binary _ _ _, _, h, accessors, hmem => by
    obtain ⟨a, b, ha, hb, rfl⟩ := lower_binary h
    rcases List.mem_append.mp hmem with hmem | hmem
    · exact offers_of_lower ha accessors hmem
    · exact offers_of_lower hb accessors hmem
  | .wildcard _, _, h, _, _ => by cases h
  | .call _ _, _, h, _, _ => by cases h
  | .pipe _ _, _, h, _, _ => by cases h

/-- What is read as a whole has the type of what is read, and what is worked out otherwise has none. -/
inductive Properties.Types (properties : Properties) : ColumnType → ColumnExpr → Prop where
  | read {accessors : List String} {type : DataType} (h : properties.Offers accessors type) :
      Types properties (.typed type) (.read accessors)
  | literal (value : Value) : Types properties .dynamic (.literal value)
  | binary {op : Operator} {left right : ColumnExpr}
      (h : ∀ accessors ∈ (ColumnExpr.binary op left right).reads, ∃ type, properties.Offers accessors type) :
      Types properties .dynamic (.binary op left right)

theorem types_of_lower {e : Expr} {c : ColumnExpr} (hpath : ∀ name, e ≠ .path name)
    (h : lower properties e = .ok c) : properties.Types .dynamic c := by
  cases e with
  | literal value =>
    cases h
    exact .literal _
  | path name => exact absurd rfl (hpath name)
  | binary op l r =>
    have hreads := offers_of_lower h
    obtain ⟨a, b, -, -, rfl⟩ := lower_binary h
    exact .binary hreads
  | _ => cases h

theorem types_of_drafts {atom : Atom} {drafts : List Draft} (h : atom.drafts properties = .ok drafts) :
    ∀ draft ∈ drafts, properties.Types draft.type draft.expr := by
  unfold Atom.drafts at h
  split at h
  · split at h
    · cases h
    · split at h
      · cases h
        intro draft hdraft
        obtain ⟨p, hp, rfl⟩ := List.mem_map.mp hdraft
        exact .read (.here hp)
      · cases h
  · split at h
    · cases h
    · rename_i accessors p hresolve
      cases h
      intro draft hdraft
      rw [List.mem_singleton.mp hdraft]
      exact .read (offers_of_resolve hresolve)
  · rename_i hpath
    split at h
    · cases h
    · rename_i c hc
      cases h
      intro draft hdraft
      rw [List.mem_singleton.mp hdraft]
      exact types_of_lower hpath hc

theorem types_of_draftsOf : ∀ {atoms : List Atom} {drafts : List Draft},
    draftsOf properties atoms = .ok drafts → ∀ draft ∈ drafts, properties.Types draft.type draft.expr
  | [], _, h => by
    cases h
    exact nofun
  | _ :: _, _, h => by
    obtain ⟨front, more, hfront, hmore, rfl⟩ := draftsOf_cons h
    exact List.forall_mem_append.mpr ⟨types_of_drafts hfront, types_of_draftsOf hmore⟩

/-- Naming keeps the types. -/
theorem types_of_nameColumns {given : List String} : ∀ {drafts : List Draft} {used : ℕ}
    {seen : List String} {columns : List Column}, nameColumns given used seen drafts = .ok columns →
      (∀ draft ∈ drafts, properties.Types draft.type draft.expr) →
        ∀ column ∈ columns, properties.Types column.type column.expr
  | [], _, _, _, h, _ => by
    cases h
    exact nofun
  | _ :: _, _, _, _, h, hdrafts => by
    obtain ⟨_, _, more, -, hmore, rfl⟩ := nameColumns_cons h
    obtain ⟨hdraft, hdrafts⟩ := List.forall_mem_cons.mp hdrafts
    exact List.forall_mem_cons.mpr ⟨hdraft, types_of_nameColumns hmore hdrafts⟩

theorem types_of_columnsOf {atoms : List Atom} {columns : List Column}
    (h : columnsOf properties atoms = .ok columns) :
    ∀ column ∈ columns, properties.Types column.type column.expr := by
  unfold columnsOf at h
  split at h
  · cases h
  · rename_i drafts hdrafts
    exact types_of_nameColumns h (types_of_draftsOf hdrafts)

theorem Properties.Types.offers {type : ColumnType} {c : ColumnExpr} (h : properties.Types type c) :
    ∀ accessors ∈ c.reads, ∃ type, properties.Offers accessors type := by
  cases h with
  | read h =>
    intro accessors hmem
    exact ⟨_, List.mem_singleton.mp hmem ▸ h⟩
  | literal value => exact nofun
  | binary h => exact h

theorem Properties.Types.isTyped_iff {type : ColumnType} {c : ColumnExpr} (h : properties.Types type c) :
    (∃ t, type = .typed t) ↔ ∃ accessors, c = .read accessors := by
  cases h <;> simp

theorem offers_of_key {columns : List Column} {term : SortTerm} {key : SortKey}
    (h : term.key columns properties = .ok key) :
    ∀ accessors ∈ key.target.reads, ∃ type, properties.Offers accessors type := by
  unfold SortTerm.key at h
  split at h
  · split at h
    · cases h
      exact nofun
    · split at h
      · cases h
      · rename_i accessors p hresolve
        cases h
        intro read hmem
        exact ⟨p.type, List.mem_singleton.mp hmem ▸ offers_of_resolve hresolve⟩
  · cases h

/-- Whatever a plan reads is offered by the properties. -/
theorem offers_of_mem_reads {query : Query} {plan : Plan} (h : query.planOver properties = .ok plan)
    {accessors : List String} (hmem : accessors ∈ plan.reads) : ∃ type, properties.Offers accessors type := by
  obtain ⟨hcolumns, hkeys, -⟩ := planOver_eq_ok.mp h
  rcases List.mem_append.mp hmem with hmem | hmem
  · obtain ⟨column, hcolumn, hmem⟩ := List.mem_flatMap.mp hmem
    exact (types_of_columnsOf hcolumns column hcolumn).offers accessors hmem
  · obtain ⟨key, hkey, hmem⟩ := List.mem_flatMap.mp hmem
    rw [sortKeysOf_eq_mapM] at hkeys
    obtain ⟨term, -, hterm⟩ := exists_of_mem_mapM hkeys hkey
    exact offers_of_key hterm accessors hmem

end

/-! ### What rows hold -/

theorem get?_zip {columns : List Column} {values : List Value} {record : Value}
    (hnodup : (columns.map Column.name).Nodup)
    (h : List.Forall₂ (fun c value => ColumnExpr.eval record c = .ok value) (columns.map Column.expr) values) :
    ∀ column ∈ columns, ∃ value, Record.get? ((columns.map Column.name).zip values) column.name = some value ∧
      column.expr.eval record = .ok value := by
  induction columns generalizing values with
  | nil => exact nofun
  | cons first columns ih =>
    obtain ⟨value, more, hvalue, hmore, rfl⟩ := List.forall₂_cons_left_iff.mp h
    obtain ⟨hname, hnodup⟩ := List.nodup_cons.mp hnodup
    intro column hmem
    rcases List.mem_cons.mp hmem with rfl | hmem
    · exact ⟨value, if_pos rfl, hvalue⟩
    · obtain ⟨found, hfound, heval⟩ := ih hnodup hmore column hmem
      have hne : first.name ≠ column.name := fun h => hname (h ▸ List.mem_map_of_mem hmem)
      exact ⟨found, (if_neg hne).trans hfound, heval⟩

/-- A row holds under the name of a column the value of the column. -/
theorem get?_of_project {columns : List Column} (hnodup : (columns.map Column.name).Nodup) {record : Value}
    {row : Record} (hrow : project columns record = .ok row) {column : Column} (hmem : column ∈ columns) :
    ∃ value, row.get? column.name = some value ∧ column.expr.eval record = .ok value := by
  rw [project_eq hnodup] at hrow
  cases hvalues : valuesOf columns record with
  | error e =>
    rw [hvalues] at hrow
    cases hrow
  | ok values =>
    rw [hvalues] at hrow
    cases hrow
    exact get?_zip hnodup (mapM_eq_ok.mp hvalues) column hmem

/-- Every row of a result is that of one of the records. -/
theorem exists_record_of_mem_rows {plan : Plan} {records : List Value} {result : QueryResult}
    (hrun : plan.run records = .ok result) {row : Record} (hrow : row ∈ result.rows) :
    ∃ record ∈ records, project plan.columns record = .ok row := by
  obtain ⟨rows, hrows, hsub⟩ := Plan.exists_rows_of_run hrun
  exact exists_of_mem_mapM hrows (hsub.subset hrow)

/-- Over records that conform, every row holds under a typed column a value of the type, and every read of the
plan meets the fields that it names. The typed columns are those that read. -/
theorem Query.run_typed {query : Query} {source : Source} {plan : Plan} {records : List Value}
    {result : QueryResult} (hcompile : query.compile source = .ok plan)
    (hrecords : ∀ record ∈ records, source.type.Delivers record) (hrun : plan.run records = .ok result) :
    (∀ row ∈ result.rows, ∀ column ∈ plan.columns, ∀ type, column.type = .typed type →
      ∃ value, row.get? column.name = some value ∧ value.Conforms type) ∧
    (∀ record ∈ records, ∀ accessors ∈ plan.reads, record.Holds accessors (record.follow accessors)) ∧
    ∀ column ∈ plan.columns, (∃ type, column.type = .typed type) ↔ ∃ accessors, column.expr = .read accessors := by
  obtain ⟨properties, hproperties, hplan⟩ := Query.planOver_of_compile hcompile
  obtain ⟨hcolumns, -⟩ := planOver_eq_ok.mp hplan
  have htypes := types_of_columnsOf hcolumns
  have hconforms : ∀ record ∈ records, ∃ shape, record.Conforms (.object shape properties) := by
    intro record hmem
    obtain ⟨shape, inner, htype, hrecord⟩ := hrecords record hmem
    rw [recordProperties?_eq_some.mpr ⟨shape, htype⟩, Option.some.injEq] at hproperties
    exact ⟨shape, hproperties ▸ hrecord⟩
  refine ⟨fun row hrow column hcolumn type htype => ?_, fun record hrecord accessors hmem => ?_,
    fun column hcolumn => (htypes column hcolumn).isTyped_iff⟩
  · obtain ⟨record, hrecord, hproject⟩ := exists_record_of_mem_rows hrun hrow
    obtain ⟨shape, hrecord⟩ := hconforms record hrecord
    obtain ⟨value, hvalue, heval⟩ := get?_of_project (nodup_of_columnsOf hcolumns) hproject hcolumn
    have htyped := htypes column hcolumn
    rw [htype] at htyped
    generalize column.expr = expr at htyped heval
    cases htyped with
    | read hoffers =>
      rw [ColumnExpr.eval, Except.ok.injEq] at heval
      exact ⟨value, hvalue, heval ▸ (hoffers.holds hrecord).2⟩
  · obtain ⟨shape, hrecord⟩ := hconforms record hrecord
    obtain ⟨type, hoffers⟩ := offers_of_mem_reads hplan hmem
    exact (hoffers.holds hrecord).1

/-- Two properties go by one name; the first hides the second. -/
def crateType : DataType :=
  .array (.object "Crate" [⟨"size", "Size", .object "Size" [⟨"width", "Width", .basic .number⟩]⟩,
    ⟨"size", "size", .basic .string⟩, ⟨"labels", "Labels", .array (.basic .string)⟩])

def crates : List Value :=
  [.object [("size", .string "small"), ("Labels", .array [.string "glass", .string "heavy"]),
      ("Size", .object [("Width", .integer 3)])],
    .object [("Size", .object [("Depth", .null), ("Width", .integer 2)]), ("Labels", .array []),
      ("size", .string "large")]]

/-- `select size.width as w, labels, w + 1 from crates order by size.width` -/
def sizedCrates : Query :=
  ⟨⟨["crates"]⟩, [.expression (.path ⟨["size", "width"]⟩) (some ⟨["w"]⟩), .expression (.path ⟨["labels"]⟩) none,
    .expression (.binary .add (.path ⟨["size", "width"]⟩) (.literal (.integer 1))) none],
    .all, [⟨.path ⟨["size", "width"]⟩, .ascending⟩], none, none, none⟩

theorem conforms_size {fields : Record} {n : Int64} (h : fields.get? "Width" = some (.integer n)) :
    (Value.object fields).Conforms (.object "Size" [⟨"width", "Width", .basic .number⟩]) :=
  .object (by simp [h]) (by simpa [h] using .integer n)

theorem delivers_crates : ∀ record ∈ crates, crateType.Delivers record := by
  have hcrate : ∀ {fields size : Record} {text : String} {n : Int64} {labels : List Value},
      fields.get? "Size" = some (.object size) → fields.get? "size" = some (.string text) →
        fields.get? "Labels" = some (.array labels) → size.get? "Width" = some (.integer n) →
          (∀ label ∈ labels, label.Conforms (.basic .string)) → crateType.Delivers (.object fields) := by
    intro fields size text n labels hsize htext hlabels hwidth hall
    exact ⟨_, _, Or.inr rfl, .object (by simp [hsize, htext, hlabels])
      (by simpa [hsize, htext, hlabels] using ⟨conforms_size hwidth, .string text, .array hall⟩)⟩
  rw [crates, List.forall_mem_cons, List.forall_mem_singleton]
  refine ⟨hcrate rfl rfl rfl rfl ?_, hcrate rfl rfl rfl rfl nofun⟩
  simpa using ⟨.string "glass", .string "heavy"⟩

theorem run_typed_crates : ∃ plan rows, sizedCrates.compile ⟨⟨0, 0⟩, ["crates"], crateType, none⟩ = .ok plan ∧
    (∀ record ∈ crates, crateType.Delivers record) ∧ plan.run crates = .ok (.many rows) ∧
    rows.map (Record.get? · "w") = [some (.integer 2), some (.integer 3)] ∧
    (∀ row ∈ rows, ∃ value, row.get? "labels" = some value ∧ value.Conforms (.array (.basic .string))) ∧
    ∀ record ∈ crates, record.Holds ["Size", "Width"] (record.follow ["Size", "Width"]) := by
  let plan : Plan := ⟨[⟨"w", .typed (.basic .number), .read ["Size", "Width"]⟩,
      ⟨"labels", .typed (.array (.basic .string)), .read ["Labels"]⟩,
      ⟨"column1", .dynamic, .binary .add (.read ["Size", "Width"]) (.literal (.integer 1))⟩],
    [⟨.source ["Size", "Width"], .ascending⟩], .all, none, none, none⟩
  let rows : List Record := [[("w", .integer 2), ("labels", .array []), ("column1", .integer 3)],
    [("w", .integer 3), ("labels", .array [.string "glass", .string "heavy"]), ("column1", .integer 4)]]
  have hcompile : sizedCrates.compile ⟨⟨0, 0⟩, ["crates"], crateType, none⟩ = .ok plan := rfl
  have hrun : plan.run crates = .ok (.many rows) := rfl
  obtain ⟨hrows, hreads, -⟩ := Query.run_typed hcompile delivers_crates hrun
  exact ⟨plan, rows, hcompile, delivers_crates, hrun, rfl,
    fun row hrow => hrows row hrow _ (List.mem_cons_of_mem _ List.mem_cons_self) _ rfl,
    fun record hrecord => hreads record hrecord _ List.mem_cons_self⟩

end SelectLang
