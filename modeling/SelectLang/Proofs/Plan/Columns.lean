/-
# The columns of a selection

A selection whose items can be computed makes one column for each item, and for a wildcard one for each property
(`Atom.Makes`). The columns are named from left to right: where a name is given it stands, and the others are
called by the free numbers in turn (`NamedFrom`). Only given names can meet, so the selection has these columns
exactly if no name is given twice; else it is refused with the first of these names that stands there already,
which is the same whether one looks at the given names or at those of all columns
(`NamedFrom.firstRepeat`). A row is built by inserting under the names, and as they differ nothing is lost: it has
the names as its keys, in their order.

Key definitions: `Atom.Makes`, `NamedFrom`.
Key theorems: `NamedFrom.nodup`, `NamedFrom.firstRepeat`, `columnsOf_named`.
-/
import Mathlib
import SelectLang.Proofs.Plan.Typing

namespace SelectLang

/-! ### What an item makes -/

/-- The columns of an item with the names that are given: all properties for a wildcard, the property at its end for
a path, and else what the expression computes. -/
inductive Atom.Makes (properties : Properties) : Atom → List Draft → Prop where
  | wildcard : Makes properties (.expression (.wildcard 1) none)
      (properties.map fun p => ⟨some p.identifier, .typed p.type, .read [p.accessor]⟩)
  | path {atom : Atom} {name : NamePath} {accessors : List String} {p : Property DataType}
      (hexpr : atom.expr = .path name) (h : properties.Leads name.segments accessors p) :
      Makes properties atom
        [⟨some ((atom.output.map NamePath.dotted).getD p.identifier), .typed p.type, .read accessors⟩]
  | computed {atom : Atom} {c : ColumnExpr} (hpath : ∀ name, atom.expr ≠ .path name)
      (h : lower properties atom.expr = .ok c) :
      Makes properties atom [⟨atom.output.map NamePath.dotted, .dynamic, c⟩]

theorem exists_makes {properties : Properties} {atom : Atom} (h : atom.IsSupported properties) :
    ∃ drafts, atom.drafts properties = .ok drafts ∧ atom.Makes properties drafts := by
  cases h with
  | wildcard => exact ⟨_, rfl, .wildcard⟩
  | computable h =>
    by_cases hpath : ∃ name, atom.expr = .path name
    · obtain ⟨name, hexpr⟩ := hpath
      rw [hexpr] at h
      obtain ⟨accessors, p, hleads⟩ : properties.Resolves name := by
        cases h with
        | path h => exact h
      exact ⟨_, drafts_of_leads hexpr hleads, .path hexpr hleads⟩
    · have hwildcard : ∀ level, atom.expr ≠ .wildcard level := by
        intro level hexpr
        rw [hexpr] at h
        cases h
      have hpath : ∀ name, atom.expr ≠ .path name := fun name hexpr => hpath ⟨name, hexpr⟩
      obtain ⟨c, hc⟩ := lower_of_computable h
      refine ⟨_, ?_, .computed hpath hc⟩
      rw [drafts_of_computed hwildcard hpath, hc]
      rfl

theorem exists_groups {properties : Properties} : ∀ {atoms : List Atom},
    (∀ atom ∈ atoms, atom.IsSupported properties) → ∃ groups,
      draftsOf properties atoms = .ok groups.flatten ∧ List.Forall₂ (Atom.Makes properties) atoms groups
  | [], _ => ⟨[], rfl, .nil⟩
  | atom :: atoms, h => by
    obtain ⟨hatom, hatoms⟩ := List.forall_mem_cons.mp h
    obtain ⟨drafts, hdrafts, hmakes⟩ := exists_makes hatom
    obtain ⟨groups, hgroups, hall⟩ := exists_groups hatoms
    refine ⟨drafts :: groups, ?_, .cons hmakes hall⟩
    rw [draftsOf, hdrafts]
    dsimp only
    rw [hgroups, List.flatten_cons]

/-! ### How the columns are named -/

/-- The columns with all their names, when `k` were numbered before: a given name stands, and a column without one is
called by the free number that has `k` free numbers below it. -/
inductive NamedFrom (given : List String) : ℕ → List Draft → List Column → Prop where
  | nil (k : ℕ) : NamedFrom given k [] []
  | given {k : ℕ} {drafts : List Draft} {columns : List Column} (name : String) (type : ColumnType)
      (expr : ColumnExpr) (h : NamedFrom given k drafts columns) :
      NamedFrom given k (⟨some name, type, expr⟩ :: drafts) (⟨name, type, expr⟩ :: columns)
  | numbered {n : ℕ} {drafts : List Draft} {columns : List Column} (type : ColumnType) (expr : ColumnExpr)
      (hfree : IsFree given n) (h : NamedFrom given (Nat.count (IsFree given) n + 1) drafts columns) :
      NamedFrom given (Nat.count (IsFree given) n) (⟨none, type, expr⟩ :: drafts)
        (⟨numberedName n, type, expr⟩ :: columns)

theorem infinite_isFree (given : List String) : {n | IsFree given n}.Infinite := by
  apply Set.infinite_of_forall_exists_gt
  intro n
  obtain ⟨habove, hfree, -⟩ := nextNumber_spec given n
  exact ⟨nextNumber given n, hfree, habove⟩

theorem NamedFrom.nth {given : List String} {k : ℕ} {drafts : List Draft} {columns : List Column}
    (type : ColumnType) (expr : ColumnExpr) (h : NamedFrom given (k + 1) drafts columns) :
    NamedFrom given k (⟨none, type, expr⟩ :: drafts)
      (⟨numberedName (Nat.nth (IsFree given) k), type, expr⟩ :: columns) := by
  have hfree := Nat.nth_mem_of_infinite (infinite_isFree given) k
  have hk := Nat.count_nth_of_infinite (infinite_isFree given) k
  rw [← hk] at h
  have hnumbered := NamedFrom.numbered type expr hfree h
  rwa [hk] at hnumbered

theorem exists_namedFrom (given : List String) : ∀ (k : ℕ) (drafts : List Draft),
    ∃ columns, NamedFrom given k drafts columns
  | k, [] => ⟨[], .nil k⟩
  | k, ⟨some name, type, expr⟩ :: drafts => by
    obtain ⟨columns, h⟩ := exists_namedFrom given k drafts
    exact ⟨_, .given name type expr h⟩
  | k, ⟨none, type, expr⟩ :: drafts => by
    obtain ⟨columns, h⟩ := exists_namedFrom given (k + 1) drafts
    exact ⟨_, .nth type expr h⟩

/-- Columns whose names are filled in are named so. -/
theorem namedFrom_of_names {given : List String} {drafts : List Draft} {columns : List Column}
    (h : List.Forall₂ (fun draft column => column.type = draft.type ∧ column.expr = draft.expr) drafts columns) :
    ∀ {k : ℕ}, columns.map Column.name = fillNames given k (drafts.map Draft.name) →
      NamedFrom given k drafts columns := by
  induction h with
  | nil => exact fun _ => .nil _
  | @cons draft column drafts columns hhead _ ih =>
    obtain ⟨slot, type, expr⟩ := draft
    obtain ⟨name, type', expr'⟩ := column
    obtain ⟨rfl, rfl⟩ := hhead
    intro k hnames
    cases slot with
    | some given =>
      obtain ⟨rfl, hrest⟩ := List.cons.inj hnames
      exact .given name type' expr' (ih hrest)
    | none =>
      obtain ⟨rfl, hrest⟩ := List.cons.inj hnames
      exact .nth type' expr' (ih hrest)

/-- A column keeps what is computed when it is named. -/
theorem keeps_of_nameColumns {given : List String} : ∀ {drafts : List Draft} {used : ℕ} {seen : List String}
    {columns : List Column}, nameColumns given used seen drafts = .ok columns →
      List.Forall₂ (fun draft column => column.type = draft.type ∧ column.expr = draft.expr) drafts columns
  | [], _, _, _, h => by
    cases h
    exact .nil
  | draft :: drafts, _, _, _, h => by
    obtain ⟨_, name, more, -, hmore, rfl⟩ := nameColumns_cons h
    exact .cons ⟨rfl, rfl⟩ (keeps_of_nameColumns hmore)

namespace NamedFrom

variable {given : List String} {k : ℕ} {drafts : List Draft} {columns : List Column}

theorem append {front back : List Draft} (h : NamedFrom given k (front ++ back) columns) :
    ∃ columns₁ columns₂ next, columns = columns₁ ++ columns₂ ∧ NamedFrom given k front columns₁ ∧
      NamedFrom given next back columns₂ := by
  induction front generalizing k columns with
  | nil => exact ⟨[], columns, k, rfl, .nil k, h⟩
  | cons draft front ih =>
    rw [List.cons_append] at h
    cases h with
    | given name type expr h =>
      obtain ⟨columns₁, columns₂, next, rfl, hfront, hback⟩ := ih h
      exact ⟨_ :: columns₁, columns₂, next, rfl, .given name type expr hfront, hback⟩
    | numbered type expr hfree h =>
      obtain ⟨columns₁, columns₂, next, rfl, hfront, hback⟩ := ih h
      exact ⟨_ :: columns₁, columns₂, next, rfl, .numbered type expr hfree hfront, hback⟩

/-- A given name is the name of a column. -/
theorem mem_of_given (h : NamedFrom given k drafts columns) {name : String}
    (hname : name ∈ drafts.filterMap Draft.name) : name ∈ columns.map Column.name := by
  induction h with
  | nil => exact hname
  | given other type expr _ ih =>
    rw [List.filterMap_cons_some (f := Draft.name) rfl] at hname
    rcases List.mem_cons.mp hname with rfl | hname
    · exact List.mem_cons_self
    · exact List.mem_cons_of_mem _ (ih hname)
  | numbered type expr _ _ ih =>
    rw [List.filterMap_cons_none (f := Draft.name) rfl] at hname
    exact List.mem_cons_of_mem _ (ih hname)

/-- The other names are those of numbers that were not used before. -/
theorem given_or_numbered (h : NamedFrom given k drafts columns) {name : String}
    (hname : name ∈ columns.map Column.name) : name ∈ drafts.filterMap Draft.name ∨
      ∃ n, name = numberedName n ∧ IsFree given n ∧ k ≤ Nat.count (IsFree given) n := by
  induction h with
  | nil => exact Or.inl hname
  | given other type expr _ ih =>
    rw [List.filterMap_cons_some (f := Draft.name) rfl]
    rcases List.mem_cons.mp hname with rfl | hname
    · exact Or.inl List.mem_cons_self
    · exact (ih hname).imp_left (List.mem_cons_of_mem _)
  | @numbered n _ _ type expr hfree _ ih =>
    rw [List.filterMap_cons_none (f := Draft.name) rfl]
    rcases List.mem_cons.mp hname with rfl | hname
    · exact Or.inr ⟨n, rfl, hfree, le_rfl⟩
    · refine (ih hname).imp_right ?_
      rintro ⟨m, hm, hfree, hle⟩
      exact ⟨m, hm, hfree, by omega⟩

/-- No names meet but given ones. -/
theorem nodup (h : NamedFrom given k drafts columns) (hgiven : drafts.filterMap Draft.name ⊆ given)
    (hnodup : (drafts.filterMap Draft.name).Nodup) : (columns.map Column.name).Nodup := by
  induction h with
  | nil => exact .nil
  | given name type expr h ih =>
    rw [List.filterMap_cons_some (f := Draft.name) rfl] at hgiven hnodup
    obtain ⟨hname, hrest⟩ := List.cons_subset.mp hgiven
    obtain ⟨hnew, hnodup⟩ := List.nodup_cons.mp hnodup
    refine List.nodup_cons.mpr ⟨fun hmem => ?_, ih hrest hnodup⟩
    rcases h.given_or_numbered hmem with hmem | ⟨n, rfl, hfree, -⟩
    · exact hnew hmem
    · exact hfree.2 hname
  | @numbered n _ _ type expr hfree h ih =>
    rw [List.filterMap_cons_none (f := Draft.name) rfl] at hgiven hnodup
    refine List.nodup_cons.mpr ⟨fun hmem => ?_, ih hgiven hnodup⟩
    rcases h.given_or_numbered hmem with hmem | ⟨m, hm, -, hle⟩
    · exact hfree.2 (hgiven hmem)
    · rw [numberedName_injective hm] at hle
      omega

/-- The first column that repeats a name has a given one. -/
theorem firstRepeat (h : NamedFrom given k drafts columns) (hgiven : drafts.filterMap Draft.name ⊆ given)
    {name : String} (hrepeat : FirstRepeat (drafts.filterMap Draft.name) name) :
    FirstRepeat (columns.map Column.name) name := by
  obtain ⟨front, back, heq, hnodup, hmem⟩ := hrepeat
  obtain ⟨drafts₁, drafts₂, rfl, rfl, hrest⟩ := List.filterMap_eq_append_iff.mp heq
  obtain ⟨between, draft, rest, rfl, hbetween, hname, -⟩ := List.filterMap_eq_cons_iff.mp hrest
  have hfront : (drafts₁ ++ between).filterMap Draft.name = drafts₁.filterMap Draft.name := by
    rw [List.filterMap_append, List.filterMap_eq_nil_iff.mpr hbetween, List.append_nil]
  rw [← List.append_assoc] at h hgiven
  obtain ⟨columns₁, columns₂, next, rfl, h₁, h₂⟩ := h.append
  obtain ⟨slot, type, expr⟩ := draft
  obtain rfl : slot = some name := hname
  cases h₂ with
  | given name type expr h₂ =>
    rw [List.filterMap_append, hfront] at hgiven
    refine ⟨columns₁.map Column.name, _, List.map_append, ?_, ?_⟩
    · exact h₁.nodup (by rw [hfront]; exact (List.append_subset.mp hgiven).1) (by rwa [hfront])
    · exact h₁.mem_of_given (by rwa [hfront])

end NamedFrom

/-! ### Selections -/

theorem columnsOf_eq_nameColumns {properties : Properties} {atoms : List Atom} {drafts : List Draft}
    (h : draftsOf properties atoms = .ok drafts) :
    columnsOf properties atoms = nameColumns (drafts.filterMap Draft.name) 0 [] drafts := by
  rw [columnsOf, h]

/-- The names are given once each, and all the columns are named. -/
theorem columnsOf_of_nodup {properties : Properties} {atoms : List Atom} {drafts : List Draft}
    (h : draftsOf properties atoms = .ok drafts) (hnodup : (drafts.filterMap Draft.name).Nodup) :
    ∃ columns, columnsOf properties atoms = .ok columns ∧
      NamedFrom (drafts.filterMap Draft.name) 0 drafts columns := by
  rw [columnsOf_eq_nameColumns h]
  obtain ⟨columns, hcolumns, hnames⟩ := nameColumns_of_nodup (namedSoFar_nil (drafts.filterMap Draft.name))
    (fun _ h => h) (by rwa [List.nil_append])
  refine ⟨columns, hcolumns, namedFrom_of_names (keeps_of_nameColumns hcolumns) ?_⟩
  have hzero : ¬ IsFree (drafts.filterMap Draft.name) 0 := fun h => absurd h.1 (Nat.lt_irrefl 0)
  rwa [Nat.count_succ, Nat.count_zero, if_neg hzero] at hnames

/-- **The columns of a selection.** The items make columns, and these are named, whatever the names. If no name is
given twice the selection has these columns, and their names differ; else it is refused with the name of the first
column that repeats one. Every row of a plan with its columns has the names as keys, in their order. -/
theorem columnsOf_named {properties : Properties} {atoms : List Atom}
    (hatoms : ∀ atom ∈ atoms, atom.IsSupported properties) :
    ∃ groups columns, List.Forall₂ (Atom.Makes properties) atoms groups ∧
      NamedFrom (groups.flatten.filterMap Draft.name) 0 groups.flatten columns ∧
      ((groups.flatten.filterMap Draft.name).Nodup →
        columnsOf properties atoms = .ok columns ∧ (columns.map Column.name).Nodup) ∧
      (¬ (groups.flatten.filterMap Draft.name).Nodup →
        ∃ name, columnsOf properties atoms = .error (.duplicateOutputName name) ∧
          FirstRepeat (columns.map Column.name) name) ∧
      ∀ {plan : Plan} {records : List Value} {result : QueryResult},
        columnsOf properties atoms = .ok plan.columns → plan.run records = .ok result →
          ∀ row ∈ result.rows, row.keys = columns.map Column.name := by
  obtain ⟨groups, hdrafts, hmakes⟩ := exists_groups hatoms
  by_cases hnodup : (groups.flatten.filterMap Draft.name).Nodup
  · obtain ⟨columns, hcolumns, hnamed⟩ := columnsOf_of_nodup hdrafts hnodup
    have hdistinct := hnamed.nodup (List.Subset.refl _) hnodup
    refine ⟨groups, columns, hmakes, hnamed, fun _ => ⟨hcolumns, hdistinct⟩, fun h => absurd hnodup h, ?_⟩
    intro plan records result hplan hrun row hrow
    obtain rfl : columns = plan.columns := by rwa [hcolumns, Except.ok.injEq] at hplan
    obtain ⟨record, -, hproject⟩ := exists_record_of_mem_rows hrun hrow
    exact keys_of_project hdistinct hproject
  · obtain ⟨columns, hnamed⟩ := exists_namedFrom (groups.flatten.filterMap Draft.name) 0 groups.flatten
    obtain ⟨name, hrepeat⟩ := (nodup_or_firstRepeat _).resolve_left hnodup
    have herror : columnsOf properties atoms = .error (.duplicateOutputName name) := by
      rw [columnsOf_eq_nameColumns hdrafts]
      exact nameColumns_of_repeat (namedSoFar_nil _) (fun _ h => h) .nil (by rwa [List.nil_append])
    refine ⟨groups, columns, hmakes, hnamed, fun h => absurd h hnodup, fun _ => ⟨name, herror, ?_⟩, ?_⟩
    · exact hnamed.firstRepeat (List.Subset.refl _) hrepeat
    · intro plan records result hplan
      rw [herror] at hplan
      cases hplan

/-- The name of the first number is taken, by a later column. -/
def takenNumber : Properties := [⟨"column1", "first", .basic .number⟩]

/-- `select 1, *, 2 + 2` -/
def numberedItems : List Atom :=
  [.expression (.literal (.integer 1)) none, .expression (.wildcard 1) none,
    .expression (.binary .add (.literal (.integer 2)) (.literal (.integer 2))) none]

theorem columnsOf_named_taken : (∀ atom ∈ numberedItems, atom.IsSupported takenNumber) ∧
    ∃ (plan : Plan) (rows : List Record), columnsOf takenNumber numberedItems = .ok plan.columns ∧
      plan.columns.map Column.name = ["column2", "column1", "column3"] ∧
      plan.run [.object [("first", .integer 7)]] = .ok (.many rows) ∧ rows.length = 1 ∧
      ∀ row ∈ rows, row.keys = ["column2", "column1", "column3"] := by
  have hatoms : ∀ atom ∈ numberedItems, atom.IsSupported takenNumber := by
    rw [numberedItems, List.forall_mem_cons, List.forall_mem_cons, List.forall_mem_singleton]
    exact ⟨.computable (.literal _), .wildcard, .computable (.binary (.literal _) (.literal _))⟩
  let plan : Plan := ⟨[⟨"column2", .dynamic, .literal (.integer 1)⟩,
      ⟨"column1", .typed (.basic .number), .read ["first"]⟩,
      ⟨"column3", .dynamic, .binary .add (.literal (.integer 2)) (.literal (.integer 2))⟩],
    [], .all, none, none, none⟩
  have hplan : columnsOf takenNumber numberedItems = .ok plan.columns := rfl
  have hrun : plan.run [.object [("first", .integer 7)]] =
    .ok (.many [[("column2", .integer 1), ("column1", .integer 7), ("column3", .integer 4)]]) := rfl
  obtain ⟨groups, columns, -, -, hnamed, hrefused, hrows⟩ := columnsOf_named hatoms
  have hnodup : (groups.flatten.filterMap Draft.name).Nodup := by
    by_contra hrepeat
    obtain ⟨name, herror, -⟩ := hrefused hrepeat
    rw [hplan] at herror
    cases herror
  obtain rfl : plan.columns = columns := by
    have hcolumns := (hnamed hnodup).1
    rwa [hplan, Except.ok.injEq] at hcolumns
  exact ⟨hatoms, plan, _, hplan, rfl, hrun, rfl, fun row hrow => hrows hplan hrun row hrow⟩

end SelectLang
