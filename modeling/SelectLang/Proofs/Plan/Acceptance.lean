/-
# Which queries have plans

Whether a query has a plan over a source is said here of the query and the type of the source alone: of paths
that lead through nested objects, of what an item may be made of, of names that may not stand there twice, of
what may order, and of the modifiers (`Query.IsSupported`). Where it has none there is a first condition that
fails, and with it the error (`Query.Refused`): the conditions come in a fixed order, and items and orderings from
left to right. `Query.compile` decides just that (`Query.compile_iff`). It is shown of each stage that it succeeds
on what is supported and fails with the error of the first fault, and that one of the two is the case.

Key definitions: `Properties.Leads`, `Query.IsSupported`, `Query.Refused`.
Key theorems: `leads_iff`, `mapM_of_firstFault`, `columnsOf_of_supported`, `Query.compile_iff`.
-/
import Mathlib
import SelectLang.Proofs.Plan.Names
import SelectLang.Proofs.Plan.Segments

namespace SelectLang

/-! ### The first fault of a list -/

section

variable {α β ε : Type}

/-- The first of the items that is not fine fails with the error. -/
def FirstFault (Fine : α → Prop) (Fails : α → ε → Prop) (items : List α) (e : ε) : Prop :=
  ∃ front a back, items = front ++ a :: back ∧ (∀ b ∈ front, Fine b) ∧ Fails a e

theorem fine_or_firstFault {Fine : α → Prop} {Fails : α → ε → Prop} (h : ∀ a, Fine a ∨ ∃ e, Fails a e) :
    ∀ items : List α, (∀ a ∈ items, Fine a) ∨ ∃ e, FirstFault Fine Fails items e
  | [] => Or.inl nofun
  | a :: items => by
    rcases h a with ha | ⟨e, he⟩
    · rcases fine_or_firstFault h items with hall | ⟨e, front, b, back, rfl, hfront, hb⟩
      · exact Or.inl (List.forall_mem_cons.mpr ⟨ha, hall⟩)
      · exact Or.inr ⟨e, a :: front, b, back, rfl, List.forall_mem_cons.mpr ⟨ha, hfront⟩, hb⟩
    · exact Or.inr ⟨e, [], a, items, rfl, nofun, he⟩

theorem mapM_of_fine {f : α → Except ε β} : ∀ {items : List α}, (∀ a ∈ items, ∃ b, f a = .ok b) →
    ∃ results, items.mapM f = .ok results
  | [], _ => ⟨[], rfl⟩
  | a :: items, h => by
    obtain ⟨⟨b, hb⟩, hrest⟩ := List.forall_mem_cons.mp h
    obtain ⟨results, hresults⟩ := mapM_of_fine hrest
    exact ⟨b :: results, by rw [List.mapM_cons, hb, hresults]; rfl⟩

/-- A map over a list ends with the error of the first item that has none. -/
theorem mapM_of_firstFault {Fine : α → Prop} {Fails : α → ε → Prop} {f : α → Except ε β} {items : List α} {e : ε}
    (hfine : ∀ a, Fine a → ∃ b, f a = .ok b) (hfails : ∀ a, Fails a e → f a = .error e)
    (h : FirstFault Fine Fails items e) : items.mapM f = .error e := by
  obtain ⟨front, a, back, rfl, hfront, ha⟩ := h
  obtain ⟨results, hresults⟩ := mapM_of_fine fun b hb => hfine b (hfront b hb)
  rw [List.mapM_append, hresults, List.mapM_cons, hfails a ha]
  rfl

end

/-! ### Paths -/

/-- The property is the first of that name. -/
def Properties.IsFirst (properties : Properties) (name : String) (p : Property DataType) : Prop :=
  p.identifier = name ∧ ∃ front back, properties = front ++ p :: back ∧ ∀ q ∈ front, q.identifier ≠ name

/-- The segments lead over the accessors to the property: each to the first property of its name, which for a
segment before the last has to be an object. -/
inductive Properties.Leads : Properties → List String → List String → Property DataType → Prop where
  | here {properties segment p} (hfirst : Properties.IsFirst properties segment p) :
      Leads properties [segment] [p.accessor] p
  | inside {properties segment p shape inner segments accessors q}
      (hfirst : Properties.IsFirst properties segment p) (hobject : p.type = .object shape inner)
      (hrest : Leads inner segments accessors q) :
      Leads properties (segment :: segments) (p.accessor :: accessors) q

/-- The path leads to a property. -/
def Properties.Resolves (properties : Properties) (path : NamePath) : Prop :=
  ∃ accessors p, properties.Leads path.segments accessors p

theorem isFirst_iff {properties : Properties} {name : String} {p : Property DataType} :
    properties.IsFirst name p ↔ properties.find? name = some p := by
  rw [Properties.find?, List.find?_eq_some_iff_append]
  simp [Properties.IsFirst]

theorem Properties.Leads.ne_nil {properties : Properties} {segments accessors : List String}
    {p : Property DataType} (h : properties.Leads segments accessors p) : segments ≠ [] := by
  cases h <;> exact List.cons_ne_nil _ _

theorem leads_of_resolveSegments? : ∀ {segments : List String} {properties : Properties}
    {accessors : List String} {p : Property DataType},
      resolveSegments? properties segments = some (accessors, p) → properties.Leads segments accessors p
  | [], _, _, _, h => by cases h
  | [segment], properties, accessors, p, h => by
    rw [resolveSegments?] at h
    obtain ⟨q, hq, hp⟩ := Option.map_eq_some_iff.mp h
    cases hp
    exact .here (isFirst_iff.mpr hq)
  | segment :: next :: segments, properties, accessors, p, h => by
    rw [resolveSegments?] at h
    split at h
    · rename_i identifier accessor shape inner hfirst
      obtain ⟨⟨more, q⟩, hq, hp⟩ := Option.map_eq_some_iff.mp h
      cases hp
      exact .inside (isFirst_iff.mpr hfirst) rfl (leads_of_resolveSegments? hq)
    · cases h

/-- A path is resolved as its segments lead. -/
theorem leads_iff {properties : Properties} {segments accessors : List String} {p : Property DataType} :
    properties.Leads segments accessors p ↔ resolveSegments? properties segments = some (accessors, p) := by
  refine ⟨fun h => ?_, leads_of_resolveSegments?⟩
  induction h with
  | here hfirst => rw [resolveSegments?, isFirst_iff.mp hfirst, Option.map_some]
  | @inside properties segment p shape inner segments accessors q hfirst hobject hrest ih =>
    obtain ⟨next, segments, rfl⟩ := List.exists_cons_of_ne_nil hrest.ne_nil
    obtain ⟨identifier, accessor, type⟩ := p
    subst hobject
    rw [resolveSegments?, isFirst_iff.mp hfirst]
    dsimp only
    rw [ih, Option.map_some]

/-- The property at the end of a path is called as its last segment. -/
theorem Properties.Leads.getLast? {properties : Properties} {segments accessors : List String}
    {p : Property DataType} (h : properties.Leads segments accessors p) :
    segments.getLast? = some p.identifier := by
  induction h with
  | here hfirst => rw [hfirst.1, List.getLast?_singleton]
  | inside _ _ hrest ih =>
    obtain ⟨next, segments, rfl⟩ := List.exists_cons_of_ne_nil hrest.ne_nil
    rw [List.getLast?_cons_cons, ih]

theorem resolve_of_leads {properties : Properties} {path : NamePath} {accessors : List String}
    {p : Property DataType} (h : properties.Leads path.segments accessors p) :
    resolve properties path = .ok (accessors, p) := by
  rw [resolve, leads_iff.mp h]

theorem resolve_of_not_resolves {properties : Properties} {path : NamePath}
    (h : ¬ properties.Resolves path) : resolve properties path = .error (.unknownReference path) := by
  rw [resolve]
  split
  · rename_i found hfound
    exact absurd ⟨found.1, found.2, leads_iff.mpr hfound⟩ h
  · rfl

/-! ### Expressions -/

/-- The expression is built from literals, paths that resolve, and arithmetic. -/
inductive Expr.IsComputable (properties : Properties) : Expr → Prop where
  | literal (value : Literal) : IsComputable properties (.literal value)
  | path {name : NamePath} (h : properties.Resolves name) : IsComputable properties (.path name)
  | binary {op : Operator} {left right : Expr} (hleft : IsComputable properties left)
      (hright : IsComputable properties right) : IsComputable properties (.binary op left right)

/-- The error is that of the leftmost part of the expression that cannot be computed. -/
inductive Expr.Fault (properties : Properties) : Expr → CompileError → Prop where
  | path {name : NamePath} (h : ¬ properties.Resolves name) :
      Fault properties (.path name) (.unknownReference name)
  | left {op : Operator} {left right : Expr} {e : CompileError} (h : Fault properties left e) :
      Fault properties (.binary op left right) e
  | right {op : Operator} {left right : Expr} {e : CompileError} (hleft : left.IsComputable properties)
      (h : Fault properties right e) : Fault properties (.binary op left right) e
  | wildcard (level : ℕ) : Fault properties (.wildcard level) (.notSupported .innerWildcard)
  | call (target : Expr) (parameters : List Parameter) :
      Fault properties (.call target parameters) (.notSupported (.call (.call target parameters)))
  | pipe (value target : Expr) :
      Fault properties (.pipe value target) (.notSupported (.pipe (.pipe value target)))

theorem Expr.computable_or_fault (properties : Properties) : ∀ e : Expr,
    e.IsComputable properties ∨ ∃ error, e.Fault properties error
  | .literal value => Or.inl (.literal value)
  | .path name => by
    by_cases h : properties.Resolves name
    · exact Or.inl (.path h)
    · exact Or.inr ⟨_, .path h⟩
  | .binary op left right => by
    rcases Expr.computable_or_fault properties left with hleft | ⟨error, hleft⟩
    · rcases Expr.computable_or_fault properties right with hright | ⟨error, hright⟩
      · exact Or.inl (.binary hleft hright)
      · exact Or.inr ⟨error, .right hleft hright⟩
    · exact Or.inr ⟨error, .left hleft⟩
  | .wildcard level => Or.inr ⟨_, .wildcard level⟩
  | .call target parameters => Or.inr ⟨_, .call target parameters⟩
  | .pipe value target => Or.inr ⟨_, .pipe value target⟩

variable {properties : Properties}

theorem lower_of_computable {e : Expr} (h : e.IsComputable properties) : ∃ c, lower properties e = .ok c := by
  induction h with
  | literal value => exact ⟨_, rfl⟩
  | path h =>
    obtain ⟨accessors, p, hleads⟩ := h
    exact ⟨.read accessors, by rw [lower, resolve_of_leads hleads]⟩
  | binary _ _ ihleft ihright =>
    obtain ⟨l, hl⟩ := ihleft
    obtain ⟨r, hr⟩ := ihright
    exact ⟨.binary _ l r, by rw [lower, hl]; dsimp only; rw [hr]⟩

theorem lower_of_fault {e : Expr} {error : CompileError} (h : e.Fault properties error) :
    lower properties e = .error error := by
  induction h with
  | path h => rw [lower, resolve_of_not_resolves h]
  | left _ ih => rw [lower, ih]
  | right hleft _ ih =>
    obtain ⟨l, hl⟩ := lower_of_computable hleft
    rw [lower, hl]
    dsimp only
    rw [ih]
  | wildcard level => rfl
  | call target parameters => rfl
  | pipe value target => rfl

/-! ### Items -/

/-- The item is a plain wildcard, or its expression can be computed. -/
inductive Atom.IsSupported (properties : Properties) : Atom → Prop where
  | wildcard : IsSupported properties (.expression (.wildcard 1) none)
  | computable {atom : Atom} (h : atom.expr.IsComputable properties) : IsSupported properties atom

/-- The error of an item that is not supported. -/
inductive Atom.Fault (properties : Properties) : Atom → CompileError → Prop where
  | aliased {atom : Atom} {level : ℕ} {output : NamePath} (hexpr : atom.expr = .wildcard level)
      (houtput : atom.output = some output) : Fault properties atom (.aliasedWildcard output)
  | level {level : ℕ} (h : level ≠ 1) :
      Fault properties (.expression (.wildcard level) none) (.notSupported (.wildcardLevel level))
  | expr {atom : Atom} {e : CompileError} (hwildcard : ∀ level, atom.expr ≠ .wildcard level)
      (h : atom.expr.Fault properties e) : Fault properties atom e

/-- The names of the columns of an item, where they are given: the output name, the property at the end of a path,
or all properties. -/
def Atom.names (properties : Properties) (atom : Atom) : List (Option String) :=
  match atom.output, atom.expr with
  | some output, _ => [some output.dotted]
  | none, .wildcard _ => properties.map fun p => some p.identifier
  | none, .path name => [name.last?]
  | none, _ => [none]

theorem Atom.supported_or_fault (properties : Properties) (atom : Atom) :
    atom.IsSupported properties ∨ ∃ error, atom.Fault properties error := by
  by_cases hwildcard : ∃ level, atom.expr = .wildcard level
  · obtain ⟨level, hexpr⟩ := hwildcard
    cases houtput : atom.output with
    | some output => exact Or.inr ⟨_, .aliased hexpr houtput⟩
    | none =>
      obtain ⟨e, output⟩ | ⟨output, e⟩ := atom
      · obtain rfl : output = none := houtput
        obtain rfl : e = .wildcard level := hexpr
        by_cases hlevel : level = 1
        · exact Or.inl (hlevel ▸ .wildcard)
        · exact Or.inr ⟨_, .level hlevel⟩
      · cases houtput
  · rcases atom.expr.computable_or_fault properties with h | ⟨error, h⟩
    · exact Or.inl (.computable h)
    · exact Or.inr ⟨error, .expr (fun level hexpr => hwildcard ⟨level, hexpr⟩) h⟩

/-- What is not read off a wildcard or a bare path is computed under the output name, if there is one. -/
theorem drafts_of_computed {atom : Atom} (hwildcard : ∀ level, atom.expr ≠ .wildcard level)
    (hpath : ∀ name, atom.expr ≠ .path name) : atom.drafts properties =
      (lower properties atom.expr).map fun c => [⟨atom.output.map NamePath.dotted, .dynamic, c⟩] := by
  rw [Atom.drafts]
  split
  · rename_i level hexpr
    exact absurd hexpr (hwildcard level)
  · rename_i name hexpr
    exact absurd hexpr (hpath name)
  · cases lower properties atom.expr <;> rfl

theorem drafts_of_leads {atom : Atom} {name : NamePath} {accessors : List String} {p : Property DataType}
    (hexpr : atom.expr = .path name) (h : properties.Leads name.segments accessors p) :
    atom.drafts properties = .ok [⟨some ((atom.output.map NamePath.dotted).getD p.identifier), .typed p.type,
      .read accessors⟩] := by
  rw [Atom.drafts, hexpr]
  dsimp only
  rw [resolve_of_leads h]

theorem drafts_of_supported {atom : Atom} (h : atom.IsSupported properties) :
    ∃ drafts, atom.drafts properties = .ok drafts ∧ drafts.map Draft.name = atom.names properties := by
  cases h with
  | wildcard => exact ⟨_, rfl, by rw [List.map_map]; rfl⟩
  | computable h =>
    cases hexpr : atom.expr with
    | path name =>
      rw [hexpr] at h
      obtain ⟨accessors, p, hleads⟩ : properties.Resolves name := by
        cases h with
        | path h => exact h
      refine ⟨_, drafts_of_leads hexpr hleads, ?_⟩
      rw [Atom.names, hexpr]
      cases atom.output with
      | some output => rfl
      | none => exact congrArg (fun last => [last]) hleads.getLast?.symm
    | wildcard level =>
      rw [hexpr] at h
      cases h
    | _ =>
      obtain ⟨c, hc⟩ := lower_of_computable h
      refine ⟨[⟨atom.output.map NamePath.dotted, .dynamic, c⟩], ?_, ?_⟩
      · rw [drafts_of_computed (by simp [hexpr]) (by simp [hexpr]), hc]
        rfl
      · rw [Atom.names, hexpr]
        cases atom.output <;> rfl

theorem drafts_of_fault {atom : Atom} {e : CompileError} (h : atom.Fault properties e) :
    atom.drafts properties = .error e := by
  cases h with
  | aliased hexpr houtput =>
    rw [Atom.drafts, hexpr]
    dsimp only
    rw [houtput]
  | level hlevel => exact if_neg hlevel
  | expr hwildcard h =>
    by_cases hpath : ∃ name, atom.expr = .path name
    · obtain ⟨name, hexpr⟩ := hpath
      rw [hexpr] at h
      cases h with
      | path h =>
        rw [Atom.drafts, hexpr]
        dsimp only
        rw [resolve_of_not_resolves h]
    · rw [drafts_of_computed hwildcard fun name hexpr => hpath ⟨name, hexpr⟩, lower_of_fault h]
      rfl

/-! ### Selections -/

/-- The names that are given in a selection. -/
def givenNames (properties : Properties) (atoms : List Atom) : List String :=
  (atoms.flatMap (Atom.names properties)).reduceOption

/-- The names of all columns of a selection. -/
noncomputable def outputNames (properties : Properties) (atoms : List Atom) : List String :=
  fillNames (givenNames properties atoms) 0 (atoms.flatMap (Atom.names properties))

theorem draftsOf_eq_mapM (properties : Properties) : ∀ atoms : List Atom,
    draftsOf properties atoms = (atoms.mapM (Atom.drafts properties)).map List.flatten
  | [] => rfl
  | atom :: atoms => by
    rw [draftsOf, List.mapM_cons, draftsOf_eq_mapM properties atoms]
    cases atom.drafts properties with
    | error e => rfl
    | ok drafts => cases atoms.mapM (Atom.drafts properties) <;> rfl

theorem draftsOf_of_supported : ∀ {atoms : List Atom}, (∀ atom ∈ atoms, atom.IsSupported properties) →
    ∃ drafts, draftsOf properties atoms = .ok drafts ∧
      drafts.map Draft.name = atoms.flatMap (Atom.names properties)
  | [], _ => ⟨[], rfl, rfl⟩
  | atom :: atoms, h => by
    obtain ⟨hatom, hatoms⟩ := List.forall_mem_cons.mp h
    obtain ⟨front, hfront, hnames⟩ := drafts_of_supported hatom
    obtain ⟨drafts, hdrafts, hmore⟩ := draftsOf_of_supported hatoms
    refine ⟨front ++ drafts, ?_, by rw [List.map_append, hnames, hmore, List.flatMap_cons]⟩
    rw [draftsOf, hfront]
    dsimp only
    rw [hdrafts]

theorem filterMap_name (drafts : List Draft) :
    drafts.filterMap Draft.name = (drafts.map Draft.name).reduceOption := by
  rw [List.reduceOption, List.filterMap_map]
  rfl

variable {atoms : List Atom} {e : CompileError}

theorem columnsOf_of_supported (hatoms : ∀ atom ∈ atoms, atom.IsSupported properties)
    (hnames : (givenNames properties atoms).Nodup) :
    ∃ columns, columnsOf properties atoms = .ok columns ∧
      columns.map Column.name = outputNames properties atoms := by
  obtain ⟨drafts, hdrafts, hslots⟩ := draftsOf_of_supported hatoms
  have hgiven : drafts.filterMap Draft.name = givenNames properties atoms := by
    rw [filterMap_name, hslots, givenNames]
  obtain ⟨columns, hcolumns, hnamed⟩ := nameColumns_of_nodup (namedSoFar_nil (drafts.filterMap Draft.name))
    (fun _ h => h) (by rw [List.nil_append, hgiven]; exact hnames)
  refine ⟨columns, by rw [columnsOf, hdrafts]; exact hcolumns, ?_⟩
  rw [hnamed, hgiven, hslots, outputNames]
  have hzero : ¬ IsFree (givenNames properties atoms) 0 := fun h => absurd h.1 (Nat.lt_irrefl 0)
  rw [Nat.count_succ, Nat.count_zero, if_neg hzero]

theorem columnsOf_of_fault
    (h : FirstFault (Atom.IsSupported properties) (Atom.Fault properties) atoms e) :
    columnsOf properties atoms = .error e := by
  have hfault : atoms.mapM (Atom.drafts properties) = .error e :=
    mapM_of_firstFault (fun _ hatom => (drafts_of_supported hatom).imp fun _ => And.left)
      (fun _ => drafts_of_fault) h
  rw [columnsOf, draftsOf_eq_mapM, hfault]
  rfl

theorem columnsOf_of_repeat {name : String} (hatoms : ∀ atom ∈ atoms, atom.IsSupported properties)
    (h : FirstRepeat (givenNames properties atoms) name) :
    columnsOf properties atoms = .error (.duplicateOutputName name) := by
  obtain ⟨drafts, hdrafts, hslots⟩ := draftsOf_of_supported hatoms
  have hgiven : drafts.filterMap Draft.name = givenNames properties atoms := by
    rw [filterMap_name, hslots, givenNames]
  rw [columnsOf, hdrafts]
  exact nameColumns_of_repeat (namedSoFar_nil (drafts.filterMap Draft.name)) (fun _ h => h) .nil
    (by rw [List.nil_append, hgiven]; exact h)

/-! ### Orderings -/

/-- The ordering is a bare path that is called as a column or resolves. -/
inductive SortTerm.IsSupported (properties : Properties) (outputs : List String) : SortTerm → Prop where
  | column {path : NamePath} {direction : Direction} (h : path.dotted ∈ outputs) :
      IsSupported properties outputs ⟨.path path, direction⟩
  | property {path : NamePath} {direction : Direction} (h : properties.Resolves path) :
      IsSupported properties outputs ⟨.path path, direction⟩

/-- The error of an ordering that is not supported. -/
inductive SortTerm.Fault (properties : Properties) (outputs : List String) : SortTerm → CompileError → Prop where
  | reference {path : NamePath} {direction : Direction} (hname : path.dotted ∉ outputs)
      (h : ¬ properties.Resolves path) : Fault properties outputs ⟨.path path, direction⟩ (.unknownReference path)
  | expression {term : SortTerm} (h : ∀ path, term.expression ≠ .path path) :
      Fault properties outputs term (.unsupportedOrdering term.expression)

section

variable {columns : List Column} {outputs : List String}

theorem SortTerm.supported_or_fault (properties : Properties) (outputs : List String) (term : SortTerm) :
    term.IsSupported properties outputs ∨ ∃ error, term.Fault properties outputs error := by
  obtain ⟨e, direction⟩ := term
  by_cases hpath : ∃ path, e = .path path
  · obtain ⟨path, rfl⟩ := hpath
    by_cases hname : path.dotted ∈ outputs
    · exact Or.inl (.column hname)
    · by_cases h : properties.Resolves path
      · exact Or.inl (.property h)
      · exact Or.inr ⟨_, .reference hname h⟩
  · exact Or.inr ⟨_, .expression fun path h => hpath ⟨path, h⟩⟩

theorem key_path {path : NamePath} {direction : Direction} :
    SortTerm.key columns properties ⟨.path path, direction⟩ =
      if path.dotted ∈ columns.map Column.name then .ok ⟨.column path.dotted, direction⟩
      else (resolve properties path).map fun found => ⟨.source found.1, direction⟩ := by
  have hany : columns.any (·.name == path.dotted) = true ↔ path.dotted ∈ columns.map Column.name := by
    simp
  rw [SortTerm.key]
  dsimp only
  by_cases h : path.dotted ∈ columns.map Column.name
  · rw [if_pos (hany.mpr h), if_pos h]
  · rw [if_neg (mt hany.mp h), if_neg h]
    cases resolve properties path <;> rfl

theorem key_of_supported {term : SortTerm} (hcolumns : columns.map Column.name = outputs)
    (h : term.IsSupported properties outputs) : ∃ key, term.key columns properties = .ok key := by
  subst hcolumns
  cases h with
  | column h => exact ⟨_, by rw [key_path, if_pos h]⟩
  | @property path direction h =>
    obtain ⟨accessors, p, hleads⟩ := h
    rw [key_path, resolve_of_leads hleads]
    by_cases hname : path.dotted ∈ columns.map Column.name
    · exact ⟨_, if_pos hname⟩
    · exact ⟨_, if_neg hname⟩

theorem key_of_fault {term : SortTerm} (hcolumns : columns.map Column.name = outputs)
    (h : term.Fault properties outputs e) : term.key columns properties = .error e := by
  subst hcolumns
  cases h with
  | reference hname h =>
    rw [key_path, if_neg hname, resolve_of_not_resolves h]
    rfl
  | expression h =>
    rw [SortTerm.key]
    split
    · rename_i path hexpr
      exact absurd hexpr (h path)
    · rfl

theorem sortKeysOf_eq_mapM (columns : List Column) (properties : Properties) : ∀ terms : List SortTerm,
    sortKeysOf columns properties terms = terms.mapM (SortTerm.key columns properties)
  | [] => rfl
  | term :: terms => by
    rw [sortKeysOf, List.mapM_cons, sortKeysOf_eq_mapM columns properties terms]
    cases term.key columns properties with
    | error e => rfl
    | ok key => cases terms.mapM (SortTerm.key columns properties) <;> rfl

theorem sortKeysOf_of_supported {terms : List SortTerm} (hcolumns : columns.map Column.name = outputs)
    (h : ∀ term ∈ terms, term.IsSupported properties outputs) :
    ∃ keys, sortKeysOf columns properties terms = .ok keys := by
  rw [sortKeysOf_eq_mapM]
  exact mapM_of_fine fun term hterm => key_of_supported hcolumns (h term hterm)

theorem sortKeysOf_of_fault {terms : List SortTerm} (hcolumns : columns.map Column.name = outputs)
    (h : FirstFault (SortTerm.IsSupported properties outputs) (SortTerm.Fault properties outputs) terms e) :
    sortKeysOf columns properties terms = .error e := by
  rw [sortKeysOf_eq_mapM]
  exact mapM_of_firstFault (fun _ => key_of_supported hcolumns) (fun _ => key_of_fault hcolumns) h

end

/-! ### Queries -/

/-- The type is that of records with the properties, or of an array of them. -/
def DataType.Describes (type : DataType) (properties : Properties) : Prop :=
  ∃ shape, type = .object shape properties ∨ type = .array (.object shape properties)

/-- The modifier takes no single place and no percentage. -/
def Top.IsSupported (top : Top) : Prop := (∀ n, top ≠ .position n) ∧ ∀ n, top ≠ .percentage n

/-- All parts of the query are supported over records with the properties. -/
structure Query.IsSupportedOver (query : Query) (properties : Properties) : Prop where
  atoms : ∀ atom ∈ query.atoms, atom.IsSupported properties
  names : (givenNames properties query.atoms).Nodup
  orderings : ∀ term ∈ query.orderings, term.IsSupported properties (outputNames properties query.atoms)
  top : query.top.IsSupported
  pagination : ∀ p ∈ query.pagination, 1 ≤ p.page ∧ 1 ≤ p.size

/-- The source has records whose properties support the query. -/
def Query.IsSupported (query : Query) (source : Source) : Prop :=
  ∃ properties, source.type.Describes properties ∧ query.IsSupportedOver properties

/-- The error is that of the first condition that fails: for each, those before it hold. -/
inductive Query.Refused (query : Query) (source : Source) : Error → Prop where
  | source (h : ∀ properties, ¬ source.type.Describes properties) :
      Refused query source (.schema (.unsupportedShape source.name source.type.render))
  | atom {properties : Properties} {e : CompileError} (htype : source.type.Describes properties)
      (h : FirstFault (Atom.IsSupported properties) (Atom.Fault properties) query.atoms e) :
      Refused query source (.compile e)
  | name {properties : Properties} {name : String} (htype : source.type.Describes properties)
      (hatoms : ∀ atom ∈ query.atoms, atom.IsSupported properties)
      (h : FirstRepeat (givenNames properties query.atoms) name) :
      Refused query source (.compile (.duplicateOutputName name))
  | ordering {properties : Properties} {e : CompileError} (htype : source.type.Describes properties)
      (hatoms : ∀ atom ∈ query.atoms, atom.IsSupported properties)
      (hnames : (givenNames properties query.atoms).Nodup)
      (h : FirstFault (SortTerm.IsSupported properties (outputNames properties query.atoms))
        (SortTerm.Fault properties (outputNames properties query.atoms)) query.orderings e) :
      Refused query source (.compile e)
  | top {properties : Properties} (htype : source.type.Describes properties)
      (hatoms : ∀ atom ∈ query.atoms, atom.IsSupported properties)
      (hnames : (givenNames properties query.atoms).Nodup)
      (horderings : ∀ term ∈ query.orderings,
        term.IsSupported properties (outputNames properties query.atoms))
      (h : ¬ query.top.IsSupported) : Refused query source (.compile (.notSupported (.top query.top)))
  | pagination {properties : Properties} {page size : UInt64} (htype : source.type.Describes properties)
      (hatoms : ∀ atom ∈ query.atoms, atom.IsSupported properties)
      (hnames : (givenNames properties query.atoms).Nodup)
      (horderings : ∀ term ∈ query.orderings,
        term.IsSupported properties (outputNames properties query.atoms))
      (htop : query.top.IsSupported) (hpage : query.pagination = some ⟨page, size⟩)
      (h : ¬ (1 ≤ page ∧ 1 ≤ size)) : Refused query source (.compile (.invalidPagination page size))

theorem recordProperties?_eq_some {type : DataType} {properties : Properties} :
    type.recordProperties? = some properties ↔ type.Describes properties := by
  constructor
  · intro h
    unfold DataType.recordProperties? at h
    split at h
    · cases h
      exact ⟨_, Or.inl rfl⟩
    · cases h
      exact ⟨_, Or.inr rfl⟩
    · cases h
  · rintro ⟨shape, rfl | rfl⟩ <;> rfl

theorem reduction_of_supported {top : Top} (h : top.IsSupported) : ∃ reduction, top.reduction = .ok reduction := by
  cases top with
  | position n => exact absurd rfl (h.1 n)
  | percentage n => exact absurd rfl (h.2 n)
  | _ => exact ⟨_, rfl⟩

theorem reduction_of_not_supported {top : Top} (h : ¬ top.IsSupported) :
    top.reduction = .error (.notSupported (.top top)) := by
  cases top with
  | position n => rfl
  | percentage n => rfl
  | _ => exact absurd ⟨nofun, nofun⟩ h

theorem checkPagination_eq (page size : UInt64) : checkPagination (some ⟨page, size⟩) =
    if 1 ≤ page ∧ 1 ≤ size then .ok () else .error (.invalidPagination page size) := by
  simp only [checkPagination, Bool.or_eq_true, decide_eq_true_eq, ← UInt64.not_le, ← not_and_or, ite_not]

variable {query : Query} {source : Source}

theorem compile_of_supported (h : query.IsSupported source) : ∃ plan, query.compile source = .ok plan := by
  obtain ⟨properties, htype, h⟩ := h
  obtain ⟨columns, hcolumns, hnames⟩ := columnsOf_of_supported h.atoms h.names
  obtain ⟨keys, hkeys⟩ := sortKeysOf_of_supported hnames h.orderings
  obtain ⟨reduction, hreduction⟩ := reduction_of_supported h.top
  have hpagination : checkPagination query.pagination = .ok () := by
    cases hpage : query.pagination with
    | none => rfl
    | some p => rw [checkPagination_eq, if_pos (h.pagination p hpage)]
  exact ⟨⟨columns, keys, reduction, _, _, _⟩, Query.compile_of_planOver (recordProperties?_eq_some.mpr htype)
    (planOver_eq_ok.mpr ⟨hcolumns, hkeys, hreduction, hpagination, rfl, rfl, rfl⟩)⟩

theorem compile_of_planOver_error {properties : Properties} {e : CompileError}
    (htype : source.type.Describes properties) (h : query.planOver properties = .error e) :
    query.compile source = .error (.compile e) := by
  rw [Query.compile, recordProperties?_eq_some.mpr htype]
  dsimp only
  rw [h]

theorem compile_of_refused {error : Error} (h : query.Refused source error) :
    query.compile source = .error error := by
  cases h with
  | source h =>
    rw [Query.compile]
    split
    · rfl
    · rename_i properties hproperties
      exact absurd (recordProperties?_eq_some.mp hproperties) (h properties)
  | atom htype h =>
    refine compile_of_planOver_error htype ?_
    rw [Query.planOver, columnsOf_of_fault h]
    rfl
  | name htype hatoms h =>
    refine compile_of_planOver_error htype ?_
    rw [Query.planOver, columnsOf_of_repeat hatoms h]
    rfl
  | ordering htype hatoms hnames h =>
    obtain ⟨columns, hcolumns, houtputs⟩ := columnsOf_of_supported hatoms hnames
    refine compile_of_planOver_error htype ?_
    simp only [Query.planOver, hcolumns, sortKeysOf_of_fault houtputs h, bind, Except.bind]
  | top htype hatoms hnames horderings h =>
    obtain ⟨columns, hcolumns, houtputs⟩ := columnsOf_of_supported hatoms hnames
    obtain ⟨keys, hkeys⟩ := sortKeysOf_of_supported houtputs horderings
    refine compile_of_planOver_error htype ?_
    simp only [Query.planOver, hcolumns, hkeys, reduction_of_not_supported h, bind, Except.bind]
  | pagination htype hatoms hnames horderings htop hpage h =>
    obtain ⟨columns, hcolumns, houtputs⟩ := columnsOf_of_supported hatoms hnames
    obtain ⟨keys, hkeys⟩ := sortKeysOf_of_supported houtputs horderings
    obtain ⟨reduction, hreduction⟩ := reduction_of_supported htop
    refine compile_of_planOver_error htype ?_
    simp only [Query.planOver, hcolumns, hkeys, hreduction, hpage, checkPagination_eq, if_neg h, bind, Except.bind]

theorem Query.supported_or_refused (query : Query) (source : Source) :
    query.IsSupported source ∨ ∃ error, query.Refused source error := by
  by_cases htype : ∃ properties, source.type.Describes properties
  · obtain ⟨properties, htype⟩ := htype
    rcases fine_or_firstFault (Atom.supported_or_fault properties) query.atoms with hatoms | ⟨e, h⟩
    · rcases nodup_or_firstRepeat (givenNames properties query.atoms) with hnames | ⟨name, h⟩
      · rcases fine_or_firstFault (SortTerm.supported_or_fault properties
          (outputNames properties query.atoms)) query.orderings with horderings | ⟨e, h⟩
        · by_cases htop : query.top.IsSupported
          · by_cases hpagination : ∀ p ∈ query.pagination, 1 ≤ p.page ∧ 1 ≤ p.size
            · exact Or.inl ⟨properties, htype, hatoms, hnames, horderings, htop, hpagination⟩
            · push Not at hpagination
              obtain ⟨⟨page, size⟩, hpage, h⟩ := hpagination
              exact Or.inr ⟨_, .pagination htype hatoms hnames horderings htop hpage fun hp => h hp.1 hp.2⟩
          · exact Or.inr ⟨_, .top htype hatoms hnames horderings htop⟩
        · exact Or.inr ⟨_, .ordering htype hatoms hnames h⟩
      · exact Or.inr ⟨_, .name htype hatoms h⟩
    · exact Or.inr ⟨_, .atom htype h⟩
  · exact Or.inr ⟨_, .source fun properties h => htype ⟨properties, h⟩⟩

/-- A query has a plan over a source exactly if it is supported, and no plan with an error exactly if it is refused
with that error. -/
theorem Query.compile_iff (query : Query) (source : Source) :
    ((∃ plan, query.compile source = .ok plan) ↔ query.IsSupported source) ∧
      ∀ error, query.compile source = .error error ↔ query.Refused source error := by
  refine ⟨⟨fun ⟨plan, hplan⟩ => ?_, compile_of_supported⟩, fun error => ⟨fun herror => ?_, compile_of_refused⟩⟩
  · rcases query.supported_or_refused source with h | ⟨error, h⟩
    · exact h
    · rw [compile_of_refused h] at hplan
      cases hplan
  · rcases query.supported_or_refused source with h | ⟨other, h⟩
    · obtain ⟨plan, hplan⟩ := compile_of_supported h
      rw [hplan] at herror
      cases herror
    · rw [compile_of_refused h, Except.error.injEq] at herror
      exact herror ▸ h

end SelectLang
