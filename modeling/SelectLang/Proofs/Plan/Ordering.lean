/-
# The order of the rows

An ordering reads the column of its name in a row if there is one, and else the property of its name in the
record (`SortTerm.Reads`). Where the query keeps all rows and the values that an ordering reads are compared
transitively, the rows stand in the result in the order of the first ordering at which they differ, turned
round if it is descending, and those that are level at all orderings in the order of their records
(`Query.run_ordered`).

Key definitions: `SortTerm.Reads`, `Precedes`, `Levels`, `SortTerm.Contradicts`.
Key theorems: `keyOrder_map`, `orderBy_eq_lt`, `orderBy_transitive`, `Query.sortRows?_ordered`,
`Query.run_ordered`.
-/
import Mathlib
import SelectLang.Proofs.Plan.Rows
import SelectLang.Proofs.Sort.Stability
import SelectLang.Proofs.Value.Tokens

namespace SelectLang

/-! ### What an ordering reads -/

/-- An ordering reads the column of its name, or else the property of its name. -/
inductive SortTerm.Reads (columns : List Column) (properties : Properties) (record : Value) (row : Record) :
    SortTerm → Value → Prop where
  | column {path : NamePath} {direction : Direction} {value : Value}
      (hname : path.dotted ∈ columns.map Column.name) (hvalue : row.get? path.dotted = some value) :
      Reads columns properties record row ⟨.path path, direction⟩ value
  | property {path : NamePath} {direction : Direction} {accessors : List String}
      {property : Property DataType} (hname : path.dotted ∉ columns.map Column.name)
      (hresolve : resolve properties path = .ok (accessors, property)) :
      Reads columns properties record row ⟨.path path, direction⟩ (record.follow accessors)

section

variable {columns : List Column} {properties : Properties} {record : Value} {row : Record}

theorem SortTerm.Reads.unique {term : SortTerm} {a b : Value}
    (ha : term.Reads columns properties record row a) (hb : term.Reads columns properties record row b) :
    a = b := by
  cases ha with
  | column hname hvalue =>
    cases hb with
    | column _ hvalue' => exact Option.some.inj (hvalue.symm.trans hvalue')
    | property hname' _ => exact absurd hname hname'
  | property hname hresolve =>
    cases hb with
    | column hname' _ => exact absurd hname' hname
    | property _ hresolve' =>
      rw [hresolve] at hresolve'
      cases hresolve'
      rfl

/-- What the key of an ordering reads is what the ordering reads. -/
theorem reads_of_key {term : SortTerm} {key : SortKey} (hkey : term.key columns properties = .ok key)
    (hrow : row.keys = columns.map Column.name) :
    term.Reads columns properties record row (Plan.keyValue record row key) := by
  obtain ⟨e, direction⟩ := term
  unfold SortTerm.key at hkey
  split at hkey
  · rename_i path he
    subst he
    have hany : columns.any (·.name == path.dotted) = true ↔ path.dotted ∈ columns.map Column.name := by
      simp
    split at hkey
    · rename_i hcolumn
      cases hkey
      have hname := hany.mp hcolumn
      obtain ⟨value, hvalue⟩ := Record.exists_get?_of_mem (hrow ▸ hname)
      have hread : Plan.keyValue record row ⟨.column path.dotted, direction⟩ = value :=
        congrArg (fun found : Option Value => found.getD .null) hvalue
      exact hread ▸ .column hname hvalue
    · rename_i hcolumn
      split at hkey
      · cases hkey
      · rename_i accessors property hresolve
        cases hkey
        exact .property (fun hname => hcolumn (hany.mpr hname)) hresolve
  · cases hkey

theorem direction_of_key {term : SortTerm} {key : SortKey} (hkey : term.key columns properties = .ok key) :
    key.direction = term.direction := by
  unfold SortTerm.key at hkey
  split at hkey
  · split at hkey
    · cases hkey
      rfl
    · split at hkey
      · cases hkey
      · cases hkey
        rfl
  · cases hkey

theorem key_of_sortKeysOf : ∀ {terms : List SortTerm} {keys : List SortKey},
    sortKeysOf columns properties terms = .ok keys →
      List.Forall₂ (fun term key => term.key columns properties = .ok key) terms keys
  | [], _, h => by
    cases h
    exact .nil
  | term :: terms, keys, h => by
    rw [sortKeysOf] at h
    split at h
    · cases h
    · rename_i key hkey
      split at h
      · cases h
      · rename_i more hmore
        cases h
        exact .cons hkey (key_of_sortKeysOf hmore)

variable {terms : List SortTerm} {keys : List SortKey}

/-- Every ordering reads something. -/
theorem exists_reads (hkeys : List.Forall₂ (fun term key => term.key columns properties = .ok key) terms keys)
    (hrow : row.keys = columns.map Column.name) : ∃ value : SortTerm → Value,
      ∀ term ∈ terms, term.Reads columns properties record row (value term) := by
  have hread : ∀ term, ∃ a, term ∈ terms → term.Reads columns properties record row a := fun term => by
    by_cases hterm : term ∈ terms
    · obtain ⟨key, hkey⟩ : ∃ key, term.key columns properties = .ok key := by
        induction hkeys with
        | nil => cases hterm
        | cons hkey _ ih =>
          rcases List.mem_cons.mp hterm with rfl | hterm
          · exact ⟨_, hkey⟩
          · exact ih hterm
      exact ⟨_, fun _ => reads_of_key hkey hrow⟩
    · exact ⟨.null, fun h => absurd h hterm⟩
  choose value hvalue using hread
  exact ⟨value, hvalue⟩

/-- What the keys of orderings read is what the orderings read. -/
theorem map_keyValue (hkeys : List.Forall₂ (fun term key => term.key columns properties = .ok key) terms keys)
    (hrow : row.keys = columns.map Column.name) {value : SortTerm → Value}
    (hvalue : ∀ term ∈ terms, term.Reads columns properties record row (value term)) :
    keys.map (Plan.keyValue record row) = terms.map value := by
  induction hkeys with
  | nil => rfl
  | cons hkey _ ih =>
    obtain ⟨hfirst, hrest⟩ := List.forall_mem_cons.mp hvalue
    rw [List.map_cons, List.map_cons, ih hrest, (reads_of_key hkey hrow).unique hfirst]

end

/-! ### The first ordering that tells rows apart -/

/-- A comparison as it is, or turned round. -/
def Direction.turn : Direction → Ordering → Ordering
  | ascending, o => o
  | descending, o => o.swap

theorem Direction.turn_swap (direction : Direction) (o : Ordering) :
    direction.turn o.swap = (direction.turn o).swap := by
  cases direction <;> rfl

theorem Direction.turn_eq_eq {direction : Direction} {o : Ordering} : direction.turn o = .eq ↔ o = .eq := by
  cases direction <;> cases o <;> decide

/-- The comparison by one ordering of two rows with what orderings read for them. -/
def SortTerm.compare (term : SortTerm) (a b : SortTerm → Value) : Ordering :=
  term.direction.turn ((a term).order (b term))

/-- No ordering tells the rows apart. -/
def Levels (terms : List SortTerm) (a b : SortTerm → Value) : Prop :=
  ∀ term ∈ terms, (a term).order (b term) = .eq

/-- The first ordering that tells the rows apart puts the one before the other. -/
def Precedes (terms : List SortTerm) (a b : SortTerm → Value) : Prop :=
  ∃ front term back, terms = front ++ term :: back ∧ Levels front a b ∧ term.compare a b = .lt

/-- Compares by the first ordering that tells the rows apart. -/
def orderBy : List SortTerm → (SortTerm → Value) → (SortTerm → Value) → Ordering
  | [], _, _ => .eq
  | term :: terms, a, b => (term.compare a b).then (orderBy terms a b)

theorem orderBy_eq_eq : ∀ {terms : List SortTerm} {a b : SortTerm → Value},
    orderBy terms a b = .eq ↔ Levels terms a b
  | [], _, _ => ⟨fun _ => nofun, fun _ => rfl⟩
  | term :: terms, a, b => by
    rw [orderBy, Ordering.then_eq_eq, orderBy_eq_eq, SortTerm.compare, Direction.turn_eq_eq, Levels,
      Levels, List.forall_mem_cons]

theorem orderBy_eq_lt : ∀ {terms : List SortTerm} {a b : SortTerm → Value},
    orderBy terms a b = .lt ↔ Precedes terms a b
  | [], _, _ => ⟨nofun, fun ⟨front, term, back, h, _⟩ => by simp at h⟩
  | term :: terms, a, b => by
    rw [orderBy, Ordering.then_eq_lt, orderBy_eq_lt]
    constructor
    · rintro (hlt | ⟨heq, front, other, back, rfl, hlevel, hlt⟩)
      · exact ⟨[], term, terms, rfl, nofun, hlt⟩
      · exact ⟨term :: front, other, back, rfl,
          List.forall_mem_cons.mpr ⟨Direction.turn_eq_eq.mp heq, hlevel⟩, hlt⟩
    · rintro ⟨_ | ⟨first, front⟩, other, back, h, hlevel, hlt⟩
      · cases h
        exact Or.inl hlt
      · cases h
        obtain ⟨heq, hlevel⟩ := List.forall_mem_cons.mp hlevel
        exact Or.inr ⟨Direction.turn_eq_eq.mpr heq, front, other, back, rfl, hlevel, hlt⟩

theorem SortTerm.compare_swap (term : SortTerm) (a b : SortTerm → Value) :
    term.compare a b = (term.compare b a).swap := by
  rw [compare, compare, ← Direction.turn_swap, ← Value.order_swap]

/-- Rows are compared as their keys are. -/
theorem keyOrder_map {terms : List SortTerm} {keys : List SortKey}
    (h : List.Forall₂ (fun term key => key.direction = term.direction) terms keys)
    (a b : SortTerm → Value) :
    Plan.keyOrder keys (terms.map a) (terms.map b) = orderBy terms a b := by
  induction h with
  | nil => rfl
  | @cons term key terms keys hdirection _ ih =>
    rw [List.map_cons, List.map_cons, Plan.keyOrder, ih, orderBy, SortTerm.compare, hdirection]
    cases term.direction with
    | ascending => rfl
    | descending =>
      rw [Direction.turn, ← Value.order_swap]

theorem keyOrder_swap : ∀ (keys : List SortKey) (as bs : List Value),
    Plan.keyOrder keys as bs = (Plan.keyOrder keys bs as).swap
  | [], _, _ => rfl
  | _ :: _, [], [] => rfl
  | _ :: _, [], _ :: _ => rfl
  | _ :: _, _ :: _, [] => rfl
  | key :: keys, a :: as, b :: bs => by
    rw [Plan.keyOrder, Plan.keyOrder, Ordering.swap_then, ← keyOrder_swap keys as bs]
    cases key.direction <;> rw [← Value.order_swap]

/-! ### Transitivity -/

section

variable {n : Nat} {value : Fin n → SortTerm → Value}

/-- Of the rows, the order at an ordering is transitive in either direction. -/
theorem SortTerm.compare_transitive {term : SortTerm}
    (h : ∀ i j k, (value i term).order (value j term) ≠ .gt → (value j term).order (value k term) ≠ .gt →
      (value i term).order (value k term) ≠ .gt) (i j k : Fin n)
    (hij : term.compare (value i) (value j) ≠ .gt) (hjk : term.compare (value j) (value k) ≠ .gt) :
    term.compare (value i) (value k) ≠ .gt := by
  unfold compare at hij hjk ⊢
  cases hdirection : term.direction with
  | ascending =>
    rw [hdirection] at hij hjk
    exact h i j k hij hjk
  | descending =>
    simp only [hdirection, Direction.turn, ← Value.order_swap] at hij hjk ⊢
    exact h k j i hjk hij

theorem orderBy_transitive : ∀ {terms : List SortTerm},
    (∀ term ∈ terms, ∀ i j k, (value i term).order (value j term) ≠ .gt →
      (value j term).order (value k term) ≠ .gt → (value i term).order (value k term) ≠ .gt) →
    ∀ i j k, orderBy terms (value i) (value j) ≠ .gt → orderBy terms (value j) (value k) ≠ .gt →
      orderBy terms (value i) (value k) ≠ .gt
  | [], _, _, _, _, _, _ => nofun
  | term :: terms, h, i, j, k, hij, hjk => by
    obtain ⟨hterm, hterms⟩ := List.forall_mem_cons.mp h
    have hfirst : ∀ {i j : Fin n}, orderBy (term :: terms) (value i) (value j) ≠ .gt →
        term.compare (value i) (value j) ≠ .gt := fun h hgt => h (by rw [orderBy, hgt]; rfl)
    -- where the first ordering does not tell the rows apart, the others decide
    have hrest : ∀ {i j : Fin n}, orderBy (term :: terms) (value i) (value j) ≠ .gt →
        term.compare (value i) (value j) = .eq → orderBy terms (value i) (value j) ≠ .gt :=
      fun h heq hgt => h (by rw [orderBy, heq]; exact hgt)
    have hchain := chain_of_transitive (fun i j => term.compare_swap (value i) (value j))
      (SortTerm.compare_transitive hterm) (hfirst hij) (hfirst hjk)
    rw [orderBy, hchain]
    cases heq : term.compare (value i) (value j) with
    | lt => nofun
    | gt => exact absurd heq (hfirst hij)
    | eq =>
      cases heq' : term.compare (value j) (value k) with
      | lt => nofun
      | gt => exact absurd heq' (hfirst hjk)
      | eq => exact orderBy_transitive hterms i j k (hrest hij heq) (hrest hjk heq')

end

/-! ### Ordered results -/

/-- Rows whose keys are compared transitively are sorted, and as insertion would. -/
theorem Plan.sortRows?_eq {plan : Plan} {rows : List (Record × List Value)}
    (htransitive : ∀ a ∈ rows, ∀ b ∈ rows, ∀ c ∈ rows, keyOrder plan.sortKeys a.2 b.2 ≠ .gt →
      keyOrder plan.sortKeys b.2 c.2 ≠ .gt → keyOrder plan.sortKeys a.2 c.2 ≠ .gt) :
    plan.sortRows? rows =
      some ((sortBy (fun a b => keyOrder plan.sortKeys a.2 b.2) rows).map Prod.fst) := by
  rw [sortRows?]
  split
  · rename_i hnone
    rw [List.isEmpty_iff.mp hnone, sortBy_of_level fun _ _ h => Ordering.noConfusion h]
  · rw [stableSort?_eq (fun a b => keyOrder_swap plan.sortKeys a.2 b.2) htransitive, Option.map_some]

/-- If the values that an ordering reads are compared transitively, the sort does not give up. Any two of the
rows stand in the order of the first ordering that tells them apart, or else in that of their records. -/
theorem Query.sortRows?_ordered {query : Query} {plan : Plan} {properties : Properties} {records : List Value}
    {row : Fin records.length → Record} (hplan : query.planOver properties = .ok plan)
    (hrow : ∀ i, project plan.columns (records.get i) = .ok (row i))
    (htransitive : ∀ term ∈ query.orderings, ∀ i j k a b c,
      term.Reads plan.columns properties (records.get i) (row i) a →
        term.Reads plan.columns properties (records.get j) (row j) b →
          term.Reads plan.columns properties (records.get k) (row k) c →
            a.order b ≠ .gt → b.order c ≠ .gt → a.order c ≠ .gt) :
    ∃ (value : Fin records.length → SortTerm → Value) (keyed : List (Record × List Value)),
      (∀ i, ∀ term ∈ query.orderings,
        term.Reads plan.columns properties (records.get i) (row i) (value i term)) ∧
      plan.rowsOf records = .ok keyed ∧ ∃ σ : Equiv.Perm (Fin records.length),
        plan.sortRows? keyed = some (List.ofFn (row ∘ σ)) ∧
          ∀ i j, i < j → Precedes query.orderings (value (σ i)) (value (σ j)) ∨
            (Levels query.orderings (value (σ i)) (value (σ j)) ∧ σ i < σ j) := by
  obtain ⟨hcolumns, hkeys, -⟩ := planOver_eq_ok.mp hplan
  have hnodup := nodup_of_columnsOf hcolumns
  have hkeyed := key_of_sortKeysOf hkeys
  have hnames := fun i => keys_of_project hnodup (hrow i)
  have hreads : ∀ i, ∃ value : SortTerm → Value, ∀ term ∈ query.orderings,
      term.Reads plan.columns properties (records.get i) (row i) (value term) :=
    fun i => exists_reads hkeyed (hnames i)
  choose value hvalue using hreads
  -- the rows with their keys, which are what the orderings read
  let keyed : Fin records.length → Record × List Value := fun i => (row i, query.orderings.map (value i))
  have hrows : plan.rowsOf records = .ok (List.ofFn keyed) := by
    rw [Plan.rowsOf_eq_ofFn hrow]
    simp only [map_keyValue hkeyed (hnames _) (hvalue _), keyed]
  have horder : ∀ i j, Plan.keyOrder plan.sortKeys (keyed i).2 (keyed j).2 =
      orderBy query.orderings (value i) (value j) := fun i j =>
    keyOrder_map (hkeyed.imp fun _ _ => direction_of_key) (value i) (value j)
  have hkeyOrder : ∀ i j k, Plan.keyOrder plan.sortKeys (keyed i).2 (keyed j).2 ≠ .gt →
      Plan.keyOrder plan.sortKeys (keyed j).2 (keyed k).2 ≠ .gt →
        Plan.keyOrder plan.sortKeys (keyed i).2 (keyed k).2 ≠ .gt := by
    simp only [horder]
    exact orderBy_transitive fun term hterm i j k => htransitive term hterm i j k _ _ _
      (hvalue i term hterm) (hvalue j term hterm) (hvalue k term hterm)
  obtain ⟨σ, hsorted, hplaces⟩ := sortBy_ofFn (fun a b : Record × List Value =>
    keyOrder_swap plan.sortKeys a.2 b.2) keyed hkeyOrder
  refine ⟨value, List.ofFn keyed, hvalue, hrows, σ, ?_, fun i j hij => ?_⟩
  · rw [Plan.sortRows?_eq (by simpa only [List.forall_mem_ofFn_iff] using hkeyOrder), hsorted, List.map_ofFn]
    rfl
  · have hplace := hplaces i j hij
    rwa [horder, orderBy_eq_lt, orderBy_eq_eq] at hplace

/-- Of the values that an ordering reads for rows of records, some are compared against transitivity. -/
def SortTerm.Contradicts (columns : List Column) (properties : Properties) (rows : List (Value × Record))
    (term : SortTerm) : Prop :=
  ∃ x ∈ rows, ∃ y ∈ rows, ∃ z ∈ rows, ∃ a b c, term.Reads columns properties x.1 x.2 a ∧
    term.Reads columns properties y.1 y.2 b ∧ term.Reads columns properties z.1 z.2 c ∧
      a.order b ≠ .gt ∧ b.order c ≠ .gt ∧ a.order c = .gt

/-- The sort gives up only where an ordering contradicts itself. -/
theorem Query.exists_contradicts {query : Query} {plan : Plan} {properties : Properties} {records : List Value}
    {rows : List Record} {keyed : List (Record × List Value)} (hplan : query.planOver properties = .ok plan)
    (hrows : List.Forall₂ (fun record row => project plan.columns record = .ok row) records rows)
    (hkeyed : plan.rowsOf records = .ok keyed) (hnone : plan.sortRows? keyed = none) :
    ∃ term ∈ query.orderings, term.Contradicts plan.columns properties (records.zip rows) := by
  obtain ⟨hlength, hrow⟩ := List.forall₂_iff_get.mp hrows
  let row : Fin records.length → Record := fun i => rows.get (i.cast hlength)
  have hzip : ∀ i, (records.get i, row i) ∈ records.zip rows := fun i => by
    have hi : i < (records.zip rows).length := by
      rw [List.length_zip, ← hlength, min_self]
      exact i.isLt
    have hget : (records.zip rows)[i] = (records.get i, row i) := List.getElem_zip
    exact hget ▸ List.getElem_mem hi
  by_contra hnever
  have hproject : ∀ i, project plan.columns (records.get i) = .ok (row i) := fun i =>
    hrow i i.isLt (hlength ▸ i.isLt)
  obtain ⟨_, keyed', -, hkeyed', σ, hsorted, -⟩ := Query.sortRows?_ordered hplan hproject
    fun term hterm i j k a b c ha hb hc hab hbc hac =>
      hnever ⟨term, hterm, _, hzip i, _, hzip j, _, hzip k, a, b, c, ha, hb, hc, hab, hbc, hac⟩
  rw [hkeyed] at hkeyed'
  cases hkeyed'
  rw [hnone] at hsorted
  cases hsorted

/-- The rows of a query that keeps all of them are a permutation of the rows of the records, in which any
two stand in the order of the first ordering that tells them apart, or else in that of their records. What
an ordering reads is the column of its name in the row, or else the property of its name in the record. -/
theorem Query.run_ordered {query : Query} {source : Source} {plan : Plan} {properties : Properties}
    {records : List Value} {row : Fin records.length → Record} (hcompile : query.compile source = .ok plan)
    (hproperties : source.type.recordProperties? = some properties) (hall : query.KeepsAll)
    (hrow : ∀ i, project plan.columns (records.get i) = .ok (row i))
    (htransitive : ∀ term ∈ query.orderings, ∀ i j k a b c,
      term.Reads plan.columns properties (records.get i) (row i) a →
        term.Reads plan.columns properties (records.get j) (row j) b →
          term.Reads plan.columns properties (records.get k) (row k) c →
            a.order b ≠ .gt → b.order c ≠ .gt → a.order c ≠ .gt) :
    ∃ value : Fin records.length → SortTerm → Value,
      (∀ i, ∀ term ∈ query.orderings,
        term.Reads plan.columns properties (records.get i) (row i) (value i term)) ∧
      ∃ σ : Equiv.Perm (Fin records.length),
        plan.run records = .ok (.many (List.ofFn (row ∘ σ))) ∧
          ∀ i j, i < j → Precedes query.orderings (value (σ i)) (value (σ j)) ∨
            (Levels query.orderings (value (σ i)) (value (σ j)) ∧ σ i < σ j) := by
  have hplan := planOver_of_properties hcompile hproperties
  obtain ⟨value, keyed, hvalue, hkeyed, σ, hsorted, hplaces⟩ :=
    Query.sortRows?_ordered hplan hrow htransitive
  exact ⟨value, hvalue, σ, hall.run hplan hkeyed hsorted, hplaces⟩

def memberProperties : Properties :=
  [⟨"name", "Name", .basic .string⟩, ⟨"team", "Team", .basic .string⟩, ⟨"age", "Age", .basic .number⟩]

def memberSource : Source := ⟨⟨0, 0⟩, ["members"], .object "Member" memberProperties, none⟩

def members : List Value :=
  [.object [("Name", .string "Ann"), ("Team", .string "red"), ("Age", .integer 30)],
    .object [("Name", .string "Bob"), ("Team", .string "blue"), ("Age", .integer 20)],
    .object [("Name", .string "Cid"), ("Team", .string "red"), ("Age", .integer 30)]]

/-- `select name, team from members order by team, age descending` -/
def byTeamAndAge : Query :=
  ⟨⟨["members"]⟩, [.expression (.path ⟨["name"]⟩) none, .expression (.path ⟨["team"]⟩) none], .all,
    [⟨.path ⟨["team"]⟩, .ascending⟩, ⟨.path ⟨["age"]⟩, .descending⟩], none, none, none⟩

def memberColumns : List Column :=
  [⟨"name", .typed (.basic .string), .read ["Name"]⟩, ⟨"team", .typed (.basic .string), .read ["Team"]⟩]

def memberRow : Fin members.length → Record :=
  ![[("name", .string "Ann"), ("team", .string "red")], [("name", .string "Bob"), ("team", .string "blue")],
    [("name", .string "Cid"), ("team", .string "red")]]

/-- What the two orderings read. -/
def memberValue (i : Fin members.length) (term : SortTerm) : Value :=
  match term.direction with
  | .ascending => ![.string "red", .string "blue", .string "red"] i
  | .descending => ![.integer 30, .integer 20, .integer 30] i

theorem reads_memberValue : ∀ term ∈ byTeamAndAge.orderings, ∀ i : Fin members.length,
    term.Reads memberColumns memberProperties (members.get i) (memberRow i) (memberValue i term) := by
  refine List.forall_mem_cons.mpr ⟨fun i => ?_, List.forall_mem_singleton.mpr fun i => ?_⟩
  · exact .column (by decide) (by fin_cases i <;> rfl)
  · have hread : (members.get i).follow ["Age"] = memberValue i ⟨.path ⟨["age"]⟩, .descending⟩ := by
      fin_cases i <;> rfl
    exact hread ▸ .property (by decide) rfl

theorem transitive_memberValue : ∀ term ∈ byTeamAndAge.orderings, ∀ i j k : Fin members.length,
    (memberValue i term).order (memberValue j term) ≠ .gt →
      (memberValue j term).order (memberValue k term) ≠ .gt →
        (memberValue i term).order (memberValue k term) ≠ .gt :=
  List.forall_mem_cons.mpr ⟨by decide +kernel, List.forall_mem_singleton.mpr (by decide +kernel)⟩

theorem run_ordered_members : ∃ plan, byTeamAndAge.compile memberSource = .ok plan ∧
    ∃ (value : Fin members.length → SortTerm → Value) (σ : Equiv.Perm (Fin members.length)),
      plan.run members = .ok (.many (List.ofFn (memberRow ∘ σ))) ∧
        ∀ i j, i < j → Precedes byTeamAndAge.orderings (value (σ i)) (value (σ j)) ∨
          (Levels byTeamAndAge.orderings (value (σ i)) (value (σ j)) ∧ σ i < σ j) := by
  have hcompile : byTeamAndAge.compile memberSource = .ok ⟨memberColumns,
      [⟨.column "team", .ascending⟩, ⟨.source ["Age"], .descending⟩], .all, none, none, none⟩ := rfl
  have hrow : ∀ i, project memberColumns (members.get i) = .ok (memberRow i) := fun i => by
    fin_cases i <;> rfl
  obtain ⟨value, -, hordered⟩ := Query.run_ordered hcompile rfl ⟨rfl, rfl, rfl, rfl⟩ hrow
    fun term hterm i j k a b c ha hb hc => by
      rw [ha.unique (reads_memberValue term hterm i), hb.unique (reads_memberValue term hterm j),
        hc.unique (reads_memberValue term hterm k)]
      exact transitive_memberValue term hterm i j k
  exact ⟨_, hcompile, value, hordered⟩

end SelectLang
