/-
# What a plan tells of its query

A query makes the same plan with its output names put last. Queries whose canonical texts are read alike
are told apart by their plans: where one has an infinite number and the other the name `inf`, one plan
holds a literal and the other reads a property. An ordering tells nothing, for a number is no ordering.

Key theorems: `Query.compile_normalized`, `Query.eq_of_compile`.
-/
import Mathlib
import SelectLang.Plan.Compile
import SelectLang.Proofs.Syntax.Reread

namespace SelectLang

/-! ### Output names put last -/

theorem draftsOf_normalized (properties : Properties) : ∀ atoms : List Atom,
    draftsOf properties (atoms.map Atom.normalized) = draftsOf properties atoms
  | [] => rfl
  | a :: atoms => by
    have ha : a.normalized.drafts properties = a.drafts properties := rfl
    rw [List.map_cons, draftsOf, draftsOf, ha, draftsOf_normalized properties atoms]

theorem Query.compile_normalized (query : Query) (source : Source) :
    query.normalized.compile source = query.compile source := by
  have h : ∀ properties, query.normalized.planOver properties = query.planOver properties :=
    fun properties => by
      simp only [planOver, normalized, columnsOf, draftsOf_normalized]
  simp only [compile, h]

/-! ### What is computed -/

theorem Literal.value_injective {v w : Literal} (h : v.value = w.value) : v = w := by
  cases v <;> cases w <;> cases h <;> rfl

/-- A literal is read again as a literal, itself, or as the name of infinity. -/
theorem Literal.reread_cases (v : Literal) :
    v.reread = .literal v ∨ v.reread = .path infinityName := by
  cases v with
  | float x =>
    rw [Literal.reread]
    split
    · exact Or.inl rfl
    · exact Or.inr rfl
  | _ => exact Or.inl rfl

theorem lower_path {properties : Properties} {name : NamePath} {c : ColumnExpr}
    (h : lower properties (.path name) = .ok c) : ∃ accessors, c = .read accessors := by
  rw [lower] at h
  split at h
  · cases h
    exact ⟨_, rfl⟩
  · cases h

theorem lower_binary {properties : Properties} {op : Operator} {l r : Expr} {c : ColumnExpr}
    (h : lower properties (.binary op l r) = .ok c) : ∃ a b, lower properties l = .ok a ∧
      lower properties r = .ok b ∧ c = .binary op a b := by
  rw [lower] at h
  split at h
  · cases h
  · rename_i a ha
    split at h
    · cases h
    · rename_i b hb
      cases h
      exact ⟨a, b, ha, hb, rfl⟩

/-- Expressions that are read alike and computed alike are the same. -/
theorem eq_of_lower {properties : Properties} : ∀ {e f : Expr} {c : ColumnExpr}, e.reread = f.reread →
    lower properties e = .ok c → lower properties f = .ok c → e = f
  | .literal v, f, c, h, he, hf => by
    cases he
    cases f with
    | literal w =>
      rw [lower, Except.ok.injEq, ColumnExpr.literal.injEq] at hf
      rw [Literal.value_injective hf]
    | path n =>
      obtain ⟨accessors, hc⟩ := lower_path hf
      cases hc
    | _ => rcases v.reread_cases with hv | hv <;> (rw [Expr.reread, hv] at h; cases h)
  | .path n, f, c, h, he, hf => by
    obtain ⟨accessors, rfl⟩ := lower_path he
    cases f with
    | literal w => cases hf
    | path m => exact h
    | _ => cases h
  | .binary op l r, f, c, h, he, hf => by
    obtain ⟨a, b, hl, hr, rfl⟩ := lower_binary he
    cases f with
    | literal w => cases hf
    | binary op' l' r' =>
      obtain ⟨a', b', hl', hr', hc⟩ := lower_binary hf
      cases hc
      rw [Expr.reread, Expr.reread, Expr.binary.injEq] at h
      rw [eq_of_lower h.2.1 hl hl', eq_of_lower h.2.2 hr hr']
    | _ => cases h
  | .wildcard _, _, _, _, he, _ => by cases he
  | .call _ _, _, _, _, he, _ => by cases he
  | .pipe _ _, _, _, _, he, _ => by cases he

/-! ### Columns -/

/-- A wildcard, of which every property is a column, or an expression that one column computes. -/
theorem drafts_cases {properties : Properties} {a : Atom} {drafts : List Draft}
    (h : a.drafts properties = .ok drafts) :
    (∃ level, a.expr = .wildcard level ∧
      drafts.map Draft.expr = properties.map fun p => .read [p.accessor]) ∨
    ∃ c, lower properties a.expr = .ok c ∧ drafts.map Draft.expr = [c] := by
  unfold Atom.drafts at h
  split at h
  · rename_i level he
    split at h
    · cases h
    · split at h
      · cases h
        exact Or.inl ⟨level, he, by rw [List.map_map]; rfl⟩
      · cases h
  · rename_i name he
    split at h
    · cases h
    · rename_i accessors p hname
      cases h
      exact Or.inr ⟨.read accessors, by rw [he, lower, hname], rfl⟩
  · split at h
    · cases h
    · rename_i c hc
      cases h
      exact Or.inr ⟨c, hc, rfl⟩

theorem wildcard_of_reread {e : Expr} {level : Nat} (h : e.reread = .wildcard level) :
    e = .wildcard level := by
  cases e with
  | literal v => rcases v.reread_cases with hv | hv <;> (rw [Expr.reread, hv] at h; cases h)
  | wildcard l => exact h
  | _ => cases h

/-- Items that are read alike stand for as many columns, and are the same if these are computed
alike. -/
theorem eq_of_drafts {properties : Properties} {a b : Atom} {ds es : List Draft}
    (h : a.reread = b.reread) (ha : a.drafts properties = .ok ds) (hb : b.drafts properties = .ok es) :
    ds.length = es.length ∧ (ds.map Draft.expr = es.map Draft.expr → a = b) := by
  have hexpr : a.expr.reread = b.expr.reread ∧ (a.expr = b.expr → a = b) := by
    cases a <;> cases b <;> simp only [Atom.reread, Atom.expression.injEq, Atom.assignment.injEq,
      reduceCtorEq] at h
    · exact ⟨h.1, fun he => (Atom.expression.injEq _ _ _ _).mpr ⟨he, h.2⟩⟩
    · exact ⟨h.2, fun he => (Atom.assignment.injEq _ _ _ _).mpr ⟨h.1, he⟩⟩
  rcases drafts_cases ha with ⟨level, hl, -⟩ | ⟨c, hc, hds⟩
  · have hb' : b.expr = .wildcard level := wildcard_of_reread (by rw [← hexpr.1, hl]; rfl)
    have hab := hexpr.2 (hl.trans hb'.symm)
    subst hab
    rw [ha, Except.ok.injEq] at hb
    exact ⟨by rw [hb], fun _ => rfl⟩
  · rcases drafts_cases hb with ⟨level, hl, -⟩ | ⟨d, hd, hes⟩
    · have ha' : a.expr = .wildcard level := wildcard_of_reread (by rw [hexpr.1, hl]; rfl)
      rw [ha'] at hc
      cases hc
    · refine ⟨?_, fun heq => hexpr.2 ?_⟩
      · rw [← List.length_map Draft.expr, hds, ← List.length_map Draft.expr, hes]
        rfl
      · rw [hds, hes, List.cons.injEq] at heq
        rw [← heq.1] at hd
        exact eq_of_lower hexpr.1 hc hd

theorem draftsOf_cons {properties : Properties} {a : Atom} {atoms : List Atom} {ds : List Draft}
    (h : draftsOf properties (a :: atoms) = .ok ds) : ∃ front more, a.drafts properties = .ok front ∧
      draftsOf properties atoms = .ok more ∧ ds = front ++ more := by
  rw [draftsOf] at h
  split at h
  · cases h
  · rename_i front hfront
    split at h
    · cases h
    · rename_i more hmore
      cases h
      exact ⟨front, more, hfront, hmore, rfl⟩

theorem eq_of_draftsOf {properties : Properties} : ∀ {as bs : List Atom} {ds es : List Draft},
    as.map Atom.reread = bs.map Atom.reread → draftsOf properties as = .ok ds →
      draftsOf properties bs = .ok es → ds.map Draft.expr = es.map Draft.expr → as = bs
  | [], [], _, _, _, _, _, _ => rfl
  | [], _ :: _, _, _, h, _, _, _ => by cases h
  | _ :: _, [], _, _, h, _, _, _ => by cases h
  | a :: as, b :: bs, ds, es, h, hds, hes, heq => by
    rw [List.map_cons, List.map_cons, List.cons.injEq] at h
    obtain ⟨front, more, ha, has, rfl⟩ := draftsOf_cons hds
    obtain ⟨front', more', hb, hbs, rfl⟩ := draftsOf_cons hes
    obtain ⟨hlen, hsame⟩ := eq_of_drafts h.1 ha hb
    rw [List.map_append, List.map_append] at heq
    obtain ⟨hfront, hmore⟩ := List.append_inj heq (by rw [List.length_map, List.length_map, hlen])
    rw [hsame hfront, eq_of_draftsOf h.2 has hbs hmore]

/-- A draft becomes a column under a name that was not seen before. -/
theorem nameColumns_cons {given : List String} {used : Nat} {seen : List String} {draft : Draft}
    {drafts : List Draft} {columns : List Column}
    (h : nameColumns given used seen (draft :: drafts) = .ok columns) : ∃ next name more,
      name ∉ seen ∧ nameColumns given next (name :: seen) drafts = .ok more ∧
        columns = ⟨name, draft.type, draft.expr⟩ :: more := by
  obtain ⟨name, type, expr⟩ := draft
  cases name <;> simp only [nameColumns] at h
  all_goals
    split at h
    · cases h
    · rename_i hseen
      split at h
      · cases h
      · rename_i more hmore
        cases h
        exact ⟨_, _, more, by simpa using hseen, hmore, rfl⟩

/-- Naming the columns leaves what they compute. -/
theorem expr_of_nameColumns {given : List String} : ∀ {drafts : List Draft} {used : Nat}
    {seen : List String} {columns : List Column}, nameColumns given used seen drafts = .ok columns →
      columns.map Column.expr = drafts.map Draft.expr
  | [], _, _, _, h => by cases h; rfl
  | _ :: _, _, _, _, h => by
    obtain ⟨_, _, more, -, hmore, rfl⟩ := nameColumns_cons h
    rw [List.map_cons, List.map_cons, expr_of_nameColumns hmore]

/-- The names of the columns differ from those seen before and from each other. -/
theorem nodup_of_nameColumns {given : List String} : ∀ {drafts : List Draft} {used : Nat}
    {seen : List String} {columns : List Column}, nameColumns given used seen drafts = .ok columns →
      (∀ name ∈ columns.map Column.name, name ∉ seen) ∧ (columns.map Column.name).Nodup
  | [], _, _, _, h => by
    cases h
    exact ⟨nofun, .nil⟩
  | _ :: _, _, _, _, h => by
    obtain ⟨_, name, more, hname, hmore, rfl⟩ := nameColumns_cons h
    obtain ⟨hseen, hnodup⟩ := nodup_of_nameColumns hmore
    rw [List.map_cons, List.forall_mem_cons, List.nodup_cons]
    exact ⟨⟨hname, fun other hother h => hseen other hother (List.mem_cons_of_mem _ h)⟩,
      fun h => hseen name h List.mem_cons_self, hnodup⟩

theorem nodup_of_columnsOf {properties : Properties} {atoms : List Atom} {columns : List Column}
    (h : columnsOf properties atoms = .ok columns) : (columns.map Column.name).Nodup := by
  unfold columnsOf at h
  split at h
  · cases h
  · exact (nodup_of_nameColumns h).2

theorem eq_of_columnsOf {properties : Properties} {as bs : List Atom} {columns : List Column}
    (h : as.map Atom.reread = bs.map Atom.reread) (ha : columnsOf properties as = .ok columns)
    (hb : columnsOf properties bs = .ok columns) : as = bs := by
  unfold columnsOf at ha hb
  split at ha
  · cases ha
  · rename_i ds hds
    split at hb
    · cases hb
    · rename_i es hes
      exact eq_of_draftsOf h hds hes (by rw [← expr_of_nameColumns ha, ← expr_of_nameColumns hb])

/-! ### Orderings -/

/-- What orders is a path, which is read again as it is. -/
theorem reread_of_key {columns : List Column} {properties : Properties} {term : SortTerm} {key : SortKey}
    (h : term.key columns properties = .ok key) : term.reread = term := by
  obtain ⟨e, direction⟩ := term
  unfold SortTerm.key at h
  split at h
  · rename_i path he
    subst he
    rfl
  · cases h

theorem reread_of_sortKeysOf {columns : List Column} {properties : Properties} :
    ∀ {terms : List SortTerm} {keys : List SortKey}, sortKeysOf columns properties terms = .ok keys →
      terms.map SortTerm.reread = terms
  | [], _, _ => rfl
  | term :: terms, keys, h => by
    rw [sortKeysOf] at h
    split at h
    · cases h
    · rename_i key hkey
      split at h
      · cases h
      · rename_i more hmore
        rw [List.map_cons, reread_of_key hkey, reread_of_sortKeysOf hmore]

/-! ### Queries -/

/-- A plan is made of its parts, each of which is worked out by itself. -/
theorem planOver_eq_ok {query : Query} {properties : Properties} {plan : Plan} :
    query.planOver properties = .ok plan ↔ columnsOf properties query.atoms = .ok plan.columns ∧
      sortKeysOf plan.columns properties query.orderings = .ok plan.sortKeys ∧
        query.top.reduction = .ok plan.reduction ∧ checkPagination query.pagination = .ok () ∧
          plan.offset = query.offset.map UInt64.toNat ∧ plan.limit = query.limit.map UInt64.toNat ∧
            plan.pagination = query.pagination := by
  simp only [Query.planOver, bind, Except.bind, pure, Except.pure]
  constructor
  · intro h
    split at h
    · cases h
    · rename_i columns hcolumns
      split at h
      · cases h
      · rename_i keys hkeys
        split at h
        · cases h
        · rename_i reduction hreduction
          split at h
          · cases h
          · rename_i hpagination
            cases h
            exact ⟨hcolumns, hkeys, hreduction, hpagination, rfl, rfl, rfl⟩
  · rintro ⟨hcolumns, hkeys, hreduction, hpagination, hoffset, hlimit, hpage⟩
    rw [hcolumns]
    simp only [hkeys, hreduction, hpagination]
    rw [← hoffset, ← hlimit, ← hpage]

/-- A query that compiles has a plan over the properties of the records of the source. -/
theorem Query.planOver_of_compile {query : Query} {source : Source} {plan : Plan}
    (h : query.compile source = .ok plan) : ∃ properties,
      source.type.recordProperties? = some properties ∧ query.planOver properties = .ok plan := by
  unfold compile at h
  split at h
  · cases h
  · rename_i properties hproperties
    split at h
    · cases h
    · rename_i p hp
      cases h
      exact ⟨properties, hproperties, hp⟩

theorem Query.planOver_of_properties {query : Query} {source : Source} {plan : Plan}
    {properties : Properties} (h : query.compile source = .ok plan)
    (hproperties : source.type.recordProperties? = some properties) :
    query.planOver properties = .ok plan := by
  obtain ⟨properties', hproperties', hplan⟩ := planOver_of_compile h
  rwa [Option.some.inj (hproperties.symm.trans hproperties')]

/-- Queries that are read alike and make one plan are the same. -/
theorem Query.eq_of_compile {q r : Query} {source : Source} {plan : Plan} (h : q.reread = r.reread)
    (hq : q.compile source = .ok plan) (hr : r.compile source = .ok plan) : q = r := by
  obtain ⟨properties, hproperties, hp⟩ := planOver_of_compile hq
  have hp' := planOver_of_properties hr hproperties
  obtain ⟨hcolumns, hkeys, -⟩ := planOver_eq_ok.mp hp
  obtain ⟨hcolumns', hkeys', -⟩ := planOver_eq_ok.mp hp'
  rw [reread, reread, Query.mk.injEq] at h
  obtain ⟨hsource, hatoms, htop, horder, hrest⟩ := h
  rw [reread_of_sortKeysOf hkeys, reread_of_sortKeysOf hkeys'] at horder
  rw [Query.mk.injEq]
  exact ⟨hsource, eq_of_columnsOf hatoms hcolumns hcolumns', htop, horder, hrest⟩

end SelectLang
