/-
# Clauses in any order, each once

What stands behind the source of a query is read as the clauses it is written from, whatever their order and
the blanks between them, for each of them ends before the word of the next one (`written_clauses`). The
query has in each field what is given there (`Query.given`), so the order of the clauses does not count, and a
clause of a kind that was given before is refused at the place where it begins.

Key definitions: `WrittenClause`, `Query.given`.
Key theorems: `foldl_withClause`, `repeated?_places`, `Query.parse_clauses`.
-/
import Mathlib
import SelectLang.Proofs.Grammar.Entries

namespace SelectLang

open SelectLang.Parser SelectLang.Grammar

/-! ### The fields of a query -/

namespace Clause

@[simp] def order? : Clause → Option (List SortTerm)
  | order terms => some terms
  | _ => none

@[simp] def offset? : Clause → Option UInt64
  | offset n => some n
  | _ => none

@[simp] def limit? : Clause → Option UInt64
  | limit n => some n
  | _ => none

@[simp] def page? : Clause → Option Pagination
  | page p => some p
  | _ => none

@[simp] def top? : Clause → Option Top
  | top t => some t
  | _ => none

end Clause

/-- The query that has in each field what is given there, and else what it has without it. -/
def Query.given (query : Query) (clauses : List Clause) : Query where
  source := query.source
  atoms := query.atoms
  top := (clauses.findSome? Clause.top?).getD query.top
  orderings := (clauses.findSome? Clause.order?).getD query.orderings
  offset := (clauses.findSome? Clause.offset?).or query.offset
  limit := (clauses.findSome? Clause.limit?).or query.limit
  pagination := (clauses.findSome? Clause.page?).or query.pagination

/-- The first clause is put into its field, if no other one is of its kind. -/
theorem Query.given_cons {c : Clause} {clauses : List Clause} (h : ∀ d ∈ clauses, d.kind ≠ c.kind) (query : Query) :
    query.given (c :: clauses) = (query.withClause c).given clauses := by
  have hnone : ∀ {α : Type} (field? : Clause → Option α), (∀ d, d.kind ≠ c.kind → field? d = none) →
      clauses.findSome? field? = none := fun _ hfield =>
    List.findSome?_eq_none_iff.mpr fun d hd => hfield d (h d hd)
  cases c with
  | order terms =>
    have hfield := hnone Clause.order? fun d hd => by cases d <;> simp_all [Clause.kind]
    simp [Query.given, Query.withClause, List.findSome?_cons, hfield]
  | offset n =>
    have hfield := hnone Clause.offset? fun d hd => by cases d <;> simp_all [Clause.kind]
    simp [Query.given, Query.withClause, List.findSome?_cons, hfield]
  | limit n =>
    have hfield := hnone Clause.limit? fun d hd => by cases d <;> simp_all [Clause.kind]
    simp [Query.given, Query.withClause, List.findSome?_cons, hfield]
  | page p =>
    have hfield := hnone Clause.page? fun d hd => by cases d <;> simp_all [Clause.kind]
    simp [Query.given, Query.withClause, List.findSome?_cons, hfield]
  | top t =>
    have hfield := hnone Clause.top? fun d hd => by cases d <;> simp_all [Clause.kind]
    simp [Query.given, Query.withClause, List.findSome?_cons, hfield]

/-- Clauses of different kinds are put into a query each in its own field. -/
theorem foldl_withClause : ∀ {clauses : List Clause} (query : Query), (clauses.map Clause.kind).Nodup →
    clauses.foldl Query.withClause query = query.given clauses
  | [], query, _ => rfl
  | c :: clauses, query, h => by
    rw [List.map_cons, List.nodup_cons] at h
    rw [List.foldl_cons, foldl_withClause _ h.2, Query.given_cons]
    exact fun d hd heq => h.1 (heq ▸ List.mem_map_of_mem hd)

theorem withClause_comm {c d : Clause} (h : c.kind ≠ d.kind) (query : Query) :
    (query.withClause c).withClause d = (query.withClause d).withClause c := by
  cases c <;> cases d <;> first | rfl | exact absurd rfl h

/-- Clauses of different kinds may be put into a query in any order. -/
theorem foldl_withClause_perm {clauses others : List Clause} (h : others.Perm clauses)
    (hkinds : (clauses.map Clause.kind).Nodup) (query : Query) :
    others.foldl Query.withClause query = clauses.foldl Query.withClause query := by
  refine h.foldl_eq' (fun c hc d hd z => ?_) query
  by_cases hcd : c.kind = d.kind
  · rw [List.inj_on_of_nodup_map hkinds (h.mem_iff.mp hc) (h.mem_iff.mp hd) hcd]
  · exact withClause_comm hcd z

/-! ### Clauses as they are written -/

/-- A clause as it is written: blanks, and a text that is read as the clause. -/
structure WrittenClause where
  gap : String
  text : String
  clause : Clause
  blank : IsGap gap.toList
  read : Grammar.clause.run text = .ok clause

namespace WrittenClause

/-- The clauses one after the other. -/
def written : List WrittenClause → String
  | [] => ""
  | w :: ws => w.gap ++ (w.text ++ written ws)

/-- The clauses with the places where they begin. -/
def places : List WrittenClause → List (List Char × Clause)
  | [] => []
  | w :: ws => ((w.text ++ written ws).toList, w.clause) :: places ws

@[simp] theorem written_append : ∀ ws us : List WrittenClause, written (ws ++ us) = written ws ++ written us
  | [], us => by simp [written]
  | w :: ws, us => by
    rw [List.cons_append, written, written, written_append ws us]
    simp only [String.append_assoc]

@[simp] theorem map_snd_places : ∀ ws : List WrittenClause, (places ws).map Prod.snd = ws.map WrittenClause.clause
  | [] => rfl
  | w :: ws => by rw [places, List.map_cons, List.map_cons, map_snd_places ws]

end WrittenClause

open WrittenClause

/-- Written clauses are read as these clauses, and what stands before them may stand before nothing. -/
theorem written_clauses : ∀ ws : List WrittenClause,
    Exchange [] (written ws).toList ∧ placedClauses.ReadsUpTo (written ws).toList (places ws) []
  | [] => by
    have hidle : IdleList 0 [] := (idleClause_of_mark (by simp)).toIdleList
    exact ⟨⟨by simp [Begins, written], hidle, hidle⟩, [], placedClauses_of_misses misses_clause_of_end, rfl⟩
  | w :: ws => by
    obtain ⟨hexchange, hrest⟩ := written_clauses ws
    have hdone : clause (w.text.toList ++ []) = .done w.clause [] := by
      rw [List.append_nil]
      exact done_of_run w.read
    obtain ⟨y, hy, hlast⟩ := clause_elsewhere hdone hexchange
    have htext : (written (w :: ws)).toList = w.gap.toList ++ (w.text.toList ++ (written ws).toList) := by
      simp [written]
    have hdrop : (written (w :: ws)).toList.dropWhile isBlank = w.text.toList ++ (written ws).toList := by
      rw [htext, List.dropWhile_append_of_pos w.blank.2, solid_of_clause hy]
    refine ⟨⟨?_, hexchange.idle, ?_⟩, ?_⟩
    · rw [htext]
      exact begins_gap w.blank _ _
    · rw [hdrop]
      exact idleList_of_clause hy
    · have hfirst : clause.ReadsUpTo ((written (w :: ws)).toList.dropWhile isBlank) w.clause (written ws).toList := by
        rw [hdrop]
        exact ⟨y, hy, hlast⟩
      have hstep := ReadsUpTo.placedClauses_step hfirst hrest
      rwa [hdrop, ← String.toList_append] at hstep

/-! ### The clause that is refused -/

/-- The refused clause is the first whose kind was given before. -/
theorem repeated?_places : ∀ {ws : List WrittenClause} {given : List Clause.Kind} {start : List Char},
    repeated? given (places ws) = some start → ∃ before again after, ws = before ++ again :: after ∧
      start = (again.text ++ written after).toList ∧ (before.map fun w => w.clause.kind).Nodup ∧
      (∀ w ∈ before, w.clause.kind ∉ given) ∧
      (again.clause.kind ∈ given ∨ again.clause.kind ∈ before.map fun w => w.clause.kind)
  | w :: ws, given, start, h => by
    rw [places, repeated?] at h
    by_cases hw : w.clause.kind ∈ given
    · rw [if_pos (by simpa using hw)] at h
      cases h
      exact ⟨[], w, ws, rfl, rfl, List.nodup_nil, by simp, .inl hw⟩
    · rw [if_neg (by simpa using hw)] at h
      obtain ⟨before, again, after, rfl, hstart, hnodup, hfresh, hagain⟩ := repeated?_places h
      refine ⟨w :: before, again, after, rfl, hstart, ?_, ?_, ?_⟩
      · rw [List.map_cons, List.nodup_cons]
        refine ⟨fun hmem => ?_, hnodup⟩
        obtain ⟨u, hu, hkind⟩ := List.mem_map.mp hmem
        exact hfresh u hu (hkind ▸ List.mem_cons_self)
      · rw [List.forall_mem_cons]
        exact ⟨hw, fun u hu hmem => hfresh u hu (List.mem_cons_of_mem _ hmem)⟩
      · rw [List.map_cons, List.mem_cons]
        rw [List.mem_cons] at hagain
        tauto

/-- The kinds given in a query are of no clause but one, its top modifier before the selection among them. -/
theorem nodup_kinds_iff {lead : Option Top} {kinds : List Clause.Kind} :
    (leadKinds lead ++ kinds).Nodup ↔ kinds.Nodup ∧ ∀ kind ∈ kinds, kind ∉ leadKinds lead := by
  have hlead : (leadKinds lead).Nodup := by
    rw [leadKinds]
    split <;> simp
  rw [List.nodup_append]
  constructor
  · rintro ⟨-, hnodup, hne⟩
    exact ⟨hnodup, fun kind hkind hmem => hne kind hmem kind hkind rfl⟩
  · rintro ⟨hnodup, hfresh⟩
    refine ⟨hlead, hnodup, fun kind hmem other hother heq => ?_⟩
    exact hfresh other hother (heq ▸ hmem)

theorem repeated?_places_eq_none_iff {ws : List WrittenClause} {lead : Option Top} :
    repeated? (leadKinds lead) (places ws) = none ↔
      (leadKinds lead ++ ws.map fun w => w.clause.kind).Nodup := by
  have hkinds : (ws.map WrittenClause.clause).map Clause.kind = ws.map fun w => w.clause.kind := List.map_map
  rw [repeated?_eq_none_iff, nodup_kinds_iff, map_snd_places, hkinds, ← hkinds]
  simp

section Queries

variable {headText : String} {lead : Option Top} {atoms : List Atom} {source : NamePath}
  (hhead : (head.followedBy blanks).run headText = .ok (lead, atoms, source))
include hhead

/-- The text of a head and clauses is read as the query of the clauses, or the repeated clause is refused. -/
theorem parse_written (ws : List WrittenClause) : Query.parse (headText ++ written ws) =
    match repeated? (leadKinds lead) (places ws) with
    | some start => .error (.ofTrouble (headText ++ written ws).toList
        ⟨start, some "clause that was not given before", []⟩)
    | none => .ok ((ws.map WrittenClause.clause).foldl Query.withClause
        ⟨source, atoms, lead.getD .all, [], none, none, none⟩) := by
  obtain ⟨m, hdone, hm⟩ := run_blanks_eq_ok.mp hhead
  obtain ⟨x, hx, -⟩ := consumes_head _ _ _ hdone
  obtain ⟨hexchange, hplaced⟩ := written_clauses ws
  have hmore : (m ++ (written ws).toList).dropWhile isBlank = (written ws).toList.dropWhile isBlank :=
    List.dropWhile_append_of_pos (List.dropWhile_eq_nil_iff.mp hm)
  have hrest : Exchange m (m ++ (written ws).toList) := by
    refine ⟨?_, ?_, ?_⟩
    · have hbegins := hexchange.begins.append m
      rwa [List.append_nil] at hbegins
    · rw [hm]
      exact hexchange.idle
    · rw [hmore]
      exact hexchange.idle'
  rw [hx] at hdone
  obtain ⟨y, hy, hyrest⟩ := head_elsewhere hdone hrest
  obtain ⟨z, hz, hzrest⟩ := placedClauses_of_blanks (hyrest.trans hmore) hplaced
  have htext : (headText ++ written ws).toList = x ++ (m ++ (written ws).toList) := by
    rw [String.toList_append, hx, List.append_assoc]
  rw [← htext] at hy
  have hparse := parse_of_clauses hy hz hzrest
  rw [map_snd_places] at hparse
  exact hparse

/-- Clauses may follow the source in any order, each kind once. The query has what is given in each field; a
clause of a kind that was given before is refused where it begins. -/
theorem Query.parse_clauses (ws : List WrittenClause) :
    ((∃ query, Query.parse (headText ++ written ws) = .ok query) ↔
      (leadKinds lead ++ ws.map fun w => w.clause.kind).Nodup) ∧
    (∀ query, Query.parse (headText ++ written ws) = .ok query →
      query = Query.given ⟨source, atoms, lead.getD .all, [], none, none, none⟩ (ws.map WrittenClause.clause) ∧
      ∀ others : List WrittenClause, (others.map WrittenClause.clause).Perm (ws.map WrittenClause.clause) →
        Query.parse (headText ++ written others) = .ok query) ∧
    ∀ d, Query.parse (headText ++ written ws) = .error d → ∃ before again after, ws = before ++ again :: after ∧
      (leadKinds lead ++ before.map fun w => w.clause.kind).Nodup ∧
      again.clause.kind ∈ leadKinds lead ++ before.map (fun w => w.clause.kind) ∧
      d.finding = "expected clause that was not given before, found end of input" ∧
      d.position.offset = (headText ++ written before ++ again.gap).utf8ByteSize := by
  have hparse := parse_written hhead
  have hnone : ∀ ws : List WrittenClause, repeated? (leadKinds lead) (places ws) = none ↔
      (leadKinds lead ++ ws.map fun w => w.clause.kind).Nodup := fun _ => repeated?_places_eq_none_iff
  refine ⟨?_, fun query hquery => ?_, fun d hd => ?_⟩
  · rw [hparse, ← hnone]
    cases repeated? (leadKinds lead) (places ws) <;> simp
  · have hfresh : repeated? (leadKinds lead) (places ws) = none := by
      rw [hparse] at hquery
      cases hrepeated : repeated? (leadKinds lead) (places ws) with
      | none => rfl
      | some start =>
        rw [hrepeated] at hquery
        cases hquery
    have hgiven := (hnone ws).mp hfresh
    have hkinds : ((ws.map WrittenClause.clause).map Clause.kind).Nodup := by
      rw [List.map_map]
      exact (nodup_kinds_iff.mp hgiven).1
    rw [hparse, hfresh] at hquery
    injection hquery with hquery
    refine ⟨by rw [← hquery, foldl_withClause _ hkinds], fun others hothers => ?_⟩
    have hperm : (others.map fun w => w.clause.kind).Perm (ws.map fun w => w.clause.kind) := by
      have := hothers.map Clause.kind
      rwa [List.map_map, List.map_map] at this
    rw [hparse, (hnone others).mpr ((hperm.append_left _).nodup_iff.mpr hgiven)]
    exact congrArg Except.ok ((foldl_withClause_perm hothers hkinds _).trans hquery)
  · rw [hparse] at hd
    cases hrepeated : repeated? (leadKinds lead) (places ws) with
    | none =>
      rw [hrepeated] at hd
      cases hd
    | some start =>
      obtain ⟨before, again, after, rfl, rfl, hnodup, hfresh, hagain⟩ := repeated?_places hrepeated
      rw [hrepeated] at hd
      cases hd
      refine ⟨before, again, after, rfl, ?_, ?_, rfl, ?_⟩
      · rw [nodup_kinds_iff]
        exact ⟨hnodup, fun kind hkind => by
          obtain ⟨w, hw, rfl⟩ := List.mem_map.mp hkind
          exact hfresh w hw⟩
      · exact List.mem_append.mpr hagain
      · have htext : (headText ++ written (before ++ again :: after)).toList =
            (headText ++ written before ++ again.gap).toList ++ (again.text ++ written after).toList := by
          simp [written]
        rw [htext, Diagnostic.position_ofTrouble (t := ⟨_, _, _⟩), Position.offset_after, String.ofList_toList]

end Queries

/-- An ordering may be given once and not twice. -/
theorem parse_clauses_order : ∃ order : WrittenClause, order.clause = .order [⟨.wildcard 1, .ascending⟩] ∧
    (head.followedBy blanks).run "select * from b" = .ok (none, [.expression (.wildcard 1) none], ⟨["b"]⟩) ∧
    (∃ query, Query.parse ("select * from b" ++ written [order]) = .ok query) ∧
    ¬ ∃ query, Query.parse ("select * from b" ++ written [order, order]) = .ok query := by
  have hsource : NamePath.isProper ⟨["b"]⟩ = true := by decide
  have hselect := head_of_expression expression_star rfl hsource
  have htext : "select".toList ++ ' ' :: (['*'] ++ ' ' :: ("from".toList ++ ' ' :: (NamePath.dotted ⟨["b"]⟩).toList)) =
      "select * from b".toList := by decide
  rw [htext] at hselect
  have hhead : (head.followedBy blanks).run "select * from b" =
      .ok (none, [.expression (.wildcard 1) none], ⟨["b"]⟩) := run_blanks_eq_ok.mpr ⟨[], hselect, rfl⟩
  have hread : Grammar.clause.run "order by *" = .ok (.order [⟨.wildcard 1, .ascending⟩]) :=
    run_of_done (clause_of_expression expression_star rfl)
  have hgap : IsGap "\n".toList := ⟨by simp, by simp [isBlank]⟩
  refine ⟨⟨"\n", "order by *", _, hgap, hread⟩, rfl, hhead, ?_, ?_⟩
  · exact (Query.parse_clauses hhead [_]).1.mpr (by simp [leadKinds])
  · exact mt (Query.parse_clauses hhead [_, _]).1.mp (by simp [leadKinds])

end SelectLang
