/-
# The grammar stays in its text

Every rule of the grammar leaves the end of its text, be it read or not, and every trouble finds what is left there,
but for one. A clause of a kind that was given before is refused at the place where it begins as if nothing was left
there (`RepeatsClause`, `fails_of_statement`). Of a script it is the first query that cannot be read that may have
such a clause (`RepeatsLater`).

Key definitions: `RepeatsClause`, `RepeatsLater`.
Key theorems: `tells_expression`, `tells_clause`, `fails_of_statement`, `script_cons`, `fails_of_script`.
-/
import Mathlib
import SelectLang.Proofs.Grammar.Extension
import SelectLang.Proofs.Text.Troubles

namespace SelectLang
namespace Grammar

open SelectLang.Parser

/-! ### Names and literals -/

theorem tells_identifier : Tells identifier :=
  ((((tells_satisfy isNameStart).both (tells_takeWhile isNameChar)).consumed).filterMap _).expecting _

theorem tells_namePath : Tells namePath := ((tells_char '.').separated1 tells_identifier).map _

theorem tells_quoted (q : Char) : Tells (quoted q) :=
  (tells_char q).bind fun _ =>
    (((tells_takeWhile _).followedBy ((tells_char q).expecting _)).commit).map String.ofList

theorem tells_literal : Tells Grammar.literal := by
  have hstring : Tells string := tells_firstOf (by simpa using ⟨tells_quoted '\'', tells_quoted '"'⟩)
  have hboolean : Tells boolean :=
    tells_firstOf (by simpa using ⟨(tells_keyword "true").map _, (tells_keyword "false").map _⟩)
  have hpointed : Tells pointed := by
    refine tells_firstOf ?_
    simp only [List.mem_cons, List.not_mem_nil, or_false, forall_eq_or_imp, forall_eq]
    exact ⟨tells_digits.bind fun whole => (tells_char '.').bind fun _ => tells_digits.optional.map _,
      (tells_char '.').bind fun _ => tells_digits.map _⟩
  have hinteger : Tells integer := tells_digits.filterMap _
  refine tells_firstOf ?_
  simp only [List.mem_cons, List.not_mem_nil, or_false, forall_eq_or_imp, forall_eq]
  exact ⟨hstring.map _, hboolean.map _, Tells.map (p := float) (hpointed.map _) _, hinteger.map _⟩

/-! ### Expressions -/

section Layers

variable {inner : Parser Expr} (h : Tells inner)
include h

theorem tells_parameters : Tells (parameters inner) := by
  refine Tells.parenthesized ((tells_symbol ',').separated (tells_firstOf ?_))
  simp only [List.mem_cons, List.not_mem_nil, or_false, forall_eq_or_imp, forall_eq]
  exact ⟨(tells_identifier.lexeme.separatedPair (tells_symbol ':') h).map _, h.map _⟩

theorem tells_factor : Tells (factor inner) := by
  refine (tells_firstOf ?_).lexeme
  simp only [List.mem_cons, List.not_mem_nil, or_false, forall_eq_or_imp, forall_eq]
  exact ⟨tells_namePath.bind fun target => (tells_parameters h).many1.map _, tells_literal.map _,
    tells_namePath.map _, (tells_char '*').many1.map _, h.parenthesized⟩

omit h in
theorem tells_chain (ops : List Operator) {operand : Parser Expr} (ho : Tells operand) : Tells (chain ops operand) := by
  have hoperator : Tells (operator ops) := by
    refine tells_firstOf fun p hp => ?_
    obtain ⟨op, -, rfl⟩ := List.mem_map.mp hp
    exact (tells_char op.symbol).map _
  exact ho.bind fun first => (hoperator.lexeme.both ho).foldMany _ _

theorem tells_expressionOver : Tells (expressionOver inner) := by
  have hadditive : Tells (additive inner) := tells_chain _ (tells_chain _ (tells_factor h))
  exact hadditive.bind fun first => ((tells_symbols "|>").after hadditive).foldMany _ _

end Layers

theorem tells_expression : Tells expression := tells_fix fun _ h => tells_expressionOver h

/-! ### Items and clauses -/

theorem tells_atom : Tells atom := by
  have has : Tells ((lexeme (keyword "as")).after (commit (expecting "alias" (lexeme namePath)))) :=
    (tells_keyword "as").lexeme.after ((tells_namePath.lexeme.expecting _).commit)
  refine tells_firstOf ?_
  simp only [List.mem_cons, List.not_mem_nil, or_false, forall_eq_or_imp, forall_eq]
  exact ⟨(tells_namePath.lexeme.separatedPair (tells_symbol '=') tells_expression).map _,
    tells_expression.bind fun e => has.optional.map _⟩

theorem tells_sortTerm : Tells sortTerm := by
  have heither : ∀ short long : String, Tells (firstOf [keyword short, keyword long]) := fun short long =>
    tells_firstOf (by simpa using ⟨tells_keyword short, tells_keyword long⟩)
  have hdirection : Tells direction :=
    tells_firstOf (by simpa using ⟨(heither "asc" "ascending").map _, (heither "desc" "descending").map _⟩)
  exact tells_expression.bind fun e => hdirection.lexeme.optional.map _

theorem tells_orderBy : Tells orderBy := by
  have hby : Tells (keywords ["order", "by"]) :=
    (tells_keyword "order").bind fun _ => tells_blanks1.bind fun _ => (tells_keyword "by").map _
  exact hby.after (((tells_symbol ',').separated1 tells_sortTerm).expecting _).commit

theorem tells_behind_word (word what : String) :
    Tells ((keyword word).after (commit (expecting what (lexeme quantity)))) :=
  (tells_keyword word).after ((tells_quantity.lexeme.expecting what).commit)

theorem tells_paginated : Tells paginated := by
  have hpages : Tells pageAndSize := (tells_keyword "on").lexeme.bind fun _ => tells_quantity.lexeme.bind fun page =>
    (tells_keyword "by").lexeme.bind fun _ => tells_quantity.lexeme.map _
  exact (tells_keyword "paginated").after ((Tells.expecting _ hpages).commit)

theorem tells_topModifier : Tells topModifier := by
  have hspaced : ∀ {word : String} {f : UInt64 → Parser Top}, (∀ n, Tells (f n)) → Tells (do
      let _ ← keyword word
      let _ ← blanks1
      let n ← quantity
      f n) := fun hf => (tells_keyword _).bind fun _ => tells_blanks1.bind fun _ => tells_quantity.bind hf
  refine tells_firstOf ?_
  simp only [List.mem_cons, List.not_mem_nil, or_false, forall_eq_or_imp, forall_eq]
  exact ⟨(tells_keyword _).map _, (tells_keyword _).map _, (tells_keyword _).map _,
    hspaced fun n => (tells_char '%').absent.map _, hspaced fun n => (tells_char '%').map _,
    hspaced fun n => tells_pure _⟩

theorem tells_clause : Tells clause := by
  refine tells_firstOf ?_
  simp only [List.mem_cons, List.not_mem_nil, or_false, forall_eq_or_imp, forall_eq]
  exact ⟨tells_orderBy.map _, (tells_behind_word _ _).map _, (tells_behind_word _ _).map _, tells_paginated.map _,
    tells_topModifier.map _⟩

/-! ### Queries -/

/-- The clauses begin in the text, and not at its end. -/
theorem starts_suffix : ∀ {cs : List (List Char × Clause)} {s r : List Char}, placedClauses s = .done cs r →
    ∀ placed ∈ cs, placed.1 <:+ s ∧ placed.1 ≠ []
  | cs, s, r, h => by
    have hstart : s.dropWhile isBlank <:+ s := List.dropWhile_suffix isBlank
    rcases placedClauses_eq_done h with ⟨rfl, -⟩ | ⟨c, m, ds, hc, hds, rfl⟩
    · simp
    · have hne : s.dropWhile isBlank ≠ [] := fun hnil => by
        rw [hnil] at hc
        exact misses_clause_of_end.not_done hc
      rw [List.forall_mem_cons]
      refine ⟨⟨hstart, hne⟩, fun placed hp => ?_⟩
      obtain ⟨hsuffix, hne⟩ := starts_suffix hds placed hp
      exact ⟨hsuffix.trans ((tells_clause.suffix_of_done hc).trans hstart), hne⟩
termination_by cs => cs.length

theorem tells_placedClauses : Tells placedClauses := ((tells_here.both tells_clause).lexeme).many

theorem repeated?_mem : ∀ {cs : List (List Char × Clause)} {given : List Clause.Kind} {start : List Char},
    repeated? given cs = some start → ∃ c, (start, c) ∈ cs
  | (place, c) :: cs, given, start, h => by
    rw [repeated?] at h
    split at h
    · cases h
      exact ⟨c, List.mem_cons_self⟩
    · obtain ⟨d, hd⟩ := repeated?_mem h
      exact ⟨d, List.mem_cons_of_mem _ hd⟩

/-- How a clause is refused that was given before. -/
def again (start : List Char) : Trouble := ⟨start, some "clause that was not given before", []⟩

/-- In the query at the front of the text a clause is of a kind that was given before, and begins at `start`. -/
def RepeatsClause (s start : List Char) : Prop :=
  ∃ lead atoms source m clauses c, head s = .done (lead, atoms, source) m ∧ placedClauses m = .done clauses c ∧
    repeated? (leadKinds lead) clauses = some start

theorem tells_head : Tells head := by
  refine (tells_keyword "select").lexeme.after (tells_topModifier.lexeme.optional.bind fun lead => ?_)
  have hlisting : Tells listing := ((tells_symbol ',').separated1 tells_atom).bind fun atoms =>
    (tells_keyword "from").lexeme.bind fun _ => tells_namePath.lexeme.map _
  exact hlisting.map _

variable {s start : List Char}

theorem RepeatsClause.suffix (h : RepeatsClause s start) : start <:+ s ∧ start ≠ [] := by
  obtain ⟨lead, atoms, source, m, clauses, c, hhead, hclauses, hrepeated⟩ := h
  obtain ⟨placed, hmem⟩ := repeated?_mem hrepeated
  obtain ⟨hsuffix, hne⟩ := starts_suffix hclauses _ hmem
  exact ⟨hsuffix.trans (tells_head.suffix_of_done hhead), hne⟩

theorem exists_termination (c : List Char) : ∃ found r, termination c = .done found r := by
  rw [termination, lexeme_apply, Parser.optional]
  rcases satisfy_or_misses (· == ';') (c.dropWhile isBlank) with ⟨x, r, h⟩ | ⟨t, h⟩
  · exact ⟨some x, r, by rw [char, h]⟩
  · exact ⟨none, _, by rw [char, h]⟩

theorem statement_of_repeats (h : RepeatsClause s start) : statement s = .stop (again start) := by
  obtain ⟨lead, atoms, source, m, clauses, c, hhead, hclauses, hrepeated⟩ := h
  obtain ⟨found, r, hend⟩ := exists_termination c
  rw [statement_of_clauses hhead hclauses hend, hrepeated, again]

/-- A query fails in the text at what is left there, or because of a clause that was given before. -/
theorem fails_of_statement {t : Trouble} (h : (statement s).Fails t) :
    t.LiesIn s ∨ ∃ start, RepeatsClause s start ∧ t = again start := by
  have hselects : Tells (lexeme (keyword "select")) := (tells_keyword "select").lexeme
  have hleads : Tells (optional (lexeme topModifier)) := tells_topModifier.lexeme.optional
  have hitems : Tells (expecting "selection" (separated1 (symbol ',') atom)) :=
    ((tells_symbol ',').separated1 tells_atom).expecting _
  have hfroms : Tells (expecting "`from`" (lexeme (keyword "from"))) := (tells_keyword "from").lexeme.expecting _
  have hsources : Tells (expecting "source name" (lexeme namePath)) := tells_namePath.lexeme.expecting _
  rcases hselects.fails_of_bind (List.suffix_refl s) h with h | ⟨_, m, hselect, hm, h⟩
  · exact .inl h
  rcases hleads.fails_of_bind hm (fails_of_commit h) with h | ⟨lead, m₁, hlead, hm₁, h⟩
  · exact .inl h
  rcases hitems.fails_of_bind hm₁ h with h | ⟨atoms, m₂, hatoms, hm₂, h⟩
  · exact .inl h
  rcases hfroms.fails_of_bind hm₂ h with h | ⟨_, m₃, hfrom, hm₃, h⟩
  · exact .inl h
  rcases hsources.fails_of_bind hm₃ h with h | ⟨source, m₄, hsource, hm₄, h⟩
  · exact .inl h
  rcases tells_placedClauses.fails_of_bind hm₄ h with h | ⟨clauses, c, hclauses, -, h⟩
  · exact .inl h
  obtain ⟨found, r, hend⟩ := exists_termination c
  rw [bind_done hend] at h
  have hhead : head s = .done (lead, atoms, source) m₄ := by
    refine (after_done hselect).trans ((bind_done hlead).trans ?_)
    refine (bind_done (m := m₄) (a := (atoms, source)) ?_).trans rfl
    rw [listing, bind_done (expecting_eq_done hatoms), bind_done (expecting_eq_done hfrom),
      bind_done (expecting_eq_done hsource), pure_apply]
  rw [← leadKinds] at h
  cases hrepeated : repeated? (leadKinds lead) clauses with
  | some start =>
    rw [hrepeated] at h
    have hagain : again start = t := Reply.fails_stop.mp h
    exact .inr ⟨start, ⟨lead, atoms, source, m₄, clauses, c, hhead, hclauses, hrepeated⟩, hagain.symm⟩
  | none =>
    rw [hrepeated] at h
    exact absurd h Reply.not_fails_done

/-! ### Scripts -/

theorem skipsBlanks_statement : SkipsBlanks statement := (skipsBlanks_lexeme _).bind _

theorem consumes_statement : Consumes 1 statement := fun s query r h => by
  obtain ⟨p, c, found, hparts, hend, -⟩ := statement_eq_done.mp h
  obtain ⟨u, rfl, hlen⟩ := consumes_parts _ _ _ hparts
  obtain ⟨v, rfl, -⟩ := ((consumes_char ';').mono (Nat.zero_le 1)).optional.lexeme _ _ _ hend
  exact ⟨u ++ v, (List.append_assoc u v r).symm, by rw [List.length_append]; omega⟩

/-- A script is queries with nothing but blanks behind them. -/
theorem script_apply (s : List Char) : script s = match many statement s with
    | .done queries r =>
      (commit (expecting "select statement" atEnd) (r.dropWhile isBlank)).map fun _ => ⟨queries⟩
    | .miss t => .miss t
    | .stop t => .stop t := by
  refine (bind_apply (many statement) _ s).trans ?_
  cases many statement s with
  | done queries r =>
    have hblanks : blanks r = .done (r.takeWhile isBlank) (r.dropWhile isBlank) := rfl
    simp only
    rw [bind_done hblanks, bind_apply]
    cases commit (expecting "select statement" atEnd) (r.dropWhile isBlank) <;> rfl
  | miss t => rfl
  | stop t => rfl

/-- A script is its first query and the script behind it. -/
theorem script_cons {s m : List Char} {query : Query} (h : statement s = .done query m) :
    script s = (script m).map fun more => ⟨query :: more.statements⟩ := by
  rw [script_apply, script_apply, many_cons h (consumes_statement.length_le h)]
  cases many statement m with
  | done queries r =>
    simp only [Reply.map]
    cases commit (expecting "select statement" atEnd) (r.dropWhile isBlank) <;> rfl
  | miss t => rfl
  | stop t => rfl

/-- The first query of the text that cannot be read has a clause that begins at `start` and is of a kind that was
given before. -/
inductive RepeatsLater : List Char → List Char → Prop
  | here {s start : List Char} (h : RepeatsClause s start) : RepeatsLater s start
  | later {s m start : List Char} {query : Query} (hquery : statement s = .done query m) (h : RepeatsLater m start) :
    RepeatsLater s start

theorem suffix_of_statement {query : Query} {r : List Char} (h : statement s = .done query r) : r <:+ s := by
  obtain ⟨u, rfl, -⟩ := consumes_statement _ _ _ h
  exact List.suffix_append u r

theorem RepeatsLater.suffix (h : RepeatsLater s start) : start <:+ s ∧ start ≠ [] := by
  induction h with
  | here h => exact h.suffix
  | later hquery _ ih => exact ⟨ih.1.trans (suffix_of_statement hquery), ih.2⟩

theorem script_of_repeats (h : RepeatsLater s start) : script s = .stop (again start) := by
  induction h with
  | here h => rw [script_apply, many, statement_of_repeats h]
  | later hquery _ ih => rw [script_cons hquery, ih, Reply.map]

/-- A script fails at what is left in its text, or because of a clause that was given before in its query. -/
theorem fails_of_script {s : List Char} {t : Trouble} (h : (script s).Fails t) :
    t.LiesIn s ∨ ∃ start, RepeatsLater s start ∧ t = again start := by
  induction hl : s.length using Nat.strong_induction_on generalizing s with
  | _ n ih =>
    subst hl
    cases hquery : statement s with
    | done query m =>
      rw [script_cons hquery, Reply.fails_map] at h
      rcases ih m.length (consumes_statement.length_le hquery) h rfl with hlies | ⟨start, hlater, rfl⟩
      · exact .inl (hlies.extend (suffix_of_statement hquery))
      · exact .inr ⟨start, .later hquery hlater, rfl⟩
    | miss u =>
      rw [script_apply, many_of_misses ⟨u, hquery⟩, Reply.fails_map] at h
      have hend : Tells (commit (expecting "select statement" atEnd)) := (tells_atEnd.expecting _).commit
      exact .inl ((hend.of_fails h).extend (List.dropWhile_suffix isBlank))
    | stop u =>
      have hstop : script s = .stop u := by rw [script_apply, many, hquery]
      obtain rfl : u = t := Reply.fails_stop.mp (hstop ▸ h)
      rcases fails_of_statement (.inr hquery) with hlies | ⟨start, hrepeats, ht⟩
      · exact .inl hlies
      · exact .inr ⟨start, .here hrepeats, ht⟩

theorem stays_script : Stays script := fun s => by
  have hfail : ∀ t, (script s).Fails t → t.rest <:+ s := fun t h => by
    rcases fails_of_script h with hlies | ⟨start, hlater, rfl⟩
    · exact hlies.rest
    · exact hlater.suffix.1
  cases h : script s with
  | done queries r =>
    obtain ⟨more, m, hmany, hend⟩ := bind_eq_done h
    obtain ⟨u, rfl, -⟩ := (consumes_statement.mono (Nat.zero_le 1)).many _ _ _ hmany
    have hbehind : r <:+ m :=
      (tells_blanks.bind fun _ => ((tells_atEnd.expecting _).commit).map _).suffix_of_done hend
    exact hbehind.trans (List.suffix_append u m)
  | miss t => exact hfail t (.inl h)
  | stop t => exact hfail t (.inr h)

end Grammar
end SelectLang
