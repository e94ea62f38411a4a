/-
# What is read is well-formed

Every tree that the grammar reads is well-formed, rule by rule, and its numbers are without a sign. They
need not be finite: the digits of a literal may denote a number that is rounded to infinity.

Key theorems: `yields_expression`, `yields_statement`, `yields_script`.
-/
import Mathlib
import SelectLang.Proofs.Text.Results
import SelectLang.Proofs.Grammar.Tokens
import SelectLang.Grammar.Script

namespace SelectLang

/-! ### Numbers -/

namespace Binary64

theorem isUnsigned_ofMagnitude {magnitude : Nat} (h : magnitude ≤ infinityMagnitude) :
    (ofMagnitude false magnitude).isUnsigned = true := by
  have hbits : (ofMagnitude false magnitude).bits.toNat = magnitude := by
    simp only [ofMagnitude, Bool.false_eq_true, ↓reduceIte, UInt64.toNat_ofNat']
    simp only [infinityMagnitude, Nat.pow_eq] at h
    exact Nat.mod_eq_of_lt (by omega)
  simp only [infinityMagnitude] at h
  simp only [isUnsigned, isNaN, isNegative, Binary64.magnitude, hbits, infinityMagnitude,
    Bool.and_eq_true, Bool.not_eq_true', decide_eq_false_iff_not]
  simp only [Nat.pow_eq] at h ⊢
  omega

theorem isUnsigned_ofRatio (num den : Nat) : (ofRatio false num den).isUnsigned = true := by
  unfold ofRatio
  split
  · exact isUnsigned_ofMagnitude (Nat.zero_le _)
  · exact isUnsigned_ofMagnitude (Nat.min_le_right _ _)

theorem isUnsigned_ofDecimal (digits : Nat) (exponent : Int) :
    (ofDecimal false digits exponent).isUnsigned = true := by
  unfold ofDecimal
  split
  · exact isUnsigned_ofRatio _ _
  · exact isUnsigned_ofRatio _ _

end Binary64

namespace Grammar

open SelectLang.Parser

/-! ### Names and literals -/

theorem yields_identifier : Yields (fun name => isName name = true) identifier := fun s name r h => by
  have hf := expecting_eq_done h
  obtain ⟨word, hword, hname⟩ := filterMap_eq_done hf
  by_cases hstart : ∀ c ∈ s.head?, isNameStart c = false
  · exact absurd h (misses_identifier hstart).not_done
  · push Not at hstart
    obtain ⟨c, hc, hs⟩ := hstart
    rw [ne_eq, Bool.not_eq_false] at hs
    rw [consumed_word hc hs] at hword
    cases hword
    simp only [Option.ite_none_left_eq_some, Bool.not_eq_true, Option.some.injEq] at hname
    obtain ⟨hres, rfl⟩ := hname
    obtain ⟨t, rfl⟩ : ∃ t, s = c :: t := by
      cases s with
      | nil => cases hc
      | cons d t => cases hc; exact ⟨t, rfl⟩
    have hw : wordOf (c :: t) = c :: t.takeWhile isNameChar := by
      rw [wordOf, List.takeWhile_cons_of_pos (isNameChar_of_isNameStart hs)]
    refine isName_iff.mpr ⟨c, t.takeWhile isNameChar, by rw [String.toList_ofList, hw], hs, ?_, hres⟩
    exact fun d hd => List.mem_takeWhile_imp hd

theorem yields_namePath : Yields (fun path => path.isProper = true) namePath :=
  (yields_identifier.separated1 _).map fun _ h => isProper_iff.mpr h

theorem yields_quoted (q : Char) :
    Yields (fun text => q ∉ text.toList ∧ '\n' ∉ text.toList) (quoted q) := by
  refine yields_bind _ fun _ => ?_
  have hrun : Yields (fun text => ∀ c ∈ text, c ≠ q ∧ c ≠ '\n')
      (Parser.takeWhile fun c => c != q && c != '\n') := fun s a r h => by
    cases h
    intro c hc
    simpa using List.mem_takeWhile_imp hc
  refine (hrun.followedBy _).commit.map fun text h => ?_
  rw [String.toList_ofList]
  exact ⟨fun hq => (h q hq).1 rfl, fun hn => (h _ hn).2 rfl⟩

theorem yields_string (number : Binary64 → Bool) :
    Yields (fun text => (Literal.string text).wellFormed number = true) Grammar.string := by
  refine yields_firstOf ?_
  simp only [List.mem_cons, List.not_mem_nil, or_false, forall_eq_or_imp, forall_eq]
  refine ⟨fun s text r h => ?_, fun s text r h => ?_⟩
  · have := yields_quoted '\'' s text r h
    simp [Literal.wellFormed, this]
  · have := yields_quoted '"' s text r h
    simp [Literal.wellFormed, this]

theorem yields_float : Yields (fun x => Binary64.isUnsigned x = true) Grammar.float :=
  yields_bind _ fun _ => yields_pure (Binary64.isUnsigned_ofDecimal _ _)

theorem yields_integer : Yields (fun n : Int64 => 0 ≤ n.toInt) Grammar.integer := by
  refine Yields.filterMap _ fun ds n h => ?_
  simp only [int64?, Option.ite_none_right_eq_some, Option.some.injEq] at h
  obtain ⟨⟨hmin, hmax⟩, rfl⟩ := h
  rw [Int64.toInt_ofInt_of_le (by simp) ?_]
  · exact Int.natCast_nonneg _
  · have : Int64.maxValue.toInt = 2 ^ 63 - 1 := by decide
    omega

theorem yields_literal :
    Yields (fun value => Literal.wellFormed Binary64.isUnsigned value = true) Grammar.literal := by
  refine yields_firstOf ?_
  simp only [List.mem_cons, List.not_mem_nil, or_false, forall_eq_or_imp, forall_eq]
  refine ⟨(yields_string _).map fun _ h => h, yields_bind _ fun _ => yields_pure rfl,
    yields_float.map fun _ h => h, yields_integer.map fun n h => ?_⟩
  simpa [Literal.wellFormed] using h

/-! ### Expressions -/

/-- Well-formed, with numbers that have no sign. -/
def IsRead (e : Expr) : Prop := e.wellFormed Binary64.isUnsigned = true

section Layers

variable {inner : Parser Expr} (h : Yields IsRead inner)
include h

theorem yields_parameter :
    Yields (fun p => Parameter.wellFormed Binary64.isUnsigned p = true) (parameter inner) := by
  refine yields_firstOf ?_
  simp only [List.mem_cons, List.not_mem_nil, or_false, forall_eq_or_imp, forall_eq]
  refine ⟨Yields.map (P := fun p : String × Expr => isName p.1 = true ∧ IsRead p.2) ?_ ?_, ?_⟩
  · exact yields_identifier.lexeme.bind fun name hname => yields_bind _ fun _ =>
      h.map fun e he => ⟨hname, he⟩
  · rintro ⟨name, e⟩ ⟨hname, he⟩
    rw [Parameter.wellFormed, Bool.and_eq_true]
    exact ⟨hname, he⟩
  · exact h.map fun e he => he

theorem yields_parameters :
    Yields (fun ps => parametersWellFormed Binary64.isUnsigned ps = true) (parameters inner) := by
  refine Yields.parenthesized fun s ps r hs => ?_
  have hall := (yields_parameter h).separated (symbol ',') s ps r hs
  clear hs
  induction ps with
  | nil => rfl
  | cons p ps ih =>
    rw [List.forall_mem_cons] at hall
    rw [parametersWellFormed, Bool.and_eq_true]
    exact ⟨hall.1, ih hall.2⟩

theorem yields_call : Yields IsRead (call inner) := by
  refine yields_namePath.bind fun path hpath => (yields_parameters h).many1.map fun lists hlists => ?_
  have hcallee : (lists.foldl Expr.call (.path path)).isCallee = true ∧
      IsRead (lists.foldl Expr.call (.path path)) := by
    have hstart : (Expr.path path).isCallee = true ∧ IsRead (.path path) := ⟨rfl, hpath⟩
    refine List.foldlRecOn (motive := fun e => e.isCallee = true ∧ IsRead e) lists Expr.call hstart
      fun target htarget ps hps => ⟨rfl, ?_⟩
    rw [IsRead, Expr.wellFormed, Bool.and_eq_true, Bool.and_eq_true]
    exact ⟨htarget, hlists.2 ps hps⟩
  exact hcallee.2

theorem yields_factor : Yields IsRead (factor inner) := by
  refine (yields_firstOf ?_).lexeme
  simp only [List.mem_cons, List.not_mem_nil, or_false, forall_eq_or_imp, forall_eq]
  refine ⟨yields_call h, yields_literal.map fun _ hv => hv, yields_namePath.map fun _ hp => hp, ?_,
    h.parenthesized⟩
  refine (yields_true _).many1.map fun stars hstars => ?_
  simp only [IsRead, Expr.wellFormed, decide_eq_true_eq]
  exact List.length_pos_iff.mpr hstars.1

end Layers

theorem yields_chain (ops : List Operator) {operand : Parser Expr} (h : Yields IsRead operand) :
    Yields IsRead (chain ops operand) := by
  refine h.bind fun first hfirst => ?_
  have hround : Yields (fun p : Operator × Expr => IsRead p.2) (both (lexeme (operator ops)) operand) :=
    yields_bind _ fun _ => h.map fun _ he => he
  refine hround.foldMany hfirst fun left p hl hr => ?_
  rw [IsRead, Expr.wellFormed, Bool.and_eq_true]
  exact ⟨hl, hr⟩

theorem yields_expressionOver {inner : Parser Expr} (h : Yields IsRead inner) :
    Yields IsRead (expressionOver inner) := by
  have hadd : Yields IsRead (additive inner) := yields_chain _ (yields_chain _ (yields_factor h))
  refine hadd.bind fun first hfirst => (hadd.after _).foldMany hfirst fun value target hv ht => ?_
  rw [IsRead, Expr.wellFormed, Bool.and_eq_true]
  exact ⟨hv, ht⟩

theorem yields_expression : Yields IsRead expression := yields_fix fun _ h => yields_expressionOver h

/-! ### Queries -/

theorem yields_sortTerm :
    Yields (fun term => SortTerm.wellFormed Binary64.isUnsigned term = true) sortTerm :=
  yields_expression.bind fun _ he => yields_bind _ fun _ => yields_pure he

theorem yields_atom : Yields (fun a => Atom.wellFormed Binary64.isUnsigned a = true) atom := by
  refine yields_firstOf ?_
  simp only [List.mem_cons, List.not_mem_nil, or_false, forall_eq_or_imp, forall_eq]
  refine ⟨Yields.map (P := fun p : NamePath × Expr => p.1.isProper = true ∧ IsRead p.2) ?_ ?_,
    yields_expression.bind fun e he => ?_⟩
  · exact yields_namePath.lexeme.bind fun path hpath => yields_bind _ fun _ =>
      yields_expression.map fun e he => ⟨hpath, he⟩
  · rintro ⟨path, e⟩ ⟨hpath, he⟩
    rw [Atom.wellFormed, Bool.and_eq_true]
    exact ⟨he, hpath⟩
  · refine ((yields_namePath.lexeme.expecting _).commit.after _).optional.map fun output ho => ?_
    rw [Atom.wellFormed, Bool.and_eq_true]
    refine ⟨he, ?_⟩
    cases output with
    | none => rfl
    | some path => exact ho path rfl

/-- The terms of an ordering are well-formed. -/
def Clause.IsRead : Clause → Prop
  | .order terms => ∀ term ∈ terms, SortTerm.wellFormed Binary64.isUnsigned term = true
  | _ => True

theorem yields_clause : Yields Clause.IsRead clause := by
  refine yields_firstOf ?_
  simp only [List.mem_cons, List.not_mem_nil, or_false, forall_eq_or_imp, forall_eq]
  refine ⟨?_, yields_bind _ fun _ => yields_pure trivial, yields_bind _ fun _ => yields_pure trivial,
    yields_bind _ fun _ => yields_pure trivial, yields_bind _ fun _ => yields_pure trivial⟩
  exact (((yields_sortTerm.separated1 _).expecting _).commit.after _).map fun _ h => h.2

theorem wellFormed_withClause {query : Query} {c : Clause}
    (h : query.wellFormed Binary64.isUnsigned = true) (hc : Clause.IsRead c) :
    (query.withClause c).wellFormed Binary64.isUnsigned = true := by
  cases c with
  | order terms =>
    simp only [Query.wellFormed, Query.withClause, Bool.and_eq_true] at h ⊢
    exact ⟨h.1, List.all_eq_true.mpr hc⟩
  | _ => exact h

theorem yields_body : Yields (fun query => Query.wellFormed Binary64.isUnsigned query = true) body := by
  refine yields_bind _ fun lead => ((yields_atom.separated1 _).expecting _).bind fun atoms hatoms =>
    yields_bind _ fun _ => (yields_namePath.lexeme.expecting _).bind fun source hsource => ?_
  have hclause : Yields (fun c : List Char × Clause => Clause.IsRead c.2) (lexeme (both here clause)) :=
    Yields.lexeme (yields_bind _ fun _ => yields_clause.map fun _ hc => hc)
  refine hclause.many.bind fun clauses hclauses => yields_bind _ fun _ => ?_
  split
  · intro s a r h
    cases h
  · refine yields_pure (List.foldlRecOn (motive := fun query : Query =>
      query.wellFormed Binary64.isUnsigned = true) _ Query.withClause ?_ fun query hq c hc => ?_)
    · simp only [Query.wellFormed, Bool.and_eq_true, Bool.not_eq_true', List.isEmpty_eq_false_iff,
        List.all_eq_true]
      exact ⟨⟨⟨hsource, hatoms.1⟩, hatoms.2⟩, fun term hterm => by cases hterm⟩
    · obtain ⟨c', hc', rfl⟩ := List.mem_map.mp hc
      exact wellFormed_withClause hq (hclauses c' hc')

theorem yields_statement :
    Yields (fun query => Query.wellFormed Binary64.isUnsigned query = true) statement :=
  yields_body.commit.after _

theorem yields_script :
    Yields (fun script => Script.wellFormed Binary64.isUnsigned script = true) Grammar.script :=
  yields_statement.many.bind fun _ h => yields_bind _ fun _ => yields_bind _ fun _ =>
    yields_pure (List.all_eq_true.mpr h)

end Grammar

/-! ### Whole texts -/

theorem done_of_run {α : Type} {p : Parser α} {text : String} {a : α} (h : p.run text = .ok a) :
    p text.toList = .done a [] := by
  unfold Parser.run Parser.whole at h
  cases hp : p text.toList with
  | done b r =>
    rw [hp] at h
    cases r with
    | nil => cases h; rfl
    | cons c r => cases h
  | miss t => rw [hp] at h; cases h
  | stop t => rw [hp] at h; cases h

theorem wellFormed_of_parse_script {text : String} {script : Script}
    (h : Script.parse text = .ok script) : script.wellFormed Binary64.isUnsigned = true :=
  Grammar.yields_script _ _ [] (done_of_run h)

theorem wellFormed_of_parse_query {text : String} {query : Query} (h : Query.parse text = .ok query) :
    query.wellFormed Binary64.isUnsigned = true :=
  Grammar.yields_statement.followedBy _ _ _ [] (done_of_run h)

theorem wellFormed_of_parse_expression {text : String} {e : Expr} (h : Expr.parse text = .ok e) :
    e.wellFormed Binary64.isUnsigned = true :=
  Grammar.yields_expression.followedBy _ _ _ [] (done_of_run h)

end SelectLang
