/-
# What the grammar repeats

Two guards keep reading from going on for ever: a repetition refuses a round that reads nothing, and a rule that
refers to itself is at hand on shorter texts only. The grammar needs neither. Whatever it repeats takes a
character, and so does what stands between the elements of a list, so the rounds come to an end by themselves
(`Progressive`). An inner expression stands behind a parenthesis, so a layer of expressions asks for inner ones on
shorter texts only, and layers over layers, one more than the text has characters, are the expression whatever is
at the bottom. Not even a stop at the bottom shows, and a stop is what every rule hands on: the bottom is never
reached.

Key definitions: `Progressive`.
Key theorems: `progressive`, `expressionOver_eq`, `expressionOver_iterate`.
-/
import Mathlib
import SelectLang.Proofs.Grammar.Troubles
import SelectLang.Proofs.Text.Rounds

namespace SelectLang
namespace Grammar

open SelectLang.Parser

/-! ### What is repeated -/

/-- All repetitions and lists of the grammar. -/
structure Progressive : Prop where
  statements : Repeatable statement
  clauses : Repeatable (lexeme (both here clause))
  atoms : Listable (symbol ',') atom
  sortTerms : Listable (symbol ',') sortTerm
  pipes : Repeatable ((symbols "|>").after (additive expression))
  terms : Repeatable (both (lexeme (operator [.add, .subtract])) (term expression))
  factors : Repeatable (both (lexeme (operator [.multiply, .divide, .remainder])) (factor expression))
  stars : Repeatable (char '*')
  parameterLists : Repeatable (parameters expression)
  parameters : Listable (symbol ',') (parameter expression)
  segments : Listable (char '.') identifier

theorem consumes_pipe : Consumes 1 (symbols "|>") := (consumes_symbols "|>").mono (by decide)

/-- An operator with its right operand. -/
theorem consumes_operation (ops : List Operator) {operand : Parser Expr} (h : Consumes 1 operand) :
    Consumes 1 (both (lexeme (operator ops)) operand) :=
  (consumes_operator ops).lexeme.bind_left fun op => (h.mono (Nat.zero_le 1)).map (op, ·)

theorem consumes_inner_parameter : Consumes 1 (parameter expression) := by
  refine consumes_firstOf ?_
  simp only [List.mem_cons, List.not_mem_nil, or_false, forall_eq_or_imp, forall_eq]
  refine ⟨Consumes.bind_left ?_ fun pair => consumes_pure _, consumes_expression.map _⟩
  exact consumes_identifier.lexeme.bind_left fun name => (consumes_symbol ':').mono (Nat.zero_le 1) |>.bind_left
    fun _ => (consumes_expression.mono (Nat.zero_le 1)).map (name, ·)

theorem progressive : Progressive := by
  have hinner : Consumes 0 expression := consumes_expression.mono (Nat.zero_le 1)
  have hlists : Consumes 1 (Grammar.parameters expression) := (consumes_parameters hinner).mono (by decide)
  exact {
    statements := consumes_statement.repeatable
    clauses := (consumes_here.bind_right fun start => consumes_clause.map (start, ·)).lexeme.repeatable
    atoms := (consumes_symbol ',').listable consumes_atom
    sortTerms := (consumes_symbol ',').listable consumes_sortTerm
    pipes := (consumes_pipe.bind_left fun _ => (consumes_additive hinner).mono (Nat.zero_le 1)).repeatable
    terms := (consumes_operation _ (consumes_term hinner)).repeatable
    factors := (consumes_operation _ (consumes_factor hinner)).repeatable
    stars := (consumes_char '*').repeatable
    parameterLists := hlists.repeatable
    parameters := (consumes_symbol ',').listable consumes_inner_parameter
    segments := (consumes_char '.').listable consumes_identifier }

/-! ### Layers of expressions -/

/-- A layer of expressions asks for inner ones on shorter texts only. -/
theorem expressionOver_eq {inner : Parser Expr} {s : List Char}
    (h : ∀ r, r.length < s.length → inner r = expression r) : expressionOver inner s = expression s := by
  have hlayer := agreeBelow_expressionOver (consumes_expression.mono (Nat.zero_le 1))
    (fun r hr => (h r hr).symm : AgreeBelow s.length expression inner)
  rw [← hlayer s (Nat.lt_succ_self _), ← expression_eq]

/-- More layers than the text has characters are the expression, whatever is below them. -/
theorem expressionOver_iterate (bottom : Parser Expr) : ∀ (n : ℕ) (s : List Char), s.length < n →
    expressionOver^[n] bottom s = expression s
  | n + 1, s, hs => by
    rw [Function.iterate_succ_apply']
    exact expressionOver_eq fun r hr => expressionOver_iterate bottom n r (by omega)

end Grammar
end SelectLang
