/-
# The grammar makes progress

Every rule of the grammar takes a character whenever it succeeds, as far as what may be repeated or
refers to itself is concerned. An expression asks for an inner one only behind a parenthesis or the
name of a parameter, so the inner one is read from a shorter text, and expressions are one layer over
expressions: `expression = expressionOver expression`.

Key theorems: `consumes_expression`, `expression_eq`, `consumes_atom`, `consumes_clause`.
-/
import Mathlib
import SelectLang.Grammar.Script
import SelectLang.Proofs.Text.Words

namespace SelectLang
namespace Grammar

open SelectLang.Parser

/-! ### Names and literals -/

theorem consumes_identifier : Consumes 1 identifier :=
  (((consumes_satisfy isNameStart).bind_left fun c =>
    (consumes_takeWhile isNameChar).map fun cs => (c, cs)).consumed.filterMap _).expecting _

theorem consumes_namePath : Consumes 1 namePath :=
  ((consumes_char '.').mono (Nat.zero_le 1) |>.separated1 consumes_identifier).map _

theorem consumes_quoted (q : Char) : Consumes 1 (quoted q) :=
  (consumes_char q).bind_left fun _ =>
    ((consumes_takeWhile _).followedBy
      (((consumes_char q).mono (Nat.zero_le 1)).expecting _)).commit.map String.ofList

theorem consumes_string : Consumes 1 string :=
  consumes_firstOf (by simp [consumes_quoted])

theorem consumes_boolean : Consumes 1 boolean := by
  refine consumes_firstOf ?_
  simp only [List.mem_cons, List.not_mem_nil, or_false, forall_eq_or_imp, forall_eq]
  exact ⟨((consumes_keyword (by decide)).mono (by decide)).map _,
    ((consumes_keyword (by decide)).mono (by decide)).map _⟩

theorem consumes_pointed : Consumes 1 pointed := by
  refine consumes_firstOf ?_
  simp only [List.mem_cons, List.not_mem_nil, or_false, forall_eq_or_imp, forall_eq]
  refine ⟨?_, ?_⟩
  · exact consumes_digits.bind_left fun whole => ((consumes_char '.').mono (Nat.zero_le 1)).bind_left
      fun _ => (consumes_digits.mono (Nat.zero_le 1)).optional.map fun places => (whole, places.getD [])
  · exact (consumes_char '.').bind_left fun _ =>
      (consumes_digits.mono (Nat.zero_le 1)).map fun places => ([], places)

theorem consumes_float : Consumes 1 float := consumes_pointed.map _

theorem consumes_integer : Consumes 1 integer := consumes_digits.filterMap _

theorem consumes_literal : Consumes 1 literal := by
  refine consumes_firstOf ?_
  simp only [List.mem_cons, List.not_mem_nil, or_false, forall_eq_or_imp, forall_eq]
  exact ⟨consumes_string.map _, consumes_boolean.map _, consumes_float.map _, consumes_integer.map _⟩

/-! ### Expressions over inner ones -/

section Layers

variable {inner : Parser Expr} (h : Consumes 0 inner)
include h

theorem consumes_parameter : Consumes 0 (parameter inner) := by
  refine consumes_firstOf ?_
  simp only [List.mem_cons, List.not_mem_nil, or_false, forall_eq_or_imp, forall_eq]
  refine ⟨?_, h.map _⟩
  refine Consumes.bind_left (consumes_identifier.lexeme.mono (Nat.zero_le 1) |>.bind_left fun name => ?_)
    fun _ => consumes_pure _
  exact (consumes_symbol ':').mono (Nat.zero_le 1) |>.bind_left fun _ => h.map (name, ·)

theorem consumes_parameters : Consumes 2 (parameters inner) :=
  ((consumes_symbol ',').mono (Nat.zero_le 1) |>.separated (consumes_parameter h)).parenthesized

theorem consumes_call : Consumes 1 (call inner) :=
  consumes_namePath.bind_left fun _ =>
    ((consumes_parameters h).mono (Nat.zero_le 2)).many1.map _

theorem consumes_factor : Consumes 1 (factor inner) := by
  refine (consumes_firstOf ?_).lexeme
  simp only [List.mem_cons, List.not_mem_nil, or_false, forall_eq_or_imp, forall_eq]
  exact ⟨consumes_call h, consumes_literal.map _, consumes_namePath.map _,
    (consumes_char '*').many1.map _, h.parenthesized.mono (by decide)⟩

end Layers

theorem consumes_operator (ops : List Operator) : Consumes 1 (operator ops) := by
  refine consumes_firstOf fun p hp => ?_
  obtain ⟨op, -, rfl⟩ := List.mem_map.mp hp
  exact (consumes_char _).map _

theorem consumes_chain (ops : List Operator) {operand : Parser Expr} (h : Consumes 1 operand) :
    Consumes 1 (chain ops operand) :=
  h.bind_left fun _ => Consumes.foldMany
    (((consumes_operator ops).lexeme.bind_left fun op =>
      (h.mono (Nat.zero_le 1)).map fun e => (op, e)).mono (Nat.zero_le 1)) _ _

theorem consumes_term {inner : Parser Expr} (h : Consumes 0 inner) : Consumes 1 (term inner) :=
  consumes_chain _ (consumes_factor h)

theorem consumes_additive {inner : Parser Expr} (h : Consumes 0 inner) :
    Consumes 1 (additive inner) :=
  consumes_chain _ (consumes_term h)

theorem consumes_expressionOver {inner : Parser Expr} (h : Consumes 0 inner) :
    Consumes 1 (expressionOver inner) :=
  (consumes_additive h).bind_left fun _ => Consumes.foldMany
    ((consumes_symbols "|>").mono (Nat.zero_le _) |>.bind_left fun _ =>
      (consumes_additive h).mono (Nat.zero_le 1)) _ _

theorem consumes_expression : Consumes 1 expression :=
  consumes_fix fun _ h => consumes_expressionOver (h.mono (Nat.zero_le 1))

/-! ### Expressions over expressions -/

theorem agreeBelow_parameter {n : Nat} {p q : Parser Expr} (hp : Consumes 0 p)
    (h : AgreeBelow n p q) : AgreeBelow n (parameter p) (parameter q) := by
  refine agreeBelow_firstOf (.cons ?_ (.cons ?_ .nil))
  · refine AgreeBelow.bind (AgreeBelow.bind (AgreeBelow.refl n _)
      (consumes_identifier.lexeme.mono (Nat.zero_le 1)) fun name => ?_) ?_ fun _ => AgreeBelow.refl n _
    · exact AgreeBelow.bind (AgreeBelow.refl n _) ((consumes_symbol ':').mono (Nat.zero_le 1)) fun _ =>
        h.bind hp fun _ => AgreeBelow.refl n _
    · exact consumes_identifier.lexeme.mono (Nat.zero_le 1) |>.bind_left fun name =>
        (consumes_symbol ':').mono (Nat.zero_le 1) |>.bind_left fun _ => hp.map (name, ·)
  · exact h.bind hp fun _ => AgreeBelow.refl n _

theorem agreeBelow_parameters {n : Nat} {p q : Parser Expr} (hp : Consumes 0 p)
    (h : AgreeBelow n p q) : AgreeBelow (n + 1) (parameters p) (parameters q) :=
  ((agreeBelow_parameter hp h).separated (consumes_parameter hp)).parenthesized
    ((consumes_symbol ',').mono (Nat.zero_le 1) |>.separated (consumes_parameter hp))

theorem agreeBelow_factor {n : Nat} {p q : Parser Expr} (hp : Consumes 0 p)
    (h : AgreeBelow n p q) : AgreeBelow (n + 1) (factor p) (factor q) := by
  refine AgreeBelow.bind (AgreeBelow.refl _ _) consumes_blanks fun _ => agreeBelow_firstOf ?_
  refine .cons ?_ (.cons (AgreeBelow.refl _ _) (.cons (AgreeBelow.refl _ _)
    (.cons (AgreeBelow.refl _ _) (.cons (h.parenthesized hp) .nil))))
  have hps := agreeBelow_parameters hp h
  have hcs := (consumes_parameters hp).mono (Nat.zero_le 2)
  exact AgreeBelow.bind (AgreeBelow.refl _ _) (consumes_namePath.mono (Nat.zero_le 1)) fun target =>
    AgreeBelow.bind (hps.bind hcs fun a => hps.many.bind hcs.many fun _ => AgreeBelow.refl _ _)
      hcs.many1 fun _ => AgreeBelow.refl _ _

theorem agreeBelow_chain {n : Nat} {p q : Parser Expr} (ops : List Operator) (hp : Consumes 0 p)
    (h : AgreeBelow n p q) : AgreeBelow n (chain ops p) (chain ops q) := by
  have hop : Consumes 0 (lexeme (operator ops)) := (consumes_operator ops).lexeme.mono (Nat.zero_le 1)
  refine h.bind hp fun first => ?_
  refine AgreeBelow.bind (AgreeBelow.many ?_) ?_ fun _ => AgreeBelow.refl n _
  · exact AgreeBelow.bind (AgreeBelow.refl n _) hop fun op => h.bind hp fun _ => AgreeBelow.refl n _
  · exact Consumes.many (hop.bind_left fun op => hp.map (op, ·))

theorem agreeBelow_expressionOver {n : Nat} {p q : Parser Expr} (hp : Consumes 0 p)
    (h : AgreeBelow n p q) : AgreeBelow (n + 1) (expressionOver p) (expressionOver q) := by
  have hterm : AgreeBelow (n + 1) (additive p) (additive q) :=
    agreeBelow_chain _ ((consumes_term hp).mono (Nat.zero_le 1))
      (agreeBelow_chain _ ((consumes_factor hp).mono (Nat.zero_le 1)) (agreeBelow_factor hp h))
  have hadd : Consumes 0 (additive p) := (consumes_additive hp).mono (Nat.zero_le 1)
  have hpipe : Consumes 0 (symbols "|>") := (consumes_symbols "|>").mono (Nat.zero_le _)
  refine hterm.bind hadd fun first => ?_
  refine AgreeBelow.bind (AgreeBelow.many ?_) ?_ fun _ => AgreeBelow.refl _ _
  · exact AgreeBelow.bind (AgreeBelow.refl _ _) hpipe fun _ => hterm
  · exact Consumes.many (hpipe.bind_left fun _ => hadd)

/-- Expressions are one layer over expressions. -/
theorem expression_eq : expression = expressionOver expression :=
  fix_eq (fun _ h => (consumes_expressionOver h).mono (Nat.zero_le 1)) fun _ _ _ hp h =>
    agreeBelow_expressionOver hp h

/-! ### Items and clauses -/

/-- The words that begin a clause. -/
def clauseWords : List String :=
  ["order", "offset", "limit", "paginated", "first", "last", "one", "top", "at"]

theorem consumes_atom : Consumes 1 atom := by
  have has : Consumes 0 (optional ((lexeme (keyword "as")).after
      (commit (expecting "alias" (lexeme namePath))))) :=
    (Consumes.bind_left (((consumes_keyword (by decide)).mono (Nat.zero_le _)).lexeme) fun _ =>
      ((consumes_namePath.mono (Nat.zero_le 1)).lexeme.expecting _).commit).optional
  refine consumes_firstOf ?_
  simp only [List.mem_cons, List.not_mem_nil, or_false, forall_eq_or_imp, forall_eq]
  refine ⟨Consumes.bind_left ?_ fun pair => consumes_pure _,
    consumes_expression.bind_left fun e => has.map fun output => Atom.expression e output⟩
  exact consumes_namePath.lexeme.bind_left fun output => (consumes_symbol '=').mono (Nat.zero_le 1) |>.bind_left
    fun _ => (consumes_expression.mono (Nat.zero_le 1)).map fun e => (output, e)

theorem consumes_direction : Consumes 1 direction := by
  have heither : ∀ {long short : String}, long.toList.all isKeywordLetter = true → 1 ≤ long.toList.length →
      short.toList.all isKeywordLetter = true → 1 ≤ short.toList.length →
        Consumes 1 (firstOf [keyword short, keyword long]) := fun hl hl' hs hs' =>
    consumes_firstOf (by simpa using ⟨(consumes_keyword hs).mono hs', (consumes_keyword hl).mono hl'⟩)
  refine consumes_firstOf ?_
  simp only [List.mem_cons, List.not_mem_nil, or_false, forall_eq_or_imp, forall_eq]
  exact ⟨(heither (by decide) (by decide) (by decide) (by decide)).map _,
    (heither (by decide) (by decide) (by decide) (by decide)).map _⟩

theorem consumes_sortTerm : Consumes 1 sortTerm :=
  consumes_expression.bind_left fun _ => (consumes_direction.lexeme.mono (Nat.zero_le 1)).optional.map _

/-- A rule takes a character if it begins with a word. -/
theorem consumes_behind_word {α : Type} {word : String} {f : List Char → Parser α}
    (hw : word.toList.all isKeywordLetter = true) (hne : 1 ≤ word.toList.length) (hf : ∀ w, Consumes 0 (f w)) :
    Consumes 1 (keyword word >>= f) := ((consumes_keyword hw).mono hne).bind_left hf

theorem consumes_topModifier : Consumes 1 topModifier := by
  have hspaced : ∀ {f : UInt64 → Parser Top}, (∀ n, Consumes 0 (f n)) →
      Consumes 0 (blanks1 >>= fun _ => quantity >>= f) := fun hf =>
    (consumes_blanks1.mono (Nat.zero_le 1)).bind_left fun _ =>
      (consumes_quantity.mono (Nat.zero_le 1)).bind_left hf
  refine consumes_firstOf ?_
  simp only [List.mem_cons, List.not_mem_nil, or_false, forall_eq_or_imp, forall_eq]
  refine ⟨consumes_behind_word (by decide) (by decide) fun _ => consumes_pure _,
    consumes_behind_word (by decide) (by decide) fun _ => consumes_pure _,
    consumes_behind_word (by decide) (by decide) fun _ => consumes_pure _,
    consumes_behind_word (by decide) (by decide) fun _ => hspaced fun n => ?_,
    consumes_behind_word (by decide) (by decide) fun _ => hspaced fun n => ?_,
    consumes_behind_word (by decide) (by decide) fun _ => hspaced fun n => consumes_pure _⟩
  · exact (consumes_absent _).map _
  · exact ((consumes_char '%').mono (Nat.zero_le 1)).map _

theorem consumes_clause : Consumes 1 clause := by
  have hquantity : Consumes 0 (lexeme quantity) := (consumes_quantity.mono (Nat.zero_le 1)).lexeme
  have hword : ∀ {word : String}, word.toList.all isKeywordLetter = true →
      Consumes 0 (lexeme (keyword word)) := fun hw => ((consumes_keyword hw).mono (Nat.zero_le _)).lexeme
  have hterms : Consumes 0 (separated1 (symbol ',') sortTerm) :=
    (consumes_symbol ',').mono (Nat.zero_le 1) |>.separated1 (consumes_sortTerm.mono (Nat.zero_le 1))
  have hby : Consumes 0 (keywords ["by"]) := ((consumes_keyword (by decide)).mono (Nat.zero_le _)).map _
  have horder : Consumes 1 (keywords ["order", "by"]) := consumes_behind_word (by decide) (by decide) fun _ =>
    (consumes_blanks1.mono (Nat.zero_le 1)).bind_left fun _ => hby
  refine consumes_firstOf ?_
  simp only [List.mem_cons, List.not_mem_nil, or_false, forall_eq_or_imp, forall_eq]
  refine ⟨(horder.bind_left fun _ => (hterms.expecting _).commit).map _,
    (consumes_behind_word (by decide) (by decide) fun _ => (hquantity.expecting _).commit).map _,
    (consumes_behind_word (by decide) (by decide) fun _ => (hquantity.expecting _).commit).map _,
    (consumes_behind_word (by decide) (by decide) fun _ => (Consumes.expecting _ ?_).commit).map _,
    consumes_topModifier.map _⟩
  exact (hword (by decide)).bind_left fun _ => hquantity.bind_left fun page =>
    (hword (by decide)).bind_left fun _ => hquantity.map fun size => Pagination.mk page size

end Grammar
end SelectLang
