/-
# Readings that come to an end

`Completes around p s` says that reading `s` by `p` comes to an end without a guard: it is made up of finitely many
readings by its parts, where repetitions and lists are over what takes a character, and an expression that is part
of another is read from a shorter end of that one's text. Of a choice all ways are followed, also where the text is
malformed and rules are tried in vain.

What stands outside of expressions, and every token, completes on all texts. The layers of expressions complete on
the ends of the text that are shorter by what was taken (`Finishes`), so that where an inner expression is entered
at least the parenthesis is gone.

Key definitions: `Completes`, `Finishes`.
Key theorems: `finishes_expressionOver`, `completes_expression`, `completes_script`, `makes_progress`.
-/
import Mathlib
import SelectLang.Proofs.Grammar.Repetitions

namespace SelectLang
namespace Grammar

open SelectLang.Parser

/-! ### Readings -/

/-- Reading the text comes to an end without a guard. If it is part of reading an expression, `around` is the text
of that expression. -/
inductive Completes : Option (List Char) → {α : Type} → Parser α → List Char → Prop where
  | value {around : Option (List Char)} {α : Type} (a : α) (s : List Char) : Completes around (pure a) s
  | stop {around : Option (List Char)} {α : Type} (t : Trouble) (s : List Char) :
      Completes around (fun _ => .stop t : Parser α) s
  | satisfy {around : Option (List Char)} (accepts : Char → Bool) (s : List Char) :
      Completes around (satisfy accepts) s
  | takeWhile {around : Option (List Char)} (accepts : Char → Bool) (s : List Char) :
      Completes around (Parser.takeWhile accepts) s
  | takeWhile1 {around : Option (List Char)} (accepts : Char → Bool) (s : List Char) :
      Completes around (takeWhile1 accepts) s
  | literal {around : Option (List Char)} (t s : List Char) : Completes around (Parser.literal t) s
  | literalAnyCase {around : Option (List Char)} (t s : List Char) : Completes around (literalAnyCase t) s
  | atEnd {around : Option (List Char)} (s : List Char) : Completes around atEnd s
  | here {around : Option (List Char)} (s : List Char) : Completes around here s
  | bind {around : Option (List Char)} {α β : Type} {p : Parser α} {f : α → Parser β} {s : List Char}
      (first : Completes around p s) (behind : ∀ a m, p s = .done a m → Completes around (f a) m) :
      Completes around (p >>= f) s
  /-- Of a choice each way completes, whether it is tried or not. -/
  | firstOf {around : Option (List Char)} {α : Type} {ps : List (Parser α)} {s : List Char}
      (each : ∀ p ∈ ps, Completes around p s) : Completes around (firstOf ps) s
  | optional {around : Option (List Char)} {α : Type} {p : Parser α} {s : List Char} (h : Completes around p s) :
      Completes around (optional p) s
  | absent {around : Option (List Char)} {α : Type} {p : Parser α} {s : List Char} (h : Completes around p s) :
      Completes around (absent p) s
  | consumed {around : Option (List Char)} {α : Type} {p : Parser α} {s : List Char} (h : Completes around p s) :
      Completes around (consumed p) s
  | filterMap {around : Option (List Char)} {α β : Type} {p : Parser α} {f : α → Option β} {s : List Char}
      (h : Completes around p s) : Completes around (p.filterMap f) s
  | commit {around : Option (List Char)} {α : Type} {p : Parser α} {s : List Char} (h : Completes around p s) :
      Completes around (commit p) s
  | expecting {around : Option (List Char)} {α : Type} {p : Parser α} {what : String} {s : List Char}
      (h : Completes around p s) : Completes around (expecting what p) s
  /-- A repetition goes on behind each success of its parser, which takes a character. -/
  | many {around : Option (List Char)} {α : Type} {p : Parser α} {s : List Char} (takes : Repeatable p)
      (round : Completes around p s) (behind : ∀ a m, p s = .done a m → Completes around (many p) m) :
      Completes around (many p) s
  /-- A list goes on behind each separator with an element, both of which take a character. -/
  | separatedTail {around : Option (List Char)} {α σ : Type} {separator : Parser σ} {p : Parser α} {s : List Char}
      (takes : Listable separator p) (round : Completes around (separator.after p) s)
      (behind : ∀ a m, (separator.after p) s = .done a m → Completes around (separatedTail separator p) m) :
      Completes around (separatedTail separator p) s
  | separated {around : Option (List Char)} {α σ : Type} {separator : Parser σ} {p : Parser α} {s : List Char}
      (first : Completes around p s)
      (behind : ∀ a m, p s = .done a m → Completes around (separatedTail separator p) m) :
      Completes around (separated separator p) s
  /-- An expression is a layer over expressions. Inside an expression it is entered on a shorter end of the text. -/
  | expression {around : Option (List Char)} {s : List Char}
      (shorter : ∀ t ∈ around, s <:+ t ∧ s.length < t.length)
      (layer : Completes (some s) (expressionOver expression) s) : Completes around expression s

section

variable {α β σ : Type} {p : Parser α} {separator : Parser σ} {around : Option (List Char)} {s : List Char}

/-- What goes on behind each round completes if every round takes a character, on texts that a round does not lead
out of. -/
theorem completes_rounds {round : Parser α} {rounds : Parser β} {S : List Char → Prop} (takes : Consumes 1 round)
    (hround : ∀ s, S s → (∀ a m, round s = .done a m → Completes around rounds m) → Completes around rounds s)
    (hS : ∀ s a m, S s → round s = .done a m → S m) (s : List Char) (hs : S s) : Completes around rounds s := by
  induction hl : s.length using Nat.strong_induction_on generalizing s with
  | _ length ih =>
    subst hl
    refine hround s hs fun a m hm => ?_
    have hlt := takes.length_le hm
    exact ih m.length (by omega) m (hS s a m hs hm) rfl

theorem completes_many {S : List Char → Prop} (takes : Repeatable p) (hp : ∀ s, S s → Completes around p s)
    (hS : ∀ s a m, S s → p s = .done a m → S m) (s : List Char) (hs : S s) : Completes around (many p) s :=
  completes_rounds takes.consumes (fun s hs behind => .many takes (hp s hs) behind) hS s hs

theorem completes_separatedTail {S : List Char → Prop} (takes : Listable separator p)
    (hp : ∀ s, S s → Completes around (separator.after p) s)
    (hS : ∀ s a m, S s → (separator.after p) s = .done a m → S m) (s : List Char) (hs : S s) :
    Completes around (separatedTail separator p) s :=
  completes_rounds takes.consumes_round (fun s hs behind => .separatedTail takes (hp s hs) behind) hS s hs

/-- A repetition of what completes on all texts. -/
theorem completes_repetition (takes : Repeatable p) (hp : ∀ s, Completes around p s) (s : List Char) :
    Completes around (many p) s :=
  completes_many (S := fun _ => True) takes (fun s _ => hp s) (fun _ _ _ _ _ => trivial) s trivial

theorem Completes.map {f : α → β} (h : Completes around p s) :
    Completes around (p >>= fun a => pure (f a)) s := .bind h fun _ m _ => .value _ m

/-! ### Tokens -/

theorem completes_blanks (s : List Char) : Completes around blanks s := .takeWhile isBlank s

theorem completes_char (c : Char) (s : List Char) : Completes around (char c) s := .satisfy (· == c) s

theorem completes_digits (s : List Char) : Completes around digits s := .takeWhile1 Char.isDigit s

theorem completes_quantity (s : List Char) : Completes around quantity s := .filterMap (completes_digits s)

theorem completes_lexeme (h : ∀ s, Completes around p s) (s : List Char) : Completes around (lexeme p) s :=
  .bind (completes_blanks s) fun _ m _ => h m

theorem completes_symbol (c : Char) (s : List Char) : Completes around (symbol c) s :=
  .bind (completes_lexeme (completes_char c) s) fun _ m _ => (completes_blanks m).map

theorem completes_symbols (t : String) (s : List Char) : Completes around (symbols t) s :=
  .bind (completes_lexeme (.literal t.toList) s) fun _ m _ => (completes_blanks m).map

theorem completes_keyword (word : String) (s : List Char) : Completes around (keyword word) s :=
  .bind (.literalAnyCase word.toList s) fun _ m _ => (Completes.absent (.satisfy isNameChar m)).map

theorem completes_separated1 (takes : Listable separator p) (hs : ∀ s, Completes around separator s)
    (hp : ∀ s, Completes around p s) (s : List Char) : Completes around (separated1 separator p) s :=
  .bind (hp s) fun _ m _ => (completes_separatedTail (S := fun _ => True) takes
    (fun s _ => .bind (hs s) fun _ m _ => hp m) (fun _ _ _ _ _ => trivial) m trivial).map

theorem completes_identifier (s : List Char) : Completes around identifier s :=
  .expecting (.filterMap (.consumed (.bind (.satisfy isNameStart s) fun _ m _ =>
    (Completes.takeWhile isNameChar m).map)))

theorem completes_namePath (s : List Char) : Completes around namePath s :=
  (completes_separated1 progressive.segments (completes_char '.') completes_identifier s).map

theorem completes_quoted (q : Char) (s : List Char) : Completes around (quoted q) s :=
  .bind (completes_char q s) fun _ m _ => Completes.map <| .commit <|
    .bind (.takeWhile _ m) fun _ m _ => (Completes.expecting (completes_char q m)).map

theorem completes_string (s : List Char) : Completes around string s := .firstOf (by simp [completes_quoted])

theorem completes_boolean (s : List Char) : Completes around boolean s := by
  refine .firstOf ?_
  simp only [List.mem_cons, List.not_mem_nil, or_false, forall_eq_or_imp, forall_eq]
  exact ⟨(completes_keyword "true" s).map, (completes_keyword "false" s).map⟩

theorem completes_pointed (s : List Char) : Completes around pointed s := by
  refine .firstOf ?_
  simp only [List.mem_cons, List.not_mem_nil, or_false, forall_eq_or_imp, forall_eq]
  exact ⟨.bind (completes_digits s) fun _ m _ => .bind (completes_char '.' m) fun _ m _ =>
      (Completes.optional (completes_digits m)).map,
    .bind (completes_char '.' s) fun _ m _ => (completes_digits m).map⟩

theorem completes_literal (s : List Char) : Completes around literal s := by
  refine .firstOf ?_
  simp only [List.mem_cons, List.not_mem_nil, or_false, forall_eq_or_imp, forall_eq]
  exact ⟨(completes_string s).map, (completes_boolean s).map, (completes_pointed s).map.map,
    (Completes.filterMap (completes_digits s)).map⟩

theorem completes_operator (ops : List Operator) (s : List Char) : Completes around (operator ops) s := by
  refine .firstOf fun p hp => ?_
  obtain ⟨op, -, rfl⟩ := List.mem_map.mp hp
  exact (completes_char op.symbol s).map

theorem completes_wildcard (s : List Char) : Completes around wildcard s :=
  Completes.map <| .bind (completes_char '*' s) fun _ m _ =>
    (completes_repetition progressive.stars (completes_char '*') m).map

end

/-! ### Expressions -/

/-- Reading completes on the ends of `t` that are shorter by at least `k` characters. -/
def Finishes (t : List Char) (k : ℕ) {α : Type} (p : Parser α) : Prop :=
  ∀ s, s <:+ t → s.length + k ≤ t.length → Completes (some t) p s

section

variable {α β σ : Type} {p : Parser α} {separator : Parser σ} {t : List Char} {k l : ℕ}

/-- What is left of such an end is an end of the text, shorter by what was taken. -/
theorem shorter_of_done {s m : List Char} {a : α} (hc : Consumes l p) (h : p s = .done a m) (hs : s <:+ t)
    (hlen : s.length + k ≤ t.length) : m <:+ t ∧ m.length + (k + l) ≤ t.length := by
  obtain ⟨front, rfl, hfront⟩ := hc s a m h
  rw [List.length_append] at hlen
  exact ⟨(List.suffix_append front m).trans hs, by omega⟩

theorem Finishes.bind {f : α → Parser β} (hp : Finishes t k p) (hc : Consumes l p)
    (hf : ∀ a, Finishes t (k + l) (f a)) : Finishes t k (p >>= f) := fun s hs hlen =>
  .bind (hp s hs hlen) fun a m hm => by
    obtain ⟨hm, hlen⟩ := shorter_of_done hc hm hs hlen
    exact hf a m hm hlen

/-- What comes behind may complete on all texts. -/
theorem Finishes.behind {f : α → Parser β} (hp : Finishes t k p) (hf : ∀ a s, Completes (some t) (f a) s) :
    Finishes t k (p >>= f) := fun s hs hlen => .bind (hp s hs hlen) fun a m _ => hf a m

theorem Finishes.map {f : α → β} (hp : Finishes t k p) : Finishes t k (p >>= fun a => pure (f a)) :=
  hp.behind fun _ m => .value _ m

theorem Finishes.many (hp : Finishes t k p) (takes : Repeatable p) : Finishes t k (many p) := fun s hs hlen =>
  completes_many (S := fun s => s <:+ t ∧ s.length + k ≤ t.length) takes (fun s hs => hp s hs.1 hs.2)
    (fun _ _ _ hs hm => shorter_of_done (takes.consumes.mono (Nat.zero_le 1)) hm hs.1 hs.2) s ⟨hs, hlen⟩

theorem Finishes.separatedTail (hp : Finishes t k (separator.after p)) (takes : Listable separator p) :
    Finishes t k (separatedTail separator p) := fun s hs hlen =>
  completes_separatedTail (S := fun s => s <:+ t ∧ s.length + k ≤ t.length) takes (fun s hs => hp s hs.1 hs.2)
    (fun _ _ _ hs hm => shorter_of_done (takes.consumes_round.mono (Nat.zero_le 1)) hm hs.1 hs.2) s ⟨hs, hlen⟩

/-- A list with a separator that is a token. -/
theorem Finishes.separated (hp : Finishes t k p) (hs : ∀ s, Completes (some t) separator s)
    (takes : Listable separator p) : Finishes t k (separated separator p) := fun s hend hlen =>
  .separated (hp s hend hlen) fun a m hm => by
    obtain ⟨hend, hlen⟩ := shorter_of_done (takes.consumes.mono (Nat.zero_le 1)) hm hend hlen
    exact Finishes.separatedTail (Finishes.bind (fun s _ _ => hs s)
      (takes.consumes_separator.mono (Nat.zero_le 1)) fun _ => hp) takes m hend hlen

theorem Finishes.lexeme (hp : Finishes t k p) : Finishes t k (lexeme p) :=
  Finishes.bind (fun s _ _ => completes_blanks s) consumes_blanks fun _ => hp

/-- Inside of parentheses the text is shorter. -/
theorem Finishes.parenthesized (hp : Finishes t 1 p) : Finishes t 0 (parenthesized p) :=
  (Finishes.bind (fun s _ _ => completes_symbol '(' s) (consumes_symbol '(') fun _ => hp).behind
    fun _ s => (completes_lexeme (completes_char ')') s).map

end

section Layers

variable {t : List Char} (hinner : Finishes t 1 expression)
include hinner

theorem finishes_parameter : Finishes t 1 (parameter expression) := by
  refine fun s hs hlen => .firstOf ?_
  simp only [List.mem_cons, List.not_mem_nil, or_false, forall_eq_or_imp, forall_eq]
  refine ⟨?_, (hinner s hs hlen).map⟩
  have hnamed : Finishes t 1 (separatedPair (lexeme identifier) (symbol ':') expression) :=
    Finishes.bind (fun s _ _ => completes_lexeme completes_identifier s)
      (consumes_identifier.lexeme.mono (Nat.zero_le 1)) fun _ =>
        Finishes.bind (fun s _ _ => completes_symbol ':' s) ((consumes_symbol ':').mono (Nat.zero_le 1)) fun _ =>
          hinner.map
  exact (hnamed s hs hlen).map

theorem finishes_parameters : Finishes t 0 (parameters expression) :=
  ((finishes_parameter hinner).separated (completes_symbol ',') progressive.parameters).parenthesized

theorem finishes_call : Finishes t 0 (call expression) := by
  have hlists := finishes_parameters hinner
  refine Finishes.bind (fun s _ _ => completes_namePath s) (consumes_namePath.mono (Nat.zero_le 1)) fun _ => ?_
  refine Finishes.map (Finishes.bind hlists (progressive.parameterLists.consumes.mono (Nat.zero_le 1)) fun _ => ?_)
  exact (hlists.many progressive.parameterLists).map

theorem finishes_factor : Finishes t 0 (factor expression) := by
  refine Finishes.lexeme fun s hs hlen => .firstOf ?_
  simp only [List.mem_cons, List.not_mem_nil, or_false, forall_eq_or_imp, forall_eq]
  exact ⟨finishes_call hinner s hs hlen, (completes_literal s).map, (completes_namePath s).map,
    completes_wildcard s, hinner.parenthesized s hs hlen⟩

omit hinner in
theorem finishes_chain {ops : List Operator} {operand : Parser Expr} (h : Finishes t 0 operand)
    (hc : Consumes 0 operand) (takes : Repeatable (both (lexeme (operator ops)) operand)) :
    Finishes t 0 (chain ops operand) := by
  have hround : Finishes t 0 (both (lexeme (operator ops)) operand) :=
    Finishes.bind (fun s _ _ => completes_lexeme (completes_operator ops) s)
      ((consumes_operator ops).lexeme.mono (Nat.zero_le 1)) fun _ => h.map
  exact h.bind hc fun _ => (hround.many takes).map

theorem finishes_term : Finishes t 0 (term expression) :=
  finishes_chain (finishes_factor hinner) ((consumes_factor (consumes_expression.mono (Nat.zero_le 1))).mono
    (Nat.zero_le 1)) progressive.factors

theorem finishes_additive : Finishes t 0 (additive expression) :=
  finishes_chain (finishes_term hinner) ((consumes_term (consumes_expression.mono (Nat.zero_le 1))).mono
    (Nat.zero_le 1)) progressive.terms

/-- A layer of expressions completes on a text if expressions do on its ends that are shorter. -/
theorem finishes_expressionOver : Finishes t 0 (expressionOver expression) := by
  have hadditive := finishes_additive hinner
  have hround : Finishes t 0 ((symbols "|>").after (additive expression)) :=
    Finishes.bind (fun s _ _ => completes_symbols "|>" s) (consumes_pipe.mono (Nat.zero_le 1)) fun _ => hadditive
  exact hadditive.bind ((consumes_additive (consumes_expression.mono (Nat.zero_le 1))).mono (Nat.zero_le 1))
    fun _ => (hround.many progressive.pipes).map

end Layers

/-- By the length of the text, for inner expressions are read from shorter ones. -/
theorem completes_expression {around : Option (List Char)} (s : List Char)
    (h : ∀ t ∈ around, s <:+ t ∧ s.length < t.length) : Completes around expression s := by
  induction hl : s.length using Nat.strong_induction_on generalizing s around with
  | _ length ih =>
    subst hl
    have hinner : Finishes s 1 expression := fun r hr hlen => by
      refine ih r.length (by omega) r (fun t ht => ?_) rfl
      obtain rfl : s = t := by simpa using ht
      exact ⟨hr, by omega⟩
    exact .expression h (finishes_expressionOver hinner s List.suffix_rfl (Nat.le_refl _))

/-! ### Queries and scripts -/

theorem completes_outer_expression (s : List Char) : Completes none expression s :=
  completes_expression s (by simp)

theorem completes_atom (s : List Char) : Completes none atom s := by
  refine .firstOf ?_
  simp only [List.mem_cons, List.not_mem_nil, or_false, forall_eq_or_imp, forall_eq]
  refine ⟨Completes.map ?_, .bind (completes_outer_expression s) fun e m _ => Completes.map (.optional ?_)⟩
  · exact .bind (completes_lexeme completes_namePath s) fun _ m _ =>
      .bind (completes_symbol '=' m) fun _ m _ => (completes_outer_expression m).map
  · exact .bind (completes_lexeme (completes_keyword "as") m) fun _ m _ =>
      .commit (.expecting (completes_lexeme completes_namePath m))

theorem completes_direction (s : List Char) : Completes none direction s := by
  have heither : ∀ short long : String, Completes none (firstOf [keyword short, keyword long]) s :=
    fun short long => .firstOf (by simp [completes_keyword])
  refine .firstOf ?_
  simp only [List.mem_cons, List.not_mem_nil, or_false, forall_eq_or_imp, forall_eq]
  exact ⟨(heither "asc" "ascending").map, (heither "desc" "descending").map⟩

theorem completes_sortTerm (s : List Char) : Completes none sortTerm s :=
  .bind (completes_outer_expression s) fun _ m _ =>
    (Completes.optional (completes_lexeme completes_direction m)).map

theorem completes_topModifier (s : List Char) : Completes none topModifier s := by
  have hspaced : ∀ (word : String) {f : UInt64 → Parser Top}, (∀ n m, Completes none (f n) m) →
      Completes none (keyword word >>= fun _ => blanks1 >>= fun _ => quantity >>= f) s := fun word _ hf =>
    .bind (completes_keyword word s) fun _ m _ => .bind (.takeWhile1 isBlank m) fun _ m _ =>
      .bind (completes_quantity m) fun n m _ => hf n m
  refine .firstOf ?_
  simp only [List.mem_cons, List.not_mem_nil, or_false, forall_eq_or_imp, forall_eq]
  exact ⟨(completes_keyword "first" s).map, (completes_keyword "last" s).map, (completes_keyword "one" s).map,
    hspaced "top" fun _ m => (Completes.absent (completes_char '%' m)).map,
    hspaced "top" fun _ m => (completes_char '%' m).map, hspaced "at" fun _ m => .value _ m⟩

theorem completes_clause (s : List Char) : Completes none clause s := by
  have hquantity : ∀ m, Completes none (lexeme quantity) m := completes_lexeme completes_quantity
  have hword : ∀ word m, Completes none (lexeme (keyword word)) m := fun word =>
    completes_lexeme (completes_keyword word)
  have horder : Completes none (keywords ["order", "by"]) s := .bind (completes_keyword "order" s) fun _ m _ =>
    .bind (.takeWhile1 isBlank m) fun _ m _ => (completes_keyword "by" m).map
  refine .firstOf ?_
  simp only [List.mem_cons, List.not_mem_nil, or_false, forall_eq_or_imp, forall_eq]
  refine ⟨Completes.map (.bind horder fun _ m _ => .commit (.expecting ?_)),
    Completes.map (.bind (completes_keyword "offset" s) fun _ m _ => .commit (.expecting (hquantity m))),
    Completes.map (.bind (completes_keyword "limit" s) fun _ m _ => .commit (.expecting (hquantity m))),
    Completes.map (.bind (completes_keyword "paginated" s) fun _ m _ => .commit (.expecting ?_)),
    (completes_topModifier s).map⟩
  · exact completes_separated1 progressive.sortTerms (completes_symbol ',') completes_sortTerm m
  · exact .bind (hword "on" m) fun _ m _ => .bind (hquantity m) fun _ m _ =>
      .bind (hword "by" m) fun _ m _ => (hquantity m).map

theorem completes_body (s : List Char) : Completes none body s := by
  have hclauses : ∀ m, Completes none (many (lexeme (both here clause))) m :=
    completes_repetition progressive.clauses <| completes_lexeme fun s =>
      .bind (.here s) fun _ m _ => (completes_clause m).map
  refine .bind (.optional (completes_lexeme completes_topModifier s)) fun lead m _ => ?_
  refine .bind (.expecting (completes_separated1 progressive.atoms (completes_symbol ',') completes_atom m))
    fun atoms m _ => ?_
  refine .bind (.expecting (completes_lexeme (completes_keyword "from") m)) fun _ m _ => ?_
  refine .bind (.expecting (completes_lexeme completes_namePath m)) fun source m _ => ?_
  refine .bind (hclauses m) fun clauses m _ => ?_
  refine .bind (completes_lexeme (fun s => .optional (completes_char ';' s)) m) fun _ m _ => ?_
  cases repeated? (if lead.isSome then [.top] else []) clauses with
  | some start => exact .stop _ m
  | none => exact .value _ m

theorem completes_statement (s : List Char) : Completes none statement s :=
  .bind (completes_lexeme (completes_keyword "select") s) fun _ m _ => .commit (completes_body m)

theorem completes_script (s : List Char) : Completes none script s :=
  .bind (completes_repetition progressive.statements completes_statement s) fun _ m _ =>
    .bind (completes_blanks m) fun _ m _ => Completes.map (.commit (.expecting (.atEnd m)))

/-- **Reading makes progress, and comes to an end on every text.** What the grammar repeats, and what stands
between the elements of its lists, takes a character whenever it succeeds, so its repetitions and lists end by
themselves as they do with a guard. The mark before an inner expression and the operator before an operand take a
character too. Reading a script, a query or an expression is made up of finitely many readings, whether the text is
accepted or not, and in each of them an inner expression is read from a shorter end of the text of the outer
one. No guard is needed for that: layers of expressions, one more than the text has characters, are the expression
whatever is at the bottom. -/
theorem makes_progress :
    Progressive ∧
    (Consumes 1 (symbol '(') ∧ Consumes 1 (symbols "|>") ∧ ∀ ops, Consumes 1 (lexeme (operator ops))) ∧
    (∀ text, Completes none script text ∧ Completes none (statement.followedBy blanks) text ∧
      Completes none (expression.followedBy blanks) text) ∧
    ∀ (bottom : Parser Expr) (n : ℕ) (text : List Char),
      expressionOver^[text.length + 1 + n] bottom text = expression text := by
  refine ⟨progressive, ⟨consumes_symbol '(', consumes_pipe, fun ops => (consumes_operator ops).lexeme⟩,
    fun text => ⟨completes_script text, ?_, ?_⟩, fun bottom n text => ?_⟩
  · exact .bind (completes_statement text) fun _ m _ => (completes_blanks m).map
  · exact .bind (completes_outer_expression text) fun _ m _ => (completes_blanks m).map
  · exact expressionOver_iterate bottom _ text (by omega)

end Grammar
end SelectLang
