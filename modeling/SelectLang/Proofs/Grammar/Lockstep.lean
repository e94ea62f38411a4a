/-
# The grammar in step

Texts that the tokens of a rule read alike are read alike by the rule. For expressions the texts are related
by a family, `T d` behind `d` open parentheses, for a comma inside parentheses belongs to the expression and
one outside of them ends it (`ReadsTokens`). An inner expression is read from a shorter text, so the proof for
expressions is by the length of the text, over the family cut off at a length.

Items of a selection ask for a few tokens more (`ReadsItems`), lists for a comma and for what stands behind
blanks (`ReadsLists`), and what stands before the end of a query for the words that begin it and its clauses
(`ReadsClauses`).

Key definitions: `ReadsTokens`, `openers`, `ReadsItems`, `ReadsLists`, `ReadsClauses`, `listing`, `parts`.
Key theorems: `reads_expression`, `reads_atom`, `reads_listing`, `reads_parts`.
-/
import Mathlib
import SelectLang.Proofs.Grammar.Progress
import SelectLang.Proofs.Text.Lockstep

namespace SelectLang
namespace Grammar

open SelectLang.Parser

/-! ### Expressions -/

/-- The tokens of expressions read texts of the family alike. -/
structure ReadsTokens (T : ℕ → List Char → List Char → Prop) : Prop where
  blanks : ∀ d, Passes (T d) (T d) blanks
  identifier : ∀ d, Reads (T d) (T d) identifier
  truth : ∀ d, ∀ word ∈ ["true", "false"], Passes (T d) (T d) (keyword word)
  digits : ∀ d, Reads (T d) (T d) digits
  quoted : ∀ d, ∀ q ∈ ['\'', '"'], Reads (T d) (T d) (quoted q)
  mark : ∀ d, ∀ c ∈ ['.', '*', '/', '%', '+', '-', '|', '>'], Reads (T d) (T d) (char c)
  inner : ∀ d, ∀ c ∈ [',', ':'], Passes (T (d + 1)) (T (d + 1)) (char c)
  opening : ∀ d, Passes (T d) (T (d + 1)) (char '(')
  closing : ∀ d, Passes (T (d + 1)) (T d) (char ')')

section Tokens

variable {U : ℕ → List Char → List Char → Prop} (hU : ReadsTokens U) (d : ℕ)
include hU

theorem reads_namePath : Reads (U d) (U d) namePath :=
  (Reads.separated1 (hU.mark d '.' (by decide)).passes (hU.identifier d) (consumes_char '.')
    (consumes_identifier.mono (Nat.zero_le 1))).map NamePath.mk

theorem reads_boolean : Reads (U d) (U d) boolean := by
  refine reads_firstOf ?_
  simp only [List.mem_cons, List.not_mem_nil, or_false, forall_eq_or_imp, forall_eq]
  exact ⟨(hU.truth d "true" (by decide)).bind (inStep_pure rfl),
    (hU.truth d "false" (by decide)).bind (inStep_pure rfl)⟩

theorem reads_pointed : Reads (U d) (U d) pointed := by
  have hpoint := (hU.mark d '.' (by decide)).passes
  refine reads_firstOf ?_
  simp only [List.mem_cons, List.not_mem_nil, or_false, forall_eq_or_imp, forall_eq]
  exact ⟨(hU.digits d).bind fun whole => hpoint.bind ((hU.digits d).optional.map fun places =>
    (whole, places.getD [])), hpoint.bind ((hU.digits d).map fun places => ([], places))⟩

theorem reads_literal : Reads (U d) (U d) literal := by
  have hstring : Reads (U d) (U d) string :=
    reads_firstOf (by simpa using ⟨hU.quoted d '\'' (by decide), hU.quoted d '"' (by decide)⟩)
  have hfloat : Reads (U d) (U d) float := (reads_pointed hU d).map _
  have hinteger : Reads (U d) (U d) integer := (hU.digits d).filterMap _
  refine reads_firstOf ?_
  simp only [List.mem_cons, List.not_mem_nil, or_false, forall_eq_or_imp, forall_eq]
  exact ⟨hstring.map _, (reads_boolean hU d).map _, hfloat.map _, hinteger.map _⟩

theorem reads_wildcard : Reads (U d) (U d) wildcard :=
  ((hU.mark d '*' (by decide)).many1 (consumes_char '*')).map fun stars : List Char => Expr.wildcard stars.length

theorem reads_operator {ops : List Operator} (hops : ∀ op ∈ ops, op.symbol ∈ ['*', '/', '%', '+', '-']) :
    Reads (U d) (U d) (lexeme (operator ops)) := by
  refine (hU.blanks d).lexeme (reads_firstOf fun p hp => ?_)
  obtain ⟨op, hop, rfl⟩ := List.mem_map.mp hp
  have hsymbol : op.symbol ∈ ['.', '*', '/', '%', '+', '-', '|', '>'] := by
    have := hops op hop
    simp only [List.mem_cons, List.not_mem_nil, or_false] at this ⊢
    tauto
  exact (hU.mark d _ hsymbol).passes.bind (inStep_pure rfl)

theorem reads_chain {ops : List Operator} (hops : ∀ op ∈ ops, op.symbol ∈ ['*', '/', '%', '+', '-'])
    {operand : Parser Expr} (hc : Consumes 1 operand) (h : Reads (U d) (U d) operand) :
    Reads (U d) (U d) (chain ops operand) := by
  have hround : Reads (U d) (U d) (both (lexeme (operator ops)) operand) :=
    (reads_operator hU d hops).bind fun op => h.map (op, ·)
  have hcount : Consumes 1 (both (lexeme (operator ops)) operand) :=
    (consumes_operator ops).lexeme.bind_left fun op => (hc.mono (Nat.zero_le 1)).map (op, ·)
  exact h.bind fun first => hround.foldMany hcount _ _

end Tokens

section Layers

variable {U W : ℕ → List Char → List Char → Prop} (hU : ReadsTokens U) (hW : ReadsTokens W)
  (hopen : ∀ d, Passes (U d) (W (d + 1)) (char '(')) (hsub : ∀ d s t, W d s t → U d s t)
  {inner : Parser Expr} (hc : Consumes 0 inner) (h : ∀ d, Reads (W d) (W d) inner)

include hW h in
theorem reads_parameter (d : ℕ) : Reads (W (d + 1)) (W (d + 1)) (parameter inner) := by
  have hcolon := (hW.blanks (d + 1)).symbol (hW.blanks (d + 1)) (hW.inner d ':' (by decide))
  refine reads_firstOf ?_
  simp only [List.mem_cons, List.not_mem_nil, or_false, forall_eq_or_imp, forall_eq]
  refine ⟨Reads.bind ?_ fun pair => inStep_pure rfl, (h (d + 1)).map _⟩
  exact Reads.bind ((hW.blanks (d + 1)).lexeme (hW.identifier (d + 1))) fun name =>
    hcolon.bind ((h (d + 1)).map fun value => (name, value))

include hU hW hopen hsub

theorem reads_enclosed {α : Type} {p : Parser α} (d : ℕ) (hp : Reads (W (d + 1)) (W (d + 1)) p) :
    Reads (U d) (U d) (parenthesized p) :=
  Reads.parenthesized (hU.blanks d) (hW.blanks (d + 1)) (hopen d)
    ((hW.closing d).mono (fun _ _ => id) (fun _ _ => id) (hsub d)) hp

include hc h

theorem reads_parameters (d : ℕ) : Reads (U d) (U d) (parameters inner) := by
  have hcomma := (hW.blanks (d + 1)).symbol (hW.blanks (d + 1)) (hW.inner d ',' (by decide))
  exact reads_enclosed hU hW hopen hsub d
    (Reads.separated hcomma (reads_parameter hW h d) (consumes_symbol ',') (consumes_parameter hc))

theorem reads_call (d : ℕ) : Reads (U d) (U d) (call inner) :=
  (reads_namePath hU d).bind fun target =>
    ((reads_parameters hU hW hopen hsub hc h d).many1 ((consumes_parameters hc).mono (by decide))).map _

theorem reads_factor (d : ℕ) : Reads (U d) (U d) (factor inner) := by
  refine (hU.blanks d).lexeme (reads_firstOf ?_)
  simp only [List.mem_cons, List.not_mem_nil, or_false, forall_eq_or_imp, forall_eq]
  exact ⟨reads_call hU hW hopen hsub hc h d, (reads_literal hU d).map _, (reads_namePath hU d).map _,
    reads_wildcard hU d, reads_enclosed hU hW hopen hsub d (h (d + 1))⟩

theorem reads_additive (d : ℕ) : Reads (U d) (U d) (additive inner) :=
  reads_chain hU d (by decide) (consumes_term hc)
    (reads_chain hU d (by decide) (consumes_factor hc) (reads_factor hU hW hopen hsub hc h d))

theorem reads_expressionOver (d : ℕ) : Reads (U d) (U d) (expressionOver inner) := by
  have hadditive := reads_additive hU hW hopen hsub hc h d
  have hmarks : ∀ c ∈ "|>".toList, c ∈ ['.', '*', '/', '%', '+', '-', '|', '>'] := by simp
  have hpipe : Passes (U d) (U d) (symbols "|>") := (hU.blanks d).symbols fun c hmem =>
    (hU.mark d c (hmarks c hmem)).passes
  have hcount : Consumes 1 ((symbols "|>").after (additive inner)) :=
    ((consumes_symbols "|>").mono (by decide)).bind_left fun _ => (consumes_additive hc).mono (Nat.zero_le 1)
  exact hadditive.bind fun first => Reads.foldMany (hpipe.bind hadditive) hcount _ _

end Layers

section Expressions

variable {T : ℕ → List Char → List Char → Prop}

theorem ReadsTokens.shorter (hT : ReadsTokens T) (n : ℕ) : ReadsTokens fun d => Shorter n (T d) where
  blanks d := InStep.shorter (hT.blanks d) consumes_blanks n
  identifier d := InStep.shorter (hT.identifier d) (consumes_identifier.mono (Nat.zero_le 1)) n
  truth d word h := InStep.shorter (hT.truth d word h)
    ((consumes_keyword (by revert word; decide)).mono (Nat.zero_le _)) n
  digits d := InStep.shorter (hT.digits d) (consumes_digits.mono (Nat.zero_le 1)) n
  quoted d q h := InStep.shorter (hT.quoted d q h) ((consumes_quoted q).mono (Nat.zero_le 1)) n
  mark d c h := InStep.shorter (hT.mark d c h) ((consumes_char c).mono (Nat.zero_le 1)) n
  inner d c h := InStep.shorter (hT.inner d c h) ((consumes_char c).mono (Nat.zero_le 1)) n
  opening d := InStep.shorter (hT.opening d) ((consumes_char '(').mono (Nat.zero_le 1)) n
  closing d := InStep.shorter (hT.closing d) ((consumes_char ')').mono (Nat.zero_le 1)) n

theorem reads_expression_shorter (hT : ReadsTokens T) (n : ℕ) : ∀ d,
    Reads (Shorter n (T d)) (Shorter n (T d)) expression := by
  induction n with
  | zero => exact fun d s t h => absurd h.1 (Nat.not_lt_zero _)
  | succ n ih =>
    intro d
    rw [expression_eq]
    exact reads_expressionOver (hT.shorter (n + 1)) (hT.shorter n)
      (fun d => InStep.shorter (hT.opening d) (consumes_char '(') n)
      (fun d s t h => ⟨h.1.trans (Nat.lt_succ_self n), h.2⟩) (consumes_expression.mono (Nat.zero_le 1)) ih d

/-- Expressions are read alike where their tokens are. -/
theorem reads_expression (hT : ReadsTokens T) (d : ℕ) : Reads (T d) (T d) expression := fun s t hst =>
  (reads_expression_shorter hT (s.length + 1) d s t ⟨Nat.lt_succ_self _, hst⟩).mono (fun _ _ => id)
    fun _ _ h => h.2

/-! ### Items -/

/-- The words that begin a query or a clause. -/
def openers : List String := "select" :: clauseWords

/-- The tokens of the items of a selection read texts of the family alike. -/
structure ReadsItems (T : ℕ → List Char → List Char → Prop) : Prop extends ReadsTokens T where
  keyword : ∀ word : String, word.toList.all isKeywordLetter = true → word.toList ≠ [] → word ∉ openers →
    Passes (T 0) (T 0) (keyword word)
  assigned : Passes (T 0) (T 0) (char '=')

theorem reads_atom (hT : ReadsItems T) : Reads (T 0) (T 0) atom := by
  have hexpression := reads_expression hT.toReadsTokens 0
  have hname := (hT.blanks 0).lexeme (reads_namePath hT.toReadsTokens 0)
  have hmark := (hT.blanks 0).symbol (hT.blanks 0) hT.assigned
  have has := (hT.blanks 0).lexeme (hT.keyword "as" (by decide) (by decide) (by decide))
  refine reads_firstOf ?_
  simp only [List.mem_cons, List.not_mem_nil, or_false, forall_eq_or_imp, forall_eq]
  refine ⟨Reads.bind ?_ fun pair => inStep_pure rfl, ?_⟩
  · exact Reads.bind hname fun output => hmark.bind (hexpression.map fun e => (output, e))
  · exact hexpression.bind fun e => Reads.map _
      (Reads.optional (Passes.bind has (InStep.commit (InStep.expecting "alias" hname))))

/-! ### Lists -/

/-- The tokens of lists, and what comes behind blanks in them, read texts of the family alike. -/
structure ReadsLists (T : ℕ → List Char → List Char → Prop) : Prop extends ReadsItems T where
  comma : Passes (T 0) (T 0) (char ',')
  spacedBy : Passes (T 0) (T 0) (blanks1.after (Parser.keyword "by"))
  spacedQuantity : Reads (T 0) (T 0) (blanks1.after quantity)

/-- The items of a selection and its source. -/
def listing : Parser (List Atom × NamePath) := do
  let atoms ← separated1 (symbol ',') atom
  let _ ← lexeme (keyword "from")
  let source ← lexeme namePath
  pure (atoms, source)

/-- The page and the size of a pagination. -/
def pageAndSize : Parser Pagination := do
  let _ ← lexeme (keyword "on")
  let page ← lexeme quantity
  let _ ← lexeme (keyword "by")
  let size ← lexeme quantity
  pure ⟨page, size⟩

section Lists

variable (hT : ReadsLists T)
include hT

theorem reads_listing : Reads (T 0) (T 0) listing := by
  have hcomma := (hT.blanks 0).symbol (hT.blanks 0) hT.comma
  have hatoms : Reads (T 0) (T 0) (separated1 (symbol ',') atom) :=
    Reads.separated1 hcomma (reads_atom hT.toReadsItems) (consumes_symbol ',') (consumes_atom.mono (Nat.zero_le 1))
  have hfrom : Passes (T 0) (T 0) (lexeme (keyword "from")) :=
    (hT.blanks 0).lexeme (hT.keyword _ (by decide) (by decide) (by decide))
  have hname : Reads (T 0) (T 0) (lexeme namePath) := (hT.blanks 0).lexeme (reads_namePath hT.toReadsTokens 0)
  exact hatoms.bind fun atoms => hfrom.bind (hname.map fun source => (atoms, source))

theorem reads_quantity : Reads (T 0) (T 0) quantity := (hT.digits 0).filterMap _

theorem reads_direction : Reads (T 0) (T 0) direction := by
  have heither : ∀ {long short : String}, long.toList.all isKeywordLetter = true → long.toList ≠ [] →
      long ∉ openers → short.toList.all isKeywordLetter = true → short.toList ≠ [] → short ∉ openers →
        Passes (T 0) (T 0) (firstOf [keyword short, keyword long]) := fun hl hl' hl'' hs hs' hs'' =>
    passes_firstOf (by simpa using ⟨hT.keyword _ hs hs' hs'', hT.keyword _ hl hl' hl''⟩)
  refine reads_firstOf ?_
  simp only [List.mem_cons, List.not_mem_nil, or_false, forall_eq_or_imp, forall_eq]
  exact ⟨(heither (by decide) (by decide) (by decide) (by decide) (by decide) (by decide)).bind (inStep_pure rfl),
    (heither (by decide) (by decide) (by decide) (by decide) (by decide) (by decide)).bind (inStep_pure rfl)⟩

theorem reads_sortTerm : Reads (T 0) (T 0) sortTerm :=
  (reads_expression hT.toReadsTokens 0).bind fun e =>
    Reads.map (fun d : Option Direction => SortTerm.mk e (d.getD .ascending))
      (Reads.optional ((hT.blanks 0).lexeme (reads_direction hT)))

theorem reads_sortTerms : Reads (T 0) (T 0) (separated1 (symbol ',') sortTerm) :=
  Reads.separated1 ((hT.blanks 0).symbol (hT.blanks 0) hT.comma) (reads_sortTerm hT) (consumes_symbol ',')
    (consumes_sortTerm.mono (Nat.zero_le 1))

theorem reads_pageAndSize : Reads (T 0) (T 0) pageAndSize := by
  have hquantity := (hT.blanks 0).lexeme (reads_quantity hT)
  have hword : ∀ {word : String}, word.toList.all isKeywordLetter = true → word.toList ≠ [] → word ∉ openers →
      Passes (T 0) (T 0) (lexeme (keyword word)) := fun hw hne hmem =>
    (hT.blanks 0).lexeme (hT.keyword _ hw hne hmem)
  refine (hword (by decide) (by decide) (by decide)).bind (Reads.bind hquantity fun page => ?_)
  exact (hword (by decide) (by decide) (by decide)).bind (Reads.map _ hquantity)

end Lists

/-! ### Clauses -/

/-- The tokens of queries, up to their end, read texts of the family alike. -/
structure ReadsClauses (T : ℕ → List Char → List Char → Prop) : Prop extends ReadsLists T where
  opener : ∀ word ∈ openers, Passes (T 0) (T 0) (Parser.keyword word)

variable (hT : ReadsClauses T)
include hT

theorem reads_orderBy : Reads (T 0) (T 0) orderBy := by
  have hby : Passes (T 0) (T 0) (keywords ["order", "by"]) := by
    refine (hT.opener "order" (by decide)).bind ?_
    rw [keywords, ← bind_bind]
    exact hT.spacedBy.bind (inStep_pure trivial)
  exact hby.bind (InStep.commit (InStep.expecting _ (reads_sortTerms hT.toReadsLists)))

/-- A quantity behind a word of its own. -/
theorem reads_behind_word {word : String} (hw : word ∈ openers) (what : String) :
    Reads (T 0) (T 0) ((keyword word).after (commit (expecting what (lexeme quantity)))) :=
  (hT.opener word hw).bind
    (InStep.commit (InStep.expecting what ((hT.blanks 0).lexeme (reads_quantity hT.toReadsLists))))

theorem reads_paginated : Reads (T 0) (T 0) paginated :=
  (hT.opener "paginated" (by decide)).bind
    (InStep.commit (InStep.expecting _ (reads_pageAndSize hT.toReadsLists)))

/-- A number behind a word, a blank between them. -/
theorem reads_spaced {α : Type} {word : String} (hw : word ∈ openers) {f : UInt64 → Parser α}
    (hf : ∀ n, Reads (T 0) (T 0) (f n)) :
    Reads (T 0) (T 0) (do
      let _ ← keyword word
      let _ ← blanks1
      let n ← quantity
      f n) := by
  refine (hT.opener word hw).bind ?_
  rw [← bind_bind]
  exact Reads.bind hT.spacedQuantity hf

theorem reads_topModifier : Reads (T 0) (T 0) topModifier := by
  have hpercent := hT.mark 0 '%' (by decide)
  have hword : ∀ {word : String} (top : Top), word ∈ openers →
      Reads (T 0) (T 0) (keyword word >>= fun _ => pure top) := fun top hw =>
    (hT.opener _ hw).bind (inStep_pure rfl)
  refine reads_firstOf ?_
  simp only [List.mem_cons, List.not_mem_nil, or_false, forall_eq_or_imp, forall_eq]
  exact ⟨hword _ (by decide), hword _ (by decide), hword _ (by decide),
    reads_spaced hT (by decide) fun n => (Reads.passes hpercent.absent).bind (inStep_pure rfl),
    reads_spaced hT (by decide) fun n => hpercent.passes.bind (inStep_pure rfl),
    reads_spaced hT (by decide) fun n => inStep_pure rfl⟩

theorem reads_clause : Reads (T 0) (T 0) clause := by
  refine reads_firstOf ?_
  simp only [List.mem_cons, List.not_mem_nil, or_false, forall_eq_or_imp, forall_eq]
  exact ⟨(reads_orderBy hT).map _, (reads_behind_word hT (by decide) _).map _,
    (reads_behind_word hT (by decide) _).map _, (reads_paginated hT).map _,
    (reads_topModifier hT).map _⟩

end Expressions

/-! ### Queries -/

/-- What a query is made of, its clauses in order. -/
structure Parts where
  lead : Option Top
  atoms : List Atom
  source : NamePath
  clauses : List Clause

/-- The parts make the query: no clause is given twice. -/
structure Parts.Makes (parts : Parts) (query : Query) : Prop where
  once : (parts.clauses.map Clause.kind).Nodup
  lead : ∀ c ∈ parts.clauses, c.kind ∉ if parts.lead.isSome then [Clause.Kind.top] else []
  query : query = parts.clauses.foldl Query.withClause
    ⟨parts.source, parts.atoms, parts.lead.getD .all, [], none, none, none⟩

/-- A query up to its end. -/
def parts : Parser Parts :=
  (lexeme (keyword "select")).after do
    let lead ← optional (lexeme topModifier)
    let atoms ← separated1 (symbol ',') atom
    let _ ← lexeme (keyword "from")
    let source ← lexeme namePath
    let clauses ← many (lexeme (both here clause))
    pure ⟨lead, atoms, source, clauses.map Prod.snd⟩

/-- A query up to its source. -/
def head : Parser (Option Top × List Atom × NamePath) :=
  (lexeme (keyword "select")).after do
    let lead ← optional (lexeme topModifier)
    let listed ← listing
    pure (lead, listed.1, listed.2)

/-- The clauses of a query with the places where they begin. -/
def placedClauses : Parser (List (List Char × Clause)) := many (lexeme (both here clause))

theorem parts_eq : parts = head >>= fun listed => placedClauses >>= fun clauses =>
    pure ⟨listed.1, listed.2.1, listed.2.2, clauses.map Prod.snd⟩ := by
  simp only [parts, head, listing, after, bind_bind]
  rfl

theorem reads_parts {T : ℕ → List Char → List Char → Prop} (hT : ReadsClauses T) :
    Reads (T 0) (T 0) parts := by
  have hselect : Passes (T 0) (T 0) (lexeme (keyword "select")) := (hT.blanks 0).lexeme (hT.opener _ (by decide))
  have hlead := Reads.optional ((hT.blanks 0).lexeme (reads_topModifier hT))
  have hhead : Reads (T 0) (T 0) head := hselect.bind (Reads.bind hlead fun lead =>
    (reads_listing hT.toReadsLists).map fun listed => (lead, listed.1, listed.2))
  -- the places where the clauses begin are not the same
  have hclause : InStep (fun x y => x.2 = y.2) (T 0) (T 0) (lexeme (both here clause))
      (lexeme (both here clause)) := by
    refine (hT.blanks 0).lexeme (InStep.bind (V := fun _ _ => True) (fun s t hst => .done trivial hst)
      fun start start' _ => ?_)
    exact InStep.map (reads_clause hT) fun a b hab => hab
  have hcount : Consumes 1 (lexeme (both here clause)) :=
    (consumes_here.bind_right fun start => consumes_clause.map (start, ·)).lexeme
  rw [parts_eq]
  refine Reads.bind hhead fun listed => InStep.map (hclause.many hcount hcount) fun cs ds h => ?_
  have hsame : cs.map Prod.snd = ds.map Prod.snd := by
    rw [← List.forall₂_eq_eq_eq, List.forall₂_map_left_iff, List.forall₂_map_right_iff]
    exact h
  rw [hsame]

theorem repeated?_eq_none_iff : ∀ {clauses : List (List Char × Clause)} {given : List Clause.Kind},
    repeated? given clauses = none ↔ ((clauses.map Prod.snd).map Clause.kind).Nodup ∧
      ∀ c ∈ clauses.map Prod.snd, c.kind ∉ given
  | [], _ => by simp [repeated?]
  | (start, c) :: clauses, given => by
    rw [repeated?]
    by_cases hc : c.kind ∈ given
    · simp [hc]
    · rw [if_neg (by simpa using hc), repeated?_eq_none_iff]
      rw [List.map_cons, List.map_cons, List.nodup_cons, List.forall_mem_cons]
      simp only [List.mem_cons, not_or, List.mem_map (f := Clause.kind)]
      constructor
      · rintro ⟨hnodup, hrest⟩
        refine ⟨⟨?_, hnodup⟩, hc, fun d hd => (hrest d hd).2⟩
        rintro ⟨d, hd, hkind⟩
        exact (hrest d hd).1 hkind
      · rintro ⟨⟨hfresh, hnodup⟩, -, hrest⟩
        exact ⟨hnodup, fun d hd => ⟨fun hkind => hfresh ⟨d, hd, hkind⟩, hrest d hd⟩⟩

/-- A query is read as what its parts make, with the end behind them. -/
theorem statement_eq_done {s r : List Char} {query : Query} : statement s = .done query r ↔
    ∃ p c found, parts s = .done p c ∧ termination c = .done found r ∧ p.Makes query := by
  constructor
  · intro h
    obtain ⟨w, m, hselect, hbody⟩ := bind_eq_done h
    obtain ⟨lead, m₁, hlead, hbody⟩ := bind_eq_done (commit_eq_done hbody)
    obtain ⟨atoms, m₂, hatoms, hbody⟩ := bind_eq_done hbody
    obtain ⟨w', m₃, hfrom, hbody⟩ := bind_eq_done hbody
    obtain ⟨source, m₄, hsource, hbody⟩ := bind_eq_done hbody
    obtain ⟨clauses, c, hclauses, hbody⟩ := bind_eq_done hbody
    obtain ⟨found, m₅, hend, hbody⟩ := bind_eq_done hbody
    generalize hrepeated : repeated? _ clauses = again at hbody
    cases again with
    | some start => cases hbody
    | none =>
      obtain ⟨honce, hgiven⟩ := repeated?_eq_none_iff.mp hrepeated
      cases hbody
      refine ⟨⟨lead, atoms, source, clauses.map Prod.snd⟩, c, found, ?_, hend, honce, hgiven, rfl⟩
      rw [parts, after_done hselect, bind_done hlead, bind_done (expecting_eq_done hatoms),
        bind_done (expecting_eq_done hfrom), bind_done (expecting_eq_done hsource), bind_done hclauses, pure_apply]
  · rintro ⟨p, c, found, hparts, hend, honce, hgiven, rfl⟩
    obtain ⟨w, m, hselect, hparts⟩ := bind_eq_done hparts
    obtain ⟨lead, m₁, hlead, hparts⟩ := bind_eq_done hparts
    obtain ⟨atoms, m₂, hatoms, hparts⟩ := bind_eq_done hparts
    obtain ⟨w', m₃, hfrom, hparts⟩ := bind_eq_done hparts
    obtain ⟨source, m₄, hsource, hparts⟩ := bind_eq_done hparts
    obtain ⟨clauses, c', hclauses, hparts⟩ := bind_eq_done hparts
    cases hparts
    refine (after_done hselect).trans (commit_done ?_)
    rw [body, bind_done hlead, bind_done (expecting_done hatoms), bind_done (expecting_done hfrom),
      bind_done (expecting_done hsource), bind_done hclauses, bind_done hend,
      repeated?_eq_none_iff.mpr ⟨honce, hgiven⟩]
    rfl

end Grammar
end SelectLang
