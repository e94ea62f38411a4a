/-
# Expressions read back

An expression is read off its canonical text. What has to be said is what may stand behind it: no
token goes on there, and no mark comes next that would carry the expression on (`Ends`). At a looser
level fewer marks may follow, for a mark that binds loosely leaves what binds tighter as it is.

A layer that gathers operands from the left has read an expression as soon as it stands where it
would stand with the expression as its first operand. So what is proved of every expression is an
equation between readings (`ReadsBack`): reading its text and then the rest is going on with the rest.
The equation for a chain is then the equation for its left side and one more round.

Key definitions: `Ends`, `chainTail`, `pipeTail`, `ReadsBack`.
Key theorems: `readsBack`, `expression_done`.
-/
import Mathlib
import SelectLang.Syntax.Render
import SelectLang.Proofs.Grammar.Tokens

namespace SelectLang
namespace Grammar

open SelectLang.Parser

/-! ### What may follow -/

/-- The marks that carry on an expression of the given precedence. -/
def carriers : Nat → List Char
  | 0 => ['(', '*', '/', '%', '+', '-', '|']
  | 1 => ['(', '*', '/', '%', '+', '-']
  | 2 => ['(', '*', '/', '%']
  | _ => ['(']

/-- An expression of the given precedence ends here. -/
structure Ends (precedence : Nat) (s : List Char) : Prop where
  token : EndsToken s
  mark : ∀ c ∈ (s.dropWhile isBlank).head?, c ∉ carriers precedence

theorem carriers_subset {k l : Nat} (h : k ≤ l) : carriers l ⊆ carriers k := by
  match k, l, h with
  | 0, 0, _ | 1, 1, _ | 2, 2, _ => exact List.Subset.refl _
  | 0, 1, _ | 0, 2, _ | 1, 2, _ => decide
  | 0, _ + 3, _ | 1, _ + 3, _ | 2, _ + 3, _ => simp [carriers]
  | _ + 3, _ + 3, _ => exact List.Subset.refl _

theorem Ends.mono {k l : Nat} {s : List Char} (hs : Ends k s) (h : k ≤ l) : Ends l s :=
  ⟨hs.token, fun c hc hm => hs.mark c hc (carriers_subset h hm)⟩

/-- Behind a blank comes a mark that does not carry the expression on. -/
theorem ends_blank {k : Nat} {c : Char} (hc : c ∉ carriers k) (hb : isBlank c = false)
    (s : List Char) : Ends k (' ' :: c :: s) where
  token := endsToken_blank _
  mark d hd := by
    rw [List.dropWhile_cons_of_pos rfl, List.dropWhile_cons_of_neg (by simp [hb])] at hd
    cases hd
    exact hc

/-- A mark that is no part of a token and carries nothing on. -/
theorem ends_mark {c : Char} (hc : c ∈ [',', ')', ';', ':']) (k : Nat) (s : List Char) :
    Ends k (c :: s) := by
  refine Ends.mono ⟨fun d hd => ?_, fun d hd => ?_⟩ (Nat.zero_le k)
  · cases hd
    simp only [List.mem_cons, List.not_mem_nil, or_false] at hc
    rcases hc with rfl | rfl | rfl | rfl <;> decide
  · have hb : isBlank c = false := by
      simp only [List.mem_cons, List.not_mem_nil, or_false] at hc
      rcases hc with rfl | rfl | rfl | rfl <;> rfl
    rw [List.dropWhile_cons_of_neg (by simp [hb])] at hd
    cases hd
    simp only [List.mem_cons, List.not_mem_nil, or_false] at hc
    rcases hc with rfl | rfl | rfl | rfl <;> decide

/-! ### Layers -/

theorem skipsBlanks_factor (inner : Parser Expr) : SkipsBlanks (factor inner) :=
  skipsBlanks_lexeme _

theorem skipsBlanks_term (inner : Parser Expr) : SkipsBlanks (term inner) :=
  (skipsBlanks_factor inner).bind _

theorem skipsBlanks_additive (inner : Parser Expr) : SkipsBlanks (additive inner) :=
  (skipsBlanks_term inner).bind _

theorem skipsBlanks_expression : SkipsBlanks expression := by
  rw [expression_eq]
  exact (skipsBlanks_additive expression).bind _

/-- What a chain does behind its first operand. -/
def chainTail (ops : List Operator) (operand : Parser Expr) (left : Expr) : Parser Expr :=
  foldMany (both (lexeme (operator ops)) operand) left fun left (op, right) => .binary op left right

/-- The operators between factors. -/
def factors : List Operator := [.multiply, .divide, .remainder]

/-- The operators between terms. -/
def summands : List Operator := [.add, .subtract]

/-- What pipes do behind their first value. -/
def pipeTail (value : Expr) : Parser Expr :=
  foldMany ((symbols "|>").after (additive expression)) value Expr.pipe

/-- What parameter lists do behind what is called. -/
def callTail (target : Expr) : Parser Expr := foldMany (parameters expression) target Expr.call

theorem term_apply (s : List Char) : term expression s =
    (factor expression >>= chainTail factors (factor expression)) s := rfl

theorem additive_apply (s : List Char) : additive expression s =
    (term expression >>= chainTail summands (term expression)) s := rfl

theorem expression_apply (s : List Char) :
    expression s = (additive expression >>= pipeTail) s := congrFun expression_eq s

/-! ### Operators -/

theorem symbol_injective {op op' : Operator} (h : op.symbol = op'.symbol) : op = op' := by
  cases op <;> cases op' <;> first | rfl | exact absurd h (by decide)

theorem isBlank_symbol (op : Operator) : isBlank op.symbol = false := by
  cases op <;> rfl

theorem operator_done {op : Operator} (t : List Char) : ∀ {ops : List Operator}, op ∈ ops →
    operator ops (op.symbol :: t) = .done op t
  | op' :: ops, h => by
    by_cases hop : op = op'
    · subst hop
      exact firstOf_cons_done (bind_done (char_done _ t))
    · refine firstOf_cons_of_misses (Misses.bind (misses_char fun hc => ?_))
        (operator_done t (List.mem_of_ne_of_mem hop h))
      rw [List.head?_cons, Option.mem_def, Option.some.injEq] at hc
      exact hop (symbol_injective hc)

theorem misses_operator {ops : List Operator} {s : List Char}
    (h : ∀ op ∈ ops, op.symbol ∉ s.head?) : (operator ops).Misses s := by
  refine misses_firstOf fun p hp => ?_
  obtain ⟨op, hop, rfl⟩ := List.mem_map.mp hp
  exact (misses_char (h op hop)).bind

/-- Another round of a chain. -/
theorem chainTail_step {ops : List Operator} {operand : Parser Expr} (hs : SkipsBlanks operand)
    {op : Operator} (hop : op ∈ ops) {left right : Expr} {text rest : List Char}
    (h : operand (text ++ rest) = .done right rest) :
    chainTail ops operand left (' ' :: op.symbol :: ' ' :: (text ++ rest)) =
      chainTail ops operand (.binary op left right) rest := by
  have hsym : lexeme (operator ops) (' ' :: op.symbol :: ' ' :: (text ++ rest)) =
      .done op (' ' :: (text ++ rest)) := by
    rw [lexeme_apply, List.dropWhile_cons_of_pos rfl,
      List.dropWhile_cons_of_neg (by simp [isBlank_symbol]), operator_done _ hop]
  have hround := both_done hsym ((hs.cons rfl _).trans h)
  refine foldMany_step hround ?_
  simp only [List.length_cons, List.length_append]
  omega

/-- A chain ends where none of its operators comes next. -/
theorem chainTail_done {ops : List Operator} {operand : Parser Expr} {left : Expr} {k : Nat}
    (hops : ∀ op ∈ ops, op.symbol ∈ carriers k) {rest : List Char} (h : Ends k rest) :
    chainTail ops operand left rest = .done left rest := by
  refine foldMany_of_misses (Misses.bind ?_)
  exact misses_operator fun op hop hc => h.mark _ hc (hops op hop)

theorem pipeTail_done {value : Expr} {rest : List Char} (h : Ends 0 rest) :
    pipeTail value rest = .done value rest := by
  refine foldMany_of_misses (Misses.bind (misses_symbols fun hp => ?_))
  obtain ⟨t, ht⟩ := hp
  exact h.mark '|' (by rw [← ht]; rfl) (by decide)

theorem callTail_done {target : Expr} {rest : List Char} (h : Ends 3 rest) :
    callTail target rest = .done target rest := by
  refine foldMany_of_misses (misses_parenthesized fun hc => h.mark _ hc (by simp [carriers]))

/-! ### Reading back -/

/-- The expression is read off its text at every level that its precedence allows. -/
structure ReadsBack (e : Expr) : Prop where
  factor : 3 ≤ e.precedence → ∀ rest, Ends 3 rest →
    factor expression (e.render.toList ++ rest) = .done e rest
  term : 2 ≤ e.precedence → ∀ rest, Ends 3 rest →
    term expression (e.render.toList ++ rest) = chainTail factors (Grammar.factor expression) e rest
  additive : 1 ≤ e.precedence → ∀ rest, Ends 2 rest →
    additive expression (e.render.toList ++ rest) = chainTail summands (Grammar.term expression) e rest
  expression : ∀ rest, Ends 1 rest → expression (e.render.toList ++ rest) = pipeTail e rest
  callee : e.isCallee → ∀ rest, EndsToken rest →
    (namePath >>= fun name => callTail (.path name)) (e.render.toList ++ rest) = callTail e rest

theorem expression_done {e : Expr} (he : ReadsBack e) {rest : List Char} (h : Ends 0 rest) :
    expression (e.render.toList ++ rest) = .done e rest := by
  rw [he.expression rest (h.mono (by decide)), pipeTail_done h]

/-! ### Operands

An operand is put in parentheses if its precedence does not reach the level; either way it is read
there. -/

theorem misses_factors_of_parenthesis (s : List Char) :
    (call expression).Misses ('(' :: s) ∧ Grammar.literal.Misses ('(' :: s) ∧
      namePath.Misses ('(' :: s) ∧ wildcard.Misses ('(' :: s) := by
  have hpath : namePath.Misses ('(' :: s) :=
    misses_namePath (misses_identifier fun c hc => by cases hc; decide)
  have hword : wordOf ('(' :: s) = [] := by
    rw [wordOf, List.takeWhile_cons_of_neg (by decide)]
  have hstar : (many1 (Parser.char '*')).Misses ('(' :: s) := (misses_char (by simp)).bind
  refine ⟨hpath.bind, misses_literal (fun c hc => ?_) (by rw [hword]; decide), hpath, hstar.bind⟩
  cases hc
  decide

theorem factor_parenthesized {e : Expr} (he : ReadsBack e) (rest : List Char) :
    factor expression ('(' :: (e.render.toList ++ ')' :: rest)) = .done e rest := by
  obtain ⟨h1, h2, h3, h4⟩ := misses_factors_of_parenthesis (e.render.toList ++ ')' :: rest)
  have hinner : expression ((e.render.toList ++ ')' :: rest).dropWhile isBlank) =
      .done e (')' :: rest) := by
    rw [skipsBlanks_expression, expression_done he (ends_mark (by decide) 0 rest)]
  refine firstOf_cons_of_misses h1 (firstOf_cons_of_misses h2.bind (firstOf_cons_of_misses h3.bind
    (firstOf_cons_of_misses h4 ?_)))
  exact parenthesized_done rfl hinner rfl

theorem enclose_true (text : String) (rest : List Char) :
    (enclose true text).toList ++ rest = '(' :: (text.toList ++ ')' :: rest) := by
  simp [enclose]

theorem factor_operand {e : Expr} (he : ReadsBack e) (needed : Bool)
    (hn : needed = false → 3 ≤ e.precedence) {rest : List Char} (h : Ends 3 rest) :
    factor expression ((enclose needed e.render).toList ++ rest) = .done e rest := by
  cases needed with
  | false => exact he.factor (hn rfl) rest h
  | true => rw [enclose_true, factor_parenthesized he]

theorem term_operand {e : Expr} (he : ReadsBack e) (needed : Bool)
    (hn : needed = false → 2 ≤ e.precedence) {rest : List Char} (h : Ends 3 rest) :
    term expression ((enclose needed e.render).toList ++ rest) =
      chainTail factors (factor expression) e rest := by
  cases needed with
  | false => exact he.term (hn rfl) rest h
  | true => rw [enclose_true, term_apply, bind_done (factor_parenthesized he rest)]

theorem additive_operand {e : Expr} (he : ReadsBack e) (needed : Bool)
    (hn : needed = false → 1 ≤ e.precedence) {rest : List Char} (h : Ends 2 rest) :
    additive expression ((enclose needed e.render).toList ++ rest) =
      chainTail summands (term expression) e rest := by
  cases needed with
  | false => exact he.additive (hn rfl) rest h
  | true =>
    have hterm := term_operand he true nofun (h.mono (by decide))
    rw [chainTail_done (k := 2) (by decide) h] at hterm
    rw [additive_apply, bind_done hterm]

/-! ### Kinds of expressions

Reading back at one level gives reading back at the looser ones. -/

theorem additive_of_term {text rest : List Char} {e : Expr}
    (ht : term expression (text ++ rest) = chainTail factors (factor expression) e rest)
    (h : Ends 2 rest) :
    additive expression (text ++ rest) = chainTail summands (term expression) e rest := by
  rw [chainTail_done (k := 2) (by decide) h] at ht
  rw [additive_apply, bind_done ht]

theorem expression_of_additive {text rest : List Char} {e : Expr}
    (ha : additive expression (text ++ rest) = chainTail summands (term expression) e rest)
    (h : Ends 1 rest) : expression (text ++ rest) = pipeTail e rest := by
  rw [chainTail_done (k := 1) (by decide) h] at ha
  rw [expression_apply, bind_done ha]

theorem term_of_factor {s rest : List Char} {e : Expr} (hf : factor expression s = .done e rest) :
    term expression s = chainTail factors (factor expression) e rest := by
  rw [term_apply, bind_done hf]

/-- What is a factor is an expression if nothing carries it on. -/
theorem expression_of_factor {text rest : List Char} {e : Expr}
    (hf : factor expression (text ++ rest) = .done e rest) (h : Ends 0 rest) :
    expression (text ++ rest) = .done e rest := by
  rw [expression_of_additive (additive_of_term (term_of_factor hf) (h.mono (by decide)))
    (h.mono (by decide)), pipeTail_done h]

theorem ReadsBack.of_factor {e : Expr}
    (hf : ∀ rest, Ends 3 rest → Grammar.factor Grammar.expression (e.render.toList ++ rest) =
      .done e rest)
    (hc : e.isCallee → ∀ rest, EndsToken rest →
      (namePath >>= fun name => callTail (.path name)) (e.render.toList ++ rest) = callTail e rest) :
    ReadsBack e := by
  have ht : ∀ rest, Ends 3 rest → Grammar.term Grammar.expression (e.render.toList ++ rest) =
      chainTail factors (Grammar.factor Grammar.expression) e rest := fun rest h =>
    term_of_factor (hf rest h)
  have ha := fun rest (h : Ends 2 rest) => additive_of_term (ht rest (h.mono (by decide))) h
  exact {
    factor := fun _ => hf
    term := fun _ => ht
    additive := fun _ => ha
    expression := fun rest h => expression_of_additive (ha rest (h.mono (by decide))) h
    callee := hc }

theorem binary_text (op : Operator) (left right : Expr) (rest : List Char) :
    (Expr.binary op left right).render.toList ++ rest =
      (enclose (left.precedence < op.precedence) left.render).toList ++ ' ' :: op.symbol :: ' ' ::
        ((enclose (right.precedence ≤ op.precedence) right.render).toList ++ rest) := by
  simp [Expr.render]

theorem readsBack_product {op : Operator} (hop : op ∈ factors) {left right : Expr}
    (hl : ReadsBack left) (hr : ReadsBack right) : ReadsBack (.binary op left right) := by
  have hprec : op.precedence = 2 := by revert hop; cases op <;> decide
  have hmark : op.symbol ∉ carriers 3 := by cases op <;> decide
  have ht : ∀ rest, Ends 3 rest → term expression ((Expr.binary op left right).render.toList ++ rest) =
      chainTail factors (factor expression) (.binary op left right) rest := fun rest h => by
    rw [binary_text, term_operand hl _ (by simp only [hprec, decide_eq_false_iff_not]; omega)
      (ends_blank hmark (isBlank_symbol op) _)]
    exact chainTail_step (skipsBlanks_factor _) hop
      (factor_operand hr _ (by simp only [hprec, decide_eq_false_iff_not]; omega) h)
  have ha := fun rest (h : Ends 2 rest) => additive_of_term (ht rest (h.mono (by decide))) h
  exact {
    factor := fun h => absurd h (by simp [Expr.precedence, hprec])
    term := fun _ => ht
    additive := fun _ => ha
    expression := fun rest h => expression_of_additive (ha rest (h.mono (by decide))) h
    callee := nofun }

theorem readsBack_sum {op : Operator} (hop : op ∈ summands) {left right : Expr}
    (hl : ReadsBack left) (hr : ReadsBack right) : ReadsBack (.binary op left right) := by
  have hprec : op.precedence = 1 := by revert hop; cases op <;> decide
  have hmark : op.symbol ∉ carriers 2 := by revert hop; cases op <;> decide
  have ha : ∀ rest, Ends 2 rest → additive expression ((Expr.binary op left right).render.toList ++ rest) =
      chainTail summands (term expression) (.binary op left right) rest := fun rest h => by
    have hright := term_operand hr (right.precedence ≤ op.precedence)
      (by simp only [hprec, decide_eq_false_iff_not]; omega) (h.mono (by decide))
    rw [chainTail_done (k := 2) (by decide) h] at hright
    rw [binary_text, additive_operand hl _ (by simp only [hprec, decide_eq_false_iff_not]; omega)
      (ends_blank hmark (isBlank_symbol op) _)]
    exact chainTail_step (skipsBlanks_term _) hop hright
  exact {
    factor := fun h => absurd h (by simp [Expr.precedence, hprec])
    term := fun h => absurd h (by simp [Expr.precedence, hprec])
    additive := fun _ => ha
    expression := fun rest h => expression_of_additive (ha rest (h.mono (by decide))) h
    callee := nofun }

theorem readsBack_binary (op : Operator) {left right : Expr} (hl : ReadsBack left)
    (hr : ReadsBack right) : ReadsBack (.binary op left right) := by
  cases op with
  | add | subtract => exact readsBack_sum (by decide) hl hr
  | multiply | divide | remainder => exact readsBack_product (by decide) hl hr

theorem pipe_text (value target : Expr) (rest : List Char) :
    (Expr.pipe value target).render.toList ++ rest = value.render.toList ++ ' ' :: '|' :: '>' :: ' ' ::
      ((enclose (target.precedence == 0) target.render).toList ++ rest) := by
  simp [Expr.render]

theorem readsBack_pipe {value target : Expr} (hv : ReadsBack value) (ht : ReadsBack target) :
    ReadsBack (.pipe value target) where
  factor h := absurd h (by simp [Expr.precedence])
  term h := absurd h (by simp [Expr.precedence])
  additive h := absurd h (by simp [Expr.precedence])
  expression rest h := by
    set text := (enclose (target.precedence == 0) target.render).toList with htext
    have htarget : additive expression (text ++ rest) = .done target rest := by
      have hadd := additive_operand ht (target.precedence == 0)
        (by rw [beq_eq_false_iff_ne]; omega) (h.mono (by decide))
      rwa [chainTail_done (k := 1) (by decide) h] at hadd
    have hmark : symbols "|>" (' ' :: '|' :: '>' :: ' ' :: (text ++ rest)) =
        .done "|>".toList ((' ' :: (text ++ rest)).dropWhile isBlank) := symbols_done rfl
    rw [pipe_text, hv.expression _ (ends_blank (by decide) rfl _)]
    refine foldMany_step ((after_done hmark).trans ?_) ?_
    · rw [skipsBlanks_additive, (skipsBlanks_additive _).cons rfl, htarget]
    · simp only [List.length_cons, List.length_append]
      omega
  callee := nofun

/-! ### Leaves and calls -/

theorem factor_apply {s : List Char} (h : s.dropWhile isBlank = s) : factor expression s =
    firstOf [call expression, do let value ← literal; pure (.literal value),
      do let name ← namePath; pure (.path name), wildcard, parenthesized expression] s := by
  rw [factor, lexeme_apply, h]

theorem factor_of_literal {s rest : List Char} {value : Literal} (hm : Marked s)
    (h : Grammar.literal s = .done value rest) :
    factor expression s = .done (.literal value) rest := by
  have hpath := misses_namePath hm.misses_identifier
  rw [factor_apply hm.solid]
  refine firstOf_cons_of_misses hpath.bind (firstOf_cons_done ?_)
  rw [bind_done h, pure_apply]

theorem readsBack_literal {value : Literal} (h : value.wellFormed Binary64.isPlain = true) :
    ReadsBack (.literal value) :=
  .of_factor (fun _ hr => factor_of_literal (literal_marked h hr.token) (literal_done h hr.token)) nofun

theorem expression_of_digits {ds : List Char} (hne : ds ≠ []) (hd : ∀ c ∈ ds, c.isDigit = true)
    {rest : List Char} (hr : Ends 0 rest) : expression (ds ++ '.' :: rest) =
      .done (.literal (.float (.ofDecimal false (Nat.ofDigitChars 10 ds 0) 0))) rest := by
  obtain ⟨c, t, hct⟩ := List.exists_cons_of_ne_nil hne
  have htext : ds ++ '.' :: rest = (ds ++ ['.']) ++ rest := by simp
  have hm : Marked (ds ++ '.' :: rest) :=
    .digit (c := c) (by rw [hct]; rfl) (hd c (by rw [hct]; simp))
  have hf := factor_of_literal hm (literal_of_digits hne hd hr.token)
  rw [htext] at hf ⊢
  exact expression_of_factor hf hr

theorem misses_parameters {s : List Char} (h : Ends 3 s) : (parameters expression).Misses s :=
  misses_parenthesized fun hc => h.mark _ hc (by decide)

theorem readsBack_path {path : NamePath} (h : path.isProper = true) : ReadsBack (.path path) := by
  refine .of_factor (fun rest hr => ?_) fun _ rest hr => ?_
  · have hdone := namePath_done h hr.token
    have hcall : (call expression).Misses (path.dotted.toList ++ rest) :=
      misses_bind_done hdone (Misses.bind (misses_parameters hr).bind)
    rw [Expr.render, factor_apply (solid_of_isProper h rest)]
    refine firstOf_cons_of_misses hcall (firstOf_cons_of_misses
      (misses_literal_of_path h hr.token).bind (firstOf_cons_done ?_))
    rw [bind_done hdone, pure_apply]
  · rw [Expr.render, bind_done (namePath_done h hr)]

theorem many_char {c : Char} {rest : List Char} (h : c ∉ rest.head?) : ∀ n : Nat,
    many (Parser.char c) (List.replicate n c ++ rest) = .done (List.replicate n c) rest
  | 0 => many_of_misses (misses_char h)
  | n + 1 => by
    rw [List.replicate_succ, List.cons_append]
    exact many_step (char_done c _) (by simp) (many_char h n)

theorem readsBack_wildcard {level : Nat} (h : 1 ≤ level) : ReadsBack (.wildcard level) := by
  refine .of_factor (fun rest hr => ?_) nofun
  obtain ⟨n, rfl⟩ : ∃ n, level = n + 1 := ⟨level - 1, by omega⟩
  have hm : Marked (List.replicate (n + 1) '*' ++ rest) := .mark rfl (by decide) rfl
  have hword : wordOf (List.replicate (n + 1) '*' ++ rest) = [] := by
    rw [wordOf, List.replicate_succ, List.cons_append, List.takeWhile_cons_of_neg (by decide)]
  have hliteral : Grammar.literal.Misses (List.replicate (n + 1) '*' ++ rest) :=
    misses_literal (fun c hc => by cases hc; decide) (by rw [hword]; decide)
  have hpath := misses_namePath hm.misses_identifier
  have hstars : many1 (Parser.char '*') (List.replicate (n + 1) '*' ++ rest) =
      .done (List.replicate (n + 1) '*') rest := by
    rw [many1, List.replicate_succ, List.cons_append, bind_done (char_done _ _),
      bind_done (many_char (fun hc => (hr.token _ hc).2.2 rfl) n), pure_apply]
  rw [Expr.render, String.toList_ofList, factor_apply hm.solid]
  refine firstOf_cons_of_misses hpath.bind (firstOf_cons_of_misses hliteral.bind
    (firstOf_cons_of_misses hpath.bind (firstOf_cons_done ?_)))
  rw [wildcard, bind_done hstars, pure_apply, List.length_replicate]

/-- What parameter lists do behind a path is a call if there is at least one. -/
theorem call_of_callTail {s rest : List Char} {target : Expr} {ps : List Parameter}
    (h : (namePath >>= fun name => callTail (.path name)) s = .done (.call target ps) rest) :
    call expression s = .done (.call target ps) rest := by
  obtain ⟨name, m, hname, htail⟩ := bind_eq_done h
  obtain ⟨lists, hlists, hfold⟩ := foldMany_eq_done htail
  rcases many_eq_done hlists with ⟨rfl, -, -⟩ | ⟨list, m', more, hlist, -, hmore, rfl⟩
  · cases hfold
  · rw [call, bind_done hname, bind_done (m := rest) (a := list :: more), pure_apply, hfold]
    rw [many1, bind_done hlist, bind_done hmore, pure_apply]

theorem call_text {target : Expr} (h : target.isCallee = true) (ps : List Parameter)
    (rest : List Char) : (Expr.call target ps).render.toList ++ rest =
      target.render.toList ++ '(' :: ((renderParameters ps).toList ++ ')' :: rest) := by
  have h0 : enclose (decide (target.precedence < 3)) target.render = target.render := by
    cases target with
    | path _ | call _ _ => rfl
    | _ => cases h
  simp [Expr.render, h0]

theorem endsToken_parenthesis (s : List Char) : EndsToken ('(' :: s) := fun c hc => by
  cases hc
  decide

theorem solid_of_callee : ∀ {e : Expr}, e.isPrintable = true → e.isCallee = true →
    ∀ rest : List Char, (e.render.toList ++ rest).dropWhile isBlank = e.render.toList ++ rest
  | .path path, h, _, rest => solid_of_isProper h rest
  | .call target ps, h, _, rest => by
    rw [Expr.isPrintable, Expr.wellFormed, Bool.and_eq_true, Bool.and_eq_true] at h
    rw [call_text h.1.1 ps rest]
    exact solid_of_callee h.1.2 h.1.1 _

theorem readsBack_call {target : Expr} {ps : List Parameter}
    (h : (Expr.call target ps).isPrintable = true) (ht : ReadsBack target)
    (hps : ∀ rest, parameters expression ('(' :: ((renderParameters ps).toList ++ ')' :: rest)) =
      .done ps rest) : ReadsBack (.call target ps) := by
  have hcallee : target.isCallee = true := by
    rw [Expr.isPrintable, Expr.wellFormed, Bool.and_eq_true, Bool.and_eq_true] at h
    exact h.1.1
  have htail : ∀ rest, (namePath >>= fun name => callTail (.path name))
      ((Expr.call target ps).render.toList ++ rest) = callTail (.call target ps) rest := fun rest => by
    rw [call_text hcallee, ht.callee hcallee _ (endsToken_parenthesis _)]
    refine foldMany_step (hps rest) ?_
    simp only [List.length_cons, List.length_append]
    omega
  refine .of_factor (fun rest hr => ?_) fun _ rest _ => htail rest
  rw [factor_apply (solid_of_callee h rfl rest)]
  exact firstOf_cons_done (call_of_callTail ((htail rest).trans (callTail_done hr)))

/-! ### How expressions begin -/

/-- The text begins with no path, or with a path behind which stands `rest` or a mark that carries an
expression on. -/
def Front (rest s : List Char) : Prop :=
  Marked s ∨ ∃ path more, NamePath.isProper path = true ∧ s = path.dotted.toList ++ more ∧
    EndsToken more ∧ (more = rest ∨ ∃ c ∈ (more.dropWhile isBlank).head?, c ∈ carriers 0)

theorem Front.of_carrier {rest behind s : List Char} (h : Front behind s)
    (hb : ∃ c ∈ (behind.dropWhile isBlank).head?, c ∈ carriers 0) : Front rest s := by
  rcases h with h | ⟨path, more, hp, hs, hm, rfl | hc⟩
  · exact Or.inl h
  · exact Or.inr ⟨path, more, hp, hs, hm, Or.inr hb⟩
  · exact Or.inr ⟨path, more, hp, hs, hm, Or.inr hc⟩

theorem front_enclosed (needed : Bool) {text : String} {rest behind : List Char}
    (h : Front behind (text.toList ++ behind))
    (hb : ∃ c ∈ (behind.dropWhile isBlank).head?, c ∈ carriers 0) :
    Front rest ((enclose needed text).toList ++ behind) := by
  cases needed with
  | true => exact Or.inl (by rw [enclose_true]; exact .mark rfl (by decide) rfl)
  | false => exact h.of_carrier hb

theorem front : ∀ {e : Expr}, e.isPrintable = true → ∀ {rest : List Char}, EndsToken rest →
    Front rest (e.render.toList ++ rest)
  | .literal value, h, rest, hr => Or.inl (literal_marked h hr)
  | .path path, h, rest, hr => Or.inr ⟨path, rest, h, rfl, hr, Or.inl rfl⟩
  | .wildcard level, h, rest, hr => by
    simp only [Expr.isPrintable, Expr.wellFormed, decide_eq_true_eq] at h
    obtain ⟨n, rfl⟩ : ∃ n, level = n + 1 := ⟨level - 1, by omega⟩
    rw [Expr.render, String.toList_ofList]
    exact Or.inl (.mark rfl (by decide) rfl)
  | .binary op left right, h, rest, hr => by
    rw [Expr.isPrintable, Expr.wellFormed, Bool.and_eq_true] at h
    rw [binary_text]
    refine front_enclosed _ (front h.1 (endsToken_blank _)) ⟨op.symbol, ?_, by cases op <;> decide⟩
    cases op <;> rfl
  | .call target ps, h, rest, hr => by
    rw [Expr.isPrintable, Expr.wellFormed, Bool.and_eq_true, Bool.and_eq_true] at h
    rw [call_text h.1.1]
    exact (front h.1.2 (endsToken_parenthesis _)).of_carrier ⟨'(', rfl, by decide⟩
  | .pipe value target, h, rest, hr => by
    rw [Expr.isPrintable, Expr.wellFormed, Bool.and_eq_true] at h
    rw [pipe_text]
    exact (front h.1 (endsToken_blank _)).of_carrier ⟨'|', rfl, by decide⟩

theorem Front.solid {rest s : List Char} (h : Front rest s) : s.dropWhile isBlank = s := by
  rcases h with h | ⟨path, more, hp, rfl, -, -⟩
  · exact h.solid
  · exact solid_of_isProper hp more

/-- Behind the path that begins an expression comes no mark that does not carry it on. -/
theorem Front.misses_path {rest s : List Char} (h : Front rest s) {c : Char}
    (hc : c ∉ carriers 0) (hr : c ∉ (rest.dropWhile isBlank).head?) :
    ((lexeme namePath).after (symbol c)).Misses s := by
  have hs := h.solid
  rcases h with h | ⟨path, more, hp, rfl, hm, hmore⟩
  · refine Misses.bind ?_
    rw [Misses, lexeme_apply, hs]
    exact misses_namePath h.misses_identifier
  · refine misses_bind_done (m := more) (by rw [lexeme_apply, hs, namePath_done hp hm]) ?_
    refine misses_symbol fun hd => ?_
    rcases hmore with rfl | ⟨d, hd', hcarrier⟩
    · exact hr hd
    · rw [Option.mem_unique hd hd'] at hc
      exact hc hcarrier

/-- Behind the name that begins an expression comes no mark that does not carry it on. -/
theorem Front.misses_name {rest s : List Char} (h : Front rest s) {c : Char}
    (hc : c ∉ carriers 0) (hr : c ∉ (rest.dropWhile isBlank).head?) (hpoint : c ≠ '.') :
    ((lexeme identifier).after (symbol c)).Misses s := by
  have hs := h.solid
  rcases h with h | ⟨path, more, hp, rfl, hm, hmore⟩
  · refine Misses.bind ?_
    rw [Misses, lexeme_apply, hs]
    exact h.misses_identifier
  · obtain ⟨name, names, hd, hn, hnames⟩ := dotted_front hp
    rw [hd, List.append_assoc] at hs ⊢
    have hend : EndsWord (names ++ more) := by
      rcases hnames with rfl | ⟨t, rfl⟩
      · exact hm.endsWord
      · exact endsWord_point _
    refine misses_bind_done (m := names ++ more) (by rw [lexeme_apply, hs, identifier_done hn hend]) ?_
    refine misses_symbol fun hd => ?_
    rcases hnames with rfl | ⟨t, rfl⟩
    · rcases hmore with rfl | ⟨d, hd', hcarrier⟩
      · exact hr hd
      · rw [Option.mem_unique hd hd'] at hc
        exact hc hcarrier
    · cases hd
      exact hpoint rfl

/-- An expression begins with no reserved word but a truth value. -/
theorem Front.wordOf_ne {rest s : List Char} (h : Front rest s) {word : String}
    (hr : word ∈ reservedWords) (hw : word.toList.all isKeywordLetter = true)
    (hword : word.toList ∉ [[], "true".toList, "false".toList]) :
    (wordOf s).map Char.toLower ≠ word.toList := by
  rcases h with h | ⟨path, more, hp, rfl, hm, -⟩
  · exact h.wordOf_ne hw hword
  · exact wordOf_ne_of_isProper hp hm hr

/-! ### Parameters -/

/-- An item of a list in parentheses ends here. -/
def Closes (s : List Char) : Prop := ∃ c ∈ s.head?, c = ',' ∨ c = ')'

theorem closes_comma (s : List Char) : Closes (',' :: s) := ⟨',', rfl, Or.inl rfl⟩

theorem closes_parenthesis (s : List Char) : Closes (')' :: s) := ⟨')', rfl, Or.inr rfl⟩

theorem Closes.ends {s : List Char} (h : Closes s) : Ends 0 s := by
  obtain ⟨c, hc, h⟩ := h
  obtain ⟨t, rfl⟩ : ∃ t, s = c :: t := by
    cases s with
    | nil => cases hc
    | cons d t => cases hc; exact ⟨t, rfl⟩
  refine ends_mark ?_ 0 t
  rcases h with rfl | rfl <;> decide

theorem Closes.no_colon {s : List Char} (h : Closes s) : ':' ∉ (s.dropWhile isBlank).head? := by
  obtain ⟨c, hc, h⟩ := h
  rw [dropWhile_isBlank fun d hd => by rw [Option.mem_unique hd hc]; rcases h with rfl | rfl <;> rfl]
  intro hd
  rw [Option.mem_unique hc hd] at h
  rcases h with h | h <;> cases h

theorem skipsBlanks_parameter : SkipsBlanks (parameter expression) :=
  SkipsBlanks.orElse (((skipsBlanks_lexeme identifier).bind _).bind _)
    (skipsBlanks_expression.bind _)

/-- The parameter is read off its text. -/
def ParameterReadsBack (p : Parameter) : Prop := ∀ rest, Closes rest →
  parameter expression (p.render.toList ++ rest) = .done p rest

theorem parameterReadsBack_positional {e : Expr} (h : e.isPrintable = true) (he : ReadsBack e) :
    ParameterReadsBack (.positional e) := fun rest hr => by
  have hname : ((lexeme identifier).after (symbol ':')).Misses (e.render.toList ++ rest) :=
    (front h hr.ends.token).misses_name (by decide) hr.no_colon (by decide)
  refine firstOf_cons_of_misses (misses_separatedPair hname).bind ?_
  rw [firstOf_single, Parameter.render, bind_done (expression_done he hr.ends), pure_apply]

theorem parameterReadsBack_named {name : String} (hn : isName name = true) {e : Expr}
    (he : ReadsBack e) : ParameterReadsBack (.named name e) := fun rest hr => by
  obtain ⟨c, cs, hname, hc, -, -⟩ := isName_iff.mp hn
  have htext : (Parameter.named name e).render.toList ++ rest =
      name.toList ++ ':' :: ' ' :: (e.render.toList ++ rest) := by
    simp [Parameter.render]
  have hsolid : ∀ t, (name.toList ++ t).dropWhile isBlank = name.toList ++ t := fun t =>
    dropWhile_isBlank fun d hd => by
      rw [hname] at hd
      cases hd
      exact isBlank_of_isNameChar (isNameChar_of_isNameStart hc)
  have hid : lexeme identifier (name.toList ++ ':' :: ' ' :: (e.render.toList ++ rest)) =
      .done name (':' :: ' ' :: (e.render.toList ++ rest)) := by
    rw [lexeme_apply, hsolid, identifier_done hn fun d hd => by cases hd; decide]
  have hcolon : symbol ':' (':' :: ' ' :: (e.render.toList ++ rest)) =
      .done ':' ((' ' :: (e.render.toList ++ rest)).dropWhile isBlank) := symbol_done rfl
  have hvalue : expression ((' ' :: (e.render.toList ++ rest)).dropWhile isBlank) = .done e rest := by
    rw [skipsBlanks_expression, skipsBlanks_expression.cons rfl, expression_done he hr.ends]
  rw [htext]
  exact firstOf_cons_done (bind_done (separatedPair_done hid hcolon hvalue))

theorem renderParameters_cons (p : Parameter) (ps : List Parameter) :
    (renderParameters (p :: ps)).toList =
      p.render.toList ++ ps.flatMap fun q => [',', ' '] ++ q.render.toList := by
  induction ps generalizing p with
  | nil => simp [renderParameters]
  | cons q ps ih =>
    rw [renderParameters, String.toList_append, String.toList_append, ih q, List.flatMap_cons]
    simp

theorem misses_parameter_of_parenthesis (s : List Char) :
    (parameter expression).Misses (')' :: s) := by
  have hm : Marked (')' :: s) := .mark rfl (by decide) rfl
  have hfactor : (factor expression).Misses (')' :: s) := by
    have hpath := misses_namePath hm.misses_identifier
    have hword : wordOf (')' :: s) = [] := by
      rw [wordOf, List.takeWhile_cons_of_neg (by decide)]
    have hliteral : Grammar.literal.Misses (')' :: s) :=
      misses_literal (fun c hc => by cases hc; decide) (by rw [hword]; decide)
    rw [Misses, factor_apply hm.solid]
    refine misses_firstOf ?_
    simp only [List.mem_cons, List.not_mem_nil, or_false, forall_eq_or_imp, forall_eq]
    exact ⟨hpath.bind, hliteral.bind, hpath.bind,
      Misses.bind (Misses.bind (misses_char (by simp)) : (many1 (Parser.char '*')).Misses _),
      misses_parenthesized (by rw [hm.solid]; simp)⟩
  have hexpression : expression.Misses (')' :: s) := by
    rw [expression_eq]
    exact Misses.bind (Misses.bind (Misses.bind hfactor : (term expression).Misses _))
  refine misses_firstOf ?_
  simp only [List.mem_cons, List.not_mem_nil, or_false, forall_eq_or_imp, forall_eq]
  refine ⟨(misses_separatedPair (Misses.bind ?_)).bind, hexpression.bind⟩
  rw [Misses, lexeme_apply, hm.solid]
  exact hm.misses_identifier

theorem parameters_done {ps : List Parameter} (h : ∀ p ∈ ps, ParameterReadsBack p)
    (rest : List Char) : parameters expression ('(' :: ((renderParameters ps).toList ++ ')' :: rest)) =
      .done ps rest := by
  refine parenthesized_done rfl (m := ')' :: rest) ?_ rfl
  cases ps with
  | nil => exact separated_of_misses (misses_parameter_of_parenthesis rest)
  | cons p ps =>
    rw [renderParameters_cons, List.append_assoc]
    have htail : separatedTail (symbol ',') (parameter expression)
        (ps.flatMap (fun q => [',', ' '] ++ q.render.toList) ++ ')' :: rest) =
          .done ps (')' :: rest) :=
      commaTail_done skipsBlanks_parameter (fun t => closes_comma _) (closes_parenthesis rest)
        (by rw [List.dropWhile_cons_of_neg (by decide)]; simp) fun q hq =>
          h q (List.mem_cons_of_mem p hq)
    refine separated_done ((skipsBlanks_parameter _).trans (h p List.mem_cons_self _ ?_)) htail
    cases ps with
    | nil => exact closes_parenthesis rest
    | cons q ps => exact closes_comma _

/-! ### All expressions -/

mutual

theorem readsBack : ∀ {e : Expr}, e.isPrintable = true → ReadsBack e
  | .literal value, h => readsBack_literal h
  | .path path, h => readsBack_path h
  | .wildcard level, h => readsBack_wildcard (by
      simpa only [Expr.isPrintable, Expr.wellFormed, decide_eq_true_eq] using h)
  | .binary op left right, h => by
    rw [Expr.isPrintable, Expr.wellFormed, Bool.and_eq_true] at h
    exact readsBack_binary op (readsBack h.1) (readsBack h.2)
  | .call target ps, h => by
    have hc := h
    rw [Expr.isPrintable, Expr.wellFormed, Bool.and_eq_true, Bool.and_eq_true] at hc
    exact readsBack_call h (readsBack hc.1.2) (parameters_done (parametersReadBack hc.2))
  | .pipe value target, h => by
    rw [Expr.isPrintable, Expr.wellFormed, Bool.and_eq_true] at h
    exact readsBack_pipe (readsBack h.1) (readsBack h.2)

theorem parameterReadsBack : ∀ {p : Parameter}, p.wellFormed Binary64.isPlain = true →
    ParameterReadsBack p
  | .positional e, h => parameterReadsBack_positional h (readsBack h)
  | .named name e, h => by
    rw [Parameter.wellFormed, Bool.and_eq_true] at h
    exact parameterReadsBack_named h.1 (readsBack h.2)

theorem parametersReadBack : ∀ {ps : List Parameter},
    parametersWellFormed Binary64.isPlain ps = true → ∀ p ∈ ps, ParameterReadsBack p
  | [], _ => nofun
  | p :: ps, h => by
    rw [parametersWellFormed, Bool.and_eq_true] at h
    exact List.forall_mem_cons.mpr ⟨parameterReadsBack h.1, parametersReadBack h.2⟩

end

end Grammar
end SelectLang
