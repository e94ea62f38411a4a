/-
# How canonical texts are read again

A number has digits in its canonical text only if it is finite: infinity is written `inf`, which is a
name. So a tree that was read is read again from its canonical text with every infinite number turned
into the name `inf` (`reread`), and it is itself again exactly if its numbers are finite.

Key definitions: `Expr.reread`, `Query.reread`, `Script.reread`.
Key theorems: `Query.render_reread`, `Query.isPrintable_reread`, `Query.reread_eq_self_iff`,
`reparse`.
-/
import Mathlib
import SelectLang.Proofs.Grammar.Queries
import SelectLang.Proofs.Grammar.WellFormed

namespace SelectLang

/-- The name that infinity is written as. -/
def infinityName : NamePath := ⟨["inf"]⟩

/-- An infinite literal is written as a word, which is read as a name. -/
def Literal.reread : Literal → Expr
  | .float x => if x.isFinite then .literal (.float x) else .path infinityName
  | value => .literal value

mutual

/-- What the canonical text of the expression is read as. -/
def Expr.reread : Expr → Expr
  | .literal value => value.reread
  | .path name => .path name
  | .wildcard level => .wildcard level
  | .binary op left right => .binary op left.reread right.reread
  | .call target parameters => .call target.reread (rereadParameters parameters)
  | .pipe value target => .pipe value.reread target.reread

/-- What the canonical text of the parameter is read as. -/
def Parameter.reread : Parameter → Parameter
  | .positional value => .positional value.reread
  | .named name value => .named name value.reread

/-- What the texts of the parameters are read as. -/
def rereadParameters : List Parameter → List Parameter
  | [] => []
  | p :: ps => p.reread :: rereadParameters ps

end

/-- What the canonical text of the ordering is read as. -/
def SortTerm.reread (term : SortTerm) : SortTerm := { term with expression := term.expression.reread }

/-- What the canonical text of the item is read as. -/
def Atom.reread : Atom → Atom
  | .expression e output => .expression e.reread output
  | .assignment output e => .assignment output e.reread

/-- What the canonical text of the query is read as. -/
def Query.reread (query : Query) : Query :=
  { query with
    atoms := query.atoms.map Atom.reread, orderings := query.orderings.map SortTerm.reread }

/-- What the canonical text of the script is read as. -/
def Script.reread (script : Script) : Script := ⟨script.statements.map Query.reread⟩

/-! ### Infinite literals -/

namespace Binary64

theorem isPlain_of_isUnsigned {x : Binary64} (h : x.isUnsigned = true) (hf : x.isFinite = true) :
    x.isPlain = true := by
  rw [isUnsigned, Bool.and_eq_true] at h
  rw [isPlain, Bool.and_eq_true]
  exact ⟨hf, h.2⟩

theorem renderNumber_of_infinite {x : Binary64} (h : x.isUnsigned = true)
    (hf : x.isFinite = false) : renderNumber x = "inf" := by
  simp only [isUnsigned, Bool.and_eq_true, Bool.not_eq_true'] at h
  simp [renderNumber, h, hf]

end Binary64

namespace Literal

theorem precedence_reread (value : Literal) : value.reread.precedence = 3 := by
  cases value with
  | float x => rw [reread]; split <;> rfl
  | _ => rfl

variable {value : Literal} (h : value.wellFormed Binary64.isUnsigned = true)
include h

theorem render_reread : value.reread.render = value.render := by
  cases value with
  | float x =>
    rw [reread]
    split
    · rfl
    · rename_i hf
      rw [Bool.not_eq_true] at hf
      rw [render, Binary64.renderNumber_of_infinite h hf]
      rfl
  | _ => rfl

theorem isPrintable_reread : value.reread.isPrintable = true := by
  cases value with
  | float x =>
    rw [reread]
    split
    · rename_i hf
      exact Binary64.isPlain_of_isUnsigned h hf
    · decide
  | _ => exact h

theorem reread_eq_self_iff :
    value.reread = .literal value ↔ value.wellFormed Binary64.isFinite = true := by
  cases value with
  | float x =>
    rw [reread, wellFormed]
    split
    · rename_i hf
      simp [hf]
    · rename_i hf
      simp [hf]
  | _ => exact ⟨fun _ => h, fun _ => rfl⟩

end Literal

/-! ### Expressions -/

theorem Expr.precedence_reread : ∀ e : Expr, e.reread.precedence = e.precedence
  | .literal value => value.precedence_reread
  | .path _ | .wildcard _ | .binary _ _ _ | .call _ _ | .pipe _ _ => rfl

theorem Expr.isCallee_reread : ∀ {e : Expr}, e.isCallee = true → e.reread.isCallee = true
  | .path _, _ => rfl
  | .call _ _, _ => rfl

mutual

theorem Expr.render_reread : ∀ {e : Expr}, e.wellFormed Binary64.isUnsigned = true →
    e.reread.render = e.render
  | .literal value, h => value.render_reread h
  | .path _, _ => rfl
  | .wildcard _, _ => rfl
  | .binary op left right, h => by
    rw [Expr.wellFormed, Bool.and_eq_true] at h
    rw [Expr.reread, Expr.render, Expr.render, Expr.render_reread h.1, Expr.render_reread h.2,
      Expr.precedence_reread, Expr.precedence_reread]
  | .call target ps, h => by
    rw [Expr.wellFormed, Bool.and_eq_true, Bool.and_eq_true] at h
    rw [Expr.reread, Expr.render, Expr.render, Expr.render_reread h.1.2, Expr.precedence_reread,
      renderParameters_reread h.2]
  | .pipe value target, h => by
    rw [Expr.wellFormed, Bool.and_eq_true] at h
    rw [Expr.reread, Expr.render, Expr.render, Expr.render_reread h.1, Expr.render_reread h.2,
      Expr.precedence_reread]

theorem Parameter.render_reread : ∀ {p : Parameter}, p.wellFormed Binary64.isUnsigned = true →
    p.reread.render = p.render
  | .positional e, h => e.render_reread h
  | .named name e, h => by
    rw [Parameter.wellFormed, Bool.and_eq_true] at h
    rw [Parameter.reread, Parameter.render, Parameter.render, Expr.render_reread h.2]

theorem renderParameters_reread : ∀ {ps : List Parameter},
    parametersWellFormed Binary64.isUnsigned ps = true →
      renderParameters (rereadParameters ps) = renderParameters ps
  | [], _ => rfl
  | [p], h => by
    rw [parametersWellFormed, Bool.and_eq_true] at h
    exact p.render_reread h.1
  | p :: q :: ps, h => by
    rw [parametersWellFormed, Bool.and_eq_true] at h
    have htail := renderParameters_reread h.2
    rw [rereadParameters] at htail
    rw [rereadParameters, rereadParameters, renderParameters, renderParameters,
      Parameter.render_reread h.1, htail]

end

mutual

theorem Expr.isPrintable_reread : ∀ {e : Expr}, e.wellFormed Binary64.isUnsigned = true →
    e.reread.isPrintable = true
  | .literal value, h => value.isPrintable_reread h
  | .path _, h => h
  | .wildcard _, h => h
  | .binary op left right, h => by
    rw [Expr.wellFormed, Bool.and_eq_true] at h
    rw [Expr.isPrintable, Expr.reread, Expr.wellFormed, Bool.and_eq_true]
    exact ⟨Expr.isPrintable_reread h.1, Expr.isPrintable_reread h.2⟩
  | .call target ps, h => by
    rw [Expr.wellFormed, Bool.and_eq_true, Bool.and_eq_true] at h
    rw [Expr.isPrintable, Expr.reread, Expr.wellFormed, Bool.and_eq_true, Bool.and_eq_true]
    exact ⟨⟨Expr.isCallee_reread h.1.1, Expr.isPrintable_reread h.1.2⟩, parametersPrintable_reread h.2⟩
  | .pipe value target, h => by
    rw [Expr.wellFormed, Bool.and_eq_true] at h
    rw [Expr.isPrintable, Expr.reread, Expr.wellFormed, Bool.and_eq_true]
    exact ⟨Expr.isPrintable_reread h.1, Expr.isPrintable_reread h.2⟩

theorem Parameter.isPrintable_reread : ∀ {p : Parameter}, p.wellFormed Binary64.isUnsigned = true →
    p.reread.wellFormed Binary64.isPlain = true
  | .positional e, h => e.isPrintable_reread h
  | .named name e, h => by
    rw [Parameter.wellFormed, Bool.and_eq_true] at h
    rw [Parameter.reread, Parameter.wellFormed, Bool.and_eq_true]
    exact ⟨h.1, e.isPrintable_reread h.2⟩

theorem parametersPrintable_reread : ∀ {ps : List Parameter},
    parametersWellFormed Binary64.isUnsigned ps = true →
      parametersWellFormed Binary64.isPlain (rereadParameters ps) = true
  | [], _ => rfl
  | p :: ps, h => by
    rw [parametersWellFormed, Bool.and_eq_true] at h
    rw [rereadParameters, parametersWellFormed, Bool.and_eq_true]
    exact ⟨Parameter.isPrintable_reread h.1, parametersPrintable_reread h.2⟩

end

mutual

theorem Expr.reread_eq_self_iff : ∀ {e : Expr}, e.wellFormed Binary64.isUnsigned = true →
    (e.reread = e ↔ e.wellFormed Binary64.isFinite = true)
  | .literal value, h => value.reread_eq_self_iff h
  | .path _, h => ⟨fun _ => h, fun _ => rfl⟩
  | .wildcard _, h => ⟨fun _ => h, fun _ => rfl⟩
  | .binary op left right, h => by
    rw [Expr.wellFormed, Bool.and_eq_true] at h
    rw [Expr.reread, Expr.wellFormed, Bool.and_eq_true, Expr.binary.injEq,
      Expr.reread_eq_self_iff h.1, Expr.reread_eq_self_iff h.2]
    simp
  | .call target ps, h => by
    rw [Expr.wellFormed, Bool.and_eq_true, Bool.and_eq_true] at h
    rw [Expr.reread, Expr.wellFormed, Bool.and_eq_true, Bool.and_eq_true, Expr.call.injEq,
      Expr.reread_eq_self_iff h.1.2, rereadParameters_eq_self_iff h.2]
    simp [h.1.1]
  | .pipe value target, h => by
    rw [Expr.wellFormed, Bool.and_eq_true] at h
    rw [Expr.reread, Expr.wellFormed, Bool.and_eq_true, Expr.pipe.injEq,
      Expr.reread_eq_self_iff h.1, Expr.reread_eq_self_iff h.2]

theorem Parameter.reread_eq_self_iff : ∀ {p : Parameter}, p.wellFormed Binary64.isUnsigned = true →
    (p.reread = p ↔ p.wellFormed Binary64.isFinite = true)
  | .positional e, h => by
    rw [Parameter.reread, Parameter.positional.injEq]
    exact e.reread_eq_self_iff h
  | .named name e, h => by
    rw [Parameter.wellFormed, Bool.and_eq_true] at h
    rw [Parameter.reread, Parameter.wellFormed, Parameter.named.injEq, Bool.and_eq_true,
      Expr.reread_eq_self_iff h.2]
    simp [h.1]

theorem rereadParameters_eq_self_iff : ∀ {ps : List Parameter},
    parametersWellFormed Binary64.isUnsigned ps = true →
      (rereadParameters ps = ps ↔ parametersWellFormed Binary64.isFinite ps = true)
  | [], _ => ⟨fun _ => rfl, fun _ => rfl⟩
  | p :: ps, h => by
    rw [parametersWellFormed, Bool.and_eq_true] at h
    rw [rereadParameters, parametersWellFormed, List.cons.injEq, Bool.and_eq_true,
      Parameter.reread_eq_self_iff h.1, rereadParameters_eq_self_iff h.2]

end

/-! ### Items -/

theorem map_eq_self_iff {α : Type} {f : α → α} {as : List α} : as.map f = as ↔ ∀ a ∈ as, f a = a := by
  conv_lhs => rhs; rw [← List.map_id as]
  rw [List.map_inj_left]
  rfl

theorem Atom.render_reread {a : Atom} (h : a.wellFormed Binary64.isUnsigned = true) :
    a.reread.render = a.render := by
  rw [Atom.wellFormed, Bool.and_eq_true] at h
  cases a with
  | expression e output =>
    have he : e.reread.render = e.render := Expr.render_reread h.1
    cases output <;> rw [Atom.reread, Atom.render, Atom.render, he]
  | assignment output e =>
    have he : e.reread.render = e.render := Expr.render_reread h.1
    rw [Atom.reread, Atom.render, Atom.render, he]

theorem Atom.isPrintable_reread {a : Atom} (h : a.wellFormed Binary64.isUnsigned = true) :
    a.reread.wellFormed Binary64.isPlain = true := by
  rw [Atom.wellFormed, Bool.and_eq_true] at h ⊢
  cases a with
  | expression e output => exact ⟨Expr.isPrintable_reread h.1, h.2⟩
  | assignment output e => exact ⟨Expr.isPrintable_reread h.1, h.2⟩

theorem Atom.reread_eq_self_iff {a : Atom} (h : a.wellFormed Binary64.isUnsigned = true) :
    a.reread = a ↔ a.wellFormed Binary64.isFinite = true := by
  rw [Atom.wellFormed, Bool.and_eq_true] at h
  rw [Atom.wellFormed, Bool.and_eq_true, and_iff_left h.2]
  cases a with
  | expression e output =>
    rw [Atom.reread, Atom.expression.injEq, and_iff_left rfl]
    exact Expr.reread_eq_self_iff h.1
  | assignment output e =>
    rw [Atom.reread, Atom.assignment.injEq, and_iff_right rfl]
    exact Expr.reread_eq_self_iff h.1

theorem SortTerm.render_reread {term : SortTerm} (h : term.wellFormed Binary64.isUnsigned = true) :
    term.reread.render = term.render := by
  obtain ⟨e, direction⟩ := term
  have he := Expr.render_reread (e := e) h
  cases direction <;> simp only [SortTerm.reread, SortTerm.render, he]

theorem SortTerm.reread_eq_self_iff {term : SortTerm}
    (h : term.wellFormed Binary64.isUnsigned = true) :
    term.reread = term ↔ term.wellFormed Binary64.isFinite = true := by
  obtain ⟨e, direction⟩ := term
  rw [SortTerm.reread, SortTerm.mk.injEq, and_iff_left rfl]
  exact Expr.reread_eq_self_iff h

/-! ### Queries and scripts -/

namespace Query

variable {query : Query} (h : query.wellFormed Binary64.isUnsigned = true)
include h

theorem render_reread : query.reread.render = query.render := by
  obtain ⟨-, -, hatoms, hterms⟩ := wellFormed_iff.mp h
  have ha : query.reread.atoms.map Atom.render = query.atoms.map Atom.render := by
    rw [reread, List.map_map]
    exact List.map_congr_left fun a ha => Atom.render_reread (hatoms a ha)
  have ht : query.reread.orderings.map SortTerm.render = query.orderings.map SortTerm.render := by
    rw [reread, List.map_map]
    exact List.map_congr_left fun term ht => SortTerm.render_reread (hterms term ht)
  have he : query.reread.orderings.isEmpty = query.orderings.isEmpty := List.isEmpty_map
  simp only [render, renderClauses, ha, ht, he]
  rfl

theorem isPrintable_reread : query.reread.isPrintable = true := by
  obtain ⟨hsource, hne, hatoms, hterms⟩ := wellFormed_iff.mp h
  refine wellFormed_iff.mpr ⟨hsource, by simpa [reread] using hne, fun a ha => ?_, fun term ht => ?_⟩
  · obtain ⟨b, hb, rfl⟩ := List.mem_map.mp ha
    exact Atom.isPrintable_reread (hatoms b hb)
  · obtain ⟨t, hmem, rfl⟩ := List.mem_map.mp ht
    exact Expr.isPrintable_reread (hterms t hmem)

theorem reread_eq_self_iff : query.reread = query ↔ query.wellFormed Binary64.isFinite = true := by
  obtain ⟨hsource, hne, hatoms, hterms⟩ := wellFormed_iff.mp h
  have ha : query.atoms.map Atom.reread = query.atoms ↔
      ∀ a ∈ query.atoms, a.wellFormed Binary64.isFinite = true :=
    map_eq_self_iff.trans (forall₂_congr fun a ha => Atom.reread_eq_self_iff (hatoms a ha))
  have ht : query.orderings.map SortTerm.reread = query.orderings ↔
      ∀ term ∈ query.orderings, term.wellFormed Binary64.isFinite = true :=
    map_eq_self_iff.trans (forall₂_congr fun term ht => SortTerm.reread_eq_self_iff (hterms term ht))
  rw [wellFormed_iff, ← ha, ← ht, and_iff_right hsource, and_iff_right hne]
  obtain ⟨_, _, _, _, _, _, _⟩ := query
  simp [reread]

/-- The canonical text is read as the query with its infinite numbers turned into names. -/
theorem parse_render_reread : Query.parse query.render = .ok query.reread := by
  rw [← render_reread h]
  exact parse_render_query (isPrintable_reread h)

end Query

namespace Script

variable {script : Script} (h : script.wellFormed Binary64.isUnsigned = true)
include h

theorem parse_render_reread : Script.parse script.render = .ok script.reread := by
  have hall := List.all_eq_true.mp h
  have hrender : script.reread.render = script.render := by
    rw [render, render, reread, List.map_map]
    exact congrArg _ (List.map_congr_left fun query hq => Query.render_reread (hall query hq))
  have hprintable : script.reread.isPrintable = true := by
    refine List.all_eq_true.mpr fun query hq => ?_
    obtain ⟨q, hmem, rfl⟩ := List.mem_map.mp hq
    exact Query.isPrintable_reread (hall q hmem)
  rw [← hrender]
  exact parse_render_script hprintable

theorem reread_eq_self_iff : script.reread = script ↔ script.wellFormed Binary64.isFinite = true := by
  have hall := List.all_eq_true.mp h
  obtain ⟨statements⟩ := script
  rw [reread, Script.mk.injEq, map_eq_self_iff, wellFormed, List.all_eq_true]
  exact forall₂_congr fun query hq => Query.reread_eq_self_iff (hall query hq)

end Script

theorem Expr.parse_render_reread {e : Expr} (h : e.wellFormed Binary64.isUnsigned = true) :
    Expr.parse e.render = .ok e.reread := by
  rw [← Expr.render_reread h]
  exact parse_render_expression (Expr.isPrintable_reread h)

/-- The digits of `10 ^ 309`, which is too large for a number. -/
def overlongDigits : List Char := '1' :: List.replicate 309 '0'

theorem overlongDigits_isDigit : ∀ c ∈ overlongDigits, c.isDigit = true := fun c hc => by
  rcases List.mem_cons.mp hc with rfl | hc
  · rfl
  · rw [List.eq_of_mem_replicate hc]
    rfl

theorem ofDecimal_overlongDigits :
    Binary64.ofDecimal false (Nat.ofDigitChars 10 overlongDigits 0) 0 = Binary64.infinity := by
  decide +kernel

/-- The canonical text of a tree that was read is read again. It gives the tree itself exactly if the
numbers of the tree are finite, and else the tree with its infinite numbers turned into names. -/
theorem reparse (text : String) :
    (∀ script, Script.parse text = .ok script →
      Script.parse script.render = .ok script.reread ∧
        (Script.parse script.render = .ok script ↔ script.wellFormed Binary64.isFinite = true)) ∧
    (∀ query, Query.parse text = .ok query →
      Query.parse query.render = .ok query.reread ∧
        (Query.parse query.render = .ok query ↔ query.wellFormed Binary64.isFinite = true)) ∧
    ∀ e, Expr.parse text = .ok e →
      Expr.parse e.render = .ok e.reread ∧
        (Expr.parse e.render = .ok e ↔ e.wellFormed Binary64.isFinite = true) := by
  refine ⟨fun script h => ?_, fun query h => ?_, fun e h => ?_⟩
  · have hw := wellFormed_of_parse_script h
    have hread := script.parse_render_reread hw
    exact ⟨hread, by rw [hread, Except.ok.injEq]; exact script.reread_eq_self_iff hw⟩
  · have hw := wellFormed_of_parse_query h
    have hread := query.parse_render_reread hw
    exact ⟨hread, by rw [hread, Except.ok.injEq]; exact query.reread_eq_self_iff hw⟩
  · have hw := wellFormed_of_parse_expression h
    have hread := e.parse_render_reread hw
    exact ⟨hread, by rw [hread, Except.ok.injEq]; exact e.reread_eq_self_iff hw⟩

/-- Too many digits are read as infinity, whose canonical text is read as a name. -/
theorem reparse_overlong : ∃ e, Expr.parse (String.ofList (overlongDigits ++ ['.'])) = .ok e ∧
    Expr.parse e.render ≠ .ok e := by
  have hend : Grammar.Ends 0 [] := ⟨by simp [EndsToken], by simp⟩
  have hread := Grammar.expression_of_digits (by decide) overlongDigits_isDigit hend
  rw [ofDecimal_overlongDigits] at hread
  have hw : (Expr.literal (.float .infinity)).wellFormed Binary64.isUnsigned = true := by decide
  have hre : (Expr.literal (.float .infinity)).reread = .path infinityName := by
    rw [Expr.reread, Literal.reread, if_neg (by decide)]
  refine ⟨.literal (.float .infinity), run_of_done ?_, ?_⟩
  · rw [String.toList_ofList]
    exact Parser.followedBy_done hread (by rfl : Parser.blanks [] = .done [] [])
  · rw [Expr.parse_render_reread hw, hre]
    intro h
    cases h

end SelectLang
