/-
# The texts that stand for themselves

A query may be read by itself or as a script of one query, and an expression by itself, as the only item of a
selection or as the only term of an ordering. The rules are the same, only what surrounds them is not: behind
an expression comes the source or the end of the text, neither of which it can take up, and before it neither a
top modifier nor an assignment is read that is none.

Key theorems: `script_of_query`, `head_of_expression`, `clause_of_expression`, `entries_agree`.
-/
import Mathlib
import SelectLang.Proofs.Grammar.Scripts

namespace SelectLang

open SelectLang.Parser SelectLang.Grammar

/-! ### Queries -/

theorem Script.parse_eq_ok_iff {text : String} {queries : List Query} : Script.parse text = .ok ⟨queries⟩ ↔
    ∃ m, many statement text.toList = .done queries m ∧ m.dropWhile isBlank = [] := by
  constructor
  · exact fun h => (script_eq_done.mp (done_of_run h)).2
  · exact fun h => run_of_done (script_eq_done.mpr ⟨rfl, h⟩)

/-- A text is a query if it is the script of this query alone. -/
theorem script_of_query (text : String) (query : Query) :
    Query.parse text = .ok query ↔ Script.parse text = .ok ⟨[query]⟩ := by
  rw [Query.parse, run_blanks_eq_ok, Script.parse_eq_ok_iff]
  constructor
  · rintro ⟨r, hquery, hr⟩
    have hend : statement.Misses r := by
      rw [Misses, ← skipsBlanks_statement, hr]
      exact misses_statement_of_end
    exact ⟨r, many_step hquery (consumes_statement.length_le hquery) (many_of_misses hend), hr⟩
  · rintro ⟨m, hmany, hm⟩
    rcases many_eq_done hmany with ⟨h0, -⟩ | ⟨q, r, rest, hquery, -, hrest, heq⟩
    · cases h0
    · cases heq
      rcases many_eq_done hrest with ⟨-, rfl, -⟩ | ⟨_, _, _, -, -, -, h0⟩
      · exact ⟨_, hquery, hm⟩
      · cases h0

/-! ### Expressions -/

namespace Grammar

theorem endsItem_of_blank {r : List Char} (h : r.dropWhile isBlank = []) : EndsItem r := by
  have hblank := List.dropWhile_eq_nil_iff.mp h
  refine ⟨⟨fun c hc => ?_, by simp [h]⟩, by simp [h], by rw [h]; decide⟩
  have hc := hblank c (List.mem_of_mem_head? hc)
  simp only [isBlank, Bool.or_eq_true, beq_iff_eq] at hc
  rcases hc with ((rfl | rfl) | rfl) | rfl <;> decide

theorem idle_of_blanks {r : List Char} (h : r.dropWhile isBlank = []) : Idle 0 (r.dropWhile isBlank) := by
  rw [h]
  exact (idleClause_of_mark (by simp)).toIdle

section Expressions

variable {t r : List Char} {e : Expr} (h : expression t = .done e r) (hr : r.dropWhile isBlank = [])
include h hr

/-- An expression before a source is a selection of it alone. -/
theorem listing_of_expression {source : NamePath} (hsource : source.isProper = true) :
    listing (t ++ ' ' :: ("from".toList ++ ' ' :: source.dotted.toList)) = .done ([.expression e none], source) [] := by
  obtain ⟨u, rfl, -⟩ := consumes_expression _ _ _ h
  set behind := "from".toList ++ ' ' :: source.dotted.toList with hbehind
  have hsolid : behind.dropWhile isBlank = behind := solid_word (by decide) (by decide) _
  have hword : (wordOf behind).map Char.toLower = "from".toList := by
    rw [wordOf_keyword (by decide) (endsWord_blank _), toLower_keyword (by decide)]
  have hdrop : (r ++ ' ' :: behind).dropWhile isBlank = behind := by
    rw [dropWhile_append_of_blank hr, List.dropWhile_cons_of_pos rfl, hsolid]
  have hends : EndsWord r → EndsWord (r ++ ' ' :: behind) := fun hr => by
    cases r with
    | nil => exact endsWord_blank _
    | cons c r => exact hr
  obtain ⟨y, hy, hrest⟩ := expression_elsewhere h (r ++ ' ' :: behind) hends (idle_of_blanks hr)
    (by rw [hdrop]; exact idle_of_word (by decide) (by decide) hword 0)
  rw [hdrop] at hrest
  have hno : ∀ {c : Char}, isNameChar c = false → c ∉ (y.dropWhile isBlank).head? := fun hc => by
    rw [hrest]
    exact mark_not_mem_head (by decide) hword hc
  have has : (lexeme (keyword "as")).Misses y := by
    rw [Misses, lexeme_apply, hrest]
    exact misses_keyword (by decide) (by rw [hword]; decide)
  have hatom : atom (u ++ r ++ ' ' :: behind) = .done (.expression e none) y := by
    rw [List.append_assoc]
    refine firstOf_cons_of_misses (misses_separatedPair (misses_assignment hy (hno (by decide)))).bind ?_
    rw [firstOf_single, bind_done hy, bind_done (optional_of_misses (has.after _)), pure_apply]
  have hatoms := separated1_done hatom (separatedTail_of_misses (misses_symbol (c := ',') (hno (by decide))))
  have hfrom : lexeme (keyword "from") y = .done "from".toList (' ' :: source.dotted.toList) := by
    rw [lexeme_apply, hrest]
    exact keyword_text_done (by decide) (endsWord_blank _)
  have hname := lexeme_namePath_done hsource (by simp [EndsToken] : EndsToken [])
  rw [List.append_nil] at hname
  rw [listing, bind_done hatoms, bind_done hfrom, bind_done hname, pure_apply]

/-- An expression between `select` and a source is a head of it alone. -/
theorem head_of_expression {source : NamePath} (hsource : source.isProper = true) :
    head ("select".toList ++ ' ' :: (t ++ ' ' :: ("from".toList ++ ' ' :: source.dotted.toList))) =
      .done (none, [.expression e none], source) [] := by
  have hlisting := listing_of_expression h hr hsource
  set items := t ++ ' ' :: ("from".toList ++ ' ' :: source.dotted.toList)
  obtain ⟨_, _, hatoms, -⟩ := bind_eq_done hlisting
  obtain ⟨a, _, _, hatom, -⟩ := separated1_eq_done hatoms
  have hselect : lexeme (keyword "select") ("select".toList ++ ' ' :: items) = .done "select".toList (' ' :: items) := by
    rw [lexeme_apply, solid_word (by decide) (by decide)]
    exact keyword_text_done (by decide) (endsWord_blank _)
  have hlead := optional_of_misses
    (misses_topModifier_of_atom ((skipsBlanks_atom.cons (c := ' ') rfl _).trans hatom))
  have hskip : SkipsBlanks listing := skipsBlanks_items.bind _
  refine (after_done hselect).trans ?_
  rw [bind_done hlead, bind_done ((hskip.cons rfl _).trans hlisting), pure_apply]

/-- An expression behind `order by` is an ordering of it alone. -/
theorem clause_of_expression : clause ("order".toList ++ ' ' :: ("by".toList ++ ' ' :: t)) =
    .done (.order [⟨e, .ascending⟩]) r := by
  have hends := endsItem_of_blank hr
  have hterm : sortTerm (' ' :: t) = .done ⟨e, .ascending⟩ r := by
    rw [sortTerm, bind_done ((skipsBlanks_expression.cons rfl t).trans h),
      bind_done (optional_of_misses (misses_direction hends)), pure_apply]
    rfl
  have hterms := separated1_done hterm (separatedTail_of_misses (misses_symbol (c := ',') (by simp [hr])))
  exact firstOf_cons_done (bind_done (after_commit_done
    (keywords_done (by decide) (by decide) (by decide) (endsWord_blank _)) hterms))

end Expressions

/-- Every row of stars is an expression of the text that has it alone. -/
theorem expression_star : expression ['*'] = .done (.wildcard 1) [] := by
  have hend : Ends 0 [] := ⟨by simp [EndsToken], by simp⟩
  exact expression_done (readsBack_wildcard (Nat.le_refl 1)) hend

end Grammar

/-- A text is read alike wherever it may stand. -/
theorem entries_agree (text : String) :
    (∀ query, Query.parse text = .ok query ↔ Script.parse text = .ok ⟨[query]⟩) ∧
    ∀ e, Expr.parse text = .ok e → ∀ source : NamePath, source.isProper = true →
      Query.parse ("select " ++ text ++ " from " ++ source.dotted) =
        .ok ⟨source, [.expression e none], .all, [], none, none, none⟩ ∧
      Query.parse ("select * from " ++ source.dotted ++ " order by " ++ text) =
        .ok ⟨source, [.expression (.wildcard 1) none], .all, [⟨e, .ascending⟩], none, none, none⟩ := by
  refine ⟨script_of_query text, fun e he source hsource => ?_⟩
  obtain ⟨r, hvalue, hr⟩ := run_blanks_eq_ok.mp he
  have hselection : ("select " ++ text ++ " from " ++ source.dotted).toList =
      "select".toList ++ ' ' :: (text.toList ++ ' ' :: ("from".toList ++ ' ' :: source.dotted.toList)) := by simp
  have hhead := head_of_expression hvalue hr hsource
  rw [← hselection] at hhead
  refine ⟨(parse_of_clauses hhead (placedClauses_of_misses misses_clause_of_end) rfl).trans rfl, ?_⟩
  have hclause := clause_of_expression hvalue hr
  set order := "order".toList ++ ' ' :: ("by".toList ++ ' ' :: text.toList) with horder
  have hdrop : (' ' :: order).dropWhile isBlank = order := by
    rw [List.dropWhile_cons_of_pos rfl, solid_of_clause hclause]
  have hgap : IsGap [' '] := ⟨by simp, by simp [isBlank]⟩
  have hexchange : Exchange [] (' ' :: order) := by
    refine ⟨begins_gap hgap order [], (endsOpen_of_blank rfl).idle, ?_⟩
    rw [hdrop]
    exact idleList_of_clause hclause
  have hstar := head_of_expression expression_star rfl hsource
  rw [← List.append_nil (_ ++ _)] at hstar
  obtain ⟨y, hy, hrest⟩ := head_elsewhere hstar hexchange
  have hordering : ("select * from " ++ source.dotted ++ " order by " ++ text).toList = "select".toList ++
      ' ' :: (['*'] ++ ' ' :: ("from".toList ++ ' ' :: source.dotted.toList)) ++ ' ' :: order := by simp [horder]
  rw [← hordering] at hy
  have hlast : placedClauses r = .done [] r := placedClauses_of_misses (by rw [hr]; exact misses_clause_of_end)
  exact (parse_of_clauses hy (placedClauses_step (by rw [hrest, hdrop]; exact hclause) hlast) hr).trans rfl

/-- The row of one star stands for itself. -/
theorem entries_agree_star : Expr.parse "*" = .ok (.wildcard 1) ∧ NamePath.isProper ⟨["b"]⟩ = true ∧
    Query.parse ("select " ++ "*" ++ " from " ++ NamePath.dotted ⟨["b"]⟩) =
      .ok ⟨⟨["b"]⟩, [.expression (.wildcard 1) none], .all, [], none, none, none⟩ := by
  have hstar : Expr.parse "*" = .ok (.wildcard 1) := run_blanks_eq_ok.mpr ⟨[], expression_star, rfl⟩
  have hproper : NamePath.isProper ⟨["b"]⟩ = true := by decide
  exact ⟨hstar, hproper, ((entries_agree "*").2 _ hstar _ hproper).1⟩

end SelectLang
