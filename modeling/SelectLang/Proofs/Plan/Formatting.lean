/-
# Formatting and plans

Texts that differ in their formatting only are texts of queries that mean the same, so they have one key in
the cache of plans, over every source, and one plan or one error (`Query.parse_edited`).

Key theorems: `Query.parse_edited`.
-/
import Mathlib
import SelectLang.Plan.Cache
import SelectLang.Proofs.Grammar.Edits
import SelectLang.Proofs.Plan.Compiling

namespace SelectLang

open SelectLang.Parser SelectLang.Grammar

/-- **Formatting makes no other plan.** From the text of a query any number of edits to its formatting leads to
the text of a query that has the same key, over every source, and the same plan or the same error. -/
theorem Query.parse_edited {text text' : String} {query : Query} (h : Query.parse text = .ok query)
    (hedits : Relation.ReflTransGen Edit text.toList text'.toList) : ∃ query', Query.parse text' = .ok query' ∧
      ∀ source, PlanKey.of source query' = PlanKey.of source query ∧
        query'.compile source = query.compile source := by
  obtain ⟨query', hquery', hsame⟩ := spells_of_edits hedits (parse_eq_ok_iff.mp h)
  refine ⟨query', parse_eq_ok_iff.mpr hquery', fun source => ⟨?_, ?_⟩⟩
  · rw [PlanKey.of, PlanKey.of, hsame]
  · rw [← Query.compile_normalized query', hsame, Query.compile_normalized]

/-- An item named in the other way, a line break, a word in capitals, and no semicolon. -/
theorem parse_edited_items : ∃ query query', Query.parse "select n as m from s;" = .ok query ∧
    Relation.ReflTransGen Edit "select n as m from s;".toList "SELECT\n\tm = n  from s".toList ∧
    Query.parse "SELECT\n\tm = n  from s" = .ok query' ∧
    ∀ source, PlanKey.of source query' = PlanKey.of source query ∧
      query'.compile source = query.compile source := by
  have hread := parse_render_query (by decide : Query.isPrintable
    ⟨⟨["s"]⟩, [.expression (.path ⟨["n"]⟩) (some ⟨["m"]⟩)], .all, [], none, none, none⟩ = true)
  have hparse : Query.parse "select n as m from s;" =
      .ok ⟨⟨["s"]⟩, [.expression (.path ⟨["n"]⟩) (some ⟨["m"]⟩)], .all, [], none, none, none⟩ := hread
  have hproper : NamePath.isProper ⟨["n"]⟩ = true ∧ NamePath.isProper ⟨["m"]⟩ = true := ⟨by decide, by decide⟩
  have hselect : lexeme (keyword "select") ("select".toList ++ ' ' :: "n as m from s;".toList) =
      .done "select".toList (' ' :: "n as m from s;".toList) := by
    rw [lexeme_apply, solid_word (by decide) (by decide), keyword_text_done (by decide) (endsWord_blank _)]
  have htop : (lexeme topModifier).Misses (' ' :: "n as m from s;".toList) :=
    misses_topModifier (by decide : ∀ word ∈ ["first", "last", "one", "top", "at"],
      (wordOf "n as m from s;".toList).map Char.toLower ≠ word.toList)
  have hitem : AtomAt ("select ".toList ++ "n as m from s;".toList) "n as m from s;".toList :=
    .first hselect (optional_of_misses htop)
  have hvalue : expression ("n".toList ++ ' ' :: ("as".toList ++ " m from s;".toList)) =
      .done (.path ⟨["n"]⟩) (' ' :: ("as".toList ++ " m from s;".toList)) :=
    expression_done (readsBack_path hproper.1) (ends_word (by decide) (by decide) " m from s;".toList)
  have has : lexeme (keyword "as") (' ' :: ("as".toList ++ " m from s;".toList)) =
      .done "as".toList " m from s;".toList :=
    lexeme_keyword_done (by decide) (by decide) (endsWord_blank "m from s;".toList)
  have hname : namePath ("m".toList ++ " from s;".toList) = .done ⟨["m"]⟩ " from s;".toList :=
    namePath_done hproper.2 (endsToken_blank "from s;".toList)
  have hturned : Edit ("select ".toList ++ "n as m from s;".toList) ("select ".toList ++ " m = n  from s;".toList) :=
    .turned hitem (.assigned hvalue has rfl hname)
  have hblanks : Edit ("select".toList ++ ("  ".toList ++ "m = n  from s;".toList))
      ("select".toList ++ ("\n\t".toList ++ "m = n  from s;".toList)) :=
    .blanks rfl ⟨by simp, by simp [isBlank]⟩ ⟨by simp, by simp [isBlank]⟩
  have hletters : Edit ([] ++ ("select".toList ++ "\n\tm = n  from s;".toList))
      ([] ++ ("SELECT".toList ++ "\n\tm = n  from s;".toList)) :=
    .letters rfl (by simp) (fun c hc => by cases hc; decide) (by decide) (by decide)
  have hopened : Edit ("SELECT\n\tm = n  from s".toList ++ [';']) ("SELECT\n\tm = n  from s".toList ++ []) :=
    .opened rfl (by simp)
  have hedits : Relation.ReflTransGen Edit "select n as m from s;".toList "SELECT\n\tm = n  from s".toList :=
    .head hturned (.head hblanks (.head hletters (.single hopened)))
  obtain ⟨query', hparse', hsame⟩ := Query.parse_edited hparse hedits
  exact ⟨_, query', hparse, hedits, hparse', hsame⟩

end SelectLang
