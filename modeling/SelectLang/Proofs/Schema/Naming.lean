/-
# The name that a getter serves

A member that is called `get`, a name and an `s` serves the camel case of the name with the `s`. Of a
text that ends in `s` nothing is taken for an ending, and the one underscore that may stand behind
`get` makes no difference in camel case. If the name has a line break the member serves nothing.

Key theorems: `stem_eq_self`, `candidateName?_getter`.
-/
import Mathlib
import SelectLang.Schema.Naming

namespace SelectLang

/-! ### Words -/

/-- A character that is no underscore is in some word. -/
theorem exists_mem_words {s : List Char} {c : Char} (hc : c ∈ s) (hne : c ≠ '_') :
    ∃ word ∈ words s, c ∈ word := by
  have hpiece : ∃ piece ∈ s.splitOn '_', c ∈ piece := by
    induction s with
    | nil => cases hc
    | cons d s ih =>
      rw [List.splitOn_cons_eq_if_modifyHead]
      obtain ⟨head, tail, hsplit⟩ := List.exists_cons_of_ne_nil (List.splitOn_ne_nil '_' s)
      rw [hsplit] at ih ⊢
      rcases List.mem_cons.mp hc with rfl | hc
      · rw [if_neg (by simpa using hne), List.modifyHead_cons]
        exact ⟨_, List.mem_cons_self, List.mem_cons_self⟩
      · obtain ⟨piece, hmem, hin⟩ := ih hc
        split
        · exact ⟨piece, List.mem_cons_of_mem _ hmem, hin⟩
        · rw [List.modifyHead_cons]
          rcases List.mem_cons.mp hmem with rfl | hmem
          · exact ⟨_, List.mem_cons_self, List.mem_cons_of_mem d hin⟩
          · exact ⟨piece, List.mem_cons_of_mem _ hmem, hin⟩
  obtain ⟨piece, hmem, hin⟩ := hpiece
  refine ⟨piece, List.mem_filter.mpr ⟨hmem, ?_⟩, hin⟩
  cases piece with
  | nil => cases hin
  | cons => rfl

theorem words_underscore (s : List Char) : words ('_' :: s) = words s := by
  rw [words, words, List.splitOn_cons_eq_if_modifyHead, if_pos (by rfl), List.filter_cons_of_neg (by simp)]

/-- Words split at an underscore. -/
theorem words_append (s t : List Char) : words (s ++ '_' :: t) = words s ++ words t := by
  simp only [words, List.splitOn_eq_splitOnP]
  rw [List.splitOnP_append_cons s t (by rfl), List.filter_append]

/-- What has no underscore is one word. -/
theorem words_of_not_mem {s : List Char} (hne : s ≠ []) (h : '_' ∉ s) : words s = [s] := by
  rw [words, List.splitOn_eq_singleton h, List.filter_cons_of_pos (by simpa using hne), List.filter_nil]

/-- A leading underscore is nothing to camel case, if not all is underscores. -/
theorem camelCase_underscore {s : List Char} (h : words s ≠ []) :
    camelCase (String.ofList ('_' :: s)) = camelCase (String.ofList s) := by
  obtain ⟨head, rest, hwords⟩ := List.exists_cons_of_ne_nil h
  simp only [camelCase, String.toList_ofList, words_underscore, hwords]

/-! ### Stems -/

theorem getLast?_ne_of_async {s : List Char} (h : isWord "async" s = true) : s.getLast? ≠ some 's' := by
  simp only [isWord, Bool.and_eq_true, beq_iff_eq] at h
  obtain ⟨hlength, hletters⟩ := h
  obtain ⟨a, b, c, d, e, rfl⟩ : ∃ a b c d e, s = [a, b, c, d, e] := by
    match s, hlength with
    | [a, b, c, d, e], _ => exact ⟨a, b, c, d, e, rfl⟩
  intro h
  obtain rfl : e = 's' := by simpa using h
  have hc : isLetter 'c' 's' = true := by simpa using (List.all_eq_true.mp hletters) ('c', 's') (by simp)
  exact absurd hc (by decide)

theorem isMemberEnding_eq_false {s : List Char} (h : s.getLast? = some 's') : isMemberEnding s = false := by
  rw [Bool.eq_false_iff]
  intro hend
  unfold isMemberEnding at hend
  split at hend
  · cases h
  · rename_i rest
    rw [Bool.or_eq_true, List.isEmpty_iff] at hend
    rcases hend with rfl | hend
    · cases h
    · cases rest with
      | nil => cases h
      | cons c rest => exact getLast?_ne_of_async hend (by rwa [List.getLast?_cons_cons] at h)
  · exact getLast?_ne_of_async hend h

/-- What ends in `s` is its own stem. -/
theorem stem_eq_self : ∀ {s : List Char}, s.getLast? = some 's' → stem s = s
  | [], _ => rfl
  | [c], _ => rfl
  | c :: d :: rest, h => by
    rw [List.getLast?_cons_cons] at h
    rw [stem, isMemberEnding_eq_false h, if_neg Bool.false_ne_true, stem_eq_self h]

/-! ### Getters -/

/-- What a getter serves: the camel case of the name with an `s` behind it. -/
theorem candidateName?_getter (name : String) : candidateName? ("get" ++ name ++ "s") =
    if '\n' ∈ name.toList then none else some (camelCase (name ++ "s")) := by
  obtain ⟨rest, hrest⟩ : ∃ rest, rest = name.toList ++ ['s'] := ⟨_, rfl⟩
  have htext : ("get" ++ name ++ "s").toList = 'g' :: 'e' :: 't' :: rest := by
    simp [hrest]
  have hname : name ++ "s" = String.ofList rest := by
    rw [hrest, ← String.toList_inj]
    simp
  have hlast : ∀ {c t}, rest = c :: t → t ≠ [] → t.getLast? = some 's' := fun h hne => by
    have hr : rest.getLast? = some 's' := by simp [hrest]
    rwa [h, List.getLast?_cons_of_ne_nil hne] at hr
  have hline : rest.contains '\n' = decide ('\n' ∈ name.toList) := by
    simp [hrest]
  have hget : isWord "get" ['g', 'e', 't'] = true := by decide
  have hne : rest.isEmpty = false := by simp [hrest]
  simp only [candidateName?, htext, List.drop_succ_cons, List.drop_zero, List.take_succ_cons,
    List.take_zero, hget, hne, hline, Bool.not_false, Bool.true_and]
  by_cases hn : '\n' ∈ name.toList
  · simp [hn]
  · simp only [hn, decide_false, Bool.not_false, if_true, if_false, Option.some.injEq, hname]
    split
    · rename_i c more
      have hmore : (c :: more).getLast? = some 's' := hlast rfl (List.cons_ne_nil c more)
      obtain ⟨word, hword, -⟩ := exists_mem_words (List.mem_of_getLast? hmore) (by decide)
      rw [stem_eq_self hmore, camelCase_underscore (List.ne_nil_of_mem hword)]
    · rw [stem_eq_self (by simp [hrest])]

end SelectLang
