/-
# What diagnostics say of their texts

A diagnostic lies between two parts of its text: its offset is the bytes of the first part, its line is told by the
newlines there and its column by the characters behind the last of them (`Diagnostic.LiesAt`). Every failure is
told so, and describes the second part, with one exception (`parse_failures`): a clause of a kind that was given
before is told at its place as if the text ended there.

Key definitions: `Diagnostic.LiesAt`, `Diagnostic.Finds`, `Diagnostic.Describes`.
Key theorems: `Diagnostic.liesAt_ofTrouble`, `Diagnostic.Finds.eq_nil`, `parse_failures`.
-/
import Mathlib
import SelectLang.Proofs.Grammar.Clauses

namespace SelectLang

open SelectLang.Parser SelectLang.Grammar

/-! ### Positions -/

namespace Position

theorem after_concat (s : List Char) (c : Char) : after (s ++ [c]) = (after s).advance c := by
  rw [after, List.foldl_append]
  rfl

/-- Lines are counted by the newlines. -/
theorem line_after (s : List Char) : (after s).line = 1 + s.count '\n' := by
  induction s using List.reverseRecOn with
  | nil => rfl
  | append_singleton s c ih =>
    rw [after_concat, List.count_append, advance]
    by_cases hc : c = '\n'
    · subst hc
      simp only [↓reduceIte, List.count_singleton_self]
      omega
    · simp only [hc, ↓reduceIte, List.count_singleton, beq_iff_eq]
      omega

/-- Columns are counted by the characters behind the last newline. -/
theorem column_after (s : List Char) : (after s).column = 1 + (s.rtakeWhile (· != '\n')).length := by
  induction s using List.reverseRecOn with
  | nil => rfl
  | append_singleton s c ih =>
    rw [after_concat, List.rtakeWhile_concat, advance]
    by_cases hc : c = '\n'
    · simp [hc]
    · simp only [hc, ↓reduceIte, bne_iff_ne, ne_eq, not_false_eq_true, List.length_append, List.length_singleton]
      omega

end Position

/-! ### Places -/

namespace Diagnostic

/-- The diagnostic lies in the text between the two parts of it. -/
structure LiesAt (d : Diagnostic) (text : String) (front rest : List Char) : Prop where
  parts : text.toList = front ++ rest
  offset : d.position.offset = (String.ofList front).utf8ByteSize
  offset_le : d.position.offset ≤ text.utf8ByteSize
  offset_eq_iff : d.position.offset = text.utf8ByteSize ↔ rest = []
  line : d.position.line = 1 + front.count '\n'
  column : d.position.column = 1 + (front.rtakeWhile (· != '\n')).length

theorem liesAt_ofTrouble {text : String} {t : Trouble} {front : List Char} (h : text.toList = front ++ t.rest) :
    (ofTrouble text.toList t).LiesAt text front t.rest := by
  have hposition : (ofTrouble text.toList t).position = Position.after front := by rw [h, position_ofTrouble]
  have hoffset : (ofTrouble text.toList t).position.offset = (String.ofList front).utf8ByteSize := by
    rw [hposition, Position.offset_after]
  have hbytes : text.utf8ByteSize = (String.ofList front).utf8ByteSize + (String.ofList t.rest).utf8ByteSize := by
    rw [← String.utf8ByteSize_append, ← String.ofList_append, ← h, String.ofList_toList]
  refine ⟨h, hoffset, by omega, ?_, ?_, ?_⟩
  · rw [hoffset, hbytes, Nat.left_eq_add, String.utf8ByteSize_eq_zero_iff, String.ofList_eq_empty_iff]
  · rw [hposition, Position.line_after]
  · rw [hposition, Position.column_after]

/-! ### Findings -/

/-- The diagnostic tells that this was found. -/
def Finds (d : Diagnostic) (found : String) : Prop :=
  d.finding = "unexpected " ++ found ∨ ∃ what, d.finding = "expected " ++ what ++ ", found " ++ found

/-- The diagnostic shows what is left of the text, and the end of the input exactly at the end of the text. -/
def Describes (d : Diagnostic) (text : String) (rest : List Char) : Prop :=
  d.Finds (shown rest) ∧ (d.Finds "end of input" ↔ d.position.offset = text.utf8ByteSize)

theorem finds_ofTrouble (text : List Char) (t : Trouble) : (ofTrouble text t).Finds (shown t.found) := by
  cases h : t.expected with
  | none => exact .inl (by simp [ofTrouble, h])
  | some what => exact .inr ⟨what, by simp [ofTrouble, h]⟩

/-- A text that is left is shown between marks, as the end of the input is not. -/
theorem getLast_shown {rest : List Char} (h : rest ≠ []) : (shown rest).toList.getLast? = some '`' := by
  cases rest with
  | nil => exact absurd rfl h
  | cons c rest =>
    unfold shown
    rw [String.toList_append]
    exact List.getLast?_concat

/-- What is found stands at the end of what is told. -/
theorem Finds.suffix {d : Diagnostic} {found : String} (h : d.Finds found) : found.toList <:+ d.finding.toList := by
  rcases h with h | ⟨what, h⟩
  · rw [h, String.toList_append]
    exact List.suffix_append _ _
  · rw [h, String.toList_append]
    exact List.suffix_append _ _

/-- Where the end of the input was found, no text that is left is shown. -/
theorem Finds.eq_nil {d : Diagnostic} {rest : List Char} (hend : d.Finds "end of input") (h : d.Finds (shown rest)) :
    rest = [] := by
  by_contra hne
  obtain ⟨lead, hlead⟩ := hend.suffix
  obtain ⟨lead', hlead'⟩ := h.suffix
  have hlast : (lead ++ "end of input".toList).getLast? = (lead' ++ (shown rest).toList).getLast? := by
    rw [hlead, hlead']
  rw [List.getLast?_append, List.getLast?_append, getLast_shown hne] at hlast
  exact absurd hlast (by simp)

theorem describes_ofTrouble {text : String} {t : Trouble} (h : t.LiesIn text.toList) :
    (ofTrouble text.toList t).Describes text t.rest := by
  obtain ⟨front, hfront⟩ := h.rest
  have hlies := liesAt_ofTrouble hfront.symm
  have hfinds : (ofTrouble text.toList t).Finds (shown t.rest) := h.found ▸ finds_ofTrouble text.toList t
  refine ⟨hfinds, fun hend => hlies.offset_eq_iff.mpr (hend.eq_nil hfinds), fun hoffset => ?_⟩
  rwa [hlies.offset_eq_iff.mp hoffset] at hfinds

/-- The refusal of a clause that was given before does not describe the clause. -/
theorem finds_again (text start : List Char) : (ofTrouble text (again start)).Finds "end of input" :=
  finds_ofTrouble text (again start)

end Diagnostic

/-! ### Failures -/

/-- A text that is not read as a whole fails by its parser, or at what is left behind the blanks. -/
theorem trouble_of_run {α : Type} {p : Parser α} {text : String} {d : Diagnostic}
    (hp : ∀ {a r}, p text.toList = .done a r → r <:+ text.toList) (h : (p.followedBy blanks).run text = .error d) :
    ∃ t, ((p text.toList).Fails t ∨ t.LiesIn text.toList) ∧ d = .ofTrouble text.toList t := by
  rw [run, whole] at h
  cases hreply : p text.toList with
  | done a r =>
    have hblanks : (p.followedBy blanks) text.toList = .done a (r.dropWhile isBlank) := followedBy_done hreply rfl
    rw [hblanks] at h
    cases hrest : r.dropWhile isBlank with
    | nil =>
      rw [hrest] at h
      cases h
    | cons c behind =>
      rw [hrest] at h
      cases h
      have hsuffix : c :: behind <:+ text.toList := hrest ▸ (List.dropWhile_suffix isBlank).trans (hp hreply)
      exact ⟨.before (c :: behind), .inr ((Trouble.liesIn_before _).extend hsuffix), rfl⟩
  | miss t =>
    rw [followedBy, bind_apply, hreply] at h
    cases h
    exact ⟨t, .inl (.inl rfl), rfl⟩
  | stop t =>
    rw [followedBy, bind_apply, hreply] at h
    cases h
    exact ⟨t, .inl (.inr rfl), rfl⟩

/-- What is told of a failure, if `refused` has the places of the clauses that are refused as given before. -/
theorem describes_iff {text : String} {d : Diagnostic} {t : Trouble} {refused : List Char → Prop}
    (hrefused : ∀ {start}, refused start →
      (start <:+ text.toList ∧ start ≠ []) ∧ d = .ofTrouble text.toList (again start))
    (ht : t.LiesIn text.toList ∨ ∃ start, refused start ∧ t = again start) (hd : d = .ofTrouble text.toList t) :
    ∃ front rest, d.LiesAt text front rest ∧ (d.Describes text rest ↔ ¬ refused rest) ∧
      (refused rest → d.Finds "end of input") := by
  have hrest : t.rest <:+ text.toList := by
    rcases ht with ht | ⟨start, hstart, rfl⟩
    · exact ht.rest
    · exact (hrefused hstart).1.1
  have hend : refused t.rest → d.Finds "end of input" := fun h => (hrefused h).2 ▸ Diagnostic.finds_again _ _
  obtain ⟨front, hfront⟩ := hrest
  refine ⟨front, t.rest, hd ▸ Diagnostic.liesAt_ofTrouble hfront.symm, ⟨fun hdescribes h => ?_, fun h => ?_⟩, hend⟩
  · exact (hrefused h).1.2 ((hend h).eq_nil hdescribes.1)
  · rcases ht with ht | ⟨start, hstart, rfl⟩
    · exact hd ▸ Diagnostic.describes_ofTrouble ht
    · exact absurd hstart h

theorem query_of_repeats {text : String} {start : List Char} (h : RepeatsClause text.toList start) :
    Query.parse text = .error (.ofTrouble text.toList (again start)) := by
  rw [Query.parse, Parser.run, whole, followedBy, bind_apply, statement_of_repeats h]

/-- Every failure lies in its text, at a place told by bytes, line and column, and describes what is left there,
except that a clause of a kind that was given before is told as the end of the input. -/
theorem parse_failures (text : String) :
    (∀ d, Expr.parse text = .error d → ∃ front rest, d.LiesAt text front rest ∧ d.Describes text rest) ∧
    (∀ d, Query.parse text = .error d → ∃ front rest, d.LiesAt text front rest ∧
      (d.Describes text rest ↔ ¬ RepeatsClause text.toList rest) ∧
      (RepeatsClause text.toList rest → d.Finds "end of input")) ∧
    ∀ d, Script.parse text = .error d → ∃ front rest, d.LiesAt text front rest ∧
      (d.Describes text rest ↔ ¬ RepeatsLater text.toList rest) ∧
      (RepeatsLater text.toList rest → d.Finds "end of input") := by
  refine ⟨fun d hd => ?_, fun d hd => ?_, fun d hd => ?_⟩
  · obtain ⟨t, ht, rfl⟩ := trouble_of_run tells_expression.suffix_of_done hd
    have hlies : t.LiesIn text.toList := ht.elim tells_expression.of_fails id
    obtain ⟨front, hfront⟩ := hlies.rest
    exact ⟨front, t.rest, Diagnostic.liesAt_ofTrouble hfront.symm, Diagnostic.describes_ofTrouble hlies⟩
  · obtain ⟨t, ht, hdt⟩ := trouble_of_run suffix_of_statement hd
    refine describes_iff (fun h => ⟨h.suffix, ?_⟩) (ht.elim fails_of_statement .inl) hdt
    exact Except.error.inj (hd.symm.trans (query_of_repeats h))
  · obtain ⟨t, ht, hdt⟩ := Script.parse_eq_error.mp hd
    refine describes_iff (fun h => ⟨h.suffix, ?_⟩) (fails_of_script ht) hdt
    exact Except.error.inj (hd.symm.trans (Script.parse_eq_error.mpr ⟨_, .inr (script_of_repeats h), rfl⟩))

/-- A limit that is given again is told, seven bytes before the end of the text, as the end of the input. -/
theorem parse_limit_again : ∃ d, Query.parse "select * from b limit 1 limit 2" = .error d ∧
    d.finding = "expected clause that was not given before, found end of input" ∧ d.position = ⟨1, 25, 24⟩ ∧
    ¬ ∃ front rest, d.LiesAt "select * from b limit 1 limit 2" front rest ∧
      d.Describes "select * from b limit 1 limit 2" rest := by
  have hsource : NamePath.isProper ⟨["b"]⟩ = true := by decide
  have hselect := head_of_expression expression_star rfl hsource
  have htext : "select".toList ++ ' ' :: (['*'] ++ ' ' :: ("from".toList ++ ' ' :: (NamePath.dotted ⟨["b"]⟩).toList)) =
      "select * from b".toList := by decide
  rw [htext] at hselect
  have hhead : (head.followedBy blanks).run "select * from b" =
      .ok (none, [.expression (.wildcard 1) none], ⟨["b"]⟩) := run_blanks_eq_ok.mpr ⟨[], hselect, rfl⟩
  have hgap : IsGap " ".toList := ⟨by simp, by simp [isBlank]⟩
  have hparse := parse_written hhead [⟨" ", "limit 1", .limit 1, hgap, rfl⟩, ⟨" ", "limit 2", .limit 2, hgap, rfl⟩]
  have hd : Query.parse "select * from b limit 1 limit 2" =
      .error (.ofTrouble "select * from b limit 1 limit 2".toList (again "limit 2".toList)) := hparse
  have hposition : (Diagnostic.ofTrouble "select * from b limit 1 limit 2".toList (again "limit 2".toList)).position =
      ⟨1, 25, 24⟩ := by decide
  refine ⟨_, hd, rfl, hposition, ?_⟩
  rintro ⟨front, rest, hlies, hdescribes⟩
  have hnil : rest = [] := (Diagnostic.finds_again _ _).eq_nil hdescribes.1
  have hoffset := hlies.offset_eq_iff.mpr hnil
  rw [hposition] at hoffset
  exact absurd hoffset (by decide)

end SelectLang
