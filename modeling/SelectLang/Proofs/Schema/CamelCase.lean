/-
# Camel case in closed form

A name is made of segments, the stretches between its underscores that are not empty. In camel case the first segment
is lowered up to a place that the run of capitals at its head tells, every further segment has its first character
raised, and the underscores are gone. So a name may have underscores in front and behind, and more than one between
two segments, and they make no difference. A name of underscores only has no segment, and stays as it is.

Key definitions: `Segmented`, `loweredCount`.
Key theorems: `segmented_iff`, `lowerHead_eq`, `camelCase_segmented`.
-/
import Mathlib
import SelectLang.Proofs.Schema.Plurals

namespace SelectLang

/-! ### Segments -/

/-- The text has these segments: before, between and behind them are underscores only, and between every two at
least one. -/
inductive Segmented : List Char → List (List Char) → Prop
  | nil : Segmented [] []
  | underscore {s parts} : Segmented s parts → Segmented ('_' :: s) parts
  | last {part} : part ≠ [] → '_' ∉ part → Segmented part [part]
  | cons {part s parts} : part ≠ [] → '_' ∉ part → Segmented s parts → Segmented (part ++ '_' :: s) (part :: parts)

section

variable {s t : List Char} {parts : List (List Char)}

/-- Every text has segments, and in one way only. -/
theorem segmented_iff : Segmented s parts ↔ words s = parts := by
  constructor
  · intro h
    induction h with
    | nil => rfl
    | underscore _ ih => rw [words_underscore, ih]
    | last hne hpart => exact words_of_not_mem hne hpart
    | cons hne hpart _ ih => rw [words_append, words_of_not_mem hne hpart, ih, List.singleton_append]
  · rintro rfl
    induction hn : s.length using Nat.strong_induction_on generalizing s with
    | _ n ih =>
      subst hn
      by_cases hmem : '_' ∈ s
      · obtain ⟨part, t, rfl, hpart⟩ := List.eq_append_cons_of_mem hmem
        have ht : Segmented t (words t) := ih _ (by simp; omega) rfl
        rw [words_append]
        rcases eq_or_ne part [] with rfl | hne
        · exact .underscore ht
        · rw [words_of_not_mem hne hpart]
          exact .cons hne hpart ht
      · rcases eq_or_ne s [] with rfl | hne
        · exact .nil
        · rw [words_of_not_mem hne hmem]
          exact .last hne hmem

/-! ### Underscores -/

theorem words_replicate_append (n : ℕ) (s : List Char) : words (List.replicate n '_' ++ s) = words s := by
  induction n with
  | zero => rfl
  | succ n ih => rw [List.replicate_succ, List.cons_append, words_underscore, ih]

theorem words_eq_nil_iff : words s = [] ↔ ∀ c ∈ s, c = '_' := by
  constructor
  · intro h c hc
    by_contra hne
    obtain ⟨word, hword, -⟩ := exists_mem_words hc hne
    rw [h] at hword
    cases hword
  · intro h
    rw [List.eq_replicate_of_mem h, ← List.append_nil (List.replicate _ _), words_replicate_append]
    rfl

theorem words_append_replicate (s : List Char) : ∀ n, words (s ++ List.replicate n '_') = words s
  | 0 => by rw [List.replicate_zero, List.append_nil]
  | n + 1 => by
    rw [List.replicate_succ, words_append, words_eq_nil_iff.mpr fun c => List.eq_of_mem_replicate, List.append_nil]

/-- Names of the same segments are the same in camel case. -/
theorem camelCase_congr (h : words s = words t) (hne : words t ≠ []) :
    camelCase (String.ofList s) = camelCase (String.ofList t) := by
  obtain ⟨head, rest, hwords⟩ := List.exists_cons_of_ne_nil hne
  simp only [camelCase, String.toList_ofList, h, hwords]

end

/-! ### The first segment -/

/-- How many characters of a first segment are lowered: the capitals at its head, but if there are several and
something is behind them, all but the last of them. -/
def loweredCount (head : List Char) : ℕ :=
  let run := (head.takeWhile Unicode.isUppercase).length
  if run = 0 then 0 else if run = 1 ∨ run = head.length then run else run - 1

section

variable {run more : List Char}

theorem loweredCount_append (hrun : ∀ c ∈ run, Unicode.isUppercase c)
    (hmore : ∀ d ∈ more.head?, Unicode.isUppercase d = false) :
    loweredCount (run ++ more) = if run.length ≤ 1 ∨ more = [] then run.length else run.length - 1 := by
  have htake : (run ++ more).takeWhile Unicode.isUppercase = run := by
    rw [List.takeWhile_append_of_pos hrun]
    cases more with
    | nil => rw [List.takeWhile_nil, List.append_nil]
    | cons d more => rw [List.takeWhile_cons_of_neg (by simp [hmore d rfl]), List.append_nil]
  have hwhole : run.length = (run ++ more).length ↔ more = [] := by
    rw [List.length_append, Nat.left_eq_add, List.length_eq_zero_iff]
  simp only [loweredCount, htake, hwhole]
  by_cases hnil : more = []
  · simp only [hnil, or_true, if_true]
    split_ifs <;> omega
  · simp only [hnil, or_false]
    split_ifs <;> omega

/-- One capital is lowered whatever is behind it, and so are all where nothing is behind them. -/
theorem lowerHead_whole (hrun : ∀ c ∈ run, Unicode.isUppercase c)
    (hmore : ∀ d ∈ more.head?, Unicode.isUppercase d = false) (h : run.length ≤ 1 ∨ more = []) :
    lowerHead (run ++ more) = run.flatMap Unicode.lowercase ++ more := by
  cases more with
  | nil => rw [List.append_nil, List.append_nil, lowerHead_of_upper hrun]
  | cons d more =>
    have hd : Unicode.isUppercase d = false := hmore d rfl
    match run, h with
    | [], _ => simp [lowerHead, hd]
    | [c], _ =>
      rw [List.singleton_append, lowerHead, if_pos (hrun c List.mem_cons_self), lowerRun_of_not_upper hd,
        List.flatMap_singleton]

/-- How far the head is lowered depends on the run of capitals at its front alone. -/
theorem lowerHead_eq (head : List Char) : lowerHead head =
    (head.take (loweredCount head)).flatMap Unicode.lowercase ++ head.drop (loweredCount head) := by
  obtain ⟨run, more, rfl, hrun, hmore⟩ : ∃ run more, head = run ++ more ∧
      (∀ c ∈ run, Unicode.isUppercase c) ∧ ∀ d ∈ more.head?, Unicode.isUppercase d = false := by
    refine ⟨_, _, List.takeWhile_append_dropWhile.symm, fun c => List.mem_takeWhile_imp, fun d hd => ?_⟩
    have h := List.head?_dropWhile_not Unicode.isUppercase head
    rw [Option.mem_def.mp hd] at h
    exact h
  rw [loweredCount_append hrun hmore]
  by_cases h : run.length ≤ 1 ∨ more = []
  · rw [if_pos h, List.take_left, List.drop_left, lowerHead_whole hrun hmore h]
  · rw [if_neg h]
    obtain ⟨hlength, hne⟩ := not_or.mp h
    obtain ⟨d, more, rfl⟩ := List.exists_cons_of_ne_nil hne
    obtain ⟨front, last, rfl⟩ := List.eq_nil_or_concat' run |>.resolve_left (by rintro rfl; simp at hlength)
    have hfront : front ≠ [] := by rintro rfl; simp at hlength
    have hall : ∀ c ∈ front, Unicode.isUppercase c := fun c hc => hrun c (List.mem_append_left _ hc)
    rw [List.length_append, List.length_singleton, Nat.add_sub_cancel, List.append_assoc, List.singleton_append,
      List.take_left, List.drop_left, lowerHead_before hfront hall (hrun last (by simp)) (hmore d rfl)]

end

/-! ### Names -/

theorem capitalize_eq (part : List Char) :
    capitalize part = (part.take 1).flatMap Unicode.uppercase ++ part.drop 1 := by
  cases part with
  | nil => rfl
  | cons c rest => rw [capitalize, List.take_one, List.head?_cons, Option.toList_some, List.flatMap_singleton,
      List.drop_one, List.tail_cons]

/-- **Camel case in closed form.** A name of underscores only stays as it is. Every other name has a first segment,
which is lowered up to a place that the run of capitals at its head tells, and the characters at the front of its
further segments are raised. So it makes no difference to such a name if it has underscores in front or behind, or
more than one where it has one. -/
theorem camelCase_segmented (name : String) :
    ((∀ c ∈ name.toList, c = '_') → camelCase name = name) ∧
    ((∃ c ∈ name.toList, c ≠ '_') →
      (∃ head rest, (∀ parts, Segmented name.toList parts ↔ parts = head :: rest) ∧
        camelCase name = String.ofList (
          (head.take (loweredCount head)).flatMap Unicode.lowercase ++ head.drop (loweredCount head) ++
            rest.flatMap fun part => (part.take 1).flatMap Unicode.uppercase ++ part.drop 1)) ∧
      (∀ m n, camelCase (String.ofList (List.replicate m '_' ++ name.toList ++ List.replicate n '_')) =
        camelCase name) ∧
      ∀ s t n, name.toList = s ++ '_' :: t →
        camelCase (String.ofList (s ++ List.replicate (n + 1) '_' ++ t)) = camelCase name) := by
  refine ⟨fun h => ?_, fun ⟨c, hc, hne⟩ => ?_⟩
  · simp only [camelCase, words_eq_nil_iff.mpr h]
  · obtain ⟨word, hword, -⟩ := exists_mem_words hc hne
    have hwords : words name.toList ≠ [] := List.ne_nil_of_mem hword
    refine ⟨?_, fun m n => ?_, fun s t n hname => ?_⟩
    · obtain ⟨head, rest, hsegments⟩ := List.exists_cons_of_ne_nil hwords
      refine ⟨head, rest, fun parts => ?_, ?_⟩
      · rw [segmented_iff, hsegments, eq_comm]
      · have hrest : rest.flatMap capitalize =
            rest.flatMap fun part => (part.take 1).flatMap Unicode.uppercase ++ part.drop 1 :=
          List.flatMap_congr fun part _ => capitalize_eq part
        simp only [camelCase, hsegments, lowerHead_eq head, hrest]
    · have hsame : words (List.replicate m '_' ++ name.toList ++ List.replicate n '_') = words name.toList := by
        rw [words_append_replicate, words_replicate_append]
      rw [camelCase_congr hsame hwords, String.ofList_toList]
    · have hsame : words (s ++ List.replicate (n + 1) '_' ++ t) = words name.toList := by
        rw [List.append_assoc, List.replicate_succ, List.cons_append, words_append, words_replicate_append, hname,
          words_append]
      rw [camelCase_congr hsame hwords, String.ofList_toList]

/-- The `V` begins a further word and is kept, and the underscores are as good as one between every two segments. -/
theorem camelCase_segmented_value : camelCase "___" = "___" ∧
    (∃ c ∈ "URLValue_of_book".toList, c ≠ '_') ∧
    Segmented "URLValue_of_book".toList ["URLValue".toList, "of".toList, "book".toList] ∧
    camelCase "URLValue_of_book" = "urlValueOfBook" ∧
    camelCase "__URLValue_of_book_" = "urlValueOfBook" ∧ camelCase "URLValue___of_book" = "urlValueOfBook" := by
  have hname : ∃ c ∈ "URLValue_of_book".toList, c ≠ '_' := ⟨'U', by simp, by decide⟩
  have hsegmented : Segmented "URLValue_of_book".toList ["URLValue".toList, "of".toList, "book".toList] :=
    segmented_iff.mpr (by decide +kernel)
  obtain ⟨⟨head, rest, hsegments, hcamel⟩, hends, hgaps⟩ := (camelCase_segmented "URLValue_of_book").2 hname
  obtain ⟨rfl, rfl⟩ := List.cons.inj ((hsegments _).mp hsegmented)
  have hvalue : camelCase "URLValue_of_book" = "urlValueOfBook" := hcamel.trans (by decide +kernel)
  refine ⟨(camelCase_segmented "___").1 (by simp), hname, hsegmented, hvalue, ?_, ?_⟩
  · exact (hends 2 1).trans hvalue
  · exact (hgaps "URLValue".toList "of_book".toList 2 (by simp)).trans hvalue

end SelectLang
