/-
# Spellings

Two texts are the same tokens in two spellings if they can be cut into blanks, digits, words, strings and
marks side by side, where a run of blanks stands against another run and a reserved word against itself in
other cases (`SameTokens`). A word is cut out as a whole, digits one by one. The relation counts the open
parentheses and leaves the ends of the texts to a relation of its own, since it is used for texts that go on
differently. The small parsers read two spellings in step as soon as they do so at the ends.

Key definitions: `SameTokens`.
Key theorems: `reads_identifier`, `passes_keyword`, `reads_char`, `reads_quoted`, `reads_digits`.
-/
import Mathlib
import SelectLang.Proofs.Grammar.Lockstep
import SelectLang.Proofs.Grammar.Tokens

namespace SelectLang

open SelectLang.Parser

/-! ### Tokens -/

/-- At least one blank, and nothing but blanks. -/
def IsGap (run : List Char) : Prop := run ≠ [] ∧ ∀ c ∈ run, isBlank c = true

def isQuote (c : Char) : Bool := c == '\'' || c == '"'

/-- A character that is a token by itself and no parenthesis. -/
structure IsMark (c : Char) : Prop where
  word : isNameChar c = false
  blank : isBlank c = false
  quote : isQuote c = false
  parenthesis : c ≠ '(' ∧ c ≠ ')'

/-- A word of name characters that does not begin with a digit, or a reserved word in two cases. -/
inductive SameWord : List Char → List Char → Prop where
  | name {w : List Char} (front : ∃ c ∈ w.head?, c.isDigit = false) (all : ∀ c ∈ w, isNameChar c = true) :
      SameWord w w
  | reserved {w w' : List Char} (reserved : isReserved (String.ofList w) = true)
      (same : w.map Char.toLower = w'.map Char.toLower) : SameWord w w'

/-- The texts are the same tokens up to ends that `E` relates, where `d` parentheses are open. -/
inductive SameTokens (E : ℕ → List Char → List Char → Prop) : ℕ → List Char → List Char → Prop where
  | tail {d : ℕ} {s t : List Char} (h : E d s t) : SameTokens E d s t
  | gap {d : ℕ} {run run' s t : List Char} (hrun : IsGap run) (hrun' : IsGap run') (h : SameTokens E d s t) :
      SameTokens E d (run ++ s) (run' ++ t)
  | digit {d : ℕ} {c : Char} {s t : List Char} (hc : c.isDigit = true) (h : SameTokens E d s t) :
      SameTokens E d (c :: s) (c :: t)
  | word {d : ℕ} {w w' s t : List Char} (hw : SameWord w w') (hs : EndsWord s) (ht : EndsWord t)
      (h : SameTokens E d s t) : SameTokens E d (w ++ s) (w' ++ t)
  | quoted {d : ℕ} {q : Char} {body s t : List Char} (hq : isQuote q = true) (hbody : q ∉ body)
      (h : SameTokens E d s t) : SameTokens E d (q :: (body ++ q :: s)) (q :: (body ++ q :: t))
  | mark {d : ℕ} {c : Char} {s t : List Char} (hc : IsMark c) (h : SameTokens E d s t) :
      SameTokens E d (c :: s) (c :: t)
  | opening {d : ℕ} {s t : List Char} (h : SameTokens E (d + 1) s t) : SameTokens E d ('(' :: s) ('(' :: t)
  | closing {d : ℕ} {s t : List Char} (h : SameTokens E (d - 1) s t) : SameTokens E d (')' :: s) (')' :: t)

/-! ### Words -/

theorem reserved_letters : ∀ word ∈ reservedWords, word.toList.all isKeywordLetter = true ∧ word.toList ≠ [] := by
  decide

theorem exists_reserved {w : List Char} (h : isReserved (String.ofList w) = true) :
    ∃ word ∈ reservedWords, w.map Char.toLower = word.toList := by
  simp only [isReserved, List.any_eq_true, beq_iff_eq, String.toList_ofList] at h
  obtain ⟨word, hmem, hword⟩ := h
  exact ⟨word, hmem, hword.symm⟩

theorem not_isDigit_of_toLower {c k : Char} (hk : isKeywordLetter k = true) (h : c.toLower = k) :
    c.isDigit = false := by
  by_contra hd
  rw [Bool.not_eq_false] at hd
  have hn := toNat_of_isDigit hd
  have hl := isKeywordLetter_toNat hk
  have hlow : c.toLower = c := Char.toLower_eq_of_not_isUpper (by
    have h0 : c.toNat = c.val.toNat := rfl
    simp only [Char.isUpper, UInt32.le_iff_toNat_le]
    simp
    omega)
  rw [← h, hlow] at hl
  omega

/-- What is a word of letters in lower case is a name that begins with no digit. -/
theorem name_of_toLower {w word : List Char} (hletters : word.all isKeywordLetter = true) (hne : word ≠ [])
    (h : w.map Char.toLower = word) :
    (∃ c ∈ w.head?, c.isDigit = false) ∧ ∀ c ∈ w, isNameChar c = true := by
  have hall : ∀ c ∈ w, isKeywordLetter c.toLower = true := fun c hc =>
    List.all_eq_true.mp hletters _ (h ▸ List.mem_map_of_mem hc)
  refine ⟨?_, fun c hc => isNameChar_of_toLower (hall c hc) rfl⟩
  cases w with
  | nil => exact absurd h.symm hne
  | cons c w => exact ⟨c, rfl, not_isDigit_of_toLower (hall c List.mem_cons_self) rfl⟩

namespace SameWord

variable {w w' : List Char}

theorem toLower_eq (h : SameWord w w') : w.map Char.toLower = w'.map Char.toLower := by
  cases h with
  | name => rfl
  | reserved _ same => exact same

theorem isName (h : SameWord w w') : (∃ c ∈ w.head?, c.isDigit = false) ∧ ∀ c ∈ w, isNameChar c = true := by
  cases h with
  | name front all => exact ⟨front, all⟩
  | reserved hres _ =>
    obtain ⟨word, hmem, hword⟩ := exists_reserved hres
    exact name_of_toLower (reserved_letters word hmem).1 (reserved_letters word hmem).2 hword

theorem symm (h : SameWord w w') : SameWord w' w := by
  cases h with
  | name front all => exact .name front all
  | reserved hres same =>
    refine .reserved ?_ same.symm
    simp only [isReserved, String.toList_ofList] at hres ⊢
    rwa [← same]

end SameWord

/-! ### Fronts -/

theorem forall_head_append {run s : List Char} {P : Char → Prop} (hne : run ≠ []) (hall : ∀ c ∈ run, P c) :
    ∀ c ∈ (run ++ s).head?, P c := by
  obtain ⟨c, rest, rfl⟩ := List.exists_cons_of_ne_nil hne
  intro c' hc'
  cases hc'
  exact hall c List.mem_cons_self

theorem SameWord.ne_nil {w w' : List Char} (h : SameWord w w') : w ≠ [] := by
  obtain ⟨⟨c, hc, -⟩, -⟩ := h.isName
  rintro rfl
  cases hc

theorem isQuote_iff {c : Char} : isQuote c = true ↔ c = '\'' ∨ c = '"' := by
  simp [isQuote]

theorem not_isNameChar_of_isQuote {c : Char} (h : isQuote c = true) : isNameChar c = false := by
  rcases isQuote_iff.mp h with rfl | rfl <;> decide

theorem not_isBlank_of_isQuote {c : Char} (h : isQuote c = true) : isBlank c = false := by
  rcases isQuote_iff.mp h with rfl | rfl <;> decide

namespace SameTokens

variable {E : ℕ → List Char → List Char → Prop} {d : ℕ} {s t : List Char}

/-- At the fronts are runs of blanks, or no blanks. -/
theorem blank_cases (h : SameTokens E d s t) : E d s t ∨
    ((∀ c ∈ s.head?, isBlank c = false) ∧ ∀ c ∈ t.head?, isBlank c = false) ∨
    ∃ run run' s' t', IsGap run ∧ IsGap run' ∧ s = run ++ s' ∧ t = run' ++ t' ∧ SameTokens E d s' t' := by
  have hsame : ∀ {c : Char} {s t : List Char}, isBlank c = false →
      (∀ x ∈ (c :: s).head?, isBlank x = false) ∧ ∀ x ∈ (c :: t).head?, isBlank x = false := fun hc =>
    ⟨fun x hx => by cases hx; exact hc, fun x hx => by cases hx; exact hc⟩
  cases h with
  | tail h => exact .inl h
  | gap hrun hrun' h => exact .inr (.inr ⟨_, _, _, _, hrun, hrun', rfl, rfl, h⟩)
  | digit hc h => exact .inr (.inl (hsame (Grammar.isBlank_of_isNameChar (isNameChar_of_isDigit hc))))
  | word hw hs ht h =>
    have hname : ∀ {w w' s : List Char}, SameWord w w' → ∀ c ∈ (w ++ s).head?, isBlank c = false := fun hw =>
      forall_head_append hw.ne_nil fun c hc => Grammar.isBlank_of_isNameChar (hw.isName.2 c hc)
    exact .inr (.inl ⟨hname hw, hname hw.symm⟩)
  | quoted hq hbody h => exact .inr (.inl (hsame (not_isBlank_of_isQuote hq)))
  | mark hc h => exact .inr (.inl (hsame hc.blank))
  | opening h => exact .inr (.inl (hsame rfl))
  | closing h => exact .inr (.inl (hsame rfl))

/-- At the fronts is a digit, a word in two spellings, or nothing of a word. -/
theorem word_cases (h : SameTokens E d s t) : E d s t ∨ (EndsWord s ∧ EndsWord t) ∨
    (∃ c s' t', c.isDigit = true ∧ s = c :: s' ∧ t = c :: t' ∧ SameTokens E d s' t') ∨
    ∃ w w' s' t', SameWord w w' ∧ EndsWord s' ∧ EndsWord t' ∧ s = w ++ s' ∧ t = w' ++ t' ∧
      SameTokens E d s' t' := by
  have hsame : ∀ {c : Char} {s t : List Char}, isNameChar c = false → EndsWord (c :: s) ∧ EndsWord (c :: t) :=
    fun hc => ⟨fun x hx => by cases hx; exact hc, fun x hx => by cases hx; exact hc⟩
  cases h with
  | tail h => exact .inl h
  | gap hrun hrun' h =>
    have hgap : ∀ {run s : List Char}, IsGap run → EndsWord (run ++ s) := fun hrun =>
      forall_head_append hrun.1 fun c hc => not_isNameChar_of_isBlank (hrun.2 c hc)
    exact .inr (.inl ⟨hgap hrun, hgap hrun'⟩)
  | digit hc h => exact .inr (.inr (.inl ⟨_, _, _, hc, rfl, rfl, h⟩))
  | word hw hs ht h => exact .inr (.inr (.inr ⟨_, _, _, _, hw, hs, ht, rfl, rfl, h⟩))
  | quoted hq hbody h => exact .inr (.inl (hsame (not_isNameChar_of_isQuote hq)))
  | mark hc h => exact .inr (.inl (hsame hc.word))
  | opening h => exact .inr (.inl (hsame (by decide)))
  | closing h => exact .inr (.inl (hsame (by decide)))

/-- At the fronts is a string, or no quote. -/
theorem quote_cases (h : SameTokens E d s t) : E d s t ∨
    ((∀ c ∈ s.head?, isQuote c = false) ∧ ∀ c ∈ t.head?, isQuote c = false) ∨
    ∃ q body s' t', isQuote q = true ∧ q ∉ body ∧ s = q :: (body ++ q :: s') ∧ t = q :: (body ++ q :: t') ∧
      SameTokens E d s' t' := by
  have hsame : ∀ {c : Char} {s t : List Char}, isQuote c = false →
      (∀ x ∈ (c :: s).head?, isQuote x = false) ∧ ∀ x ∈ (c :: t).head?, isQuote x = false := fun hc =>
    ⟨fun x hx => by cases hx; exact hc, fun x hx => by cases hx; exact hc⟩
  have hname : ∀ {c : Char}, isNameChar c = true → isQuote c = false := fun hc =>
    Bool.eq_false_iff.mpr fun hq => by rw [not_isNameChar_of_isQuote hq] at hc; cases hc
  cases h with
  | tail h => exact .inl h
  | gap hrun hrun' h =>
    have hgap : ∀ {run s : List Char}, IsGap run → ∀ c ∈ (run ++ s).head?, isQuote c = false := fun hrun =>
      forall_head_append hrun.1 fun c hc => Bool.eq_false_iff.mpr fun hq => by
        have := hrun.2 c hc
        rw [not_isBlank_of_isQuote hq] at this
        cases this
    exact .inr (.inl ⟨hgap hrun, hgap hrun'⟩)
  | digit hc h => exact .inr (.inl (hsame (hname (isNameChar_of_isDigit hc))))
  | word hw hs ht h =>
    have hword : ∀ {w w' s : List Char}, SameWord w w' → ∀ c ∈ (w ++ s).head?, isQuote c = false := fun hw =>
      forall_head_append hw.ne_nil fun c hc => hname (hw.isName.2 c hc)
    exact .inr (.inl ⟨hword hw, hword hw.symm⟩)
  | quoted hq hbody h => exact .inr (.inr ⟨_, _, _, _, hq, hbody, rfl, rfl, h⟩)
  | mark hc h => exact .inr (.inl (hsame hc.quote))
  | opening h => exact .inr (.inl (hsame (by decide)))
  | closing h => exact .inr (.inl (hsame (by decide)))

end SameTokens

/-- The number of open parentheses behind a character. -/
def depthBehind (c : Char) (d : ℕ) : ℕ := if c = '(' then d + 1 else if c = ')' then d - 1 else d

namespace SameTokens

variable {E : ℕ → List Char → List Char → Prop} {d : ℕ} {s t : List Char}

/-- A mark is at the front of both texts or of neither. -/
theorem mark_cases {c : Char} (hword : isNameChar c = false) (hblank : isBlank c = false)
    (hquote : isQuote c = false) (h : SameTokens E d s t) : E d s t ∨ (c ∉ s.head? ∧ c ∉ t.head?) ∨
    ∃ s' t', s = c :: s' ∧ t = c :: t' ∧ SameTokens E (depthBehind c d) s' t' := by
  have hsame : ∀ {x : Char} {s t : List Char}, x ≠ c → c ∉ (x :: s).head? ∧ c ∉ (x :: t).head? := fun hx =>
    ⟨fun h => by cases h; exact hx rfl, fun h => by cases h; exact hx rfl⟩
  have hname : ∀ {x : Char}, isNameChar x = true → x ≠ c := by
    rintro x hx rfl
    rw [hword] at hx
    cases hx
  cases h with
  | tail h => exact .inl h
  | gap hrun hrun' h =>
    have hgap : ∀ {run s : List Char}, IsGap run → c ∉ (run ++ s).head? := fun hrun hc => by
      have := forall_head_append hrun.1 hrun.2 c hc
      rw [hblank] at this
      cases this
    exact .inr (.inl ⟨hgap hrun, hgap hrun'⟩)
  | digit hc h => exact .inr (.inl (hsame (hname (isNameChar_of_isDigit hc))))
  | word hw hs ht h =>
    have hfront : ∀ {w w' s : List Char}, SameWord w w' → c ∉ (w ++ s).head? := fun hw hc =>
      hname (forall_head_append hw.ne_nil hw.isName.2 c hc) rfl
    exact .inr (.inl ⟨hfront hw, hfront hw.symm⟩)
  | quoted hq hbody h =>
    exact .inr (.inl (hsame (by rintro rfl; rw [hquote] at hq; cases hq)))
  | @mark _ x s t hc h =>
    by_cases hx : x = c
    · subst hx
      refine .inr (.inr ⟨s, t, rfl, rfl, ?_⟩)
      rwa [depthBehind, if_neg hc.parenthesis.1, if_neg hc.parenthesis.2]
    · exact .inr (.inl (hsame hx))
  | @opening _ s t h =>
    by_cases hx : '(' = c
    · subst hx
      exact .inr (.inr ⟨s, t, rfl, rfl, h⟩)
    · exact .inr (.inl (hsame hx))
  | @closing _ s t h =>
    by_cases hx : ')' = c
    · subst hx
      exact .inr (.inr ⟨s, t, rfl, rfl, h⟩)
    · exact .inr (.inl (hsame hx))

/-! ### Runs -/

theorem dropBlanks (hE : ∀ {d s t}, E d s t → E d (s.dropWhile isBlank) (t.dropWhile isBlank))
    (h : SameTokens E d s t) : SameTokens E d (s.dropWhile isBlank) (t.dropWhile isBlank) := by
  induction h with
  | tail h => exact .tail (hE h)
  | gap hrun hrun' h ih =>
    rw [List.dropWhile_append_of_pos hrun.2, List.dropWhile_append_of_pos hrun'.2]
    exact ih
  | digit hc h =>
    have hblank := Grammar.isBlank_of_isNameChar (isNameChar_of_isDigit hc)
    rw [List.dropWhile_cons_of_neg (by simp [hblank]), List.dropWhile_cons_of_neg (by simp [hblank])]
    exact .digit hc h
  | word hw hs ht h =>
    have hfront : ∀ {w w' s : List Char}, SameWord w w' → (w ++ s).dropWhile isBlank = w ++ s := fun hw =>
      Grammar.dropWhile_isBlank (forall_head_append hw.ne_nil fun c hc =>
        Grammar.isBlank_of_isNameChar (hw.isName.2 c hc))
    rw [hfront hw, hfront hw.symm]
    exact .word hw hs ht h
  | quoted hq hbody h =>
    have hblank := not_isBlank_of_isQuote hq
    rw [List.dropWhile_cons_of_neg (by simp [hblank]), List.dropWhile_cons_of_neg (by simp [hblank])]
    exact .quoted hq hbody h
  | mark hc h =>
    rw [List.dropWhile_cons_of_neg (by simp [hc.blank]), List.dropWhile_cons_of_neg (by simp [hc.blank])]
    exact .mark hc h
  | opening h => exact .opening h
  | closing h => exact .closing h

theorem passes_blanks (hE : ∀ {d s t}, E d s t → E d (s.dropWhile isBlank) (t.dropWhile isBlank)) :
    Passes (SameTokens E d) (SameTokens E d) blanks := fun _ _ h => .done trivial (h.dropBlanks hE)

/-- What comes behind at least one blank. -/
theorem inStep_spaced {α : Type} {V : α → α → Prop} {p : Parser α}
    (hE : ∀ {d s t}, E d s t → E d (s.dropWhile isBlank) (t.dropWhile isBlank))
    (htail : InStep V (E d) (SameTokens E d) (blanks1.after p) (blanks1.after p))
    (h : InStep V (SameTokens E d) (SameTokens E d) p p) :
    InStep V (SameTokens E d) (SameTokens E d) (blanks1.after p) (blanks1.after p) := fun s t hst => by
  rcases hst.blank_cases with hst | ⟨hs, ht⟩ | ⟨run, run', s', t', hrun, hrun', rfl, rfl, hst'⟩
  · exact htail s t hst
  · exact corresponds_of_misses ((misses_takeWhile1 hs).after p) ((misses_takeWhile1 ht).after p)
  · have hdone : ∀ {run s : List Char}, IsGap run →
        (blanks1.after p) (run ++ s) = p ((run ++ s).dropWhile isBlank) := fun {run s} hrun => by
      obtain ⟨c, rest, rfl⟩ := List.exists_cons_of_ne_nil hrun.1
      refine after_done (a := (c :: rest ++ s).takeWhile isBlank) ?_
      rw [blanks1, takeWhile1, List.cons_append, List.takeWhile_cons_of_pos (hrun.2 c List.mem_cons_self)]
    rw [hdone hrun, hdone hrun']
    exact h _ _ (hst.dropBlanks hE)

/-! ### Tokens -/

theorem reads_identifier (hE : Reads (E d) (SameTokens E d) Grammar.identifier) :
    Reads (SameTokens E d) (SameTokens E d) Grammar.identifier := fun s t hst => by
  rcases hst.word_cases with hst | ⟨hs, ht⟩ | ⟨c, s', t', hc, rfl, rfl, -⟩ |
      ⟨w, w', s', t', hw, hs, ht, rfl, rfl, hst'⟩
  · exact hE s t hst
  · exact corresponds_of_misses (Grammar.misses_identifier_of_ends hs) (Grammar.misses_identifier_of_ends ht)
  · have hdigit : ∀ {s : List Char}, Grammar.identifier.Misses (c :: s) :=
      Grammar.misses_identifier fun x hx => by
        cases hx
        exact Bool.eq_false_iff.mpr fun hstart => by rw [not_isDigit_of_isNameStart hstart] at hc; cases hc
    exact corresponds_of_misses hdigit hdigit
  · cases hw with
    | name front all =>
      obtain ⟨c, hc, -⟩ := front
      have hword : ∀ {s : List Char}, EndsWord s → wordOf (w ++ s) = w ∧ (w ++ s).dropWhile isNameChar = s :=
        fun hs => takeWhile_append all hs
      have hhead : ∀ {s : List Char}, c ∈ (w ++ s).head? := by
        intro s
        rw [List.head?_append, Option.mem_def.mp hc]
        rfl
      by_cases hstart : isNameStart c = true
      · by_cases hres : isReserved (String.ofList w) = true
        · exact corresponds_of_misses (Grammar.misses_identifier_of_reserved (by rwa [(hword hs).1]))
            (Grammar.misses_identifier_of_reserved (by rwa [(hword ht).1]))
        · rw [Bool.not_eq_true] at hres
          have hread : ∀ {s : List Char}, EndsWord s →
              Grammar.identifier (w ++ s) = .done (String.ofList w) s := fun {s} hs => by
            have h := Grammar.identifier_word (s := w ++ s) hhead hstart (by rw [(hword hs).1, hres])
            rwa [(hword hs).1, (hword hs).2] at h
          rw [hread hs, hread ht]
          exact .done rfl hst'
      · have hno : ∀ {s : List Char}, Grammar.identifier.Misses (w ++ s) := Grammar.misses_identifier fun x hx => by
          rw [Option.mem_unique hx hhead]
          simpa using hstart
        exact corresponds_of_misses hno hno
    | reserved hres same =>
      have hword : ∀ {w w' s : List Char}, SameWord w w' → isReserved (String.ofList w) = true → EndsWord s →
          Grammar.identifier.Misses (w ++ s) := fun {w w' s} hw hres hs =>
        Grammar.misses_identifier_of_reserved (by rwa [wordOf, (takeWhile_append hw.isName.2 hs).1])
      have hres' : isReserved (String.ofList w') = true := by
        simp only [isReserved, String.toList_ofList] at hres ⊢
        rwa [← same]
      exact corresponds_of_misses (hword (.reserved hres same) hres hs) (hword (.reserved hres' same.symm) hres' ht)

theorem passes_keyword {word : String} (hletters : word.toList.all isKeywordLetter = true) (hne : word.toList ≠ [])
    (hE : Passes (E d) (SameTokens E d) (keyword word)) :
    Passes (SameTokens E d) (SameTokens E d) (keyword word) := fun s t hst => by
  have hmiss : ∀ {x y : List Char}, (wordOf x).map Char.toLower ≠ word.toList →
      (wordOf y).map Char.toLower ≠ word.toList →
        (keyword word x).Corresponds (fun _ _ => True) (SameTokens E d) (keyword word y) := fun hx hy =>
    corresponds_of_misses (misses_keyword hletters hx) (misses_keyword hletters hy)
  rcases hst.word_cases with hst | ⟨hs, ht⟩ | ⟨c, s', t', hc, rfl, rfl, -⟩ |
      ⟨w, w', s', t', hw, hs, ht, rfl, rfl, hst'⟩
  · exact hE s t hst
  · exact corresponds_of_misses (hs.misses_keyword hletters hne) (ht.misses_keyword hletters hne)
  · exact hmiss (Grammar.wordOf_ne_of_digit ⟨c, rfl, hc⟩ hletters) (Grammar.wordOf_ne_of_digit ⟨c, rfl, hc⟩ hletters)
  · obtain ⟨hword, hrest⟩ := takeWhile_append hw.isName.2 hs
    obtain ⟨hword', hrest'⟩ := takeWhile_append hw.symm.isName.2 ht
    by_cases h : w.map Char.toLower = word.toList
    · have hdone := keyword_done hletters (s := w ++ s') (by rw [wordOf, hword, h])
      have hdone' := keyword_done hletters (s := w' ++ t') (by rw [wordOf, hword', ← hw.toLower_eq, h])
      rw [hdone, hdone', hrest, hrest']
      exact .done trivial hst'
    · exact hmiss (by rwa [wordOf, hword]) (by rwa [wordOf, hword', ← hw.toLower_eq])

theorem reads_char {c : Char} (hword : isNameChar c = false) (hblank : isBlank c = false)
    (hquote : isQuote c = false) (hE : Reads (E d) (SameTokens E (depthBehind c d)) (char c)) :
    Reads (SameTokens E d) (SameTokens E (depthBehind c d)) (char c) := fun s t hst => by
  rcases hst.mark_cases hword hblank hquote with hst | ⟨hs, ht⟩ | ⟨s', t', rfl, rfl, hst'⟩
  · exact hE s t hst
  · exact corresponds_of_misses (misses_char hs) (misses_char ht)
  · rw [char_done, char_done]
    exact .done rfl hst'

/-- A string with a line break in it is not closed. -/
theorem quoted_stop {q : Char} {body : List Char} (hq : q ∉ body) (hbreak : '\n' ∈ body) (s : List Char) :
    ∃ u, Grammar.quoted q (q :: (body ++ s)) = .stop u := by
  obtain ⟨front, back, rfl, hfront⟩ := List.eq_append_cons_of_mem hbreak
  have hrun : Parser.takeWhile (fun c => c != q && c != '\n') (front ++ '\n' :: (back ++ s)) =
      .done front ('\n' :: (back ++ s)) := by
    refine takeWhile_done (fun c hc => ?_) fun c hc => ?_
    · simp only [Bool.and_eq_true, bne_iff_ne]
      exact ⟨fun h => hq (List.mem_append_left _ (h ▸ hc)), fun h => hfront (h ▸ hc)⟩
    · cases hc
      simp
  have hne : q ∉ ('\n' :: (back ++ s)).head? := fun h => by
    cases h
    exact hq (List.mem_append_right _ List.mem_cons_self)
  obtain ⟨u, hu⟩ := misses_bind_done hrun (Misses.bind ((misses_char hne).expecting "closing quote"))
    (f := fun text => do
      let _ ← expecting "closing quote" (char q)
      pure text)
  refine ⟨u, ?_⟩
  rw [Grammar.quoted, List.append_assoc, List.cons_append, bind_done (char_done q _), bind_apply, commit]
  have hu' : (Parser.takeWhile (fun c => c != q && c != '\n')).followedBy
      (expecting "closing quote" (char q)) (front ++ '\n' :: (back ++ s)) = .miss u := hu
  rw [hu']

theorem reads_quoted {q : Char} (hq : isQuote q = true) (hE : Reads (E d) (SameTokens E d) (Grammar.quoted q)) :
    Reads (SameTokens E d) (SameTokens E d) (Grammar.quoted q) := fun s t hst => by
  have hmiss : ∀ {x y : List Char}, q ∉ x.head? → q ∉ y.head? →
      (Grammar.quoted q x).Corresponds Eq (SameTokens E d) (Grammar.quoted q y) := fun hx hy =>
    corresponds_of_misses (misses_char hx).bind (misses_char hy).bind
  rcases hst.quote_cases with hst | ⟨hs, ht⟩ | ⟨q', body, s', t', hq', hbody, rfl, rfl, hst'⟩
  · exact hE s t hst
  · have hno : ∀ {x : List Char}, (∀ c ∈ x.head?, isQuote c = false) → q ∉ x.head? := fun hx h => by
      rw [hx q h] at hq
      cases hq
    exact hmiss (hno hs) (hno ht)
  · by_cases hsame : q' = q
    · subst hsame
      by_cases hbreak : '\n' ∈ body
      · obtain ⟨u, hu⟩ := quoted_stop hbody hbreak (q' :: s')
        obtain ⟨u', hu'⟩ := quoted_stop hbody hbreak (q' :: t')
        rw [hu, hu']
        exact .stop u u'
      · have hread : ∀ s, Grammar.quoted q' (q' :: (body ++ q' :: s)) = .done (String.ofList body) s := fun s => by
          have hbody' : q' ∉ (String.ofList body).toList := by rwa [String.toList_ofList]
          have h := Grammar.quoted_done hbody' (by rwa [String.toList_ofList]) s
          rwa [String.toList_ofList] at h
        rw [hread, hread]
        exact .done rfl hst'
    · have hother : ∀ {x : List Char}, q ∉ (q' :: x).head? := fun h => by
        cases h
        exact hsame rfl
      exact hmiss hother hother

theorem dropDigits (hE : ∀ {d s t}, E d s t → s.takeWhile Char.isDigit = t.takeWhile Char.isDigit ∧
      SameTokens E d (s.dropWhile Char.isDigit) (t.dropWhile Char.isDigit)) {s t : List Char}
    (h : SameTokens E d s t) :
    s.takeWhile Char.isDigit = t.takeWhile Char.isDigit ∧
      SameTokens E d (s.dropWhile Char.isDigit) (t.dropWhile Char.isDigit) := by
  have hnone : ∀ {x : List Char}, (∀ c ∈ x.head?, c.isDigit = false) →
      x.takeWhile Char.isDigit = [] ∧ x.dropWhile Char.isDigit = x := fun hx =>
    takeWhile_append (by simp : ∀ c ∈ [], Char.isDigit c = true) hx
  rcases h.word_cases with hst | ⟨hs, ht⟩ | ⟨c, s', t', hc, rfl, rfl, hst'⟩ |
      ⟨w, w', s', t', hw, hs, ht, rfl, rfl, hst'⟩
  · exact hE hst
  · rw [(hnone hs.not_digit).1, (hnone hs.not_digit).2, (hnone ht.not_digit).1, (hnone ht.not_digit).2]
    exact ⟨rfl, h⟩
  · obtain ⟨htake, hdrop⟩ := dropDigits hE hst'
    rw [List.takeWhile_cons_of_pos hc, List.takeWhile_cons_of_pos hc, List.dropWhile_cons_of_pos hc,
      List.dropWhile_cons_of_pos hc, htake]
    exact ⟨rfl, hdrop⟩
  · have hfront : ∀ {w w' x : List Char}, SameWord w w' → ∀ c ∈ (w ++ x).head?, c.isDigit = false := by
      intro w w' x hw c hc
      obtain ⟨⟨c', hc', hdigit⟩, -⟩ := hw.isName
      have hhead : c' ∈ (w ++ x).head? := by
        rw [List.head?_append, Option.mem_def.mp hc']
        rfl
      rwa [Option.mem_unique hc hhead]
    rw [(hnone (hfront hw)).1, (hnone (hfront hw)).2, (hnone (hfront hw.symm)).1, (hnone (hfront hw.symm)).2]
    exact ⟨rfl, h⟩
termination_by s.length

theorem reads_digits (hE : ∀ {d s t}, E d s t → s.takeWhile Char.isDigit = t.takeWhile Char.isDigit ∧
      SameTokens E d (s.dropWhile Char.isDigit) (t.dropWhile Char.isDigit)) :
    Reads (SameTokens E d) (SameTokens E d) digits := fun s t hst => by
  obtain ⟨htake, hdrop⟩ := hst.dropDigits hE
  rw [digits, takeWhile1, takeWhile1, ← htake]
  cases s.takeWhile Char.isDigit with
  | nil => exact .miss _ _
  | cons c cs => exact .done rfl hdrop

end SameTokens

end SelectLang
