/-
# Where two spellings end

Two spellings that are followed up to some place may go on with the same text, or with texts that no token of
what is read can be read from; in either case they are read alike (`Tails`). What no token can be read from
depends on what is read: an expression ends at a word that is reserved, an item of a selection at a comma, a
list at a word that begins a clause, and the text of a query at a semicolon (`Idle`, `IdleItem`, `IdleList`,
`IdleClause`).

Key definitions: `Idle`, `IdleItem`, `IdleList`, `IdleClause`, `Tails`, `GoOn`.
Key theorems: `readsTokens`, `readsItems`, `readsLists`, `readsClauses`.
-/
import Mathlib
import SelectLang.Proofs.Grammar.Spelling

namespace SelectLang

open SelectLang.Parser

/-! ### Texts of no use -/

/-- No token of an expression can be read here, behind `d` open parentheses. -/
structure Idle (d : ℕ) (s : List Char) : Prop where
  front : ∀ c ∈ s.head?, c.isDigit = false ∧ isQuote c = false ∧
    c ∉ ['.', '*', '/', '%', '+', '-', '|', '>', '(']
  inner : 0 < d → ∀ c ∈ s.head?, c ∉ [',', ':', ')']
  name : Grammar.identifier.Misses s
  truth : ∀ word ∈ ["true", "false"], (wordOf s).map Char.toLower ≠ word.toList

/-- No token of an item can be read here. -/
structure IdleItem (d : ℕ) (s : List Char) : Prop extends Idle d s where
  word : EndsWord s ∨ ∃ word ∈ Grammar.openers, (wordOf s).map Char.toLower = word.toList
  assigned : '=' ∉ s.head?

/-- No token of a list can be read here. -/
structure IdleList (d : ℕ) (s : List Char) : Prop extends IdleItem d s where
  comma : ',' ∉ s.head?

/-- No token of a query can be read here, before its end. -/
structure IdleClause (d : ℕ) (s : List Char) : Prop extends IdleList d s where
  ends : EndsWord s

theorem IdleItem.misses_keyword {d : ℕ} {s : List Char} (h : IdleItem d s) {word : String}
    (hletters : word.toList.all isKeywordLetter = true) (hne : word.toList ≠ []) (hmem : word ∉ Grammar.openers) :
    (keyword word).Misses s := by
  rcases h.word with hend | ⟨opener, hopener, hword⟩
  · exact hend.misses_keyword hletters hne
  · refine Parser.misses_keyword hletters ?_
    rw [hword, ne_eq, String.toList_inj]
    rintro rfl
    exact hmem hopener

theorem truth_letters {word : String} (h : word ∈ ["true", "false"]) :
    word.toList.all isKeywordLetter = true ∧ word.toList ≠ [] ∧ isReserved word = true := by
  simp only [List.mem_cons, List.not_mem_nil, or_false] at h
  rcases h with rfl | rfl <;> decide

/-- What a front is like is none of the characters that are not like it. -/
theorem head_not_mem {P : Char → Bool} {s l : List Char} {c : Char} (hc : c ∈ s.head?) (h : P c = true)
    (hl : l.all fun x => !P x) : ∀ x ∈ s.head?, x ∉ l := fun x hx hmem => by
  have := List.all_eq_true.mp hl x hmem
  rw [Option.mem_unique hx hc, h] at this
  cases this

/-- A mark that is no token of an expression. -/
theorem idle_of_mark {d : ℕ} {s : List Char} (hword : EndsWord s)
    (hfront : ∀ c ∈ s.head?, c ∉ ['\'', '"', '.', '*', '/', '%', '+', '-', '|', '>', '('])
    (hinner : 0 < d → ∀ c ∈ s.head?, c ∉ [',', ':', ')']) : Idle d s where
  front c hc := by
    have hc' := hfront c hc
    rw [List.mem_cons, List.mem_cons, not_or, not_or] at hc'
    exact ⟨hword.not_digit c hc, by simp [isQuote, hc'.1, hc'.2.1], hc'.2.2⟩
  inner := hinner
  name := Grammar.misses_identifier_of_ends hword
  truth word h := by
    rw [hword.wordOf_eq_nil]
    exact fun h0 => (truth_letters h).2.1 h0.symm

/-- A reserved word that is no truth value. -/
theorem idle_of_word {s : List Char} {word : String} (hmem : word ∈ reservedWords)
    (htruth : word ∉ ["true", "false"]) (h : (wordOf s).map Char.toLower = word.toList) (d : ℕ) : Idle d s := by
  obtain ⟨⟨c, hc, hdigit⟩, hall⟩ := name_of_toLower (reserved_letters word hmem).1 (reserved_letters word hmem).2 h
  have hhead : c ∈ s.head? := by
    rw [← wordOf_append s, List.head?_append, Option.mem_def.mp hc]
    rfl
  have hname : isNameChar c = true := hall c (List.mem_of_mem_head? hc)
  refine ⟨fun x hx => ⟨?_, ?_, head_not_mem hhead hname (by decide) x hx⟩,
    fun _ => head_not_mem hhead hname (by decide), ?_, fun other hother => ?_⟩
  · rwa [Option.mem_unique hx hhead]
  · rw [Option.mem_unique hx hhead]
    refine Bool.eq_false_iff.mpr fun hq => ?_
    rw [not_isNameChar_of_isQuote hq] at hname
    cases hname
  · refine Grammar.misses_identifier_of_reserved ?_
    simp only [isReserved, List.any_eq_true, beq_iff_eq, String.toList_ofList]
    exact ⟨word, hmem, h.symm⟩
  · rw [h, ne_eq, String.toList_inj]
    rintro rfl
    exact htruth hother

/-- Before blanks stands what stands behind them, as far as tokens go. -/
theorem idle_of_blank {s : List Char} (h : ∃ c ∈ s.head?, isBlank c = true) (d : ℕ) : IdleClause d s := by
  obtain ⟨c, hc, hblank⟩ := h
  have hword : EndsWord s := fun x hx => by
    rw [Option.mem_unique hx hc]
    exact not_isNameChar_of_isBlank hblank
  have hno : ∀ {x : Char}, isBlank x = false → x ∉ s.head? := fun hx hmem =>
    head_not_mem (l := [_]) hc hblank (by simp [hx]) _ hmem List.mem_cons_self
  exact ⟨⟨⟨idle_of_mark hword (head_not_mem hc hblank (by decide)) fun _ => head_not_mem hc hblank (by decide),
    .inl hword, hno rfl⟩, hno rfl⟩, hword⟩

/-- What is of no use behind blanks is of no use before them. -/
def BlanksAside (P : ℕ → List Char → Prop) : Prop := ∀ d s, P d (s.dropWhile isBlank) → P d s

theorem blanksAside {P : ℕ → List Char → Prop} (h : ∀ d s, IdleClause d s → P d s) : BlanksAside P := fun d s hs => by
  cases s with
  | nil => exact hs
  | cons c s =>
    by_cases hc : isBlank c = true
    · exact h d _ (idle_of_blank ⟨c, rfl, hc⟩ d)
    · rwa [List.dropWhile_cons_of_neg hc] at hs

/-! ### Ends of both texts -/

/-- The texts go on alike, or both with what is of no use. -/
inductive Tails (P : ℕ → List Char → Prop) : (ℕ → List Char → List Char → Prop) → Prop where
  | same : Tails P fun _ s t => s = t
  | idle {E : ℕ → List Char → List Char → Prop}
      (blanks : ∀ {d s t}, E d s t → E d (s.dropWhile isBlank) (t.dropWhile isBlank))
      (use : ∀ {d s t}, E d s t → P d s ∧ P d t) : Tails P E

/-- Behind blanks the texts go on as `r` and `r'`, which are of no use. -/
def GoOn (P : ℕ → List Char → Prop) (r r' : List Char) (d : ℕ) (s t : List Char) : Prop :=
  (s.dropWhile isBlank = r ∧ t.dropWhile isBlank = r') ∧ P d r ∧ P d r'

section Ends

variable {P : ℕ → List Char → Prop} {E : ℕ → List Char → List Char → Prop} {d d' : ℕ}

theorem tails_goOn (hP : BlanksAside P) (r r' : List Char) : Tails P (GoOn P r r') :=
  .idle (fun ⟨⟨hs, ht⟩, h⟩ => ⟨⟨by rw [List.dropWhile_idempotent, hs], by rw [List.dropWhile_idempotent, ht]⟩, h⟩)
    fun ⟨⟨hs, ht⟩, hr, hr'⟩ => ⟨hP _ _ (hs ▸ hr), hP _ _ (ht ▸ hr')⟩

namespace Tails

theorem blanks (hE : Tails P E) {s t : List Char} (h : E d s t) :
    E d (s.dropWhile isBlank) (t.dropWhile isBlank) := by
  cases hE with
  | same => exact congrArg _ h
  | idle blanks _ => exact blanks h

theorem mono {Q : ℕ → List Char → Prop} (hE : Tails P E) (h : ∀ d s, P d s → Q d s) : Tails Q E := by
  cases hE with
  | same => exact .same
  | idle blanks use => exact .idle blanks fun hst => ⟨h _ _ (use hst).1, h _ _ (use hst).2⟩

/-- What misses where the texts are of no use reads their ends in step. -/
theorem reads {α : Type} {p : Parser α} (hE : Tails P E) (hp : ∀ s, P d s → p.Misses s) :
    Reads (E d) (SameTokens E d') p := by
  cases hE with
  | same => exact inStep_self (fun _ _ => id) fun _ _ r _ _ => .tail rfl
  | idle _ use => exact inStep_of_misses fun s t hst => ⟨hp s (use hst).1, hp t (use hst).2⟩

end Tails

/-- The tokens of expressions read two spellings alike. -/
theorem readsTokens (hE : Tails Idle E) : Grammar.ReadsTokens (SameTokens E) where
  blanks d := SameTokens.passes_blanks hE.blanks
  identifier d := SameTokens.reads_identifier (hE.reads fun s hs => hs.name)
  truth d word h := by
    obtain ⟨hletters, hne, -⟩ := truth_letters h
    exact SameTokens.passes_keyword hletters hne
      (Reads.passes (hE.reads fun s hs => misses_keyword hletters (hs.truth word h)))
  digits d := SameTokens.reads_digits fun hst => by
    cases hE with
    | same => exact ⟨congrArg _ hst, .tail (congrArg _ hst)⟩
    | idle _ use =>
      have hnone : ∀ {d : ℕ} {x : List Char}, Idle d x →
          x.takeWhile Char.isDigit = [] ∧ x.dropWhile Char.isDigit = x := fun hx =>
        takeWhile_append (by simp : ∀ c ∈ [], Char.isDigit c = true) fun c hc => (hx.front c hc).1
      obtain ⟨hs, ht⟩ := use hst
      rw [(hnone hs).1, (hnone hs).2, (hnone ht).1, (hnone ht).2]
      exact ⟨rfl, .tail hst⟩
  quoted d q h := by
    have hq : isQuote q = true := isQuote_iff.mpr (by simpa using h)
    refine SameTokens.reads_quoted hq (hE.reads fun s hs => Misses.bind (misses_char fun hc => ?_))
    rw [(hs.front q hc).2.1] at hq
    cases hq
  mark d c h := by
    have hc : isNameChar c = false ∧ isBlank c = false ∧ isQuote c = false ∧ depthBehind c d = d := by
      simp only [List.mem_cons, List.not_mem_nil, or_false] at h
      rcases h with rfl | rfl | rfl | rfl | rfl | rfl | rfl | rfl <;> exact ⟨by decide, by decide, by decide, rfl⟩
    have hread := SameTokens.reads_char (E := E) (d := d) hc.1 hc.2.1 hc.2.2.1
      (hE.reads fun s hs => misses_char fun hmem => (hs.front c hmem).2.2 (List.mem_append_left ['('] h))
    rwa [hc.2.2.2] at hread
  inner d c h := by
    have hc : isNameChar c = false ∧ isBlank c = false ∧ isQuote c = false ∧ depthBehind c (d + 1) = d + 1 := by
      simp only [List.mem_cons, List.not_mem_nil, or_false] at h
      rcases h with rfl | rfl <;> exact ⟨by decide, by decide, by decide, rfl⟩
    have hread := SameTokens.reads_char (E := E) (d := d + 1) hc.1 hc.2.1 hc.2.2.1
      (hE.reads fun s hs => misses_char fun hmem =>
        hs.inner (Nat.succ_pos d) c hmem (List.mem_append_left [')'] h))
    rw [hc.2.2.2] at hread
    exact Reads.passes hread
  opening d := Reads.passes (SameTokens.reads_char (by decide) (by decide) (by decide)
    (hE.reads fun s hs => misses_char fun hmem => (hs.front '(' hmem).2.2 (by decide)))
  closing d := Reads.passes (SameTokens.reads_char (c := ')') (by decide) (by decide) (by decide)
    (hE.reads fun s hs => misses_char fun hmem => hs.inner (Nat.succ_pos d) ')' hmem (by decide)))

theorem readsItems (hE : Tails IdleItem E) : Grammar.ReadsItems (SameTokens E) where
  toReadsTokens := readsTokens (hE.mono fun _ _ h => h.toIdle)
  keyword word hletters hne hmem := SameTokens.passes_keyword hletters hne
    (Reads.passes (hE.reads fun s hs => hs.misses_keyword hletters hne hmem))
  assigned := Reads.passes (SameTokens.reads_char (c := '=') (d := 0) (by decide) (by decide) (by decide)
    (hE.reads fun s hs => misses_char hs.assigned))

/-- Behind blanks there is nothing to read. -/
theorem misses_spaced {α : Type} {p : Parser α} {s : List Char} (h : p.Misses (s.dropWhile isBlank)) :
    (blanks1.after p).Misses s := by
  cases hs : s.takeWhile isBlank with
  | nil => exact Misses.after p ⟨_, by rw [blanks1, takeWhile1, hs]; rfl⟩
  | cons c cs =>
    refine misses_bind_done (a := c :: cs) (m := s.dropWhile isBlank) ?_ h
    rw [blanks1, takeWhile1, hs]

/-- What is read in step is read in step behind blanks. -/
theorem Tails.spaced {α : Type} {V : α → α → Prop} {p : Parser α} (hE : Tails P E) (hV : ∀ a, V a a)
    (hp : ∀ s, P d s → p.Misses s) (h : InStep V (SameTokens E d) (SameTokens E d) p p) :
    InStep V (SameTokens E d) (SameTokens E d) (blanks1.after p) (blanks1.after p) := by
  refine SameTokens.inStep_spaced hE.blanks ?_ h
  cases hE with
  | same =>
    exact (inStep_self (T := fun s t => s = t) (fun _ _ => id) fun _ _ r _ _ => .tail rfl).mono
      (fun a b hab => hab ▸ hV a) (fun _ _ => id) fun _ _ => id
  | idle blanks use =>
    exact inStep_of_misses fun s t hst => ⟨misses_spaced (hp _ (use (blanks hst)).1),
      misses_spaced (hp _ (use (blanks hst)).2)⟩

/-- The tokens of lists read two spellings alike. -/
theorem readsLists (hE : Tails IdleList E) : Grammar.ReadsLists (SameTokens E) := by
  have hitems := readsItems (hE.mono fun _ _ h => h.toIdleItem)
  refine ⟨hitems, ?_, ?_, ?_⟩
  · exact Reads.passes (SameTokens.reads_char (c := ',') (d := 0) (by decide) (by decide) (by decide)
      (hE.reads fun s hs => misses_char hs.comma))
  · exact hE.spaced (fun _ => trivial) (fun s hs => hs.misses_keyword (by decide) (by decide) (by decide))
      (hitems.keyword "by" (by decide) (by decide) (by decide))
  · exact hE.spaced (fun _ => rfl) (fun s hs => Misses.filterMap (misses_takeWhile1 fun c hc => (hs.front c hc).1))
      ((hitems.digits 0).filterMap _)

theorem openers_letters : ∀ word ∈ Grammar.openers, word.toList.all isKeywordLetter = true ∧ word.toList ≠ [] := by
  decide

/-- The tokens of queries read two spellings alike. -/
theorem readsClauses (hE : Tails IdleClause E) : Grammar.ReadsClauses (SameTokens E) where
  toReadsLists := readsLists (hE.mono fun _ _ h => h.toIdleList)
  opener word hmem := by
    obtain ⟨hletters, hne⟩ := openers_letters word hmem
    exact SameTokens.passes_keyword hletters hne
      (Reads.passes (hE.reads fun s hs => hs.ends.misses_keyword hletters hne))

end Ends

end SelectLang
