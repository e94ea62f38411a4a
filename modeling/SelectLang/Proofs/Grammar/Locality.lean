/-
# Reading before another rest

What is read from the front of a text is read there also if the text goes on otherwise, provided that what
follows in either case is of no use to it. What was read is a stretch of whole tokens: `Cut d s d' r` says
that in front of `r` the text `s` is such a stretch, which is the same tokens as itself before any other rest
that breaks off no word. That a parser stops only between tokens is read off the grammar in step, from the
texts a cut leads to, each related to itself.

Key definitions: `Cut`.
Key theorems: `cut_of_expression`, `cut_of_atom`, `expression_elsewhere`, `atom_elsewhere`.
-/
import Mathlib
import SelectLang.Proofs.Grammar.Endings
import SelectLang.Proofs.Grammar.WellFormed

namespace SelectLang

open SelectLang.Parser

/-! ### Stretches of tokens -/

/-- Up to `r` the text `s` is whole tokens, behind which `d'` parentheses are open if before them `d` were. -/
def Cut (d : ℕ) (s : List Char) (d' : ℕ) (r : List Char) : Prop :=
  ∃ u, s = u ++ r ∧ ∀ (E : ℕ → List Char → List Char → Prop) (r' : List Char), (EndsWord r → EndsWord r') →
    SameTokens E d' r r' → SameTokens E d (u ++ r) (u ++ r')

namespace Cut

variable {d d' d'' : ℕ} {s m r : List Char}

theorem refl (d : ℕ) (s : List Char) : Cut d s d s := ⟨[], rfl, fun _ _ _ h => h⟩

theorem trans (h : Cut d s d' m) (h' : Cut d' m d'' r) : Cut d s d'' r := by
  obtain ⟨u, rfl, hu⟩ := h
  obtain ⟨v, rfl, hv⟩ := h'
  refine ⟨u ++ v, (List.append_assoc u v r).symm, fun E r' hword hr => ?_⟩
  rw [List.append_assoc, List.append_assoc]
  refine hu E (v ++ r') ?_ (hv E r' hword hr)
  cases v with
  | nil => exact hword
  | cons c v => exact id

theorem gap {run : List Char} (h : ∀ c ∈ run, isBlank c = true) (d : ℕ) (r : List Char) : Cut d (run ++ r) d r := by
  cases run with
  | nil => exact refl d r
  | cons c run => exact ⟨c :: run, rfl, fun _ _ _ => .gap ⟨by simp, h⟩ ⟨by simp, h⟩⟩

theorem digits (d : ℕ) (r : List Char) : ∀ {ds : List Char}, (∀ c ∈ ds, c.isDigit = true) → Cut d (ds ++ r) d r
  | [], _ => refl d r
  | c :: ds, h => by
    obtain ⟨hc, hds⟩ := List.forall_mem_cons.mp h
    exact trans ⟨[c], rfl, fun _ _ _ => .digit hc⟩ (digits d r hds)

theorem word {w : List Char} (hw : SameWord w w) (hr : EndsWord r) (d : ℕ) : Cut d (w ++ r) d r :=
  ⟨w, rfl, fun _ _ hword => .word hw hr (hword hr)⟩

theorem quoted {q : Char} {body : List Char} (hq : isQuote q = true) (hbody : q ∉ body) (d : ℕ) (r : List Char) :
    Cut d (q :: (body ++ q :: r)) d r :=
  ⟨q :: (body ++ [q]), by simp, fun _ r' _ h => by simpa using SameTokens.quoted hq hbody h⟩

theorem mark {c : Char} (hc : IsMark c) (d : ℕ) (r : List Char) : Cut d (c :: r) d r :=
  ⟨[c], rfl, fun _ _ _ => .mark hc⟩

theorem opening (d : ℕ) (r : List Char) : Cut d ('(' :: r) (d + 1) r := ⟨['('], rfl, fun _ _ _ => .opening⟩

theorem closing (d : ℕ) (r : List Char) : Cut d (')' :: r) (d - 1) r := ⟨[')'], rfl, fun _ _ _ => .closing⟩

end Cut

/-! ### What tokens read -/

section Tokens

variable {s r : List Char}

theorem cut_of_blanks {run : List Char} (h : blanks s = .done run r) (d : ℕ) : Cut d s d r := by
  cases h
  conv => arg 2; rw [← List.takeWhile_append_dropWhile (p := isBlank) (l := s)]
  exact .gap (fun c hc => List.mem_takeWhile_imp hc) d _

theorem cut_of_blanks1 {run : List Char} (h : blanks1 s = .done run r) (d : ℕ) : Cut d s d r := by
  obtain ⟨rfl, -, hrun, -⟩ := takeWhile1_eq_done h
  exact .gap hrun d r

/-- A name is read with the characters it has. -/
theorem identifier_eq_done {name : String} (h : Grammar.identifier s = .done name r) :
    s = name.toList ++ r ∧ EndsWord r ∧ isName name = true := by
  have hname := Grammar.yields_identifier s name r h
  refine (and_assoc.mp ⟨?_, hname⟩)
  by_cases hstart : ∀ c ∈ s.head?, isNameStart c = false
  · exact absurd h (Grammar.misses_identifier hstart).not_done
  · obtain ⟨c, hc, hs⟩ : ∃ c ∈ s.head?, isNameStart c = true := by simpa using hstart
    by_cases hres : isReserved (String.ofList (wordOf s)) = true
    · exact absurd h (Grammar.misses_identifier_of_reserved hres).not_done
    · rw [Grammar.identifier_word hc hs (by simpa using hres)] at h
      cases h
      exact ⟨by rw [String.toList_ofList, wordOf_append], endsWord_dropWhile s⟩

theorem cut_of_identifier {name : String} (h : Grammar.identifier s = .done name r) (d : ℕ) : Cut d s d r := by
  obtain ⟨rfl, hr, hname⟩ := identifier_eq_done h
  obtain ⟨⟨c, hc, hstart⟩, hall⟩ := Grammar.isName_chars hname
  exact .word (.name ⟨c, hc, not_isDigit_of_isNameStart hstart⟩ hall) hr d

/-- A word is read with the characters it has. -/
theorem keyword_eq_done {word : String} (hletters : word.toList.all isKeywordLetter = true) {w : List Char}
    (h : keyword word s = .done w r) : s = w ++ r ∧ w.map Char.toLower = word.toList ∧
      (∀ c ∈ w, isNameChar c = true) ∧ EndsWord r := by
  by_cases hword : (wordOf s).map Char.toLower = word.toList
  · rw [keyword_done hletters hword] at h
    cases h
    exact ⟨(wordOf_append s).symm, hword, fun c hc => List.mem_takeWhile_imp hc, endsWord_dropWhile s⟩
  · exact absurd h (misses_keyword hletters hword).not_done

theorem cut_of_keyword {word : String} (hletters : word.toList.all isKeywordLetter = true) (hne : word.toList ≠ [])
    {w : List Char} (h : keyword word s = .done w r) (d : ℕ) : Cut d s d r := by
  obtain ⟨rfl, hlower, -, hr⟩ := keyword_eq_done hletters h
  obtain ⟨hfront, hall⟩ := name_of_toLower hletters hne hlower
  exact .word (.name hfront hall) hr d

theorem cut_of_digits {ds : List Char} (h : digits s = .done ds r) (d : ℕ) : Cut d s d r := by
  obtain ⟨rfl, -, hds, -⟩ := takeWhile1_eq_done h
  exact .digits d r hds

/-- A string is read up to the next quote of its kind. -/
theorem quoted_eq_done {q : Char} {text : String} (h : Grammar.quoted q s = .done text r) :
    ∃ body, q ∉ body ∧ s = q :: (body ++ q :: r) := by
  obtain ⟨x, m, hopen, hbody⟩ := bind_eq_done h
  obtain ⟨body, m', hbody, hlast⟩ := bind_eq_done hbody
  cases hlast
  obtain ⟨_, m'', hrun, hclose⟩ := bind_eq_done (commit_eq_done hbody)
  obtain ⟨_, _, hclose, hlast⟩ := bind_eq_done hclose
  cases hlast
  obtain rfl := char_eq_done hopen
  have hm := char_eq_done (expecting_eq_done hclose)
  have hsplit := List.takeWhile_append_dropWhile (p := fun c => c != q && c != '\n') (l := m)
  cases hrun
  rw [hm] at hsplit
  refine ⟨_, fun hmem => ?_, congrArg (q :: ·) hsplit.symm⟩
  simpa using List.mem_takeWhile_imp hmem

theorem cut_of_quoted {q : Char} (hq : isQuote q = true) {text : String} (h : Grammar.quoted q s = .done text r)
    (d : ℕ) : Cut d s d r := by
  obtain ⟨body, hbody, rfl⟩ := quoted_eq_done h
  exact .quoted hq hbody d r

end Tokens

/-! ### Cuts along the grammar -/

/-- A text is related to itself where a cut of `s` leads. -/
def Along (s : List Char) (d : ℕ) (m m' : List Char) : Prop := m = m' ∧ Cut 0 s d m

theorem reads_along {α : Type} {p : Parser α} {d d' : ℕ} (s : List Char)
    (h : ∀ m a r, p m = .done a r → Cut d m d' r) : Reads (Along s d) (Along s d') p :=
  inStep_self (fun _ _ => And.left) fun m a r hm hp => ⟨rfl, hm.2.trans (h m a r hp)⟩

theorem reads_mark_along {c : Char} (hc : IsMark c) (s : List Char) (d : ℕ) :
    Reads (Along s d) (Along s d) (char c) := reads_along s fun m a r h => by
  obtain rfl := char_eq_done h
  exact .mark hc d r

theorem readsTokens_along (s : List Char) : Grammar.ReadsTokens (Along s) where
  blanks d := Reads.passes (reads_along s fun _ _ _ h => cut_of_blanks h d)
  identifier d := reads_along s fun _ _ _ h => cut_of_identifier h d
  truth d word hmem := by
    obtain ⟨hletters, hne, -⟩ := truth_letters hmem
    exact Reads.passes (reads_along s fun _ _ _ h => cut_of_keyword hletters hne h d)
  digits d := reads_along s fun _ _ _ h => cut_of_digits h d
  quoted d q hq := reads_along s fun _ _ _ h => cut_of_quoted (isQuote_iff.mpr (by simpa using hq)) h d
  mark d c hc := by
    refine reads_mark_along ?_ s d
    simp only [List.mem_cons, List.not_mem_nil, or_false] at hc
    rcases hc with rfl | rfl | rfl | rfl | rfl | rfl | rfl | rfl <;>
      exact ⟨by decide, by decide, by decide, by decide⟩
  inner d c hc := by
    refine Reads.passes (reads_mark_along ?_ s (d + 1))
    simp only [List.mem_cons, List.not_mem_nil, or_false] at hc
    rcases hc with rfl | rfl <;> exact ⟨by decide, by decide, by decide, by decide⟩
  opening d := Reads.passes (reads_along s fun m a r h => by
    obtain rfl := char_eq_done h
    exact .opening d r)
  closing d := Reads.passes (reads_along s fun m a r h => by
    obtain rfl := char_eq_done h
    exact .closing (d + 1) r)

theorem readsItems_along (s : List Char) : Grammar.ReadsItems (Along s) where
  toReadsTokens := readsTokens_along s
  keyword _ hletters hne _ := Reads.passes (reads_along s fun _ _ _ h => cut_of_keyword hletters hne h 0)
  assigned := (reads_mark_along ⟨by decide, by decide, by decide, by decide⟩ s 0).passes

theorem readsLists_along (s : List Char) : Grammar.ReadsLists (Along s) where
  toReadsItems := readsItems_along s
  comma := (reads_mark_along ⟨by decide, by decide, by decide, by decide⟩ s 0).passes
  spacedBy := Passes.bind (Reads.passes (reads_along s fun _ _ _ h => cut_of_blanks1 h 0))
    ((readsItems_along s).keyword "by" (by decide) (by decide) (by decide))
  spacedQuantity := Passes.bind (Reads.passes (reads_along s fun _ _ _ h => cut_of_blanks1 h 0))
    (((readsItems_along s).digits 0).filterMap _)

theorem readsClauses_along (s : List Char) : Grammar.ReadsClauses (Along s) where
  toReadsLists := readsLists_along s
  opener word hmem := by
    obtain ⟨hletters, hne⟩ := openers_letters word hmem
    exact Reads.passes (reads_along s fun _ _ _ h => cut_of_keyword hletters hne h 0)

theorem cut_of_expression {s r : List Char} {e : Expr} (h : Grammar.expression s = .done e r) : Cut 0 s 0 r := by
  have hstep := Grammar.reads_expression (readsTokens_along s) 0 s s ⟨rfl, .refl 0 s⟩
  rw [h] at hstep
  obtain ⟨_, _, heq, rfl, rfl, hcut⟩ := hstep.exists_done
  exact hcut

theorem cut_of_atom {s r : List Char} {a : Atom} (h : Grammar.atom s = .done a r) : Cut 0 s 0 r := by
  have hstep := Grammar.reads_atom (readsItems_along s) s s ⟨rfl, .refl 0 s⟩
  rw [h] at hstep
  obtain ⟨_, _, heq, rfl, rfl, hcut⟩ := hstep.exists_done
  exact hcut

theorem cut_of_parts {s r : List Char} {p : Grammar.Parts} (h : Grammar.parts s = .done p r) : Cut 0 s 0 r := by
  have hstep := Grammar.reads_parts (readsClauses_along s) s s ⟨rfl, .refl 0 s⟩
  rw [h] at hstep
  obtain ⟨_, _, heq, rfl, rfl, hcut⟩ := hstep.exists_done
  exact hcut

/-! ### Another rest -/

section Rest

variable {P : ℕ → List Char → Prop} {r r' : List Char}

theorem tail_or_shorter {E : ℕ → List Char → List Char → Prop} {d : ℕ} {s t : List Char} (h : SameTokens E d s t) :
    E d s t ∨ ∃ d' s' t', s'.length < s.length ∧ SameTokens E d' s' t' := by
  cases h with
  | tail h => exact .inl h
  | gap hrun _ h => exact .inr ⟨_, _, _, by simp [List.length_pos_iff.mpr hrun.1], h⟩
  | digit _ h => exact .inr ⟨_, _, _, by simp, h⟩
  | word hw _ _ h => exact .inr ⟨_, _, _, by simp [List.length_pos_iff.mpr hw.ne_nil], h⟩
  | quoted _ _ h => exact .inr ⟨_, _, _, by simp; omega, h⟩
  | mark _ h => exact .inr ⟨_, _, _, by simp, h⟩
  | opening h => exact .inr ⟨_, _, _, by simp, h⟩
  | closing h => exact .inr ⟨_, _, _, by simp, h⟩

theorem length_le_of_goOn {d : ℕ} {s t : List Char} (h : SameTokens (GoOn P r r') d s t) : r.length ≤ s.length := by
  rcases tail_or_shorter h with ⟨⟨rfl, -⟩, -⟩ | ⟨d', s', t', hlt, h'⟩
  · exact List.length_dropWhile_le isBlank s
  · exact (length_le_of_goOn h').trans hlt.le
termination_by s.length

/-- Where the first text is down to its rest, so is the second. -/
theorem rest_of_goOn {d : ℕ} {s t : List Char} (h : SameTokens (GoOn P r r') d s t)
    (hs : s.length ≤ r.length) : t.dropWhile isBlank = r' := by
  rcases tail_or_shorter h with hend | ⟨d', s', t', hlt, h'⟩
  · exact hend.1.2
  · have := length_le_of_goOn h'
    omega

/-- What stops between tokens and reads spellings alike reads the same before another rest of no use. -/
theorem elsewhere {α : Type} {p : Parser α} {u : List Char} {a : α} (hP : BlanksAside P)
    (hp : ∀ E, Tails P E → Reads (SameTokens E 0) (SameTokens E 0) p) (hcut : Cut 0 (u ++ r) 0 r)
    (h : p (u ++ r) = .done a r) (hword : EndsWord r → EndsWord r') (hr : P 0 (r.dropWhile isBlank))
    (hr' : P 0 (r'.dropWhile isBlank)) :
    ∃ y, p (u ++ r') = .done a y ∧ y.dropWhile isBlank = r'.dropWhile isBlank := by
  have htails := tails_goOn hP (r.dropWhile isBlank) (r'.dropWhile isBlank)
  obtain ⟨v, heq, hsame⟩ := hcut
  obtain rfl := List.append_cancel_right heq
  have hstep := hp _ htails _ _ (hsame _ r' hword (.tail ⟨⟨rfl, rfl⟩, hr, hr'⟩))
  rw [h] at hstep
  obtain ⟨b, y, hy, rfl, hrest⟩ := hstep.exists_done
  have hdrop := rest_of_goOn (hrest.dropBlanks htails.blanks) le_rfl
  exact ⟨y, hy, by rwa [List.dropWhile_idempotent] at hdrop⟩

theorem expression_elsewhere {u : List Char} {e : Expr} (h : Grammar.expression (u ++ r) = .done e r)
    (r' : List Char) (hword : EndsWord r → EndsWord r') (hr : Idle 0 (r.dropWhile isBlank))
    (hr' : Idle 0 (r'.dropWhile isBlank)) :
    ∃ y, Grammar.expression (u ++ r') = .done e y ∧ y.dropWhile isBlank = r'.dropWhile isBlank :=
  elsewhere (blanksAside fun _ _ h => h.toIdle) (fun _ hE => Grammar.reads_expression (readsTokens hE) 0)
    (cut_of_expression h) h hword hr hr'

theorem atom_elsewhere {u : List Char} {a : Atom} (h : Grammar.atom (u ++ r) = .done a r)
    (r' : List Char) (hword : EndsWord r → EndsWord r') (hr : IdleItem 0 (r.dropWhile isBlank))
    (hr' : IdleItem 0 (r'.dropWhile isBlank)) :
    ∃ y, Grammar.atom (u ++ r') = .done a y ∧ y.dropWhile isBlank = r'.dropWhile isBlank :=
  elsewhere (blanksAside fun _ _ h => h.toIdleItem) (fun _ hE => Grammar.reads_atom (readsItems hE))
    (cut_of_atom h) h hword hr hr'

end Rest

end SelectLang
