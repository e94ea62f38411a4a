/-
# Edits that change no more than the formatting

The text of a query may be written in other ways: other blanks between its tokens, reserved words in other
cases, a semicolon at its end or none, and an item named in the other way (`Edit`). Each of these edits leaves
a text that is read as a query, with items that mean the same (`Edit.spells`).

An edit between tokens needs the text before it to be whole tokens, up to which the two texts are the same.
This is so wherever no string literal is open and no word runs on (`Outside`, `Parted`), whether the text can
be read or not.

Key definitions: `Outside`, `Ended`, `Edit`, `Spells`.
Key theorems: `Outside.sameTokens`, `Edit.parts_done`, `spells_of_edits`.
-/
import Mathlib
import SelectLang.Proofs.Grammar.Selections

namespace SelectLang

open SelectLang.Parser SelectLang.Grammar

/-! ### Outside of string literals -/

/-- The quote that is open behind a character. -/
def quoteBehind : Option Char → Char → Option Char
  | none, c => if isQuote c then some c else none
  | some q, c => if c = q then none else some q

/-- Behind the text no string literal is open. -/
def Outside (text : List Char) : Prop := text.foldl quoteBehind none = none

instance (text : List Char) : Decidable (Outside text) := inferInstanceAs (Decidable (_ = none))

/-- No word runs from the first text on into the second. -/
def Parted (u r : List Char) : Prop := EndsWord r ∨ ∀ c ∈ u.getLast?, isNameChar c = false

theorem Parted.suffix {x u r : List Char} (h : Parted (x ++ u) r) : Parted u r :=
  h.imp_right fun hlast c hc => hlast c (by rw [List.getLast?_append, Option.mem_def.mp hc]; rfl)

/-- Behind the words that are whole in the first text none goes on. -/
theorem Parted.endsWord_dropWhile {u r : List Char} (h : Parted u r) (hne : u ≠ []) :
    EndsWord (u.dropWhile isNameChar ++ r) := by
  cases hu : u.dropWhile isNameChar with
  | nil =>
    refine h.elim id fun hlast => ?_
    cases hend : u.getLast? with
    | none => exact absurd (List.getLast?_eq_none_iff.mp hend) hne
    | some x =>
      have hx := hlast x hend
      rw [List.dropWhile_eq_nil_iff.mp hu x (List.mem_of_mem_getLast? hend)] at hx
      cases hx
  | cons c v =>
    intro x hx
    cases hx
    exact head_dropWhile isNameChar u c (by rw [hu]; rfl)

theorem foldl_quoteBehind_of_not_mem {q : Char} : ∀ {body : List Char}, q ∉ body →
    body.foldl quoteBehind (some q) = some q
  | [], _ => rfl
  | c :: body, h => by
    obtain ⟨hc, hbody⟩ := List.ne_and_not_mem_of_not_mem_cons h
    rw [List.foldl_cons, quoteBehind, if_neg hc.symm, foldl_quoteBehind_of_not_mem hbody]

theorem not_isQuote_of_isNameChar {c : Char} (h : isNameChar c = true) : isQuote c = false :=
  Bool.eq_false_iff.mpr fun hq => by
    rw [not_isNameChar_of_isQuote hq] at h
    cases h

/-- Characters that are no quotes open no string literal. -/
theorem outside_of_unquoted : ∀ {w : List Char}, (∀ c ∈ w, isQuote c = false) → Outside w
  | [], _ => rfl
  | c :: w, h => by
    obtain ⟨hc, hw⟩ := List.forall_mem_cons.mp h
    rw [Outside, List.foldl_cons, quoteBehind, if_neg (by simp [hc])]
    exact outside_of_unquoted hw

theorem Outside.append_iff {u v : List Char} (h : Outside u) : Outside (u ++ v) ↔ Outside v := by
  rw [Outside, List.foldl_append, h]
  rfl

/-- A string literal that is open is closed. -/
theorem exists_closed {q : Char} {v : List Char} (h : v.foldl quoteBehind (some q) = none) :
    ∃ body u, v = body ++ q :: u ∧ q ∉ body ∧ Outside u := by
  by_cases hq : q ∈ v
  · obtain ⟨body, u, rfl, hbody⟩ := List.eq_append_cons_of_mem hq
    rw [List.foldl_append, foldl_quoteBehind_of_not_mem hbody, List.foldl_cons, quoteBehind, if_pos rfl] at h
    exact ⟨body, u, rfl, hbody, h⟩
  · rw [foldl_quoteBehind_of_not_mem hq] at h
    cases h

/-- Outside of string literals and between words any text is whole tokens. -/
theorem Outside.cut {u r : List Char} (h : Outside u) (hparted : Parted u r) (d : ℕ) : ∃ d', Cut d (u ++ r) d' r := by
  induction hl : u.length using Nat.strong_induction_on generalizing u d with
  | _ n ih =>
    subst hl
    cases u with
    | nil => exact ⟨d, .refl d r⟩
    | cons c u =>
      -- a token `x` at the front, with the tokens of the text behind it
      have hstep : ∀ (x v : List Char) (d' : ℕ), c :: u = x ++ v → x ≠ [] → Outside v →
          Cut d (x ++ (v ++ r)) d' (v ++ r) → ∃ d', Cut d (c :: u ++ r) d' r := by
        intro x v d' hx hne hv hcut
        rw [hx] at hparted ih ⊢
        obtain ⟨d'', hcut'⟩ := ih v.length (by simp [List.length_pos_iff.mpr hne]) hv hparted.suffix d' rfl
        rw [List.append_assoc]
        exact ⟨d'', hcut.trans hcut'⟩
      by_cases hquote : isQuote c = true
      · rw [Outside, List.foldl_cons, quoteBehind, if_pos hquote] at h
        obtain ⟨body, v, rfl, hbody, hv⟩ := exists_closed h
        refine hstep (c :: (body ++ [c])) v d (by simp) (by simp) hv ?_
        simpa using Cut.quoted hquote hbody d (v ++ r)
      have hu : Outside u := by rwa [Outside, List.foldl_cons, quoteBehind, if_neg hquote] at h
      have hsingle : ∀ d' : ℕ, Cut d (c :: (u ++ r)) d' (u ++ r) → ∃ d', Cut d (c :: u ++ r) d' r := fun d' =>
        hstep [c] u d' rfl (by simp) hu
      by_cases hname : isNameChar c = true
      · by_cases hdigit : c.isDigit = true
        · exact hsingle d ⟨[c], rfl, fun _ _ _ => .digit hdigit⟩
        · have hsplit := wordOf_append (c :: u)
          have hall : ∀ x ∈ wordOf (c :: u), isNameChar x = true := fun x hx => List.mem_takeWhile_imp hx
          have hfront : wordOf (c :: u) = c :: wordOf u := List.takeWhile_cons_of_pos hname
          refine hstep _ _ d hsplit.symm (by simp [hfront]) ?_ (.word (.name ⟨c, by rw [hfront]; rfl, ?_⟩ hall) ?_ d)
          · rw [← hsplit] at h
            exact (outside_of_unquoted fun x hx => not_isQuote_of_isNameChar (hall x hx)).append_iff.mp h
          · simpa using hdigit
          · exact hparted.endsWord_dropWhile (by simp)
      have hmark : isNameChar c = false := by simpa using hname
      by_cases hblank : isBlank c = true
      · have hgap : IsGap [c] := ⟨by simp, by simpa using hblank⟩
        exact hsingle d ⟨[c], rfl, fun _ _ _ => .gap hgap hgap⟩
      by_cases hopen : c = '('
      · subst hopen
        exact hsingle (d + 1) (.opening d _)
      by_cases hclose : c = ')'
      · subst hclose
        exact hsingle (d - 1) (.closing d _)
      · exact hsingle d (.mark ⟨hmark, by simpa using hblank, by simpa using hquote, hopen, hclose⟩ d _)

/-- Two texts that are the same up to some place are the same tokens if they are from there on. -/
theorem Outside.sameTokens {E : ℕ → List Char → List Char → Prop} {u r r' : List Char} (h : Outside u)
    (hparted : Parted u r) (hword : EndsWord r → EndsWord r') (hr : ∀ d, SameTokens E d r r') (d : ℕ) :
    SameTokens E d (u ++ r) (u ++ r') := by
  obtain ⟨d', v, heq, hsame⟩ := h.cut hparted d
  obtain rfl := List.append_cancel_right heq
  exact hsame E r' hword (hr d')

/-- Up to their ends tokens close every string literal. -/
theorem SameTokens.outside {E : ℕ → List Char → List Char → Prop} {d : ℕ} {s t : List Char} (h : SameTokens E d s t) :
    ∃ front d' s' t', s = front ++ s' ∧ Outside front ∧ E d' s' t' := by
  have hcons : ∀ {c : Char}, isQuote c = false → ∀ {front : List Char}, Outside front → Outside (c :: front) :=
    fun {c} hc _ hfront => (Outside.append_iff (u := [c]) (outside_of_unquoted (by simpa using hc))).mpr hfront
  induction h with
  | tail h => exact ⟨[], _, _, _, rfl, rfl, h⟩
  | @gap d run run' s t hrun hrun' h ih =>
    obtain ⟨front, d', s', t', rfl, hfront, hend⟩ := ih
    refine ⟨run ++ front, d', s', t', (List.append_assoc ..).symm, ?_, hend⟩
    refine (outside_of_unquoted fun c hc => ?_).append_iff.mpr hfront
    exact Bool.eq_false_iff.mpr fun hq => by simpa [hrun.2 c hc] using not_isBlank_of_isQuote hq
  | digit hc h ih =>
    obtain ⟨front, d', s', t', rfl, hfront, hend⟩ := ih
    exact ⟨_ :: front, d', s', t', rfl, hcons (not_isQuote_of_isNameChar (isNameChar_of_isDigit hc)) hfront, hend⟩
  | @word d w w' s t hw hs ht h ih =>
    obtain ⟨front, d', s', t', rfl, hfront, hend⟩ := ih
    refine ⟨w ++ front, d', s', t', (List.append_assoc ..).symm, ?_, hend⟩
    exact (outside_of_unquoted fun c hc => not_isQuote_of_isNameChar (hw.isName.2 c hc)).append_iff.mpr hfront
  | @quoted d q body s t hq hbody h ih =>
    obtain ⟨front, d', s', t', rfl, hfront, hend⟩ := ih
    refine ⟨q :: (body ++ [q]) ++ front, d', s', t', by simp, Outside.append_iff ?_ |>.mpr hfront, hend⟩
    rw [Outside, List.foldl_cons, quoteBehind, if_pos hq, List.foldl_append, foldl_quoteBehind_of_not_mem hbody]
    simp [quoteBehind]
  | mark hc h ih =>
    obtain ⟨front, d', s', t', rfl, hfront, hend⟩ := ih
    exact ⟨_ :: front, d', s', t', rfl, hcons hc.quote hfront, hend⟩
  | opening h ih =>
    obtain ⟨front, d', s', t', rfl, hfront, hend⟩ := ih
    exact ⟨_ :: front, d', s', t', rfl, hcons rfl hfront, hend⟩
  | closing h ih =>
    obtain ⟨front, d', s', t', rfl, hfront, hend⟩ := ih
    exact ⟨_ :: front, d', s', t', rfl, hcons rfl hfront, hend⟩

/-- Behind a stretch of whole tokens no string literal is open. -/
theorem Cut.outside {d d' : ℕ} {u r : List Char} (h : Cut d (u ++ r) d' r) : Outside u := by
  obtain ⟨v, heq, hsame⟩ := h
  obtain rfl := List.append_cancel_right heq
  obtain ⟨front, _, s', _, hs, hfront, rfl⟩ := (hsame (fun _ s _ => s = r) r id (.tail rfl)).outside
  obtain rfl := List.append_cancel_right hs
  exact hfront

theorem isQuote_of_open : ∀ {v : List Char} {o : Option Char} {q : Char}, (∀ x ∈ o, isQuote x = true) →
    v.foldl quoteBehind o = some q → isQuote q = true
  | [], o, q, ho, h => ho q h
  | c :: v, o, q, ho, h => by
    refine isQuote_of_open (o := quoteBehind o c) (fun x hx => ?_) h
    cases o with
    | none =>
      rw [quoteBehind] at hx
      split at hx
      · cases hx
        assumption
      · cases hx
    | some y =>
      rw [quoteBehind] at hx
      split at hx
      · cases hx
      · cases hx
        exact ho x rfl

/-- Nothing but a quote closes a string literal. -/
theorem Outside.of_unquoted {u v : List Char} (h : Outside (u ++ v)) (hv : ∀ c ∈ v, isQuote c = false) : Outside u := by
  cases hu : u.foldl quoteBehind none with
  | none => exact hu
  | some q =>
    have hq : isQuote q = true := isQuote_of_open (by simp) hu
    rw [Outside, List.foldl_append, hu, foldl_quoteBehind_of_not_mem fun hmem => by simp [hv q hmem] at hq] at h
    cases h

/-! ### The end of a query -/

/-- What is left is the end of a query and blanks. -/
def Ended (s : List Char) : Prop := ∃ found r, termination s = .done found r ∧ r.dropWhile isBlank = []

theorem ended_iff {s : List Char} :
    Ended s ↔ s.dropWhile isBlank = [] ∨ ∃ r, s.dropWhile isBlank = ';' :: r ∧ r.dropWhile isBlank = [] := by
  have happly : termination s = optional (char ';') (s.dropWhile isBlank) := rfl
  constructor
  · rintro ⟨found, r, h, hr⟩
    rw [happly] at h
    rcases optional_eq_done h with ⟨_, -, hc⟩ | ⟨-, rfl, -⟩
    · exact .inr ⟨r, char_eq_done hc, hr⟩
    · exact .inl (by rwa [List.dropWhile_idempotent] at hr)
  · rintro (h | ⟨r, h, hr⟩)
    · refine ⟨none, [], ?_, rfl⟩
      rw [happly, h]
      exact optional_of_misses (misses_char (by simp))
    · refine ⟨some ';', r, ?_, hr⟩
      rw [happly, h, optional_done (char_done ';' r)]

theorem sameTokens_nil {E : ℕ → List Char → List Char → Prop} {d : ℕ} {t : List Char} (h : SameTokens E d [] t) :
    E d [] t := by
  rcases tail_or_shorter h with h | ⟨_, _, _, hlt, -⟩
  · exact h
  · cases hlt

/-- The ends of two spellings are ends of queries together. -/
theorem Ended.of_sameTokens {E : ℕ → List Char → List Char → Prop} {s t : List Char}
    (hE : ∀ {d s t}, E d s t → E d (s.dropWhile isBlank) (t.dropWhile isBlank))
    (htail : ∀ s t, E 0 s t → Ended s → Ended t)
    (hnil : ∀ r, s.dropWhile isBlank = ';' :: r → ∀ t, E 0 [] t → t.dropWhile isBlank = [])
    (h : SameTokens E 0 s t) (hs : Ended s) : Ended t := by
  have hdrop : ∀ {s : List Char}, Ended (s.dropWhile isBlank) ↔ Ended s := by
    intro s
    rw [ended_iff, ended_iff, List.dropWhile_idempotent]
  rw [← hdrop] at hs ⊢
  have hst := SameTokens.dropBlanks (E := E) hE h
  rcases ended_iff.mp (hdrop.mp hs) with hend | ⟨r, hmark, hr⟩
  · rw [hend] at hst hs
    exact htail _ _ (sameTokens_nil hst) hs
  · rw [hmark] at hst hs
    rcases hst.mark_cases (c := ';') (by decide) (by decide) (by decide) with htl | ⟨hno, -⟩ | ⟨r', t', hr', ht, hrt⟩
    · exact htail _ _ htl hs
    · exact absurd rfl hno
    · cases hr'
      have hrest := SameTokens.dropBlanks (E := E) hE hrt
      rw [hr] at hrest
      have hlast := hnil r hmark _ (sameTokens_nil hrest)
      rw [List.dropWhile_idempotent] at hlast
      rw [ht]
      exact ended_iff.mpr (.inr ⟨t', by rw [List.dropWhile_cons_of_neg (by decide)], hlast⟩)

/-! ### Edits -/

/-- The last character of a text that is no blank. -/
def lastMark (s : List Char) : Option Char := (s.reverse.dropWhile isBlank).head?

theorem lastMark_append (s : List Char) {run : List Char} (h : ∀ c ∈ run, isBlank c = true) :
    lastMark (s ++ run) = lastMark s := by
  rw [lastMark, List.reverse_append, List.dropWhile_append_of_pos fun c hc => h c (List.mem_reverse.mp hc), lastMark]

theorem Ended.lastMark_eq {c r : List Char} (h : Ended c) (hr : c.dropWhile isBlank = ';' :: r) (u : List Char) :
    lastMark (u ++ c) = some ';' := by
  have hblank : ∀ x ∈ r, isBlank x = true := by
    rcases ended_iff.mp h with hend | ⟨r', hr', hend⟩
    · rw [hr] at hend
      cases hend
    · rw [hr] at hr'
      cases hr'
      exact List.dropWhile_eq_nil_iff.mp hend
  have hsplit : u ++ c = (u ++ c.takeWhile isBlank ++ [';']) ++ r := by
    conv_lhs => rw [← List.takeWhile_append_dropWhile (p := isBlank) (l := c), hr]
    simp
  rw [hsplit, lastMark_append _ hblank, lastMark, List.reverse_append]
  rfl

/-- A change of the formatting. -/
inductive Edit : List Char → List Char → Prop where
  /-- Other blanks stand in the place of some. -/
  | blanks {front run run' rest : List Char} (outside : Outside front) (old : IsGap run) (new : IsGap run') :
      Edit (front ++ (run ++ rest)) (front ++ (run' ++ rest))
  /-- A reserved word is written in another case. -/
  | letters {front word word' rest : List Char} (outside : Outside front)
      (left : ∀ c ∈ front.getLast?, isNameChar c = false) (right : EndsWord rest)
      (reserved : isReserved (String.ofList word) = true) (same : word.map Char.toLower = word'.map Char.toLower) :
      Edit (front ++ (word ++ rest)) (front ++ (word' ++ rest))
  /-- The semicolon at the end is left out. -/
  | opened {front run : List Char} (outside : Outside front) (blank : ∀ c ∈ run, isBlank c = true) :
      Edit (front ++ ';' :: run) (front ++ run)
  /-- A semicolon is put at the end where there is none. -/
  | closed {front run : List Char} (outside : Outside front) (blank : ∀ c ∈ run, isBlank c = true)
      (missing : lastMark front ≠ some ';') : Edit (front ++ run) (front ++ ';' :: run)
  /-- An item of the selection is named in the other way. -/
  | turned {front s s' : List Char} (item : AtomAt (front ++ s) s) (turn : Turned s s') :
      Edit (front ++ s) (front ++ s')

theorem endsWord_semicolon (s : List Char) : EndsWord (';' :: s) := fun c hc => by
  cases hc
  decide

theorem endsWord_of_blank {run : List Char} (h : ∀ c ∈ run, isBlank c = true) : EndsWord run := fun c hc =>
  not_isNameChar_of_isBlank (h c (List.mem_of_mem_head? hc))

theorem idleClause_of_mark {d : ℕ} {s : List Char} (hs : ∀ c ∈ s.head?, c = ';') : IdleClause d s := by
  have hword : EndsWord s := fun c hc => by
    rw [hs c hc]
    decide
  refine ⟨⟨⟨idle_of_mark hword (fun c hc => ?_) (fun _ c hc => ?_), .inl hword, fun hc => ?_⟩, fun hc => ?_⟩, hword⟩
  · rw [hs c hc]
    decide
  · rw [hs c hc]
    decide
  · exact absurd (hs _ hc) (by decide)
  · exact absurd (hs _ hc) (by decide)

theorem consumes_listing : Consumes 1 listing := by
  have hfrom : Consumes 0 (lexeme (keyword "from")) := ((consumes_keyword (by decide)).mono (Nat.zero_le _)).lexeme
  have hname : Consumes 0 (lexeme namePath) := (consumes_namePath.mono (Nat.zero_le 1)).lexeme
  have hatoms : Consumes 1 (separated1 (symbol ',') atom) :=
    Consumes.separated1 ((consumes_symbol ',').mono (Nat.zero_le 1)) consumes_atom
  exact hatoms.bind_left fun atoms => hfrom.bind_left fun _ => hname.map fun source => (atoms, source)

theorem consumes_head : Consumes 1 head := by
  have htop : Consumes 0 (optional (lexeme topModifier)) :=
    (consumes_topModifier.mono (Nat.zero_le 1)).lexeme.optional
  exact consumes_select.lexeme.bind_left fun _ => htop.bind_left fun lead =>
    (consumes_listing.mono (Nat.zero_le 1)).map fun listed => (lead, listed.1, listed.2)

theorem consumes_placedClauses : Consumes 0 placedClauses :=
  ((consumes_here.bind_right fun start => (consumes_clause.mono (Nat.zero_le 1)).map (start, ·)).lexeme).many

theorem consumes_parts : Consumes 1 parts := by
  rw [parts_eq]
  exact consumes_head.bind_left fun listed => consumes_placedClauses.map _

section Edits

variable {t t' c : List Char} {p : Parts}

/-- Two spellings are read as the same parts, if their ends are ends together. -/
theorem parts_of_sameTokens {E : ℕ → List Char → List Char → Prop} (hE : Tails IdleClause E)
    (h : SameTokens E 0 t t') (hparts : parts t = .done p c) (hc : Ended c)
    (htail : ∀ s t, E 0 s t → Ended s → Ended t)
    (hnil : ∀ r, c.dropWhile isBlank = ';' :: r → ∀ t, E 0 [] t → t.dropWhile isBlank = []) :
    ∃ c', parts t' = .done p c' ∧ Ended c' := by
  have hstep := reads_parts (readsClauses hE) t t' h
  rw [hparts] at hstep
  obtain ⟨_, c', hdone, rfl, hrest⟩ := hstep.exists_done
  exact ⟨c', hdone, hc.of_sameTokens (E := E) hE.blanks htail hnil hrest⟩

/-- The same tokens to the end are the same parts. -/
theorem parts_of_same (h : SameTokens (fun _ s t => s = t) 0 t t') (hparts : parts t = .done p c) (hc : Ended c) :
    ∃ c', parts t' = .done p c' ∧ Ended c' :=
  parts_of_sameTokens .same h hparts hc (fun _ _ h => h ▸ id) fun _ _ _ h => h ▸ rfl

theorem Edit.parts_done (h : Edit t t') (hparts : parts t = .done p c) (hc : Ended c) : ∃ atoms c',
    parts t' = .done { p with atoms := atoms } c' ∧ Ended c' ∧
      atoms.map Atom.normalized = p.atoms.map Atom.normalized := by
  cases h with
  | @blanks front run run' rest outside old new =>
    have hends : ∀ {run : List Char}, IsGap run → EndsWord (run ++ rest) := fun hrun =>
      forall_head_append hrun.1 fun c hc => not_isNameChar_of_isBlank (hrun.2 c hc)
    obtain ⟨c', hdone, hc'⟩ := parts_of_same (outside.sameTokens (.inl (hends old)) (fun _ => hends new)
      (fun d => .gap old new (.tail rfl)) 0) hparts hc
    exact ⟨p.atoms, c', hdone, hc', rfl⟩
  | @letters front word word' rest outside left right reserved same =>
    have hword : SameWord word word' := .reserved reserved same
    have hends : ¬ EndsWord (word ++ rest) := fun h => by
      obtain ⟨c, w, rfl⟩ := List.exists_cons_of_ne_nil hword.ne_nil
      have hname := hword.isName.2 c List.mem_cons_self
      rw [h c rfl] at hname
      cases hname
    obtain ⟨c', hdone, hc'⟩ := parts_of_same (outside.sameTokens (.inr left) (fun h => absurd h hends)
      (fun d => .word hword right right (.tail rfl)) 0) hparts hc
    exact ⟨p.atoms, c', hdone, hc', rfl⟩
  | @opened front run outside blank =>
    have hrun : run.dropWhile isBlank = [] := List.dropWhile_eq_nil_iff.mpr blank
    have hsame := outside.sameTokens (E := GoOn IdleClause (';' :: run) []) (.inl (endsWord_semicolon run))
      (fun _ => endsWord_of_blank blank) (fun d => .tail ⟨⟨rfl, hrun⟩, idleClause_of_mark (by simp),
        idleClause_of_mark (by simp)⟩) 0
    obtain ⟨c', hdone, hc'⟩ := parts_of_sameTokens (tails_goOn (blanksAside fun _ _ => id) _ _) hsame hparts hc
      (fun s t hst _ => ended_iff.mpr (.inl hst.1.2)) fun r _ t hst => by cases hst.1.1
    exact ⟨p.atoms, c', hdone, hc', rfl⟩
  | @closed front run outside blank missing =>
    have hrun : run.dropWhile isBlank = [] := List.dropWhile_eq_nil_iff.mpr blank
    have hopen : ∀ r, c.dropWhile isBlank ≠ ';' :: r := fun r hr => by
      obtain ⟨u, hu, -⟩ := consumes_parts _ _ _ hparts
      refine missing ?_
      rw [← lastMark_append front blank, hu, hc.lastMark_eq hr]
    have hsame := outside.sameTokens (E := GoOn IdleClause [] (';' :: run)) (.inl (endsWord_of_blank blank))
      (fun _ => endsWord_semicolon run) (fun d => .tail ⟨⟨hrun, rfl⟩, idleClause_of_mark (by simp),
        idleClause_of_mark (by simp)⟩) 0
    obtain ⟨c', hdone, hc'⟩ := parts_of_sameTokens (tails_goOn (blanksAside fun _ _ => id) _ _) hsame hparts hc
      (fun s t hst _ => ended_iff.mpr (.inr ⟨run, hst.1.2, hrun⟩)) fun r hr => absurd hr (hopen r)
    exact ⟨p.atoms, c', hdone, hc', rfl⟩
  | @turned front s s' item turn =>
    obtain ⟨atoms, hdone, hsame⟩ := item.parts_done rfl turn.rereads hparts
    exact ⟨atoms, c, hdone, hc, hsame⟩

end Edits

/-! ### Queries -/

/-- The text is one of a query. -/
def Spells (text : List Char) (query : Query) : Prop := ∃ p c, parts text = .done p c ∧ Ended c ∧ p.Makes query

/-- A text is read as a whole if what is left of it is blanks. -/
theorem run_blanks_eq_ok {α : Type} {p : Parser α} {text : String} {a : α} :
    (p.followedBy blanks).run text = .ok a ↔ ∃ r, p text.toList = .done a r ∧ r.dropWhile isBlank = [] := by
  constructor
  · intro h
    obtain ⟨b, r, hp, hbehind⟩ := bind_eq_done (done_of_run h)
    obtain ⟨run, r', hrun, hlast⟩ := bind_eq_done hbehind
    cases hlast
    injection hrun with _ hr
    exact ⟨r, hp, hr⟩
  · rintro ⟨r, hp, hr⟩
    have hrun : blanks r = .done (r.takeWhile isBlank) [] := congrArg (Reply.done _) hr
    exact run_of_done (followedBy_done hp hrun)

theorem parse_eq_ok_iff {text : String} {query : Query} :
    Query.parse text = .ok query ↔ Spells text.toList query := by
  rw [Query.parse, run_blanks_eq_ok]
  constructor
  · rintro ⟨r, hstatement, hr⟩
    obtain ⟨p, c, found, hparts, hend, hmakes⟩ := statement_eq_done.mp hstatement
    exact ⟨p, c, hparts, ⟨found, r, hend, hr⟩, hmakes⟩
  · rintro ⟨p, c, hparts, ⟨found, r, hend, hr⟩, hmakes⟩
    exact ⟨r, statement_eq_done.mpr ⟨p, c, found, hparts, hend, hmakes⟩, hr⟩

theorem normalized_withClause (query : Query) (c : Clause) :
    (query.withClause c).normalized = query.normalized.withClause c := by
  cases c <;> rfl

theorem normalized_clauses : ∀ (clauses : List Clause) (query : Query),
    (clauses.foldl Query.withClause query).normalized = clauses.foldl Query.withClause query.normalized
  | [], _ => rfl
  | c :: clauses, query => by
    rw [List.foldl_cons, List.foldl_cons, normalized_clauses clauses, normalized_withClause]

/-- Items that mean the same make a query that means the same. -/
theorem Grammar.Parts.Makes.of_atoms {p : Parts} {query : Query} (h : p.Makes query) {atoms : List Atom}
    (hatoms : atoms.map Atom.normalized = p.atoms.map Atom.normalized) :
    ∃ query', { p with atoms := atoms }.Makes query' ∧ query'.normalized = query.normalized := by
  refine ⟨_, ⟨h.once, h.lead, rfl⟩, ?_⟩
  rw [h.query, normalized_clauses, normalized_clauses, Query.normalized, Query.normalized, hatoms]

/-- An edited text is one of a query that means the same. -/
theorem Edit.spells {t t' : List Char} (h : Edit t t') {query : Query} (hq : Spells t query) :
    ∃ query', Spells t' query' ∧ query'.normalized = query.normalized := by
  obtain ⟨p, c, hparts, hend, hmakes⟩ := hq
  obtain ⟨atoms, c', hparts', hend', hatoms⟩ := h.parts_done hparts hend
  obtain ⟨query', hmakes', hsame⟩ := hmakes.of_atoms hatoms
  exact ⟨query', ⟨_, c', hparts', hend', hmakes'⟩, hsame⟩

/-- So is a text that is edited again and again. -/
theorem spells_of_edits {t t' : List Char} (h : Relation.ReflTransGen Edit t t') {query : Query}
    (hq : Spells t query) : ∃ query', Spells t' query' ∧ query'.normalized = query.normalized := by
  induction h with
  | refl => exact ⟨query, hq, rfl⟩
  | tail _ hedit ih =>
    obtain ⟨query', hq', hsame⟩ := ih
    obtain ⟨query'', hq'', hsame'⟩ := hedit.spells hq'
    exact ⟨query'', hq'', hsame'.trans hsame⟩

end SelectLang
