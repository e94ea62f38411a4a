/-
# Scripts one after the other

A script followed by another text is read as its own queries and then as that text: nothing of a query reaches
beyond its end, and a failure in what follows is the failure of what follows alone, told further on. The query
at the end of the first script must be told from the text behind it, by a semicolon or by white space and the
word `select` (`Follows`). That a semicolon at the very end is the end of the last query, and none of its
tokens, is seen from the tokens of the query: none of them is a semicolon outside of a string literal.

Key definitions: `Selects`, `EndsQuery`, `Opens`, `Follows`.
Key theorems: `script_eq_done`, `statement_elsewhere`, `script_append`, `Script.parse_append`.
-/
import Mathlib
import SelectLang.Proofs.Grammar.Troubles

namespace SelectLang

open SelectLang.Parser SelectLang.Grammar

/-! ### The queries of a script -/

namespace Grammar

theorem skipsBlanks_script : SkipsBlanks script := fun s => by
  have hskip := skipsBlanks_statement s
  cases h : statement s with
  | done query m => rw [script_cons h, script_cons (hskip.trans h)]
  | miss t =>
    rw [script_apply, script_apply, many_of_misses ⟨t, h⟩, many_of_misses ⟨t, hskip.trans h⟩]
    simp only [List.dropWhile_idempotent]
  | stop t => rw [script_apply, script_apply, many, many.eq_def statement s, h, hskip.trans h]

theorem script_eq_done {s r : List Char} {queries : List Query} : script s = .done ⟨queries⟩ r ↔
    r = [] ∧ ∃ m, many statement s = .done queries m ∧ m.dropWhile isBlank = [] := by
  constructor
  · intro h
    obtain ⟨qs, m, hmany, hbehind⟩ := bind_eq_done h
    obtain ⟨run, m', hblanks, hbehind⟩ := bind_eq_done hbehind
    obtain ⟨_, m'', hend, hlast⟩ := bind_eq_done hbehind
    cases hlast
    injection hblanks with _ hm
    have hend := expecting_eq_done (commit_eq_done hend)
    cases m' with
    | nil =>
      cases hend
      exact ⟨rfl, m, hmany, hm⟩
    | cons c m' => cases hend
  · rintro ⟨rfl, m, hmany, hm⟩
    rw [script_apply, hmany]
    simp only [hm]
    rfl

/-! ### Ends of queries -/

/-- No part of a query can be read here. -/
structure EndsQuery (s : List Char) : Prop where
  idle : IdleList 0 (s.dropWhile isBlank)
  clause : clause.Misses (s.dropWhile isBlank)

/-- No part of a query can be read here, and no semicolon behind one. -/
structure EndsOpen (s : List Char) : Prop extends EndsQuery s where
  unmarked : ';' ∉ (s.dropWhile isBlank).head?

/-- Behind blanks stands the word that begins a query. -/
def Selects (s : List Char) : Prop := (wordOf (s.dropWhile isBlank)).map Char.toLower = "select".toList

theorem selects_of_parts {s c : List Char} {p : Parts} (h : parts s = .done p c) : Selects s := by
  obtain ⟨w, m, hselect, -⟩ := bind_eq_done h
  exact word_of_keyword (by decide) (s := s.dropWhile isBlank) hselect

theorem selects_of_statement {s r : List Char} {query : Query} (h : statement s = .done query r) : Selects s := by
  obtain ⟨p, c, found, hparts, -⟩ := statement_eq_done.mp h
  exact selects_of_parts hparts

theorem Selects.endsOpen {s : List Char} (h : Selects s) : EndsOpen s where
  idle := idleList_of_opener (by decide) h
  clause := misses_clause fun word hword => by
    rw [h]
    revert word
    decide
  unmarked := mark_not_mem_head (by decide) h (by decide)

theorem endsOpen_of_blank {s : List Char} (h : s.dropWhile isBlank = []) : EndsOpen s where
  idle := by
    rw [h]
    exact (idleClause_of_mark (by simp)).toIdleList
  clause := by
    rw [h]
    exact misses_clause_of_end
  unmarked := by simp [h]

theorem endsQuery_of_semicolon {s r : List Char} (h : s.dropWhile isBlank = ';' :: r) : EndsQuery s where
  idle := by
    rw [h]
    exact (idleClause_of_mark (by simp)).toIdleList
  clause := by
    rw [h]
    exact misses_clause_of_mark (by decide) r

theorem begins_append {c : List Char} (h : c ≠ []) (b : List Char) : Begins c (c ++ b) := by
  obtain ⟨x, c, rfl⟩ := List.exists_cons_of_ne_nil h
  exact fun y hy => .inl hy

/-- A query is read again before another rest, if its end is. -/
theorem statement_elsewhere {x c c' m : List Char} {p : Parts} {query : Query} {found : Option Char}
    (hparts : parts (x ++ c) = .done p c) (hmakes : p.Makes query) (hbegins : Begins c c') (hc : EndsQuery c)
    (hc' : EndsQuery c') (hend : termination c' = .done found m) : statement (x ++ c') = .done query m := by
  obtain ⟨y, hy, hrest⟩ := parts_elsewhere hparts ⟨hbegins, hc.idle, hc'.idle⟩ hc'.clause
  have hskip : SkipsBlanks termination := skipsBlanks_lexeme _
  exact statement_eq_done.mpr ⟨p, y, found, hy, by rw [← hskip, hrest, hskip, hend], hmakes⟩

/-! ### The next script -/

/-- Behind the first text the second may begin with a query. -/
structure Opens (b : List Char) : Prop extends EndsOpen b where
  begins : Begins [] b

theorem EndsOpen.of_blanks {s s' : List Char} (hs : s'.dropWhile isBlank = s.dropWhile isBlank) (h : EndsOpen s) :
    EndsOpen s' := ⟨⟨hs ▸ h.idle, hs ▸ h.clause⟩, hs ▸ h.unmarked⟩

theorem EndsOpen.termination_eq {c : List Char} (h : EndsOpen c) :
    termination c = .done none (c.dropWhile isBlank) := by
  rw [termination, lexeme_apply, optional_of_misses (misses_char h.unmarked)]

/-- A query that nothing but its parts ends is read again before another rest that ends it. -/
theorem statement_open {x c c' : List Char} {p : Parts} {query : Query} (hparts : parts (x ++ c) = .done p c)
    (hmakes : p.Makes query) (hbegins : Begins c c') (hc : EndsOpen c) (hc' : EndsOpen c') :
    statement (x ++ c') = .done query (c'.dropWhile isBlank) :=
  statement_elsewhere hparts hmakes hbegins hc.toEndsQuery hc'.toEndsQuery hc'.termination_eq

theorem termination_of_semicolon {c m : List Char} (h : c.dropWhile isBlank = ';' :: m) :
    termination c = .done (some ';') m := by
  rw [termination, lexeme_apply, h, optional_done (char_done ';' m)]

theorem dropWhile_append_of_blank {c : List Char} (h : c.dropWhile isBlank = []) (b : List Char) :
    (c ++ b).dropWhile isBlank = b.dropWhile isBlank :=
  List.dropWhile_append_of_pos (List.dropWhile_eq_nil_iff.mp h)

theorem dropWhile_append_of_cons {c k : List Char} {x : Char} (h : c.dropWhile isBlank = x :: k) (b : List Char) :
    (c ++ b).dropWhile isBlank = x :: (k ++ b) := by
  rw [List.dropWhile_append, h]
  rfl

section Append

variable {b s m : List Char} {query : Query}

/-- A query is read before its own rest with another text behind it, if its end is told from that text. -/
theorem statement_append (h : statement s = .done query m)
    (hlast : ∀ p c, parts s = .done p c → c.dropWhile isBlank = [] → Opens b)
    (hnext : m.dropWhile isBlank ≠ [] → Selects m ∧ Selects (m ++ b)) :
    statement.ReadsUpTo (s ++ b) query (m ++ b) := by
  obtain ⟨p, c, found, hparts, hend, hmakes⟩ := statement_eq_done.mp h
  obtain ⟨x, rfl, -⟩ := consumes_parts _ _ _ hparts
  rw [List.append_assoc]
  cases hc : c.dropWhile isBlank with
  | nil =>
    have hopen := hlast p c hparts hc
    have hdrop := dropWhile_append_of_blank hc b
    have hends := endsOpen_of_blank hc
    have hends' := hopen.toEndsOpen.of_blanks hdrop
    have hbegins : Begins c (c ++ b) := by
      have := hopen.begins.append c
      rwa [List.append_nil] at this
    rw [hends.termination_eq, hc] at hend
    cases hend
    refine ⟨_, statement_open hparts hmakes hbegins hends hends', ?_⟩
    rw [List.dropWhile_idempotent, hdrop, List.nil_append]
  | cons y k =>
    have hdrop := dropWhile_append_of_cons hc b
    have hbegins : Begins c (c ++ b) := begins_append (by rintro rfl; cases hc) b
    by_cases hy : y = ';'
    · subst hy
      rw [termination_of_semicolon hc] at hend
      cases hend
      exact ⟨_, statement_elsewhere hparts hmakes hbegins (endsQuery_of_semicolon hc) (endsQuery_of_semicolon hdrop)
        (termination_of_semicolon hdrop), rfl⟩
    · have hm : m = y :: k := by
        rw [termination, lexeme_apply, hc, optional_of_misses (misses_char (by simpa using hy))] at hend
        cases hend
        rfl
      subst hm
      have hsolid : (y :: k).dropWhile isBlank = y :: k := by rw [← hc, List.dropWhile_idempotent]
      have hsolid' : (y :: (k ++ b)).dropWhile isBlank = y :: (k ++ b) := by rw [← hdrop, List.dropWhile_idempotent]
      obtain ⟨hselects, hselects'⟩ := hnext (by rw [hsolid]; simp)
      have hends := hselects.endsOpen.of_blanks (hc.trans hsolid.symm)
      have hends' := hselects'.endsOpen.of_blanks (hdrop.trans hsolid'.symm)
      refine ⟨_, statement_open hparts hmakes hbegins hends hends', ?_⟩
      rw [hdrop, List.cons_append]

/-- A script is read before another one, which begins where it ends. -/
theorem script_append : ∀ {queries : List Query} {s k : List Char}, many statement s = .done queries k →
    k.dropWhile isBlank = [] →
    (∀ x s' p c, s = x ++ s' → parts s' = .done p c → c.dropWhile isBlank = [] → Opens b) →
    (queries ≠ [] → Selects (s ++ b)) ∧
      script (s ++ b) = (script b).map fun more => ⟨queries ++ more.statements⟩
  | queries, s, k, h, hk, hlast => by
    rcases many_eq_done h with ⟨rfl, rfl, -⟩ | ⟨query, m, rest, hquery, -, hrest, rfl⟩
    · refine ⟨fun h0 => absurd rfl h0, ?_⟩
      rw [← skipsBlanks_script, dropWhile_append_of_blank hk, skipsBlanks_script]
      cases script b <;> rfl
    · obtain ⟨x, hx, -⟩ := consumes_statement _ _ _ hquery
      obtain ⟨hselects, hscript⟩ := script_append hrest hk fun y s' p c hy => hlast (x ++ y) s' p c (by
        rw [hx, hy, List.append_assoc])
      have hread := statement_append hquery (fun p c => hlast [] s p c rfl) fun hm => by
        rcases many_eq_done hrest with ⟨rfl, rfl, -⟩ | ⟨next, m', more, hnext, -, -, rfl⟩
        · exact absurd hk hm
        · exact ⟨selects_of_statement hnext, hselects (by simp)⟩
      obtain ⟨y, hy, hrest'⟩ := hread
      refine ⟨fun _ => selects_of_statement hy, ?_⟩
      rw [script_cons hy, ← skipsBlanks_script, hrest', skipsBlanks_script, hscript]
      cases script b <;> rfl
termination_by queries => queries.length

end Append

/-! ### White space -/

theorem exists_range : ∀ {ranges : List (ℕ × ℕ)} {code : ℕ}, Unicode.inRanges ranges code = true →
    ∃ range ∈ ranges, range.1 ≤ code ∧ code ≤ range.2
  | (first, last) :: ranges, code, h => by
    rw [Unicode.inRanges] at h
    by_cases hfirst : code < first
    · rw [if_pos hfirst] at h
      cases h
    rw [if_neg hfirst] at h
    by_cases hlast : code ≤ last
    · exact ⟨(first, last), List.mem_cons_self, not_lt.mp hfirst, hlast⟩
    · rw [if_neg hlast] at h
      obtain ⟨range, hmem, hcode⟩ := exists_range h
      exact ⟨range, List.mem_cons_of_mem _ hmem, hcode⟩

/-- The marks of the language. -/
def marks : List Char := ['\'', '"', '.', '*', '/', '%', '+', '-', '|', '>', '(', ')', ',', ':', '=', ';']

theorem whiteSpace_marks : ∀ range ∈ Unicode.whiteSpaceRanges, ∀ k < range.2 - range.1 + 1,
    isNameChar (Char.ofNat (range.1 + k)) = false ∧ Char.ofNat (range.1 + k) ∉ marks := by
  decide +kernel

/-- White space is no part of a word and no mark. -/
theorem not_mark_of_isWhiteSpace {c : Char} (h : Unicode.isWhiteSpace c = true) : isNameChar c = false ∧ c ∉ marks := by
  obtain ⟨range, hmem, hfirst, hlast⟩ := exists_range h
  have hmarks := whiteSpace_marks range hmem (c.toNat - range.1) (by omega)
  rwa [Nat.add_sub_cancel' hfirst, Char.ofNat_toNat] at hmarks

theorem endsOpen_of_whiteSpace {s : List Char} {c : Char} (hc : c ∈ (s.dropWhile isBlank).head?)
    (h : Unicode.isWhiteSpace c = true) : EndsOpen s := by
  obtain ⟨hname, hmark⟩ := not_mark_of_isWhiteSpace h
  have hhead : ∀ x ∈ (s.dropWhile isBlank).head?, x = c := fun x hx => Option.mem_unique hx hc
  have hword : EndsWord (s.dropWhile isBlank) := fun x hx => by rwa [hhead x hx]
  have hno : ∀ {l : List Char}, l ⊆ marks → ∀ x ∈ (s.dropWhile isBlank).head?, x ∉ l := fun hl x hx hmem =>
    hmark (hhead x hx ▸ hl hmem)
  have hnot : ∀ {x : Char}, x ∈ marks → x ∉ (s.dropWhile isBlank).head? := fun hx hmem => hmark (hhead _ hmem ▸ hx)
  refine ⟨⟨⟨⟨idle_of_mark hword (hno (by decide)) fun _ => hno (by decide), .inl hword, hnot (by decide)⟩,
    hnot (by decide)⟩, misses_clause fun word hmem => ?_⟩, hnot (by decide)⟩
  rw [hword.wordOf_eq_nil]
  revert word
  decide

/-- White space and the word `select` begin a query. -/
theorem opens_of_select {gap s w r : List Char} (hne : gap ≠ []) (hgap : ∀ c ∈ gap, Unicode.isWhiteSpace c = true)
    (h : keyword "select" s = .done w r) : Opens (gap ++ s) := by
  have hbegins : Begins [] (gap ++ s) := forall_head_append hne fun c hc => by
    obtain ⟨hname, hmark⟩ := not_mark_of_isWhiteSpace (hgap c hc)
    refine .inr ⟨hname, ?_⟩
    rintro rfl
    exact hmark (by decide)
  refine ⟨?_, hbegins⟩
  cases hdrop : gap.dropWhile isBlank with
  | nil =>
    have hword := word_of_keyword (by decide) h
    refine Selects.endsOpen ?_
    rw [Selects, dropWhile_append_of_blank hdrop, dropWhile_isBlank fun c hc => ?_, hword]
    by_contra hblank
    rw [Bool.not_eq_false] at hblank
    exact mark_not_mem_head (by decide) hword (not_isNameChar_of_isBlank hblank) hc
  | cons c k =>
    refine endsOpen_of_whiteSpace (c := c) ?_ (hgap c ?_)
    · rw [dropWhile_append_of_cons hdrop]
      rfl
    · exact (List.dropWhile_suffix isBlank).subset (hdrop ▸ List.mem_cons_self)

/-! ### The last semicolon -/

/-- No query up to its end ends with a semicolon, white space behind it or not. -/
theorem parts_ne_semicolon {v w c : List Char} {p : Parts} (hw : ∀ x ∈ w, isQuote x = false) :
    parts (v ++ ';' :: (w ++ c)) ≠ .done p c := fun h => by
  have hcut : Cut 0 ((v ++ ';' :: w) ++ c) 0 c := by
    rw [List.append_assoc, List.cons_append]
    exact cut_of_parts h
  have hmark : ∀ x ∈ ';' :: w, isQuote x = false := List.forall_mem_cons.mpr ⟨rfl, hw⟩
  have houtside : Outside v := hcut.outside.of_unquoted hmark
  have hends : EndsWord (';' :: (w ++ c)) := endsWord_semicolon _
  have hsame : SameTokens (GoOn IdleClause (';' :: (w ++ c)) []) 0 (v ++ ';' :: (w ++ c)) (v ++ []) :=
    houtside.sameTokens (.inl hends) (fun _ => endsWord_of_blank (by simp))
      (fun d => .tail ⟨⟨rfl, rfl⟩, idleClause_of_mark (by simp), idleClause_of_mark (by simp)⟩) 0
  have hstep := reads_parts (readsClauses (tails_goOn (blanksAside fun _ _ => id) _ _)) _ _ hsame
  rw [h] at hstep
  obtain ⟨_, c', -, -, hrest⟩ := hstep.exists_done
  have := length_le_of_goOn hrest
  simp only [List.length_cons, List.length_append] at this
  omega

theorem not_selects_of_whiteSpace {s : List Char} (h : ∀ c ∈ s, Unicode.isWhiteSpace c = true) : ¬ Selects s :=
  fun hselects => by
    have hword : EndsWord (s.dropWhile isBlank) := fun c hc =>
      (not_mark_of_isWhiteSpace (h c ((List.dropWhile_suffix isBlank).subset (List.mem_of_mem_head? hc)))).1
    rw [Selects, hword.wordOf_eq_nil] at hselects
    cases hselects

theorem not_isQuote_of_isWhiteSpace {c : Char} (h : Unicode.isWhiteSpace c = true) : isQuote c = false := by
  by_contra hquote
  rw [Bool.not_eq_false] at hquote
  refine (not_mark_of_isWhiteSpace h).2 ?_
  rcases isQuote_iff.mp hquote with rfl | rfl <;> decide

/-- No query of a text that ends with a semicolon ends open at the end of the text. -/
theorem not_open_of_semicolon {a x s c : List Char} {p : Parts} (ha : ';' ∈ (Unicode.trimEnd a).getLast?)
    (hs : a = x ++ s) (hparts : parts s = .done p c) : c.dropWhile isBlank ≠ [] := fun hc => by
  have hblank : ∀ y ∈ c, isBlank y = true := List.dropWhile_eq_nil_iff.mp hc
  obtain ⟨front, hfront⟩ := List.getLast?_eq_some_iff.mp ha
  obtain ⟨w, hw, hsplit⟩ : ∃ w, (∀ y ∈ w, Unicode.isWhiteSpace y = true) ∧ a = front ++ ';' :: w := by
    refine ⟨(a.reverse.takeWhile Unicode.isWhiteSpace).reverse, fun y hy =>
      List.mem_takeWhile_imp (List.mem_reverse.mp hy), ?_⟩
    have htrim : Unicode.trimEnd a ++ (a.reverse.takeWhile Unicode.isWhiteSpace).reverse = a := by
      rw [Unicode.trimEnd, ← List.reverse_append, List.takeWhile_append_dropWhile, List.reverse_reverse]
    rw [hfront, List.append_assoc] at htrim
    exact htrim.symm
  have hwhite : ¬ s <:+ w := fun hsub =>
    not_selects_of_whiteSpace (fun y hy => hw y (hsub.subset hy)) (selects_of_parts hparts)
  obtain ⟨v, rfl⟩ : ';' :: w <:+ s := by
    rcases List.suffix_or_suffix_of_suffix (⟨x, hs.symm⟩ : s <:+ a) ⟨front, hsplit.symm⟩ with hsub | hsub
    · rcases List.suffix_cons_iff.mp hsub with rfl | hsub
      · exact List.suffix_refl _
      · exact absurd hsub hwhite
    · exact hsub
  obtain ⟨u, hu, -⟩ := consumes_parts _ _ _ hparts
  obtain ⟨w', rfl⟩ : c <:+ w := by
    have hmark : ';' ∉ c := fun hmem => absurd (hblank _ hmem) (by decide)
    rcases List.suffix_or_suffix_of_suffix (⟨u, hu.symm⟩ : c <:+ v ++ ';' :: w) ⟨v, rfl⟩ with hsub | hsub
    · rcases List.suffix_cons_iff.mp hsub with rfl | hsub
      · exact absurd List.mem_cons_self hmark
      · exact hsub
    · exact absurd (hsub.subset List.mem_cons_self) hmark
  exact parts_ne_semicolon (fun y hy => not_isQuote_of_isWhiteSpace (hw y (List.mem_append_left c hy))) hparts

end Grammar

/-! ### Scripts -/

/-- The second text may follow the first as a script of its own: the first one is empty or ends with a semicolon,
or the second begins with white space and the word `select`. -/
def Follows (a b : String) : Prop :=
  a = "" ∨ ';' ∈ (Unicode.trimEnd a.toList).getLast? ∨ ∃ gap s w r, b.toList = gap ++ s ∧ gap ≠ [] ∧
    (∀ c ∈ gap, Unicode.isWhiteSpace c = true) ∧ keyword "select" s = .done w r

theorem Script.parse_eq_ok {text : String} {script : Script} :
    Script.parse text = .ok script ↔ ∃ r, Grammar.script text.toList = .done script r := by
  refine ⟨fun h => ⟨[], done_of_run h⟩, fun ⟨r, h⟩ => ?_⟩
  obtain rfl := (script_eq_done.mp h).1
  rw [Script.parse, Parser.run, whole, h]

theorem Script.parse_eq_error {text : String} {d : Diagnostic} : Script.parse text = .error d ↔
    ∃ t, (Grammar.script text.toList = .miss t ∨ Grammar.script text.toList = .stop t) ∧
      d = .ofTrouble text.toList t := by
  rw [Script.parse, Parser.run, whole]
  cases h : Grammar.script text.toList with
  | done script r =>
    obtain rfl := (script_eq_done.mp h).1
    simp
  | miss t => simp [eq_comm]
  | stop t => simp [eq_comm]

/-- A script and a text that may follow it are read as the queries of both. If the second text cannot be read,
neither can both, which is told alike, further on by the bytes of the first. -/
theorem Script.parse_append {a b : String} {script : Script} (ha : Script.parse a = .ok script) (hb : Follows a b) :
    ((∃ both, Script.parse (a ++ b) = .ok both) ↔ ∃ more, Script.parse b = .ok more) ∧
    (∀ more, Script.parse b = .ok more → Script.parse (a ++ b) = .ok ⟨script.statements ++ more.statements⟩) ∧
    ∀ d, Script.parse b = .error d → ∃ d', Script.parse (a ++ b) = .error d' ∧ d'.finding = d.finding ∧
      d'.position.offset = a.utf8ByteSize + d.position.offset := by
  obtain ⟨queries⟩ := script
  obtain ⟨-, m, hmany, hm⟩ := script_eq_done.mp (done_of_run ha)
  have hscript : Grammar.script (a ++ b).toList =
      (Grammar.script b.toList).map fun more => ⟨queries ++ more.statements⟩ := by
    rw [String.toList_append]
    refine (Grammar.script_append hmany hm fun x s p c hx hparts hc => ?_).2
    rcases hb with rfl | hmark | ⟨gap, s', w, r, hgap, hne, hwhite, hselect⟩
    · obtain ⟨u, hu, hlen⟩ := consumes_parts _ _ _ hparts
      have : (x ++ s).length = 0 := by rw [← hx]; rfl
      rw [hu, List.length_append, List.length_append] at this
      omega
    · exact absurd hc (not_open_of_semicolon hmark hx hparts)
    · rw [hgap]
      exact opens_of_select hne hwhite hselect
  have hdone : ∀ more, Script.parse b = .ok more →
      Script.parse (a ++ b) = .ok ⟨queries ++ more.statements⟩ := fun more hmore => by
    obtain ⟨r, hmore⟩ := Script.parse_eq_ok.mp hmore
    exact Script.parse_eq_ok.mpr ⟨r, by rw [hscript, hmore, Reply.map]⟩
  have hfail : ∀ d, Script.parse b = .error d → ∃ d', Script.parse (a ++ b) = .error d' ∧ d'.finding = d.finding ∧
      d'.position.offset = a.utf8ByteSize + d.position.offset := fun d hd => by
    obtain ⟨t, hreply, rfl⟩ := Script.parse_eq_error.mp hd
    have hrest : t.rest <:+ b.toList := by
      have hstays := stays_script b.toList
      rcases hreply with hreply | hreply <;> rwa [hreply] at hstays
    have hreply' : Grammar.script (a ++ b).toList = .miss t ∨ Grammar.script (a ++ b).toList = .stop t :=
      hreply.imp (fun h => by rw [hscript, h, Reply.map]) fun h => by rw [hscript, h, Reply.map]
    have htold := Diagnostic.ofTrouble_append a.toList hrest
    rw [← String.toList_append, String.ofList_toList] at htold
    exact ⟨_, Script.parse_eq_error.mpr ⟨t, hreply', rfl⟩, htold⟩
  refine ⟨⟨?_, ?_⟩, hdone, hfail⟩
  · rintro ⟨both, hboth⟩
    cases hmore : Script.parse b with
    | ok more => exact ⟨more, rfl⟩
    | error d =>
      obtain ⟨d', hd', -⟩ := hfail d hmore
      rw [hboth] at hd'
      cases hd'
  · rintro ⟨more, hmore⟩
    exact ⟨_, hdone more hmore⟩

/-- A script may follow itself. -/
theorem parse_append_itself :
    let script : Script := ⟨[⟨⟨["b"]⟩, [.expression (.wildcard 1) none], .all, [], none, some 1, none⟩]⟩
    Script.parse script.render = .ok script ∧ Follows script.render script.render ∧
      Script.parse (script.render ++ script.render) = .ok ⟨script.statements ++ script.statements⟩ := by
  intro script
  have hparse : Script.parse script.render = .ok script := parse_render_script (by decide)
  have hfollows : Follows script.render script.render := .inr (.inl (by decide))
  exact ⟨hparse, hfollows, (Script.parse_append hparse hfollows).2.1 script hparse⟩

end SelectLang
