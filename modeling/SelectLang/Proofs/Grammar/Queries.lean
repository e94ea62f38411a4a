/-
# Queries read back

A printable query, and a script of printable queries, is read off its canonical text, and so is a
printable expression. An item of a selection or an ordering ends where its expression ends and neither
a word that names or directs it nor a mark that assigns comes next (`EndsItem`). The clauses of the
canonical text are a list of clauses of different kinds (`Query.clauses`), which put into the bare
query one after the other are the query.

Key definitions: `EndsItem`, `Query.clauses`, `Clause.render`.
Key theorems: `statement_done`, `script_done`, `parse_render`.
-/
import Mathlib
import SelectLang.Grammar.Script
import SelectLang.Proofs.Grammar.Expressions

namespace SelectLang
namespace Grammar

open SelectLang.Parser

/-! ### What may follow an item -/

/-- The words that go on with an item. -/
def itemWords : List String := ["as", "asc", "ascending", "desc", "descending"]

/-- An item of a selection or of an ordering ends here. -/
structure EndsItem (s : List Char) : Prop where
  ends : Ends 0 s
  mark : '=' ∉ (s.dropWhile isBlank).head?
  word : ∀ word ∈ itemWords, (wordOf (s.dropWhile isBlank)).map Char.toLower ≠ word.toList

theorem endsItem_mark {c : Char} (hc : c ∈ [',', ';']) (s : List Char) : EndsItem (c :: s) := by
  have h : c ∈ [',', ')', ';', ':'] ∧ c ≠ '=' ∧ isBlank c = false ∧ isNameChar c = false := by
    simp only [List.mem_cons, List.not_mem_nil, or_false] at hc
    rcases hc with rfl | rfl <;> decide
  have hdrop : (c :: s).dropWhile isBlank = c :: s := List.dropWhile_cons_of_neg (by simp [h.2.2.1])
  have hword : wordOf (c :: s) = [] := by
    rw [wordOf, List.takeWhile_cons_of_neg (by simp [h.2.2.2])]
  refine ⟨ends_mark h.1 0 s, ?_, ?_⟩
  · rw [hdrop, List.head?_cons, Option.mem_def, Option.some.injEq]
    exact h.2.1
  · rw [hdrop, hword]
    decide

/-- Behind a blank a word of the language does not carry an expression on. -/
theorem ends_word {word : String} (hw : word.toList.all isKeywordLetter = true)
    (hne : word.toList ≠ []) (rest : List Char) : Ends 0 (' ' :: (word.toList ++ rest)) := by
  obtain ⟨k, w, hk⟩ := List.exists_cons_of_ne_nil hne
  rw [hk, List.all_cons, Bool.and_eq_true] at hw
  rw [hk, List.cons_append]
  have hn := isKeywordLetter_toNat hw.1
  refine ends_blank (fun hc => ?_) (isBlank_of_isNameChar
    (isNameChar_of_toLower hw.1 (toLower_of_isKeywordLetter hw.1))) _
  simp only [carriers, List.mem_cons, List.not_mem_nil, or_false] at hc
  rcases hc with rfl | rfl | rfl | rfl | rfl | rfl | rfl <;> revert hn <;> decide

/-- A word of the language does not begin with a blank. -/
theorem not_isBlank_word {word : String} (hw : word.toList.all isKeywordLetter = true)
    (hne : word.toList ≠ []) (rest : List Char) :
    ∀ c ∈ (word.toList ++ rest).head?, isBlank c = false := fun c hc => by
  obtain ⟨k, w, hk⟩ := List.exists_cons_of_ne_nil hne
  rw [hk] at hc hw
  cases hc
  rw [List.all_cons, Bool.and_eq_true] at hw
  exact isBlank_of_isNameChar (isNameChar_of_toLower hw.1 (toLower_of_isKeywordLetter hw.1))

theorem solid_word {word : String} (hw : word.toList.all isKeywordLetter = true)
    (hne : word.toList ≠ []) (rest : List Char) :
    (word.toList ++ rest).dropWhile isBlank = word.toList ++ rest :=
  dropWhile_isBlank (not_isBlank_word hw hne rest)

theorem endsItem_word {word : String} (hw : word.toList.all isKeywordLetter = true)
    (hne : word.toList ≠ []) (hword : word ∉ itemWords) {rest : List Char} (hr : EndsWord rest) :
    EndsItem (' ' :: (word.toList ++ rest)) := by
  have hdrop : (' ' :: (word.toList ++ rest)).dropWhile isBlank = word.toList ++ rest := by
    rw [List.dropWhile_cons_of_pos rfl, solid_word hw hne]
  refine ⟨ends_word hw hne rest, ?_, fun other hother => ?_⟩
  · obtain ⟨k, w, hk⟩ := List.exists_cons_of_ne_nil hne
    rw [hk, List.all_cons, Bool.and_eq_true] at hw
    rw [hdrop, hk]
    intro hc
    cases hc
    exact absurd hw.1 (by decide)
  · rw [hdrop, wordOf_keyword hw hr, toLower_keyword hw]
    intro h
    rw [String.toList_inj] at h
    exact hword (h ▸ hother)

/-- A selection or an ordering ends here. -/
structure EndsList (s : List Char) : Prop extends EndsItem s where
  comma : ',' ∉ (s.dropWhile isBlank).head?

theorem endsList_semicolon (s : List Char) : EndsList (';' :: s) :=
  ⟨endsItem_mark (by decide) s, by rw [List.dropWhile_cons_of_neg (by decide)]; simp⟩

theorem endsList_word {word : String} (hw : word.toList.all isKeywordLetter = true)
    (hne : word.toList ≠ []) (hword : word ∉ itemWords) {rest : List Char} (hr : EndsWord rest) :
    EndsList (' ' :: (word.toList ++ rest)) where
  toEndsItem := endsItem_word hw hne hword hr
  comma := by
    obtain ⟨k, w, hk⟩ := List.exists_cons_of_ne_nil hne
    rw [List.dropWhile_cons_of_pos rfl, solid_word hw hne, hk]
    rw [hk, List.all_cons, Bool.and_eq_true] at hw
    intro hc
    cases hc
    exact absurd hw.1 (by decide)

theorem endsWord_blank (s : List Char) : EndsWord (' ' :: s) := (endsToken_blank s).endsWord

/-! ### Tokens behind a blank -/

theorem lexeme_keyword_done {word : String} (hw : word.toList.all isKeywordLetter = true)
    (hne : word.toList ≠ []) {rest : List Char} (hr : EndsWord rest) :
    lexeme (keyword word) (' ' :: (word.toList ++ rest)) = .done word.toList rest := by
  rw [(skipsBlanks_lexeme _).cons rfl, lexeme_apply, solid_word hw hne, keyword_text_done hw hr]

theorem lexeme_namePath_done {path : NamePath} (h : path.isProper = true) {rest : List Char}
    (hr : EndsToken rest) :
    lexeme namePath (' ' :: (path.dotted.toList ++ rest)) = .done path rest := by
  rw [(skipsBlanks_lexeme _).cons rfl, lexeme_apply, solid_of_isProper h, namePath_done h hr]

/-! ### Items -/

/-- Items with a comma and a blank between them are read back if each of them is. -/
theorem items_done {α : Type} {p : Parser α} (hp : SkipsBlanks p) {render : α → String} {as : List α}
    (hne : as ≠ []) (h : ∀ a ∈ as, ∀ t, EndsItem t → p ((render a).toList ++ t) = .done a t)
    {rest : List Char} (hr : EndsList rest) :
    separated1 (symbol ',') p ((", ".intercalate (as.map render)).toList ++ rest) = .done as rest := by
  obtain ⟨a, as, rfl⟩ := List.exists_cons_of_ne_nil hne
  rw [List.map_cons, toList_intercalate_cons, List.flatMap_map, List.append_assoc]
  refine separated1_done (h a List.mem_cons_self _ ?_)
    (commaTail_done hp (fun t => endsItem_mark (by decide) _) hr.toEndsItem hr.comma fun b hb =>
      h b (List.mem_cons_of_mem a hb))
  cases as with
  | nil => exact hr.toEndsItem
  | cons b as => exact endsItem_mark (by decide) _

theorem skipsBlanks_atom : SkipsBlanks atom :=
  SkipsBlanks.orElse (((skipsBlanks_lexeme namePath).bind _).bind _) (skipsBlanks_expression.bind _)

theorem skipsBlanks_sortTerm : SkipsBlanks sortTerm := skipsBlanks_expression.bind _

/-- An expression alone is an item if what begins it is not assigned and what follows names nothing. -/
theorem atom_of_expression {s rest : List Char} {e : Expr} (hf : Front rest s)
    (he : expression s = .done e rest) (hr : EndsItem rest) :
    atom s = .done (.expression e none) rest := by
  have has : (lexeme (keyword "as")).Misses rest :=
    misses_keyword (by decide) (hr.word "as" (by decide))
  refine firstOf_cons_of_misses (misses_separatedPair (hf.misses_path (by decide) hr.mark)).bind ?_
  rw [firstOf_single, bind_done he, bind_done (optional_of_misses (has.after _)), pure_apply]

theorem atom_done {a : Atom} (h : a.wellFormed Binary64.isPlain = true) {rest : List Char}
    (hr : EndsItem rest) : atom (a.render.toList ++ rest) = .done a rest := by
  rw [Atom.wellFormed, Bool.and_eq_true] at h
  cases a with
  | expression e output =>
    have he : e.isPrintable = true := h.1
    cases output with
    | none => exact atom_of_expression (front he hr.ends.token) (expression_done (readsBack he) hr.ends) hr
    | some output =>
      have hpath : output.isProper = true := h.2
      have htext : (Atom.expression e (some output)).render.toList ++ rest =
          e.render.toList ++ ' ' :: ("as".toList ++ ' ' :: (output.dotted.toList ++ rest)) := by
        simp [Atom.render]
      have hassign : ((lexeme namePath).after (symbol '=')).Misses
          (e.render.toList ++ ' ' :: ("as".toList ++ ' ' :: (output.dotted.toList ++ rest))) :=
        (front he (endsToken_blank _)).misses_path (by decide) nofun
      have hkey : lexeme (keyword "as") (' ' :: ("as".toList ++ ' ' :: (output.dotted.toList ++ rest))) =
          .done "as".toList (' ' :: (output.dotted.toList ++ rest)) :=
        lexeme_keyword_done (by decide) (by decide) (endsWord_blank _)
      have hname : lexeme namePath (' ' :: (output.dotted.toList ++ rest)) = .done output rest :=
        lexeme_namePath_done hpath hr.ends.token
      have hends : Ends 0 (' ' :: ("as".toList ++ ' ' :: (output.dotted.toList ++ rest))) :=
        ends_word (by decide) (by decide) _
      have hvalue := expression_done (readsBack he) hends
      rw [htext]
      refine firstOf_cons_of_misses (misses_separatedPair hassign).bind ?_
      rw [firstOf_single, bind_done hvalue, bind_done (optional_done (after_commit_done hkey hname)),
        pure_apply]
  | assignment output e =>
    have he : e.isPrintable = true := h.1
    have hpath : output.isProper = true := h.2
    have htext : (Atom.assignment output e).render.toList ++ rest =
        output.dotted.toList ++ ' ' :: '=' :: ' ' :: (e.render.toList ++ rest) := by
      simp [Atom.render]
    have hname : lexeme namePath (output.dotted.toList ++ ' ' :: '=' :: ' ' :: (e.render.toList ++ rest)) =
        .done output (' ' :: '=' :: ' ' :: (e.render.toList ++ rest)) := by
      rw [lexeme_apply, solid_of_isProper hpath, namePath_done hpath (endsToken_blank _)]
    have hmark : symbol '=' (' ' :: '=' :: ' ' :: (e.render.toList ++ rest)) =
        .done '=' ((' ' :: (e.render.toList ++ rest)).dropWhile isBlank) := symbol_done rfl
    have hvalue : expression ((' ' :: (e.render.toList ++ rest)).dropWhile isBlank) = .done e rest := by
      rw [skipsBlanks_expression, skipsBlanks_expression.cons rfl, expression_done (readsBack he) hr.ends]
    rw [htext]
    exact firstOf_cons_done (bind_done (separatedPair_done hname hmark hvalue))

/-- No direction stands where an item ends. -/
theorem misses_direction {rest : List Char} (hr : EndsItem rest) : (lexeme direction).Misses rest := by
  have hmiss : ∀ word ∈ itemWords, word.toList.all isKeywordLetter = true →
      (keyword word).Misses (rest.dropWhile isBlank) :=
    fun word hmem hw => misses_keyword hw (hr.word word hmem)
  refine misses_firstOf ?_
  simp only [List.mem_cons, List.not_mem_nil, or_false, forall_eq_or_imp, forall_eq]
  refine ⟨Misses.bind (misses_firstOf ?_), Misses.bind (misses_firstOf ?_)⟩ <;>
    simp only [List.mem_cons, List.not_mem_nil, or_false, forall_eq_or_imp, forall_eq]
  · exact ⟨hmiss "asc" (by decide) (by decide), hmiss "ascending" (by decide) (by decide)⟩
  · exact ⟨hmiss "desc" (by decide) (by decide), hmiss "descending" (by decide) (by decide)⟩

theorem direction_done {rest : List Char} (hr : EndsItem rest) :
    lexeme direction (' ' :: ("desc".toList ++ rest)) = .done .descending rest := by
  have hword : wordOf ("desc".toList ++ rest) = "desc".toList :=
    wordOf_keyword (by decide) hr.ends.token.endsWord
  have hasc : (firstOf [keyword "asc", keyword "ascending"]).Misses ("desc".toList ++ rest) := by
    refine misses_firstOf ?_
    simp only [List.mem_cons, List.not_mem_nil, or_false, forall_eq_or_imp, forall_eq]
    exact ⟨misses_keyword (by decide) (by rw [hword]; decide),
      misses_keyword (by decide) (by rw [hword]; decide)⟩
  rw [(skipsBlanks_lexeme _).cons rfl]
  refine firstOf_cons_of_misses hasc.bind ?_
  exact bind_done (firstOf_cons_done (keyword_text_done (by decide) hr.ends.token.endsWord))

theorem sortTerm_done {term : SortTerm} (h : term.wellFormed Binary64.isPlain = true)
    {rest : List Char} (hr : EndsItem rest) :
    sortTerm (term.render.toList ++ rest) = .done term rest := by
  obtain ⟨e, direction⟩ := term
  have he : e.isPrintable = true := h
  cases direction with
  | ascending =>
    rw [sortTerm, SortTerm.render, bind_done (expression_done (readsBack he) hr.ends),
      bind_done (optional_of_misses (misses_direction hr)), pure_apply]
    rfl
  | descending =>
    have htext : (SortTerm.render ⟨e, .descending⟩).toList ++ rest =
        e.render.toList ++ ' ' :: ("desc".toList ++ rest) := by
      simp [SortTerm.render]
    have hends : Ends 0 (' ' :: ("desc".toList ++ rest)) := ends_word (by decide) (by decide) rest
    have hvalue := expression_done (readsBack he) hends
    rw [sortTerm, htext, bind_done hvalue, bind_done (optional_done (direction_done hr)), pure_apply]
    rfl

end Grammar

/-! ### Clauses -/

/-- The text of a clause with a blank before it. -/
def Clause.render : Clause → String
  | .order terms => " order by " ++ ", ".intercalate (terms.map SortTerm.render)
  | .offset n => " offset " ++ Nat.repr n.toNat
  | .limit n => " limit " ++ Nat.repr n.toNat
  | .page p => " paginated on " ++ Nat.repr p.page.toNat ++ " by " ++ Nat.repr p.size.toNat
  | .top modifier => " " ++ modifier.render

/-- Clauses as the canonical text has them behind the source: an ordering has terms, and the top
modifier is not among them. -/
def Clause.IsCanonical : Clause → Prop
  | .order terms => terms ≠ [] ∧ ∀ term ∈ terms, term.wellFormed Binary64.isPlain = true
  | .top _ => False
  | _ => True

/-- The clauses of the canonical text. -/
def Query.clauses (query : Query) : List Clause :=
  (if query.orderings.isEmpty then [] else [.order query.orderings]) ++
    (query.offset.map Clause.offset).toList ++ (query.limit.map Clause.limit).toList ++
    (query.pagination.map Clause.page).toList

namespace Query

theorem renderClauses_toList (query : Query) :
    query.renderClauses.toList = query.clauses.flatMap fun c => c.render.toList := by
  rw [renderClauses, clauses, List.flatMap_append, List.flatMap_append, List.flatMap_append,
    String.toList_append, String.toList_append, String.toList_append]
  refine congrArg₂ (· ++ ·) (congrArg₂ (· ++ ·) (congrArg₂ (· ++ ·) ?_ ?_) ?_) ?_
  · split
    · rfl
    · exact (List.flatMap_singleton _ _).symm
  · cases query.offset with
    | none => rfl
    | some n => exact (List.flatMap_singleton _ _).symm
  · cases query.limit with
    | none => rfl
    | some n => exact (List.flatMap_singleton _ _).symm
  · cases query.pagination with
    | none => rfl
    | some p => exact (List.flatMap_singleton _ _).symm

/-- The clauses put into the bare query are the query. -/
theorem foldl_clauses (query : Query) :
    query.clauses.foldl withClause ⟨query.source, query.atoms, query.top, [], none, none, none⟩ =
      query := by
  obtain ⟨_, _, _, orderings, offset, limit, pagination⟩ := query
  cases orderings <;> cases offset <;> cases limit <;> cases pagination <;> rfl

theorem kind_of_given {α : Type} (given : Option α) (f : α → Clause) {kind : Clause.Kind}
    (h : ∀ a, (f a).kind = kind) : ((given.map f).toList.map Clause.kind).Sublist [kind] := by
  cases given with
  | none => exact List.nil_sublist _
  | some a => exact List.singleton_sublist.mpr (List.mem_singleton.mpr (h a))

theorem nodup_kinds (query : Query) : (query.clauses.map Clause.kind).Nodup := by
  have horder : ((if query.orderings.isEmpty then [] else [Clause.order query.orderings]).map
      Clause.kind).Sublist [.order] := by
    split
    · exact List.nil_sublist _
    · exact List.Sublist.refl _
  have hoffset := kind_of_given query.offset .offset fun _ => rfl
  have hlimit := kind_of_given query.limit .limit fun _ => rfl
  have hpage := kind_of_given query.pagination .page fun _ => rfl
  have hkinds := ((horder.append hoffset).append hlimit).append hpage
  rw [← List.map_append, ← List.map_append, ← List.map_append] at hkinds
  exact hkinds.nodup (by decide)

theorem isCanonical_of_mem {query : Query} (h : query.isPrintable = true) :
    ∀ c ∈ query.clauses, c.IsCanonical := by
  obtain ⟨-, -, -, hterms⟩ := wellFormed_iff.mp h
  intro c hc
  simp only [clauses, List.append_assoc, List.mem_append, Option.mem_toList,
    Option.map_eq_some_iff] at hc
  rcases hc with hc | ⟨n, -, rfl⟩ | ⟨n, -, rfl⟩ | ⟨p, -, rfl⟩
  · split at hc
    · cases hc
    · rename_i hne
      rw [List.mem_singleton.mp hc]
      exact ⟨fun h0 => hne (by rw [h0]; rfl), hterms⟩
  · exact trivial
  · exact trivial
  · exact trivial

end Query

namespace Grammar

open SelectLang.Parser

theorem misses_orderBy {s : List Char} (h : (wordOf s).map Char.toLower ≠ "order".toList) :
    orderBy.Misses s :=
  (misses_keywords (by decide) (fun word hw => by cases hw; exact h) (by decide)).after _

theorem misses_offset {s : List Char} (h : (wordOf s).map Char.toLower ≠ "offset".toList) :
    offset.Misses s := (misses_keyword (by decide) h).after _

theorem misses_limit {s : List Char} (h : (wordOf s).map Char.toLower ≠ "limit".toList) :
    limit.Misses s := (misses_keyword (by decide) h).after _

theorem lexeme_quantity_done {n : UInt64} {rest : List Char} (hr : EndsToken rest) :
    lexeme quantity (' ' :: ((Nat.repr n.toNat).toList ++ rest)) = .done n rest := by
  have hsolid : ((Nat.repr n.toNat).toList ++ rest).dropWhile isBlank =
      (Nat.repr n.toNat).toList ++ rest := by
    refine dropWhile_isBlank fun c hc => ?_
    rw [Nat.toList_repr] at hc
    obtain ⟨d, ds, hds⟩ := List.exists_cons_of_ne_nil (Nat.toDigits_ne_nil (n := n.toNat) (b := 10))
    rw [hds] at hc
    cases hc
    exact isBlank_of_isNameChar (isNameChar_of_isDigit
      (Nat.isDigit_of_mem_toDigits (by decide) (by decide) (hds ▸ List.mem_cons_self)))
  rw [(skipsBlanks_lexeme _).cons rfl, lexeme_apply, hsolid, quantity_done hr.not_digit]

theorem blanks1_done {s : List Char} (h : ∀ c ∈ s.head?, isBlank c = false) :
    blanks1 (' ' :: s) = .done [' '] s := by
  have hrun : ∀ c ∈ [' '], isBlank c = true := by simp [isBlank]
  exact takeWhile1_done (by simp) hrun h

theorem keywords_done {word word' : String} (hw : word.toList.all isKeywordLetter = true)
    (hw' : word'.toList.all isKeywordLetter = true) (hne : word'.toList ≠ []) {rest : List Char}
    (hr : EndsWord rest) :
    keywords [word, word'] (word.toList ++ ' ' :: (word'.toList ++ rest)) = .done () rest := by
  rw [keywords, bind_done (keyword_text_done hw (endsWord_blank _)),
    bind_done (blanks1_done (not_isBlank_word hw' hne rest)), keywords,
    bind_done (keyword_text_done hw' hr), pure_apply]
  exact nofun

theorem order_done {terms : List SortTerm} (hne : terms ≠ [])
    (h : ∀ term ∈ terms, term.wellFormed Binary64.isPlain = true) {rest : List Char}
    (hr : EndsList rest) : orderBy ("order".toList ++ ' ' :: ("by".toList ++ ' ' ::
      ((", ".intercalate (terms.map SortTerm.render)).toList ++ rest))) = .done terms rest := by
  have hitems := items_done skipsBlanks_sortTerm hne (fun term hterm t ht => sortTerm_done (h term hterm) ht) hr
  refine after_commit_done (keywords_done (by decide) (by decide) (by decide) (endsWord_blank _)) ?_
  rw [separated1, (skipsBlanks_sortTerm.bind _).cons rfl]
  exact hitems

theorem paginated_done {p : Pagination} {rest : List Char} (hr : EndsToken rest) :
    paginated ("paginated".toList ++ ' ' :: ("on".toList ++ ' ' :: ((Nat.repr p.page.toNat).toList ++
      ' ' :: ("by".toList ++ ' ' :: ((Nat.repr p.size.toNat).toList ++ rest))))) = .done p rest := by
  refine after_commit_done (keyword_text_done (by decide) (endsWord_blank _)) ?_
  rw [bind_done (lexeme_keyword_done (by decide) (by decide) (endsWord_blank _)),
    bind_done (lexeme_quantity_done (endsToken_blank _)),
    bind_done (lexeme_keyword_done (by decide) (by decide) (endsWord_blank _)),
    bind_done (lexeme_quantity_done hr), pure_apply]

/-- A clause that begins with a word of its own is read behind its blank, and a list may end before
it. -/
theorem clause_of_word {c : Clause} {word : String} {s rest : List Char}
    (hw : word.toList.all isKeywordLetter = true) (hne : word.toList ≠ []) (hitem : word ∉ itemWords)
    (hs : EndsWord s) (h : clause (word.toList ++ s) = .done c rest) :
    EndsList (' ' :: (word.toList ++ s)) ∧ ∃ start,
      lexeme (both here clause) (' ' :: (word.toList ++ s)) = .done (start, c) rest := by
  have hhere : here (word.toList ++ s) = .done (word.toList ++ s) (word.toList ++ s) := rfl
  refine ⟨endsList_word hw hne hitem hs, word.toList ++ s, ?_⟩
  rw [(skipsBlanks_lexeme _).cons rfl, lexeme_apply, solid_word hw hne, both_done hhere h]

theorem clause_done {c : Clause} (hc : c.IsCanonical) {rest : List Char} (hr : EndsList rest) :
    EndsList (c.render.toList ++ rest) ∧ ∃ start,
      lexeme (both here clause) (c.render.toList ++ rest) = .done (start, c) rest := by
  have hfirst : ∀ {word : String} {s : List Char}, word.toList.all isKeywordLetter = true →
      EndsWord s → (wordOf (word.toList ++ s)).map Char.toLower = word.toList := fun hw hs => by
    rw [wordOf_keyword hw hs, toLower_keyword hw]
  cases c with
  | order terms =>
    have htext : (Clause.order terms).render.toList ++ rest = ' ' :: ("order".toList ++ ' ' ::
        ("by".toList ++ ' ' :: ((", ".intercalate (terms.map SortTerm.render)).toList ++ rest))) := by
      show (" order by " ++ ", ".intercalate (terms.map SortTerm.render)).toList ++ rest = _
      simp
    rw [htext]
    exact clause_of_word (by decide) (by decide) (by decide) (endsWord_blank _)
      (firstOf_cons_done (bind_done (order_done hc.1 hc.2 hr)))
  | offset n =>
    have htext : (Clause.offset n).render.toList ++ rest =
        ' ' :: ("offset".toList ++ ' ' :: ((Nat.repr n.toNat).toList ++ rest)) := by
      show (" offset " ++ Nat.repr n.toNat).toList ++ rest = _
      simp
    rw [htext]
    refine clause_of_word (by decide) (by decide) (by decide) (endsWord_blank _) ?_
    refine firstOf_cons_of_misses (misses_orderBy ?_).bind (firstOf_cons_done (bind_done
      (after_commit_done (keyword_text_done (by decide) (endsWord_blank _))
        (lexeme_quantity_done hr.ends.token))))
    rw [hfirst (by decide) (endsWord_blank _)]
    decide
  | limit n =>
    have htext : (Clause.limit n).render.toList ++ rest =
        ' ' :: ("limit".toList ++ ' ' :: ((Nat.repr n.toNat).toList ++ rest)) := by
      show (" limit " ++ Nat.repr n.toNat).toList ++ rest = _
      simp
    rw [htext]
    refine clause_of_word (by decide) (by decide) (by decide) (endsWord_blank _) ?_
    have hword := hfirst (by decide : "limit".toList.all isKeywordLetter = true)
      (endsWord_blank ((Nat.repr n.toNat).toList ++ rest))
    exact firstOf_cons_of_misses (misses_orderBy (by rw [hword]; decide)).bind
      (firstOf_cons_of_misses (misses_offset (by rw [hword]; decide)).bind
      (firstOf_cons_done (bind_done (after_commit_done (keyword_text_done (by decide)
        (endsWord_blank _)) (lexeme_quantity_done hr.ends.token)))))
  | page p =>
    have htext : (Clause.page p).render.toList ++ rest = ' ' :: ("paginated".toList ++ ' ' ::
        ("on".toList ++ ' ' :: ((Nat.repr p.page.toNat).toList ++ ' ' :: ("by".toList ++ ' ' ::
          ((Nat.repr p.size.toNat).toList ++ rest))))) := by
      show (" paginated on " ++ Nat.repr p.page.toNat ++ " by " ++ Nat.repr p.size.toNat).toList ++
        rest = _
      simp
    rw [htext]
    refine clause_of_word (by decide) (by decide) (by decide) (endsWord_blank _) ?_
    have hword := hfirst (by decide : "paginated".toList.all isKeywordLetter = true)
      (endsWord_blank ("on".toList ++ ' ' :: ((Nat.repr p.page.toNat).toList ++ ' ' ::
        ("by".toList ++ ' ' :: ((Nat.repr p.size.toNat).toList ++ rest)))))
    exact firstOf_cons_of_misses (misses_orderBy (by rw [hword]; decide)).bind
      (firstOf_cons_of_misses (misses_offset (by rw [hword]; decide)).bind
      (firstOf_cons_of_misses (misses_limit (by rw [hword]; decide)).bind
      (firstOf_cons_done (bind_done (paginated_done hr.ends.token)))))
  | top modifier => exact hc.elim

/-! ### The top modifier -/

/-- A rule that begins with a keyword is missed by another first word. -/
theorem misses_behind_keyword {α : Type} {word other : String} {f : List Char → Parser α}
    (hw : word.toList.all isKeywordLetter = true) (ho : other.toList.all isKeywordLetter = true)
    {s : List Char} (hs : EndsWord s) (hne : other ≠ word) :
    (keyword word >>= f).Misses (other.toList ++ s) := by
  refine (misses_keyword hw ?_).bind
  rw [wordOf_keyword ho hs, toLower_keyword ho]
  intro h
  rw [String.toList_inj] at h
  exact hne h

theorem not_isBlank_repr (n : Nat) (rest : List Char) :
    ∀ c ∈ ((Nat.repr n).toList ++ rest).head?, isBlank c = false := fun c hc => by
  rw [Nat.toList_repr] at hc
  obtain ⟨d, ds, hds⟩ := List.exists_cons_of_ne_nil (Nat.toDigits_ne_nil (n := n) (b := 10))
  rw [hds] at hc
  cases hc
  exact isBlank_of_isNameChar (isNameChar_of_isDigit
    (Nat.isDigit_of_mem_toDigits (by decide) (by decide) (hds ▸ List.mem_cons_self)))

/-- A number behind a keyword and a blank. -/
theorem behind_keyword_done {α : Type} {word : String} (hw : word.toList.all isKeywordLetter = true)
    {n : UInt64} {f : UInt64 → Parser α} {rest : List Char} (hr : ∀ c ∈ rest.head?, c.isDigit = false) :
    (do
      let _ ← keyword word
      let _ ← blanks1
      let n ← quantity
      f n) (word.toList ++ ' ' :: ((Nat.repr n.toNat).toList ++ rest)) = f n rest := by
  rw [bind_done (keyword_text_done hw (endsWord_blank _)),
    bind_done (blanks1_done (not_isBlank_repr n.toNat rest)), bind_done (quantity_done hr)]

theorem topModifier_done {top : Top} (h : top ≠ .all) (rest : List Char) :
    topModifier (top.render.toList ++ ' ' :: rest) = .done top (' ' :: rest) := by
  have hblank : ∀ c ∈ (' ' :: rest).head?, c.isDigit = false := fun c hc => by cases hc; rfl
  have hpercent : (Parser.char '%').Misses (' ' :: rest) := misses_char (by simp)
  have hmiss : ∀ {word other : String} {f : List Char → Parser Top} {s : List Char},
      word.toList.all isKeywordLetter = true → other.toList.all isKeywordLetter = true →
      other ≠ word → (keyword word >>= f).Misses (other.toList ++ ' ' :: s) := fun hw ho hne =>
    misses_behind_keyword hw ho (endsWord_blank _) hne
  cases top with
  | all => exact absurd rfl h
  | first => exact firstOf_cons_done (bind_done (keyword_text_done (by decide) (endsWord_blank rest)))
  | last =>
    refine firstOf_cons_of_misses (hmiss (by decide) (by decide) (by decide)) (firstOf_cons_done ?_)
    exact bind_done (keyword_text_done (by decide) (endsWord_blank rest))
  | one =>
    refine firstOf_cons_of_misses (hmiss (by decide) (by decide) (by decide))
      (firstOf_cons_of_misses (hmiss (by decide) (by decide) (by decide)) (firstOf_cons_done ?_))
    exact bind_done (keyword_text_done (by decide) (endsWord_blank rest))
  | quantity n =>
    have htext : (Top.quantity n).render.toList ++ ' ' :: rest =
        "top".toList ++ ' ' :: ((Nat.repr n.toNat).toList ++ ' ' :: rest) := by
      simp [Top.render]
    rw [htext]
    refine firstOf_cons_of_misses (hmiss (by decide) (by decide) (by decide))
      (firstOf_cons_of_misses (hmiss (by decide) (by decide) (by decide))
      (firstOf_cons_of_misses (hmiss (by decide) (by decide) (by decide)) (firstOf_cons_done ?_)))
    rw [behind_keyword_done (by decide) hblank, bind_done (absent_of_misses hpercent), pure_apply]
  | percentage n =>
    have htext : (Top.percentage n).render.toList ++ ' ' :: rest =
        "top".toList ++ ' ' :: ((Nat.repr n.toNat).toList ++ '%' :: ' ' :: rest) := by
      simp [Top.render]
    have hdigit : ∀ c ∈ ('%' :: ' ' :: rest).head?, c.isDigit = false := fun c hc => by cases hc; rfl
    rw [htext]
    refine firstOf_cons_of_misses (hmiss (by decide) (by decide) (by decide))
      (firstOf_cons_of_misses (hmiss (by decide) (by decide) (by decide))
      (firstOf_cons_of_misses (hmiss (by decide) (by decide) (by decide))
      (firstOf_cons_of_misses ?_ (firstOf_cons_done ?_))))
    · rw [Misses, behind_keyword_done (by decide) hdigit]
      exact (misses_absent (char_done '%' _)).bind
    · rw [behind_keyword_done (by decide) hdigit, bind_done (char_done '%' _), pure_apply]
  | position n =>
    have htext : (Top.position n).render.toList ++ ' ' :: rest =
        "at".toList ++ ' ' :: ((Nat.repr n.toNat).toList ++ ' ' :: rest) := by
      simp [Top.render]
    rw [htext]
    refine firstOf_cons_of_misses (hmiss (by decide) (by decide) (by decide))
      (firstOf_cons_of_misses (hmiss (by decide) (by decide) (by decide))
      (firstOf_cons_of_misses (hmiss (by decide) (by decide) (by decide))
      (firstOf_cons_of_misses (hmiss (by decide) (by decide) (by decide))
      (firstOf_cons_of_misses (hmiss (by decide) (by decide) (by decide)) ?_))))
    rw [firstOf_single, behind_keyword_done (by decide) hblank, pure_apply]

/-- A selection does not begin with a top modifier. -/
theorem misses_topModifier {s : List Char} (h : ∀ word ∈ ["first", "last", "one", "top", "at"],
    (wordOf s).map Char.toLower ≠ word.toList) : topModifier.Misses s := by
  refine misses_firstOf ?_
  simp only [List.mem_cons, List.not_mem_nil, or_false, forall_eq_or_imp, forall_eq] at h ⊢
  obtain ⟨hfirst, hlast, hone, htop, hat⟩ := h
  exact ⟨(misses_keyword (by decide) hfirst).bind, (misses_keyword (by decide) hlast).bind,
    (misses_keyword (by decide) hone).bind, (misses_keyword (by decide) htop).bind,
    (misses_keyword (by decide) htop).bind, (misses_keyword (by decide) hat).bind⟩

theorem atom_begins {a : Atom} (h : a.wellFormed Binary64.isPlain = true) {rest : List Char}
    (hr : EndsToken rest) : (a.render.toList ++ rest).dropWhile isBlank = a.render.toList ++ rest ∧
      ∀ word ∈ ["first", "last", "one", "top", "at"],
        (wordOf (a.render.toList ++ rest)).map Char.toLower ≠ word.toList := by
  rw [Atom.wellFormed, Bool.and_eq_true] at h
  have hfront : ∀ {more s : List Char}, Front more s → s.dropWhile isBlank = s ∧
      ∀ word ∈ ["first", "last", "one", "top", "at"], (wordOf s).map Char.toLower ≠ word.toList :=
    fun hf => ⟨hf.solid, fun word hw => by
      simp only [List.mem_cons, List.not_mem_nil, or_false] at hw
      rcases hw with rfl | rfl | rfl | rfl | rfl <;>
        exact hf.wordOf_ne (by decide) (by decide) (by decide)⟩
  cases a with
  | expression e output =>
    cases output with
    | none => exact hfront (front h.1 hr)
    | some output =>
      have htext : (Atom.expression e (some output)).render.toList ++ rest =
          e.render.toList ++ (" as ".toList ++ output.dotted.toList ++ rest) := by
        simp [Atom.render]
      rw [htext]
      exact hfront (front h.1 (endsToken_blank _))
  | assignment output e =>
    have htext : (Atom.assignment output e).render.toList ++ rest =
        output.dotted.toList ++ (" = ".toList ++ e.render.toList ++ rest) := by
      simp [Atom.render]
    rw [htext]
    exact hfront (Or.inr ⟨output, _, h.2, rfl, endsToken_blank _, Or.inl rfl⟩)

theorem selection_begins {atoms : List Atom} (hne : atoms ≠ [])
    (h : ∀ a ∈ atoms, a.wellFormed Binary64.isPlain = true) {rest : List Char} (hr : EndsToken rest) :
    ((", ".intercalate (atoms.map Atom.render)).toList ++ rest).dropWhile isBlank =
        (", ".intercalate (atoms.map Atom.render)).toList ++ rest ∧
      ∀ word ∈ ["first", "last", "one", "top", "at"],
        (wordOf ((", ".intercalate (atoms.map Atom.render)).toList ++ rest)).map Char.toLower ≠
          word.toList := by
  obtain ⟨a, as, rfl⟩ := List.exists_cons_of_ne_nil hne
  rw [List.map_cons, toList_intercalate_cons, List.append_assoc]
  refine atom_begins (h a List.mem_cons_self) ?_
  cases as with
  | nil => exact hr
  | cons b as => exact (ends_mark (by decide) 0 _).token

/-! ### Queries and scripts -/

theorem repeated?_eq_none : ∀ {clauses : List (List Char × Clause)} {given : List Clause.Kind},
    (clauses.map fun c => c.2.kind).Nodup → (∀ c ∈ clauses, c.2.kind ∉ given) →
      repeated? given clauses = none
  | [], _, _, _ => rfl
  | (start, c) :: clauses, given, hn, hg => by
    rw [List.map_cons, List.nodup_cons] at hn
    have hc : given.contains c.kind = false := by
      simpa using hg (start, c) List.mem_cons_self
    rw [repeated?, hc, if_neg Bool.false_ne_true]
    refine repeated?_eq_none hn.2 fun d hd hmem => ?_
    rcases List.mem_cons.mp hmem with heq | hmem
    · exact hn.1 (heq ▸ List.mem_map_of_mem hd)
    · exact hg d (List.mem_cons_of_mem _ hd) hmem

/-- The top modifier is read before the selection, if there is one. -/
theorem lead_done (top : Top) {t : List Char} (hsolid : t.dropWhile isBlank = t)
    (hword : ∀ word ∈ ["first", "last", "one", "top", "at"],
      (wordOf t).map Char.toLower ≠ word.toList) :
    ∃ lead, optional (lexeme topModifier)
        (' ' :: ((if top = .all then "" else top.render ++ " ").toList ++ t)) = .done lead (' ' :: t) ∧
      lead.getD .all = top := by
  by_cases h : top = .all
  · subst h
    refine ⟨none, ?_, rfl⟩
    rw [if_pos rfl, String.toList_empty, List.nil_append]
    refine optional_of_misses ?_
    rw [Misses, (skipsBlanks_lexeme _).cons rfl, lexeme_apply, hsolid]
    exact misses_topModifier hword
  · refine ⟨some top, ?_, rfl⟩
    have hrender : (top.render.toList ++ ' ' :: t).dropWhile isBlank = top.render.toList ++ ' ' :: t := by
      refine dropWhile_isBlank fun c hc => ?_
      cases top with
      | all => exact absurd rfl h
      | _ => simp [Top.render] at hc; subst hc; rfl
    rw [if_neg h, String.toList_append, List.append_assoc]
    refine optional_done ?_
    rw [(skipsBlanks_lexeme _).cons rfl, lexeme_apply]
    exact (congrArg topModifier hrender).trans (topModifier_done h t)

theorem misses_clause {s : List Char} (h : ∀ word ∈ clauseWords, (wordOf s).map Char.toLower ≠ word.toList) :
    clause.Misses s := by
  refine misses_firstOf ?_
  simp only [List.mem_cons, List.not_mem_nil, or_false, forall_eq_or_imp, forall_eq]
  refine ⟨(misses_orderBy (h _ (by decide))).bind, (misses_offset (h _ (by decide))).bind,
    (misses_limit (h _ (by decide))).bind, Misses.bind ((misses_keyword (by decide) (h _ (by decide))).after _),
    (misses_topModifier fun word hw => h word ?_).bind⟩
  revert word
  decide

theorem misses_clause_of_mark {c : Char} (hc : isNameChar c = false) (s : List Char) :
    clause.Misses (c :: s) := by
  have hword : wordOf (c :: s) = [] := by
    rw [wordOf, List.takeWhile_cons_of_neg (by simp [hc])]
  refine misses_clause fun word hw => ?_
  rw [hword]
  revert word
  decide

theorem clauses_done {query : Query} (h : ∀ c ∈ query.clauses, c.IsCanonical) (rest : List Char) :
    EndsList (query.renderClauses.toList ++ ';' :: rest) ∧ ∃ clauses,
      many (lexeme (both here clause)) (query.renderClauses.toList ++ ';' :: rest) =
        .done clauses (';' :: rest) ∧ clauses.map Prod.snd = query.clauses := by
  have hend : (lexeme (both here clause)).Misses (';' :: rest) := by
    refine misses_bind_done (m := ';' :: rest) rfl (misses_bind_done (m := ';' :: rest) rfl ?_)
    exact (misses_clause_of_mark (by decide) rest).bind
  rw [Query.renderClauses_toList]
  refine many_done Prod.snd (endsList_semicolon rest) hend fun c hc => ⟨?_, fun t ht => ?_⟩
  · have hcan := h c hc
    cases c with
    | top modifier => exact hcan.elim
    | order terms => show (" order by " ++ _).toList ≠ []; simp
    | offset n => show (" offset " ++ _).toList ≠ []; simp
    | limit n => show (" limit " ++ _).toList ≠ []; simp
    | page p => show (" paginated on " ++ _ ++ _ ++ _).toList ≠ []; simp
  · obtain ⟨hfollow, start, hread⟩ := clause_done (h c hc) ht
    exact ⟨hfollow, (start, c), hread, rfl⟩

/-- No clause of the canonical text repeats another one or the top modifier. -/
theorem repeated?_of_canonical (query : Query) (h : ∀ c ∈ query.clauses, c.IsCanonical)
    {clauses : List (List Char × Clause)} (hsnd : clauses.map Prod.snd = query.clauses)
    (lead : Option Top) : repeated? (if lead.isSome then [.top] else []) clauses = none := by
  refine repeated?_eq_none ?_ fun c hc hmem => ?_
  · have hkinds : clauses.map (fun c => c.2.kind) = query.clauses.map Clause.kind := by
      rw [← hsnd, List.map_map]
      rfl
    rw [hkinds]
    exact query.nodup_kinds
  · have hcan := h c.2 (hsnd ▸ List.mem_map_of_mem hc)
    have htop : c.2.kind = .top := by
      split at hmem
      · exact List.mem_singleton.mp hmem
      · cases hmem
    cases hk : c.2 with
    | top modifier => rw [hk] at hcan; exact hcan.elim
    | _ => rw [hk] at htop; cases htop

/-- A query is read if its selection is, whatever text the selection has: the rest is as in the
canonical text. -/
theorem statement_of_selection {query : Query} {selection : List Char}
    (hsource : query.source.isProper = true) (hclauses : ∀ c ∈ query.clauses, c.IsCanonical)
    (hbegins : ∀ t, EndsToken t → (selection ++ t).dropWhile isBlank = selection ++ t ∧
      ∀ word ∈ ["first", "last", "one", "top", "at"],
        (wordOf (selection ++ t)).map Char.toLower ≠ word.toList)
    (hatoms : ∀ t, EndsList t → separated1 (symbol ',') atom (selection ++ t) = .done query.atoms t)
    (rest : List Char) :
    statement ("select".toList ++ ' ' ::
      ((if query.top = .all then "" else query.top.render ++ " ").toList ++ (selection ++ ' ' ::
        ("from".toList ++ ' ' :: (query.source.dotted.toList ++
          (query.renderClauses.toList ++ ';' :: rest)))))) = .done query rest := by
  obtain ⟨hend, clauses, hread, hsnd⟩ := clauses_done hclauses rest
  set behind := query.renderClauses.toList ++ ';' :: rest
  set source := query.source.dotted.toList ++ behind
  have hfrom : EndsList (' ' :: ("from".toList ++ ' ' :: source)) :=
    endsList_word (by decide) (by decide) (by decide) (endsWord_blank _)
  have hitems := hatoms _ hfrom
  obtain ⟨hsolid, hwords⟩ := hbegins _ hfrom.ends.token
  set items := selection ++ ' ' :: ("from".toList ++ ' ' :: source)
  obtain ⟨lead, hlead, htop⟩ := lead_done query.top hsolid hwords
  set front := (if query.top = .all then "" else query.top.render ++ " ").toList ++ items
  have hselect : lexeme (keyword "select") ("select".toList ++ ' ' :: front) =
      .done "select".toList (' ' :: front) := by
    rw [lexeme_apply, solid_word (by decide) (by decide)]
    exact keyword_text_done (by decide) (endsWord_blank _)
  have hsel : separated1 (symbol ',') atom (' ' :: items) =
      .done query.atoms (' ' :: ("from".toList ++ ' ' :: source)) := by
    rw [separated1, (skipsBlanks_atom.bind _).cons rfl]
    exact hitems
  have hname : lexeme namePath (' ' :: source) = .done query.source behind :=
    lexeme_namePath_done hsource hend.ends.token
  have hterm : termination (';' :: rest) = .done (some ';') rest := by
    rw [termination, lexeme_apply, List.dropWhile_cons_of_neg (by decide), optional_done (char_done _ _)]
  have hrep := repeated?_of_canonical query hclauses hsnd lead
  refine (after_done hselect).trans (commit_done ?_)
  rw [body, bind_done hlead, bind_done (expecting_done hsel), bind_done (expecting_done
    (lexeme_keyword_done (by decide) (by decide) (endsWord_blank _))), bind_done (expecting_done hname),
    bind_done hread, bind_done hterm, hrep]
  change Reply.done ((clauses.map Prod.snd).foldl Query.withClause
    ⟨query.source, query.atoms, lead.getD .all, [], none, none, none⟩) rest = _
  rw [htop, hsnd, Query.foldl_clauses]

theorem query_text (query : Query) (rest : List Char) : query.render.toList ++ rest =
    "select".toList ++ ' ' :: ((if query.top = .all then "" else query.top.render ++ " ").toList ++
      ((", ".intercalate (query.atoms.map Atom.render)).toList ++ ' ' :: ("from".toList ++ ' ' ::
        (query.source.dotted.toList ++ (query.renderClauses.toList ++ ';' :: rest))))) := by
  simp [Query.render]

theorem statement_done {query : Query} (h : query.isPrintable = true) (rest : List Char) :
    statement (query.render.toList ++ rest) = .done query rest := by
  obtain ⟨hsource, hne, hatoms, -⟩ := Query.wellFormed_iff.mp h
  rw [query_text]
  exact statement_of_selection hsource (Query.isCanonical_of_mem h)
    (fun t ht => selection_begins hne hatoms ht)
    (fun t ht => items_done skipsBlanks_atom hne (fun a ha t ht => atom_done (hatoms a ha) ht) ht) rest

theorem misses_statement_of_end : statement.Misses [] := by
  have hselect : (keyword "select").Misses [] := misses_keyword (by decide) (by decide)
  exact Misses.after _ (hselect : (lexeme (keyword "select")).Misses [])

theorem script_done {script : Script} (h : script.isPrintable = true) :
    Grammar.script script.render.toList = .done script [] := by
  obtain ⟨statements⟩ := script
  have hall : ∀ query ∈ statements, query.isPrintable = true := List.all_eq_true.mp h
  have hskip : SkipsBlanks statement := (skipsBlanks_lexeme _).bind _
  have hmany : many statement (Script.render ⟨statements⟩).toList = .done statements [] := by
    cases statements with
    | nil => exact many_of_misses misses_statement_of_end
    | cons query statements =>
      have hread : ∀ q ∈ statements, "\n".toList ++ q.render.toList ≠ [] ∧ ∀ t, True → True ∧
          ∃ a, statement ("\n".toList ++ q.render.toList ++ t) = .done a t ∧ id a = q := by
        refine fun q hq => ⟨by simp, fun t _ => ⟨trivial, q, ?_, rfl⟩⟩
        rw [List.append_assoc]
        exact (hskip.cons rfl _).trans (statement_done (hall q (List.mem_cons_of_mem _ hq)) t)
      obtain ⟨-, qs, hqs, hid⟩ := @many_done _ _ statement _ id (fun _ => True) [] trivial
        misses_statement_of_end _ hread
      rw [List.map_id] at hid
      subst hid
      rw [Script.render, List.map_cons, toList_intercalate_cons, List.flatMap_map]
      rw [List.append_nil] at hqs
      refine many_step (statement_done (hall query List.mem_cons_self) _) ?_ hqs
      have hpos : 0 < query.render.toList.length := by simp [Query.render]
      rw [List.length_append]
      omega
  have hend : commit (expecting "select statement" atEnd) [] = .done [] [] := rfl
  have hblanks : blanks [] = .done [] [] := rfl
  rw [Grammar.script, bind_done hmany, bind_done hblanks, bind_done hend, pure_apply]

end Grammar

open SelectLang.Grammar SelectLang.Parser

theorem run_of_done {α : Type} {p : Parser α} {text : String} {a : α}
    (h : p text.toList = .done a []) : p.run text = .ok a := by
  rw [run, whole, h]

theorem parse_render_script {script : Script} (h : script.isPrintable = true) :
    Script.parse script.render = .ok script := run_of_done (script_done h)

theorem parse_render_query {query : Query} (h : query.isPrintable = true) :
    Query.parse query.render = .ok query := by
  have hread := statement_done h []
  rw [List.append_nil] at hread
  exact run_of_done (followedBy_done hread (by rfl : blanks [] = .done [] []))

theorem parse_render_expression {e : Expr} (h : e.isPrintable = true) :
    Expr.parse e.render = .ok e := by
  have hend : Ends 0 [] := ⟨by simp [EndsToken], by simp⟩
  have hread := expression_done (readsBack h) hend
  rw [List.append_nil] at hread
  exact run_of_done (followedBy_done hread (by rfl : blanks [] = .done [] []))

/-- Printing and then reading changes no printable script, query or expression. -/
theorem parse_render : (∀ script : Script, script.isPrintable = true →
      Script.parse script.render = .ok script) ∧
    (∀ query : Query, query.isPrintable = true → Query.parse query.render = .ok query) ∧
    ∀ e : Expr, e.isPrintable = true → Expr.parse e.render = .ok e :=
  ⟨fun _ h => parse_render_script h, fun _ h => parse_render_query h,
    fun _ h => parse_render_expression h⟩

/-- The text `a - (b - *)` keeps its parentheses and its star. -/
theorem parse_render_wildcard :
    let e : Expr := .binary .subtract (.path ⟨["a"]⟩) (.binary .subtract (.path ⟨["b"]⟩) (.wildcard 1))
    e.isPrintable = true ∧ Expr.parse e.render = .ok e :=
  ⟨by decide, parse_render.2.2 _ (by decide)⟩

end SelectLang
