/-
# The words that begin clauses

Which clauses a text gives can be seen without reading it: outside of strings the words of `openers` stand only
where a query or a clause begins, for they are reserved (`openersIn`). Everything that is read reads these words in
the order in which they stand: an item, a source, an ordering or a quantity none of them, and a clause its own. So
where an ordering or a top modifier is written there is one in the query, and where none is written there is none
(`Query.OpenedBy`).

Key definitions: `openersIn`, `Query.OpenedBy`.
Key theorems: `openers_of_list`, `openers_of_clause`, `openers_of_parts`, `parse_wellFormed`.
-/
import Mathlib
import SelectLang.Proofs.Grammar.Clauses

namespace SelectLang

open SelectLang.Parser

/-! ### The words in a text -/

/-- The opener that the word is, in lower case, if it is one. -/
def openerOf (word : List Char) : List String :=
  Grammar.openers.filter fun opener => opener.toList = word.map Char.toLower

/-- The openers in a text, from left to right. A string is skipped, and so is a digit that stands in no word. -/
def openersIn : List Char → List String
  | [] => []
  | c :: s =>
    if isQuote c then openersIn ((s.dropWhile (· != c)).drop 1)
    else if c.isDigit then openersIn s
    else if isNameChar c then openerOf (wordOf (c :: s)) ++ openersIn (s.dropWhile isNameChar)
    else openersIn s
termination_by s => s.length
decreasing_by
  · have := List.length_dropWhile_le (· != c) s
    simp
    omega
  · simp
  · have := List.length_dropWhile_le isNameChar s
    simp
    omega
  · simp

theorem openerOf_eq {word : String} (hmem : word ∈ Grammar.openers) {w : List Char}
    (h : w.map Char.toLower = word.toList) : openerOf w = [word] := by
  have hall : ∀ word ∈ Grammar.openers, Grammar.openers.filter (fun opener => opener.toList = word.toList) = [word] := by
    decide
  rw [openerOf, h]
  exact hall word hmem

theorem openerOf_eq_nil {w : List Char} (h : ∀ opener ∈ Grammar.openers, opener.toList ≠ w.map Char.toLower) :
    openerOf w = [] := by
  rw [openerOf, List.filter_eq_nil_iff]
  intro opener hmem heq
  exact h opener hmem (of_decide_eq_true heq)

section

variable {r : List Char}

/-- What belongs to no word and no string does not count. -/
theorem openersIn_cons {c : Char} (hname : isNameChar c = false) (hquote : isQuote c = false) (s : List Char) :
    openersIn (c :: s) = openersIn s := by
  rw [openersIn, if_neg (by simp [hquote]), hname]
  split <;> rfl

theorem openersIn_run : ∀ {run : List Char}, (∀ c ∈ run, isBlank c = true) → openersIn (run ++ r) = openersIn r
  | [], _ => rfl
  | c :: run, h => by
    obtain ⟨hc, hrun⟩ := List.forall_mem_cons.mp h
    have hquote : isQuote c = false := Bool.eq_false_iff.mpr fun hq => by
      rw [not_isBlank_of_isQuote hq] at hc
      cases hc
    rw [List.cons_append, openersIn_cons (not_isNameChar_of_isBlank hc) hquote, openersIn_run hrun]

theorem openersIn_digits : ∀ {ds : List Char}, (∀ c ∈ ds, c.isDigit = true) → openersIn (ds ++ r) = openersIn r
  | [], _ => rfl
  | c :: ds, h => by
    obtain ⟨hc, hds⟩ := List.forall_mem_cons.mp h
    have hquote : ¬ isQuote c = true := fun hq => by
      have hname := isNameChar_of_isDigit hc
      rw [not_isNameChar_of_isQuote hq] at hname
      cases hname
    rw [List.cons_append, openersIn, if_neg hquote, if_pos hc, openersIn_digits hds]

theorem openersIn_word {w : List Char} (hfront : ∃ c ∈ w.head?, c.isDigit = false)
    (hall : ∀ c ∈ w, isNameChar c = true) (hr : EndsWord r) : openersIn (w ++ r) = openerOf w ++ openersIn r := by
  obtain ⟨c, hc, hdigit⟩ := hfront
  obtain ⟨w, rfl⟩ : ∃ more, w = c :: more := by
    cases w with
    | nil => cases hc
    | cons d w =>
      cases hc
      exact ⟨w, rfl⟩
  have hname := hall c List.mem_cons_self
  have hquote : ¬ isQuote c = true := fun hq => by
    rw [not_isNameChar_of_isQuote hq] at hname
    cases hname
  obtain ⟨htake, hdrop⟩ := takeWhile_append hall hr
  rw [List.cons_append, List.dropWhile_cons_of_pos hname] at hdrop
  rw [List.cons_append, openersIn, if_neg hquote, if_neg (by simp [hdigit]), if_pos hname, hdrop, wordOf,
    ← List.cons_append, htake]

theorem openersIn_quoted {q : Char} {body : List Char} (hq : isQuote q = true) (hbody : q ∉ body) :
    openersIn (q :: (body ++ q :: r)) = openersIn r := by
  have hrun : ∀ c ∈ body, (c != q) = true := fun c hc => by
    rw [bne_iff_ne]
    rintro rfl
    exact hbody hc
  rw [openersIn, if_pos hq, List.dropWhile_append_of_pos hrun, List.dropWhile_cons_of_neg (by simp)]
  rfl

end

/-! ### What tokens read -/

section Tokens

variable {s r : List Char}

theorem openers_of_blanks {run : List Char} (h : blanks s = .done run r) : openersIn s = openersIn r := by
  cases h
  conv_lhs => rw [← List.takeWhile_append_dropWhile (p := isBlank) (l := s)]
  exact openersIn_run fun c hc => List.mem_takeWhile_imp hc

theorem openers_of_blanks1 {run : List Char} (h : blanks1 s = .done run r) : openersIn s = openersIn r := by
  obtain ⟨rfl, -, hrun, -⟩ := takeWhile1_eq_done h
  exact openersIn_run hrun

theorem openers_of_digits {ds : List Char} (h : digits s = .done ds r) : openersIn s = openersIn r := by
  obtain ⟨rfl, -, hds, -⟩ := takeWhile1_eq_done h
  exact openersIn_digits hds

theorem openers_of_mark {c x : Char} (hc : isNameChar c = false ∧ isQuote c = false) (h : char c s = .done x r) :
    openersIn s = openersIn r := by
  obtain rfl := char_eq_done h
  exact openersIn_cons hc.1 hc.2 r

/-- The openers are reserved, so that no name is one. -/
theorem openers_of_identifier {name : String} (h : Grammar.identifier s = .done name r) :
    openersIn s = openersIn r := by
  obtain ⟨rfl, hr, hname⟩ := identifier_eq_done h
  obtain ⟨⟨c, hc, hstart⟩, hall⟩ := Grammar.isName_chars hname
  rw [openersIn_word ⟨c, hc, not_isDigit_of_isNameStart hstart⟩ hall hr, openerOf_eq_nil, List.nil_append]
  intro opener hmem heq
  obtain ⟨-, -, -, -, -, hfree⟩ := isName_iff.mp hname
  have hreserved : isReserved name = true := by
    rw [isReserved, List.any_eq_true]
    exact ⟨opener, (Grammar.openers_reserved opener hmem).1, beq_iff_eq.mpr heq⟩
  rw [hfree] at hreserved
  cases hreserved

theorem openersIn_keyword {word : String} (hletters : word.toList.all isKeywordLetter = true)
    (hne : word.toList ≠ []) {w : List Char} (h : keyword word s = .done w r) :
    openersIn s = openerOf w ++ openersIn r ∧ w.map Char.toLower = word.toList := by
  obtain ⟨rfl, hlower, -, hr⟩ := keyword_eq_done hletters h
  obtain ⟨hfront, hall⟩ := name_of_toLower hletters hne hlower
  exact ⟨openersIn_word hfront hall hr, hlower⟩

theorem openers_of_keyword {word : String} (hletters : word.toList.all isKeywordLetter = true)
    (hne : word.toList ≠ []) (hmem : word ∉ Grammar.openers) {w : List Char} (h : keyword word s = .done w r) :
    openersIn s = openersIn r := by
  obtain ⟨hopeners, hlower⟩ := openersIn_keyword hletters hne h
  rw [hopeners, openerOf_eq_nil, List.nil_append]
  intro opener hopener heq
  rw [hlower, String.toList_inj] at heq
  exact hmem (heq ▸ hopener)

theorem openers_of_opener {word : String} (hmem : word ∈ Grammar.openers) {w : List Char}
    (h : keyword word s = .done w r) : openersIn s = word :: openersIn r := by
  obtain ⟨hletters, hne⟩ := openers_letters word hmem
  obtain ⟨hopeners, hlower⟩ := openersIn_keyword hletters hne h
  rw [hopeners, openerOf_eq hmem hlower, List.singleton_append]

theorem openers_of_quoted {q : Char} (hq : isQuote q = true) {text : String}
    (h : Grammar.quoted q s = .done text r) : openersIn s = openersIn r := by
  obtain ⟨body, hbody, rfl⟩ := quoted_eq_done h
  exact openersIn_quoted hq hbody

end Tokens

/-! ### What lists read -/

/-- A text is related to itself where the openers in it are those in `s`. -/
def SameOpeners (s : List Char) (_ : ℕ) (m m' : List Char) : Prop := m = m' ∧ openersIn s = openersIn m

section Lists

theorem reads_openers {α : Type} {p : Parser α} (s : List Char) (d d' : ℕ)
    (h : ∀ m a r, p m = .done a r → openersIn m = openersIn r) :
    Reads (SameOpeners s d) (SameOpeners s d') p :=
  inStep_self (fun _ _ => And.left) fun m a r hm hp => ⟨rfl, hm.2.trans (h m a r hp)⟩

theorem reads_mark_openers {c : Char} (hc : isNameChar c = false ∧ isQuote c = false) (s : List Char) (d d' : ℕ) :
    Reads (SameOpeners s d) (SameOpeners s d') (char c) :=
  reads_openers s d d' fun _ _ _ => openers_of_mark hc

theorem readsTokens_openers (s : List Char) : Grammar.ReadsTokens (SameOpeners s) where
  blanks d := (reads_openers s d d fun _ _ _ => openers_of_blanks).passes
  identifier d := reads_openers s d d fun _ _ _ => openers_of_identifier
  truth d word hmem := by
    obtain ⟨hletters, hne, hreserved⟩ := truth_letters hmem
    refine (reads_openers s d d fun _ _ _ => openers_of_keyword hletters hne fun hopener => ?_).passes
    exact (Grammar.openers_reserved word hopener).2.1 hmem
  digits d := reads_openers s d d fun _ _ _ => openers_of_digits
  quoted d q hq := reads_openers s d d fun _ _ _ => openers_of_quoted (isQuote_iff.mpr (by simpa using hq))
  mark d c hc := by
    refine reads_mark_openers ?_ s d d
    simp only [List.mem_cons, List.not_mem_nil, or_false] at hc
    rcases hc with rfl | rfl | rfl | rfl | rfl | rfl | rfl | rfl <;> exact ⟨by decide, by decide⟩
  inner d c hc := by
    refine (reads_mark_openers ?_ s (d + 1) (d + 1)).passes
    simp only [List.mem_cons, List.not_mem_nil, or_false] at hc
    rcases hc with rfl | rfl <;> exact ⟨by decide, by decide⟩
  opening d := (reads_mark_openers (by decide) s d (d + 1)).passes
  closing d := (reads_mark_openers (by decide) s (d + 1) d).passes

theorem readsLists_openers (s : List Char) : Grammar.ReadsLists (SameOpeners s) where
  toReadsTokens := readsTokens_openers s
  keyword _ hletters hne hmem := (reads_openers s 0 0 fun _ _ _ => openers_of_keyword hletters hne hmem).passes
  assigned := (reads_mark_openers (by decide) s 0 0).passes
  comma := (reads_mark_openers (by decide) s 0 0).passes
  spacedBy := Passes.bind (Reads.passes (reads_openers s 0 0 fun _ _ _ => openers_of_blanks1))
    (Reads.passes (reads_openers s 0 0 fun _ _ _ => openers_of_keyword (by decide) (by decide) (by decide)))
  spacedQuantity := Passes.bind (Reads.passes (reads_openers s 0 0 fun _ _ _ => openers_of_blanks1))
    (((readsTokens_openers s).digits 0).filterMap _)

variable {s r : List Char}

/-- What is read of the tokens of lists alone has no opener in it. -/
theorem openers_of_list {α : Type} {p : Parser α} {a : α}
    (hp : ∀ {T : ℕ → List Char → List Char → Prop}, Grammar.ReadsLists T → Reads (T 0) (T 0) p)
    (h : p s = .done a r) : openersIn s = openersIn r := by
  have hstep := hp (readsLists_openers s) s s ⟨rfl, rfl⟩
  rw [h] at hstep
  obtain ⟨_, _, heq, -, -, hopeners⟩ := hstep.exists_done
  cases heq
  exact hopeners

theorem openers_of_quantity {n : UInt64} (h : quantity s = .done n r) : openersIn s = openersIn r :=
  openers_of_list Grammar.reads_quantity h

end Lists

/-! ### What clauses read -/

/-- The words that a top modifier begins with. -/
def topWords : List String := ["first", "last", "one", "top", "at"]

/-- The opener of a top modifier. Without one there is none. -/
def Top.openers : Top → List String
  | .all => []
  | .first => ["first"]
  | .last => ["last"]
  | .one => ["one"]
  | .quantity _ | .percentage _ => ["top"]
  | .position _ => ["at"]

/-- The words that a clause begins with. -/
def Clause.openers : Clause → List String
  | .order _ => ["order"]
  | .offset _ => ["offset"]
  | .limit _ => ["limit"]
  | .page _ => ["paginated"]
  | .top modifier => modifier.openers

/-- An ordering has a term, and a modifier takes not all. -/
def Clause.IsGiven : Clause → Prop
  | .order terms => terms ≠ []
  | .top modifier => modifier ≠ .all
  | _ => True

section Clauses

variable {s r : List Char}

theorem openers_of_lexeme {α : Type} {p : Parser α} {a : α} {w : List String}
    (hp : ∀ {s}, p s = .done a r → openersIn s = w ++ openersIn r) (h : lexeme p s = .done a r) :
    openersIn s = w ++ openersIn r := by
  obtain ⟨_, m, hblanks, hdone⟩ := bind_eq_done h
  rw [openers_of_blanks hblanks, hp hdone]

/-- Behind its word a clause is read of the tokens of lists. -/
theorem openers_of_behind {α : Type} {word : String} (hmem : word ∈ Grammar.openers) {p : Parser α} {a : α}
    (hp : ∀ {T : ℕ → List Char → List Char → Prop}, Grammar.ReadsLists T → Reads (T 0) (T 0) p)
    (h : ((keyword word).after p) s = .done a r) : openersIn s = word :: openersIn r := by
  obtain ⟨_, m, hword, hdone⟩ := bind_eq_done h
  rw [openers_of_opener hmem hword, openers_of_list hp hdone]

/-- Behind a word, blanks and a quantity stands what follows. -/
theorem openers_of_spaced {α : Type} {word : String} (hmem : word ∈ Grammar.openers) {f : UInt64 → Parser α} {a : α}
    (h : (do
      let _ ← keyword word
      let _ ← blanks1
      let n ← quantity
      f n) s = .done a r) : ∃ n m, f n m = .done a r ∧ openersIn s = word :: openersIn m := by
  obtain ⟨_, m, hword, h⟩ := bind_eq_done h
  obtain ⟨_, m₁, hblanks, h⟩ := bind_eq_done h
  obtain ⟨n, m₂, hn, h⟩ := bind_eq_done h
  refine ⟨n, m₂, h, ?_⟩
  rw [openers_of_opener hmem hword, openers_of_blanks1 hblanks, openers_of_quantity hn]

theorem openers_of_topModifier {top : Top} (h : Grammar.topModifier s = .done top r) :
    top ≠ .all ∧ openersIn s = top.openers ++ openersIn r := by
  obtain ⟨p, hp, hdone⟩ := firstOf_eq_done h
  simp only [List.mem_cons, List.not_mem_nil, or_false] at hp
  rcases hp with rfl | rfl | rfl | rfl | rfl | rfl
  · obtain ⟨_, m, hword, hlast⟩ := bind_eq_done hdone
    cases hlast
    exact ⟨nofun, openers_of_opener (by decide) hword⟩
  · obtain ⟨_, m, hword, hlast⟩ := bind_eq_done hdone
    cases hlast
    exact ⟨nofun, openers_of_opener (by decide) hword⟩
  · obtain ⟨_, m, hword, hlast⟩ := bind_eq_done hdone
    cases hlast
    exact ⟨nofun, openers_of_opener (by decide) hword⟩
  · obtain ⟨n, m, hbehind, hopeners⟩ := openers_of_spaced (by decide) hdone
    obtain ⟨_, m', hpercent, hlast⟩ := bind_eq_done hbehind
    obtain ⟨rfl, -⟩ := absent_eq_done hpercent
    cases hlast
    exact ⟨nofun, hopeners⟩
  · obtain ⟨n, m, hbehind, hopeners⟩ := openers_of_spaced (by decide) hdone
    obtain ⟨_, m', hpercent, hlast⟩ := bind_eq_done hbehind
    cases hlast
    rw [openers_of_mark (by decide) hpercent] at hopeners
    exact ⟨nofun, hopeners⟩
  · obtain ⟨n, m, hlast, hopeners⟩ := openers_of_spaced (by decide) hdone
    cases hlast
    exact ⟨nofun, hopeners⟩

theorem openers_of_clause {c : Clause} (h : Grammar.clause s = .done c r) :
    c.IsGiven ∧ openersIn s = c.openers ++ openersIn r := by
  obtain ⟨p, hp, hdone⟩ := firstOf_eq_done h
  simp only [List.mem_cons, List.not_mem_nil, or_false] at hp
  rcases hp with rfl | rfl | rfl | rfl | rfl
  · obtain ⟨terms, m, hterms, hlast⟩ := bind_eq_done hdone
    cases hlast
    have hgiven := (((yields_true Grammar.sortTerm).separated1 (symbol ',')).expecting "ordering").commit.after
      (keywords ["order", "by"]) _ _ _ hterms
    rw [Grammar.orderBy_eq] at hterms
    exact ⟨hgiven.1, openers_of_behind (by decide) Grammar.reads_orderTerms hterms⟩
  · obtain ⟨n, m, hn, hlast⟩ := bind_eq_done hdone
    cases hlast
    exact ⟨trivial, openers_of_behind (by decide) (fun hT => Grammar.reads_committed_quantity hT _) hn⟩
  · obtain ⟨n, m, hn, hlast⟩ := bind_eq_done hdone
    cases hlast
    exact ⟨trivial, openers_of_behind (by decide) (fun hT => Grammar.reads_committed_quantity hT _) hn⟩
  · obtain ⟨pages, m, hpages, hlast⟩ := bind_eq_done hdone
    cases hlast
    refine ⟨trivial, openers_of_behind (by decide) (fun hT => ?_) hpages⟩
    exact InStep.commit (InStep.expecting _ (Grammar.reads_pageAndSize hT))
  · obtain ⟨modifier, m, htop, hlast⟩ := bind_eq_done hdone
    cases hlast
    exact openers_of_topModifier htop

theorem openers_of_placedClauses : ∀ {clauses : List (List Char × Clause)} {s r : List Char},
    Grammar.placedClauses s = .done clauses r → (∀ c ∈ clauses.map Prod.snd, c.IsGiven) ∧
      openersIn s = (clauses.map Prod.snd).flatMap Clause.openers ++ openersIn r
  | clauses, s, r, h => by
    have hblanks : openersIn s = openersIn (s.dropWhile isBlank) := openers_of_blanks rfl
    rcases Grammar.placedClauses_eq_done h with ⟨rfl, rfl, -⟩ | ⟨c, m, more, hclause, hmore, rfl⟩
    · exact ⟨nofun, rfl⟩
    · obtain ⟨hc, hfirst⟩ := openers_of_clause hclause
      obtain ⟨hall, hrest⟩ := openers_of_placedClauses hmore
      refine ⟨List.forall_mem_cons.mpr ⟨hc, hall⟩, ?_⟩
      rw [hblanks, hfirst, hrest, List.map_cons, List.flatMap_cons, List.append_assoc]
termination_by clauses => clauses.length

end Clauses

/-! ### What queries read -/

section Queries

variable {s r : List Char}

/-- The openers of the parts, behind the first. -/
def Grammar.Parts.openers (p : Grammar.Parts) : List String :=
  p.lead.toList.flatMap Top.openers ++ p.clauses.flatMap Clause.openers

theorem openers_of_parts {p : Grammar.Parts} (h : Grammar.parts s = .done p r) :
    openersIn s = "select" :: p.openers ++ openersIn r ∧ (∀ top ∈ p.lead, top ≠ .all) ∧
      ∀ c ∈ p.clauses, c.IsGiven := by
  rw [Grammar.parts_eq] at h
  obtain ⟨⟨lead, atoms, source⟩, m, hhead, h⟩ := bind_eq_done h
  obtain ⟨clauses, m₁, hclauses, hlast⟩ := bind_eq_done h
  cases hlast
  obtain ⟨_, m₂, hselect, hhead⟩ := bind_eq_done hhead
  obtain ⟨_, m₃, hlead, hhead⟩ := bind_eq_done hhead
  obtain ⟨listed, m₄, hlisting, hlast⟩ := bind_eq_done hhead
  cases hlast
  have hfirst : openersIn s = "select" :: openersIn m₂ :=
    openers_of_lexeme (w := ["select"]) (openers_of_opener (by decide)) hselect
  obtain ⟨htop, hsecond⟩ : (∀ top ∈ lead, top ≠ .all) ∧
      openersIn m₂ = lead.toList.flatMap Top.openers ++ openersIn m₃ := by
    rcases optional_eq_done hlead with ⟨top, rfl, hdone⟩ | ⟨rfl, rfl, -⟩
    · obtain ⟨run, m, hblanks, hdone⟩ := bind_eq_done hdone
      obtain ⟨hne, hopeners⟩ := openers_of_topModifier hdone
      refine ⟨fun t ht => Option.some.inj ht ▸ hne, ?_⟩
      rw [openers_of_blanks hblanks, hopeners]
      simp
    · exact ⟨nofun, rfl⟩
  obtain ⟨hgiven, hrest⟩ := openers_of_placedClauses hclauses
  refine ⟨?_, htop, hgiven⟩
  rw [hfirst, hsecond, openers_of_list Grammar.reads_listing hlisting, hrest, Grammar.Parts.openers]
  simp

/-- The query is told from the openers in its text: the first is `select` and no other, a top modifier is among them
exactly if the query does not take all, and an ordering exactly if the query is ordered. -/
structure Query.OpenedBy (query : Query) (words : List String) : Prop where
  select : ∃ behind, words = "select" :: behind ∧ "select" ∉ behind
  top : (∃ word ∈ topWords, word ∈ words) ↔ query.top ≠ .all
  order : "order" ∈ words ↔ query.orderings ≠ []

theorem Top.openers_subset (top : Top) : top.openers ⊆ topWords := by
  cases top <;> simp [Top.openers, topWords]

theorem Top.exists_opener {top : Top} (h : top ≠ .all) : ∃ word ∈ topWords, word ∈ top.openers := by
  cases top <;> first | exact absurd rfl h | simp [Top.openers, topWords]

theorem Clause.openers_subset (c : Clause) : c.openers ⊆ Grammar.clauseWords := by
  cases c with
  | top modifier => exact List.Subset.trans modifier.openers_subset (by decide)
  | _ => simp [Clause.openers, Grammar.clauseWords]

/-- Only a top modifier has one of its words. -/
theorem Clause.exists_top_of_opener {c : Clause} {word : String} (hword : word ∈ topWords) (h : word ∈ c.openers) :
    ∃ modifier, c = .top modifier := by
  cases c with
  | top modifier => exact ⟨modifier, rfl⟩
  | _ =>
    rw [List.mem_singleton.mp h] at hword
    exact absurd hword (by decide)

theorem Clause.exists_order_of_opener {c : Clause} (h : "order" ∈ c.openers) : ∃ terms, c = .order terms := by
  cases c with
  | order terms => exact ⟨terms, rfl⟩
  | top modifier => exact absurd (modifier.openers_subset h) (by decide)
  | _ => simp [Clause.openers] at h

theorem Grammar.Parts.mem_openers {p : Grammar.Parts} {word : String} : word ∈ p.openers ↔
    (∃ top, p.lead = some top ∧ word ∈ top.openers) ∨ ∃ c ∈ p.clauses, word ∈ c.openers := by
  rw [Grammar.Parts.openers, List.mem_append, List.mem_flatMap, List.mem_flatMap]
  simp only [Option.mem_toList]

section Made

variable {p : Grammar.Parts} {query : Query} (h : p.Makes query)
include h

theorem top_of_makes : query.top = (p.clauses.findSome? Clause.top?).getD (p.lead.getD .all) := by
  rw [h.query, foldl_withClause _ h.once]
  rfl

theorem orderings_of_makes : query.orderings = (p.clauses.findSome? Clause.order?).getD [] := by
  rw [h.query, foldl_withClause _ h.once]
  rfl

variable (htop : ∀ top ∈ p.lead, top ≠ .all) (hgiven : ∀ c ∈ p.clauses, c.IsGiven)
include htop hgiven

/-- The query takes not all exactly if a top modifier is among its parts. -/
theorem top_ne_all_iff : query.top ≠ .all ↔ (∃ top, p.lead = some top) ∨ ∃ top, Clause.top top ∈ p.clauses := by
  have hclause : ∀ top, Clause.top top ∈ p.clauses → top ≠ .all := fun top hmem => hgiven _ hmem
  rw [top_of_makes h]
  cases hfound : p.clauses.findSome? Clause.top? with
  | some top =>
    obtain ⟨c, hc, hctop⟩ := List.exists_of_findSome?_eq_some hfound
    obtain rfl : c = .top top := by
      cases c with
      | top modifier => exact congrArg Clause.top (Option.some.inj hctop)
      | _ => cases hctop
    exact iff_of_true (hclause top hc) (Or.inr ⟨top, hc⟩)
  | none =>
    have hnone : ¬ ∃ top, Clause.top top ∈ p.clauses := by
      rintro ⟨top, hmem⟩
      cases List.findSome?_eq_none_iff.mp hfound _ hmem
    rw [or_iff_left hnone]
    cases hlead : p.lead with
    | some top => exact iff_of_true (htop top hlead) ⟨top, rfl⟩
    | none => exact iff_of_false (fun hne => hne rfl) nofun

omit htop in
theorem orderings_ne_nil_iff : query.orderings ≠ [] ↔ ∃ terms, Clause.order terms ∈ p.clauses := by
  rw [orderings_of_makes h]
  cases hfound : p.clauses.findSome? Clause.order? with
  | some terms =>
    obtain ⟨c, hc, hcterms⟩ := List.exists_of_findSome?_eq_some hfound
    obtain rfl : c = .order terms := by
      cases c with
      | order others => exact congrArg Clause.order (Option.some.inj hcterms)
      | _ => cases hcterms
    exact iff_of_true (hgiven _ hc) ⟨terms, hc⟩
  | none =>
    refine iff_of_false (fun hne => hne rfl) ?_
    rintro ⟨terms, hmem⟩
    cases List.findSome?_eq_none_iff.mp hfound _ hmem

theorem openedBy_of_makes : query.OpenedBy ("select" :: p.openers) where
  select := by
    refine ⟨p.openers, rfl, fun hmem => ?_⟩
    rcases Grammar.Parts.mem_openers.mp hmem with ⟨top, -, hword⟩ | ⟨c, -, hword⟩
    · exact absurd (top.openers_subset hword) (by decide)
    · exact absurd (c.openers_subset hword) (by decide)
  top := by
    rw [top_ne_all_iff h htop hgiven]
    constructor
    · rintro ⟨word, hword, hmem⟩
      have hmem : word ∈ p.openers := (List.mem_cons.mp hmem).resolve_left fun heq => by
        subst heq
        revert hword
        decide
      rcases Grammar.Parts.mem_openers.mp hmem with ⟨top, hlead, -⟩ | ⟨c, hc, hcword⟩
      · exact Or.inl ⟨top, hlead⟩
      · obtain ⟨modifier, rfl⟩ := Clause.exists_top_of_opener hword hcword
        exact Or.inr ⟨modifier, hc⟩
    · rintro (⟨top, hlead⟩ | ⟨top, hc⟩)
      · obtain ⟨word, hword, hmem⟩ := Top.exists_opener (htop top hlead)
        exact ⟨word, hword, List.mem_cons_of_mem _ (Grammar.Parts.mem_openers.mpr (Or.inl ⟨top, hlead, hmem⟩))⟩
      · obtain ⟨word, hword, hmem⟩ := Top.exists_opener (hgiven _ hc)
        exact ⟨word, hword, List.mem_cons_of_mem _ (Grammar.Parts.mem_openers.mpr (Or.inr ⟨_, hc, hmem⟩))⟩
  order := by
    rw [orderings_ne_nil_iff h hgiven]
    constructor
    · intro hmem
      have hmem : "order" ∈ p.openers := (List.mem_cons.mp hmem).resolve_left (by decide)
      rcases Grammar.Parts.mem_openers.mp hmem with ⟨top, -, hword⟩ | ⟨c, hc, hword⟩
      · exact absurd (top.openers_subset hword) (by decide)
      · obtain ⟨terms, rfl⟩ := Clause.exists_order_of_opener hword
        exact ⟨terms, hc⟩
    · rintro ⟨terms, hc⟩
      refine List.mem_cons_of_mem _ (Grammar.Parts.mem_openers.mpr (Or.inr ⟨_, hc, ?_⟩))
      exact List.mem_singleton.mpr rfl

end Made

theorem openers_of_statement {query : Query} (h : Grammar.statement s = .done query r) :
    ∃ words, openersIn s = words ++ openersIn r ∧ query.OpenedBy words := by
  obtain ⟨p, c, found, hparts, hend, hmakes⟩ := Grammar.statement_eq_done.mp h
  obtain ⟨hopeners, htop, hgiven⟩ := openers_of_parts hparts
  have hmark : openersIn c = openersIn r := by
    refine openers_of_lexeme (w := []) (fun hdone => ?_) hend
    rcases optional_eq_done hdone with ⟨_, -, hdone⟩ | ⟨-, rfl, -⟩
    · exact openers_of_mark (by decide) hdone
    · rfl
  exact ⟨_, hmark ▸ hopeners, openedBy_of_makes hmakes htop hgiven⟩

theorem openers_of_statements : ∀ {queries : List Query} {s r : List Char}, many Grammar.statement s = .done queries r →
    ∃ groups, openersIn s = groups.flatten ++ openersIn r ∧ List.Forall₂ Query.OpenedBy queries groups
  | queries, s, r, h => by
    rcases many_eq_done h with ⟨rfl, rfl, -⟩ | ⟨query, m, more, hquery, -, hmore, rfl⟩
    · exact ⟨[], rfl, .nil⟩
    · obtain ⟨words, hwords, hopened⟩ := openers_of_statement hquery
      obtain ⟨groups, hgroups, hall⟩ := openers_of_statements hmore
      refine ⟨words :: groups, ?_, .cons hopened hall⟩
      rw [hwords, hgroups, List.flatten_cons, List.append_assoc]
termination_by queries => queries.length

theorem openers_of_parse {text : String} {queries : List Query} (h : Script.parse text = .ok ⟨queries⟩) :
    ∃ groups, openersIn text.toList = groups.flatten ∧ List.Forall₂ Query.OpenedBy queries groups := by
  obtain ⟨m, hmany, hm⟩ := Script.parse_eq_ok_iff.mp h
  obtain ⟨groups, hgroups, hall⟩ := openers_of_statements hmany
  have hend : openersIn m = [] := by
    rw [openers_of_blanks (s := m) rfl, hm, openersIn]
  rw [hend, List.append_nil] at hgroups
  exact ⟨groups, hgroups, hall⟩

end Queries

/-- **What is read is well-formed.** The trees of the three readings are well-formed, with numbers that have no sign,
and of every query the text tells whether it has a top modifier and an ordering. -/
theorem parse_wellFormed (text : String) :
    (∀ e, Expr.parse text = .ok e → e.wellFormed Binary64.isUnsigned = true) ∧
    (∀ query, Query.parse text = .ok query → query.wellFormed Binary64.isUnsigned = true ∧
      query.OpenedBy (openersIn text.toList)) ∧
    ∀ script, Script.parse text = .ok script → script.wellFormed Binary64.isUnsigned = true ∧
      ∃ groups, openersIn text.toList = groups.flatten ∧ List.Forall₂ Query.OpenedBy script.statements groups := by
  refine ⟨fun e h => wellFormed_of_parse_expression h, fun query h => ⟨wellFormed_of_parse_query h, ?_⟩,
    fun script h => ⟨wellFormed_of_parse_script h, openers_of_parse h⟩⟩
  obtain ⟨groups, hgroups, hall⟩ := openers_of_parse ((script_of_query text query).mp h)
  obtain ⟨words, rest, hopened, hrest, rfl⟩ := List.forall₂_cons_left_iff.mp hall
  obtain rfl := List.forall₂_nil_left_iff.mp hrest
  rw [hgroups, List.flatten_singleton]
  exact hopened

end SelectLang
