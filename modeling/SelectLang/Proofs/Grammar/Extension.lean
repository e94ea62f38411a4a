/-
# Heads and clauses before another rest

A query up to its source, and each of its clauses, is read again if the text goes on otherwise behind it,
provided that what follows in either case ends a list and takes up no word of it (`Exchange`). A list may end
before the word of a clause or of a query, but such a word begins the clause itself, so the word at the front
is read by hand and what stands behind it by the grammar in step (`list_elsewhere`). Blanks between what is
read and its rest do not count (`ReadsUpTo`).

Key definitions: `Exchange`, `ReadsUpTo`.
Key theorems: `head_elsewhere`, `clause_elsewhere`, `placedClauses_step`.
-/
import Mathlib
import SelectLang.Proofs.Grammar.Edits

namespace SelectLang
namespace Parser

variable {α β : Type}

/-- The parser reads `a` up to `r`, where blanks at the front of `r` do not count. -/
def ReadsUpTo (p : Parser α) (s : List Char) (a : α) (r : List Char) : Prop :=
  ∃ y, p s = .done a y ∧ y.dropWhile isBlank = r.dropWhile isBlank

namespace ReadsUpTo

theorem map {p : Parser α} {s r : List Char} {a : α} (h : p.ReadsUpTo s a r) (f : α → β) :
    (p >>= fun a => pure (f a)).ReadsUpTo s (f a) r := by
  obtain ⟨y, hy, hrest⟩ := h
  exact ⟨y, bind_done hy, hrest⟩

theorem firstOf_cons_of_misses {p : Parser α} {ps : List (Parser α)} {s r : List Char} {a : α} (hp : p.Misses s)
    (h : (firstOf ps).ReadsUpTo s a r) : (firstOf (p :: ps)).ReadsUpTo s a r := by
  obtain ⟨y, hy, hrest⟩ := h
  exact ⟨y, Parser.firstOf_cons_of_misses hp hy, hrest⟩

theorem firstOf_cons {p : Parser α} {ps : List (Parser α)} {s r : List Char} {a : α} (h : p.ReadsUpTo s a r) :
    (firstOf (p :: ps)).ReadsUpTo s a r := by
  obtain ⟨y, hy, hrest⟩ := h
  exact ⟨y, firstOf_cons_done hy, hrest⟩

end ReadsUpTo
end Parser

namespace Grammar

open SelectLang.Parser

/-! ### What may follow -/

theorem openers_reserved : ∀ word ∈ openers, word ∈ reservedWords ∧ word ∉ ["true", "false"] ∧ word.toList ≠ [] := by
  decide

/-- A list ends before a word that begins a query or a clause. -/
theorem idleList_of_opener {s : List Char} {word : String} (hmem : word ∈ openers)
    (h : (wordOf s).map Char.toLower = word.toList) : IdleList 0 s := by
  obtain ⟨hreserved, htruth, hne⟩ := openers_reserved word hmem
  exact ⟨⟨idle_of_word hreserved htruth h 0, .inr ⟨word, hmem, h⟩, mark_not_mem_head hne h (by decide)⟩,
    mark_not_mem_head hne h (by decide)⟩

/-- Behind a list the text may go on as the second in the place of the first. -/
structure Exchange (r r' : List Char) : Prop where
  begins : Begins r r'
  idle : IdleList 0 (r.dropWhile isBlank)
  idle' : IdleList 0 (r'.dropWhile isBlank)

theorem begins_gap {gap : List Char} (h : IsGap gap) (s r : List Char) : Begins r (gap ++ s) := by
  refine forall_head_append h.1 fun c hc => .inr ⟨not_isNameChar_of_isBlank (h.2 c hc), ?_⟩
  rintro rfl
  exact absurd (h.2 _ hc) (by decide)

/-- What the tokens of lists are read by reads the same before another rest. -/
theorem list_elsewhere {α : Type} {p : Parser α}
    (hp : ∀ T : ℕ → List Char → List Char → Prop, ReadsLists T → Reads (T 0) (T 0) p) {u r r' : List Char} {a : α}
    (h : p (u ++ r) = .done a r) (hr : Exchange r r') : p.ReadsUpTo (u ++ r') a r' := by
  have hstep := hp _ (readsLists_along (u ++ r)) _ _ ⟨rfl, .refl 0 _⟩
  rw [h] at hstep
  obtain ⟨_, _, heq, rfl, rfl, hcut⟩ := hstep.exists_done
  exact elsewhere (blanksAside fun _ _ h => h.toIdleList) (fun _ hE => hp _ (readsLists hE)) hcut h hr.begins.endsWord
    hr.idle hr.idle'

/-! ### Clauses -/

/-- Behind a word what is read again before another rest is read again. -/
theorem behind_word_elsewhere {α : Type} {word : String} (hletters : word.toList.all isKeywordLetter = true)
    {q : Parser α} (hq : Consumes 0 q) {x r r' : List Char} {a : α} (h : ((keyword word).after q) (x ++ r) = .done a r)
    (hr : Begins r r') (helse : ∀ v, q (v ++ r) = .done a r → q.ReadsUpTo (v ++ r') a r') :
    (wordOf (x ++ r')).map Char.toLower = word.toList ∧ ((keyword word).after q).ReadsUpTo (x ++ r') a r' := by
  obtain ⟨w, m, hword, hbehind⟩ := bind_eq_done h
  obtain ⟨v, rfl, -⟩ := hq _ _ _ hbehind
  obtain ⟨heq, -, -, hend⟩ := keyword_eq_done hletters hword
  obtain rfl : x = w ++ v := List.append_cancel_right (heq.trans (List.append_assoc w v r).symm)
  rw [List.append_assoc] at hword ⊢
  obtain ⟨hdone, hlower⟩ := keyword_elsewhere hletters hword ((hr.append v).endsWord hend)
  obtain ⟨y, hy, hrest⟩ := helse v hbehind
  exact ⟨hlower, y, (after_done hdone).trans hy, hrest⟩

/-- The terms of an ordering behind its first word. -/
def orderTerms : Parser (List SortTerm) :=
  (blanks1.after (keyword "by")).after (commit (expecting "ordering" (separated1 (symbol ',') sortTerm)))

theorem orderBy_eq : orderBy = (keyword "order").after orderTerms := by
  simp only [orderBy, orderTerms, keywords, after, bind_bind]
  rfl

section Clauses

variable {T : ℕ → List Char → List Char → Prop} (hT : ReadsLists T)
include hT

theorem reads_orderTerms : Reads (T 0) (T 0) orderTerms :=
  Passes.bind hT.spacedBy (InStep.commit (InStep.expecting _ (reads_sortTerms hT)))

theorem reads_committed_quantity (what : String) : Reads (T 0) (T 0) (commit (expecting what (lexeme quantity))) :=
  InStep.commit (InStep.expecting what ((hT.blanks 0).lexeme (reads_quantity hT)))

end Clauses

theorem consumes_orderTerms : Consumes 0 orderTerms := by
  have hby : Consumes 0 (blanks1.after (keyword "by")) :=
    (consumes_blanks1.mono (Nat.zero_le 1)).bind_left fun _ => (consumes_keyword (by decide)).mono (Nat.zero_le _)
  have hterms : Consumes 0 (separated1 (symbol ',') sortTerm) :=
    ((consumes_symbol ',').mono (Nat.zero_le 1)).separated1 (consumes_sortTerm.mono (Nat.zero_le 1))
  exact hby.bind_right fun _ => (hterms.expecting _).commit

theorem consumes_committed_quantity (what : String) : Consumes 0 (commit (expecting what (lexeme quantity))) :=
  (((consumes_quantity.mono (Nat.zero_le 1)).lexeme).expecting what).commit

theorem consumes_pageAndSize : Consumes 0 pageAndSize := by
  have hword : ∀ {word : String}, word.toList.all isKeywordLetter = true →
      Consumes 0 (lexeme (keyword word)) := fun hw => ((consumes_keyword hw).mono (Nat.zero_le _)).lexeme
  have hquantity : Consumes 0 (lexeme quantity) := (consumes_quantity.mono (Nat.zero_le 1)).lexeme
  exact (hword (by decide)).bind_left fun _ => hquantity.bind_left fun page =>
    (hword (by decide)).bind_left fun _ => hquantity.map fun size => Pagination.mk page size

/-- A clause is read again before what may follow it in the place of its rest. -/
theorem clause_elsewhere {x r r' : List Char} {c : Clause} (h : clause (x ++ r) = .done c r) (hr : Exchange r r') :
    clause.ReadsUpTo (x ++ r') c r' := by
  have hother : ∀ {word other : String}, (wordOf (x ++ r')).map Char.toLower = word.toList → word ≠ other →
      (wordOf (x ++ r')).map Char.toLower ≠ other.toList := fun hword hne => by
    rw [hword, ne_eq, String.toList_inj]
    exact hne
  obtain ⟨p, hp, hdone⟩ := firstOf_eq_done h
  simp only [List.mem_cons, List.not_mem_nil, or_false] at hp
  rcases hp with rfl | rfl | rfl | rfl | rfl
  · obtain ⟨terms, m, hterms, hlast⟩ := bind_eq_done hdone
    cases hlast
    rw [orderBy_eq] at hterms
    obtain ⟨-, hread⟩ := behind_word_elsewhere (by decide) consumes_orderTerms hterms hr.begins fun v hv =>
      list_elsewhere (fun _ => reads_orderTerms) hv hr
    rw [← orderBy_eq] at hread
    exact .firstOf_cons (hread.map Clause.order)
  · obtain ⟨n, m, hn, hlast⟩ := bind_eq_done hdone
    cases hlast
    obtain ⟨hword, hread⟩ := behind_word_elsewhere (by decide) (consumes_committed_quantity _) hn hr.begins
      fun v hv => list_elsewhere (fun _ hT => reads_committed_quantity hT _) hv hr
    exact .firstOf_cons_of_misses (misses_orderBy (hother hword (by decide))).bind
      (.firstOf_cons (ReadsUpTo.map (p := Grammar.offset) hread Clause.offset))
  · obtain ⟨n, m, hn, hlast⟩ := bind_eq_done hdone
    cases hlast
    obtain ⟨hword, hread⟩ := behind_word_elsewhere (by decide) (consumes_committed_quantity _) hn hr.begins
      fun v hv => list_elsewhere (fun _ hT => reads_committed_quantity hT _) hv hr
    exact .firstOf_cons_of_misses (misses_orderBy (hother hword (by decide))).bind
      (.firstOf_cons_of_misses (misses_offset (hother hword (by decide))).bind
      (.firstOf_cons (ReadsUpTo.map (p := Grammar.limit) hread Clause.limit)))
  · obtain ⟨pages, m, hpages, hlast⟩ := bind_eq_done hdone
    cases hlast
    obtain ⟨hword, hread⟩ := behind_word_elsewhere (by decide) (consumes_pageAndSize.expecting _).commit hpages
      hr.begins fun v hv =>
        list_elsewhere (fun _ hT => InStep.commit (InStep.expecting _ (reads_pageAndSize hT))) hv hr
    exact .firstOf_cons_of_misses (misses_orderBy (hother hword (by decide))).bind
      (.firstOf_cons_of_misses (misses_offset (hother hword (by decide))).bind
      (.firstOf_cons_of_misses (misses_limit (hother hword (by decide))).bind
      (.firstOf_cons (ReadsUpTo.map (p := Grammar.paginated) hread Clause.page))))
  · obtain ⟨top, m, htop, hlast⟩ := bind_eq_done hdone
    cases hlast
    have hread := topModifier_elsewhere htop hr.begins
    obtain ⟨word, hmem, hword⟩ : ∃ word ∈ ["first", "last", "one", "top", "at"],
        (wordOf (x ++ r')).map Char.toLower = word.toList := by
      by_contra hno
      refine (misses_topModifier fun word hmem hword => hno ⟨word, hmem, hword⟩).not_done hread
    have hne : ∀ word ∈ ["first", "last", "one", "top", "at"], ∀ other ∈ ["order", "offset", "limit", "paginated"],
        word ≠ other := by decide
    refine ⟨r', ?_, rfl⟩
    exact firstOf_cons_of_misses (misses_orderBy (hother hword (hne word hmem _ (by decide)))).bind
      (firstOf_cons_of_misses (misses_offset (hother hword (hne word hmem _ (by decide)))).bind
      (firstOf_cons_of_misses (misses_limit (hother hword (hne word hmem _ (by decide)))).bind
      (firstOf_cons_of_misses
        (Misses.bind ((misses_keyword (by decide) (hother hword (hne word hmem "paginated" (by decide)))).after _))
      (bind_done hread))))

/-- A clause begins with a word of its own. -/
theorem opener_of_clause {s r : List Char} {c : Clause} (h : clause s = .done c r) :
    ∃ word ∈ openers, (wordOf s).map Char.toLower = word.toList := by
  by_contra hno
  refine (misses_clause fun word hmem hword => hno ⟨word, ?_, hword⟩).not_done h
  exact List.mem_cons_of_mem _ hmem

/-- What is read as a clause does not begin with a blank. -/
theorem solid_of_clause {s r : List Char} {c : Clause} (h : clause s = .done c r) : s.dropWhile isBlank = s := by
  obtain ⟨word, hmem, hword⟩ := opener_of_clause h
  refine dropWhile_isBlank fun c hc => ?_
  by_contra hblank
  rw [Bool.not_eq_false] at hblank
  exact mark_not_mem_head (openers_letters word hmem).2 hword (not_isNameChar_of_isBlank hblank) hc

theorem idleList_of_clause {s r : List Char} {c : Clause} (h : clause s = .done c r) : IdleList 0 s := by
  obtain ⟨word, hmem, hword⟩ := opener_of_clause h
  exact idleList_of_opener hmem hword

theorem misses_clause_of_end : clause.Misses [] := misses_clause (by decide)

/-! ### Heads -/

/-- A query up to its source is read again before what may follow it in the place of its rest. -/
theorem head_elsewhere {x r r' : List Char} {listed : Option Top × List Atom × NamePath}
    (h : head (x ++ r) = .done listed r) (hr : Exchange r r') : head.ReadsUpTo (x ++ r') listed r' := by
  obtain ⟨w, m, hselect, hbody⟩ := bind_eq_done h
  obtain ⟨lead, k, hlead, hbody⟩ := bind_eq_done hbody
  obtain ⟨⟨atoms, source⟩, r₀, hlisting, hlast⟩ := bind_eq_done hbody
  cases hlast
  obtain ⟨v, rfl, -⟩ := consumes_listing _ _ _ hlisting
  obtain ⟨u, rfl, -⟩ := (consumes_topModifier.lexeme.mono (Nat.zero_le 1)).optional _ _ _ hlead
  obtain ⟨y, hy, -⟩ := consumes_select.lexeme _ _ _ hselect
  obtain rfl : x = y ++ (u ++ v) := List.append_cancel_right (hy.trans (by simp))
  have hbegins : Begins (v ++ r) (v ++ r') := hr.begins.append v
  obtain ⟨z, hz, hrest⟩ := list_elsewhere (fun _ => reads_listing) hlisting hr
  obtain ⟨_, _, hatoms, -⟩ := bind_eq_done hz
  obtain ⟨a, _, _, ha, -⟩ := separated1_eq_done hatoms
  have hlead' := lead_elsewhere hlead hbegins ha
  have hselect' : lexeme (keyword "select") (y ++ (u ++ (v ++ r'))) = .done w (u ++ (v ++ r')) := by
    refine lexeme_elsewhere consumes_select (s := u ++ (v ++ r)) (by simpa using hselect) fun t ht => ?_
    exact (keyword_elsewhere (by decide) ht ((hbegins.append u).endsWord (keyword_eq_done (by decide) ht).2.2.2)).1
  refine ⟨z, ?_, hrest⟩
  rw [List.append_assoc, List.append_assoc]
  refine (after_done hselect').trans ?_
  rw [bind_done hlead', bind_done hz, pure_apply]

/-! ### The clauses of a query -/

section Clauses

variable {s r k : List Char} {c : Clause} {cs : List (List Char × Clause)}

theorem placedClause_apply (s : List Char) : lexeme (both here clause) s =
    match clause (s.dropWhile isBlank) with
    | .done c r => .done (s.dropWhile isBlank, c) r
    | .miss t => .miss t
    | .stop t => .stop t := by
  rw [lexeme_apply, both]
  change (clause >>= fun c => pure (s.dropWhile isBlank, c)) (s.dropWhile isBlank) = _
  rw [bind_apply]
  cases clause (s.dropWhile isBlank) <;> rfl

/-- Clauses are the first of them, which begins behind the blanks, and those behind it. -/
theorem placedClauses_step (h : clause (s.dropWhile isBlank) = .done c r) (hrest : placedClauses r = .done cs k) :
    placedClauses s = .done ((s.dropWhile isBlank, c) :: cs) k := by
  refine many_step (by rw [placedClause_apply, h]) ?_ hrest
  have hle := List.length_dropWhile_le isBlank s
  have hlt := consumes_clause.length_le h
  omega

theorem placedClauses_of_misses (h : clause.Misses (s.dropWhile isBlank)) : placedClauses s = .done [] s := by
  obtain ⟨t, ht⟩ := h
  exact many_of_misses ⟨t, by rw [placedClause_apply, ht]⟩

theorem placedClauses_eq_done (h : placedClauses s = .done cs k) :
    (cs = [] ∧ k = s ∧ clause.Misses (s.dropWhile isBlank)) ∨
      ∃ c r ds, clause (s.dropWhile isBlank) = .done c r ∧ placedClauses r = .done ds k ∧
        cs = (s.dropWhile isBlank, c) :: ds := by
  rcases many_eq_done h with ⟨rfl, hs, t, ht⟩ | ⟨⟨start, c⟩, r, ds, hround, -, hrest, rfl⟩
  · rw [placedClause_apply] at ht
    cases hc : clause (s.dropWhile isBlank) with
    | done c r => rw [hc] at ht; cases ht
    | miss u => exact .inl ⟨rfl, hs, u, hc⟩
    | stop u => rw [hc] at ht; cases ht
  · rw [placedClause_apply] at hround
    cases hc : clause (s.dropWhile isBlank) with
    | done c r => rw [hc] at hround; cases hround; exact .inr ⟨c, r, ds, rfl, hrest, rfl⟩
    | miss u => rw [hc] at hround; cases hround
    | stop u => rw [hc] at hround; cases hround

/-- Blanks before the first clause do not count. -/
theorem placedClauses_of_blanks {s' : List Char} (hs : s'.dropWhile isBlank = s.dropWhile isBlank)
    (h : placedClauses.ReadsUpTo s cs k) : placedClauses.ReadsUpTo s' cs k := by
  obtain ⟨y, hy, hrest⟩ := h
  rcases placedClauses_eq_done hy with ⟨rfl, rfl, hmiss⟩ | ⟨c, r, ds, hc, hds, rfl⟩
  · rw [← hs] at hmiss
    exact ⟨s', placedClauses_of_misses hmiss, hs.trans hrest⟩
  · rw [← hs] at hc ⊢
    exact ⟨y, placedClauses_step hc hds, hrest⟩

theorem ReadsUpTo.placedClauses_step {m : List Char} (h : clause.ReadsUpTo (s.dropWhile isBlank) c m)
    (hrest : placedClauses.ReadsUpTo m cs k) : placedClauses.ReadsUpTo s ((s.dropWhile isBlank, c) :: cs) k := by
  obtain ⟨y, hy, hm⟩ := h
  obtain ⟨z, hz, hlast⟩ := placedClauses_of_blanks hm hrest
  exact ⟨z, Grammar.placedClauses_step hy hz, hlast⟩

end Clauses

/-- Clauses are read again before what may follow the last of them in the place of the rest. -/
theorem placedClauses_elsewhere {r r' : List Char} (hr : Exchange r r') (hend : clause.Misses (r'.dropWhile isBlank)) :
    ∀ {cs : List (List Char × Clause)} {x : List Char}, placedClauses (x ++ r) = .done cs r →
      Exchange (x ++ r) (x ++ r') ∧
        ∃ ds, placedClauses.ReadsUpTo (x ++ r') ds r' ∧ ds.map Prod.snd = cs.map Prod.snd
  | cs, x, h => by
    rcases placedClauses_eq_done h with ⟨rfl, hx, -⟩ | ⟨c, m, ds, hc, hds, rfl⟩
    · obtain rfl : x = [] := List.append_left_eq_self.mp hx.symm
      exact ⟨hr, [], ⟨r', placedClauses_of_misses hend, rfl⟩, rfl⟩
    · obtain ⟨v, rfl, -⟩ := consumes_placedClauses _ _ _ hds
      obtain ⟨y, hy, hlen⟩ := consumes_clause _ _ _ hc
      have hdrop : (x ++ r').dropWhile isBlank = y ++ (v ++ r') := by
        rw [← List.append_assoc]
        refine dropWhile_elsewhere (s := r) (by rw [hy, List.append_assoc]) ?_ r'
        rintro h0
        simp [(List.append_eq_nil_iff.mp h0).1] at hlen
      obtain ⟨hexchange, es, hes, hsame⟩ := placedClauses_elsewhere hr hend hds
      rw [hy] at hc
      have hread := clause_elsewhere hc hexchange
      refine ⟨⟨hr.begins.append x, ?_, ?_⟩, (y ++ (v ++ r'), c) :: es, ?_, by rw [List.map_cons, List.map_cons, hsame]⟩
      · rw [hy]
        exact idleList_of_clause hc
      · rw [hdrop]
        obtain ⟨_, hdone, -⟩ := hread
        exact idleList_of_clause hdone
      · rw [← hdrop] at hread ⊢
        exact ReadsUpTo.placedClauses_step hread hes

/-- A query up to its end is read again before what may follow it in the place of its rest. -/
theorem parts_elsewhere {x r r' : List Char} {p : Parts} (h : parts (x ++ r) = .done p r) (hr : Exchange r r')
    (hend : clause.Misses (r'.dropWhile isBlank)) : parts.ReadsUpTo (x ++ r') p r' := by
  rw [parts_eq] at h ⊢
  obtain ⟨listed, m, hhead, hbehind⟩ := bind_eq_done h
  obtain ⟨cs, k, hclauses, hlast⟩ := bind_eq_done hbehind
  cases hlast
  obtain ⟨v, rfl, -⟩ := consumes_placedClauses _ _ _ hclauses
  obtain ⟨u, hu, -⟩ := consumes_head _ _ _ hhead
  obtain rfl : x = u ++ v := List.append_cancel_right (hu.trans (List.append_assoc u v r).symm)
  rw [List.append_assoc] at hhead ⊢
  obtain ⟨hexchange, ds, hds, hsame⟩ := placedClauses_elsewhere hr hend hclauses
  obtain ⟨y, hy, hrest⟩ := head_elsewhere hhead hexchange
  obtain ⟨z, hz, hlast⟩ := placedClauses_of_blanks hrest hds
  refine ⟨z, ?_, hlast⟩
  rw [bind_done hy, bind_done hz, hsame, pure_apply]

/-! ### Queries -/

/-- The kinds that are given before the clauses. -/
def leadKinds (lead : Option Top) : List Clause.Kind := if lead.isSome then [.top] else []

/-- What a query is read as, by its head, its clauses and its end. -/
theorem statement_of_clauses {s m c r : List Char} {lead : Option Top} {atoms : List Atom} {source : NamePath}
    {cs : List (List Char × Clause)} {found : Option Char} (hhead : head s = .done (lead, atoms, source) m)
    (hclauses : placedClauses m = .done cs c) (hend : termination c = .done found r) :
    statement s = match repeated? (leadKinds lead) cs with
      | some start => .stop ⟨start, some "clause that was not given before", []⟩
      | none => .done ((cs.map Prod.snd).foldl Query.withClause
          ⟨source, atoms, lead.getD .all, [], none, none, none⟩) r := by
  obtain ⟨w, m₁, hselect, hbody⟩ := bind_eq_done hhead
  obtain ⟨lead', m₂, hlead, hbody⟩ := bind_eq_done hbody
  obtain ⟨⟨atoms', source'⟩, m₃, hlisting, hlast⟩ := bind_eq_done hbody
  cases hlast
  obtain ⟨_, m₄, hatoms, hlisting⟩ := bind_eq_done hlisting
  obtain ⟨_, m₅, hfrom, hlisting⟩ := bind_eq_done hlisting
  obtain ⟨_, m₆, hsource, hlast⟩ := bind_eq_done hlisting
  cases hlast
  have hclauses : many (lexeme (both here clause)) m = .done cs c := hclauses
  refine (after_done hselect).trans ?_
  rw [commit, body, bind_done hlead, bind_done (expecting_done hatoms), bind_done (expecting_done hfrom),
    bind_done (expecting_done hsource), bind_done hclauses, bind_done hend, leadKinds]
  cases repeated? (if lead.isSome then [Clause.Kind.top] else []) cs <;> rfl

end Grammar

open SelectLang.Parser SelectLang.Grammar

/-- A text is read as the query of its head and its clauses, or the clause that is given again is refused. -/
theorem parse_of_clauses {text : String} {m c : List Char} {lead : Option Top} {atoms : List Atom} {source : NamePath}
    {cs : List (List Char × Clause)} (hhead : head text.toList = .done (lead, atoms, source) m)
    (hclauses : placedClauses m = .done cs c) (hc : c.dropWhile isBlank = []) : Query.parse text =
      match repeated? (leadKinds lead) cs with
      | some start => .error (.ofTrouble text.toList ⟨start, some "clause that was not given before", []⟩)
      | none => .ok ((cs.map Prod.snd).foldl Query.withClause
          ⟨source, atoms, lead.getD .all, [], none, none, none⟩) := by
  have hend : termination c = .done none [] := by
    rw [termination, lexeme_apply, hc]
    rfl
  rw [Query.parse, Parser.run, whole, Parser.followedBy, bind_apply, statement_of_clauses hhead hclauses hend]
  cases repeated? (leadKinds lead) cs <;> rfl

end SelectLang
