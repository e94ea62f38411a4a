/-
# The two ways to name an item

`expression as name` and `name = expression` are read as items that mean the same. Which of the two is read
is seen behind the first expression of the text: a path with an equals sign behind it is an expression that
ends there, so an item whose first expression ends elsewhere assigns nothing (`misses_assignment`). Turning
one way into the other puts each part before another rest, which the parts do not notice.

Key definitions: `Turned`.
Key theorems: `namePath_elsewhere`, `misses_assignment`, `Turned.atom_done`.
-/
import Mathlib
import SelectLang.Proofs.Grammar.Locality
import SelectLang.Proofs.Grammar.Queries

namespace SelectLang
namespace Grammar

open SelectLang.Parser

/-! ### Paths -/

theorem names_eq_done : ∀ {names : List String} {s r : List Char},
    separatedTail (char '.') identifier s = .done names r → s = (names.flatMap fun name => '.' :: name.toList) ++ r
  | names, s, r, h => by
    rcases separatedTail_eq_done h with ⟨rfl, rfl⟩ | ⟨x, b, name, m, more, hpoint, hname, hmore, rfl⟩
    · rfl
    · obtain rfl := char_eq_done hpoint
      obtain ⟨rfl, -, -⟩ := identifier_eq_done hname
      rw [names_eq_done hmore]
      simp
termination_by names => names.length

/-- A path is read with the characters it has. -/
theorem namePath_eq_done {s r : List Char} {path : NamePath} (h : namePath s = .done path r) :
    s = path.dotted.toList ++ r := by
  obtain ⟨segments, m, hsegments, hlast⟩ := bind_eq_done h
  cases hlast
  obtain ⟨first, m', hfirst, hrest⟩ := bind_eq_done hsegments
  obtain ⟨names, m'', hnames, hlast⟩ := bind_eq_done hrest
  cases hlast
  obtain ⟨rfl, -, -⟩ := identifier_eq_done hfirst
  rw [names_eq_done hnames, dotted_toList, List.append_assoc]

theorem namePath_elsewhere {v m r : List Char} {path : NamePath} (h : namePath (v ++ m) = .done path m)
    (hr : EndsToken r) : namePath (v ++ r) = .done path r := by
  obtain rfl := List.append_cancel_right (namePath_eq_done h)
  exact namePath_done (yields_namePath _ _ _ h) hr

theorem namePath_solid {s r : List Char} {path : NamePath} (h : namePath s = .done path r) :
    s.dropWhile isBlank = s := by
  rw [namePath_eq_done h]
  exact solid_of_isProper (yields_namePath _ _ _ h) r

/-! ### Assignments -/

/-- A path that is assigned to is an expression before the mark. -/
theorem expression_of_assigned {s m : List Char} {path : NamePath} (h : namePath s = .done path m)
    (hm : '=' ∈ (m.dropWhile isBlank).head?) : expression s = .done (.path path) m := by
  have hproper := yields_namePath _ _ _ h
  have hends : Ends 0 m := by
    refine ⟨?_, fun c hc => ?_⟩
    · cases m with
      | nil => simp at hm
      | cons c m =>
        intro x hx
        cases hx
        by_cases hblank : isBlank c = true
        · simp only [isBlank, Bool.or_eq_true, beq_iff_eq] at hblank
          rcases hblank with ((rfl | rfl) | rfl) | rfl <;> decide
        · rw [List.dropWhile_cons_of_neg hblank] at hm
          cases hm
          decide
    · rw [Option.mem_unique hc hm]
      decide
  have hread := expression_done (readsBack_path hproper) hends
  rwa [Expr.render, ← namePath_eq_done h] at hread

/-- Where an expression is read, trying to read a path does not stop the parser. -/
theorem namePath_ne_stop {s r : List Char} {e : Expr} (h : expression s = .done e r) (t : Trouble) :
    lexeme namePath s ≠ .stop t := by
  intro hstop
  have hbind : ∀ {α β : Type} {p : Parser α} {f : α → Parser β} {s : List Char}, p s = .stop t →
      (p >>= f) s = .stop t := fun hp => by rw [bind_apply, hp]
  have hcall : call expression (s.dropWhile isBlank) = .stop t := hbind hstop
  have hfactor : factor expression s = .stop t := by
    change (call expression).orElse _ (s.dropWhile isBlank) = .stop t
    rw [Parser.orElse, hcall]
  rw [expression_apply] at h
  rw [hbind ((additive_apply s).trans (hbind ((term_apply s).trans (hbind hfactor))))] at h
  cases h

/-- An item assigns nothing if its first expression ends before no equals sign. -/
theorem misses_assignment {s m : List Char} {e : Expr} (h : expression s = .done e m)
    (hm : '=' ∉ (m.dropWhile isBlank).head?) : ((lexeme namePath).after (symbol '=')).Misses s := by
  cases hname : lexeme namePath s with
  | done path n =>
    refine misses_bind_done hname (misses_symbol fun hn => hm ?_)
    have hread := expression_of_assigned (s := s.dropWhile isBlank) hname hn
    rw [skipsBlanks_expression, h] at hread
    cases hread
    exact hn
  | miss t => exact Misses.after _ ⟨t, hname⟩
  | stop t => exact absurd hname (namePath_ne_stop h t)

/-! ### Items -/

theorem word_of_keyword {word : String} (hletters : word.toList.all isKeywordLetter = true) {s w r : List Char}
    (h : keyword word s = .done w r) : (wordOf s).map Char.toLower = word.toList := by
  by_contra hne
  exact (misses_keyword hletters hne).not_done h

/-- A text that begins with a word does not begin with a mark. -/
theorem mark_not_mem_head {s : List Char} {word : String} (hne : word.toList ≠ [])
    (h : (wordOf s).map Char.toLower = word.toList) {mark : Char} (hmark : isNameChar mark = false) :
    mark ∉ s.head? := by
  intro hs
  have hend : EndsWord s := fun c hc => by rwa [Option.mem_unique hc hs]
  rw [hend.wordOf_eq_nil] at h
  exact hne h.symm

theorem atom_of_assignment {s m n r : List Char} {path : NamePath} {c : Char} {e : Expr}
    (hname : lexeme namePath s = .done path m) (hmark : symbol '=' m = .done c n)
    (hvalue : expression n = .done e r) : atom s = .done (.assignment path e) r :=
  firstOf_cons_done (bind_done (separatedPair_done hname hmark hvalue))

theorem atom_of_alias {s m n w r : List Char} {path : NamePath} {e : Expr} (hvalue : expression s = .done e m)
    (has : lexeme (keyword "as") m = .done w n) (hname : lexeme namePath n = .done path r) :
    atom s = .done (.expression e (some path)) r := by
  have hmark : '=' ∉ (m.dropWhile isBlank).head? :=
    mark_not_mem_head (by decide) (word_of_keyword (by decide) has) (by decide)
  refine firstOf_cons_of_misses (misses_separatedPair (misses_assignment hvalue hmark)).bind ?_
  rw [firstOf_single, bind_done hvalue, bind_done (optional_done (after_commit_done has hname)), pure_apply]

/-- The item at the front of a text is written the other way, with a blank before and after it. -/
inductive Turned : List Char → List Char → Prop where
  | assigned {u m w n v r : List Char} {e : Expr} {path : NamePath} (value : expression (u ++ m) = .done e m)
      (as : lexeme (keyword "as") m = .done w n) (gap : n.dropWhile isBlank = v ++ r)
      (name : namePath (v ++ r) = .done path r) :
      Turned (u ++ m) (' ' :: (v ++ ' ' :: '=' :: ' ' :: (u ++ ' ' :: r)))
  | aliased {v m u r : List Char} {c : Char} {e : Expr} {path : NamePath} (name : namePath (v ++ m) = .done path m)
      (mark : symbol '=' m = .done c (u ++ r)) (value : expression (u ++ r) = .done e r) :
      Turned (v ++ m) (' ' :: (u ++ ' ' :: ("as".toList ++ ' ' :: (v ++ ' ' :: r))))

/-- Every item with an output name can be written the other way. -/
theorem exists_turned {s r : List Char} {a : Atom} (h : atom s = .done a r) (hs : s.dropWhile isBlank = s)
    (hname : a.output ≠ none) : ∃ s', Turned s s' := by
  obtain ⟨p, hp, hdone⟩ := firstOf_eq_done h
  simp only [List.mem_cons, List.not_mem_nil, or_false] at hp
  rcases hp with rfl | rfl
  · obtain ⟨_, _, hpair, hlast⟩ := bind_eq_done hdone
    obtain ⟨path, m, hpath, hbehind⟩ := bind_eq_done hpair
    obtain ⟨c, n, hmark, hbehind⟩ := bind_eq_done hbehind
    obtain ⟨e, _, hvalue, hend⟩ := bind_eq_done hbehind
    cases hend
    cases hlast
    rw [lexeme_apply, hs] at hpath
    obtain ⟨u, rfl, -⟩ := consumes_expression _ _ _ hvalue
    have htext := namePath_eq_done hpath
    rw [htext] at hpath ⊢
    exact ⟨_, .aliased hpath hmark hvalue⟩
  · obtain ⟨e, m, hvalue, hbehind⟩ := bind_eq_done hdone
    obtain ⟨output, m', hoptional, hend⟩ := bind_eq_done hbehind
    cases hend
    rcases optional_eq_done hoptional with ⟨path, rfl, hnamed⟩ | ⟨rfl, -, -⟩
    · obtain ⟨w, n, has, hnamed⟩ := bind_eq_done hnamed
      have hpath : namePath (n.dropWhile isBlank) = .done path r := expecting_eq_done (commit_eq_done hnamed)
      obtain ⟨u, rfl, -⟩ := consumes_expression _ _ _ hvalue
      have htext := namePath_eq_done hpath
      rw [htext] at hpath
      exact ⟨_, .assigned hvalue has htext hpath⟩
    · exact absurd rfl hname

theorem Turned.begins {s s' : List Char} (h : Turned s s') : ∃ t, s' = ' ' :: t := by
  cases h <;> exact ⟨_, rfl⟩

/-- Written the other way an item is read, up to the same rest, and means the same. -/
theorem Turned.atom_done {s s' r : List Char} {a : Atom} (h : Turned s s') (ha : atom s = .done a r)
    (hr : Idle 0 (r.dropWhile isBlank)) : ∃ a' r', atom s' = .done a' r' ∧
      r'.dropWhile isBlank = r.dropWhile isBlank ∧ a'.normalized = a.normalized := by
  cases h with
  | @assigned u m w n v r₀ e path value as gap name =>
    have hread := atom_of_alias value as (by rw [lexeme_apply, gap, name])
    rw [ha] at hread
    cases hread
    have hword := word_of_keyword (by decide) as
    obtain ⟨y, hy, hrest⟩ := expression_elsewhere value (' ' :: r) (fun _ => endsWord_blank r)
      (idle_of_word (by decide) (by decide) hword 0) (by rwa [List.dropWhile_cons_of_pos rfl])
    have hname := namePath_elsewhere name (endsToken_blank ('=' :: ' ' :: (u ++ ' ' :: r)))
    refine ⟨.assignment path e, y, atom_of_assignment (m := ' ' :: '=' :: ' ' :: (u ++ ' ' :: r)) (c := '=')
      (n := (' ' :: (u ++ ' ' :: r)).dropWhile isBlank) ?_ (symbol_done rfl) ?_, ?_, rfl⟩
    · rw [(skipsBlanks_lexeme _).cons rfl, lexeme_apply, namePath_solid hname, hname]
    · rw [skipsBlanks_expression, skipsBlanks_expression.cons rfl, hy]
    · rw [hrest, List.dropWhile_cons_of_pos rfl]
  | @aliased v m u r₀ c e path name mark value =>
    have hread := atom_of_assignment (s := v ++ m) (by rw [lexeme_apply, namePath_solid name, name]) mark value
    rw [ha] at hread
    cases hread
    have hsolid : ("as".toList ++ ' ' :: (v ++ ' ' :: r)).dropWhile isBlank = "as".toList ++ ' ' :: (v ++ ' ' :: r) :=
      solid_word (by decide) (by decide) _
    have hword : (wordOf ("as".toList ++ ' ' :: (v ++ ' ' :: r))).map Char.toLower = "as".toList := by
      rw [wordOf_keyword (by decide) (endsWord_blank _), toLower_keyword (by decide)]
    obtain ⟨y, hy, hrest⟩ := expression_elsewhere value (' ' :: ("as".toList ++ ' ' :: (v ++ ' ' :: r)))
      (fun _ => endsWord_blank _) hr (by
        rw [List.dropWhile_cons_of_pos rfl, hsolid]
        exact idle_of_word (by decide) (by decide) hword 0)
    have hname := namePath_elsewhere name (endsToken_blank r)
    refine ⟨.expression e (some path), ' ' :: r, atom_of_alias ((skipsBlanks_expression.cons rfl _).trans hy)
      (w := "as".toList) (n := ' ' :: (v ++ ' ' :: r)) ?_ ?_, by rw [List.dropWhile_cons_of_pos rfl], rfl⟩
    · rw [lexeme_apply, hrest, List.dropWhile_cons_of_pos rfl, hsolid,
        keyword_text_done (by decide) (endsWord_blank _)]
    · rw [(skipsBlanks_lexeme _).cons rfl, lexeme_apply, namePath_solid hname, hname]

end Grammar
end SelectLang
