/-
# Where troubles lie

Whatever a parser replies, the text that its reply leaves is the end of the text that it was given (`Stays`):
the rest of a success, and the place where a trouble lies. What is found there is all that is left
(`Trouble.LiesIn`): the smallest parsers tell their troubles so, and the combinators only hand them on (`Tells`). So
a position that a diagnostic names is one of its text, and a trouble in the end of a longer text lies further on by
the bytes before it.

Key definitions: `Reply.rest`, `Reply.map`, `Trouble.LiesIn`, `Parser.Tells`, `Parser.Stays`.
Key theorems: `Tells.bind`, `Tells.many`, `tells_fix`, `Diagnostic.ofTrouble_append`.
-/
import Mathlib
import SelectLang.Text.Diagnostic
import SelectLang.Proofs.Text.Reading

namespace SelectLang

variable {α β σ : Type}

/-- The text that is left, or the text that was left where reading failed. -/
def Reply.rest : Reply α → List Char
  | done _ r => r
  | miss t => t.rest
  | stop t => t.rest

/-- The reply with another value. -/
def Reply.map (f : α → β) : Reply α → Reply β
  | done a r => .done (f a) r
  | miss t => .miss t
  | stop t => .stop t

/-- The reply says that reading failed so. -/
def Reply.Fails (reply : Reply α) (t : Trouble) : Prop := reply = .miss t ∨ reply = .stop t

theorem Reply.not_fails_done {a : α} {r : List Char} {t : Trouble} : ¬ (Reply.done a r).Fails t := by
  simp [Fails]

theorem Reply.fails_miss {u t : Trouble} : (Reply.miss u : Reply α).Fails t ↔ u = t := by
  simp [Fails]

theorem Reply.fails_stop {u t : Trouble} : (Reply.stop u : Reply α).Fails t ↔ u = t := by
  simp [Fails]

/-- The trouble lies in the text, and finds there what is left. -/
structure Trouble.LiesIn (t : Trouble) (s : List Char) : Prop where
  rest : t.rest <:+ s
  found : t.found = t.rest

theorem Trouble.liesIn_before (s : List Char) : (Trouble.before s).LiesIn s := ⟨List.suffix_refl s, rfl⟩

theorem Trouble.LiesIn.extend {t : Trouble} {m s : List Char} (hm : m <:+ s) (h : t.LiesIn m) : t.LiesIn s :=
  ⟨h.rest.trans hm, h.found⟩

theorem Trouble.LiesIn.label {t : Trouble} {s : List Char} (what : String) (h : t.LiesIn s) :
    (t.label what).LiesIn s := ⟨h.rest, h.found⟩

/-- The reply leaves an end of the text, and its trouble, if it is one, lies in the text. -/
def Reply.Told (s : List Char) : Reply α → Prop
  | done _ r => r <:+ s
  | miss t => t.LiesIn s
  | stop t => t.LiesIn s

theorem Reply.told_map {f : α → β} {reply : Reply α} {s : List Char} : (reply.map f).Told s ↔ reply.Told s := by
  cases reply <;> rfl

theorem Reply.fails_map {f : α → β} {reply : Reply α} {t : Trouble} : (reply.map f).Fails t ↔ reply.Fails t := by
  cases reply <;> simp [Reply.map, Reply.Fails]

theorem Reply.Told.extend {reply : Reply α} {m s : List Char} (hm : m <:+ s) (h : reply.Told m) : reply.Told s := by
  cases reply with
  | done a r => exact List.IsSuffix.trans h hm
  | miss t => exact Trouble.LiesIn.extend hm h
  | stop t => exact Trouble.LiesIn.extend hm h

namespace Parser

/-- Every reply leaves an end of the text. -/
def Stays (p : Parser α) : Prop := ∀ s, (p s).rest <:+ s

/-- Every reply leaves an end of the text, and every trouble finds it. -/
def Tells (p : Parser α) : Prop := ∀ s, (p s).Told s

theorem Tells.of_fails {p : Parser α} (hp : Tells p) {s : List Char} {t : Trouble} (h : (p s).Fails t) :
    t.LiesIn s := by
  have hs := hp s
  rcases h with h | h <;> rwa [h] at hs

theorem Tells.suffix_of_done {p : Parser α} (hp : Tells p) {s r : List Char} {a : α} (h : p s = .done a r) :
    r <:+ s := by
  have hs := hp s
  rwa [h] at hs

/-! ### What hands on -/

theorem tells_pure (a : α) : Tells (pure a : Parser α) := fun s => List.suffix_refl s

theorem tells_takeWhile (accepts : Char → Bool) : Tells (takeWhile accepts) := fun _ => List.dropWhile_suffix accepts

theorem tells_blanks : Tells blanks := tells_takeWhile _

theorem tells_here : Tells here := fun s => List.suffix_refl s

theorem Tells.optional {p : Parser α} (hp : Tells p) : Tells (optional p) := fun s => by
  have hs := hp s
  rw [Parser.optional]
  cases h : p s with
  | done a r => rwa [h] at hs
  | miss t => exact List.suffix_refl s
  | stop t => rwa [h] at hs

theorem Tells.consumed {p : Parser α} (hp : Tells p) : Tells (consumed p) := fun s => by
  have hs := hp s
  rw [Parser.consumed]
  cases h : p s with
  | done a r => rwa [h] at hs
  | miss t => rwa [h] at hs
  | stop t => rwa [h] at hs

theorem Tells.commit {p : Parser α} (hp : Tells p) : Tells (commit p) := fun s => by
  have hs := hp s
  rw [Parser.commit]
  cases h : p s with
  | done a r => rwa [h] at hs
  | miss t => rwa [h] at hs
  | stop t => rwa [h] at hs

theorem furthest_eq (t u : Trouble) : t.furthest u = t ∨ t.furthest u = u := by
  rw [Trouble.furthest]
  split
  · exact .inr rfl
  · exact .inl rfl

theorem Tells.orElse {p q : Parser α} (hp : Tells p) (hq : Tells q) : Tells (p.orElse q) := fun s => by
  have hs := hp s
  have hs' := hq s
  rw [Parser.orElse]
  cases h : p s with
  | done a r => rwa [h] at hs
  | stop t => rwa [h] at hs
  | miss t =>
    rw [h] at hs
    cases h' : q s with
    | done a r => rwa [h'] at hs'
    | stop u => rwa [h'] at hs'
    | miss u =>
      rw [h'] at hs'
      change (t.furthest u).LiesIn s
      rcases furthest_eq t u with heq | heq
      · rwa [heq]
      · rwa [heq]

theorem splitBytes_suffix : ∀ (size : ℕ) (s : List Char), (splitBytes size s).2 <:+ s
  | _, [] => List.suffix_refl []
  | size, c :: s => by
    rw [splitBytes]
    split
    · exact (splitBytes_suffix (size - c.utf8Size) s).trans (List.suffix_cons c s)
    · exact List.suffix_refl (c :: s)

theorem many_cons {p : Parser α} {s m : List Char} {a : α} (h : p s = .done a m) (hm : m.length < s.length) :
    many p s = (many p m).map (a :: ·) := by
  rw [many, h]
  simp only [hm, ↓reduceDIte]
  cases many p m <;> rfl

theorem separatedTail_cons {sep : Parser σ} {p : Parser α} {s b m : List Char} {x : σ} {a : α}
    (hsep : sep s = .done x b) (hb : b.length < s.length) (h : p b = .done a m) (hm : m.length < s.length) :
    separatedTail sep p s = (separatedTail sep p m).map (a :: ·) := by
  rw [separatedTail, hsep]
  simp only [hb, ↓reduceIte, h, hm, ↓reduceDIte]
  cases separatedTail sep p m <;> rfl

theorem separated_cons {sep : Parser σ} {p : Parser α} {s m : List Char} {a : α} (h : p s = .done a m) :
    separated sep p s = (separatedTail sep p m).map (a :: ·) := by
  rw [separated, h]
  dsimp only
  cases separatedTail sep p m <;> rfl

/-! ### Characters -/

theorem tells_missAt : Tells (missAt : Parser α) := fun s => Trouble.liesIn_before s

theorem tells_satisfy (accepts : Char → Bool) : Tells (satisfy accepts)
  | [] => tells_missAt []
  | c :: s => by
    rw [satisfy]
    split
    · exact List.suffix_cons c s
    · exact tells_missAt (c :: s)

theorem tells_char (c : Char) : Tells (char c) := tells_satisfy _

theorem tells_takeWhile1 (accepts : Char → Bool) : Tells (takeWhile1 accepts) := fun s => by
  rw [takeWhile1]
  split
  · exact tells_missAt s
  · exact List.dropWhile_suffix accepts

theorem tells_literal (t : List Char) : Tells (literal t) := fun s => by
  rw [literal]
  split
  · exact List.drop_suffix t.length s
  · exact tells_missAt s

theorem tells_atEnd : Tells atEnd
  | [] => List.suffix_refl []
  | c :: s => tells_missAt (c :: s)

/-! ### Sequence -/

theorem Tells.bind {p : Parser α} {f : α → Parser β} (hp : Tells p) (hf : ∀ a, Tells (f a)) :
    Tells (p >>= f) := fun s => by
  have hs := hp s
  rw [bind_apply]
  cases h : p s with
  | done a m =>
    rw [h] at hs
    exact (hf a m).extend hs
  | miss t => rwa [h] at hs
  | stop t => rwa [h] at hs

theorem Tells.map {p : Parser α} (hp : Tells p) (f : α → β) : Tells (p >>= fun a => pure (f a)) :=
  hp.bind fun _ => tells_pure _

theorem Tells.after {p : Parser α} {q : Parser β} (hp : Tells p) (hq : Tells q) : Tells (p.after q) :=
  hp.bind fun _ => hq

theorem Tells.followedBy {p : Parser α} {q : Parser β} (hp : Tells p) (hq : Tells q) :
    Tells (p.followedBy q) := hp.bind fun a => hq.map fun _ => a

theorem Tells.both {p : Parser α} {q : Parser β} (hp : Tells p) (hq : Tells q) : Tells (both p q) :=
  hp.bind fun a => hq.map (a, ·)

theorem Tells.separatedPair {p : Parser α} {b : Parser σ} {q : Parser β} (hp : Tells p) (hb : Tells b)
    (hq : Tells q) : Tells (separatedPair p b q) :=
  hp.bind fun a => hb.bind fun _ => hq.map (a, ·)

/-! ### Choice -/

theorem tells_firstOf : ∀ {ps : List (Parser α)}, (∀ p ∈ ps, Tells p) → Tells (firstOf ps)
  | [], _ => tells_missAt
  | [p], h => h p List.mem_cons_self
  | p :: _ :: _, h =>
    (h p List.mem_cons_self).orElse (tells_firstOf fun r hr => h r (List.mem_cons_of_mem p hr))

theorem Tells.absent {p : Parser α} (hp : Tells p) : Tells (absent p) := fun s => by
  have hs := hp s
  rw [Parser.absent]
  cases h : p s with
  | done a r => exact tells_missAt (α := Unit) s
  | miss t => exact List.suffix_refl s
  | stop t => rwa [h] at hs

/-! ### Results and troubles -/

theorem Tells.filterMap {p : Parser α} (hp : Tells p) (f : α → Option β) : Tells (p.filterMap f) := fun s => by
  have hs := hp s
  rw [Parser.filterMap]
  cases h : p s with
  | done a r =>
    rw [h] at hs
    dsimp only
    cases f a with
    | none => exact tells_missAt (α := β) s
    | some b => exact hs
  | miss t => rwa [h] at hs
  | stop t => rwa [h] at hs

theorem Tells.expecting {p : Parser α} (what : String) (hp : Tells p) : Tells (expecting what p) := fun s => by
  have hs := hp s
  rw [Parser.expecting]
  cases h : p s with
  | done a r => rwa [h] at hs
  | miss t =>
    rw [h] at hs
    exact hs.label what
  | stop t =>
    rw [h] at hs
    exact hs.label what

/-! ### Repetition -/

theorem Tells.many {p : Parser α} (hp : Tells p) : Tells (many p) := by
  intro s
  induction hl : s.length using Nat.strong_induction_on generalizing s with
  | _ n ih =>
    subst hl
    have hs := hp s
    cases h : p s with
    | done a m =>
      by_cases hm : m.length < s.length
      · rw [many_cons h hm, Reply.told_map]
        exact (ih m.length hm m rfl).extend (hp.suffix_of_done h)
      · rw [Parser.many, h]
        simp only [hm, ↓reduceDIte]
        exact tells_missAt s
    | miss t =>
      rw [Parser.many, h]
      exact List.suffix_refl s
    | stop t =>
      rw [Parser.many, h]
      rwa [h] at hs

theorem Tells.many1 {p : Parser α} (hp : Tells p) : Tells (many1 p) :=
  hp.bind fun a => hp.many.map (a :: ·)

theorem Tells.separatedTail {sep : Parser σ} {p : Parser α} (hsep : Tells sep) (hp : Tells p) :
    Tells (separatedTail sep p) := by
  intro s
  induction hl : s.length using Nat.strong_induction_on generalizing s with
  | _ n ih =>
    subst hl
    have hmark := hsep s
    cases h : sep s with
    | done x b =>
      rw [h] at hmark
      by_cases hb : b.length < s.length
      · have hs := hp b
        cases hr : p b with
        | done a m =>
          rw [hr] at hs
          by_cases hm : m.length < s.length
          · rw [separatedTail_cons h hb hr hm, Reply.told_map]
            exact (ih m.length hm m rfl).extend (List.IsSuffix.trans hs hmark)
          · rw [Parser.separatedTail, h]
            simp only [hb, ↓reduceIte, hr, hm, ↓reduceDIte]
            exact tells_missAt s
        | miss t =>
          rw [Parser.separatedTail, h]
          simp only [hb, ↓reduceIte, hr]
          exact List.suffix_refl s
        | stop t =>
          rw [hr] at hs
          rw [Parser.separatedTail, h]
          simp only [hb, ↓reduceIte, hr]
          exact Trouble.LiesIn.extend hmark hs
      · rw [Parser.separatedTail, h]
        simp only [hb, ↓reduceIte]
        exact (Trouble.liesIn_before b).extend hmark
    | miss t =>
      rw [Parser.separatedTail, h]
      exact List.suffix_refl s
    | stop t =>
      rw [Parser.separatedTail, h]
      rwa [h] at hmark

theorem Tells.separated1 {sep : Parser σ} {p : Parser α} (hsep : Tells sep) (hp : Tells p) :
    Tells (separated1 sep p) := hp.bind fun a => (hsep.separatedTail hp).map (a :: ·)

theorem Tells.separated {sep : Parser σ} {p : Parser α} (hsep : Tells sep) (hp : Tells p) :
    Tells (separated sep p) := fun s => by
  have hs := hp s
  cases h : p s with
  | done a m =>
    rw [separated_cons h, Reply.told_map]
    exact (hsep.separatedTail hp m).extend (hp.suffix_of_done h)
  | miss t =>
    rw [Parser.separated, h]
    exact List.suffix_refl s
  | stop t =>
    rw [Parser.separated, h]
    rwa [h] at hs

theorem Tells.foldMany {p : Parser α} (hp : Tells p) (start : β) (step : β → α → β) :
    Tells (foldMany p start step) := hp.many.map fun as => as.foldl step start

/-- A rule that tells what may be told if what is inside does tells what may be told. -/
theorem tells_fix {rule : Parser α → Parser α} (h : ∀ p, Tells p → Tells (rule p)) : Tells (fix rule) :=
  fix_induction (fun s reply => reply.Told s) tells_missAt fun p hp => h p hp

/-! ### Words and marks -/

theorem tells_literalAnyCase (t : List Char) : Tells (literalAnyCase t) := fun s => by
  rw [literalAnyCase]
  split
  · exact splitBytes_suffix _ s
  · exact tells_missAt s

theorem tells_keyword (word : String) : Tells (keyword word) :=
  (tells_literalAnyCase _).followedBy (tells_satisfy _).absent

theorem tells_blanks1 : Tells blanks1 := tells_takeWhile1 _

theorem tells_digits : Tells digits := tells_takeWhile1 _

theorem tells_quantity : Tells quantity := tells_digits.filterMap _

theorem Tells.lexeme {p : Parser α} (hp : Tells p) : Tells (lexeme p) := tells_blanks.after hp

theorem tells_symbol (c : Char) : Tells (symbol c) := (tells_char c).lexeme.followedBy tells_blanks

theorem tells_symbols (w : String) : Tells (symbols w) := (tells_literal _).lexeme.followedBy tells_blanks

theorem Tells.parenthesized {p : Parser α} (hp : Tells p) : Tells (parenthesized p) :=
  ((tells_symbol '(').after hp).followedBy (tells_char ')').lexeme

/-! ### Failures -/

theorem fails_of_bind {p : Parser α} {f : α → Parser β} {s : List Char} {t : Trouble} (h : ((p >>= f) s).Fails t) :
    (p s).Fails t ∨ ∃ a m, p s = .done a m ∧ (f a m).Fails t := by
  rw [bind_apply] at h
  cases hp : p s with
  | done a m =>
    rw [hp] at h
    exact .inr ⟨a, m, rfl, h⟩
  | miss u => exact .inl (Reply.fails_miss.mpr (Reply.fails_miss.mp (hp ▸ h)))
  | stop u => exact .inl (Reply.fails_stop.mpr (Reply.fails_stop.mp (hp ▸ h)))

/-- A sequence of which the first part tells its troubles fails there, or behind it in the same text. -/
theorem Tells.fails_of_bind {p : Parser α} {f : α → Parser β} (hp : Tells p) {m s : List Char} {t : Trouble}
    (hm : m <:+ s) (h : ((p >>= f) m).Fails t) :
    t.LiesIn s ∨ ∃ a r, p m = .done a r ∧ r <:+ s ∧ (f a r).Fails t := by
  rcases Parser.fails_of_bind h with h | ⟨a, r, hdone, h⟩
  · exact .inl ((hp.of_fails h).extend hm)
  · exact .inr ⟨a, r, hdone, (hp.suffix_of_done hdone).trans hm, h⟩

theorem fails_of_commit {p : Parser α} {s : List Char} {t : Trouble} (h : (commit p s).Fails t) : (p s).Fails t := by
  rw [commit] at h
  cases hp : p s with
  | done a m => exact absurd (hp ▸ h) Reply.not_fails_done
  | miss u => exact Reply.fails_miss.mpr (Reply.fails_stop.mp (hp ▸ h))
  | stop u => exact Reply.fails_stop.mpr (Reply.fails_stop.mp (hp ▸ h))

end Parser

/-! ### Positions -/

theorem Position.offset_foldl : ∀ (s : List Char) (p : Position),
    (s.foldl Position.advance p).offset = p.offset + (String.ofList s).utf8ByteSize
  | [], p => by simp
  | c :: s, p => by
    have hc : (p.advance c).offset = p.offset + c.utf8Size := by
      rw [Position.advance]
      split <;> rfl
    rw [List.foldl_cons, Position.offset_foldl s, hc, String.ofList_cons, String.utf8ByteSize_append,
      String.utf8ByteSize_singleton, Nat.add_assoc]

/-- The offset behind a text is its bytes. -/
theorem Position.offset_after (s : List Char) : (Position.after s).offset = (String.ofList s).utf8ByteSize := by
  rw [Position.after, Position.offset_foldl, Position.start, Nat.zero_add]

/-- A trouble is told at the place behind the text before it. -/
theorem Diagnostic.position_ofTrouble (front : List Char) (t : Trouble) :
    (ofTrouble (front ++ t.rest) t).position = Position.after front := by
  simp [ofTrouble]

/-- In the end of a longer text a trouble is told alike, further on by the bytes before. -/
theorem Diagnostic.ofTrouble_append (front : List Char) {s : List Char} {t : Trouble} (h : t.rest <:+ s) :
    (ofTrouble (front ++ s) t).finding = (ofTrouble s t).finding ∧
      (ofTrouble (front ++ s) t).position.offset =
        (String.ofList front).utf8ByteSize + (ofTrouble s t).position.offset := by
  obtain ⟨passed, rfl⟩ := h
  refine ⟨rfl, ?_⟩
  rw [← List.append_assoc, position_ofTrouble, position_ofTrouble, Position.offset_after, Position.offset_after,
    String.ofList_append, String.utf8ByteSize_append]

end SelectLang
