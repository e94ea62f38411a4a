/-
# Readings in step

Two texts that differ in their spelling only should be read alike. `InStep V T T'` says of two parsers that
on texts related by `T` they do the same: both read something, values related by `V` from texts whose rests
are related by `T'`, or both miss, or both stop. What the troubles say does not matter. The combinators keep
parsers in step, so that of a grammar it has to be shown only of its tokens. A repetition has to read
something in every round, for only then its rounds are counted by the text.

The relation of the texts may change along the way, as it does behind a parenthesis.

Key definitions: `Reply.Corresponds`, `Parser.InStep`.
Key theorems: `InStep.bind`, `InStep.many`, `InStep.separatedTail`, `inStep_self`.
-/
import Mathlib
import SelectLang.Proofs.Text.Consumption

namespace SelectLang

variable {α β γ δ σ τ : Type} {V : α → β → Prop} {W : γ → δ → Prop} {S S' T T' T'' : List Char → List Char → Prop}

/-- Two replies of one kind. Of successes the values are related, and the texts that are left. -/
inductive Reply.Corresponds (V : α → β → Prop) (T : List Char → List Char → Prop) : Reply α → Reply β → Prop where
  | done {a : α} {b : β} {r r' : List Char} (value : V a b) (rest : T r r') :
      Corresponds V T (.done a r) (.done b r')
  | miss (t u : Trouble) : Corresponds V T (.miss t) (.miss u)
  | stop (t u : Trouble) : Corresponds V T (.stop t) (.stop u)

theorem Reply.Corresponds.mono {x : Reply α} {y : Reply β} {V' : α → β → Prop} (h : x.Corresponds V T y)
    (hV : ∀ a b, V a b → V' a b) (hT : ∀ s t, T s t → T' s t) : x.Corresponds V' T' y := by
  cases h with
  | done value rest => exact .done (hV _ _ value) (hT _ _ rest)
  | miss t u => exact .miss t u
  | stop t u => exact .stop t u

theorem Reply.Corresponds.exists_done {a : α} {r : List Char} {y : Reply β}
    (h : (Reply.done a r).Corresponds V T y) : ∃ b r', y = .done b r' ∧ V a b ∧ T r r' := by
  cases h with
  | done value rest => exact ⟨_, _, rfl, value, rest⟩

namespace Parser

/-- On texts related by `T` the parsers do the same. -/
def InStep (V : α → β → Prop) (T T' : List Char → List Char → Prop) (p : Parser α) (q : Parser β) : Prop :=
  ∀ s t, T s t → (p s).Corresponds V T' (q t)

/-- From related texts the parser reads the same value. -/
abbrev Reads (T T' : List Char → List Char → Prop) (p : Parser α) : Prop := InStep Eq T T' p p

/-- The parser reads something from both of two related texts or from neither. -/
abbrev Passes (T T' : List Char → List Char → Prop) (p : Parser α) : Prop := InStep (fun _ _ => True) T T' p p

theorem InStep.mono {p : Parser α} {q : Parser β} {V' : α → β → Prop} (h : InStep V T T' p q)
    (hV : ∀ a b, V a b → V' a b) (hS : ∀ s t, S s t → T s t) (hT : ∀ s t, T' s t → T'' s t) :
    InStep V' S T'' p q :=
  fun s t hst => (h s t (hS s t hst)).mono hV hT

theorem Reads.passes {p : Parser α} (h : Reads T T' p) : Passes T T' p :=
  h.mono (fun _ _ _ => trivial) (fun _ _ => id) fun _ _ => id

theorem corresponds_of_misses {p : Parser α} {q : Parser β} {s t : List Char} (hp : p.Misses s) (hq : q.Misses t) :
    (p s).Corresponds V T (q t) := by
  obtain ⟨x, hx⟩ := hp
  obtain ⟨y, hy⟩ := hq
  rw [hx, hy]
  exact .miss x y

/-- Two parsers that miss on all related texts are in step. -/
theorem inStep_of_misses {p : Parser α} {q : Parser β} (h : ∀ s t, T s t → p.Misses s ∧ q.Misses t) :
    InStep V T T' p q := fun s t hst => corresponds_of_misses (h s t hst).1 (h s t hst).2

/-- On one text a parser is in step with itself. -/
theorem inStep_self {p : Parser α} (hT : ∀ s t, T s t → s = t)
    (h : ∀ s a r, T s s → p s = .done a r → T' r r) : Reads T T' p := fun s t hst => by
  obtain rfl := hT s t hst
  cases hp : p s with
  | done a r => exact .done rfl (h s a r hst hp)
  | miss u => exact .miss u u
  | stop u => exact .stop u u

/-! ### Sequence -/

theorem inStep_pure {a : α} {b : β} (h : V a b) : InStep V T T (pure a) (pure b) := fun _ _ hst => .done h hst

theorem InStep.bind {p : Parser α} {q : Parser β} {f : α → Parser γ} {g : β → Parser δ}
    (h : InStep V T T' p q) (hf : ∀ a b, V a b → InStep W T' T'' (f a) (g b)) :
    InStep W T T'' (p >>= f) (q >>= g) := fun s t hst => by
  rw [bind_apply, bind_apply]
  have hstep := h s t hst
  generalize p s = x at hstep
  generalize q t = y at hstep
  cases hstep with
  | done value rest => exact hf _ _ value _ _ rest
  | miss t u => exact .miss t u
  | stop t u => exact .stop t u

theorem InStep.map {p : Parser α} {q : Parser β} {f : α → γ} {g : β → δ} (h : InStep V T T' p q)
    (hf : ∀ a b, V a b → W (f a) (g b)) :
    InStep W T T' (p >>= fun a => pure (f a)) (q >>= fun b => pure (g b)) :=
  h.bind fun a b hab => inStep_pure (hf a b hab)

theorem Reads.map {p : Parser α} (f : α → γ) (h : Reads T T' p) : Reads T T' (p >>= fun a => pure (f a)) :=
  InStep.map h fun _ _ => congrArg f

theorem Reads.bind {p : Parser α} {f : α → Parser γ} (h : Reads T T' p) (hf : ∀ a, Reads T' T'' (f a)) :
    Reads T T'' (p >>= f) :=
  InStep.bind h fun a _ hab => hab ▸ hf a

/-- A value that does not count may be another. -/
theorem Passes.bind {p : Parser α} {q : Parser γ} {q' : Parser δ} (h : Passes T T' p) (hq : InStep W T' T'' q q') :
    InStep W T T'' (p >>= fun _ => q) (p >>= fun _ => q') :=
  InStep.bind h fun _ _ _ => hq

theorem Reads.followedBy {p : Parser α} {q : Parser β} (h : Reads T T' p) (hq : Passes T' T'' q) :
    Reads T T'' (p.followedBy q) :=
  h.bind fun _ => hq.bind (inStep_pure rfl)

theorem Passes.followedBy {p : Parser α} {q : Parser β} (h : Passes T T' p) (hq : Passes T' T'' q) :
    Passes T T'' (p.followedBy q) :=
  InStep.bind h fun _ _ _ => hq.bind (inStep_pure trivial)

/-! ### Choice -/

theorem InStep.orElse {p p' : Parser α} {q q' : Parser β} (h : InStep V T T' p q) (h' : InStep V T T' p' q') :
    InStep V T T' (p.orElse p') (q.orElse q') := fun s t hst => by
  have hfirst := h s t hst
  have hsecond := h' s t hst
  simp only [Parser.orElse]
  generalize p s = x at hfirst
  generalize q t = y at hfirst
  generalize p' s = x' at hsecond
  generalize q' t = y' at hsecond
  cases hfirst with
  | done value rest => exact .done value rest
  | stop t u => exact .stop t u
  | miss t u =>
    cases hsecond with
    | done value rest => exact .done value rest
    | miss _ _ => exact .miss _ _
    | stop t u => exact .stop t u

theorem inStep_firstOf {ps : List (Parser α)} {qs : List (Parser β)} (h : List.Forall₂ (InStep V T T') ps qs) :
    InStep V T T' (firstOf ps) (firstOf qs) := by
  induction h with
  | nil => exact inStep_of_misses fun s t _ => ⟨misses_missAt s, misses_missAt t⟩
  | cons hp hps ih =>
    cases hps with
    | nil => exact hp
    | cons _ _ => exact hp.orElse ih

theorem reads_firstOf {ps : List (Parser α)} (h : ∀ p ∈ ps, Reads T T' p) : Reads T T' (firstOf ps) :=
  inStep_firstOf (List.forall₂_same.mpr h)

theorem passes_firstOf {ps : List (Parser α)} (h : ∀ p ∈ ps, Passes T T' p) : Passes T T' (firstOf ps) :=
  inStep_firstOf (List.forall₂_same.mpr h)

theorem Reads.optional {p : Parser α} (h : Reads T T p) : Reads T T (optional p) := fun s t hst => by
  have hstep := h s t hst
  simp only [Parser.optional]
  generalize p s = x at hstep
  generalize p t = y at hstep
  cases hstep with
  | done value rest => exact .done (congrArg some value) rest
  | miss t u => exact .done rfl hst
  | stop t u => exact .stop t u

theorem InStep.absent {p : Parser α} {q : Parser β} (h : InStep V T T' p q) :
    InStep Eq T T (absent p) (absent q) := fun s t hst => by
  have hstep := h s t hst
  simp only [Parser.absent]
  generalize p s = x at hstep
  generalize q t = y at hstep
  cases hstep with
  | done value rest => exact .miss _ _
  | miss t u => exact .done rfl hst
  | stop t u => exact .stop t u

/-! ### Results and troubles -/

theorem Reads.filterMap {p : Parser α} (h : Reads T T' p) (f : α → Option γ) : Reads T T' (p.filterMap f) :=
  fun s t hst => by
    have hstep := h s t hst
    simp only [Parser.filterMap]
    generalize p s = x at hstep
    generalize p t = y at hstep
    cases hstep with
    | @done a b r r' value rest =>
      subst value
      dsimp only
      cases f a with
      | none => exact .miss _ _
      | some c => exact .done rfl rest
    | miss t u => exact .miss t u
    | stop t u => exact .stop t u

theorem InStep.commit {p : Parser α} {q : Parser β} (h : InStep V T T' p q) :
    InStep V T T' (commit p) (commit q) := fun s t hst => by
  have hstep := h s t hst
  simp only [Parser.commit]
  generalize p s = x at hstep
  generalize q t = y at hstep
  cases hstep with
  | done value rest => exact .done value rest
  | miss t u => exact .stop t u
  | stop t u => exact .stop t u

theorem InStep.expecting {p : Parser α} {q : Parser β} (what : String) (h : InStep V T T' p q) :
    InStep V T T' (expecting what p) (expecting what q) := fun s t hst => by
  have hstep := h s t hst
  simp only [Parser.expecting]
  generalize p s = x at hstep
  generalize q t = y at hstep
  cases hstep with
  | done value rest => exact .done value rest
  | miss t u => exact .miss _ _
  | stop t u => exact .stop _ _

/-! ### Repetition -/

theorem InStep.many {p : Parser α} {q : Parser β} (h : InStep V T T p q) (hp : Consumes 1 p) (hq : Consumes 1 q) :
    InStep (List.Forall₂ V) T T (many p) (many q) := by
  intro s
  induction hl : s.length using Nat.strong_induction_on generalizing s with
  | _ n ih =>
    subst hl
    intro t hst
    have hstep := h s t hst
    rw [Parser.many, Parser.many.eq_def q]
    cases hs : p s with
    | done a m =>
      rw [hs] at hstep
      obtain ⟨b, m', ht, hab, hm⟩ := hstep.exists_done
      have hlt : m.length < s.length := hp.length_le hs
      have hlt' : m'.length < t.length := hq.length_le ht
      have hrest := ih m.length hlt m rfl m' hm
      simp only [ht, hlt, hlt', ↓reduceDIte]
      generalize Parser.many p m = x at hrest
      generalize Parser.many q m' = y at hrest
      cases hrest with
      | done value rest => exact .done (.cons hab value) rest
      | miss t u => exact .miss t u
      | stop t u => exact .stop t u
    | miss u =>
      rw [hs] at hstep
      generalize q t = y at hstep
      cases hstep
      exact .done .nil hst
    | stop u =>
      rw [hs] at hstep
      generalize q t = y at hstep
      cases hstep
      exact .stop _ _

theorem Reads.many {p : Parser α} (h : Reads T T p) (hp : Consumes 1 p) : Reads T T (many p) :=
  (InStep.many h hp hp).mono (fun _ _ has => by rwa [List.forall₂_eq_eq_eq] at has) (fun _ _ => id) fun _ _ => id

theorem Reads.many1 {p : Parser α} (h : Reads T T p) (hp : Consumes 1 p) : Reads T T (many1 p) :=
  h.bind fun a => (h.many hp).map (a :: ·)

theorem Reads.foldMany {p : Parser α} (h : Reads T T p) (hp : Consumes 1 p) (start : β) (step : β → α → β) :
    Reads T T (foldMany p start step) :=
  (h.many hp).map fun as => as.foldl step start

theorem Reads.separatedTail {sep : Parser σ} {p : Parser α} (hsep : Passes T T sep) (h : Reads T T p)
    (hc : Consumes 1 sep) (hp : Consumes 0 p) : Reads T T (separatedTail sep p) := by
  intro s
  induction hl : s.length using Nat.strong_induction_on generalizing s with
  | _ n ih =>
    subst hl
    intro t hst
    have hmark := hsep s t hst
    rw [Parser.separatedTail.eq_def sep p s, Parser.separatedTail.eq_def sep p t]
    cases hs : sep s with
    | done x b =>
      rw [hs] at hmark
      obtain ⟨y, b', ht, -, hb⟩ := hmark.exists_done
      have hlt : b.length < s.length := hc.length_le hs
      have hlt' : b'.length < t.length := hc.length_le ht
      have hstep := h b b' hb
      simp only [ht, hlt, hlt', ↓reduceIte]
      cases hbp : p b with
      | done a m =>
        rw [hbp] at hstep
        obtain ⟨_, m', hbp', rfl, hm⟩ := hstep.exists_done
        have hle : m.length < s.length := (hp.length_le hbp).trans_lt hlt
        have hle' : m'.length < t.length := (hp.length_le hbp').trans_lt hlt'
        have hrest := ih m.length hle m rfl m' hm
        simp only [hbp', hle, hle', ↓reduceDIte]
        generalize Parser.separatedTail sep p m = x at hrest
        generalize Parser.separatedTail sep p m' = y at hrest
        cases hrest with
        | done value rest => exact .done (congrArg (a :: ·) value) rest
        | miss t u => exact .miss t u
        | stop t u => exact .stop t u
      | miss u =>
        rw [hbp] at hstep
        generalize p b' = y at hstep
        cases hstep
        exact .done rfl hst
      | stop u =>
        rw [hbp] at hstep
        generalize p b' = y at hstep
        cases hstep
        exact .stop _ _
    | miss u =>
      rw [hs] at hmark
      generalize sep t = y at hmark
      cases hmark
      exact .done rfl hst
    | stop u =>
      rw [hs] at hmark
      generalize sep t = y at hmark
      cases hmark
      exact .stop _ _

theorem Reads.separated1 {sep : Parser σ} {p : Parser α} (hsep : Passes T T sep) (h : Reads T T p)
    (hc : Consumes 1 sep) (hp : Consumes 0 p) : Reads T T (separated1 sep p) :=
  h.bind fun a => (Reads.separatedTail hsep h hc hp).map (a :: ·)

theorem Reads.separated {sep : Parser σ} {p : Parser α} (hsep : Passes T T sep) (h : Reads T T p)
    (hc : Consumes 1 sep) (hp : Consumes 0 p) : Reads T T (separated sep p) := fun s t hst => by
  have hstep := h s t hst
  simp only [Parser.separated]
  generalize p s = x at hstep
  generalize p t = y at hstep
  cases hstep with
  | @done a b r r' value rest =>
    subst value
    have htail := Reads.separatedTail hsep h hc hp r r' rest
    dsimp only
    generalize Parser.separatedTail sep p r = x at htail
    generalize Parser.separatedTail sep p r' = y at htail
    cases htail with
    | done value rest => exact .done (congrArg (a :: ·) value) rest
    | miss t u => exact .miss t u
    | stop t u => exact .stop t u
  | miss t u => exact .done rfl hst
  | stop t u => exact .stop t u

/-! ### Blanks and marks -/

theorem Passes.lexeme {p : Parser α} {q : Parser β} (hb : Passes T T blanks) (h : InStep V T T' p q) :
    InStep V T T' (lexeme p) (lexeme q) := hb.bind h

theorem Passes.symbol {c : Char} (hb : Passes T T blanks) (hb' : Passes T' T' blanks) (h : Passes T T' (char c)) :
    Passes T T' (symbol c) := Passes.followedBy (hb.bind h) hb'

/-- Letters one after the other. -/
theorem literal_cons (c : Char) (w s : List Char) : literal (c :: w) s = match char c s with
    | .done _ m => match literal w m with
      | .done _ r => .done (c :: w) r
      | _ => missAt s
    | _ => missAt s := by
  cases s with
  | nil => rfl
  | cons d s =>
    by_cases hd : d = c
    · subst hd
      rw [char_done]
      dsimp only
      by_cases hw : w.isPrefixOf s = true
      · simp [literal, hw]
      · simp [literal, hw, missAt]
    · simp [literal, char, satisfy, hd, missAt, Ne.symm hd]

theorem passes_literal : ∀ {w : List Char}, (∀ c ∈ w, Passes T T (char c)) → Passes T T (literal w)
  | [], _ => fun s t hst => .done trivial hst
  | c :: w, h => fun s t hst => by
    obtain ⟨hc, hw⟩ := List.forall_mem_cons.mp h
    have hfirst := hc s t hst
    rw [literal_cons, literal_cons]
    generalize char c s = x at hfirst
    generalize char c t = y at hfirst
    cases hfirst with
    | done value rest =>
      have hmore := passes_literal hw _ _ rest
      dsimp only
      generalize literal w _ = x at hmore
      generalize literal w _ = y at hmore
      cases hmore with
      | done value rest => exact .done trivial rest
      | miss t u => exact .miss _ _
      | stop t u => exact .miss _ _
    | miss t u => exact .miss _ _
    | stop t u => exact .miss _ _

theorem Passes.symbols {w : String} (hb : Passes T T blanks) (h : ∀ c ∈ w.toList, Passes T T (char c)) :
    Passes T T (symbols w) := Passes.followedBy (hb.bind (passes_literal h)) hb

/-- What stands in parentheses is read from texts related by `S`. -/
theorem Reads.parenthesized {p : Parser α} (hb : Passes T T blanks) (hb' : Passes S S blanks)
    (hopen : Passes T S (char '(')) (hclose : Passes S T (char ')')) (h : Reads S S p) :
    Reads T T (parenthesized p) :=
  Reads.followedBy ((hb.symbol hb' hopen).bind h) (hb'.bind hclose)

/-! ### Shorter texts -/

/-- Related texts of which the first is shorter than `n`. -/
def Shorter (n : ℕ) (T : List Char → List Char → Prop) (s t : List Char) : Prop := s.length < n ∧ T s t

theorem InStep.shorter {p : Parser α} {q : Parser β} {k : ℕ} (h : InStep V T T' p q) (hp : Consumes k p) (n : ℕ) :
    InStep V (Shorter (n + k) T) (Shorter n T') p q := fun s t ⟨hlt, hst⟩ => by
  have hstep := h s t hst
  cases hs : p s with
  | done a r =>
    rw [hs] at hstep
    obtain ⟨b, r', ht, value, rest⟩ := hstep.exists_done
    rw [ht]
    exact .done value ⟨by have := hp.length_le hs; omega, rest⟩
  | miss u =>
    rw [hs] at hstep
    generalize q t = y at hstep ⊢
    cases hstep
    exact .miss _ _
  | stop u =>
    rw [hs] at hstep
    generalize q t = y at hstep ⊢
    cases hstep
    exact .stop _ _

end Parser
end SelectLang
