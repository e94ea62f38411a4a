/-
# What a parser takes off a text

A parser that succeeds leaves the end of its text. `Consumes k` says that it takes at least `k`
characters off the front whenever it succeeds, and `AgreeBelow n` that two parsers do the same on
every text shorter than `n`. Together they open a rule that refers to itself: if the rule asks for
itself only on what is left behind a character, the guard of `fix` never speaks, and the rule is
itself with itself inside (`fix_eq`).

Key definitions: `Consumes`, `AgreeBelow`.
Key theorems: `consumes_fix`, `fix_eq`.
-/
import Mathlib
import SelectLang.Proofs.Text.Reading

namespace SelectLang
namespace Parser

variable {α β γ σ : Type}

/-- A success takes at least `k` characters off the front of the text. -/
def Consumes (k : Nat) (p : Parser α) : Prop :=
  ∀ s a r, p s = .done a r → ∃ front, s = front ++ r ∧ k ≤ front.length

theorem Consumes.mono {k l : Nat} {p : Parser α} (hp : Consumes k p) (h : l ≤ k) : Consumes l p :=
  fun s a r hs => by
    obtain ⟨front, hf, hk⟩ := hp s a r hs
    exact ⟨front, hf, h.trans hk⟩

theorem Consumes.length_le {k : Nat} {p : Parser α} (hp : Consumes k p) {s r : List Char} {a : α}
    (h : p s = .done a r) : r.length + k ≤ s.length := by
  obtain ⟨front, hf, hk⟩ := hp s a r h
  rw [hf, List.length_append]
  omega

/-! ### Sequence -/

theorem consumes_pure (a : α) : Consumes 0 (pure a : Parser α) := fun s b r h => by
  rw [pure_apply] at h
  cases h
  exact ⟨[], rfl, Nat.le_refl 0⟩

theorem Consumes.bind {k l : Nat} {p : Parser α} {f : α → Parser β} (hp : Consumes k p)
    (hf : ∀ a, Consumes l (f a)) : Consumes (k + l) (p >>= f) := fun s b r h => by
  obtain ⟨a, m, hm, hr⟩ := bind_eq_done h
  obtain ⟨front, h1, hk⟩ := hp s a m hm
  obtain ⟨front', h2, hl⟩ := hf a m b r hr
  refine ⟨front ++ front', by rw [h1, h2, List.append_assoc], ?_⟩
  rw [List.length_append]
  omega

/-- A bind takes what its first parser takes, whatever comes after. -/
theorem Consumes.bind_left {k : Nat} {p : Parser α} {f : α → Parser β} (hp : Consumes k p)
    (hf : ∀ a, Consumes 0 (f a)) : Consumes k (p >>= f) :=
  (hp.bind hf).mono (Nat.le_add_right k 0)

/-- A bind takes what its second parser takes, whatever comes before. -/
theorem Consumes.bind_right {l : Nat} {p : Parser α} {f : α → Parser β} (hp : Consumes 0 p)
    (hf : ∀ a, Consumes l (f a)) : Consumes l (p >>= f) :=
  (hp.bind hf).mono (Nat.le_add_left l 0)

theorem Consumes.map {k : Nat} {p : Parser α} (hp : Consumes k p) (f : α → β) :
    Consumes k (p >>= fun a => pure (f a)) :=
  hp.bind_left fun _ => consumes_pure _

theorem Consumes.followedBy {k : Nat} {p : Parser α} {q : Parser β} (hp : Consumes k p)
    (hq : Consumes 0 q) : Consumes k (p.followedBy q) :=
  hp.bind_left fun a => hq.map fun _ => a

/-! ### Characters -/

theorem consumes_satisfy (accepts : Char → Bool) : Consumes 1 (satisfy accepts) := by
  intro s a r h
  cases s with
  | nil => cases h
  | cons c s =>
    simp only [satisfy] at h
    split at h
    · cases h
      exact ⟨[a], rfl, Nat.le_refl 1⟩
    · cases h

theorem consumes_char (c : Char) : Consumes 1 (char c) := consumes_satisfy _

theorem consumes_takeWhile (accepts : Char → Bool) : Consumes 0 (takeWhile accepts) :=
  fun s a r h => by
    cases h
    exact ⟨s.takeWhile accepts, List.takeWhile_append_dropWhile.symm, Nat.zero_le _⟩

theorem consumes_takeWhile1 (accepts : Char → Bool) : Consumes 1 (takeWhile1 accepts) :=
  fun s a r h => by
    simp only [takeWhile1] at h
    split at h
    · cases h
    · rename_i c cs hc
      cases h
      exact ⟨c :: cs, by rw [← hc]; exact List.takeWhile_append_dropWhile.symm, by simp⟩

theorem consumes_literal (t : List Char) : Consumes t.length (literal t) := fun s a r h => by
  simp only [literal] at h
  split at h
  · rename_i ht
    cases h
    obtain ⟨more, rfl⟩ := List.isPrefixOf_iff_prefix.mp ht
    exact ⟨t, by simp, Nat.le_refl _⟩
  · cases h

theorem consumes_here : Consumes 0 here := fun s a r h => by
  cases h
  exact ⟨[], rfl, Nat.le_refl 0⟩

/-! ### Choice and results -/

theorem consumes_firstOf {k : Nat} {ps : List (Parser α)} (h : ∀ p ∈ ps, Consumes k p) :
    Consumes k (firstOf ps) := fun s a r hs => by
  obtain ⟨p, hp, hr⟩ := firstOf_eq_done hs
  exact h p hp s a r hr

theorem Consumes.optional {p : Parser α} (hp : Consumes 0 p) : Consumes 0 (optional p) :=
  fun s a r h => by
    rcases optional_eq_done h with ⟨b, -, hb⟩ | ⟨-, rfl, -⟩
    · exact hp s b r hb
    · exact ⟨[], rfl, Nat.le_refl 0⟩

theorem consumes_absent (p : Parser α) : Consumes 0 (absent p) := fun s a r h => by
  unfold absent at h
  split at h <;> cases h
  exact ⟨[], rfl, Nat.le_refl 0⟩

theorem Consumes.consumed {k : Nat} {p : Parser α} (hp : Consumes k p) : Consumes k (consumed p) :=
  fun s a r h => by
    unfold Parser.consumed at h
    split at h <;> cases h
    rename_i hm
    exact hp _ _ _ hm

theorem Consumes.filterMap {k : Nat} {p : Parser α} (f : α → Option β) (hp : Consumes k p) :
    Consumes k (p.filterMap f) := fun s b r h => by
  obtain ⟨a, ha, -⟩ := filterMap_eq_done h
  exact hp s a r ha

theorem Consumes.commit {k : Nat} {p : Parser α} (hp : Consumes k p) : Consumes k (commit p) :=
  fun s a r h => hp s a r (commit_eq_done h)

theorem Consumes.expecting {k : Nat} {p : Parser α} (what : String) (hp : Consumes k p) :
    Consumes k (expecting what p) := fun s a r h => hp s a r (expecting_eq_done h)

/-! ### Repetition -/

theorem Consumes.many {p : Parser α} (hp : Consumes 0 p) : Consumes 0 (many p) := by
  intro s as r h
  induction as generalizing s with
  | nil =>
    rcases many_eq_done h with ⟨-, rfl, -⟩ | ⟨_, _, _, -, -, -, h0⟩
    · exact ⟨[], rfl, Nat.le_refl 0⟩
    · cases h0
  | cons a as ih =>
    rcases many_eq_done h with ⟨h0, -⟩ | ⟨a', m, bs, ha, -, hm, h0⟩
    · cases h0
    · cases h0
      obtain ⟨front, h1, -⟩ := hp s a m ha
      obtain ⟨front', h2, -⟩ := ih m hm
      exact ⟨front ++ front', by rw [h1, h2, List.append_assoc], Nat.zero_le _⟩

theorem Consumes.many1 {k : Nat} {p : Parser α} (hp : Consumes k p) : Consumes k (many1 p) :=
  hp.bind_left fun a => (hp.mono (Nat.zero_le k)).many.map (a :: ·)

theorem Consumes.separatedTail {sep : Parser σ} {p : Parser α} (hs : Consumes 0 sep)
    (hp : Consumes 0 p) : Consumes 0 (separatedTail sep p) := by
  intro s as r h
  induction as generalizing s with
  | nil =>
    rcases separatedTail_eq_done h with ⟨-, rfl⟩ | ⟨_, _, _, _, _, -, -, -, h0⟩
    · exact ⟨[], rfl, Nat.le_refl 0⟩
    · cases h0
  | cons a as ih =>
    rcases separatedTail_eq_done h with ⟨h0, -⟩ | ⟨x, b, a', m, bs, hx, ha, hm, h0⟩
    · cases h0
    · cases h0
      obtain ⟨front, h1, -⟩ := hs s x b hx
      obtain ⟨front', h2, -⟩ := hp b a m ha
      obtain ⟨front'', h3, -⟩ := ih m hm
      exact ⟨front ++ (front' ++ front''), by rw [h1, h2, h3]; simp, Nat.zero_le _⟩

theorem Consumes.separated1 {k : Nat} {sep : Parser σ} {p : Parser α} (hs : Consumes 0 sep)
    (hp : Consumes k p) : Consumes k (separated1 sep p) :=
  hp.bind_left fun a => (hs.separatedTail (hp.mono (Nat.zero_le k))).map (a :: ·)

theorem Consumes.separated {sep : Parser σ} {p : Parser α} (hs : Consumes 0 sep)
    (hp : Consumes 0 p) : Consumes 0 (separated sep p) := fun s as r h => by
  rcases separated_eq_done h with ⟨-, rfl⟩ | ⟨a, m, bs, ha, hm, -⟩
  · exact ⟨[], rfl, Nat.le_refl 0⟩
  · obtain ⟨front, h1, -⟩ := hp s a m ha
    obtain ⟨front', h2, -⟩ := hs.separatedTail hp m bs r hm
    exact ⟨front ++ front', by rw [h1, h2, List.append_assoc], Nat.zero_le _⟩

theorem Consumes.foldMany {p : Parser α} (hp : Consumes 0 p) (start : β) (step : β → α → β) :
    Consumes 0 (foldMany p start step) :=
  hp.many.map fun as => as.foldl step start

/-! ### Blanks and marks -/

theorem consumes_blanks : Consumes 0 blanks := consumes_takeWhile _

theorem consumes_blanks1 : Consumes 1 blanks1 := consumes_takeWhile1 _

theorem consumes_digits : Consumes 1 digits := consumes_takeWhile1 _

theorem consumes_quantity : Consumes 1 quantity := consumes_digits.filterMap _

theorem Consumes.lexeme {k : Nat} {p : Parser α} (hp : Consumes k p) : Consumes k (lexeme p) :=
  consumes_blanks.bind_right fun _ => hp

theorem consumes_symbol (c : Char) : Consumes 1 (symbol c) :=
  (consumes_char c).lexeme.followedBy consumes_blanks

theorem consumes_symbols (s : String) : Consumes s.toList.length (symbols s) :=
  (consumes_literal s.toList).lexeme.followedBy consumes_blanks

/-- Behind the opening mark and before the closing one. -/
theorem Consumes.parenthesized {k : Nat} {p : Parser α} (hp : Consumes k p) :
    Consumes 2 (parenthesized p) :=
  ((consumes_symbol '(').bind_left fun _ => hp.mono (Nat.zero_le k)).bind fun a =>
    (consumes_char ')').lexeme.map fun _ => a

/-! ### Recursion -/

theorem consumes_fix {k : Nat} {rule : Parser α → Parser α}
    (h : ∀ p, Consumes k p → Consumes k (rule p)) : Consumes k (fix rule) := fun s =>
  fix_induction (fun s reply => ∀ a r, reply = .done a r → ∃ front, s = front ++ r ∧ k ≤ front.length)
    (fun _ _ _ h => by cases h) (fun p hp => h p hp) s

/-- The same is made of every text shorter than `n`. -/
def AgreeBelow (n : Nat) (p q : Parser α) : Prop := ∀ s, s.length < n → p s = q s

theorem AgreeBelow.refl (n : Nat) (p : Parser α) : AgreeBelow n p p := fun _ _ => rfl

theorem AgreeBelow.bind {n : Nat} {p q : Parser α} {f g : α → Parser β} (h : AgreeBelow n p q)
    (hp : Consumes 0 p) (hf : ∀ a, AgreeBelow n (f a) (g a)) :
    AgreeBelow n (p >>= f) (q >>= g) := fun s hs => by
  rw [bind_apply, bind_apply, ← h s hs]
  cases hr : p s with
  | done a m => exact hf a m (by have := hp.length_le hr; omega)
  | miss t => rfl
  | stop t => rfl

/-- Behind a character the parsers that follow see a shorter text. -/
theorem AgreeBelow.bind_consumes {n : Nat} {p : Parser α} {f g : α → Parser β}
    (hp : Consumes 1 p) (hf : ∀ a, AgreeBelow n (f a) (g a)) :
    AgreeBelow (n + 1) (p >>= f) (p >>= g) := fun s hs => by
  rw [bind_apply, bind_apply]
  cases hr : p s with
  | done a m => exact hf a m (by have := hp.length_le hr; omega)
  | miss t => rfl
  | stop t => rfl

theorem AgreeBelow.orElse {n : Nat} {p q p' q' : Parser α} (hp : AgreeBelow n p p')
    (hq : AgreeBelow n q q') : AgreeBelow n (p.orElse q) (p'.orElse q') := fun s hs => by
  unfold Parser.orElse
  rw [hp s hs, hq s hs]

theorem agreeBelow_firstOf {n : Nat} {ps qs : List (Parser α)}
    (h : List.Forall₂ (AgreeBelow n) ps qs) : AgreeBelow n (firstOf ps) (firstOf qs) := by
  induction h with
  | nil => exact AgreeBelow.refl n _
  | cons hp hps ih =>
    cases hps with
    | nil => exact hp
    | cons _ _ => exact hp.orElse ih

theorem AgreeBelow.many {n : Nat} {p q : Parser α} (h : AgreeBelow n p q) :
    AgreeBelow n (many p) (many q) := by
  intro s
  induction hl : s.length using Nat.strong_induction_on generalizing s with
  | _ l ih =>
    intro hs
    subst hl
    rw [Parser.many, Parser.many.eq_def q, ← h s hs]
    cases p s with
    | done a m =>
      by_cases hm : m.length < s.length
      · simp only [hm, ↓reduceDIte, ih m.length hm m rfl (hm.trans hs)]
      · simp only [hm, ↓reduceDIte]
    | miss t => rfl
    | stop t => rfl

theorem AgreeBelow.separatedTail {n : Nat} {sep : Parser σ} {p q : Parser α}
    (h : AgreeBelow n p q) : AgreeBelow n (separatedTail sep p) (separatedTail sep q) := by
  intro s
  induction hl : s.length using Nat.strong_induction_on generalizing s with
  | _ l ih =>
    intro hs
    subst hl
    rw [Parser.separatedTail, Parser.separatedTail.eq_def sep q]
    cases sep s with
    | done x b =>
      by_cases hb : b.length < s.length
      · simp only [hb, ↓reduceIte, ← h b (hb.trans hs)]
        cases p b with
        | done a m =>
          by_cases hm : m.length < s.length
          · simp only [hm, ↓reduceDIte, ih m.length hm m rfl (hm.trans hs)]
          · simp only [hm, ↓reduceDIte]
        | miss t => rfl
        | stop t => rfl
      · simp only [hb, ↓reduceIte]
    | miss t => rfl
    | stop t => rfl

theorem AgreeBelow.separated {n : Nat} {sep : Parser σ} {p q : Parser α} (h : AgreeBelow n p q)
    (hp : Consumes 0 p) : AgreeBelow n (separated sep p) (separated sep q) := fun s hs => by
  unfold Parser.separated
  rw [← h s hs]
  cases hr : p s with
  | done a m =>
    have hm : m.length < n := by have := hp.length_le hr; omega
    simp only [h.separatedTail m hm]
  | miss t => rfl
  | stop t => rfl

theorem AgreeBelow.parenthesized {n : Nat} {p q : Parser α} (h : AgreeBelow n p q)
    (hp : Consumes 0 p) : AgreeBelow (n + 1) (parenthesized p) (parenthesized q) :=
  AgreeBelow.bind (AgreeBelow.bind_consumes (consumes_symbol '(') fun _ => h)
    ((consumes_symbol '(').mono (Nat.zero_le 1) |>.bind_left fun _ => hp) fun _ => AgreeBelow.refl _ _

/-- A rule that asks for itself only behind a character is itself with itself inside. -/
theorem fix_eq {rule : Parser α → Parser α} (hc : ∀ p, Consumes 0 p → Consumes 0 (rule p))
    (hg : ∀ n p q, Consumes 0 p → AgreeBelow n p q → AgreeBelow (n + 1) (rule p) (rule q)) :
    fix rule = rule (fix rule) := by
  funext s
  have h := consumes_fix hc
  rw [fix]
  refine hg s.length _ _ (fun r a m hr => ?_) (fun r hr => ?_) s (Nat.lt_succ_self _)
  · by_cases hlt : r.length < s.length
    · simp only [hlt, ↓reduceDIte] at hr
      exact h r a m hr
    · simp only [hlt, ↓reduceDIte] at hr
      cases hr
  · simp only [hr, ↓reduceDIte]

end Parser
end SelectLang
