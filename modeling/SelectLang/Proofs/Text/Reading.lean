/-
# What parsers read, one combinator at a time

The equations by which a reading is followed through the grammar. Forward: what a combinator makes
of a text when it is known what its parts make of it, a success by an equation and a miss by
`Misses`, since where a miss lies does not matter to whoever tries another way. Backward: what a
success of a combinator says of its parts.

Key definitions: `Parser.Misses`.
Key theorems: `many_eq_done`, `separatedTail_eq_done`, `fix_induction`.
-/
import Mathlib
import SelectLang.Text.Lexeme

namespace SelectLang
namespace Parser

variable {α β γ σ : Type}

/-- Nothing is read, and another way may be tried. -/
def Misses (p : Parser α) (s : List Char) : Prop := ∃ t, p s = .miss t

theorem misses_missAt (s : List Char) : Misses (missAt : Parser α) s := ⟨_, rfl⟩

theorem Misses.not_done {p : Parser α} {s r : List Char} {a : α} (h : p.Misses s) :
    p s ≠ .done a r := by
  obtain ⟨t, ht⟩ := h
  rw [ht]
  simp

/-! ### Sequence -/

theorem bind_apply (p : Parser α) (f : α → Parser β) (s : List Char) :
    (p >>= f) s = match p s with
      | .done a rest => f a rest
      | .miss t => .miss t
      | .stop t => .stop t := rfl

theorem pure_apply (a : α) (s : List Char) : (pure a : Parser α) s = .done a s := rfl

theorem bind_done {p : Parser α} {f : α → Parser β} {s m : List Char} {a : α}
    (h : p s = .done a m) : (p >>= f) s = f a m := by
  rw [bind_apply, h]

theorem Misses.bind {p : Parser α} {f : α → Parser β} {s : List Char} (h : p.Misses s) :
    (p >>= f).Misses s := by
  obtain ⟨t, ht⟩ := h
  exact ⟨t, by rw [bind_apply, ht]⟩

theorem misses_bind_done {p : Parser α} {f : α → Parser β} {s m : List Char} {a : α}
    (h : p s = .done a m) (hf : (f a).Misses m) : (p >>= f).Misses s := by
  obtain ⟨t, ht⟩ := hf
  exact ⟨t, by rw [bind_done h, ht]⟩

/-- What a bind succeeds with is what its second parser makes of the rest of its first. -/
theorem bind_eq_done {p : Parser α} {f : α → Parser β} {s r : List Char} {b : β}
    (h : (p >>= f) s = .done b r) : ∃ a m, p s = .done a m ∧ f a m = .done b r := by
  rw [bind_apply] at h
  cases hp : p s with
  | done a m => exact ⟨a, m, rfl, by rw [hp] at h; exact h⟩
  | miss t => rw [hp] at h; cases h
  | stop t => rw [hp] at h; cases h

theorem bind_bind (p : Parser α) (f : α → Parser β) (g : β → Parser γ) :
    (p >>= f) >>= g = p >>= fun a => f a >>= g := by
  funext s
  simp only [bind_apply]
  cases p s <;> rfl

theorem after_done {p : Parser α} {q : Parser β} {s m : List Char} {a : α}
    (h : p s = .done a m) : (p.after q) s = q m := bind_done h

theorem Misses.after {p : Parser α} (q : Parser β) {s : List Char} (h : p.Misses s) :
    (p.after q).Misses s := h.bind

theorem followedBy_done {p : Parser α} {q : Parser β} {s m r : List Char} {a : α} {b : β}
    (hp : p s = .done a m) (hq : q m = .done b r) : (p.followedBy q) s = .done a r := by
  rw [followedBy, bind_done hp, bind_done hq, pure_apply]

theorem both_done {p : Parser α} {q : Parser β} {s m r : List Char} {a : α} {b : β}
    (hp : p s = .done a m) (hq : q m = .done b r) : (both p q) s = .done (a, b) r := by
  rw [both, bind_done hp, bind_done hq, pure_apply]

theorem separatedPair_done {p : Parser α} {b : Parser σ} {q : Parser β} {s m m' r : List Char}
    {a : α} {x : σ} {c : β} (hp : p s = .done a m) (hb : b m = .done x m')
    (hq : q m' = .done c r) : (separatedPair p b q) s = .done (a, c) r := by
  rw [separatedPair, bind_done hp, bind_done hb, bind_done hq, pure_apply]

theorem misses_separatedPair {p : Parser α} {b : Parser σ} {q : Parser β} {s : List Char}
    (h : (p.after b).Misses s) : (separatedPair p b q).Misses s := by
  obtain ⟨t, ht⟩ := h
  rw [after, bind_apply] at ht
  cases hp : p s with
  | done a m => rw [hp] at ht; exact misses_bind_done hp (Misses.bind ⟨t, ht⟩)
  | miss u => exact Misses.bind ⟨u, hp⟩
  | stop u => rw [hp] at ht; cases ht

/-! ### Choice -/

theorem orElse_done {p q : Parser α} {s r : List Char} {a : α} (h : p s = .done a r) :
    (p.orElse q) s = .done a r := by
  simp only [orElse, h]

theorem orElse_of_misses {p q : Parser α} {s r : List Char} {a : α} (hp : p.Misses s)
    (hq : q s = .done a r) : (p.orElse q) s = .done a r := by
  obtain ⟨t, ht⟩ := hp
  simp only [orElse, ht, hq]

theorem Misses.orElse {p q : Parser α} {s : List Char} (hp : p.Misses s) (hq : q.Misses s) :
    (p.orElse q).Misses s := by
  obtain ⟨t, ht⟩ := hp
  obtain ⟨u, hu⟩ := hq
  exact ⟨t.furthest u, by simp only [Parser.orElse, ht, hu]⟩

theorem orElse_eq_done {p q : Parser α} {s r : List Char} {a : α}
    (h : (p.orElse q) s = .done a r) : p s = .done a r ∨ q s = .done a r := by
  unfold orElse at h
  split at h
  · split at h
    · cases h
    · exact Or.inr h
  · exact Or.inl h

theorem firstOf_single (p : Parser α) : firstOf [p] = p := rfl

theorem firstOf_cons_done {p : Parser α} {ps : List (Parser α)} {s r : List Char} {a : α}
    (h : p s = .done a r) : firstOf (p :: ps) s = .done a r := by
  cases ps with
  | nil => exact h
  | cons q ps => exact orElse_done h

theorem firstOf_cons_of_misses {p : Parser α} {ps : List (Parser α)} {s r : List Char} {a : α}
    (hp : p.Misses s) (h : firstOf ps s = .done a r) : firstOf (p :: ps) s = .done a r := by
  cases ps with
  | nil => cases h
  | cons q ps => exact orElse_of_misses hp h

theorem misses_firstOf : ∀ {ps : List (Parser α)} {s : List Char}, (∀ p ∈ ps, Misses p s) →
    (firstOf ps).Misses s
  | [], s, _ => misses_missAt s
  | [p], _, h => h p (by simp)
  | p :: q :: ps, _, h =>
    (h p (by simp)).orElse (misses_firstOf fun x hx => h x (List.mem_cons_of_mem _ hx))

/-- A choice succeeds as one of its parsers does. -/
theorem firstOf_eq_done : ∀ {ps : List (Parser α)} {s r : List Char} {a : α},
    firstOf ps s = .done a r → ∃ p ∈ ps, p s = .done a r
  | [], _, _, _, h => by cases h
  | [p], _, _, _, h => ⟨p, by simp, h⟩
  | p :: q :: ps, _, _, _, h => by
    rcases orElse_eq_done h with hp | hq
    · exact ⟨p, by simp, hp⟩
    · obtain ⟨x, hx, hr⟩ := firstOf_eq_done hq
      exact ⟨x, List.mem_cons_of_mem _ hx, hr⟩

theorem optional_done {p : Parser α} {s r : List Char} {a : α} (h : p s = .done a r) :
    optional p s = .done (some a) r := by
  simp only [optional, h]

theorem optional_of_misses {p : Parser α} {s : List Char} (h : p.Misses s) :
    optional p s = .done none s := by
  obtain ⟨t, ht⟩ := h
  simp only [optional, ht]

theorem optional_eq_done {p : Parser α} {s r : List Char} {o : Option α}
    (h : optional p s = .done o r) :
    (∃ a, o = some a ∧ p s = .done a r) ∨ (o = none ∧ r = s ∧ p.Misses s) := by
  unfold optional at h
  cases hp : p s with
  | done a m => rw [hp] at h; cases h; exact Or.inl ⟨a, rfl, rfl⟩
  | miss t => rw [hp] at h; cases h; exact Or.inr ⟨rfl, rfl, t, hp⟩
  | stop t => rw [hp] at h; cases h

/-! ### Looking without reading -/

theorem absent_of_misses {p : Parser α} {s : List Char} (h : p.Misses s) :
    absent p s = .done () s := by
  obtain ⟨t, ht⟩ := h
  simp only [absent, ht]

theorem misses_absent {p : Parser α} {s r : List Char} {a : α} (h : p s = .done a r) :
    (absent p).Misses s := by
  simp only [Misses, absent, h]
  exact misses_missAt s

theorem absent_eq_done {p : Parser α} {s r : List Char} {u : Unit} (h : absent p s = .done u r) :
    r = s ∧ p.Misses s := by
  unfold absent at h
  cases hp : p s with
  | done a m => rw [hp] at h; cases h
  | miss t => rw [hp] at h; cases h; exact ⟨rfl, t, hp⟩
  | stop t => rw [hp] at h; cases h

/-! ### Results and troubles -/

theorem filterMap_done {p : Parser α} {f : α → Option β} {s r : List Char} {a : α} {b : β}
    (h : p s = .done a r) (hf : f a = some b) : (p.filterMap f) s = .done b r := by
  simp only [filterMap, h, hf]

theorem filterMap_refused {p : Parser α} {f : α → Option β} {s r : List Char} {a : α}
    (h : p s = .done a r) (hf : f a = none) : (p.filterMap f).Misses s := by
  simp only [Misses, filterMap, h, hf]
  exact misses_missAt s

theorem Misses.filterMap {p : Parser α} {f : α → Option β} {s : List Char} (h : p.Misses s) :
    (p.filterMap f).Misses s := by
  obtain ⟨t, ht⟩ := h
  exact ⟨t, by simp only [Parser.filterMap, ht]⟩

theorem filterMap_eq_done {p : Parser α} {f : α → Option β} {s r : List Char} {b : β}
    (h : (p.filterMap f) s = .done b r) : ∃ a, p s = .done a r ∧ f a = some b := by
  unfold filterMap at h
  cases hp : p s with
  | done a m =>
    rw [hp] at h
    cases hf : f a with
    | none => simp only [hf] at h; cases h
    | some b' => simp only [hf] at h; cases h; exact ⟨a, rfl, hf⟩
  | miss t => rw [hp] at h; cases h
  | stop t => rw [hp] at h; cases h

theorem commit_done {p : Parser α} {s r : List Char} {a : α} (h : p s = .done a r) :
    commit p s = .done a r := by
  simp only [commit, h]

theorem commit_eq_done {p : Parser α} {s r : List Char} {a : α} (h : commit p s = .done a r) :
    p s = .done a r := by
  unfold commit at h
  split at h
  · cases h
  · exact h

theorem expecting_done {p : Parser α} {what : String} {s r : List Char} {a : α}
    (h : p s = .done a r) : expecting what p s = .done a r := by
  simp only [expecting, h]

theorem Misses.expecting {p : Parser α} {s : List Char} (what : String) (h : p.Misses s) :
    (expecting what p).Misses s := by
  obtain ⟨t, ht⟩ := h
  exact ⟨t.label what, by simp only [Parser.expecting, ht]⟩

theorem expecting_eq_done {p : Parser α} {what : String} {s r : List Char} {a : α}
    (h : expecting what p s = .done a r) : p s = .done a r := by
  unfold expecting at h
  split at h
  · cases h
  · cases h
  · exact h

/-- Behind `p` there is no other way of reading than by `q`. -/
theorem after_commit_done {p : Parser α} {q : Parser β} {what : String} {s m r : List Char} {a : α}
    {b : β} (hp : p s = .done a m) (hq : q m = .done b r) :
    (p.after (commit (expecting what q))) s = .done b r :=
  (after_done hp).trans (commit_done (expecting_done hq))

/-! ### Repetition -/

theorem many_step {p : Parser α} {s m r : List Char} {a : α} {as : List α}
    (h : p s = .done a m) (hlt : m.length < s.length) (hm : many p m = .done as r) :
    many p s = .done (a :: as) r := by
  rw [many, h]
  simp only [hlt, ↓reduceDIte, hm]

theorem many_of_misses {p : Parser α} {s : List Char} (h : p.Misses s) :
    many p s = .done [] s := by
  obtain ⟨t, ht⟩ := h
  rw [many, ht]

/-- A repetition ends where its parser misses, or goes on behind what its parser reads. -/
theorem many_eq_done {p : Parser α} {s r : List Char} {as : List α} (h : many p s = .done as r) :
    (as = [] ∧ r = s ∧ p.Misses s) ∨
      ∃ a m bs, p s = .done a m ∧ m.length < s.length ∧ many p m = .done bs r ∧ as = a :: bs := by
  rw [many] at h
  cases hp : p s with
  | done a m =>
    rw [hp] at h
    by_cases hlt : m.length < s.length
    · simp only [hlt, ↓reduceDIte] at h
      cases hm : many p m with
      | done bs last => rw [hm] at h; cases h; exact Or.inr ⟨a, m, bs, rfl, hlt, hm, rfl⟩
      | miss t => rw [hm] at h; cases h
      | stop t => rw [hm] at h; cases h
    · simp only [hlt, ↓reduceDIte] at h
      cases h
  | miss t => rw [hp] at h; cases h; exact Or.inl ⟨rfl, rfl, t, hp⟩
  | stop t => rw [hp] at h; cases h

theorem separatedTail_step {sep : Parser σ} {p : Parser α} {s b m r : List Char} {x : σ} {a : α}
    {as : List α} (hs : sep s = .done x b) (hb : b.length < s.length) (hp : p b = .done a m)
    (hlt : m.length < s.length) (hm : separatedTail sep p m = .done as r) :
    separatedTail sep p s = .done (a :: as) r := by
  rw [separatedTail, hs]
  simp only [hb, ↓reduceIte, hp, hlt, ↓reduceDIte, hm]

theorem separatedTail_of_misses {sep : Parser σ} {p : Parser α} {s : List Char}
    (h : sep.Misses s) : separatedTail sep p s = .done [] s := by
  obtain ⟨t, ht⟩ := h
  rw [separatedTail, ht]

/-- The rest of a list ends before a separator, or goes on behind an element. -/
theorem separatedTail_eq_done {sep : Parser σ} {p : Parser α} {s r : List Char} {as : List α}
    (h : separatedTail sep p s = .done as r) :
    (as = [] ∧ r = s) ∨ ∃ x b a m bs, sep s = .done x b ∧ p b = .done a m ∧
      separatedTail sep p m = .done bs r ∧ as = a :: bs := by
  rw [separatedTail] at h
  cases hs : sep s with
  | done x b =>
    rw [hs] at h
    by_cases hb : b.length < s.length
    · simp only [hb, ↓reduceIte] at h
      cases hp : p b with
      | done a m =>
        rw [hp] at h
        by_cases hlt : m.length < s.length
        · simp only [hlt, ↓reduceDIte] at h
          cases hm : separatedTail sep p m with
          | done bs last => rw [hm] at h; cases h; exact Or.inr ⟨x, b, a, m, bs, rfl, hp, hm, rfl⟩
          | miss t => rw [hm] at h; cases h
          | stop t => rw [hm] at h; cases h
        · simp only [hlt, ↓reduceDIte] at h
          cases h
      | miss t => rw [hp] at h; cases h; exact Or.inl ⟨rfl, rfl⟩
      | stop t => rw [hp] at h; cases h
    · simp only [hb, ↓reduceIte] at h
      cases h
  | miss t => rw [hs] at h; cases h; exact Or.inl ⟨rfl, rfl⟩
  | stop t => rw [hs] at h; cases h

theorem separated1_done {sep : Parser σ} {p : Parser α} {s m r : List Char} {a : α} {as : List α}
    (hp : p s = .done a m) (hm : separatedTail sep p m = .done as r) :
    separated1 sep p s = .done (a :: as) r := by
  rw [separated1, bind_done hp, bind_done hm, pure_apply]

theorem separated1_eq_done {sep : Parser σ} {p : Parser α} {s r : List Char} {as : List α}
    (h : separated1 sep p s = .done as r) : ∃ a m bs, p s = .done a m ∧ separatedTail sep p m = .done bs r ∧
      as = a :: bs := by
  obtain ⟨a, m, ha, h⟩ := bind_eq_done h
  obtain ⟨bs, m', hbs, hlast⟩ := bind_eq_done h
  cases hlast
  exact ⟨a, m, bs, ha, hbs, rfl⟩

theorem separated_done {sep : Parser σ} {p : Parser α} {s m r : List Char} {a : α} {as : List α}
    (hp : p s = .done a m) (hm : separatedTail sep p m = .done as r) :
    separated sep p s = .done (a :: as) r := by
  simp only [separated, hp, hm]

theorem separated_of_misses {sep : Parser σ} {p : Parser α} {s : List Char} (h : p.Misses s) :
    separated sep p s = .done [] s := by
  obtain ⟨t, ht⟩ := h
  simp only [separated, ht]

theorem separated_eq_done {sep : Parser σ} {p : Parser α} {s r : List Char} {as : List α}
    (h : separated sep p s = .done as r) : (as = [] ∧ r = s) ∨ ∃ a m bs, p s = .done a m ∧
      separatedTail sep p m = .done bs r ∧ as = a :: bs := by
  unfold separated at h
  cases hp : p s with
  | done a m =>
    rw [hp] at h
    cases hm : separatedTail sep p m with
    | done bs last => simp only [hm] at h; cases h; exact Or.inr ⟨a, m, bs, rfl, hm, rfl⟩
    | miss t => simp only [hm] at h; cases h
    | stop t => simp only [hm] at h; cases h
  | miss t => rw [hp] at h; cases h; exact Or.inl ⟨rfl, rfl⟩
  | stop t => rw [hp] at h; cases h

theorem foldMany_apply (p : Parser α) (step : β → α → β) (start : β) (s : List Char) :
    foldMany p start step s = match many p s with
      | .done as r => .done (as.foldl step start) r
      | .miss t => .miss t
      | .stop t => .stop t := by
  refine (bind_apply (many p) (fun as => pure (as.foldl step start)) s).trans ?_
  cases many p s <;> rfl

/-- A fold goes on behind a round with what the round makes of the start. -/
theorem foldMany_step {p : Parser α} {step : β → α → β} {start : β} {s m : List Char} {a : α}
    (h : p s = .done a m) (hlt : m.length < s.length) :
    foldMany p start step s = foldMany p (step start a) step m := by
  rw [foldMany_apply, foldMany_apply, many, h]
  simp only [hlt, ↓reduceDIte]
  cases many p m <;> rfl

theorem foldMany_of_misses {p : Parser α} {step : β → α → β} {start : β} {s : List Char}
    (h : p.Misses s) : foldMany p start step s = .done start s := by
  rw [foldMany_apply, many_of_misses h]
  rfl

theorem foldMany_eq_done {p : Parser α} {step : β → α → β} {start b : β} {s r : List Char}
    (h : foldMany p start step s = .done b r) :
    ∃ as, many p s = .done as r ∧ b = as.foldl step start := by
  rw [foldMany_apply] at h
  cases hm : many p s with
  | done as m => rw [hm] at h; cases h; exact ⟨as, rfl, rfl⟩
  | miss t => rw [hm] at h; cases h
  | stop t => rw [hm] at h; cases h

/-! ### Runs -/

/-- A run is read whole if what follows does not go on with it. -/
theorem takeWhile_append {accepts : Char → Bool} {front rest : List Char}
    (hf : ∀ c ∈ front, accepts c = true) (hr : ∀ c ∈ rest.head?, accepts c = false) :
    (front ++ rest).takeWhile accepts = front ∧ (front ++ rest).dropWhile accepts = rest := by
  have hrest : rest.takeWhile accepts = [] ∧ rest.dropWhile accepts = rest := by
    cases rest with
    | nil => exact ⟨rfl, rfl⟩
    | cons c rest =>
      have hc := hr c rfl
      simp [hc]
  rw [List.takeWhile_append_of_pos hf, List.dropWhile_append_of_pos hf, hrest.1, hrest.2,
    List.append_nil]
  exact ⟨rfl, rfl⟩

theorem takeWhile_done {accepts : Char → Bool} {front rest : List Char}
    (hf : ∀ c ∈ front, accepts c = true) (hr : ∀ c ∈ rest.head?, accepts c = false) :
    Parser.takeWhile accepts (front ++ rest) = .done front rest := by
  obtain ⟨h1, h2⟩ := takeWhile_append hf hr
  rw [Parser.takeWhile, h1, h2]

theorem takeWhile1_done {accepts : Char → Bool} {front rest : List Char} (hne : front ≠ [])
    (hf : ∀ c ∈ front, accepts c = true) (hr : ∀ c ∈ rest.head?, accepts c = false) :
    takeWhile1 accepts (front ++ rest) = .done front rest := by
  obtain ⟨h1, h2⟩ := takeWhile_append hf hr
  rw [takeWhile1, h1, h2]
  cases front with
  | nil => exact absurd rfl hne
  | cons c front => rfl

theorem misses_takeWhile1 {accepts : Char → Bool} {s : List Char}
    (h : ∀ c ∈ s.head?, accepts c = false) : (takeWhile1 accepts).Misses s := by
  have h0 : s.takeWhile accepts = [] :=
    (takeWhile_append (by simp : ∀ c ∈ [], accepts c = true) h).1
  exact ⟨_, by rw [takeWhile1, h0]; rfl⟩

/-- Behind a run the next character is no more of it. -/
theorem head_dropWhile (accepts : Char → Bool) (s : List Char) :
    ∀ c ∈ (s.dropWhile accepts).head?, accepts c = false := fun c hc => by
  have h := List.head?_dropWhile_not accepts s
  rw [Option.mem_def.mp hc] at h
  simpa using h

/-- A run is read with the characters it has, and no further ones follow. -/
theorem takeWhile1_eq_done {accepts : Char → Bool} {s r run : List Char}
    (h : takeWhile1 accepts s = .done run r) :
    s = run ++ r ∧ run ≠ [] ∧ (∀ c ∈ run, accepts c = true) ∧ ∀ c ∈ r.head?, accepts c = false := by
  have hsplit := List.takeWhile_append_dropWhile (p := accepts) (l := s)
  rw [takeWhile1] at h
  cases hrun : s.takeWhile accepts with
  | nil => rw [hrun] at h; cases h
  | cons c cs =>
    rw [hrun] at h hsplit
    cases h
    exact ⟨hsplit.symm, List.cons_ne_nil c cs, fun x hx => List.mem_takeWhile_imp (hrun ▸ hx),
      head_dropWhile accepts s⟩

/-! ### Marks -/

theorem char_done (c : Char) (s : List Char) : char c (c :: s) = .done c s := by
  simp [char, satisfy]

theorem misses_satisfy {accepts : Char → Bool} {s : List Char}
    (h : ∀ c ∈ s.head?, accepts c = false) : (satisfy accepts).Misses s := by
  cases s with
  | nil => exact ⟨_, rfl⟩
  | cons c s =>
    have hc := h c rfl
    exact ⟨_, by rw [satisfy, hc]; rfl⟩

theorem misses_char {c : Char} {s : List Char} (h : c ∉ s.head?) : (char c).Misses s :=
  misses_satisfy fun d hd => by
    rw [beq_eq_false_iff_ne]
    rintro rfl
    exact h hd

theorem char_eq_done {c x : Char} {s r : List Char} (h : char c s = .done x r) : s = c :: r := by
  cases s with
  | nil => cases h
  | cons d s =>
    by_cases hd : d = c
    · subst hd
      rw [char_done] at h
      cases h
      rfl
    · exact absurd h (misses_char (fun hc => hd (by cases hc; rfl))).not_done

theorem lexeme_apply (p : Parser α) (s : List Char) : lexeme p s = p (s.dropWhile isBlank) := rfl

theorem lexeme_dropWhile (p : Parser α) (s : List Char) :
    lexeme p (s.dropWhile isBlank) = lexeme p s := by
  rw [lexeme_apply, lexeme_apply, List.dropWhile_idempotent]

theorem symbol_done {c : Char} {s t : List Char} (h : s.dropWhile isBlank = c :: t) :
    symbol c s = .done c (t.dropWhile isBlank) := by
  have hc : lexeme (char c) s = .done c t := by rw [lexeme_apply, h, char_done]
  exact followedBy_done hc rfl

theorem misses_symbol {c : Char} {s : List Char} (h : c ∉ (s.dropWhile isBlank).head?) :
    (symbol c).Misses s :=
  Misses.bind (misses_char h : (lexeme (char c)).Misses s)

theorem symbols_done {w : String} {s t : List Char} (h : s.dropWhile isBlank = w.toList ++ t) :
    symbols w s = .done w.toList (t.dropWhile isBlank) := by
  have hw : lexeme (literal w.toList) s = .done w.toList t := by
    rw [lexeme_apply, h, literal, if_pos (by simp), List.drop_left]
  exact followedBy_done hw rfl

theorem misses_symbols {w : String} {s : List Char}
    (h : ¬ w.toList <+: s.dropWhile isBlank) : (symbols w).Misses s := by
  have hw : (literal w.toList).Misses (s.dropWhile isBlank) :=
    ⟨_, by rw [literal, if_neg (by simpa using h)]; rfl⟩
  exact Misses.bind (hw : (lexeme (literal w.toList)).Misses s)

theorem parenthesized_done {p : Parser α} {s t m r : List Char} {a : α}
    (hs : s.dropWhile isBlank = '(' :: t) (hp : p (t.dropWhile isBlank) = .done a m)
    (hm : m.dropWhile isBlank = ')' :: r) : parenthesized p s = .done a r := by
  have h1 : ((symbol '(').after p) s = .done a m := by rw [after_done (symbol_done hs), hp]
  have h2 : lexeme (char ')') m = .done ')' r := by rw [lexeme_apply, hm, char_done]
  exact followedBy_done h1 h2

theorem misses_parenthesized {p : Parser α} {s : List Char} (h : '(' ∉ (s.dropWhile isBlank).head?) :
    (parenthesized p).Misses s :=
  Misses.bind (Misses.bind (misses_symbol h) : ((symbol '(').after p).Misses s)

theorem quantity_done {n : UInt64} {rest : List Char} (h : ∀ c ∈ rest.head?, c.isDigit = false) :
    quantity ((Nat.repr n.toNat).toList ++ rest) = .done n rest := by
  have hd : digits ((Nat.repr n.toNat).toList ++ rest) = .done (Nat.toDigits 10 n.toNat) rest := by
    rw [Nat.toList_repr]
    exact takeWhile1_done Nat.toDigits_ne_nil
      (fun c hc => Nat.isDigit_of_mem_toDigits (by decide) (by decide) hc) h
  refine filterMap_done hd ?_
  simp only [Nat.ofDigitChars_ten_toDigits, n.toNat_lt_size, ↓reduceIte, UInt64.ofNat_toNat]

/-! ### Leading blanks -/

/-- Blanks in front make no difference. -/
def SkipsBlanks (p : Parser α) : Prop := ∀ s, p (s.dropWhile isBlank) = p s

theorem skipsBlanks_lexeme (p : Parser α) : SkipsBlanks (lexeme p) := lexeme_dropWhile p

theorem SkipsBlanks.bind {p : Parser α} (hp : SkipsBlanks p) (f : α → Parser β) :
    SkipsBlanks (p >>= f) := fun s => by
  rw [bind_apply, bind_apply, hp s]

theorem skipsBlanks_symbol (c : Char) : SkipsBlanks (symbol c) := (skipsBlanks_lexeme (char c)).bind _

theorem SkipsBlanks.orElse {p q : Parser α} (hp : SkipsBlanks p) (hq : SkipsBlanks q) :
    SkipsBlanks (p.orElse q) := fun s => by
  unfold Parser.orElse
  rw [hp s, hq s]

theorem SkipsBlanks.cons {p : Parser α} (hp : SkipsBlanks p) {c : Char} (hc : isBlank c = true)
    (s : List Char) : p (c :: s) = p s := by
  rw [← hp (c :: s), List.dropWhile_cons_of_pos hc, hp s]

/-! ### Lists -/

/-- The elements behind a first one are read back, each from its text behind a separator, if an
element ends where a separator or the end of the list follows. -/
theorem separatedTail_done {sep : Parser σ} {p : Parser α} {text : α → List Char} {lead : List Char}
    {Follow : List Char → Prop} (hlead : ∀ t, Follow (lead ++ t))
    (hsep : ∀ t, ∃ x b, sep (lead ++ t) = .done x b ∧ b.length < (lead ++ t).length ∧ p b = p t)
    {rest : List Char} (hrest : Follow rest) (hend : sep.Misses rest) :
    ∀ {as : List α}, (∀ a ∈ as, ∀ t, Follow t → p (text a ++ t) = .done a t) →
      separatedTail sep p (as.flatMap (fun a => lead ++ text a) ++ rest) = .done as rest
  | [], _ => separatedTail_of_misses hend
  | a :: as, h => by
    rw [List.flatMap_cons, List.append_assoc, List.append_assoc]
    set behind := as.flatMap (fun a => lead ++ text a) ++ rest with hbehind
    obtain ⟨x, b, hx, hb, hpb⟩ := hsep (text a ++ behind)
    have hfollow : Follow behind := by
      cases as with
      | nil => exact hrest
      | cons a' as => rw [hbehind, List.flatMap_cons, List.append_assoc, List.append_assoc]; exact hlead _
    refine separatedTail_step hx hb (hpb.trans (h a List.mem_cons_self behind hfollow)) ?_
      (separatedTail_done hlead hsep hrest hend fun a' ha' => h a' (List.mem_cons_of_mem a ha'))
    obtain ⟨_, _, -, hpos, -⟩ := hsep []
    simp only [List.length_append, List.length_nil] at hpos ⊢
    omega

/-- Elements with a comma and a blank between them. -/
theorem commaTail_done {p : Parser α} (hp : SkipsBlanks p) {text : α → List Char}
    {Follow : List Char → Prop} (hlead : ∀ t, Follow (',' :: ' ' :: t)) {rest : List Char}
    (hrest : Follow rest) (hend : ',' ∉ (rest.dropWhile isBlank).head?) {as : List α}
    (h : ∀ a ∈ as, ∀ t, Follow t → p (text a ++ t) = .done a t) :
    separatedTail (symbol ',') p (as.flatMap (fun a => [',', ' '] ++ text a) ++ rest) =
      .done as rest := by
  refine separatedTail_done hlead (fun t => ⟨',', _, symbol_done (t := ' ' :: t) rfl, ?_, ?_⟩) hrest
    (misses_symbol hend) h
  · have := (List.dropWhile_sublist isBlank (l := ' ' :: t)).length_le
    simp only [List.length_cons, List.length_append, List.length_nil] at this ⊢
    omega
  · rw [hp, hp.cons rfl]

/-- Values are read back one after the other, each from its text, as `f` of what the parser gives. -/
theorem many_done {p : Parser α} {text : β → List Char} (f : α → β) {Follow : List Char → Prop}
    {rest : List Char} (hrest : Follow rest) (hend : p.Misses rest) :
    ∀ {bs : List β}, (∀ b ∈ bs, text b ≠ [] ∧ ∀ t, Follow t → Follow (text b ++ t) ∧
      ∃ a, p (text b ++ t) = .done a t ∧ f a = b) →
      Follow (bs.flatMap text ++ rest) ∧
        ∃ as, many p (bs.flatMap text ++ rest) = .done as rest ∧ as.map f = bs
  | [], _ => ⟨hrest, [], many_of_misses hend, rfl⟩
  | b :: bs, h => by
    obtain ⟨hfollow, as, has, hmap⟩ :=
      many_done f hrest hend fun b' hb' => h b' (List.mem_cons_of_mem b hb')
    obtain ⟨hne, hb⟩ := h b List.mem_cons_self
    obtain ⟨hfollow', a, ha, hfa⟩ := hb _ hfollow
    rw [List.flatMap_cons, List.append_assoc]
    refine ⟨hfollow', a :: as, many_step ha ?_ has, by rw [List.map_cons, hfa, hmap]⟩
    have := List.length_pos_iff.mpr hne
    simp only [List.length_append]
    omega

/-! ### Recursion -/

/-- What holds of every miss, and of what a rule makes of a text when it holds of the rule inside,
holds of a rule that refers to itself. -/
theorem fix_induction {rule : Parser α → Parser α} (Q : List Char → Reply α → Prop)
    (miss : ∀ s, Q s (missAt s)) (step : ∀ p : Parser α, (∀ s, Q s (p s)) → ∀ s, Q s (rule p s))
    (s : List Char) : Q s (fix rule s) := by
  induction h : s.length using Nat.strong_induction_on generalizing s with
  | _ n ih =>
    rw [fix]
    refine step _ (fun r => ?_) s
    by_cases hr : r.length < s.length
    · simp only [hr, ↓reduceDIte]
      exact ih r.length (h ▸ hr) r rfl
    · simp only [hr, ↓reduceDIte]
      exact miss r

end Parser
end SelectLang
