/-
# Rounds without a guard

A repetition refuses a round that succeeds without reading anything, for it would go on for ever. `Rounds p` is
the repetition without that guard: it says how reading by `p` again and again comes out, if it comes to an end.
It never comes out as a miss, so a miss of a repetition is its guard speaking. If `p` takes a character whenever
it succeeds, the guard is silent: on every text the rounds come to an end, as the repetition says
(`Consumes.rounds_iff`). A separated list is rounds of a separator with an element behind it.

Key definitions: `Rounds`, `Repeatable`, `Listable`.
Key theorems: `Consumes.many_eq`, `Consumes.rounds_iff`, `Consumes.separatedTail_eq`, `Consumes.repeatable`,
`Consumes.listable`.
-/
import Mathlib
import SelectLang.Proofs.Text.Consumption

namespace SelectLang
namespace Parser

variable {α σ : Type} {p : Parser α} {separator : Parser σ} {s : List Char}

/-- How reading by `p` as often as it succeeds comes out, whatever the rounds take. -/
inductive Rounds (p : Parser α) : List Char → Reply (List α) → Prop where
  | last {s : List Char} {t : Trouble} (h : p s = .miss t) : Rounds p s (.done [] s)
  | halted {s : List Char} {t : Trouble} (h : p s = .stop t) : Rounds p s (.stop t)
  | next {s m r : List Char} {a : α} {as : List α} (h : p s = .done a m) (hm : Rounds p m (.done as r)) :
      Rounds p s (.done (a :: as) r)
  | haltedBehind {s m : List Char} {a : α} {t : Trouble} (h : p s = .done a m) (hm : Rounds p m (.stop t)) :
      Rounds p s (.stop t)

theorem not_rounds_miss {t : Trouble} : ¬ Rounds p s (.miss t) := fun h => by
  cases h

/-! ### Repetitions -/

/-- Where every round takes a character the repetition goes on as if it had no guard. -/
theorem Consumes.many_eq (hp : Consumes 1 p) (s : List Char) :
    Parser.many p s = match p s with
      | .done a m =>
        match Parser.many p m with
        | .done as r => .done (a :: as) r
        | .miss t => .miss t
        | .stop t => .stop t
      | .miss _ => .done [] s
      | .stop t => .stop t := by
  rw [Parser.many]
  cases h : p s with
  | done a m =>
    have hlt : m.length < s.length := by
      have := hp.length_le h
      omega
    cases hm : Parser.many p m <;> simp only [hlt, hm, ↓reduceDIte]
  | miss t => rfl
  | stop t => rfl

/-- The rounds over a text come to an end. -/
theorem Consumes.rounds_many (hp : Consumes 1 p) (s : List Char) : Rounds p s (Parser.many p s) := by
  -- by the length of the text, of which every round takes something off
  induction hl : s.length using Nat.strong_induction_on generalizing s with
  | _ n ih =>
    subst hl
    rw [hp.many_eq]
    cases h : p s with
    | miss t => exact .last h
    | stop t => exact .halted h
    | done a m =>
      have hlt : m.length < s.length := by
        have := hp.length_le h
        omega
      have hm := ih m.length hlt m rfl
      dsimp only
      generalize Parser.many p m = reply at hm
      cases reply with
      | done as r => exact .next h hm
      | stop t => exact .haltedBehind h hm
      | miss t => exact absurd hm not_rounds_miss

theorem Rounds.many_eq {reply : Reply (List α)} (h : Rounds p s reply) (hp : Consumes 1 p) :
    Parser.many p s = reply := by
  induction h with
  | last h => rw [hp.many_eq, h]
  | halted h => rw [hp.many_eq, h]
  | next h _ ih =>
    rw [hp.many_eq, h]
    simp only [ih]
  | haltedBehind h _ ih =>
    rw [hp.many_eq, h]
    simp only [ih]

theorem Consumes.rounds_iff (hp : Consumes 1 p) (s : List Char) (reply : Reply (List α)) :
    Parser.many p s = reply ↔ Rounds p s reply :=
  ⟨fun h => h ▸ hp.rounds_many s, fun h => h.many_eq hp⟩

/-- The parser takes a character whenever it succeeds. So, on every text, reading by it again and again comes to
an end without a guard, as the repetition says, and the repetition does not miss. -/
structure Repeatable (p : Parser α) : Prop where
  consumes : Consumes 1 p
  rounds_iff : ∀ s reply, Parser.many p s = reply ↔ Rounds p s reply
  not_misses : ∀ s, ¬ Misses (Parser.many p) s

theorem Consumes.repeatable (hp : Consumes 1 p) : Repeatable p where
  consumes := hp
  rounds_iff := hp.rounds_iff
  not_misses s := fun ⟨_, h⟩ => not_rounds_miss (h ▸ hp.rounds_many s)

/-! ### Lists -/

/-- A list without guards is rounds of a separator with an element behind it. -/
theorem Consumes.separatedTail_eq (hs : Consumes 1 separator) (hp : Consumes 0 p) :
    Parser.separatedTail separator p = Parser.many (separator.after p) := by
  have hround : Consumes 1 (separator.after p) := hs.bind_left fun _ => hp
  funext s
  induction hl : s.length using Nat.strong_induction_on generalizing s with
  | _ n ih =>
    subst hl
    rw [Parser.separatedTail, hround.many_eq, after, bind_apply]
    cases hx : separator s with
    | miss t => rfl
    | stop t => rfl
    | done x b =>
      have hb : b.length < s.length := by
        have := hs.length_le hx
        omega
      simp only [hb, ↓reduceIte]
      cases ha : p b with
      | miss t => rfl
      | stop t => rfl
      | done a m =>
        have hm : m.length < s.length := by
          have := hp.length_le ha
          omega
        simp only [hm, ↓reduceDIte, ih m.length hm m rfl]
        rfl

/-- Separator and element take a character whenever they succeed. So, on every text, the rounds of the two come
to an end without a guard, as the list says, and the list does not miss behind its first element. -/
structure Listable (separator : Parser σ) (p : Parser α) : Prop where
  consumes_separator : Consumes 1 separator
  consumes : Consumes 1 p
  rounds_iff : ∀ s reply, separatedTail separator p s = reply ↔ Rounds (separator.after p) s reply
  not_misses : ∀ s, ¬ Misses (separatedTail separator p) s

theorem Listable.consumes_round (h : Listable separator p) : Consumes 1 (separator.after p) :=
  h.consumes_separator.bind_left fun _ => h.consumes.mono (Nat.zero_le 1)

theorem Consumes.listable (hs : Consumes 1 separator) (hp : Consumes 1 p) : Listable separator p := by
  have hround : Repeatable (separator.after p) :=
    (hs.bind_left fun _ => hp.mono (Nat.zero_le 1)).repeatable
  have heq := hs.separatedTail_eq (hp.mono (Nat.zero_le 1))
  exact ⟨hs, hp, heq ▸ hround.rounds_iff, heq ▸ hround.not_misses⟩

end Parser
end SelectLang
