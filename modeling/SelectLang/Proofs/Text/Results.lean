/-
# What holds of everything a parser reads

`Yields P p` says that every value that `p` reads has the property `P`, whatever the text. It is proved
of a rule part by part, each combinator handing on what its parts yield; of a repetition it says
something of every element, and a fold yields what its start has and its step keeps. A rule that refers
to itself yields what it yields over any parser that yields it already.

Key definitions: `Yields`.
Key theorems: `Yields.bind`, `Yields.foldMany`, `yields_fix`.
-/
import Mathlib
import SelectLang.Proofs.Text.Reading

namespace SelectLang
namespace Parser

variable {α β σ : Type} {P : α → Prop} {Q : β → Prop}

/-- Every value that is read has the property. -/
def Yields (P : α → Prop) (p : Parser α) : Prop := ∀ s a r, p s = .done a r → P a

theorem yields_true (p : Parser α) : Yields (fun _ => True) p := fun _ _ _ _ => trivial

theorem yields_pure {a : α} (h : P a) : Yields P (pure a : Parser α) := fun s b r hs => by
  rw [pure_apply] at hs
  cases hs
  exact h

theorem Yields.bind {p : Parser α} {f : α → Parser β} (hp : Yields P p)
    (hf : ∀ a, P a → Yields Q (f a)) : Yields Q (p >>= f) := fun s b r h => by
  obtain ⟨a, m, ha, hb⟩ := bind_eq_done h
  exact hf a (hp s a m ha) m b r hb

/-- What is read first may be anything. -/
theorem yields_bind (p : Parser α) {f : α → Parser β} (hf : ∀ a, Yields Q (f a)) :
    Yields Q (p >>= f) :=
  (yields_true p).bind fun a _ => hf a

theorem Yields.map {p : Parser α} {f : α → β} (hp : Yields P p) (hf : ∀ a, P a → Q (f a)) :
    Yields Q (p >>= fun a => pure (f a)) :=
  hp.bind fun a ha => yields_pure (hf a ha)

theorem Yields.after (p : Parser β) {q : Parser α} (hq : Yields P q) : Yields P (p.after q) :=
  yields_bind p fun _ => hq

theorem Yields.followedBy {p : Parser α} (hp : Yields P p) (q : Parser β) :
    Yields P (p.followedBy q) :=
  hp.bind fun _ ha => yields_bind q fun _ => yields_pure ha

theorem Yields.lexeme {p : Parser α} (hp : Yields P p) : Yields P (lexeme p) := hp.after _

theorem Yields.parenthesized {p : Parser α} (hp : Yields P p) : Yields P (parenthesized p) :=
  (hp.after _).followedBy _

theorem yields_firstOf {ps : List (Parser α)} (h : ∀ p ∈ ps, Yields P p) : Yields P (firstOf ps) :=
  fun s a r hs => by
    obtain ⟨p, hp, hr⟩ := firstOf_eq_done hs
    exact h p hp s a r hr

theorem Yields.optional {p : Parser α} (hp : Yields P p) :
    Yields (fun o => ∀ a ∈ o, P a) (optional p) := fun s o r h => by
  rcases optional_eq_done h with ⟨a, rfl, ha⟩ | ⟨rfl, -, -⟩
  · intro b hb
    cases hb
    exact hp s _ r ha
  · exact nofun

theorem Yields.filterMap (p : Parser β) {f : β → Option α} (hf : ∀ b a, f b = some a → P a) :
    Yields P (p.filterMap f) := fun s a r h => by
  obtain ⟨b, -, hb⟩ := filterMap_eq_done h
  exact hf b a hb

theorem Yields.commit {p : Parser α} (hp : Yields P p) : Yields P (commit p) := fun s a r h =>
  hp s a r (commit_eq_done h)

theorem Yields.expecting (what : String) {p : Parser α} (hp : Yields P p) :
    Yields P (expecting what p) := fun s a r h => hp s a r (expecting_eq_done h)

theorem Yields.many {p : Parser α} (hp : Yields P p) : Yields (fun as => ∀ a ∈ as, P a) (many p) := by
  intro s as r h
  induction as generalizing s with
  | nil => exact nofun
  | cons a as ih =>
    rcases many_eq_done h with ⟨h0, -, -⟩ | ⟨a', m, bs, ha, -, hm, h0⟩
    · cases h0
    · cases h0
      exact List.forall_mem_cons.mpr ⟨hp s a m ha, ih m hm⟩

theorem Yields.many1 {p : Parser α} (hp : Yields P p) :
    Yields (fun as => as ≠ [] ∧ ∀ a ∈ as, P a) (many1 p) :=
  hp.bind fun _ ha => hp.many.map fun _ has => ⟨by simp, List.forall_mem_cons.mpr ⟨ha, has⟩⟩

theorem Yields.separatedTail (sep : Parser σ) {p : Parser α} (hp : Yields P p) :
    Yields (fun as => ∀ a ∈ as, P a) (separatedTail sep p) := by
  intro s as r h
  induction as generalizing s with
  | nil => exact nofun
  | cons a as ih =>
    rcases separatedTail_eq_done h with ⟨h0, -⟩ | ⟨x, b, a', m, bs, -, ha, hm, h0⟩
    · cases h0
    · cases h0
      exact List.forall_mem_cons.mpr ⟨hp b a m ha, ih m hm⟩

theorem Yields.separated1 (sep : Parser σ) {p : Parser α} (hp : Yields P p) :
    Yields (fun as => as ≠ [] ∧ ∀ a ∈ as, P a) (separated1 sep p) :=
  hp.bind fun _ ha => (hp.separatedTail sep).map fun _ has =>
    ⟨by simp, List.forall_mem_cons.mpr ⟨ha, has⟩⟩

theorem Yields.separated (sep : Parser σ) {p : Parser α} (hp : Yields P p) :
    Yields (fun as => ∀ a ∈ as, P a) (separated sep p) := fun s as r h => by
  rcases separated_eq_done h with ⟨rfl, -⟩ | ⟨a, m, bs, ha, hm, rfl⟩
  · exact nofun
  · exact List.forall_mem_cons.mpr ⟨hp s a m ha, hp.separatedTail sep m bs r hm⟩

theorem Yields.foldMany {p : Parser α} (hp : Yields P p) {start : β} {step : β → α → β}
    (hstart : Q start) (hstep : ∀ b a, Q b → P a → Q (step b a)) :
    Yields Q (foldMany p start step) :=
  hp.many.map fun as has => List.foldlRecOn as step hstart fun b hb a ha => hstep b a hb (has a ha)

theorem yields_fix {rule : Parser α → Parser α} (h : ∀ p, Yields P p → Yields P (rule p)) :
    Yields P (fix rule) := fun s =>
  fix_induction (fun _ reply => ∀ a r, reply = .done a r → P a) (fun _ _ _ hm => by cases hm)
    (fun p hp => h p hp) s

end Parser
end SelectLang
