/-
# Where the order of values is transitive

An integer is compared with a float after it is rounded, but two integers as they are. So two integers
that are rounded to one float are level with it and not with each other. Nothing else keeps the order of
values from being transitive: over values whose numbers are taken from given integers and floats it is
transitive exactly if no two of the integers are rounded to one of the floats, as none are that are below
`2 ^ 53` in size.

Tokens without such numbers form chains: of three in order, the first is level with the last if both
are level with the one between, and comes before it otherwise. Lists that are compared token by token
then form chains too.

Key definitions: `Value.NumbersIn`, `Value.TransitiveAt`.
Key theorems: `Value.Token.order_chain`, `compareLex_chain`, `Value.order_transitive_iff`.
-/
import Mathlib
import SelectLang.Proofs.Number.Integers
import SelectLang.Proofs.Value.Tokens

namespace SelectLang

/-- Numbers of one rank are the same, bit by bit. -/
theorem Binary64.eq_of_rank {x y : Binary64} (h : x.rank = y.rank) : x = y := by
  have hsign : x.isNegative = y.isNegative := by
    rw [rank, rank] at h
    split at h <;> split at h
    · rename_i hx hy
      rw [hx, hy]
    · omega
    · omega
    · rename_i hx hy
      rw [Bool.eq_false_of_not_eq_true hx, Bool.eq_false_of_not_eq_true hy]
  have hmagnitude : x.magnitude = y.magnitude := by
    rw [rank, rank, hsign] at h
    split at h <;> omega
  rw [← ofMagnitude_magnitude x, ← ofMagnitude_magnitude y, hsign, hmagnitude]

/-! ### Chains -/

theorem compare_chain {α : Type} [Ord α] [Std.TransOrd α] {a b c : α} (hab : compare a b ≠ .gt)
    (hbc : compare b c ≠ .gt) : compare a c = (compare a b).then (compare b c) := by
  cases h : compare a b with
  | lt => exact Std.TransCmp.lt_of_lt_of_isLE h (Ordering.isLE_iff_ne_gt.mpr hbc)
  | eq => exact Std.TransCmp.congr_left h
  | gt => exact absurd h hab

/-- Lists form a chain if their elements do. -/
theorem compareLex_chain {α : Type} {cmp : α → α → Ordering} : ∀ {s t r : List α},
    (∀ u ∈ s, ∀ v ∈ t, ∀ w ∈ r, cmp u v ≠ .gt → cmp v w ≠ .gt → cmp u w = (cmp u v).then (cmp v w)) →
      List.compareLex cmp s t ≠ .gt → List.compareLex cmp t r ≠ .gt →
        List.compareLex cmp s r = (List.compareLex cmp s t).then (List.compareLex cmp t r)
  | [], [], r, _, _, _ => rfl
  | [], _ :: _, [], _, _, htr => absurd rfl htr
  | [], _ :: _, _ :: _, _, _, _ => rfl
  | _ :: _, [], _, _, hst, _ => absurd rfl hst
  | _ :: _, _ :: _, [], _, _, htr => absurd rfl htr
  | u :: s, v :: t, w :: r, h, hst, htr => by
    have hchain := h u List.mem_cons_self v List.mem_cons_self w List.mem_cons_self
    have ih := @compareLex_chain α cmp s t r fun u hu v hv w hw =>
      h u (List.mem_cons_of_mem _ hu) v (List.mem_cons_of_mem _ hv) w (List.mem_cons_of_mem _ hw)
    rw [List.compareLex_cons_cons] at hst htr ⊢
    rw [List.compareLex_cons_cons, List.compareLex_cons_cons]
    cases huv : cmp u v <;> cases hvw : cmp v w <;>
      simp only [huv, hvw, Ordering.then, ne_eq, reduceCtorEq, not_false_eq_true, not_true_eq_false,
        forall_const] at hchain hst htr ⊢
    · rw [hchain]
    · rw [hchain]
    · rw [hchain]
      cases hrest : List.compareLex cmp s t <;> simp_all
    · rw [hchain]
      exact ih hst htr

namespace Value

/-! ### Numbers -/

/-- No two of the integers are rounded to one of the floats. -/
def Separated (integers : Set Int64) (floats : Set Binary64) : Prop :=
  ∀ n ∈ integers, ∀ m ∈ integers, .ofInt n.toInt ∈ floats →
    Binary64.ofInt n.toInt = .ofInt m.toInt → n = m

variable {integers : Set Int64} {floats : Set Binary64}

theorem Separated.eq_of_rank (h : Separated integers floats) {n m : Int64} {x : Binary64}
    (hn : n ∈ integers) (hm : m ∈ integers) (hx : x ∈ floats)
    (hnx : (Binary64.ofInt n.toInt).rank = x.rank) (hmx : (Binary64.ofInt m.toInt).rank = x.rank) :
    n = m := by
  have hnx := Binary64.eq_of_rank hnx
  have hmx := Binary64.eq_of_rank hmx
  exact h n hn m hm (hnx ▸ hx) (hnx.trans hmx.symm)

/-- Integers that are all below `2 ^ 53` in size are separated by any floats. -/
theorem separated_of_small (h : ∀ n ∈ integers, n.toInt.natAbs < 2 ^ 53) : Separated integers floats :=
  fun n hn _ _ _ heq => Int64.toInt_inj.mp (Binary64.eq_of_rank_ofInt (h n hn) (congrArg _ heq))

/-- To put two comparisons together is to compare, if either of them tells two numbers apart that are
level only if both are. -/
theorem compare_eq_then {a b c d e f : Int} (hcd : compare c d ≠ .gt) (hef : compare e f ≠ .gt)
    (hlt : c ≤ d → e ≤ f → c < d ∨ e < f → a < b) (heq : c = d → e = f → a = b) :
    compare a b = (compare c d).then (compare e f) := by
  rw [ne_eq, Int.compare_eq_gt, not_lt] at hcd hef
  have hlt := hlt hcd hef
  rcases hcd.lt_or_eq with h | h
  · rw [Int.compare_eq_lt.mpr h, Int.compare_eq_lt.mpr (hlt (Or.inl h))]
    rfl
  rcases hef.lt_or_eq with h' | h'
  · rw [Int.compare_eq_lt.mpr h', Int.compare_eq_lt.mpr (hlt (Or.inr h')), Int.compare_eq_eq.mpr h]
    rfl
  · rw [Int.compare_eq_eq.mpr h, Int.compare_eq_eq.mpr h', Int.compare_eq_eq.mpr (heq h h')]
    rfl

/-! ### Tokens in a chain -/

namespace Token

/-- The token is none of a number, or of one of the given numbers. -/
def NumberIn (integers : Set Int64) (floats : Set Binary64) : Token → Prop
  | integer n => n ∈ integers
  | float x => x ∈ floats
  | _ => True

theorem order_of_kindRank_lt {u v : Token} (h : u.kindRank < v.kindRank) : u.order v = .lt := by
  cases u <;> cases v <;> first | rfl | (simp only [kindRank] at h; omega)

theorem kindRank_le {u v : Token} (h : u.order v ≠ .gt) : u.kindRank ≤ v.kindRank := by
  by_contra hlt
  exact h (by rw [order_swap, order_of_kindRank_lt (not_le.mp hlt)]; rfl)

theorem kindRank_eq {u v : Token} (h : u.order v = .eq) : u.kindRank = v.kindRank :=
  le_antisymm (kindRank_le (by rw [h]; decide)) (kindRank_le (by rw [order_swap, h]; decide))

/-- What is known of two integers about a float: rounding keeps their order, and not both are rounded
to the float unless they are the same. -/
theorem rounded_facts (h : Separated integers floats) {n m : Int64} {x : Binary64} (hn : n ∈ integers)
    (hm : m ∈ integers) (hx : x ∈ floats) :
    (n.toInt ≤ m.toInt → (Binary64.ofInt n.toInt).rank ≤ (Binary64.ofInt m.toInt).rank) ∧
      (m.toInt ≤ n.toInt → (Binary64.ofInt m.toInt).rank ≤ (Binary64.ofInt n.toInt).rank) ∧
        ((Binary64.ofInt n.toInt).rank = x.rank → (Binary64.ofInt m.toInt).rank = x.rank →
          n.toInt = m.toInt) :=
  ⟨Binary64.rank_ofInt_le, Binary64.rank_ofInt_le,
    fun hnx hmx => congrArg Int64.toInt (h.eq_of_rank hn hm hx hnx hmx)⟩

/-- Of three tokens in order, the first is level with the last if both are with the one between, and
comes before it otherwise. -/
theorem order_chain (h : Separated integers floats) {u v w : Token} (hu : u.NumberIn integers floats)
    (hv : v.NumberIn integers floats) (hw : w.NumberIn integers floats) (huv : u.order v ≠ .gt)
    (hvw : v.order w ≠ .gt) : u.order w = (u.order v).then (v.order w) := by
  rcases ((kindRank_le huv).trans (kindRank_le hvw)).lt_or_eq with hrank | hrank
  · rw [order_of_kindRank_lt hrank]
    cases hv : u.order v with
    | lt => rfl
    | eq => rw [order_of_kindRank_lt (kindRank_eq hv ▸ hrank)]; rfl
    | gt => exact absurd hv huv
  · have hleft : u.kindRank = v.kindRank := le_antisymm (kindRank_le huv) (hrank ▸ kindRank_le hvw)
    have hright : v.kindRank = w.kindRank := hleft.symm.trans hrank
    cases u <;> cases v <;> first | (simp only [kindRank] at hleft; omega) | skip
    all_goals cases w <;> first | (simp only [kindRank] at hright; omega) | skip
    all_goals first | rfl | exact compare_chain huv hvw | skip
    -- two integers and a float
    · rename_i n m x
      obtain ⟨hle, hge, hsame⟩ := rounded_facts h hu hv hw
      exact compare_eq_then huv hvw (by omega) (by omega)
    · rename_i n x m
      obtain ⟨hle, hge, hsame⟩ := rounded_facts h hu hw hv
      exact compare_eq_then huv hvw (by omega) (by omega)
    · rename_i x n m
      obtain ⟨hle, hge, hsame⟩ := rounded_facts h hv hw hu
      exact compare_eq_then huv hvw (by omega) (by omega)

end Token

/-! ### Values -/

/-- All numbers in the value are of the given ones. -/
def NumbersIn (integers : Set Int64) (floats : Set Binary64) (a : Value) : Prop :=
  ∀ u ∈ a.tokens, u.NumberIn integers floats

/-- The order is transitive at these three values. -/
structure TransitiveAt (a b c : Value) : Prop where
  le : a.order b ≠ .gt → b.order c ≠ .gt → a.order c ≠ .gt
  eq : a.order b = .eq → b.order c = .eq → a.order c = .eq

theorem transitiveAt_of_numbersIn (h : Separated integers floats) {a b c : Value}
    (ha : a.NumbersIn integers floats) (hb : b.NumbersIn integers floats)
    (hc : c.NumbersIn integers floats) : TransitiveAt a b c := by
  have hchain : a.order b ≠ .gt → b.order c ≠ .gt → a.order c = (a.order b).then (b.order c) := by
    rw [order_eq, order_eq, order_eq]
    exact compareLex_chain fun u hu v hv w hw => Token.order_chain h (ha u hu) (hb v hv) (hc w hw)
  constructor
  · intro hab hbc
    rw [hchain hab hbc]
    cases hab' : a.order b with
    | lt => simp
    | eq => exact hbc
    | gt => exact absurd hab' hab
  · intro hab hbc
    rw [hchain (by rw [hab]; decide) (by rw [hbc]; decide), hab, hbc]
    rfl

/-- Two integers that are rounded to one float are level with it. -/
theorem order_rounded {n : Int64} {x : Binary64} (h : .ofInt n.toInt = x) :
    (integer n).order (float x) = .eq ∧ (float x).order (integer n) = .eq := by
  rw [order, order, floatOrder, floatOrder, h]
  exact ⟨Int.compare_eq_eq.mpr rfl, Int.compare_eq_eq.mpr rfl⟩

/-- The order is transitive over the values with the given numbers exactly if no two of the integers are
rounded to one of the floats. So it is if the integers are below `2 ^ 53` in size. -/
theorem order_transitive_iff (integers : Set Int64) (floats : Set Binary64) :
    ((∀ a b c : Value, a.NumbersIn integers floats → b.NumbersIn integers floats →
        c.NumbersIn integers floats → TransitiveAt a b c) ↔ Separated integers floats) ∧
      ((∀ n ∈ integers, n.toInt.natAbs < 2 ^ 53) → ∀ a b c : Value, a.NumbersIn integers floats →
        b.NumbersIn integers floats → c.NumbersIn integers floats → TransitiveAt a b c) := by
  refine ⟨⟨fun h n hn m hm hx heq => ?_, fun h a b c => transitiveAt_of_numbersIn h⟩,
    fun h a b c => transitiveAt_of_numbersIn (separated_of_small h)⟩
  have ha : (integer n).NumbersIn integers floats := List.forall_mem_singleton.mpr hn
  have hb : (float (.ofInt n.toInt)).NumbersIn integers floats := List.forall_mem_singleton.mpr hx
  have hc : (integer m).NumbersIn integers floats := List.forall_mem_singleton.mpr hm
  have hlevel := (h _ _ _ ha hb hc).eq (order_rounded rfl).1 (order_rounded heq.symm).2
  exact Int64.toInt_inj.mp (Int.compare_eq_eq.mp (by rwa [order] at hlevel))

/-- Two neighbours beyond `2 ^ 53` are level with the float between them, and not with each other. -/
theorem not_transitiveAt_beyond : ¬ TransitiveAt (.integer 9007199254740993)
    (.float ⟨0x4340000000000000⟩) (.integer 9007199254740992) := by
  intro h
  exact h.le (by decide +kernel) (by decide +kernel) (by decide +kernel)

end Value
end SelectLang
