/-
# Sorting is stable

Whatever the comparison, sorting only moves elements. Where the comparison turns round with its operands and
is transitive on the elements, those that come earlier in the result are the smaller ones, and of level
elements those that were earlier before. The invariant of the insertion is that the list falls: an element
stops before the first that it is not below, all elements behind are no larger, and it is later than all.

A comparison that turns round and is transitive makes chains: of three elements in order the first is level
with the last only if both are level with the one between.

Key definitions: `ComesBefore`.
Key theorems: `sortBy_perm`, `pairwise_sortBy`, `sortBy_map`, `sortBy_ofFn`, `chain_of_transitive`.
-/
import Mathlib
import SelectLang.Sort.Insertion

namespace SelectLang

variable {α β : Type} {order : α → α → Ordering}

/-! ### Elements are only moved -/

theorem insertFalling_perm (a : α) : ∀ bs : List α, (insertFalling order a bs).Perm (a :: bs)
  | [] => .refl _
  | b :: bs => by
    rw [insertFalling]
    split
    · exact ((insertFalling_perm a bs).cons b).trans (.swap a b bs)
    · exact .refl _

theorem foldl_insertFalling_perm : ∀ as sorted : List α,
    (as.foldl (fun sorted a => insertFalling order a sorted) sorted).Perm (as ++ sorted)
  | [], _ => .refl _
  | a :: as, sorted => by
    rw [List.foldl_cons]
    exact (foldl_insertFalling_perm as _).trans
      (((insertFalling_perm a sorted).append_left as).trans List.perm_middle)

theorem sortBy_perm (order : α → α → Ordering) (as : List α) : (sortBy order as).Perm as := by
  have h : (as.foldl (fun sorted a => insertFalling order a sorted) []).Perm (as ++ []) :=
    foldl_insertFalling_perm as []
  rw [List.append_nil] at h
  exact (List.reverse_perm _).trans h

/-! ### The smaller come first -/

/-- The one is smaller, or level and earlier. -/
def ComesBefore (order : α → α → Ordering) (earlier : α → α → Prop) (a b : α) : Prop :=
  order a b = .lt ∨ (order a b = .eq ∧ earlier a b)

theorem comesBefore_of_ne_gt {earlier : α → α → Prop} {a b : α} (h : order a b ≠ .gt)
    (he : earlier a b) : ComesBefore order earlier a b := by
  cases ho : order a b with
  | lt => exact Or.inl ho
  | eq => exact Or.inr ⟨ho, he⟩
  | gt => exact absurd ho h

theorem ComesBefore.ne_gt {earlier : α → α → Prop} {a b : α} (h : ComesBefore order earlier a b) :
    order a b ≠ .gt := by
  rcases h with h | ⟨h, -⟩ <;> simp [h]

/-- An element that is later than all in a falling list is put into it so that it still falls. -/
theorem falls_insertFalling {earlier : α → α → Prop} (hswap : ∀ a b, order a b = (order b a).swap)
    {a : α} : ∀ {bs : List α}, (∀ b ∈ bs, ∀ c ∈ bs, order b c ≠ .gt → order c a ≠ .gt → order b a ≠ .gt) →
      (∀ b ∈ bs, earlier b a) → bs.Pairwise (fun x y => ComesBefore order earlier y x) →
        (insertFalling order a bs).Pairwise fun x y => ComesBefore order earlier y x
  | [], _, _, _ => List.pairwise_singleton _ _
  | b :: bs, htrans, hlater, hfalls => by
    obtain ⟨hb, hbs⟩ := List.pairwise_cons.mp hfalls
    obtain ⟨hba, hlater'⟩ := List.forall_mem_cons.mp hlater
    rw [insertFalling]
    split
    · rename_i hlt
      refine List.pairwise_cons.mpr ⟨fun c hc => ?_, ?_⟩
      · rcases List.mem_cons.mp ((insertFalling_perm a bs).mem_iff.mp hc) with rfl | hc
        · exact Or.inl hlt
        · exact hb c hc
      · exact falls_insertFalling hswap (fun c hc d hd => htrans c (List.mem_cons_of_mem b hc) d
          (List.mem_cons_of_mem b hd)) hlater' hbs
    · rename_i hge
      have hle : order b a ≠ .gt := by
        rw [hswap b a]
        intro hgt
        exact hge (Ordering.swap_eq_gt.mp hgt)
      refine List.pairwise_cons.mpr ⟨List.forall_mem_cons.mpr ⟨comesBefore_of_ne_gt hle hba,
        fun c hc => ?_⟩, hfalls⟩
      have hcb := (hb c hc).ne_gt
      exact comesBefore_of_ne_gt (htrans c (List.mem_cons_of_mem b hc) b List.mem_cons_self hcb hle)
        (hlater' c hc)

theorem falls_foldl {earlier : α → α → Prop} (hswap : ∀ a b, order a b = (order b a).swap) :
    ∀ {as sorted : List α}, (∀ a ∈ as ++ sorted, ∀ b ∈ as ++ sorted, ∀ c ∈ as ++ sorted,
        order a b ≠ .gt → order b c ≠ .gt → order a c ≠ .gt) →
      as.Pairwise earlier → (∀ b ∈ sorted, ∀ a ∈ as, earlier b a) →
        sorted.Pairwise (fun x y => ComesBefore order earlier y x) →
          (as.foldl (fun sorted a => insertFalling order a sorted) sorted).Pairwise
            fun x y => ComesBefore order earlier y x
  | [], _, _, _, _, hfalls => hfalls
  | a :: as, sorted, htrans, has, hlater, hfalls => by
    obtain ⟨ha, has⟩ := List.pairwise_cons.mp has
    have hmem : ∀ b, b ∈ as ++ insertFalling order a sorted ↔ b ∈ a :: as ++ sorted := fun b => by
      rw [List.mem_append, (insertFalling_perm a sorted).mem_iff, List.cons_append, List.mem_cons,
        List.mem_cons, List.mem_append]
      tauto
    rw [List.foldl_cons]
    refine falls_foldl hswap (by simpa only [hmem] using htrans) has (fun b hb c hc => ?_) ?_
    · rcases List.mem_cons.mp ((insertFalling_perm a sorted).mem_iff.mp hb) with rfl | hb
      · exact ha c hc
      · exact hlater b hb c (List.mem_cons_of_mem a hc)
    · exact falls_insertFalling hswap (fun b hb c hc => htrans b (List.mem_append_right _ hb) c
        (List.mem_append_right _ hc) a List.mem_cons_self) (fun b hb => hlater b hb a List.mem_cons_self)
        hfalls

/-- The smaller elements come first, and of level ones those that were earlier. -/
theorem pairwise_sortBy {earlier : α → α → Prop} (hswap : ∀ a b, order a b = (order b a).swap)
    {as : List α} (htrans : ∀ a ∈ as, ∀ b ∈ as, ∀ c ∈ as,
      order a b ≠ .gt → order b c ≠ .gt → order a c ≠ .gt) (has : as.Pairwise earlier) :
    (sortBy order as).Pairwise (ComesBefore order earlier) := by
  refine List.pairwise_reverse.mpr (falls_foldl hswap ?_ has nofun .nil)
  rwa [List.append_nil]

/-- Where no element comes before another, all stay where they are. -/
theorem sortBy_of_level (h : ∀ a b, order a b ≠ .lt) (as : List α) : sortBy order as = as := by
  have hinsert : ∀ (a : α) (bs : List α), insertFalling order a bs = a :: bs := fun a bs => by
    cases bs with
    | nil => rfl
    | cons b bs => exact if_neg (h a b)
  have hfold : ∀ as sorted : List α,
      as.foldl (fun sorted a => insertFalling order a sorted) sorted = as.reverse ++ sorted := by
    intro as
    induction as with
    | nil => exact fun _ => rfl
    | cons a as ih =>
      intro sorted
      rw [List.foldl_cons, ih, hinsert, List.reverse_cons, List.append_assoc]
      rfl
  rw [sortBy, hfold, List.append_nil, List.reverse_reverse]

/-! ### Elements that are made of others -/

theorem insertFalling_map (f : β → α) (b : β) : ∀ bs : List β, insertFalling order (f b) (bs.map f) =
    (insertFalling (fun x y => order (f x) (f y)) b bs).map f
  | [] => rfl
  | c :: bs => by
    rw [List.map_cons, insertFalling, insertFalling, insertFalling_map f b bs]
    split <;> rfl

/-- To sort what is made of some elements is to sort these by what is made of them. -/
theorem sortBy_map (f : β → α) (bs : List β) :
    sortBy order (bs.map f) = (sortBy (fun x y => order (f x) (f y)) bs).map f := by
  have hfold : ∀ sorted : List β,
      (bs.map f).foldl (fun sorted a => insertFalling order a sorted) (sorted.map f) =
        (bs.foldl (fun sorted b => insertFalling (fun x y => order (f x) (f y)) b sorted) sorted).map f := by
    induction bs with
    | nil => exact fun _ => rfl
    | cons b bs ih =>
      intro sorted
      rw [List.map_cons, List.foldl_cons, List.foldl_cons, insertFalling_map, ih]
  rw [sortBy, sortBy, List.map_reverse, ← hfold []]
  rfl

/-! ### Places -/

/-- A list of all places, each once, is a permutation of them. -/
theorem exists_ofFn_of_perm {n : Nat} {places : List (Fin n)} (h : places.Perm (List.finRange n)) :
    ∃ σ : Equiv.Perm (Fin n), places = List.ofFn σ := by
  have hlength : places.length = n := h.length_eq.trans List.length_finRange
  let σ := List.Nodup.getEquivOfForallMemList places (h.nodup_iff.mpr (List.nodup_finRange n))
    fun i => h.mem_iff.mpr (List.mem_finRange i)
  refine ⟨(finCongr hlength.symm).trans σ, List.ext_getElem ?_ fun i hi _ => ?_⟩
  · rw [List.length_ofFn, hlength]
  · rw [List.getElem_ofFn]
    rfl

/-- Sorting permutes the elements so that the smaller come first, and of level ones those that came
first before. -/
theorem sortBy_ofFn (hswap : ∀ a b, order a b = (order b a).swap) {n : Nat} (a : Fin n → α)
    (htrans : ∀ i j k, order (a i) (a j) ≠ .gt → order (a j) (a k) ≠ .gt → order (a i) (a k) ≠ .gt) :
    ∃ σ : Equiv.Perm (Fin n), sortBy order (List.ofFn a) = List.ofFn (a ∘ σ) ∧ ∀ i j, i < j →
      order (a (σ i)) (a (σ j)) = .lt ∨ (order (a (σ i)) (a (σ j)) = .eq ∧ σ i < σ j) := by
  obtain ⟨σ, hσ⟩ := exists_ofFn_of_perm (sortBy_perm (fun i j => order (a i) (a j)) (List.finRange n))
  have hsorted : (List.ofFn σ).Pairwise (ComesBefore (fun i j => order (a i) (a j)) (· < ·)) := by
    rw [← hσ]
    exact pairwise_sortBy (fun i j => hswap (a i) (a j)) (fun i _ j _ k _ => htrans i j k)
      (List.pairwise_lt_finRange n)
  refine ⟨σ, ?_, List.pairwise_ofFn.mp hsorted⟩
  rw [List.ofFn_eq_map, sortBy_map, hσ, List.map_ofFn]

/-! ### Chains -/

/-- Of three elements in order the first is level with the last only if both are with the one between. -/
theorem chain_of_transitive (hswap : ∀ a b, order a b = (order b a).swap)
    (htrans : ∀ a b c, order a b ≠ .gt → order b c ≠ .gt → order a c ≠ .gt) {a b c : α}
    (hab : order a b ≠ .gt) (hbc : order b c ≠ .gt) : order a c = (order a b).then (order b c) := by
  have hac := htrans a b c hab hbc
  have hback : ∀ {x y}, order x y = .eq → order y x ≠ .gt := fun {x y} h => by simp [hswap y x, h]
  have hturn : ∀ {x y}, order x y = .lt → order y x = .gt := fun {x y} h => by simp [hswap y x, h]
  cases h : order a c with
  | gt => exact absurd h hac
  | eq =>
    -- then the three are level, for `c` is not above `a`
    have hca := hback h
    have hcb := htrans c a b hca hab
    have hba := htrans b c a hbc hca
    cases hab' : order a b with
    | lt => exact absurd (hturn hab') hba
    | gt => exact absurd hab' hab
    | eq =>
      cases hbc' : order b c with
      | lt => exact absurd (hturn hbc') hcb
      | gt => exact absurd hbc' hbc
      | eq => rfl
  | lt =>
    cases hab' : order a b with
    | lt => rfl
    | gt => exact absurd hab' hab
    | eq =>
      cases hbc' : order b c with
      | lt => rfl
      | gt => exact absurd hbc' hbc
      | eq => exact absurd (hturn h) (htrans c b a (hback hbc') (hback hab'))

end SelectLang
