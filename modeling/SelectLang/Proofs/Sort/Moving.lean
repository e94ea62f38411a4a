/-
# Sorting only moves elements

Whatever the order, the elements that a sort returns are those that it was given. It is so even where the
order is not transitive: merging from both ends may then take an element twice and another not at all, but
whether it has is counted, and the merge gives up if so. What is left of the two lists at one end has to be
what was taken of them at the other.

Key theorems: `mergeEnds?_perm`, `sortHalves?_perm`, `stableSort?_perm`.
-/
import Mathlib
import SelectLang.Proofs.Sort.Insertion
import SelectLang.Proofs.Sort.Runs
import SelectLang.Sort.Basic

namespace SelectLang

variable {α : Type} {order : α → α → Ordering}

/-! ### Merges -/

theorem mergeUp_perm (order : α → α → Ordering) (as bs : List α) : (mergeUp order as bs).Perm (as ++ bs) :=
  List.merge_perm_append _

theorem mergeDown_perm (order : α → α → Ordering) (as bs : List α) :
    (mergeDown order as bs).Perm (as ++ bs) := by
  rw [mergeDown]
  refine (List.reverse_perm _).trans ((List.merge_perm_append _).trans ?_)
  rw [← List.reverse_append]
  exact List.reverse_perm _

theorem mergeRuns_perm (order : α → α → Ordering) (as bs : List α) :
    (mergeRuns order as bs).Perm (as ++ bs) := by
  rw [mergeRuns]
  split
  · exact mergeUp_perm order as bs
  · exact mergeDown_perm order as bs

/-- What is taken of two lists is a front of each. -/
theorem exists_fronts_of_mergeSteps (before : α → α → Bool) (count : Nat) (as bs : List α) :
    ∃ frontAs frontBs, as = frontAs ++ (mergeSteps before count as bs).2.1 ∧
      bs = frontBs ++ (mergeSteps before count as bs).2.2 ∧
        (mergeSteps before count as bs).1.Perm (frontAs ++ frontBs) := by
  fun_induction mergeSteps before count as bs with
  | case1 count a as b bs hstays taken restAs restBs hsteps ih =>
    rw [hsteps] at ih
    obtain ⟨frontAs, frontBs, rfl, hbs, hperm⟩ := ih
    exact ⟨a :: frontAs, frontBs, rfl, hbs, hperm.cons a⟩
  | case2 count a as b bs hgoes taken restAs restBs hsteps ih =>
    rw [hsteps] at ih
    obtain ⟨frontAs, frontBs, has, rfl, hperm⟩ := ih
    exact ⟨frontAs, b :: frontBs, has, rfl, (hperm.cons b).trans List.perm_middle.symm⟩
  | case3 => exact ⟨[], [], rfl, rfl, .nil⟩

/-- What is left of a list at its front is what was taken from its back, if the numbers say so. -/
theorem eq_reverse_of_ends {as front rest back others : List α} (hfront : as = front ++ rest)
    (hback : as.reverse = back ++ others) (hlength : rest.length + others.length = as.length) :
    rest = back.reverse := by
  have hturned : as = others.reverse ++ back.reverse := by
    rw [← List.reverse_append, ← hback, List.reverse_reverse]
  rw [hfront] at hturned hlength
  refine (List.append_inj hturned ?_).2
  rw [List.length_append] at hlength
  rw [List.length_reverse]
  omega

/-- A middle place is for a front element of one of the lists. -/
theorem exists_fronts_of_middle {odd left : Prop} [Decidable odd] [Decidable left]
    {as bs middle restAs restBs : List α}
    (h : (if odd then ([], as, bs) else if left then (as.take 1, as.drop 1, bs)
      else (bs.take 1, as, bs.drop 1)) = (middle, restAs, restBs)) :
    ∃ frontAs frontBs, as = frontAs ++ restAs ∧ bs = frontBs ++ restBs ∧ middle = frontAs ++ frontBs := by
  split at h
  · cases h
    exact ⟨[], [], rfl, rfl, rfl⟩
  · split at h
    · cases h
      exact ⟨_, [], (List.take_append_drop 1 as).symm, rfl, (List.append_nil _).symm⟩
    · cases h
      exact ⟨[], _, rfl, (List.take_append_drop 1 bs).symm, rfl⟩

/-- What is put together are all elements of the two lists. -/
theorem meetEnds?_perm {as bs cs : List α} {front back : List α × List α × List α}
    (hfront : ∃ frontAs frontBs, as = frontAs ++ front.2.1 ∧ bs = frontBs ++ front.2.2 ∧
      front.1.Perm (frontAs ++ frontBs))
    (hback : ∃ backBs backAs, bs.reverse = backBs ++ back.2.1 ∧ as.reverse = backAs ++ back.2.2 ∧
      back.1.Perm (backBs ++ backAs)) (h : meetEnds? as bs front back = some cs) : cs.Perm (as ++ bs) := by
  obtain ⟨frontAs, frontBs, has, hbs, hpermFront⟩ := hfront
  obtain ⟨backBs, backAs, hturnedBs, hturnedAs, hpermBack⟩ := hback
  simp only [meetEnds?] at h
  generalize hmiddle : (if (as.length + bs.length) % 2 = 0 then _ else _) = middle at h
  obtain ⟨middle, lastAs, lastBs⟩ := middle
  simp only at h
  obtain ⟨⟨hlengthAs, hlengthBs⟩, hcs⟩ := Option.ite_none_right_eq_some.mp h
  obtain rfl := Option.some.inj hcs
  obtain ⟨midAs, midBs, hrestAs, hrestBs, rfl⟩ := exists_fronts_of_middle hmiddle
  rw [hrestAs, ← List.append_assoc] at has
  rw [hrestBs, ← List.append_assoc] at hbs
  -- what neither the front nor the middle has taken is what the back has
  have hlasts : back.1.reverse.Perm (lastAs ++ lastBs) := by
    rw [eq_reverse_of_ends has hturnedAs hlengthAs, eq_reverse_of_ends hbs hturnedBs hlengthBs,
      ← List.reverse_append]
    exact (List.reverse_perm _).trans (hpermBack.trans (List.reverse_perm _).symm)
  classical
  refine ((hpermFront.append_right (midAs ++ midBs)).append hlasts).trans ?_
  rw [has, hbs, List.perm_iff_count]
  intro a
  simp only [List.count_append]
  omega

/-- Merging from both ends gives all elements of the two lists, or gives up. -/
theorem mergeEnds?_perm {as bs cs : List α} (h : mergeEnds? order as bs = some cs) : cs.Perm (as ++ bs) :=
  meetEnds?_perm (exists_fronts_of_mergeSteps _ _ _ _) (exists_fronts_of_mergeSteps _ _ _ _) h

/-! ### Short lists -/

theorem sortTwo_cases (order : α → α → Ordering) (a b : α) :
    (order b a = .lt ∧ sortTwo order a b = (b, a)) ∨ (order b a ≠ .lt ∧ sortTwo order a b = (a, b)) := by
  rw [sortTwo]
  split
  · exact .inl ⟨‹_›, rfl⟩
  · exact .inr ⟨‹_›, rfl⟩

theorem sortTwo_perm (order : α → α → Ordering) (a b : α) (rest : List α) :
    ((sortTwo order a b).1 :: (sortTwo order a b).2 :: rest).Perm (a :: b :: rest) := by
  rcases sortTwo_cases order a b with ⟨-, h⟩ | ⟨-, h⟩
  · rw [h]
    exact .swap a b rest
  · rw [h]

theorem sortFour_perm (a b c d : α) : (sortFour order a b c d).Perm [a, b, c, d] := by
  classical
  have hfirst := sortTwo_perm order a b [c, d]
  have hsecond := sortTwo_perm order c d []
  simp only [sortFour]
  generalize sortTwo order a b = first at hfirst ⊢
  generalize sortTwo order c d = second at hsecond ⊢
  refine List.Perm.trans ?_ (((hsecond.cons first.2).cons first.1).trans hfirst)
  -- whichever are the two that are left, the four are there
  split <;> split <;>
  · refine ((sortTwo_perm _ _ _ _).cons _).trans (List.perm_iff_count.mpr fun e => ?_)
    simp only [List.count_cons, Nat.add_comm, Nat.add_left_comm]

theorem sortHalf_perm (order : α → α → Ordering) (long : Bool) : ∀ as : List α,
    (sortHalf order long as).Perm as
  | [] => sortBy_perm order _
  | [_] => sortBy_perm order _
  | [_, _] => sortBy_perm order _
  | [_, _, _] => sortBy_perm order _
  | a :: b :: c :: d :: rest => by
    rw [sortHalf]
    split
    · refine (List.reverse_perm _).trans ((foldl_insertFalling_perm rest _).trans ?_)
      exact List.perm_append_comm.trans
        (((List.reverse_perm _).trans (sortFour_perm a b c d)).append_right rest)
    · exact sortBy_perm order _

theorem sortHalves?_perm {as bs : List α} (h : sortHalves? order as = some bs) : bs.Perm as := by
  refine (mergeEnds?_perm h).trans ?_
  exact ((sortHalf_perm _ _ _).append (sortHalf_perm _ _ _)).trans (.of_eq (List.take_append_drop _ as))

/-! ### Long lists -/

/-- A sort by runs gives all elements, if what finishes it does. -/
theorem keptByRuns_perm {finish : List α → Option (List α)} {eager : Bool}
    (hfinish : eager = false → ∀ as bs, finish as = some bs → bs.Perm as) :
    KeptByRuns (fun as bs : List α => bs.Perm as) eager order finish where
  nil := .nil
  ascending _ _ := .refl _
  falling _ _ := List.reverse_perm _
  halves _ _ h := ⟨(sortHalves?_perm h).length_eq, sortHalves?_perm h⟩
  finished := hfinish
  merged _ _ _ _ h hmore := (mergeRuns_perm _ _ _).trans (h.append hmore)

theorem keptByRuns_some : KeptByRuns (fun as bs : List α => bs.Perm as) true order some :=
  keptByRuns_perm nofun

/-- A list is sorted by its halves, by its runs or by its parts: by the elements before a pivot and the
others, or by those that are no more than the pivot and the others. -/
theorem sortParts?_cases {limit : Nat} {floor : Option α} {as bs : List α}
    (h : sortParts? order limit floor as = some bs) :
    sortHalves? order as = some bs ∨ sortByRuns? order some 0 true as = some bs ∨
      ∃ below pivot, limit = below + 1 ∧
        ((((as.filter (order · pivot == .lt)).isEmpty || floor.any (order · pivot != .lt)) ∧
          ∃ high, sortParts? order below none (as.filter (order pivot · == .lt)) = some high ∧
            bs = as.filter (order pivot · != .lt) ++ high) ∨
        ∃ low high, sortParts? order below floor (as.filter (order · pivot == .lt)) = some low ∧
          sortParts? order below (some pivot) (as.filter (order · pivot != .lt)) = some high ∧
            bs = low ++ high) := by
  rw [sortParts?.eq_def] at h
  dsimp only at h
  split at h
  · exact .inl h
  · split at h
    · rename_i below pivot hpivot
      refine .inr (.inr ⟨below, pivot, rfl, ?_⟩)
      split at h
      · rename_i hlevel
        obtain ⟨high, hhigh, rfl⟩ := Option.map_eq_some_iff.mp h
        exact .inl ⟨hlevel, high, hhigh, rfl⟩
      · split at h
        · rename_i low high hlow hhigh
          cases h
          exact .inr ⟨low, high, hlow, hhigh, rfl⟩
        · cases h
    · exact .inr (.inl h)

theorem filter_append_perm_of_ne (p : α → Ordering) (as : List α) :
    (as.filter (p · == .lt) ++ as.filter (p · != .lt)).Perm as :=
  List.filter_append_perm (p · == .lt) as

theorem sortParts?_perm {limit : Nat} {floor : Option α} {as bs : List α}
    (h : sortParts? order limit floor as = some bs) : bs.Perm as := by
  induction limit using Nat.strong_induction_on generalizing floor as bs with
  | _ limit ih =>
    rcases sortParts?_cases h with h | h |
      ⟨below, pivot, rfl, ⟨-, high, hhigh, rfl⟩ | ⟨low, high, hlow, hhigh, rfl⟩⟩
    · exact sortHalves?_perm h
    · exact keptByRuns_some.sortByRuns? h
    · exact ((ih below below.lt_succ_self hhigh).append_left _).trans
        (List.perm_append_comm.trans (filter_append_perm_of_ne (order pivot) as))
    · exact ((ih below below.lt_succ_self hlow).append (ih below below.lt_succ_self hhigh)).trans
        (filter_append_perm_of_ne (order · pivot) as)

/-- The sort returns the elements that it was given, if it returns. -/
theorem stableSort?_perm {as bs : List α} (h : stableSort? order as = some bs) : bs.Perm as := by
  rw [stableSort?] at h
  split at h
  · cases h
    exact sortBy_perm order as
  · exact (keptByRuns_perm fun _ _ _ => sortParts?_perm).sortByRuns? h

/-- Up to twenty elements are sorted whatever the order. -/
theorem stableSort?_of_length_le {as : List α} (h : as.length ≤ 20) :
    stableSort? order as = some (sortBy order as) := if_pos h

end SelectLang
