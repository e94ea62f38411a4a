/-
# Sorting what is made of other elements

A sort knows its elements by their comparisons only. So to sort what is made of some elements is to sort these
by the comparisons of what is made of them, and to make it then; and where the one sort gives up so does the
other. In particular a list may be sorted by sorting the places of its elements, which differ, even where the
elements do not.

Key theorems: `sortHalves?_map`, `sortByRuns?_map`, `sortParts?_map`, `stableSort?_map`.
-/
import Mathlib
import SelectLang.Proofs.Sort.Insertion
import SelectLang.Sort.Basic

namespace SelectLang

variable {α β : Type} {f : β → α}

/-! ### Merges -/

theorem mergeSteps_map {before : α → α → Bool} {made : β → β → Bool}
    (hmade : ∀ x y, made x y = before (f x) (f y)) : ∀ (count : Nat) (as bs : List β),
      mergeSteps before count (as.map f) (bs.map f) =
        (mergeSteps made count as bs).map (List.map f) (Prod.map (List.map f) (List.map f))
  | 0, _, _ => rfl
  | _ + 1, [], _ => rfl
  | _ + 1, _ :: _, [] => rfl
  | count + 1, a :: as, b :: bs => by
    have hleft := mergeSteps_map hmade count as (b :: bs)
    have hright := mergeSteps_map hmade count (a :: as) bs
    rw [List.map_cons] at hleft hright
    simp only [List.map_cons, mergeSteps, hleft, hright, hmade]
    split <;> rfl

theorem meetEnds?_map (as bs : List β) (front back : List β × List β × List β) :
    meetEnds? (as.map f) (bs.map f) (front.map (List.map f) (Prod.map (List.map f) (List.map f)))
      (back.map (List.map f) (Prod.map (List.map f) (List.map f))) =
        (meetEnds? as bs front back).map (List.map f) := by
  simp only [meetEnds?, Prod.map, List.length_map]
  split
  · simp only [List.length_map]
    split <;> simp
  · split <;>
    · simp only [← List.map_drop, ← List.map_take, List.length_map]
      split <;> simp

variable {order : α → α → Ordering} {made : β → β → Ordering} (hmade : ∀ x y, made x y = order (f x) (f y))
include hmade

theorem staysBefore_map (x y : β) : staysBefore made x y = staysBefore order (f x) (f y) := by
  rw [staysBefore, staysBefore, hmade]

theorem mergeRuns_map (as bs : List β) :
    mergeRuns order (as.map f) (bs.map f) = (mergeRuns made as bs).map f := by
  have hup : mergeUp order (as.map f) (bs.map f) = (mergeUp made as bs).map f :=
    (List.map_merge fun x _ y _ => staysBefore_map hmade x y).symm
  have hdown : mergeDown order (as.map f) (bs.map f) = (mergeDown made as bs).map f := by
    have hmerge : ∀ xs ys : List β, (xs.merge ys fun b a => staysBefore made a b).map f =
        (xs.map f).merge (ys.map f) fun b a => staysBefore order a b :=
      fun _ _ => List.map_merge fun x _ y _ => staysBefore_map hmade y x
    rw [mergeDown, mergeDown, List.map_reverse, hmerge, List.map_reverse, List.map_reverse]
  rw [mergeRuns, mergeRuns, List.length_map, List.length_map, hup, hdown]
  split <;> rfl

theorem mergeEnds?_map (as bs : List β) :
    mergeEnds? order (as.map f) (bs.map f) = (mergeEnds? made as bs).map (List.map f) := by
  have hfront := mergeSteps_map (staysBefore_map hmade)
  have hback : ∀ (count : Nat) (as bs : List β),
      mergeSteps (fun b a => staysBefore order a b) count (as.map f) (bs.map f) =
        (mergeSteps (fun b a => staysBefore made a b) count as bs).map (List.map f)
          (Prod.map (List.map f) (List.map f)) :=
    mergeSteps_map fun x y => staysBefore_map hmade y x
  simp only [mergeEnds?, List.length_map, ← List.map_reverse, hfront, hback, meetEnds?_map]

/-! ### Short lists -/

theorem sortBy_made (bs : List β) : sortBy order (bs.map f) = (sortBy made bs).map f := by
  obtain rfl : made = fun x y => order (f x) (f y) := funext fun x => funext fun y => hmade x y
  exact sortBy_map f bs

theorem foldl_insertFalling_map (bs : List β) : ∀ sorted : List β,
    (bs.map f).foldl (fun sorted a => insertFalling order a sorted) (sorted.map f) =
      (bs.foldl (fun sorted b => insertFalling made b sorted) sorted).map f := by
  obtain rfl : made = fun x y => order (f x) (f y) := funext fun x => funext fun y => hmade x y
  induction bs with
  | nil => exact fun _ => rfl
  | cons b bs ih =>
    intro sorted
    rw [List.map_cons, List.foldl_cons, List.foldl_cons, insertFalling_map, ih]

theorem sortTwo_map (a b : β) :
    sortTwo order (f a) (f b) = (f (sortTwo made a b).1, f (sortTwo made a b).2) := by
  rw [sortTwo, sortTwo, hmade]
  split <;> rfl

theorem sortFour_map (a b c d : β) :
    sortFour order (f a) (f b) (f c) (f d) = (sortFour made a b c d).map f := by
  simp only [sortFour, sortTwo_map hmade]
  simp only [← hmade]
  split <;> split <;> simp only [sortTwo_map hmade, List.map_cons, List.map_nil]

theorem sortHalf_map (long : Bool) (as : List β) :
    sortHalf order long (as.map f) = (sortHalf made long as).map f := by
  match as with
  | [] => exact sortBy_made hmade []
  | [a] => exact sortBy_made hmade [a]
  | [a, b] => exact sortBy_made hmade [a, b]
  | [a, b, c] => exact sortBy_made hmade [a, b, c]
  | a :: b :: c :: d :: rest =>
    simp only [List.map_cons, sortHalf]
    split
    · rw [sortFour_map hmade, ← List.map_reverse, foldl_insertFalling_map hmade, List.map_reverse]
    · exact sortBy_made hmade (a :: b :: c :: d :: rest)

variable (f order) in
theorem sortHalves?_map (as : List β) :
    sortHalves? order (as.map f) = (sortHalves? made as).map (List.map f) := by
  rw [sortHalves?, sortHalves?, List.length_map, ← List.map_take, ← List.map_drop, sortHalf_map hmade,
    sortHalf_map hmade, mergeEnds?_map hmade]

/-! ### Runs -/

omit hmade in
theorem runLength_map {goesOn : α → α → Bool} {made : β → β → Bool}
    (hmade : ∀ x y, made x y = goesOn (f x) (f y)) : ∀ as : List β,
      runLength goesOn (as.map f) = runLength made as
  | [] => rfl
  | [_] => rfl
  | a :: b :: rest => by
    have ih := runLength_map hmade (b :: rest)
    rw [List.map_cons] at ih
    rw [List.map_cons, List.map_cons, runLength, runLength, ih, hmade]

theorem falls_map (as : List β) : falls order (as.map f) = falls made as := by
  match as with
  | [] | [_] => rfl
  | a :: b :: _ => simp only [List.map_cons, falls, hmade]

theorem naturalLength_map (as : List β) : naturalLength order (as.map f) = naturalLength made as := by
  rw [naturalLength, naturalLength, falls_map hmade]
  exact runLength_map (fun x y => by rw [hmade]) as

/-- The run of what is made of the elements. -/
def Run.map {α β : Type} (f : β → α) (run : Run β) : Run α := ⟨run.items.map f, run.sorted⟩

theorem nextRun?_map (eager : Bool) (good : Nat) (as : List β) :
    nextRun? order eager good (as.map f) = (nextRun? made eager good as).map (Run.map f) := by
  simp only [nextRun?, naturalLength_map hmade, falls_map hmade, ← List.map_take, sortHalves?_map f order hmade,
    Option.map_map]
  split
  · split <;> simp [Run.map]
  · split
    · rw [Option.map_map]
      rfl
    · rfl

theorem runs?_map (eager : Bool) (good : Nat) (as : List β) :
    runs? order eager good (as.map f) = (runs? made eager good as).map (List.map (Run.map f)) := by
  induction as using runs?.induct made eager good with
  | case1 =>
    rw [List.map_nil, runs?, runs?]
    rfl
  | case2 a rest hnone =>
    have hnext := nextRun?_map hmade eager good (a :: rest)
    rw [List.map_cons, hnone] at hnext
    rw [List.map_cons, runs?, runs?, hnone, hnext]
    rfl
  | case3 a rest run hrun ih =>
    have hnext := nextRun?_map hmade eager good (a :: rest)
    rw [List.map_cons, hrun] at hnext
    have hlength : (run.map f).items.length = run.items.length := List.length_map _
    rw [List.map_cons, runs?, runs?, hrun, hnext]
    simp only [Option.map_some, hlength, ← List.map_drop, ih, Option.map_map]
    rfl

/-! ### Joining -/

section

variable {finish : List α → Option (List α)} {made? : List β → Option (List β)} {room : Nat}
  (hfinish : ∀ as, finish (as.map f) = (made? as).map (List.map f))
include hfinish

omit hmade in
theorem settle?_map (run : Run β) : (run.map f).settle? finish = (run.settle? made?).map (List.map f) := by
  rw [Run.settle?, Run.settle?, Run.map, hfinish]
  split <;> rfl

theorem joinRuns?_map (left right : Run β) : joinRuns? order finish room (left.map f) (right.map f) =
    (joinRuns? made made? room left right).map (Run.map f) := by
  rw [joinRuns?, joinRuns?, settle?_map hfinish, settle?_map hfinish]
  simp only [Run.map, List.length_map]
  split
  · simp [Run.map]
  · cases left.settle? made? with
    | none => rfl
    | some as =>
      cases right.settle? made? with
      | none => rfl
      | some bs => simp only [Option.map_some, mergeRuns_map hmade, Run.map]

theorem joinBack?_map (depth : Nat) : ∀ (stack : List (Run β × Nat)) (run : Run β),
    joinBack? order finish room depth (stack.map (Prod.map (Run.map f) id)) (run.map f) =
      (joinBack? made made? room depth stack run).map
        (Prod.map (List.map (Prod.map (Run.map f) id)) (Run.map f))
  | [], _ => rfl
  | (left, seam) :: stack, run => by
    simp only [List.map_cons, Prod.map, joinBack?, joinRuns?_map hmade hfinish, id]
    split
    · cases joinRuns? made made? room left run with
      | none => rfl
      | some both => exact joinBack?_map depth stack both
    · rfl

theorem joinAll?_map (n : Nat) : ∀ (runs : List (Run β)) (stack : List (Run β × Nat)) (run : Run β)
    (scanned : Nat), joinAll? order finish room n (stack.map (Prod.map (Run.map f) id)) (run.map f) scanned
      (runs.map (Run.map f)) = (joinAll? made made? room n stack run scanned runs).map (Run.map f)
  | [], stack, run, _ => by
    rw [List.map_nil, joinAll?, joinAll?, joinBack?_map hmade hfinish, Option.map_map, Option.map_map]
    rfl
  | next :: runs, stack, run, scanned => by
    have hlength : ∀ run : Run β, (run.map f).items.length = run.items.length := fun _ => List.length_map _
    simp only [List.map_cons, joinAll?, joinBack?_map hmade hfinish, hlength]
    cases joinBack? made made? room _ stack run with
    | none => rfl
    | some rest => exact joinAll?_map n runs ((rest.2, _) :: rest.1) next _

theorem sortByRuns?_map (eager : Bool) (as : List β) : sortByRuns? order finish room eager (as.map f) =
    (sortByRuns? made made? room eager as).map (List.map f) := by
  rw [sortByRuns?, sortByRuns?, List.length_map, runs?_map hmade]
  cases runs? made eager (goodLength as.length) as with
  | none => rfl
  | some runs =>
    cases runs with
    | nil => rfl
    | cons run runs =>
      have hjoined : joinAll? order finish room as.length [] (run.map f) run.items.length
          (runs.map (Run.map f)) = _ := joinAll?_map hmade hfinish as.length runs [] run run.items.length
      have hlength : (run.map f).items.length = run.items.length := List.length_map _
      simp only [Option.map_some, List.map_cons, hlength, hjoined]
      cases joinAll? made made? room as.length [] run run.items.length runs with
      | none => rfl
      | some whole => exact settle?_map hfinish whole

end

/-! ### Parts -/

theorem isBefore_map (as : List β) : isBefore order (as.map f) = isBefore made as := by
  funext i j
  rw [isBefore, isBefore, List.getElem?_map, List.getElem?_map]
  cases as[i]? with
  | none => rfl
  | some a =>
    cases as[j]? with
    | none => rfl
    | some b => simp only [Option.map_some, hmade]

theorem pivot?_map (as : List β) : pivot? order (as.map f) = (pivot? made as).map f := by
  simp only [pivot?, List.length_map, isBefore_map hmade, List.getElem?_map]

theorem sortParts?_map (limit : Nat) (floor : Option β) (as : List β) :
    sortParts? order limit (floor.map f) (as.map f) = (sortParts? made limit floor as).map (List.map f) := by
  induction limit generalizing floor as with
  | zero =>
    rw [sortParts?.eq_def, sortParts?.eq_def made]
    simp only [List.length_map, sortHalves?_map f order hmade]
    split
    · rfl
    · exact sortByRuns?_map hmade (fun _ => rfl) true as
  | succ limit ih =>
    rw [sortParts?.eq_def, sortParts?.eq_def made]
    simp only [List.length_map, sortHalves?_map f order hmade, pivot?_map hmade]
    split
    · rfl
    · cases pivot? made as with
      | none => exact sortByRuns?_map hmade (fun _ => rfl) true as
      | some pivot =>
        have hfloor : (floor.map f).any (order · (f pivot) != .lt) = floor.any (made · pivot != .lt) := by
          cases floor with
          | none => rfl
          | some floor => simp only [Option.map_some, Option.any_some, hmade]
        have hhigh := ih (some pivot)
        have hrest := ih none
        simp only [Option.map_some, Option.map_none] at hhigh hrest
        simp only [Option.map_some, List.filter_map, Function.comp_def, ← hmade, hfloor, List.isEmpty_map, hhigh,
          hrest, ih]
        split
        · cases sortParts? made limit none (as.filter (made pivot · == .lt)) with
          | none => rfl
          | some high => simp
        · cases sortParts? made limit floor (as.filter (made · pivot == .lt)) with
          | none => rfl
          | some low =>
            cases sortParts? made limit (some pivot) (as.filter (made · pivot != .lt)) with
            | none => rfl
            | some high => simp

variable (f order) in
/-- To sort what is made of some elements is to sort these by what is made of them. -/
theorem stableSort?_map (as : List β) :
    stableSort? order (as.map f) = (stableSort? made as).map (List.map f) := by
  rw [stableSort?, stableSort?, List.length_map]
  split
  · exact congrArg some (sortBy_made hmade as)
  · refine sortByRuns?_map hmade (fun more => ?_) _ as
    rw [sortStretch?, sortStretch?, List.length_map]
    exact sortParts?_map hmade _ none more

end SelectLang
