/-
# Sorting

The stable sort. Up to twenty elements are inserted one after the other. More are sorted by runs, and
the stretches of a long list that are not in order are parted by a pivot, the lower elements from the
others, until they are short. Where the pivots part badly too often, such a stretch is sorted by runs
in its turn.

The sort promises something for a transitive order only: the elements come out in ascending order,
and those that are level as they were given. For another order, which of the elements comes first is
left to the way the sort goes about it, and among more than twenty elements it may find that the
order contradicts itself and give up.

Key definitions: `sortParts?`, `stableSort?`.
-/
import SelectLang.Sort.Runs

namespace SelectLang

variable {α : Type} (order : α → α → Ordering)

/-! ### Pivots -/

/-- The one of three places whose element is between those of the others. -/
def median (before : Nat → Nat → Bool) (a b c : Nat) : Nat :=
  if before a b == before a c then
    if before b c == before a b then b else c
  else a

/-- The median of the medians around three places, each with `n` places behind it. -/
def spreadMedian (before : Nat → Nat → Bool) (n a b c : Nat) : Nat :=
  if 8 ≤ n then
    let part := n / 8
    let around := fun place => spreadMedian before part place (place + part * 4) (place + part * 7)
    median before (around a) (around b) (around c)
  else median before a b c
termination_by n
decreasing_by all_goals omega

/-- The element at the one place of a list comes before that at the other. -/
def isBefore (as : List α) (i j : Nat) : Bool :=
  match as[i]?, as[j]? with
  | some a, some b => order a b == .lt
  | _, _ => false

/-- The element that parts a list. -/
def pivot? (as : List α) : Option α :=
  let part := as.length / 8
  as[spreadMedian (isBefore order as) part 0 (part * 4) (part * 7)]?

/-! ### Parts -/

/-- Sorts a list by parts, where `limit` pivots may be used one below the other. If there is a
`floor`, no element comes before it, so with a pivot that is level with it the elements up to the
pivot are level. -/
def sortParts? : Nat → Option α → List α → Option (List α)
  | limit, floor, as =>
    if as.length ≤ 32 then sortHalves? order as
    else
      match limit, pivot? order as with
      | limit + 1, some pivot =>
        let lower := as.filter (order · pivot == .lt)
        if lower.isEmpty || floor.any (order · pivot != .lt) then
          (sortParts? limit none (as.filter (order pivot · == .lt))).map
            (as.filter (order pivot · != .lt) ++ ·)
        else
          match sortParts? limit floor lower,
            sortParts? limit (some pivot) (as.filter (order · pivot != .lt)) with
          | some low, some high => some (low ++ high)
          | _, _ => none
      | _, _ => sortByRuns? order some 0 true as

/-- Sorts a stretch of a list by parts, with twice as many pivots as halvings would take. -/
def sortStretch? (as : List α) : Option (List α) := sortParts? order (2 * as.length.log2) none as

/-- How many of `n` elements there is room for to be sorted at once. -/
def sortingRoom (n : Nat) : Nat := max (n - n / 2) (min n 166666)

/-- The elements in a stable ascending order, if the sort does not give up. -/
def stableSort? (as : List α) : Option (List α) :=
  if as.length ≤ 20 then some (sortBy order as)
  else
    sortByRuns? order (sortStretch? order) (sortingRoom as.length) (decide (as.length ≤ 64)) as

end SelectLang
