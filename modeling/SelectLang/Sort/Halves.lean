/-
# Sorting by halves

A short list is cut into halves, each of them is sorted by insertion, and the two are merged from
both ends at once, the lower half of the places from the front and the upper half from the back. In
a half of four or more elements the first four are put in order by five comparisons.

The two directions of the merge have to meet: what is taken from the front of a half and what is
taken from its back make up the half. If the order is transitive they do. If it is not, an element
may be taken twice and another not at all, and the merge gives up.

Key definitions: `mergeUp`, `mergeDown`, `mergeEnds?`, `sortHalves?`.
-/
import SelectLang.Sort.Insertion

namespace SelectLang

variable {α : Type} (order : α → α → Ordering)

/-! ### Merging -/

/-- An element of the left list may stay before one of the right list. -/
def staysBefore (a b : α) : Bool := order b a != .lt

/-- Merges from the front. -/
def mergeUp (as bs : List α) : List α := as.merge bs (staysBefore order)

/-- Merges from the back. -/
def mergeDown (as bs : List α) : List α :=
  (bs.reverse.merge as.reverse fun b a => staysBefore order a b).reverse

/-- Takes a number of elements from the fronts of two lists, and tells what is left of the lists. -/
def mergeSteps (before : α → α → Bool) : Nat → List α → List α → List α × List α × List α
  | count + 1, a :: as, b :: bs =>
    if before a b then
      let (taken, as, bs) := mergeSteps before count as (b :: bs)
      (a :: taken, as, bs)
    else
      let (taken, as, bs) := mergeSteps before count (a :: as) bs
      (b :: taken, as, bs)
  | _, as, bs => ([], as, bs)

/-- Puts together what was taken of two lists from the front and from the back, with what was left at
either end. The place in the middle of an odd number is for the element that neither has taken. -/
def meetEnds? (as bs : List α) : List α × List α × List α → List α × List α × List α → Option (List α)
  | (front, restAs, restBs), (back, othersBs, othersAs) =>
    let (middle, restAs, restBs) :=
      if (as.length + bs.length) % 2 = 0 then ([], restAs, restBs)
      else if as.length < restAs.length + othersAs.length then (restAs.take 1, restAs.drop 1, restBs)
      else (restBs.take 1, restAs, restBs.drop 1)
    if restAs.length + othersAs.length = as.length ∧ restBs.length + othersBs.length = bs.length then
      some (front ++ middle ++ back.reverse)
    else none

/-- Merges from the front and from the back, half of the places each. -/
def mergeEnds? (as bs : List α) : Option (List α) :=
  let half := (as.length + bs.length) / 2
  meetEnds? as bs (mergeSteps (staysBefore order) half as bs)
    (mergeSteps (fun b a => staysBefore order a b) half bs.reverse as.reverse)

/-! ### Halves -/

/-- Two elements in ascending order. -/
def sortTwo (a b : α) : α × α := if order b a = .lt then (b, a) else (a, b)

/-- Four elements in ascending order. The lesser of two pairs' lesser elements is the least of all,
the greater of the greater ones is the greatest, and the two that are left are compared at last. -/
def sortFour (a b c d : α) : List α :=
  let (a, b) := sortTwo order a b
  let (c, d) := sortTwo order c d
  let (least, left, right, greatest) :=
    if order c a = .lt then
      if order d b = .lt then (c, a, d, b) else (c, a, b, d)
    else
      if order d b = .lt then (a, c, d, b) else (a, b, c, d)
  let (left, right) := sortTwo order left right
  [least, left, right, greatest]

/-- Sorts a half of a list, which is a long one or not. -/
def sortHalf (long : Bool) : List α → List α
  | a :: b :: c :: d :: rest =>
    if long then
      (rest.foldl (fun sorted e => insertFalling order e sorted)
        (sortFour order a b c d).reverse).reverse
    else sortBy order (a :: b :: c :: d :: rest)
  | as => sortBy order as

/-- Sorts a short list by its halves. -/
def sortHalves? (as : List α) : Option (List α) :=
  let half := as.length / 2
  let long := decide (8 ≤ as.length)
  mergeEnds? order (sortHalf order long (as.take half)) (sortHalf order long (as.drop half))

end SelectLang
