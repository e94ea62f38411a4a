/-
# Insertion

Insertion from the left: each element moves to the front past those that it comes before, and stops
at the first that it does not. Elements that are level keep the order in which they were given.
Whatever the order, the insertion comes to an end with all elements.

Key definitions: `sortBy`.
-/

namespace SelectLang

variable {α : Type}

/-- Puts `a` behind the last element that it does not come before; the list is in falling order. -/
def insertFalling (order : α → α → Ordering) (a : α) : List α → List α
  | [] => [a]
  | b :: bs => if order a b = .lt then b :: insertFalling order a bs else a :: b :: bs

/-- The elements in ascending order. -/
def sortBy (order : α → α → Ordering) (as : List α) : List α :=
  (as.foldl (fun sorted a => insertFalling order a sorted) []).reverse

end SelectLang
