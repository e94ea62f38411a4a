/-
# A descending ordering is an ascending one turned round

Every value is level with itself, whatever floats it holds, and to exchange two values reverses their order. So
a descending key, which compares two values in exchanged places, reverses the ascending key exactly, level values
included; and keys that are all turned round reverse the comparison of rows.

Key definitions: `SortKey.opposite`.
Key theorems: `Value.order_self`, `Plan.keyOrder_opposite`, `order_reverses`.
-/
import Mathlib
import SelectLang.Proofs.Plan.Ordering

namespace SelectLang

/-- Also an undefined number is level with itself: the order of floats goes by their bits. -/
theorem Value.order_self (a : Value) : a.order a = .eq := by
  rw [order_eq]
  exact Std.ReflCmp.compare_self

/-! ### Directions -/

/-- The other direction. -/
def Direction.opposite : Direction → Direction
  | ascending => descending
  | descending => ascending

theorem Direction.turn_opposite (direction : Direction) (o : Ordering) :
    direction.opposite.turn o = (direction.turn o).swap := by
  cases direction
  · rfl
  · exact Ordering.swap_swap.symm

/-- The key that reads the same in the other direction. -/
def SortKey.opposite (key : SortKey) : SortKey := { key with direction := key.direction.opposite }

namespace Plan

/-- The first key decides unless the values that it reads are level, and its direction turns what it finds. -/
theorem keyOrder_cons (key : SortKey) (keys : List SortKey) (a b : Value) (as bs : List Value) :
    keyOrder (key :: keys) (a :: as) (b :: bs) =
      (key.direction.turn (a.order b)).then (keyOrder keys as bs) := by
  rw [keyOrder]
  cases key.direction with
  | ascending => rfl
  | descending => rw [Direction.turn, ← Value.order_swap]

/-- The keys in front decide first. -/
theorem keyOrder_append : ∀ {front : List SortKey} {as bs : List Value} (back : List SortKey)
    (as' bs' : List Value), as.length = front.length → bs.length = front.length →
      keyOrder (front ++ back) (as ++ as') (bs ++ bs') =
        (keyOrder front as bs).then (keyOrder back as' bs')
  | [], [], [], _, _, _, _, _ => rfl
  | key :: front, a :: as, b :: bs, back, as', bs', has, hbs => by
    rw [List.cons_append, List.cons_append, List.cons_append, keyOrder_cons, keyOrder_cons,
      keyOrder_append back as' bs' (Nat.succ.inj has) (Nat.succ.inj hbs), Ordering.then_assoc]

/-- A key counts the other way in the other direction, wherever it stands. -/
theorem keyOrder_opposite_at (key : SortKey) {front : List SortKey} (back : List SortKey) (a b : Value)
    {as bs : List Value} (as' bs' : List Value) (has : as.length = front.length)
    (hbs : bs.length = front.length) :
    keyOrder (front ++ key.opposite :: back) (as ++ a :: as') (bs ++ b :: bs') =
      (keyOrder front as bs).then ((keyOrder [key] [a] [b]).swap.then (keyOrder back as' bs')) := by
  have hnil : keyOrder [] [] [] = .eq := rfl
  rw [keyOrder_append _ _ _ has hbs, keyOrder_cons, keyOrder_cons, SortKey.opposite,
    Direction.turn_opposite, hnil, Ordering.then_eq]

theorem keyOrder_opposite : ∀ (keys : List SortKey) (as bs : List Value),
    keyOrder (keys.map SortKey.opposite) as bs = (keyOrder keys as bs).swap
  | [], _, _ => rfl
  | _ :: _, [], _ => rfl
  | _ :: _, _ :: _, [] => rfl
  | key :: keys, a :: as, b :: bs => by
    rw [List.map_cons, keyOrder_cons, keyOrder_cons, keyOrder_opposite keys as bs, Ordering.swap_then,
      SortKey.opposite, Direction.turn_opposite]

end Plan

/-- **The order of values reverses with its arguments.** Every value is level with itself, and two values are
compared the other way in exchanged places. So a descending key counts exactly the other way than the ascending
one, whatever keys come before and behind it, and rows are compared the other way if all keys are turned round. -/
theorem order_reverses :
    (∀ a : Value, a.order a = .eq) ∧ (∀ a b : Value, b.order a = (a.order b).swap) ∧
      (∀ (target : SortTarget) (front back : List SortKey) (a b : Value) (as bs as' bs' : List Value),
        as.length = front.length → bs.length = front.length →
          Plan.keyOrder (front ++ ⟨target, .descending⟩ :: back) (as ++ a :: as') (bs ++ b :: bs') =
            (Plan.keyOrder front as bs).then
              ((Plan.keyOrder [⟨target, .ascending⟩] [a] [b]).swap.then (Plan.keyOrder back as' bs'))) ∧
      ∀ (keys : List SortKey) (as bs : List Value),
        Plan.keyOrder (keys.map SortKey.opposite) as bs = (Plan.keyOrder keys as bs).swap := by
  refine ⟨Value.order_self, fun a b => Value.order_swap b a, ?_, Plan.keyOrder_opposite⟩
  intro target front back a b as bs as' bs' has hbs
  exact Plan.keyOrder_opposite_at ⟨target, .ascending⟩ back a b as' bs' has hbs

end SelectLang
