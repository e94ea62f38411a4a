/-
# The order of values

The order that sorting goes by. Values of different kinds come in the order null, boolean, number,
string, array, object. Two integers are compared as they are; an integer and a float, and two
floats, by the order of floats, to which the integer is rounded first. Strings go by their
characters, arrays item by item, objects field by field in their own order, name before value; of
two that agree as far as both go the shorter comes first.

`Value.same` is equality in which numbers of different kinds differ, an undefined number differs
from itself and the two zeros are equal.

Key definitions: `Value.order`, `Value.same`.
-/
import SelectLang.Value.Basic

namespace SelectLang
namespace Value

/-- The place of the value's kind in the order. -/
def kindRank : Value → Nat
  | null => 0
  | boolean _ => 1
  | integer _ => 2
  | float _ => 2
  | string _ => 3
  | array _ => 4
  | object _ => 5

/-- The order of two numbers as floats. -/
def floatOrder (x y : Binary64) : Ordering := compare x.rank y.rank

mutual

/-- The order of two values. It is not transitive: integers that are rounded to one float are all
level with it. -/
def order : Value → Value → Ordering
  | integer a, integer b => compare a.toInt b.toInt
  | integer a, float y => floatOrder (.ofInt a.toInt) y
  | float x, integer b => floatOrder x (.ofInt b.toInt)
  | float x, float y => floatOrder x y
  | boolean a, boolean b => compare a b
  | string a, string b => compare a b
  | array as, array bs => orderItems as bs
  | object as, object bs => orderFields as bs
  | a, b => compare a.kindRank b.kindRank

/-- Arrays go by the first items that are not level. -/
def orderItems : List Value → List Value → Ordering
  | [], [] => .eq
  | [], _ :: _ => .lt
  | _ :: _, [] => .gt
  | a :: as, b :: bs => (order a b).then (orderItems as bs)

/-- Objects go by the first fields that differ in their names or are not level in their values. -/
def orderFields : List (String × Value) → List (String × Value) → Ordering
  | [], [] => .eq
  | [], _ :: _ => .lt
  | _ :: _, [] => .gt
  | (k, a) :: as, (l, b) :: bs => ((compare k l).then (order a b)).then (orderFields as bs)

end

mutual

/-- Equality of two values. -/
def same : Value → Value → Bool
  | null, null => true
  | boolean a, boolean b => a == b
  | integer a, integer b => a == b
  | float x, float y => x.same y
  | string a, string b => a == b
  | array as, array bs => sameItems as bs
  | object as, object bs => sameFields as bs
  | _, _ => false

/-- Arrays are equal item by item. -/
def sameItems : List Value → List Value → Bool
  | [], [] => true
  | a :: as, b :: bs => same a b && sameItems as bs
  | _, _ => false

/-- Objects are equal field by field, so that the order of the fields counts. -/
def sameFields : List (String × Value) → List (String × Value) → Bool
  | [], [] => true
  | (k, a) :: as, (l, b) :: bs => k == l && same a b && sameFields as bs
  | _, _ => false

end

end Value
end SelectLang
