/-
# The order of values, token by token

Read from left to right a value is a list of tokens: an array or an object begins with one, holds its
parts, the names of fields among them, and is closed by another that comes before all else. The order of
values compares these lists at the first place where they differ (`order_eq`). So what holds of single
tokens carries over to values of any depth, without a second induction over them: to exchange the two
values reverses the result (`order_swap`).

Key definitions: `Value.Token`, `Value.Token.order`, `Value.tokens`.
Key theorems: `Value.order_eq`, `Value.order_swap`.
-/
import Mathlib
import SelectLang.Value.Order

namespace SelectLang
namespace Value

/-! ### Tokens -/

/-- What is met on the way through a value. -/
inductive Token where
  /-- The end of an array or object. -/
  | close
  | key (name : String)
  | null
  | boolean (value : Bool)
  | integer (value : Int64)
  | float (value : Binary64)
  | string (text : String)
  /-- The beginning of an array. -/
  | array
  /-- The beginning of an object. -/
  | object
deriving DecidableEq, Repr

namespace Token

/-- The place of the token's kind in the order. -/
def kindRank : Token → Nat
  | close => 0
  | key _ => 1
  | null => 2
  | boolean _ => 3
  | integer _ => 4
  | float _ => 4
  | string _ => 5
  | array => 6
  | object => 7

/-- The order of two tokens; those of one kind go by what they hold. -/
def order : Token → Token → Ordering
  | key k, key l => compare k l
  | boolean a, boolean b => compare a b
  | integer a, integer b => compare a.toInt b.toInt
  | integer a, float y => floatOrder (.ofInt a.toInt) y
  | float x, integer b => floatOrder x (.ofInt b.toInt)
  | float x, float y => floatOrder x y
  | string a, string b => compare a b
  | a, b => compare a.kindRank b.kindRank

theorem order_swap (u v : Token) : u.order v = (v.order u).swap := by
  cases u <;> cases v <;> first | rfl | exact Std.OrientedOrd.eq_swap

instance : Std.OrientedCmp order where
  eq_swap := order_swap _ _

end Token

mutual

/-- The value written from left to right. -/
def tokens : Value → List Token
  | null => [.null]
  | boolean value => [.boolean value]
  | integer n => [.integer n]
  | float x => [.float x]
  | string text => [.string text]
  | array items => .array :: itemsTokens items
  | object fields => .object :: fieldsTokens fields

/-- The items of an array and its end. -/
def itemsTokens : List Value → List Token
  | [] => [.close]
  | item :: items => item.tokens ++ itemsTokens items

/-- The fields of an object and its end, each name before its value. -/
def fieldsTokens : List (String × Value) → List Token
  | [] => [.close]
  | (name, value) :: fields => .key name :: (value.tokens ++ fieldsTokens fields)

end

/-! ### The order, token by token -/

mutual

theorem compareLex_tokens : ∀ (a b : Value) (s t : List Token),
    List.compareLex Token.order (a.tokens ++ s) (b.tokens ++ t) =
      (a.order b).then (List.compareLex Token.order s t)
  | array as, b, s, t => by
    cases b with
    | array bs =>
      rw [tokens, tokens, List.cons_append, List.cons_append, List.compareLex_cons_cons, order,
        compareLex_itemsTokens as bs s t]
      rfl
    | _ => rfl
  | object as, b, s, t => by
    cases b with
    | object bs =>
      rw [tokens, tokens, List.cons_append, List.cons_append, List.compareLex_cons_cons, order,
        compareLex_fieldsTokens as bs s t]
      rfl
    | _ => rfl
  | null, b, s, t => by cases b <;> rfl
  | boolean _, b, s, t | integer _, b, s, t | float _, b, s, t | string _, b, s, t => by
    cases b <;> first | rfl | exact List.compareLex_cons_cons

theorem compareLex_itemsTokens : ∀ (as bs : List Value) (s t : List Token),
    List.compareLex Token.order (itemsTokens as ++ s) (itemsTokens bs ++ t) =
      (orderItems as bs).then (List.compareLex Token.order s t)
  | [], [], s, t => rfl
  | [], b :: bs, s, t => by cases b <;> rfl
  | a :: as, [], s, t => by cases a <;> rfl
  | a :: as, b :: bs, s, t => by
    rw [itemsTokens, itemsTokens, List.append_assoc, List.append_assoc, compareLex_tokens a b,
      compareLex_itemsTokens as bs s t, orderItems, Ordering.then_assoc]

theorem compareLex_fieldsTokens : ∀ (as bs : List (String × Value)) (s t : List Token),
    List.compareLex Token.order (fieldsTokens as ++ s) (fieldsTokens bs ++ t) =
      (orderFields as bs).then (List.compareLex Token.order s t)
  | [], [], s, t => rfl
  | [], (l, b) :: bs, s, t => rfl
  | (k, a) :: as, [], s, t => rfl
  | (k, a) :: as, (l, b) :: bs, s, t => by
    rw [fieldsTokens, fieldsTokens, List.cons_append, List.cons_append, List.append_assoc,
      List.append_assoc, List.compareLex_cons_cons, compareLex_tokens a b, 
      compareLex_fieldsTokens as bs s t, orderFields, Ordering.then_assoc, Ordering.then_assoc]
    rfl

end

/-- Values are compared as their tokens are, from left to right. -/
theorem order_eq (a b : Value) : a.order b = List.compareLex Token.order a.tokens b.tokens := by
  have h := compareLex_tokens a b [] []
  rw [List.append_nil, List.append_nil, List.compareLex_nil_nil, Ordering.then_eq] at h
  exact h.symm

theorem order_swap (a b : Value) : a.order b = (b.order a).swap := by
  rw [order_eq, order_eq]
  exact Std.OrientedCmp.eq_swap

end Value
end SelectLang
