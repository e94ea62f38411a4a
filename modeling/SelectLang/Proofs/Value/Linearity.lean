/-
# Values without floats are linearly ordered

Where no float occurs at any depth, the order of values is linear and tells all values apart: level are only
values that are the same, kind by kind, item by item and field by field in the order of the fields. Two things
make this out of the order of tokens: tokens that are level are the same unless a float is among them, and a
value can be told from its tokens, also with more tokens behind it (`append_tokens_inj`).

Key definitions: `Value.FloatFree`.
Key theorems: `Value.append_tokens_inj`, `Value.order_eq_eq`, `Value.same_eq_true`, `Value.order_linear`.
-/
import Mathlib
import SelectLang.Proofs.Value.Transitivity

namespace SelectLang
namespace Value

/-! ### A value is told by its tokens -/

mutual

theorem append_tokens_inj : ∀ {a b : Value} {s t : List Token},
    a.tokens ++ s = b.tokens ++ t → a = b ∧ s = t
  | array as, b, s, t, h => by
    cases b with
    | array bs =>
      obtain ⟨rfl, rfl⟩ := append_itemsTokens_inj (List.cons_inj_right _ |>.mp h)
      exact ⟨rfl, rfl⟩
    | _ => cases h
  | object as, b, s, t, h => by
    cases b with
    | object bs =>
      obtain ⟨rfl, rfl⟩ := append_fieldsTokens_inj (List.cons_inj_right _ |>.mp h)
      exact ⟨rfl, rfl⟩
    | _ => cases h
  | null, b, s, t, h | boolean _, b, s, t, h | integer _, b, s, t, h | float _, b, s, t, h
  | string _, b, s, t, h => by
    cases b <;> cases h
    exact ⟨rfl, rfl⟩

theorem append_itemsTokens_inj : ∀ {as bs : List Value} {s t : List Token},
    itemsTokens as ++ s = itemsTokens bs ++ t → as = bs ∧ s = t
  | [], [], s, t, h => ⟨rfl, List.cons_inj_right _ |>.mp h⟩
  | [], b :: bs, s, t, h => by cases b <;> cases h
  | a :: as, [], s, t, h => by cases a <;> cases h
  | a :: as, b :: bs, s, t, h => by
    rw [itemsTokens, itemsTokens, List.append_assoc, List.append_assoc] at h
    obtain ⟨rfl, hrest⟩ := append_tokens_inj h
    obtain ⟨rfl, rfl⟩ := append_itemsTokens_inj hrest
    exact ⟨rfl, rfl⟩

theorem append_fieldsTokens_inj : ∀ {as bs : List (String × Value)} {s t : List Token},
    fieldsTokens as ++ s = fieldsTokens bs ++ t → as = bs ∧ s = t
  | [], [], s, t, h => ⟨rfl, List.cons_inj_right _ |>.mp h⟩
  | [], (l, b) :: bs, s, t, h => by cases h
  | (k, a) :: as, [], s, t, h => by cases h
  | (k, a) :: as, (l, b) :: bs, s, t, h => by
    rw [fieldsTokens, fieldsTokens, List.cons_append, List.cons_append, List.append_assoc,
      List.append_assoc] at h
    obtain ⟨hkey, hvalue⟩ := List.cons_eq_cons.mp h
    cases hkey
    obtain ⟨rfl, hrest⟩ := append_tokens_inj hvalue
    obtain ⟨rfl, rfl⟩ := append_fieldsTokens_inj hrest
    exact ⟨rfl, rfl⟩

end

theorem tokens_injective : Function.Injective tokens := fun a b h =>
  (append_tokens_inj (s := []) (t := []) (by rw [h])).1

/-! ### Values without floats -/

/-- No float occurs in the value, at any depth. -/
inductive FloatFree : Value → Prop where
  | null : FloatFree .null
  | boolean (value : Bool) : FloatFree (.boolean value)
  | integer (n : Int64) : FloatFree (.integer n)
  | string (text : String) : FloatFree (.string text)
  | array {items : List Value} (h : ∀ item ∈ items, FloatFree item) : FloatFree (.array items)
  | object {fields : List (String × Value)} (h : ∀ field ∈ fields, FloatFree field.2) :
      FloatFree (.object fields)

theorem mem_itemsTokens {u : Token} : ∀ {items : List Value},
    u ∈ itemsTokens items → u = .close ∨ ∃ item ∈ items, u ∈ item.tokens
  | [], h => Or.inl (List.mem_singleton.mp h)
  | item :: items, h => by
    rcases List.mem_append.mp h with h | h
    · exact Or.inr ⟨item, List.mem_cons_self, h⟩
    · exact (mem_itemsTokens h).imp id fun ⟨other, hother, hu⟩ =>
        ⟨other, List.mem_cons_of_mem item hother, hu⟩

theorem mem_fieldsTokens {u : Token} : ∀ {fields : List (String × Value)},
    u ∈ fieldsTokens fields → u = .close ∨ (∃ name, u = .key name) ∨ ∃ field ∈ fields, u ∈ field.2.tokens
  | [], h => Or.inl (List.mem_singleton.mp h)
  | (name, value) :: fields, h => by
    rcases List.mem_cons.mp h with rfl | h
    · exact Or.inr (Or.inl ⟨name, rfl⟩)
    rcases List.mem_append.mp h with h | h
    · exact Or.inr (Or.inr ⟨(name, value), List.mem_cons_self, h⟩)
    · exact (mem_fieldsTokens h).imp id (Or.imp id fun ⟨other, hother, hu⟩ =>
        ⟨other, List.mem_cons_of_mem _ hother, hu⟩)

theorem FloatFree.numbersIn {a : Value} (h : a.FloatFree) : a.NumbersIn Set.univ ∅ := by
  induction h with
  | null => exact List.forall_mem_singleton.mpr trivial
  | boolean value => exact List.forall_mem_singleton.mpr trivial
  | integer n => exact List.forall_mem_singleton.mpr trivial
  | string text => exact List.forall_mem_singleton.mpr trivial
  | array _ ih =>
    refine List.forall_mem_cons.mpr ⟨trivial, fun u hu => ?_⟩
    obtain rfl | ⟨item, hitem, hu⟩ := mem_itemsTokens hu
    · trivial
    · exact ih item hitem u hu
  | object _ ih =>
    refine List.forall_mem_cons.mpr ⟨trivial, fun u hu => ?_⟩
    obtain rfl | ⟨name, rfl⟩ | ⟨field, hfield, hu⟩ := mem_fieldsTokens hu
    · trivial
    · trivial
    · exact ih field hfield u hu

/-- Without floats there is nothing that two integers could be rounded to. -/
theorem separated_empty (integers : Set Int64) : Separated integers ∅ := fun _ _ _ _ h => absurd h id

/-! ### Level values are the same -/

theorem eq_of_compareLex {α : Type} {cmp : α → α → Ordering} : ∀ {s t : List α},
    (∀ u ∈ s, ∀ v ∈ t, cmp u v = .eq → u = v) → List.compareLex cmp s t = .eq → s = t
  | [], [], _, _ => rfl
  | [], _ :: _, _, hst => nomatch hst
  | _ :: _, [], _, hst => nomatch hst
  | u :: s, v :: t, h, hst => by
    rw [List.compareLex_cons_cons, Ordering.then_eq_eq] at hst
    rw [h u List.mem_cons_self v List.mem_cons_self hst.1, eq_of_compareLex (fun u hu v hv =>
      h u (List.mem_cons_of_mem _ hu) v (List.mem_cons_of_mem _ hv)) hst.2]

namespace Token

/-- Tokens that are level are the same, or one of them is a float. -/
theorem eq_of_order {integers : Set Int64} {u v : Token} (hu : u.NumberIn integers ∅)
    (hv : v.NumberIn integers ∅) (h : u.order v = .eq) : u = v := by
  have hrank := kindRank_eq h
  cases u <;> cases v <;> first | (simp only [kindRank] at hrank; omega) | skip
  all_goals first | rfl | cases hu | cases hv | skip
  -- names, truth values, integers and texts are level with themselves only
  · rw [Std.LawfulEqOrd.eq_of_compare h]
  · rw [Std.LawfulEqOrd.eq_of_compare h]
  · rw [Int64.toInt_inj.mp (Int.compare_eq_eq.mp h)]
  · rw [Std.LawfulEqOrd.eq_of_compare h]

end Token

variable {a b c : Value}

theorem order_eq_eq (ha : a.FloatFree) (hb : b.FloatFree) : a.order b = .eq ↔ a = b := by
  rw [order_eq]
  constructor
  · intro h
    exact tokens_injective (eq_of_compareLex (fun u hu v hv =>
      Token.eq_of_order (ha.numbersIn u hu) (hb.numbersIn v hv)) h)
  · rintro rfl
    exact Std.ReflCmp.compare_self

/-! ### Equality -/

theorem sameItems_eq_true : ∀ {as bs : List Value}, (∀ a ∈ as, ∀ b, a.same b = true ↔ a = b) →
    (sameItems as bs = true ↔ as = bs)
  | [], [], _ => iff_of_true rfl rfl
  | [], _ :: _, _ => iff_of_false nofun nofun
  | _ :: _, [], _ => iff_of_false nofun nofun
  | a :: as, b :: bs, h => by
    obtain ⟨hfirst, hrest⟩ := List.forall_mem_cons.mp h
    rw [sameItems, Bool.and_eq_true, hfirst, sameItems_eq_true hrest, List.cons_eq_cons]

theorem sameFields_eq_true : ∀ {as bs : List (String × Value)},
    (∀ field ∈ as, ∀ b, field.2.same b = true ↔ field.2 = b) → (sameFields as bs = true ↔ as = bs)
  | [], [], _ => iff_of_true rfl rfl
  | [], _ :: _, _ => iff_of_false nofun nofun
  | _ :: _, [], _ => iff_of_false nofun nofun
  | (k, a) :: as, (l, b) :: bs, h => by
    obtain ⟨hfirst, hrest⟩ := List.forall_mem_cons.mp h
    rw [sameFields, Bool.and_eq_true, Bool.and_eq_true, beq_iff_eq, hfirst, sameFields_eq_true hrest,
      List.cons_eq_cons, Prod.mk.injEq]

/-- A value without floats is equal to itself only. -/
theorem same_eq_true (h : a.FloatFree) : ∀ b : Value, a.same b = true ↔ a = b := by
  induction h with
  | null => intro b; cases b <;> simp [same]
  | boolean value => intro b; cases b <;> simp [same]
  | integer n => intro b; cases b <;> simp [same]
  | string text => intro b; cases b <;> simp [same]
  | array _ ih =>
    intro b
    cases b with
    | array bs => rw [same, sameItems_eq_true ih, array.injEq]
    | _ => exact iff_of_false nofun nofun
  | object _ ih =>
    intro b
    cases b with
    | object bs => rw [same, sameFields_eq_true ih, object.injEq]
    | _ => exact iff_of_false nofun nofun

/-! ### The order -/

/-- **The order of values without floats is linear.** It is transitive, of two different values one comes before
the other, and level are only values that are the same, which are those that are equal. -/
theorem order_linear (ha : a.FloatFree) (hb : b.FloatFree) (hc : c.FloatFree) :
    TransitiveAt a b c ∧ (a.order b = .lt ∨ a = b ∨ b.order a = .lt) ∧ (a.order b = .eq ↔ a = b) ∧
      (a.same b = true ↔ a = b) := by
  refine ⟨transitiveAt_of_numbersIn (separated_empty _) ha.numbersIn hb.numbersIn hc.numbersIn, ?_,
    order_eq_eq ha hb, same_eq_true ha b⟩
  cases h : a.order b with
  | lt => exact Or.inl rfl
  | eq => exact Or.inr (Or.inl ((order_eq_eq ha hb).mp h))
  | gt => exact Or.inr (Or.inr (by rw [order_swap, h]; rfl))

def dune : Value := .object [("title", .string "Dune"), ("pages", .integer 412)]

/-- The same book with one field more. -/
def taggedDune : Value :=
  .object [("title", .string "Dune"), ("pages", .integer 412), ("tags", .array [.null, .array [.boolean true]])]

def emma : Value := .object [("title", .string "Emma")]

theorem dune_floatFree : dune.FloatFree :=
  .object (List.forall_mem_cons.mpr ⟨.string _, List.forall_mem_singleton.mpr (.integer _)⟩)

theorem taggedDune_floatFree : taggedDune.FloatFree :=
  .object (List.forall_mem_cons.mpr ⟨.string _, List.forall_mem_cons.mpr ⟨.integer _,
    List.forall_mem_singleton.mpr (.array (List.forall_mem_cons.mpr ⟨.null,
      List.forall_mem_singleton.mpr (.array (List.forall_mem_singleton.mpr (.boolean _)))⟩))⟩⟩)

theorem emma_floatFree : emma.FloatFree := .object (List.forall_mem_singleton.mpr (.string _))

theorem order_linear_books : (dune.FloatFree ∧ taggedDune.FloatFree ∧ emma.FloatFree) ∧
    TransitiveAt dune taggedDune emma ∧
      (dune.order taggedDune = .lt ∨ dune = taggedDune ∨ taggedDune.order dune = .lt) ∧
        (dune.order taggedDune = .eq ↔ dune = taggedDune) ∧
          (dune.same taggedDune = true ↔ dune = taggedDune) :=
  ⟨⟨dune_floatFree, taggedDune_floatFree, emma_floatFree⟩,
    order_linear dune_floatFree taggedDune_floatFree emma_floatFree⟩

end Value
end SelectLang
