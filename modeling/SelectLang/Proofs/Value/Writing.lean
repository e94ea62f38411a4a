/-
# Where a document stands in a text

A document within another is written where it stands: its text is part of the other's (`Within.textAt_isInfix`),
at a deeper level if the text is spread over lines. The text of an object names its fields one after the other,
in the order in which the document has them (`textAt_object`).

Key definitions: `Json.textAt`, `Json.bracketed`, `Json.fieldText`, `Json.Within`.
Key theorems: `Json.textAt_array`, `Json.textAt_object`, `Json.Within.textAt_isInfix`.
-/
import Mathlib
import SelectLang.Json.Write

namespace SelectLang

/-! ### Texts that are joined -/

/-- What writes the members of a list with commas between them joins their texts. -/
theorem eq_intercalate {α : Type} {write : α → String} {writeAll : List α → String} (hnil : writeAll [] = "")
    (hone : ∀ a, writeAll [a] = write a)
    (hmore : ∀ a b as, writeAll (a :: b :: as) = write a ++ "," ++ writeAll (b :: as)) :
    ∀ as : List α, writeAll as = ",".intercalate (as.map write)
  | [] => hnil.trans String.intercalate_nil.symm
  | [a] => (hone a).trans String.intercalate_singleton.symm
  | a :: b :: as => by
    rw [hmore, eq_intercalate hnil hone hmore (b :: as)]
    exact String.intercalate_cons_cons.symm

/-- A text that is joined with others is part of what they make. -/
theorem isInfix_intercalate {sep text : String} : ∀ {texts : List String}, text ∈ texts →
    text.toList <:+: (sep.intercalate texts).toList
  | [], h => by cases h
  | [only], h => by
    rw [List.mem_singleton.mp h, String.intercalate_singleton]
  | first :: next :: texts, h => by
    rw [String.intercalate_cons_cons, String.toList_append, String.toList_append]
    rcases List.mem_cons.mp h with rfl | h
    · exact ((List.prefix_append _ _).trans (List.prefix_append _ _)).isInfix
    · exact (isInfix_intercalate h).trans (List.suffix_append _ _).isInfix

namespace Json

/-! ### Texts by level -/

variable {spread : Bool} {level : ℕ}

/-- The text of a document; if it is spread, its first line stands at the given level. -/
def textAt (spread : Bool) (level : ℕ) (document : Json) : String :=
  if spread then prettyAt level document else document.compact

/-- Texts between brackets, in lines of their own if they are spread. -/
def bracketed (spread : Bool) (level : ℕ) (opening closing : String) (texts : List String) : String :=
  if spread && !texts.isEmpty then
    opening ++ ",".intercalate (texts.map (lineBreak (level + 1) ++ ·)) ++ lineBreak level ++ closing
  else opening ++ ",".intercalate texts ++ closing

theorem bracketed_spread {opening closing : String} {texts : List String} (h : texts ≠ []) :
    bracketed true level opening closing texts =
      opening ++ ",".intercalate (texts.map (lineBreak (level + 1) ++ ·)) ++ lineBreak level ++ closing := by
  rw [bracketed, if_pos (by simpa using h)]

/-- A field as it stands in its object. -/
def fieldText (spread : Bool) (level : ℕ) (field : String × Json) : String :=
  quote field.1 ++ (if spread then ": " else ":") ++ field.2.textAt spread level

theorem textAt_array (items : List Json) : (array items).textAt spread level =
    bracketed spread level "[" "]" (items.map (textAt spread (level + 1))) := by
  cases spread with
  | false =>
    have hitems : compactItems items = ",".intercalate (items.map compact) :=
      eq_intercalate rfl (fun _ => rfl) (fun _ _ _ => rfl) items
    show compact (array items) = _
    rw [compact, hitems]
    rfl
  | true =>
    have hitems : prettyItems (level + 1) items =
        ",".intercalate (items.map fun item => lineBreak (level + 1) ++ prettyAt (level + 1) item) :=
      eq_intercalate rfl (fun _ => rfl) (fun _ _ _ => rfl) items
    show prettyAt level (array items) = _
    cases items with
    | nil => rfl
    | cons item items =>
      rw [prettyAt, hitems, bracketed_spread (by simp), List.map_map]
      rfl

/-- The fields are written in their order. -/
theorem textAt_object (fields : List (String × Json)) : (object fields).textAt spread level =
    bracketed spread level "\x7b" "\x7d" (fields.map (fieldText spread (level + 1))) := by
  cases spread with
  | false =>
    have hfields : compactFields fields = ",".intercalate (fields.map (fieldText false (level + 1))) :=
      eq_intercalate rfl (fun _ => rfl) (fun _ _ _ => rfl) fields
    show compact (object fields) = _
    rw [compact, hfields]
    rfl
  | true =>
    have htext : ∀ field : String × Json, lineBreak (level + 1) ++ quote field.1 ++ ": " ++
        prettyAt (level + 1) field.2 = lineBreak (level + 1) ++ fieldText true (level + 1) field := fun field => by
      rw [String.append_assoc, String.append_assoc, fieldText, String.append_assoc]
      rfl
    have hfields : prettyFields (level + 1) fields =
        ",".intercalate (fields.map fun field => lineBreak (level + 1) ++ fieldText true (level + 1) field) :=
      eq_intercalate rfl htext (fun field _ _ => by rw [← htext field]; rfl) fields
    show prettyAt level (object fields) = _
    cases fields with
    | nil => rfl
    | cons field fields =>
      rw [prettyAt, hfields, bracketed_spread (by simp), List.map_map]
      rfl

theorem isInfix_bracketed {opening closing text : String} {texts : List String} (h : text ∈ texts) :
    text.toList <:+: (bracketed spread level opening closing texts).toList := by
  have henclosed : ∀ before middle after : String, middle.toList <:+: (before ++ middle ++ after).toList :=
    fun before middle after => ⟨before.toList, after.toList, by rw [String.toList_append, String.toList_append]⟩
  unfold bracketed
  split
  · have hline : text.toList <:+: (lineBreak (level + 1) ++ text).toList := by
      rw [String.toList_append]
      exact (List.suffix_append _ _).isInfix
    rw [String.append_assoc]
    exact (hline.trans (isInfix_intercalate (List.mem_map_of_mem h))).trans (henclosed _ _ _)
  · exact (isInfix_intercalate h).trans (henclosed _ _ _)

/-! ### Documents within documents -/

/-- The document stands within another, so many levels deeper. -/
inductive Within (document : Json) : ℕ → Json → Prop where
  | itself : Within document 0 document
  | item {depth : ℕ} {item : Json} {items : List Json} (hmem : item ∈ items) (h : Within document depth item) :
      Within document (depth + 1) (array items)
  | field {depth : ℕ} {field : String × Json} {fields : List (String × Json)} (hmem : field ∈ fields)
      (h : Within document depth field.2) : Within document (depth + 1) (object fields)

/-- A document is written where it stands within another. -/
theorem Within.textAt_isInfix {document whole : Json} {depth : ℕ} (h : document.Within depth whole) :
    (document.textAt spread (level + depth)).toList <:+: (whole.textAt spread level).toList := by
  induction h generalizing level with
  | itself => exact List.infix_rfl
  | @item depth item items hmem h ih =>
    rw [textAt_array, show level + (depth + 1) = level + 1 + depth by omega]
    exact ih.trans (isInfix_bracketed (List.mem_map_of_mem hmem))
  | @field depth field fields hmem h ih =>
    rw [textAt_object, show level + (depth + 1) = level + 1 + depth by omega]
    have hvalue : (field.2.textAt spread (level + 1)).toList <:+: (fieldText spread (level + 1) field).toList := by
      rw [fieldText, String.toList_append]
      exact (List.suffix_append _ _).isInfix
    exact (ih.trans hvalue).trans (isInfix_bracketed (List.mem_map_of_mem hmem))

end Json
end SelectLang
