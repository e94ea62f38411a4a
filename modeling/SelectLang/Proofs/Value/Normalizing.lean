/-
# What a passage through JSON does to a value

A value comes back from JSON as it was, but for two things: the fields of its objects stand in the order of the
bytes of their names, and there is null for every float that is not finite (`Value.normalForm`). An object of a
document keeps its fields in order by putting each in where it belongs, which sorts them as no name is there
twice (`Value.IsDistinct`); that is so in every record, for its fields are put in one after the other.

Key definitions: `sortByName`, `Value.IsDistinct`, `Value.normalForm`.
Key theorems: `foldl_insertSorted_eq`, `Json.sorted_object`, `Value.normalized_object`, `Value.isDistinct_ofList`,
`Value.normalForm_normalForm`, `Value.normalized_eq_normalForm`.
-/
import Mathlib
import SelectLang.Proofs.Text.Bytes
import SelectLang.Proofs.Text.Entries
import SelectLang.Proofs.Value.Exactness
import SelectLang.Proofs.Value.Records
import SelectLang.Value.Document

namespace SelectLang

/-! ### Entries sorted by their names -/

section

variable {α β : Type} {entries more : List (String × α)}

/-- The entries in the order of the bytes of their names. -/
def sortByName (entries : List (String × α)) : List (String × α) :=
  entries.mergeSort fun a b => decide (utf8 a.1 ≤ utf8 b.1)

theorem sortByName_perm (entries : List (String × α)) : (sortByName entries).Perm entries :=
  List.mergeSort_perm _ _

theorem ascending_sortByName (h : (entries.map Prod.fst).Nodup) : Ascending (sortByName entries) := by
  have hle : ∀ {a b : String}, decide (utf8 a ≤ utf8 b) = true ↔ a ≤ b := fun {a b} => by
    rw [decide_eq_true_iff, ← List.not_lt, utf8_lt_utf8_iff, not_lt]
  have hsorted : (sortByName entries).Pairwise fun a b => decide (utf8 a.1 ≤ utf8 b.1) = true := by
    refine List.pairwise_mergeSort (fun a b c hab hbc => ?_) (fun a b => ?_) entries
    · exact hle.mpr ((hle.mp hab).trans (hle.mp hbc))
    · simpa only [Bool.or_eq_true, hle] using le_total a.1 b.1
  have hnames : ((sortByName entries).map Prod.fst).Nodup :=
    ((sortByName_perm entries).map Prod.fst).nodup_iff.mpr h
  exact (hsorted.and (List.pairwise_map.mp hnames)).imp fun h => lt_of_le_of_ne (hle.mp h.1) h.2

/-- Entries that ascend are the sorted ones. -/
theorem sortByName_eq (hperm : more.Perm entries) (h : Ascending more) : sortByName entries = more := by
  have hnames : (more.map Prod.fst).Nodup := List.pairwise_map.mpr (h.imp fun hlt => hlt.ne)
  exact eq_of_ascending ((sortByName_perm entries).trans hperm.symm)
    (ascending_sortByName ((hperm.map Prod.fst).nodup_iff.mp hnames)) h

theorem Ascending.map_snd (h : Ascending entries) (f : α → β) :
    Ascending (entries.map fun entry => (entry.1, f entry.2)) := List.pairwise_map.mpr h

theorem map_sortByName (h : (entries.map Prod.fst).Nodup) (f : α → β) :
    (sortByName entries).map (fun entry => (entry.1, f entry.2)) =
      sortByName (entries.map fun entry => (entry.1, f entry.2)) :=
  (sortByName_eq ((sortByName_perm entries).map _) ((ascending_sortByName h).map_snd f)).symm

/-- Entries of new names that are put in one after the other. -/
theorem foldl_insertSorted : ∀ {entries more : List (String × α)}, ((more ++ entries).map Prod.fst).Nodup →
    Ascending more →
      (entries.foldl (fun more entry => insertSorted entry.1 entry.2 more) more).Perm (more ++ entries) ∧
        Ascending (entries.foldl (fun more entry => insertSorted entry.1 entry.2 more) more)
  | [], more, _, h => ⟨by rw [List.append_nil]; exact .refl more, h⟩
  | entry :: entries, more, hnames, h => by
    have hnew : entry.1 ∉ more.map Prod.fst := fun hmem => by
      rw [List.map_append] at hnames
      exact (List.nodup_append.mp hnames).2.2 _ hmem _ List.mem_cons_self rfl
    have hperm : (insertSorted entry.1 entry.2 more ++ entries).Perm (more ++ entry :: entries) :=
      ((insertSorted_perm hnew entry.2).append_right entries).trans List.perm_middle.symm
    have hinserted : Ascending (insertSorted entry.1 entry.2 more) := h.insertSorted
    obtain ⟨hrest, hascending⟩ := foldl_insertSorted ((hperm.map Prod.fst).nodup_iff.mpr hnames) hinserted
    exact ⟨hrest.trans hperm, hascending⟩

/-- Each entry put in where it belongs, they are sorted. -/
theorem foldl_insertSorted_eq (h : (entries.map Prod.fst).Nodup) :
    entries.foldl (fun more entry => insertSorted entry.1 entry.2 more) [] = sortByName entries := by
  have hnone : Ascending ([] : List (String × α)) := .nil
  obtain ⟨hperm, hascending⟩ := foldl_insertSorted (by rwa [List.nil_append]) hnone
  exact (sortByName_eq hperm hascending).symm

end

/-! ### Documents -/

theorem Json.sortedItems_eq : ∀ items : List Json, sortedItems items = items.map sorted
  | [] => rfl
  | item :: items => congrArg (item.sorted :: ·) (sortedItems_eq items)

theorem Json.sortedFields_eq : ∀ fields read : List (String × Json), sortedFields read fields =
    (fields.map fun field => (field.1, field.2.sorted)).foldl
      (fun read field => insertSorted field.1 field.2 read) read
  | [], _ => rfl
  | (key, value) :: fields, read => by
    rw [sortedFields, sortedFields_eq fields]
    rfl

/-- An object is sorted by the names of its fields, if these differ. -/
theorem Json.sorted_object {fields : List (String × Json)} (h : (fields.map Prod.fst).Nodup) :
    (object fields).sorted = object (sortByName (fields.map fun field => (field.1, field.2.sorted))) := by
  have hnames : ((fields.map fun field => (field.1, field.2.sorted)).map Prod.fst).Nodup := by
    rwa [List.map_map]
  rw [sorted, sortedFields_eq, foldl_insertSorted_eq hnames]

namespace Value

theorem itemsToJson_eq : ∀ items : List Value, itemsToJson items = items.map toJson
  | [] => rfl
  | item :: items => congrArg (item.toJson :: ·) (itemsToJson_eq items)

theorem fieldsToJson_eq : ∀ fields : List (String × Value),
    fieldsToJson fields = fields.map fun field => (field.1, field.2.toJson)
  | [] => rfl
  | (key, value) :: fields => congrArg ((key, value.toJson) :: ·) (fieldsToJson_eq fields)

theorem itemsOfJson_eq : ∀ items : List Json, itemsOfJson items = items.map ofJson
  | [] => rfl
  | item :: items => congrArg (ofJson item :: ·) (itemsOfJson_eq items)

theorem fieldsOfJson_eq : ∀ fields : List (String × Json),
    fieldsOfJson fields = fields.map fun field => (field.1, ofJson field.2)
  | [] => rfl
  | (key, value) :: fields => congrArg ((key, ofJson value) :: ·) (fieldsOfJson_eq fields)

/-! ### One level -/

theorem normalized_integer (n : Int64) : (integer n).normalized = integer n := by
  have hword : int64? n.toInt = some n := int64?_eq_some.mpr rfl
  show ofJson (.integer n.toInt) = _
  rw [ofJson, hword]

theorem normalized_float (x : Binary64) : (float x).normalized = if x.isFinite then float x else null := by
  rw [normalized, toJson, Json.sorted]
  split <;> rfl

theorem normalized_array (items : List Value) : (array items).normalized = array (items.map normalized) := by
  rw [normalized, toJson, Json.sorted, ofJson, itemsToJson_eq, Json.sortedItems_eq, itemsOfJson_eq,
    List.map_map, List.map_map]
  rfl

theorem normalized_object {fields : List (String × Value)} (h : (fields.map Prod.fst).Nodup) :
    (object fields).normalized =
      object (sortByName (fields.map fun field => (field.1, field.2.normalized))) := by
  have hjson : ((fields.map fun field => (field.1, field.2.toJson)).map Prod.fst).Nodup := by
    rwa [List.map_map]
  have hnames : ((fields.map fun field => (field.1, field.2.toJson.sorted)).map Prod.fst).Nodup := by
    rwa [List.map_map]
  have hsorted : ((sortByName (fields.map fun field => (field.1, field.2.normalized))).map Prod.fst).Nodup := by
    rw [((sortByName_perm _).map Prod.fst).nodup_iff, List.map_map]
    exact h
  rw [normalized, toJson, fieldsToJson_eq, Json.sorted_object hjson, List.map_map, ofJson]
  show object (Record.ofList (fieldsOfJson (sortByName
    (fields.map fun field => (field.1, field.2.toJson.sorted))))) = _
  rw [fieldsOfJson_eq, map_sortByName hnames, List.map_map]
  exact congrArg object (Record.ofList_eq_self hsorted)

/-! ### All levels -/

/-- In every object, at any depth, the names differ, as they do in a record that fields were put into one after the
other (`isDistinct_ofList`). -/
inductive IsDistinct : Value → Prop where
  | null : IsDistinct .null
  | boolean (value : Bool) : IsDistinct (.boolean value)
  | integer (n : Int64) : IsDistinct (.integer n)
  | float (x : Binary64) : IsDistinct (.float x)
  | string (text : String) : IsDistinct (.string text)
  | array {items : List Value} (h : ∀ item ∈ items, IsDistinct item) : IsDistinct (.array items)
  | object {fields : List (String × Value)} (hnames : (fields.map Prod.fst).Nodup)
    (h : ∀ field ∈ fields, IsDistinct field.2) : IsDistinct (.object fields)

/-- A record into which fields are put one after the other has no name twice. -/
theorem isDistinct_ofList {fields : List (String × Value)} (h : ∀ field ∈ fields, IsDistinct field.2) :
    IsDistinct (.object (Record.ofList fields)) := by
  have hcollects := Record.Collects.ofList fields
  refine .object hcollects.nodup fun field hfield => h field ?_
  obtain ⟨front, back, hsplit, -⟩ := (hcollects.get?_eq_some field.1 field.2).mp
    (Record.get?_eq_some_of_mem hcollects.nodup hfield)
  rw [hsplit]
  exact List.mem_append_right front List.mem_cons_self

mutual

/-- The value with the fields of every object in the order of the bytes of their names and null for every float
that is not finite. -/
def normalForm : Value → Value
  | float x => if x.isFinite then float x else null
  | array items => array (itemsNormalForm items)
  | object fields => object (sortByName (fieldsNormalForm fields))
  | value => value

/-- The items of an array in their places, each in its normal form. -/
def itemsNormalForm : List Value → List Value
  | [] => []
  | item :: items => item.normalForm :: itemsNormalForm items

/-- The fields of an object in their places, with their values in normal form. -/
def fieldsNormalForm : List (String × Value) → List (String × Value)
  | [] => []
  | (key, value) :: fields => (key, value.normalForm) :: fieldsNormalForm fields

end

theorem itemsNormalForm_eq : ∀ items : List Value, itemsNormalForm items = items.map normalForm
  | [] => rfl
  | item :: items => congrArg (item.normalForm :: ·) (itemsNormalForm_eq items)

theorem fieldsNormalForm_eq : ∀ fields : List (String × Value),
    fieldsNormalForm fields = fields.map fun field => (field.1, field.2.normalForm)
  | [] => rfl
  | (key, value) :: fields => congrArg ((key, value.normalForm) :: ·) (fieldsNormalForm_eq fields)

theorem normalForm_array (items : List Value) : (array items).normalForm = array (items.map normalForm) := by
  rw [normalForm, itemsNormalForm_eq]

theorem normalForm_object (fields : List (String × Value)) : (object fields).normalForm =
    object (sortByName (fields.map fun field => (field.1, field.2.normalForm))) := by
  rw [normalForm, fieldsNormalForm_eq]

variable {v : Value}

theorem names_normalForm {fields : List (String × Value)} (h : (fields.map Prod.fst).Nodup) :
    ((fields.map fun field => (field.1, field.2.normalForm)).map Prod.fst).Nodup := by
  rwa [List.map_map]

theorem normalized_of_isDistinct (h : v.IsDistinct) : v.normalized = v.normalForm := by
  induction h with
  | null => rfl
  | boolean => rfl
  | integer n => exact normalized_integer n
  | float x => exact normalized_float x
  | string => rfl
  | array h ih => rw [normalized_array, normalForm_array, List.map_congr_left ih]
  | object hnames h ih =>
    rw [normalized_object hnames, normalForm_object]
    exact congrArg _ (congrArg _ (List.map_congr_left fun field hfield => by rw [ih field hfield]))

theorem IsDistinct.normalForm (h : v.IsDistinct) : v.normalForm.IsDistinct := by
  induction h with
  | null => exact .null
  | boolean value => exact .boolean value
  | integer n => exact .integer n
  | float x =>
    rw [Value.normalForm]
    split
    · exact .float x
    · exact .null
  | string text => exact .string text
  | array h ih =>
    rw [normalForm_array]
    exact .array (List.forall_mem_map.mpr ih)
  | object hnames h ih =>
    rw [normalForm_object]
    refine .object ?_ fun field hfield => ?_
    · exact ((sortByName_perm _).map Prod.fst).nodup_iff.mpr (names_normalForm hnames)
    · obtain ⟨old, hold, rfl⟩ := List.mem_map.mp ((sortByName_perm _).mem_iff.mp hfield)
      exact ih old hold

theorem normalForm_normalForm (h : v.IsDistinct) : v.normalForm.normalForm = v.normalForm := by
  induction h with
  | null => rfl
  | boolean => rfl
  | integer => rfl
  | float x =>
    rw [normalForm]
    split
    · rename_i hfinite
      rw [normalForm, if_pos hfinite]
    · rfl
  | string => rfl
  | array h ih =>
    rw [normalForm_array, normalForm_array, List.map_map]
    exact congrArg array (List.map_congr_left ih)
  | @object fields hnames h ih =>
    rw [normalForm_object, normalForm_object, map_sortByName (names_normalForm hnames), List.map_map]
    have hfields : fields.map ((fun field => (field.1, field.2.normalForm)) ∘ fun field =>
        (field.1, field.2.normalForm)) = fields.map fun field => (field.1, field.2.normalForm) :=
      List.map_congr_left fun field hfield => by rw [Function.comp_apply, ih field hfield]
    rw [hfields, sortByName_eq (.refl _) (ascending_sortByName (names_normalForm hnames))]

/-- **JSON changes nothing but the order of fields and the floats that are not finite.** A second passage changes
nothing at all. -/
theorem normalized_eq_normalForm (h : v.IsDistinct) :
    v.normalized = v.normalForm ∧ v.normalized.normalized = v.normalized := by
  rw [normalized_of_isDistinct h, normalized_of_isDistinct h.normalForm]
  exact ⟨rfl, normalForm_normalForm h⟩

/-- Fields out of order on two levels, the least integer, a whole float, a negative zero and a NaN. -/
def unsorted : Value :=
  .object [("é", .array [.float ⟨0x8000000000000000⟩, .integer Int64.minValue, .float ⟨0x7ff8000000000000⟩]),
    ("z", .object [("b", .float ⟨0x4000000000000000⟩), ("B", .null)])]

theorem normalized_eq_normalForm_unsorted : unsorted.IsDistinct ∧ unsorted.normalForm =
    .object [("z", .object [("B", .null), ("b", .float ⟨0x4000000000000000⟩)]),
      ("é", .array [.float ⟨0x8000000000000000⟩, .integer Int64.minValue, .null])] := by
  have h : unsorted.IsDistinct := by
    refine .object (by decide) (List.forall_mem_cons.mpr ⟨.array ?_, List.forall_mem_singleton.mpr ?_⟩)
    · simp only [List.forall_mem_cons]
      exact ⟨.float _, .integer _, .float _, nofun⟩
    · refine .object (by decide) ?_
      simp only [List.forall_mem_cons]
      exact ⟨.float _, .null, nofun⟩
  exact ⟨h, (normalized_eq_normalForm h).1.symm.trans rfl⟩

end Value
end SelectLang
