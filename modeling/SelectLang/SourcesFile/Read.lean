/-
# Reading sources files

Each part of a sources file is an object with certain keys, or an array of what would stand under
those keys, in their order. Of an object the other keys are skipped, whatever stands under them; a
key that is asked for may not be repeated.

What is read goes at most `Json.greatestDepth` arrays and objects deep, counted from the whole file.
A type is read as a whole first, with nothing skipped, and then taken for the first of these that it
has the form of: the name of a scalar, a list of types, a nested shape.

Key definitions: `Json.Raw.members?`, `SourcesFile.parse?`.
-/
import SelectLang.SourcesFile.Basic

namespace SelectLang

/-! ### Forms -/

namespace Json.Raw

/-- A string whose escapes make a text. -/
def text? : Raw → Option String
  | string text => text
  | _ => none

/-- The items of an array. -/
def items? : Raw → Option (List Raw)
  | array items => some items
  | _ => none

/-- What an object has under a key: nothing or one value, but not two. -/
def member? (fields : List (Option String × Raw)) (key : String) : Option (Option Raw) :=
  match fields.filter (·.1 == some key) with
  | [] => some none
  | [(_, value)] => some (some value)
  | _ => none

/-- What stands under each of the keys. The keys of an object must all be texts; an array may be
shorter than the list of keys. -/
def members? (keys : List String) : Raw → Option (List (Option Raw))
  | object fields => if fields.all (·.1.isSome) then keys.mapM (member? fields) else none
  | array items =>
    if items.length ≤ keys.length then
      some (items.map some ++ List.replicate (keys.length - items.length) none)
    else none
  | _ => none

end Json.Raw

open Json

/-! ### Types -/

/-- A field by its accessor, when `type` reads types. -/
def fieldOver? (type : Raw → Option FieldType) (form : Raw) : Option (String × FieldType) :=
  match form.members? ["accessor", "type"] with
  | some [some accessor, some t] =>
    match accessor.text?, type t with
    | some accessor, some t => some (accessor, t)
    | _, _ => none
  | _ => none

/-- The fields by their accessors, when `type` reads types. -/
def fieldsOver? (type : Raw → Option FieldType) (form : Raw) :
    Option (List (String × FieldType)) :=
  match form.items? with
  | some items => items.mapM (fieldOver? type)
  | none => none

namespace FieldType

/-- A nested shape, when `inner` reads the types of its fields. -/
def shapeOver? (inner : Raw → Option FieldType) (form : Raw) : Option FieldType :=
  match form.members? ["name", "fields"] with
  | some [some name, some fields] =>
    match name.text?, fieldsOver? inner fields with
    | some name, some fields => some (.shape name fields)
    | _, _ => none
  | _ => none

/-- A type, when `inner` reads the types within it. -/
def ofFormOver? (inner : Raw → Option FieldType) : Raw → Option FieldType
  | .string text => text.map scalar
  | .array items =>
    match items.mapM inner with
    | some elements => some (.list elements)
    | none => shapeOver? inner (.array items)
  | form => shapeOver? inner form

/-- A type with at most `depth` types within one another. -/
def ofForm? : Nat → Raw → Option FieldType
  | 0, _ => none
  | depth + 1, form => ofFormOver? (ofForm? depth) form

/-- A type that goes at most `depth` arrays and objects deep. -/
def read? (depth : Nat) (form : Raw) : Option FieldType :=
  match form.toJson? depth with
  | some _ => ofForm? (depth + 1) form
  | none => none

end FieldType

/-! ### Files -/

namespace SourceEntry

/-- The records of an entry: those of an array, or none at all. -/
def readRecords? (depth : Nat) : Option Raw → Option (Option (List Json))
  | none => some none
  | some .null => some none
  | some (.array items) => (Raw.itemsToJson? (depth - 1) items).map some
  | some _ => none

/-- An entry that goes at most `depth` arrays and objects deep. -/
def read? (depth : Nat) (form : Raw) : Option SourceEntry :=
  match form.members? ["name", "fields", "records"] with
  | some [some name, some fields, records] =>
    match name.text?, fieldsOver? (FieldType.read? (depth - 3)) fields,
      readRecords? (depth - 1) records with
    | some name, some fields, some records => some ⟨name, fields, records⟩
    | _, _, _ => none
  | _ => none

end SourceEntry

namespace SourcesFile

/-- The file that a document describes. -/
def ofForm? (form : Raw) : Option SourcesFile :=
  match form.members? ["sources"] with
  | some [some sources] =>
    match sources.items? with
    | some items => (items.mapM (SourceEntry.read? (greatestDepth - 2))).map (⟨·⟩)
    | none => none
  | _ => none

/-- The file that a text describes. -/
def parse? (text : String) : Option SourcesFile :=
  (Raw.parse? text).bind ofForm?

end SourcesFile
end SelectLang
