/-
# Records keep the order of insertion

A field that is put into a record takes the place of its name, or a new one at the end; no other field is
touched (`Record.IsSet`). So the record of some fields, put in one after the other, has each of their names once,
in the order in which the names came up first, with the value that came last under the name
(`Record.Collects`). Collected again, the fields of a record make the same record, also if they are listed
several times.

Key definitions: `Record.IsSet`, `Record.IsLast`, `Record.Collects`.
Key theorems: `Record.insert_isSet`, `Record.Collects.insert`, `Record.ofList_eq_self`, `Record.ofList_collects`.
-/
import Mathlib
import SelectLang.Proofs.Text.Entries
import SelectLang.Value.Basic

namespace SelectLang
namespace Record

theorem keys_zip {names : List String} {values : List Value} (h : names.length = values.length) :
    keys (names.zip values) = names := List.map_fst_zip h.le

/-! ### Looking up -/

theorem get?_eq_lookup (name : String) : ∀ record : Record, record.get? name = List.lookup name record
  | [] => rfl
  | (key, value) :: fields => by
    rw [get?, List.lookup_cons, get?_eq_lookup name fields]
    by_cases h : key = name
    · rw [if_pos h, beq_iff_eq.mpr h.symm]
    · rw [if_neg h, beq_eq_false_iff_ne.mpr (Ne.symm h)]

theorem isSome_get?_iff_mem {record : Record} {name : String} :
    (record.get? name).isSome = true ↔ name ∈ record.keys := by
  rw [get?_eq_lookup]
  exact isSome_lookup_iff_mem

theorem exists_get?_of_mem {record : Record} {name : String} (h : name ∈ record.keys) :
    ∃ value, record.get? name = some value := Option.isSome_iff_exists.mp (isSome_get?_iff_mem.mpr h)

theorem get?_eq_none_iff {record : Record} {name : String} : record.get? name = none ↔ name ∉ record.keys := by
  rw [← isSome_get?_iff_mem, Bool.not_eq_true, Option.isSome_eq_false_iff, Option.isNone_iff_eq_none]

/-! ### One field more -/

theorem insert_of_not_mem {name : String} (value : Value) : ∀ {record : Record},
    name ∉ record.keys → record.insert name value = record ++ [(name, value)]
  | [], _ => rfl
  | (key, old) :: fields, h => by
    have hne : key ≠ name := fun heq => h (heq ▸ List.mem_cons_self)
    rw [insert, if_neg hne, insert_of_not_mem value fun hmem => h (List.mem_cons_of_mem key hmem),
      List.cons_append]

theorem keys_insert_of_mem {name : String} (value : Value) : ∀ {record : Record},
    name ∈ record.keys → (record.insert name value).keys = record.keys
  | (key, old) :: fields, h => by
    rw [insert]
    split
    · rfl
    · rename_i hne
      have hfields : name ∈ keys fields := (List.mem_cons.mp h).resolve_left (Ne.symm hne)
      exact congrArg (key :: ·) (keys_insert_of_mem value hfields)

/-- What is found after an insertion. -/
theorem get?_insert (name other : String) (value : Value) : ∀ record : Record,
    (record.insert name value).get? other = if name = other then some value else record.get? other
  | [] => rfl
  | (key, old) :: fields => by
    rw [insert]
    by_cases hkey : key = name
    · subst hkey
      rw [if_pos rfl, get?, get?]
      split <;> rfl
    · rw [if_neg hkey, get?, get?, get?_insert name other value fields]
      by_cases hother : key = other
      · subst hother
        rw [if_pos rfl, if_neg (Ne.symm hkey), if_pos rfl]
      · rw [if_neg hother, if_neg hother]

/-- A field that is there with the value stays as it is. -/
theorem insert_of_get? {name : String} {value : Value} : ∀ {record : Record},
    record.get? name = some value → record.insert name value = record
  | (key, old) :: fields, h => by
    rw [get?] at h
    rw [insert]
    split
    · rename_i hkey
      rw [if_pos hkey, Option.some.injEq] at h
      rw [h]
    · rename_i hkey
      rw [if_neg hkey] at h
      rw [insert_of_get? h]

/-- A record after a field is set: every field is where it was, with its value if it is another field, and a
field that was not there is the last. -/
structure IsSet (record : Record) (name : String) (value : Value) (after : Record) : Prop where
  stays : ∀ (place : ℕ) (key : String) (old : Value), record[place]? = some (key, old) →
    after[place]? = some (key, if key = name then value else old)
  replaced : name ∈ record.keys → after.length = record.length
  added : name ∉ record.keys → after = record ++ [(name, value)]

theorem insert_isSet (name : String) (value : Value) : ∀ {record : Record}, record.keys.Nodup →
    IsSet record name value (record.insert name value)
  | [], _ => ⟨nofun, nofun, fun _ => rfl⟩
  | (key, old) :: fields, h => by
    obtain ⟨hkey, hfields⟩ := List.nodup_cons.mp h
    refine ⟨fun place other found hplace => ?_, fun hmem => ?_, insert_of_not_mem value⟩
    · rw [insert]
      cases place with
      | zero =>
        cases hplace
        split <;> rfl
      | succ place =>
        rw [List.getElem?_cons_succ] at hplace
        split
        · -- the names differ, so the field behind is not the one that is set
          rename_i heq
          have hmem : other ∈ keys fields := List.mem_map.mpr ⟨_, List.mem_of_getElem? hplace, rfl⟩
          have hne : other ≠ name := fun hname => hkey (by rwa [hname, ← heq] at hmem)
          rw [List.getElem?_cons_succ, hplace, if_neg hne]
        · rw [List.getElem?_cons_succ]
          exact (insert_isSet name value hfields).stays place other found hplace
    · have hkeys := congrArg List.length (keys_insert_of_mem value hmem)
      rwa [keys, keys, List.length_map, List.length_map] at hkeys

/-! ### Many fields -/

/-- The value came last under the name. -/
def IsLast (fields : List (String × Value)) (name : String) (value : Value) : Prop :=
  ∃ front back, fields = front ++ (name, value) :: back ∧ name ∉ back.map Prod.fst

theorem isLast_concat {fields : List (String × Value)} {name other : String} {value found : Value} :
    IsLast (fields ++ [(name, value)]) other found ↔
      if name = other then value = found else IsLast fields other found := by
  constructor
  · rintro ⟨front, back, hsplit, hback⟩
    rcases List.eq_nil_or_concat back with rfl | ⟨before, last, rfl⟩
    · obtain ⟨-, hlast⟩ := List.append_inj' hsplit rfl
      cases hlast
      rw [if_pos rfl]
    · rw [List.concat_eq_append, ← List.cons_append, ← List.append_assoc] at hsplit
      obtain ⟨hfields, hlast⟩ := List.append_inj' hsplit rfl
      cases hlast
      rw [List.concat_eq_append, List.map_append, List.mem_append, not_or] at hback
      have hne : name ≠ other := fun heq => hback.2 (heq ▸ List.mem_singleton_self name)
      rw [if_neg hne]
      exact ⟨front, before, hfields, hback.1⟩
  · split
    · rename_i hname
      rintro rfl
      exact ⟨fields, [], by rw [hname], List.not_mem_nil⟩
    · rename_i hname
      rintro ⟨front, back, rfl, hback⟩
      refine ⟨front, back ++ [(name, value)], by rw [List.append_assoc, List.cons_append], ?_⟩
      rw [List.map_append, List.mem_append, List.map_singleton, List.mem_singleton]
      exact fun hor => hor.elim hback (Ne.symm hname)

/-- What a record holds of the fields that were put in one after the other. -/
structure Collects (fields : List (String × Value)) (record : Record) : Prop where
  mem_keys : ∀ name, name ∈ record.keys ↔ name ∈ fields.map Prod.fst
  /-- The names stand in the order in which they came up first. -/
  ordered : record.keys.Pairwise fun a b => (fields.map Prod.fst).idxOf a < (fields.map Prod.fst).idxOf b
  get?_eq_some : ∀ name value, record.get? name = some value ↔ IsLast fields name value

namespace Collects

variable {fields : List (String × Value)} {record : Record}

theorem nil : Collects [] empty where
  mem_keys _ := Iff.rfl
  ordered := .nil
  get?_eq_some _ _ := iff_of_false nofun fun ⟨_, _, hsplit, _⟩ => List.append_ne_nil_of_right_ne_nil _
    (List.cons_ne_nil _ _) hsplit.symm

theorem nodup (h : Collects fields record) : record.keys.Nodup :=
  h.ordered.imp fun hlt heq => hlt.ne (by rw [heq])

theorem length_eq (h : Collects fields record) : record.length = (fields.map Prod.fst).toFinset.card := by
  have hnames : record.keys.toFinset = (fields.map Prod.fst).toFinset := by
    ext name
    rw [List.mem_toFinset, List.mem_toFinset, h.mem_keys]
  rw [← hnames, List.toFinset_card_of_nodup h.nodup, keys, List.length_map]

theorem get?_eq_none (h : Collects fields record) (name : String) :
    record.get? name = none ↔ name ∉ fields.map Prod.fst := by
  rw [get?_eq_none_iff, h.mem_keys]

/-- One field more is collected by putting it in. -/
theorem insert (h : Collects fields record) (name : String) (value : Value) :
    Collects (fields ++ [(name, value)]) (record.insert name value) where
  mem_keys other := by
    rw [List.map_append, List.mem_append, List.map_singleton, List.mem_singleton, ← h.mem_keys other,
      ← isSome_get?_iff_mem, get?_insert]
    by_cases hname : name = other
    · simp [hname]
    · rw [if_neg hname, isSome_get?_iff_mem]
      exact ⟨Or.inl, fun hor => hor.resolve_right (Ne.symm hname)⟩
  ordered := by
    rw [List.map_append]
    have hplace : ∀ {other}, other ∈ record.keys → (fields.map Prod.fst ++ [(name, value)].map Prod.fst).idxOf
        other = (fields.map Prod.fst).idxOf other :=
      fun hmem => List.idxOf_append_of_mem ((h.mem_keys _).mp hmem)
    have hbefore := h.ordered.imp_of_mem fun ha hb hlt => by
      rwa [← hplace ha, ← hplace hb] at hlt
    by_cases hmem : name ∈ record.keys
    · rwa [keys_insert_of_mem value hmem]
    · rw [insert_of_not_mem value hmem, keys, List.map_append]
      refine List.pairwise_append.mpr ⟨hbefore, List.pairwise_singleton _ _, fun other hother last hlast => ?_⟩
      obtain rfl : last = name := List.mem_singleton.mp hlast
      rw [hplace hother, List.idxOf_append_of_notMem fun hold => hmem ((h.mem_keys _).mpr hold)]
      exact Nat.lt_of_lt_of_le (List.idxOf_lt_length_of_mem ((h.mem_keys _).mp hother)) (Nat.le_add_right _ _)
  get?_eq_some other found := by
    rw [get?_insert, isLast_concat]
    split
    · exact Option.some_inj
    · exact h.get?_eq_some other found

end Collects

theorem Collects.ofList (fields : List (String × Value)) : Collects fields (Record.ofList fields) := by
  induction fields using List.reverseRecOn with
  | nil => exact .nil
  | append_singleton fields field ih =>
    rw [Record.ofList, List.foldl_append, List.foldl_cons, List.foldl_nil]
    exact ih.insert field.1 field.2

/-! ### The fields of a record -/

theorem get?_eq_some_of_mem {record : Record} (h : record.keys.Nodup) {name : String} {value : Value}
    (hmem : (name, value) ∈ record) : record.get? name = some value := by
  rw [get?_eq_lookup]
  exact (lookup_eq_some_iff_mem h).mpr hmem

/-- Fields that are there with their values change nothing. -/
theorem foldl_insert_eq_self {record : Record} : ∀ {fields : List (String × Value)},
    (∀ field ∈ fields, record.get? field.1 = some field.2) →
      fields.foldl (fun record field => record.insert field.1 field.2) record = record
  | [], _ => rfl
  | field :: fields, h => by
    obtain ⟨hfield, hfields⟩ := List.forall_mem_cons.mp h
    rw [List.foldl_cons, insert_of_get? hfield, foldl_insert_eq_self hfields]

/-- Fields of names that are new, and of which no two are the same, go behind the others. -/
theorem foldl_insert_eq_append : ∀ {fields : List (String × Value)} {record : Record},
    (record ++ fields).keys.Nodup →
      fields.foldl (fun record field => record.insert field.1 field.2) record = record ++ fields
  | [], record, _ => (List.append_nil record).symm
  | (name, value) :: fields, record, h => by
    have hsplit : record ++ (name, value) :: fields = record ++ [(name, value)] ++ fields := by
      rw [List.append_assoc, List.singleton_append]
    have hnew : name ∉ record.keys := fun hmem => by
      rw [keys, List.map_append] at h
      exact (List.nodup_append.mp h).2.2 name hmem name List.mem_cons_self rfl
    rw [List.foldl_cons, insert_of_not_mem value hnew, hsplit]
    exact foldl_insert_eq_append (hsplit ▸ h)

theorem ofList_eq_self {record : Record} (h : record.keys.Nodup) : ofList record = record :=
  foldl_insert_eq_append h

theorem ofList_flatten_replicate {record : Record} (h : record.keys.Nodup) (n : ℕ) :
    ofList (List.replicate (n + 1) record).flatten = record := by
  have honce : record.foldl (fun record field => record.insert field.1 field.2) empty = record :=
    ofList_eq_self h
  rw [List.replicate_succ, List.flatten_cons, ofList, List.foldl_append, honce]
  refine foldl_insert_eq_self fun field hfield => get?_eq_some_of_mem h ?_
  obtain ⟨copy, hcopy, hmem⟩ := List.mem_flatten.mp hfield
  rwa [List.eq_of_mem_replicate hcopy] at hmem

theorem ofList_reverse {record : Record} (h : record.keys.Nodup) : ofList record.reverse = record.reverse := by
  refine ofList_eq_self ?_
  rw [keys, List.map_reverse, List.nodup_reverse]
  exact h

/-- **A record keeps the order of insertion.** Whatever fields are put in one after the other, the names are all
different and stand in the order in which they came up first, and under each is the value that came last; one
insertion more leaves the other fields as they are and where they are. Collected from its own fields, listed
once or more often, a record is the same, and listed from the end it is turned around. -/
theorem ofList_collects (fields : List (String × Value)) :
    let record := ofList fields
    (Collects fields record ∧ record.keys.Nodup ∧ record.length = (fields.map Prod.fst).toFinset.card) ∧
    (∀ name, record.get? name = none ↔ name ∉ fields.map Prod.fst) ∧
    (∀ name value, ofList (fields ++ [(name, value)]) = record.insert name value ∧
      IsSet record name value (record.insert name value)) ∧
    (∀ n, ofList (List.replicate (n + 1) record).flatten = record) ∧
    ofList record.reverse = record.reverse := by
  intro record
  have h : Collects fields record := .ofList fields
  exact ⟨⟨h, h.nodup, h.length_eq⟩, h.get?_eq_none,
    fun name value => ⟨List.foldl_concat _ _ _ _, insert_isSet name value h.nodup⟩,
    ofList_flatten_replicate h.nodup, ofList_reverse h.nodup⟩

/-- A name that comes up again keeps its place and gets the new value. -/
example : ofList [("b", .boolean true), ("a", .null), ("b", .boolean false)] =
    [("b", .boolean false), ("a", .null)] := rfl

end Record
end SelectLang
