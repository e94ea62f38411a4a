/-
# Entries and their names

Where every name is there once, an entry is found by its name wherever it stands. Entries that are put in by
their names ascend, so that what they hold says in which order they stand.

Key theorems: `lookup_eq_some_iff_mem`, `lookup_eq_of_perm`, `insertSorted_perm`, `eq_of_ascending`,
`insertSorted_comm`.
-/
import Mathlib
import SelectLang.Text.Ascending

namespace SelectLang

theorem nodup_map_append {α β : Type} {f : α → β} {as : List α} {a : α} (h : (as.map f).Nodup)
    (ha : f a ∉ as.map f) : ((as ++ [a]).map f).Nodup := by
  rw [List.map_append, List.map_singleton, ← List.concat_eq_append]
  exact h.concat ha

section

variable {α β : Type} [BEq α] [LawfulBEq α] {entries more : List (α × β)} {name : α}

theorem isSome_lookup_iff_mem : (entries.lookup name).isSome = true ↔ name ∈ entries.map Prod.fst := by
  rw [List.lookup_isSome_iff, List.mem_map]
  constructor
  · rintro ⟨entry, hentry, hname⟩
    exact ⟨entry, hentry, (eq_of_beq hname).symm⟩
  · rintro ⟨entry, hentry, rfl⟩
    exact ⟨entry, hentry, beq_self_eq_true _⟩

theorem isSome_lookup_eq_false_iff : (entries.lookup name).isSome = false ↔ name ∉ entries.map Prod.fst := by
  rw [← Bool.not_eq_true, isSome_lookup_iff_mem]

theorem lookup_eq_some_iff_mem (h : (entries.map Prod.fst).Nodup) {value : β} :
    entries.lookup name = some value ↔ (name, value) ∈ entries := by
  constructor
  · intro hlookup
    obtain ⟨front, back, rfl, -⟩ := List.lookup_eq_some_iff.mp hlookup
    exact List.mem_append_right front List.mem_cons_self
  · intro hmem
    induction entries with
    | nil => cases hmem
    | cons entry entries ih =>
      obtain ⟨hentry, hentries⟩ := List.nodup_cons.mp h
      rcases List.mem_cons.mp hmem with rfl | hmem
      · exact List.lookup_cons_self
      · have hne : (name == entry.1) = false := by
          refine beq_eq_false_iff_ne.mpr fun heq => hentry ?_
          rw [← heq]
          exact List.mem_map_of_mem hmem
        rw [List.lookup_cons, hne]
        exact ih hentries hmem

theorem lookup_eq_of_perm (h : entries.Perm more) (hnames : (entries.map Prod.fst).Nodup) :
    entries.lookup name = more.lookup name := by
  have hmore : (more.map Prod.fst).Nodup := (h.map Prod.fst).nodup_iff.mp hnames
  ext value
  rw [lookup_eq_some_iff_mem hnames, lookup_eq_some_iff_mem hmore, h.mem_iff]

end

section

variable {α : Type} {entries more : List (String × α)} {name : String} {value : α}

/-- An entry of a new name is one more. -/
theorem insertSorted_perm (h : name ∉ entries.map Prod.fst) (value : α) :
    (insertSorted name value entries).Perm ((name, value) :: entries) := by
  induction entries with
  | nil => exact .refl _
  | cons entry entries ih =>
    obtain ⟨hne, hentries⟩ : name ≠ entry.1 ∧ name ∉ entries.map Prod.fst := by
      simpa using h
    rw [insertSorted]
    cases hname : compare name entry.1 with
    | lt => exact .refl _
    | eq => exact absurd (compare_eq_iff_eq.mp hname) hne
    | gt => exact ((ih hentries).cons entry).trans (.swap _ _ _)

theorem mem_names_insertSorted (h : name ∉ entries.map Prod.fst) {other : String} :
    other ∈ (insertSorted name value entries).map Prod.fst ↔ other = name ∨ other ∈ entries.map Prod.fst := by
  rw [((insertSorted_perm h value).map Prod.fst).mem_iff]
  exact List.mem_cons

theorem mem_of_mem_insertSorted {entry : String × α} (h : entry ∈ insertSorted name value entries) :
    entry = (name, value) ∨ entry ∈ entries := by
  induction entries with
  | nil => exact Or.inl (List.mem_singleton.mp h)
  | cons first entries ih =>
    rw [insertSorted] at h
    cases hname : compare name first.1 <;> rw [hname] at h <;> dsimp only at h
    · exact List.mem_cons.mp h
    · exact (List.mem_cons.mp h).imp_right (List.mem_cons_of_mem first)
    · rcases List.mem_cons.mp h with rfl | h
      · exact Or.inr List.mem_cons_self
      · exact (ih h).imp_right (List.mem_cons_of_mem first)

/-- The names ascend. -/
def Ascending (entries : List (String × α)) : Prop := entries.Pairwise fun a b => a.1 < b.1

theorem Ascending.insertSorted (h : Ascending entries) : Ascending (insertSorted name value entries) := by
  induction entries with
  | nil => exact List.pairwise_singleton _ _
  | cons first entries ih =>
    obtain ⟨hfirst, hentries⟩ := List.pairwise_cons.mp h
    rw [SelectLang.insertSorted]
    cases hname : compare name first.1 with
    | lt =>
      have hlt : name < first.1 := compare_lt_iff_lt.mp hname
      exact h.cons (List.forall_mem_cons.mpr ⟨hlt, fun entry he => hlt.trans (hfirst entry he)⟩)
    | eq =>
      have heq : name = first.1 := compare_eq_iff_eq.mp hname
      exact hentries.cons (heq ▸ hfirst)
    | gt =>
      have hgt : first.1 < name := compare_gt_iff_gt.mp hname
      refine (ih hentries).cons fun entry he => ?_
      rcases mem_of_mem_insertSorted he with rfl | he
      · exact hgt
      · exact hfirst entry he

/-- Ascending entries are the same if they hold the same. -/
theorem eq_of_ascending (h : entries.Perm more) (ha : Ascending entries) (hb : Ascending more) :
    entries = more :=
  h.eq_of_pairwise (fun _ _ _ _ hab hba => absurd hba (not_lt_of_gt hab)) ha hb

/-- Entries of two new names may be put in in either order. -/
theorem insertSorted_comm (h : Ascending entries) {other : String} (hne : name ≠ other)
    (hname : name ∉ entries.map Prod.fst) (hother : other ∉ entries.map Prod.fst) (value value' : α) :
    insertSorted other value' (insertSorted name value entries) =
      insertSorted name value (insertSorted other value' entries) := by
  have hbehind : other ∉ (insertSorted name value entries).map Prod.fst := fun hmem =>
    ((mem_names_insertSorted hname).mp hmem).elim hne.symm hother
  have hbefore : name ∉ (insertSorted other value' entries).map Prod.fst := fun hmem =>
    ((mem_names_insertSorted hother).mp hmem).elim hne hname
  have hperm := (insertSorted_perm hbehind value').trans ((insertSorted_perm hname value).cons _)
  have hperm' := (insertSorted_perm hbefore value).trans ((insertSorted_perm hother value').cons _)
  exact eq_of_ascending (hperm.trans ((List.Perm.swap _ _ _).trans hperm'.symm)) h.insertSorted.insertSorted
    h.insertSorted.insertSorted

end

end SelectLang
