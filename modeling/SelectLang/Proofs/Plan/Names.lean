/-
# The names of the columns

A column without a name of its own gets a number. The numbers are those whose names are given nowhere in the
selection, one after the other (`nextNumber_eq`); there is always one more, for there are more numbers than
given names. So a numbered name meets neither a given nor another numbered one, and naming the columns fails
exactly if a given name stands there twice, at the first that does (`nameColumns_of_nodup`,
`nameColumns_of_repeat`).

Key definitions: `IsFree`, `fillNames`, `FirstRepeat`.
Key theorems: `nextNumber_eq`, `nameColumns_of_nodup`, `nameColumns_of_repeat`.
-/
import Mathlib
import SelectLang.Proofs.Plan.Compiling

namespace SelectLang

/-! ### Numbers -/

theorem numberedName_injective {m n : ℕ} (h : numberedName m = numberedName n) : m = n :=
  Nat.repr_injective ((String.append_right_inj "column").mp h)

/-- Numbers are counted from 1, and the name of a free number is given nowhere. -/
def IsFree (given : List String) (n : ℕ) : Prop := 0 < n ∧ numberedName n ∉ given

instance (given : List String) : DecidablePred (IsFree given) := fun _ =>
  inferInstanceAs (Decidable (_ ∧ _))

/-- Not all of more numbers than there are given names are taken. -/
theorem exists_isFree (given : List String) (n : ℕ) :
    ∃ k ∈ List.range' (n + 1) (given.length + 1), IsFree given k := by
  by_contra h
  have htaken : ((List.range' (n + 1) (given.length + 1)).map numberedName) ⊆ given := by
    intro name hname
    obtain ⟨k, hk, rfl⟩ := List.mem_map.mp hname
    by_contra hfree
    exact h ⟨k, hk, by have := List.mem_range'_1.mp hk; omega, hfree⟩
  have hnodup : ((List.range' (n + 1) (given.length + 1)).map numberedName).Nodup :=
    (List.nodup_range').map fun _ _ => numberedName_injective
  have hlength := (List.subperm_of_subset hnodup htaken).length_le
  rw [List.length_map, List.length_range'] at hlength
  omega

/-- The next number is the first free one above. -/
theorem nextNumber_spec (given : List String) (n : ℕ) : n < nextNumber given n ∧
    IsFree given (nextNumber given n) ∧ ∀ k, n < k → k < nextNumber given n → ¬ IsFree given k := by
  have hrange : (List.range (given.length + 1)).map (n + 1 + ·) = List.range' (n + 1) (given.length + 1) :=
    List.range'_eq_map_range.symm
  have hfree : ∀ {k}, n < k → (IsFree given k ↔ (!given.contains (numberedName k)) = true) := fun hk => by
    simp [IsFree, Nat.zero_lt_of_lt hk]
  cases hfound : (List.range' (n + 1) (given.length + 1)).find? fun k => !given.contains (numberedName k) with
  | none =>
    obtain ⟨k, hk, hk'⟩ := exists_isFree given n
    have hn := (List.mem_range'_1.mp hk).1
    exact absurd ((hfree hn).mp hk') (List.find?_eq_none.mp hfound k hk)
  | some k =>
    have hnext : nextNumber given n = k := by
      rw [nextNumber, hrange, hfound]
      rfl
    obtain ⟨hk, hmem, hbelow⟩ := List.find?_range'_eq_some.mp hfound
    have hn := (List.mem_range'_1.mp hmem).1
    rw [hnext]
    refine ⟨hn, (hfree hn).mpr hk, fun j hj hjk hjfree => ?_⟩
    have hj' := hbelow j hj hjk
    rw [(hfree hj).mp hjfree] at hj'
    cases hj'

/-- Between a number and the next one none is free. -/
theorem count_before_nextNumber (given : List String) (n : ℕ) :
    Nat.count (IsFree given) (nextNumber given n) = Nat.count (IsFree given) (n + 1) := by
  obtain ⟨habove, -, hbelow⟩ := nextNumber_spec given n
  obtain ⟨d, hd⟩ := Nat.exists_eq_add_of_lt habove
  have hnone : Nat.count (fun k => IsFree given (n + 1 + k)) d = 0 := by
    rw [Nat.count_eq_card_filter_range, Finset.card_eq_zero, Finset.filter_eq_empty_iff]
    intro k hk
    have := Finset.mem_range.mp hk
    exact hbelow (n + 1 + k) (by omega) (by omega)
  rw [hd, Nat.add_right_comm, Nat.count_add, hnone, Nat.add_zero]

/-- As many free numbers come before the next number as there are up to the last. -/
theorem nextNumber_eq (given : List String) (n : ℕ) :
    nextNumber given n = Nat.nth (IsFree given) (Nat.count (IsFree given) (n + 1)) := by
  rw [← count_before_nextNumber, Nat.nth_count (nextNumber_spec given n).2.1]

theorem count_nextNumber (given : List String) (n : ℕ) :
    Nat.count (IsFree given) (nextNumber given n + 1) = Nat.count (IsFree given) (n + 1) + 1 := by
  rw [Nat.count_succ, if_pos (nextNumber_spec given n).2.1, count_before_nextNumber]

/-! ### Names that stand there twice -/

/-- The first name that stands there a second time. -/
def FirstRepeat (names : List String) (name : String) : Prop :=
  ∃ front back, names = front ++ name :: back ∧ front.Nodup ∧ name ∈ front

theorem FirstRepeat.not_nodup {names : List String} {name : String} (h : FirstRepeat names name) :
    ¬ names.Nodup := by
  obtain ⟨front, back, rfl, -, hmem⟩ := h
  intro hnodup
  exact (List.nodup_append.mp hnodup).2.2 name hmem name List.mem_cons_self rfl

theorem FirstRepeat.unique {names : List String} {a b : String} (ha : FirstRepeat names a)
    (hb : FirstRepeat names b) : a = b := by
  obtain ⟨front, back, rfl, hnodup, hmem⟩ := ha
  obtain ⟨front', back', heq, hnodup', hmem'⟩ := hb
  -- the one that comes later would have the other twice before it
  have hfirst : ∀ {front between back back' : List String} {a b : String}, (front ++ between).Nodup →
      a ∈ front → a :: back = between ++ b :: back' → a = b := by
    intro front between back back' a b hnodup hmem heq
    cases between with
    | nil => exact (List.cons.inj heq).1
    | cons c between =>
      have hc : a = c := (List.cons.inj heq).1
      exact absurd rfl ((List.nodup_append.mp hnodup).2.2 a hmem a (hc ▸ List.mem_cons_self))
  rcases List.append_eq_append_iff.mp heq with ⟨between, rfl, htail⟩ | ⟨between, rfl, htail⟩
  · exact hfirst hnodup' hmem htail
  · exact (hfirst hnodup hmem' htail).symm

theorem nodup_or_firstRepeat (names : List String) : names.Nodup ∨ ∃ name, FirstRepeat names name := by
  induction names using List.reverseRecOn with
  | nil => exact Or.inl .nil
  | append_singleton names name ih =>
    rcases ih with hnodup | ⟨other, front, back, rfl, hfront, hmem⟩
    · by_cases hmem : name ∈ names
      · exact Or.inr ⟨name, names, [], rfl, hnodup, hmem⟩
      · exact Or.inl (List.concat_eq_append ▸ hnodup.concat hmem)
    · exact Or.inr ⟨other, front, back ++ [name], by simp, hfront, hmem⟩

/-! ### All names -/

/-- The names of columns some of which have one: the others are called by the free numbers from the `k`th on. -/
noncomputable def fillNames (given : List String) : ℕ → List (Option String) → List String
  | _, [] => []
  | k, some name :: names => name :: fillNames given k names
  | k, none :: names => numberedName (Nat.nth (IsFree given) k) :: fillNames given (k + 1) names

/-- Of the names so far those that are given are `before`, and the numbered ones are used up. -/
structure NamedSoFar (given before seen : List String) (used : ℕ) : Prop where
  named : ∀ name ∈ given, name ∈ seen ↔ name ∈ before
  numbered : ∀ n, used < n → IsFree given n → numberedName n ∉ seen

section

variable {given before seen : List String} {used : ℕ}

theorem namedSoFar_nil (given : List String) : NamedSoFar given [] [] 0 :=
  ⟨fun _ _ => Iff.rfl, fun _ _ _ => List.not_mem_nil⟩

theorem NamedSoFar.name (h : NamedSoFar given before seen used) {name : String} (hname : name ∈ given) :
    NamedSoFar given (before ++ [name]) (name :: seen) used where
  named other hother := by
    rw [List.mem_cons, List.mem_append, List.mem_singleton, h.named other hother, or_comm]
  numbered n hn hfree hmem := by
    rcases List.mem_cons.mp hmem with heq | hseen
    · exact hfree.2 (heq ▸ hname)
    · exact h.numbered n hn hfree hseen

theorem NamedSoFar.number (h : NamedSoFar given before seen used) :
    NamedSoFar given before (numberedName (nextNumber given used) :: seen) (nextNumber given used) := by
  obtain ⟨habove, hfree, -⟩ := nextNumber_spec given used
  refine ⟨fun other hother => ?_, fun n hn hn' hmem => ?_⟩
  · rw [List.mem_cons, h.named other hother]
    exact or_iff_right fun heq => hfree.2 (heq ▸ hother)
  · rcases List.mem_cons.mp hmem with heq | hseen
    · exact hn.ne (numberedName_injective heq).symm
    · exact h.numbered n (habove.trans hn) hn' hseen

theorem nameColumns_named {name : String} {type : ColumnType} {expr : ColumnExpr} {drafts : List Draft} :
    nameColumns given used seen (⟨some name, type, expr⟩ :: drafts) =
      if name ∈ seen then .error (.duplicateOutputName name)
      else (nameColumns given used (name :: seen) drafts).map (⟨name, type, expr⟩ :: ·) := by
  simp only [nameColumns, List.contains_eq_mem, decide_eq_true_eq]
  split
  · rfl
  · cases nameColumns given used (name :: seen) drafts <;> rfl

/-- A numbered name was not seen before. -/
theorem NamedSoFar.nameColumns_numbered (h : NamedSoFar given before seen used) {type : ColumnType}
    {expr : ColumnExpr} {drafts : List Draft} : nameColumns given used seen (⟨none, type, expr⟩ :: drafts) =
      (nameColumns given (nextNumber given used) (numberedName (nextNumber given used) :: seen) drafts).map
        (⟨numberedName (nextNumber given used), type, expr⟩ :: ·) := by
  obtain ⟨habove, hfree, -⟩ := nextNumber_spec given used
  have hseen := h.numbered _ habove hfree
  simp only [nameColumns, List.contains_eq_mem, decide_eq_true_eq, if_neg hseen]
  cases nameColumns given (nextNumber given used) (numberedName (nextNumber given used) :: seen) drafts <;> rfl

/-- Columns whose given names differ are named, and the free numbers follow one another. -/
theorem nameColumns_of_nodup : ∀ {drafts : List Draft} {before seen : List String} {used : ℕ},
    NamedSoFar given before seen used → (∀ name ∈ drafts.filterMap Draft.name, name ∈ given) →
      (before ++ drafts.filterMap Draft.name).Nodup →
        ∃ columns, nameColumns given used seen drafts = .ok columns ∧ columns.map Column.name =
          fillNames given (Nat.count (IsFree given) (used + 1)) (drafts.map Draft.name)
  | [], _, _, _, _, _, _ => ⟨[], rfl, rfl⟩
  | ⟨some name, type, expr⟩ :: drafts, before, seen, used, h, hgiven, hnodup => by
    rw [List.filterMap_cons_some (f := Draft.name) rfl] at hgiven hnodup
    obtain ⟨hname, hgiven⟩ := List.forall_mem_cons.mp hgiven
    have hseen : name ∉ seen := by
      rw [h.named name hname]
      exact fun hmem => (List.nodup_append.mp hnodup).2.2 name hmem name List.mem_cons_self rfl
    rw [← List.singleton_append, ← List.append_assoc] at hnodup
    obtain ⟨columns, hcolumns, hnames⟩ := nameColumns_of_nodup (h.name hname) hgiven hnodup
    refine ⟨⟨name, type, expr⟩ :: columns, ?_, ?_⟩
    · rw [nameColumns_named, if_neg hseen, hcolumns]
      rfl
    · rw [List.map_cons, List.map_cons, fillNames, hnames]
  | ⟨none, type, expr⟩ :: drafts, before, seen, used, h, hgiven, hnodup => by
    rw [List.filterMap_cons_none (f := Draft.name) rfl] at hgiven hnodup
    obtain ⟨columns, hcolumns, hnames⟩ := nameColumns_of_nodup h.number hgiven hnodup
    refine ⟨⟨numberedName (nextNumber given used), type, expr⟩ :: columns, ?_, ?_⟩
    · rw [h.nameColumns_numbered, hcolumns]
      rfl
    · rw [List.map_cons, List.map_cons, fillNames, hnames, count_nextNumber, nextNumber_eq]

/-- Where given names meet, the first that is there already is reported. -/
theorem nameColumns_of_repeat {name : String} : ∀ {drafts : List Draft} {before seen : List String} {used : ℕ},
    NamedSoFar given before seen used → (∀ name ∈ drafts.filterMap Draft.name, name ∈ given) → before.Nodup →
      FirstRepeat (before ++ drafts.filterMap Draft.name) name →
        nameColumns given used seen drafts = .error (.duplicateOutputName name)
  | [], before, _, _, _, _, hbefore, hrepeat => by
    rw [List.filterMap_nil, List.append_nil] at hrepeat
    exact absurd hbefore hrepeat.not_nodup
  | ⟨some other, type, expr⟩ :: drafts, before, seen, used, h, hgiven, hbefore, hrepeat => by
    rw [List.filterMap_cons_some (f := Draft.name) rfl] at hgiven hrepeat
    obtain ⟨hother, hgiven⟩ := List.forall_mem_cons.mp hgiven
    rw [nameColumns_named]
    by_cases hmem : other ∈ before
    · have hfirst : FirstRepeat (before ++ other :: drafts.filterMap Draft.name) other :=
        ⟨before, _, rfl, hbefore, hmem⟩
      rw [if_pos ((h.named other hother).mpr hmem), hfirst.unique hrepeat]
    · rw [← List.singleton_append, ← List.append_assoc] at hrepeat
      have hnodup : (before ++ [other]).Nodup := List.concat_eq_append ▸ hbefore.concat hmem
      rw [if_neg (mt (h.named other hother).mp hmem),
        nameColumns_of_repeat (h.name hother) hgiven hnodup hrepeat]
      rfl
  | ⟨none, type, expr⟩ :: drafts, before, seen, used, h, hgiven, hbefore, hrepeat => by
    rw [List.filterMap_cons_none (f := Draft.name) rfl] at hgiven hrepeat
    rw [h.nameColumns_numbered, nameColumns_of_repeat h.number hgiven hbefore hrepeat]
    rfl

end

end SelectLang
