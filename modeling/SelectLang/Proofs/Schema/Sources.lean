/-
# The sources of a context

The schemas of a context are declared one after the other and numbered as they come (`schemasOf`). A
source is known by its number: in one context no two sources have the same.

Where shapes are labelled, a source can be told by the label of the shape that it was declared from
(`declareLabelled`).

Key definitions: `schemasOf`, `Schema.declareLabelled`.
Key theorems: `source_eq_of_id`, `Schema.map_snd_declareLabelled`.
-/
import Mathlib
import SelectLang.Schema.Catalog

namespace SelectLang

/-- The schemas of a context, declared in this order by their shapes and containers. -/
def schemasOf (declarations : List (List Shape × List Container)) : List Schema :=
  declarations.mapIdx fun number declaration => .build number declaration.1 declaration.2

namespace Schema

/-- The sources that are declared from a place on have places from there on, each its own. -/
theorem id_declare (number : Nat) (candidates : List (String × Binding)) :
    ∀ (shapes : List Shape) (taken : List String) (index : Nat),
      (∀ source ∈ declare number candidates taken index shapes,
        source.id.schema = number ∧ index ≤ source.id.index) ∧
      (declare number candidates taken index shapes).Pairwise fun a b => a.id.index < b.id.index
  | [], _, _ => ⟨nofun, .nil⟩
  | shape :: shapes, taken, index => by
    unfold declare
    simp only
    split
    · exact id_declare number candidates shapes taken index
    · obtain ⟨hid, hpairs⟩ := id_declare number candidates shapes (free taken (synonyms shape) ++ taken)
        (index + 1)
      refine ⟨List.forall_mem_cons.mpr ⟨⟨rfl, Nat.le_refl _⟩, fun source hs => ?_⟩,
        List.pairwise_cons.mpr ⟨fun source hs => ?_, hpairs⟩⟩
      · exact ⟨(hid source hs).1, by have := (hid source hs).2; omega⟩
      · exact (hid source hs).2

theorem eq_of_index {number : Nat} {shapes : List Shape} {containers : List Container} {a b : Source}
    (ha : a ∈ (build number shapes containers).sources)
    (hb : b ∈ (build number shapes containers).sources) (h : a.id.index = b.id.index) : a = b := by
  have hpairs := (id_declare number (candidates containers) shapes [] 0).2
  obtain ⟨i, hi, rfl⟩ := List.getElem_of_mem ha
  obtain ⟨j, hj, rfl⟩ := List.getElem_of_mem hb
  rw [List.pairwise_iff_getElem] at hpairs
  rcases Nat.lt_trichotomy i j with hij | rfl | hij
  · exact absurd h (hpairs i j hi hj hij).ne
  · rfl
  · exact absurd h.symm (hpairs j i hj hi hij).ne

/-! ### Bindings -/

theorem bind?_pair (candidates : List (String × Binding)) (name other : String) :
    bind? candidates [name, other] = (candidates.lookup name).or (candidates.lookup other) := by
  rw [bind?, List.findSome?_cons, List.findSome?_cons, List.findSome?_nil]
  cases candidates.lookup name <;> cases candidates.lookup other <;> rfl

/-! ### Labelled shapes -/

/-- The sources of labelled shapes, as they are declared, each with the label of its shape. -/
def declareLabelled {α : Type} (number : Nat) (candidates : List (String × Binding)) :
    List String → Nat → List (α × Shape) → List (α × Source)
  | _, _, [] => []
  | taken, index, (label, shape) :: shapes =>
    let names := synonyms shape
    match free taken names with
    | [] => declareLabelled number candidates taken index shapes
    | identifiers =>
      (label, ⟨⟨number, index⟩, identifiers, .ofShape shape, bind? candidates names⟩) ::
        declareLabelled number candidates (identifiers ++ taken) (index + 1) shapes

variable {α : Type} {number : Nat} {candidates : List (String × Binding)}

theorem map_snd_declareLabelled : ∀ (shapes : List (α × Shape)) (taken : List String) (index : Nat),
    (declareLabelled number candidates taken index shapes).map Prod.snd =
      declare number candidates taken index (shapes.map Prod.snd)
  | [], _, _ => rfl
  | (label, shape) :: shapes, taken, index => by
    rw [declareLabelled, List.map_cons, declare]
    cases free taken (synonyms shape) with
    | nil => exact map_snd_declareLabelled shapes taken index
    | cons name names => exact congrArg _ (map_snd_declareLabelled shapes _ _)

/-- A source is bound by the names of the shape that it was declared from. -/
theorem bind?_of_mem_declareLabelled {label : α} {source : Source} :
    ∀ {shapes : List (α × Shape)} {taken : List String} {index : Nat},
      (label, source) ∈ declareLabelled number candidates taken index shapes →
        ∃ shape, (label, shape) ∈ shapes ∧ source.binding = bind? candidates (synonyms shape)
  | [], _, _, h => by cases h
  | (other, shape) :: shapes, taken, index, h => by
    unfold declareLabelled at h
    simp only at h
    split at h
    · obtain ⟨found, hmem, hbind⟩ := bind?_of_mem_declareLabelled h
      exact ⟨found, List.mem_cons_of_mem _ hmem, hbind⟩
    · rcases List.mem_cons.mp h with heq | h
      · cases heq
        exact ⟨shape, List.mem_cons_self, rfl⟩
      · obtain ⟨found, hmem, hbind⟩ := bind?_of_mem_declareLabelled h
        exact ⟨found, List.mem_cons_of_mem _ hmem, hbind⟩

end Schema

/-- In one context a source is known by its number. -/
theorem source_eq_of_id {declarations : List (List Shape × List Container)} {s t : Schema}
    {a b : Source} (hs : s ∈ schemasOf declarations) (ha : a ∈ s.sources)
    (ht : t ∈ schemasOf declarations) (hb : b ∈ t.sources) (h : a.id = b.id) : a = b := by
  obtain ⟨i, hi, rfl⟩ := List.mem_mapIdx.mp hs
  obtain ⟨j, hj, rfl⟩ := List.mem_mapIdx.mp ht
  have hij : i = j := by
    rw [← ((Schema.id_declare i _ _ [] 0).1 a ha).1, ← ((Schema.id_declare j _ _ [] 0).1 b hb).1, h]
  subst hij
  exact Schema.eq_of_index ha hb (congrArg SourceId.index h)

end SelectLang
