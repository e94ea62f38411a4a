/-
# The first member that serves a source

Members are registered container by container, and in each container in order (`registered`). A member serves
a name if it declares that it returns many records and is called by the convention (`Serves`); the candidates
of a schema are the members that serve some name, and looking a name up among them finds the first that serves
it (`lookup_candidates`). So a source is bound to the first member that serves the camel case of its shape's
name, and where there is none to the first that serves the plural. A member that serves no name is of no
account, wherever it stands.

Key definitions: `registered`, `Serves`, `FirstServing`.
Key theorems: `Schema.lookup_candidates`, `Schema.sourceAt_declare`, `Schema.candidates_restricted`,
`Schema.build_bindings`.
-/
import Mathlib
import SelectLang.Proofs.Schema.Lookup

namespace SelectLang

/-- All members with their containers, in the order in which they are registered. -/
def registered (containers : List Container) : List Binding :=
  containers.flatMap fun container => container.members.map (⟨container.name, ·⟩)

/-- The member returns many records, at once or in the future, and is called as a getter of the name. -/
structure Serves (name : String) (member : Member) : Prop where
  returns : member.returns = .enumerable ∨ member.returns = .futureOfEnumerable
  called : candidateName? member.name = some name

/-- No member that is registered earlier serves the name. -/
def FirstServing (containers : List Container) (name : String) (binding : Binding) : Prop :=
  ∃ place, FirstAt (fun other : Binding => Serves name other.member) (registered containers) place binding

/-- No member serves the name at all. -/
def Unserved (containers : List Container) (name : String) : Prop :=
  ∀ binding ∈ registered containers, ¬ Serves name binding.member

/-- The container with some of its members only. -/
def Container.restrict (kept : Member → Bool) (container : Container) : Container :=
  ⟨container.name, container.members.filter kept⟩

theorem FirstAt.cons_iff {α : Type} {p : α → Prop} {l : List α} {a b : α} :
    (∃ place, FirstAt p (a :: l) place b) ↔ (p a ∧ a = b) ∨ (¬ p a ∧ ∃ place, FirstAt p l place b) := by
  constructor
  · rintro ⟨place, hget, hholds, hearlier⟩
    cases place with
    | zero =>
      obtain rfl : a = b := Option.some.inj hget
      exact Or.inl ⟨hholds, rfl⟩
    | succ place =>
      rw [List.take_succ_cons] at hearlier
      exact Or.inr ⟨hearlier a List.mem_cons_self, place, hget, hholds,
        fun c hc => hearlier c (List.mem_cons_of_mem a hc)⟩
  · rintro (⟨ha, rfl⟩ | ⟨ha, place, hget, hholds, hearlier⟩)
    · exact ⟨0, rfl, ha, nofun⟩
    · refine ⟨place + 1, hget, hholds, fun c hc => ?_⟩
      rw [List.take_succ_cons] at hc
      rcases List.mem_cons.mp hc with rfl | hc
      · exact ha
      · exact hearlier c hc

namespace Schema

variable {containers : List Container} {container : Container} {member : Member} {name other : String}
  {binding : Binding}

/-! ### Candidates -/

theorem isEnumerable_iff {returns : ReturnKind} :
    returns.isEnumerable = true ↔ returns = .enumerable ∨ returns = .futureOfEnumerable := by
  cases returns <;> simp [ReturnKind.isEnumerable]

theorem candidate?_eq_some : candidate? container member = some (name, binding) ↔
    Serves name member ∧ binding = ⟨container.name, member⟩ := by
  unfold candidate?
  split_ifs with hreturns
  · rw [Option.map_eq_some_iff]
    constructor
    · rintro ⟨served, hcalled, hpair⟩
      obtain ⟨rfl, rfl⟩ := Prod.mk.inj hpair
      exact ⟨⟨isEnumerable_iff.mp hreturns, hcalled⟩, rfl⟩
    · rintro ⟨hserves, rfl⟩
      exact ⟨name, hserves.called, rfl⟩
  · refine iff_of_false nofun fun ⟨hserves, _⟩ => ?_
    exact hreturns (isEnumerable_iff.mpr hserves.returns)

/-- Looking a name up in the candidates of a container and what is behind it finds the first member that serves
the name. -/
theorem lookup_container (rest : List (String × Binding)) (bindings : List Binding)
    (hrest : ∀ b, rest.lookup name = some b ↔
      ∃ place, FirstAt (fun other : Binding => Serves name other.member) bindings place b) :
    ∀ members : List Member,
      (members.filterMap (candidate? container) ++ rest).lookup name = some binding ↔
        ∃ place, FirstAt (fun other : Binding => Serves name other.member)
          (members.map (⟨container.name, ·⟩) ++ bindings) place binding
  | [] => hrest binding
  | member :: members => by
    have ih := lookup_container rest bindings hrest members
    rw [List.map_cons, List.cons_append, FirstAt.cons_iff, List.filterMap_cons, ← ih]
    cases hcandidate : candidate? container member with
    | none =>
      have hserves : ¬ Serves name member := fun h => by
        have hsome : candidate? container member = some (name, _) := candidate?_eq_some.mpr ⟨h, rfl⟩
        rw [hcandidate] at hsome
        cases hsome
      simp [hserves]
    | some candidate =>
      obtain ⟨served, found⟩ := candidate
      obtain ⟨hserves, rfl⟩ := candidate?_eq_some.mp hcandidate
      rw [List.cons_append, List.lookup_cons]
      by_cases hname : name = served
      · subst hname
        simp [hserves]
      · have hother : ¬ Serves name member := fun h =>
          hname (Option.some.inj (h.called.symm.trans hserves.called))
        rw [beq_false_of_ne hname]
        simp [hother]

/-- The first candidate for a name is the first member that serves it. -/
theorem lookup_candidates : ∀ {containers : List Container} {binding : Binding},
    (candidates containers).lookup name = some binding ↔ FirstServing containers name binding
  | [], _ => iff_of_false nofun fun ⟨_, hfirst⟩ => nomatch hfirst.getElem?
  | container :: containers, _ =>
    lookup_container (candidates containers) (registered containers)
      (fun _ => lookup_candidates) container.members

theorem lookup_candidates_eq_none :
    (candidates containers).lookup name = none ↔ Unserved containers name := by
  constructor
  · intro h binding hmem hserves
    obtain ⟨place, first, hfirst⟩ :=
      FirstAt.exists_of_mem (p := fun other : Binding => Serves name other.member) ⟨binding, hmem, hserves⟩
    have hlookup := lookup_candidates.mpr ⟨place, hfirst⟩
    rw [h] at hlookup
    cases hlookup
  · intro h
    cases hlookup : (candidates containers).lookup name with
    | none => rfl
    | some binding =>
      obtain ⟨place, hfirst⟩ := lookup_candidates.mp hlookup
      exact absurd hfirst.holds (h binding (List.mem_of_getElem? hfirst.getElem?))

/-- Members that serve no name are not among the candidates, so it makes no difference to leave them out. -/
theorem candidates_restricted {kept : Member → Bool} (h : ∀ name member, Serves name member → kept member) :
    candidates (containers.map (Container.restrict kept)) = candidates containers := by
  rw [candidates, candidates, List.flatMap_map]
  refine List.flatMap_congr fun container _ => ?_
  rw [Container.restrict, List.filterMap_filter]
  refine List.filterMap_congr fun member _ => ?_
  by_cases hkept : kept member = true
  · rw [if_pos hkept]
    rfl
  · rw [if_neg hkept]
    cases hcandidate : candidate? container member with
    | none => rfl
    | some candidate => exact absurd (h _ _ (candidate?_eq_some.mp hcandidate).1) hkept

/-! ### Bindings -/

/-- The first name that is served decides. -/
theorem bind?_eq_some : bind? (candidates containers) [name, other] = some binding ↔
    FirstServing containers name binding ∨
      (Unserved containers name ∧ FirstServing containers other binding) := by
  rw [bind?_pair, ← lookup_candidates, ← lookup_candidates, ← lookup_candidates_eq_none]
  exact Option.or_eq_some_iff

theorem bind?_eq_none : bind? (candidates containers) [name, other] = none ↔
    Unserved containers name ∧ Unserved containers other := by
  rw [bind?_pair, ← lookup_candidates_eq_none, ← lookup_candidates_eq_none]
  exact Option.or_eq_none_iff

/-- A source is that of a shape, and is bound by the two names of that shape. -/
theorem sourceAt_declare {number : Nat} {candidates : List (String × Binding)} {source : Source} :
    ∀ (rest seen : List Shape) (taken : List String) (index : Nat), Takes seen taken →
      source ∈ declare number candidates taken index rest →
        ∃ place shape, SourceAt (seen ++ rest) place shape source ∧
          source.binding = bind? candidates (synonyms shape)
  | [], _, _, _, _, h => nomatch h
  | shape :: rest, seen, taken, index, htakes, h => by
    have later (index : Nat)
        (h : source ∈ declare number candidates (free taken (synonyms shape) ++ taken) index rest) :
        ∃ place shape', SourceAt (seen ++ shape :: rest) place shape' source ∧
          source.binding = bind? candidates (synonyms shape') := by
      have h := sourceAt_declare rest (seen ++ [shape]) _ index htakes.step h
      rwa [List.append_assoc, List.singleton_append] at h
    by_cases hfree : free taken (synonyms shape) = []
    · rw [declare_skipped hfree] at h
      rw [hfree, List.nil_append] at later
      exact later index h
    · rw [declare_served hfree] at h
      rcases List.mem_cons.mp h with rfl | h
      · exact ⟨seen.length, shape,
          ⟨by simp, rfl, free_sublist _ _, nodup_free _ _, htakes.mem_free_iff⟩, rfl⟩
      · exact later (index + 1) h

/-! ### The schema -/

/-- What a source of the shape is bound to: the first member that serves its name, or else the first that serves
its plural. -/
structure BoundFirst (containers : List Container) (shape : Shape) (binding : Option Binding) : Prop where
  some_iff : ∀ first, binding = some first ↔ FirstServing containers (camelCase shape.name) first ∨
    (Unserved containers (camelCase shape.name) ∧ FirstServing containers (camelCase (shape.name ++ "s")) first)
  none_iff : binding = none ↔
    Unserved containers (camelCase shape.name) ∧ Unserved containers (camelCase (shape.name ++ "s"))

theorem boundFirst_synonyms (shape : Shape) :
    BoundFirst containers shape (bind? (candidates containers) (synonyms shape)) :=
  ⟨fun _ => bind?_eq_some, bind?_eq_none⟩

/-- What a source is bound to serves one of the names of its shape. -/
theorem BoundFirst.serves {shape : Shape} {bound : Option Binding} (h : BoundFirst containers shape bound)
    (hbound : bound = some binding) : ∃ name ∈ synonyms shape, Serves name binding.member := by
  rcases (h.some_iff binding).mp hbound with ⟨place, hfirst⟩ | ⟨-, place, hfirst⟩
  · exact ⟨_, List.mem_cons_self, hfirst.holds⟩
  · exact ⟨_, List.mem_cons_of_mem _ List.mem_cons_self, hfirst.holds⟩

/-- **A source is bound to the first member that serves it.** Each source of a schema is that of a shape, and is
bound to the member registered first among those that serve the name of the shape, or, if there is none, among
those that serve its plural; it is without a binding exactly where no member serves either. A member that returns
something else, or is not called by the convention, is never bound, and a schema stays as it is when such members
are left out. -/
theorem build_bindings (number : Nat) (shapes : List Shape) (containers : List Container) :
    (∀ source ∈ (build number shapes containers).sources, ∃ place shape,
      SourceAt shapes place shape source ∧ BoundFirst containers shape source.binding ∧
        ∀ binding, source.binding = some binding →
          binding.member.returns ≠ .other ∧ ∃ name, candidateName? binding.member.name = some name) ∧
    ∀ kept : Member → Bool, (∀ name member, Serves name member → kept member = true) →
      build number shapes (containers.map (Container.restrict kept)) = build number shapes containers := by
  constructor
  · intro source hmem
    have hnone : Takes [] [] := fun name => by simp
    obtain ⟨place, shape, hat, hbinding⟩ := sourceAt_declare shapes [] [] 0 hnone hmem
    have hbound : BoundFirst containers shape source.binding := hbinding ▸ boundFirst_synonyms shape
    refine ⟨place, shape, hat, hbound, fun binding h => ?_⟩
    obtain ⟨name, -, hserves⟩ := hbound.serves h
    refine ⟨fun hother => ?_, name, hserves.called⟩
    rcases hserves.returns with hreturns | hreturns <;> rw [hother] at hreturns <;> cases hreturns
  · intro kept hkept
    rw [build, build, candidates_restricted hkept]

/-- A getter of a book that returns no list, a list that is called otherwise, and two getters of books. -/
def shelf : Container :=
  ⟨"Shelf", [.raw "getBook" .other fun _ => ⟨[], .ok .null⟩, .raw "listBooks" .enumerable fun _ => ⟨[], .ok .null⟩,
    .deferred "get_books_async" fun _ => ⟨[], .ok []⟩, .typed "GetBooks" fun _ => ⟨[], .ok []⟩]⟩

/-- The first list of books is found behind the members that serve no name, and without them. -/
theorem build_bindings_shelf :
    (∀ name member, Serves name member → (member.returns != .other) = true) ∧
      build 0 [⟨"Book", []⟩] [shelf.restrict (·.returns != .other)] = build 0 [⟨"Book", []⟩] [shelf] ∧
        ((build 0 [⟨"Book", []⟩] [shelf]).sources.map fun source => source.binding.map (·.member.name)) =
          [some "get_books_async"] := by
  have hkept : ∀ name member, Serves name member → (member.returns != .other) = true := fun name member h => by
    rcases h.returns with hreturns | hreturns <;> rw [hreturns] <;> rfl
  exact ⟨hkept, (build_bindings 0 [⟨"Book", []⟩] [shelf]).2 _ hkept, by decide +kernel⟩

end Schema
end SelectLang
