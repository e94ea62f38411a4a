/-
# Looking names up

The shapes of a schema take their names in order, and the first to go by a name keeps it. So the
names that are taken when a shape is declared are those of the shapes before it (`Takes`), and a source
goes by the names that its shape is the first to have (`SourceAt`). A name is found in the first schema
with a shape that goes by it.

Key definitions: `withSchema`, `FirstAt`, `Schema.SourceAt`, `Schema.FirstServed`, `FirstSource`.
Key theorems: `Schema.servedFrom_declare`, `Schema.build_firstServed`, `findSource_firstServed`.
-/
import Mathlib
import SelectLang.Proofs.Schema.Sources

namespace SelectLang

/-- A context with one more schema, which is numbered by the schemas before it. -/
def withSchema (schemas : List Schema) (declaration : List Shape × List Container) : List Schema :=
  schemas ++ [.build schemas.length declaration.1 declaration.2]

theorem foldl_withSchema (declarations : List (List Shape × List Container)) :
    declarations.foldl withSchema [] = schemasOf declarations := by
  induction declarations using List.reverseRecOn with
  | nil => rfl
  | append_singleton declarations declaration ih =>
    rw [List.foldl_append, List.foldl_cons, List.foldl_nil, ih, withSchema, schemasOf, schemasOf,
      List.mapIdx_concat, List.length_mapIdx]

/-! ### The first of a list -/

/-- The first element with the property is `a`, and it stands at this place. -/
structure FirstAt {α : Type} (p : α → Prop) (l : List α) (place : Nat) (a : α) : Prop where
  getElem? : l[place]? = some a
  holds : p a
  earlier : ∀ b ∈ l.take place, ¬ p b

namespace FirstAt

variable {α : Type} {p : α → Prop} {l : List α} {a b : α} {i j : Nat}

theorem not_lt (hi : FirstAt p l i a) (hj : FirstAt p l j b) : ¬ i < j := fun hij =>
  hj.earlier a (List.mem_iff_getElem?.mpr ⟨i, by rw [List.getElem?_take_of_lt hij, hi.getElem?]⟩) hi.holds

theorem place_eq (hi : FirstAt p l i a) (hj : FirstAt p l j b) : i = j :=
  Nat.le_antisymm (Nat.le_of_not_lt (hj.not_lt hi)) (Nat.le_of_not_lt (hi.not_lt hj))

/-- Where some element has the property, one is the first. -/
theorem exists_of_mem : ∀ {l : List α}, (∃ a ∈ l, p a) → ∃ place a, FirstAt p l place a
  | [], h => by obtain ⟨_, h, _⟩ := h; cases h
  | b :: l, h => by
    by_cases hb : p b
    · exact ⟨0, b, rfl, hb, nofun⟩
    · obtain ⟨a, ha, hp⟩ := h
      have hmem : a ∈ l := (List.mem_cons.mp ha).resolve_left fun hab => hb (hab ▸ hp)
      obtain ⟨place, first, hfirst⟩ := exists_of_mem ⟨a, hmem, hp⟩
      refine ⟨place + 1, first, hfirst.getElem?, hfirst.holds, fun c hc => ?_⟩
      rcases List.mem_cons.mp hc with rfl | hc
      · exact hb
      · exact hfirst.earlier c hc

end FirstAt

namespace Schema

/-! ### Names that are free -/

theorem mem_free {name : String} : ∀ {taken names : List String},
    name ∈ free taken names ↔ name ∈ names ∧ name ∉ taken
  | taken, [] => by simp [free]
  | taken, other :: names => by
    unfold free
    split
    case isTrue htaken =>
      have htaken : other ∈ taken := List.contains_iff_mem.mp htaken
      rw [mem_free, List.mem_cons]
      constructor
      · rintro ⟨hmem, hfree⟩
        exact ⟨.inr hmem, hfree⟩
      · rintro ⟨rfl | hmem, hfree⟩
        · exact absurd htaken hfree
        · exact ⟨hmem, hfree⟩
    case isFalse hother =>
      have hother : other ∉ taken := fun h => hother (List.contains_iff_mem.mpr h)
      rw [List.mem_cons, mem_free, List.mem_cons, List.mem_cons]
      by_cases heq : name = other
      · subst heq
        simp [hother]
      · simp [heq]

theorem nodup_free : ∀ (taken names : List String), (free taken names).Nodup
  | _, [] => .nil
  | taken, name :: names => by
    unfold free
    split
    · exact nodup_free taken names
    · exact List.nodup_cons.mpr ⟨fun h => (mem_free.mp h).2 List.mem_cons_self, nodup_free _ names⟩

theorem free_sublist : ∀ (taken names : List String), (free taken names).Sublist names
  | _, [] => .slnil
  | taken, name :: names => by
    unfold free
    split
    · exact (free_sublist taken names).cons _
    · exact (free_sublist _ names).cons_cons _

/-! ### Sources and their shapes -/

/-- The source is that of the shape at this place: it goes by the names that the shape is the first to
have. -/
structure SourceAt (shapes : List Shape) (place : Nat) (shape : Shape) (source : Source) : Prop where
  getElem? : shapes[place]? = some shape
  type : source.type = .ofShape shape
  sublist : source.identifiers.Sublist (synonyms shape)
  nodup : source.identifiers.Nodup
  mem_iff : ∀ name, name ∈ source.identifiers ↔ FirstAt (name ∈ synonyms ·) shapes place shape

theorem SourceAt.place_eq {shapes : List Shape} {i j : Nat} {s t : Shape} {source : Source}
    (hi : SourceAt shapes i s source) (hj : SourceAt shapes j t source) (hnamed : source.identifiers ≠ []) :
    i = j := by
  obtain ⟨name, hname⟩ := List.exists_mem_of_ne_nil _ hnamed
  exact ((hi.mem_iff name).mp hname).place_eq ((hj.mem_iff name).mp hname)

/-- The names `taken` are those that the shapes `seen` go by. -/
def Takes (seen : List Shape) (taken : List String) : Prop :=
  ∀ name, name ∈ taken ↔ ∃ shape ∈ seen, name ∈ synonyms shape

section Declare

variable {number : Nat} {candidates : List (String × Binding)} {seen rest : List Shape} {shape : Shape}
  {taken : List String} {index : Nat}

theorem Takes.step (h : Takes seen taken) :
    Takes (seen ++ [shape]) (free taken (synonyms shape) ++ taken) := by
  intro name
  rw [List.mem_append, mem_free, h name]
  by_cases hseen : ∃ shape ∈ seen, name ∈ synonyms shape
  · obtain ⟨other, hmem, hname⟩ := hseen
    exact iff_of_true (.inr ⟨other, hmem, hname⟩) ⟨other, List.mem_append_left _ hmem, hname⟩
  · constructor
    · rintro (⟨hname, -⟩ | hmem)
      · exact ⟨shape, List.mem_append_right _ List.mem_cons_self, hname⟩
      · exact absurd hmem hseen
    · rintro ⟨other, hmem, hname⟩
      rcases List.mem_append.mp hmem with hmem | hmem
      · exact absurd ⟨other, hmem, hname⟩ hseen
      · rw [List.mem_singleton.mp hmem] at hname
        exact .inl ⟨hname, hseen⟩

/-- What is free for a shape are the names that it is the first to have. -/
theorem Takes.mem_free_iff (h : Takes seen taken) (name : String) :
    name ∈ free taken (synonyms shape) ↔
      FirstAt (name ∈ synonyms ·) (seen ++ shape :: rest) seen.length shape := by
  rw [mem_free, h name]
  constructor
  · rintro ⟨hname, hfree⟩
    refine ⟨by simp, hname, fun other hmem hother => hfree ⟨other, ?_, hother⟩⟩
    rwa [List.take_left] at hmem
  · rintro ⟨-, hname, hearlier⟩
    rw [List.take_left] at hearlier
    exact ⟨hname, fun ⟨other, hmem, hother⟩ => hearlier other hmem hother⟩

theorem declare_skipped (h : free taken (synonyms shape) = []) :
    declare number candidates taken index (shape :: rest) = declare number candidates taken index rest := by
  simp only [declare, h]

theorem declare_served (h : free taken (synonyms shape) ≠ []) :
    declare number candidates taken index (shape :: rest) =
      ⟨⟨number, index⟩, free taken (synonyms shape), .ofShape shape, bind? candidates (synonyms shape)⟩ ::
        declare number candidates (free taken (synonyms shape) ++ taken) (index + 1) rest := by
  rw [declare]
  cases hfree : free taken (synonyms shape) with
  | nil => exact absurd hfree h
  | cons name names => rfl

end Declare

/-! ### The sources from a place on -/

/-- The sources are those of the shapes from this place on, in order: of each that is the first to have
some name. -/
structure ServedFrom (shapes : List Shape) (first : Nat) (sources : List Source) : Prop where
  named : ∀ source ∈ sources, source.identifiers ≠ []
  declared : ∀ source ∈ sources, ∃ place shape, first ≤ place ∧ SourceAt shapes place shape source
  complete : ∀ name place shape, first ≤ place → FirstAt (name ∈ synonyms ·) shapes place shape →
    ∃ source ∈ sources, SourceAt shapes place shape source
  ordered : sources.Pairwise fun a b => ∀ i j s t,
    SourceAt shapes i s a → SourceAt shapes j t b → i < j

namespace ServedFrom

variable {shapes : List Shape} {first : Nat} {shape : Shape} {source : Source} {sources : List Source}

theorem nil (shapes : List Shape) : ServedFrom shapes shapes.length [] where
  named := nofun
  declared := nofun
  complete _ _ _ hle h := by
    have hlt := (List.getElem?_eq_some_iff.mp h.getElem?).1
    omega
  ordered := .nil

/-- A shape all of whose names are gone has no source. -/
theorem skip (h : ServedFrom shapes (first + 1) sources)
    (hnone : ∀ name shape, ¬ FirstAt (name ∈ synonyms ·) shapes first shape) :
    ServedFrom shapes first sources where
  named := h.named
  declared source hmem := by
    obtain ⟨place, shape, hle, hat⟩ := h.declared source hmem
    exact ⟨place, shape, Nat.le_of_succ_le hle, hat⟩
  complete name place shape hle hfirst := by
    rcases Nat.eq_or_lt_of_le hle with rfl | hlt
    · exact absurd hfirst (hnone name shape)
    · exact h.complete name place shape hlt hfirst
  ordered := h.ordered

theorem serve (h : ServedFrom shapes (first + 1) sources) (hat : SourceAt shapes first shape source)
    (hnamed : source.identifiers ≠ []) : ServedFrom shapes first (source :: sources) where
  named := List.forall_mem_cons.mpr ⟨hnamed, h.named⟩
  declared := by
    refine List.forall_mem_cons.mpr ⟨⟨first, shape, Nat.le_refl _, hat⟩, fun source hmem => ?_⟩
    obtain ⟨place, shape, hle, hat⟩ := h.declared source hmem
    exact ⟨place, shape, Nat.le_of_succ_le hle, hat⟩
  complete name place other hle hfirst := by
    rcases Nat.eq_or_lt_of_le hle with rfl | hlt
    · have hshape : some shape = some other := hat.getElem?.symm.trans hfirst.getElem?
      cases hshape
      exact ⟨source, List.mem_cons_self, hat⟩
    · obtain ⟨source, hmem, hat⟩ := h.complete name place other hlt hfirst
      exact ⟨source, List.mem_cons_of_mem _ hmem, hat⟩
  ordered := by
    refine List.pairwise_cons.mpr ⟨fun later hmem i j s t hi hj => ?_, h.ordered⟩
    obtain ⟨place, shape, hle, hlater⟩ := h.declared later hmem
    rw [hi.place_eq hat hnamed, hj.place_eq hlater (h.named later hmem)]
    exact hle

/-- Two sources have no name in common, and none has a name twice. -/
theorem nodup (h : ServedFrom shapes first sources) : (sources.flatMap Source.identifiers).Nodup := by
  refine List.nodup_flatMap.mpr ⟨fun source hmem => ?_, h.ordered.imp_of_mem fun ha hb hlt name hna hnb => ?_⟩
  · obtain ⟨place, shape, -, hat⟩ := h.declared source hmem
    exact hat.nodup
  · obtain ⟨i, s, -, hi⟩ := h.declared _ ha
    obtain ⟨j, t, -, hj⟩ := h.declared _ hb
    have hij := ((hi.mem_iff name).mp hna).place_eq ((hj.mem_iff name).mp hnb)
    exact (hlt i j s t hi hj).ne hij

/-- A shape has one source. -/
theorem source_eq (h : ServedFrom shapes first sources) {a b : Source} {place : Nat} (ha : a ∈ sources)
    (hb : b ∈ sources) (hat : SourceAt shapes place shape a) (hbt : SourceAt shapes place shape b) :
    a = b := by
  obtain ⟨i, hi, rfl⟩ := List.getElem_of_mem ha
  obtain ⟨j, hj, rfl⟩ := List.getElem_of_mem hb
  have hordered := List.pairwise_iff_getElem.mp h.ordered
  rcases Nat.lt_trichotomy i j with hij | rfl | hij
  · exact absurd (hordered i j hi hj hij place place shape shape hat hbt) (Nat.lt_irrefl _)
  · rfl
  · exact absurd (hordered j i hj hi hij place place shape shape hbt hat) (Nat.lt_irrefl _)

end ServedFrom

theorem servedFrom_declare {number : Nat} {candidates : List (String × Binding)} :
    ∀ (rest seen : List Shape) (taken : List String) (index : Nat), Takes seen taken →
      ServedFrom (seen ++ rest) seen.length (declare number candidates taken index rest)
  | [], seen, _, _, _ => by
    rw [List.append_nil, declare]
    exact .nil seen
  | shape :: rest, seen, taken, index, htakes => by
    have later (index : Nat) : ServedFrom (seen ++ shape :: rest) (seen.length + 1)
        (declare number candidates (free taken (synonyms shape) ++ taken) index rest) := by
      have h : ServedFrom (seen ++ [shape] ++ rest) (seen ++ [shape]).length
          (declare number candidates (free taken (synonyms shape) ++ taken) index rest) :=
        servedFrom_declare rest (seen ++ [shape]) _ index htakes.step
      rwa [List.append_assoc, List.singleton_append, List.length_append, List.length_singleton] at h
    by_cases hfree : free taken (synonyms shape) = []
    · rw [declare_skipped hfree]
      rw [hfree, List.nil_append] at later
      refine (later index).skip fun name other hfirst => ?_
      have hother : some shape = some other := by rw [← hfirst.getElem?]; simp
      cases hother
      exact List.not_mem_nil (hfree ▸ (htakes.mem_free_iff name).mpr hfirst)
    · rw [declare_served hfree]
      exact (later (index + 1)).serve
        ⟨by simp, rfl, free_sublist _ _, nodup_free _ _, htakes.mem_free_iff⟩ hfree

/-! ### Numbers -/

theorem id_of_getElem?_declare {number : Nat} {candidates : List (String × Binding)} :
    ∀ {shapes : List Shape} {taken : List String} {start index : Nat} {source : Source},
      (declare number candidates taken start shapes)[index]? = some source →
        source.id = ⟨number, start + index⟩
  | [], _, _, _, _, h => by simp [declare] at h
  | shape :: shapes, taken, start, index, source, h => by
    by_cases hfree : free taken (synonyms shape) = []
    · rw [declare_skipped hfree] at h
      exact id_of_getElem?_declare h
    · rw [declare_served hfree] at h
      cases index with
      | zero =>
        cases h
        rfl
      | succ index =>
        rw [List.getElem?_cons_succ] at h
        rw [id_of_getElem?_declare h, Nat.add_right_comm, Nat.add_assoc]

/-! ### The sources of a schema -/

/-- The sources of a schema with this number take the names of its shapes in order. -/
structure FirstServed (number : Nat) (shapes : List Shape) (schema : Schema) : Prop where
  /-- No name belongs to two sources, or twice to one. -/
  nodup : (schema.sources.flatMap Source.identifiers).Nodup
  named : ∀ source ∈ schema.sources, source.identifiers ≠ []
  declared : ∀ source ∈ schema.sources, ∃ place shape, SourceAt shapes place shape source
  ordered : schema.sources.Pairwise fun a b => ∀ i j s t,
    SourceAt shapes i s a → SourceAt shapes j t b → i < j
  numbered : ∀ (index : Nat) (source : Source), schema.sources[index]? = some source → source.id = ⟨number, index⟩

variable {number : Nat} {shapes : List Shape} {containers : List Container}

theorem servedFrom_build : ServedFrom shapes 0 (build number shapes containers).sources :=
  servedFrom_declare shapes [] [] 0 fun _ => by simp

theorem build_firstServed : FirstServed number shapes (build number shapes containers) where
  nodup := servedFrom_build.nodup
  named := servedFrom_build.named
  declared source hmem := by
    obtain ⟨place, shape, -, hat⟩ := servedFrom_build.declared source hmem
    exact ⟨place, shape, hat⟩
  ordered := servedFrom_build.ordered
  numbered index source h := by
    rw [id_of_getElem?_declare h, Nat.zero_add]

/-- `Books` goes by the plural of its name only, for its name is the plural of `Book`. -/
example : (build 0 [⟨"Book", []⟩, ⟨"Books", []⟩] []).sources.map Source.identifiers =
    [["book", "books"], ["bookss"]] := by decide +kernel

/-! ### Names in a schema -/

theorem find?_build_eq_none {name : String} (h : ∀ shape ∈ shapes, name ∉ synonyms shape) :
    (build number shapes containers).find? name = none := by
  refine List.find?_eq_none.mpr fun source hmem hname => ?_
  obtain ⟨place, shape, -, hat⟩ := servedFrom_build.declared source hmem
  have hfirst := (hat.mem_iff name).mp (List.contains_iff_mem.mp hname)
  exact h shape (List.mem_of_getElem? hfirst.getElem?) hfirst.holds

/-- A name is that of the source of the first shape that goes by it. -/
theorem find?_build_eq_some {name : String} {place : Nat} {shape : Shape} {source : Source}
    (hfirst : FirstAt (name ∈ synonyms ·) shapes place shape)
    (hmem : source ∈ (build number shapes containers).sources) (hat : SourceAt shapes place shape source) :
    (build number shapes containers).find? name = some source := by
  have hname : source.answersTo name := List.contains_iff_mem.mpr ((hat.mem_iff name).mpr hfirst)
  cases hfind : (build number shapes containers).find? name with
  | none => exact absurd hname (List.find?_eq_none.mp hfind source hmem)
  | some found =>
    have hfound := List.mem_of_find?_eq_some hfind
    obtain ⟨i, s, -, hi⟩ := servedFrom_build.declared found hfound
    have hanswers : found.answersTo name := List.find?_some (p := fun source => Source.answersTo source name) hfind
    have hfoundFirst := (hi.mem_iff name).mp (List.contains_iff_mem.mp hanswers)
    obtain rfl := hfoundFirst.place_eq hfirst
    obtain rfl : s = shape := Option.some.inj (hfoundFirst.getElem?.symm.trans hfirst.getElem?)
    rw [servedFrom_build.source_eq hfound hmem hi hat]

end Schema

/-! ### Names in a context -/

/-- Some shape of the declaration goes by the name. -/
def Declares (name : String) (declaration : List Shape × List Container) : Prop :=
  ∃ shape ∈ declaration.1, name ∈ Schema.synonyms shape

/-- The source is that of the first shape to go by the name in the first schema that declares it. -/
def FirstSource (declarations : List (List Shape × List Container)) (schemas : List Schema) (name : String)
    (source : Source) : Prop :=
  ∃ number declaration schema place shape,
    FirstAt (Declares name) declarations number declaration ∧ schemas[number]? = some schema ∧
      FirstAt (name ∈ Schema.synonyms ·) declaration.1 place shape ∧ source ∈ schema.sources ∧
        Schema.SourceAt declaration.1 place shape source

section Context

variable {declarations : List (List Shape × List Container)} {name : String} {source : Source}

theorem getElem?_schemasOf (number : Nat) : (schemasOf declarations)[number]? =
    declarations[number]?.map fun declaration => .build number declaration.1 declaration.2 :=
  List.getElem?_mapIdx

theorem exists_firstSource (h : ∃ declaration ∈ declarations, Declares name declaration) :
    ∃ source, FirstSource declarations (schemasOf declarations) name source := by
  obtain ⟨number, declaration, hfirst⟩ := FirstAt.exists_of_mem h
  obtain ⟨place, shape, hshape⟩ := FirstAt.exists_of_mem hfirst.holds
  have hschema : (schemasOf declarations)[number]? =
      some (.build number declaration.1 declaration.2) := by
    rw [getElem?_schemasOf, hfirst.getElem?, Option.map_some]
  obtain ⟨source, hmem, hat⟩ := Schema.servedFrom_build.complete name place shape (Nat.zero_le _) hshape
  exact ⟨source, number, declaration, _, place, shape, hfirst, hschema, hshape, hmem, hat⟩

theorem findSource_of_firstSource (h : FirstSource declarations (schemasOf declarations) name source) :
    findSource (schemasOf declarations) name = .ok source := by
  obtain ⟨number, declaration, schema, place, shape, hfirst, hschema, hshape, hmem, hat⟩ := h
  obtain ⟨hlt, hget⟩ := List.getElem?_eq_some_iff.mp hschema
  rw [getElem?_schemasOf, hfirst.getElem?, Option.map_some, Option.some_inj] at hschema
  have hsplit : schemasOf declarations =
      (schemasOf declarations).take number ++ schema :: (schemasOf declarations).drop (number + 1) := by
    rw [← hget, List.getElem_cons_drop, List.take_append_drop]
  have hearlier : ∀ earlier ∈ (schemasOf declarations).take number, earlier.find? name = none := by
    intro earlier hmem
    obtain ⟨i, hi, rfl⟩ := List.mem_take_iff_getElem.mp hmem
    rw [lt_min_iff, schemasOf, List.length_mapIdx] at hi
    simp only [schemasOf, List.getElem_mapIdx]
    refine Schema.find?_build_eq_none fun shape hmem hname => ?_
    exact hfirst.earlier _ (List.mem_take_iff_getElem.mpr ⟨i, lt_min_iff.mpr hi, rfl⟩) ⟨shape, hmem, hname⟩
  have hfound : schema.find? name = some source := by
    subst hschema
    exact Schema.find?_build_eq_some hshape hmem hat
  rw [findSource, List.findSome?_eq_some_iff.mpr ⟨_, _, _, hsplit, hfound, hearlier⟩]

theorem findSource_of_not_declares (h : ∀ declaration ∈ declarations, ¬ Declares name declaration) :
    findSource (schemasOf declarations) name = .error (.unknownSource name) := by
  have hnone : (schemasOf declarations).findSome? (·.find? name) = none := by
    refine List.findSome?_eq_none_iff.mpr fun schema hschema => ?_
    obtain ⟨i, hi, rfl⟩ := List.mem_mapIdx.mp hschema
    exact Schema.find?_build_eq_none fun shape hmem hname => h _ (List.getElem_mem hi) ⟨shape, hmem, hname⟩
  rw [findSource, hnone]

theorem findSource_eq_ok_iff : findSource (schemasOf declarations) name = .ok source ↔
    FirstSource declarations (schemasOf declarations) name source := by
  refine ⟨fun h => ?_, findSource_of_firstSource⟩
  by_cases hdeclares : ∃ declaration ∈ declarations, Declares name declaration
  · obtain ⟨first, hfirst⟩ := exists_firstSource hdeclares
    rw [findSource_of_firstSource hfirst] at h
    cases h
    exact hfirst
  · rw [findSource_of_not_declares fun declaration hmem hname => hdeclares ⟨declaration, hmem, hname⟩] at h
    cases h

theorem findSource_eq_error_iff {e : SchemaError} : findSource (schemasOf declarations) name = .error e ↔
    e = .unknownSource name ∧ ∀ declaration ∈ declarations, ¬ Declares name declaration := by
  constructor
  · intro h
    have hnone : ∀ declaration ∈ declarations, ¬ Declares name declaration := by
      intro declaration hmem hname
      obtain ⟨first, hfirst⟩ := exists_firstSource ⟨declaration, hmem, hname⟩
      rw [findSource_of_firstSource hfirst] at h
      cases h
    rw [findSource_of_not_declares hnone] at h
    cases h
    exact ⟨rfl, hnone⟩
  · rintro ⟨rfl, hnone⟩
    exact findSource_of_not_declares hnone

end Context

/-! ### All schemas of a context -/

/-- The numbers of the sources of a context are all different. -/
theorem nodup_ids (declarations : List (List Shape × List Container)) :
    ((schemasOf declarations).flatMap fun schema => schema.sources.map Source.id).Nodup := by
  refine List.nodup_flatMap.mpr ⟨fun schema hschema => ?_, ?_⟩
  · obtain ⟨i, hi, rfl⟩ := List.mem_mapIdx.mp hschema
    refine List.pairwise_map.mpr ((Schema.id_declare i _ _ [] 0).2.imp fun hlt heq => ?_)
    exact hlt.ne (congrArg SourceId.index heq)
  · refine List.pairwise_iff_getElem.mpr fun i j hi hj hij id ha hb => ?_
    obtain ⟨a, hmema, rfl⟩ := List.mem_map.mp ha
    obtain ⟨b, hmemb, heq⟩ := List.mem_map.mp hb
    simp only [schemasOf, List.getElem_mapIdx] at hmema hmemb
    have hschema := congrArg SourceId.schema heq
    rw [((Schema.id_declare i _ _ [] 0).1 a hmema).1, ((Schema.id_declare j _ _ [] 0).1 b hmemb).1] at hschema
    exact hij.ne' hschema

/-- **The first to go by a name keeps it.** In a context of any shapes, the sources of a schema take the
names that their shapes are the first to have, no two sources have one number, and a name is looked up
to the first shape that goes by it in the first schema with such a shape. -/
theorem findSource_firstServed (declarations : List (List Shape × List Container)) :
    let schemas := declarations.foldl withSchema []
    schemas.length = declarations.length ∧
    (∀ (number : Nat) (declaration : List Shape × List Container),
      declarations[number]? = some declaration →
        ∃ schema, schemas[number]? = some schema ∧ schema.FirstServed number declaration.1) ∧
    (schemas.flatMap fun schema => schema.sources.map Source.id).Nodup ∧
    ∀ name : String,
      (∀ source, findSource schemas name = .ok source ↔ FirstSource declarations schemas name source) ∧
      ∀ e, findSource schemas name = .error e ↔
        e = .unknownSource name ∧ ∀ declaration ∈ declarations, ¬ Declares name declaration := by
  intro schemas
  have hschemas : schemas = schemasOf declarations := foldl_withSchema declarations
  rw [hschemas]
  refine ⟨List.length_mapIdx, fun number declaration h => ?_, nodup_ids declarations, fun name => ?_⟩
  · exact ⟨_, by rw [getElem?_schemasOf, h, Option.map_some], Schema.build_firstServed⟩
  · exact ⟨fun _ => findSource_eq_ok_iff, fun _ => findSource_eq_error_iff⟩

end SelectLang
