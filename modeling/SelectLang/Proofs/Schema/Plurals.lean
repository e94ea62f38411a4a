/-
# The plural of a name

A source goes by the camel case of its shape's name and by that of the name with an `s` behind it. In camel case a
run of capitals at the head is lowered as a whole if nothing is behind it, and but for its last capital if a letter
that is no capital follows, for that capital is then taken to begin a further word. So the `s` behind a name is an
`s` behind its camel case (`book` and `books`), if the name is not an acronym: two or more capitals and nothing
else. An acronym is lowered as a whole, and with the `s` it keeps its last capital (`isbn`, but `isbNs`).

Key definitions: `IsAlphanumeric`, `IsAcronym`, `Schema.FreeAt`.
Key theorems: `lowerHead_append`, `camelCase_append_s`, `camelCase_acronym`, `Schema.FreeAt.identifiers_eq`,
`Schema.plural_iff`.
-/
import Mathlib
import SelectLang.Proofs.Schema.Lookup
import SelectLang.Proofs.Schema.Naming

namespace SelectLang

/-! ### Runs of capitals -/

section

variable {run more : List Char} {c d last : Char}

theorem lowerRun_of_not_upper (h : Unicode.isUppercase c = false) (more : List Char) :
    lowerRun (c :: more) = c :: more := by
  cases more with
  | nil => rw [lowerRun, h, if_neg Bool.false_ne_true]
  | cons d more => rw [lowerRun, h, Bool.false_and, if_neg Bool.false_ne_true]

/-- Capitals that nothing follows are all lowered. -/
theorem lowerRun_of_upper : ∀ {run : List Char}, (∀ c ∈ run, Unicode.isUppercase c) →
    lowerRun run = run.flatMap Unicode.lowercase
  | [], _ => rfl
  | [c], h => by
    rw [lowerRun, if_pos (h c List.mem_cons_self), List.flatMap_singleton]
  | c :: d :: run, h => by
    obtain ⟨hc, hrun⟩ := List.forall_mem_cons.mp h
    rw [lowerRun, hc, hrun d List.mem_cons_self, Bool.and_self, if_pos rfl, lowerRun_of_upper hrun]
    rfl

/-- Where a run of capitals ends in front of another letter, its last capital is kept. -/
theorem lowerRun_before (hlast : Unicode.isUppercase last) (hd : Unicode.isUppercase d = false) :
    ∀ {run : List Char}, (∀ c ∈ run, Unicode.isUppercase c) →
      lowerRun (run ++ last :: d :: more) = run.flatMap Unicode.lowercase ++ last :: d :: more
  | [], _ => by
    rw [List.nil_append, lowerRun, hd, Bool.and_false, if_neg Bool.false_ne_true, List.flatMap_nil,
      List.nil_append]
  | [c], h => by
    rw [List.singleton_append, lowerRun, h c List.mem_cons_self, hlast, Bool.and_self, if_pos rfl,
      lowerRun, hd, Bool.and_false, if_neg Bool.false_ne_true, List.flatMap_singleton]
  | c :: e :: run, h => by
    obtain ⟨hc, hrun⟩ := List.forall_mem_cons.mp h
    rw [List.cons_append, List.cons_append, lowerRun, hc, hrun e List.mem_cons_self, Bool.and_self,
      if_pos rfl, ← List.cons_append, lowerRun_before hlast hd hrun, ← List.append_assoc]
    rfl

/-- What stands behind a letter that is no capital plays no part. -/
theorem lowerRun_append (h : ∃ c ∈ run, Unicode.isUppercase c = false) (more : List Char) :
    lowerRun (run ++ more) = lowerRun run ++ more := by
  induction run with
  | nil => simp at h
  | cons c run ih =>
    cases hc : Unicode.isUppercase c with
    | false => rw [List.cons_append, lowerRun_of_not_upper hc, lowerRun_of_not_upper hc, List.cons_append]
    | true =>
      obtain ⟨d, run, rfl⟩ : ∃ d run', run = d :: run' := by
        rcases run with _ | ⟨d, run⟩
        · simp [hc] at h
        · exact ⟨d, run, rfl⟩
      have hrun : ∃ c ∈ d :: run, Unicode.isUppercase c = false := by
        obtain ⟨b, hb, hlow⟩ := h
        rcases List.mem_cons.mp hb with rfl | hb
        · rw [hc] at hlow
          cases hlow
        · exact ⟨b, hb, hlow⟩
      rw [List.cons_append, List.cons_append, lowerRun, lowerRun, ← List.cons_append, ih hrun]
      split
      · rw [List.append_assoc]
      · rfl

end

/-! ### Heads -/

section

variable {s run more : List Char} {c d last : Char}

/-- A small letter behind a word is a small letter behind its lowered form, if the word is not two or more
capitals and nothing else. -/
theorem lowerHead_append (hne : s ≠ []) (h : ¬ (2 ≤ s.length ∧ ∀ c ∈ s, Unicode.isUppercase c))
    (hd : Unicode.isUppercase d = false) : lowerHead (s ++ [d]) = lowerHead s ++ [d] := by
  obtain ⟨c, rest, rfl⟩ := List.exists_cons_of_ne_nil hne
  rw [List.cons_append, lowerHead, lowerHead]
  split
  case isFalse => rfl
  case isTrue hc =>
    rw [List.append_assoc]
    refine congrArg (Unicode.lowercase c ++ ·) ?_
    cases rest with
    | nil => rw [List.nil_append, lowerRun_of_not_upper hd, lowerRun, List.nil_append]
    | cons e rest =>
      refine lowerRun_append ?_ [d]
      by_contra hall
      push Not at hall
      exact h ⟨by simp, List.forall_mem_cons.mpr ⟨hc, fun b hb => by simpa using hall b hb⟩⟩

theorem lowerHead_of_upper (h : ∀ c ∈ s, Unicode.isUppercase c) :
    lowerHead s = s.flatMap Unicode.lowercase := by
  cases s with
  | nil => rfl
  | cons c rest =>
    obtain ⟨hc, hrest⟩ := List.forall_mem_cons.mp h
    rw [lowerHead, if_pos hc, lowerRun_of_upper hrest, List.flatMap_cons]

/-- The last of two or more capitals is kept in front of a small letter. -/
theorem lowerHead_before (hne : run ≠ []) (h : ∀ c ∈ run, Unicode.isUppercase c)
    (hlast : Unicode.isUppercase last) (hd : Unicode.isUppercase d = false) :
    lowerHead (run ++ last :: d :: more) = run.flatMap Unicode.lowercase ++ last :: d :: more := by
  obtain ⟨c, rest, rfl⟩ := List.exists_cons_of_ne_nil hne
  obtain ⟨hc, hrest⟩ := List.forall_mem_cons.mp h
  rw [List.cons_append, lowerHead, if_pos hc, lowerRun_before hlast hd hrest, List.flatMap_cons,
    List.append_assoc]

end

/-! ### Names of letters and digits -/

/-- A name of ASCII letters and digits that begins with a letter. -/
structure IsAlphanumeric (name : String) : Prop where
  head : ∃ c ∈ name.toList.head?, c.isAlpha
  all : ∀ c ∈ name.toList, c.isAlphanum

/-- Two or more capitals, and nothing else. -/
structure IsAcronym (name : String) : Prop where
  length : 2 ≤ name.toList.length
  upper : ∀ c ∈ name.toList, c.isUpper

theorem toNat_of_isAlphanum {c : Char} (h : c.isAlphanum) : c.toNat < 128 := by
  simp only [Char.isAlphanum, Char.isAlpha, Char.isUpper, Char.isLower, Char.isDigit, Bool.or_eq_true,
    Bool.and_eq_true, decide_eq_true_eq, UInt32.le_iff_toNat_le] at h
  change ((65 ≤ c.toNat ∧ c.toNat ≤ 90) ∨ (97 ≤ c.toNat ∧ c.toNat ≤ 122)) ∨ (48 ≤ c.toNat ∧ c.toNat ≤ 57) at h
  omega

theorem isUppercase_ofNat : ∀ n < 128, Unicode.isUppercase (Char.ofNat n) = (Char.ofNat n).isUpper := by
  decide +kernel

theorem isUppercase_ascii {c : Char} (h : c.toNat < 128) : Unicode.isUppercase c = c.isUpper := by
  simpa using isUppercase_ofNat c.toNat h

section

variable {name front : String} {last : Char}

theorem IsAlphanumeric.toList_ne_nil (h : IsAlphanumeric name) : name.toList ≠ [] := by
  obtain ⟨c, hc, -⟩ := h.head
  rintro hnil
  rw [hnil] at hc
  cases hc

theorem IsAlphanumeric.upper_iff (h : IsAlphanumeric name) {c : Char} (hc : c ∈ name.toList) :
    Unicode.isUppercase c ↔ c.isUpper := by
  rw [isUppercase_ascii (toNat_of_isAlphanum (h.all c hc))]

theorem IsAcronym.isAlphanumeric (h : IsAcronym name) : IsAlphanumeric name where
  head := by
    have hlength := h.length
    match htext : name.toList with
    | [] => simp [htext] at hlength
    | c :: rest => exact ⟨c, rfl, by rw [Char.isAlpha, h.upper c (by simp [htext]), Bool.true_or]⟩
  all c hc := by rw [Char.isAlphanum, Char.isAlpha, h.upper c hc, Bool.true_or, Bool.true_or]

theorem IsAcronym.isUppercase (h : IsAcronym name) {c : Char} (hc : c ∈ name.toList) :
    Unicode.isUppercase c := by
  rw [h.isAlphanumeric.upper_iff hc, h.upper c hc]

/-- A name of letters and digits is one word. -/
theorem IsAlphanumeric.camelCase_eq (h : IsAlphanumeric name) :
    camelCase name = String.ofList (lowerHead name.toList) := by
  have hplain : '_' ∉ name.toList := fun hmem => absurd (h.all '_' hmem) (by decide)
  have hwords : words name.toList = [name.toList] := words_of_not_mem h.toList_ne_nil hplain
  simp only [camelCase, hwords, List.flatMap_nil, List.append_nil]

theorem IsAlphanumeric.append_s (h : IsAlphanumeric name) : IsAlphanumeric (name ++ "s") where
  head := by
    obtain ⟨c, hc, halpha⟩ := h.head
    refine ⟨c, ?_, halpha⟩
    rw [String.toList_append, List.head?_append_of_ne_nil _ h.toList_ne_nil]
    exact hc
  all c hc := by
    rw [String.toList_append, List.mem_append] at hc
    rcases hc with hc | hc
    · exact h.all c hc
    · obtain rfl : c = 's' := by simpa using hc
      decide

/-- In camel case the plural of a name that is not an acronym has the `s` behind the name's camel case. -/
theorem camelCase_append_s (h : IsAlphanumeric name) (hname : ¬ IsAcronym name) :
    camelCase (name ++ "s") = camelCase name ++ "s" := by
  have hs : Unicode.isUppercase 's' = false := by decide
  have hmixed : ¬ (2 ≤ name.toList.length ∧ ∀ c ∈ name.toList, Unicode.isUppercase c) := fun ⟨hlength, hupper⟩ =>
    hname ⟨hlength, fun c hc => (h.upper_iff hc).mp (hupper c hc)⟩
  rw [h.camelCase_eq, h.append_s.camelCase_eq, String.toList_append,
    show ("s" : String).toList = ['s'] from rfl, lowerHead_append h.toList_ne_nil hmixed hs, String.ofList_append]

theorem IsAcronym.exists_push (h : IsAcronym name) : ∃ (front : String) (last : Char), name = front.push last := by
  have hne : name.toList ≠ [] := fun hnil => by
    have hlength := h.length
    simp [hnil] at hlength
  refine ⟨String.ofList name.toList.dropLast, name.toList.getLast hne, ?_⟩
  rw [← String.toList_inj, String.toList_push, String.toList_ofList, List.dropLast_concat_getLast]

/-- An acronym is lowered as a whole, but with an `s` behind it the last capital is kept. -/
theorem camelCase_acronym (h : IsAcronym (front.push last)) :
    camelCase (front.push last) = (Unicode.lowered front).push last.toLower ∧
      camelCase (front.push last ++ "s") = (Unicode.lowered front).push last ++ "s" := by
  have hlow : last.toNat < 128 := toNat_of_isAlphanum (h.isAlphanumeric.all last (by simp))
  have htext : (front.push last).toList = front.toList ++ [last] := String.toList_push last
  have htexts : (front.push last ++ "s").toList = front.toList ++ [last, 's'] := by
    rw [String.toList_append, htext, List.append_assoc]
    rfl
  have hs : Unicode.isUppercase 's' = false := by decide
  have hupper : ∀ c ∈ front.toList ++ [last], Unicode.isUppercase c := fun c hc =>
    h.isUppercase (htext ▸ hc)
  have hne : front.toList ≠ [] := fun hnil => by
    have hlength := h.length
    rw [htext, hnil] at hlength
    simp at hlength
  constructor
  · rw [h.isAlphanumeric.camelCase_eq, lowerHead_of_upper (htext ▸ hupper), htext, List.flatMap_append,
      List.flatMap_singleton, Unicode.lowercase, if_pos hlow, ← String.toList_inj]
    simp [Unicode.lowered]
  · rw [h.isAlphanumeric.append_s.camelCase_eq, htexts,
      lowerHead_before hne (fun c hc => hupper c (List.mem_append_left _ hc)) (hupper last (by simp)) hs,
      ← String.toList_inj]
    simp [Unicode.lowered]

/-- The kept capital tells the plural of an acronym from its lowered form with an `s`. -/
theorem camelCase_acronym_ne (h : IsAcronym name) : camelCase (name ++ "s") ≠ camelCase name ++ "s" := by
  obtain ⟨front, last, rfl⟩ := h.exists_push
  have hlast : last.isUpper := h.upper last (by simp)
  intro heq
  rw [(camelCase_acronym h).1, (camelCase_acronym h).2, ← String.toList_inj] at heq
  obtain hlow : last = last.toLower := by simpa using heq
  rw [hlow, Char.isUpper_toLower_eq_false] at hlast
  cases hlast

theorem camelCase_append_s_ne (h : IsAlphanumeric name) : camelCase (name ++ "s") ≠ camelCase name := by
  intro heq
  by_cases hname : IsAcronym name
  · obtain ⟨front, last, rfl⟩ := hname.exists_push
    rw [(camelCase_acronym hname).1, (camelCase_acronym hname).2, ← String.toList_inj] at heq
    simpa using congrArg List.length heq
  · rw [camelCase_append_s h hname, ← String.toList_inj] at heq
    simp at heq

end

namespace Schema

/-! ### Sources -/

/-- The shape at this place, and neither of its names is one of a shape before it. -/
structure FreeAt (shapes : List Shape) (place : Nat) (shape : Shape) : Prop where
  getElem? : shapes[place]? = some shape
  disjoint : ∀ earlier ∈ shapes.take place, (synonyms earlier).Disjoint (synonyms shape)

variable {shapes : List Shape} {place : Nat} {shape : Shape} {source : Source}

theorem FreeAt.firstAt (h : FreeAt shapes place shape) {name : String} (hname : name ∈ synonyms shape) :
    FirstAt (name ∈ synonyms ·) shapes place shape :=
  ⟨h.getElem?, hname, fun earlier hmem hearlier => h.disjoint earlier hmem hearlier hname⟩

/-- Where both names of a shape are free, its source goes by both. -/
theorem FreeAt.identifiers_eq (h : FreeAt shapes place shape) (hat : SourceAt shapes place shape source)
    (hnodup : (synonyms shape).Nodup) : source.identifiers = synonyms shape :=
  hat.sublist.eq_of_length_le
    (hnodup.subperm fun name hname => (hat.mem_iff name).mpr (h.firstAt hname)).length_le

/-- **A plural has an `s` behind its singular, but for acronyms.** These keep their last capital in front of the `s`.
A source both of whose names are free goes by the two, so it answers to the camel case of its name and to that with
an `s`, and to nothing else, exactly if the name is no acronym. -/
theorem plural_iff {name : String} (h : IsAlphanumeric name) :
    (camelCase (name ++ "s") = camelCase name ++ "s" ↔ ¬ IsAcronym name) ∧
    (∀ front last, name = front.push last → IsAcronym name →
      camelCase name = (Unicode.lowered front).push last.toLower ∧
        camelCase (name ++ "s") = (Unicode.lowered front).push last ++ "s") ∧
    ∀ number shapes containers place shape, shape.name = name → FreeAt shapes place shape →
      ∃ source ∈ (build number shapes containers).sources, SourceAt shapes place shape source ∧
        source.identifiers = [camelCase name, camelCase (name ++ "s")] ∧
        ((∀ other, source.answersTo other ↔ other = camelCase name ∨ other = camelCase name ++ "s") ↔
          ¬ IsAcronym name) := by
  have hplural : camelCase (name ++ "s") = camelCase name ++ "s" ↔ ¬ IsAcronym name :=
    ⟨fun heq hname => camelCase_acronym_ne hname heq, camelCase_append_s h⟩
  refine ⟨hplural, fun front last hpush hname => ?_, ?_⟩
  · subst hpush
    exact camelCase_acronym hname
  · rintro number shapes containers place shape rfl hfree
    have hserved : ServedFrom shapes 0 (build number shapes containers).sources := servedFrom_build
    obtain ⟨source, hmem, hat⟩ := hserved.complete _ place shape (Nat.zero_le _) (hfree.firstAt List.mem_cons_self)
    have hnames : source.identifiers = synonyms shape :=
      hfree.identifiers_eq hat (by simpa [synonyms] using (camelCase_append_s_ne h).symm)
    refine ⟨source, hmem, hat, hnames, ?_⟩
    have hanswers : ∀ other, source.answersTo other ↔
        other = camelCase shape.name ∨ other = camelCase (shape.name ++ "s") := fun other => by
      rw [Source.answersTo, hnames, List.contains_iff_mem, synonyms, List.mem_pair]
    rw [← hplural]
    constructor
    · intro hall
      exact ((hall _).mp ((hanswers _).mpr (.inr rfl))).resolve_left (camelCase_append_s_ne h)
    · intro heq other
      rw [hanswers, heq]

/-- Capitals at the head make no difference where small letters follow. -/
theorem plural_iff_mixed : IsAlphanumeric "URLValue" ∧
    camelCase ("URLValue" ++ "s") = camelCase "URLValue" ++ "s" ∧
    ∃ source ∈ (build 0 [⟨"URLValue", []⟩] []).sources,
      ∀ other, source.answersTo other ↔ other = "urlValue" ∨ other = "urlValues" := by
  have h : IsAlphanumeric "URLValue" := ⟨⟨'U', rfl, by decide⟩, by simp⟩
  have hname : ¬ IsAcronym "URLValue" := fun hname => absurd (hname.upper 'a' (by simp)) (by decide)
  obtain ⟨source, hmem, -, -, hanswers⟩ := (plural_iff h).2.2 0 [⟨"URLValue", []⟩] [] 0 _ rfl ⟨rfl, nofun⟩
  have hsingular : camelCase "URLValue" = "urlValue" := by decide +kernel
  refine ⟨h, (plural_iff h).1.mpr hname, source, hmem, fun other => ?_⟩
  rw [hanswers.mpr hname, hsingular]
  rfl

/-- What is named `ISBN` goes by `isbn` and `isbNs`, and not by `isbns`. -/
theorem acronym_plural_fails : IsAlphanumeric "ISBN" ∧
    camelCase ("ISBN" ++ "s") = "isbNs" ∧ camelCase "ISBN" ++ "s" = "isbns" ∧
    FreeAt [⟨"ISBN", []⟩] 0 ⟨"ISBN", []⟩ ∧
    (build 0 [⟨"ISBN", []⟩] []).sources.map Source.identifiers = [["isbn", "isbNs"]] ∧
    ((build 0 [⟨"ISBN", []⟩] []).find? "isbns").isNone :=
  ⟨⟨⟨'I', rfl, by decide⟩, by simp⟩, by decide +kernel, by decide +kernel, ⟨rfl, nofun⟩, by decide +kernel,
    by decide +kernel⟩

end Schema

end SelectLang
