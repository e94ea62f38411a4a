/-
# Members are called by a pattern

A getter is called by a pattern: `get` in any case, an underscore that may be missing, the name of what it
serves, and then an underscore and an `async` that may both be missing. Case is set aside letter by letter
(`spellings`). A pattern reads a text in several ways (`Pattern.readings`), the preferred ones first: of two
branches the left one, and no more characters for the name than it needs. What counts is the first reading from
the leftmost place that has one (`Pattern.find?`).

The order of the readings settles which name it is: the shortest front of the text that leaves an ending
(`IsStem`), after an underscore behind `get` if there is more than the underscore.

Key definitions: `spellings`, `Pattern`, `Pattern.readings`, `Pattern.find?`, `memberPattern`, `IsStem`.
Key theorems: `isStem_stem`, `captured?_of_called`, `captured?_eq_none`, `PlainName.served`,
`candidateName?_convention`.
-/
import Mathlib
import SelectLang.Schema.Naming

namespace SelectLang

/-! ### Letters in any case -/

/-- The characters that a small letter stands for where case is set aside. Two letters have a third one each: the
long `ſ` is an `s`, and the sign of the kelvin is a `k`. -/
def spellings (letter : Char) : List Char :=
  if letter = 's' then ['s', 'S', 'ſ']
  else if letter = 'k' then ['k', 'K', 'K']
  else [letter, letter.toUpper]

/-- The text is the word, each letter in some case. -/
def IsSpelling (word : String) (s : List Char) : Prop :=
  List.Forall₂ (fun letter c => c ∈ spellings letter) word.toList s

/-! ### Patterns -/

/-- A place in a text: whether it is the start, and what stands from there on. -/
structure Place where
  atStart : Bool
  rest : List Char

/-- A way to read a text: what is read as the name, if anything is, and the place behind. -/
structure Reading where
  name : Option (List Char)
  behind : Place

/-- What a text is searched for. -/
inductive Pattern where
  | start
  | finish
  | nothing
  /-- One of these characters. -/
  | char (among : Char → Bool)
  /-- These characters once or more often, the less the better. -/
  | fewest (among : Char → Bool)
  /-- One of the two, rather the left one. -/
  | either (left right : Pattern)
  | sequence (first second : Pattern)
  /-- What is read here is the name. -/
  | named (pattern : Pattern)

namespace Pattern

/-- What is left behind one, two and more of the characters. -/
def fewestRests (among : Char → Bool) : List Char → List (List Char)
  | [] => []
  | c :: rest => if among c then rest :: fewestRests among rest else []

/-- The ways to read what stands at a place, in order of preference. -/
def readings : Pattern → Place → List Reading
  | start, place => if place.atStart then [⟨none, place⟩] else []
  | finish, place => if place.rest.isEmpty then [⟨none, place⟩] else []
  | nothing, place => [⟨none, place⟩]
  | char among, place =>
    match place.rest with
    | [] => []
    | c :: rest => if among c then [⟨none, ⟨false, rest⟩⟩] else []
  | fewest among, place => (fewestRests among place.rest).map fun rest => ⟨none, ⟨false, rest⟩⟩
  | either left right, place => left.readings place ++ right.readings place
  | sequence first second, place =>
    (first.readings place).flatMap fun r =>
      (second.readings r.behind).map fun s => ⟨s.name.or r.name, s.behind⟩
  | named pattern, place =>
    (pattern.readings place).map fun r =>
      ⟨some (place.rest.take (place.rest.length - r.behind.rest.length)), r.behind⟩

/-- The places of a text, from left to right. -/
def places (text : List Char) : List Place :=
  ⟨true, text⟩ :: text.tails.tail.map (⟨false, ·⟩)

/-- The first reading from the leftmost place that has one. -/
def find? (pattern : Pattern) (text : List Char) : Option Reading :=
  (places text).findSome? fun place => (pattern.readings place).head?

/-- What the first reading takes for the name. -/
def captured? (pattern : Pattern) (text : List Char) : Option (List Char) :=
  (pattern.find? text).bind Reading.name

/-- The letters in any case. -/
def letters : List Char → Pattern
  | [] => nothing
  | letter :: more => sequence (char (spellings letter).contains) (letters more)

/-- The pattern or nothing, rather the pattern. -/
def optional (pattern : Pattern) : Pattern := either pattern nothing

/-- An underscore and an `async`, either of which may be missing, and then the end. -/
def ending : Pattern :=
  sequence (optional (char (· == '_'))) (sequence (optional (letters "async".toList)) finish)

/-- The shortest name, of a line, that an ending follows. -/
def namedEnding : Pattern := sequence (named (fewest (· != '\n'))) ending

end Pattern

open Pattern in
/-- What a getter is called. -/
def memberPattern : Pattern :=
  sequence start (sequence (letters "get".toList) (sequence (optional (char (· == '_'))) namedEnding))

/-! ### The convention -/

/-- The text is `get` in any case, and something that has no line break. -/
structure Called (member word rest : List Char) : Prop where
  split : member = word ++ rest
  get : IsSpelling "get" word
  ne_nil : rest ≠ []
  line : '\n' ∉ rest

/-- The text without a leading underscore, if there is more than that. -/
def unmarked : List Char → List Char
  | '_' :: c :: rest => c :: rest
  | rest => rest

/-- An underscore and an `async` in any case, either of which may be missing. -/
def IsEnding (s : List Char) : Prop :=
  ∃ mark word, s = mark ++ word ∧ (mark = [] ∨ mark = ['_']) ∧ (word = [] ∨ IsSpelling "async" word)

/-- The shortest front that is not empty and leaves an ending. -/
structure IsStem (text front : List Char) : Prop where
  ne_nil : front ≠ []
  ending : ∃ rest, text = front ++ rest ∧ IsEnding rest
  shortest : ∀ other rest, text = other ++ rest → other ≠ [] → IsEnding rest → front.length ≤ other.length

theorem IsStem.unique {text front front' : List Char} (h : IsStem text front) (h' : IsStem text front') :
    front = front' := by
  obtain ⟨rest, hsplit, hending⟩ := h.ending
  obtain ⟨rest', hsplit', hending'⟩ := h'.ending
  have hle := h.shortest front' rest' hsplit' h'.ne_nil hending'
  have hge := h'.shortest front rest hsplit h.ne_nil hending
  exact (List.append_inj (hsplit.symm.trans hsplit') (hle.antisymm hge)).1

/-! ### Words in any case -/

theorem not_isUpper_of_isLower {c : Char} (h : c.isLower = true) : ¬ c.isUpper = true := by
  have hsmall : 'a'.val.toNat = 97 := rfl
  have hcapital : 'Z'.val.toNat = 90 := rfl
  simp only [Char.isLower, Char.isUpper, Bool.and_eq_true, decide_eq_true_eq, UInt32.le_iff_toNat_le, ge_iff_le] at h ⊢
  omega

/-- The small form of a character is the letter if it is the letter itself or its capital. -/
theorem toLower_eq_iff {letter c : Char} (h : letter.isLower = true) :
    c.toLower = letter ↔ c = letter ∨ c = letter.toUpper := by
  constructor
  · rintro rfl
    by_cases hc : c.isUpper = true
    · rw [Char.toUpper_toLower_eq_toUpper]
      refine Or.inr (Char.toUpper_eq_of_not_isLower fun hlower => ?_).symm
      exact not_isUpper_of_isLower hlower hc
    · exact Or.inl (Char.toLower_eq_of_not_isUpper hc).symm
  · rintro (rfl | rfl)
    · exact Char.toLower_eq_of_not_isUpper (not_isUpper_of_isLower h)
    · rw [Char.toLower_toUpper_eq_toLower]
      exact Char.toLower_eq_of_not_isUpper (not_isUpper_of_isLower h)

theorem isLetter_iff {letter c : Char} (h : letter.isLower = true) (hk : letter ≠ 'k') :
    isLetter letter c = true ↔ c ∈ spellings letter := by
  rw [isLetter, Bool.or_eq_true, Bool.and_eq_true, beq_iff_eq, beq_iff_eq, beq_iff_eq, toLower_eq_iff h,
    spellings, if_neg hk]
  by_cases hs : letter = 's'
  · subst hs
    simp [show Char.toUpper 's' = 'S' by decide, or_assoc]
  · simp [hs]

theorem isWord_iff {word : String} {s : List Char}
    (h : word.toList.all (fun letter => letter.isLower && letter != 'k') = true) :
    isWord word s = true ↔ IsSpelling word s := by
  have hletter : ∀ letter c, (letter, c) ∈ word.toList.zip s →
      (isLetter letter c = true ↔ c ∈ spellings letter) := fun letter c hmem => by
    have hplain := List.all_eq_true.mp h letter (List.of_mem_zip hmem).1
    rw [Bool.and_eq_true, bne_iff_ne] at hplain
    exact isLetter_iff hplain.1 hplain.2
  rw [isWord, Bool.and_eq_true, beq_iff_eq, List.all_eq_true, IsSpelling, List.forall₂_iff_zip, eq_comm]
  refine and_congr_right fun _ => ⟨fun hall letter c hmem => ?_, fun hall pair hmem => ?_⟩
  · exact (hletter letter c hmem).mp (hall (letter, c) hmem)
  · exact (hletter pair.1 pair.2 hmem).mpr (hall hmem)

theorem isWord_get {s : List Char} : isWord "get" s = true ↔ IsSpelling "get" s := isWord_iff (by decide)

theorem isWord_async {s : List Char} : isWord "async" s = true ↔ IsSpelling "async" s := isWord_iff (by decide)

theorem IsSpelling.length_eq {word : String} {s : List Char} (h : IsSpelling word s) : s.length = word.toList.length :=
  (List.Forall₂.length_eq h).symm

/-- A character that no letter of the word stands for is not in the text. -/
theorem IsSpelling.not_mem {word : String} {s : List Char} (h : IsSpelling word s) {c : Char}
    (hc : word.toList.all (fun letter => !(spellings letter).contains c) = true) : c ∉ s := by
  intro hmem
  obtain ⟨i, hi, rfl⟩ := List.getElem_of_mem hmem
  have hlength := h.length_eq
  have hspelling := (List.forall₂_iff_get.mp h).2 i (by omega) hi
  have hnot := List.all_eq_true.mp hc _ (List.getElem_mem (by omega : i < word.toList.length))
  simp only [Bool.not_eq_true', List.contains_eq_mem, decide_eq_false_iff_not] at hnot
  exact hnot hspelling

/-! ### Endings and stems -/

theorem isMemberEnding_iff {s : List Char} : isMemberEnding s = true ↔ IsEnding s := by
  constructor
  · intro h
    unfold isMemberEnding at h
    split at h
    · exact ⟨[], [], rfl, Or.inl rfl, Or.inl rfl⟩
    · rename_i rest
      rw [Bool.or_eq_true, List.isEmpty_iff, isWord_async] at h
      exact ⟨['_'], rest, rfl, Or.inr rfl, h⟩
    · exact ⟨[], s, rfl, Or.inl rfl, Or.inr (isWord_async.mp h)⟩
  · rintro ⟨mark, word, rfl, rfl | rfl, rfl | hword⟩
    · rfl
    · rw [List.nil_append]
      unfold isMemberEnding
      split
      · rfl
      · exact absurd List.mem_cons_self (hword.not_mem (c := '_') (by decide))
      · exact isWord_async.mpr hword
    · rfl
    · rw [List.singleton_append]
      exact Bool.or_eq_true_iff.mpr (Or.inr (isWord_async.mpr hword))

theorem IsEnding.no_line {s : List Char} (h : IsEnding s) : '\n' ∉ s := by
  obtain ⟨mark, word, rfl, hmark, hword⟩ := h
  intro hmem
  rcases List.mem_append.mp hmem with hmem | hmem
  · rcases hmark with rfl | rfl <;> simp at hmem
  · rcases hword with rfl | hword
    · cases hmem
    · exact hword.not_mem (by decide) hmem

theorem stem_ne_nil {s : List Char} (h : s ≠ []) : stem s ≠ [] := by
  cases s with
  | nil => exact absurd rfl h
  | cons c rest =>
    rw [stem]
    split_ifs <;> exact List.cons_ne_nil _ _

/-- The stem is the shortest front that leaves an ending. -/
theorem isStem_stem : ∀ {s : List Char}, s ≠ [] → IsStem s (stem s)
  | [], h => absurd rfl h
  | [c], _ => ⟨stem_ne_nil (List.cons_ne_nil c []), ⟨[], rfl, [], [], rfl, Or.inl rfl, Or.inl rfl⟩,
      fun other _ _ hne _ => List.length_pos_iff.mpr hne⟩
  | c :: d :: rest, _ => by
    have ih := isStem_stem (List.cons_ne_nil d rest)
    rw [stem]
    split_ifs with hending
    · exact ⟨List.cons_ne_nil c [], ⟨_, rfl, isMemberEnding_iff.mp hending⟩,
        fun other _ _ hne _ => List.length_pos_iff.mpr hne⟩
    · obtain ⟨behind, hsplit, hbehind⟩ := ih.ending
      refine ⟨List.cons_ne_nil _ _, ⟨behind, congrArg (c :: ·) hsplit, hbehind⟩, ?_⟩
      intro other behind hother hne hbehind
      cases other with
      | nil => exact absurd rfl hne
      | cons c' other =>
        have htail : d :: rest = other ++ behind := (List.cons_eq_cons.mp hother).2
        cases other with
        | nil =>
          -- one character is not enough, for what it leaves is no ending
          rw [htail] at hending
          exact absurd (isMemberEnding_iff.mpr hbehind) hending
        | cons d' other =>
          exact Nat.succ_le_succ (ih.shortest _ behind htail (List.cons_ne_nil _ _) hbehind)

/-! ### Readings -/

namespace Pattern

variable {atStart : Bool} {s text : List Char} {r : Reading} {place behind : Place} {p q : Pattern}

/-- Where the first part is read in one way, and that without a name, the second decides. -/
theorem readings_sequence_single (h : p.readings place = [⟨none, behind⟩]) :
    (sequence p q).readings place = q.readings behind := by
  simp [readings, h]

theorem readings_sequence_nil (h : p.readings place = []) : (sequence p q).readings place = [] := by
  rw [readings, h, List.flatMap_nil]

theorem readings_start : start.readings ⟨true, s⟩ = [⟨none, ⟨true, s⟩⟩] := rfl

theorem readings_letters : ∀ {word front : List Char} (rest : List Char) (atStart : Bool),
    List.Forall₂ (fun letter c => c ∈ spellings letter) word front →
      (letters word).readings ⟨atStart, front ++ rest⟩ = [⟨none, ⟨atStart && word.isEmpty, rest⟩⟩]
  | [], _, rest, atStart, .nil => by rw [List.isEmpty_nil, Bool.and_true]; rfl
  | letter :: word, c :: front, rest, atStart, .cons hc h => by
    have hfirst : (char (spellings letter).contains).readings ⟨atStart, c :: (front ++ rest)⟩ =
        [⟨none, ⟨false, front ++ rest⟩⟩] := if_pos (List.contains_iff_mem.mpr hc)
    rw [letters, List.cons_append, readings_sequence_single hfirst, readings_letters rest false h,
      Bool.false_and, List.isEmpty_cons, Bool.and_false]

/-- What is read as letters is a spelling of the word. -/
theorem of_mem_readings_letters : ∀ {word s : List Char} {atStart : Bool} {r : Reading},
    r ∈ (letters word).readings ⟨atStart, s⟩ → r.name = none ∧ ∃ front, s = front ++ r.behind.rest ∧
      List.Forall₂ (fun letter c => c ∈ spellings letter) word front
  | [], s, atStart, r, h => by
    obtain rfl := List.mem_singleton.mp h
    exact ⟨rfl, [], rfl, .nil⟩
  | letter :: word, [], atStart, r, h => nomatch h
  | letter :: word, c :: s, atStart, r, h => by
    rw [letters] at h
    by_cases hc : c ∈ spellings letter
    · have hfirst : (char (spellings letter).contains).readings ⟨atStart, c :: s⟩ = [⟨none, ⟨false, s⟩⟩] :=
        if_pos (List.contains_iff_mem.mpr hc)
      rw [readings_sequence_single hfirst] at h
      obtain ⟨hname, front, hsplit, hfront⟩ := of_mem_readings_letters h
      exact ⟨hname, c :: front, congrArg (c :: ·) hsplit, .cons hc hfront⟩
    · have hfirst : (char (spellings letter).contains).readings ⟨atStart, c :: s⟩ = [] :=
        if_neg (mt List.contains_iff_mem.mp hc)
      rw [readings_sequence_nil hfirst] at h
      cases h

theorem readings_mark (rest : List Char) :
    (optional (char (· == '_'))).readings ⟨atStart, '_' :: rest⟩ =
      [⟨none, ⟨false, rest⟩⟩, ⟨none, ⟨atStart, '_' :: rest⟩⟩] := rfl

theorem readings_no_mark (h : s.head? ≠ some '_') :
    (optional (char (· == '_'))).readings ⟨atStart, s⟩ = [⟨none, ⟨atStart, s⟩⟩] := by
  cases s with
  | nil => rfl
  | cons c rest =>
    have hc : ¬ (c == '_') = true := fun hc => h (congrArg some (beq_iff_eq.mp hc))
    simp [optional, readings, hc]

/-! ### Endings -/

theorem mem_readings_sequence : r ∈ (sequence p q).readings place ↔
    ∃ a ∈ p.readings place, ∃ b ∈ q.readings a.behind, ⟨b.name.or a.name, b.behind⟩ = r := by
  rw [readings, List.mem_flatMap]
  simp only [List.mem_map]

theorem mem_readings_optional :
    r ∈ (optional p).readings place ↔ r ∈ p.readings place ∨ r = ⟨none, place⟩ := by
  rw [optional, readings, List.mem_append]
  exact or_congr_right List.mem_singleton

theorem of_mem_readings_mark (h : r ∈ (optional (char (· == '_'))).readings place) :
    r.name = none ∧ ∃ mark, place.rest = mark ++ r.behind.rest ∧ (mark = [] ∨ mark = ['_']) := by
  obtain ⟨atStart, s⟩ := place
  by_cases hs : s.head? = some '_'
  · obtain ⟨rest, rfl⟩ := List.head?_eq_some_iff.mp hs
    rw [readings_mark] at h
    rcases List.mem_cons.mp h with rfl | h
    · exact ⟨rfl, ['_'], rfl, Or.inr rfl⟩
    · obtain rfl := List.mem_singleton.mp h
      exact ⟨rfl, [], rfl, Or.inl rfl⟩
  · rw [readings_no_mark hs] at h
    obtain rfl := List.mem_singleton.mp h
    exact ⟨rfl, [], rfl, Or.inl rfl⟩

/-- What is read as an ending is one, and no name is read in it. -/
theorem of_mem_readings_ending (h : r ∈ ending.readings ⟨atStart, s⟩) : r.name = none ∧ IsEnding s := by
  obtain ⟨a, ha, t, ht, rfl⟩ := mem_readings_sequence.mp h
  obtain ⟨b, hb, c, hc, rfl⟩ := mem_readings_sequence.mp ht
  obtain ⟨hname, mark, rfl, hmark⟩ := of_mem_readings_mark ha
  have hfinish : b.behind.rest = [] ∧ c.name = none := by
    rw [readings] at hc
    split_ifs at hc with hempty
    · rw [List.mem_singleton.mp hc]
      exact ⟨List.isEmpty_iff.mp hempty, rfl⟩
    · cases hc
  rcases mem_readings_optional.mp hb with hb | rfl
  · obtain ⟨hword, word, hsplit, hspells⟩ := of_mem_readings_letters hb
    rw [hfinish.1, List.append_nil] at hsplit
    refine ⟨?_, mark, word, congrArg (mark ++ ·) hsplit, hmark, Or.inr hspells⟩
    rw [hfinish.2, hword, hname]
    rfl
  · refine ⟨?_, mark, [], congrArg (mark ++ ·) hfinish.1, hmark, Or.inl rfl⟩
    rw [hfinish.2, hname]
    rfl

/-- An ending is read as one. -/
theorem exists_mem_readings_ending (atStart : Bool) (h : IsEnding s) : ∃ r, r ∈ ending.readings ⟨atStart, s⟩ := by
  obtain ⟨mark, word, rfl, hmark, hword⟩ := h
  have hfirst : ∃ a ∈ (optional (char (· == '_'))).readings ⟨atStart, mark ++ word⟩, a.behind.rest = word := by
    rcases hmark with rfl | rfl
    · exact ⟨_, mem_readings_optional.mpr (Or.inr rfl), rfl⟩
    · exact ⟨_, List.mem_cons_self, rfl⟩
  obtain ⟨a, ha, rfl⟩ := hfirst
  have hsecond : ∃ b ∈ (optional (letters "async".toList)).readings a.behind, b.behind.rest = [] := by
    rcases hword with hword | hword
    · exact ⟨_, mem_readings_optional.mpr (Or.inr rfl), hword⟩
    · have hread := readings_letters [] a.behind.atStart hword
      rw [List.append_nil] at hread
      exact ⟨_, mem_readings_optional.mpr (Or.inl (hread ▸ List.mem_singleton_self _)), rfl⟩
  obtain ⟨b, hb, hempty⟩ := hsecond
  have hthird : ⟨none, b.behind⟩ ∈ finish.readings b.behind := by
    rw [readings, hempty, List.isEmpty_nil, if_pos rfl]
    exact List.mem_singleton_self _
  exact ⟨_, mem_readings_sequence.mpr ⟨a, ha, _, mem_readings_sequence.mpr ⟨b, hb, _, hthird, rfl⟩, rfl⟩⟩

/-! ### The name -/

/-- How the first reading of a name and its ending goes from a place that `front` stands in front of. -/
def nameReading (text rest : List Char) : Option Reading :=
  ((ending.readings ⟨false, rest⟩).map fun e =>
    (⟨e.name.or (some (text.take (text.length - rest.length))), e.behind⟩ : Reading)).head?

theorem head?_readings_namedEnding : (namedEnding.readings ⟨atStart, s⟩).head? =
    (fewestRests (· != '\n') s).findSome? (nameReading s) := by
  rw [namedEnding, readings, readings, readings, List.head?_flatMap, List.map_map, List.findSome?_map]
  rfl

theorem nameReading_of_isEnding (front : List Char) {rest : List Char} (h : IsEnding rest) :
    ∃ behind, nameReading (front ++ rest) rest = some ⟨some front, behind⟩ := by
  obtain ⟨e, he⟩ := exists_mem_readings_ending false h
  obtain ⟨first, more, hread⟩ := List.exists_cons_of_ne_nil (List.ne_nil_of_mem he)
  have hname := (of_mem_readings_ending (hread ▸ List.mem_cons_self)).1
  refine ⟨first.behind, ?_⟩
  rw [nameReading, hread, List.map_cons, List.head?_cons, hname, Option.none_or, List.length_append,
    Nat.add_sub_cancel, List.take_left]

theorem nameReading_of_not_isEnding {rest : List Char} (text : List Char) (h : ¬ IsEnding rest) :
    nameReading text rest = none := by
  have hread : ending.readings ⟨false, rest⟩ = [] :=
    List.eq_nil_iff_forall_not_mem.mpr fun _ hr => h (of_mem_readings_ending hr).2
  rw [nameReading, hread]
  rfl

/-- With `front` read for the name already, the least that can be added to it is the stem of what follows. -/
theorem findSome?_nameReading (front : List Char) : ∀ {s : List Char}, s ≠ [] → '\n' ∉ s →
    ∃ behind, (fewestRests (· != '\n') s).findSome? (nameReading (front ++ s)) =
      some ⟨some (front ++ stem s), behind⟩
  | [], h, _ => absurd rfl h
  | c :: s, _, hline => by
    obtain ⟨hc, hs⟩ := not_or.mp (List.mem_cons.not.mp hline)
    have hsplit : front ++ c :: s = (front ++ [c]) ++ s := List.append_cons ..
    rw [fewestRests, if_pos (bne_iff_ne.mpr (Ne.symm hc)), List.findSome?_cons, hsplit]
    by_cases hending : IsEnding s
    · obtain ⟨behind, hread⟩ := nameReading_of_isEnding (front ++ [c]) hending
      have hstem : stem (c :: s) = [c] := by rw [stem, if_pos (isMemberEnding_iff.mpr hending)]
      exact ⟨behind, by rw [hread, hstem]⟩
    · have hne : s ≠ [] := by
        rintro rfl
        exact hending ⟨[], [], rfl, Or.inl rfl, Or.inl rfl⟩
      obtain ⟨behind, hread⟩ := findSome?_nameReading (front ++ [c]) hne hs
      have hstem : stem (c :: s) = c :: stem s := by rw [stem, if_neg (mt isMemberEnding_iff.mp hending)]
      refine ⟨behind, ?_⟩
      rw [nameReading_of_not_isEnding _ hending, hread, hstem, List.append_cons front c (stem s)]

/-- No ending is left in front of a line break. -/
theorem findSome?_nameReading_of_line (text : List Char) : ∀ {s : List Char}, s = [] ∨ '\n' ∈ s →
    (fewestRests (· != '\n') s).findSome? (nameReading text) = none
  | [], _ => rfl
  | c :: s, h => by
    have hline : '\n' ∈ c :: s := h.resolve_left (List.cons_ne_nil c s)
    rw [fewestRests]
    split_ifs with hc
    · have hs : '\n' ∈ s := (List.mem_cons.mp hline).resolve_left (Ne.symm (bne_iff_ne.mp hc))
      rw [List.findSome?_cons, nameReading_of_not_isEnding text fun hending => hending.no_line hs]
      exact findSome?_nameReading_of_line text (Or.inr hs)
    · rfl

/-- A name that is not empty is read up to its ending, if there is no line break. -/
theorem firstName_namedEnding (atStart : Bool) (h : s ≠ []) (hline : '\n' ∉ s) :
    ∃ behind, (namedEnding.readings ⟨atStart, s⟩).head? = some ⟨some (stem s), behind⟩ := by
  rw [head?_readings_namedEnding]
  exact findSome?_nameReading [] h hline

theorem readings_namedEnding_eq_nil (h : s = [] ∨ '\n' ∈ s) : namedEnding.readings ⟨atStart, s⟩ = [] := by
  rw [← List.head?_eq_none_iff, head?_readings_namedEnding]
  exact findSome?_nameReading_of_line s h

/-! ### What the pattern captures -/

theorem readings_sequence_marked (p : Pattern) (rest : List Char) :
    (sequence (optional (char (· == '_'))) p).readings ⟨atStart, '_' :: rest⟩ =
      p.readings ⟨false, rest⟩ ++ p.readings ⟨atStart, '_' :: rest⟩ := by
  rw [readings, readings_mark, List.flatMap_cons, List.flatMap_singleton]
  simp only [Option.or_none, List.map_id']

/-- Behind `get` an underscore goes first, if there is more than the underscore. -/
theorem firstName_marked (atStart : Bool) (h : s ≠ []) (hline : '\n' ∉ s) : ∃ behind,
    ((sequence (optional (char (· == '_'))) namedEnding).readings ⟨atStart, s⟩).head? =
      some ⟨some (stem (unmarked s)), behind⟩ := by
  by_cases hmark : s.head? = some '_'
  · obtain ⟨rest, rfl⟩ := List.head?_eq_some_iff.mp hmark
    rw [readings_sequence_marked]
    cases rest with
    | nil =>
      rw [readings_namedEnding_eq_nil (Or.inl rfl), List.nil_append]
      exact firstName_namedEnding atStart h hline
    | cons c rest =>
      obtain ⟨behind, hread⟩ := firstName_namedEnding false (List.cons_ne_nil c rest)
        fun hmem => hline (List.mem_cons_of_mem _ hmem)
      exact ⟨behind, by rw [List.head?_append, hread, Option.some_or]; rfl⟩
  · have hplain : unmarked s = s := by
      unfold unmarked
      split
      · exact absurd rfl hmark
      · rfl
    rw [readings_sequence_single (readings_no_mark hmark), hplain]
    exact firstName_namedEnding atStart h hline

theorem readings_marked_eq_nil (h : s = [] ∨ '\n' ∈ s) :
    (sequence (optional (char (· == '_'))) namedEnding).readings ⟨atStart, s⟩ = [] := by
  by_cases hmark : s.head? = some '_'
  · obtain ⟨rest, rfl⟩ := List.head?_eq_some_iff.mp hmark
    have hline : '\n' ∈ rest :=
      (List.mem_cons.mp (h.resolve_left (List.cons_ne_nil '_' rest))).resolve_left (by decide)
    rw [readings_sequence_marked, readings_namedEnding_eq_nil (Or.inr hline), readings_namedEnding_eq_nil h,
      List.append_nil]
  · rw [readings_sequence_single (readings_no_mark hmark), readings_namedEnding_eq_nil h]

/-- Nothing is read anywhere but at the start. -/
theorem find?_eq_head? (pattern : Pattern) (text : List Char) :
    (sequence start pattern).find? text = (pattern.readings ⟨true, text⟩).head? := by
  have hlater : (text.tails.tail.map (⟨false, ·⟩)).findSome?
      (fun place => ((sequence start pattern).readings place).head?) = none := by
    rw [List.findSome?_eq_none_iff]
    intro place hplace
    obtain ⟨rest, -, rfl⟩ := List.mem_map.mp hplace
    rfl
  rw [find?, places, List.findSome?_cons, hlater, readings_sequence_single readings_start]
  cases (pattern.readings ⟨true, text⟩).head? <;> rfl

end Pattern

open Pattern

/-- What is called by the convention is read as such, up to the stem. -/
theorem captured?_of_called {member word rest : List Char} (h : Called member word rest) :
    memberPattern.captured? member = some (stem (unmarked rest)) := by
  obtain ⟨behind, hread⟩ := firstName_marked (true && "get".toList.isEmpty) h.ne_nil h.line
  rw [captured?, memberPattern, find?_eq_head?, h.split,
    readings_sequence_single (readings_letters rest true h.get), hread]
  rfl

/-- What the pattern reads is called by the convention. -/
theorem captured?_eq_none {member : List Char} (h : ¬ ∃ word rest, Called member word rest) :
    memberPattern.captured? member = none := by
  rw [captured?, memberPattern, find?_eq_head?]
  have hread : (sequence (letters "get".toList) (sequence (optional (char (· == '_'))) namedEnding)).readings
      ⟨true, member⟩ = [] := by
    rw [List.eq_nil_iff_forall_not_mem]
    intro r hr
    obtain ⟨a, ha, b, hb, -⟩ := mem_readings_sequence.mp hr
    obtain ⟨-, word, hsplit, hget⟩ := of_mem_readings_letters ha
    refine h ⟨word, a.behind.rest, hsplit, hget, ?_, ?_⟩
    · intro hempty
      rw [readings_marked_eq_nil (Or.inl hempty)] at hb
      cases hb
    · intro hline
      rw [readings_marked_eq_nil (Or.inr hline)] at hb
      cases hb
  rw [hread]
  rfl

/-! ### The members -/

theorem Called.drop_eq {member word rest : List Char} (h : Called member word rest) :
    member.take 3 = word ∧ member.drop 3 = rest := by
  have hlength : word.length = 3 := h.get.length_eq
  rw [h.split, ← hlength]
  exact ⟨List.take_left, List.drop_left⟩

theorem candidateName?_eq (member : String) : candidateName? member =
    if isWord "get" (member.toList.take 3) && !(member.toList.drop 3).isEmpty &&
        !(member.toList.drop 3).contains '\n' then
      some (camelCase (String.ofList (stem (unmarked (member.toList.drop 3)))))
    else none := rfl

theorem candidateName?_of_called {member : String} {word rest : List Char} (h : Called member.toList word rest) :
    candidateName? member = some (camelCase (String.ofList (stem (unmarked rest)))) := by
  obtain ⟨hword, hrest⟩ := h.drop_eq
  have hcond : (isWord "get" word && !rest.isEmpty && !rest.contains '\n') = true := by
    simp [isWord_get.mpr h.get, h.ne_nil, h.line]
  rw [candidateName?_eq, hword, hrest, if_pos hcond]

theorem candidateName?_eq_none {member : String} (h : ¬ ∃ word rest, Called member.toList word rest) :
    candidateName? member = none := by
  rw [candidateName?_eq, if_neg]
  simp only [Bool.and_eq_true, Bool.not_eq_true', List.isEmpty_eq_false_iff, List.contains_eq_mem,
    decide_eq_false_iff_not]
  rintro ⟨⟨hget, hne⟩, hline⟩
  exact h ⟨_, _, (List.take_append_drop 3 _).symm, isWord_get.mp hget, hne, hline⟩

/-! ### Plain names -/

/-- A name without a line break that neither starts nor ends with an underscore and does not end in `async`. -/
structure PlainName (name : List Char) : Prop where
  ne_nil : name ≠ []
  line : '\n' ∉ name
  head : name.head? ≠ some '_'
  last : name.getLast? ≠ some '_'
  async : ∀ word, IsSpelling "async" word → ¬ word <:+ name

/-- With more in front of it that does not end like an ending itself, an ending is none. -/
theorem not_isEnding_append {front s : List Char} (hne : front ≠ []) (hlast : front.getLast? ≠ some '_')
    (hasync : ∀ word, IsSpelling "async" word → ¬ word <:+ front) (h : IsEnding s) : ¬ IsEnding (front ++ s) := by
  obtain ⟨mark, word, rfl, hmark, hword⟩ := h
  rintro ⟨mark', word', hsplit, hmark', hword'⟩
  have hshort : mark'.length ≤ 1 := by rcases hmark' with rfl | rfl <;> decide
  have hfront : 0 < front.length := List.length_pos_iff.mpr hne
  rw [← List.append_assoc] at hsplit
  have hlengths := congrArg List.length hsplit
  simp only [List.length_append] at hlengths
  rcases hword' with rfl | hword'
  · -- then there is an underscore only, and the front is it
    rcases hword with rfl | hword
    · have hmark : mark = [] := List.length_eq_zero_iff.mp (by simp at hlengths; omega)
      subst hmark
      rcases hmark' with rfl | rfl
      · exact hne (by simpa using hsplit)
      · exact hlast (by simp [show front = ['_'] by simpa using hsplit])
    · have hfive : word.length = 5 := hword.length_eq
      simp at hlengths
      omega
  · have hfive : word'.length = 5 := hword'.length_eq
    rcases hword with rfl | hword
    · rw [List.append_nil] at hsplit
      rcases hmark with rfl | rfl
      · rw [List.append_nil] at hsplit
        exact hasync word' hword' ⟨mark', hsplit.symm⟩
      · -- the underscore at the end would be in the word
        have hin : '_' ∈ word' := by
          have hends := congrArg List.getLast? hsplit
          rw [List.getLast?_append_of_ne_nil _ (List.ne_nil_of_length_eq_add_one hfive)] at hends
          exact List.mem_of_getLast? (by simpa using hends.symm)
        exact hword'.not_mem (by decide) hin
    · have hsame : word.length = 5 := hword.length_eq
      obtain ⟨hfront', -⟩ := List.append_inj' hsplit (hsame.trans hfive.symm)
      rcases hmark' with rfl | rfl
      · exact hne (List.append_eq_nil_iff.mp hfront').1
      · have hmark : mark = [] := List.length_eq_zero_iff.mp (by simp at hlengths; omega)
        rw [hmark, List.append_nil] at hfront'
        exact hlast (by rw [hfront']; rfl)

variable {name : List Char}

/-- A plain name is the stem of itself with an ending. -/
theorem PlainName.isStem (h : PlainName name) {s : List Char} (hs : IsEnding s) : IsStem (name ++ s) name := by
  refine ⟨h.ne_nil, ⟨s, rfl, hs⟩, fun other rest hsplit hne hrest => ?_⟩
  by_contra hshort
  obtain ⟨more, hname, hmore⟩ | ⟨more, hother, -⟩ := List.append_eq_append_iff.mp hsplit.symm
  · have hnonempty : more ≠ [] := by
      rintro rfl
      rw [hname, List.append_nil] at hshort
      exact hshort le_rfl
    refine not_isEnding_append hnonempty ?_ (fun word hword hends => ?_) hs (hmore ▸ hrest)
    · rw [← List.getLast?_append_of_ne_nil other hnonempty, ← hname]
      exact h.last
    · exact h.async word hword (hname ▸ hends.trans (List.suffix_append other more))
  · rw [hother, List.length_append] at hshort
    omega

theorem PlainName.unmarked_append (h : PlainName name) {mark : List Char} (hmark : mark = [] ∨ mark = ['_'])
    (s : List Char) : unmarked (mark ++ (name ++ s)) = name ++ s := by
  obtain ⟨c, rest, rfl⟩ := List.exists_cons_of_ne_nil h.ne_nil
  rcases hmark with rfl | rfl
  · unfold unmarked
    split
    · rename_i heq
      exact absurd (congrArg List.head? heq) h.head
    · rfl
  · rfl

/-- A getter of a plain name serves the name, with an underscore or not and with an ending or not. -/
theorem PlainName.served (h : PlainName name) {member : String} {word mark s : List Char}
    (hget : IsSpelling "get" word) (hmark : mark = [] ∨ mark = ['_']) (hs : IsEnding s)
    (hmember : member.toList = word ++ (mark ++ (name ++ s))) :
    candidateName? member = some (camelCase (String.ofList name)) := by
  have hline : '\n' ∉ mark ++ (name ++ s) := by
    simp only [List.mem_append, not_or]
    refine ⟨?_, h.line, hs.no_line⟩
    rcases hmark with rfl | rfl <;> decide
  have hne : mark ++ (name ++ s) ≠ [] := by simp [h.ne_nil]
  have hcalled : Called member.toList word (mark ++ (name ++ s)) := ⟨hmember, hget, hne, hline⟩
  have hstem : IsStem (name ++ s) (stem (name ++ s)) := isStem_stem (by simp [h.ne_nil])
  rw [candidateName?_of_called hcalled, h.unmarked_append hmark s, hstem.unique (h.isStem hs)]

/-! ### The convention -/

theorem isSpelling_iff {word : String} {s : List Char} : IsSpelling word s ↔
    s.length = word.toList.length ∧ (word.toList.zip s).all (fun pair => (spellings pair.1).contains pair.2) = true := by
  rw [IsSpelling, List.forall₂_iff_zip, List.all_eq_true, eq_comm]
  refine and_congr_right fun _ => ⟨fun h pair hmem => ?_, fun h letter c hmem => ?_⟩
  · exact List.contains_iff_mem.mpr (h hmem)
  · exact List.contains_iff_mem.mp (h (letter, c) hmem)

/-- What a member serves, by its name: the pattern's capture in camel case. That is the stem of what stands behind
`get`, in any case, and one underscore; a member that is called otherwise serves nothing. So the getters of a plain
name serve it, with the underscore or not and with the `async` or not. -/
theorem candidateName?_convention (member : String) :
    candidateName? member = (memberPattern.captured? member.toList).map (fun name => camelCase (String.ofList name)) ∧
    (∀ served, candidateName? member = some served ↔ ∃ word rest front,
      Called member.toList word rest ∧ IsStem (unmarked rest) front ∧ served = camelCase (String.ofList front)) ∧
    (candidateName? member = none ↔ ¬ ∃ word rest, Called member.toList word rest) ∧
    ∀ name : String, PlainName name.toList →
      ∀ getter ∈ ["get" ++ name, "Get_" ++ name, "get" ++ name ++ "Async", "get_" ++ name ++ "_async"],
        candidateName? getter = some (camelCase name) := by
  have hnonempty : ∀ {rest : List Char}, rest ≠ [] → unmarked rest ≠ [] := fun {rest} hne => by
    unfold unmarked
    split
    · exact List.cons_ne_nil _ _
    · exact hne
  refine ⟨?_, fun served => ?_, ?_, fun name hname getter hgetter => ?_⟩
  · by_cases h : ∃ word rest, Called member.toList word rest
    · obtain ⟨word, rest, hcalled⟩ := h
      rw [candidateName?_of_called hcalled, captured?_of_called hcalled]
      rfl
    · rw [candidateName?_eq_none h, captured?_eq_none h]
      rfl
  · constructor
    · intro hserved
      by_cases h : ∃ word rest, Called member.toList word rest
      · obtain ⟨word, rest, hcalled⟩ := h
        rw [candidateName?_of_called hcalled] at hserved
        exact ⟨word, rest, _, hcalled, isStem_stem (hnonempty hcalled.ne_nil), (Option.some.inj hserved).symm⟩
      · rw [candidateName?_eq_none h] at hserved
        cases hserved
    · rintro ⟨word, rest, front, hcalled, hstem, rfl⟩
      rw [candidateName?_of_called hcalled, (isStem_stem (hnonempty hcalled.ne_nil)).unique hstem]
  · refine ⟨fun hnone ⟨word, rest, hcalled⟩ => ?_, candidateName?_eq_none⟩
    rw [candidateName?_of_called hcalled] at hnone
    cases hnone
  · have hget : IsSpelling "get" "get".toList := isSpelling_iff.mpr (by decide)
    have hGet : IsSpelling "get" "Get".toList := isSpelling_iff.mpr (by decide)
    have hbare : IsEnding [] := ⟨[], [], rfl, Or.inl rfl, Or.inl rfl⟩
    have hAsync : IsEnding "Async".toList := ⟨[], _, rfl, Or.inl rfl, Or.inr (isSpelling_iff.mpr (by decide))⟩
    have hasync : IsEnding "_async".toList :=
      ⟨['_'], "async".toList, rfl, Or.inr rfl, Or.inr (isSpelling_iff.mpr (by decide))⟩
    rw [← String.ofList_toList (s := name)]
    simp only [List.mem_cons, List.not_mem_nil, or_false] at hgetter
    rcases hgetter with rfl | rfl | rfl | rfl
    · exact hname.served hget (Or.inl rfl) hbare (by simp)
    · exact hname.served hGet (Or.inr rfl) hbare (by simp)
    · exact hname.served hget (Or.inl rfl) hAsync (by simp)
    · exact hname.served hget (Or.inr rfl) hasync (by simp)

/-- `get_Books_async` serves the plain name `Books`, as the members that are called otherwise do not. -/
theorem candidateName?_convention_books :
    candidateName? "get_Books_async" = some "books" ∧ candidateName? "fetchBooks" = none := by
  have hplain : PlainName "Books".toList := by
    refine ⟨by decide, by decide, by decide, by decide, fun word hword hends => ?_⟩
    obtain rfl := hends.eq_of_length (hword.length_eq.trans (by decide))
    exact absurd (isSpelling_iff.mp hword).2 (by decide)
  have hcamel : camelCase "Books" = "books" := by decide +kernel
  refine ⟨?_, (candidateName?_convention "fetchBooks").2.2.1.mpr ?_⟩
  · rw [← hcamel]
    exact (candidateName?_convention "").2.2.2 "Books" hplain "get_Books_async" (by decide)
  · rintro ⟨word, rest, hcalled⟩
    have hword := isWord_get.mpr (hcalled.drop_eq.1 ▸ hcalled.get)
    exact absurd hword (by decide)

end SelectLang
