/-
# Names and literals read back

A name, a path and a literal are read off their own text if the text that follows does not go on with
them: a name ends where no name character follows, and no token of an expression goes on where neither
a name character nor a point nor a star follows (`EndsToken`). That a text is no name or no literal
is seen from its first character and its first word.

Key definitions: `EndsWord`, `EndsToken`, `Marked`.
Key theorems: `identifier_done`, `namePath_done`, `literal_done`, `misses_literal`.
-/
import Mathlib
import SelectLang.Proofs.Grammar.Progress
import SelectLang.Proofs.Number.Positional
import SelectLang.Proofs.Syntax.Printable

namespace SelectLang

/-- No word goes on here. -/
def EndsWord (s : List Char) : Prop := ∀ c ∈ s.head?, isNameChar c = false

/-- No name, path, number or row of stars goes on here. -/
def EndsToken (s : List Char) : Prop := ∀ c ∈ s.head?, isNameChar c = false ∧ c ≠ '.' ∧ c ≠ '*'

theorem EndsWord.not_digit {s : List Char} (h : EndsWord s) : ∀ c ∈ s.head?, c.isDigit = false :=
  fun c hc => by
    by_contra hd
    rw [Bool.not_eq_false] at hd
    have := isNameChar_of_isDigit hd
    rw [h c hc] at this
    cases this

theorem EndsWord.wordOf_eq_nil {s : List Char} (h : EndsWord s) : Parser.wordOf s = [] :=
  (Parser.takeWhile_append (by simp : ∀ c ∈ [], isNameChar c = true) h).1

theorem EndsWord.misses_keyword {s : List Char} (h : EndsWord s) {word : String}
    (hw : word.toList.all isKeywordLetter = true) (hne : word.toList ≠ []) : (Parser.keyword word).Misses s :=
  Parser.misses_keyword hw (by rw [h.wordOf_eq_nil]; exact fun h0 => hne h0.symm)

theorem endsWord_dropWhile (s : List Char) : EndsWord (s.dropWhile isNameChar) :=
  Parser.head_dropWhile isNameChar s

theorem EndsToken.endsWord {s : List Char} (h : EndsToken s) : EndsWord s := fun c hc => (h c hc).1

theorem EndsToken.not_digit {s : List Char} (h : EndsToken s) : ∀ c ∈ s.head?, c.isDigit = false :=
  h.endsWord.not_digit

theorem endsToken_blank (s : List Char) : EndsToken (' ' :: s) := fun c hc => by
  cases hc
  decide

namespace Grammar

open SelectLang.Parser

/-! ### Words -/

theorem wordOf_of_endsWord {front rest : List Char} (hf : ∀ c ∈ front, isNameChar c = true)
    (hr : EndsWord rest) : wordOf (front ++ rest) = front := (takeWhile_append hf hr).1

theorem toLower_keyword {word : String} (hw : word.toList.all isKeywordLetter = true) :
    word.toList.map Char.toLower = word.toList := by
  refine (List.map_congr_left fun c hc => ?_).trans (List.map_id _)
  exact toLower_of_isKeywordLetter (List.all_eq_true.mp hw c hc)

/-- In its own text a keyword is the first word. -/
theorem wordOf_keyword {word : String} (hw : word.toList.all isKeywordLetter = true)
    {rest : List Char} (hr : EndsWord rest) : wordOf (word.toList ++ rest) = word.toList :=
  wordOf_of_endsWord (fun c hc => by
    have hk := List.all_eq_true.mp hw c hc
    exact isNameChar_of_toLower hk (toLower_of_isKeywordLetter hk)) hr

theorem keyword_text_done {word : String} (hw : word.toList.all isKeywordLetter = true)
    {rest : List Char} (hr : EndsWord rest) :
    keyword word (word.toList ++ rest) = .done word.toList rest := by
  have hword := wordOf_keyword hw hr
  have hrest : (word.toList ++ rest).dropWhile isNameChar = rest := by
    have h := wordOf_append (word.toList ++ rest)
    rw [hword] at h
    exact List.append_cancel_left h
  rw [keyword_done hw (by rw [hword, toLower_keyword hw]), hword, hrest]

theorem misses_keywords {words : List String} {s : List Char}
    (hw : ∀ word ∈ words.head?, word.toList.all isKeywordLetter = true)
    (h : ∀ word ∈ words.head?, (wordOf s).map Char.toLower ≠ word.toList) (hne : words ≠ []) :
    (keywords words).Misses s := by
  match words, hne with
  | [word], _ => exact (misses_keyword (hw word rfl) (h word rfl)).bind
  | word :: _ :: _, _ => exact (misses_keyword (hw word rfl) (h word rfl)).bind

/-! ### Names -/

/-- A name begins and goes on as names do, in characters. -/
theorem isName_chars {name : String} (h : isName name = true) :
    (∃ c ∈ name.toList.head?, isNameStart c = true) ∧ ∀ c ∈ name.toList, isNameChar c = true := by
  obtain ⟨c, cs, hname, hc, hcs, -⟩ := isName_iff.mp h
  rw [hname]
  refine ⟨⟨c, rfl, hc⟩, fun d hd => ?_⟩
  rcases List.mem_cons.mp hd with rfl | hd
  · exact isNameChar_of_isNameStart hc
  · exact hcs d hd

/-- What begins like a name is read as far as name characters go. -/
theorem consumed_word {s : List Char} {c : Char} (hc : c ∈ s.head?) (hs : isNameStart c = true) :
    consumed (both (satisfy isNameStart) (Parser.takeWhile isNameChar)) s =
      .done (wordOf s) (s.dropWhile isNameChar) := by
  obtain ⟨t, rfl⟩ : ∃ t, s = c :: t := by
    cases s with
    | nil => cases hc
    | cons d t => cases hc; exact ⟨t, rfl⟩
  have hn := isNameChar_of_isNameStart hs
  have h1 : satisfy isNameStart (c :: t) = .done c t := by rw [satisfy, if_pos hs]
  have h2 : both (satisfy isNameStart) (Parser.takeWhile isNameChar) (c :: t) =
      .done (c, t.takeWhile isNameChar) (t.dropWhile isNameChar) := both_done h1 rfl
  have hlen : (c :: t).length - (t.dropWhile isNameChar).length = (wordOf (c :: t)).length := by
    have h := congrArg List.length (wordOf_append (c :: t))
    rw [List.length_append, List.dropWhile_cons_of_pos hn] at h
    omega
  rw [consumed, h2]
  simp only [hlen, List.dropWhile_cons_of_pos hn]
  congr 1
  calc (c :: t).take (wordOf (c :: t)).length
      = (wordOf (c :: t) ++ (c :: t).dropWhile isNameChar).take (wordOf (c :: t)).length := by
        rw [wordOf_append]
    _ = wordOf (c :: t) := List.take_left

theorem identifier_word {s : List Char} {c : Char} (hc : c ∈ s.head?) (hs : isNameStart c = true)
    (hr : isReserved (String.ofList (wordOf s)) = false) :
    identifier s = .done (String.ofList (wordOf s)) (s.dropWhile isNameChar) :=
  expecting_done (filterMap_done (consumed_word hc hs) (by simp [hr]))

theorem identifier_done {name : String} (hn : isName name = true) {rest : List Char}
    (hr : EndsWord rest) : identifier (name.toList ++ rest) = .done name rest := by
  obtain ⟨⟨c, hc, hs⟩, hall⟩ := isName_chars hn
  obtain ⟨_, _, -, -, -, hres⟩ := isName_iff.mp hn
  have hw := wordOf_of_endsWord hall hr
  have hd := (takeWhile_append hall hr).2
  have hc' : c ∈ (name.toList ++ rest).head? := by
    rw [List.head?_append, Option.mem_def.mp hc]
    rfl
  rw [identifier_word hc' hs (by rw [hw, String.ofList_toList, hres]), hw, hd, String.ofList_toList]

theorem misses_identifier {s : List Char} (h : ∀ c ∈ s.head?, isNameStart c = false) :
    identifier.Misses s := by
  have hb : (both (satisfy isNameStart) (Parser.takeWhile isNameChar)).Misses s :=
    (misses_satisfy h).bind
  obtain ⟨t, ht⟩ := hb
  have hc : (consumed (both (satisfy isNameStart) (Parser.takeWhile isNameChar))).Misses s :=
    ⟨t, by rw [consumed, ht]⟩
  exact hc.filterMap.expecting _

theorem misses_identifier_of_ends {s : List Char} (h : EndsWord s) : identifier.Misses s :=
  misses_identifier fun c hc => Bool.eq_false_iff.mpr fun hs => by
    have := h c hc
    rw [isNameChar_of_isNameStart hs] at this
    cases this

/-- A reserved word is no name. -/
theorem misses_identifier_of_reserved {s : List Char}
    (h : isReserved (String.ofList (wordOf s)) = true) : identifier.Misses s := by
  cases s with
  | nil => exact misses_identifier (by simp)
  | cons c s =>
    by_cases hc : isNameStart c = true
    · exact (filterMap_refused (consumed_word rfl hc) (by simp [h])).expecting _
    · exact misses_identifier fun d hd => by cases hd; simpa using hc

/-! ### Paths -/

/-- A list of texts with a separator between them: the first, then each behind a separator. -/
theorem toList_intercalate_cons (sep first : String) (texts : List String) :
    (sep.intercalate (first :: texts)).toList =
      first.toList ++ texts.flatMap fun text => sep.toList ++ text.toList := by
  rw [String.toList_intercalate]
  induction texts generalizing first with
  | nil => simp
  | cons text texts ih =>
    rw [List.map_cons, List.map_cons, List.intercalate_cons_cons, ← List.map_cons, ih text,
      List.flatMap_cons]
    simp

theorem dotted_toList (first : String) (names : List String) :
    (NamePath.mk (first :: names)).dotted.toList =
      first.toList ++ names.flatMap fun name => '.' :: name.toList :=
  toList_intercalate_cons "." first names

theorem endsWord_point (s : List Char) : EndsWord ('.' :: s) := fun c hc => by
  cases hc
  decide

/-- A proper path in characters: its first name, then nothing or a point. -/
theorem dotted_front {path : NamePath} (h : path.isProper = true) : ∃ name more,
    path.dotted.toList = name.toList ++ more ∧ isName name = true ∧
      (more = [] ∨ ∃ t, more = '.' :: t) := by
  obtain ⟨hne, hall⟩ := isProper_iff.mp h
  obtain ⟨segments⟩ := path
  cases segments with
  | nil => exact absurd rfl hne
  | cons name names =>
    refine ⟨name, _, dotted_toList name names, hall name (by simp), ?_⟩
    cases names with
    | nil => exact Or.inl rfl
    | cons name' names => exact Or.inr ⟨_, rfl⟩

theorem namePath_done {path : NamePath} (h : path.isProper = true) {rest : List Char}
    (hr : EndsToken rest) : namePath (path.dotted.toList ++ rest) = .done path rest := by
  obtain ⟨hne, hall⟩ := isProper_iff.mp h
  obtain ⟨segments⟩ := path
  cases segments with
  | nil => exact absurd rfl hne
  | cons name names =>
    rw [dotted_toList, List.append_assoc]
    have hend : (Parser.char '.').Misses rest := misses_char fun hc => (hr '.' hc).2.1 rfl
    have htail : separatedTail (Parser.char '.') identifier
        (names.flatMap (fun name => ['.'] ++ name.toList) ++ rest) = .done names rest :=
      separatedTail_done endsWord_point (fun t => ⟨'.', t, char_done '.' t, by simp, rfl⟩) hr.endsWord
        hend fun name hname t ht => identifier_done (hall name (List.mem_cons_of_mem _ hname)) ht
    have hfirst : identifier (name.toList ++ (names.flatMap (fun name => ['.'] ++ name.toList) ++ rest)) =
        .done name (names.flatMap (fun name => ['.'] ++ name.toList) ++ rest) := by
      refine identifier_done (hall name (by simp)) ?_
      cases names with
      | nil => exact hr.endsWord
      | cons name' names => exact endsWord_point _
    exact (bind_done (separated1_done hfirst htail)).trans (pure_apply _ _)

theorem misses_namePath {s : List Char} (h : identifier.Misses s) : namePath.Misses s :=
  Misses.bind (Misses.bind h : (separated1 (Parser.char '.') identifier).Misses s)

/-! ### Literals -/

/-- A text is no literal if it begins with none of the marks and digits that literals begin with and
its first word is no truth value. -/
theorem misses_literal {s : List Char}
    (hc : ∀ c ∈ s.head?, c ≠ '\'' ∧ c ≠ '"' ∧ c ≠ '.' ∧ c.isDigit = false)
    (hw : (wordOf s).map Char.toLower ∉ ["true".toList, "false".toList]) :
    Grammar.literal.Misses s := by
  have hmark : ∀ {c}, (∀ d ∈ s.head?, d ≠ c) → (Parser.char c).Misses s := fun h =>
    misses_char fun hd => h _ hd rfl
  have hdigits : digits.Misses s := misses_takeWhile1 fun c h => (hc c h).2.2.2
  simp only [List.mem_cons, List.not_mem_nil, or_false, not_or] at hw
  refine misses_firstOf ?_
  simp only [List.mem_cons, List.not_mem_nil, or_false, forall_eq_or_imp, forall_eq]
  refine ⟨Misses.bind (misses_firstOf ?_), Misses.bind (misses_firstOf ?_),
    Misses.bind (Misses.bind (misses_firstOf ?_)), Misses.bind hdigits.filterMap⟩
  · simp only [List.mem_cons, List.not_mem_nil, or_false, forall_eq_or_imp, forall_eq]
    exact ⟨(hmark fun d h => (hc d h).1).bind, (hmark fun d h => (hc d h).2.1).bind⟩
  · simp only [List.mem_cons, List.not_mem_nil, or_false, forall_eq_or_imp, forall_eq]
    exact ⟨(misses_keyword (by decide) hw.1).bind, (misses_keyword (by decide) hw.2).bind⟩
  · simp only [List.mem_cons, List.not_mem_nil, or_false, forall_eq_or_imp, forall_eq]
    exact ⟨hdigits.bind, (hmark fun d h => (hc d h).2.2.1).bind⟩

theorem quoted_done {q : Char} {text : String} (hq : q ∉ text.toList) (hn : '\n' ∉ text.toList)
    (rest : List Char) : quoted q (q :: text.toList ++ q :: rest) = .done text rest := by
  have hrun : Parser.takeWhile (fun c => c != q && c != '\n') (text.toList ++ q :: rest) =
      .done text.toList (q :: rest) := by
    refine takeWhile_done (fun c hc => ?_) fun c hc => ?_
    · simp only [Bool.and_eq_true, bne_iff_ne]
      exact ⟨fun h => hq (h ▸ hc), fun h => hn (h ▸ hc)⟩
    · cases hc
      simp
  rw [quoted, List.cons_append, bind_done (char_done q _), bind_done (commit_done
    (followedBy_done hrun (expecting_done (char_done q rest)))), pure_apply, String.ofList_toList]

theorem string_done {text : String} {number : Binary64 → Bool}
    (h : (Literal.string text).wellFormed number = true) (rest : List Char) :
    Grammar.string ((Literal.quote text).toList ++ rest) = .done text rest := by
  simp only [Literal.wellFormed, Bool.and_eq_true, Bool.not_eq_true', List.contains_eq_mem,
    decide_eq_false_iff_not, Bool.and_eq_false_iff] at h
  obtain ⟨hn, hq⟩ := h
  unfold Literal.quote
  by_cases hd : '"' ∈ text.toList
  · have hs : '\'' ∉ text.toList := hq.resolve_right (not_not.mpr hd)
    have ht : ("'" ++ text ++ "'").toList ++ rest = '\'' :: text.toList ++ '\'' :: rest := by simp
    rw [List.contains_eq_mem, decide_eq_true hd, if_pos rfl, ht]
    exact firstOf_cons_done (quoted_done hs hn rest)
  · have ht : ("\"" ++ text ++ "\"").toList ++ rest = '"' :: text.toList ++ '"' :: rest := by simp
    rw [List.contains_eq_mem, decide_eq_false hd, if_neg Bool.false_ne_true, ht]
    exact firstOf_cons_of_misses (misses_char (by simp)).bind (quoted_done hd hn rest)

/-- A word that begins with a digit is no keyword. -/
theorem wordOf_ne_of_digit {s : List Char} (h : ∃ c ∈ s.head?, c.isDigit = true) {word : String}
    (hw : word.toList.all isKeywordLetter = true) : (wordOf s).map Char.toLower ≠ word.toList := by
  obtain ⟨c, hc, hd⟩ := h
  obtain ⟨t, rfl⟩ : ∃ t, s = c :: t := by
    cases s with
    | nil => cases hc
    | cons d t => cases hc; exact ⟨t, rfl⟩
  intro heq
  rw [← heq, wordOf, List.takeWhile_cons_of_pos (isNameChar_of_isDigit hd), List.map_cons,
    List.all_cons, Bool.and_eq_true] at hw
  have hk := isKeywordLetter_toNat hw.1
  have hn := toNat_of_isDigit hd
  have hlow : c.toLower = c := Char.toLower_eq_of_not_isUpper (by
    have h0 : c.toNat = c.val.toNat := rfl
    simp only [Char.isUpper, UInt32.le_iff_toNat_le]
    simp
    omega)
  rw [hlow] at hk
  omega

/-- Digits begin no string and no truth value. -/
theorem misses_of_digit {s : List Char} (h : ∃ c ∈ s.head?, c.isDigit = true) :
    Grammar.string.Misses s ∧ Grammar.boolean.Misses s := by
  have hne : ∀ {q : Char}, q.isDigit = false → q ∉ s.head? := fun hq hqs => by
    obtain ⟨c, hc, hd⟩ := h
    rw [Option.mem_unique hc hqs, hq] at hd
    cases hd
  refine ⟨misses_firstOf ?_, misses_firstOf ?_⟩
  · simp only [List.mem_cons, List.not_mem_nil, or_false, forall_eq_or_imp, forall_eq]
    exact ⟨(misses_char (hne rfl)).bind, (misses_char (hne rfl)).bind⟩
  · simp only [List.mem_cons, List.not_mem_nil, or_false, forall_eq_or_imp, forall_eq]
    exact ⟨(misses_keyword (by decide) (wordOf_ne_of_digit h (by decide))).bind,
      (misses_keyword (by decide) (wordOf_ne_of_digit h (by decide))).bind⟩

theorem boolean_done (value : Bool) {rest : List Char} (hr : EndsWord rest) :
    Grammar.boolean ((Literal.boolean value).render.toList ++ rest) = .done value rest := by
  cases value with
  | true =>
    refine firstOf_cons_done ?_
    rw [Literal.render, bind_done (keyword_text_done (by decide) hr), pure_apply]
  | false =>
    have htrue : (keyword "true").Misses ("false".toList ++ rest) :=
      misses_keyword (by decide) (by rw [wordOf_keyword (by decide) hr]; decide)
    refine firstOf_cons_of_misses htrue.bind ?_
    rw [firstOf_single, Literal.render, bind_done (keyword_text_done (by decide) hr), pure_apply]

theorem float_done {x : Binary64} (hf : x.isFinite = true) (hn : x.isNegative = false)
    {rest : List Char} (hr : EndsToken rest) :
    Grammar.float ((renderNumber x).toList ++ rest) = .done x rest ∧
      ∃ c ∈ ((renderNumber x).toList ++ rest).head?, c.isDigit = true := by
  obtain ⟨whole, places, ht, hw, hp, hall, hval⟩ := renderNumber_eq hf hn
  have hwhole : ∀ c ∈ whole, c.isDigit = true := fun c hc => hall c (List.mem_append_left _ hc)
  have hplaces : ∀ c ∈ places, c.isDigit = true := fun c hc => hall c (List.mem_append_right _ hc)
  rw [ht, List.append_assoc, List.cons_append]
  refine ⟨?_, ?_⟩
  · have h1 : digits (whole ++ '.' :: (places ++ rest)) = .done whole ('.' :: (places ++ rest)) :=
      takeWhile1_done hw hwhole fun c hc => by cases hc; rfl
    have h2 : digits (places ++ rest) = .done places rest :=
      takeWhile1_done hp hplaces hr.not_digit
    have h3 : pointed (whole ++ '.' :: (places ++ rest)) = .done (whole, places) rest := by
      refine firstOf_cons_done ?_
      rw [bind_done h1, bind_done (char_done '.' _), bind_done (optional_done h2), pure_apply]
      rfl
    rw [float, bind_done h3, ← hval]
    rfl
  · obtain ⟨c, t, rfl⟩ := List.exists_cons_of_ne_nil hw
    exact ⟨c, rfl, hwhole c (by simp)⟩

theorem integer_done {n : Int64} (hn : 0 ≤ n.toInt) {rest : List Char} (hr : EndsToken rest) :
    Grammar.integer ((renderInt n.toInt).toList ++ rest) = .done n rest ∧
      Grammar.float.Misses ((renderInt n.toInt).toList ++ rest) ∧
      ∃ c ∈ ((renderInt n.toInt).toList ++ rest).head?, c.isDigit = true := by
  set ds := Nat.toDigits 10 n.toInt.natAbs with hds
  have hne : ds ≠ [] := Nat.toDigits_ne_nil
  have hdig : ∀ c ∈ ds, c.isDigit = true := fun c hc =>
    Nat.isDigit_of_mem_toDigits (by decide) (by decide) hc
  have ht : (renderInt n.toInt).toList = ds := by
    rw [renderInt, if_neg (by omega), Nat.toList_repr]
  have hd : digits (ds ++ rest) = .done ds rest := takeWhile1_done hne hdig hr.not_digit
  have hfront : ∃ c ∈ (ds ++ rest).head?, c.isDigit = true := by
    obtain ⟨c, t, hct⟩ := List.exists_cons_of_ne_nil hne
    exact ⟨c, by rw [hct]; rfl, hdig c (by rw [hct]; simp)⟩
  rw [ht]
  refine ⟨filterMap_done hd ?_, Misses.bind (misses_firstOf ?_), hfront⟩
  · rw [hds, Nat.ofDigitChars_ten_toDigits, Int.natAbs_of_nonneg hn, int64?,
      if_pos ⟨Int64.le_iff_toInt_le.mp (Int64.minValue_le n), Int64.le_iff_toInt_le.mp (Int64.le_maxValue n)⟩,
      Int64.ofInt_toInt]
  · simp only [List.mem_cons, List.not_mem_nil, or_false, forall_eq_or_imp, forall_eq]
    refine ⟨misses_bind_done hd (misses_char fun hc => (hr '.' hc).2.1 rfl).bind, Misses.bind ?_⟩
    obtain ⟨c, hc, hcd⟩ := hfront
    exact misses_char fun hp => by
      rw [Option.mem_unique hc hp] at hcd
      cases hcd

theorem literal_done {value : Literal} (h : value.wellFormed Binary64.isPlain = true)
    {rest : List Char} (hr : EndsToken rest) :
    Grammar.literal (value.render.toList ++ rest) = .done value rest := by
  cases value with
  | string text =>
    refine firstOf_cons_done ?_
    rw [Literal.render, bind_done (string_done h rest), pure_apply]
  | boolean value =>
    have hstring : Grammar.string.Misses ((Literal.boolean value).render.toList ++ rest) := by
      refine misses_firstOf ?_
      simp only [List.mem_cons, List.not_mem_nil, or_false, forall_eq_or_imp, forall_eq]
      cases value <;> exact ⟨(misses_char (by simp [Literal.render])).bind,
        (misses_char (by simp [Literal.render])).bind⟩
    refine firstOf_cons_of_misses hstring.bind (firstOf_cons_done ?_)
    rw [bind_done (boolean_done value hr.endsWord), pure_apply]
  | integer n =>
    simp only [Literal.wellFormed, decide_eq_true_eq] at h
    obtain ⟨hint, hfloat, hdigit⟩ := integer_done h hr
    have hmiss := misses_of_digit hdigit
    refine firstOf_cons_of_misses hmiss.1.bind (firstOf_cons_of_misses hmiss.2.bind
      (firstOf_cons_of_misses hfloat.bind ?_))
    rw [firstOf_single, Literal.render, bind_done hint, pure_apply]
  | float x =>
    simp only [Literal.wellFormed, Binary64.isPlain, Bool.and_eq_true, Bool.not_eq_true'] at h
    obtain ⟨hfloat, hdigit⟩ := float_done h.1 h.2 hr
    have hmiss := misses_of_digit hdigit
    refine firstOf_cons_of_misses hmiss.1.bind (firstOf_cons_of_misses hmiss.2.bind
      (firstOf_cons_done ?_))
    rw [Literal.render, bind_done hfloat, pure_apply]

/-- Digits with a point behind them are the number that they denote, however many they are. -/
theorem literal_of_digits {ds : List Char} (hne : ds ≠ []) (hd : ∀ c ∈ ds, c.isDigit = true)
    {rest : List Char} (hr : EndsToken rest) : Grammar.literal (ds ++ '.' :: rest) =
      .done (.float (.ofDecimal false (Nat.ofDigitChars 10 ds 0) 0)) rest := by
  obtain ⟨c, t, hct⟩ := List.exists_cons_of_ne_nil hne
  have hmiss := misses_of_digit (s := ds ++ '.' :: rest) ⟨c, by rw [hct]; rfl, hd c (by rw [hct]; simp)⟩
  have h1 : digits (ds ++ '.' :: rest) = .done ds ('.' :: rest) :=
    takeWhile1_done hne hd fun c hc => by cases hc; rfl
  have h2 : digits.Misses rest := misses_takeWhile1 hr.not_digit
  have h3 : pointed (ds ++ '.' :: rest) = .done (ds, []) rest := by
    refine firstOf_cons_done ?_
    rw [bind_done h1, bind_done (char_done '.' _), bind_done (optional_of_misses h2), pure_apply]
    rfl
  have h4 : Grammar.float (ds ++ '.' :: rest) =
      .done (.ofDecimal false (Nat.ofDigitChars 10 (ds ++ []) 0) 0) rest := bind_done h3
  rw [List.append_nil] at h4
  refine firstOf_cons_of_misses hmiss.1.bind (firstOf_cons_of_misses hmiss.2.bind
    (firstOf_cons_done ?_))
  rw [bind_done h4, pure_apply]

/-! ### Texts that do not begin with a path -/

/-- The text begins with a mark, a digit or a truth value. -/
inductive Marked : List Char → Prop where
  | mark {s : List Char} {c : Char} (front : c ∈ s.head?) (h : isNameChar c = false)
    (solid : isBlank c = false) : Marked s
  | digit {s : List Char} {c : Char} (front : c ∈ s.head?) (h : c.isDigit = true) : Marked s
  | truth (value : Bool) {rest : List Char} (h : EndsWord rest) :
    Marked ((Literal.boolean value).render.toList ++ rest)

/-- A text that does not begin with a blank keeps its front. -/
theorem dropWhile_isBlank {s : List Char} (h : ∀ c ∈ s.head?, isBlank c = false) :
    s.dropWhile isBlank = s := by
  have hrun := takeWhile_append (by simp : ∀ c ∈ [], isBlank c = true) h
  exact hrun.2

theorem isBlank_of_isNameChar {c : Char} (h : isNameChar c = true) : isBlank c = false :=
  Bool.eq_false_iff.mpr fun hb => by rw [not_isNameChar_of_isBlank hb] at h; cases h

theorem Marked.solid {s : List Char} (h : Marked s) : s.dropWhile isBlank = s := by
  refine dropWhile_isBlank fun d hd => ?_
  cases h with
  | mark front _ solid => rwa [Option.mem_unique hd front]
  | digit front h =>
    rw [Option.mem_unique hd front]
    exact isBlank_of_isNameChar (isNameChar_of_isDigit h)
  | truth value _ => cases value <;> (cases hd; rfl)

theorem Marked.misses_identifier {s : List Char} (h : Marked s) : identifier.Misses s := by
  cases h with
  | mark front h _ =>
    refine Grammar.misses_identifier fun d hd => ?_
    rw [Option.mem_unique hd front]
    exact Bool.eq_false_iff.mpr fun hs => by rw [isNameChar_of_isNameStart hs] at h; cases h
  | digit front h =>
    refine Grammar.misses_identifier fun d hd => ?_
    rw [Option.mem_unique hd front]
    exact Bool.eq_false_iff.mpr fun hs => by rw [not_isDigit_of_isNameStart hs] at h; cases h
  | truth value h =>
    refine misses_identifier_of_reserved ?_
    cases value with
    | true => rw [Literal.render, wordOf_keyword (by decide) h]; decide
    | false => rw [Literal.render, wordOf_keyword (by decide) h]; decide

theorem Marked.wordOf_ne {s : List Char} (h : Marked s) {word : String}
    (hw : word.toList.all isKeywordLetter = true) (hword : word.toList ∉ [[], "true".toList,
      "false".toList]) : (wordOf s).map Char.toLower ≠ word.toList := by
  simp only [List.mem_cons, List.not_mem_nil, or_false, not_or] at hword
  cases h with
  | @mark _ c front h _ =>
    obtain ⟨t, rfl⟩ : ∃ t, s = c :: t := by
      cases s with
      | nil => cases front
      | cons d t => cases front; exact ⟨t, rfl⟩
    rw [wordOf, List.takeWhile_cons_of_neg (by simp [h])]
    exact fun h0 => hword.1 h0.symm
  | digit front h => exact wordOf_ne_of_digit ⟨_, front, h⟩ hw
  | truth value h =>
    cases value with
    | true =>
      rw [Literal.render, wordOf_keyword (by decide) h, toLower_keyword (by decide)]
      exact fun h0 => hword.2.1 h0.symm
    | false =>
      rw [Literal.render, wordOf_keyword (by decide) h, toLower_keyword (by decide)]
      exact fun h0 => hword.2.2 h0.symm

theorem literal_marked {value : Literal} (h : value.wellFormed Binary64.isPlain = true)
    {rest : List Char} (hr : EndsToken rest) : Marked (value.render.toList ++ rest) := by
  cases value with
  | string text =>
    have hq : ∃ q ∈ ((Literal.quote text).toList ++ rest).head?, q = '\'' ∨ q = '"' := by
      unfold Literal.quote
      split <;> simp
    obtain ⟨q, hq, rfl | rfl⟩ := hq
    · exact .mark hq (by decide) rfl
    · exact .mark hq (by decide) rfl
  | boolean value => exact .truth value hr.endsWord
  | integer n =>
    simp only [Literal.wellFormed, decide_eq_true_eq] at h
    obtain ⟨-, -, c, hc, hd⟩ := integer_done h hr
    exact .digit hc hd
  | float x =>
    simp only [Literal.wellFormed, Binary64.isPlain, Bool.and_eq_true, Bool.not_eq_true'] at h
    obtain ⟨-, c, hc, hd⟩ := float_done h.1 h.2 hr
    exact .digit hc hd

/-- No name is a reserved word in any case. -/
theorem wordOf_ne_of_isName {name : String} (hn : isName name = true) {rest : List Char}
    (hr : EndsWord rest) {word : String} (hw : word ∈ reservedWords) :
    (wordOf (name.toList ++ rest)).map Char.toLower ≠ word.toList := by
  obtain ⟨_, _, -, -, -, hres⟩ := isName_iff.mp hn
  rw [wordOf_of_endsWord (isName_chars hn).2 hr]
  intro h
  simp only [isReserved, List.any_eq_false, beq_iff_eq] at hres
  exact hres word hw h.symm

/-- The first word of a path is no reserved word. -/
theorem wordOf_ne_of_isProper {path : NamePath} (hp : path.isProper = true) {rest : List Char}
    (hr : EndsToken rest) {word : String} (hw : word ∈ reservedWords) :
    (wordOf (path.dotted.toList ++ rest)).map Char.toLower ≠ word.toList := by
  obtain ⟨name, more, hd, hn, hmore⟩ := dotted_front hp
  rw [hd, List.append_assoc]
  refine wordOf_ne_of_isName hn ?_ hw
  rcases hmore with rfl | ⟨t, rfl⟩
  · exact hr.endsWord
  · exact endsWord_point _

theorem solid_of_isProper {path : NamePath} (hp : path.isProper = true) (rest : List Char) :
    (path.dotted.toList ++ rest).dropWhile isBlank = path.dotted.toList ++ rest := by
  obtain ⟨name, more, hd, hn, -⟩ := dotted_front hp
  obtain ⟨c, cs, hname, hc, -, -⟩ := isName_iff.mp hn
  refine dropWhile_isBlank fun d h => ?_
  rw [hd, hname] at h
  cases h
  exact isBlank_of_isNameChar (isNameChar_of_isNameStart hc)

theorem misses_literal_of_path {path : NamePath} (hp : path.isProper = true) {rest : List Char}
    (hr : EndsToken rest) : Grammar.literal.Misses (path.dotted.toList ++ rest) := by
  obtain ⟨name, more, hd, hn, -⟩ := dotted_front hp
  obtain ⟨c, cs, hname, hc, -, -⟩ := isName_iff.mp hn
  refine misses_literal (fun d h => ?_) ?_
  · rw [hd, hname] at h
    cases h
    have hdigit := not_isDigit_of_isNameStart hc
    refine ⟨?_, ?_, ?_, hdigit⟩ <;> (rintro rfl; exact absurd hc (by decide))
  · simp only [List.mem_cons, List.not_mem_nil, or_false, not_or]
    exact ⟨wordOf_ne_of_isProper hp hr (by decide), wordOf_ne_of_isProper hp hr (by decide)⟩

end Grammar
end SelectLang
