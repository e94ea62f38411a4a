/-
# Words

A word is the longest run of name characters at the front of a text (`wordOf`). Keywords are read by
words: `keyword w` succeeds exactly if the word, with its ASCII letters in lower case, is `w`, and
then reads the word as a whole. Keywords are compared in Unicode's lower case, which makes no
difference for the letters that occur in them: the one character beyond ASCII that becomes a single
ASCII letter is the Kelvin sign, and no keyword has a `k`.

Key definitions: `wordOf`, `isKeywordLetter`.
Key theorems: `sameLetter_eq`, `keyword_done`, `misses_keyword`.
-/
import Mathlib
import SelectLang.Proofs.Text.Consumption

namespace SelectLang

/-! ### ASCII -/

theorem isAlphabetic_ofNat : ∀ n < 128, Unicode.isAlphabetic (Char.ofNat n) = (Char.ofNat n).isAlpha := by
  decide +kernel

theorem isNumeric_ofNat : ∀ n < 128, Unicode.isNumeric (Char.ofNat n) = (Char.ofNat n).isDigit := by
  decide +kernel

theorem isAlphabetic_ascii {c : Char} (h : c.toNat < 128) : Unicode.isAlphabetic c = c.isAlpha := by
  simpa using isAlphabetic_ofNat c.toNat h

theorem isNumeric_ascii {c : Char} (h : c.toNat < 128) : Unicode.isNumeric c = c.isDigit := by
  simpa using isNumeric_ofNat c.toNat h

theorem isNameChar_of_isNameStart {c : Char} (h : isNameStart c = true) : isNameChar c = true := by
  simp only [isNameStart, isNameChar, Bool.or_eq_true] at *
  tauto

theorem toNat_of_isDigit {c : Char} (h : c.isDigit = true) : 48 ≤ c.toNat ∧ c.toNat ≤ 57 :=
  Char.isDigit_iff_toNat.mp h

theorem isNameChar_of_isDigit {c : Char} (h : c.isDigit = true) : isNameChar c = true := by
  have hc := toNat_of_isDigit h
  simp [isNameChar, isNumeric_ascii (by omega : c.toNat < 128), h]

theorem not_isDigit_of_isNameStart {c : Char} (h : isNameStart c = true) : c.isDigit = false := by
  by_contra hd
  rw [Bool.not_eq_false] at hd
  have hc := toNat_of_isDigit hd
  have h0 : c.toNat = c.val.toNat := rfl
  have ha : c.isAlpha = false := by
    simp only [Char.isAlpha, Char.isUpper, Char.isLower, UInt32.le_iff_toNat_le]
    simp
    omega
  simp only [isNameStart, isAlphabetic_ascii (by omega : c.toNat < 128), ha, Bool.false_or,
    beq_iff_eq] at h
  subst h
  revert hc
  decide

theorem not_isNameChar_of_isBlank {c : Char} (h : isBlank c = true) : isNameChar c = false := by
  simp only [isBlank, Bool.or_eq_true, beq_iff_eq] at h
  rcases h with ((rfl | rfl) | rfl) | rfl <;> decide

/-! ### Letters of keywords -/

/-- The small ASCII letters without `k`, of which the Kelvin sign is a capital. -/
def isKeywordLetter (c : Char) : Bool := c.isLower && c != 'k'

theorem isKeywordLetter_toNat {k : Char} (h : isKeywordLetter k = true) :
    97 ≤ k.toNat ∧ k.toNat ≤ 122 ∧ k.toNat ≠ 0x6B := by
  simp only [isKeywordLetter, Char.isLower, Bool.and_eq_true, decide_eq_true_eq, bne_iff_ne,
    UInt32.le_iff_toNat_le] at h
  refine ⟨h.1.1, h.1.2, fun h0 => h.2 ?_⟩
  rw [← Char.ofNat_toNat k, h0]

theorem toLower_of_isKeywordLetter {k : Char} (h : isKeywordLetter k = true) : k.toLower = k := by
  refine Char.toLower_eq_of_not_isUpper ?_
  have := isKeywordLetter_toNat h
  have h0 : k.toNat = k.val.toNat := rfl
  simp only [Char.isUpper, UInt32.le_iff_toNat_le]
  simp
  omega

theorem toLower_of_not_ascii {c : Char} (h : ¬ c.toNat < 128) : c.toLower = c := by
  refine Char.toLower_eq_of_not_isUpper ?_
  have h0 : c.toNat = c.val.toNat := rfl
  simp only [Char.isUpper, UInt32.le_iff_toNat_le]
  simp
  omega

/-- A character is ASCII if its lower case is a letter of keywords. -/
theorem ascii_of_toLower {c k : Char} (hk : isKeywordLetter k = true) (h : c.toLower = k) :
    c.toNat < 128 := by
  by_contra hc
  rw [toLower_of_not_ascii hc] at h
  have := isKeywordLetter_toNat hk
  subst h
  omega

theorem isNameChar_of_toLower {c k : Char} (hk : isKeywordLetter k = true) (h : c.toLower = k) :
    isNameChar c = true := by
  have hc := ascii_of_toLower hk h
  have ha : c.isAlpha = true := by
    have hl := isKeywordLetter_toNat hk
    by_cases hu : c.isUpper = true
    · simp [Char.isAlpha, hu]
    · have hck : c = k := by rw [← h, Char.toLower_eq_of_not_isUpper hu]
      have h0 : c.toNat = c.val.toNat := rfl
      subst hck
      simp only [Char.isAlpha, Char.isLower, UInt32.le_iff_toNat_le]
      simp
      omega
  simp [isNameChar, isAlphabetic_ascii hc, ha]

/-! ### Lower case beyond ASCII -/

/-- No run of the table leads from beyond ASCII into it, but for that of the Kelvin sign. -/
theorem lowercaseShifts_beyond : Unicode.lowercaseShifts.all (fun (run, amount) =>
    run.last < 0x80 || 0x80 ≤ (run.first : Int) + amount ||
      (run.first == 0x212A && run.last == 0x212A && amount == -8383)) = true := by
  decide +kernel

theorem shifted_beyond : ∀ (shifts : List (Unicode.Run × Int)) (code : Nat), 0x80 ≤ code →
    (shifts.all fun (run, amount) => run.last < 0x80 || 0x80 ≤ (run.first : Int) + amount ||
      (run.first == 0x212A && run.last == 0x212A && amount == -8383)) = true →
    0x80 ≤ Unicode.shifted shifts code ∨ Unicode.shifted shifts code = 0x6B
  | [], code, hc, _ => Or.inl hc
  | (run, amount) :: shifts, code, hc, h => by
    simp only [List.all_cons, Bool.and_eq_true] at h
    unfold Unicode.shifted
    split
    · exact Or.inl hc
    · split
      · rename_i hrun
        simp only [Unicode.Run.contains, Bool.and_eq_true, decide_eq_true_eq] at hrun
        have h1 := h.1
        simp only [Bool.or_eq_true, Bool.and_eq_true, decide_eq_true_eq, beq_iff_eq] at h1
        omega
      · exact shifted_beyond shifts code hc h.2

theorem toNat_ofNat (n : Nat) : (Char.ofNat n).toNat = n ∨ (Char.ofNat n).toNat = 0 := by
  by_cases h : n.isValidChar
  · left
    simp [Char.ofNat, h, Char.toNat, Char.ofNatAux]
  · right
    simp [Char.ofNat, h]

/-- For the letters of keywords the two comparisons of letters are one. -/
theorem sameLetter_eq {c k : Char} (hk : isKeywordLetter k = true) :
    Parser.sameLetter c k = (c.toLower == k) := by
  have hl := isKeywordLetter_toNat hk
  have hlow : Unicode.lowercase k = [k] := by
    rw [Unicode.lowercase, if_pos (by omega), toLower_of_isKeywordLetter hk]
  unfold Parser.sameLetter
  rw [hlow]
  by_cases hc : c.toNat < 0x80
  · rw [Unicode.lowercase, if_pos hc]
    simp
  · rw [Unicode.lowercase, if_neg hc, toLower_of_not_ascii hc]
    have hck : (c == k) = false := by
      rw [beq_eq_false_iff_ne]
      rintro rfl
      omega
    rw [hck, beq_eq_false_iff_ne, Unicode.mapCase]
    split
    · rename_i codes hcodes
      simp only [Unicode.lowercaseExpansions, List.lookup] at hcodes
      split at hcodes
      · cases hcodes
        simp
      · cases hcodes
    · intro h
      rw [List.cons.injEq] at h
      have hs := shifted_beyond Unicode.lowercaseShifts c.toNat (by omega) lowercaseShifts_beyond
      have ho := toNat_ofNat (Unicode.shifted Unicode.lowercaseShifts c.toNat)
      rw [h.1] at ho
      omega

namespace Parser

/-! ### Keywords -/

theorem utf8Size_of_ascii {c : Char} (h : c.toNat < 128) : c.utf8Size = 1 := by
  have h0 : c.toNat = c.val.toNat := rfl
  rw [Char.utf8Size_eq_one_iff, UInt32.le_iff_toNat_le]
  change c.val.toNat ≤ 127
  omega

theorem utf8Length_keyword : ∀ {w : List Char}, w.all isKeywordLetter = true →
    utf8Length w = w.length
  | [], _ => rfl
  | k :: w, h => by
    simp only [List.all_cons, Bool.and_eq_true] at h
    have hk := isKeywordLetter_toNat h.1
    rw [utf8Length, utf8Length_keyword h.2, utf8Size_of_ascii (by omega), List.length_cons]
    omega

/-- Text that is the word in some case has the bytes of the word. -/
theorem matches_iff : ∀ {w : List Char}, w.all isKeywordLetter = true → ∀ s : List Char,
    ((s.zip w).all (fun (a, b) => sameLetter a b) = true ∧ utf8Length w ≤ utf8Length s) ↔
      (s.take w.length).map Char.toLower = w
  | [], _, s => by simp [utf8Length]
  | k :: w, h, [] => by
    rw [utf8Length_keyword h]
    simp [utf8Length]
  | k :: w, h, c :: s => by
    have h' := h
    simp only [List.all_cons, Bool.and_eq_true] at h'
    have hk := isKeywordLetter_toNat h'.1
    have ih := matches_iff h'.2 s
    simp only [List.zip_cons_cons, List.all_cons, Bool.and_eq_true, sameLetter_eq h'.1, beq_iff_eq,
      List.length_cons, List.take_succ_cons, List.map_cons, List.cons.injEq, ← ih, utf8Length,
      utf8Size_of_ascii (by omega : k.toNat < 128)]
    constructor
    · rintro ⟨⟨hc, ha⟩, hl⟩
      rw [utf8Size_of_ascii (ascii_of_toLower h'.1 hc)] at hl
      exact ⟨hc, ha, by omega⟩
    · rintro ⟨hc, ha, hl⟩
      rw [utf8Size_of_ascii (ascii_of_toLower h'.1 hc)]
      exact ⟨⟨hc, ha⟩, by omega⟩

theorem splitBytes_keyword : ∀ {w : List Char}, w.all isKeywordLetter = true → ∀ s : List Char,
    (s.take w.length).map Char.toLower = w →
      splitBytes (utf8Length w) s = (s.take w.length, s.drop w.length)
  | [], _, [] => fun _ => rfl
  | [], _, c :: s => fun _ => by
    have := c.utf8Size_pos
    simp only [utf8Length, splitBytes, Nat.le_zero]
    rw [if_neg (by omega)]
    rfl
  | k :: w, h, [] => fun hm => by simp at hm
  | k :: w, h, c :: s => fun hm => by
    simp only [List.all_cons, Bool.and_eq_true] at h
    simp only [List.length_cons, List.take_succ_cons, List.map_cons, List.cons.injEq] at hm
    have hk := isKeywordLetter_toNat h.1
    rw [utf8Length, utf8Size_of_ascii (by omega : k.toNat < 128), splitBytes,
      utf8Size_of_ascii (ascii_of_toLower h.1 hm.1), if_pos (by omega), Nat.add_sub_cancel_left,
      splitBytes_keyword h.2 s hm.2]
    rfl

theorem literalAnyCase_eq {w : List Char} (hw : w.all isKeywordLetter = true) (s : List Char) :
    literalAnyCase w s =
      if (s.take w.length).map Char.toLower = w then .done (s.take w.length) (s.drop w.length)
      else missAt s := by
  have hm := matches_iff hw s
  by_cases h : (s.take w.length).map Char.toLower = w
  · rw [if_pos h, literalAnyCase, if_pos (by simpa using hm.mpr h), splitBytes_keyword hw s h]
  · rw [if_neg h, literalAnyCase, if_neg (by simpa using fun ha => mt (fun hl => hm.mp ⟨by simpa using ha, hl⟩) h)]

/-- The word at the front of a text: its longest run of name characters. -/
def wordOf (s : List Char) : List Char := s.takeWhile isNameChar

theorem wordOf_append (s : List Char) : wordOf s ++ s.dropWhile isNameChar = s :=
  List.takeWhile_append_dropWhile

theorem satisfy_or_misses (accepts : Char → Bool) (s : List Char) :
    (∃ c rest, satisfy accepts s = .done c rest) ∨ (satisfy accepts).Misses s := by
  cases s with
  | nil => exact Or.inr ⟨_, rfl⟩
  | cons c s =>
    by_cases h : accepts c = true
    · exact Or.inl ⟨c, s, by rw [satisfy, if_pos h]⟩
    · exact Or.inr ⟨_, by rw [satisfy, if_neg h]; rfl⟩

/-- Behind a word stands no name character. -/
theorem misses_nameChar_dropWhile (s : List Char) :
    (satisfy isNameChar).Misses (s.dropWhile isNameChar) := by
  induction s with
  | nil => exact misses_missAt []
  | cons c s ih =>
    by_cases h : isNameChar c = true
    · rwa [List.dropWhile_cons_of_pos h]
    · rw [List.dropWhile_cons_of_neg h]
      exact ⟨_, by rw [satisfy, if_neg h]; rfl⟩

theorem keyword_done {word : String} (hw : word.toList.all isKeywordLetter = true) {s : List Char}
    (h : (wordOf s).map Char.toLower = word.toList) :
    keyword word s = .done (wordOf s) (s.dropWhile isNameChar) := by
  have hlen : (wordOf s).length = word.toList.length := by rw [← h, List.length_map]
  have htake : s.take word.toList.length = wordOf s := by
    conv_lhs => rw [← wordOf_append s, ← hlen]
    exact List.take_left
  have hdrop : s.drop word.toList.length = s.dropWhile isNameChar := by
    conv_lhs => rw [← wordOf_append s, ← hlen]
    exact List.drop_left
  refine followedBy_done (m := s.dropWhile isNameChar) ?_
    (absent_of_misses (misses_nameChar_dropWhile s))
  rw [literalAnyCase_eq hw, htake, if_pos h, hdrop]

/-- A front in lower case that no name character follows is the whole word. -/
theorem takeWhile_eq_of_toLower : ∀ {w : List Char}, w.all isKeywordLetter = true →
    ∀ {front rest : List Char}, front.map Char.toLower = w → (satisfy isNameChar).Misses rest →
      (front ++ rest).takeWhile isNameChar = front
  | [], _, [], [], _, _ => rfl
  | [], _, [], c :: rest, _, hr => by
    have hc : isNameChar c ≠ true := fun hc => hr.not_done (a := c) (r := rest) (by simp [satisfy, hc])
    simp [hc]
  | k :: w, h, c :: front, rest, hf, hr => by
    simp only [List.all_cons, Bool.and_eq_true] at h
    simp only [List.map_cons, List.cons.injEq] at hf
    rw [List.cons_append, List.takeWhile_cons_of_pos (isNameChar_of_toLower h.1 hf.1),
      takeWhile_eq_of_toLower h.2 hf.2 hr]

theorem misses_keyword {word : String} (hw : word.toList.all isKeywordLetter = true) {s : List Char}
    (h : (wordOf s).map Char.toLower ≠ word.toList) : (keyword word).Misses s := by
  by_cases ht : (s.take word.toList.length).map Char.toLower = word.toList
  · have hl : literalAnyCase word.toList s =
        .done (s.take word.toList.length) (s.drop word.toList.length) := by
      rw [literalAnyCase_eq hw, if_pos ht]
    refine misses_bind_done hl (Misses.bind ?_)
    -- the front is the keyword, so what follows must go on with the word
    rcases satisfy_or_misses isNameChar (s.drop word.toList.length) with ⟨c, rest, hc⟩ | hm
    · exact misses_absent hc
    · refine absurd ?_ h
      have hw' := takeWhile_eq_of_toLower hw ht hm
      rw [List.take_append_drop] at hw'
      rw [wordOf, hw', ht]
  · refine Misses.bind ?_
    exact ⟨_, by rw [literalAnyCase_eq hw, if_neg ht]; rfl⟩

theorem consumes_keyword {word : String} (hw : word.toList.all isKeywordLetter = true) :
    Consumes word.toList.length (keyword word) := fun s a r h => by
  by_cases hs : (wordOf s).map Char.toLower = word.toList
  · rw [keyword_done hw hs] at h
    cases h
    exact ⟨wordOf s, (wordOf_append s).symm, by rw [← hs, List.length_map]⟩
  · exact absurd h (misses_keyword hw hs).not_done

end Parser
end SelectLang
