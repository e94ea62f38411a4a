/-
# A word is a name or a keyword

Names are told from reserved words by ASCII letters in lower case, keywords are read by Unicode's lower case, and
the two see to the end of the word in ways of their own. On every word they agree: it is read as a name and as no
reserved keyword, or as exactly one reserved keyword and as no name, and what is read is the whole word. So
`ascendant` is a name, though `as` and `asc` begin it, `aſ` is a name, though `ſ` is an `s` in other respects, and
`DESC` is the keyword `desc`.

Key definitions: `IsFrontWord`.
Key theorems: `isReserved_iff`, `misses_of_reserved`, `name_xor_keyword`.
-/
import Mathlib
import SelectLang.Proofs.Grammar.Spelling

namespace SelectLang

open SelectLang.Parser

/-- `word` is all the name characters at the front of the text, and `rest` is what stands behind them. -/
structure IsFrontWord (s word rest : List Char) : Prop where
  text : s = word ++ rest
  all : ∀ c ∈ word, isNameChar c = true
  ends : EndsWord rest

theorem isFrontWord_wordOf (s : List Char) : IsFrontWord s (wordOf s) (s.dropWhile isNameChar) where
  text := (wordOf_append s).symm
  all _ hc := List.mem_takeWhile_imp hc
  ends := endsWord_dropWhile s

theorem isReserved_iff {word : List Char} : isReserved (String.ofList word) = true ↔
    ∃ reserved ∈ reservedWords, word.map Char.toLower = reserved.toList := by
  refine ⟨exists_reserved, fun ⟨reserved, hmem, hlower⟩ => ?_⟩
  simp only [isReserved, List.any_eq_true, beq_iff_eq, String.toList_ofList]
  exact ⟨reserved, hmem, hlower.symm⟩

namespace Grammar

variable {s : List Char}

/-- Where a reserved keyword is read, its letters are the word in lower case. -/
theorem toLower_of_keyword {reserved : String} (hmem : reserved ∈ reservedWords) {word rest : List Char}
    (h : keyword reserved s = .done word rest) : (wordOf s).map Char.toLower = reserved.toList := by
  by_contra hne
  exact absurd h (misses_keyword (reserved_letters reserved hmem).1 hne).not_done

/-- Where a reserved keyword is read, no name is and no path. -/
theorem misses_of_reserved {reserved : String} (hmem : reserved ∈ reservedWords) {word rest : List Char}
    (h : keyword reserved s = .done word rest) : identifier.Misses s ∧ namePath.Misses s := by
  have hname : identifier.Misses s :=
    misses_identifier_of_reserved (isReserved_iff.mpr ⟨reserved, hmem, toLower_of_keyword hmem h⟩)
  exact ⟨hname, misses_namePath hname⟩

/-- **A word is a name or a keyword, and not both.** Where a character stands that may begin a name, the word that
stands there is read as a whole: either as a name, and no reserved keyword is read there, or as one reserved
keyword, and no name and no other one is. Nowhere is a reserved keyword read and a name or a path as well. -/
theorem name_xor_keyword (s : List Char) :
    ((∃ c ∈ s.head?, isNameStart c = true) → ∃ word rest, IsFrontWord s word rest ∧
      ((identifier s = .done (String.ofList word) rest ∧
          ∀ reserved ∈ reservedWords, (keyword reserved).Misses s) ∨
        (identifier.Misses s ∧ ∃ reserved ∈ reservedWords, keyword reserved s = .done word rest ∧
          ∀ other ∈ reservedWords, other ≠ reserved → (keyword other).Misses s))) ∧
    ∀ reserved ∈ reservedWords, ∀ word rest, keyword reserved s = .done word rest →
      identifier.Misses s ∧ namePath.Misses s := by
  refine ⟨fun ⟨c, hc, hstart⟩ => ⟨wordOf s, s.dropWhile isNameChar, isFrontWord_wordOf s, ?_⟩,
    fun reserved hmem word rest h => misses_of_reserved hmem h⟩
  by_cases hword : isReserved (String.ofList (wordOf s)) = true
  · right
    obtain ⟨reserved, hmem, hlower⟩ := isReserved_iff.mp hword
    refine ⟨misses_identifier_of_reserved hword, reserved, hmem,
      keyword_done (reserved_letters reserved hmem).1 hlower, fun other hother hne => ?_⟩
    refine misses_keyword (reserved_letters other hother).1 fun hsame => hne ?_
    rw [← String.toList_inj, ← hsame, hlower]
  · left
    refine ⟨identifier_word hc hstart (by simpa using hword), fun reserved hmem => ?_⟩
    exact misses_keyword (reserved_letters reserved hmem).1 fun hlower =>
      hword (isReserved_iff.mpr ⟨reserved, hmem, hlower⟩)

/-- A word that differs from `as` in a letter which is an `s` elsewhere, and a keyword in capitals. -/
theorem name_xor_keyword_longS :
    ((∃ c ∈ "aſ b".toList.head?, isNameStart c = true) ∧ ∃ word rest, IsFrontWord "aſ b".toList word rest ∧
      ((identifier "aſ b".toList = .done (String.ofList word) rest ∧
          ∀ reserved ∈ reservedWords, (keyword reserved).Misses "aſ b".toList) ∨
        (identifier.Misses "aſ b".toList ∧ ∃ reserved ∈ reservedWords,
          keyword reserved "aſ b".toList = .done word rest ∧
            ∀ other ∈ reservedWords, other ≠ reserved → (keyword other).Misses "aſ b".toList))) ∧
    keyword "desc" "DESC, b".toList = .done "DESC".toList ", b".toList ∧
      identifier.Misses "DESC, b".toList ∧ namePath.Misses "DESC, b".toList := by
  have hstart : ∃ c ∈ "aſ b".toList.head?, isNameStart c = true := ⟨'a', rfl, by decide⟩
  have hread : keyword "desc" "DESC, b".toList = .done "DESC".toList ", b".toList := by decide +kernel
  exact ⟨⟨hstart, (name_xor_keyword _).1 hstart⟩, hread,
    (name_xor_keyword _).2 "desc" (by decide) _ _ hread⟩

end Grammar
end SelectLang
