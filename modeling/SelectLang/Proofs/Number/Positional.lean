/-
# Numbers without an exponent read back

The canonical text of a finite number that is not negative is digits, a point and digits, and these
digits, read as a decimal and rounded, are the number again (`renderNumber_eq`). The shortest decimal
reads back because a decimal is taken only if it does, and where no short one is found the exact value
is written instead.

Key theorems: `toBinary64_shortest`, `renderNumber_eq`.
-/
import Mathlib
import SelectLang.Proofs.Number.Rounding
import SelectLang.Syntax.Render

namespace SelectLang

/-! ### The shortest decimal -/

namespace Decimal

open Binary64

theorem toBinary64_onGrid {tie : Tie} {x : Binary64} {k : Int} {d : Decimal}
    (h : onGrid tie x k = some d) : d.toBinary64 = x := by
  unfold onGrid at h
  simp only at h
  split at h
  · rename_i hl hh
    rw [beq_iff_eq] at hl hh
    -- both neighbours read back, so it does not matter which is nearer
    split_ifs at h <;> cases tie <;> cases h <;> first | exact hl | exact hh
  · rename_i hl _
    cases h
    exact beq_iff_eq.mp hl
  · rename_i _ hh
    cases h
    exact beq_iff_eq.mp hh
  · cases h

theorem toBinary64_search {tie : Tie} {x : Binary64} {d : Decimal} : ∀ (rounds : Nat) (k : Int),
    search tie x rounds k = some d → d.toBinary64 = x
  | 0, _, h => by cases h
  | rounds + 1, k, h => by
    rw [search, Option.or_eq_some_iff] at h
    rcases h with h | ⟨-, h⟩
    · exact toBinary64_onGrid h
    · exact toBinary64_search rounds _ h

theorem toBinary64_stripZeros : ∀ (rounds : Nat) (d : Decimal),
    (stripZeros rounds d).toBinary64 = d.toBinary64
  | 0, _ => rfl
  | rounds + 1, d => by
    unfold stripZeros
    split_ifs with h
    · rw [toBinary64_stripZeros rounds, toBinary64, toBinary64,
        ← ofDecimal_mul_pow false (d.significand / 10) 1 (d.exponent + 1)]
      congr 1
      · have := Nat.div_mul_cancel (Nat.dvd_of_mod_eq_zero h.2)
        rw [pow_one, this]
      · simp
    · rfl

theorem toBinary64_exact {x : Binary64} (hf : x.isFinite = true) :
    (exact x).toBinary64 = ofMagnitude false x.magnitude := by
  rw [← ofRatio_ratio false hf, toBinary64, ofDecimal_eq]
  unfold exact ratio
  by_cases he : 0 ≤ x.exponent
  · simp only [if_pos he, Int.toNat_zero, pow_zero, mul_one, neg_zero]
  · obtain ⟨n, hn⟩ : ∃ n : Nat, x.exponent = -(n : Int) := ⟨(-x.exponent).toNat, by omega⟩
    simp only [if_neg he]
    rw [hn, neg_neg, Int.toNat_natCast, Nat.pow_eq, Nat.pow_eq, show (-(n : Int)).toNat = 0 by omega,
      pow_zero, mul_one]
    refine ofRatio_congr false (by positivity) (by positivity) ?_
    rw [mul_assoc, ← mul_pow]
    norm_num

/-- The shortest decimal reads back. -/
theorem toBinary64_shortest (tie : Tie) {x : Binary64} (hf : x.isFinite = true)
    (hn : x.isNegative = false) : (shortest tie x).toBinary64 = x := by
  have hx : ofMagnitude false x.magnitude = x := by
    conv_rhs => rw [← ofMagnitude_magnitude x, hn]
  unfold shortest
  simp only [hx]
  split_ifs with hz
  · rw [isZero, beq_iff_eq] at hz
    rw [← hx, hz]
    rfl
  · split
    · rename_i d hd
      rw [toBinary64_stripZeros, toBinary64_search _ _ hd]
    · rw [toBinary64_exact hf, hx]

end Decimal

/-! ### Its text -/

open Binary64

/-- Digits, a point and digits, which are the decimal. -/
theorem writePositional_eq (d : Decimal) : ∃ whole places : List Char,
    (NumberFormat.writePositional d).toList = whole ++ '.' :: places ∧ whole ≠ [] ∧ places ≠ [] ∧
      (∀ c ∈ whole ++ places, c.isDigit = true) ∧
      ofDecimal false (Nat.ofDigitChars 10 (whole ++ places) 0) (-(places.length : Int)) =
        d.toBinary64 := by
  set digits := Nat.toDigits 10 d.significand with hdigits
  have hne : digits ≠ [] := Nat.toDigits_ne_nil
  have hdig : ∀ c ∈ digits, c.isDigit = true := fun c hc =>
    Nat.isDigit_of_mem_toDigits (by decide) (by decide) hc
  have hval : Nat.ofDigitChars 10 digits 0 = d.significand := Nat.ofDigitChars_ten_toDigits
  unfold NumberFormat.writePositional
  simp only [← hdigits]
  by_cases he : 0 ≤ d.exponent
  · obtain ⟨n, hn⟩ := Int.eq_ofNat_of_zero_le he
    refine ⟨digits ++ List.replicate n '0', ['0'], ?_, by simp [hne], by simp, ?_, ?_⟩
    · simp [hn]
    · intro c hc
      simp only [List.mem_append, List.mem_replicate, List.mem_singleton] at hc
      rcases hc with (hc | ⟨-, rfl⟩) | rfl
      · exact hdig c hc
      · rfl
      · rfl
    · have h0 : digits ++ List.replicate n '0' ++ ['0'] = digits ++ List.replicate (n + 1) '0' := by
        rw [List.append_assoc, List.replicate_succ']
      rw [h0, Nat.ofDigitChars_append, Nat.ofDigitChars_replicate_zero, hval, Decimal.toBinary64, hn,
        mul_comm, ← ofDecimal_mul_pow false d.significand (n + 1)]
      congr 1
      simp only [List.length_singleton]
      omega
  · simp only [if_neg he]
    set places := (-d.exponent).toNat with hplaces
    set padded := List.replicate (places + 1 - digits.length) '0' ++ digits with hpadded
    have hlen : places + 1 ≤ padded.length := by
      rw [hpadded, List.length_append, List.length_replicate]
      omega
    refine ⟨padded.take (padded.length - places), padded.drop (padded.length - places), ?_, ?_, ?_, ?_,
      ?_⟩
    · simp
    · rw [← List.length_pos_iff, List.length_take]
      omega
    · rw [← List.length_pos_iff, List.length_drop]
      omega
    · rw [List.take_append_drop]
      intro c hc
      rcases List.mem_append.mp hc with hc | hc
      · rw [(List.mem_replicate.mp hc).2]
        rfl
      · exact hdig c hc
    · have hl : ((padded.drop (padded.length - places)).length : Int) = -d.exponent := by
        rw [List.length_drop]
        omega
      rw [List.take_append_drop, hl, neg_neg, hpadded, Nat.ofDigitChars_append,
        Nat.ofDigitChars_replicate_zero, mul_zero, hval]
      rfl

/-- The canonical text of a finite number without a sign is digits, a point and digits, which read
as a decimal are the number. -/
theorem renderNumber_eq {x : Binary64} (hf : x.isFinite = true) (hn : x.isNegative = false) :
    ∃ whole places : List Char, (renderNumber x).toList = whole ++ '.' :: places ∧ whole ≠ [] ∧
      places ≠ [] ∧ (∀ c ∈ whole ++ places, c.isDigit = true) ∧
      ofDecimal false (Nat.ofDigitChars 10 (whole ++ places) 0) (-(places.length : Int)) = x := by
  have hnan : x.isNaN = false := by
    rw [isFinite, decide_eq_true_eq] at hf
    rw [isNaN, decide_eq_false_iff_not]
    omega
  have ht : renderNumber x = NumberFormat.writePositional (Decimal.shortest .up x) := by
    simp only [renderNumber, hnan, hf, Bool.false_eq_true, ↓reduceIte, NumberFormat.write,
      literalFormat, hn]
  have := writePositional_eq (Decimal.shortest .up x)
  rwa [← ht, Decimal.toBinary64_shortest .up hf hn] at this

end SelectLang
