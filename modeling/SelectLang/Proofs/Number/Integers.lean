/-
# Integers as floats

Rounding keeps the order of what it rounds: the fraction of a number is between `2 ^ 52` and `2 ^ 53`,
so a larger exponent makes a larger number, and for one exponent the fraction grows with the quotient.
Whole numbers up to `2 ^ 53` are kept apart; beyond, neighbours are rounded to one float.

Key theorems: `rank_ofInt_le`, `eq_of_rank_ofInt`.
-/
import Mathlib
import SelectLang.Proofs.Number.Rounding

namespace SelectLang
namespace Binary64

/-! ### Sign and magnitude -/

theorem magnitude_ofMagnitude (negative : Bool) {m : Nat} (h : m < 2 ^ 63) :
    (ofMagnitude negative m).magnitude = m := by
  have h63 : Nat.pow 2 63 = 2 ^ 63 := rfl
  rw [magnitude, ofMagnitude, h63, UInt64.toNat_ofNat']
  split <;> omega

theorem isNegative_ofMagnitude (negative : Bool) {m : Nat} (h : m < 2 ^ 63) :
    (ofMagnitude negative m).isNegative = negative := by
  have h63 : Nat.pow 2 63 = 2 ^ 63 := rfl
  rw [isNegative, ofMagnitude, h63, UInt64.toNat_ofNat']
  cases negative <;> simp <;> omega

/-! ### Rounding keeps the order -/

theorem roundQuotient_mono {num num' : Nat} (den : Nat) (h : num ≤ num') :
    roundQuotient num den ≤ roundQuotient num' den := by
  have hq : num / den ≤ num' / den := Nat.div_le_div_right h
  have hnum := Nat.div_add_mod num den
  have hnum' := Nat.div_add_mod num' den
  simp only [roundQuotient]
  rcases hq.eq_or_lt with heq | hlt
  · have hr : num % den ≤ num' % den := by
      rw [heq] at hnum
      omega
    rw [heq]
    grind
  · split <;> split <;> omega

/-- The exponent that `num / den` is rounded with. -/
def roundingExponent (num den : Nat) : Int := max (logTwo num den - 52) (-1074)

/-- The whole number of units `2 ^ e` that is nearest to `num / den`. -/
def unitsAt (e : Int) (num den : Nat) : Nat :=
  roundQuotient (num * 2 ^ (-e).toNat) (den * 2 ^ e.toNat)

theorem magnitude_ofRatio (negative : Bool) {num : Nat} (hn : num ≠ 0) (den : Nat) :
    (ofRatio negative num den).magnitude = min ((roundingExponent num den + 1074).toNat * 2 ^ 52 +
      unitsAt (roundingExponent num den) num den) infinityMagnitude := by
  have hsmall : infinityMagnitude < 2 ^ 63 := by decide
  have hunits (e : Int) : (if 0 ≤ e then roundQuotient num (den * Nat.pow 2 e.toNat)
      else roundQuotient (num * Nat.pow 2 (-e).toNat) den) = unitsAt e num den := by
    rw [unitsAt, Nat.pow_eq, Nat.pow_eq]
    split_ifs with he
    · rw [show (-e).toNat = 0 by omega, pow_zero, mul_one]
    · rw [show e.toNat = 0 by omega, pow_zero, mul_one]
  simp only [ofRatio, if_neg hn, hunits]
  exact magnitude_ofMagnitude negative (lt_of_le_of_lt (min_le_right _ _) hsmall)

theorem magnitude_ofRatio_zero (negative : Bool) (den : Nat) :
    (ofRatio negative 0 den).magnitude = 0 := by
  rw [ofRatio, if_pos rfl]
  exact magnitude_ofMagnitude negative (by decide)

theorem isNegative_ofRatio (negative : Bool) (num den : Nat) :
    (ofRatio negative num den).isNegative = negative := by
  have hsmall : infinityMagnitude < 2 ^ 63 := by decide
  simp only [ofRatio]
  split
  · exact isNegative_ofMagnitude negative (by decide)
  · exact isNegative_ofMagnitude negative (lt_of_le_of_lt (min_le_right _ _) hsmall)

/-- There are at most `2 ^ 53` units, and at least `2 ^ 52` unless the unit is the least one. -/
theorem unitsAt_bounds {num den : Nat} (hn : 0 < num) (hd : 0 < den) :
    unitsAt (roundingExponent num den) num den ≤ 2 ^ 53 ∧
      (roundingExponent num den ≠ -1074 → 2 ^ 52 ≤ unitsAt (roundingExponent num den) num den) := by
  obtain ⟨hlow, hup⟩ := logTwo_bounds hn hd
  set e := roundingExponent num den with he
  have hden : 0 < den * 2 ^ e.toNat := by positivity
  have hdenq : (0 : ℚ) < (den * 2 ^ e.toNat : Nat) := by exact_mod_cast hden
  have hvalue : ((num * 2 ^ (-e).toNat : Nat) : ℚ) / (den * 2 ^ e.toNat : Nat) =
      (num : ℚ) / den * 2 ^ (-e) := by
    rcases le_total 0 e with h | h
    · obtain ⟨k, hk⟩ := Int.eq_ofNat_of_zero_le h
      rw [hk, Int.toNat_natCast, Int.toNat_neg_natCast, zpow_neg, zpow_natCast]
      push_cast
      field_simp
    · obtain ⟨k, hk⟩ : ∃ k : Nat, e = -(k : Int) := ⟨(-e).toNat, by omega⟩
      rw [hk, neg_neg, Int.toNat_natCast, Int.toNat_neg_natCast, zpow_natCast]
      push_cast
      field_simp
  have htwo : (0 : ℚ) < 2 ^ (-e) := by positivity
  constructor
  · have hle : ((num * 2 ^ (-e).toNat : Nat) : ℚ) / (den * 2 ^ e.toNat : Nat) ≤ 2 ^ 53 := by
      rw [hvalue]
      calc (num : ℚ) / den * 2 ^ (-e) ≤ 2 ^ (logTwo num den + 1) * 2 ^ (-e) := by gcongr
        _ = 2 ^ (logTwo num den + 1 + -e) := (zpow_add₀ two_ne_zero _ _).symm
        _ ≤ 2 ^ (53 : Int) := zpow_le_zpow_right₀ one_le_two (by rw [he, roundingExponent]; omega)
        _ = 2 ^ 53 := by norm_num
    rw [div_le_iff₀ hdenq] at hle
    have hnat : num * 2 ^ (-e).toNat ≤ 2 ^ 53 * (den * 2 ^ e.toNat) := by exact_mod_cast hle
    exact (roundQuotient_mono _ hnat).trans_eq (roundQuotient_self _ hden)
  · intro hne
    have hge : 2 ^ 52 ≤ ((num * 2 ^ (-e).toNat : Nat) : ℚ) / (den * 2 ^ e.toNat : Nat) := by
      rw [hvalue]
      calc (2 : ℚ) ^ 52 = 2 ^ (52 : Int) := by norm_num
        _ ≤ 2 ^ (logTwo num den + -e) :=
          zpow_le_zpow_right₀ one_le_two (by rw [he, roundingExponent] at hne ⊢; omega)
        _ = 2 ^ logTwo num den * 2 ^ (-e) := zpow_add₀ two_ne_zero _ _
        _ ≤ (num : ℚ) / den * 2 ^ (-e) := by gcongr
    rw [le_div_iff₀ hdenq] at hge
    have hnat : 2 ^ 52 * (den * 2 ^ e.toNat) ≤ num * 2 ^ (-e).toNat := by exact_mod_cast hge
    exact (roundQuotient_self _ hden).symm.trans_le (roundQuotient_mono _ hnat)

theorem roundingExponent_mono {num num' den : Nat} (hn : 0 < num) (hd : 0 < den) (h : num ≤ num') :
    roundingExponent num den ≤ roundingExponent num' den := by
  have hdq : (0 : ℚ) < den := by exact_mod_cast hd
  have hlog : logTwo num den ≤ logTwo num' den := by
    rw [logTwo_eq_log hn hd, logTwo_eq_log (hn.trans_le h) hd]
    refine Int.log_mono_right (div_pos (by exact_mod_cast hn) hdq) ?_
    have hq : (num : ℚ) ≤ num' := by exact_mod_cast h
    gcongr
  exact max_le_max_right _ (Int.sub_le_sub_right hlog 52)

/-- A larger quotient is not rounded to a smaller number. -/
theorem magnitude_ofRatio_mono (negative : Bool) {num num' den : Nat} (hd : 0 < den)
    (h : num ≤ num') :
    (ofRatio negative num den).magnitude ≤ (ofRatio negative num' den).magnitude := by
  rcases Nat.eq_zero_or_pos num with rfl | hn
  · rw [magnitude_ofRatio_zero]
    exact Nat.zero_le _
  have hn' : 0 < num' := hn.trans_le h
  rw [magnitude_ofRatio negative hn.ne', magnitude_ofRatio negative hn'.ne']
  refine min_le_min_right _ ?_
  rcases (roundingExponent_mono hn hd h).eq_or_lt with he | he
  · rw [he]
    exact Nat.add_le_add_left (roundQuotient_mono _ (Nat.mul_le_mul_right _ h)) _
  · -- the smaller number has at most twice as many units as the larger, whose unit is larger
    have hlow : -1074 ≤ roundingExponent num den := le_max_right _ _
    have hup := (unitsAt_bounds hn hd).1
    have hnext := (unitsAt_bounds hn' hd).2 (by omega)
    omega

/-! ### Whole numbers up to `2 ^ 53` -/

theorem roundingExponent_one {n : Nat} (hn : 0 < n) : roundingExponent n 1 = (n.log2 : Int) - 52 := by
  have hlog : logTwo n 1 = n.log2 := by
    have hself : 2 ^ n.log2 ≤ n := Nat.log2_self_le hn.ne'
    simp [logTwo, show Nat.log2 1 = 0 from rfl, hself]
  rw [roundingExponent, hlog]
  omega

theorem unitsAt_one {e : Int} (he : e ≤ 0) (n : Nat) : unitsAt e n 1 = n * 2 ^ (-e).toNat := by
  rw [unitsAt, show e.toNat = 0 by omega, pow_zero, mul_one, roundQuotient_one]

/-- Whole numbers up to `2 ^ 53` are rounded to different numbers. -/
theorem magnitude_ofRatio_lt (negative : Bool) {m n : Nat} (h : m < n) (hn : n ≤ 2 ^ 53) :
    (ofRatio negative m 1).magnitude < (ofRatio negative n 1).magnitude := by
  have hpos : 0 < n := Nat.zero_lt_of_lt h
  have hlog : n.log2 ≤ 53 := by
    have hmono := Nat.log2_lt hpos.ne' |>.mpr (show n < 2 ^ 54 by omega)
    omega
  have hen := roundingExponent_one hpos
  obtain ⟨hup, hlow⟩ := unitsAt_bounds hpos one_pos
  have hfinite : (roundingExponent n 1 + 1074).toNat * 2 ^ 52 + unitsAt (roundingExponent n 1) n 1 ≤
      infinityMagnitude := by
    have hinf : infinityMagnitude = 2047 * 2 ^ 52 := rfl
    rw [hinf]
    omega
  rw [magnitude_ofRatio negative hpos.ne', min_eq_left hfinite]
  rcases Nat.eq_zero_or_pos m with rfl | hm
  · rw [magnitude_ofRatio_zero]
    omega
  have hem := roundingExponent_one hm
  have hlogm : m.log2 < 53 := Nat.log2_lt hm.ne' |>.mpr (by omega)
  have hunits := unitsAt_one (e := roundingExponent m 1) (by omega) m
  rw [magnitude_ofRatio negative hm.ne']
  refine lt_of_le_of_lt (min_le_left _ _) ?_
  rcases (roundingExponent_mono hm one_pos h.le).eq_or_lt with he | he
  · have hmul : m * 2 ^ (-roundingExponent n 1).toNat < n * 2 ^ (-roundingExponent n 1).toNat :=
      Nat.mul_lt_mul_of_pos_right h (by positivity)
    rw [he] at hunits
    rw [← unitsAt_one (by omega) n, ← hunits] at hmul
    rw [he]
    omega
  · -- no unit of the smaller number is lost, so it has less than twice as many as the larger
    have hlt : unitsAt (roundingExponent m 1) m 1 < 2 ^ 53 := by
      rw [hunits, show (-roundingExponent m 1).toNat = 52 - m.log2 by omega]
      calc m * 2 ^ (52 - m.log2) < 2 ^ (m.log2 + 1) * 2 ^ (52 - m.log2) :=
            Nat.mul_lt_mul_of_pos_right Nat.lt_log2_self (by positivity)
        _ = 2 ^ 53 := by rw [← pow_add]; congr 1; omega
    have hnext := hlow (by omega)
    omega

/-! ### Integers -/

theorem rank_ofInt (n : Int) : (ofInt n).rank =
    if n < 0 then -((ofInt n).magnitude : Int) - 1 else (ofInt n).magnitude := by
  rw [rank, ofInt, isNegative_ofRatio]
  simp only [decide_eq_true_eq]

/-- A larger integer is not rounded to a smaller float. -/
theorem rank_ofInt_le {n m : Int} (h : n ≤ m) : (ofInt n).rank ≤ (ofInt m).rank := by
  rw [rank_ofInt, rank_ofInt]
  split_ifs with hn hm hm
  · have hmono := magnitude_ofRatio_mono true one_pos (show m.natAbs ≤ n.natAbs by omega)
    simp only [ofInt, hn, hm, decide_true]
    omega
  · omega
  · omega
  · have hmono := magnitude_ofRatio_mono false one_pos (show n.natAbs ≤ m.natAbs by omega)
    simp only [ofInt, hn, hm, decide_false]
    omega

/-- Integers up to `2 ^ 53` in size that follow each other are rounded to different floats. -/
theorem rank_ofInt_succ {n : Int} (hn : n.natAbs ≤ 2 ^ 53) (hs : (n + 1).natAbs ≤ 2 ^ 53) :
    (ofInt n).rank < (ofInt (n + 1)).rank := by
  rw [rank_ofInt, rank_ofInt]
  split_ifs with h0 h1 h1
  · have hlt := magnitude_ofRatio_lt true (show (n + 1).natAbs < n.natAbs by omega) hn
    simp only [ofInt, h0, h1, decide_true]
    omega
  · omega
  · omega
  · have hlt := magnitude_ofRatio_lt false (show n.natAbs < (n + 1).natAbs by omega) hs
    simp only [ofInt, h0, h1, decide_false]
    omega

/-- An integer that is below `2 ^ 53` in size shares its float with no other. -/
theorem eq_of_rank_ofInt {n m : Int} (hn : n.natAbs < 2 ^ 53) (h : (ofInt n).rank = (ofInt m).rank) :
    n = m := by
  rcases lt_trichotomy n m with hlt | heq | hlt
  · have hnext := rank_ofInt_succ hn.le (by omega)
    have hrest := rank_ofInt_le (show n + 1 ≤ m by omega)
    omega
  · exact heq
  · have hlast := rank_ofInt_succ (n := n - 1) (by omega) (by omega)
    have hrest := rank_ofInt_le (show m ≤ n - 1 by omega)
    rw [Int.sub_add_cancel] at hlast
    omega

end Binary64
end SelectLang
