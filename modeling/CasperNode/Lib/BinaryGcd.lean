import Mathlib
import CasperNode.Lib.SkipList

/-!
What Stein's binary gcd rests on, for numbers held in words of `w` bits whose trailing zeros
are counted by `SkipList.trailingZerosFrom w`. A positive word is its odd part times the power
of two of its trailing zeros; the trailing zeros of `m ||| n` are the fewer of the two; the gcd
with an odd number ignores factors of two; and a round that subtracts the smaller of two odd
numbers and shifts out the zeros shortens the larger one by a bit at least.
-/

namespace BinaryGcd

open SkipList (trailingZerosFrom trailingZerosFrom_two_pow_mul)

variable {w : Nat}

theorem gcd_two_pow_mul_of_odd {n : Nat} (odd : n % 2 = 1) (k m : Nat) :
    Nat.gcd (2 ^ k * m) n = Nat.gcd m n :=
  Nat.Coprime.gcd_mul_left_cancel m (Nat.Coprime.pow_left k (Nat.coprime_two_left.mpr (Nat.odd_iff.mpr odd)))

theorem exists_odd_of_pos {x : Nat} (positive : 0 < x) (fits : x < 2 ^ w) :
    ∃ odd, odd % 2 = 1 ∧ x = 2 ^ trailingZerosFrom w x * odd := by
  obtain ⟨k, odd, isOdd, rfl⟩ := Nat.exists_eq_two_pow_mul_odd (Nat.pos_iff_ne_zero.mp positive)
  have below : 2 ^ k < 2 ^ w := Nat.lt_of_le_of_lt (Nat.le_mul_of_pos_right _ isOdd.pos) fits
  have wide : k ≤ w := ((Nat.pow_lt_pow_iff_right (by decide)).mp below).le
  refine ⟨odd, Nat.odd_iff.mp isOdd, ?_⟩
  rw [trailingZerosFrom_two_pow_mul (Nat.odd_iff.mp isOdd) wide]

theorem shiftRight_trailingZerosFrom {x : Nat} (positive : 0 < x) (fits : x < 2 ^ w) :
    (x >>> trailingZerosFrom w x) % 2 = 1 ∧ x = 2 ^ trailingZerosFrom w x * (x >>> trailingZerosFrom w x) := by
  obtain ⟨odd, isOdd, split⟩ := exists_odd_of_pos positive fits
  have shifted : x >>> trailingZerosFrom w x = odd := by
    rw [Nat.shiftRight_eq_div_pow]
    nth_rewrite 1 [split]
    exact Nat.mul_div_cancel_left _ (Nat.two_pow_pos _)
  rw [shifted]
  exact ⟨isOdd, split⟩

theorem two_pow_dvd_iff_le_trailingZerosFrom {x i : Nat} (positive : 0 < x) (fits : x < 2 ^ w) :
    2 ^ i ∣ x ↔ i ≤ trailingZerosFrom w x := by
  obtain ⟨odd, isOdd, split⟩ := exists_odd_of_pos positive fits
  have coprime : Nat.Coprime (2 ^ i) odd :=
    Nat.Coprime.pow_left i (Nat.coprime_two_left.mpr (Nat.odd_iff.mpr isOdd))
  constructor
  · intro divides
    rw [split] at divides
    exact (Nat.pow_dvd_pow_iff_le_right (by decide)).mp (coprime.dvd_of_dvd_mul_right divides)
  · intro within
    rw [split]
    exact Nat.dvd_trans (Nat.pow_dvd_pow 2 within) (Nat.dvd_mul_right _ _)

theorem trailingZerosFrom_or {m n : Nat} (mPositive : 0 < m) (mFits : m < 2 ^ w)
    (nPositive : 0 < n) (nFits : n < 2 ^ w) :
    trailingZerosFrom w (m ||| n) = min (trailingZerosFrom w m) (trailingZerosFrom w n) := by
  have positive : 0 < m ||| n := by
    apply Nat.pos_of_ne_zero
    intro zero
    exact Nat.pos_iff_ne_zero.mp mPositive (Nat.or_eq_zero_iff.mp zero).1
  have fits : m ||| n < 2 ^ w := Nat.or_lt_two_pow mFits nFits
  have bounds : ∀ i, i ≤ trailingZerosFrom w (m ||| n) ↔
      i ≤ min (trailingZerosFrom w m) (trailingZerosFrom w n) := by
    intro i
    rw [← two_pow_dvd_iff_le_trailingZerosFrom positive fits, Nat.le_min,
      ← two_pow_dvd_iff_le_trailingZerosFrom mPositive mFits,
      ← two_pow_dvd_iff_le_trailingZerosFrom nPositive nFits, Nat.dvd_iff_mod_eq_zero,
      Nat.or_mod_two_pow, Nat.or_eq_zero_iff, ← Nat.dvd_iff_mod_eq_zero, ← Nat.dvd_iff_mod_eq_zero]
  exact Nat.le_antisymm ((bounds _).mp (Nat.le_refl _)) ((bounds _).mpr (Nat.le_refl _))

theorem gcd_shiftRight_of_odd {x n : Nat} (positive : 0 < x) (fits : x < 2 ^ w) (odd : n % 2 = 1) :
    Nat.gcd (x >>> trailingZerosFrom w x) n = Nat.gcd x n := by
  conv => rhs; rw [(shiftRight_trailingZerosFrom positive fits).2]
  rw [gcd_two_pow_mul_of_odd odd]

theorem gcd_two_pow_mul_of_le {s t a b : Nat} (le : s ≤ t) (oddA : a % 2 = 1) :
    Nat.gcd (2 ^ s * a) (2 ^ t * b) = 2 ^ s * Nat.gcd a b := by
  obtain ⟨d, rfl⟩ := Nat.exists_eq_add_of_le le
  rw [Nat.pow_add, Nat.mul_assoc, Nat.gcd_mul_left, Nat.gcd_comm a, gcd_two_pow_mul_of_odd oddA,
    Nat.gcd_comm]

theorem gcd_eq_odd_parts {a b : Nat} (aPositive : 0 < a) (aFits : a < 2 ^ w)
    (bPositive : 0 < b) (bFits : b < 2 ^ w) :
    Nat.gcd a b = 2 ^ min (trailingZerosFrom w a) (trailingZerosFrom w b) *
      Nat.gcd (a >>> trailingZerosFrom w a) (b >>> trailingZerosFrom w b) := by
  obtain ⟨oddA, splitA⟩ := shiftRight_trailingZerosFrom aPositive aFits
  obtain ⟨oddB, splitB⟩ := shiftRight_trailingZerosFrom bPositive bFits
  generalize trailingZerosFrom w a = s at oddA splitA ⊢
  generalize trailingZerosFrom w b = t at oddB splitB ⊢
  generalize a >>> s = a' at oddA splitA ⊢
  generalize b >>> t = b' at oddB splitB ⊢
  subst splitA splitB
  rcases Nat.le_total s t with le | le
  · rw [Nat.min_eq_left le, gcd_two_pow_mul_of_le le oddA]
  · rw [Nat.min_eq_right le, Nat.gcd_comm, gcd_two_pow_mul_of_le le oddB, Nat.gcd_comm]

theorem size_shiftRight_sub_lt {m n : Nat} (fits : m < 2 ^ w) (below : n < m)
    (oddM : m % 2 = 1) (oddN : n % 2 = 1) :
    Nat.size ((m - n) >>> trailingZerosFrom w (m - n)) < Nat.size m := by
  have positive : 0 < m - n := by omega
  have even : 2 ^ 1 ∣ m - n := by omega
  have shifted : 1 ≤ trailingZerosFrom w (m - n) :=
    (two_pow_dvd_iff_le_trailingZerosFrom positive (by omega)).mp even
  have split := (shiftRight_trailingZerosFrom positive (show m - n < 2 ^ w by omega)).2
  generalize trailingZerosFrom w (m - n) = k at shifted split ⊢
  generalize (m - n) >>> k = y at split ⊢
  -- `y` is at most half of `m - n`, so below half of `2 ^ size m`
  have halved : y * 2 ≤ m - n := by
    rw [split, Nat.mul_comm]
    exact Nat.mul_le_mul_right y (Nat.le_trans (by decide) (Nat.pow_le_pow_right (by decide) shifted))
  have sizeM : 0 < Nat.size m := Nat.size_pos.mpr (by omega)
  have top : m < 2 ^ (Nat.size m - 1) * 2 := by
    rw [← Nat.pow_succ, Nat.succ_eq_add_one, Nat.sub_add_cancel sizeM]
    exact Nat.lt_size_self m
  have shorter : Nat.size y ≤ Nat.size m - 1 := Nat.size_le.mpr (by omega)
  omega

end BinaryGcd
