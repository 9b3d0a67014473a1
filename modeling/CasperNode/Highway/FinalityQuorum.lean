import Mathlib

/-!
The quorum of a summit in the finality detector of Highway (`highway_core/finality_detector.rs`).
Weights are `u64`. `quorum_for_lvl` computes in `u128`, whose products and sums wrap at
`2 ^ 128`, and casts back with `as u64`, which keeps the low 64 bits. The comments of the source
bound the `u128` values; nothing bounds the cast.

`ceilQuorum` is the quorum those comments derive, a ceiling of a fraction; it falls as the level
grows. The code returns it modulo `2 ^ 64`.
-/

namespace FinalityDetector

/-- `quorum_for_lvl`. `none` is the panic of the division by zero at level `0`. The
subtractions cannot underflow: `pow_lvl` is at least `1`, and the denominator at least `2`
past level `0`. -/
def quorumForLvl (ftt lvl totalW : Nat) : Option Nat :=
  let powLvl := 2 ^ min lvl 63
  let numerator := ((powLvl - 1) * totalW % 2 ^ 128 + powLvl * ftt % 2 ^ 128) % 2 ^ 128
  let denominator := 2 * powLvl % 2 ^ 128 - 2
  if denominator = 0 then none
  else some (((numerator + denominator) % 2 ^ 128 - 1) / denominator % 2 ^ 64)

/-- The quorum of a level-`k` summit, `⌈((2 ^ k - 1) * total + 2 ^ k * ftt) / (2 ^ (k + 1) - 2)⌉`. -/
def ceilQuorum (ftt k totalW : Nat) : Nat :=
  ((2 ^ k - 1) * totalW + 2 ^ k * ftt + (2 ^ (k + 1) - 2) - 1) / (2 ^ (k + 1) - 2)

/-- The bound of the source's comments: up to level 63 the numerator plus the denominator
fit in a `u128`. -/
theorem numerator_add_denominator_lt {ftt totalW p : Nat} (fttFits : ftt < 2 ^ 64) (totalFits : totalW < 2 ^ 64)
    (positive : 1 ≤ p) (fits : p ≤ 2 ^ 63) :
    (p - 1) * totalW + p * ftt + (2 * p - 2) < 2 ^ 128 := by
  obtain ⟨q, rfl⟩ := Nat.exists_eq_add_of_le positive
  have first : q * (totalW + 1) ≤ q * 2 ^ 64 := Nat.mul_le_mul_left q (by omega)
  have second : (1 + q) * (ftt + 1) ≤ (1 + q) * 2 ^ 64 := Nat.mul_le_mul_left _ (by omega)
  rw [Nat.add_sub_cancel_left, show 2 * (1 + q) - 2 = 2 * q by omega]
  nlinarith

theorem quorumForLvl_eq {ftt totalW lvl : Nat} (fttFits : ftt < 2 ^ 64) (totalFits : totalW < 2 ^ 64)
    (positive : 0 < lvl) :
    quorumForLvl ftt lvl totalW = some (ceilQuorum ftt (min lvl 63) totalW % 2 ^ 64) := by
  have atLeast : 2 ≤ 2 ^ min lvl 63 :=
    Nat.le_trans (by decide) (Nat.pow_le_pow_right (by decide) (show 1 ≤ min lvl 63 by omega))
  have atMost : 2 ^ min lvl 63 ≤ 2 ^ 63 := Nat.pow_le_pow_right (by decide) (Nat.min_le_right _ _)
  have total := numerator_add_denominator_lt fttFits totalFits (Nat.le_of_succ_le atLeast) atMost
  unfold quorumForLvl ceilQuorum
  dsimp only
  rw [Nat.pow_succ 2 (min lvl 63), Nat.mul_comm _ 2]
  generalize 2 ^ min lvl 63 = p at atLeast atMost total ⊢
  -- every reduction modulo `2 ^ 128` leaves its value, as the sum of all of them is below it
  rw [Nat.mod_eq_of_lt (show (p - 1) * totalW < 2 ^ 128 by omega),
    Nat.mod_eq_of_lt (show p * ftt < 2 ^ 128 by omega),
    Nat.mod_eq_of_lt (show (p - 1) * totalW + p * ftt < 2 ^ 128 by omega),
    Nat.mod_eq_of_lt (show 2 * p < 2 ^ 128 by omega),
    Nat.mod_eq_of_lt total, if_neg (by omega)]

theorem ceil_div_le_ceil_div {x y u v : Nat} (hy : 0 < y) (hv : 0 < v) (cross : x * v ≤ u * y) :
    (x + y - 1) / y ≤ (u + v - 1) / v := by
  generalize rounded : (u + v - 1) / v = c
  have up : u ≤ v * c := by
    have split := Nat.div_add_mod (u + v - 1) v
    have rest := Nat.mod_lt (u + v - 1) hv
    rw [rounded] at split
    omega
  have scaled : x * v ≤ y * c * v := calc
    x * v ≤ u * y := cross
    _ ≤ v * c * y := Nat.mul_le_mul_right y up
    _ = y * c * v := by ring
  have below : x ≤ y * c := Nat.le_of_mul_le_mul_right scaled hv
  rw [Nat.div_le_iff_le_mul_add_pred hy]
  omega

/-- One level more needs no larger quorum: with `p = 2 ^ k`, the weight of `ftt` in the fraction,
`p / (2 * p - 2)`, falls, and that of the total stays one half. -/
theorem ceilQuorum_succ_le (ftt totalW : Nat) {k : Nat} (positive : 1 ≤ k) :
    ceilQuorum ftt (k + 1) totalW ≤ ceilQuorum ftt k totalW := by
  have atLeast : 2 ≤ 2 ^ k := Nat.le_trans (by decide) (Nat.pow_le_pow_right (by decide) positive)
  obtain ⟨q, hq⟩ := Nat.exists_eq_add_of_le atLeast
  unfold ceilQuorum
  rw [Nat.pow_succ 2 (k + 1), Nat.pow_succ 2 k, hq]
  apply ceil_div_le_ceil_div (by omega) (by omega)
  rw [show (2 + q) * 2 - 1 = 2 * q + 3 by omega, show (2 + q) * 2 * 2 - 2 = 4 * q + 6 by omega,
    show 2 + q - 1 = q + 1 by omega, show (2 + q) * 2 - 2 = 2 * q + 2 by omega]
  nlinarith [Nat.zero_le (ftt * q), Nat.zero_le ftt]

theorem ceilQuorum_antitone (ftt totalW : Nat) {j k : Nat} (positive : 1 ≤ j) (higher : j ≤ k) :
    ceilQuorum ftt k totalW ≤ ceilQuorum ftt j totalW := by
  induction k, higher using Nat.le_induction with
  | base => exact Nat.le_refl _
  | succ k within ih => exact Nat.le_trans (ceilQuorum_succ_le ftt totalW (Nat.le_trans positive within)) ih

/-- `quorum_for_lvl` is the ceiling the comments derive, modulo `2 ^ 64`: no `u128` value wraps
past level `0`, level `0` divides by zero, and the ceiling falls with the level. Where the
ceiling reaches `2 ^ 64`, the cast wraps it. -/
theorem quorum_for_lvl_is_ceiling_mod_word {ftt totalW : Nat} (fttFits : ftt < 2 ^ 64)
    (totalFits : totalW < 2 ^ 64) :
    (∀ lvl, 0 < lvl →
      (2 ^ min lvl 63 - 1) * totalW + 2 ^ min lvl 63 * ftt + (2 ^ (min lvl 63 + 1) - 2) < 2 ^ 128 ∧
      quorumForLvl ftt lvl totalW = some (ceilQuorum ftt (min lvl 63) totalW % 2 ^ 64)) ∧
    quorumForLvl ftt 0 totalW = none ∧
    ∀ j k, 1 ≤ j → j ≤ k → ceilQuorum ftt k totalW ≤ ceilQuorum ftt j totalW := by
  refine ⟨fun lvl positive => ⟨?_, quorumForLvl_eq fttFits totalFits positive⟩, rfl,
    fun j k positive higher => ceilQuorum_antitone ftt totalW positive higher⟩
  have atMost : 2 ^ min lvl 63 ≤ 2 ^ 63 := Nat.pow_le_pow_right (by decide) (Nat.min_le_right _ _)
  rw [Nat.pow_succ, Nat.mul_comm _ 2]
  exact numerator_add_denominator_lt fttFits totalFits Nat.one_le_two_pow atMost

/-- One validator of weight `2 ^ 64 - 2`, the most the scaling of stakes leaves, and a
threshold just below it: the level-62 quorum is `2 ^ 64` and the cast makes it `0`, below the
level-63 quorum. -/
theorem quorum_for_lvl_wraps_to_zero_at_level_62 :
    quorumForLvl (2 ^ 64 - 3) 62 (2 ^ 64 - 2) = some 0 ∧ ceilQuorum (2 ^ 64 - 3) 62 (2 ^ 64 - 2) = 2 ^ 64 ∧
      quorumForLvl (2 ^ 64 - 3) 63 (2 ^ 64 - 2) = some (2 ^ 64 - 1) := by
  have code := (quorum_for_lvl_is_ceiling_mod_word (show 2 ^ 64 - 3 < 2 ^ 64 by decide)
    (show 2 ^ 64 - 2 < 2 ^ 64 by decide)).1
  refine ⟨(code 62 (by decide)).2.trans (by decide), by decide, (code 63 (by decide)).2.trans (by decide)⟩

end FinalityDetector
