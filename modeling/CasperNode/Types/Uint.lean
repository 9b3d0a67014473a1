import CasperNode.Lib.BinaryGcd

/-!
The `Integer` implementation of `U128`, `U256` and `U512` (`types/src/uint.rs`), for a type of
`w` bits held as `BitVec w`. The operators are the `uint` crate's: `*` panics when the product
overflows and `/` and `%` on a zero divisor (`none` here), `<<` drops the bits shifted past the
width, and `trailing_zeros` of zero is the width. The `while` loop of `gcd` runs on fuel. The
long division behind `/` and `%` is the crate's and is taken here as the division of the
numbers; `lcm`, `divides`, `is_multiple_of`, `is_even` and `is_odd` are not modelled.
-/

namespace CasperTypes.Uint

open SkipList (trailingZerosFrom)
open BinaryGcd

variable {w : Nat}

def trailingZeros (x : BitVec w) : Nat := trailingZerosFrom w x.toNat

/-- `*`: the `uint` crate panics when the product overflows. -/
def mul (a b : BitVec w) : Option (BitVec w) :=
  if a.toNat * b.toNat < 2 ^ w then some (a * b) else none

def div (a b : BitVec w) : Option (BitVec w) := if b = 0 then none else some (a / b)

def rem (a b : BitVec w) : Option (BitVec w) := if b = 0 then none else some (a % b)

def divFloor (a b : BitVec w) : Option (BitVec w) := div a b

def modFloor (a b : BitVec w) : Option (BitVec w) := rem a b

def divRem (a b : BitVec w) : Option (BitVec w × BitVec w) := do
  let quotient ← div a b
  let remainder ← rem a b
  pure (quotient, remainder)

/-- The `while m != n` loop of `gcd`. -/
def gcdLoop : Nat → BitVec w → BitVec w → Option (BitVec w)
  | 0, _, _ => none
  | fuel + 1, m, n =>
    if m = n then some m
    else if m > n then
      let m := m - n
      gcdLoop fuel (m >>> trailingZeros m) n
    else
      let n := n - m
      gcdLoop fuel m (n >>> trailingZeros n)

/-- `gcd`, by Stein's algorithm. -/
def gcd (fuel : Nat) (m n : BitVec w) : Option (BitVec w) :=
  if m = 0 ∨ n = 0 then some (m ||| n)
  else
    let shift := trailingZeros (m ||| n)
    (gcdLoop fuel (m >>> trailingZeros m) (n >>> trailingZeros n)).map fun (m : BitVec w) => m <<< shift

def gcdLcm (fuel : Nat) (a b : BitVec w) : Option (BitVec w × BitVec w) :=
  if a = 0 ∧ b = 0 then some (0, 0)
  else do
    let gcd ← gcd fuel a b
    let quotient ← div b gcd
    let lcm ← mul a quotient
    pure (gcd, lcm)

/-! ### The loop -/

/-- One round on two odd words, the larger first: the new word is odd, shorter than the larger
one, and keeps the gcd. -/
theorem reduce_spec {m n : BitVec w} (below : n < m) (oddM : m.toNat % 2 = 1) (oddN : n.toNat % 2 = 1) :
    ((m - n) >>> trailingZeros (m - n)).toNat % 2 = 1 ∧
      Nat.size ((m - n) >>> trailingZeros (m - n)).toNat < Nat.size m.toNat ∧
      Nat.gcd ((m - n) >>> trailingZeros (m - n)).toNat n.toNat = Nat.gcd m.toNat n.toNat := by
  have lt : n.toNat < m.toNat := BitVec.lt_def.mp below
  have difference : (m - n).toNat = m.toNat - n.toNat := BitVec.toNat_sub_of_le (BitVec.le_of_lt below)
  have positive : 0 < m.toNat - n.toNat := by omega
  have fits : m.toNat - n.toNat < 2 ^ w := by
    have := m.isLt
    omega
  simp only [BitVec.toNat_ushiftRight, trailingZeros, difference]
  refine ⟨(shiftRight_trailingZerosFrom positive fits).1, size_shiftRight_sub_lt m.isLt lt oddM oddN, ?_⟩
  rw [gcd_shiftRight_of_odd positive fits oddN, Nat.gcd_sub_self_left lt.le]

/-- On two odd words, the loop ends once the fuel covers their bit lengths, with their gcd. By
induction on the fuel: each round shortens one word. -/
theorem gcdLoop_eq : ∀ {fuel : Nat} {m n : BitVec w}, m.toNat % 2 = 1 → n.toNat % 2 = 1 →
    Nat.size m.toNat + Nat.size n.toNat ≤ fuel + 1 →
      ∃ g, gcdLoop fuel m n = some g ∧ g.toNat = Nat.gcd m.toNat n.toNat := by
  intro fuel
  induction fuel with
  | zero =>
    intro m n oddM oddN short
    have sizeM := Nat.size_pos.mpr (show 0 < m.toNat by omega)
    have sizeN := Nat.size_pos.mpr (show 0 < n.toNat by omega)
    omega
  | succ fuel ih =>
    intro m n oddM oddN short
    unfold gcdLoop
    split_ifs with same larger
    · subst same
      exact ⟨m, rfl, (Nat.gcd_self _).symm⟩
    · obtain ⟨odd, shorter, kept⟩ := reduce_spec larger oddM oddN
      obtain ⟨g, looped, value⟩ := ih odd oddN (by omega)
      exact ⟨g, looped, value.trans kept⟩
    · -- neither equal nor larger: `m` is the smaller word
      have different : m.toNat ≠ n.toNat := fun equal => same (BitVec.eq_of_toNat_eq equal)
      have notLarger : ¬ n.toNat < m.toNat := fun lt => larger (BitVec.lt_def.mpr lt)
      have smaller : m < n := BitVec.lt_def.mpr (by omega)
      obtain ⟨odd, shorter, kept⟩ := reduce_spec smaller oddN oddM
      obtain ⟨g, looped, value⟩ := ih oddM odd (by omega)
      refine ⟨g, looped, ?_⟩
      rw [value, Nat.gcd_comm, kept, Nat.gcd_comm]

/-! ### The operations -/

theorem gcd_eq {fuel : Nat} (enough : 2 * w ≤ fuel) (a b : BitVec w) :
    ∃ g, gcd fuel a b = some g ∧ g.toNat = Nat.gcd a.toNat b.toNat := by
  unfold gcd
  split_ifs with zero
  · refine ⟨a ||| b, rfl, ?_⟩
    rcases zero with rfl | rfl
    · simp
    · simp
  · have aPositive : 0 < a.toNat :=
      Nat.pos_of_ne_zero fun isZero => zero (.inl (BitVec.eq_of_toNat_eq isZero))
    have bPositive : 0 < b.toNat :=
      Nat.pos_of_ne_zero fun isZero => zero (.inr (BitVec.eq_of_toNat_eq isZero))
    have oddA := (shiftRight_trailingZerosFrom aPositive a.isLt).1
    have oddB := (shiftRight_trailingZerosFrom bPositive b.isLt).1
    -- the odd parts have at most `w` bits each
    have sizeA : Nat.size (a.toNat >>> trailingZerosFrom w a.toNat) ≤ w :=
      Nat.size_le.mpr (Nat.lt_of_le_of_lt (Nat.shiftRight_le _ _) a.isLt)
    have sizeB : Nat.size (b.toNat >>> trailingZerosFrom w b.toNat) ≤ w :=
      Nat.size_le.mpr (Nat.lt_of_le_of_lt (Nat.shiftRight_le _ _) b.isLt)
    obtain ⟨g, looped, value⟩ := @gcdLoop_eq w fuel (a >>> trailingZeros a) (b >>> trailingZeros b)
      oddA oddB (by simp only [BitVec.toNat_ushiftRight, trailingZeros]; omega)
    refine ⟨g <<< trailingZeros (a ||| b), by rw [looped]; rfl, ?_⟩
    simp only [BitVec.toNat_ushiftRight, trailingZeros] at value
    rw [BitVec.toNat_shiftLeft, Nat.shiftLeft_eq, value, trailingZeros, BitVec.toNat_or,
      trailingZerosFrom_or aPositive a.isLt bPositive b.isLt, Nat.mul_comm,
      ← gcd_eq_odd_parts aPositive a.isLt bPositive b.isLt]
    exact Nat.mod_eq_of_lt (Nat.lt_of_le_of_lt (Nat.gcd_le_left _ aPositive) a.isLt)

theorem gcd_zero_left (fuel : Nat) (b : BitVec w) : gcd fuel 0 b = some b := by
  simp [gcd]

theorem gcd_zero_right (fuel : Nat) (a : BitVec w) : gcd fuel a 0 = some a := by
  simp [gcd]

/-- Where the lcm fits, `gcd_lcm` is the pair of the gcd and the lcm: it multiplies by the
quotient `b / gcd`, so only the lcm itself has to fit. -/
theorem gcdLcm_eq {fuel : Nat} (enough : 2 * w ≤ fuel) {a b : BitVec w}
    (fits : a.toNat * b.toNat / Nat.gcd a.toNat b.toNat < 2 ^ w) :
    ∃ g l, gcdLcm fuel a b = some (g, l) ∧ g.toNat = Nat.gcd a.toNat b.toNat ∧
      l.toNat = a.toNat * b.toNat / Nat.gcd a.toNat b.toNat := by
  unfold gcdLcm
  split_ifs with zero
  · obtain ⟨rfl, rfl⟩ := zero
    exact ⟨0, 0, rfl, by simp, by simp⟩
  · obtain ⟨g, computed, value⟩ := gcd_eq enough a b
    have positive : 0 < Nat.gcd a.toNat b.toNat := by
      by_cases aZero : a.toNat = 0
      · have bNonzero : b.toNat ≠ 0 := fun bZero =>
          zero ⟨BitVec.eq_of_toNat_eq aZero, BitVec.eq_of_toNat_eq bZero⟩
        exact Nat.gcd_pos_of_pos_right _ (Nat.pos_of_ne_zero bNonzero)
      · exact Nat.gcd_pos_of_pos_left _ (Nat.pos_of_ne_zero aZero)
    have nonzero : g ≠ 0 := by
      intro isZero
      have zeroValue : (0 : BitVec w).toNat = 0 := BitVec.toNat_zero
      rw [isZero, zeroValue] at value
      omega
    -- `b` is a multiple of the gcd, so multiplying by the quotient is the lcm
    have reassociated : a.toNat * (b.toNat / Nat.gcd a.toNat b.toNat) =
        a.toNat * b.toNat / Nat.gcd a.toNat b.toNat :=
      (Nat.mul_div_assoc _ (Nat.gcd_dvd_right _ _)).symm
    have quotientValue : (b / g).toNat = b.toNat / Nat.gcd a.toNat b.toNat := by
      rw [BitVec.toNat_udiv, value]
    have multiplied : mul a (b / g) = some (a * (b / g)) := by
      unfold mul
      rw [if_pos (by rw [quotientValue, reassociated]; exact fits)]
    refine ⟨g, a * (b / g), ?_, value, ?_⟩
    · rw [computed]
      simp only [div, if_neg nonzero, multiplied, Option.bind_eq_bind, Option.bind_some]
      rfl
    · rw [BitVec.toNat_mul, quotientValue, reassociated, Nat.mod_eq_of_lt fits]

theorem divRem_eq {a b : BitVec w} (nonzero : b ≠ 0) :
    ∃ quotient remainder, divRem a b = some (quotient, remainder) ∧ divFloor a b = some quotient ∧
      modFloor a b = some remainder ∧ a.toNat = quotient.toNat * b.toNat + remainder.toNat ∧
      remainder.toNat < b.toNat := by
  have positive : 0 < b.toNat :=
    Nat.pos_of_ne_zero fun isZero => nonzero (BitVec.eq_of_toNat_eq isZero)
  refine ⟨a / b, a % b, ?_, if_neg nonzero, if_neg nonzero, ?_, ?_⟩
  · simp only [divRem, div, rem, if_neg nonzero, Option.bind_eq_bind, Option.bind_some]
    rfl
  · rw [BitVec.toNat_udiv, BitVec.toNat_umod, Nat.mul_comm]
    exact (Nat.div_add_mod _ _).symm
  · rw [BitVec.toNat_umod]
    exact Nat.mod_lt _ positive

/-- The `Integer` operations of a `w`-bit type are exact: with the fuel of two rounds per bit,
`gcd` returns the greatest common divisor, `gcd_lcm` the gcd and the lcm wherever the lcm fits,
and the divisions are Euclidean. -/
theorem integer_impl_is_exact {fuel : Nat} (enough : 2 * w ≤ fuel) (a b : BitVec w) :
    (∃ g, gcd fuel a b = some g ∧ g.toNat ∣ a.toNat ∧ g.toNat ∣ b.toNat ∧
      ∀ d, d ∣ a.toNat → d ∣ b.toNat → d ∣ g.toNat) ∧
    gcd fuel 0 b = some b ∧ gcd fuel a 0 = some a ∧
    (a.toNat * b.toNat / Nat.gcd a.toNat b.toNat < 2 ^ w →
      ∃ g l, gcdLcm fuel a b = some (g, l) ∧ g.toNat = Nat.gcd a.toNat b.toNat ∧
        l.toNat = a.toNat * b.toNat / Nat.gcd a.toNat b.toNat) ∧
    gcdLcm fuel (0 : BitVec w) 0 = some (0, 0) ∧
    (b ≠ 0 → ∃ quotient remainder, divRem a b = some (quotient, remainder) ∧
      divFloor a b = some quotient ∧ modFloor a b = some remainder ∧
      a.toNat = quotient.toNat * b.toNat + remainder.toNat ∧ remainder.toNat < b.toNat) := by
  obtain ⟨g, computed, value⟩ := gcd_eq enough a b
  refine ⟨⟨g, computed, ?_, ?_, ?_⟩, gcd_zero_left fuel b, gcd_zero_right fuel a,
    gcdLcm_eq enough, rfl, divRem_eq⟩
  · rw [value]
    exact Nat.gcd_dvd_left _ _
  · rw [value]
    exact Nat.gcd_dvd_right _ _
  · intro d left right
    rw [value]
    exact Nat.dvd_gcd left right

/-- The gcd and lcm of `12` and `18` as `U512`s. -/
theorem integer_impl_is_exact_on_u512 : gcdLcm 1024 (12#512) (18#512) = some (6#512, 36#512) := by
  obtain ⟨g, l, computed, gValue, lValue⟩ :=
    (integer_impl_is_exact (show 2 * 512 ≤ 1024 by decide) (12#512) (18#512)).2.2.2.1 (by decide +kernel)
  have gIs : g = 6#512 := BitVec.eq_of_toNat_eq (by rw [gValue]; decide +kernel)
  have lIs : l = 36#512 := BitVec.eq_of_toNat_eq (by rw [lValue]; decide +kernel)
  rw [computed, gIs, lIs]

example : gcd 1024 (48#512) (180#512) = some (12#512) := by decide +kernel

end CasperTypes.Uint
