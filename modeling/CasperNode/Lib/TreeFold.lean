import Mathlib

/-!
The balanced reduction of `Itertools::tree_fold1`: a list of two items or more is cut after
the largest power of two below its length, each part is reduced and the two results are
combined, so the left part is always a complete tree. `pivot` is that cut, which callers
also compute by hand (`1 << (63 - (n - 1).leading_zeros())`).
-/

namespace TreeFold

variable {α β : Type}

/-- The largest power of two below `n`, for `2 ≤ n`. -/
def pivot (n : Nat) : Nat := 2 ^ Nat.log2 (n - 1)

theorem pivot_pos (n : Nat) : 0 < pivot n := Nat.two_pow_pos _

theorem pivot_lt {n : Nat} (two_le : 2 ≤ n) : pivot n < n := by
  have atMost : 2 ^ Nat.log2 (n - 1) ≤ n - 1 := Nat.log2_self_le (by omega)
  unfold pivot
  omega

theorem sub_pivot_le_pivot (n : Nat) : n - pivot n ≤ pivot n := by
  have above : n - 1 < 2 ^ (Nat.log2 (n - 1) + 1) := Nat.lt_log2_self
  rw [Nat.pow_succ] at above
  unfold pivot
  omega

theorem pivot_le_of_le_two_pow {n k : Nat} (two_le : 2 ≤ n) (fits : n ≤ 2 ^ (k + 1)) : pivot n ≤ 2 ^ k := by
  have logBelow : Nat.log2 (n - 1) < k + 1 := (Nat.log2_lt (by omega)).mpr (by omega)
  exact Nat.pow_le_pow_right (by decide) (by omega)

def treeFold1 (f : α → α → α) : List α → Option α
  | [] => none
  | [x] => some x
  | x :: y :: rest => do
    let left ← treeFold1 f ((x :: y :: rest).take (pivot (rest.length + 2)))
    let right ← treeFold1 f ((x :: y :: rest).drop (pivot (rest.length + 2)))
    some (f left right)
termination_by xs => xs.length
decreasing_by
  · have below := pivot_lt (show 2 ≤ rest.length + 2 by omega)
    simp only [List.length_take, List.length_cons]
    omega
  · have positive := pivot_pos (rest.length + 2)
    simp only [List.length_drop, List.length_cons]
    omega

/-- Induction along the cuts of `treeFold1`. -/
@[elab_as_elim]
theorem induction_on_split {motive : List α → Prop} (xs : List α) (nil : motive []) (singleton : ∀ x, motive [x])
    (split : ∀ xs : List α, 2 ≤ xs.length → motive (xs.take (pivot xs.length)) →
      motive (xs.drop (pivot xs.length)) → motive xs) :
    motive xs := by
  induction measure : xs.length using Nat.strongRecOn generalizing xs with
  | ind length ih =>
    match xs with
    | [] => exact nil
    | [x] => exact singleton x
    | x :: y :: rest =>
      have two_le : 2 ≤ (x :: y :: rest).length := by simp
      have below := pivot_lt two_le
      have positive := pivot_pos (x :: y :: rest).length
      refine split _ two_le (ih _ ?_ _ rfl) (ih _ ?_ _ rfl)
      · simp only [List.length_take]
        omega
      · simp only [List.length_drop]
        omega

@[simp] theorem treeFold1_nil (f : α → α → α) : treeFold1 f [] = none := by
  simp [treeFold1]

@[simp] theorem treeFold1_singleton (f : α → α → α) (x : α) : treeFold1 f [x] = some x := by
  simp [treeFold1]

theorem treeFold1_split (f : α → α → α) {xs : List α} (two_le : 2 ≤ xs.length) :
    treeFold1 f xs = (treeFold1 f (xs.take (pivot xs.length))).bind fun left =>
      (treeFold1 f (xs.drop (pivot xs.length))).bind fun right => some (f left right) := by
  match xs, two_le with
  | x :: y :: rest, _ =>
    rw [treeFold1]
    rfl

theorem treeFold1_isSome (f : α → α → α) {xs : List α} (nonempty : xs ≠ []) : (treeFold1 f xs).isSome := by
  induction xs using induction_on_split with
  | nil => exact absurd rfl nonempty
  | singleton x => simp
  | split xs two_le left right =>
    have below := pivot_lt two_le
    have positive := pivot_pos xs.length
    obtain ⟨leftRoot, leftFolded⟩ := Option.isSome_iff_exists.mp (left (List.ne_nil_of_length_pos (by simp; omega)))
    obtain ⟨rightRoot, rightFolded⟩ :=
      Option.isSome_iff_exists.mp (right (List.ne_nil_of_length_pos (by simp; omega)))
    simp [treeFold1_split f two_le, leftFolded, rightFolded]

theorem treeFold1_map (f : α → α → α) (g : β → β → β) (φ : α → β) (commutes : ∀ x y, φ (f x y) = g (φ x) (φ y))
    (xs : List α) : treeFold1 g (xs.map φ) = (treeFold1 f xs).map φ := by
  induction xs using induction_on_split with
  | nil => simp
  | singleton x => simp
  | split xs two_le left right =>
    have two_le' : 2 ≤ (xs.map φ).length := by simpa using two_le
    rw [treeFold1_split g two_le', treeFold1_split f two_le, List.length_map, ← List.map_take, ← List.map_drop,
      left, right]
    cases treeFold1 f (xs.take (pivot xs.length)) <;> cases treeFold1 f (xs.drop (pivot xs.length)) <;>
      simp [commutes]

end TreeFold
