import Mathlib

/-!
Choosing an item by weight. The weight units `1` to the total are numbered in order, and
item `i` owns those past the weights before it, up to and including its own. The owner of
a unit is found on the running sums of the weights, as the lowest index whose sum reaches
the unit; on a sorted list that is what a search with the contract of the standard
library's `binary_search`, walked back over equal entries, returns.
-/

namespace WeightedChoice

/-- Weight unit `r` belongs to item `i`. -/
def Owns (weights : List Nat) (r i : Nat) : Prop :=
  i < weights.length ∧ (weights.take i).sum < r ∧ r ≤ (weights.take (i + 1)).sum

theorem sum_take_le_sum_take (weights : List Nat) {i j : Nat} (le : i ≤ j) :
    (weights.take i).sum ≤ (weights.take j).sum := by
  obtain ⟨more, rfl⟩ := Nat.exists_eq_add_of_le le
  rw [List.take_add, List.sum_append]
  omega

theorem Owns.pos {weights : List Nat} {r i : Nat} (owns : Owns weights r i) : 0 < weights.getD i 0 := by
  obtain ⟨below, before, upTo⟩ := owns
  rw [List.sum_take_succ _ _ below] at upTo
  rw [List.getD_eq_getElem _ _ below]
  omega

theorem Owns.unique {weights : List Nat} {r i j : Nat} (owns : Owns weights r i) (owns' : Owns weights r j) :
    i = j := by
  -- the unit is past every item before an owner, so no owner is before another
  have notBefore : ∀ {i j}, Owns weights r i → Owns weights r j → ¬ i < j := by
    intro i j owns owns' before
    have grown := sum_take_le_sum_take weights (show i + 1 ≤ j by omega)
    have := owns.2.2
    have := owns'.2.1
    omega
  have := notBefore owns owns'
  have := notBefore owns' owns
  omega

theorem Owns.ne_nil {weights : List Nat} {r i : Nat} (owns : Owns weights r i) : weights ≠ [] :=
  List.ne_nil_of_length_pos (Nat.lt_of_le_of_lt (Nat.zero_le _) owns.1)

theorem Owns.le_sum {weights : List Nat} {r i : Nat} (owns : Owns weights r i) : 0 < r ∧ r ≤ weights.sum := by
  obtain ⟨below, before, upTo⟩ := owns
  have whole := sum_take_le_sum_take weights (show i + 1 ≤ weights.length by omega)
  rw [List.take_length] at whole
  omega

theorem getD_le_getD_of_sorted {xs : List Nat} (sorted : xs.Pairwise (· ≤ ·)) {i j : Nat} (le : i ≤ j)
    (below : j < xs.length) : xs.getD i 0 ≤ xs.getD j 0 := by
  rw [List.getD_eq_getElem _ _ (Nat.lt_of_le_of_lt le below), List.getD_eq_getElem _ _ below]
  rcases Nat.lt_or_eq_of_le le with earlier | rfl
  · exact List.pairwise_iff_getElem.mp sorted _ _ _ below earlier
  · exact Nat.le_refl _

/-- The running sums from `start`: entry `i` is `start` plus the weights up to item `i`. -/
def runningSums (start : Nat) : List Nat → List Nat
  | [] => []
  | weight :: weights => (start + weight) :: runningSums (start + weight) weights

@[simp] theorem length_runningSums (start : Nat) (weights : List Nat) :
    (runningSums start weights).length = weights.length := by
  induction weights generalizing start with
  | nil => rfl
  | cons weight weights ih => simp [runningSums, ih]

theorem getD_runningSums (start : Nat) (weights : List Nat) {i : Nat} (below : i < weights.length) :
    (runningSums start weights).getD i 0 = start + (weights.take (i + 1)).sum := by
  induction weights generalizing start i with
  | nil => cases below
  | cons weight weights ih =>
    cases i with
    | zero => simp [runningSums]
    | succ i =>
      simp only [List.length_cons] at below
      simp only [runningSums, List.getD_cons_succ, ih _ (by omega : i < weights.length), List.take_succ_cons,
        List.sum_cons]
      omega

theorem getLast?_runningSums (start : Nat) (weights : List Nat) (nonempty : weights ≠ []) :
    (runningSums start weights).getLast? = some (start + weights.sum) := by
  induction weights generalizing start with
  | nil => exact absurd rfl nonempty
  | cons weight weights ih =>
    cases weights with
    | nil => simp [runningSums]
    | cons next weights =>
      rw [runningSums, List.getLast?_cons, ih _ (List.cons_ne_nil _ _), Option.getD_some]
      simp only [List.sum_cons, Option.some.injEq]
      omega

theorem le_of_mem_runningSums {start y : Nat} {weights : List Nat} (member : y ∈ runningSums start weights) :
    start ≤ y := by
  induction weights generalizing start with
  | nil => cases member
  | cons weight weights ih =>
    rcases List.mem_cons.mp member with rfl | later
    · omega
    · have := ih later
      omega

theorem runningSums_sorted (start : Nat) (weights : List Nat) : (runningSums start weights).Pairwise (· ≤ ·) := by
  induction weights generalizing start with
  | nil => exact .nil
  | cons weight weights ih =>
    exact .cons (fun _ member => le_of_mem_runningSums member) (ih _)

theorem owns_of_lowest {weights : List Nat} {r i : Nat} (positive : 0 < r) (below : i < weights.length)
    (reaches : r ≤ (runningSums 0 weights).getD i 0)
    (lowest : ∀ j < i, (runningSums 0 weights).getD j 0 < r) : Owns weights r i := by
  rw [getD_runningSums _ _ below, Nat.zero_add] at reaches
  refine ⟨below, ?_, reaches⟩
  cases i with
  | zero => simpa using positive
  | succ i =>
    have earlier := lowest i (by omega)
    rwa [getD_runningSums _ _ (by omega), Nat.zero_add] at earlier

/-- `(0..i).rev().take_while(p).last().unwrap_or(i)`: from `i` down over the indices that
pass `p`, to where the run of them starts. -/
def runStart (p : Nat → Bool) (i : Nat) : Nat := ((List.range i).reverse.takeWhile p).getLast?.getD i

/-- Every index from the start of the run up to `i` passes, and the one before it does not.
By induction on `i`; a failing index ends the walk at once. -/
theorem runStart_spec (p : Nat → Bool) (i : Nat) :
    runStart p i ≤ i ∧ (∀ j, runStart p i ≤ j → j < i → p j = true) ∧
      (runStart p i = 0 ∨ p (runStart p i - 1) = false) := by
  induction i with
  | zero => simp [runStart]
  | succ i ih =>
    have descending : (List.range (i + 1)).reverse = i :: (List.range i).reverse := by
      rw [List.range_succ, List.reverse_append, List.reverse_singleton, List.singleton_append]
    by_cases passes : p i = true
    · have same : runStart p (i + 1) = runStart p i := by
        rw [runStart, descending, List.takeWhile_cons, if_pos passes, List.getLast?_cons, Option.getD_some]
        rfl
      obtain ⟨atMost, run, ends⟩ := ih
      rw [same]
      refine ⟨by omega, fun j atLeast below => ?_, ends⟩
      by_cases last : j = i
      · rw [last]
        exact passes
      · exact run j atLeast (by omega)
    · have stops : runStart p (i + 1) = i + 1 := by
        rw [runStart, descending, List.takeWhile_cons, if_neg passes]
        rfl
      rw [stops]
      refine ⟨Nat.le_refl _, fun j atLeast below => by omega, .inr ?_⟩
      simpa using passes

/-- The contract of `slice::binary_search` on a sorted slice: `Ok` with an index that holds
the value, or `Err` with the place to insert it, everything before smaller and everything
from there on larger. -/
structure SortedSearch where
  binarySearch : List Nat → Nat → Except Nat Nat
  found : ∀ xs x i, xs.Pairwise (· ≤ ·) → binarySearch xs x = .ok i → xs[i]? = some x
  notFound : ∀ xs x i, xs.Pairwise (· ≤ ·) → binarySearch xs x = .error i →
    (∀ j y, j < i → xs[j]? = some y → y < x) ∧ ∀ j y, i ≤ j → xs[j]? = some y → x < y

/-- A search that meets the contract: the first entry at least the value. -/
def firstAtLeast (xs : List Nat) (x : Nat) : Except Nat Nat :=
  if xs[xs.findIdx (x ≤ ·)]? = some x then .ok (xs.findIdx (x ≤ ·)) else .error (xs.findIdx (x ≤ ·))

def SortedSearch.firstAtLeast : SortedSearch where
  binarySearch := WeightedChoice.firstAtLeast
  found xs x i _ found := by
    unfold WeightedChoice.firstAtLeast at found
    split at found
    · cases found
      assumption
    · cases found
  notFound xs x i sorted missing := by
    unfold WeightedChoice.firstAtLeast at missing
    split at missing
    · cases missing
    · rename_i absent
      cases missing
      refine ⟨fun j y before listed => ?_, fun j y atLeast listed => ?_⟩
      · have failed := List.not_of_lt_findIdx before
        rw [List.getElem?_eq_some_iff] at listed
        obtain ⟨_, rfl⟩ := listed
        simpa using failed
      · -- the first entry at least the value is larger, and the entries are sorted from it
        obtain ⟨inRange, rfl⟩ := List.getElem?_eq_some_iff.mp listed
        have firstInRange : xs.findIdx (x ≤ ·) < xs.length := Nat.lt_of_le_of_lt atLeast inRange
        have reached : x ≤ xs[xs.findIdx (x ≤ ·)] := by
          simpa using @List.findIdx_getElem _ (x ≤ ·) xs firstInRange
        have differs : xs[xs.findIdx (x ≤ ·)] ≠ x := fun same =>
          absent (by rw [List.getElem?_eq_getElem firstInRange, same])
        have ordered : xs[xs.findIdx (x ≤ ·)] ≤ xs[j] := by
          rcases Nat.lt_or_eq_of_le atLeast with later | same
          · exact List.pairwise_iff_getElem.mp sorted _ _ firstInRange inRange later
          · simp [same]
        omega

end WeightedChoice
