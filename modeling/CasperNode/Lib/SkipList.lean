import Mathlib

/-!
Skip lists over a store of nodes. A node has an index, and for every power of two `2 ^ i`
dividing it a pointer to the node `2 ^ i` back; pointer `0` is the predecessor. A new node
builds its pointers from its predecessor's, and a search jumps by the greatest power of two
that fits in the distance. The store is any partial map `get`, with `index` and `skipIdx`
reading a node.

The word operations are those of `u64`: `trailing_zeros` counts to 64 at most, and `log2`
goes through `checked_next_power_of_two`.
-/

namespace SkipList

/-! ### Bits -/

/-- `trailing_zeros`, one bit at a time from the lowest, for a word of `fuel` bits. -/
def trailingZerosFrom : Nat → Nat → Nat
  | 0, _ => 0
  | fuel + 1, n => if n % 2 = 0 then trailingZerosFrom fuel (n / 2) + 1 else 0

/-- `u64::trailing_zeros`: 64 for zero. -/
def trailingZeros (n : Nat) : Nat := trailingZerosFrom 64 n

/-- `u64::checked_next_power_of_two`: the least power of two at least `y`, if it is a `u64`. -/
def checkedNextPowerOfTwo (y : Nat) : Option Nat :=
  ((List.range 64).find? fun k => decide (y ≤ 2 ^ k)).map (2 ^ ·)

/-- `log2` of `highway_core/state.rs`: the least power of two greater than `x`, its trailing
zeros, less one. -/
def log2 (x : Nat) : Nat :=
  let power := (checkedNextPowerOfTwo (min (x + 1) (2 ^ 64 - 1))).getD 0
  trailingZeros power - 1

theorem trailingZerosFrom_le : ∀ (fuel n : Nat), trailingZerosFrom fuel n ≤ fuel
  | 0, _ => Nat.le_refl _
  | fuel + 1, n => by
    rw [trailingZerosFrom]
    split
    · exact Nat.succ_le_succ (trailingZerosFrom_le fuel _)
    · exact Nat.zero_le _

theorem trailingZerosFrom_two_pow_mul {m : Nat} (odd : m % 2 = 1) :
    ∀ {fuel i : Nat}, i ≤ fuel → trailingZerosFrom fuel (2 ^ i * m) = i := by
  intro fuel
  induction fuel with
  | zero =>
    intro i fits
    rw [Nat.le_zero.mp fits]
    rfl
  | succ fuel ih =>
    intro i fits
    cases i with
    | zero =>
      rw [trailingZerosFrom, Nat.pow_zero, Nat.one_mul, if_neg (by omega)]
    | succ i =>
      have even : 2 ^ (i + 1) * m % 2 = 0 := by
        rw [Nat.pow_succ, Nat.mul_assoc, Nat.mul_comm 2, ← Nat.mul_assoc, Nat.mul_mod_left]
      have half : 2 ^ (i + 1) * m / 2 = 2 ^ i * m := by
        rw [Nat.pow_succ, Nat.mul_assoc, Nat.mul_comm 2, ← Nat.mul_assoc, Nat.mul_div_cancel _ (by omega)]
      rw [trailingZerosFrom, if_pos even, half, ih (by omega)]

theorem two_pow_succ_dvd_of_lt_trailingZerosFrom :
    ∀ {fuel n i : Nat}, i < trailingZerosFrom fuel n → 2 ^ (i + 1) ∣ n := by
  intro fuel
  induction fuel with
  | zero =>
    intro n i below
    exact absurd below (Nat.not_lt_zero _)
  | succ fuel ih =>
    intro n i below
    rw [trailingZerosFrom] at below
    split at below
    · rename_i even
      have twice : n = 2 * (n / 2) := (Nat.mul_div_cancel' (Nat.dvd_of_mod_eq_zero even)).symm
      cases i with
      | zero => exact Nat.dvd_of_mod_eq_zero even
      | succ i =>
        obtain ⟨k, halfIs⟩ := ih (show i < trailingZerosFrom fuel (n / 2) by omega)
        exact ⟨k, by rw [twice, halfIs, Nat.pow_succ 2 (i + 1), Nat.mul_comm (2 ^ (i + 1)) 2, Nat.mul_assoc]⟩
    · exact absurd below (Nat.not_lt_zero _)

/-- One step `2 ^ i` back from `n`, with `i` below the trailing zeros of `n`, lands on a
number with exactly `i` trailing zeros. -/
theorem trailingZeros_sub_two_pow {n i : Nat} (nonzero : 0 < n) (below : i < trailingZeros n) :
    trailingZeros (n - 2 ^ i) = i := by
  obtain ⟨k, rfl⟩ := two_pow_succ_dvd_of_lt_trailingZerosFrom below
  have positive : 0 < k := Nat.pos_of_mul_pos_left nonzero
  have odd : 2 ^ (i + 1) * k - 2 ^ i = 2 ^ i * (2 * k - 1) := by
    rw [Nat.pow_succ, Nat.mul_sub, Nat.mul_one, Nat.mul_assoc]
  have fits : i ≤ 64 := by
    have := trailingZerosFrom_le 64 (2 ^ (i + 1) * k)
    unfold trailingZeros at below
    omega
  rw [odd, trailingZeros, trailingZerosFrom_two_pow_mul (by omega) fits]

theorem trailingZeros_two_pow {k : Nat} (fits : k ≤ 64) : trailingZeros (2 ^ k) = k := by
  have counted := @trailingZerosFrom_two_pow_mul 1 rfl 64 k fits
  rwa [Nat.mul_one] at counted

theorem two_pow_log2_le {x : Nat} (positive : 0 < x) : 2 ^ log2 x ≤ x := by
  unfold log2 checkedNextPowerOfTwo
  cases found : (List.range 64).find? (fun k => decide (min (x + 1) (2 ^ 64 - 1) ≤ 2 ^ k)) with
  | none =>
    -- past `2 ^ 63` the next power of two is not a `u64`: zero has 64 trailing zeros
    have above := List.find?_eq_none.mp found 63 (List.mem_range.mpr (by decide))
    rw [decide_eq_true_eq, Nat.not_le] at above
    have wide : trailingZeros 0 = 64 := rfl
    rw [Option.map_none, Option.getD_none]
    dsimp only
    rw [wide]
    have := Nat.lt_of_lt_of_le above (Nat.min_le_left _ _)
    omega
  | some k =>
    obtain ⟨reaches, inRange, lowest⟩ := List.find?_range_eq_some.mp found
    rw [List.mem_range] at inRange
    rw [Option.map_some, Option.getD_some]
    dsimp only
    rw [trailingZeros_two_pow (by omega)]
    cases k with
    | zero =>
      rw [Nat.zero_sub, Nat.pow_zero]
      exact positive
    | succ k =>
      -- the power before the least one reaching `x + 1` is at most `x`
      have short := lowest k (Nat.lt_succ_self k)
      rw [Bool.not_eq_true', decide_eq_false_iff_not, Nat.not_le] at short
      rw [Nat.add_sub_cancel]
      have := Nat.lt_of_lt_of_le short (Nat.min_le_left _ _)
      omega

/-- The words at both ends: the largest, past `2 ^ 63`, goes through `unwrap_or(0)`. -/
example : log2 1 = 0 ∧ log2 5 = 2 ∧ log2 (2 ^ 64 - 1) = 63 := by decide

/-! ### The store -/

section Store

variable {κ ν : Type} (get : κ → Option ν) (index : ν → Nat) (skipIdx : ν → List κ)

/-- The first pointer, to the predecessor. -/
def parent (x : κ) : Option κ := (get x).bind fun node => (skipIdx node).head?

/-- Following the first pointer `n` times. -/
def ancestor : Nat → κ → Option κ
  | 0, x => some x
  | n + 1, x => (parent get skipIdx x).bind (ancestor n)

/-- The loop that builds a new node's pointers from its predecessor `first`: pointer `i + 1`
is pointer `i` of the node pointer `i` leads to. `none` is a missing node or pointer. -/
def extend (count : Nat) (first : κ) : Option (List κ) :=
  (List.range count).foldlM (fun pointers i => do
    let node ← get (← pointers[i]?)
    let pointer ← (skipIdx node)[i]?
    pure (pointers ++ [pointer])) [first]

/-- The search for the node of index `target` from `hash`: the greatest jump `2 ^ i` within the
distance that the node has a pointer for. `none` is a missing node or pointer, or the fuel
running out. -/
def find : Nat → κ → Nat → Option (Option κ)
  | 0, _, _ => none
  | fuel + 1, hash, target => do
    let node ← get hash
    if index node < target then pure none
    else if index node = target then pure (some hash)
    else
      let i := min (log2 (index node - target)) ((skipIdx node).length - 1)
      let next ← (skipIdx node)[i]?
      find fuel next target

/-- The pointers of the node stored at `x`: one for each power of two dividing its index, the
`i`-th to its ancestor `2 ^ i` back, a stored node whose index is that much lower. -/
structure Linked (x : κ) (node : ν) : Prop where
  length : (skipIdx node).length = if index node = 0 then 0 else trailingZeros (index node) + 1
  pointer : ∀ i, i < (skipIdx node).length → ancestor get skipIdx (2 ^ i) x = (skipIdx node)[i]?
  stored : ∀ i (below : i < (skipIdx node).length), ∃ target, get (skipIdx node)[i] = some target ∧
    index target = index node - 2 ^ i

def WellFormed : Prop := ∀ x node, get x = some node → Linked get index skipIdx x node

variable {get index skipIdx}

theorem ancestor_add (a b : Nat) (x : κ) :
    ancestor get skipIdx (a + b) x = (ancestor get skipIdx a x).bind (ancestor get skipIdx b) := by
  induction a generalizing x with
  | zero => rw [Nat.zero_add]; rfl
  | succ a ih =>
    rw [Nat.succ_add, ancestor, ancestor, Option.bind_assoc]
    congr 1
    funext parent
    exact ih parent

theorem Linked.parent {x : κ} {node : ν} (linked : Linked get index skipIdx x node) (positive : 0 < index node) :
    ∃ parent target, (skipIdx node).head? = some parent ∧ get parent = some target ∧
      index target = index node - 1 := by
  have nonempty : 0 < (skipIdx node).length := by
    rw [linked.length, if_neg (by omega)]
    omega
  obtain ⟨target, stored, lower⟩ := linked.stored 0 nonempty
  refine ⟨_, target, ?_, stored, lower⟩
  rw [List.head?_eq_getElem?, List.getElem?_eq_getElem nonempty]

/-- From a node of a well-formed store, the ancestors up to its index are stored, each one
lower. By induction on the number of steps, each through the predecessor's pointer. -/
theorem WellFormed.ancestor_stored (wf : WellFormed get index skipIdx) :
    ∀ (n : Nat) {x : κ} {node : ν}, get x = some node → n ≤ index node →
      ∃ y target, ancestor get skipIdx n x = some y ∧ get y = some target ∧ index target = index node - n := by
  intro n
  induction n with
  | zero => intro x node stored _; exact ⟨x, node, rfl, stored, rfl⟩
  | succ n ih =>
    intro x node stored within
    obtain ⟨up, target, first, parentStored, lower⟩ := (wf x node stored).parent (by omega)
    obtain ⟨y, reachedNode, reached, reachedStored, lowered⟩ := ih parentStored (by omega)
    refine ⟨y, reachedNode, ?_, reachedStored, by omega⟩
    rw [ancestor, parent, stored, Option.bind_some, first, Option.bind_some]
    exact reached

/-- With fuel past the node's index, the search returns the ancestor at the target, or
nothing when the target is above the node. By induction on the fuel: each jump lands on a
stored node that is lower, and still at least the target. -/
theorem WellFormed.find_eq (wf : WellFormed get index skipIdx) (target : Nat) :
    ∀ (fuel : Nat) {x : κ} {node : ν}, get x = some node → index node < fuel →
      find get index skipIdx fuel x target =
        some (if index node < target then none else ancestor get skipIdx (index node - target) x) := by
  intro fuel
  induction fuel with
  | zero => intro x node _ below; exact absurd below (Nat.not_lt_zero _)
  | succ fuel ih =>
    intro x node stored below
    simp only [find, stored, Option.bind_eq_bind, Option.bind_some, Option.pure_def]
    by_cases above : index node < target
    · rw [if_pos above, if_pos above]
    · rw [if_neg above, if_neg above]
      by_cases here : index node = target
      · rw [if_pos here, here, Nat.sub_self]
        rfl
      · rw [if_neg here]
        -- the jump `2 ^ i`: a pointer the node has, and within the distance
        have linked := wf x node stored
        have nonempty : 0 < (skipIdx node).length := by
          rw [linked.length, if_neg (by omega)]
          omega
        have bounded : min (log2 (index node - target)) ((skipIdx node).length - 1) < (skipIdx node).length ∧
            2 ^ min (log2 (index node - target)) ((skipIdx node).length - 1) ≤ index node - target :=
          ⟨by omega, Nat.le_trans (Nat.pow_le_pow_right (by decide) (Nat.min_le_left _ _)) (two_pow_log2_le (by omega))⟩
        generalize min (log2 (index node - target)) ((skipIdx node).length - 1) = i at bounded ⊢
        obtain ⟨inRange, within⟩ := bounded
        have step : 1 ≤ 2 ^ i := Nat.one_le_two_pow
        obtain ⟨next, nextStored, lower⟩ := linked.stored i inRange
        have jump := linked.pointer i inRange
        rw [List.getElem?_eq_getElem inRange] at jump ⊢
        rw [Option.bind_some, ih nextStored (by omega), if_neg (by omega)]
        -- the ancestor the whole distance back is the rest of it back from where the jump lands
        have rest : index node - target = 2 ^ i + (index next - target) := by omega
        rw [rest, ancestor_add, jump, Option.bind_some]

theorem Linked.head_stored {x up : κ} {node : ν} (linked : Linked get index skipIdx x node)
    (first : (skipIdx node).head? = some up) : get up ≠ none := by
  rw [List.head?_eq_some_iff] at first
  obtain ⟨rest, listed⟩ := first
  have nonempty : 0 < (skipIdx node).length := by rw [listed]; exact Nat.succ_pos _
  obtain ⟨target, stored, _⟩ := linked.stored 0 nonempty
  have same : (skipIdx node)[0] = up := by simp only [listed, List.getElem_cons_zero]
  rw [← same, stored]
  exact Option.some_ne_none _

theorem linked_of_index_eq_zero {x : κ} {node : ν} (zero : index node = 0) (empty : skipIdx node = []) :
    Linked get index skipIdx x node := by
  refine ⟨by rw [empty, zero, if_pos rfl]; rfl, fun i below => ?_, fun i below => ?_⟩
  all_goals
    rw [empty] at below
    cases below

theorem extend_succ (count : Nat) (first : κ) :
    extend get skipIdx (count + 1) first = (extend get skipIdx count first).bind fun pointers =>
      (pointers[count]?.bind get).bind fun node => (skipIdx node)[count]?.map (pointers ++ [·]) := by
  rw [extend, extend, List.range_succ, List.foldlM_append]
  simp only [List.foldlM_cons, List.foldlM_nil, Option.bind_eq_bind, Option.pure_def, Option.bind_some,
    Option.bind_assoc, Option.map_eq_bind, Function.comp_def]

/-- The search of a well-formed store, as the source states it: nothing above the node, and
otherwise the ancestor that many predecessors back, which is stored. -/
theorem WellFormed.find_spec (wf : WellFormed get index skipIdx) {x : κ} {node : ν} (stored : get x = some node)
    (target : Nat) {fuel : Nat} (enough : index node < fuel) :
    (index node < target → find get index skipIdx fuel x target = some none) ∧
      (target ≤ index node → ∃ y, ancestor get skipIdx (index node - target) x = some y ∧
        find get index skipIdx fuel x target = some (some y)) := by
  rw [wf.find_eq target fuel stored enough]
  refine ⟨fun above => by rw [if_pos above], fun within => ?_⟩
  obtain ⟨y, _, reached, _, _⟩ := wf.ancestor_stored (index node - target) stored (Nat.sub_le _ _)
  exact ⟨y, reached, by rw [if_neg (by omega), reached]⟩

/-- The rounds of the loop for a node of index `index previous + 1` after `first`. By
induction on the rounds: pointer `i` leads `2 ^ i - 1` back from `first`, to a node with
exactly `i` trailing zeros, whose own pointer `i` leads `2 ^ i` further. -/
theorem WellFormed.extend_rounds (wf : WellFormed get index skipIdx) {first : κ} {previous : ν}
    (stored : get first = some previous) :
    ∀ k, k ≤ trailingZeros (index previous + 1) →
      ∃ pointers, extend get skipIdx k first = some pointers ∧ pointers.length = k + 1 ∧
        ∀ i (below : i < pointers.length), ancestor get skipIdx (2 ^ i - 1) first = some pointers[i] ∧
          ∃ target, get pointers[i] = some target ∧ index target = index previous + 1 - 2 ^ i := by
  intro k
  induction k with
  | zero =>
    intro _
    refine ⟨[first], rfl, rfl, fun i below => ?_⟩
    rw [List.length_singleton, Nat.lt_one_iff] at below
    subst below
    exact ⟨rfl, previous, stored, rfl⟩
  | succ k ih =>
    intro rounds
    obtain ⟨pointers, built, length, reach⟩ := ih (by omega)
    have inRange : k < pointers.length := by omega
    obtain ⟨toward, target, targetStored, lower⟩ := reach k inRange
    -- the node pointer `k` leads to has exactly `k` trailing zeros, so a pointer `k` of its own
    have divides := two_pow_succ_dvd_of_lt_trailingZerosFrom (show k < trailingZeros (index previous + 1) by omega)
    have zeros := trailingZeros_sub_two_pow (Nat.succ_pos _) (show k < trailingZeros (index previous + 1) by omega)
    have reaches : 2 ^ (k + 1) ≤ index previous + 1 := Nat.le_of_dvd (Nat.succ_pos _) divides
    have doubled : 2 ^ (k + 1) = 2 ^ k + 2 ^ k := by rw [Nat.pow_succ]; omega
    have linked := wf _ target targetStored
    have ownRange : k < (skipIdx target).length := by
      rw [linked.length, lower, if_neg (by omega), zeros]
      omega
    obtain ⟨next, nextStored, nextLower⟩ := linked.stored k ownRange
    have jump := linked.pointer k ownRange
    refine ⟨pointers ++ [(skipIdx target)[k]], ?_, by rw [List.length_append, length, List.length_singleton], ?_⟩
    · rw [extend_succ, built, Option.bind_some, List.getElem?_eq_getElem inRange, Option.bind_some, targetStored,
        Option.bind_some, List.getElem?_eq_getElem ownRange, Option.map_some]
    · intro i below
      rw [List.length_append, length, List.length_singleton] at below
      by_cases earlier : i < k + 1
      · rw [List.getElem_append_left (by omega)]
        exact reach i (by omega)
      · -- the new pointer: `2 ^ k - 1` back to pointer `k`, then `2 ^ k` along its pointer `k`
        have last : i = k + 1 := by omega
        subst last
        rw [List.getElem_append_right (by omega)]
        simp only [length, Nat.sub_self, List.getElem_singleton]
        have one : 1 ≤ 2 ^ k := Nat.one_le_two_pow
        have halves : 2 ^ (k + 1) - 1 = (2 ^ k - 1) + 2 ^ k := by omega
        refine ⟨?_, next, nextStored, by omega⟩
        rw [halves, ancestor_add, toward, Option.bind_some, jump, List.getElem?_eq_getElem ownRange]

section Insert

variable [DecidableEq κ] {x : κ} {v : ν}

/-- Storing a node under a new key changes no path from a stored node: the path only meets
stored nodes. By induction on the length of the path. -/
theorem WellFormed.ancestor_update (wf : WellFormed get index skipIdx) (fresh : get x = none) :
    ∀ (n : Nat) {y : κ}, get y ≠ none →
      ancestor (Function.update get x (some v)) skipIdx n y = ancestor get skipIdx n y := by
  intro n
  induction n with
  | zero => intro y _; rfl
  | succ n ih =>
    intro y stored
    obtain ⟨node, found⟩ := Option.ne_none_iff_exists'.mp stored
    have other : y ≠ x := by
      rintro rfl
      rw [fresh] at found
      cases found
    rw [ancestor, ancestor, parent, parent, Function.update_of_ne other, found, Option.bind_some]
    cases first : (skipIdx node).head? with
    | none => rfl
    | some up =>
      rw [Option.bind_some, Option.bind_some]
      exact ih ((wf y node found).head_stored first)

theorem WellFormed.insert (wf : WellFormed get index skipIdx) (fresh : get x = none)
    (linked : Linked (Function.update get x (some v)) index skipIdx x v) :
    WellFormed (Function.update get x (some v)) index skipIdx := by
  intro y node found
  by_cases same : y = x
  · subst same
    rw [Function.update_self, Option.some.injEq] at found
    subst found
    exact linked
  · rw [Function.update_of_ne same] at found
    have old := wf y node found
    -- the old pointers lead where they did, to nodes still stored
    have kept : ∀ z, get z ≠ none → Function.update get x (some v) z = get z := fun z stored =>
      Function.update_of_ne (fun hit => stored (by rw [hit]; exact fresh)) _ _
    refine ⟨old.length, fun i below => ?_, fun i below => ?_⟩
    · rw [wf.ancestor_update fresh _ (by rw [found]; exact Option.some_ne_none _)]
      exact old.pointer i below
    · obtain ⟨target, stored, lower⟩ := old.stored i below
      exact ⟨target, by rw [kept _ (by rw [stored]; exact Option.some_ne_none _), stored], lower⟩

/-- The loop builds the pointers of a new node after a stored one, and the node is linked
once stored under a new key. -/
theorem WellFormed.extend_linked (wf : WellFormed get index skipIdx) {x first : κ}
    {previous : ν} (fresh : get x = none) (stored : get first = some previous) :
    ∃ pointers, extend get skipIdx (trailingZeros (index previous + 1)) first = some pointers ∧
      ∀ v, index v = index previous + 1 → skipIdx v = pointers →
        Linked (Function.update get x (some v)) index skipIdx x v := by
  obtain ⟨pointers, built, length, reach⟩ := wf.extend_rounds stored _ (Nat.le_refl _)
  refine ⟨pointers, built, fun v indexed pointed => ?_⟩
  have nonempty : 0 < pointers.length := by omega
  have head : pointers.head? = some first := by
    rw [List.head?_eq_getElem?, List.getElem?_eq_getElem nonempty, ← Option.some_inj.mp (reach 0 nonempty).1]
  have firstStored : get first ≠ none := by rw [stored]; exact Option.some_ne_none _
  refine ⟨by rw [pointed, indexed, length, if_neg (Nat.succ_ne_zero _)], fun i below => ?_, fun i below => ?_⟩
  · -- one step to `first`, then the path of the old store
    rw [pointed] at below ⊢
    rw [← Nat.sub_add_cancel (Nat.one_le_two_pow : 1 ≤ 2 ^ i), ancestor, parent, Function.update_self,
      Option.bind_some, pointed, head, Option.bind_some, wf.ancestor_update fresh _ firstStored,
      (reach i below).1, List.getElem?_eq_getElem below]
  · simp only [pointed] at below ⊢
    obtain ⟨target, targetStored, lower⟩ := (reach i below).2
    have other : pointers[i] ≠ x := by
      intro same
      rw [same, fresh] at targetStored
      cases targetStored
    exact ⟨target, by rw [Function.update_of_ne other, targetStored], by rw [lower, indexed]⟩

end Insert

end Store

end SkipList
