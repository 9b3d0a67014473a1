import Mathlib
import CasperNode.Lib.WeightedChoice
import CasperNode.Lib.ExceptBind

/-!
The leader sequence of Highway and Zug (`components/consensus/leader_sequence.rs`) and the
`ValidatorMap::binary_search` it draws with (`consensus/utils/validators.rs`).

Weights are `u64` values summed with `checked_add`, so natural numbers whose sums stay below
`2 ^ 64`; the seed and the slot are `u64` and add wrapping. The random generator is a
parameter: `genRange seed upper` is what `ChaCha8Rng::seed_from_u64(seed).gen_range(0..upper)`
returns, and only its range is assumed. The standard library's `binary_search` is a parameter
with its documented contract, `WeightedChoice.SortedSearch`.
-/

namespace CasperConsensus

open WeightedChoice

/-- The panics of `new` and `leader`, and the fallback of `panic_or_0`. -/
inductive Fault where
  | totalWeightOverflow
  | zeroTotalWeight
  | emptyWeights
  | indexOutOfBounds
  | emptyRange
  | randomNumberOutOfRange
  deriving DecidableEq, Repr

/-- `Index for ValidatorMap`: the entry, or a panic past the end. -/
def ValidatorMap.index {α : Type} (map : List α) (idx : Nat) : Except Fault α :=
  match map[idx]? with
  | some value => .ok value
  | none => .error .indexOutOfBounds

/-- `ValidatorMap::binary_search`: the standard search, walked back over equal entries on `Ok`. -/
def ValidatorMap.binarySearch (search : SortedSearch) (map : List Nat) (x : Nat) : Option Nat :=
  match search.binarySearch map x with
  | .ok i => some (runStart (fun j => map.getD j 0 == x) i)
  | .error i => if i < map.length then some i else none

/-- `last().unwrap()` on a list of cumulative weights. -/
def last (cumulative : List Nat) : Except Fault Nat :=
  match cumulative.getLast? with
  | some total => .ok total
  | none => .error .emptyWeights

/-- The closure `sums` of `LeaderSequence::new`: push the last sum plus `w`, with
`checked_add(w).expect("total weight must be < 2^64")`. -/
def sums (previous : List Nat) (w : Nat) : Except Fault (List Nat) :=
  let sum := previous.getLast?.getD 0
  if sum + w < 2 ^ 64 then .ok (previous ++ [sum + w]) else .error .totalWeightOverflow

/-- The map of `new` over `weights.enumerate()`: the weight if the validator is a leader,
`0` otherwise, reading `leaders[idx]`. -/
def leaderWeight (leaders : List Bool) (entry : Nat × Nat) : Except Fault Nat := do
  let leader ← ValidatorMap.index leaders entry.2
  pure (if leader then entry.1 else 0)

structure LeaderSequence where
  cumulativeW : List Nat
  cumulativeWLeaders : List Nat
  leaders : List Bool
  seed : UInt64
  deriving DecidableEq, Repr

/-- `leader_prng`: `gen_range(0..upper).saturating_add(1)`; the range is empty at `0`. -/
def leaderPrng (genRange : UInt64 → Nat → Nat) (upper : Nat) (seed : UInt64) : Except Fault Nat :=
  if upper = 0 then .error .emptyRange else .ok (min (genRange seed upper + 1) (2 ^ 64 - 1))

/-- `unwrap_or_else(panic_or_0)`. Under `cfg!(test)` this panics; in production it logs and
goes on with index `0`. Both end here, and the theorems show neither is reached. -/
def unwrapOrPanicOr0 : Option Nat → Except Fault Nat
  | some index => .ok index
  | none => .error .randomNumberOutOfRange

/-! ### The search -/

theorem index_of_lt {α : Type} {map : List α} {idx : Nat} (below : idx < map.length) :
    ValidatorMap.index map idx = .ok map[idx] := by
  rw [ValidatorMap.index, List.getElem?_eq_getElem below]

theorem index_eq_getD {α : Type} {map : List α} {idx : Nat} (below : idx < map.length) (fallback : α) :
    ValidatorMap.index map idx = .ok (map.getD idx fallback) := by
  rw [index_of_lt below, List.getD_eq_getElem _ _ below]

theorem lt_length_of_getD_ne {α : Type} {map : List α} {idx : Nat} {fallback : α}
    (differs : map.getD idx fallback ≠ fallback) : idx < map.length := by
  by_contra outside
  exact differs (List.getD_eq_default _ _ (by omega))

theorem binarySearch_lowest (search : SortedSearch) {map : List Nat} {x y : Nat}
    (sorted : map.Pairwise (· ≤ ·)) (listed : y ∈ map) (reaches : x ≤ y) :
    ∃ i, ValidatorMap.binarySearch search map x = some i ∧ i < map.length ∧ x ≤ map.getD i 0 ∧
      ∀ j < i, map.getD j 0 < x := by
  unfold ValidatorMap.binarySearch
  cases searched : search.binarySearch map x with
  | ok i =>
    -- `Ok` holds the value somewhere in a run of equal entries; the walk back finds its start
    have found := search.found map x i sorted searched
    obtain ⟨below, holds⟩ := List.getElem?_eq_some_iff.mp found
    obtain ⟨atMost, run, ends⟩ := runStart_spec (fun j => map.getD j 0 == x) i
    set first := runStart (fun j => map.getD j 0 == x) i
    have start : map.getD first 0 = x := by
      rcases Nat.lt_or_eq_of_le atMost with earlier | same
      · simpa using run _ (Nat.le_refl _) earlier
      · rw [same, List.getD_eq_getElem _ _ below, holds]
    refine ⟨first, rfl, by omega, by rw [start], fun j before => ?_⟩
    rcases ends with atZero | differs
    · omega
    · -- the entry before the run is below `x`, and sorted entries before it are no larger
      have previous : map.getD (first - 1) 0 < x := by
        have atMostX := getD_le_getD_of_sorted sorted (Nat.sub_le first 1) (by omega)
        rw [start] at atMostX
        have notX : map.getD (first - 1) 0 ≠ x := by simpa using differs
        omega
      have earlier := getD_le_getD_of_sorted sorted (show j ≤ first - 1 by omega) (by omega)
      omega
  | error i =>
    obtain ⟨smaller, larger⟩ := search.notFound map x i sorted searched
    obtain ⟨k, inRange, rfl⟩ := List.getElem_of_mem listed
    dsimp only
    by_cases inside : i < map.length
    · rw [if_pos inside]
      refine ⟨i, rfl, inside, ?_, fun j before => ?_⟩
      · have := larger i _ (Nat.le_refl _) (List.getElem?_eq_getElem inside)
        rw [List.getD_eq_getElem _ _ inside]
        omega
      · have := smaller j _ before (List.getElem?_eq_getElem (Nat.lt_trans before inside))
        rwa [List.getD_eq_getElem _ _ (Nat.lt_trans before inside)]
    · -- an insertion point past the end would put every entry, `y` too, below `x`
      have := smaller k _ (by omega) (List.getElem?_eq_getElem inRange)
      omega

theorem binarySearch_runningSums (search : SortedSearch) {weights : List Nat} {r : Nat} (positive : 0 < r)
    (within : r ≤ weights.sum) :
    ∃ i, ValidatorMap.binarySearch search (runningSums 0 weights) r = some i ∧ Owns weights r i := by
  have nonempty : weights ≠ [] := List.ne_nil_of_length_pos (List.length_pos_of_sum_pos _ (by omega))
  have total := getLast?_runningSums 0 weights nonempty
  obtain ⟨i, searched, below, reaches, lowest⟩ :=
    binarySearch_lowest search (runningSums_sorted 0 weights) (List.mem_of_getLast? total)
      (show r ≤ 0 + weights.sum by omega)
  rw [length_runningSums] at below
  exact ⟨i, searched, owns_of_lowest positive below reaches lowest⟩

/-! ### The cumulative weights -/

theorem foldlM_sums {weights : List Nat} : ∀ {previous : List Nat} {start : Nat},
    previous.getLast?.getD 0 = start → start + weights.sum < 2 ^ 64 →
      weights.foldlM sums previous = .ok (previous ++ runningSums start weights) := by
  induction weights with
  | nil =>
    intro previous start _ _
    rw [List.foldlM_nil, runningSums, List.append_nil]
    rfl
  | cons w weights ih =>
    intro previous start last fits
    rw [List.sum_cons] at fits
    have pushed : sums previous w = .ok (previous ++ [start + w]) := by
      rw [sums, last, if_pos (by omega)]
    have rest := @ih (previous ++ [start + w]) (start + w) (by simp) (by omega)
    rw [List.foldlM_cons, pushed, Except.ok_bind, rest, runningSums, List.append_assoc, List.singleton_append]

theorem foldlM_sums_eq_ok {weights : List Nat} : ∀ {previous result : List Nat},
    weights.foldlM sums previous = .ok result →
      result = previous ++ runningSums (previous.getLast?.getD 0) weights := by
  induction weights with
  | nil =>
    intro previous result folded
    cases folded
    rw [runningSums, List.append_nil]
  | cons w weights ih =>
    intro previous result folded
    rw [List.foldlM_cons] at folded
    obtain ⟨pushedSums, pushed, rest⟩ := Except.bind_eq_ok.mp folded
    dsimp only [sums] at pushed
    split at pushed
    · cases pushed
      rw [ih rest, runningSums, List.append_assoc, List.singleton_append]
      simp
    · cases pushed

theorem last_runningSums {weights : List Nat} (nonempty : weights ≠ []) :
    last (runningSums 0 weights) = .ok weights.sum := by
  rw [last, getLast?_runningSums 0 weights nonempty, Nat.zero_add]

/-- The weights of the second draw: a validator that is not a leader counts `0`. -/
def leaderWeights (leaders : List Bool) (entries : List (Nat × Nat)) : List Nat :=
  entries.map fun entry => if leaders.getD entry.2 false then entry.1 else 0

theorem leaderWeight_of_lt {leaders : List Bool} {entry : Nat × Nat} (below : entry.2 < leaders.length) :
    leaderWeight leaders entry = .ok (if leaders.getD entry.2 false then entry.1 else 0) := by
  rw [leaderWeight, index_of_lt below, Except.ok_bind, List.getD_eq_getElem _ _ below]
  rfl

theorem foldlM_leaderWeight (leaders : List Bool) {entries : List (Nat × Nat)}
    (indexed : ∀ entry ∈ entries, entry.2 < leaders.length) : ∀ {previous : List Nat},
      entries.foldlM (fun previous entry => do sums previous (← leaderWeight leaders entry)) previous =
        (leaderWeights leaders entries).foldlM sums previous := by
  induction entries with
  | nil => intro previous; rfl
  | cons entry entries ih =>
    intro previous
    have rest := fun previous => @ih (fun other member => indexed other (List.mem_cons_of_mem _ member)) previous
    rw [List.foldlM_cons, leaderWeights, List.map_cons, List.foldlM_cons,
      leaderWeight_of_lt (indexed entry List.mem_cons_self), Except.ok_bind]
    simp only [rest, leaderWeights]

section LeaderWeights

variable (leaders : List Bool) (weights : List Nat)

@[simp] theorem length_leaderWeights : (leaderWeights leaders weights.zipIdx).length = weights.length := by
  simp [leaderWeights]

theorem getD_leaderWeights (i : Nat) :
    (leaderWeights leaders weights.zipIdx).getD i 0 = if leaders.getD i false then weights.getD i 0 else 0 := by
  rw [leaderWeights, List.getD_eq_getElem?_getD, List.getElem?_map, List.getElem?_zipIdx,
    List.getD_eq_getElem?_getD]
  cases found : weights[i]? with
  | none => simp [found]
  | some weight => simp [found]

theorem sum_leaderWeights_le : (leaderWeights leaders weights.zipIdx).sum ≤ weights.sum := by
  have dropped := @List.sum_le_sum _ _ _ _ _ _ weights.zipIdx
    (fun entry => if leaders.getD entry.2 false then entry.1 else 0) Prod.fst
    (fun entry _ => by split <;> omega)
  rwa [List.zipIdx_map_fst] at dropped

theorem sum_leaderWeights_pos (proposer : ∃ i, leaders.getD i false = true ∧ 0 < weights.getD i 0) :
    0 < (leaderWeights leaders weights.zipIdx).sum := by
  obtain ⟨i, flagged, weighted⟩ := proposer
  have below : i < weights.length := lt_length_of_getD_ne (Nat.ne_of_gt weighted)
  have masked : i < (leaderWeights leaders weights.zipIdx).length := by simpa using below
  have entry := getD_leaderWeights leaders weights i
  rw [if_pos flagged, List.getD_eq_getElem _ _ masked] at entry
  have counted := List.le_sum_of_mem (List.getElem_mem masked)
  omega

end LeaderWeights

namespace LeaderSequence

def new (seed : UInt64) (weights : List Nat) (leaders : List Bool) : Except Fault LeaderSequence := do
  let cumulativeW ← weights.foldlM sums []
  let total ← last cumulativeW
  if total > 0 then
    -- the map over `enumerate()` is lazy, so each entry is read just before it is summed
    let cumulativeWLeaders ← weights.zipIdx.foldlM
      (fun previous entry => do sums previous (← leaderWeight leaders entry)) []
    pure { cumulativeW, cumulativeWLeaders, leaders, seed }
  else .error .zeroTotalWeight

/-- `total_weight`: the last cumulative weight. -/
def totalWeight (self : LeaderSequence) : Except Fault Nat := last self.cumulativeW

/-- `leader`: a draw over all validators, and only if its owner is not a leader a second
draw over the leaders' weights. -/
def leader (genRange : UInt64 → Nat → Nat) (search : SortedSearch) (self : LeaderSequence)
    (slot : UInt64) : Except Fault Nat := do
  let seed := self.seed + slot
  let r ← leaderPrng genRange (← self.totalWeight) seed
  let leaderIndex ← unwrapOrPanicOr0 (ValidatorMap.binarySearch search self.cumulativeW r)
  if ← ValidatorMap.index self.leaders leaderIndex then pure leaderIndex
  else do
    let totalWLeaders ← last self.cumulativeWLeaders
    let r ← leaderPrng genRange totalWLeaders (seed + 1)
    unwrapOrPanicOr0 (ValidatorMap.binarySearch search self.cumulativeWLeaders r)

/-- With a total in `1` to `2 ^ 64 - 1` and a flag for every validator, `new` builds the
running sums of the weights and of the leaders' weights. -/
theorem new_eq_ok {seed : UInt64} {weights : List Nat} {leaders : List Bool} (positive : 0 < weights.sum)
    (fits : weights.sum < 2 ^ 64) (flagged : weights.length ≤ leaders.length) :
    new seed weights leaders =
      .ok ⟨runningSums 0 weights, runningSums 0 (leaderWeights leaders weights.zipIdx), leaders, seed⟩ := by
  have nonempty : weights ≠ [] := List.ne_nil_of_length_pos (List.length_pos_of_sum_pos _ positive)
  have cumulative := @foldlM_sums weights [] 0 rfl (by omega)
  have indexed : ∀ entry ∈ weights.zipIdx, entry.2 < leaders.length := fun ⟨_, _⟩ member =>
    Nat.lt_of_lt_of_le (List.mem_zipIdx' member).1 flagged
  have cumulativeLeaders := @foldlM_sums (leaderWeights leaders weights.zipIdx) [] 0 rfl
    (by have := sum_leaderWeights_le leaders weights; omega)
  rw [new, cumulative, List.nil_append, Except.ok_bind, last_runningSums nonempty, Except.ok_bind, if_pos positive,
    foldlM_leaderWeight leaders indexed, cumulativeLeaders, List.nil_append, Except.ok_bind]
  rfl

/-- A sequence that `new` returned draws over the running sums of the weights, with the
flags and the seed it was given. -/
theorem fields_of_new_eq_ok {seed : UInt64} {weights : List Nat} {leaders : List Bool}
    {sequence : LeaderSequence} (built : new seed weights leaders = .ok sequence) :
    sequence.cumulativeW = runningSums 0 weights ∧ sequence.leaders = leaders ∧ sequence.seed = seed := by
  obtain ⟨cumulativeW, folded, checked⟩ := Except.bind_eq_ok.mp built
  obtain ⟨total, _, assembled⟩ := Except.bind_eq_ok.mp checked
  split at assembled
  · obtain ⟨cumulativeWLeaders, _, returned⟩ := Except.bind_eq_ok.mp assembled
    cases returned
    exact ⟨foldlM_sums_eq_ok folded, rfl, rfl⟩
  · cases assembled

section Draws

variable (genRange : UInt64 → Nat → Nat) (search : SortedSearch)

theorem leaderPrng_eq_ok (inRange : ∀ seed upper, 0 < upper → genRange seed upper < upper) {upper : Nat}
    (seed : UInt64) (positive : 0 < upper) (fits : upper < 2 ^ 64) :
    ∃ r, leaderPrng genRange upper seed = .ok r ∧ 0 < r ∧ r ≤ upper := by
  have drawn := inRange seed upper positive
  refine ⟨genRange seed upper + 1, ?_, by omega, by omega⟩
  rw [leaderPrng, if_neg (by omega), Nat.min_eq_left (by omega)]

theorem totalWeight_eq {sequence : LeaderSequence} {weights : List Nat}
    (cumulative : sequence.cumulativeW = runningSums 0 weights) (nonempty : weights ≠ []) :
    sequence.totalWeight = .ok weights.sum := by
  rw [totalWeight, cumulative, last_runningSums nonempty]

/-- The owner of the first draw keeps its slot while it is flagged: nothing else of the
sequence is read. -/
theorem leader_of_flagged_owner {sequence : LeaderSequence} {weights : List Nat} {slot : UInt64}
    {r owner : Nat} (cumulative : sequence.cumulativeW = runningSums 0 weights)
    (draw : leaderPrng genRange weights.sum (sequence.seed + slot) = .ok r) (owns : Owns weights r owner)
    (flagged : sequence.leaders.getD owner false = true) :
    sequence.leader genRange search slot = .ok owner := by
  have nonempty : weights ≠ [] := owns.ne_nil
  obtain ⟨i, searched, ownsI⟩ := binarySearch_runningSums search owns.le_sum.1 owns.le_sum.2
  have same : i = owner := ownsI.unique owns
  have listed : owner < sequence.leaders.length := lt_length_of_getD_ne (by rw [flagged]; decide)
  have read : ValidatorMap.index sequence.leaders owner = .ok true := by
    rw [index_eq_getD listed false, flagged]
  rw [leader, totalWeight_eq cumulative nonempty, Except.ok_bind, draw, Except.ok_bind, cumulative, searched,
    same, unwrapOrPanicOr0, Except.ok_bind, read, Except.ok_bind, if_pos rfl]
  rfl

/-- Every slot goes to a leader with weight: to the owner of the first draw if it is a
leader, and otherwise to the owner of the second draw, over the leaders' weights only. -/
theorem leader_eligible (inRange : ∀ seed upper, 0 < upper → genRange seed upper < upper) {seed : UInt64}
    {weights : List Nat} {leaders : List Bool} (positive : 0 < weights.sum) (fits : weights.sum < 2 ^ 64)
    (flagged : weights.length ≤ leaders.length)
    (proposer : ∃ i, leaders.getD i false = true ∧ 0 < weights.getD i 0) (slot : UInt64) :
    ∃ index, (⟨runningSums 0 weights, runningSums 0 (leaderWeights leaders weights.zipIdx), leaders, seed⟩ :
        LeaderSequence).leader genRange search slot = .ok index ∧
      0 < weights.getD index 0 ∧ leaders.getD index false = true := by
  obtain ⟨r, draw, drawn, within⟩ := leaderPrng_eq_ok genRange inRange (seed + slot) positive fits
  obtain ⟨first, searched, owns⟩ := binarySearch_runningSums search drawn within
  have listed : first < leaders.length := Nat.lt_of_lt_of_le owns.1 flagged
  cases flag : leaders.getD first false with
  | true => exact ⟨first, leader_of_flagged_owner genRange search rfl draw owns flag, owns.pos, flag⟩
  | false =>
    -- the second draw is over the leaders' weights, whose total a leader with weight makes positive
    have nonempty : weights ≠ [] := owns.ne_nil
    have leadersNonempty : leaderWeights leaders weights.zipIdx ≠ [] :=
      List.ne_nil_of_length_pos (by rw [length_leaderWeights]; exact List.length_pos_of_ne_nil nonempty)
    obtain ⟨r', draw', drawn', within'⟩ := leaderPrng_eq_ok genRange inRange (seed + slot + 1)
      (sum_leaderWeights_pos leaders weights proposer)
      (Nat.lt_of_le_of_lt (sum_leaderWeights_le leaders weights) fits)
    obtain ⟨second, searched', owns'⟩ := binarySearch_runningSums search drawn' within'
    have weighted := owns'.pos
    rw [getD_leaderWeights] at weighted
    have secondFlag : leaders.getD second false = true := by
      by_contra unflagged
      rw [if_neg unflagged] at weighted
      omega
    rw [if_pos secondFlag] at weighted
    have read : ValidatorMap.index leaders first = .ok false := by
      rw [index_eq_getD listed false, flag]
    refine ⟨second, ?_, weighted, secondFlag⟩
    rw [leader, totalWeight_eq rfl nonempty, Except.ok_bind, draw, Except.ok_bind]
    dsimp only
    rw [searched, unwrapOrPanicOr0, Except.ok_bind, read, Except.ok_bind, if_neg Bool.false_ne_true,
      last_runningSums leadersNonempty, Except.ok_bind, draw', Except.ok_bind, searched']
    rfl

end Draws

/-- Validator `1` is not a leader: slot `2` draws unit 3 of 7, which is its, and the second
draw, over the weights `[2, 0, 0, 2]`, gives the slot to validator `3`. -/
example : (new 7 [2, 3, 0, 2] [true, false, true, true]).bind
    (fun sequence => sequence.leader (fun seed upper => seed.toNat % upper) SortedSearch.firstAtLeast 2) =
      .ok 3 := by
  decide

end LeaderSequence

open LeaderSequence in
theorem leader_is_flagged_and_keeps_first_owner (genRange : UInt64 → Nat → Nat)
    (inRange : ∀ seed upper, 0 < upper → genRange seed upper < upper) (search : SortedSearch) (seed : UInt64)
    (weights : List Nat) (leaders : List Bool) (positive : 0 < weights.sum) (fits : weights.sum < 2 ^ 64)
    (flagged : weights.length ≤ leaders.length)
    (proposer : ∃ i, leaders.getD i false = true ∧ 0 < weights.getD i 0) :
    (∃ sequence, new seed weights leaders = .ok sequence ∧
      ∀ slot, ∃ index, sequence.leader genRange search slot = .ok index ∧
        0 < weights.getD index 0 ∧ leaders.getD index false = true ∧
        ∀ r owner, leaderPrng genRange weights.sum (seed + slot) = .ok r → Owns weights r owner →
          leaders.getD owner false = true → index = owner) ∧
    ∀ (leaders₁ leaders₂ : List Bool) (sequence₁ sequence₂ : LeaderSequence) (slot : UInt64) (r owner : Nat),
      new seed weights leaders₁ = .ok sequence₁ → new seed weights leaders₂ = .ok sequence₂ →
      leaderPrng genRange weights.sum (seed + slot) = .ok r → Owns weights r owner →
      leaders₁.getD owner false = true → leaders₂.getD owner false = true →
      sequence₁.leader genRange search slot = .ok owner ∧ sequence₂.leader genRange search slot = .ok owner := by
  -- the first draw's owner keeps the slot in any sequence `new` built that flags it
  have keeps : ∀ (flags : List Bool) (sequence : LeaderSequence) (slot : UInt64) (r owner : Nat),
      new seed weights flags = .ok sequence → leaderPrng genRange weights.sum (seed + slot) = .ok r →
      Owns weights r owner → flags.getD owner false = true → sequence.leader genRange search slot = .ok owner := by
    intro flags sequence slot r owner built draw owns flag
    obtain ⟨cumulative, sameFlags, sameSeed⟩ := fields_of_new_eq_ok built
    rw [← sameSeed] at draw
    rw [← sameFlags] at flag
    exact leader_of_flagged_owner genRange search cumulative draw owns flag
  refine ⟨⟨_, new_eq_ok positive fits flagged, fun slot => ?_⟩, fun leaders₁ leaders₂ sequence₁ sequence₂ slot r owner
    built₁ built₂ draw owns flag₁ flag₂ =>
      ⟨keeps leaders₁ sequence₁ slot r owner built₁ draw owns flag₁,
        keeps leaders₂ sequence₂ slot r owner built₂ draw owns flag₂⟩⟩
  obtain ⟨index, chosen, weighted, leads⟩ :=
    leader_eligible genRange search inRange positive fits flagged proposer slot
  refine ⟨index, chosen, weighted, leads, fun r owner draw owns flag => ?_⟩
  have kept := keeps leaders _ slot r owner (new_eq_ok positive fits flagged) draw owns flag
  rw [chosen, Except.ok.injEq] at kept
  exact kept

/-- Four validators of which validator `1`, with weight 3, is not a leader. -/
theorem leader_is_flagged_and_keeps_first_owner_on_four_validators :
    ∃ sequence, LeaderSequence.new 7 [2, 3, 0, 2] [true, false, true, true] = .ok sequence ∧
      ∀ slot, ∃ index, sequence.leader (fun seed upper => seed.toNat % upper) SortedSearch.firstAtLeast slot =
        .ok index ∧ 0 < [2, 3, 0, 2].getD index 0 ∧ [true, false, true, true].getD index false = true := by
  obtain ⟨sequence, built, leads⟩ := (leader_is_flagged_and_keeps_first_owner (fun seed upper => seed.toNat % upper)
    (fun _ _ positive => Nat.mod_lt _ positive) SortedSearch.firstAtLeast 7 [2, 3, 0, 2] [true, false, true, true]
    (by decide) (by decide) (by decide) ⟨0, rfl, by decide⟩).1
  refine ⟨sequence, built, fun slot => ?_⟩
  obtain ⟨index, picked, weighted, flag, _⟩ := leads slot
  exact ⟨index, picked, weighted, flag⟩

end CasperConsensus
