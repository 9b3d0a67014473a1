import Mathlib
import CasperNode.Highway.Panorama
import CasperNode.Lib.Pruning

/-!
The committees of a summit (`highway_core/finality_detector/horizon.rs`). A `Horizon` assigns to
some validators the sequence number of their earliest unit that qualifies them, and keeps the
latest unit of each validator; of the protocol state it reads the units and the weights.
`prune_committee` is the rounds of `Pruning` with the test `sees_quorum`: the member's latest
unit sees members of the committee whose weights reach the quorum.

`Weight` sums wrap at `2 ^ 64` in a release build. The weights of a state sum below `2 ^ 64`
(`LeaderSequence::new` checks it), so the seen weight of a committee without a validator twice
never wraps. The pruned validators, a `BTreeSet`, are a list here: only its members are read.
-/

namespace FinalityDetector

open HighwayCore

variable {κ : Type}

structure Horizon (κ : Type) where
  sequenceNumbers : List (Option Nat)
  latest : List (Option κ)
  units : κ → Option (Unit κ)
  weights : List Nat

namespace Horizon

variable (horizon : Horizon κ)

/-- `State::weight`: `none` is the panic of an index past the validators. -/
def weight (idx : Nat) : Option Nat := horizon.weights[idx]?

/-- `can_see`: whether `unit` sees the unit of `idx` in the horizon, a unit seeing itself. -/
def canSee (unit : Unit κ) (idx : Nat) : Option Bool := do
  match ← horizon.sequenceNumbers[idx]? with
  | none => pure false
  | some selfSn =>
    if unit.creator = idx then pure (decide (selfSn ≤ unit.seqNumber))
    else
      match (← unit.panorama[idx]?).correct? with
      | none => pure false
      | some vhash => do
        let seen ← horizon.units vhash
        pure (decide (selfSn ≤ seen.seqNumber))

/-- The loop of `seen_weight`, `filter(is_seen).map(to_weight).sum()`, from the running `total`. -/
def seenWeightFrom (unit : Unit κ) (total : Nat) : List Nat → Option Nat
  | [] => some total
  | idx :: rest => do
    if ← horizon.canSee unit idx then
      let weight ← horizon.weight idx
      seenWeightFrom unit ((total + weight) % 2 ^ 64) rest
    else seenWeightFrom unit total rest

/-- `seen_weight`: the weight of the members of `committee` whose unit in the horizon `unit`
sees. -/
def seenWeight (unit : Unit κ) (committee : List Nat) : Option Nat :=
  horizon.seenWeightFrom unit 0 committee

/-- The closure `sees_quorum` of `prune_committee`. `latest[idx].unwrap()` and `state.unit`
panic on a validator without a latest unit. -/
def seesQuorum (quorum : Nat) (committee : List Nat) (idx : Nat) : Option Bool := do
  let hash ← horizon.latest[idx]?.join
  let unit ← horizon.units hash
  let weight ← horizon.seenWeight unit committee
  pure (decide (quorum ≤ weight))

/-- `prune_committee`: the kept committee and the pruned validators. -/
def pruneCommittee (fuel quorum : Nat) (committee : List Nat) : Option (List Nat × List Nat) :=
  Pruning.rounds (horizon.seesQuorum quorum) fuel committee []

/-! ### What a horizon keeps -/

/-- What `can_see` reads of a unit answers: its panorama has an entry per validator, and the
units it cites are stored. -/
structure Readable (unit : Unit κ) : Prop where
  panorama_length : unit.panorama.length = horizon.weights.length
  cited_stored : ∀ cited, Observation.correct cited ∈ unit.panorama → (horizon.units cited).isSome

/-- A horizon of a state: a sequence number per validator, the latest units stored and readable,
and weights that sum below `2 ^ 64`. -/
structure WellFormed : Prop where
  sequenceNumbers_length : horizon.sequenceNumbers.length = horizon.weights.length
  latest_readable : ∀ (idx : Nat) (hash : κ), horizon.latest[idx]? = some (some hash) →
    ∃ unit, horizon.units hash = some unit ∧ horizon.Readable unit
  total_fits : horizon.weights.sum < 2 ^ 64

/-- A validator that can sit in a committee: it has a latest unit. -/
def HasLatest (idx : Nat) : Prop :=
  idx < horizon.weights.length ∧ ∃ hash, horizon.latest[idx]? = some (some hash)

/-- The weight, summed in ℕ, of the members of `committee` whose unit `unit` sees. -/
def visibleWeight (unit : Unit κ) (committee : List Nat) : Nat :=
  ((committee.filter (Pruning.accepts (horizon.canSee unit))).map fun idx => horizon.weights.getD idx 0).sum

/-- The latest unit of `idx` sees members of `committee` of total weight at least `quorum`. -/
def SeesQuorum (quorum : Nat) (committee : List Nat) (idx : Nat) : Prop :=
  ∃ hash unit, horizon.latest[idx]? = some (some hash) ∧ horizon.units hash = some unit ∧
    quorum ≤ horizon.visibleWeight unit committee

/-! ### Seen weights -/

theorem sum_map_le_of_subperm {l₁ l₂ : List Nat} (f : Nat → Nat) (within : l₁.Subperm l₂) :
    (l₁.map f).sum ≤ (l₂.map f).sum := by
  obtain ⟨l, perm, sub⟩ := within
  rw [← (perm.map f).sum_eq]
  exact (sub.map f).sum_le_sum fun _ _ => Nat.zero_le _

theorem sum_map_getD_range (weights : List Nat) :
    ((List.range weights.length).map fun idx => weights.getD idx 0).sum = weights.sum := by
  induction weights with
  | nil => rfl
  | cons w ws ih =>
    rw [List.length_cons, List.range_succ_eq_map, List.map_cons, List.map_map, List.sum_cons,
      List.sum_cons, List.getD_cons_zero, ← ih]
    rfl

variable {horizon}

theorem visibleWeight_cons (unit : Unit κ) (idx : Nat) (rest : List Nat) :
    horizon.visibleWeight unit (idx :: rest) =
      (if horizon.canSee unit idx = some true then horizon.weights.getD idx 0 else 0) +
        horizon.visibleWeight unit rest := by
  unfold visibleWeight
  by_cases seen : horizon.canSee unit idx = some true
  · rw [List.filter_cons_of_pos (Pruning.accepts_eq_true.mpr seen), List.map_cons, List.sum_cons,
      if_pos seen]
  · rw [List.filter_cons_of_neg (fun accepted => seen (Pruning.accepts_eq_true.mp accepted)),
      if_neg seen, Nat.zero_add]

theorem visibleWeight_mono (unit : Unit κ) {small large : List Nat} (within : small.Subperm large) :
    horizon.visibleWeight unit small ≤ horizon.visibleWeight unit large :=
  sum_map_le_of_subperm _ (within.filter _)

theorem visibleWeight_le_sum (unit : Unit κ) {committee : List Nat} (distinct : committee.Nodup)
    (inRange : ∀ idx ∈ committee, idx < horizon.weights.length) :
    horizon.visibleWeight unit committee ≤ horizon.weights.sum := by
  have within : committee.Subperm (List.range horizon.weights.length) :=
    distinct.subperm fun idx member => List.mem_range.mpr (inRange idx member)
  calc horizon.visibleWeight unit committee
      ≤ (committee.map fun idx => horizon.weights.getD idx 0).sum :=
        sum_map_le_of_subperm _ List.filter_sublist.subperm
    _ ≤ ((List.range horizon.weights.length).map fun idx => horizon.weights.getD idx 0).sum :=
        sum_map_le_of_subperm _ within
    _ = horizon.weights.sum := sum_map_getD_range _

theorem canSee_isSome (wf : horizon.WellFormed) {unit : Unit κ} (readable : horizon.Readable unit)
    {idx : Nat} (inRange : idx < horizon.weights.length) : (horizon.canSee unit idx).isSome := by
  obtain ⟨entry, entryIs⟩ : ∃ entry, horizon.sequenceNumbers[idx]? = some entry :=
    ⟨_, List.getElem?_eq_getElem (wf.sequenceNumbers_length ▸ inRange)⟩
  obtain ⟨observation, observed⟩ : ∃ observation, unit.panorama[idx]? = some observation :=
    ⟨_, List.getElem?_eq_getElem (readable.panorama_length ▸ inRange)⟩
  unfold canSee
  rw [entryIs]
  simp only [Option.bind_eq_bind, Option.bind_some]
  cases entry with
  | none => rfl
  | some selfSn =>
    dsimp only
    split_ifs
    · rfl
    · rw [observed, Option.bind_some]
      cases observation with
      | none => rfl
      | faulty => rfl
      | correct vhash =>
        -- the unit it cites is stored
        obtain ⟨seen, stored⟩ := Option.isSome_iff_exists.mp
          (readable.cited_stored vhash (List.mem_of_getElem? observed))
        simp only [Observation.correct?, stored, Option.bind_some]
        rfl

/-- The loop of `seen_weight` adds the visible weight to the running total, modulo `2 ^ 64`.
By induction on the committee. -/
theorem seenWeightFrom_eq (wf : horizon.WellFormed) {unit : Unit κ} (readable : horizon.Readable unit) :
    ∀ {committee : List Nat} {total : Nat}, total < 2 ^ 64 →
      (∀ idx ∈ committee, idx < horizon.weights.length) →
        horizon.seenWeightFrom unit total committee =
          some ((total + horizon.visibleWeight unit committee) % 2 ^ 64) := by
  intro committee
  induction committee with
  | nil =>
    intro total bounded _
    rw [seenWeightFrom, visibleWeight, List.filter_nil, List.map_nil, List.sum_nil, Nat.add_zero,
      Nat.mod_eq_of_lt bounded]
  | cons idx rest ih =>
    intro total bounded inRange
    have here := inRange idx List.mem_cons_self
    have later : ∀ i ∈ rest, i < horizon.weights.length :=
      fun i member => inRange i (List.mem_cons_of_mem _ member)
    obtain ⟨seen, answered⟩ := Option.isSome_iff_exists.mp (canSee_isSome wf readable here)
    have weighed : horizon.weight idx = some (horizon.weights.getD idx 0) := by
      rw [weight, List.getD_eq_getElem?_getD, List.getElem?_eq_getElem here]
      rfl
    rw [visibleWeight_cons, answered]
    simp only [seenWeightFrom, answered, Option.bind_eq_bind, Option.bind_some]
    cases seen with
    | true =>
      simp only [if_true, weighed, Option.bind_some, ih (Nat.mod_lt _ (by decide)) later]
      rw [Nat.mod_add_mod, Nat.add_assoc]
    | false =>
      simp only [Bool.false_eq_true, if_false, ih bounded later, Option.some.injEq]
      rw [Nat.zero_add]

theorem seenWeight_eq (wf : horizon.WellFormed) {unit : Unit κ} (readable : horizon.Readable unit)
    {committee : List Nat} (distinct : committee.Nodup)
    (inRange : ∀ idx ∈ committee, idx < horizon.weights.length) :
    horizon.seenWeight unit committee = some (horizon.visibleWeight unit committee) := by
  have fits := Nat.lt_of_le_of_lt (visibleWeight_le_sum unit distinct inRange) wf.total_fits
  rw [seenWeight, seenWeightFrom_eq wf readable (by decide) inRange, Nat.zero_add, Nat.mod_eq_of_lt fits]

theorem nodup_of_subperm {l₁ l₂ : List Nat} (within : l₁.Subperm l₂) (distinct : l₂.Nodup) : l₁.Nodup := by
  obtain ⟨l, perm, sub⟩ := within
  exact perm.nodup_iff.mp (sub.nodup distinct)

/-- Against a committee of validators with latest units and none twice, `sees_quorum` answers for
every validator with a latest unit, and answers whether it sees a quorum. -/
theorem seesQuorum_spec (wf : horizon.WellFormed) (quorum : Nat) {committee : List Nat}
    (distinct : committee.Nodup) (members : ∀ idx ∈ committee, horizon.HasLatest idx) {idx : Nat}
    (latest : ∃ hash, horizon.latest[idx]? = some (some hash)) :
    ∃ answer, horizon.seesQuorum quorum committee idx = some answer ∧
      (answer = true ↔ horizon.SeesQuorum quorum committee idx) := by
  obtain ⟨hash, latestIs⟩ := latest
  obtain ⟨unit, stored, readable⟩ := wf.latest_readable idx hash latestIs
  have weighed := seenWeight_eq wf readable distinct fun i member => (members i member).1
  refine ⟨decide (quorum ≤ horizon.visibleWeight unit committee), ?_, ?_⟩
  · simp only [seesQuorum, latestIs, Option.join_some, stored, weighed, Option.bind_eq_bind,
      Option.bind_some]
    rfl
  · rw [decide_eq_true_iff]
    constructor
    · intro enough
      exact ⟨hash, unit, latestIs, stored, enough⟩
    · rintro ⟨hash', unit', latestIs', stored', enough⟩
      rw [latestIs, Option.some.injEq, Option.some.injEq] at latestIs'
      subst latestIs'
      rw [stored, Option.some.injEq] at stored'
      subst stored'
      exact enough

end Horizon

open Horizon

/-- `prune_committee` computes the greatest fixpoint. Past the committee's length in rounds it
returns; what it keeps is a sub-committee each of whose members' latest unit sees members of it
of weight at least the quorum; every duplicate-free sub-committee with that property is kept;
and the pruned validators are the others. -/
theorem prune_committee_is_greatest_fixpoint (horizon : Horizon κ) (wf : horizon.WellFormed)
    (quorum : Nat) {committee : List Nat} (distinct : committee.Nodup)
    (members : ∀ idx ∈ committee, horizon.HasLatest idx) :
    ∃ least, ∀ fuel, least ≤ fuel → ∃ kept pruned,
      horizon.pruneCommittee fuel quorum committee = some (kept, pruned) ∧
      kept.Sublist committee ∧ (∀ idx ∈ kept, horizon.SeesQuorum quorum kept idx) ∧
      (∀ supported : List Nat, supported.Nodup → (∀ idx ∈ supported, idx ∈ committee) →
        (∀ idx ∈ supported, horizon.SeesQuorum quorum supported idx) → ∀ idx ∈ supported, idx ∈ kept) ∧
      ∀ idx, idx ∈ pruned ↔ idx ∈ committee ∧ idx ∉ kept := by
  -- on every sub-multiset of the committee `sees_quorum` answers, and answers `SeesQuorum`
  have answers : ∀ sub : List Nat, sub.Subperm committee → ∀ idx ∈ sub, ∃ answer,
      horizon.seesQuorum quorum sub idx = some answer ∧
        (answer = true ↔ horizon.SeesQuorum quorum sub idx) := by
    intro sub within idx member
    have subMembers : ∀ i ∈ sub, horizon.HasLatest i := fun i m => members i (within.subset m)
    exact seesQuorum_spec wf quorum (nodup_of_subperm within distinct) subMembers (subMembers idx member).2
  have passes : ∀ sub : List Nat, sub.Subperm committee → ∀ idx ∈ sub,
      (horizon.seesQuorum quorum sub idx = some true ↔ horizon.SeesQuorum quorum sub idx) := by
    intro sub within idx member
    obtain ⟨answer, computed, meaning⟩ := answers sub within idx member
    rw [computed, Option.some.injEq]
    exact meaning
  have total : ∀ sub : List Nat, sub.Sublist committee → ∀ idx ∈ sub,
      (horizon.seesQuorum quorum sub idx).isSome := by
    intro sub inside idx member
    obtain ⟨answer, computed, _⟩ := answers sub inside.subperm idx member
    rw [computed]
    rfl
  -- a larger committee only adds visible weight
  have monotone : ∀ small large idx, large.Sublist committee → small.Subperm large → idx ∈ small →
      horizon.seesQuorum quorum small idx = some true → horizon.seesQuorum quorum large idx = some true := by
    intro small large idx inside within member seen
    obtain ⟨hash, unit, latestIs, stored, enough⟩ :=
      (passes small (within.trans inside.subperm) idx member).mp seen
    exact (passes large inside.subperm idx (within.subset member)).mpr
      ⟨hash, unit, latestIs, stored, Nat.le_trans enough (visibleWeight_mono unit within)⟩
  refine ⟨committee.length + 1, fun fuel enough => ?_⟩
  have ends : (Pruning.rounds (horizon.seesQuorum quorum) fuel committee []).isSome :=
    Pruning.rounds_isSome total (List.Sublist.refl _) (by omega)
  obtain ⟨⟨kept, pruned⟩, computed⟩ := Option.isSome_iff_exists.mp ends
  obtain ⟨sub, keptPass, prunedIs⟩ := Pruning.rounds_sound computed
  refine ⟨kept, pruned, computed, sub, fun idx member => (passes kept sub.subperm idx member).mp
    (keptPass idx member), ?_, ?_⟩
  · intro supported supportedDistinct inside supports idx member
    have within : supported.Subperm committee := supportedDistinct.subperm inside
    have greatest := Pruning.rounds_greatest monotone (List.Sublist.refl _) computed supported within
      fun x m => (passes supported within x m).mpr (supports x m)
    exact greatest.subset member
  · intro idx
    rw [prunedIs idx]
    simp only [List.not_mem_nil, false_or]

/-- Three validators of weight one: the latest units of `0` and `1` cite each other, that of `2`
cites nobody. -/
def threeValidators : Horizon Nat where
  sequenceNumbers := [some 0, some 0, some 0]
  latest := [some 0, some 1, some 2]
  units := fun hash => match hash with
    | 0 => some { panorama := [.none, .correct 1, .none], seqNumber := 0, creator := 0, skipIdx := [] }
    | 1 => some { panorama := [.correct 0, .none, .none], seqNumber := 0, creator := 1, skipIdx := [] }
    | 2 => some { panorama := [.none, .none, .none], seqNumber := 0, creator := 2, skipIdx := [] }
    | _ => none
  weights := [1, 1, 1]

example : threeValidators.pruneCommittee 4 2 [0, 1, 2] = some ([0, 1], [2]) := by decide

theorem threeValidators_wellFormed : threeValidators.WellFormed where
  sequenceNumbers_length := rfl
  latest_readable := by
    intro idx hash latestIs
    -- the latest units are the hashes `0`, `1` and `2`, and cite stored units only
    rcases idx with _ | _ | _ | idx <;> simp [threeValidators] at latestIs <;> subst latestIs <;>
      refine ⟨_, rfl, rfl, fun cited member => ?_⟩ <;> simp at member <;> subst member <;> rfl
  total_fits := by decide

/-- Of the three, the two that cite each other see a quorum of two and are kept. -/
theorem prune_committee_keeps_mutual_citations :
    ∃ least, ∀ fuel, least ≤ fuel → ∃ kept pruned,
      threeValidators.pruneCommittee fuel 2 [0, 1, 2] = some (kept, pruned) ∧ 0 ∈ kept ∧ 1 ∈ kept := by
  have members : ∀ idx ∈ [0, 1, 2], threeValidators.HasLatest idx := by
    intro idx member
    simp only [List.mem_cons, List.not_mem_nil, or_false] at member
    rcases member with rfl | rfl | rfl <;> exact ⟨by decide, _, rfl⟩
  obtain ⟨least, settles⟩ := prune_committee_is_greatest_fixpoint threeValidators
    threeValidators_wellFormed 2 (by decide) members
  have pair : ∀ idx ∈ [0, 1], threeValidators.SeesQuorum 2 [0, 1] idx := by
    intro idx member
    simp only [List.mem_cons, List.not_mem_nil, or_false] at member
    rcases member with rfl | rfl
    · exact ⟨0, _, rfl, rfl, by decide⟩
    · exact ⟨1, _, rfl, rfl, by decide⟩
  refine ⟨least, fun fuel enough => ?_⟩
  obtain ⟨kept, pruned, computed, -, -, greatest, -⟩ := settles fuel enough
  exact ⟨kept, pruned, computed, greatest [0, 1] (by decide) (by decide) pair 0 (by decide),
    greatest [0, 1] (by decide) (by decide) pair 1 (by decide)⟩

end FinalityDetector
