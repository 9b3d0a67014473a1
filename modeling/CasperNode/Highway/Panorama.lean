import CasperNode.Lib.SkipList
import CasperNode.Lib.StackSearch
import CasperNode.Lib.AssocList

/-!
The unit DAG of the Highway protocol state (`highway_core/state.rs`, `state/panorama.rs`,
`state/unit.rs`). A unit cites in its panorama the latest unit of every validator it has seen,
or that validator as faulty; the state keeps the units by hash, the faults, and a panorama of
its own. A unit keeps its panorama, sequence number, creator and skip index here: its block,
timestamp, round length, signature and endorsements are read by nothing modelled.

The hash maps are a partial function (the units) and an association list (the faults),
validator indices and sequence numbers are natural numbers, and `none` is a panic. Fuel bounds
`find_in_swimlane` and the search of `Panorama::sees`. `Highway.SkipIndex` models the skip lists
of the same state with its blocks; this module adds the panoramas.
-/

namespace HighwayCore

open SkipList

variable {κ : Type}

/-- `Observation`: what a panorama records of one validator. -/
inductive Observation (κ : Type) where
  | none
  | correct (hash : κ)
  | faulty
  deriving DecidableEq, Repr

namespace Observation

/-- `correct()`: the hash of a correct observation. -/
def correct? : Observation κ → Option κ
  | .correct hash => some hash
  | _ => Option.none

def isCorrect : Observation κ → Bool
  | .correct _ => true
  | _ => false

def isFaulty : Observation κ → Bool
  | .faulty => true
  | _ => false

end Observation

/-- `Panorama`, a `ValidatorMap` of observations: one per validator, by index. -/
abbrev Panorama (κ : Type) := List (Observation κ)

structure Unit (κ : Type) where
  panorama : Panorama κ
  seqNumber : Nat
  creator : Nat
  skipIdx : List κ
  deriving DecidableEq, Repr

/-- `Unit::previous`, the creator's previous unit. -/
def Unit.previous (unit : Unit κ) : Option κ := unit.skipIdx.head?

/-- What validation and `add_valid_unit` read of a `WireUnit`; `value` says whether it
carries a consensus value. -/
structure WireUnit (κ : Type) where
  panorama : Panorama κ
  creator : Nat
  value : Bool
  seqNumber : Nat
  deriving DecidableEq, Repr

/-- `Evidence`, by what `perpetrator` reads of it. -/
inductive Evidence where
  | equivocation (perpetrator : Nat)
  | endorsements (perpetrator : Nat)
  deriving DecidableEq, Repr

def Evidence.perpetrator : Evidence → Nat
  | .equivocation perpetrator => perpetrator
  | .endorsements perpetrator => perpetrator

def Evidence.isEndorsements : Evidence → Bool
  | .endorsements _ => true
  | .equivocation _ => false

inductive Fault where
  | banned
  | direct (evidence : Evidence)
  | indirect
  deriving DecidableEq, Repr

/-- The `UnitError`s of the checks modelled here. -/
inductive UnitError where
  | missingBlock
  | panoramaLength (length : Nat)
  | faultyCreator
  | panoramaIndex (creator idx : Nat)
  | inconsistentPanorama (idx : Nat)
  | sequenceNumber
  | creator
  | banned
  deriving DecidableEq, Repr

/-- `Dependency`: what a panorama needs before its unit can be added. -/
inductive Dependency (κ : Type) where
  | unit (hash : κ)
  | evidence (idx : Nat)
  deriving DecidableEq, Repr

/-- `TODO_ENDORSEMENT_EVIDENCE_DISABLED` of `state.rs`. -/
def todoEndorsementEvidenceDisabled : Bool := true

/-- `ENABLE_ENDORSEMENTS` of `highway_core.rs`. -/
def enableEndorsements : Bool := false

structure State (κ : Type) where
  /-- `validator_count()`, the number of weights. -/
  validatorCount : Nat
  units : κ → Option (Unit κ)
  faults : List (Nat × Fault)
  panorama : Panorama κ

namespace State

variable (state : State κ)

/-- `unit`: `none` is the panic on a missing hash. -/
def unit (hash : κ) : Option (Unit κ) := state.units hash

def hasUnit (hash : κ) : Bool := (state.units hash).isSome

def isFaulty (idx : Nat) : Bool := (state.faults.lookup idx).isSome

/-- `faulty_validators`, the keys of `faults`. -/
def faultyValidators : List Nat := state.faults.map Prod.fst

/-- `find_in_swimlane`: the skip-list search of the creator's units, with fuel. -/
def findInSwimlane (fuel : Nat) (hash : κ) (seqNumber : Nat) : Option (Option κ) :=
  find state.units Unit.seqNumber Unit.skipIdx fuel hash seqNumber

end State

namespace Panorama

/-- `Panorama::new`. -/
def new (numValidators : Nat) : Panorama κ := List.replicate numValidators .none

def hasCorrect (pan : Panorama κ) : Bool := pan.any Observation.isCorrect

def iterCorrectHashes (pan : Panorama κ) : List κ := pan.filterMap Observation.correct?

def iterFaulty (pan : Panorama κ) : List Nat :=
  pan.zipIdx.filterMap fun entry => if entry.1.isFaulty then some entry.2 else Option.none

/-- `next_seq_num`: one past the sequence number of the validator's latest unit, or `0`. -/
def nextSeqNum (pan : Panorama κ) (state : State κ) (vidx : Nat) : Option Nat := do
  let observation ← pan[vidx]?
  match observation.correct? with
  | Option.none => pure 0
  | some hash => do
    let unit ← state.unit hash
    pure (unit.seqNumber + 1)

/-- `sees_correct`: the panorama sees the creator of `hash` as correct, and sees that unit in
its swimlane. -/
def seesCorrect [DecidableEq κ] (fuel : Nat) (pan : Panorama κ) (state : State κ) (hash : κ) : Option Bool := do
  let unit ← state.unit hash
  match (pan[unit.creator]?).bind Observation.correct? with
  | Option.none => pure false
  | some latestHash => do
    let found ← state.findInSwimlane fuel latestHash unit.seqNumber
    pure (found == some hash)

end Panorama

section Panoramas

variable [DecidableEq κ]

/-- `Observation::geq`: `self` can come later in time than `other`. -/
def Observation.geq (fuel : Nat) (state : State κ) : Observation κ → Observation κ → Option Bool
  | .faulty, _ => some true
  | _, .none => some true
  | .correct hash0, .correct hash1 =>
    if hash0 = hash1 then some true
    else do
      let unit ← state.unit hash0
      unit.panorama.seesCorrect fuel state hash1
  | _, _ => some false

/-- The pairs of `Panorama::geq` in order: `all` stops at the first one that fails. -/
def geqPairs (fuel : Nat) (state : State κ) : List (Observation κ × Observation κ) → Option Bool
  | [] => some true
  | (observation, other) :: rest => do
    if ← observation.geq fuel state other then geqPairs fuel state rest else pure false

/-- `Panorama::geq`, over the zip of the two panoramas. -/
def Panorama.geq (fuel : Nat) (pan : Panorama κ) (state : State κ) (other : Panorama κ) : Option Bool :=
  geqPairs fuel state (pan.zip other)

/-- The loop of `Panorama::validate` over the entries from `entries` on. -/
def Panorama.validateFrom (fuel : Nat) (pan : Panorama κ) (state : State κ) :
    List (Observation κ × Nat) → Option (Except UnitError PUnit.{1})
  | [] => some (.ok ⟨⟩)
  | (observation, idx) :: rest =>
    match observation.correct? with
    | Option.none => validateFrom fuel pan state rest
    | some hash => do
      let unit ← state.unit hash
      if unit.creator ≠ idx then pure (.error (.panoramaIndex unit.creator idx))
      else if ← pan.geq fuel state unit.panorama then validateFrom fuel pan state rest
      else pure (.error (.inconsistentPanorama idx))

/-- `Panorama::validate`: every correct entry is a unit of its validator, whose panorama this
one can come after. -/
def Panorama.validate (fuel : Nat) (pan : Panorama κ) (state : State κ) : Option (Except UnitError PUnit.{1}) :=
  pan.validateFrom fuel state pan.zipIdx

/-- `Observation::missing_dep`. -/
def Observation.missingDep (state : State κ) : Observation κ × Nat → Option (Dependency κ)
  | (.faulty, idx) => if !state.isFaulty idx then some (.evidence idx) else Option.none
  | (.correct hash, _) => if !state.hasUnit hash then some (.unit hash) else Option.none
  | (.none, _) => Option.none

/-- `missing_dependency`: the first one. -/
def Panorama.missingDependency (pan : Panorama κ) (state : State κ) : Option (Dependency κ) :=
  (pan.zipIdx.filterMap (Observation.missingDep state)).head?

/-- What the search of `sees` pushes from a unit, looking for a unit by `creator`: the whole
panorama if the unit sees the creator as faulty, only the creator's latest unit if it sees it
as correct. -/
def State.seesNext (state : State κ) (creator : Nat) (hash : κ) : Option (List κ) := do
  let unit ← state.unit hash
  let observation ← unit.panorama[creator]?
  match observation with
  | .faulty => pure unit.panorama.iterCorrectHashes
  | .correct prevHash => pure [prevHash]
  | .none => pure []

/-- `Panorama::sees`: the search for `hashToBeFound` from the panorama's correct entries. The
`Vec` of the source pops its last element, the head of the stack here. -/
def Panorama.sees (fuel : Nat) (pan : Panorama κ) (state : State κ) (hashToBeFound : κ) : Option Bool := do
  let unitToBeFound ← state.unit hashToBeFound
  StackSearch.search (state.seesNext unitToBeFound.creator) hashToBeFound fuel [] pan.iterCorrectHashes.reverse

/-- `State::sees_correct`. -/
def State.seesCorrect (fuel : Nat) (state : State κ) (hash0 hash1 : κ) : Option Bool :=
  if hash0 = hash1 then some true
  else do
    let unit0 ← state.unit hash0
    unit0.panorama.seesCorrect fuel state hash1

/-- `State::sees`. -/
def State.sees (fuel : Nat) (state : State κ) (hash0 hash1 : κ) : Option Bool :=
  if hash0 = hash1 then some true
  else do
    let unit0 ← state.unit hash0
    unit0.panorama.sees fuel state hash1

/-- The closure `merge_obs` of `Panorama::merge`. -/
def Panorama.mergeObs (fuel : Nat) (pan : Panorama κ) (state : State κ) (other : Panorama κ) :
    Observation κ × Observation κ → Option (Observation κ)
  | (.faulty, _) | (_, .faulty) => some .faulty
  | (.none, obs) | (obs, .none) => some obs
  | (.correct vh0, .correct vh1) => do
    if ← pan.seesCorrect fuel state vh1 then pure (.correct vh0)
    else if ← other.seesCorrect fuel state vh0 then pure (.correct vh1)
    else pure .faulty

/-- `Panorama::merge`. -/
def Panorama.merge (fuel : Nat) (pan : Panorama κ) (state : State κ) (other : Panorama κ) : Option (Panorama κ) :=
  (pan.zip other).mapM (pan.mergeObs fuel state other)

/-- `inclusive_panorama`: the unit's panorama, with the unit as its creator's latest. -/
def State.inclusivePanorama (state : State κ) (uhash : κ) : Option (Panorama κ) := do
  let unit ← state.unit uhash
  if unit.creator < unit.panorama.length then pure (unit.panorama.set unit.creator (.correct uhash))
  else Option.none

/-- `seen_endorsed`: empty while endorsements are disabled. What it collects past that return
reads the endorsements of units and of the state, which are not modelled. -/
def State.seenEndorsed (_state : State κ) (_pan : Panorama κ) : List κ := []

/-- `validate_lnc`: the first equivocator that the panorama cites naively. It returns `None`
while endorsements are disabled; past that, `satisfies_lnc_for` reads endorsements and is a
parameter here. -/
def State.validateLnc (state : State κ) (satisfiesLncFor : State κ → Nat → Panorama κ → List κ → Nat → Bool)
    (creator : Nat) (pan : Panorama κ) (endorsed : List κ) : Option Nat :=
  if !enableEndorsements then Option.none
  else pan.iterFaulty.find? fun eqIdx => !satisfiesLncFor state creator pan endorsed eqIdx

/-- `valid_panorama`: the panorama is merged with the creator's previous unit if it does not
cite it, and rebuilt from that unit, the faults and the endorsed units if it then breaks the
LNC. -/
def State.validPanorama (fuel : Nat) (state : State κ)
    (satisfiesLncFor : State κ → Nat → Panorama κ → List κ → Nat → Bool) (creator : Nat)
    (pan : Panorama κ) : Option (Panorama κ) := do
  let own ← state.panorama[creator]?
  let maybePrevUhash := own.correct?
  let pan ← match maybePrevUhash with
    | some prevUhash => do
      let current ← pan[creator]?
      if current.correct? ≠ some prevUhash then do
        let previous ← state.inclusivePanorama prevUhash
        pan.merge fuel state previous
      else pure pan
    | Option.none => pure pan
  let endorsed := state.seenEndorsed pan
  if (state.validateLnc satisfiesLncFor creator pan endorsed).isNone then pure pan
  else do
    let pan ← match maybePrevUhash with
      | Option.none => pure (Panorama.new state.validatorCount)
      | some prevUhash => state.inclusivePanorama prevUhash
    let pan ← state.faultyValidators.foldlM (fun pan faultyV =>
      if faultyV < pan.length then some (pan.set faultyV .faulty) else Option.none) pan
    endorsed.foldlM (fun pan endorsedHash => do
      if ← pan.seesCorrect fuel state endorsedHash then pure pan
      else do
        let endorsedPan ← state.inclusivePanorama endorsedHash
        pan.merge fuel state endorsedPan) pan

end Panoramas

/-! ### Transitions -/

/-- `State::new` for the number of weights and the banned validators; `none` is one of its
assertions failing. -/
def State.new (validatorCount : Nat) (banned : List Nat) : Option (State κ) :=
  if validatorCount = 0 then Option.none
  else if banned.all (· < validatorCount) then
    some {
      validatorCount
      units := fun _ => Option.none
      faults := banned.map fun idx => (idx, Fault.banned)
      panorama := banned.foldl (fun pan idx => pan.set idx .faulty) (Panorama.new validatorCount) }
  else Option.none

/-- `mark_faulty`: the entry becomes faulty, and an indirect fault is recorded unless there is
one already. -/
def State.markFaulty (state : State κ) (idx : Nat) : Option (State κ) :=
  if idx < state.panorama.length then
    some { state with
      panorama := state.panorama.set idx .faulty
      faults := if (state.faults.lookup idx).isSome then state.faults else state.faults ++ [(idx, .indirect)] }
  else Option.none

/-- `add_evidence`: evidence of endorsements is dropped while that is disabled, and so is
evidence against a banned validator or one with direct evidence already. -/
def State.addEvidence (state : State κ) (evidence : Evidence) : Option (State κ × Bool) :=
  if todoEndorsementEvidenceDisabled && evidence.isEndorsements then some (state, false)
  else
    match state.faults.lookup evidence.perpetrator with
    | some .banned | some (.direct _) => some (state, false)
    | _ =>
      if evidence.perpetrator < state.panorama.length then
        some ({ state with
          faults := AssocList.insertValue evidence.perpetrator (.direct evidence) state.faults
          panorama := state.panorama.set evidence.perpetrator .faulty }, true)
      else Option.none

/-- The unit `Unit::new` builds: its skip index starts at the creator's entry of the panorama.
`none` is a panic, an index out of range or a missing unit. -/
def Unit.new (state : State κ) (wunit : WireUnit κ) : Option (Unit κ) := do
  let own ← wunit.panorama[wunit.creator]?
  let skipIdx ← match own.correct? with
    | Option.none => some []
    | some hash => extend state.units Unit.skipIdx (trailingZeros wunit.seqNumber) hash
  pure { panorama := wunit.panorama, seqNumber := wunit.seqNumber, creator := wunit.creator, skipIdx }

/-- `pre_validate_unit`, without the check of the round length against the parameters. -/
def State.preValidateUnit (state : State κ) (wunit : WireUnit κ) : Except UnitError PUnit.{1} :=
  if state.validatorCount ≤ wunit.creator then .error .creator
  else if state.faults.lookup wunit.creator = some .banned then .error .banned
  else if !wunit.value && !wunit.panorama.hasCorrect then .error .missingBlock
  else if wunit.panorama.length ≠ state.validatorCount then .error (.panoramaLength wunit.panorama.length)
  else if (wunit.panorama[wunit.creator]?).any Observation.isFaulty then .error .faultyCreator
  else .ok ⟨⟩

section Transitions

variable [DecidableEq κ]

/-- `validate_unit`, for the panorama and the sequence number. Its checks of timestamps, round
lengths, leaders and terminal blocks read what is not modelled, and those of endorsements and
the LNC are disabled; each only refuses more units. -/
def State.validateUnit (fuel : Nat) (state : State κ) (wunit : WireUnit κ) : Option (Except UnitError PUnit.{1}) := do
  let validated ← wunit.panorama.validate fuel state
  match validated with
  | .error e => pure (.error e)
  | .ok _ => do
    let next ← wunit.panorama.nextSeqNum state wunit.creator
    if wunit.seqNumber ≠ next then pure (.error .sequenceNumber) else pure (.ok ⟨⟩)

/-- The creator's new entry of `add_valid_unit`, from the state's entry and the unit's: the unit
if it cites the state's latest unit, `faulty` with evidence of an equivocation if it cites an
older one, and a panic if the state has none. -/
def State.newObservation (fuel : Nat) (state : State κ) (hash : κ) (unit : Unit κ) (obs0 obs1 : Observation κ) :
    Option (State κ × Observation κ) :=
  match obs0 with
  | .faulty => some (state, .faulty)
  | .none => if obs1 = .none then some (state, .correct hash) else Option.none
  | .correct hash0 =>
    if obs1 = .correct hash0 then some (state, .correct hash)
    else do
      -- the unit by the creator with the new unit's number, and the evidence of the fork
      let found ← state.findInSwimlane fuel hash0 unit.seqNumber
      let prev0 ← found
      let unit0 ← state.unit prev0
      let recorded ← state.addEvidence (.equivocation unit0.creator)
      pure (recorded.1, .faulty)

/-- `add_valid_unit`, for the units and the state's panorama; the block, the fork choice and the
pings are not modelled. A hash seen before changes nothing. -/
def State.addValidUnit (fuel : Nat) (state : State κ) (hash : κ) (wunit : WireUnit κ) : Option (State κ) :=
  if state.hasUnit hash then some state
  else do
    let unit ← Unit.new state wunit
    let stored : State κ := { state with units := Function.update state.units hash (some unit) }
    let obs0 ← stored.panorama[unit.creator]?
    let obs1 ← unit.panorama[unit.creator]?
    let updated ← stored.newObservation fuel hash unit obs0 obs1
    if unit.creator < updated.1.panorama.length then
      pure { updated.1 with panorama := updated.1.panorama.set unit.creator updated.2 }
    else Option.none

end Transitions

/-- `retain_evidence_only`: the units go, and so do the correct entries of the panorama. -/
def State.retainEvidenceOnly (state : State κ) : State κ :=
  { state with
    units := fun _ => Option.none
    panorama := state.panorama.map fun obs => if obs.isCorrect then .none else obs }

/-- The states of a run: `State::new`, then units added once the checks of `pre_validate_unit`
and `validate_unit` and the dependencies are satisfied, evidence added, validators marked
faulty, and the reset to the evidence. -/
inductive Reachable [DecidableEq κ] : State κ → Prop
  | new {validatorCount : Nat} {banned : List Nat} {state : State κ}
      (built : State.new validatorCount banned = some state) : Reachable state
  | addValidUnit {state state' : State κ} {fuel : Nat} {hash : κ} {wunit : WireUnit κ}
      (reachable : Reachable state) (preValidated : state.preValidateUnit wunit = .ok ⟨⟩)
      (satisfied : wunit.panorama.missingDependency state = Option.none)
      (validated : state.validateUnit fuel wunit = some (.ok ⟨⟩))
      (added : state.addValidUnit fuel hash wunit = some state') : Reachable state'
  | addEvidence {state state' : State κ} {evidence : Evidence} {added : Bool} (reachable : Reachable state)
      (recorded : state.addEvidence evidence = some (state', added)) : Reachable state'
  | markFaulty {state state' : State κ} {idx : Nat} (reachable : Reachable state)
      (marked : state.markFaulty idx = some state') : Reachable state'
  | retainEvidenceOnly {state : State κ} (reachable : Reachable state) : Reachable state.retainEvidenceOnly

end HighwayCore
