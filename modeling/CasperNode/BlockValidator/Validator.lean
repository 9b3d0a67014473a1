import Mathlib
import CasperNode.BlockValidator.State
import CasperNode.Lib.AssocList

/-!
The `BlockValidator` component (`node/src/components/block_validator.rs`):
one validation state per proposed block, updated by validation requests and
deploy fetch results. Effects are the responses sent and the fetches started.
A fetched deploy is what the handler reads of it: its deploy-or-transfer hash
and the result of `footprint()`.
-/
namespace BlockValidation
open NodeTypes

inductive Effect (ν η χ ρ : Type) where
  | respond (responder : ρ) (isValid : Bool)
  | fetch (holder : ν) (dtHash : DeployOrTransferHash η) (approvalsHash : χ)
  deriving DecidableEq, Repr

structure FetchedDeploy (η : Type) where
  deployOrTransferHash : DeployOrTransferHash η
  footprint : Option (DeployFootprint η)
  deriving DecidableEq

inductive FetchedData (ν η : Type) where
  | fromStorage (item : FetchedDeploy η)
  | fromPeer (item : FetchedDeploy η) (peer : ν)

def FetchedData.item : FetchedData ν η → FetchedDeploy η
  | .fromStorage item => item
  | .fromPeer item _ => item

inductive FetchError (ν : Type) where
  | absent (peer : ν)
  | rejected (peer : ν)
  | timedOut (peer : ν)
  | couldNotConstructGetRequest (peer : ν)
  | validationMetadataMismatch (peer : ν)

inductive Event (ν η α β ρ : Type) where
  | request (block : ProposedBlock η α β) (sender : ν) (responder : ρ)
  | deployFetched (dtHash : DeployOrTransferHash η)
      (result : Except (FetchError ν) (FetchedData ν η))

structure BlockValidator (ν η α β χ ρ : Type) where
  deployConfig : DeployConfig
  maxCompletedEntries : UInt32
  validationStates : List (ProposedBlock η α β × BlockValidationState ν η α χ ρ)

section Handling
variable {ν η α β χ ρ : Type} [DecidableEq ν] [DecidableEq η] [DecidableEq α] [DecidableEq β]

def fetchDeploys (holder : ν) (missingDeploys : List (DeployOrTransferHash η × χ)) :
    List (Effect ν η χ ρ) :=
  missingDeploys.map fun entry => .fetch holder entry.1 entry.2

def respond (isValid : Bool) (responders : List ρ) : List (Effect ν η χ ρ) :=
  responders.map fun responder => .respond responder isValid

def BlockValidationState.isValid : BlockValidationState ν η α χ ρ → Bool
  | .valid _ => true
  | _ => false

/-- The body of `try_handle_as_existing_request` on the stored state. -/
def handleExistingRequest (state : BlockValidationState ν η α χ ρ) (sender : ν) (responder : ρ) :
    BlockValidationState ν η α χ ρ × List (Effect ν η χ ρ) :=
  match state.addResponder responder with
  | (state, .validationCompleted responder responseToSend) =>
    (state, [.respond responder responseToSend])
  | (state, .added) =>
    match (state.addHolder sender).startFetching with
    | (state, .start holder missingDeploys) => (state, fetchDeploys holder missingDeploys)
    | (state, .unable) => ((state.takeResponders).1, respond false (state.takeResponders).2)
    | (state, _) => (state, [])

def BlockValidator.tryHandleAsExistingRequest (validator : BlockValidator ν η α β χ ρ)
    (block : ProposedBlock η α β) (sender : ν) (responder : ρ) :
    Option (BlockValidator ν η α β χ ρ × List (Effect ν η χ ρ)) :=
  match validator.validationStates.lookup block with
  | none => none
  | some state =>
    let handled := handleExistingRequest state sender responder
    some ({ validator with
      validationStates := AssocList.setValue block handled.1 validator.validationStates },
      handled.2)

/-- One pass of the `retain` in `purge_oldest_complete`: drop, in iteration
order, each completed state whose timestamp is the oldest one left, until at
most `maxCompletedEntries` timestamps remain. -/
def purgePass (maxCompletedEntries : Nat) :
    List (ProposedBlock η α β × BlockValidationState ν η α χ ρ) → List Nat →
      List (ProposedBlock η α β × BlockValidationState ν η α χ ρ) × List Nat
  | [], completedTimes => ([], completedTimes)
  | entry :: rest, completedTimes =>
    if completedTimes.length ≤ maxCompletedEntries then (entry :: rest, completedTimes)
    else if entry.2.blockTimestampIfCompleted = completedTimes.getLast? then
      purgePass maxCompletedEntries rest completedTimes.dropLast
    else
      let kept := purgePass maxCompletedEntries rest completedTimes
      (entry :: kept.1, kept.2)

/-- The `while` loop of `purge_oldest_complete`, run for at most `fuel`
passes. Each pass removes the state the oldest timestamp came from, so as many
passes as there are timestamps always suffice. -/
def purgeLoop (maxCompletedEntries : Nat) :
    Nat → List (ProposedBlock η α β × BlockValidationState ν η α χ ρ) → List Nat →
      List (ProposedBlock η α β × BlockValidationState ν η α χ ρ)
  | 0, states, _ => states
  | fuel + 1, states, completedTimes =>
    if completedTimes.length > maxCompletedEntries then
      let pass := purgePass maxCompletedEntries states completedTimes
      purgeLoop maxCompletedEntries fuel pass.1 pass.2
    else states

def purgeOldestComplete (maxCompletedEntries : Nat)
    (states : List (ProposedBlock η α β × BlockValidationState ν η α χ ρ)) :
    List (ProposedBlock η α β × BlockValidationState ν η α χ ρ) :=
  -- sorted from newest (highest timestamp) to oldest
  let completedTimes :=
    (states.filterMap (·.2.blockTimestampIfCompleted)).insertionSort fun lhs rhs => rhs ≤ lhs
  purgeLoop maxCompletedEntries completedTimes.length states completedTimes

def BlockValidator.handleNewRequest (computeApprovalsHash : Finset α → Option χ)
    (validator : BlockValidator ν η α β χ ρ) (block : ProposedBlock η α β) (sender : ν)
    (responder : ρ) : BlockValidator ν η α β χ ρ × List (Effect ν η χ ρ) :=
  let created := BlockValidationState.new validator.deployConfig computeApprovalsHash block sender responder
  let started : BlockValidationState ν η α χ ρ × List (Effect ν η χ ρ) :=
    match created.1.startFetching with
    | (state, .start holder missingDeploys) => (state, fetchDeploys holder missingDeploys)
    | (state, .validationSucceeded) => (state, respond true created.2.toList)
    | (state, .validationFailed) => (state, respond false created.2.toList)
    -- never returned for a new state
    | (state, .ongoing) | (state, .unable) =>
      ((state.takeResponders).1, respond false (state.takeResponders).2)
  ({ validator with
    validationStates := purgeOldestComplete validator.maxCompletedEntries.toNat
      (validator.validationStates ++ [(block, started.1)]) }, started.2)

/-- A hard failure: every state still missing `dtHash` is completed by
`try_mark_invalid` and its responders are answered `false`. -/
def BlockValidator.markInvalid (validator : BlockValidator ν η α β χ ρ)
    (dtHash : DeployOrTransferHash η) : BlockValidator ν η α β χ ρ × List (Effect ν η χ ρ) :=
  let marked := AssocList.mapValues (·.tryMarkInvalid dtHash) validator.validationStates
  ({ validator with validationStates := marked.1 }, respond false marked.2)

def addFootprint (dtHash : DeployOrTransferHash η) (footprint : DeployFootprint η)
    (state : BlockValidationState ν η α χ ρ) : BlockValidationState ν η α χ ρ × List (Effect ν η χ ρ) :=
  let added := state.tryAddDeployFootprint dtHash footprint
  if added.2.isEmpty then (added.1, []) else (added.1, respond added.1.isValid added.2)

/-- A soft failure of `peer`: mark it failed and try the next holder. -/
def retryFetching (peer : ν) (state : BlockValidationState ν η α χ ρ) :
    BlockValidationState ν η α χ ρ × List (Effect ν η χ ρ) :=
  match (state.tryMarkHolderFailed peer).startFetching with
  | (state, .start holder missingDeploys) => (state, fetchDeploys holder missingDeploys)
  | (state, .unable) => ((state.takeResponders).1, respond false (state.takeResponders).2)
  | (state, _) => (state, [])

def BlockValidator.updateStates (validator : BlockValidator ν η α β χ ρ)
    (f : BlockValidationState ν η α χ ρ → BlockValidationState ν η α χ ρ × List (Effect ν η χ ρ)) :
    BlockValidator ν η α β χ ρ × List (Effect ν η χ ρ) :=
  let updated := AssocList.mapValues f validator.validationStates
  ({ validator with validationStates := updated.1 }, updated.2)

def BlockValidator.handleDeployFetched (validator : BlockValidator ν η α β χ ρ)
    (dtHash : DeployOrTransferHash η) (result : Except (FetchError ν) (FetchedData ν η)) :
    BlockValidator ν η α β χ ρ × List (Effect ν η χ ρ) :=
  match result with
  | .ok data =>
    if data.item.deployOrTransferHash ≠ dtHash then validator.markInvalid dtHash
    else
      match data.item.footprint with
      | none => validator.markInvalid dtHash
      | some footprint => validator.updateStates (addFootprint dtHash footprint)
  | .error (.absent peer) | .error (.rejected peer) | .error (.timedOut peer) =>
    validator.updateStates (retryFetching peer)
  | .error (.couldNotConstructGetRequest _) | .error (.validationMetadataMismatch _) =>
    validator.markInvalid dtHash

def BlockValidator.handleEvent (computeApprovalsHash : Finset α → Option χ)
    (validator : BlockValidator ν η α β χ ρ) :
    Event ν η α β ρ → BlockValidator ν η α β χ ρ × List (Effect ν η χ ρ)
  | .request block sender responder =>
    match validator.tryHandleAsExistingRequest block sender responder with
    | some handled => handled
    | none => validator.handleNewRequest computeApprovalsHash block sender responder
  | .deployFetched dtHash result => validator.handleDeployFetched dtHash result

def BlockValidator.run (computeApprovalsHash : Finset α → Option χ) :
    BlockValidator ν η α β χ ρ → List (Event ν η α β ρ) →
      BlockValidator ν η α β χ ρ × List (Effect ν η χ ρ)
  | validator, [] => (validator, [])
  | validator, event :: rest =>
    let handled := validator.handleEvent computeApprovalsHash event
    let after := handled.1.run computeApprovalsHash rest
    (after.1, handled.2 ++ after.2)

/-- The fetch results `handle_deploy_fetched` treats as hard failures. -/
def isHardFailure (dtHash : DeployOrTransferHash η) :
    Except (FetchError ν) (FetchedData ν η) → Bool
  | .ok data => data.item.deployOrTransferHash ≠ dtHash || data.item.footprint.isNone
  | .error (.couldNotConstructGetRequest _) | .error (.validationMetadataMismatch _) => true
  | .error _ => false

omit [DecidableEq α] [DecidableEq β] in
theorem handleDeployFetched_of_isHardFailure (validator : BlockValidator ν η α β χ ρ)
    {dtHash : DeployOrTransferHash η} {result : Except (FetchError ν) (FetchedData ν η)}
    (hard : isHardFailure dtHash result = true) :
    validator.handleDeployFetched dtHash result = validator.markInvalid dtHash := by
  cases result with
  | error failure => cases failure <;> simp_all [isHardFailure, BlockValidator.handleDeployFetched]
  | ok data =>
    unfold BlockValidator.handleDeployFetched
    by_cases wrongHash : data.item.deployOrTransferHash = dtHash
    · have noFootprint : data.item.footprint = none := by
        simpa [isHardFailure, wrongHash] using hard
      simp [wrongHash, noFootprint]
    · simp [wrongHash]

omit [DecidableEq ν] in
theorem lookup_markInvalid (validator : BlockValidator ν η α β χ ρ)
    (dtHash : DeployOrTransferHash η) (block : ProposedBlock η α β) :
    (validator.markInvalid dtHash).1.validationStates.lookup block =
      (validator.validationStates.lookup block).map fun state => (state.tryMarkInvalid dtHash).1 :=
  AssocList.lookup_mapValues _ block _

omit [DecidableEq ν] [DecidableEq α] [DecidableEq β] in
theorem tryMarkInvalid_of_missing {block : AppendableBlock η α}
    {missing : List (DeployOrTransferHash η × ApprovalInfo α χ)} {holders : List (ν × HolderState)}
    {responders : List ρ} {dtHash : DeployOrTransferHash η}
    (listed : missing.any (·.1 = dtHash) = true) :
    (BlockValidationState.inProgress block missing holders responders).tryMarkInvalid dtHash =
      (.valid block.timestamp, responders) := by
  simp [BlockValidationState.tryMarkInvalid, listed]

theorem handleEvent_request_of_valid (computeApprovalsHash : Finset α → Option χ)
    (validator : BlockValidator ν η α β χ ρ) {block : ProposedBlock η α β} {timestamp : Nat}
    (stored : validator.validationStates.lookup block = some (.valid timestamp))
    (sender : ν) (responder : ρ) :
    (validator.handleEvent computeApprovalsHash (.request block sender responder)).2 =
      [.respond responder true] := by
  simp [BlockValidator.handleEvent, BlockValidator.tryHandleAsExistingRequest, stored,
    handleExistingRequest, BlockValidationState.addResponder]

/-- After a hard failure for one of its missing hashes, a block still being
validated answers every later request `true`: `try_mark_invalid` leaves it
`Valid`. -/
theorem request_after_hard_failure_answered_true (computeApprovalsHash : Finset α → Option χ)
    (validator : BlockValidator ν η α β χ ρ) {dtHash : DeployOrTransferHash η}
    {result : Except (FetchError ν) (FetchedData ν η)} (hard : isHardFailure dtHash result = true)
    {block : ProposedBlock η α β} {appendableBlock : AppendableBlock η α}
    {missing : List (DeployOrTransferHash η × ApprovalInfo α χ)} {holders : List (ν × HolderState)}
    {responders : List ρ}
    (tracked : validator.validationStates.lookup block =
      some (.inProgress appendableBlock missing holders responders))
    (listed : missing.any (·.1 = dtHash) = true) (sender : ν) (responder : ρ) :
    ((validator.handleEvent computeApprovalsHash (.deployFetched dtHash result)).1.handleEvent
      computeApprovalsHash (.request block sender responder)).2 = [.respond responder true] := by
  have failed : validator.handleEvent computeApprovalsHash (.deployFetched dtHash result) =
      validator.markInvalid dtHash :=
    handleDeployFetched_of_isHardFailure validator hard
  have nowValid : (validator.markInvalid dtHash).1.validationStates.lookup block =
      some (.valid appendableBlock.timestamp) := by
    rw [lookup_markInvalid, tracked, Option.map_some, tryMarkInvalid_of_missing listed]
  rw [failed]
  exact handleEvent_request_of_valid computeApprovalsHash _ nowValid sender responder

end Handling

/-- A block with the single deploy `1`, whose fetch returns an item with the
hash of deploy `2`: the first requester is answered `false`, and a second
request for the same block `true`. -/
theorem wrong_hash_fetch_then_request_answered_true :
    (BlockValidator.run (fun _ => some ())
        (⟨⟨86400000, 10, 4194304, 100, 100, 200, 10000000000⟩, 3, []⟩ :
          BlockValidator Nat Nat Nat Unit Unit Nat)
        [.request ⟨100, [⟨1, {7}⟩], [], ()⟩ 0 10,
          .deployFetched (.deploy 1)
            (.ok (.fromPeer ⟨.deploy 2, some ⟨⟨100, 1000, []⟩, 1, 1, false⟩⟩ 0)),
          .request ⟨100, [⟨1, {7}⟩], [], ()⟩ 0 11]).2 =
      [.fetch 0 (.deploy 1) (), .respond 10 false, .respond 11 true] := by
  simp only [BlockValidator.run, List.append_nil]
  set requested := BlockValidator.handleEvent (fun _ => some ())
    (⟨⟨86400000, 10, 4194304, 100, 100, 200, 10000000000⟩, 3, []⟩ :
      BlockValidator Nat Nat Nat Unit Unit Nat) (.request ⟨100, [⟨1, {7}⟩], [], ()⟩ 0 10)
    with requestedEq
  -- the first request leaves the block waiting for deploy `1`, asked of the sender
  have tracked : requested.1.validationStates.lookup ⟨100, [⟨1, {7}⟩], [], ()⟩ =
      some (.inProgress (AppendableBlock.new ⟨86400000, 10, 4194304, 100, 100, 200, 10000000000⟩ 100)
        [(.deploy 1, ⟨{7}, ()⟩)] [(0, .asked)] [10]) := by
    rw [requestedEq]
    decide
  rw [request_after_hard_failure_answered_true _ _ (by decide) tracked (by decide), requestedEq]
  decide

end BlockValidation
