import CasperNode.Types.AppendableBlock

/-!
`BlockValidationState` (`node/src/components/block_validator/state.rs`): the
validation state of one proposed block. Hash maps are lists in iteration
order; a responder is an opaque handle of type `ρ`. `ApprovalsHash::compute`
serializes and hashes a set of approvals and is a parameter.
-/
namespace BlockValidation
open NodeTypes

inductive DeployOrTransferHash (η : Type) where
  | deploy (hash : η)
  | transfer (hash : η)
  deriving DecidableEq, Repr

def DeployOrTransferHash.deployHash : DeployOrTransferHash η → η
  | .deploy hash => hash
  | .transfer hash => hash

/-- A proposed block: its timestamp, its deploys and transfers, and the rest
of its value and context (accusations, random bit, ancestor values), which only
tell blocks apart as keys. -/
structure ProposedBlock (η α β : Type) where
  timestamp : Nat
  deploys : List (DeployHashWithApprovals η α)
  transfers : List (DeployHashWithApprovals η α)
  rest : β
  deriving DecidableEq

inductive HolderState where
  | unasked
  | asked
  | failed
  deriving DecidableEq, Repr

structure ApprovalInfo (α χ : Type) where
  approvals : Finset α
  approvalsHash : χ
  deriving DecidableEq

inductive BlockValidationState (ν η α χ ρ : Type) where
  | inProgress (appendableBlock : AppendableBlock η α)
      (missingDeploys : List (DeployOrTransferHash η × ApprovalInfo α χ))
      (holders : List (ν × HolderState)) (responders : List ρ)
  | valid (timestamp : Nat)
  | invalid (timestamp : Nat)
  deriving DecidableEq

inductive AddResponderResult (ρ : Type) where
  | added
  | validationCompleted (responder : ρ) (responseToSend : Bool)

inductive MaybeStartFetching (ν η χ : Type) where
  | start (holder : ν) (missingDeploys : List (DeployOrTransferHash η × χ))
  | ongoing
  | unable
  | validationSucceeded
  | validationFailed

section Transitions
variable {ν η α χ ρ β : Type} [DecidableEq ν] [DecidableEq η]

/-- The loop of `BlockValidationState::new` over the block's deploys and then
its transfers: `none` when an approvals hash cannot be computed or a hash is
listed twice. -/
def collectMissing (computeApprovalsHash : Finset α → Option χ) :
    List (DeployOrTransferHash η × Finset α) → List (DeployOrTransferHash η × ApprovalInfo α χ) →
      Option (List (DeployOrTransferHash η × ApprovalInfo α χ))
  | [], missing => some missing
  | (dtHash, approvals) :: rest, missing =>
    match computeApprovalsHash approvals with
    | none => none
    | some approvalsHash =>
      if missing.any (·.1 = dtHash) then none
      else collectMissing computeApprovalsHash rest (missing ++ [(dtHash, ⟨approvals, approvalsHash⟩)])

def BlockValidationState.new (config : DeployConfig) (computeApprovalsHash : Finset α → Option χ)
    (block : ProposedBlock η α β) (sender : ν) (responder : ρ) :
    BlockValidationState ν η α χ ρ × Option ρ :=
  if block.deploys.length + block.transfers.length = 0 then (.valid block.timestamp, some responder)
  else if block.deploys.length > config.blockMaxDeployCount.toNat then
    (.invalid block.timestamp, some responder)
  else if block.transfers.length > config.blockMaxTransferCount.toNat then
    (.invalid block.timestamp, some responder)
  else
    match collectMissing computeApprovalsHash
        (block.deploys.map (fun d => (.deploy d.deployHash, d.approvals)) ++
          block.transfers.map (fun d => (.transfer d.deployHash, d.approvals))) [] with
    | none => (.invalid block.timestamp, some responder)
    | some missingDeploys =>
      (.inProgress (AppendableBlock.new config block.timestamp) missingDeploys
        [(sender, .unasked)] [responder], none)

def BlockValidationState.addResponder (state : BlockValidationState ν η α χ ρ) (responder : ρ) :
    BlockValidationState ν η α χ ρ × AddResponderResult ρ :=
  match state with
  | .inProgress block missing holders responders =>
    (.inProgress block missing holders (responders ++ [responder]), .added)
  | .valid t => (.valid t, .validationCompleted responder true)
  | .invalid t => (.invalid t, .validationCompleted responder false)

def BlockValidationState.addHolder (state : BlockValidationState ν η α χ ρ) (holder : ν) :
    BlockValidationState ν η α χ ρ :=
  match state with
  | .inProgress block missing holders responders =>
    if holders.any (·.1 = holder) then state
    else .inProgress block missing (holders ++ [(holder, .unasked)]) responders
  | _ => state

def setHolderState (holders : List (ν × HolderState)) (holder : ν) (holderState : HolderState) :
    List (ν × HolderState) :=
  holders.map fun entry => if entry.1 = holder then (entry.1, holderState) else entry

def BlockValidationState.tryMarkHolderFailed (state : BlockValidationState ν η α χ ρ)
    (holder : ν) : BlockValidationState ν η α χ ρ :=
  match state with
  | .inProgress block missing holders responders =>
    .inProgress block missing (setHolderState holders holder .failed) responders
  | _ => state

/-- The scan of `start_fetching` over the holders: `none` as soon as one is
`Asked`, otherwise the last `Unasked` holder seen, if any. -/
def scanHolders : List (ν × HolderState) → Option ν → Option (Option ν)
  | [], unasked => some unasked
  | (peer, .unasked) :: rest, _ => scanHolders rest (some peer)
  | (_, .asked) :: _, _ => none
  | (_, .failed) :: rest, unasked => scanHolders rest unasked

def BlockValidationState.startFetching (state : BlockValidationState ν η α χ ρ) :
    BlockValidationState ν η α χ ρ × MaybeStartFetching ν η χ :=
  match state with
  | .inProgress block missing holders responders =>
    if missing.isEmpty then (state, .validationFailed)
    else
      match scanHolders holders none with
      | none => (state, .ongoing)
      | some none => (state, .unable)
      | some (some holder) =>
        (.inProgress block missing (setHolderState holders holder .asked) responders,
          .start holder (missing.map fun entry => (entry.1, entry.2.approvalsHash)))
  | .valid _ => (state, .validationSucceeded)
  | .invalid _ => (state, .validationFailed)

def BlockValidationState.takeResponders (state : BlockValidationState ν η α χ ρ) :
    BlockValidationState ν η α χ ρ × List ρ :=
  match state with
  | .inProgress block missing holders responders => (.inProgress block missing holders [], responders)
  | _ => (state, [])

def BlockValidationState.tryAddDeployFootprint (state : BlockValidationState ν η α χ ρ)
    (dtHash : DeployOrTransferHash η) (footprint : DeployFootprint η) :
    BlockValidationState ν η α χ ρ × List ρ :=
  match state with
  | .inProgress block missing holders responders =>
    match missing.find? (·.1 = dtHash) with
    | none => (state, [])
    | some (_, info) =>
      let remaining := missing.filter (·.1 ≠ dtHash)
      let addResult :=
        match dtHash with
        | .deploy hash => block.addDeploy ⟨hash, info.approvals⟩ footprint
        | .transfer hash => block.addTransfer ⟨hash, info.approvals⟩ footprint
      match addResult with
      | .ok block' =>
        if remaining.isEmpty then (.valid block'.timestamp, responders)
        else (.inProgress block' remaining holders responders, [])
      | .error _ => (.invalid block.timestamp, responders)
  | _ => (state, [])

/-- `try_mark_invalid`, documented to set the state to `Invalid`. The source
assigns `BlockValidationState::Valid(timestamp)`, and so does this model. -/
def BlockValidationState.tryMarkInvalid (state : BlockValidationState ν η α χ ρ)
    (dtHash : DeployOrTransferHash η) : BlockValidationState ν η α χ ρ × List ρ :=
  match state with
  | .inProgress block missing _ responders =>
    if missing.any (·.1 = dtHash) then (.valid block.timestamp, responders) else (state, [])
  | _ => (state, [])

def BlockValidationState.blockTimestampIfCompleted :
    BlockValidationState ν η α χ ρ → Option Nat
  | .inProgress .. => none
  | .valid timestamp => some timestamp
  | .invalid timestamp => some timestamp

end Transitions

end BlockValidation
