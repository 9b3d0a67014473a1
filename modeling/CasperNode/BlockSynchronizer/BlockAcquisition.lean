import CasperNode.BlockSynchronizer.DeployAcquisition

/-!
`BlockAcquisitionState` (`components/block_synchronizer/block_acquisition.rs`):
the milestones of acquiring one block, from its hash to a complete block, for a
forward sync or a historical one (`is_historical`, which is also
`need_execution_state`). Peers, randomness and logging are left out, so
`next_action` yields only its `NeedNext`. The chunked execution results
(`ExecutionResultsAcquisition::apply_block_execution_results_or_chunk`) are a
parameter: every statement here holds whatever it does.
-/
namespace BlockSynchronizer

structure ProtocolVersion where
  major : Nat
  minor : Nat
  patch : Nat
  deriving DecidableEq, Repr

/-- The derived (lexicographic) order of `ProtocolVersion`. -/
def ProtocolVersion.lt (version other : ProtocolVersion) : Bool :=
  version.major < other.major ||
    (version.major = other.major &&
      (version.minor < other.minor || (version.minor = other.minor && version.patch < other.patch)))

/-- The fields of a header the state machine reads; `blockHash` is the value
`block_hash()` computes from the header. -/
structure BlockHeader (ρ : Type) where
  blockHash : ρ
  height : Nat
  eraId : Nat
  protocolVersion : ProtocolVersion
  stateRootHash : ρ
  deriving DecidableEq, Repr

structure Block (ρ : Type) where
  hash : ρ
  header : BlockHeader ρ
  deployHashes : List ρ
  transferHashes : List ρ
  deriving DecidableEq, Repr

def Block.deployAndTransferHashes (block : Block ρ) : List ρ :=
  block.deployHashes ++ block.transferHashes

inductive ExecutionResultsChecksum (ρ : Type) where
  | uncheckable
  | checkable (digest : ρ)
  deriving DecidableEq, Repr

def ExecutionResultsChecksum.isCheckable : ExecutionResultsChecksum ρ → Bool
  | .checkable _ => true
  | .uncheckable => false

inductive ExecutionResultsError (ρ : Type) where
  | blockHashMismatch (expected actual : ρ)
  | chunkCountMismatch (blockHash : ρ) (expected actual : Nat)
  | invalidChunkCount (blockHash : ρ)
  | invalidAttemptToApplyChecksum (blockHash : ρ)
  | attemptToApplyDataAfterCompleted (blockHash : ρ)
  | attemptToApplyDataWhenMissingChecksum (blockHash : ρ)
  | checksumMismatch (blockHash expected actual : ρ)
  | chunksWithDifferentChecksum (blockHash expected actual : ρ)
  | failedToDeserialize (blockHash : ρ)
  | executionResultToDeployHashLengthDiscrepancy (blockHash : ρ) (expected actual : Nat)
  | invalidOutcomeFromApplyingChunk (blockHash : ρ)
  deriving DecidableEq, Repr

/-- `ExecutionResultsAcquisition`, with the chunks received so far of type `γ`
and the assembled results of type `ε`. -/
inductive ExecutionResultsAcquisition (ρ γ ε : Type) where
  | needed (blockHash : ρ)
  | pending (blockHash : ρ) (checksum : ExecutionResultsChecksum ρ)
  | acquiring (blockHash : ρ) (checksum : ExecutionResultsChecksum ρ) (chunks : γ)
      (chunkCount next : Nat)
  | complete (blockHash : ρ) (checksum : ExecutionResultsChecksum ρ) (results : ε)
  deriving DecidableEq, Repr

def ExecutionResultsAcquisition.applyChecksum :
    ExecutionResultsAcquisition ρ γ ε → ExecutionResultsChecksum ρ →
      Except (ExecutionResultsError ρ) (ExecutionResultsAcquisition ρ γ ε)
  | .needed blockHash, checksum => .ok (.pending blockHash checksum)
  | .pending blockHash _, _ => .error (.invalidAttemptToApplyChecksum blockHash)
  | .acquiring blockHash .., _ => .error (.invalidAttemptToApplyChecksum blockHash)
  | .complete blockHash .., _ => .error (.invalidAttemptToApplyChecksum blockHash)

/-- `needs_value_or_chunk`: the index of the chunk to fetch next. -/
def ExecutionResultsAcquisition.needsValueOrChunk :
    ExecutionResultsAcquisition ρ γ ε → Option (Nat × ExecutionResultsChecksum ρ)
  | .needed _ => none
  | .complete .. => none
  | .pending _ checksum => some (0, checksum)
  | .acquiring _ checksum _ _ next => some (next, checksum)

inductive BlockAcquisitionError (ρ : Type) where
  | invalidStateTransition
  | blockHashMismatch (expected actual : ρ)
  | rootHashMismatch (expected actual : ρ)
  | invalidAttemptToAcquireExecutionResults
  | invalidAttemptToApplyApprovalsHashes (error : DeployAcquisitionError)
  | invalidAttemptToApplyDeploy (deployId : DeployId ρ)
  | invalidAttemptToMarkComplete
  | invalidAttemptToEnqueueBlockForExecution
  | executionResults (error : ExecutionResultsError ρ)
  deriving DecidableEq, Repr

/-- The `NeedNext` of the action `next_action` returns. The validators asked
for signatures are left out. -/
inductive NeedNext (ρ φ ψ : Type) where
  | nothing (blockHash : ρ)
  | blockHeader (blockHash : ρ)
  | blockBody (blockHash : ρ)
  | approvalsHashes (blockHash : ρ) (block : Block ρ)
  | finalitySignatures (blockHash : ρ) (eraId : Nat)
  | globalState (blockHash : ρ) (rootHash : ρ)
  | deployByHash (blockHash : ρ) (deployHash : ρ)
  | deployById (blockHash : ρ) (deployId : DeployId ρ)
  | makeExecutableBlock (blockHash : ρ) (height : Nat)
  | enqueueForExecution (blockHash : ρ) (finalizedBlock : φ) (deploys : List ψ)
  | executionResultsChecksum (blockHash : ρ) (rootHash : ρ)
  | executionResults (blockHash : ρ) (chunkIndex : Nat) (checksum : ExecutionResultsChecksum ρ)
  | switchToHaveStrictFinality (blockHash : ρ) (height : Nat)
  | blockMarkedComplete (blockHash : ρ) (height : Nat)

/-- The states, with a `FinalizedBlock` of type `φ` and deploys of type `ψ`. -/
inductive BlockAcquisitionState (κ ρ γ ε φ ψ : Type) where
  | initialized (blockHash : ρ) (signatures : SignatureAcquisition κ ρ)
  | haveBlockHeader (header : BlockHeader ρ) (signatures : SignatureAcquisition κ ρ)
  | haveWeakFinalitySignatures (header : BlockHeader ρ) (signatures : SignatureAcquisition κ ρ)
  | haveBlock (block : Block ρ) (signatures : SignatureAcquisition κ ρ) (deploys : DeployAcquisition ρ)
  | haveGlobalState (block : Block ρ) (signatures : SignatureAcquisition κ ρ)
      (deploys : DeployAcquisition ρ) (executionResults : ExecutionResultsAcquisition ρ γ ε)
  | haveAllExecutionResults (block : Block ρ) (signatures : SignatureAcquisition κ ρ)
      (deploys : DeployAcquisition ρ) (checksum : ExecutionResultsChecksum ρ)
  | haveApprovalsHashes (block : Block ρ) (signatures : SignatureAcquisition κ ρ)
      (deploys : DeployAcquisition ρ)
  | haveAllDeploys (block : Block ρ) (signatures : SignatureAcquisition κ ρ)
  | haveStrictFinalitySignatures (block : Block ρ) (signatures : SignatureAcquisition κ ρ)
  | haveFinalizedBlock (block : Block ρ) (finalizedBlock : φ) (deploys : List ψ) (enqueued : Bool)
  | complete (block : Block ρ)
  | failed (blockHash : ρ) (height : Option Nat)

structure RegisterExecResultsOutcome (ε : Type) where
  execResults : Option ε
  acceptance : Option Acceptance

section Transitions
variable {κ ρ γ ε φ ψ χ : Type} [DecidableEq κ] [DecidableEq ρ]

def BlockAcquisitionState.blockHash : BlockAcquisitionState κ ρ γ ε φ ψ → ρ
  | .initialized blockHash _ => blockHash
  | .failed blockHash _ => blockHash
  | .haveBlockHeader header _ => header.blockHash
  | .haveWeakFinalitySignatures header _ => header.blockHash
  | .haveBlock block .. => block.hash
  | .haveGlobalState block .. => block.hash
  | .haveAllExecutionResults block .. => block.hash
  | .haveApprovalsHashes block .. => block.hash
  | .haveAllDeploys block _ => block.hash
  | .haveStrictFinalitySignatures block _ => block.hash
  | .haveFinalizedBlock block .. => block.hash
  | .complete block => block.hash

def maybeExecutionResults (block : Block ρ) :
    ExecutionResultsAcquisition ρ γ ε → Except (BlockAcquisitionError ρ) (NeedNext ρ φ ψ)
  | .needed _ => .ok (.executionResultsChecksum block.hash block.header.stateRootHash)
  | .complete .. => .ok (.approvalsHashes block.hash block)
  | executionResults =>
    match executionResults.needsValueOrChunk with
    | none => .error .invalidAttemptToAcquireExecutionResults
    | some (next, checksum) => .ok (.executionResults block.hash next checksum)

def maybeNeedsDeploy (header : BlockHeader ρ) (signatures : SignatureAcquisition κ ρ)
    (needsDeploy : Option (DeployIdentifier ρ)) (isHistorical : Bool) : NeedNext ρ φ ψ :=
  match needsDeploy with
  | some (.byId deployId) => .deployById header.blockHash deployId
  | some (.byHash deployHash) => .deployByHash header.blockHash deployHash
  | none =>
    if signatures.hasSufficientFinality isHistorical true then
      .switchToHaveStrictFinality header.blockHash header.height
    else .finalitySignatures header.blockHash header.eraId

/-- The strict-finality branch `next_action` shares between states. -/
def strictFinalityOrSignatures (header : BlockHeader ρ) (signatures : SignatureAcquisition κ ρ)
    (isHistorical : Bool) : NeedNext ρ φ ψ :=
  if signatures.hasSufficientFinality isHistorical true then
    .switchToHaveStrictFinality header.blockHash header.height
  else .finalitySignatures header.blockHash header.eraId

/-- `next_action` (`&mut self`): only `HaveAllExecutionResults` changes, by
recording whether the block is legacy. -/
def BlockAcquisitionState.nextAction (state : BlockAcquisitionState κ ρ γ ε φ ψ)
    (isHistorical : Bool) :
    BlockAcquisitionState κ ρ γ ε φ ψ × Except (BlockAcquisitionError ρ) (NeedNext ρ φ ψ) :=
  match state with
  | .initialized blockHash _ => (state, .ok (.blockHeader blockHash))
  | .haveBlockHeader header _ => (state, .ok (.finalitySignatures header.blockHash header.eraId))
  | .haveWeakFinalitySignatures header _ => (state, .ok (.blockBody header.blockHash))
  | .haveBlock block signatures deploys =>
    if isHistorical then (state, .ok (.globalState block.hash block.header.stateRootHash))
    else if deploys.needsDeploy.isSome then (state, .ok (.approvalsHashes block.hash block))
    else (state, .ok (strictFinalityOrSignatures block.header signatures isHistorical))
  | .haveGlobalState block signatures deploys executionResults =>
    if !isHistorical then (state, .error .invalidStateTransition)
    else if deploys.needsDeploy.isSome then (state, maybeExecutionResults block executionResults)
    else (state, .ok (strictFinalityOrSignatures block.header signatures isHistorical))
  | .haveAllExecutionResults block signatures deploys checksum =>
    if isHistorical then
      let signatures := signatures.setIsLegacy !checksum.isCheckable
      let state := .haveAllExecutionResults block signatures deploys checksum
      if checksum.isCheckable then (state, .ok (.approvalsHashes block.hash block))
      else (state, .ok (maybeNeedsDeploy block.header signatures deploys.needsDeploy isHistorical))
    else (state, .error .invalidStateTransition)
  | .haveApprovalsHashes block signatures deploys =>
    (state, .ok (maybeNeedsDeploy block.header signatures deploys.needsDeploy isHistorical))
  | .haveAllDeploys block signatures =>
    (state, .ok (strictFinalityOrSignatures block.header signatures isHistorical))
  | .haveStrictFinalitySignatures block _ =>
    if isHistorical then (state, .ok (.blockMarkedComplete block.header.blockHash block.header.height))
    else (state, .ok (.makeExecutableBlock block.header.blockHash block.header.height))
  | .haveFinalizedBlock block finalizedBlock deploys enqueued =>
    if isHistorical then (state, .error .invalidStateTransition)
    else if !enqueued then (state, .ok (.enqueueForExecution block.hash finalizedBlock deploys))
    else (state, .ok (.nothing block.hash))
  | .complete block => (state, .ok (.nothing block.hash))
  | .failed blockHash _ => (state, .ok (.nothing blockHash))

def BlockAcquisitionState.registerBlockHeader (state : BlockAcquisitionState κ ρ γ ε φ ψ)
    (header : BlockHeader ρ) (strictFinalityProtocolVersion : ProtocolVersion) (isHistorical : Bool) :
    BlockAcquisitionState κ ρ γ ε φ ψ × Except (BlockAcquisitionError ρ) (Option Acceptance) :=
  match state with
  | .initialized blockHash signatures =>
    if header.blockHash = blockHash then
      let isLegacyBlock := isHistorical && header.protocolVersion.lt strictFinalityProtocolVersion
      (.haveBlockHeader header (signatures.setIsLegacy isLegacyBlock), .ok (some .neededIt))
    else (state, .error (.blockHashMismatch blockHash header.blockHash))
  | _ => (state, .ok none)

def BlockAcquisitionState.registerBlock (state : BlockAcquisitionState κ ρ γ ε φ ψ)
    (block : Block ρ) (needExecutionState : Bool) :
    BlockAcquisitionState κ ρ γ ε φ ψ × Except (BlockAcquisitionError ρ) (Option Acceptance) :=
  match state with
  | .haveWeakFinalitySignatures header signatures =>
    if block.hash ≠ header.blockHash then
      (state, .error (.blockHashMismatch header.blockHash block.hash))
    else
      (.haveBlock block signatures
        (DeployAcquisition.newByHash block.deployAndTransferHashes needExecutionState),
        .ok (some .neededIt))
  | _ => (state, .ok none)

def BlockAcquisitionState.switchToHaveStrictFinality (state : BlockAcquisitionState κ ρ γ ε φ ψ)
    (blockHash : ρ) (isHistorical : Bool) :
    BlockAcquisitionState κ ρ γ ε φ ψ × Except (BlockAcquisitionError ρ) Unit :=
  if blockHash ≠ state.blockHash then (state, .error (.blockHashMismatch state.blockHash blockHash))
  else
    match state with
    | .haveBlock block signatures _ | .haveGlobalState block signatures _ _
    | .haveAllDeploys block signatures | .haveApprovalsHashes block signatures _ =>
      if signatures.hasSufficientFinality isHistorical true then
        (.haveStrictFinalitySignatures block signatures, .ok ())
      else (state, .error .invalidStateTransition)
    | _ => (state, .ok ())

def BlockAcquisitionState.activelyAcquiringSignatures (state : BlockAcquisitionState κ ρ γ ε φ ψ)
    (isHistorical : Bool) : Bool :=
  match state with
  | .haveBlockHeader .. => true
  | .haveBlock _ signatures deploys =>
    !isHistorical && deploys.needsDeploy.isNone && signatures.signatureWeight ≠ .strict
  | .haveGlobalState _ signatures deploys _ =>
    deploys.needsDeploy.isNone && signatures.signatureWeight ≠ .strict
  | .haveApprovalsHashes _ signatures deploys =>
    deploys.needsDeploy.isNone && signatures.signatureWeight ≠ .strict
  | .haveAllExecutionResults _ signatures deploys _ =>
    signatures.isLegacy && deploys.needsDeploy.isNone && signatures.signatureWeight ≠ .strict
  | .haveAllDeploys _ signatures => signatures.signatureWeight ≠ .strict
  | _ => false

/-- `register_finality_signature`. The signature is applied in place in every
state that holds signatures; the state changes only where the new weight
completes the milestone. -/
def BlockAcquisitionState.registerFinalitySignature (state : BlockAcquisitionState κ ρ γ ε φ ψ)
    (signature : FinalitySignature κ ρ) (validatorWeights : EraValidatorWeights κ)
    (isHistorical : Bool) :
    BlockAcquisitionState κ ρ γ ε φ ψ × Except (BlockAcquisitionError ρ) (Option Acceptance) :=
  let currentlyAcquiringSigs := state.activelyAcquiringSignatures isHistorical
  let answer := fun (acceptance : Acceptance) =>
    (Except.ok (if currentlyAcquiringSigs then some acceptance else none) :
      Except (BlockAcquisitionError ρ) (Option Acceptance))
  match state with
  | .haveBlockHeader header signatures =>
    let applied := signatures.applySignature signature validatorWeights
    if applied.1.hasSufficientFinality isHistorical false then
      (.haveWeakFinalitySignatures header applied.1, answer applied.2)
    else (.haveBlockHeader header applied.1, answer applied.2)
  | .haveBlock block signatures deploys =>
    let applied := signatures.applySignature signature validatorWeights
    if !isHistorical && deploys.needsDeploy.isNone &&
        applied.1.hasSufficientFinality isHistorical true then
      (.haveStrictFinalitySignatures block applied.1, answer applied.2)
    else (.haveBlock block applied.1 deploys, answer applied.2)
  | .haveGlobalState block signatures deploys executionResults =>
    let applied := signatures.applySignature signature validatorWeights
    if deploys.needsDeploy.isNone && applied.1.hasSufficientFinality isHistorical true then
      (.haveStrictFinalitySignatures block applied.1, answer applied.2)
    else (.haveGlobalState block applied.1 deploys executionResults, answer applied.2)
  | .haveApprovalsHashes block signatures deploys =>
    let applied := signatures.applySignature signature validatorWeights
    (.haveApprovalsHashes block applied.1 deploys, answer applied.2)
  | .haveAllExecutionResults block signatures deploys checksum =>
    let applied := signatures.applySignature signature validatorWeights
    if applied.1.isLegacy && deploys.needsDeploy.isNone &&
        applied.1.hasSufficientFinality isHistorical true then
      (.haveStrictFinalitySignatures block applied.1, answer applied.2)
    else (.haveAllExecutionResults block applied.1 deploys checksum, answer applied.2)
  | .haveAllDeploys block signatures =>
    let applied := signatures.applySignature signature validatorWeights
    if applied.1.hasSufficientFinality isHistorical true then
      (.haveStrictFinalitySignatures block applied.1, answer applied.2)
    else (.haveAllDeploys block applied.1, answer applied.2)
  | .haveStrictFinalitySignatures block signatures =>
    let applied := signatures.applySignature signature validatorWeights
    (.haveStrictFinalitySignatures block applied.1, answer applied.2)
  | .haveWeakFinalitySignatures header signatures =>
    let applied := signatures.applySignature signature validatorWeights
    (.haveWeakFinalitySignatures header applied.1, answer applied.2)
  | _ => (state, .ok none)

/-- `register_approvals_hashes`. On an error of `apply_approvals_hashes` the
state keeps the deploys as that call left them. -/
def BlockAcquisitionState.registerApprovalsHashes (state : BlockAcquisitionState κ ρ γ ε φ ψ)
    (approvalsHashes : List ρ) (needExecutionState : Bool) :
    BlockAcquisitionState κ ρ γ ε φ ψ × Except (BlockAcquisitionError ρ) (Option Acceptance) :=
  match state with
  | .haveBlock block signatures deploys =>
    if !needExecutionState then
      let applied := deploys.applyApprovalsHashes approvalsHashes
      match applied.2 with
      | .ok () => (.haveApprovalsHashes block signatures applied.1, .ok (some .neededIt))
      | .error error =>
        (.haveBlock block signatures applied.1, .error (.invalidAttemptToApplyApprovalsHashes error))
    else (state, .ok none)
  | .haveAllExecutionResults block signatures deploys checksum =>
    if needExecutionState then
      let applied := deploys.applyApprovalsHashes approvalsHashes
      match applied.2 with
      | .ok () => (.haveApprovalsHashes block signatures applied.1, .ok (some .neededIt))
      | .error error =>
        (.haveAllExecutionResults block signatures applied.1 checksum,
          .error (.invalidAttemptToApplyApprovalsHashes error))
    else (state, .ok none)
  | _ => (state, .ok none)

def BlockAcquisitionState.registerGlobalState (state : BlockAcquisitionState κ ρ γ ε φ ψ)
    (rootHash : ρ) (needExecutionState : Bool) :
    BlockAcquisitionState κ ρ γ ε φ ψ × Except (BlockAcquisitionError ρ) Unit :=
  match state with
  | .haveBlock block signatures deploys =>
    if needExecutionState then
      if block.header.stateRootHash = rootHash then
        (.haveGlobalState block signatures deploys (.needed block.hash), .ok ())
      else (state, .error (.rootHashMismatch block.header.stateRootHash rootHash))
    else (state, .ok ())
  | _ => (state, .ok ())

def BlockAcquisitionState.registerExecutionResultsChecksum
    (state : BlockAcquisitionState κ ρ γ ε φ ψ) (executionResultsChecksum : ExecutionResultsChecksum ρ)
    (needExecutionState : Bool) :
    BlockAcquisitionState κ ρ γ ε φ ψ × Except (BlockAcquisitionError ρ) Unit :=
  match state with
  | .haveGlobalState block signatures deploys (.needed blockHash) =>
    if needExecutionState then
      match (ExecutionResultsAcquisition.needed blockHash : ExecutionResultsAcquisition ρ γ ε).applyChecksum
          executionResultsChecksum with
      | .ok executionResults => (.haveGlobalState block signatures deploys executionResults, .ok ())
      | .error error => (state, .error (.executionResults error))
    else (state, .ok ())
  | _ => (state, .ok ())

def BlockAcquisitionState.registerExecutionResultsOrChunk
    (applyBlockExecutionResultsOrChunk : ExecutionResultsAcquisition ρ γ ε → χ → List ρ →
      Except (ExecutionResultsError ρ) (ExecutionResultsAcquisition ρ γ ε × Acceptance))
    (state : BlockAcquisitionState κ ρ γ ε φ ψ) (blockExecutionResultsOrChunk : χ)
    (needExecutionState : Bool) :
    BlockAcquisitionState κ ρ γ ε φ ψ ×
      Except (BlockAcquisitionError ρ) (RegisterExecResultsOutcome ε) :=
  match state with
  | .haveGlobalState block signatures deploys executionResults =>
    if needExecutionState then
      match applyBlockExecutionResultsOrChunk executionResults blockExecutionResultsOrChunk
          block.deployAndTransferHashes with
      | .ok (newAcquisition, acceptance) =>
        match newAcquisition with
        | .needed _ | .pending .. => (state, .ok ⟨none, some acceptance⟩)
        | .complete _ _ results =>
          (.haveGlobalState block signatures deploys newAcquisition, .ok ⟨some results, some acceptance⟩)
        | .acquiring .. =>
          (.haveGlobalState block signatures deploys newAcquisition, .ok ⟨none, some acceptance⟩)
      | .error error => (state, .error (.executionResults error))
    else (state, .ok ⟨none, none⟩)
  | _ => (state, .ok ⟨none, none⟩)

def BlockAcquisitionState.registerExecutionResultsStoredNotification
    (state : BlockAcquisitionState κ ρ γ ε φ ψ) (needExecutionState : Bool) :
    BlockAcquisitionState κ ρ γ ε φ ψ × Except (BlockAcquisitionError ρ) Unit :=
  match state with
  | .haveGlobalState block signatures deploys (.complete _ checksum _) =>
    if needExecutionState then (.haveAllExecutionResults block signatures deploys checksum, .ok ())
    else (state, .ok ())
  | _ => (state, .ok ())

/-- The shared tail of `register_deploy`: apply the deploy, and move to
`HaveAllDeploys` once none is needed. -/
def registerDeployIn (block : Block ρ) (signatures : SignatureAcquisition κ ρ)
    (deploys : DeployAcquisition ρ) (resting : DeployAcquisition ρ → BlockAcquisitionState κ ρ γ ε φ ψ)
    (deployId : DeployId ρ) :
    BlockAcquisitionState κ ρ γ ε φ ψ × Except (BlockAcquisitionError ρ) (Option Acceptance) :=
  let applied := deploys.applyDeploy deployId
  if applied.1.needsDeploy.isNone then (.haveAllDeploys block signatures, .ok applied.2)
  else (resting applied.1, .ok applied.2)

def BlockAcquisitionState.registerDeploy (state : BlockAcquisitionState κ ρ γ ε φ ψ)
    (deployId : DeployId ρ) (isHistorical : Bool) :
    BlockAcquisitionState κ ρ γ ε φ ψ × Except (BlockAcquisitionError ρ) (Option Acceptance) :=
  match state with
  | .haveBlock block signatures deploys =>
    if !isHistorical then registerDeployIn block signatures deploys (.haveBlock block signatures) deployId
    else (state, .ok none)
  | .haveApprovalsHashes block signatures deploys =>
    registerDeployIn block signatures deploys (.haveApprovalsHashes block signatures) deployId
  | .haveAllExecutionResults block signatures deploys checksum =>
    if isHistorical then
      match checksum with
      | .uncheckable =>
        registerDeployIn block signatures deploys
          (fun deploys => .haveAllExecutionResults block signatures deploys checksum) deployId
      | .checkable _ => (state, .error (.invalidAttemptToApplyDeploy deployId))
    else (state, .ok none)
  | _ => (state, .ok none)

def BlockAcquisitionState.registerMadeFinalizedBlock (state : BlockAcquisitionState κ ρ γ ε φ ψ)
    (needExecutionState : Bool) (finalizedBlock : φ) (deploys : List ψ) :
    BlockAcquisitionState κ ρ γ ε φ ψ × Except (BlockAcquisitionError ρ) Unit :=
  if needExecutionState then (state, .error .invalidAttemptToEnqueueBlockForExecution)
  else
    match state with
    | .haveStrictFinalitySignatures block _ =>
      (.haveFinalizedBlock block finalizedBlock deploys false, .ok ())
    | _ => (state, .ok ())

def BlockAcquisitionState.registerBlockExecutionEnqueued (state : BlockAcquisitionState κ ρ γ ε φ ψ) :
    BlockAcquisitionState κ ρ γ ε φ ψ × Except (BlockAcquisitionError ρ) Unit :=
  match state with
  | .haveFinalizedBlock block finalizedBlock deploys _ =>
    (.haveFinalizedBlock block finalizedBlock deploys true, .ok ())
  | _ => (state, .ok ())

def BlockAcquisitionState.registerBlockExecuted (state : BlockAcquisitionState κ ρ γ ε φ ψ)
    (needExecutionState : Bool) :
    BlockAcquisitionState κ ρ γ ε φ ψ × Except (BlockAcquisitionError ρ) Unit :=
  if needExecutionState then (state, .error .invalidAttemptToEnqueueBlockForExecution)
  else
    match state with
    | .haveFinalizedBlock block .. => (.complete block, .ok ())
    | _ => (state, .ok ())

def BlockAcquisitionState.registerMarkedComplete (state : BlockAcquisitionState κ ρ γ ε φ ψ)
    (needExecutionState : Bool) :
    BlockAcquisitionState κ ρ γ ε φ ψ × Except (BlockAcquisitionError ρ) Unit :=
  if !needExecutionState then (state, .error .invalidAttemptToMarkComplete)
  else
    match state with
    | .haveStrictFinalitySignatures block _ => (.complete block, .ok ())
    | _ => (state, .ok ())

end Transitions

/-- What the block synchronizer keeps fixed while it acquires one block: the
kind of sync, the weights of the block's era and the execution-results
acquisition it delegates chunks to. -/
structure SyncContext (κ ρ γ ε χ : Type) where
  isHistorical : Bool
  validatorWeights : EraValidatorWeights κ
  applyBlockExecutionResultsOrChunk : ExecutionResultsAcquisition ρ γ ε → χ → List ρ →
    Except (ExecutionResultsError ρ) (ExecutionResultsAcquisition ρ γ ε × Acceptance)

/-- The calls a run makes. `switchToHaveStrictFinality` is `next_action`
followed, when it asked for it, by `switch_to_have_strict_finality` with the
hash it named. -/
inductive SyncOp (κ ρ χ φ ψ : Type) where
  | registerBlockHeader (header : BlockHeader ρ) (strictFinalityProtocolVersion : ProtocolVersion)
  | registerBlock (block : Block ρ)
  | registerFinalitySignature (signature : FinalitySignature κ ρ)
  | registerApprovalsHashes (approvalsHashes : List ρ)
  | registerGlobalState (rootHash : ρ)
  | registerExecutionResultsChecksum (checksum : ExecutionResultsChecksum ρ)
  | registerExecutionResultsOrChunk (blockExecutionResultsOrChunk : χ)
  | registerExecutionResultsStoredNotification
  | registerDeploy (deployId : DeployId ρ)
  | registerMadeFinalizedBlock (finalizedBlock : φ) (deploys : List ψ)
  | registerBlockExecutionEnqueued
  | registerBlockExecuted
  | registerMarkedComplete
  | nextAction
  | switchToHaveStrictFinality

section Runs
variable {κ ρ γ ε φ ψ χ : Type} [DecidableEq κ] [DecidableEq ρ]

def BlockAcquisitionState.step (context : SyncContext κ ρ γ ε χ)
    (state : BlockAcquisitionState κ ρ γ ε φ ψ) :
    SyncOp κ ρ χ φ ψ → BlockAcquisitionState κ ρ γ ε φ ψ
  | .registerBlockHeader header version =>
    (state.registerBlockHeader header version context.isHistorical).1
  | .registerBlock block => (state.registerBlock block context.isHistorical).1
  | .registerFinalitySignature signature =>
    (state.registerFinalitySignature signature context.validatorWeights context.isHistorical).1
  | .registerApprovalsHashes approvalsHashes =>
    (state.registerApprovalsHashes approvalsHashes context.isHistorical).1
  | .registerGlobalState rootHash => (state.registerGlobalState rootHash context.isHistorical).1
  | .registerExecutionResultsChecksum checksum =>
    (state.registerExecutionResultsChecksum checksum context.isHistorical).1
  | .registerExecutionResultsOrChunk chunk =>
    (state.registerExecutionResultsOrChunk context.applyBlockExecutionResultsOrChunk chunk
      context.isHistorical).1
  | .registerExecutionResultsStoredNotification =>
    (state.registerExecutionResultsStoredNotification context.isHistorical).1
  | .registerDeploy deployId => (state.registerDeploy deployId context.isHistorical).1
  | .registerMadeFinalizedBlock finalizedBlock deploys =>
    (state.registerMadeFinalizedBlock context.isHistorical finalizedBlock deploys).1
  | .registerBlockExecutionEnqueued => state.registerBlockExecutionEnqueued.1
  | .registerBlockExecuted => (state.registerBlockExecuted context.isHistorical).1
  | .registerMarkedComplete => (state.registerMarkedComplete context.isHistorical).1
  | .nextAction => (state.nextAction context.isHistorical).1
  | .switchToHaveStrictFinality =>
    match state.nextAction context.isHistorical with
    | (state, .ok (.switchToHaveStrictFinality blockHash _)) =>
      (state.switchToHaveStrictFinality blockHash context.isHistorical).1
    | (state, _) => state

def BlockAcquisitionState.run (context : SyncContext κ ρ γ ε χ) :
    BlockAcquisitionState κ ρ γ ε φ ψ → List (SyncOp κ ρ χ φ ψ) → BlockAcquisitionState κ ρ γ ε φ ψ
  | state, [] => state
  | state, op :: ops => (state.step context op).run context ops


/-- A forward sync whose block still misses deploys, with one of them already
held, goes to strict finality as soon as approvals hashes arrive: their
failed application empties the deploy list, and `next_action` then finds
nothing left to fetch. -/
theorem approvals_hashes_failure_reaches_strict_finality (context : SyncContext κ ρ γ ε χ)
    (forward : context.isHistorical = false) {block : Block ρ}
    {signatures : SignatureAcquisition κ ρ} {acquisition : Acquisition ρ}
    {approvalsHashes : List ρ} {error : DeployAcquisitionError}
    (failed : pairApprovalsHashes acquisition.inner approvalsHashes = .error error)
    (headerHash : block.header.blockHash = block.hash)
    (strict : signatures.hasSufficientFinality false true = true) :
    (((BlockAcquisitionState.haveBlock block signatures (.byHash acquisition) :
        BlockAcquisitionState κ ρ γ ε φ ψ).step context
        (.registerApprovalsHashes approvalsHashes)).step context .switchToHaveStrictFinality) =
      .haveStrictFinalitySignatures block signatures := by
  -- the failed call leaves the block waiting on an emptied deploy list
  have emptied : (BlockAcquisitionState.haveBlock block signatures (.byHash acquisition) :
      BlockAcquisitionState κ ρ γ ε φ ψ).step context (.registerApprovalsHashes approvalsHashes) =
      .haveBlock block signatures (.byHash { acquisition with inner := [] }) := by
    simp [BlockAcquisitionState.step, BlockAcquisitionState.registerApprovalsHashes, forward,
      DeployAcquisition.applyApprovalsHashes, failed]
  -- with no deploy needed, `next_action` asks to switch to strict finality
  have asks : (BlockAcquisitionState.haveBlock block signatures
      (.byHash { acquisition with inner := [] }) : BlockAcquisitionState κ ρ γ ε φ ψ).nextAction false =
      (.haveBlock block signatures (.byHash { acquisition with inner := [] }),
        .ok (.switchToHaveStrictFinality block.header.blockHash block.header.height)) := by
    simp [BlockAcquisitionState.nextAction, DeployAcquisition.needsDeploy,
      Acquisition.needsDeploy, strictFinalityOrSignatures, strict]
  rw [emptied]
  simp only [BlockAcquisitionState.step, forward, asks]
  simp [BlockAcquisitionState.switchToHaveStrictFinality, BlockAcquisitionState.blockHash,
    headerHash, strict]

end Runs

/-- A block with deploys 21 and 22 reaches `Complete` although deploy 22 is
never registered. -/
theorem approvals_hashes_failure_completes_block_missing_deploy :
    BlockAcquisitionState.run
        (⟨false, ⟨0, [(1, 10)], ⟨1, 3⟩⟩, fun _ _ _ => .error (.invalidChunkCount 5)⟩ :
          SyncContext Nat Nat Unit Unit Unit)
        (.initialized 5 (SignatureAcquisition.new [1] .strict) :
          BlockAcquisitionState Nat Nat Unit Unit Unit Unit)
        [.registerBlockHeader ⟨5, 1, 0, ⟨1, 5, 0⟩, 9⟩ ⟨1, 5, 0⟩,
          .registerFinalitySignature ⟨5, 0, 1⟩,
          .registerBlock ⟨5, ⟨5, 1, 0, ⟨1, 5, 0⟩, 9⟩, [21, 22], []⟩,
          .registerDeploy ⟨21, 31⟩,
          .registerApprovalsHashes [31, 32],
          .switchToHaveStrictFinality,
          .registerMadeFinalizedBlock () [],
          .registerBlockExecuted] =
      .complete ⟨5, ⟨5, 1, 0, ⟨1, 5, 0⟩, 9⟩, [21, 22], []⟩ := by
  simp only [BlockAcquisitionState.run]
  set context : SyncContext Nat Nat Unit Unit Unit :=
    ⟨false, ⟨0, [(1, 10)], ⟨1, 3⟩⟩, fun _ _ _ => .error (.invalidChunkCount 5)⟩
  -- deploy 21 is held, deploy 22 is still missing, and the one validator has signed
  have fetched : ((((BlockAcquisitionState.initialized 5 (SignatureAcquisition.new [1] .strict) :
      BlockAcquisitionState Nat Nat Unit Unit Unit Unit).step context
      (.registerBlockHeader ⟨5, 1, 0, ⟨1, 5, 0⟩, 9⟩ ⟨1, 5, 0⟩)).step context
      (.registerFinalitySignature ⟨5, 0, 1⟩)).step context
      (.registerBlock ⟨5, ⟨5, 1, 0, ⟨1, 5, 0⟩, 9⟩, [21, 22], []⟩)).step context
      (.registerDeploy ⟨21, 31⟩) =
      .haveBlock ⟨5, ⟨5, 1, 0, ⟨1, 5, 0⟩, 9⟩, [21, 22], []⟩
        (((SignatureAcquisition.new [1] .strict).setIsLegacy false).applySignature ⟨5, 0, 1⟩
          context.validatorWeights).1
        (.byHash ⟨[(21, .haveDeployBody), (22, .vacant)], false⟩) := rfl
  -- the approvals hashes meet the held deploy 21 first
  have paired : pairApprovalsHashes ([(21, .haveDeployBody), (22, .vacant)] : List (Nat × DeployState))
      [31, 32] = .error .encounteredNonVacantDeployState := rfl
  rw [fetched, approvals_hashes_failure_reaches_strict_finality context rfl paired rfl (by rfl)]
  rfl

end BlockSynchronizer
