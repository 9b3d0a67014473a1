import CasperNode.BlockSynchronizer.SignatureAcquisition

/-!
`DeployAcquisition` (`components/block_synchronizer/deploy_acquisition.rs`):
the deploys of a block still to be fetched, first by hash and, once approvals
hashes are known, by id. Deploy and approvals hashes are digests of type `ρ`.
-/
namespace BlockSynchronizer

inductive DeployState where
  | vacant
  | haveDeployBody
  deriving DecidableEq, Repr

structure DeployId (ρ : Type) where
  deployHash : ρ
  approvalsHash : ρ
  deriving DecidableEq, Repr

structure Acquisition (τ : Type) where
  inner : List (τ × DeployState)
  needExecutionResult : Bool
  deriving DecidableEq, Repr

inductive DeployIdentifier (ρ : Type) where
  | byHash (deployHash : ρ)
  | byId (deployId : DeployId ρ)
  deriving DecidableEq, Repr

inductive DeployAcquisition (ρ : Type) where
  | byHash (acquisition : Acquisition ρ)
  | byId (acquisition : Acquisition (DeployId ρ))
  deriving DecidableEq, Repr

inductive DeployAcquisitionError where
  | acquisitionByIdNotPossible
  | encounteredNonVacantDeployState
  deriving DecidableEq, Repr

section Operations
variable {τ ρ : Type} [DecidableEq τ] [DecidableEq ρ]

def Acquisition.new (deployIdentifiers : List τ) (needExecutionResult : Bool) : Acquisition τ :=
  ⟨deployIdentifiers.map fun deployIdentifier => (deployIdentifier, .vacant), needExecutionResult⟩

/-- The loop of `Acquisition::apply_deploy`: the first entry for the
identifier records its body. -/
def applyDeployTo (deployIdentifier : τ) :
    List (τ × DeployState) → List (τ × DeployState) × Option Acceptance
  | [] => ([], none)
  | (identifier, state) :: rest =>
    if identifier = deployIdentifier then
      match state with
      | .vacant => ((identifier, .haveDeployBody) :: rest, some .neededIt)
      | .haveDeployBody => ((identifier, state) :: rest, some .hadIt)
    else
      ((identifier, state) :: (applyDeployTo deployIdentifier rest).1,
        (applyDeployTo deployIdentifier rest).2)

def Acquisition.applyDeploy (acquisition : Acquisition τ) (deployIdentifier : τ) :
    Acquisition τ × Option Acceptance :=
  let applied := applyDeployTo deployIdentifier acquisition.inner
  ({ acquisition with inner := applied.1 }, applied.2)

def Acquisition.needsDeploy (acquisition : Acquisition τ) : Option τ :=
  acquisition.inner.findSome? fun entry =>
    match entry.2 with
    | .vacant => some entry.1
    | .haveDeployBody => none

def DeployAcquisition.newByHash (deployHashes : List ρ) (needExecutionResult : Bool) :
    DeployAcquisition ρ :=
  .byHash (Acquisition.new deployHashes needExecutionResult)

def DeployAcquisition.applyDeploy (deploys : DeployAcquisition ρ) (deployId : DeployId ρ) :
    DeployAcquisition ρ × Option Acceptance :=
  match deploys with
  | .byHash acquisition =>
    let applied := acquisition.applyDeploy deployId.deployHash
    (.byHash applied.1, applied.2)
  | .byId acquisition =>
    let applied := acquisition.applyDeploy deployId
    (.byId applied.1, applied.2)

/-- The loop of `apply_approvals_hashes` over
`inner.drain(..).zip(approvals_hashes)`: it stops at the shorter list, and
fails at the first entry whose body is already held. -/
def pairApprovalsHashes :
    List (ρ × DeployState) → List ρ → Except DeployAcquisitionError (List (DeployId ρ × DeployState))
  | (deployHash, .vacant) :: rest, approvalsHash :: approvalsHashes =>
    (pairApprovalsHashes rest approvalsHashes).map fun paired =>
      (⟨deployHash, approvalsHash⟩, .vacant) :: paired
  | (_, .haveDeployBody) :: _, _ :: _ => .error .encounteredNonVacantDeployState
  | _, _ => .ok []

/-- `apply_approvals_hashes` (`&mut self`). When the loop returns its error,
`drain(..)` has already removed every entry, so the acquisition is left empty. -/
def DeployAcquisition.applyApprovalsHashes (deploys : DeployAcquisition ρ) (approvalsHashes : List ρ) :
    DeployAcquisition ρ × Except DeployAcquisitionError Unit :=
  match deploys with
  | .byHash acquisition =>
    match pairApprovalsHashes acquisition.inner approvalsHashes with
    | .ok inner => (.byId ⟨inner, acquisition.needExecutionResult⟩, .ok ())
    | .error error => (.byHash { acquisition with inner := [] }, .error error)
  | .byId _ => (deploys, .error .acquisitionByIdNotPossible)

def DeployAcquisition.needsDeploy : DeployAcquisition ρ → Option (DeployIdentifier ρ)
  | .byHash acquisition => acquisition.needsDeploy.map .byHash
  | .byId acquisition => acquisition.needsDeploy.map .byId

end Operations

end BlockSynchronizer
