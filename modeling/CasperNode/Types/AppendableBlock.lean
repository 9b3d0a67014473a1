import Mathlib

/-!
`AppendableBlock` (`node/src/types/appendable_block.rs`) with the
`DeployConfig` fields and `DeployHeader` checks (`expired`, `is_valid`) it
reads. Timestamps and durations are milliseconds, gas is a `U512` and sizes
are `usize`; each checked addition fails past its type's range. Deploy hashes
and approvals are of arbitrary types `η` and `α`.
-/
namespace NodeTypes

structure DeployConfig where
  maxTtl : UInt64
  maxDependencies : UInt8
  maxBlockSize : UInt32
  blockMaxDeployCount : UInt32
  blockMaxTransferCount : UInt32
  blockMaxApprovalCount : UInt32
  blockGasLimit : UInt64
  deriving DecidableEq, Repr

/-- `DeployConfig::is_valid`: every deploy slot can be given an approval. -/
def DeployConfig.isValid (config : DeployConfig) : Bool :=
  if config.blockMaxDeployCount.toNat + config.blockMaxTransferCount.toNat < 2 ^ 32 then
    decide (config.blockMaxDeployCount.toNat + config.blockMaxTransferCount.toNat ≤
      config.blockMaxApprovalCount.toNat)
  else false

structure DeployHeader (η : Type) where
  timestamp : Nat
  ttl : Nat
  dependencies : List η
  deriving DecidableEq, Repr

/-- `expires`: the creation time plus the time to live, saturating at `u64::MAX`. -/
def DeployHeader.expires (header : DeployHeader η) : Nat :=
  min (header.timestamp + header.ttl) (2 ^ 64 - 1)

def DeployHeader.expired (header : DeployHeader η) (currentInstant : Nat) : Bool :=
  decide (header.expires < currentInstant)

def DeployHeader.isValid (header : DeployHeader η) (config : DeployConfig) (timestampLeeway : Nat)
    (at_ : Nat) : Bool :=
  decide (header.dependencies.length ≤ config.maxDependencies.toNat) &&
    decide (header.ttl ≤ config.maxTtl.toNat) && decide (header.timestamp ≤ at_ + timestampLeeway)

structure DeployFootprint (η : Type) where
  header : DeployHeader η
  gasEstimate : Nat
  sizeEstimate : Nat
  isTransfer : Bool
  deriving DecidableEq, Repr

structure DeployHashWithApprovals (η α : Type) where
  deployHash : η
  approvals : Finset α
  deriving DecidableEq

inductive AddError where
  | transferCount
  | deployCount
  | approvalCount
  | gasLimit
  | blockSize
  | duplicate
  | expired
  | invalidDeploy
  deriving DecidableEq, Repr

structure AppendableBlock (η α : Type) where
  deployConfig : DeployConfig
  deploys : List (DeployHashWithApprovals η α)
  transfers : List (DeployHashWithApprovals η α)
  deployAndTransferSet : Finset η
  timestamp : Nat
  totalGas : Nat
  totalSize : Nat
  totalApprovals : Nat
  deriving DecidableEq

section Appending
variable {η α : Type} [DecidableEq η]

def AppendableBlock.new (deployConfig : DeployConfig) (timestamp : Nat) : AppendableBlock η α :=
  { deployConfig, deploys := [], transfers := [], deployAndTransferSet := ∅, timestamp,
    totalGas := 0, totalSize := 0, totalApprovals := 0 }

def AppendableBlock.hasMaxTransferCount (block : AppendableBlock η α) : Bool :=
  block.transfers.length = block.deployConfig.blockMaxTransferCount.toNat

def AppendableBlock.hasMaxDeployCount (block : AppendableBlock η α) : Bool :=
  block.deploys.length = block.deployConfig.blockMaxDeployCount.toNat

/-- `would_exceed_approval_limits`: the deploy's approvals must leave one
approval for every remaining deploy slot. The subtractions do not underflow
on a valid configuration. -/
def AppendableBlock.wouldExceedApprovalLimits (block : AppendableBlock η α)
    (additionalApprovals : Nat) : Bool :=
  let remainingApprovalSlots := block.deployConfig.blockMaxApprovalCount.toNat - block.totalApprovals
  let remainingDeploySlots :=
    block.deployConfig.blockMaxTransferCount.toNat - block.transfers.length +
      block.deployConfig.blockMaxDeployCount.toNat - block.deploys.length
  decide (additionalApprovals > remainingApprovalSlots - remainingDeploySlots + 1)

/-- The `DeployHeader::is_valid` leeway `add_deploy` and `add_transfer` use. -/
def noLeeway : Nat := 0

def AppendableBlock.addTransfer (block : AppendableBlock η α)
    (transfer : DeployHashWithApprovals η α) (footprint : DeployFootprint η) :
    Except AddError (AppendableBlock η α) :=
  if transfer.deployHash ∈ block.deployAndTransferSet then .error .duplicate
  else if footprint.header.expired block.timestamp then .error .expired
  else if !footprint.header.isValid block.deployConfig noLeeway block.timestamp then
    .error .invalidDeploy
  else if block.hasMaxTransferCount then .error .transferCount
  else if block.wouldExceedApprovalLimits transfer.approvals.card then .error .approvalCount
  else .ok { block with
    deployAndTransferSet := insert transfer.deployHash block.deployAndTransferSet
    totalApprovals := block.totalApprovals + transfer.approvals.card
    transfers := block.transfers ++ [transfer] }

/-- `add_deploy`: as `add_transfer`, and only deploys count towards the size
and gas limits. -/
def AppendableBlock.addDeploy (block : AppendableBlock η α)
    (deploy : DeployHashWithApprovals η α) (footprint : DeployFootprint η) :
    Except AddError (AppendableBlock η α) :=
  if deploy.deployHash ∈ block.deployAndTransferSet then .error .duplicate
  else if footprint.header.expired block.timestamp then .error .expired
  else if !footprint.header.isValid block.deployConfig noLeeway block.timestamp then
    .error .invalidDeploy
  else if block.hasMaxDeployCount then .error .deployCount
  else if block.wouldExceedApprovalLimits deploy.approvals.card then .error .approvalCount
  else
    let newTotalSize := block.totalSize + footprint.sizeEstimate
    if newTotalSize ≥ 2 ^ 64 ∨ newTotalSize > block.deployConfig.maxBlockSize.toNat then
      .error .blockSize
    else
      let newTotalGas := block.totalGas + footprint.gasEstimate
      if newTotalGas ≥ 2 ^ 512 then .error .gasLimit
      else if newTotalGas > block.deployConfig.blockGasLimit.toNat then .error .gasLimit
      else .ok { block with
        totalGas := newTotalGas
        totalSize := newTotalSize
        totalApprovals := block.totalApprovals + deploy.approvals.card
        deployAndTransferSet := insert deploy.deployHash block.deployAndTransferSet
        deploys := block.deploys ++ [deploy] }

def AppendableBlock.add (block : AppendableBlock η α)
    (deployHashWithApprovals : DeployHashWithApprovals η α) (footprint : DeployFootprint η) :
    Except AddError (AppendableBlock η α) :=
  if footprint.isTransfer then block.addTransfer deployHashWithApprovals footprint
  else block.addDeploy deployHashWithApprovals footprint

end Appending

end NodeTypes
