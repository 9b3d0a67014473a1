import Mathlib
import CasperNode.Types.BlockLimits

/-!
The proposer's side of the block limits (`node/src/components/deploy_buffer.rs`). `proposable`
offers the buffered deploys that are neither held nor dead, and `appendable_block` adds them one
by one to a new `AppendableBlock`, skipping an item or stopping on the errors of `add`. What it
proposes is the block of the items it added, in the order it added them; the validator adds the
same items in the order it fetches them.

The hash sets and the `BTreeMap` of holds are lists; the metrics and the logging are left out.
-/

namespace NodeTypes

variable {η α : Type} [DecidableEq η]

structure DeployBuffer (η α : Type) where
  deployConfig : DeployConfig
  buffer : List (η × Option (DeployFootprint η × Finset α))
  hold : List (Nat × List η)
  dead : List η

structure Packing (η α : Type) where
  block : AppendableBlock η α
  holds : List η
  dead : List η
  haveHitTransferLimit : Bool
  haveHitDeployLimit : Bool

namespace DeployBuffer

def proposable (deployBuffer : DeployBuffer η α) : List (Item η α) :=
  deployBuffer.buffer.filterMap fun (deployHash, maybeData) =>
    if deployBuffer.hold.any fun entry => entry.2.contains deployHash then none
    else if deployBuffer.dead.contains deployHash then none
    else maybeData.map fun (footprint, approvals) => (⟨deployHash, approvals⟩, footprint)

/-- `hold.entry(timestamp)`: a new entry for the timestamp, or its hashes extended. -/
def extendHold (timestamp : Nat) (holds : List η) : List (Nat × List η) → List (Nat × List η)
  | [] => [(timestamp, holds)]
  | (heldAt, held) :: rest =>
    if heldAt = timestamp then (heldAt, held ++ holds) :: rest
    else (heldAt, held) :: extendHold timestamp holds rest

end DeployBuffer

/-- The loop of `appendable_block` from `packing` over the items left; a `break` returns the
state as it is. -/
def Packing.fill : Packing η α → List (Item η α) → Packing η α
  | packing, [] => packing
  | packing, (withApprovals, footprint) :: rest =>
    if footprint.isTransfer && packing.haveHitTransferLimit then packing.fill rest
    else if !footprint.isTransfer && packing.haveHitDeployLimit then packing.fill rest
    else
      match packing.block.add withApprovals footprint with
      | .ok block => { packing with block, holds := packing.holds ++ [withApprovals.deployHash] }.fill rest
      | .error .duplicate | .error .expired | .error .invalidDeploy =>
        { packing with dead := packing.dead ++ [withApprovals.deployHash] }.fill rest
      | .error .transferCount =>
        if packing.haveHitDeployLimit then packing
        else { packing with haveHitTransferLimit := true }.fill rest
      | .error .deployCount =>
        if packing.haveHitTransferLimit then packing
        else { packing with haveHitDeployLimit := true }.fill rest
      -- a deploy with fewer approvals may still fit
      | .error .approvalCount => if withApprovals.approvals.card > 1 then packing.fill rest else packing
      | .error .gasLimit | .error .blockSize => packing

/-- `appendable_block`: the block proposed, and the buffer with the proposed hashes held at the
timestamp and the refused ones dead. -/
def DeployBuffer.appendableBlock (deployBuffer : DeployBuffer η α) (timestamp : Nat) :
    AppendableBlock η α × DeployBuffer η α :=
  let packed := Packing.fill ⟨.new deployBuffer.deployConfig timestamp, [], [], false, false⟩ deployBuffer.proposable
  (packed.block, { deployBuffer with
    hold := DeployBuffer.extendHold timestamp packed.holds deployBuffer.hold
    dead := deployBuffer.dead ++ packed.dead })

/-- The block the loop ends with is the block it started from with a sublist of the items
added in order. By induction on the items: an item is added, skipped, or the loop stops. -/
theorem Packing.fill_addAll (packing : Packing η α) (items : List (Item η α)) :
    ∃ payload, payload.Sublist items ∧ packing.block.addAll payload = .ok (packing.fill items).block := by
  induction items generalizing packing with
  | nil => exact ⟨[], .slnil, rfl⟩
  | cons item rest ih =>
    obtain ⟨withApprovals, footprint⟩ := item
    have skip : ∀ packing' : Packing η α, packing'.block = packing.block →
        ∃ payload, payload.Sublist ((withApprovals, footprint) :: rest) ∧
          packing.block.addAll payload = .ok (packing'.fill rest).block := by
      intro packing' same
      obtain ⟨payload, sub, added⟩ := ih packing'
      exact ⟨payload, sub.cons _, same ▸ added⟩
    have stop : ∃ payload, payload.Sublist ((withApprovals, footprint) :: rest) ∧
        packing.block.addAll payload = .ok packing.block := ⟨[], List.nil_sublist _, rfl⟩
    unfold Packing.fill
    split
    · exact skip packing rfl
    split
    · exact skip packing rfl
    split
    · next block added =>
      obtain ⟨payload, sub, later⟩ := ih { packing with block, holds := packing.holds ++ [withApprovals.deployHash] }
      exact ⟨(withApprovals, footprint) :: payload, sub.cons_cons _, Except.bind_eq_ok.mpr ⟨block, added, later⟩⟩
    all_goals first
      | exact stop
      | exact skip _ rfl
      | split
        · exact stop
        · exact skip _ rfl
      | split
        · exact skip _ rfl
        · exact stop

open AppendableBlock in
theorem block_limits_do_not_depend_on_order {η α : Type} [DecidableEq η] (config : DeployConfig)
    (valid : config.isValid = true) (timestamp : Nat) (items : List (Item η α))
    (approved : ∀ item ∈ items, 0 < item.1.approvals.card) :
    (∀ items', items'.Perm items →
      ((∃ block, (new config timestamp : AppendableBlock η α).addAll items' = .ok block) ↔
        ∃ block, (new config timestamp : AppendableBlock η α).addAll items = .ok block)) ∧
    ((∃ block, (new config timestamp : AppendableBlock η α).addAll items = .ok block) ↔
      (items.map (·.1.deployHash)).Nodup ∧
      (∀ item ∈ items, item.2.header.expired timestamp = false ∧
        item.2.header.isValid config noLeeway timestamp = true) ∧
      (items.map Item.transferSlot).sum ≤ config.blockMaxTransferCount.toNat ∧
      (items.map Item.deploySlot).sum ≤ config.blockMaxDeployCount.toNat ∧
      (items.map Item.approvalCount).sum + (config.blockMaxTransferCount.toNat - (items.map Item.transferSlot).sum) +
          (config.blockMaxDeployCount.toNat - (items.map Item.deploySlot).sum) ≤ config.blockMaxApprovalCount.toNat ∧
      (items.map Item.size).sum ≤ config.maxBlockSize.toNat ∧
      (items.map Item.gas).sum ≤ config.blockGasLimit.toNat) ∧
    (∀ (items' : List (Item η α)) (block : AppendableBlock η α),
      (new config timestamp : AppendableBlock η α).addAll items' = .ok block → block.ApprovalSlotsInRange) ∧
    ∀ deployBuffer : DeployBuffer η α, deployBuffer.deployConfig = config →
      (∀ item ∈ deployBuffer.proposable, 0 < item.1.approvals.card) →
      ∃ payload, payload.Sublist deployBuffer.proposable ∧
        (new config timestamp : AppendableBlock η α).addAll payload = .ok (deployBuffer.appendableBlock timestamp).1 ∧
        ∀ order, order.Perm payload → ∃ block, (new config timestamp : AppendableBlock η α).addAll order = .ok block := by
  have within : (new config timestamp : AppendableBlock η α).WithinLimits := new_withinLimits valid timestamp
  refine ⟨fun items' moved => within.addAll_isOk_of_perm approved moved,
    (addAll_isOk_iff within approved).trans admits_new_iff,
    fun items' block added => (within.addAll added).approvalSlotsInRange, fun deployBuffer configured offered => ?_⟩
  -- the proposer's payload is added in its own order, so in every other order too
  subst configured
  obtain ⟨payload, sub, added⟩ := Packing.fill_addAll ⟨.new deployBuffer.deployConfig timestamp, [], [], false, false⟩
    deployBuffer.proposable
  have approvedPayload : ∀ item ∈ payload, 0 < item.1.approvals.card := fun item member =>
    offered item (sub.subset member)
  exact ⟨payload, sub, added, fun order moved =>
    (within.addAll_isOk_of_perm approvedPayload moved).mpr ⟨_, added⟩⟩

/-- A transfer and a deploy, in either order, under the configuration of a test chainspec; and
the block proposed from a buffer holding them. -/
theorem block_limits_do_not_depend_on_order_for_transfer_and_deploy :
    ((∃ block, (AppendableBlock.new ⟨86400000, 10, 4194304, 100, 100, 200, 10000000000⟩ 100 :
        AppendableBlock Nat Nat).addAll
        [(⟨1, {2, 3}⟩, ⟨⟨90, 1000, []⟩, 5, 10, false⟩), (⟨0, {1}⟩, ⟨⟨90, 1000, []⟩, 0, 0, true⟩)] = .ok block) ↔
      ∃ block, (AppendableBlock.new ⟨86400000, 10, 4194304, 100, 100, 200, 10000000000⟩ 100 :
        AppendableBlock Nat Nat).addAll
        [(⟨0, {1}⟩, ⟨⟨90, 1000, []⟩, 0, 0, true⟩), (⟨1, {2, 3}⟩, ⟨⟨90, 1000, []⟩, 5, 10, false⟩)] = .ok block) ∧
    ∃ payload, payload.Sublist (⟨⟨86400000, 10, 4194304, 100, 100, 200, 10000000000⟩,
        [(0, some (⟨⟨90, 1000, []⟩, 0, 0, true⟩, {1})), (1, some (⟨⟨90, 1000, []⟩, 5, 10, false⟩, {2, 3}))], [], []⟩ :
          DeployBuffer Nat Nat).proposable ∧
      (AppendableBlock.new ⟨86400000, 10, 4194304, 100, 100, 200, 10000000000⟩ 100 : AppendableBlock Nat Nat).addAll
        payload = .ok (DeployBuffer.appendableBlock ⟨⟨86400000, 10, 4194304, 100, 100, 200, 10000000000⟩,
          [(0, some (⟨⟨90, 1000, []⟩, 0, 0, true⟩, {1})), (1, some (⟨⟨90, 1000, []⟩, 5, 10, false⟩, {2, 3}))], [], []⟩
          100).1 ∧
      ∀ order, order.Perm payload → ∃ block, (AppendableBlock.new ⟨86400000, 10, 4194304, 100, 100, 200, 10000000000⟩
        100 : AppendableBlock Nat Nat).addAll order = .ok block :=
  have limits := block_limits_do_not_depend_on_order ⟨86400000, 10, 4194304, 100, 100, 200, 10000000000⟩ (by decide)
    100 [(⟨0, {1}⟩, ⟨⟨90, 1000, []⟩, 0, 0, true⟩), (⟨1, {2, 3}⟩, ⟨⟨90, 1000, []⟩, 5, 10, false⟩)] (by decide)
  ⟨limits.1 _ (List.Perm.swap _ _ _), limits.2.2.2 _ rfl (by decide)⟩

end NodeTypes
