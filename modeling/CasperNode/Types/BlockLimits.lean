import Mathlib
import CasperNode.Types.AppendableBlock
import CasperNode.Lib.ExceptBind

/-!
The limits of an `AppendableBlock` (`node/src/types/appendable_block.rs`) do not depend on the
order the items come in. The proposer (`DeployBuffer::appendable_block`) and the block
validator (`BlockValidationState::try_add_deploy_footprint`, in the order the deploys are
fetched) add items one by one to `AppendableBlock::new`. Adding all of them succeeds exactly
when totals over the items are within the limits, and no order changes a total.
-/

namespace NodeTypes

/-- An item to add: the deploy or transfer with its approvals, and its footprint. -/
abbrev Item (η α : Type) := DeployHashWithApprovals η α × DeployFootprint η

namespace Item

variable {η α : Type}

/-- What one item takes of each limit: a transfer slot or a deploy slot, its approvals, and
for a deploy its size and gas. -/
def transferSlot (item : Item η α) : Nat := if item.2.isTransfer then 1 else 0

def deploySlot (item : Item η α) : Nat := if item.2.isTransfer then 0 else 1

def approvalCount (item : Item η α) : Nat := item.1.approvals.card

def size (item : Item η α) : Nat := if item.2.isTransfer then 0 else item.2.sizeEstimate

def gas (item : Item η α) : Nat := if item.2.isTransfer then 0 else item.2.gasEstimate

theorem transferSlot_add_deploySlot (item : Item η α) : transferSlot item + deploySlot item = 1 := by
  unfold transferSlot deploySlot
  split <;> rfl

theorem sum_slots (items : List (Item η α)) :
    (items.map transferSlot).sum + (items.map deploySlot).sum = items.length := by
  induction items with
  | nil => rfl
  | cons item items ih =>
    have := transferSlot_add_deploySlot item
    simp only [List.map_cons, List.sum_cons, List.length_cons]
    omega

theorem length_le_sum_approvalCount {items : List (Item η α)}
    (approved : ∀ item ∈ items, 0 < item.1.approvals.card) : items.length ≤ (items.map approvalCount).sum := by
  induction items with
  | nil => exact Nat.le_refl _
  | cons item items ih =>
    have first := approved item List.mem_cons_self
    have rest := ih fun other member => approved other (List.mem_cons_of_mem _ member)
    simp only [List.map_cons, List.sum_cons, List.length_cons, approvalCount]
    omega

end Item

section Limits

variable {η α : Type} [DecidableEq η]

/-- `add` for each item in turn, up to the first error. -/
def AppendableBlock.addAll (block : AppendableBlock η α) (items : List (Item η α)) :
    Except AddError (AppendableBlock η α) :=
  items.foldlM (fun block item => block.add item.1 item.2) block

namespace AppendableBlock

/-- A block that the checks of `add` have kept within its limits. This is what keeps the
subtractions of `would_exceed_approval_limits` in range: one approval is left for every free
slot. -/
structure WithinLimits (block : AppendableBlock η α) : Prop where
  transfers : block.transfers.length ≤ block.deployConfig.blockMaxTransferCount.toNat
  deploys : block.deploys.length ≤ block.deployConfig.blockMaxDeployCount.toNat
  approvals : block.totalApprovals + (block.deployConfig.blockMaxTransferCount.toNat - block.transfers.length) +
      (block.deployConfig.blockMaxDeployCount.toNat - block.deploys.length) ≤
    block.deployConfig.blockMaxApprovalCount.toNat
  size : block.totalSize ≤ block.deployConfig.maxBlockSize.toNat
  gas : block.totalGas ≤ block.deployConfig.blockGasLimit.toNat

/-- The four `usize` subtractions of `would_exceed_approval_limits`, each of a value no larger
than what it is subtracted from. -/
def ApprovalSlotsInRange (block : AppendableBlock η α) : Prop :=
  block.totalApprovals ≤ block.deployConfig.blockMaxApprovalCount.toNat ∧
    block.transfers.length ≤ block.deployConfig.blockMaxTransferCount.toNat ∧
    block.deploys.length ≤
      block.deployConfig.blockMaxTransferCount.toNat - block.transfers.length +
        block.deployConfig.blockMaxDeployCount.toNat ∧
    block.deployConfig.blockMaxTransferCount.toNat - block.transfers.length +
        block.deployConfig.blockMaxDeployCount.toNat - block.deploys.length ≤
      block.deployConfig.blockMaxApprovalCount.toNat - block.totalApprovals

/-- What adding `items` to `block` needs, stated with totals over the items: their hashes are
new, their headers pass, and what they take of each limit fits in what the block has left. -/
structure Admits (block : AppendableBlock η α) (items : List (Item η α)) : Prop where
  distinct : (items.map (·.1.deployHash)).Nodup
  fresh : ∀ item ∈ items, item.1.deployHash ∉ block.deployAndTransferSet
  current : ∀ item ∈ items, item.2.header.expired block.timestamp = false ∧
    item.2.header.isValid block.deployConfig noLeeway block.timestamp = true
  transfers : block.transfers.length + (items.map Item.transferSlot).sum ≤
    block.deployConfig.blockMaxTransferCount.toNat
  deploys : block.deploys.length + (items.map Item.deploySlot).sum ≤ block.deployConfig.blockMaxDeployCount.toNat
  approvals : block.totalApprovals + (items.map Item.approvalCount).sum +
      (block.deployConfig.blockMaxTransferCount.toNat - (block.transfers.length + (items.map Item.transferSlot).sum)) +
      (block.deployConfig.blockMaxDeployCount.toNat - (block.deploys.length + (items.map Item.deploySlot).sum)) ≤
    block.deployConfig.blockMaxApprovalCount.toNat
  size : block.totalSize + (items.map Item.size).sum ≤ block.deployConfig.maxBlockSize.toNat
  gas : block.totalGas + (items.map Item.gas).sum ≤ block.deployConfig.blockGasLimit.toNat

/-- The counters of `block'`, the block `block` becomes when `item` is added. -/
structure Adds (block block' : AppendableBlock η α) (item : Item η α) : Prop where
  deployConfig : block'.deployConfig = block.deployConfig
  timestamp : block'.timestamp = block.timestamp
  deployAndTransferSet : block'.deployAndTransferSet = insert item.1.deployHash block.deployAndTransferSet
  transfers : block'.transfers.length = block.transfers.length + Item.transferSlot item
  deploys : block'.deploys.length = block.deploys.length + Item.deploySlot item
  totalApprovals : block'.totalApprovals = block.totalApprovals + Item.approvalCount item
  totalSize : block'.totalSize = block.totalSize + Item.size item
  totalGas : block'.totalGas = block.totalGas + Item.gas item

variable {block block' : AppendableBlock η α}

/-! ### One item -/

theorem addTransfer_eq_ok {transfer : DeployHashWithApprovals η α} {footprint : DeployFootprint η} :
    block.addTransfer transfer footprint = .ok block' ↔
      (transfer.deployHash ∉ block.deployAndTransferSet ∧ footprint.header.expired block.timestamp = false ∧
        footprint.header.isValid block.deployConfig noLeeway block.timestamp = true ∧
        block.hasMaxTransferCount = false ∧ block.wouldExceedApprovalLimits transfer.approvals.card = false) ∧
      block' = { block with
        deployAndTransferSet := insert transfer.deployHash block.deployAndTransferSet
        totalApprovals := block.totalApprovals + transfer.approvals.card
        transfers := block.transfers ++ [transfer] } := by
  constructor
  · intro added
    unfold addTransfer at added
    split_ifs at added with duplicate expired invalid full exceeds
    cases added
    simp only [Bool.not_eq_true] at expired full exceeds
    simp only [Bool.not_eq_eq_eq_not, Bool.not_true, Bool.not_eq_false] at invalid
    exact ⟨⟨duplicate, expired, invalid, full, exceeds⟩, rfl⟩
  · rintro ⟨⟨fresh, current, valid, free, fits⟩, rfl⟩
    rw [addTransfer, if_neg fresh, if_neg (by simp [current]), if_neg (by simp [valid]), if_neg (by simp [free]),
      if_neg (by simp [fits])]

theorem addDeploy_eq_ok {deploy : DeployHashWithApprovals η α} {footprint : DeployFootprint η} :
    block.addDeploy deploy footprint = .ok block' ↔
      (deploy.deployHash ∉ block.deployAndTransferSet ∧ footprint.header.expired block.timestamp = false ∧
        footprint.header.isValid block.deployConfig noLeeway block.timestamp = true ∧
        block.hasMaxDeployCount = false ∧ block.wouldExceedApprovalLimits deploy.approvals.card = false ∧
        block.totalSize + footprint.sizeEstimate < 2 ^ 64 ∧
        block.totalSize + footprint.sizeEstimate ≤ block.deployConfig.maxBlockSize.toNat ∧
        block.totalGas + footprint.gasEstimate < 2 ^ 512 ∧
        block.totalGas + footprint.gasEstimate ≤ block.deployConfig.blockGasLimit.toNat) ∧
      block' = { block with
        totalGas := block.totalGas + footprint.gasEstimate
        totalSize := block.totalSize + footprint.sizeEstimate
        totalApprovals := block.totalApprovals + deploy.approvals.card
        deployAndTransferSet := insert deploy.deployHash block.deployAndTransferSet
        deploys := block.deploys ++ [deploy] } := by
  constructor
  · intro added
    unfold addDeploy at added
    dsimp only at added
    split_ifs at added with duplicate expired invalid full exceeds tooLarge gasOverflow overGas
    cases added
    simp only [Bool.not_eq_true] at expired full exceeds
    simp only [Bool.not_eq_eq_eq_not, Bool.not_true, Bool.not_eq_false] at invalid
    exact ⟨⟨duplicate, expired, invalid, full, exceeds, by omega, by omega, by omega, by omega⟩, rfl⟩
  · rintro ⟨⟨fresh, current, valid, free, fits, sizeFits, sizeWithin, gasFits, gasWithin⟩, rfl⟩
    rw [addDeploy]
    dsimp only
    rw [if_neg fresh, if_neg (by simp [current]), if_neg (by simp [valid]), if_neg (by simp [free]),
      if_neg (by simp [fits]), if_neg (by omega), if_neg (by omega), if_neg (by omega)]

omit [DecidableEq η] in
/-- Within the limits, the approval check asks that the approvals added and one for each
slot still free, this one's included, fit with one to spare. -/
theorem wouldExceedApprovalLimits_eq_false (within : block.WithinLimits) (additionalApprovals : Nat) :
    block.wouldExceedApprovalLimits additionalApprovals = false ↔
      block.totalApprovals + additionalApprovals +
          (block.deployConfig.blockMaxTransferCount.toNat - block.transfers.length) +
          (block.deployConfig.blockMaxDeployCount.toNat - block.deploys.length) ≤
        block.deployConfig.blockMaxApprovalCount.toNat + 1 := by
  have := within.transfers
  have := within.deploys
  have := within.approvals
  simp only [wouldExceedApprovalLimits, decide_eq_false_iff_not, Nat.not_lt]
  omega

omit [DecidableEq η] in
theorem hasMaxTransferCount_eq_false (within : block.WithinLimits) :
    block.hasMaxTransferCount = false ↔ block.transfers.length < block.deployConfig.blockMaxTransferCount.toNat := by
  have := within.transfers
  simp only [hasMaxTransferCount, decide_eq_false_iff_not]
  omega

omit [DecidableEq η] in
theorem hasMaxDeployCount_eq_false (within : block.WithinLimits) :
    block.hasMaxDeployCount = false ↔ block.deploys.length < block.deployConfig.blockMaxDeployCount.toNat := by
  have := within.deploys
  simp only [hasMaxDeployCount, decide_eq_false_iff_not]
  omega

theorem adds_of_add {item : Item η α} (added : block.add item.1 item.2 = .ok block') : Adds block block' item := by
  unfold add at added
  by_cases transfer : item.2.isTransfer = true
  · rw [if_pos transfer] at added
    obtain ⟨_, rfl⟩ := addTransfer_eq_ok.mp added
    exact ⟨rfl, rfl, rfl, by simp [Item.transferSlot, transfer], by simp [Item.deploySlot, transfer], rfl,
      by simp [Item.size, transfer], by simp [Item.gas, transfer]⟩
  · rw [if_neg transfer] at added
    obtain ⟨_, rfl⟩ := addDeploy_eq_ok.mp added
    exact ⟨rfl, rfl, rfl, by simp [Item.transferSlot, transfer], by simp [Item.deploySlot, transfer], rfl,
      by simp [Item.size, transfer], by simp [Item.gas, transfer]⟩

omit [DecidableEq η] in
theorem admits_singleton_iff {item : Item η α} :
    block.Admits [item] ↔
      item.1.deployHash ∉ block.deployAndTransferSet ∧
      (item.2.header.expired block.timestamp = false ∧
        item.2.header.isValid block.deployConfig noLeeway block.timestamp = true) ∧
      block.transfers.length + Item.transferSlot item ≤ block.deployConfig.blockMaxTransferCount.toNat ∧
      block.deploys.length + Item.deploySlot item ≤ block.deployConfig.blockMaxDeployCount.toNat ∧
      block.totalApprovals + Item.approvalCount item +
          (block.deployConfig.blockMaxTransferCount.toNat - (block.transfers.length + Item.transferSlot item)) +
          (block.deployConfig.blockMaxDeployCount.toNat - (block.deploys.length + Item.deploySlot item)) ≤
        block.deployConfig.blockMaxApprovalCount.toNat ∧
      block.totalSize + Item.size item ≤ block.deployConfig.maxBlockSize.toNat ∧
      block.totalGas + Item.gas item ≤ block.deployConfig.blockGasLimit.toNat := by
  constructor
  · rintro ⟨_, fresh, current, transfers, deploys, approvals, size, gas⟩
    simp only [List.map_cons, List.map_nil, List.sum_cons, List.sum_nil, Nat.add_zero]
      at transfers deploys approvals size gas
    exact ⟨fresh item List.mem_cons_self, current item List.mem_cons_self, transfers, deploys, approvals, size, gas⟩
  · rintro ⟨fresh, current, transfers, deploys, approvals, size, gas⟩
    refine ⟨List.nodup_singleton _, ?_, ?_, ?_, ?_, ?_, ?_, ?_⟩
    · intro other member
      rw [List.mem_singleton.mp member]
      exact fresh
    · intro other member
      rw [List.mem_singleton.mp member]
      exact current
    all_goals simpa only [List.map_cons, List.map_nil, List.sum_cons, List.sum_nil, Nat.add_zero]

theorem add_isOk_iff (within : block.WithinLimits) (item : Item η α) :
    (∃ block', block.add item.1 item.2 = .ok block') ↔ block.Admits [item] := by
  have := within.transfers
  have := within.deploys
  have := within.approvals
  have := within.size
  have := within.gas
  rw [admits_singleton_iff]
  unfold add
  by_cases transfer : item.2.isTransfer = true
  · -- a transfer takes a transfer slot and its approvals, nothing of the size or gas
    simp only [if_pos transfer, Item.transferSlot, Item.deploySlot, Item.size, Item.gas, Item.approvalCount,
      Nat.add_zero]
    constructor
    · rintro ⟨_, added⟩
      obtain ⟨⟨fresh, notExpired, valid, free, fits⟩, _⟩ := addTransfer_eq_ok.mp added
      rw [hasMaxTransferCount_eq_false within] at free
      rw [wouldExceedApprovalLimits_eq_false within] at fits
      exact ⟨fresh, ⟨notExpired, valid⟩, by omega, by omega, by omega, by omega, by omega⟩
    · rintro ⟨fresh, ⟨notExpired, valid⟩, free, _, fits, _, _⟩
      exact ⟨_, addTransfer_eq_ok.mpr ⟨⟨fresh, notExpired, valid, (hasMaxTransferCount_eq_false within).mpr (by omega),
        (wouldExceedApprovalLimits_eq_false within _).mpr (by omega)⟩, rfl⟩⟩
  · -- a deploy takes a deploy slot, its approvals, its size and its gas
    have sizeBound := block.deployConfig.maxBlockSize.toNat_lt
    have gasBound := block.deployConfig.blockGasLimit.toNat_lt
    simp only [if_neg transfer, Item.transferSlot, Item.deploySlot, Item.size, Item.gas, Item.approvalCount,
      Nat.add_zero]
    constructor
    · rintro ⟨_, added⟩
      obtain ⟨⟨fresh, notExpired, valid, free, fits, _, sizeWithin, _, gasWithin⟩, _⟩ := addDeploy_eq_ok.mp added
      rw [hasMaxDeployCount_eq_false within] at free
      rw [wouldExceedApprovalLimits_eq_false within] at fits
      exact ⟨fresh, ⟨notExpired, valid⟩, by omega, by omega, by omega, sizeWithin, gasWithin⟩
    · rintro ⟨fresh, ⟨notExpired, valid⟩, _, free, fits, sizeWithin, gasWithin⟩
      exact ⟨_, addDeploy_eq_ok.mpr ⟨⟨fresh, notExpired, valid, (hasMaxDeployCount_eq_false within).mpr (by omega),
        (wouldExceedApprovalLimits_eq_false within _).mpr (by omega), by omega, sizeWithin, by omega, gasWithin⟩,
        rfl⟩⟩

/-! ### A list of items -/

omit [DecidableEq η] in
theorem admits_nil_iff : block.Admits [] ↔ block.WithinLimits := by
  constructor
  · rintro ⟨_, _, _, transfers, deploys, approvals, size, gas⟩
    simp only [List.map_nil, List.sum_nil, Nat.add_zero] at transfers deploys approvals size gas
    exact ⟨transfers, deploys, approvals, size, gas⟩
  · rintro ⟨transfers, deploys, approvals, size, gas⟩
    refine ⟨List.nodup_nil, fun _ member => (nomatch member), fun _ member => (nomatch member), ?_, ?_, ?_, ?_, ?_⟩
    all_goals simpa only [List.map_nil, List.sum_nil, Nat.add_zero]

section Cons

variable {item : Item η α} {items : List (Item η α)}

omit [DecidableEq η] in
/-- The first item is admitted alone: the items after it bring an approval for each of the
slots they take, so the approvals left for free slots only shrink along the list. -/
theorem Admits.head (admits : block.Admits (item :: items))
    (approved : ∀ other ∈ items, 0 < other.1.approvals.card) : block.Admits [item] := by
  obtain ⟨_, fresh, current, transfers, deploys, approvals, size, gas⟩ := admits
  have slots := Item.sum_slots items
  have covered := Item.length_le_sum_approvalCount approved
  simp only [List.map_cons, List.sum_cons] at transfers deploys approvals size gas
  exact admits_singleton_iff.mpr ⟨fresh item List.mem_cons_self, current item List.mem_cons_self,
    by omega, by omega, by omega, by omega, by omega⟩

/-- After the first item, the block it made admits the rest: each total moves from the items
to the block's counters. -/
theorem Admits.tail (adds : Adds block block' item) (admits : block.Admits (item :: items)) :
    block'.Admits items := by
  obtain ⟨distinct, fresh, current, transfers, deploys, approvals, size, gas⟩ := admits
  rw [List.map_cons, List.nodup_cons] at distinct
  simp only [List.map_cons, List.sum_cons] at transfers deploys approvals size gas
  refine ⟨distinct.2, fun other member => ?_, fun other member => ?_, ?_, ?_, ?_, ?_, ?_⟩
  · -- a later hash is neither in the block nor the first item's
    rw [adds.deployAndTransferSet, Finset.mem_insert, not_or]
    refine ⟨fun same => distinct.1 ?_, fresh other (List.mem_cons_of_mem _ member)⟩
    rw [← same]
    exact List.mem_map_of_mem member
  · rw [adds.timestamp, adds.deployConfig]
    exact current other (List.mem_cons_of_mem _ member)
  all_goals
    rw [adds.deployConfig]
    simp only [adds.transfers, adds.deploys, adds.totalApprovals, adds.totalSize, adds.totalGas]
    omega

theorem Admits.cons (adds : Adds block block' item) (first : block.Admits [item]) (rest : block'.Admits items) :
    block.Admits (item :: items) := by
  obtain ⟨fresh, current, _, _, _, _, _⟩ := admits_singleton_iff.mp first
  obtain ⟨distinct, freshRest, currentRest, transfers, deploys, approvals, size, gas⟩ := rest
  rw [adds.deployConfig] at transfers deploys approvals size gas currentRest
  rw [adds.timestamp] at currentRest
  simp only [adds.transfers, adds.deploys, adds.totalApprovals, adds.totalSize, adds.totalGas]
    at transfers deploys approvals size gas
  refine ⟨?_, fun other member => ?_, fun other member => ?_, ?_, ?_, ?_, ?_, ?_⟩
  · -- the first hash is new to the block, and the later ones to the block it made
    rw [List.map_cons, List.nodup_cons]
    refine ⟨fun listed => ?_, distinct⟩
    obtain ⟨later, member, same⟩ := List.mem_map.mp listed
    have := freshRest later member
    rw [adds.deployAndTransferSet, same] at this
    exact this (Finset.mem_insert_self _ _)
  · rcases List.mem_cons.mp member with rfl | later
    · exact fresh
    · have := freshRest other later
      rw [adds.deployAndTransferSet, Finset.mem_insert, not_or] at this
      exact this.2
  · rcases List.mem_cons.mp member with rfl | later
    · exact current
    · exact currentRest other later
  all_goals
    simp only [List.map_cons, List.sum_cons]
    omega

end Cons

omit [DecidableEq η] in
theorem Admits.perm {items items' : List (Item η α)} (moved : items.Perm items') (admits : block.Admits items) :
    block.Admits items' := by
  obtain ⟨distinct, fresh, current, transfers, deploys, approvals, size, gas⟩ := admits
  have sums : ∀ f : Item η α → Nat, (items'.map f).sum = (items.map f).sum := fun f =>
    ((moved.map f).sum_eq).symm
  refine ⟨(moved.map _).nodup_iff.mp distinct, fun other member => fresh other (moved.mem_iff.mpr member),
    fun other member => current other (moved.mem_iff.mpr member), ?_, ?_, ?_, ?_, ?_⟩
  all_goals
    simp only [sums]
    assumption

theorem WithinLimits.add (within : block.WithinLimits) {item : Item η α}
    (added : block.add item.1 item.2 = .ok block') : block'.WithinLimits := by
  have admitted := (add_isOk_iff within item).mp ⟨_, added⟩
  exact admits_nil_iff.mp (admitted.tail (adds_of_add added))

theorem WithinLimits.addAll (within : block.WithinLimits) {items : List (Item η α)}
    (added : block.addAll items = .ok block') : block'.WithinLimits := by
  induction items generalizing block with
  | nil =>
    cases added
    exact within
  | cons item items ih =>
    obtain ⟨next, first, rest⟩ := Except.bind_eq_ok.mp added
    exact ih (within.add first) rest

/-- Items with an approval each are all added exactly when the block admits them. The
induction is on the items; the block within its limits carries it. -/
theorem addAll_isOk_iff (within : block.WithinLimits) {items : List (Item η α)}
    (approved : ∀ item ∈ items, 0 < item.1.approvals.card) :
    (∃ block', block.addAll items = .ok block') ↔ block.Admits items := by
  induction items generalizing block with
  | nil => exact ⟨fun _ => admits_nil_iff.mpr within, fun _ => ⟨block, rfl⟩⟩
  | cons item items ih =>
    have approvedRest : ∀ other ∈ items, 0 < other.1.approvals.card := fun other member =>
      approved other (List.mem_cons_of_mem _ member)
    constructor
    · rintro ⟨_, added⟩
      obtain ⟨next, first, rest⟩ := Except.bind_eq_ok.mp added
      have adds := adds_of_add first
      exact Admits.cons adds ((add_isOk_iff within item).mp ⟨_, first⟩)
        ((ih (within.add first) approvedRest).mp ⟨_, rest⟩)
    · intro admits
      obtain ⟨next, first⟩ := (add_isOk_iff within item).mpr (admits.head approvedRest)
      obtain ⟨final, rest⟩ := (ih (within.add first) approvedRest).mpr (admits.tail (adds_of_add first))
      exact ⟨final, Except.bind_eq_ok.mpr ⟨next, first, rest⟩⟩

theorem WithinLimits.addAll_isOk_of_perm (within : block.WithinLimits) {items items' : List (Item η α)}
    (approved : ∀ item ∈ items, 0 < item.1.approvals.card) (moved : items'.Perm items) :
    (∃ block', block.addAll items' = .ok block') ↔ ∃ block', block.addAll items = .ok block' := by
  have approvedMoved : ∀ item ∈ items', 0 < item.1.approvals.card := fun item member =>
    approved item (moved.mem_iff.mp member)
  rw [addAll_isOk_iff within approvedMoved, addAll_isOk_iff within approved]
  exact ⟨fun admits => admits.perm moved, fun admits => admits.perm moved.symm⟩

omit [DecidableEq η] in
theorem new_withinLimits {config : DeployConfig} (valid : config.isValid = true) (timestamp : Nat) :
    (new config timestamp : AppendableBlock η α).WithinLimits := by
  unfold DeployConfig.isValid at valid
  split at valid
  · have := of_decide_eq_true valid
    exact ⟨Nat.zero_le _, Nat.zero_le _, by simp only [new, List.length_nil]; omega, Nat.zero_le _, Nat.zero_le _⟩
  · cases valid

omit [DecidableEq η] in
theorem WithinLimits.approvalSlotsInRange (within : block.WithinLimits) : block.ApprovalSlotsInRange := by
  have := within.transfers
  have := within.deploys
  have := within.approvals
  unfold ApprovalSlotsInRange
  omega

omit [DecidableEq η] in
theorem admits_new_iff {config : DeployConfig} {timestamp : Nat} {items : List (Item η α)} :
    (new config timestamp : AppendableBlock η α).Admits items ↔
      (items.map (·.1.deployHash)).Nodup ∧
      (∀ item ∈ items, item.2.header.expired timestamp = false ∧
        item.2.header.isValid config noLeeway timestamp = true) ∧
      (items.map Item.transferSlot).sum ≤ config.blockMaxTransferCount.toNat ∧
      (items.map Item.deploySlot).sum ≤ config.blockMaxDeployCount.toNat ∧
      (items.map Item.approvalCount).sum + (config.blockMaxTransferCount.toNat - (items.map Item.transferSlot).sum) +
          (config.blockMaxDeployCount.toNat - (items.map Item.deploySlot).sum) ≤ config.blockMaxApprovalCount.toNat ∧
      (items.map Item.size).sum ≤ config.maxBlockSize.toNat ∧
      (items.map Item.gas).sum ≤ config.blockGasLimit.toNat := by
  constructor
  · rintro ⟨distinct, _, current, transfers, deploys, approvals, size, gas⟩
    simp only [new, List.length_nil, Nat.zero_add] at current transfers deploys approvals size gas
    exact ⟨distinct, current, transfers, deploys, approvals, size, gas⟩
  · rintro ⟨distinct, current, transfers, deploys, approvals, size, gas⟩
    refine ⟨distinct, fun _ _ => Finset.notMem_empty _, current, ?_, ?_, ?_, ?_, ?_⟩
    all_goals simpa only [new, List.length_nil, Nat.zero_add]

end AppendableBlock

end Limits

end NodeTypes
