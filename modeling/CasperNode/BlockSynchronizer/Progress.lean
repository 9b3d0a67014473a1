import Mathlib
import CasperNode.BlockSynchronizer.BlockAcquisition

/-!
Block acquisition never goes back (`block_acquisition.rs`, `signature_acquisition.rs`). Along
any run of register calls, with the era's weights fixed, the state stays on the block it was
started for, moves only forward through the states (`progress`), and the signature weight it
holds never drops.

The weight is the subtle part: `apply_signature` recomputes it from the signatures held only
while it is not yet strict, so it never drops because the held signatures only grow and the
weight classes are monotone in the signed weight, as long as the stored weight is no more than
what the held signatures weigh (`Consistent`), which each call keeps.
-/
namespace BlockSynchronizer

variable {κ ρ γ ε φ ψ χ : Type}

def SignatureWeight.rank : SignatureWeight → Nat
  | .insufficient => 0
  | .weak => 1
  | .strict => 2

def SignatureState.isSignature : SignatureState κ ρ → Bool
  | .signature _ => true
  | _ => false

/-- The stored weight is no more than what the held signatures weigh. -/
def SignatureAcquisition.Consistent [DecidableEq κ] (weights : EraValidatorWeights κ)
    (acquisition : SignatureAcquisition κ ρ) : Prop :=
  acquisition.signatureWeight.rank ≤ (weights.signatureWeight acquisition.haveSignatures).rank

/-- From a consistent acquisition to a consistent one, with no less weight. -/
def SignatureAcquisition.Grows [DecidableEq κ] (weights : EraValidatorWeights κ)
    (held held' : SignatureAcquisition κ ρ) : Prop :=
  held.Consistent weights → held'.Consistent weights ∧ held.signatureWeight.rank ≤ held'.signatureWeight.rank

/-- How far a state has come. -/
def BlockAcquisitionState.progress : BlockAcquisitionState κ ρ γ ε φ ψ → Nat
  | .initialized .. => 0
  | .haveBlockHeader .. => 1
  | .haveWeakFinalitySignatures .. => 2
  | .haveBlock .. => 3
  | .haveGlobalState .. => 4
  | .haveAllExecutionResults .. => 5
  | .haveApprovalsHashes .. => 6
  | .haveAllDeploys .. => 7
  | .haveStrictFinalitySignatures .. => 8
  | .haveFinalizedBlock .. => 9
  | .complete .. => 10
  | .failed .. => 11

/-- The signatures a state holds. -/
def BlockAcquisitionState.signatures? : BlockAcquisitionState κ ρ γ ε φ ψ → Option (SignatureAcquisition κ ρ)
  | .initialized _ signatures => some signatures
  | .haveBlockHeader _ signatures => some signatures
  | .haveWeakFinalitySignatures _ signatures => some signatures
  | .haveBlock _ signatures _ => some signatures
  | .haveGlobalState _ signatures _ _ => some signatures
  | .haveAllExecutionResults _ signatures _ _ => some signatures
  | .haveApprovalsHashes _ signatures _ => some signatures
  | .haveAllDeploys _ signatures => some signatures
  | .haveStrictFinalitySignatures _ signatures => some signatures
  | .haveFinalizedBlock .. | .complete _ | .failed .. => none

/-- One state leads to another: on the same block, no further back, and with signatures that
grew from the ones it held. -/
structure BlockAcquisitionState.Moves [DecidableEq κ] (weights : EraValidatorWeights κ)
    (state state' : BlockAcquisitionState κ ρ γ ε φ ψ) : Prop where
  blockHash : state'.blockHash = state.blockHash
  progress : state.progress ≤ state'.progress
  signatures : ∀ held', state'.signatures? = some held' →
    ∃ held, state.signatures? = some held ∧ held.Grows weights held'

section Signatures

variable [DecidableEq κ] (weights : EraValidatorWeights κ)

theorem rank_signatureWeight_mono {small large : List κ}
    (more : weights.signedWeight small ≤ weights.signedWeight large) :
    (weights.signatureWeight small).rank ≤ (weights.signatureWeight large).rank := by
  have strictMore := Nat.mul_le_mul_right (2 * weights.finalityThresholdFraction.denom) more
  have weakMore := Nat.mul_le_mul_right weights.finalityThresholdFraction.denom more
  dsimp only [EraValidatorWeights.signatureWeight]
  split_ifs <;> simp only [SignatureWeight.rank] <;> omega

theorem signedWeight_le_of_subperm {small large : List κ} (within : small.Subperm large) :
    weights.signedWeight small ≤ weights.signedWeight large := by
  obtain ⟨sub, perm, sublist⟩ := within
  unfold EraValidatorWeights.signedWeight
  rw [← (perm.map weights.getWeight).sum_eq]
  exact (sublist.map weights.getWeight).sum_le_sum fun _ _ => Nat.zero_le _

variable {weights}

omit [DecidableEq κ] in
theorem haveSignatures_eq (acquisition : SignatureAcquisition κ ρ) :
    acquisition.haveSignatures =
      (acquisition.inner.entries.filter fun entry => entry.2.isSignature).map Sigma.fst := by
  unfold SignatureAcquisition.haveSignatures
  generalize acquisition.inner.entries = entries
  induction entries with
  | nil => rfl
  | cons entry rest ih =>
    obtain ⟨key, state⟩ := entry
    cases state <;> simp [SignatureState.isSignature, ih]

omit [DecidableEq κ] in
theorem nodup_haveSignatures (acquisition : SignatureAcquisition κ ρ) : acquisition.haveSignatures.Nodup := by
  rw [haveSignatures_eq]
  exact (List.filter_sublist.map Sigma.fst).nodup acquisition.inner.nodupKeys

theorem mem_haveSignatures {acquisition : SignatureAcquisition κ ρ} {key : κ} :
    key ∈ acquisition.haveSignatures ↔
      ∃ state, acquisition.inner.lookup key = some state ∧ state.isSignature = true := by
  rw [haveSignatures_eq]
  constructor
  · intro member
    obtain ⟨⟨key', state⟩, kept, rfl⟩ := List.mem_map.mp member
    rw [List.mem_filter] at kept
    exact ⟨state, AList.mem_lookup_iff.mpr kept.1, kept.2⟩
  · rintro ⟨state, found, signed⟩
    exact List.mem_map.mpr ⟨⟨key, state⟩, List.mem_filter.mpr ⟨AList.mem_lookup_iff.mp found, signed⟩, rfl⟩

theorem rank_signatureWeight_le_of_subset {held held' : SignatureAcquisition κ ρ}
    (within : held.haveSignatures ⊆ held'.haveSignatures) :
    (weights.signatureWeight held.haveSignatures).rank ≤ (weights.signatureWeight held'.haveSignatures).rank :=
  rank_signatureWeight_mono weights
    (signedWeight_le_of_subperm weights (List.subperm_of_subset (nodup_haveSignatures held) within))

theorem SignatureAcquisition.consistent_new (validators : List κ) (legacyRequiredFinality : LegacyRequiredFinality) :
    (SignatureAcquisition.new validators legacyRequiredFinality : SignatureAcquisition κ ρ).Consistent weights :=
  Nat.zero_le _

theorem SignatureAcquisition.Grows.refl (held : SignatureAcquisition κ ρ) : held.Grows weights held :=
  fun consistent => ⟨consistent, le_rfl⟩

theorem SignatureAcquisition.Grows.trans {held₁ held₂ held₃ : SignatureAcquisition κ ρ} (first : held₁.Grows weights held₂)
    (second : held₂.Grows weights held₃) : held₁.Grows weights held₃ := by
  intro consistent
  obtain ⟨consistent₂, more₂⟩ := first consistent
  obtain ⟨consistent₃, more₃⟩ := second consistent₂
  exact ⟨consistent₃, more₂.trans more₃⟩

theorem grows_setIsLegacy (held : SignatureAcquisition κ ρ) (isLegacy : Bool) :
    held.Grows weights (held.setIsLegacy isLegacy) :=
  .refl held

theorem haveSignatures_subset_insert (held : SignatureAcquisition κ ρ) (signature : FinalitySignature κ ρ) :
    held.haveSignatures ⊆
      ({ held with inner := held.inner.insert signature.publicKey (.signature signature) } :
        SignatureAcquisition κ ρ).haveSignatures := by
  intro key member
  obtain ⟨state, found, signed⟩ := mem_haveSignatures.mp member
  apply mem_haveSignatures.mpr
  by_cases same : key = signature.publicKey
  · subst same
    exact ⟨_, AList.lookup_insert _, rfl⟩
  · exact ⟨state, by rw [AList.lookup_insert_ne same]; exact found, signed⟩

theorem SignatureAcquisition.Grows.of_subset {held held' : SignatureAcquisition κ ρ} (grown : held.haveSignatures ⊆ held'.haveSignatures)
    (weight : held'.signatureWeight = held.signatureWeight ∨
      held'.signatureWeight = weights.signatureWeight held'.haveSignatures) :
    held.Grows weights held' := by
  intro consistent
  have more : (weights.signatureWeight held.haveSignatures).rank ≤
      (weights.signatureWeight held'.haveSignatures).rank :=
    rank_signatureWeight_le_of_subset grown
  unfold SignatureAcquisition.Consistent at consistent ⊢
  rcases weight with kept | recomputed
  · rw [kept]
    exact ⟨consistent.trans more, le_rfl⟩
  · rw [recomputed]
    exact ⟨le_rfl, consistent.trans more⟩

/-- `apply_signature` keeps the signatures held, and recomputes the weight from them unless it
is already strict. -/
theorem grows_applySignature (held : SignatureAcquisition κ ρ) (signature : FinalitySignature κ ρ) :
    held.Grows weights (held.applySignature signature weights).1 := by
  unfold SignatureAcquisition.applySignature
  split
  next inner acceptance chosen =>
  -- a signature already held leaves the map as it is, any other is inserted
  have grown : held.haveSignatures ⊆ ({ held with inner } : SignatureAcquisition κ ρ).haveSignatures := by
    split at chosen
    · cases chosen
      exact fun _ member => member
    · cases chosen
      exact haveSignatures_subset_insert held signature
  dsimp only
  split
  · exact .of_subset grown (.inr rfl)
  · exact .of_subset grown (.inl rfl)

end Signatures

section Moves

variable [DecidableEq κ] {weights : EraValidatorWeights κ}

attribute [local simp] BlockAcquisitionState.progress

theorem BlockAcquisitionState.Moves.refl (state : BlockAcquisitionState κ ρ γ ε φ ψ) :
    state.Moves weights state :=
  ⟨rfl, le_rfl, fun held found => ⟨held, found, .refl held⟩⟩

theorem BlockAcquisitionState.Moves.trans {state₁ state₂ state₃ : BlockAcquisitionState κ ρ γ ε φ ψ}
    (first : state₁.Moves weights state₂) (second : state₂.Moves weights state₃) :
    state₁.Moves weights state₃ where
  blockHash := second.blockHash.trans first.blockHash
  progress := first.progress.trans second.progress
  signatures held₃ found₃ := by
    obtain ⟨held₂, found₂, grown₂⟩ := second.signatures held₃ found₃
    obtain ⟨held₁, found₁, grown₁⟩ := first.signatures held₂ found₂
    exact ⟨held₁, found₁, grown₁.trans grown₂⟩

theorem BlockAcquisitionState.Moves.of_held {state state' : BlockAcquisitionState κ ρ γ ε φ ψ}
    {held held' : SignatureAcquisition κ ρ} (hash : state'.blockHash = state.blockHash)
    (progress : state.progress ≤ state'.progress) (found : state.signatures? = some held)
    (found' : state'.signatures? = some held') (grown : held.Grows weights held') :
    state.Moves weights state' where
  blockHash := hash
  progress := progress
  signatures held'' found'' := by
    obtain rfl : held' = held'' := Option.some.inj (found'.symm.trans found'')
    exact ⟨held, found, grown⟩

theorem BlockAcquisitionState.Moves.of_dropped {state state' : BlockAcquisitionState κ ρ γ ε φ ψ}
    (hash : state'.blockHash = state.blockHash) (progress : state.progress ≤ state'.progress)
    (dropped : state'.signatures? = none) : state.Moves weights state' where
  blockHash := hash
  progress := progress
  signatures held' found' := by
    rw [dropped] at found'
    cases found'

end Moves

section Transitions

variable [DecidableEq κ] {weights : EraValidatorWeights κ}

attribute [local simp] BlockAcquisitionState.progress

theorem registerBlockHeader_moves [DecidableEq ρ] (state : BlockAcquisitionState κ ρ γ ε φ ψ) (header : BlockHeader ρ)
    (version : ProtocolVersion) (isHistorical : Bool) :
    state.Moves weights (state.registerBlockHeader header version isHistorical).1 := by
  unfold BlockAcquisitionState.registerBlockHeader
  split
  · split
    · next same => exact .of_held same (by simp) rfl rfl (grows_setIsLegacy _ _)
    · exact .refl _
  · exact .refl _

theorem registerBlock_moves [DecidableEq ρ] (state : BlockAcquisitionState κ ρ γ ε φ ψ) (block : Block ρ)
    (needExecutionState : Bool) :
    state.Moves weights (state.registerBlock block needExecutionState).1 := by
  unfold BlockAcquisitionState.registerBlock
  split
  · split
    · exact .refl _
    · next same => exact .of_held (not_not.mp same) (by simp) rfl rfl (.refl _)
  · exact .refl _

/-- Every state that holds signatures applies the signature in place, and at most moves on to
strict finality with them. -/
theorem registerFinalitySignature_moves (state : BlockAcquisitionState κ ρ γ ε φ ψ)
    (signature : FinalitySignature κ ρ) (isHistorical : Bool) :
    state.Moves weights (state.registerFinalitySignature signature weights isHistorical).1 := by
  have grown : ∀ held : SignatureAcquisition κ ρ, held.Grows weights (held.applySignature signature weights).1 :=
    fun held => grows_applySignature held signature
  unfold BlockAcquisitionState.registerFinalitySignature
  dsimp only
  split
  all_goals (try split)
  all_goals first
    | exact .of_held rfl (by simp) rfl rfl (grown _)
    | exact .refl _

theorem registerApprovalsHashes_moves (state : BlockAcquisitionState κ ρ γ ε φ ψ)
    (approvalsHashes : List ρ) (needExecutionState : Bool) :
    state.Moves weights (state.registerApprovalsHashes approvalsHashes needExecutionState).1 := by
  unfold BlockAcquisitionState.registerApprovalsHashes
  dsimp only
  repeat' split
  all_goals first
    | exact .refl _
    | exact .of_held rfl (by simp) rfl rfl (.refl _)

theorem registerGlobalState_moves [DecidableEq ρ] (state : BlockAcquisitionState κ ρ γ ε φ ψ) (rootHash : ρ)
    (needExecutionState : Bool) :
    state.Moves weights (state.registerGlobalState rootHash needExecutionState).1 := by
  unfold BlockAcquisitionState.registerGlobalState
  repeat' split
  all_goals first
    | exact .refl _
    | exact .of_held rfl (by simp) rfl rfl (.refl _)

theorem registerExecutionResultsChecksum_moves (state : BlockAcquisitionState κ ρ γ ε φ ψ)
    (checksum : ExecutionResultsChecksum ρ) (needExecutionState : Bool) :
    state.Moves weights (state.registerExecutionResultsChecksum checksum needExecutionState).1 := by
  unfold BlockAcquisitionState.registerExecutionResultsChecksum
  repeat' split
  all_goals first
    | exact .refl _
    | exact .of_held rfl (by simp) rfl rfl (.refl _)

theorem registerExecutionResultsOrChunk_moves
    (applyBlockExecutionResultsOrChunk : ExecutionResultsAcquisition ρ γ ε → χ → List ρ →
      Except (ExecutionResultsError ρ) (ExecutionResultsAcquisition ρ γ ε × Acceptance))
    (state : BlockAcquisitionState κ ρ γ ε φ ψ) (chunk : χ) (needExecutionState : Bool) :
    state.Moves weights
      (state.registerExecutionResultsOrChunk applyBlockExecutionResultsOrChunk chunk needExecutionState).1 := by
  unfold BlockAcquisitionState.registerExecutionResultsOrChunk
  repeat' split
  all_goals first
    | exact .refl _
    | exact .of_held rfl (by simp) rfl rfl (.refl _)

theorem registerExecutionResultsStoredNotification_moves (state : BlockAcquisitionState κ ρ γ ε φ ψ)
    (needExecutionState : Bool) :
    state.Moves weights (state.registerExecutionResultsStoredNotification needExecutionState).1 := by
  unfold BlockAcquisitionState.registerExecutionResultsStoredNotification
  repeat' split
  all_goals first
    | exact .refl _
    | exact .of_held rfl (by simp) rfl rfl (.refl _)

theorem registerDeploy_moves [DecidableEq ρ] (state : BlockAcquisitionState κ ρ γ ε φ ψ) (deployId : DeployId ρ)
    (isHistorical : Bool) : state.Moves weights (state.registerDeploy deployId isHistorical).1 := by
  unfold BlockAcquisitionState.registerDeploy registerDeployIn
  dsimp only
  repeat' split
  all_goals first
    | exact .refl _
    | exact .of_held rfl (by simp) rfl rfl (.refl _)

theorem registerMadeFinalizedBlock_moves (state : BlockAcquisitionState κ ρ γ ε φ ψ)
    (needExecutionState : Bool) (finalizedBlock : φ) (deploys : List ψ) :
    state.Moves weights (state.registerMadeFinalizedBlock needExecutionState finalizedBlock deploys).1 := by
  unfold BlockAcquisitionState.registerMadeFinalizedBlock
  repeat' split
  all_goals first
    | exact .refl _
    | exact .of_dropped rfl (by simp) rfl

theorem registerBlockExecutionEnqueued_moves (state : BlockAcquisitionState κ ρ γ ε φ ψ) :
    state.Moves weights state.registerBlockExecutionEnqueued.1 := by
  unfold BlockAcquisitionState.registerBlockExecutionEnqueued
  split
  · exact .of_dropped rfl (by simp) rfl
  · exact .refl _

theorem registerBlockExecuted_moves (state : BlockAcquisitionState κ ρ γ ε φ ψ)
    (needExecutionState : Bool) : state.Moves weights (state.registerBlockExecuted needExecutionState).1 := by
  unfold BlockAcquisitionState.registerBlockExecuted
  repeat' split
  all_goals first
    | exact .refl _
    | exact .of_dropped rfl (by simp) rfl

theorem registerMarkedComplete_moves (state : BlockAcquisitionState κ ρ γ ε φ ψ)
    (needExecutionState : Bool) : state.Moves weights (state.registerMarkedComplete needExecutionState).1 := by
  unfold BlockAcquisitionState.registerMarkedComplete
  repeat' split
  all_goals first
    | exact .refl _
    | exact .of_dropped rfl (by simp) rfl

theorem nextAction_moves (state : BlockAcquisitionState κ ρ γ ε φ ψ) (isHistorical : Bool) :
    state.Moves weights (state.nextAction isHistorical).1 := by
  unfold BlockAcquisitionState.nextAction
  dsimp only
  repeat' split
  all_goals first
    | exact .refl _
    | exact .of_held rfl (by simp) rfl rfl (grows_setIsLegacy _ _)

theorem switchToHaveStrictFinality_moves [DecidableEq ρ] (state : BlockAcquisitionState κ ρ γ ε φ ψ) (blockHash : ρ)
    (isHistorical : Bool) :
    state.Moves weights (state.switchToHaveStrictFinality blockHash isHistorical).1 := by
  unfold BlockAcquisitionState.switchToHaveStrictFinality
  repeat' split
  all_goals first
    | exact .refl _
    | exact .of_held rfl (by simp) rfl rfl (.refl _)

end Transitions

section Runs

variable [DecidableEq κ] [DecidableEq ρ]

theorem step_moves (context : SyncContext κ ρ γ ε χ) (state : BlockAcquisitionState κ ρ γ ε φ ψ)
    (op : SyncOp κ ρ χ φ ψ) : state.Moves context.validatorWeights (state.step context op) := by
  cases op with
  | registerBlockHeader header version => exact registerBlockHeader_moves state header version _
  | registerBlock block => exact registerBlock_moves state block _
  | registerFinalitySignature signature => exact registerFinalitySignature_moves state signature _
  | registerApprovalsHashes approvalsHashes => exact registerApprovalsHashes_moves state approvalsHashes _
  | registerGlobalState rootHash => exact registerGlobalState_moves state rootHash _
  | registerExecutionResultsChecksum checksum => exact registerExecutionResultsChecksum_moves state checksum _
  | registerExecutionResultsOrChunk chunk => exact registerExecutionResultsOrChunk_moves _ state chunk _
  | registerExecutionResultsStoredNotification => exact registerExecutionResultsStoredNotification_moves state _
  | registerDeploy deployId => exact registerDeploy_moves state deployId _
  | registerMadeFinalizedBlock finalizedBlock deploys =>
    exact registerMadeFinalizedBlock_moves state _ finalizedBlock deploys
  | registerBlockExecutionEnqueued => exact registerBlockExecutionEnqueued_moves state
  | registerBlockExecuted => exact registerBlockExecuted_moves state _
  | registerMarkedComplete => exact registerMarkedComplete_moves state _
  | nextAction => exact nextAction_moves state _
  | switchToHaveStrictFinality =>
    -- `next_action` first, then the switch when it asked for one
    have asked : state.Moves context.validatorWeights (state.nextAction context.isHistorical).1 :=
      nextAction_moves state context.isHistorical
    dsimp only [BlockAcquisitionState.step]
    split
    · next state' blockHash height found =>
      rw [found] at asked
      exact asked.trans (switchToHaveStrictFinality_moves state' blockHash _)
    · next state' answer _ found =>
      rw [found] at asked
      exact asked

theorem run_append (context : SyncContext κ ρ γ ε χ) (state : BlockAcquisitionState κ ρ γ ε φ ψ)
    (ops more : List (SyncOp κ ρ χ φ ψ)) :
    state.run context (ops ++ more) = (state.run context ops).run context more := by
  induction ops generalizing state with
  | nil => rfl
  | cons op ops ih => exact ih (state.step context op)

theorem run_moves (context : SyncContext κ ρ γ ε χ) (state : BlockAcquisitionState κ ρ γ ε φ ψ)
    (ops : List (SyncOp κ ρ χ φ ψ)) : state.Moves context.validatorWeights (state.run context ops) := by
  induction ops generalizing state with
  | nil => exact .refl state
  | cons op ops ih => exact (step_moves context state op).trans (ih (state.step context op))

/-- Along any run, the acquisition stays on its block, and from any point on its state goes no
further back and the weight of its signatures does not drop, provided the weight it started
with is no more than its signatures weigh, as `SignatureAcquisition::new` leaves it. -/
theorem block_acquisition_never_regresses (context : SyncContext κ ρ γ ε χ)
    (state : BlockAcquisitionState κ ρ γ ε φ ψ)
    (consistent : ∀ held, state.signatures? = some held → held.Consistent context.validatorWeights)
    (ops more : List (SyncOp κ ρ χ φ ψ)) :
    (state.run context (ops ++ more)).blockHash = state.blockHash ∧
      (state.run context ops).progress ≤ (state.run context (ops ++ more)).progress ∧
      ∀ held held', (state.run context ops).signatures? = some held →
        (state.run context (ops ++ more)).signatures? = some held' →
          held.signatureWeight.rank ≤ held'.signatureWeight.rank := by
  have first := run_moves context state ops
  have second := run_moves context (state.run context ops) more
  rw [← run_append] at second
  refine ⟨second.blockHash.trans first.blockHash, second.progress, fun held held' found found' => ?_⟩
  obtain ⟨start, started, grownFromStart⟩ := first.signatures held found
  obtain ⟨held₀, found₀, grown⟩ := second.signatures held' found'
  obtain rfl : held = held₀ := Option.some.inj (found.symm.trans found₀)
  -- the signatures held part way are consistent, since they grew from consistent ones
  exact (grown (grownFromStart (consistent start started)).1).2

/-- A forward sync of block 5 stays on it while it takes the header, a signature and the body. -/
theorem acquisition_stays_on_block_five :
    ((.initialized 5 (SignatureAcquisition.new [1] .strict) : BlockAcquisitionState Nat Nat Unit Unit Unit Unit).run
        (⟨false, ⟨0, [(1, 10)], ⟨1, 3⟩⟩, fun _ _ _ => .error (.invalidChunkCount 5)⟩ :
          SyncContext Nat Nat Unit Unit Unit)
        ([.registerBlockHeader ⟨5, 1, 0, ⟨1, 5, 0⟩, 9⟩ ⟨1, 5, 0⟩, .registerFinalitySignature ⟨5, 0, 1⟩] ++
          [.registerBlock ⟨5, ⟨5, 1, 0, ⟨1, 5, 0⟩, 9⟩, [21, 22], []⟩])).blockHash = 5 :=
  (block_acquisition_never_regresses
    (⟨false, ⟨0, [(1, 10)], ⟨1, 3⟩⟩, fun _ _ _ => .error (.invalidChunkCount 5)⟩ :
      SyncContext Nat Nat Unit Unit Unit)
    (.initialized 5 (SignatureAcquisition.new [1] .strict) : BlockAcquisitionState Nat Nat Unit Unit Unit Unit)
    (fun held found => by
      cases found
      exact SignatureAcquisition.consistent_new [1] .strict)
    [.registerBlockHeader ⟨5, 1, 0, ⟨1, 5, 0⟩, 9⟩ ⟨1, 5, 0⟩, .registerFinalitySignature ⟨5, 0, 1⟩]
    [.registerBlock ⟨5, ⟨5, 1, 0, ⟨1, 5, 0⟩, 9⟩, [21, 22], []⟩]).1

end Runs

end BlockSynchronizer
