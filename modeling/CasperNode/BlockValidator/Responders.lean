import Mathlib
import CasperNode.BlockValidator.Purge

/-!
No validation request is answered twice or dropped (`block_validator.rs`). A request's
responder is kept in its block's state while that is in progress, and is sent a response when
the state completes, when no holder is left to ask, or at once for a block already decided.
Every handler conserves the responders: those the states hold after it, and those it answers,
are those held before and that of the request it handled (`Conserves`, per state, then per
component). Purging completed states drops none, since only states in progress hold any.
-/

namespace BlockValidation

open NodeTypes

variable {ν η α β χ ρ : Type}

/-- The responders a state holds: those of a state in progress. -/
def BlockValidationState.responders : BlockValidationState ν η α χ ρ → List ρ
  | .inProgress _ _ _ responders => responders
  | _ => []

def Effect.responder? : Effect ν η χ ρ → Option ρ
  | .respond responder _ => some responder
  | .fetch .. => none

def Event.responder? : Event ν η α β ρ → Option ρ
  | .request _ _ responder => some responder
  | .deployFetched .. => none

def BlockValidator.pendingResponders (validator : BlockValidator ν η α β χ ρ) : List ρ :=
  validator.validationStates.flatMap fun entry => entry.2.responders

/-- A handler of one state conserves responders: the state it leaves holds, and its effects
answer, the responders `held` before. -/
def Conserves (held : List ρ) (result : BlockValidationState ν η α χ ρ × List (Effect ν η χ ρ)) : Prop :=
  List.Perm (result.1.responders ++ result.2.filterMap Effect.responder?) held

section Effects

theorem responders_respond (isValid : Bool) (responders : List ρ) :
    (respond (ν := ν) (η := η) (χ := χ) isValid responders).filterMap Effect.responder? = responders := by
  induction responders with
  | nil => rfl
  | cons responder rest ih => simp [respond, Effect.responder?] at ih ⊢; exact ih

theorem responders_fetchDeploys (holder : ν) (missingDeploys : List (DeployOrTransferHash η × χ)) :
    (fetchDeploys (ρ := ρ) holder missingDeploys).filterMap Effect.responder? = [] := by
  simp [fetchDeploys, Effect.responder?]

end Effects

namespace BlockValidationState

variable [DecidableEq ν] [DecidableEq η]

omit [DecidableEq η] in
theorem responders_addHolder (state : BlockValidationState ν η α χ ρ) (holder : ν) :
    (state.addHolder holder).responders = state.responders := by
  cases state with
  | inProgress block missing holders responders =>
    simp only [addHolder]
    split <;> rfl
  | valid => rfl
  | invalid => rfl

omit [DecidableEq η] in
theorem responders_tryMarkHolderFailed (state : BlockValidationState ν η α χ ρ) (holder : ν) :
    (state.tryMarkHolderFailed holder).responders = state.responders := by
  cases state <;> rfl

omit [DecidableEq η] in
theorem responders_startFetching (state : BlockValidationState ν η α χ ρ) :
    (state.startFetching).1.responders = state.responders := by
  cases state with
  | inProgress block missing holders responders =>
    simp only [startFetching]
    split
    · rfl
    · split <;> rfl
  | valid => rfl
  | invalid => rfl

omit [DecidableEq ν] [DecidableEq η] in
theorem responders_takeResponders (state : BlockValidationState ν η α χ ρ) :
    (state.takeResponders).1.responders = [] ∧ (state.takeResponders).2 = state.responders := by
  cases state <;> exact ⟨rfl, rfl⟩

omit [DecidableEq ν] in
theorem conserves_tryAddDeployFootprint (state : BlockValidationState ν η α χ ρ)
    (dtHash : DeployOrTransferHash η) (footprint : DeployFootprint η) :
    List.Perm ((state.tryAddDeployFootprint dtHash footprint).1.responders ++
      (state.tryAddDeployFootprint dtHash footprint).2) state.responders := by
  cases state with
  | inProgress block missing holders waiting =>
    simp only [tryAddDeployFootprint]
    split
    · simp [responders]
    · split
      · split
        · simp [responders]
        · simp [responders]
      · simp [responders]
  | valid => simp [tryAddDeployFootprint, responders]
  | invalid => simp [tryAddDeployFootprint, responders]

omit [DecidableEq ν] in
theorem conserves_tryMarkInvalid (state : BlockValidationState ν η α χ ρ) (dtHash : DeployOrTransferHash η) :
    List.Perm ((state.tryMarkInvalid dtHash).1.responders ++ (state.tryMarkInvalid dtHash).2) state.responders := by
  cases state with
  | inProgress block missing holders waiting =>
    simp only [tryMarkInvalid]
    split <;> simp [responders]
  | valid => simp [tryMarkInvalid, responders]
  | invalid => simp [tryMarkInvalid, responders]

omit [DecidableEq ν] in
/-- `new` either decides the block at once and answers the requester, or keeps the requester
in a state in progress whose only holder is the sender. -/
theorem new_cases (config : DeployConfig) (computeApprovalsHash : Finset α → Option χ)
    (block : ProposedBlock η α β) (sender : ν) (responder : ρ) :
    (∃ timestamp, BlockValidationState.new config computeApprovalsHash block sender responder =
      (.valid timestamp, some responder)) ∨
    (∃ timestamp, BlockValidationState.new config computeApprovalsHash block sender responder =
      (.invalid timestamp, some responder)) ∨
    ∃ appendableBlock missing, BlockValidationState.new config computeApprovalsHash block sender responder =
      (.inProgress appendableBlock missing [(sender, .unasked)] [responder], none) := by
  unfold BlockValidationState.new
  split
  · exact .inl ⟨_, rfl⟩
  · split
    · exact .inr (.inl ⟨_, rfl⟩)
    · split
      · exact .inr (.inl ⟨_, rfl⟩)
      · split
        · exact .inr (.inl ⟨_, rfl⟩)
        · exact .inr (.inr ⟨_, _, rfl⟩)

end BlockValidationState

section Handlers

variable [DecidableEq ν] [DecidableEq η]

open BlockValidationState

omit [DecidableEq η] in
theorem conserves_handleExistingRequest (state : BlockValidationState ν η α χ ρ) (sender : ν) (responder : ρ) :
    Conserves (state.responders ++ [responder]) (handleExistingRequest state sender responder) := by
  unfold Conserves handleExistingRequest
  cases state with
  | inProgress block missing holders waiting =>
    simp only [addResponder]
    have kept := responders_startFetching
      ((BlockValidationState.inProgress block missing holders (waiting ++ [responder])).addHolder sender)
    rw [responders_addHolder] at kept
    generalize ((BlockValidationState.inProgress block missing holders (waiting ++ [responder])).addHolder
      sender).startFetching = fetched at kept ⊢
    obtain ⟨started, outcome⟩ := fetched
    -- the requester waits for the fetches, or is answered with the others when no holder is left
    cases outcome with
    | start holder missingDeploys =>
      dsimp only at kept ⊢
      rw [responders_fetchDeploys, List.append_nil, kept]
      rfl
    | unable =>
      simp only [responders_respond, (responders_takeResponders _).1, (responders_takeResponders _).2, kept,
        List.nil_append]
      rfl
    | ongoing | validationSucceeded | validationFailed =>
      dsimp only at kept ⊢
      rw [List.filterMap_nil, List.append_nil, kept]
      rfl
  | valid timestamp => simp [addResponder, responders, Effect.responder?]
  | invalid timestamp => simp [addResponder, responders, Effect.responder?]

omit [DecidableEq ν] in
theorem conserves_addFootprint (dtHash : DeployOrTransferHash η) (footprint : DeployFootprint η)
    (state : BlockValidationState ν η α χ ρ) :
    Conserves state.responders (addFootprint dtHash footprint state) := by
  unfold Conserves
  dsimp only [addFootprint]
  have conserved := conserves_tryAddDeployFootprint state dtHash footprint
  split
  · rename_i none
    rw [List.isEmpty_iff.mp none, List.append_nil] at conserved
    simpa using conserved
  · simpa [responders_respond] using conserved

omit [DecidableEq η] in
theorem conserves_retryFetching (peer : ν) (state : BlockValidationState ν η α χ ρ) :
    Conserves state.responders (retryFetching peer state) := by
  unfold Conserves retryFetching
  have kept := responders_startFetching (state.tryMarkHolderFailed peer)
  rw [responders_tryMarkHolderFailed] at kept
  generalize (state.tryMarkHolderFailed peer).startFetching = fetched at kept ⊢
  obtain ⟨started, outcome⟩ := fetched
  cases outcome with
  | start holder missingDeploys =>
    dsimp only at kept ⊢
    rw [responders_fetchDeploys, List.append_nil, kept]
  | unable =>
    simp only [responders_respond, (responders_takeResponders _).1, (responders_takeResponders _).2, kept,
      List.nil_append]
    rfl
  | ongoing | validationSucceeded | validationFailed =>
    dsimp only at kept ⊢
    rw [List.filterMap_nil, List.append_nil, kept]

end Handlers

section Component

variable [DecidableEq ν] [DecidableEq η] [DecidableEq α] [DecidableEq β]

open BlockValidationState

omit [DecidableEq ν] [DecidableEq η] [DecidableEq α] [DecidableEq β] in
theorem flatMap_responders_filter_inProgress (states : List (ProposedBlock η α β × BlockValidationState ν η α χ ρ)) :
    (states.filter inProgress).flatMap (fun entry => entry.2.responders) =
      states.flatMap fun entry => entry.2.responders := by
  induction states with
  | nil => rfl
  | cons entry rest ih =>
    obtain ⟨block, state⟩ := entry
    cases state with
    | inProgress appendableBlock missing holders waiting =>
      rw [List.filter_cons_of_pos rfl, List.flatMap_cons, List.flatMap_cons, ih]
    | valid timestamp =>
      rw [List.filter_cons_of_neg (by simp [inProgress, blockTimestampIfCompleted]), List.flatMap_cons, ih]
      rfl
    | invalid timestamp =>
      rw [List.filter_cons_of_neg (by simp [inProgress, blockTimestampIfCompleted]), List.flatMap_cons, ih]
      rfl

omit [DecidableEq ν] [DecidableEq η] [DecidableEq α] [DecidableEq β] in
theorem flatMap_responders_purgeOldestComplete (maxCompletedEntries : Nat)
    (states : List (ProposedBlock η α β × BlockValidationState ν η α χ ρ)) :
    (purgeOldestComplete maxCompletedEntries states).flatMap (fun entry => entry.2.responders) =
      states.flatMap fun entry => entry.2.responders := by
  rw [← flatMap_responders_filter_inProgress,
    (purge_oldest_complete_evicts_only_oldest maxCompletedEntries states).inProgress_eq,
    flatMap_responders_filter_inProgress]

omit [DecidableEq α] [DecidableEq β] in
theorem conserves_handleNewRequest (computeApprovalsHash : Finset α → Option χ)
    (validator : BlockValidator ν η α β χ ρ) (block : ProposedBlock η α β) (sender : ν) (responder : ρ) :
    List.Perm ((validator.handleNewRequest computeApprovalsHash block sender responder).1.pendingResponders ++
        (validator.handleNewRequest computeApprovalsHash block sender responder).2.filterMap Effect.responder?)
      (validator.pendingResponders ++ [responder]) := by
  simp only [BlockValidator.handleNewRequest, BlockValidator.pendingResponders,
    flatMap_responders_purgeOldestComplete, List.flatMap_append, List.flatMap_singleton, List.append_assoc]
  refine List.Perm.append_left _ ?_
  rcases new_cases validator.deployConfig computeApprovalsHash block sender responder with
    ⟨timestamp, created⟩ | ⟨timestamp, created⟩ | ⟨appendableBlock, missing, created⟩
  · simp [created, startFetching, responders, responders_respond]
  · simp [created, startFetching, responders, responders_respond]
  · -- the new state asks its sender, or fails with nothing to fetch and keeps the requester
    rw [created]
    by_cases empty : missing.isEmpty
    · simp [startFetching, empty, responders, respond]
    · simp [startFetching, empty, scanHolders, setHolderState, responders, responders_fetchDeploys]

theorem conserves_tryHandleAsExistingRequest {validator : BlockValidator ν η α β χ ρ}
    {block : ProposedBlock η α β} {sender : ν} {responder : ρ}
    {handled : BlockValidator ν η α β χ ρ × List (Effect ν η χ ρ)}
    (existing : validator.tryHandleAsExistingRequest block sender responder = some handled) :
    List.Perm (handled.1.pendingResponders ++ handled.2.filterMap Effect.responder?)
      (validator.pendingResponders ++ [responder]) := by
  unfold BlockValidator.tryHandleAsExistingRequest at existing
  split at existing
  · cases existing
  · rename_i state stored
    cases existing
    classical
    have swapped := AssocList.perm_flatMap_setValue responders
      (handleExistingRequest state sender responder).1 stored
    have conserved := conserves_handleExistingRequest state sender responder
    unfold Conserves at conserved
    refine List.perm_iff_count.mpr fun item => ?_
    have counted := swapped.count_eq item
    have answered := conserved.count_eq item
    simp only [BlockValidator.pendingResponders, List.count_append] at counted answered ⊢
    omega

omit [DecidableEq ν] [DecidableEq η] [DecidableEq α] [DecidableEq β] in
theorem conserves_updateStates (validator : BlockValidator ν η α β χ ρ)
    (f : BlockValidationState ν η α χ ρ → BlockValidationState ν η α χ ρ × List (Effect ν η χ ρ))
    (conserves : ∀ state, Conserves state.responders (f state)) :
    List.Perm ((validator.updateStates f).1.pendingResponders ++ (validator.updateStates f).2.filterMap Effect.responder?)
      validator.pendingResponders :=
  AssocList.perm_flatMap_mapValues f responders Effect.responder? conserves validator.validationStates

omit [DecidableEq ν] [DecidableEq α] [DecidableEq β] in
theorem conserves_markInvalid (validator : BlockValidator ν η α β χ ρ) (dtHash : DeployOrTransferHash η) :
    List.Perm ((validator.markInvalid dtHash).1.pendingResponders ++
      (validator.markInvalid dtHash).2.filterMap Effect.responder?) validator.pendingResponders := by
  have conserved := AssocList.perm_flatMap_mapValues (·.tryMarkInvalid dtHash) responders some
    (fun state => by simpa using conserves_tryMarkInvalid state dtHash) validator.validationStates
  simpa [BlockValidator.markInvalid, BlockValidator.pendingResponders, responders_respond] using conserved

theorem conserves_handleEvent (computeApprovalsHash : Finset α → Option χ)
    (validator : BlockValidator ν η α β χ ρ) (event : Event ν η α β ρ) :
    List.Perm ((validator.handleEvent computeApprovalsHash event).1.pendingResponders ++
        (validator.handleEvent computeApprovalsHash event).2.filterMap Effect.responder?)
      (validator.pendingResponders ++ event.responder?.toList) := by
  cases event with
  | request block sender responder =>
    simp only [BlockValidator.handleEvent, Event.responder?, Option.toList_some]
    split
    · rename_i handled existing
      exact conserves_tryHandleAsExistingRequest existing
    · exact conserves_handleNewRequest computeApprovalsHash validator block sender responder
  | deployFetched dtHash result =>
    simp only [BlockValidator.handleEvent, BlockValidator.handleDeployFetched, Event.responder?,
      Option.toList_none, List.append_nil]
    split
    · split
      · exact conserves_markInvalid validator dtHash
      · split
        · exact conserves_markInvalid validator dtHash
        · exact conserves_updateStates validator _ (conserves_addFootprint dtHash _)
    all_goals first
      | exact conserves_updateStates validator _ (conserves_retryFetching _)
      | exact conserves_markInvalid validator dtHash

theorem conserves_run (computeApprovalsHash : Finset α → Option χ) :
    ∀ (events : List (Event ν η α β ρ)) (validator : BlockValidator ν η α β χ ρ),
      List.Perm ((validator.run computeApprovalsHash events).1.pendingResponders ++
          (validator.run computeApprovalsHash events).2.filterMap Effect.responder?)
        (validator.pendingResponders ++ events.filterMap Event.responder?) := by
  intro events
  induction events with
  | nil => intro validator; simp [BlockValidator.run]
  | cons event rest ih =>
    intro validator
    classical
    have first := conserves_handleEvent computeApprovalsHash validator event
    have later := ih (validator.handleEvent computeApprovalsHash event).1
    refine List.perm_iff_count.mpr fun item => ?_
    have firstCount := first.count_eq item
    have laterCount := later.count_eq item
    cases responder : event.responder? <;>
      simp only [BlockValidator.run, responder, List.filterMap_cons, List.filterMap_append,
        List.count_append, Option.toList_none, Option.toList_some, List.count_cons, List.count_nil]
        at firstCount laterCount ⊢ <;>
      omega

/-- Over any run of events, the responders held and answered are those held at the start and
those of the requests; with no responder twice among these, none is answered twice, and each
request's responder is answered or still held. -/
theorem requests_answered_once_and_never_lost (computeApprovalsHash : Finset α → Option χ)
    (validator : BlockValidator ν η α β χ ρ) (events : List (Event ν η α β ρ)) :
    List.Perm ((validator.run computeApprovalsHash events).1.pendingResponders ++
        (validator.run computeApprovalsHash events).2.filterMap Effect.responder?)
      (validator.pendingResponders ++ events.filterMap Event.responder?) ∧
    ((validator.pendingResponders ++ events.filterMap Event.responder?).Nodup →
      ((validator.run computeApprovalsHash events).2.filterMap Effect.responder?).Nodup ∧
      ∀ responder ∈ events.filterMap Event.responder?,
        responder ∈ (validator.run computeApprovalsHash events).2.filterMap Effect.responder? ∨
          responder ∈ (validator.run computeApprovalsHash events).1.pendingResponders) := by
  have conserved := conserves_run computeApprovalsHash events validator
  refine ⟨conserved, fun distinct => ⟨?_, fun responder requested => ?_⟩⟩
  · exact (conserved.nodup_iff.mpr distinct).of_append_right
  · have held := conserved.symm.subset (List.mem_append_right _ requested)
    rcases List.mem_append.mp held with pending | answered
    · exact .inr pending
    · exact .inl answered

end Component

end BlockValidation
