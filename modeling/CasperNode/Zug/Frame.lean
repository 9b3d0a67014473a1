import CasperNode.Zug.Protocol

/-!
The update machinery of Zug stays within `ZugState.Frame`: no step of
`update`, and no timer, changes who we are, whether we may sign, the faults,
the validators or the parameters, and each one only appends to the WAL. One
lemma per function of `Protocol`, each from the lemmas of the functions it calls.
-/
namespace Zug

section Frame
variable {ν η σ β κ π φ : Type} [DecidableEq ν] [DecidableEq η] [DecidableEq β] [DecidableEq π]
variable (ctx : ZugContext η σ β κ φ)

omit [DecidableEq ν] [DecidableEq η] [DecidableEq β] [DecidableEq π] in
theorem ZugState.frame_updateProposalTimeout (s : ZugState ν η σ β κ π φ) (now : Nat) :
    s.Frame (s.updateProposalTimeout ctx now) := by
  dsimp only [ZugState.updateProposalTimeout]
  split <;> exact .of_eq rfl rfl rfl rfl rfl rfl

omit [DecidableEq ν] [DecidableEq β] [DecidableEq π] in
theorem ZugState.frame_updateAcceptedProposal (s : ZugState ν η σ β κ π φ) (roundId : Nat) :
    s.Frame (s.updateAcceptedProposal ctx roundId).1 := by
  dsimp only [ZugState.updateAcceptedProposal]
  -- every branch but the last returns the state unchanged
  repeat' split
  all_goals dsimp only
  all_goals first
    | exact .refl s
    | exact frame_modifyRound ctx s roundId _

omit [DecidableEq ν] in
theorem ZugState.frame_validateProposal (s : ZugState ν η σ β κ π φ) (roundId : Nat)
    (proposal : HashedProposal η β) (ancestorValues : List β) (sender : π) :
    s.Frame (s.validateProposal ctx roundId proposal ancestorValues sender).1 := by
  dsimp only [ZugState.validateProposal]
  split
  · exact .refl s
  · split
    · exact .refl s
    · split
      · -- the proposal waits for the block validator
        split
        · exact .refl s
        · exact .of_eq rfl rfl rfl rfl rfl rfl
      · -- the proposal goes into its round and the WAL
        split
        · refine Frame.trans ?_ (frame_markDirty _ _)
          exact ((frame_modifyRound ctx _ _ _).trans (frame_recordEntry _ _)).update
            rfl rfl rfl rfl rfl rfl
        · dsimp only
          exact frame_modifyRound ctx _ _ _

omit [DecidableEq ν] [DecidableEq η] [DecidableEq β] [DecidableEq π] in
theorem ZugState.frame_pruneSkipped (s : ZugState ν η σ β κ π φ) (roundIds : List Nat) :
    s.Frame (roundIds.foldl (fun s pruneRoundId =>
      (s.modifyRound ctx pruneRoundId fun round => (round.pruneSkipped, ())).1) s) := by
  induction roundIds generalizing s with
  | nil => exact .refl s
  | cons roundId roundIds ih => exact (frame_modifyRound ctx _ _ _).trans (ih _)

omit [DecidableEq η] [DecidableEq β] [DecidableEq π] in
theorem ZugState.frame_finalizeRoundFrom (fuel : Nat) :
    ∀ (s : ZugState ν η σ β κ π φ) (roundId : Nat),
      s.Frame (s.finalizeRoundFrom ctx fuel roundId).1 := by
  induction fuel with
  | zero => intro s roundId; exact .refl s
  | succ fuel ih =>
    intro s roundId
    dsimp only [ZugState.finalizeRoundFrom]
    split
    · exact .refl s
    · split
      · exact .refl s
      · next relativeHeight proposal found =>
        -- the parent is finalized first, then the skipped rounds are pruned; the split is on
        -- the block and its proposer, and the parent's finalization is split inside
        split
        · refine (((Frame.trans ?_ (frame_pruneSkipped ctx _ _)).update rfl rfl rfl rfl rfl rfl).update
            rfl rfl rfl rfl rfl rfl)
          split
          · exact ih _ _
          · exact .refl s
        · refine (Frame.trans ?_ (frame_pruneSkipped ctx _ _)).update rfl rfl rfl rfl rfl rfl
          split
          · exact ih _ _
          · exact .refl s

omit [DecidableEq η] [DecidableEq β] [DecidableEq π] in
theorem ZugState.frame_finalizeRound (s : ZugState ν η σ β κ π φ) (roundId : Nat) :
    s.Frame (s.finalizeRound ctx roundId).1 :=
  frame_finalizeRoundFrom ctx _ s roundId

omit [DecidableEq ν] [DecidableEq π] in
theorem ZugState.frame_createEchoAndProposal (s : ZugState ν η σ β κ π φ) (proposal : Proposal η β) :
    s.Frame (s.createEchoAndProposal ctx proposal).1 := by
  have created := s.frame_createMessage ctx s.currentRound (.echo (ctx.hashProposal proposal))
  dsimp only [ZugState.createEchoAndProposal]
  split
  · exact created
  · split
    · exact created.trans (frame_recordEntry _ _)
    · refine Frame.ite (fun _ => ?_) (fun _ => ?_)
      · exact ((created.trans (frame_recordEntry _ _)).trans (frame_modifyRound ctx _ _ _)).trans
          (frame_markDirty _ _)
      · dsimp only
        exact (created.trans (frame_recordEntry _ _)).trans (frame_modifyRound ctx _ _ _)

omit [DecidableEq ν] [DecidableEq π] in
theorem ZugState.frame_proposeIfLeader (s : ZugState ν η σ β κ π φ) (maybeParentRoundId : Option Nat)
    (now : Nat) : s.Frame (s.proposeIfLeader ctx maybeParentRoundId now).1 := by
  have created := s.frame_createRound ctx s.currentRound
  dsimp only [ZugState.proposeIfLeader]
  split
  · exact .refl s
  · split
    · exact .refl s
    · split
      · exact created
      · split
        · split
          · exact created.trans (frame_createEchoAndProposal ctx _ _)
          · exact created.update rfl rfl rfl rfl rfl rfl
        · exact created.update rfl rfl rfl rfl rfl rfl

omit [DecidableEq ν] [DecidableEq η] [DecidableEq β] [DecidableEq π] in
theorem ZugState.frame_foldlOutcomes {α : Type}
    (step : ZugState ν η σ β κ π φ → α → ZugState ν η σ β κ π φ × List (ProtocolOutcome ν η σ β π))
    (stepFrame : ∀ (s : ZugState ν η σ β κ π φ) (a : α), s.Frame (step s a).1) (elements : List α) :
    ∀ (s : ZugState ν η σ β κ π φ) (outcomes : List (ProtocolOutcome ν η σ β π)),
      s.Frame (elements.foldl (fun acc a => ((step acc.1 a).1, acc.2 ++ (step acc.1 a).2))
        (s, outcomes)).1 := by
  induction elements with
  | nil => intro s outcomes; exact .refl s
  | cons element elements ih =>
    intro s outcomes
    exact (stepFrame s element).trans (ih _ _)

omit [DecidableEq ν] in
theorem ZugState.frame_onAcceptedProposal (s : ZugState ν η σ β κ π φ) (roundId now : Nat) :
    s.Frame (s.onAcceptedProposal ctx roundId now).1 := by
  have timed : s.Frame (if roundId = s.currentRound then s.updateProposalTimeout ctx now else s) := by
    split
    · exact frame_updateProposalTimeout ctx _ _
    · exact .refl s
  have voted := timed.trans (frame_createAndGossipMessage ctx _ roundId (.vote true))
  dsimp only [ZugState.onAcceptedProposal]
  split
  · exact voted
  · -- the proposals that waited for this one are validated in turn
    refine Frame.trans ?_ (frame_foldlOutcomes _
      (fun s' (waiting : HashedProposal η β × Nat × π) =>
        s'.frame_validateProposal ctx waiting.2.1 waiting.1 _ waiting.2.2) _ _ _)
    exact voted.update rfl rfl rfl rfl rfl rfl

omit [DecidableEq ν] [DecidableEq β] [DecidableEq π] in
theorem ZugState.frame_voteToSkip (s : ZugState ν η σ β κ π φ) (roundId now : Nat) :
    s.Frame (s.voteToSkip ctx roundId now).1 := by
  dsimp only [ZugState.voteToSkip]
  refine Frame.ite (fun _ => ?_) (fun _ => Frame.ite (fun _ => ?_) (fun _ => .refl s))
  · exact (frame_createAndGossipMessage ctx _ _ _).trans (frame_updateProposalTimeout ctx _ _)
  · exact frame_createAndGossipMessage ctx _ _ _

omit [DecidableEq ν] [DecidableEq π] in
theorem ZugState.frame_startRound (s : ZugState ν η σ β κ π φ) (maybeParentRoundId : Option Nat)
    (now : Nat) : s.Frame (s.startRound ctx maybeParentRoundId now).1 := by
  have proposed : s.Frame (if s.currentRoundStart > now then
      ({ s with currentRoundStart := now }).proposeIfLeader ctx maybeParentRoundId now
      else (s, [])).1 := by
    refine Frame.ite (fun _ => ?_) (fun _ => .refl s)
    refine Frame.trans ?_ (frame_proposeIfLeader ctx _ _ _)
    exact .of_eq rfl rfl rfl rfl rfl rfl
  dsimp only [ZugState.startRound]
  exact Frame.ite (fun _ => proposed.trans (frame_scheduleUpdate _ _)) (fun _ => proposed)

omit [DecidableEq ν] [DecidableEq π] in
theorem ZugState.frame_advanceRound (s : ZugState ν η σ β κ π φ) (roundId now : Nat) :
    s.Frame (s.advanceRound ctx roundId now).1 := by
  dsimp only [ZugState.advanceRound]
  refine Frame.ite (fun _ => .of_eq rfl rfl rfl rfl rfl rfl) (fun _ => ?_)
  split
  · exact .refl s
  · exact Frame.ite (fun _ => frame_scheduleUpdate _ _) (fun _ => frame_startRound ctx _ _ _)

omit [DecidableEq ν] [DecidableEq π] in
theorem ZugState.frame_updateCurrentRound (s : ZugState ν η σ β κ π φ) (roundId now : Nat) :
    s.Frame (s.updateCurrentRound ctx roundId now).1 := by
  dsimp only [ZugState.updateCurrentRound]
  exact Frame.ite (fun _ => (frame_voteToSkip ctx _ _ _).trans (frame_advanceRound ctx _ _ _))
    (fun _ => .refl s)

omit [DecidableEq ν] [DecidableEq β] [DecidableEq π] in
theorem ZugState.frame_echoProposal (s : ZugState ν η σ β κ π φ) (roundId : Nat) :
    s.Frame (s.echoProposal ctx roundId).1 := by
  dsimp only [ZugState.echoProposal]
  split
  · exact frame_createAndGossipMessage ctx _ _ _
  · exact .refl s

omit [DecidableEq ν] in
theorem ZugState.frame_acceptProposal (s : ZugState ν η σ β κ π φ) (roundId now : Nat) :
    s.Frame (s.acceptProposal ctx roundId now).1 := by
  dsimp only [ZugState.acceptProposal]
  exact Frame.ite (fun _ => (frame_updateAcceptedProposal ctx _ _).trans
    (frame_onAcceptedProposal ctx _ _ _)) (fun _ => frame_updateAcceptedProposal ctx _ _)

omit [DecidableEq η] [DecidableEq β] [DecidableEq π] in
theorem ZugState.frame_finalizeIfCommitted (s : ZugState ν η σ β κ π φ) (roundId : Nat) :
    s.Frame (s.finalizeIfCommitted ctx roundId).1 := by
  dsimp only [ZugState.finalizeIfCommitted]
  exact Frame.ite (fun _ => frame_finalizeRound ctx _ _) (fun _ => .refl s)

theorem ZugState.frame_updateRound (s : ZugState ν η σ β κ π φ) (roundId now : Nat) :
    s.Frame (s.updateRound ctx roundId now).1 :=
  ((((s.frame_createRound ctx roundId).trans (frame_echoProposal ctx _ _)).trans
    (frame_acceptProposal ctx _ _ _)).trans (frame_updateCurrentRound ctx _ _ _)).trans
    (frame_finalizeIfCommitted ctx _ _)

theorem ZugState.frame_updateRoundsFrom (now fuel : Nat) :
    ∀ (s : ZugState ν η σ β κ π φ) (roundId : Nat),
      s.Frame (s.updateRoundsFrom ctx now fuel roundId).1 := by
  induction fuel with
  | zero => intro s roundId; exact .refl s
  | succ fuel ih =>
    intro s roundId
    have updated := s.frame_updateRound ctx roundId now
    dsimp only [ZugState.updateRoundsFrom]
    split
    · exact updated
    · exact updated.trans (ih _ _)

end Frame

end Zug
