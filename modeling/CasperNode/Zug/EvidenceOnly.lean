import CasperNode.Zug.Frame

/-!
The evidence-only mode of Zug against the guard that keeps a validator from
signing twice. That guard is `has_echoed`/`has_voted` over the rounds held in
memory. `set_evidence_only` clears every round but leaves the validator
active, and neither `update` nor `update_round` reads `evidence_only`: the
next `UPDATE` timer signs a skip vote in the current round again, and records
it in the WAL after the votes signed before.
-/
namespace Zug

section FreshRound
variable {ν η σ β κ π φ : Type} [DecidableEq ν] [DecidableEq η] [DecidableEq β] [DecidableEq π]
variable (ctx : ZugContext η σ β κ φ)

omit [DecidableEq ν] [DecidableEq η] [DecidableEq β] [DecidableEq π] in
theorem ZugState.round_createRound_of_absent (s : ZugState ν η σ β κ π φ) {roundId : Nat}
    (absent : s.round roundId = none) :
    (s.createRound ctx roundId).round roundId =
      some (Round.new s.validators.len (ctx.leader roundId)) := by
  have fresh : s.roundMut ctx roundId = Round.new s.validators.len (ctx.leader roundId) := by
    unfold ZugState.roundMut
    rw [absent]
  show (AssocList.insertValue roundId (s.roundMut ctx roundId) s.rounds).lookup roundId = _
  rw [AssocList.lookup_insertValue_self, fresh]

omit [DecidableEq ν] [DecidableEq η] [DecidableEq β] [DecidableEq π] in
theorem ZugState.hasVoted_createRound_of_absent (s : ZugState ν η σ β κ π φ) {roundId : Nat}
    (absent : s.round roundId = none) (validatorIdx : Nat) :
    (s.createRound ctx roundId).hasVoted roundId validatorIdx = false := by
  unfold ZugState.hasVoted
  rw [s.round_createRound_of_absent ctx absent]
  exact (Round.new_not_signed _ _ _).1

omit [DecidableEq ν] [DecidableEq β] [DecidableEq π] in
theorem ZugState.updateAcceptedProposal_of_no_proposal (s : ZugState ν η σ β κ π φ) {roundId : Nat}
    (noProposal : (s.round roundId).bind (·.proposal) = none) :
    s.updateAcceptedProposal ctx roundId = (s, false) := by
  have unaccepted : s.hasAcceptedProposal roundId = false := by
    unfold ZugState.hasAcceptedProposal ZugState.acceptedProposal
    cases found : s.round roundId with
    | none => rfl
    | some round =>
      rw [found, Option.bind_some] at noProposal
      simp [Round.acceptedProposal, noProposal]
  unfold ZugState.updateAcceptedProposal
  simp only [unaccepted, noProposal, Bool.false_eq_true, if_false]

omit [DecidableEq ν] in
theorem ZugState.echo_accept_createRound_of_absent (s : ZugState ν η σ β κ π φ) {roundId : Nat}
    (absent : s.round roundId = none) (now : Nat) :
    (s.createRound ctx roundId).echoProposal ctx roundId = (s.createRound ctx roundId, []) ∧
      (s.createRound ctx roundId).acceptProposal ctx roundId now = (s.createRound ctx roundId, []) := by
  have noProposal : ((s.createRound ctx roundId).round roundId).bind (·.proposal) = none := by
    rw [s.round_createRound_of_absent ctx absent]
    rfl
  constructor
  · unfold ZugState.echoProposal
    rw [noProposal]
  · unfold ZugState.acceptProposal
    rw [(s.createRound ctx roundId).updateAcceptedProposal_of_no_proposal ctx noProposal]
    rfl

omit [DecidableEq ν] [DecidableEq β] [DecidableEq π] in
/-- A skip vote is due on timeout or under a faulty leader; when the guard of
`create_message` is open it is signed, gossiped and appended to the WAL. -/
theorem ZugState.voteToSkip_of_due (s : ZugState ν η σ β κ π φ) (roundId now : Nat)
    {activeValidator : ActiveValidator κ} (active : s.activeValidator = some activeValidator)
    (unpaused : s.paused = false) {wal : List (Entry η σ β)} (opened : s.writeWal = some wal)
    (unsigned : s.hasVoted roundId activeValidator.idx = false)
    (due : saturatingAdd 64 s.currentRoundStart (s.proposalTimeout ctx) ≤ now ∨
      (s.faults.lookup (s.leader ctx roundId)).isSome = true) :
    (s.voteToSkip ctx roundId now).2 =
        [.createdGossipMessage (.signed (SignedMessage.signNew ctx roundId s.params.instanceId
          (.vote false) activeValidator.idx activeValidator.secret))] ∧
      (s.voteToSkip ctx roundId now).1.WalStartsWith (wal ++ [.signedMessage (SignedMessage.signNew
        ctx roundId s.params.instanceId (.vote false) activeValidator.idx activeValidator.secret)]) := by
  have voted := s.createAndGossipMessage_of_open ctx roundId (.vote false) active unpaused opened
    unsigned
  unfold ZugState.voteToSkip
  by_cases timedOut : now ≥ saturatingAdd 64 s.currentRoundStart (s.proposalTimeout ctx)
  · rw [if_pos timedOut]
    exact ⟨voted.1, (frame_updateProposalTimeout ctx _ now).walGrows _ voted.2⟩
  · have faulty : (s.faults.lookup (s.leader ctx roundId)).isSome = true := due.resolve_left timedOut
    rw [if_neg timedOut, if_pos faulty]
    exact voted

/-- `update_round` on the current round when it is not in memory and a skip
vote is due: the vote is signed, gossiped and appended to the WAL. -/
theorem ZugState.updateRound_signs_skip_vote (s : ZugState ν η σ β κ π φ) {roundId now : Nat}
    (absent : s.round roundId = none) (current : roundId = s.currentRound)
    {activeValidator : ActiveValidator κ} (active : s.activeValidator = some activeValidator)
    (unpaused : s.paused = false) {wal : List (Entry η σ β)} (opened : s.writeWal = some wal)
    (due : saturatingAdd 64 s.currentRoundStart (s.proposalTimeout ctx) ≤ now ∨
      (s.faults.lookup (ctx.leader roundId)).isSome = true) :
    .createdGossipMessage (.signed (SignedMessage.signNew ctx roundId s.params.instanceId
        (.vote false) activeValidator.idx activeValidator.secret)) ∈ (s.updateRound ctx roundId now).2 ∧
      (s.updateRound ctx roundId now).1.WalStartsWith (wal ++ [.signedMessage (SignedMessage.signNew
        ctx roundId s.params.instanceId (.vote false) activeValidator.idx activeValidator.secret)]) := by
  obtain ⟨echoed, accepted⟩ := s.echo_accept_createRound_of_absent ctx absent now
  -- the created round's leader is the leader sequence's
  have leader : (s.createRound ctx roundId).leader ctx roundId = ctx.leader roundId := by
    unfold ZugState.leader
    rw [s.round_createRound_of_absent ctx absent]
    rfl
  have sameParams : (s.createRound ctx roundId).params = s.params := rfl
  have skipped := (s.createRound ctx roundId).voteToSkip_of_due ctx roundId now active unpaused
    opened (s.hasVoted_createRound_of_absent ctx absent _) (by rw [leader]; exact due)
  have inCurrent : roundId = (s.createRound ctx roundId).currentRound := current
  have advanced := frame_advanceRound ctx ((s.createRound ctx roundId).voteToSkip ctx roundId now).1
    roundId now
  dsimp only [ZugState.updateRound]
  rw [echoed]
  dsimp only
  rw [accepted]
  dsimp only [ZugState.updateCurrentRound]
  rw [if_pos inCurrent, skipped.1]
  refine ⟨?_, (advanced.trans (frame_finalizeIfCommitted ctx _ _)).walGrows _ skipped.2⟩
  simp [sameParams]

end FreshRound

section EvidenceOnly
variable {ν η σ β κ π φ : Type} [DecidableEq ν] [DecidableEq η] [DecidableEq β] [DecidableEq π]
variable (ctx : ZugContext η σ β κ φ)

omit [DecidableEq ν] [DecidableEq η] [DecidableEq β] [DecidableEq π] in
theorem ZugState.finalizedSwitchBlock_of_no_rounds (s : ZugState ν η σ β κ π φ) (empty : s.rounds = []) :
    s.finalizedSwitchBlock = false := by
  have unaccepted : ∀ roundId, s.acceptedProposal roundId = none := by
    intro roundId
    simp [ZugState.acceptedProposal, ZugState.round, empty]
  unfold ZugState.finalizedSwitchBlock
  split
  · rfl
  · simp [ZugState.acceptedSwitchBlock, ZugState.acceptedDummyProposal, unaccepted]

omit [DecidableEq ν] [DecidableEq η] [DecidableEq β] [DecidableEq π] in
theorem ZugState.markDirty_currentRound (s : ZugState ν η σ β κ π φ)
    (clean : s.maybeDirtyRoundId.all (s.currentRound ≤ ·) = true) :
    s.markDirty s.currentRound = { s with maybeDirtyRoundId := some s.currentRound } := by
  unfold ZugState.markDirty
  cases dirty : s.maybeDirtyRoundId with
  | none => simp
  | some roundId =>
    rw [dirty] at clean
    have later : s.currentRound ≤ roundId := by simpa using clean
    by_cases same : roundId = s.currentRound
    · -- the current round is the dirty one already
      subst same
      simp only [le_refl, decide_true, Option.all_some, gt_iff_lt, lt_self_iff_false,
        decide_false, Bool.and_false, Bool.false_eq_true, if_false]
      conv_rhs => rw [← dirty]
    · have earlier : s.currentRound < roundId := by omega
      simp [earlier]

theorem ZugState.handleTimer_update (s : ZugState ν η σ β κ π φ) (timestamp now : Nat)
    (clean : s.maybeDirtyRoundId.all (s.currentRound ≤ ·) = true) :
    ∃ next, s.handleTimer ctx timestamp now timerIdUpdate =
      ({ s with nextScheduledUpdate := next, maybeDirtyRoundId := some s.currentRound }).update ctx
        now := by
  have notSync : timerIdUpdate ≠ timerIdSyncPeer := by decide
  unfold ZugState.handleTimer
  rw [if_neg notSync, if_pos rfl]
  dsimp only
  split
  · refine ⟨maxTimestamp, ?_⟩
    rw [markDirty_currentRound { s with nextScheduledUpdate := maxTimestamp } clean]
  · refine ⟨s.nextScheduledUpdate, ?_⟩
    rw [markDirty_currentRound s clean]

theorem ZugState.update_of_dirty (s : ZugState ν η σ β κ π φ) (now : Nat) {roundId : Nat}
    (ongoing : s.finalizedSwitchBlock = false) (withinFtt : s.faultyWeight ≤ s.params.ftt)
    (dirty : s.maybeDirtyRoundId = some roundId) :
    s.update ctx now =
      ({ (s.updateRoundsFrom ctx now roundIdCount roundId).1 with maybeDirtyRoundId := none },
        (s.updateRoundsFrom ctx now roundIdCount roundId).2) := by
  have proceeds : (s.finalizedSwitchBlock || decide (s.faultyWeight > s.params.ftt)) = false := by
    simp [ongoing, withinFtt]
  unfold ZugState.update
  rw [proceeds, dirty]
  rfl

/-- The loop of `update` starts with its first round: that round's outcomes
come first, and the rest of the loop stays within the frame. -/
theorem ZugState.updateRoundsFrom_first (s : ZugState ν η σ β κ π φ) (now fuel roundId : Nat) :
    (s.updateRound ctx roundId now).2 <+: (s.updateRoundsFrom ctx now (fuel + 1) roundId).2 ∧
      (s.updateRound ctx roundId now).1.Frame (s.updateRoundsFrom ctx now (fuel + 1) roundId).1 := by
  dsimp only [ZugState.updateRoundsFrom]
  split
  · exact ⟨List.prefix_refl _, .refl _⟩
  · exact ⟨List.prefix_append _ _, frame_updateRoundsFrom ctx _ _ _ _⟩

/-- After `set_evidence_only`, an active validator's next `UPDATE` timer signs
a skip vote in the current round (on timeout, or under a faulty leader), however
many votes it signed in that round before: the vote is gossiped and appended
to the WAL after all it held. -/
theorem update_timer_after_evidence_only_votes_again (s : ZugState ν η σ β κ π φ)
    {activeValidator : ActiveValidator κ} {wal : List (Entry η σ β)} (timestamp now : Nat)
    (active : s.activeValidator = some activeValidator) (unpaused : s.paused = false)
    (opened : s.writeWal = some wal) (withinFtt : s.faultyWeight ≤ s.params.ftt)
    (clean : s.maybeDirtyRoundId.all (s.currentRound ≤ ·) = true)
    (due : saturatingAdd 64 s.currentRoundStart (s.proposalTimeout ctx) ≤ now ∨
      (s.faults.lookup (ctx.leader s.currentRound)).isSome = true) :
    .createdGossipMessage (.signed (SignedMessage.signNew ctx s.currentRound s.params.instanceId
        (.vote false) activeValidator.idx activeValidator.secret)) ∈
        (s.setEvidenceOnly.handleTimer ctx timestamp now timerIdUpdate).2 ∧
      (s.setEvidenceOnly.handleTimer ctx timestamp now timerIdUpdate).1.WalStartsWith
        (wal ++ [.signedMessage (SignedMessage.signNew ctx s.currentRound s.params.instanceId
          (.vote false) activeValidator.idx activeValidator.secret)]) := by
  obtain ⟨next, timer⟩ := s.setEvidenceOnly.handleTimer_update ctx timestamp now clean
  rw [timer]
  -- the marked state is `s` with its rounds cleared and its current round dirty
  set marked : ZugState ν η σ β κ π φ := { s.setEvidenceOnly with
    nextScheduledUpdate := next, maybeDirtyRoundId := some s.currentRound } with marking
  show _ ∈ (marked.update ctx now).2 ∧ (marked.update ctx now).1.WalStartsWith _
  have ongoing := marked.finalizedSwitchBlock_of_no_rounds rfl
  rw [marked.update_of_dirty ctx now ongoing withinFtt rfl]
  -- the loop of `update` starts at the current round, which is no longer in memory
  have fuel : roundIdCount = (roundIdCount - 1) + 1 := by decide
  rw [fuel]
  have first := marked.updateRoundsFrom_first ctx now (roundIdCount - 1) s.currentRound
  have absent : marked.round s.currentRound = none := rfl
  have signed := marked.updateRound_signs_skip_vote ctx absent rfl active unpaused opened due
  exact ⟨first.1.subset signed.1, first.2.walGrows _ signed.2⟩

end EvidenceOnly

/-- A stand-in for the `f64` arithmetic on `Nat`, so that runs can be evaluated. -/
def natFloatOps : FloatOps Nat :=
  ⟨id, id, (· + ·), (· - ·), (· * ·), (· / ·), id, id, fun x y => decide (x < y), min, max⟩

def exampleContext : ZugContext Nat Nat Nat Nat Nat where
  leader _ := 1
  hashFields roundId _ _ validatorIdx := 10 * roundId + validatorIdx
  sign secret hash := 1000 * secret + hash
  hashProposal _ := 0
  needsValidation _ := false
  float := natFloatOps

/-- Our validator 0 after activation with an empty WAL and one `UPDATE` timer,
in an era of four validators where validator 1 is known to be faulty. -/
def votedState : ZugState Nat Nat Nat Nat Nat Nat Nat :=
  let validators : Validators Nat :=
    ⟨[⟨0, 1, false⟩, ⟨1, 1, false⟩, ⟨2, 10, false⟩, ⟨3, 10, false⟩]⟩
  let created := ZugState.newWithParams exampleContext validators ⟨7, 100, 1000, 10, 100000, 1⟩
    ⟨none, 5000, 0, 10⟩ none
  let activated := ((created.markFaulty 1).activateValidator exampleContext 0 42 1000 (some [])).1
  (activated.handleTimer exampleContext 1000 1000 timerIdUpdate).1

/-- The first `UPDATE` timer signed `Vote(false)` in round 0; after
`set_evidence_only` the next one signs it again, after the first in the WAL. -/
theorem evidence_only_vote_signed_twice :
    votedState.activeValidator = some ⟨0, 42⟩ ∧ votedState.paused = false ∧
      votedState.writeWal =
        some [.signedMessage (SignedMessage.signNew exampleContext 0 7 (.vote false) 0 42)] ∧
      votedState.faultyWeight ≤ votedState.params.ftt ∧
      votedState.maybeDirtyRoundId.all (votedState.currentRound ≤ ·) = true ∧
      (saturatingAdd 64 votedState.currentRoundStart (votedState.proposalTimeout exampleContext) ≤ 2000 ∨
        (votedState.faults.lookup (exampleContext.leader votedState.currentRound)).isSome = true) ∧
      (.createdGossipMessage (.signed (SignedMessage.signNew exampleContext 0 7 (.vote false) 0 42)) ∈
          (votedState.setEvidenceOnly.handleTimer exampleContext 2000 2000 timerIdUpdate).2 ∧
        (votedState.setEvidenceOnly.handleTimer exampleContext 2000 2000 timerIdUpdate).1.WalStartsWith
          [.signedMessage (SignedMessage.signNew exampleContext 0 7 (.vote false) 0 42),
            .signedMessage (SignedMessage.signNew exampleContext 0 7 (.vote false) 0 42)]) := by
  have active : votedState.activeValidator = some ⟨0, 42⟩ := by decide
  have unpaused : votedState.paused = false := by decide
  have opened : votedState.writeWal =
      some [.signedMessage (SignedMessage.signNew exampleContext 0 7 (.vote false) 0 42)] := by decide
  have withinFtt : votedState.faultyWeight ≤ votedState.params.ftt := by decide
  have clean : votedState.maybeDirtyRoundId.all (votedState.currentRound ≤ ·) = true := by decide
  have faultyLeader :
      (votedState.faults.lookup (exampleContext.leader votedState.currentRound)).isSome = true := by
    decide
  exact ⟨active, unpaused, opened, withinFtt, clean, .inr faultyLeader,
    update_timer_after_evidence_only_votes_again exampleContext votedState 2000 2000 active unpaused
      opened withinFtt clean (.inr faultyLeader)⟩

end Zug
