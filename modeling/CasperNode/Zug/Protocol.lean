import CasperNode.Zug.State

/-!
The update machinery of Zug (`consensus/protocols/zug.rs`): accepting and
finalizing proposals, the current round's timeout and proposal, and the
`update` loop that timers, messages and faults trigger; with the WAL replay of
`open_wal`, validator activation, fault handling and the evidence-only mode.

Loops over parent links and over round ids run on fuel: parents are always from
earlier rounds (`handle_proposal` rejects any other), and round ids are `u32`.
`update_round` is cut at its blocks, and its current-round block at the vote
to skip the round.
-/
namespace Zug

/-- The number of `u32` round ids, which bounds the `update` loop. -/
def roundIdCount : Nat := 2 ^ 32

def Proposal.dummy {η β : Type} (timestamp parentRoundId : Nat) : Proposal η β :=
  ⟨timestamp, none, some parentRoundId, none⟩

/-- The outcomes of `handle_fault_no_wal` that `open_wal` passes on; the rest
were processed before the restart. -/
def ProtocolOutcome.keptOnReplay {ν η σ β π : Type} : ProtocolOutcome ν η σ β π → Bool
  | .fttExceeded | .finalizedBlock _ | .validateConsensusValue _ _ | .handledProposedBlock _
  | .newEvidence _ => true
  | .createdGossipMessage _ | .scheduleTimer _ _ | .createNewBlock _ => false

section Protocol
variable {ν η σ β κ π φ : Type} [DecidableEq ν] [DecidableEq η] [DecidableEq β] [DecidableEq π]
variable (ctx : ZugContext η σ β κ φ)

/-- `new_with_params`; `prevProposalTimeoutMillis` is the estimate of the
previous era's instance, if it was a Zug instance. -/
def ZugState.newWithParams (validators : Validators ν) (params : Params η) (config : Config)
    (prevProposalTimeoutMillis : Option φ) : ZugState ν η σ β κ π φ :=
  let F := ctx.float
  { params
    proposalTimeoutMillis := prevProposalTimeoutMillis.getD
      (F.mul (F.ofNat config.proposalTimeout)
        (F.add (F.div (F.ofNat config.proposalGracePeriod) (F.ofNat 100)) (F.ofNat 1)))
    validators
    activeValidator := none
    evidenceOnly := false
    proposalsWaitingForParent := []
    proposalsWaitingForValidation := []
    pendingProposal := none
    rounds := []
    faults := validators.iterBannedIdx.map fun idx => (idx, .banned)
    config
    active := List.replicate validators.len none
    firstNonFinalizedRoundId := 0
    maybeDirtyRoundId := none
    currentRound := 0
    currentRoundStart := maxTimestamp
    progressDetected := false
    paused := false
    nextScheduledUpdate := maxTimestamp
    writeWal := none
    rewards := validators.validators.map fun validator => (validator.id, 0) }

/-- `update_proposal_timeout`, in the instance's `f64` arithmetic. -/
def ZugState.updateProposalTimeout (s : ZugState ν η σ β κ π φ) (now : Nat) :
    ZugState ν η σ β κ π φ :=
  let F := ctx.float
  let proposalDelayMillis := F.ofNat (now - s.currentRoundStart)
  let gracePeriodFactor :=
    F.add (F.div (F.ofNat s.config.proposalGracePeriod) (F.ofNat 100)) (F.ofNat 1)
  let targetTimeout := F.mul proposalDelayMillis gracePeriodFactor
  let inertia := F.ofNat s.config.proposalTimeoutInertia
  let ftt := F.div (F.ofNat s.params.ftt) (F.ofNat s.validators.totalWeight)
  if F.lt s.proposalTimeoutMillis targetTimeout then
    let grown := F.mul s.proposalTimeoutMillis
      (F.exp2 (F.div (F.ofNat 1) (F.mul inertia (F.sub (F.ofNat 1) ftt))))
    { s with proposalTimeoutMillis := F.min grown targetTimeout }
  else
    let shrunk := F.mul s.proposalTimeoutMillis
      (F.exp2 (F.div (F.neg (F.ofNat 1)) (F.mul inertia (F.add (F.ofNat 1) ftt))))
    let minTimeout := F.max (F.ofNat s.config.proposalTimeout) targetTimeout
    { s with proposalTimeoutMillis := F.max shrunk minTimeout }

/-- The loop of `ancestor_values`: the values of the accepted proposals from
`roundId` back along the parent links, or `none` if one is not accepted. -/
def ZugState.ancestorValuesFrom (s : ZugState ν η σ β κ π φ) : Nat → Nat → Option (List β)
  | 0, _ => none
  | fuel + 1, roundId =>
    match s.acceptedProposal roundId with
    | none => none
    | some (_, proposal) =>
      match proposal.proposal.maybeParentRoundId with
      | none => some proposal.proposal.maybeBlock.toList
      | some parentRoundId =>
        (s.ancestorValuesFrom fuel parentRoundId).map (proposal.proposal.maybeBlock.toList ++ ·)

def ZugState.ancestorValues (s : ZugState ν η σ β κ π φ) (roundId : Nat) : Option (List β) :=
  s.ancestorValuesFrom (roundId + 1) roundId

/-- The loop of `suitable_parent_round` over the earlier rounds, latest first,
with the best candidate found so far. -/
def ZugState.suitableParentRoundFrom (s : ZugState ν η σ β κ π φ) (now : Nat) :
    List Nat → Option (Option Nat × Nat) → Option (Option Nat × Nat)
  | [], _ => some (none, s.params.startTimestamp)
  | roundId :: roundIds, maybeParent =>
    match s.acceptedProposal roundId with
    | some (_, parent) =>
      let timestamp := saturatingAdd 64 parent.proposal.timestamp s.params.minBlockTime
      if now ≥ timestamp then some (some roundId, timestamp)
      else
        let maybeParent :=
          if maybeParent.all (·.2 > timestamp) then some (some roundId, timestamp) else maybeParent
        if s.isSkippableRound roundId then s.suitableParentRoundFrom now roundIds maybeParent
        else maybeParent
    | none =>
      if s.isSkippableRound roundId then s.suitableParentRoundFrom now roundIds maybeParent
      else maybeParent

def ZugState.suitableParentRound (s : ZugState ν η σ β κ π φ) (now : Nat) :
    Option (Option Nat × Nat) :=
  s.suitableParentRoundFrom now (List.range s.currentRound).reverse none

/-- `update_accepted_proposal`: a proposal is accepted once it has a quorum of
echoes, every validator it calls active has been seen, its parent is accepted
and every round in between is skippable. -/
def ZugState.updateAcceptedProposal (s : ZugState ν η σ β κ π φ) (roundId : Nat) :
    ZugState ν η σ β κ π φ × Bool :=
  if s.hasAcceptedProposal roundId then (s, false)
  else
    match (s.round roundId).bind (·.proposal) with
    | none => (s, false)
    | some proposal =>
      if (s.round roundId).bind Round.quorumEchoes ≠ some proposal.hash then (s, false)
      else if proposal.proposal.inactive.any (fun inactive => (List.range s.validators.len).any
          fun idx => !inactive.contains idx && (s.active.getD idx none).isNone &&
            (s.faults.lookup idx).isNone) then (s, false)
      else
        let skipped : Option (Nat × Nat) :=
          match proposal.proposal.maybeParentRoundId with
          | some parentRoundId => (s.acceptedProposal parentRoundId).map fun accepted =>
              (saturatingAdd 32 parentRoundId 1, saturatingAdd 64 accepted.1 1)
          | none => some (0, 0)
        match skipped with
        | none => (s, false)
        | some (firstSkippedRoundId, relHeight) =>
          if (List.range' firstSkippedRoundId (roundId - firstSkippedRoundId)).any
              (fun skippedRoundId => !s.isSkippableRound skippedRoundId) then (s, false)
          else
            ((s.modifyRound ctx roundId fun round =>
              (round.setAcceptedProposalHeight relHeight, ())).1, true)

/-- `validate_proposal`: a proposal whose block needs validation waits for the
block validator; any other goes into its round at once. -/
def ZugState.validateProposal (s : ZugState ν η σ β κ π φ) (roundId : Nat)
    (proposal : HashedProposal η β) (ancestorValues : List β) (sender : π) :
    ZugState ν η σ β κ π φ × List (ProtocolOutcome ν η σ β π) :=
  if proposal.proposal.timestamp < s.params.startTimestamp then (s, [])
  else if (proposal.proposal.maybeParentRoundId.bind s.acceptedProposal).any fun accepted =>
      proposal.proposal.timestamp <
          saturatingAdd 64 accepted.2.proposal.timestamp s.params.minBlockTime ||
        match proposal.proposal.inactive, accepted.2.proposal.inactive with
        | some inactive, some parentInactive => !inactive.all parentInactive.contains
        | _, _ => false then (s, [])
  else
    let blockContext : BlockContext β := ⟨proposal.proposal.timestamp, ancestorValues⟩
    match proposal.proposal.maybeBlock.filter ctx.needsValidation with
    | some block =>
      let proposedBlock : ProposedBlock β := ⟨block, blockContext⟩
      let waiting := (s.proposalsWaitingForValidation.lookup proposedBlock).getD []
      if (roundId, proposal, sender) ∈ waiting then (s, [])
      else
        ({ s with
          proposalsWaitingForValidation := AssocList.insertValue proposedBlock
            (waiting ++ [(roundId, proposal, sender)]) s.proposalsWaitingForValidation },
          [.validateConsensusValue sender proposedBlock])
    | none =>
      let inserted := s.modifyRound ctx roundId fun round => round.insertProposal proposal
      if inserted.2 then
        let s := ({ (inserted.1.recordEntry (.proposal proposal.proposal roundId)).1 with
          progressDetected := true }).markDirty roundId
        (s, proposal.proposal.maybeBlock.toList.map fun block => .handledProposedBlock ⟨block, blockContext⟩)
      else (inserted.1, [])

/-- `finalize_round`: finalize the parent first, prune the skipped rounds in
between, and report the block with its proposer's reward. -/
def ZugState.finalizeRoundFrom (s : ZugState ν η σ β κ π φ) :
    Nat → Nat → ZugState ν η σ β κ π φ × List (ProtocolOutcome ν η σ β π)
  | 0, _ => (s, [])
  | fuel + 1, roundId =>
    if roundId < s.firstNonFinalizedRoundId then (s, [])
    else
      match s.acceptedProposal roundId with
      | none => (s, [])
      | some (relativeHeight, proposal) =>
        let parentFinalized :=
          match proposal.proposal.maybeParentRoundId with
          | some parentRoundId => s.finalizeRoundFrom fuel parentRoundId
          | none => (s, [])
        let s := parentFinalized.1
        let s := (List.range' s.firstNonFinalizedRoundId (roundId - s.firstNonFinalizedRoundId)).foldl
          (fun s pruneRoundId => (s.modifyRound ctx pruneRoundId fun round => (round.pruneSkipped, ())).1) s
        let s := { s with firstNonFinalizedRoundId := saturatingAdd 32 roundId 1 }
        -- the source expects the leader to be a validator
        match proposal.proposal.maybeBlock, s.validators.id (s.leader ctx roundId) with
        | some value, some proposer =>
          let s := { s with
            rewards := AssocList.insertValue proposer
              (saturatingAdd 64 ((s.rewards.lookup proposer).getD 0) blockReward) s.rewards }
          let terminalBlockData : Option (TerminalBlockData ν) :=
            if s.acceptedSwitchBlock roundId then
              some ⟨s.rewards, (proposal.proposal.inactive.getD []).filterMap s.validators.id⟩
            else none
          (s, parentFinalized.2 ++
            [.finalizedBlock ⟨value, proposal.proposal.timestamp, relativeHeight, [],
              terminalBlockData, proposer⟩])
        | _, _ => (s, parentFinalized.2)

def ZugState.finalizeRound (s : ZugState ν η σ β κ π φ) (roundId : Nat) :
    ZugState ν η σ β κ π φ × List (ProtocolOutcome ν η σ β π) :=
  s.finalizeRoundFrom ctx (roundId + 1) roundId

/-- `create_echo_and_proposal`: sign an echo of our own proposal, record the
proposal in the WAL and insert it into the current round. -/
def ZugState.createEchoAndProposal (s : ZugState ν η σ β κ π φ) (proposal : Proposal η β) :
    ZugState ν η σ β κ π φ × List (ProtocolOutcome ν η σ β π) :=
  let roundId := s.currentRound
  let hashedProp : HashedProposal η β := ⟨ctx.hashProposal proposal, proposal⟩
  let created := s.createMessage ctx roundId (.echo hashedProp.hash)
  match created.2 with
  | none => (created.1, [])
  | some echo =>
    let propMsg : Message η σ β := .proposal roundId created.1.params.instanceId proposal echo
    let recorded := created.1.recordEntry (.proposal proposal roundId)
    if !recorded.2 then (recorded.1, [])
    else
      let inserted := recorded.1.modifyRound ctx roundId fun round => round.insertProposal hashedProp
      if inserted.2 then (inserted.1.markDirty roundId, [.createdGossipMessage propMsg])
      else (inserted.1, [])

/-- `propose_if_leader`: the leader of the current round requests a block, or
proposes a dummy after the switch block. -/
def ZugState.proposeIfLeader (s : ZugState ν η σ β κ π φ) (maybeParentRoundId : Option Nat)
    (now : Nat) : ZugState ν η σ β κ π φ × List (ProtocolOutcome ν η σ β π) :=
  if !s.activeValidator.any (fun activeValidator =>
      activeValidator.idx = s.leader ctx s.currentRound) then (s, [])
  else if s.pendingProposal.any (fun pending => pending.2.1 = s.currentRound) then (s, [])
  else
    let s := s.createRound ctx s.currentRound
    if (s.round s.currentRound).any Round.hasProposal then (s, [])
    else
      match maybeParentRoundId with
      | some parentRoundId =>
        if s.acceptedSwitchBlock parentRoundId || s.acceptedDummyProposal parentRoundId then
          s.createEchoAndProposal ctx (Proposal.dummy now parentRoundId)
        else
          -- the source expects the parent's ancestors to be accepted
          let blockContext : BlockContext β := ⟨now, (s.ancestorValues parentRoundId).getD []⟩
          ({ s with pendingProposal := some (blockContext, s.currentRound, maybeParentRoundId) },
            [.createNewBlock blockContext])
      | none =>
        let blockContext : BlockContext β := ⟨now, []⟩
        ({ s with pendingProposal := some (blockContext, s.currentRound, none) },
          [.createNewBlock blockContext])

/-- The block of `update_round` that runs when a proposal was newly accepted:
vote for it and validate the proposals that waited for it as their parent. -/
def ZugState.onAcceptedProposal (s : ZugState ν η σ β κ π φ) (roundId now : Nat) :
    ZugState ν η σ β κ π φ × List (ProtocolOutcome ν η σ β π) :=
  let s := if roundId = s.currentRound then s.updateProposalTimeout ctx now else s
  let voted := s.createAndGossipMessage ctx roundId (.vote true)
  match voted.1.proposalsWaitingForParent.lookup roundId with
  | none => voted
  | some proposals =>
    let s := { voted.1 with
      proposalsWaitingForParent := voted.1.proposalsWaitingForParent.filter (·.1 ≠ roundId) }
    -- the source expects the accepted proposal's ancestors to be accepted
    let ancestorValues := (s.ancestorValues roundId).getD []
    let waiting := proposals.flatMap fun (proposal, roundsAndSenders) =>
      roundsAndSenders.map fun (proposalRoundId, sender) => (proposal, proposalRoundId, sender)
    let validated := waiting.foldl
      (fun (acc : ZugState ν η σ β κ π φ × List (ProtocolOutcome ν η σ β π)) (proposal, proposalRoundId, sender) =>
        let result := acc.1.validateProposal ctx proposalRoundId proposal ancestorValues sender
        (result.1, acc.2 ++ result.2)) (s, [])
    (validated.1, voted.2 ++ validated.2)

/-- The vote to skip the current round, on timeout or under a faulty leader. -/
def ZugState.voteToSkip (s : ZugState ν η σ β κ π φ) (roundId now : Nat) :
    ZugState ν η σ β κ π φ × List (ProtocolOutcome ν η σ β π) :=
  if now ≥ saturatingAdd 64 s.currentRoundStart (s.proposalTimeout ctx) then
    let voted := s.createAndGossipMessage ctx roundId (.vote false)
    (voted.1.updateProposalTimeout ctx now, voted.2)
  else if (s.faults.lookup (s.leader ctx roundId)).isSome then
    s.createAndGossipMessage ctx roundId (.vote false)
  else (s, [])

/-- A proposal can be made now: start the round's timer, propose if leader,
and schedule an update at the round's timeout. -/
def ZugState.startRound (s : ZugState ν η σ β κ π φ) (maybeParentRoundId : Option Nat) (now : Nat) :
    ZugState ν η σ β κ π φ × List (ProtocolOutcome ν η σ β π) :=
  let proposed :=
    if s.currentRoundStart > now then
      ({ s with currentRoundStart := now }).proposeIfLeader ctx maybeParentRoundId now
    else (s, [])
  let currentTimeout := saturatingAdd 64 proposed.1.currentRoundStart (proposed.1.proposalTimeout ctx)
  let scheduled :=
    if currentTimeout > now then proposed.1.scheduleUpdate currentTimeout else (proposed.1, [])
  (scheduled.1, proposed.2 ++ scheduled.2)

/-- After the vote to skip: move on once the round is skippable or has an
accepted proposal; otherwise wait for a suitable parent and start the round. -/
def ZugState.advanceRound (s : ZugState ν η σ β κ π φ) (roundId now : Nat) :
    ZugState ν η σ β κ π φ × List (ProtocolOutcome ν η σ β π) :=
  if s.isSkippableRound roundId || s.hasAcceptedProposal roundId then
    ({ s with currentRoundStart := maxTimestamp, currentRound := saturatingAdd 32 s.currentRound 1 }, [])
  else
    match s.suitableParentRound now with
    | none => (s, [])
    | some (maybeParentRoundId, timestamp) =>
      if now < timestamp then s.scheduleUpdate timestamp
      else s.startRound ctx maybeParentRoundId now

/-- The third block of `update_round`, for the current round. -/
def ZugState.updateCurrentRound (s : ZugState ν η σ β κ π φ) (roundId now : Nat) :
    ZugState ν η σ β κ π φ × List (ProtocolOutcome ν η σ β π) :=
  if roundId = s.currentRound then
    let skipVote := s.voteToSkip ctx roundId now
    let advanced := skipVote.1.advanceRound ctx roundId now
    (advanced.1, skipVote.2 ++ advanced.2)
  else (s, [])

/-- The first block of `update_round`: echo the round's proposal, if any. -/
def ZugState.echoProposal (s : ZugState ν η σ β κ π φ) (roundId : Nat) :
    ZugState ν η σ β κ π φ × List (ProtocolOutcome ν η σ β π) :=
  match (s.round roundId).bind (·.proposal) with
  | some proposal => s.createAndGossipMessage ctx roundId (.echo proposal.hash)
  | none => (s, [])

/-- The second block of `update_round`: a newly accepted proposal. -/
def ZugState.acceptProposal (s : ZugState ν η σ β κ π φ) (roundId now : Nat) :
    ZugState ν η σ β κ π φ × List (ProtocolOutcome ν η σ β π) :=
  let accepted := s.updateAcceptedProposal ctx roundId
  if accepted.2 then accepted.1.onAcceptedProposal ctx roundId now else (accepted.1, [])

/-- The last block of `update_round`: a committed round with an accepted
proposal is finalized. -/
def ZugState.finalizeIfCommitted (s : ZugState ν η σ β κ π φ) (roundId : Nat) :
    ZugState ν η σ β κ π φ × List (ProtocolOutcome ν η σ β π) :=
  if s.hasAcceptedProposal roundId && s.isCommittedRound roundId then s.finalizeRound ctx roundId
  else (s, [])

/-- `update_round`: its four blocks in order, on the round created first. -/
def ZugState.updateRound (s : ZugState ν η σ β κ π φ) (roundId now : Nat) :
    ZugState ν η σ β κ π φ × List (ProtocolOutcome ν η σ β π) :=
  let echoed := (s.createRound ctx roundId).echoProposal ctx roundId
  let accepted := echoed.1.acceptProposal ctx roundId now
  let current := accepted.1.updateCurrentRound ctx roundId now
  let finalized := current.1.finalizeIfCommitted ctx roundId
  (finalized.1, echoed.2 ++ accepted.2 ++ current.2 ++ finalized.2)

/-- The loop of `update`: update the rounds from `roundId` on, up to the
current round as it stands after each step. -/
def ZugState.updateRoundsFrom (s : ZugState ν η σ β κ π φ) (now : Nat) :
    Nat → Nat → ZugState ν η σ β κ π φ × List (ProtocolOutcome ν η σ β π)
  | 0, _ => (s, [])
  | fuel + 1, roundId =>
    let updated := s.updateRound ctx roundId now
    if roundId ≥ updated.1.currentRound then updated
    else
      let rest := updated.1.updateRoundsFrom now fuel (roundId + 1)
      (rest.1, updated.2 ++ rest.2)

/-- `update`: nothing happens once the era has ended or the faulty weight
exceeds the threshold; otherwise every round from the dirty one is updated. -/
def ZugState.update (s : ZugState ν η σ β κ π φ) (now : Nat) :
    ZugState ν η σ β κ π φ × List (ProtocolOutcome ν η σ β π) :=
  if s.finalizedSwitchBlock || s.faultyWeight > s.params.ftt then (s, [])
  else
    let updated :=
      match s.maybeDirtyRoundId with
      | some dirtyRoundId => s.updateRoundsFrom ctx now roundIdCount dirtyRoundId
      | none => (s, [])
    ({ updated.1 with maybeDirtyRoundId := none }, updated.2)

/-- `handle_timer`. The sync timer's request to a random peer is left out; it
does not change the state. -/
def ZugState.handleTimer (s : ZugState ν η σ β κ π φ) (timestamp now timerId : Nat) :
    ZugState ν η σ β κ π φ × List (ProtocolOutcome ν η σ β π) :=
  if timerId = timerIdSyncPeer then (s, [])
  else if timerId = timerIdUpdate then
    let s := if timestamp ≥ s.nextScheduledUpdate then { s with nextScheduledUpdate := maxTimestamp } else s
    (s.markDirty s.currentRound).update ctx now
  else if timerId = timerIdLogParticipation then
    match s.config.logParticipationInterval with
    | some interval =>
      if !s.evidenceOnly && !s.finalizedSwitchBlock then (s, [.scheduleTimer (now + interval) timerId])
      else (s, [])
    | none => (s, [])
  else (s, [])

/-- `hashes.into_iter().any(|hash| self.check_new_echo_quorum(round_id, hash))`. -/
def ZugState.findNewEchoQuorum (s : ZugState ν η σ β κ π φ) (roundId : Nat) :
    List η → ZugState ν η σ β κ π φ × Bool
  | [] => (s, false)
  | hash :: hashes =>
    let checked := s.checkNewEchoQuorum roundId hash
    if checked.2 then checked else checked.1.findNewEchoQuorum roundId hashes

/-- The body of the loop of `handle_fault_no_wal` that recomputes one round's
quorums. -/
def ZugState.recheckQuorums (s : ZugState ν η σ β κ π φ) (roundId : Nat) : ZugState ν η σ β κ π φ :=
  match s.round roundId with
  | none => s
  | some round =>
    let s :=
      if round.quorumEchoes.isNone then
        let found := s.findNewEchoQuorum roundId (round.echoes.map (·.1))
        if found.2 then found.1.markDirty roundId else found.1
      else s
    let checkedTrue := s.checkNewVoteQuorum roundId true
    let checked := if checkedTrue.2 then checkedTrue else checkedTrue.1.checkNewVoteQuorum roundId false
    if checked.2 then checked.1.markDirty roundId else checked.1

/-- `handle_fault_no_wal`: record the fault, deactivate ourselves if we are the
faulty one, drop the validator's votes and echoes, and recompute the quorums. -/
def ZugState.handleFaultNoWal (s : ZugState ν η σ β κ π φ) (signedMsg : SignedMessage η σ)
    (validatorId : ν) (content2 : Content η) (signature2 : σ) (now : Nat) :
    ZugState ν η σ β κ π φ × List (ProtocolOutcome ν η σ β π) :=
  let validatorIdx := signedMsg.validatorIdx
  let s := { s with
    faults := AssocList.insertValue validatorIdx (.direct signedMsg content2 signature2) s.faults }
  let s :=
    if s.activeValidator.map (·.idx) = some validatorIdx then { s with activeValidator := none } else s
  let s := { s with active := s.active.set validatorIdx none, progressDetected := true }
  if s.faultyWeight > s.params.ftt then (s, [.newEvidence validatorId, .fttExceeded])
  else
    let s := { s with
      rounds := s.rounds.map fun (entry : Nat × Round η σ β) =>
      (entry.1, entry.2.removeVotesAndEchoes validatorIdx) }
    let lastRoundId := (s.rounds.map (·.1)).foldl max 0
    let s := (List.range' s.firstNonFinalizedRoundId (lastRoundId + 1 - s.firstNonFinalizedRoundId)).foldl
      (fun s roundId => s.recheckQuorums roundId) s
    let updated := s.update ctx now
    (updated.1, .newEvidence validatorId :: updated.2)

/-- The ancestor check of a proposal replayed from the WAL: every ancestor has
a proposal with a quorum of echoes. Returns their values, or `none`. -/
def ZugState.walAncestorValues (s : ZugState ν η σ β κ π φ) : Nat → Nat → Option (List β)
  | 0, _ => none
  | fuel + 1, roundId =>
    match (s.round roundId).bind (·.proposal) with
    | none => none
    | some proposal =>
      if (s.round roundId).bind Round.quorumEchoes ≠ some proposal.hash then none
      else
        match proposal.proposal.maybeParentRoundId with
        | none => some proposal.proposal.maybeBlock.toList
        | some parentRoundId =>
          (s.walAncestorValues fuel parentRoundId).map (proposal.proposal.maybeBlock.toList ++ ·)

/-- The loop of `open_wal` over the entries of the WAL file. It stops at the
first entry it cannot replay; the flag says whether it read them all. -/
def ZugState.replayWal (s : ZugState ν η σ β κ π φ) (now : Nat) :
    List (Entry η σ β) → List (ProtocolOutcome ν η σ β π) →
      ZugState ν η σ β κ π φ × List (ProtocolOutcome ν η σ β π) × Bool
  | [], outcomes => (s, outcomes, true)
  | .signedMessage nextMessage :: entries, outcomes =>
    let added := s.addContent ctx nextMessage
    if added.2 then added.1.replayWal now entries outcomes else (added.1, outcomes, false)
  | .proposal nextProposal correspondingRoundId :: entries, outcomes =>
    if ((s.round correspondingRoundId).bind (·.proposal)).map (·.proposal) = some nextProposal then
      s.replayWal now entries outcomes
    else
      let ancestors :=
        match nextProposal.maybeParentRoundId with
        | none => some []
        | some roundId => s.walAncestorValues (roundId + 1) roundId
      match ancestors with
      | none => (s, outcomes, false)
      | some ancestorValues =>
        let inserted := s.modifyRound ctx correspondingRoundId fun round =>
          round.insertProposal ⟨ctx.hashProposal nextProposal, nextProposal⟩
        if inserted.2 then
          (inserted.1.markDirty correspondingRoundId).replayWal now entries
            (outcomes ++ nextProposal.maybeBlock.toList.map fun block =>
              .handledProposedBlock ⟨block, ⟨nextProposal.timestamp, ancestorValues⟩⟩)
        else inserted.1.replayWal now entries outcomes
  | .evidence conflictingMessage content2 signature2 :: entries, outcomes =>
    match s.validators.id conflictingMessage.validatorIdx with
    | none => s.replayWal now entries outcomes
    | some validatorId =>
      let handled := s.handleFaultNoWal ctx conflictingMessage validatorId content2 signature2 now
      handled.1.replayWal now entries (outcomes ++ handled.2.filter ProtocolOutcome.keptOnReplay)

/-- `open_wal` on a file holding `walFile`; reading it and opening it for
appending are taken to succeed. -/
def ZugState.openWal (s : ZugState ν η σ β κ π φ) (walFile : List (Entry η σ β)) (now : Nat) :
    ZugState ν η σ β κ π φ × List (ProtocolOutcome ν η σ β π) :=
  let replayed := s.replayWal ctx now walFile []
  if replayed.2.2 then ({ replayed.1 with writeWal := some walFile }, replayed.2.1)
  else (replayed.1, replayed.2.1)

/-- `activate_validator`: without a WAL the node does not sign anything. -/
def ZugState.activateValidator (s : ZugState ν η σ β κ π φ) (ourId : ν)
    (secret : κ) (now : Nat) (walFile : Option (List (Entry η σ β))) :
    ZugState ν η σ β κ π φ × List (ProtocolOutcome ν η σ β π) :=
  let opened :=
    if s.writeWal.isNone then
      match walFile with
      | some walFile => s.openWal ctx walFile now
      | none => (s, [])
    else (s, [])
  if opened.1.writeWal.isNone then (opened.1, [])
  else
    match opened.1.validators.getIndex ourId with
    | none => opened
    | some idx =>
      if (opened.1.faults.lookup idx).isSome then opened
      else
        let s := { opened.1 with activeValidator := some ⟨idx, secret⟩ }
        let scheduled := s.scheduleUpdate (max s.params.startTimestamp now)
        (scheduled.1, opened.2 ++ scheduled.2)

def ZugState.deactivateValidator (s : ZugState ν η σ β κ π φ) : ZugState ν η σ β κ π φ :=
  { s with activeValidator := none }

/-- `set_evidence_only`: the era is over; only evidence is kept. -/
def ZugState.setEvidenceOnly (s : ZugState ν η σ β κ π φ) : ZugState ν η σ β κ π φ :=
  { s with
    evidenceOnly := true
    rounds := []
    proposalsWaitingForParent := []
    proposalsWaitingForValidation := [] }

def ZugState.markFaulty (s : ZugState ν η σ β κ π φ) (vid : ν) :
    ZugState ν η σ β κ π φ :=
  match s.validators.getIndex vid with
  | some idx =>
    if (s.faults.lookup idx).isSome then s
    else { s with faults := AssocList.insertValue idx .indirect s.faults }
  | none => s

end Protocol

end Zug
