import CasperNode.Zug.Round

/-!
The state of a Zug instance (`consensus/protocols/zug.rs`) and the operations
that sign and store messages: `record_entry`, `add_content`, the quorum checks
and `create_message`. Validator ids are of a type `ν`, node ids of a type `π`,
validator secrets of a type `κ`; timestamps, weights and round ids are `Nat`
with the saturating additions of their `u64`/`u32` types written out.

The leader sequence, message and proposal hashing, signing and the `f64`
arithmetic of the proposal timeout are parameters of the instance
(`ZugContext`): the leader sequence draws from a `ChaCha8Rng`, and `f64`
operations cannot be evaluated by the kernel. `FloatOps.f64` is Lean's `Float`.
-/
namespace Zug

/-- `saturating_add` of the unsigned integer type with `bits` bits. -/
def saturatingAdd (bits a b : Nat) : Nat := min (a + b) (2 ^ bits - 1)

/-- `Timestamp::MAX`. -/
def maxTimestamp : Nat := 2 ^ 64 - 1

def timerIdSyncPeer : Nat := 0
def timerIdUpdate : Nat := 1
def timerIdLogParticipation : Nat := 2

/-- `BLOCK_REWARD`, paid to the proposer of every finalized block. -/
def blockReward : Nat := 1000000000000

structure Validator (ν : Type) where
  id : ν
  weight : Nat
  banned : Bool
  deriving DecidableEq, Repr

structure Validators (ν : Type) where
  validators : List (Validator ν)
  deriving DecidableEq, Repr

structure Params (η : Type) where
  instanceId : η
  minBlockTime : Nat
  startTimestamp : Nat
  endHeight : Nat
  endTimestamp : Nat
  ftt : Nat
  deriving DecidableEq, Repr

/-- The fields of the Zug `Config` that the modelled functions read. -/
structure Config where
  logParticipationInterval : Option Nat
  proposalTimeout : Nat
  proposalGracePeriod : Nat
  proposalTimeoutInertia : Nat
  deriving DecidableEq, Repr

structure ActiveValidator (κ : Type) where
  idx : Nat
  secret : κ
  deriving DecidableEq, Repr

inductive Fault (η σ : Type) where
  | banned
  | direct (signedMsg : SignedMessage η σ) (content2 : Content η) (signature2 : σ)
  | indirect
  deriving DecidableEq, Repr

structure BlockContext (β : Type) where
  timestamp : Nat
  ancestorValues : List β
  deriving DecidableEq, Repr

structure ProposedBlock (β : Type) where
  value : β
  context : BlockContext β
  deriving DecidableEq, Repr

inductive Entry (η σ β : Type) where
  | signedMessage (signedMsg : SignedMessage η σ)
  | proposal (proposal : Proposal η β) (roundId : Nat)
  | evidence (signedMsg : SignedMessage η σ) (content2 : Content η) (signature2 : σ)
  deriving DecidableEq, Repr

/-- The Zug messages the modelled functions send; sync requests and responses
are left out. -/
inductive Message (η σ β : Type) where
  | proposal (roundId : Nat) (instanceId : η) (proposal : Proposal η β) (echo : SignedMessage η σ)
  | signed (signedMsg : SignedMessage η σ)
  | evidence (signedMsg : SignedMessage η σ) (content2 : Content η) (signature2 : σ)
  deriving DecidableEq, Repr

structure TerminalBlockData (ν : Type) where
  rewards : List (ν × Nat)
  inactiveValidators : List ν
  deriving DecidableEq, Repr

structure FinalizedBlock (ν β : Type) where
  value : β
  timestamp : Nat
  relativeHeight : Nat
  equivocators : List ν
  terminalBlockData : Option (TerminalBlockData ν)
  proposer : ν
  deriving DecidableEq, Repr

inductive ProtocolOutcome (ν η σ β π : Type) where
  | createdGossipMessage (message : Message η σ β)
  | scheduleTimer (timestamp : Nat) (timerId : Nat)
  | createNewBlock (blockContext : BlockContext β)
  | finalizedBlock (finalizedBlock : FinalizedBlock ν β)
  | validateConsensusValue (sender : π) (proposedBlock : ProposedBlock β)
  | handledProposedBlock (proposedBlock : ProposedBlock β)
  | newEvidence (validatorId : ν)
  | fttExceeded
  deriving DecidableEq, Repr

/-- The `f64` operations `update_proposal_timeout` uses: `ofNat` is `as f64`,
`toNat` is `as u64`, `min` and `max` are `f64::min` and `f64::max`. -/
structure FloatOps (φ : Type) where
  ofNat : Nat → φ
  toNat : φ → Nat
  add : φ → φ → φ
  sub : φ → φ → φ
  mul : φ → φ → φ
  div : φ → φ → φ
  neg : φ → φ
  exp2 : φ → φ
  lt : φ → φ → Bool
  min : φ → φ → φ
  max : φ → φ → φ

def FloatOps.f64 : FloatOps Float where
  ofNat := Float.ofNat
  toNat x := x.toUInt64.toNat
  add := (· + ·)
  sub := (· - ·)
  mul := (· * ·)
  div := (· / ·)
  neg x := -x
  exp2 := Float.exp2
  lt x y := x < y
  -- `f64::min` and `f64::max` return the other operand when one is NaN
  min x y := if x.isNaN then y else if y.isNaN then x else if x ≤ y then x else y
  max x y := if x.isNaN then y else if y.isNaN then x else if x ≤ y then y else x

structure ZugContext (η σ β κ φ : Type) where
  /-- `LeaderSequence::leader`. -/
  leader : Nat → Nat
  /-- `SignedMessage::hash_fields`. -/
  hashFields : Nat → η → Content η → Nat → η
  /-- `ValidatorSecret::sign`. -/
  sign : κ → η → σ
  /-- The hash of a proposal's serialization, memoized by `HashedProposal::new`. -/
  hashProposal : Proposal η β → η
  /-- `ConsensusValueT::needs_validation`. -/
  needsValidation : β → Bool
  float : FloatOps φ

structure ZugState (ν η σ β κ π φ : Type) where
  params : Params η
  proposalTimeoutMillis : φ
  validators : Validators ν
  activeValidator : Option (ActiveValidator κ)
  evidenceOnly : Bool
  proposalsWaitingForParent : List (Nat × List (HashedProposal η β × List (Nat × π)))
  proposalsWaitingForValidation : List (ProposedBlock β × List (Nat × HashedProposal η β × π))
  pendingProposal : Option (BlockContext β × Nat × Option Nat)
  rounds : List (Nat × Round η σ β)
  faults : List (Nat × Fault η σ)
  config : Config
  active : List (Option (SignedMessage η σ))
  firstNonFinalizedRoundId : Nat
  maybeDirtyRoundId : Option Nat
  currentRound : Nat
  currentRoundStart : Nat
  progressDetected : Bool
  paused : Bool
  nextScheduledUpdate : Nat
  writeWal : Option (List (Entry η σ β))
  rewards : List (ν × Nat)

section Validators
variable {ν : Type}

def Validators.len (validators : Validators ν) : Nat := validators.validators.length

def Validators.totalWeight (validators : Validators ν) : Nat :=
  (validators.validators.map (·.weight)).sum

/-- `Validators::weight`; the source panics on an index out of range. -/
def Validators.weight (validators : Validators ν) (idx : Nat) : Nat :=
  (validators.validators[idx]?.map (·.weight)).getD 0

def Validators.id (validators : Validators ν) (idx : Nat) : Option ν :=
  validators.validators[idx]?.map (·.id)

def Validators.getIndex [DecidableEq ν] (validators : Validators ν) (id : ν) : Option Nat :=
  validators.validators.findIdx? (·.id = id)

def Validators.iterBannedIdx (validators : Validators ν) : List Nat :=
  (List.range validators.len).filter fun idx => (validators.validators[idx]?.map (·.banned)) = some true

end Validators

/-- `ValidatorMap::keys_some`: the indexes that hold a value. -/
def keysSome {α : Type} (map : List (Option α)) : List Nat :=
  (List.range map.length).filter fun idx => (map.getD idx none).isSome

def SignedMessage.signNew {η σ β κ φ : Type} (ctx : ZugContext η σ β κ φ) (roundId : Nat)
    (instanceId : η) (content : Content η) (validatorIdx : Nat) (secret : κ) : SignedMessage η σ :=
  ⟨roundId, instanceId, content, validatorIdx,
    ctx.sign secret (ctx.hashFields roundId instanceId content validatorIdx)⟩

section Queries
variable {ν η σ β κ π φ : Type} [DecidableEq η]
variable (ctx : ZugContext η σ β κ φ)

def ZugState.round (s : ZugState ν η σ β κ π φ) (roundId : Nat) : Option (Round η σ β) :=
  s.rounds.lookup roundId

def ZugState.leader (s : ZugState ν η σ β κ π φ) (roundId : Nat) : Nat :=
  match s.round roundId with
  | some round => round.leaderIdx
  | none => ctx.leader roundId

/-- The round `round_mut` hands out: the stored one, or a new one. -/
def ZugState.roundMut (s : ZugState ν η σ β κ π φ) (roundId : Nat) : Round η σ β :=
  match s.round roundId with
  | some round => round
  | none => Round.new s.validators.len (ctx.leader roundId)

def ZugState.setRound (s : ZugState ν η σ β κ π φ) (roundId : Nat) (round : Round η σ β) :
    ZugState ν η σ β κ π φ :=
  { s with rounds := AssocList.insertValue roundId round s.rounds }

/-- A call through `round_mut`: the round is created if missing, changed by
`f`, and stored back. -/
def ZugState.modifyRound {α : Type} (s : ZugState ν η σ β κ π φ) (roundId : Nat)
    (f : Round η σ β → Round η σ β × α) : ZugState ν η σ β κ π φ × α :=
  let result := f (s.roundMut ctx roundId)
  (s.setRound roundId result.1, result.2)

def ZugState.createRound (s : ZugState ν η σ β κ π φ) (roundId : Nat) : ZugState ν η σ β κ π φ :=
  (s.modifyRound ctx roundId fun round => (round, ())).1

def ZugState.hasEchoed (s : ZugState ν η σ β κ π φ) (roundId validatorIdx : Nat) : Bool :=
  (s.round roundId).any fun round => round.hasEchoed validatorIdx

def ZugState.hasVoted (s : ZugState ν η σ β κ π φ) (roundId validatorIdx : Nat) : Bool :=
  (s.round roundId).any fun round => round.hasVoted validatorIdx

/-- `already_signed` in `create_message`. -/
def ZugState.alreadySigned (s : ZugState ν η σ β κ π φ) (roundId : Nat) (content : Content η)
    (validatorIdx : Nat) : Bool :=
  match content with
  | .echo _ => s.hasEchoed roundId validatorIdx
  | .vote _ => s.hasVoted roundId validatorIdx

def ZugState.sumWeights (s : ZugState ν η σ β κ π φ) (vidxs : List Nat) : Nat :=
  (vidxs.map s.validators.weight).sum

def ZugState.faultyWeight (s : ZugState ν η σ β κ π φ) : Nat :=
  s.sumWeights (s.faults.map (·.1))

/-- `quorum_threshold`: `(total_weight + ftt) / 2` of a `u64` addition whose
overflow bit comes back as `2^63`. -/
def ZugState.quorumThreshold (s : ZugState ν η σ β κ π φ) : Nat :=
  let sum := s.validators.totalWeight + s.params.ftt
  if sum < 2 ^ 64 then sum / 2 else (sum - 2 ^ 64) / 2 ||| 2 ^ 63

/-- The loop of `is_quorum`, from the running sum `sum`. -/
def ZugState.isQuorumFrom (s : ZugState ν η σ β κ π φ) (quorumThreshold : Nat) :
    Nat → List Nat → Bool
  | _, [] => false
  | sum, vidx :: vidxs =>
    if (s.faults.lookup vidx).isSome then s.isQuorumFrom quorumThreshold sum vidxs
    else if sum + s.validators.weight vidx > quorumThreshold then true
    else s.isQuorumFrom quorumThreshold (sum + s.validators.weight vidx) vidxs

def ZugState.isQuorum (s : ZugState ν η σ β κ π φ) (vidxs : List Nat) : Bool :=
  let sum := s.faultyWeight
  let quorumThreshold := s.quorumThreshold
  if sum > quorumThreshold then true else s.isQuorumFrom quorumThreshold sum vidxs

def ZugState.isSkippableRound (s : ZugState ν η σ β κ π φ) (roundId : Nat) : Bool :=
  (s.round roundId).bind Round.quorumVotes = some false

def ZugState.isCommittedRound (s : ZugState ν η σ β κ π φ) (roundId : Nat) : Bool :=
  (s.round roundId).bind Round.quorumVotes = some true

def ZugState.acceptedProposal (s : ZugState ν η σ β κ π φ) (roundId : Nat) :
    Option (Nat × HashedProposal η β) :=
  (s.round roundId).bind Round.acceptedProposal

def ZugState.hasAcceptedProposal (s : ZugState ν η σ β κ π φ) (roundId : Nat) : Bool :=
  (s.acceptedProposal roundId).isSome

def ZugState.acceptedSwitchBlock (s : ZugState ν η σ β κ π φ) (roundId : Nat) : Bool :=
  match s.acceptedProposal roundId with
  | none => false
  | some (height, proposal) =>
    proposal.proposal.maybeBlock.isSome && saturatingAdd 64 height 1 ≥ s.params.endHeight &&
      proposal.proposal.timestamp ≥ s.params.endTimestamp

def ZugState.acceptedDummyProposal (s : ZugState ν η σ β κ π φ) (roundId : Nat) : Bool :=
  match s.acceptedProposal roundId with
  | none => false
  | some (_, proposal) => proposal.proposal.maybeBlock.isNone

def ZugState.finalizedSwitchBlock (s : ZugState ν η σ β κ π φ) : Bool :=
  match s.firstNonFinalizedRoundId with
  | 0 => false
  | roundId + 1 => s.acceptedSwitchBlock roundId || s.acceptedDummyProposal roundId

def ZugState.proposalTimeout (s : ZugState ν η σ β κ π φ) : Nat :=
  ctx.float.toNat s.proposalTimeoutMillis

end Queries

section Updates
variable {ν η σ β κ π φ : Type} [DecidableEq η]
variable (ctx : ZugContext η σ β κ φ)

def ZugState.markDirty (s : ZugState ν η σ β κ π φ) (roundId : Nat) : ZugState ν η σ β κ π φ :=
  if roundId ≤ s.currentRound && s.maybeDirtyRoundId.all (· > roundId) then
    { s with maybeDirtyRoundId := some roundId }
  else s

def ZugState.scheduleUpdate (s : ZugState ν η σ β κ π φ) (timestamp : Nat) :
    ZugState ν η σ β κ π φ × List (ProtocolOutcome ν η σ β π) :=
  if s.nextScheduledUpdate > timestamp then
    ({ s with nextScheduledUpdate := timestamp }, [.scheduleTimer timestamp timerIdUpdate])
  else (s, [])

/-- `record_entry`. Writing to the WAL file is taken to succeed; on an I/O
error the source would also deactivate the validator and close the WAL. -/
def ZugState.recordEntry (s : ZugState ν η σ β κ π φ) (entry : Entry η σ β) :
    ZugState ν η σ β κ π φ × Bool :=
  match s.writeWal with
  | some wal => ({ s with writeWal := some (wal ++ [entry]) }, true)
  | none => (s, false)

def ZugState.checkNewEchoQuorum (s : ZugState ν η σ β κ π φ) (roundId : Nat) (hash : η) :
    ZugState ν η σ β κ π φ × Bool :=
  match s.round roundId with
  | some round =>
    if round.quorumEchoes.isNone &&
        s.isQuorum (((round.echoes.lookup hash).getD []).map (·.1)) then
      (s.setRound roundId (round.setQuorumEchoes hash), true)
    else (s, false)
  | none => (s, false)

def ZugState.checkNewVoteQuorum (s : ZugState ν η σ β κ π φ) (roundId : Nat) (vote : Bool) :
    ZugState ν η σ β κ π φ × Bool :=
  match s.round roundId with
  | some round =>
    if round.quorumVotes.isNone && s.isQuorum (keysSome (round.votes vote)) then
      (s.setRound roundId (round.setQuorumVotes vote), true)
    else (s, false)
  | none => (s, false)

/-- The first block of `add_content`: the first message of a validator makes
it active, and every unfinalized round dirty, since proposals that called it
inactive were not accepted. -/
def ZugState.markActive (s : ZugState ν η σ β κ π φ) (signedMsg : SignedMessage η σ) :
    ZugState ν η σ β κ π φ :=
  if (s.active.getD signedMsg.validatorIdx none).isNone then
    ({ s with active := s.active.set signedMsg.validatorIdx (some signedMsg) }).markDirty
      s.firstNonFinalizedRoundId
  else s

/-- `add_content`: store a new echo or vote, which may complete a quorum. -/
def ZugState.addContent (s : ZugState ν η σ β κ π φ) (signedMsg : SignedMessage η σ) :
    ZugState ν η σ β κ π φ × Bool :=
  let s := s.markActive signedMsg
  match signedMsg.content with
  | .echo hash =>
    let inserted := s.modifyRound ctx signedMsg.roundId fun round =>
      round.insertEcho hash signedMsg.validatorIdx signedMsg.signature
    if inserted.2 then
      let checked := ({ inserted.1 with progressDetected := true }).checkNewEchoQuorum
        signedMsg.roundId hash
      (if checked.2 then checked.1.markDirty signedMsg.roundId else checked.1, true)
    else (inserted.1, false)
  | .vote vote =>
    let inserted := s.modifyRound ctx signedMsg.roundId fun round =>
      round.insertVote vote signedMsg.validatorIdx signedMsg.signature
    if inserted.2 then
      let checked := ({ inserted.1 with progressDetected := true }).checkNewVoteQuorum
        signedMsg.roundId vote
      (if checked.2 then checked.1.markDirty signedMsg.roundId else checked.1, true)
    else (inserted.1, false)

/-- `create_message`: an active, unpaused validator signs content it has not
signed in the round yet, records it in the WAL and then adds it to the state. -/
def ZugState.createMessage (s : ZugState ν η σ β κ π φ) (roundId : Nat) (content : Content η) :
    ZugState ν η σ β κ π φ × Option (SignedMessage η σ) :=
  match s.activeValidator with
  | none => (s, none)
  | some activeValidator =>
    if s.paused then (s, none)
    else if s.alreadySigned roundId content activeValidator.idx then (s, none)
    else
      let signedMsg := SignedMessage.signNew ctx roundId s.params.instanceId content
        activeValidator.idx activeValidator.secret
      let recorded := s.recordEntry (.signedMessage signedMsg)
      if recorded.2 then
        let added := recorded.1.addContent ctx signedMsg
        (added.1, if added.2 then some signedMsg else none)
      else (recorded.1, none)

def ZugState.createAndGossipMessage (s : ZugState ν η σ β κ π φ) (roundId : Nat)
    (content : Content η) : ZugState ν η σ β κ π φ × List (ProtocolOutcome ν η σ β π) :=
  let created := s.createMessage ctx roundId content
  (created.1, created.2.toList.map fun signedMsg => .createdGossipMessage (.signed signedMsg))

end Updates

/-! ## What signing and storing change -/

section Frame
variable {ν η σ β κ π φ : Type}
variable (ctx : ZugContext η σ β κ φ)

/-- The WAL is open and begins with `entries`. -/
def ZugState.WalStartsWith (s : ZugState ν η σ β κ π φ) (entries : List (Entry η σ β)) : Prop :=
  ∃ wal, s.writeWal = some wal ∧ entries <+: wal

/-- What the operations below `update` never change: who we are, whether we
may sign, the faults and the validators; and the WAL only grows. -/
structure ZugState.Frame (s s' : ZugState ν η σ β κ π φ) : Prop where
  activeValidator : s'.activeValidator = s.activeValidator
  paused : s'.paused = s.paused
  faults : s'.faults = s.faults
  validators : s'.validators = s.validators
  params : s'.params = s.params
  walGrows : ∀ entries, s.WalStartsWith entries → s'.WalStartsWith entries

theorem ZugState.Frame.refl (s : ZugState ν η σ β κ π φ) : s.Frame s :=
  ⟨rfl, rfl, rfl, rfl, rfl, fun _ grown => grown⟩

theorem ZugState.Frame.trans {s₁ s₂ s₃ : ZugState ν η σ β κ π φ} (first : s₁.Frame s₂)
    (second : s₂.Frame s₃) : s₁.Frame s₃ where
  activeValidator := second.activeValidator.trans first.activeValidator
  paused := second.paused.trans first.paused
  faults := second.faults.trans first.faults
  validators := second.validators.trans first.validators
  params := second.params.trans first.params
  walGrows entries started := second.walGrows entries (first.walGrows entries started)

theorem ZugState.Frame.of_eq {s s' : ZugState ν η σ β κ π φ}
    (activeValidator : s'.activeValidator = s.activeValidator) (paused : s'.paused = s.paused)
    (faults : s'.faults = s.faults) (validators : s'.validators = s.validators)
    (params : s'.params = s.params) (writeWal : s'.writeWal = s.writeWal) : s.Frame s' where
  activeValidator := activeValidator
  paused := paused
  faults := faults
  validators := validators
  params := params
  walGrows := by
    rintro entries ⟨wal, opened, starts⟩
    exact ⟨wal, writeWal.trans opened, starts⟩

/-- A frame followed by a record update that leaves the framed fields and the
WAL alone. -/
theorem ZugState.Frame.update {s s₂ s₃ : ZugState ν η σ β κ π φ} (framed : s.Frame s₂)
    (activeValidator : s₃.activeValidator = s₂.activeValidator) (paused : s₃.paused = s₂.paused)
    (faults : s₃.faults = s₂.faults) (validators : s₃.validators = s₂.validators)
    (params : s₃.params = s₂.params) (writeWal : s₃.writeWal = s₂.writeWal) : s.Frame s₃ :=
  framed.trans (.of_eq activeValidator paused faults validators params writeWal)

theorem ZugState.Frame.ite {s : ZugState ν η σ β κ π φ} {c : Prop} [Decidable c] {α : Type}
    {x y : ZugState ν η σ β κ π φ × α} (pos : c → s.Frame x.1) (neg : ¬c → s.Frame y.1) :
    s.Frame (if c then x else y).1 := by
  split
  · next holds => exact pos holds
  · next fails => exact neg fails

theorem ZugState.frame_recordEntry (s : ZugState ν η σ β κ π φ) (entry : Entry η σ β) :
    s.Frame (s.recordEntry entry).1 := by
  unfold ZugState.recordEntry
  split
  · next wal opened =>
    refine ⟨rfl, rfl, rfl, rfl, rfl, ?_⟩
    rintro entries ⟨wal', opened', starts⟩
    rw [opened] at opened'
    cases opened'
    exact ⟨wal ++ [entry], rfl, starts.trans (List.prefix_append wal [entry])⟩
  · exact .refl s

theorem ZugState.walStartsWith_recordEntry (s : ZugState ν η σ β κ π φ) {wal : List (Entry η σ β)}
    (opened : s.writeWal = some wal) (entry : Entry η σ β) :
    (s.recordEntry entry).2 = true ∧ (s.recordEntry entry).1.WalStartsWith (wal ++ [entry]) := by
  unfold ZugState.recordEntry
  rw [opened]
  exact ⟨rfl, wal ++ [entry], rfl, List.prefix_refl _⟩

theorem ZugState.frame_markDirty (s : ZugState ν η σ β κ π φ) (roundId : Nat) :
    s.Frame (s.markDirty roundId) := by
  unfold ZugState.markDirty
  split
  · exact .of_eq rfl rfl rfl rfl rfl rfl
  · exact .refl s

theorem ZugState.frame_setRound (s : ZugState ν η σ β κ π φ) (roundId : Nat) (round : Round η σ β) :
    s.Frame (s.setRound roundId round) :=
  .of_eq rfl rfl rfl rfl rfl rfl

theorem ZugState.frame_scheduleUpdate (s : ZugState ν η σ β κ π φ) (timestamp : Nat) :
    s.Frame (s.scheduleUpdate timestamp).1 := by
  unfold ZugState.scheduleUpdate
  split
  · exact .of_eq rfl rfl rfl rfl rfl rfl
  · exact .refl s

theorem ZugState.frame_modifyRound {α : Type} (s : ZugState ν η σ β κ π φ) (roundId : Nat)
    (f : Round η σ β → Round η σ β × α) : s.Frame (s.modifyRound ctx roundId f).1 :=
  s.frame_setRound roundId _

theorem ZugState.frame_createRound (s : ZugState ν η σ β κ π φ) (roundId : Nat) :
    s.Frame (s.createRound ctx roundId) :=
  s.frame_modifyRound ctx roundId _

theorem ZugState.frame_checkNewVoteQuorum (s : ZugState ν η σ β κ π φ) (roundId : Nat) (vote : Bool) :
    s.Frame (s.checkNewVoteQuorum roundId vote).1 := by
  unfold ZugState.checkNewVoteQuorum
  split
  · split
    · exact s.frame_setRound roundId _
    · exact .refl s
  · exact .refl s

theorem ZugState.frame_markActive (s : ZugState ν η σ β κ π φ) (signedMsg : SignedMessage η σ) :
    s.Frame (s.markActive signedMsg) := by
  unfold ZugState.markActive
  split
  · refine Frame.trans ?_ (frame_markDirty _ _)
    exact .of_eq rfl rfl rfl rfl rfl rfl
  · exact .refl s

/-- The tail of `add_content` after the insertion: progress, then a quorum
check that may mark the round dirty. -/
theorem ZugState.frame_afterInsert (s : ZugState ν η σ β κ π φ) (roundId : Nat)
    (check : ZugState ν η σ β κ π φ → ZugState ν η σ β κ π φ × Bool)
    (checkFrame : ∀ s' : ZugState ν η σ β κ π φ, s'.Frame (check s').1) :
    s.Frame (if (check { s with progressDetected := true }).2 then
      (check { s with progressDetected := true }).1.markDirty roundId
      else (check { s with progressDetected := true }).1) := by
  have checked : s.Frame (check { s with progressDetected := true }).1 := by
    refine Frame.trans ?_ (checkFrame _)
    exact .of_eq rfl rfl rfl rfl rfl rfl
  split
  · exact checked.trans (frame_markDirty _ _)
  · exact checked

end Frame

section Lemmas
variable {ν η σ β κ π φ : Type} [DecidableEq η]
variable (ctx : ZugContext η σ β κ φ)

theorem ZugState.frame_checkNewEchoQuorum (s : ZugState ν η σ β κ π φ) (roundId : Nat) (hash : η) :
    s.Frame (s.checkNewEchoQuorum roundId hash).1 := by
  unfold ZugState.checkNewEchoQuorum
  split
  · split
    · exact s.frame_setRound roundId _
    · exact .refl s
  · exact .refl s

theorem ZugState.frame_addContent (s : ZugState ν η σ β κ π φ) (signedMsg : SignedMessage η σ) :
    s.Frame (s.addContent ctx signedMsg).1 := by
  have activated := s.frame_markActive signedMsg
  dsimp only [ZugState.addContent]
  split
  · next hash _ =>
    split
    · exact (activated.trans (frame_modifyRound ctx _ _ _)).trans
        (frame_afterInsert _ _ (fun s' => s'.checkNewEchoQuorum signedMsg.roundId hash)
          (fun s' => s'.frame_checkNewEchoQuorum _ _))
    · dsimp only
      exact activated.trans (frame_modifyRound ctx _ _ _)
  · next vote _ =>
    split
    · exact (activated.trans (frame_modifyRound ctx _ _ _)).trans
        (frame_afterInsert _ _ (fun s' => s'.checkNewVoteQuorum signedMsg.roundId vote)
          (fun s' => s'.frame_checkNewVoteQuorum _ _))
    · dsimp only
      exact activated.trans (frame_modifyRound ctx _ _ _)

/-! ## The guard of `create_message` -/

omit [DecidableEq η] in
theorem ZugState.alreadySigned_of_rounds {s s' : ZugState ν η σ β κ π φ} (same : s'.rounds = s.rounds)
    (roundId : Nat) (content : Content η) (validatorIdx : Nat) :
    s'.alreadySigned roundId content validatorIdx = s.alreadySigned roundId content validatorIdx := by
  cases content <;> simp [ZugState.alreadySigned, ZugState.hasEchoed, ZugState.hasVoted,
    ZugState.round, same]

omit [DecidableEq η] in
theorem ZugState.rounds_markActive (s : ZugState ν η σ β κ π φ) (signedMsg : SignedMessage η σ) :
    (s.markActive signedMsg).rounds = s.rounds := by
  unfold ZugState.markActive ZugState.markDirty
  split
  · split <;> rfl
  · rfl

omit [DecidableEq η] in
theorem ZugState.rounds_recordEntry (s : ZugState ν η σ β κ π φ) (entry : Entry η σ β) :
    (s.recordEntry entry).1.rounds = s.rounds := by
  unfold ZugState.recordEntry
  split <;> rfl

omit [DecidableEq η] in
/-- The round `round_mut` hands out holds no vote of a validator that has not
voted in that round. -/
theorem ZugState.roundMut_hasVoted (s : ZugState ν η σ β κ π φ) (roundId validatorIdx : Nat)
    (unsigned : s.hasVoted roundId validatorIdx = false) :
    (s.roundMut ctx roundId).hasVoted validatorIdx = false := by
  unfold ZugState.hasVoted at unsigned
  unfold ZugState.roundMut
  cases found : s.round roundId with
  | none => exact (Round.new_not_signed _ _ _).1
  | some round =>
    rw [found] at unsigned
    exact unsigned

omit [DecidableEq η] in
theorem ZugState.roundMut_hasEchoed (s : ZugState ν η σ β κ π φ) (roundId validatorIdx : Nat)
    (unsigned : s.hasEchoed roundId validatorIdx = false) :
    (s.roundMut ctx roundId).hasEchoed validatorIdx = false := by
  unfold ZugState.hasEchoed at unsigned
  unfold ZugState.roundMut
  cases found : s.round roundId with
  | none => exact (Round.new_not_signed _ _ _).2
  | some round =>
    rw [found] at unsigned
    exact unsigned

theorem ZugState.addContent_added (s : ZugState ν η σ β κ π φ) (signedMsg : SignedMessage η σ)
    (unsigned : s.alreadySigned signedMsg.roundId signedMsg.content signedMsg.validatorIdx = false) :
    (s.addContent ctx signedMsg).2 = true := by
  have activated : (s.markActive signedMsg).alreadySigned signedMsg.roundId signedMsg.content
      signedMsg.validatorIdx = false := by
    rw [alreadySigned_of_rounds (s.rounds_markActive signedMsg)]
    exact unsigned
  obtain ⟨roundId, instanceId, content, validatorIdx, signature⟩ := signedMsg
  cases content with
  | echo hash =>
    have fresh := (s.markActive _).roundMut_hasEchoed ctx roundId validatorIdx activated
    have inserted := Round.insertEcho_fresh _ hash validatorIdx signature fresh
    dsimp only [ZugState.addContent, ZugState.modifyRound]
    simp [inserted]
  | vote vote =>
    have fresh := (s.markActive _).roundMut_hasVoted ctx roundId validatorIdx activated
    have inserted := Round.insertVote_fresh _ vote validatorIdx signature fresh
    dsimp only [ZugState.addContent, ZugState.modifyRound]
    simp [inserted]

/-- With its guard open, `create_message` records the signed message in the
WAL and then adds it to the state. -/
theorem ZugState.createMessage_eq_of_open (s : ZugState ν η σ β κ π φ) (roundId : Nat)
    (content : Content η) {activeValidator : ActiveValidator κ}
    (active : s.activeValidator = some activeValidator) (unpaused : s.paused = false)
    {wal : List (Entry η σ β)} (opened : s.writeWal = some wal)
    (unsigned : s.alreadySigned roundId content activeValidator.idx = false) :
    s.createMessage ctx roundId content =
      (((s.recordEntry (.signedMessage (SignedMessage.signNew ctx roundId s.params.instanceId
          content activeValidator.idx activeValidator.secret))).1.addContent ctx
          (SignedMessage.signNew ctx roundId s.params.instanceId content activeValidator.idx
            activeValidator.secret)).1,
        some (SignedMessage.signNew ctx roundId s.params.instanceId content activeValidator.idx
          activeValidator.secret)) := by
  have recorded := s.walStartsWith_recordEntry opened (.signedMessage (SignedMessage.signNew ctx
    roundId s.params.instanceId content activeValidator.idx activeValidator.secret))
  have added := addContent_added ctx (s.recordEntry (.signedMessage (SignedMessage.signNew ctx
    roundId s.params.instanceId content activeValidator.idx activeValidator.secret))).1
    (SignedMessage.signNew ctx roundId s.params.instanceId content activeValidator.idx
      activeValidator.secret) (by
      rw [alreadySigned_of_rounds (s.rounds_recordEntry _)]
      exact unsigned)
  unfold ZugState.createMessage
  simp only [active, unpaused, unsigned, recorded.1, added, Bool.false_eq_true, if_false, if_true]

/-- With its guard open, `create_and_gossip_message` gossips the new message,
which the WAL then holds after everything it held before. -/
theorem ZugState.createAndGossipMessage_of_open (s : ZugState ν η σ β κ π φ) (roundId : Nat)
    (content : Content η) {activeValidator : ActiveValidator κ}
    (active : s.activeValidator = some activeValidator) (unpaused : s.paused = false)
    {wal : List (Entry η σ β)} (opened : s.writeWal = some wal)
    (unsigned : s.alreadySigned roundId content activeValidator.idx = false) :
    (s.createAndGossipMessage ctx roundId content).2 =
        [.createdGossipMessage (.signed (SignedMessage.signNew ctx roundId s.params.instanceId
          content activeValidator.idx activeValidator.secret))] ∧
      (s.createAndGossipMessage ctx roundId content).1.WalStartsWith
        (wal ++ [.signedMessage (SignedMessage.signNew ctx roundId s.params.instanceId content
          activeValidator.idx activeValidator.secret)]) := by
  have created := s.createMessage_eq_of_open ctx roundId content active unpaused opened unsigned
  have recorded := (s.walStartsWith_recordEntry opened (.signedMessage (SignedMessage.signNew ctx
    roundId s.params.instanceId content activeValidator.idx activeValidator.secret))).2
  unfold ZugState.createAndGossipMessage
  rw [created]
  exact ⟨rfl, (frame_addContent ctx _ _).walGrows _ recorded⟩

theorem ZugState.frame_createMessage (s : ZugState ν η σ β κ π φ) (roundId : Nat)
    (content : Content η) : s.Frame (s.createMessage ctx roundId content).1 := by
  unfold ZugState.createMessage
  split
  · exact .refl s
  · split
    · exact .refl s
    · split
      · exact .refl s
      · dsimp only
        split
        · exact (frame_recordEntry _ _).trans (frame_addContent ctx _ _)
        · exact frame_recordEntry _ _

theorem ZugState.frame_createAndGossipMessage (s : ZugState ν η σ β κ π φ) (roundId : Nat)
    (content : Content η) : s.Frame (s.createAndGossipMessage ctx roundId content).1 :=
  s.frame_createMessage ctx roundId content

end Lemmas

end Zug
