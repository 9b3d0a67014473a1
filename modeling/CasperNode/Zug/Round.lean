import Mathlib
import CasperNode.Lib.AssocList

/-!
The messages of Zug and one round's record of them
(`consensus/protocols/zug/{message,proposal,round}.rs`). Hashes and instance
ids are of a type `η`, signatures of a type `σ`, consensus values of a type
`β`. Validator indexes and round ids are `Nat`; a `ValidatorMap` is a list
indexed by validator, whose indexes the protocol checks before it gets here.
-/
namespace Zug

inductive Content (η : Type) where
  | echo (hash : η)
  | vote (vote : Bool)
  deriving DecidableEq, Repr

section Messages
variable {η σ β : Type} [DecidableEq η]

def Content.contradicts : Content η → Content η → Bool
  | .vote vote0, .vote vote1 => vote0 != vote1
  | .echo hash0, .echo hash1 => decide (hash0 ≠ hash1)
  | _, _ => false

end Messages

structure SignedMessage (η σ : Type) where
  roundId : Nat
  instanceId : η
  content : Content η
  validatorIdx : Nat
  signature : σ
  deriving DecidableEq, Repr

structure Proposal (η β : Type) where
  timestamp : Nat
  maybeBlock : Option β
  maybeParentRoundId : Option Nat
  inactive : Option (List Nat)
  deriving DecidableEq, Repr

/-- A proposal with its memoized hash, the hash of its serialization. -/
structure HashedProposal (η β : Type) where
  hash : η
  proposal : Proposal η β
  deriving DecidableEq, Repr

structure RoundOutcome (η : Type) where
  acceptedProposalHeight : Option Nat
  quorumEchoes : Option η
  quorumVotes : Option Bool
  deriving DecidableEq, Repr

structure Round (η σ β : Type) where
  leaderIdx : Nat
  proposal : Option (HashedProposal η β)
  echoes : List (η × List (Nat × σ))
  falseVotes : List (Option σ)
  trueVotes : List (Option σ)
  outcome : RoundOutcome η
  deriving DecidableEq, Repr

section RoundOperations
variable {η σ β : Type} [DecidableEq η]

def Round.new (validatorCount leaderIdx : Nat) : Round η σ β :=
  { leaderIdx, proposal := none, echoes := [], falseVotes := List.replicate validatorCount none,
    trueVotes := List.replicate validatorCount none, outcome := ⟨none, none, none⟩ }

def Round.votes (round : Round η σ β) (vote : Bool) : List (Option σ) :=
  if vote then round.trueVotes else round.falseVotes

def Round.quorumEchoes (round : Round η σ β) : Option η := round.outcome.quorumEchoes

def Round.quorumVotes (round : Round η σ β) : Option Bool := round.outcome.quorumVotes

def Round.hasProposal (round : Round η σ β) : Bool := round.proposal.isSome

def Round.hasEchoesForProposal (round : Round η σ β) (hash : η) : Bool :=
  match round.quorumEchoes, round.echoes.lookup hash with
  | some quorumHash, _ => decide (quorumHash = hash)
  | none, some echoMap => (echoMap.lookup round.leaderIdx).isSome
  | none, none => false

def Round.insertProposal [DecidableEq β] (round : Round η σ β) (proposal : HashedProposal η β) :
    Round η σ β × Bool :=
  if round.hasEchoesForProposal proposal.hash && round.proposal != some proposal then
    ({ round with proposal := some proposal }, true)
  else (round, false)

/-- `insert_echo`: the map's `insert` replaces an earlier signature of the
same validator for the same hash and reports that it was there. -/
def Round.insertEcho (round : Round η σ β) (hash : η) (validatorIdx : Nat) (signature : σ) :
    Round η σ β × Bool :=
  let echoMap := (round.echoes.lookup hash).getD []
  ({ round with
    echoes := AssocList.insertValue hash (AssocList.insertValue validatorIdx signature echoMap)
      round.echoes },
    (echoMap.lookup validatorIdx).isNone)

def Round.hasEchoed (round : Round η σ β) (validatorIdx : Nat) : Bool :=
  round.echoes.any fun entry => (entry.2.lookup validatorIdx).isSome

def Round.setQuorumEchoes (round : Round η σ β) (hash : η) : Round η σ β :=
  let round := { round with outcome := { round.outcome with quorumEchoes := some hash } }
  if round.proposal.any (fun proposal => proposal.hash ≠ hash) then { round with proposal := none }
  else round

def Round.insertVote (round : Round η σ β) (vote : Bool) (validatorIdx : Nat) (signature : σ) :
    Round η σ β × Bool :=
  match (round.votes vote).getD validatorIdx none with
  | none =>
    if vote then ({ round with trueVotes := round.trueVotes.set validatorIdx (some signature) }, true)
    else ({ round with falseVotes := round.falseVotes.set validatorIdx (some signature) }, true)
  | some _ => (round, false)

def Round.hasVoted (round : Round η σ β) (validatorIdx : Nat) : Bool :=
  ((round.votes true).getD validatorIdx none).isSome ||
    ((round.votes false).getD validatorIdx none).isSome

def Round.setQuorumVotes (round : Round η σ β) (vote : Bool) : Round η σ β :=
  { round with outcome := { round.outcome with quorumVotes := some vote } }

def Round.removeVotesAndEchoes (round : Round η σ β) (validatorIdx : Nat) : Round η σ β :=
  { round with
    falseVotes := round.falseVotes.set validatorIdx none
    trueVotes := round.trueVotes.set validatorIdx none
    echoes := round.echoes.filterMap fun entry =>
      let echoMap := entry.2.filter (·.1 ≠ validatorIdx)
      if echoMap.isEmpty then none else some (entry.1, echoMap) }

def Round.setAcceptedProposalHeight (round : Round η σ β) (height : Nat) : Round η σ β :=
  { round with outcome := { round.outcome with acceptedProposalHeight := some height } }

def Round.acceptedProposal (round : Round η σ β) : Option (Nat × HashedProposal η β) :=
  match round.outcome.acceptedProposalHeight, round.proposal with
  | some height, some proposal => some (height, proposal)
  | _, _ => none

def Round.contains (round : Round η σ β) (content : Content η) (validatorIdx : Nat) : Bool :=
  match content with
  | .echo hash => ((round.echoes.lookup hash).getD [] |>.lookup validatorIdx).isSome
  | .vote vote => ((round.votes vote).getD validatorIdx none).isSome

/-- `prune_skipped`: the round was skipped and will never be finalized. -/
def Round.pruneSkipped (round : Round η σ β) : Round η σ β :=
  { round with
    proposal := none
    outcome := { round.outcome with acceptedProposalHeight := none } }

omit [DecidableEq η] in
theorem Round.new_not_signed (validatorCount leaderIdx validatorIdx : Nat) :
    (Round.new validatorCount leaderIdx : Round η σ β).hasVoted validatorIdx = false ∧
      (Round.new validatorCount leaderIdx : Round η σ β).hasEchoed validatorIdx = false := by
  constructor
  · have unsigned : ∀ vote : Bool,
        ((Round.new validatorCount leaderIdx : Round η σ β).votes vote).getD validatorIdx none = none := by
      intro vote
      cases vote <;> simp [Round.new, Round.votes, List.getD_eq_getElem?_getD]
    unfold Round.hasVoted
    rw [unsigned true, unsigned false]
    rfl
  · simp [Round.new, Round.hasEchoed]

omit [DecidableEq η] in
theorem Round.insertVote_fresh (round : Round η σ β) (vote : Bool) (validatorIdx : Nat)
    (signature : σ) (fresh : round.hasVoted validatorIdx = false) :
    (round.insertVote vote validatorIdx signature).2 = true := by
  have unset : (round.votes vote).getD validatorIdx none = none := by
    simp only [Round.hasVoted, Bool.or_eq_false_iff, Option.isSome_eq_false_iff,
      Option.isNone_iff_eq_none] at fresh
    cases vote
    · exact fresh.2
    · exact fresh.1
  unfold Round.insertVote
  rw [unset]
  cases vote <;> rfl

theorem Round.insertEcho_fresh (round : Round η σ β) (hash : η) (validatorIdx : Nat)
    (signature : σ) (fresh : round.hasEchoed validatorIdx = false) :
    (round.insertEcho hash validatorIdx signature).2 = true := by
  have unsigned : ∀ entry ∈ round.echoes, (entry.2.lookup validatorIdx).isSome = false := by
    intro entry member
    exact Bool.eq_false_iff.mpr (List.any_eq_false.mp fresh entry member)
  unfold Round.insertEcho
  cases found : round.echoes.lookup hash with
  | none => rfl
  | some echoMap =>
    have notSome := unsigned _ (AssocList.mem_of_lookup_eq_some found)
    show (echoMap.lookup validatorIdx).isNone = true
    cases signed : echoMap.lookup validatorIdx with
    | none => rfl
    | some _ => simp [signed] at notSome

end RoundOperations

end Zug
