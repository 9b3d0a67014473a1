import CasperNode.Auction.Distribute

/-!
The auction as a state machine: from the genesis state, the entry points run one after
another. A call that returns an error is reverted and leaves the state as it was; a panic
stops the run. `distribute` panics on a reachable state: once a slashed validator bids again,
the delegators slashing zeroed are still listed in its next recipients, their total stake is
zero, and the first `Ratio::new(delegator_stake, delegator_total_stake)` divides by it.
-/

namespace Auction

variable {κ : Type} [DecidableEq κ]

inductive AuctionCall (κ : Type) where
  | addBid (context : Context κ) (publicKey : κ) (delegationRate amount : Nat)
  | delegate (context : Context κ) (delegatorPublicKey validatorPublicKey : κ) (amount : Nat)
      (maxDelegatorsPerValidator : Option Nat) (minimumDelegationAmount : Nat)
  | slash (context : Context κ) (validatorPublicKeys : List κ)
  | runAuction (context : Context κ) (eraEndTimestampMillis : Nat) (evictedValidators : List κ)
      (maxDelegatorsPerValidator : Option Nat)
  | distribute (context : Context κ) (rewardFactors : List (κ × Nat))

namespace AuctionState

def call (state : AuctionState κ) : AuctionCall κ → Option (Except Error (AuctionState κ))
  | .addBid context publicKey delegationRate amount =>
    some ((state.addBid context publicKey delegationRate amount).map Prod.fst)
  | .delegate context delegatorPublicKey validatorPublicKey amount maxDelegatorsPerValidator minimumDelegationAmount =>
    some ((state.delegate context delegatorPublicKey validatorPublicKey amount maxDelegatorsPerValidator
      minimumDelegationAmount).map Prod.fst)
  | .slash context validatorPublicKeys => some (state.slash context validatorPublicKeys)
  | .runAuction context eraEndTimestampMillis evictedValidators maxDelegatorsPerValidator =>
    state.runAuction context eraEndTimestampMillis evictedValidators maxDelegatorsPerValidator
  | .distribute context rewardFactors => state.distribute context rewardFactors

/-- The calls in order: an error is reverted, a panic stops the run. -/
def run (state : AuctionState κ) : List (AuctionCall κ) → Option (AuctionState κ)
  | [] => some state
  | auctionCall :: calls =>
    match state.call auctionCall with
    | none => none
    | some (.error _) => state.run calls
    | some (.ok state) => state.run calls

end AuctionState

/-- A state some run of the entry points reaches from the genesis of `config`. -/
def Reachable (config : GenesisConfig κ) (state : AuctionState κ) : Prop :=
  ∃ genesisState calls, genesis config = .ok genesisState ∧ genesisState.run calls = some state

/-- `distribute` panics when a validator it rewards has a stake of its own and lists only
delegators that stake nothing, whatever the reward factors after it. -/
theorem distribute_panics_on_unstaked_delegators {state : AuctionState κ}
    {recipients : List (κ × SeigniorageRecipient κ)} {validatorPublicKey : κ} {recipient : SeigniorageRecipient κ}
    (mainPurse : Nat) (current : state.readSeigniorageRecipients = some recipients)
    (listed : recipients.lookup validatorPublicKey = some recipient) (staked : 0 < recipient.stake)
    (delegated : recipient.delegatorStake ≠ []) (unstaked : ∀ entry ∈ recipient.delegatorStake, entry.2 = 0)
    (bonded : (state.readBid validatorPublicKey).isSome) {rewardFactor : Nat} (rewarded : 0 < rewardFactor)
    (rewardFactors : List (κ × Nat)) :
    state.distribute ⟨.system, mainPurse⟩ ((validatorPublicKey, rewardFactor) :: rewardFactors) = none := by
  have stakedInTotal : recipient.totalStake ≠ 0 := by
    rw [SeigniorageRecipient.totalStake]
    omega
  rw [AuctionState.distribute, if_neg (by simp), current]
  simp only [AuctionState.distributeFrom, if_neg (Nat.pos_iff_ne_zero.mp rewarded), listed, if_neg stakedInTotal]
  rw [distributeValidator_of_unstaked _ _ _ delegated unstaked bonded]

/-- The production chainspec's auction settings, one founding validator `0` and its delegator `1`. -/
def productionGenesisConfig : GenesisConfig Nat where
  accounts := [(0, 100), (1, 100)]
  validators := [(0, 10, 0)]
  delegators := [(0, 1, 5)]
  genesisTimestampMillis := 0
  lockedFundsPeriodMillis := 0
  auctionDelay := 1
  validatorSlots := 100
  unbondingDelay := 7
  vestingSchedulePeriodMillis := 0
  allowAuctionBids := true
  roundSeigniorageRate := 7 / 175070816

/-- Validator `0` is slashed, bids again from its main purse, and two auctions run: the second
records the recipients of the era it starts. -/
def slashAndRebid : List (AuctionCall Nat) :=
  [.slash ⟨.system, 0⟩ [0], .addBid ⟨.session 0, 0⟩ 0 0 1,
    .runAuction ⟨.system, 0⟩ 0 [] (some 1200), .runAuction ⟨.system, 0⟩ 0 [] (some 1200)]

def slashedAndRebid : AuctionState Nat :=
  match genesis productionGenesisConfig with
  | .ok state => (state.run slashAndRebid).getD state
  | .error _ => productionGenesisConfig.accountsState

theorem distribute_panics_after_slash_and_rebid :
    Reachable productionGenesisConfig slashedAndRebid ∧
      slashedAndRebid.distribute ⟨.system, 0⟩ [(0, 1)] = none :=
  ⟨⟨_, slashAndRebid, rfl, rfl⟩,
    distribute_panics_on_unstaked_delegators 0
      (show slashedAndRebid.readSeigniorageRecipients = some [(0, ⟨1, 0, [(1, 0)]⟩)] by decide)
      (show [(0, (⟨1, 0, [(1, 0)]⟩ : SeigniorageRecipient Nat))].lookup 0 = some ⟨1, 0, [(1, 0)]⟩ by decide)
      (by decide) (by decide) (by decide) (by decide) (by decide) []⟩

end Auction
