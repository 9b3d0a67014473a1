import CasperNode.Auction.State

/-!
The auction's entry points that bond and slash stake and that run the auction
(`system/auction.rs`, `system/auction/detail.rs`), and the genesis state
(`core/engine_state/genesis.rs`, `create_auction`). A call returns the new state or an error;
`none` is a panic (an `assert!` of `run_auction`, or of a vesting schedule). A failed transfer
of the runtime's own (its caller check on `mint_transfer_direct`) cannot happen in these calls,
whose source is the caller's main purse or whose caller is the system.
-/

namespace Auction

open AssocList

variable {κ : Type} [DecidableEq κ]

namespace AuctionState

/-- `handle_delegation`: top up the delegator's purse, or create the delegator with a fresh
purse; returns the delegator's new stake. -/
def handleDelegation (state : AuctionState κ) (bid : Bid κ) (delegatorPublicKey validatorPublicKey : κ)
    (source amount : Nat) : Except Error (AuctionState κ × Nat) :=
  match bid.delegators.lookup delegatorPublicKey with
  | some delegator =>
    match state.transfer source delegator.bondingPurse amount with
    | .error error => .error (.mint error)
    | .ok state =>
      let delegator := delegator.increaseStake amount
      .ok (state.writeBid validatorPublicKey
        { bid with delegators := setValue delegatorPublicKey delegator bid.delegators }, delegator.stakedAmount)
  | none =>
    let (bondingPurse, state) := state.createPurse
    match state.transfer source bondingPurse amount with
    | .error error => .error (.mint error)
    | .ok state =>
      .ok (state.writeBid validatorPublicKey
        { bid with delegators := insertValue delegatorPublicKey (Delegator.unlocked amount bondingPurse) bid.delegators },
        amount)

/-- `Auction::add_bid`: an inactive bid is reactivated by the new stake. -/
def addBid (state : AuctionState κ) (context : Context κ) (publicKey : κ) (delegationRate amount : Nat) :
    Except Error (AuctionState κ × Nat) :=
  if !state.allowAuctionBids then .error .auctionBidsDisabled
  else if amount = 0 then .error .bondTooSmall
  else if DELEGATION_RATE_DENOMINATOR < delegationRate then .error .delegationRateTooLarge
  else if !context.isAllowedSessionCaller publicKey then .error .invalidContext
  else
    match state.readBid publicKey with
    | some bid =>
      let bid := if bid.inactive then bid.activate else bid
      match state.transfer context.mainPurse bid.bondingPurse amount with
      | .error error => .error (.mint error)
      | .ok state =>
        let bid := { bid with delegationRate := delegationRate }.increaseStake amount
        .ok (state.writeBid publicKey bid, bid.stakedAmount)
    | none =>
      let (bondingPurse, state) := state.createPurse
      match state.transfer context.mainPurse bondingPurse amount with
      | .error error => .error (.mint error)
      | .ok state => .ok (state.writeBid publicKey (Bid.unlocked bondingPurse amount delegationRate), amount)

def delegate (state : AuctionState κ) (context : Context κ) (delegatorPublicKey validatorPublicKey : κ) (amount : Nat)
    (maxDelegatorsPerValidator : Option Nat) (minimumDelegationAmount : Nat) : Except Error (AuctionState κ × Nat) :=
  if !state.allowAuctionBids then .error .auctionBidsDisabled
  else if amount = 0 then .error .bondTooSmall
  else if !context.isAllowedSessionCaller delegatorPublicKey then .error .invalidContext
  else
    match state.readBid validatorPublicKey with
    | none => .error .validatorNotFound
    | some bid =>
      let delegatorAlreadyExists := (bid.delegators.lookup delegatorPublicKey).isSome
      let overCap := match maxDelegatorsPerValidator with
        | some limit => limit ≤ bid.delegators.length && !delegatorAlreadyExists
        | none => false
      if overCap then .error .exceededDelegatorSizeLimit
      else if amount < minimumDelegationAmount then .error .delegationAmountTooSmall
      else state.handleDelegation bid delegatorPublicKey validatorPublicKey context.mainPurse amount

/-- One validator of `Auction::slash`: its stake and its delegators' are burned and the bid
deactivated, keeping the delegators' entries; its pending unbonds are burned too. -/
def slashValidator (slashed : AuctionState κ × Nat) (validatorPublicKey : κ) : AuctionState κ × Nat :=
  let (state, burnedAmount) := slashed
  let (state, burnedAmount) :=
    match state.readBid validatorPublicKey with
    | some bid =>
      (state.writeBid validatorPublicKey
        { bid with
          stakedAmount := 0
          inactive := true
          delegators := bid.delegators.map fun (entry : κ × Delegator) => (entry.1, { entry.2 with stakedAmount := 0 }) },
        burnedAmount + bid.stakedAmount)
    | none => (state, burnedAmount)
  let unbondingPurses := state.readUnbond validatorPublicKey
  if unbondingPurses.isEmpty then (state, burnedAmount)
  else (state.writeUnbond validatorPublicKey [], burnedAmount + (unbondingPurses.map UnbondingPurse.amount).sum)

def slash (state : AuctionState κ) (context : Context κ) (validatorPublicKeys : List κ) : Except Error (AuctionState κ) :=
  if context.caller ≠ .system then .error .invalidCaller
  else
    let (state, burnedAmount) := validatorPublicKeys.foldl slashValidator (state, 0)
    state.reduceTotalSupply context burnedAmount

/-- The runtime's `unbond`: pay the unbonding purse out to the unbonder's main purse. -/
def unbond (state : AuctionState κ) (unbondingPurse : UnbondingPurse κ) : Except Error (AuctionState κ) :=
  match state.accounts.lookup unbondingPurse.unbonderPublicKey with
  | none => .error .invalidPublicKey
  | some mainPurse =>
    match state.transfer unbondingPurse.bondingPurse mainPurse unbondingPurse.amount with
    | .error _ => .error .transfer
    | .ok state => .ok state

def isUnderMaxDelegatorCap (maxDelegatorsPerValidator : Option Nat) (newValidatorDelegatorLen : Nat) : Bool :=
  match maxDelegatorsPerValidator with
  | some limit => newValidatorDelegatorLen < limit
  | none => true

/-- One entry of `process_unbond_requests`: a matured entry is paid out, or delegated to its
new validator when that validator is bonded and has room; `true` keeps an entry not yet due. -/
def processUnbondingPurse (maxDelegatorsPerValidator : Option Nat) (state : AuctionState κ)
    (unbondingPurse : UnbondingPurse κ) : Except Error (AuctionState κ × Bool) :=
  if unbondingPurse.eraOfCreation + state.unbondingDelay ≤ state.eraId then
    let paidOut := match state.unbond unbondingPurse with
      | .error _ => .error .transferToUnbondingPurse
      | .ok state => .ok (state, false)
    match unbondingPurse.newValidator with
    | some newValidator =>
      match state.readBid newValidator with
      | some newValidatorBid =>
        if newValidatorBid.stakedAmount ≠ 0 ∧
            isUnderMaxDelegatorCap maxDelegatorsPerValidator newValidatorBid.delegators.length then
          match state.handleDelegation newValidatorBid unbondingPurse.unbonderPublicKey newValidator
            unbondingPurse.bondingPurse unbondingPurse.amount with
          | .error error => .error error
          | .ok (state, _) => .ok (state, false)
        else paidOut
      | none => paidOut
    | none => paidOut
  else .ok (state, true)

def processUnbondingList (maxDelegatorsPerValidator : Option Nat) :
    AuctionState κ → List (UnbondingPurse κ) → Except Error (AuctionState κ × List (UnbondingPurse κ))
  | state, [] => .ok (state, [])
  | state, unbondingPurse :: rest =>
    match state.processUnbondingPurse maxDelegatorsPerValidator unbondingPurse with
    | .error error => .error error
    | .ok (state, keep) =>
      match processUnbondingList maxDelegatorsPerValidator state rest with
      | .error error => .error error
      | .ok (state, kept) => .ok (state, if keep then unbondingPurse :: kept else kept)

def processUnbondingLists (maxDelegatorsPerValidator : Option Nat) :
    AuctionState κ → List (κ × List (UnbondingPurse κ)) →
      Except Error (AuctionState κ × List (κ × List (UnbondingPurse κ)))
  | state, [] => .ok (state, [])
  | state, (key, unbondingList) :: rest =>
    match processUnbondingList maxDelegatorsPerValidator state unbondingList with
    | .error error => .error error
    | .ok (state, kept) =>
      match processUnbondingLists maxDelegatorsPerValidator state rest with
      | .error error => .error error
      | .ok (state, lists) => .ok (state, (key, kept) :: lists)

/-- `process_unbond_requests`: the lists are read once, processed, and written back. -/
def processUnbondRequests (state : AuctionState κ) (context : Context κ) (maxDelegatorsPerValidator : Option Nat) :
    Except Error (AuctionState κ) :=
  if context.caller ≠ .system then .error .invalidCaller
  else
    match processUnbondingLists maxDelegatorsPerValidator state state.unbonds with
    | .error error => .error error
    | .ok (state, lists) => .ok (lists.foldl (fun state entry => state.writeUnbond entry.1 entry.2) state)

end AuctionState

/-- The bid loop of `run_auction`: vesting schedules processed, evicted validators deactivated;
`true` when a bid changed. -/
def processBids (eraEndTimestampMillis vestingSchedulePeriodMillis : Nat) (evictedValidators : List κ) :
    List (κ × Bid κ) → Option (List (κ × Bid κ) × Bool)
  | [] => some ([], false)
  | (key, bid) :: rest => do
    let (bid, processed) ← bid.processWithVestingSchedule eraEndTimestampMillis vestingSchedulePeriodMillis
    let (bid, evicted) := if key ∈ evictedValidators then (bid.deactivate, true) else (bid, false)
    let (rest, restModified) ← processBids eraEndTimestampMillis vestingSchedulePeriodMillis evictedValidators rest
    pure ((key, bid) :: rest, processed || evicted || restModified)

/-- The next auction's winners: every active locked validator, then the active unlocked ones by
total stake, largest first (a stable sort), as many as the slots left allow. -/
def winners (eraEndTimestampMillis vestingSchedulePeriodMillis validatorSlots : Nat) (bids : List (κ × Bid κ)) :
    List (κ × Nat) :=
  let weigh := fun (entry : κ × Bid κ) => (entry.1, entry.2.totalStakedAmount)
  let lockedValidators := (bids.filter fun entry =>
    entry.2.isLockedWithVestingSchedule eraEndTimestampMillis vestingSchedulePeriodMillis && !entry.2.inactive).map weigh
  let unlockedValidators := (bids.filter fun entry =>
    !entry.2.isLockedWithVestingSchedule eraEndTimestampMillis vestingSchedulePeriodMillis && !entry.2.inactive).map weigh
  let unlockedValidators := unlockedValidators.insertionSort fun lhs rhs => rhs.2 ≤ lhs.2
  lockedValidators ++ unlockedValidators.take (validatorSlots - lockedValidators.length)

def recipientsOf (bids : List (κ × Bid κ)) (winners : List (κ × Nat)) :
    Except Error (List (κ × SeigniorageRecipient κ)) :=
  winners.mapM fun entry =>
    match bids.lookup entry.1 with
    | some bid => .ok (entry.1, SeigniorageRecipient.ofBid bid)
    | none => .error .bidNotFound

/-- `snapshot.into_iter().rev().take(snapshot_size)`: the latest eras. -/
def latestEras (snapshotSize : Nat) (snapshot : List (Nat × List (κ × SeigniorageRecipient κ))) :
    List (Nat × List (κ × SeigniorageRecipient κ)) :=
  (snapshot.insertionSort fun lhs rhs => rhs.1 ≤ lhs.1).take snapshotSize

namespace AuctionState

/-- `Auction::run_auction`: process the unbonding queue and the bids, then record the winners'
recipients for the era `auction_delay` after the next. -/
def runAuction (state : AuctionState κ) (context : Context κ) (eraEndTimestampMillis : Nat) (evictedValidators : List κ)
    (maxDelegatorsPerValidator : Option Nat) : Option (Except Error (AuctionState κ)) :=
  if context.caller ≠ .system then some (.error .invalidCaller)
  else
    match state.processUnbondRequests context maxDelegatorsPerValidator with
    | .error error => some (.error error)
    | .ok state =>
      match processBids eraEndTimestampMillis state.vestingSchedulePeriodMillis evictedValidators state.bids with
      | none => none
      | some (bids, bidsModified) =>
        let eraId := state.eraId + 1
        let delayedEra := eraId + state.auctionDelay
        match recipientsOf bids (winners eraEndTimestampMillis state.vestingSchedulePeriodMillis state.validatorSlots bids) with
        | .error error => some (.error error)
        | .ok recipients =>
          -- assert!(previous_recipients.is_none())
          if (state.seigniorageRecipientsSnapshot.lookup delayedEra).isSome then none
          else
            some (.ok
              { state with
                seigniorageRecipientsSnapshot := latestEras (state.auctionDelay + 1)
                  (insertValue delayedEra recipients state.seigniorageRecipientsSnapshot)
                eraId := eraId
                eraEndTimestampMillis := eraEndTimestampMillis
                bids := if bidsModified then bids else state.bids })

end AuctionState

/-- The chainspec values and accounts `create_auction` reads. -/
structure GenesisConfig (κ : Type) where
  accounts : List (κ × Nat)
  validators : List (κ × Nat × Nat)
  delegators : List (κ × κ × Nat)
  genesisTimestampMillis : Nat
  lockedFundsPeriodMillis : Nat
  auctionDelay : Nat
  validatorSlots : Nat
  unbondingDelay : Nat
  vestingSchedulePeriodMillis : Nat
  allowAuctionBids : Bool
  roundSeigniorageRate : ℚ

inductive GenesisError where
  | invalidValidatorSlots
  | invalidDelegatedAmount
  | orphanedDelegator
  | invalidBondAmount
  | invalidDelegationRate
  | duplicatedDelegatorEntry
  deriving DecidableEq, Repr

namespace AuctionState

def mintPurse (state : AuctionState κ) (amount : Nat) : Nat × AuctionState κ :=
  (state.nextPurse, { state with balances := insertValue state.nextPurse amount state.balances, nextPurse := state.nextPurse + 1 })

/-- The delegators of one genesis validator, each with a purse holding its delegation. -/
def genesisDelegators (releaseTimestampMillis : Nat) (validatorPublicKey : κ) :
    AuctionState κ × Bid κ → List (κ × κ × Nat) → Except GenesisError (AuctionState κ × Bid κ)
  | founding, [] => .ok founding
  | (state, bid), (delegatorValidator, delegatorPublicKey, delegatedAmount) :: rest =>
    if delegatorValidator = validatorPublicKey then
      let (bondingPurse, state) := state.mintPurse delegatedAmount
      if (bid.delegators.lookup delegatorPublicKey).isSome then .error .duplicatedDelegatorEntry
      else
        let delegator := Delegator.locked delegatedAmount bondingPurse releaseTimestampMillis
        genesisDelegators releaseTimestampMillis validatorPublicKey
          (state, { bid with delegators := insertValue delegatorPublicKey delegator bid.delegators }) rest
    else genesisDelegators releaseTimestampMillis validatorPublicKey (state, bid) rest

def genesisValidators (config : GenesisConfig κ) :
    AuctionState κ × Nat → List (κ × Nat × Nat) → Except GenesisError (AuctionState κ × Nat)
  | founded, [] => .ok founded
  | (state, totalStakedAmount), (publicKey, stakedAmount, delegationRate) :: rest =>
    if stakedAmount = 0 then .error .invalidBondAmount
    else if DELEGATION_RATE_DENOMINATOR < delegationRate then .error .invalidDelegationRate
    else
      let (bondingPurse, state) := state.mintPurse stakedAmount
      let releaseTimestampMillis := config.genesisTimestampMillis + config.lockedFundsPeriodMillis
      match genesisDelegators releaseTimestampMillis publicKey
          (state, Bid.locked bondingPurse stakedAmount delegationRate releaseTimestampMillis) config.delegators with
      | .error error => .error error
      | .ok (state, bid) =>
        genesisValidators config (state.writeBid publicKey bid, totalStakedAmount + stakedAmount) rest

end AuctionState

/-- The state before genesis: the accounts with their main purses, and the configuration. -/
def GenesisConfig.accountsState (config : GenesisConfig κ) : AuctionState κ :=
  let purses := config.accounts.zipIdx
  { bids := [], unbonds := [], seigniorageRecipientsSnapshot := [], eraId := 0, eraEndTimestampMillis := 0,
    validatorSlots := config.validatorSlots, auctionDelay := config.auctionDelay,
    unbondingDelay := config.unbondingDelay, eraInfo := [],
    vestingSchedulePeriodMillis := config.vestingSchedulePeriodMillis, allowAuctionBids := config.allowAuctionBids,
    balances := purses.map fun entry => (entry.2, entry.1.2),
    totalSupply := (config.accounts.map Prod.snd).sum, roundSeigniorageRate := config.roundSeigniorageRate,
    nextPurse := config.accounts.length,
    accounts := purses.map fun entry => (entry.1.1, entry.2) }

/-- `create_auction`: the founding bids, locked until the end of the locked funds period, and
the same recipients for eras `0..=auction_delay`. -/
def genesis (config : GenesisConfig κ) : Except GenesisError (AuctionState κ) :=
  if config.validatorSlots < config.validators.length then .error .invalidValidatorSlots
  else
    -- each delegator in turn: a zero delegation, then a validator that is not bonded
    let delegatorError := config.delegators.findSome? fun entry =>
      if entry.2.2 = 0 then some GenesisError.invalidDelegatedAmount
      else if config.validators.all fun validator => validator.1 ≠ entry.1 then some .orphanedDelegator
      else none
    match delegatorError with
    | some error => .error error
    | none =>
      match AuctionState.genesisValidators config (config.accountsState, 0) config.validators with
      | .error error => .error error
      | .ok (state, totalStakedAmount) =>
        let recipients := state.bids.map fun entry => (entry.1, SeigniorageRecipient.ofBid entry.2)
        .ok { state with
          totalSupply := state.totalSupply + totalStakedAmount
          seigniorageRecipientsSnapshot := (List.range (config.auctionDelay + 1)).map fun eraId => (eraId, recipients) }

end Auction
