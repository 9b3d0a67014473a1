import Mathlib
import CasperNode.Lib.AssocList

/-!
The auction's records (`types/src/system/auction`): vesting schedules, delegators, bids,
unbonding purses and seigniorage recipients, with the methods the entry points call on them.
Amounts are `U512` and timestamps `u64`; both are `Nat` here, so `checked_add` never fails and
the `U512` overflow errors are not modelled. Purses (`URef`) are addresses, also `Nat`;
public keys and account hashes are one type `κ`, the hash taken as injective. A `BTreeMap`
is an association list in key order.
-/

namespace Auction

variable {κ : Type}

def DELEGATION_RATE_DENOMINATOR : Nat := 100

def BLOCK_REWARD : Nat := 1000000000000

def DAY_MILLIS : Nat := 24 * 60 * 60 * 1000

def DAYS_IN_WEEK : Nat := 7

def WEEK_MILLIS : Nat := DAYS_IN_WEEK * DAY_MILLIS

def VESTING_SCHEDULE_LENGTH_DAYS : Nat := 91

def LOCKED_AMOUNTS_MAX_LENGTH : Nat := VESTING_SCHEDULE_LENGTH_DAYS / DAYS_IN_WEEK + 1

/-- A vesting schedule. Once initialized its locked amounts end in a zero, which
`is_vesting` relies on (its `expect`); the field `endsInZero` carries that. -/
structure VestingSchedule where
  initialReleaseTimestampMillis : Nat
  lockedAmounts : Option (List Nat)
  endsInZero : ∀ amounts, lockedAmounts = some amounts → 0 ∈ amounts

def VestingSchedule.new (initialReleaseTimestampMillis : Nat) : VestingSchedule :=
  ⟨initialReleaseTimestampMillis, none, fun _ absurd => nomatch absurd⟩

def vestingSchedulePeriodToWeeks (vestingSchedulePeriodMillis : Nat) : Nat :=
  vestingSchedulePeriodMillis / DAY_MILLIS / DAYS_IN_WEEK

/-- The locked amounts of `initialize_with_schedule`: `length` weekly releases of
`staked / (length + 1)`, then zeros up to `LOCKED_AMOUNTS_MAX_LENGTH`. -/
def lockedAmountsOf (stakedAmount length : Nat) : List Nat :=
  (List.range LOCKED_AMOUNTS_MAX_LENGTH).map fun week =>
    if week < length then stakedAmount - (week + 1) * (stakedAmount / (length + 1)) else 0

theorem zero_mem_lockedAmountsOf {length : Nat} (stakedAmount : Nat) (below : length < LOCKED_AMOUNTS_MAX_LENGTH) :
    0 ∈ lockedAmountsOf stakedAmount length :=
  List.mem_map.mpr ⟨length, List.mem_range.mpr below, if_neg (Nat.lt_irrefl _)⟩

/-- `VestingSchedule::initialize_with_schedule`, returning whether it initialized; `none` is
the failed `assert!` on a period of `LOCKED_AMOUNTS_MAX_LENGTH` weeks or more. -/
def VestingSchedule.initializeWithSchedule (schedule : VestingSchedule) (stakedAmount vestingSchedulePeriodMillis : Nat) :
    Option (VestingSchedule × Bool) :=
  if schedule.lockedAmounts.isSome then some (schedule, false)
  else
    let length := vestingSchedulePeriodToWeeks vestingSchedulePeriodMillis
    if below : length < LOCKED_AMOUNTS_MAX_LENGTH then
      if length = 0 ∨ vestingSchedulePeriodMillis = 0 then
        some (⟨schedule.initialReleaseTimestampMillis, some (List.replicate LOCKED_AMOUNTS_MAX_LENGTH 0),
          fun _ same => Option.some.inj same ▸ List.mem_replicate.mpr ⟨by decide, rfl⟩⟩, true)
      else
        some (⟨schedule.initialReleaseTimestampMillis, some (lockedAmountsOf stakedAmount length),
          fun _ same => Option.some.inj same ▸ zero_mem_lockedAmountsOf stakedAmount below⟩, true)
    else none

/-- `VestingSchedule::is_vesting`: before the week of the first zero, or before the configured
period while uninitialized. -/
def VestingSchedule.isVesting (schedule : VestingSchedule) (timestampMillis vestingSchedulePeriodMillis : Nat) : Bool :=
  match schedule.lockedAmounts with
  | some amounts => timestampMillis < schedule.initialReleaseTimestampMillis + amounts.findIdx (· == 0) * WEEK_MILLIS
  | none => timestampMillis < schedule.initialReleaseTimestampMillis + vestingSchedulePeriodMillis

structure Delegator where
  stakedAmount : Nat
  bondingPurse : Nat
  vestingSchedule : Option VestingSchedule

/-- `Delegator::unlocked`. -/
def Delegator.unlocked (stakedAmount bondingPurse : Nat) : Delegator := ⟨stakedAmount, bondingPurse, none⟩

/-- `Delegator::locked`. -/
def Delegator.locked (stakedAmount bondingPurse releaseTimestampMillis : Nat) : Delegator :=
  ⟨stakedAmount, bondingPurse, some (VestingSchedule.new releaseTimestampMillis)⟩

def Delegator.increaseStake (delegator : Delegator) (amount : Nat) : Delegator :=
  { delegator with stakedAmount := delegator.stakedAmount + amount }

/-- One turn of the delegator loop of `process_with_vesting_schedule`. -/
def Delegator.processWithVestingSchedule (delegator : Delegator) (timestampMillis vestingSchedulePeriodMillis : Nat) :
    Option (Delegator × Bool) :=
  match delegator.vestingSchedule with
  | none => some (delegator, false)
  | some schedule =>
    if schedule.initialReleaseTimestampMillis ≤ timestampMillis then
      (schedule.initializeWithSchedule delegator.stakedAmount vestingSchedulePeriodMillis).map
        fun (schedule, initialized) => ({ delegator with vestingSchedule := some schedule }, initialized)
    else some (delegator, false)

structure Bid (κ : Type) where
  bondingPurse : Nat
  stakedAmount : Nat
  delegationRate : Nat
  vestingSchedule : Option VestingSchedule
  delegators : List (κ × Delegator)
  inactive : Bool

def Bid.unlocked (bondingPurse stakedAmount delegationRate : Nat) : Bid κ :=
  ⟨bondingPurse, stakedAmount, delegationRate, none, [], false⟩

def Bid.locked (bondingPurse stakedAmount delegationRate releaseTimestampMillis : Nat) : Bid κ :=
  ⟨bondingPurse, stakedAmount, delegationRate, some (VestingSchedule.new releaseTimestampMillis), [], false⟩

def Bid.increaseStake (bid : Bid κ) (amount : Nat) : Bid κ :=
  { bid with stakedAmount := bid.stakedAmount + amount }

def Bid.activate (bid : Bid κ) : Bid κ := { bid with inactive := false }

def Bid.deactivate (bid : Bid κ) : Bid κ := { bid with inactive := true }

def Bid.totalStakedAmount (bid : Bid κ) : Nat :=
  (bid.delegators.map fun entry => entry.2.stakedAmount).sum + bid.stakedAmount

def Bid.isLockedWithVestingSchedule (bid : Bid κ) (timestampMillis vestingSchedulePeriodMillis : Nat) : Bool :=
  match bid.vestingSchedule with
  | some schedule => schedule.isVesting timestampMillis vestingSchedulePeriodMillis
  | none => false

/-- The delegator loop of `process_with_vesting_schedule`, in key order. -/
def processDelegators (timestampMillis vestingSchedulePeriodMillis : Nat) :
    List (κ × Delegator) → Option (List (κ × Delegator) × Bool)
  | [] => some ([], false)
  | (key, delegator) :: rest => do
    let (delegator, initialized) ← delegator.processWithVestingSchedule timestampMillis vestingSchedulePeriodMillis
    let (rest, restInitialized) ← processDelegators timestampMillis vestingSchedulePeriodMillis rest
    pure ((key, delegator) :: rest, initialized || restInitialized)

/-- `Bid::process_with_vesting_schedule`: from the release timestamp on, initialize the bid's
schedule and then its delegators'. -/
def Bid.processWithVestingSchedule (bid : Bid κ) (timestampMillis vestingSchedulePeriodMillis : Nat) :
    Option (Bid κ × Bool) :=
  match bid.vestingSchedule with
  | none => some (bid, false)
  | some schedule =>
    if timestampMillis < schedule.initialReleaseTimestampMillis then some (bid, false)
    else do
      let (schedule, initialized) ← schedule.initializeWithSchedule bid.stakedAmount vestingSchedulePeriodMillis
      let (delegators, delegatorsInitialized) ←
        processDelegators timestampMillis vestingSchedulePeriodMillis bid.delegators
      pure ({ bid with vestingSchedule := some schedule, delegators := delegators },
        initialized || delegatorsInitialized)

structure UnbondingPurse (κ : Type) where
  bondingPurse : Nat
  validatorPublicKey : κ
  unbonderPublicKey : κ
  eraOfCreation : Nat
  amount : Nat
  newValidator : Option κ

structure SeigniorageRecipient (κ : Type) where
  stake : Nat
  delegationRate : Nat
  delegatorStake : List (κ × Nat)
  deriving DecidableEq

/-- `SeigniorageRecipient::from(&Bid)`. -/
def SeigniorageRecipient.ofBid (bid : Bid κ) : SeigniorageRecipient κ :=
  ⟨bid.stakedAmount, bid.delegationRate, bid.delegators.map fun entry => (entry.1, entry.2.stakedAmount)⟩

def SeigniorageRecipient.delegatorTotalStake (recipient : SeigniorageRecipient κ) : Nat :=
  (recipient.delegatorStake.map Prod.snd).sum

def SeigniorageRecipient.totalStake (recipient : SeigniorageRecipient κ) : Nat :=
  recipient.delegatorTotalStake + recipient.stake

inductive SeigniorageAllocation (κ : Type) where
  | validator (validatorPublicKey : κ) (amount : Nat)
  | delegator (delegatorPublicKey validatorPublicKey : κ) (amount : Nat)

/-- The mint's errors that reach the auction's callers. -/
inductive MintError where
  | sourceNotFound
  | insufficientFunds
  | destNotFound
  deriving DecidableEq, Repr

/-- The auction's `Error`, and a mint error passed through as an `ApiError`. -/
inductive Error where
  | transferToBidPurse
  | validatorNotFound
  | invalidContext
  | invalidCaller
  | invalidPublicKey
  | bondTooSmall
  | mintReward
  | transferToDelegatorPurse
  | transferToUnbondingPurse
  | missingSeigniorageRecipients
  | delegationRateTooLarge
  | arithmeticOverflow
  | mintError
  | exceededDelegatorSizeLimit
  | delegationAmountTooSmall
  | auctionBidsDisabled
  | bidNotFound
  | transfer
  | mint (error : MintError)
  deriving DecidableEq, Repr

end Auction
