import Mathlib
import CasperNode.Auction.Types

/-!
The state the auction entry points read and write: the auction's own records in global state,
the engine configuration they consult, the mint's purses and total supply, and the accounts'
main purses. The mint operations are those the auction calls through its providers
(`core/runtime/auction_internal.rs`, `system/mint.rs`), reduced to balances: access rights,
the approved spending limit of a deploy and transfer records are not modelled.
-/

namespace Auction

open AssocList

variable {κ : Type} [DecidableEq κ]

/-- The caller of an entry point: the system account, or an account's session. -/
inductive Caller (κ : Type) where
  | system
  | session (accountHash : κ)
  deriving DecidableEq, Repr

/-- The runtime context of a call: its caller and the main purse of the account it runs
under (`get_main_purse`). -/
structure Context (κ : Type) where
  caller : Caller κ
  mainPurse : Nat

structure AuctionState (κ : Type) where
  bids : List (κ × Bid κ)
  unbonds : List (κ × List (UnbondingPurse κ))
  seigniorageRecipientsSnapshot : List (Nat × List (κ × SeigniorageRecipient κ))
  eraId : Nat
  eraEndTimestampMillis : Nat
  validatorSlots : Nat
  auctionDelay : Nat
  unbondingDelay : Nat
  eraInfo : List (SeigniorageAllocation κ)
  vestingSchedulePeriodMillis : Nat
  allowAuctionBids : Bool
  balances : List (Nat × Nat)
  totalSupply : Nat
  roundSeigniorageRate : ℚ
  nextPurse : Nat
  accounts : List (κ × Nat)

namespace AuctionState

variable (state : AuctionState κ)

def readBid (key : κ) : Option (Bid κ) := state.bids.lookup key

def writeBid (key : κ) (bid : Bid κ) : AuctionState κ := { state with bids := insertValue key bid state.bids }

/-- `read_unbond`: no entry reads as an empty list. -/
def readUnbond (key : κ) : List (UnbondingPurse κ) := (state.unbonds.lookup key).getD []

def writeUnbond (key : κ) (unbondingPurses : List (UnbondingPurse κ)) : AuctionState κ :=
  { state with unbonds := insertValue key unbondingPurses state.unbonds }

/-- `read_seigniorage_recipients`: the recipients of the current era. -/
def readSeigniorageRecipients : Option (List (κ × SeigniorageRecipient κ)) :=
  state.seigniorageRecipientsSnapshot.lookup state.eraId

/-- The mint's `read_base_round_reward`: the round seigniorage rate of the total supply,
rounded down. -/
def readBaseRoundReward : Nat := ⌊state.roundSeigniorageRate * state.totalSupply⌋₊

/-- `add_balance`: the purse's balance as it is now, plus the amount. -/
def addBalance (purse amount : Nat) : AuctionState κ :=
  { state with balances := setValue purse ((state.balances.lookup purse).getD 0 + amount) state.balances }

/-- `Mint::transfer` on balances: the source is written first, then the target added to. -/
def transfer (source target amount : Nat) : Except MintError (AuctionState κ) :=
  match state.balances.lookup source with
  | none => .error .sourceNotFound
  | some sourceBalance =>
    if sourceBalance < amount then .error .insufficientFunds
    else
      match state.balances.lookup target with
      | none => .error .destNotFound
      | some _ =>
        .ok ({ state with balances := setValue source (sourceBalance - amount) state.balances }.addBalance target amount)

/-- `create_purse`: a fresh purse holding nothing. -/
def createPurse : Nat × AuctionState κ :=
  (state.nextPurse, { state with balances := insertValue state.nextPurse 0 state.balances, nextPurse := state.nextPurse + 1 })

/-- `mint_into_existing_purse`: nothing for a zero amount, otherwise the purse and the total
supply grow; a purse that does not exist is the mint's error. -/
def mintIntoExistingPurse (context : Context κ) (amount purse : Nat) : Except Error (AuctionState κ) :=
  if context.caller ≠ .system then .error .invalidCaller
  else if amount = 0 then .ok state
  else
    match state.balances.lookup purse with
    | none => .error .mintError
    | some _ => .ok { state.addBalance purse amount with totalSupply := state.totalSupply + amount }

/-- `reduce_total_supply`, with the mint's `checked_sub`. -/
def reduceTotalSupply (context : Context κ) (amount : Nat) : Except Error (AuctionState κ) :=
  if context.caller ≠ .system then .error .mintReward
  else if amount = 0 then .ok state
  else if state.totalSupply < amount then .error .mintReward
  else .ok { state with totalSupply := state.totalSupply - amount }

end AuctionState

/-- `is_allowed_session_caller`: the system, or a session of the account itself. -/
def Context.isAllowedSessionCaller (context : Context κ) (accountHash : κ) : Bool :=
  match context.caller with
  | .system => true
  | .session caller => caller = accountHash

section Lemmas

variable (state : AuctionState κ)

@[simp] theorem readBid_writeBid_self (key : κ) (bid : Bid κ) : (state.writeBid key bid).readBid key = some bid :=
  lookup_insertValue_self key bid state.bids

@[simp] theorem seigniorageRecipientsSnapshot_writeBid (key : κ) (bid : Bid κ) :
    (state.writeBid key bid).seigniorageRecipientsSnapshot = state.seigniorageRecipientsSnapshot := rfl

@[simp] theorem eraId_writeBid (key : κ) (bid : Bid κ) : (state.writeBid key bid).eraId = state.eraId := rfl

end Lemmas

end Auction
