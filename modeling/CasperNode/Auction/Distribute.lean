import CasperNode.Auction.EntryPoints

/-!
`Auction::distribute` (`system/auction.rs`) with `reinvest_delegator_rewards` and
`reinvest_validator_reward` (`system/auction/detail.rs`). `Ratio<U512>` is `ℚ`, exact; its
`U512` overflow is not modelled, but its two panics are: `Ratio::new` with a zero denominator,
and a subtraction whose result would be negative. `to_integer` of a ratio that is not
negative is `⌊·⌋₊`.
-/

namespace Auction

open AssocList

variable {κ : Type} [DecidableEq κ]

/-- `Ratio::new`; `none` is its panic on a zero denominator. -/
def ratioNew (numerator denominator : Nat) : Option ℚ :=
  if denominator = 0 then none else some ((numerator : ℚ) / denominator)

/-- A delegator's payout: its key, the amount, and its bonding purse. -/
abbrev Payout (κ : Type) := κ × Nat × Nat

namespace AuctionState

/-- The loop of `reinvest_delegator_rewards` over its lazy iterator: each reward is computed
when the loop reaches it (`none`: its `Ratio::new` panicked), and paid only to a delegator the
bid still has. -/
def reinvestDelegatorRewardsFrom (validatorPublicKey : κ) :
    List (κ × Delegator) × List (Payout κ) × List (SeigniorageAllocation κ) → List (κ × Option ℚ) →
      Option (List (κ × Delegator) × List (Payout κ) × List (SeigniorageAllocation κ))
  | reinvested, [] => some reinvested
  | (delegators, payouts, allocations), (delegatorKey, delegatorReward) :: rest =>
    match delegatorReward with
    | none => none
    | some delegatorReward =>
      match delegators.lookup delegatorKey with
      | none => reinvestDelegatorRewardsFrom validatorPublicKey (delegators, payouts, allocations) rest
      | some delegator =>
        let delegatorRewardTrunc := ⌊delegatorReward⌋₊
        reinvestDelegatorRewardsFrom validatorPublicKey
          (setValue delegatorKey (delegator.increaseStake delegatorRewardTrunc) delegators,
            payouts ++ [(delegatorKey, delegatorRewardTrunc, delegator.bondingPurse)],
            allocations ++ [.delegator delegatorKey validatorPublicKey delegatorRewardTrunc]) rest

/-- `reinvest_delegator_rewards`: the validator's bid is read before any reward is computed. -/
def reinvestDelegatorRewards (state : AuctionState κ) (allocations : List (SeigniorageAllocation κ))
    (validatorPublicKey : κ) (rewards : List (κ × Option ℚ)) :
    Option (Except Error (AuctionState κ × List (Payout κ) × List (SeigniorageAllocation κ))) :=
  match state.readBid validatorPublicKey with
  | none => some (.error .validatorNotFound)
  | some bid =>
    (reinvestDelegatorRewardsFrom validatorPublicKey (bid.delegators, [], allocations) rewards).map
      fun (delegators, payouts, allocations) =>
        .ok (state.writeBid validatorPublicKey { bid with delegators := delegators }, payouts, allocations)

/-- `reinvest_validator_reward`: returns the validator's bonding purse. -/
def reinvestValidatorReward (state : AuctionState κ) (allocations : List (SeigniorageAllocation κ))
    (validatorPublicKey : κ) (amount : Nat) :
    Except Error (AuctionState κ × List (SeigniorageAllocation κ) × Nat) :=
  match state.readBid validatorPublicKey with
  | none => .error .validatorNotFound
  | some bid =>
    .ok (state.writeBid validatorPublicKey (bid.increaseStake amount),
      allocations ++ [.validator validatorPublicKey amount], bid.bondingPurse)

/-- The mints for the delegators' payouts, in order. -/
def mintPayouts (context : Context κ) : AuctionState κ → List (Payout κ) → Except Error (AuctionState κ)
  | state, [] => .ok state
  | state, (_, delegatorPayout, bondingPurse) :: payouts =>
    match state.mintIntoExistingPurse context delegatorPayout bondingPurse with
    | .error error => .error error
    | .ok state => mintPayouts context state payouts

/-- The body of the loop of `distribute` for a validator with a reward factor and a stake. -/
def distributeValidator (context : Context κ) (baseRoundReward : Nat) (publicKey : κ) (rewardFactor : Nat)
    (recipient : SeigniorageRecipient κ) (state : AuctionState κ) (allocations : List (SeigniorageAllocation κ)) :
    Option (Except Error (AuctionState κ × List (SeigniorageAllocation κ))) :=
  let currentStake := recipient.totalStake
  let totalReward : ℚ := (rewardFactor : ℚ) / BLOCK_REWARD * baseRoundReward
  let delegatorTotalStake := recipient.delegatorTotalStake
  let commissionRate : ℚ := (recipient.delegationRate : ℚ) / DELEGATION_RATE_DENOMINATOR
  let delegatorReward := totalReward * ((delegatorTotalStake : ℚ) / currentStake)
  let commission := delegatorReward * commissionRate
  -- the `checked_sub` of `delegators_part`
  if delegatorReward < commission then some (.error .arithmeticOverflow)
  else
    let delegatorsPart := delegatorReward - commission
    let delegatorRewards := recipient.delegatorStake.map fun entry =>
      (entry.1, (ratioNew entry.2 delegatorTotalStake).map (delegatorsPart * ·))
    match state.reinvestDelegatorRewards allocations publicKey delegatorRewards with
    | none => none
    | some (.error error) => some (.error error)
    | some (.ok (state, delegatorPayouts, allocations)) =>
      let totalDelegatorPayout := (delegatorPayouts.map fun payout => payout.2.1).sum
      -- `total_reward - Ratio::from(total_delegator_payout)` panics below zero
      if totalReward < totalDelegatorPayout then none
      else
        let validatorReward := ⌊totalReward - totalDelegatorPayout⌋₊
        match state.reinvestValidatorReward allocations publicKey validatorReward with
        | .error error => some (.error error)
        | .ok (state, allocations, validatorBondingPurse) =>
          match state.mintIntoExistingPurse context validatorReward validatorBondingPurse with
          | .error error => some (.error error)
          | .ok state =>
            match mintPayouts context state delegatorPayouts with
            | .error error => some (.error error)
            | .ok state => some (.ok (state, allocations))

/-- The loop of `distribute` over the reward factors, in key order. -/
def distributeFrom (context : Context κ) (recipients : List (κ × SeigniorageRecipient κ)) (baseRoundReward : Nat) :
    AuctionState κ × List (SeigniorageAllocation κ) → List (κ × Nat) →
      Option (Except Error (AuctionState κ × List (SeigniorageAllocation κ)))
  | distributed, [] => some (.ok distributed)
  | (state, allocations), (publicKey, rewardFactor) :: rewardFactors =>
    if rewardFactor = 0 then
      distributeFrom context recipients baseRoundReward (state, allocations ++ [.validator publicKey 0]) rewardFactors
    else
      match recipients.lookup publicKey with
      | none => some (.error .validatorNotFound)
      | some recipient =>
        if recipient.totalStake = 0 then distributeFrom context recipients baseRoundReward (state, allocations) rewardFactors
        else
          match distributeValidator context baseRoundReward publicKey rewardFactor recipient state allocations with
          | none => none
          | some (.error error) => some (.error error)
          | some (.ok distributed) => distributeFrom context recipients baseRoundReward distributed rewardFactors

/-- `Auction::distribute`: the era's allocations are recorded as its `EraInfo`. -/
def distribute (state : AuctionState κ) (context : Context κ) (rewardFactors : List (κ × Nat)) :
    Option (Except Error (AuctionState κ)) :=
  if context.caller ≠ .system then some (.error .invalidCaller)
  else
    match state.readSeigniorageRecipients with
    | none => some (.error .missingSeigniorageRecipients)
    | some recipients =>
      match distributeFrom context recipients state.readBaseRoundReward (state, []) rewardFactors with
      | none => none
      | some (.error error) => some (.error error)
      | some (.ok (state, allocations)) => some (.ok { state with eraInfo := allocations })

end AuctionState

section UnstakedDelegators

/-! A recipient whose listed delegators all stake nothing: their total is zero, so the
`Ratio::new(delegator_stake, delegator_total_stake)` of the first one panics. -/

variable (context : Context κ) {recipient : SeigniorageRecipient κ}

omit [DecidableEq κ] in
theorem SeigniorageRecipient.delegatorTotalStake_eq_zero (unstaked : ∀ entry ∈ recipient.delegatorStake, entry.2 = 0) :
    recipient.delegatorTotalStake = 0 := by
  rw [SeigniorageRecipient.delegatorTotalStake, List.sum_eq_zero_iff_forall_eq_nat]
  intro stake member
  obtain ⟨entry, listed, rfl⟩ := List.mem_map.mp member
  exact unstaked entry listed

@[simp] theorem ratioNew_zero (numerator : Nat) : ratioNew numerator 0 = none := rfl

@[simp] theorem reinvestDelegatorRewardsFrom_none (validatorPublicKey : κ)
    (reinvested : List (κ × Delegator) × List (Payout κ) × List (SeigniorageAllocation κ))
    (delegatorKey : κ) (rest : List (κ × Option ℚ)) :
    AuctionState.reinvestDelegatorRewardsFrom validatorPublicKey reinvested ((delegatorKey, none) :: rest) = none := by
  obtain ⟨delegators, payouts, allocations⟩ := reinvested
  rfl

theorem reinvestDelegatorRewards_none {state : AuctionState κ} {validatorPublicKey : κ}
    (bonded : (state.readBid validatorPublicKey).isSome) (allocations : List (SeigniorageAllocation κ))
    (delegatorKey : κ) (rest : List (κ × Option ℚ)) :
    state.reinvestDelegatorRewards allocations validatorPublicKey ((delegatorKey, none) :: rest) = none := by
  obtain ⟨bid, found⟩ := Option.isSome_iff_exists.mp bonded
  rw [AuctionState.reinvestDelegatorRewards, found]
  simp

/-- A validator whose listed delegators stake nothing: `distribute` panics on its rewards, at
whatever rate and reward. -/
theorem distributeValidator_of_unstaked (baseRoundReward : Nat) {state : AuctionState κ} {validatorPublicKey : κ}
    (rewardFactor : Nat) (delegated : recipient.delegatorStake ≠ [])
    (unstaked : ∀ entry ∈ recipient.delegatorStake, entry.2 = 0) (bonded : (state.readBid validatorPublicKey).isSome)
    (allocations : List (SeigniorageAllocation κ)) :
    AuctionState.distributeValidator context baseRoundReward validatorPublicKey rewardFactor recipient state allocations =
      none := by
  have nothingDelegated := SeigniorageRecipient.delegatorTotalStake_eq_zero unstaked
  obtain ⟨first, rest, listed⟩ := List.exists_cons_of_ne_nil delegated
  -- the delegators' part is zero, so no commission can exceed it
  have noCommission : ¬ ((rewardFactor : ℚ) / BLOCK_REWARD * baseRoundReward *
      ((recipient.delegatorTotalStake : ℚ) / recipient.totalStake) <
      (rewardFactor : ℚ) / BLOCK_REWARD * baseRoundReward *
        ((recipient.delegatorTotalStake : ℚ) / recipient.totalStake) *
        ((recipient.delegationRate : ℚ) / DELEGATION_RATE_DENOMINATOR)) := by
    simp [nothingDelegated]
  rw [AuctionState.distributeValidator, if_neg noCommission]
  simp only [listed, List.map_cons, nothingDelegated, ratioNew_zero, Option.map_none]
  rw [reinvestDelegatorRewards_none bonded]

end UnstakedDelegators

end Auction
