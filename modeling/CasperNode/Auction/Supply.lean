import Mathlib
import CasperNode.Auction.System
import CasperNode.Lib.ExceptBind

/-!
The mint's books under the auction (`system/auction.rs`, `system/mint.rs`,
`core/engine_state/genesis.rs`): the motes held in all purses against the total supply. A
transfer moves motes between purses that exist, `create_purse` appends an empty purse under a
fresh id, and `mint_into_existing_purse` adds to a purse what it adds to the total supply. So
every entry point but `slash` keeps the two apart by the same amount (`Tracks`), and `slash`
only lowers the total supply by what it burns, leaving the slashed purses as they were
(`Keeps`). Genesis counts the accounts' balances and the validators' stakes in the total supply,
but not the delegations, whose purses it fills all the same.
-/

namespace Auction

open AssocList

variable {κ : Type}

/-- Whether a call is `slash`, the one entry point that burns. -/
def AuctionCall.isSlash : AuctionCall κ → Bool
  | .slash .. => true
  | _ => false

/-- The delegations to one validator in a list of genesis delegators. -/
def delegationsTo [DecidableEq κ] (delegators : List (κ × κ × Nat)) (validatorPublicKey : κ) : Nat :=
  ((delegators.filter fun delegator => delegator.1 = validatorPublicKey).map fun delegator => delegator.2.2).sum

/-- The delegations genesis makes to the founding validators, each validator's in turn. -/
def GenesisConfig.delegatedAmount [DecidableEq κ] (config : GenesisConfig κ) : Nat :=
  (config.validators.map fun validator => delegationsTo config.delegators validator.1).sum

namespace AuctionState

/-- The motes held in all purses. -/
def heldBalance (state : AuctionState κ) : Nat := (state.balances.map Prod.snd).sum

/-- The purses have distinct ids, all below the next id `create_purse` hands out. -/
structure Fresh (state : AuctionState κ) : Prop where
  distinct : (state.balances.map Prod.fst).Nodup
  below : ∀ purse ∈ state.balances.map Prod.fst, purse < state.nextPurse

/-- A step that adds to the total supply what it adds to the purses, and creates purses under
fresh ids only. -/
structure Tracks (state state' : AuctionState κ) : Prop where
  fresh : state'.Fresh
  held : state'.heldBalance + state.totalSupply = state.heldBalance + state'.totalSupply

/-- A step after which the purses hold at least as much beyond the total supply as before. -/
structure Keeps (state state' : AuctionState κ) : Prop where
  fresh : state'.Fresh
  backed : state'.totalSupply + state.heldBalance ≤ state.totalSupply + state'.heldBalance

/-- What the auction's own records leave alone: the purses, the next purse id and the total
supply. -/
structure SameBooks (state state' : AuctionState κ) : Prop where
  balances : state'.balances = state.balances
  nextPurse : state'.nextPurse = state.nextPurse
  totalSupply : state'.totalSupply = state.totalSupply

/-- Genesis filling purses with `amount` motes that the total supply does not count. -/
structure Fills (amount : Nat) (state state' : AuctionState κ) : Prop where
  fresh : state'.Fresh
  held : state'.heldBalance = state.heldBalance + amount
  totalSupply : state'.totalSupply = state.totalSupply

section Books

variable {s₁ s₂ s₃ : AuctionState κ}

theorem Fresh.of_keys (fresh : s₁.Fresh) (keys : s₂.balances.map Prod.fst = s₁.balances.map Prod.fst)
    (nextPurse : s₁.nextPurse ≤ s₂.nextPurse) : s₂.Fresh :=
  ⟨keys ▸ fresh.distinct, fun purse member => lt_of_lt_of_le (fresh.below purse (keys ▸ member)) nextPurse⟩

theorem heldBalance_of_balances (same : s₂.balances = s₁.balances) : s₂.heldBalance = s₁.heldBalance := by
  rw [heldBalance, heldBalance, same]

theorem SameBooks.refl (state : AuctionState κ) : SameBooks state state := ⟨rfl, rfl, rfl⟩

theorem SameBooks.trans (first : SameBooks s₁ s₂) (second : SameBooks s₂ s₃) : SameBooks s₁ s₃ :=
  ⟨second.balances.trans first.balances, second.nextPurse.trans first.nextPurse,
    second.totalSupply.trans first.totalSupply⟩

theorem Tracks.refl (fresh : s₁.Fresh) : Tracks s₁ s₁ := ⟨fresh, rfl⟩

theorem Tracks.trans (first : Tracks s₁ s₂) (second : Tracks s₂ s₃) : Tracks s₁ s₃ := by
  have firstHeld := first.held
  have secondHeld := second.held
  exact ⟨second.fresh, by omega⟩

theorem Tracks.books (tracked : Tracks s₁ s₂) (same : SameBooks s₂ s₃) : Tracks s₁ s₃ := by
  have held := tracked.held
  rw [← heldBalance_of_balances same.balances, ← same.totalSupply] at held
  exact ⟨tracked.fresh.of_keys (by rw [same.balances]) same.nextPurse.ge, held⟩

theorem SameBooks.tracks (fresh : s₁.Fresh) (same : SameBooks s₁ s₂) : Tracks s₁ s₂ :=
  (Tracks.refl fresh).books same

theorem Tracks.keeps (tracked : Tracks s₁ s₂) : Keeps s₁ s₂ := by
  have held := tracked.held
  exact ⟨tracked.fresh, by omega⟩

theorem Keeps.trans (first : Keeps s₁ s₂) (second : Keeps s₂ s₃) : Keeps s₁ s₃ := by
  have firstBacked := first.backed
  have secondBacked := second.backed
  exact ⟨second.fresh, by omega⟩

theorem Fills.refl (fresh : s₁.Fresh) : Fills 0 s₁ s₁ := ⟨fresh, rfl, rfl⟩

theorem Fills.trans {first second : Nat} (filled : Fills first s₁ s₂) (then_ : Fills second s₂ s₃) :
    Fills (first + second) s₁ s₃ :=
  ⟨then_.fresh, by rw [then_.held, filled.held, Nat.add_assoc], then_.totalSupply.trans filled.totalSupply⟩

theorem Fills.books {amount : Nat} (filled : Fills amount s₁ s₂) (same : SameBooks s₂ s₃) : Fills amount s₁ s₃ :=
  ⟨filled.fresh.of_keys (by rw [same.balances]) same.nextPurse.ge,
    (heldBalance_of_balances same.balances).trans filled.held, same.totalSupply.trans filled.totalSupply⟩

theorem Fills.tracks (filled : Fills 0 s₁ s₂) : Tracks s₁ s₂ :=
  ⟨filled.fresh, by rw [filled.held, filled.totalSupply]; rfl⟩

end Books

section Mint

variable (state : AuctionState κ)

theorem heldBalance_addBalance (purse amount : Nat) (found : (state.balances.lookup purse).isSome) :
    (state.addBalance purse amount).heldBalance = state.heldBalance + amount := by
  obtain ⟨balance, found⟩ := Option.isSome_iff_exists.mp found
  have credited := sum_setValue (balance + amount) found
  simp only [heldBalance, addBalance, found, Option.getD_some]
  omega

theorem keys_addBalance (purse amount : Nat) :
    (state.addBalance purse amount).balances.map Prod.fst = state.balances.map Prod.fst :=
  keys_setValue _ _ _

theorem transfer_eq_ok {source target amount : Nat} {state' : AuctionState κ}
    (moved : state.transfer source target amount = .ok state') :
    ∃ sourceBalance, state.balances.lookup source = some sourceBalance ∧ amount ≤ sourceBalance ∧
      (state.balances.lookup target).isSome ∧
      state' = { state with balances := setValue source (sourceBalance - amount) state.balances }.addBalance
        target amount := by
  unfold transfer at moved
  split at moved
  · cases moved
  · next sourceBalance foundSource =>
    split at moved
    · cases moved
    · next enough =>
      split at moved
      · cases moved
      · next targetBalance foundTarget =>
        cases moved
        exact ⟨sourceBalance, foundSource, Nat.le_of_not_lt enough, by simp [foundTarget], rfl⟩

theorem transfer_tracks {source target amount : Nat} {state' : AuctionState κ} (fresh : state.Fresh)
    (moved : state.transfer source target amount = .ok state') : Tracks state state' := by
  obtain ⟨sourceBalance, foundSource, enough, foundTarget, rfl⟩ := state.transfer_eq_ok moved
  set debited : AuctionState κ := { state with balances := setValue source (sourceBalance - amount) state.balances }
  have debitedKeys : debited.balances.map Prod.fst = state.balances.map Prod.fst := keys_setValue _ _ _
  have debitedHeld : debited.heldBalance + sourceBalance = state.heldBalance + (sourceBalance - amount) :=
    sum_setValue _ foundSource
  -- the target is still there after the debit, whether or not it is the source
  have stillThere : (debited.balances.lookup target).isSome := by
    by_cases same : target = source
    · subst same
      simp [debited, lookup_setValue_self, foundSource]
    · simpa [debited, lookup_setValue_ne _ _ same] using foundTarget
  have credited := debited.heldBalance_addBalance target amount stillThere
  refine ⟨fresh.of_keys ((debited.keys_addBalance target amount).trans debitedKeys) le_rfl, ?_⟩
  change (debited.addBalance target amount).heldBalance + state.totalSupply = state.heldBalance + state.totalSupply
  omega

/-- A purse appended under the next id, which no purse has yet: `create_purse`, and the
`create_purse(amount)` of genesis. -/
theorem fills_appendPurse (fresh : state.Fresh) (amount : Nat) :
    Fills amount state
      { state with balances := insertValue state.nextPurse amount state.balances, nextPurse := state.nextPurse + 1 } := by
  have absent : state.nextPurse ∉ state.balances.map Prod.fst := fun member => lt_irrefl _ (fresh.below _ member)
  have appended := insertValue_of_not_mem amount absent
  have keys : (insertValue state.nextPurse amount state.balances).map Prod.fst =
      (state.balances.map Prod.fst).concat state.nextPurse := by
    simp [appended]
  refine ⟨⟨?_, ?_⟩, by simp [heldBalance, appended], rfl⟩
  · rw [keys, List.nodup_concat]
    exact ⟨absent, fresh.distinct⟩
  · intro purse member
    rw [keys, List.concat_eq_append, List.mem_append, List.mem_singleton] at member
    rcases member with old | rfl
    · exact Nat.lt_succ_of_lt (fresh.below purse old)
    · exact Nat.lt_succ_self _

theorem createPurse_tracks (fresh : state.Fresh) : Tracks state state.createPurse.2 :=
  (state.fills_appendPurse fresh 0).tracks

theorem mintPurse_fills (fresh : state.Fresh) (amount : Nat) : Fills amount state (state.mintPurse amount).2 :=
  state.fills_appendPurse fresh amount

end Mint

section Calls

variable [DecidableEq κ] (state : AuctionState κ)

theorem mintIntoExistingPurse_tracks {context : Context κ} {amount purse : Nat} {state' : AuctionState κ}
    (fresh : state.Fresh) (minted : state.mintIntoExistingPurse context amount purse = .ok state') :
    Tracks state state' := by
  unfold mintIntoExistingPurse at minted
  split at minted
  · cases minted
  · split at minted
    · cases minted
      exact .refl fresh
    · split at minted
      · cases minted
      · next balance found =>
        cases minted
        have credited := state.heldBalance_addBalance purse amount (by simp [found])
        refine ⟨fresh.of_keys (state.keys_addBalance purse amount) le_rfl, ?_⟩
        change (state.addBalance purse amount).heldBalance + state.totalSupply =
          state.heldBalance + (state.totalSupply + amount)
        omega

theorem reduceTotalSupply_keeps {context : Context κ} {amount : Nat} {state' : AuctionState κ}
    (fresh : state.Fresh) (reduced : state.reduceTotalSupply context amount = .ok state') : Keeps state state' := by
  unfold reduceTotalSupply at reduced
  split at reduced
  · cases reduced
  · split at reduced
    · cases reduced
      exact (Tracks.refl fresh).keeps
    · split at reduced
      · cases reduced
      · cases reduced
        refine ⟨fresh.of_keys rfl le_rfl, ?_⟩
        change state.totalSupply - amount + state.heldBalance ≤ state.totalSupply + state.heldBalance
        omega

theorem writeBid_books (key : κ) (bid : Bid κ) : SameBooks state (state.writeBid key bid) :=
  ⟨rfl, rfl, rfl⟩

theorem writeUnbond_books (key : κ) (unbondingPurses : List (UnbondingPurse κ)) :
    SameBooks state (state.writeUnbond key unbondingPurses) :=
  ⟨rfl, rfl, rfl⟩

omit [DecidableEq κ] in
theorem transfer_createPurse_tracks {source amount : Nat} {state' : AuctionState κ} (fresh : state.Fresh)
    (moved : state.createPurse.2.transfer source state.createPurse.1 amount = .ok state') : Tracks state state' :=
  have created := state.createPurse_tracks fresh
  created.trans (state.createPurse.2.transfer_tracks created.fresh moved)

theorem handleDelegation_tracks {bid : Bid κ} {delegatorPublicKey validatorPublicKey : κ} {source amount : Nat}
    {delegated : AuctionState κ × Nat} (fresh : state.Fresh)
    (handled : state.handleDelegation bid delegatorPublicKey validatorPublicKey source amount = .ok delegated) :
    Tracks state delegated.1 := by
  unfold handleDelegation at handled
  dsimp only [createPurse] at handled
  -- an existing delegator's purse is topped up, a new one's is created first
  repeat' split at handled
  all_goals cases handled
  · exact (state.transfer_tracks fresh ‹_›).books (writeBid_books _ _ _)
  · exact (state.transfer_createPurse_tracks fresh ‹_›).books (writeBid_books _ _ _)

theorem addBid_tracks {context : Context κ} {publicKey : κ} {delegationRate amount : Nat}
    {added : AuctionState κ × Nat} (fresh : state.Fresh)
    (bid : state.addBid context publicKey delegationRate amount = .ok added) : Tracks state added.1 := by
  unfold addBid at bid
  dsimp only [createPurse] at bid
  -- the checks fail with errors; an existing bid, active or not, is topped up, a new one bonded
  repeat' split at bid
  all_goals cases bid
  · exact (state.transfer_tracks fresh ‹_›).books (writeBid_books _ _ _)
  · exact (state.transfer_tracks fresh ‹_›).books (writeBid_books _ _ _)
  · exact (state.transfer_createPurse_tracks fresh ‹_›).books (writeBid_books _ _ _)

theorem delegate_tracks {context : Context κ} {delegatorPublicKey validatorPublicKey : κ} {amount : Nat}
    {maxDelegatorsPerValidator : Option Nat} {minimumDelegationAmount : Nat} {delegated : AuctionState κ × Nat}
    (fresh : state.Fresh)
    (delegation : state.delegate context delegatorPublicKey validatorPublicKey amount maxDelegatorsPerValidator
      minimumDelegationAmount = .ok delegated) : Tracks state delegated.1 := by
  unfold delegate at delegation
  dsimp only at delegation
  -- every branch but the delegation itself is an error
  repeat' split at delegation
  all_goals first
    | exact state.handleDelegation_tracks fresh delegation
    | cases delegation

theorem slashValidator_books (slashed : AuctionState κ × Nat) (validatorPublicKey : κ) :
    SameBooks slashed.1 (slashValidator slashed validatorPublicKey).1 := by
  obtain ⟨state, burnedAmount⟩ := slashed
  unfold slashValidator
  dsimp only
  -- the bid is zeroed if there is one, then the unbonds are dropped if there are any
  split
  · dsimp only
    split
    · exact state.writeBid_books _ _
    · exact (state.writeBid_books _ _).trans (writeUnbond_books _ _ _)
  · dsimp only
    split
    · exact .refl state
    · exact state.writeUnbond_books _ _

theorem foldl_slashValidator_books (validatorPublicKeys : List κ) :
    ∀ slashed : AuctionState κ × Nat, SameBooks slashed.1 (validatorPublicKeys.foldl slashValidator slashed).1 := by
  induction validatorPublicKeys with
  | nil => intro slashed; exact .refl _
  | cons validatorPublicKey rest ih =>
    intro slashed
    exact (slashValidator_books slashed validatorPublicKey).trans (ih _)

theorem slash_keeps {context : Context κ} {validatorPublicKeys : List κ} {state' : AuctionState κ}
    (fresh : state.Fresh) (slashed : state.slash context validatorPublicKeys = .ok state') : Keeps state state' := by
  unfold slash at slashed
  split at slashed
  · cases slashed
  have same := foldl_slashValidator_books validatorPublicKeys (state, 0)
  generalize validatorPublicKeys.foldl slashValidator (state, 0) = folded at same slashed
  obtain ⟨slashedState, burnedAmount⟩ := folded
  have unchanged := same.tracks fresh
  exact unchanged.keeps.trans (slashedState.reduceTotalSupply_keeps unchanged.fresh slashed)

theorem unbond_tracks {unbondingPurse : UnbondingPurse κ} {state' : AuctionState κ} (fresh : state.Fresh)
    (paid : state.unbond unbondingPurse = .ok state') : Tracks state state' := by
  unfold unbond at paid
  split at paid
  · cases paid
  · split at paid
    · cases paid
    · next moved =>
      cases paid
      exact state.transfer_tracks fresh moved

theorem processUnbondingPurse_tracks {maxDelegatorsPerValidator : Option Nat} {unbondingPurse : UnbondingPurse κ}
    {processed : AuctionState κ × Bool} (fresh : state.Fresh)
    (step : state.processUnbondingPurse maxDelegatorsPerValidator unbondingPurse = .ok processed) :
    Tracks state processed.1 := by
  unfold processUnbondingPurse at step
  dsimp only at step
  repeat' split at step
  all_goals cases step
  all_goals first
    | exact .refl fresh
    | exact state.unbond_tracks fresh ‹_›
    | exact state.handleDelegation_tracks fresh ‹_›

omit [DecidableEq κ] in
theorem foldl_writeUnbond_books [DecidableEq κ] :
    ∀ (lists : List (κ × List (UnbondingPurse κ))) (state : AuctionState κ),
      SameBooks state (lists.foldl (fun state entry => state.writeUnbond entry.1 entry.2) state) := by
  intro lists
  induction lists with
  | nil => intro state; exact .refl state
  | cons entry rest ih =>
    intro state
    exact (state.writeUnbond_books entry.1 entry.2).trans (ih _)

end Calls

section Unbonding

variable [DecidableEq κ] (maxDelegatorsPerValidator : Option Nat)

/-- The inner loop of `process_unbond_requests`, by induction on the entries of one list. -/
theorem processUnbondingList_tracks :
    ∀ (unbondingPurses : List (UnbondingPurse κ)) (state : AuctionState κ) (processed), state.Fresh →
      processUnbondingList maxDelegatorsPerValidator state unbondingPurses = .ok processed →
        Tracks state processed.1 := by
  intro unbondingPurses
  induction unbondingPurses with
  | nil =>
    intro state processed fresh done
    cases done
    exact .refl fresh
  | cons unbondingPurse rest ih =>
    intro state processed fresh done
    unfold processUnbondingList at done
    split at done
    · cases done
    · next first =>
      split at done
      · cases done
      · next later =>
        cases done
        have tracked := state.processUnbondingPurse_tracks fresh first
        have rest := ih _ _ tracked.fresh later
        exact tracked.trans rest

/-- The outer loop, by induction on the lists. -/
theorem processUnbondingLists_tracks :
    ∀ (lists : List (κ × List (UnbondingPurse κ))) (state : AuctionState κ) (processed), state.Fresh →
      processUnbondingLists maxDelegatorsPerValidator state lists = .ok processed → Tracks state processed.1 := by
  intro lists
  induction lists with
  | nil =>
    intro state processed fresh done
    cases done
    exact .refl fresh
  | cons entry rest ih =>
    intro state processed fresh done
    obtain ⟨key, unbondingList⟩ := entry
    unfold processUnbondingLists at done
    split at done
    · cases done
    · next first =>
      split at done
      · cases done
      · next later =>
        cases done
        have tracked := processUnbondingList_tracks maxDelegatorsPerValidator _ state _ fresh first
        have rest := ih _ _ tracked.fresh later
        exact tracked.trans rest

theorem processUnbondRequests_tracks {state state' : AuctionState κ} {context : Context κ} (fresh : state.Fresh)
    (processed : state.processUnbondRequests context maxDelegatorsPerValidator = .ok state') : Tracks state state' := by
  unfold processUnbondRequests at processed
  split at processed
  · cases processed
  · split at processed
    · cases processed
    · next lists =>
      cases processed
      exact (processUnbondingLists_tracks maxDelegatorsPerValidator _ state _ fresh lists).books
        (foldl_writeUnbond_books _ _)

/-- `run_auction` moves motes only in `process_unbond_requests`; the bids and the recipients it
writes leave the books alone. -/
theorem runAuction_tracks {state state' : AuctionState κ} {context : Context κ} {eraEndTimestampMillis : Nat}
    {evictedValidators : List κ} (fresh : state.Fresh)
    (ran : state.runAuction context eraEndTimestampMillis evictedValidators maxDelegatorsPerValidator =
      some (.ok state')) : Tracks state state' := by
  unfold runAuction at ran
  dsimp only at ran
  repeat' split at ran
  all_goals cases ran
  all_goals
    have tracked := processUnbondRequests_tracks maxDelegatorsPerValidator fresh
      ‹state.processUnbondRequests _ _ = .ok _›
    exact tracked.books ⟨rfl, rfl, rfl⟩

end Unbonding

section Distribution

variable [DecidableEq κ] (context : Context κ)

theorem mintPayouts_tracks :
    ∀ (payouts : List (Payout κ)) (state state' : AuctionState κ), state.Fresh →
      mintPayouts context state payouts = .ok state' → Tracks state state' := by
  intro payouts
  induction payouts with
  | nil =>
    intro state state' fresh minted
    cases minted
    exact .refl fresh
  | cons payout rest ih =>
    intro state state' fresh minted
    obtain ⟨_, delegatorPayout, bondingPurse⟩ := payout
    unfold mintPayouts at minted
    split at minted
    · cases minted
    · next first =>
      have tracked := state.mintIntoExistingPurse_tracks fresh first
      exact tracked.trans (ih _ _ tracked.fresh minted)

theorem reinvestDelegatorRewards_books {state : AuctionState κ} {allocations : List (SeigniorageAllocation κ)}
    {validatorPublicKey : κ} {rewards : List (κ × Option ℚ)}
    {reinvested : AuctionState κ × List (Payout κ) × List (SeigniorageAllocation κ)}
    (paid : state.reinvestDelegatorRewards allocations validatorPublicKey rewards = some (.ok reinvested)) :
    SameBooks state reinvested.1 := by
  unfold reinvestDelegatorRewards at paid
  split at paid
  · cases paid
  · obtain ⟨⟨delegators, payouts, allocations'⟩, -, written⟩ := Option.map_eq_some_iff.mp paid
    cases written
    exact state.writeBid_books _ _

theorem reinvestValidatorReward_books {state : AuctionState κ} {allocations : List (SeigniorageAllocation κ)}
    {validatorPublicKey : κ} {amount : Nat} {reinvested : AuctionState κ × List (SeigniorageAllocation κ) × Nat}
    (paid : state.reinvestValidatorReward allocations validatorPublicKey amount = .ok reinvested) :
    SameBooks state reinvested.1 := by
  unfold reinvestValidatorReward at paid
  split at paid
  · cases paid
  · cases paid
    exact state.writeBid_books _ _

/-- One validator's rewards: the stakes are raised first, then the validator's reward and the
delegators' payouts are minted into their purses. -/
theorem distributeValidator_tracks {baseRoundReward : Nat} {publicKey : κ} {rewardFactor : Nat}
    {recipient : SeigniorageRecipient κ} {state : AuctionState κ} {allocations : List (SeigniorageAllocation κ)}
    {distributed : AuctionState κ × List (SeigniorageAllocation κ)} (fresh : state.Fresh)
    (rewarded : distributeValidator context baseRoundReward publicKey rewardFactor recipient state allocations =
      some (.ok distributed)) : Tracks state distributed.1 := by
  unfold distributeValidator at rewarded
  dsimp only at rewarded
  repeat' split at rewarded
  all_goals cases rewarded
  have delegatorsPaid := reinvestDelegatorRewards_books ‹state.reinvestDelegatorRewards _ _ _ = some (.ok _)›
  have validatorPaid := reinvestValidatorReward_books ‹AuctionState.reinvestValidatorReward _ _ _ _ = .ok _›
  have staked := (delegatorsPaid.trans validatorPaid).tracks fresh
  have minted := AuctionState.mintIntoExistingPurse_tracks _ staked.fresh
    ‹AuctionState.mintIntoExistingPurse _ _ _ _ = .ok _›
  exact staked.trans (minted.trans (mintPayouts_tracks context _ _ _ minted.fresh ‹mintPayouts _ _ _ = .ok _›))

/-- The loop of `distribute`, by induction on the reward factors. -/
theorem distributeFrom_tracks (recipients : List (κ × SeigniorageRecipient κ)) (baseRoundReward : Nat) :
    ∀ (rewardFactors : List (κ × Nat)) (distributed : AuctionState κ × List (SeigniorageAllocation κ)) (result),
      distributed.1.Fresh →
        distributeFrom context recipients baseRoundReward distributed rewardFactors = some (.ok result) →
          Tracks distributed.1 result.1 := by
  intro rewardFactors
  induction rewardFactors with
  | nil =>
    intro distributed result fresh done
    cases done
    exact .refl fresh
  | cons rewardFactor rest ih =>
    intro distributed result fresh done
    obtain ⟨state, allocations⟩ := distributed
    obtain ⟨publicKey, factor⟩ := rewardFactor
    unfold distributeFrom at done
    -- a zero factor or an unstaked recipient is skipped; any other validator is rewarded
    split at done
    · exact ih (state, allocations ++ [.validator publicKey 0]) result fresh done
    · split at done
      · cases done
      · split at done
        · exact ih _ _ fresh done
        · split at done
          · cases done
          · cases done
          · next first =>
            have tracked := distributeValidator_tracks context fresh first
            have rest := ih _ _ tracked.fresh done
            exact tracked.trans rest

theorem distribute_tracks {state state' : AuctionState κ} {rewardFactors : List (κ × Nat)} (fresh : state.Fresh)
    (distributed : state.distribute context rewardFactors = some (.ok state')) : Tracks state state' := by
  unfold distribute at distributed
  repeat' split at distributed
  all_goals cases distributed
  have tracked := distributeFrom_tracks context _ _ _ (state, []) _ fresh ‹distributeFrom _ _ _ _ _ = some (.ok _)›
  exact tracked.books ⟨rfl, rfl, rfl⟩

end Distribution

section System

variable [DecidableEq κ]

theorem call_tracks {state state' : AuctionState κ} {auctionCall : AuctionCall κ} (fresh : state.Fresh)
    (notSlash : auctionCall.isSlash = false) (called : state.call auctionCall = some (.ok state')) :
    Tracks state state' := by
  cases auctionCall with
  | addBid context publicKey delegationRate amount =>
    obtain ⟨added, bid, rfl⟩ := Except.map_eq_ok.mp (Option.some.inj called)
    exact state.addBid_tracks fresh bid
  | delegate context delegatorPublicKey validatorPublicKey amount maxDelegatorsPerValidator
      minimumDelegationAmount =>
    obtain ⟨delegated, delegation, rfl⟩ := Except.map_eq_ok.mp (Option.some.inj called)
    exact state.delegate_tracks fresh delegation
  | slash => cases notSlash
  | runAuction context eraEndTimestampMillis evictedValidators maxDelegatorsPerValidator =>
    exact runAuction_tracks maxDelegatorsPerValidator fresh called
  | distribute context rewardFactors => exact distribute_tracks context fresh called

theorem call_keeps {state state' : AuctionState κ} {auctionCall : AuctionCall κ} (fresh : state.Fresh)
    (called : state.call auctionCall = some (.ok state')) : Keeps state state' := by
  cases slashing : auctionCall.isSlash
  · exact (call_tracks fresh slashing called).keeps
  · cases auctionCall with
    | slash context validatorPublicKeys => exact state.slash_keeps fresh (Option.some.inj called)
    | _ => cases slashing

theorem run_keeps :
    ∀ (calls : List (AuctionCall κ)) (state state' : AuctionState κ), state.Fresh →
      state.run calls = some state' → Keeps state state' := by
  intro calls
  induction calls with
  | nil =>
    intro state state' fresh ran
    cases ran
    exact (Tracks.refl fresh).keeps
  | cons auctionCall rest ih =>
    intro state state' fresh ran
    unfold run at ran
    split at ran
    · cases ran
    · exact ih _ _ fresh ran
    · next called =>
      have kept := call_keeps fresh called
      exact kept.trans (ih _ _ kept.fresh ran)

theorem run_tracks :
    ∀ (calls : List (AuctionCall κ)) (state state' : AuctionState κ), state.Fresh →
      calls.all (fun auctionCall => !auctionCall.isSlash) = true → state.run calls = some state' →
        Tracks state state' := by
  intro calls
  induction calls with
  | nil =>
    intro state state' fresh _ ran
    cases ran
    exact .refl fresh
  | cons auctionCall rest ih =>
    intro state state' fresh noSlash ran
    simp only [List.all_cons, Bool.and_eq_true, Bool.not_eq_true'] at noSlash
    unfold run at ran
    split at ran
    · cases ran
    · exact ih _ _ fresh noSlash.2 ran
    · next called =>
      have tracked := call_tracks fresh noSlash.1 called
      exact tracked.trans (ih _ _ tracked.fresh noSlash.2 ran)

end System

section Genesis

variable [DecidableEq κ]

theorem delegationsTo_cons (delegator : κ × κ × Nat) (delegators : List (κ × κ × Nat)) (validatorPublicKey : κ) :
    delegationsTo (delegator :: delegators) validatorPublicKey =
      (if delegator.1 = validatorPublicKey then delegator.2.2 else 0) + delegationsTo delegators validatorPublicKey := by
  by_cases same : delegator.1 = validatorPublicKey <;> simp [delegationsTo, same]

/-- The delegators of one founding validator, by induction on the list: each delegation to it
fills a new purse. -/
theorem genesisDelegators_fills (releaseTimestampMillis : Nat) (validatorPublicKey : κ) :
    ∀ (delegators : List (κ × κ × Nat)) (founding founded : AuctionState κ × Bid κ), founding.1.Fresh →
      genesisDelegators releaseTimestampMillis validatorPublicKey founding delegators = .ok founded →
        Fills (delegationsTo delegators validatorPublicKey) founding.1 founded.1 := by
  intro delegators
  induction delegators with
  | nil =>
    intro founding founded fresh done
    cases done
    exact .refl fresh
  | cons delegator rest ih =>
    intro founding founded fresh done
    obtain ⟨state, bid⟩ := founding
    obtain ⟨delegatorValidator, delegatorPublicKey, delegatedAmount⟩ := delegator
    unfold genesisDelegators at done
    rw [delegationsTo_cons]
    split at done
    · next same =>
      dsimp only [mintPurse] at done
      split at done
      · cases done
      · have minted := state.mintPurse_fills fresh delegatedAmount
        have later := ih _ _ minted.fresh done
        rw [if_pos same]
        exact minted.trans later
    · next other =>
      rw [if_neg other, Nat.zero_add]
      exact ih _ _ fresh done

/-- The founding validators, by induction on the list: each stake fills a new purse, then its
delegations do, and the stake is added to the total staked. -/
theorem genesisValidators_fills (config : GenesisConfig κ) :
    ∀ (validators : List (κ × Nat × Nat)) (founding founded : AuctionState κ × Nat), founding.1.Fresh →
      genesisValidators config founding validators = .ok founded →
        Fills ((validators.map fun validator => validator.2.1 + delegationsTo config.delegators validator.1).sum)
          founding.1 founded.1 ∧
        founded.2 = founding.2 + (validators.map fun validator => validator.2.1).sum := by
  intro validators
  induction validators with
  | nil =>
    intro founding founded fresh done
    cases done
    exact ⟨.refl fresh, rfl⟩
  | cons validator rest ih =>
    intro founding founded fresh done
    obtain ⟨state, totalStakedAmount⟩ := founding
    obtain ⟨publicKey, stakedAmount, delegationRate⟩ := validator
    unfold genesisValidators at done
    split at done
    · cases done
    split at done
    · cases done
    dsimp only [mintPurse] at done
    split at done
    · cases done
    · next delegatedState bid delegated =>
      have minted := state.mintPurse_fills fresh stakedAmount
      have filled := genesisDelegators_fills _ publicKey config.delegators _ _ minted.fresh delegated
      have bonded := filled.books (delegatedState.writeBid_books publicKey bid)
      obtain ⟨later, laterTotal⟩ := ih _ _ bonded.fresh done
      refine ⟨?_, ?_⟩
      · simpa only [List.map_cons, List.sum_cons, Nat.add_assoc] using (minted.trans bonded).trans later
      · simp only [List.map_cons, List.sum_cons] at laterTotal ⊢
        omega

omit [DecidableEq κ] in
theorem accountsState_fresh (config : GenesisConfig κ) : config.accountsState.Fresh := by
  have keys : config.accountsState.balances.map Prod.fst = List.range' 0 config.accounts.length := by
    simp only [GenesisConfig.accountsState, List.map_map]
    exact List.zipIdx_map_snd 0 config.accounts
  refine ⟨by rw [keys]; exact List.nodup_range', fun purse member => ?_⟩
  rw [keys, List.mem_range'_1] at member
  change purse < config.accounts.length
  omega

omit [DecidableEq κ] in
theorem accountsState_heldBalance (config : GenesisConfig κ) :
    config.accountsState.heldBalance = config.accountsState.totalSupply := by
  have balances : (config.accounts.zipIdx.map fun entry => entry.1.2) = config.accounts.map Prod.snd := by
    rw [← List.zipIdx_map_fst 0 config.accounts, List.map_map, List.zipIdx_map_fst]
    rfl
  simp only [heldBalance, GenesisConfig.accountsState, List.map_map]
  exact congrArg List.sum balances

theorem genesis_fills {config : GenesisConfig κ} {genesisState : AuctionState κ}
    (created : genesis config = .ok genesisState) :
    genesisState.Fresh ∧ genesisState.heldBalance = genesisState.totalSupply + config.delegatedAmount := by
  unfold genesis at created
  split at created
  · cases created
  dsimp only at created
  split at created
  · cases created
  split at created
  · cases created
  · next foundedState totalStakedAmount founded =>
    cases created
    obtain ⟨filled, totals⟩ := genesisValidators_fills config _ _ _ (accountsState_fresh config) founded
    have accounts := accountsState_heldBalance config
    have held := filled.held
    have supply := filled.totalSupply
    dsimp only at held supply totals
    rw [List.sum_map_add] at held
    refine ⟨filled.fresh.of_keys rfl le_rfl, ?_⟩
    change foundedState.heldBalance = foundedState.totalSupply + totalStakedAmount + config.delegatedAmount
    rw [GenesisConfig.delegatedAmount]
    omega

end Genesis

end AuctionState

/-- Over any run of the entry points from genesis, the purses hold the total supply and the
genesis delegations at least, exactly these when nothing is slashed, and every purse id stays
below the next one handed out. -/
theorem purses_hold_supply_and_genesis_delegations [DecidableEq κ] (config : GenesisConfig κ)
    (calls : List (AuctionCall κ)) {genesisState state : AuctionState κ}
    (created : genesis config = .ok genesisState) (ran : genesisState.run calls = some state) :
    state.Fresh ∧ state.totalSupply + config.delegatedAmount ≤ state.heldBalance ∧
      (calls.all (fun auctionCall => !auctionCall.isSlash) = true →
        state.totalSupply + config.delegatedAmount = state.heldBalance) := by
  obtain ⟨fresh, founded⟩ := AuctionState.genesis_fills created
  have kept := AuctionState.run_keeps calls genesisState state fresh ran
  have backed := kept.backed
  refine ⟨kept.fresh, by omega, fun noSlash => ?_⟩
  have held := (AuctionState.run_tracks calls genesisState state fresh noSlash ran).held
  omega

/-- The production settings: the founding delegation of 5 is held in a purse the total supply
never counted, and the slash burns validator `0`'s stake from the supply alone. -/
theorem purses_hold_supply_after_slash_and_rebid :
    slashedAndRebid.totalSupply + productionGenesisConfig.delegatedAmount ≤ slashedAndRebid.heldBalance :=
  (purses_hold_supply_and_genesis_delegations productionGenesisConfig slashAndRebid rfl rfl).2.1

end Auction
