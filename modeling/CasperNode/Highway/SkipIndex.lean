import CasperNode.Lib.SkipList

/-!
The blocks and units of the Highway protocol state (`highway_core/state.rs`) and their skip
lists (`state/block.rs`, `state/unit.rs`). A block keeps its height and skip index, a unit its
sequence number and skip index; the skip lists read nothing else of them. The hash maps of
`State` are partial functions. Heights and sequence numbers are `u64` grown by one per block
or unit, so natural numbers here.
-/

namespace Highway

open SkipList

variable {κ : Type}

structure Block (κ : Type) where
  height : Nat
  skipIdx : List κ
  deriving DecidableEq, Repr

structure Unit (κ : Type) where
  seqNumber : Nat
  skipIdx : List κ
  deriving DecidableEq, Repr

structure State (κ : Type) where
  blocks : κ → Option (Block κ)
  units : κ → Option (Unit κ)

/-- `Block::parent`. -/
def Block.parent (block : Block κ) : Option κ := block.skipIdx.head?

/-- `Unit::previous`, the creator's previous unit. -/
def Unit.previous (unit : Unit κ) : Option κ := unit.skipIdx.head?

def Block.initial : Block κ := ⟨0, []⟩

/-- `Block::new`: one above the parent, with a pointer for each power of two dividing the
height. `none` is the panic of `state.block` on a missing block. -/
def Block.new (parentHash : Option κ) (blocks : κ → Option (Block κ)) : Option (Block κ) :=
  match parentHash with
  | none => some Block.initial
  | some hash => do
    let parent ← blocks hash
    let height := parent.height + 1
    let skipIdx ← extend blocks Block.skipIdx (trailingZeros height) hash
    pure ⟨height, skipIdx⟩

/-- The skip index of `Unit::new`: after the creator's previous unit, if the panorama cites
one, a pointer for each power of two dividing the sequence number. -/
def Unit.new (previous : Option κ) (seqNumber : Nat) (units : κ → Option (Unit κ)) : Option (Unit κ) := do
  let skipIdx ← match previous with
    | none => some []
    | some hash => extend units Unit.skipIdx (trailingZeros seqNumber) hash
  pure ⟨seqNumber, skipIdx⟩

/-- `Panorama::next_seq_num` for the creator's entry: one past its previous unit. -/
def State.nextSeqNum (state : State κ) : Option κ → Option Nat
  | none => some 0
  | some hash => (state.units hash).map (·.seqNumber + 1)

/-- `add_valid_unit`: a unit seen before changes nothing; a new one is stored with its block if
it has a value, on the fork choice. `none` is a panic. -/
def State.addValidUnit [DecidableEq κ] (state : State κ) (hash : κ) (previous : Option κ)
    (seqNumber : Nat) (value : Bool) (forkChoice : Option κ) : Option (State κ) :=
  if (state.units hash).isSome then some state
  else do
    let unit ← Unit.new previous seqNumber state.units
    let blocks ← if value then (Block.new forkChoice state.blocks).map (Function.update state.blocks hash ∘ some)
      else some state.blocks
    pure { blocks, units := Function.update state.units hash (some unit) }

/-- `retain_evidence_only` clears the units and the blocks. -/
def State.retainEvidenceOnly (_ : State κ) : State κ := ⟨fun _ => none, fun _ => none⟩

/-- `find_ancestor_proposal`, with fuel. -/
def State.findAncestorProposal (fuel : Nat) (state : State κ) (hash : κ) (height : Nat) : Option (Option κ) :=
  find state.blocks Block.height Block.skipIdx fuel hash height

/-- `find_in_swimlane`, with fuel: `checked_sub` fails below the unit, is zero at it, and
otherwise jumps as `find_ancestor_proposal` does. -/
def State.findInSwimlane (fuel : Nat) (state : State κ) (hash : κ) (seqNumber : Nat) : Option (Option κ) :=
  find state.units Unit.seqNumber Unit.skipIdx fuel hash seqNumber

/-- The states a run reaches: `State::new`, valid units added, and the evidence-only reset.
A unit is added as `validate_unit` and the dependency checks leave it: its sequence number
is `next_seq_num`, which needs the previous unit stored, and its fork choice is a stored
block. -/
inductive Reachable [DecidableEq κ] : State κ → Prop
  | new : Reachable ⟨fun _ => none, fun _ => none⟩
  | addValidUnit {state state' : State κ} {hash : κ} {previous : Option κ} {seqNumber : Nat} {value : Bool}
      {forkChoice : Option κ} (reachable : Reachable state) (sequenced : state.nextSeqNum previous = some seqNumber)
      (forkChoiceStored : ∀ parent ∈ forkChoice, (state.blocks parent).isSome)
      (added : state.addValidUnit hash previous seqNumber value forkChoice = some state') : Reachable state'
  | retainEvidenceOnly {state : State κ} (reachable : Reachable state) : Reachable state.retainEvidenceOnly

section Proofs

variable [DecidableEq κ]

/-- The skip lists of a state: the blocks' by height, the units' by sequence number, and a
block only under the hash of a stored unit. -/
structure State.WellFormed (state : State κ) : Prop where
  blocks : SkipList.WellFormed state.blocks Block.height Block.skipIdx
  units : SkipList.WellFormed state.units Unit.seqNumber Unit.skipIdx
  blockOfUnit : ∀ hash, (state.blocks hash).isSome → (state.units hash).isSome

omit [DecidableEq κ] in
theorem wellFormed_empty : (⟨fun _ => none, fun _ => none⟩ : State κ).WellFormed := by
  refine ⟨fun _ _ stored => ?_, fun _ _ stored => ?_, fun _ stored => ?_⟩
  all_goals cases stored

omit [DecidableEq κ] in
theorem wellFormed_retainEvidenceOnly (state : State κ) : state.retainEvidenceOnly.WellFormed :=
  wellFormed_empty

/-- A block on a stored fork choice, or on none, is built and is linked once stored under a
new hash. -/
theorem Block.new_linked {blocks : κ → Option (Block κ)} (wf : SkipList.WellFormed blocks Block.height Block.skipIdx)
    {hash : κ} (fresh : blocks hash = none) {forkChoice : Option κ}
    (forkChoiceStored : ∀ parent ∈ forkChoice, (blocks parent).isSome) :
    ∃ block, Block.new forkChoice blocks = some block ∧
      Linked (Function.update blocks hash (some block)) Block.height Block.skipIdx hash block := by
  cases forkChoice with
  | none => exact ⟨Block.initial, rfl, linked_of_index_eq_zero rfl rfl⟩
  | some parentHash =>
    obtain ⟨parent, stored⟩ := Option.isSome_iff_exists.mp (forkChoiceStored parentHash rfl)
    obtain ⟨pointers, built, linked⟩ := wf.extend_linked fresh stored
    refine ⟨⟨parent.height + 1, pointers⟩, ?_, linked _ rfl rfl⟩
    simp only [Block.new, stored, built, Option.bind_eq_bind, Option.bind_some, Option.pure_def]

/-- A unit with the sequence number its previous unit calls for is built and is linked once
stored under a new hash. -/
theorem Unit.new_linked {state : State κ} (wf : SkipList.WellFormed state.units Unit.seqNumber Unit.skipIdx)
    {hash : κ} (fresh : state.units hash = none) {previous : Option κ} {seqNumber : Nat}
    (sequenced : state.nextSeqNum previous = some seqNumber) :
    ∃ unit, Unit.new previous seqNumber state.units = some unit ∧
      Linked (Function.update state.units hash (some unit)) Unit.seqNumber Unit.skipIdx hash unit := by
  cases previous with
  | none =>
    -- the first unit of its creator is number 0
    rw [State.nextSeqNum, Option.some.injEq] at sequenced
    subst sequenced
    exact ⟨⟨0, []⟩, rfl, linked_of_index_eq_zero rfl rfl⟩
  | some previousHash =>
    rw [State.nextSeqNum, Option.map_eq_some_iff] at sequenced
    obtain ⟨previousUnit, stored, rfl⟩ := sequenced
    obtain ⟨pointers, built, linked⟩ := wf.extend_linked fresh stored
    refine ⟨⟨previousUnit.seqNumber + 1, pointers⟩, ?_, linked _ rfl rfl⟩
    simp only [Unit.new, built, Option.bind_eq_bind, Option.bind_some, Option.pure_def]

theorem State.WellFormed.addValidUnit {state : State κ} (wf : state.WellFormed) (hash : κ) {previous : Option κ}
    {seqNumber : Nat} (value : Bool) {forkChoice : Option κ} (sequenced : state.nextSeqNum previous = some seqNumber)
    (forkChoiceStored : ∀ parent ∈ forkChoice, (state.blocks parent).isSome) :
    ∃ state', state.addValidUnit hash previous seqNumber value forkChoice = some state' ∧ state'.WellFormed := by
  by_cases seen : (state.units hash).isSome
  · exact ⟨state, by rw [State.addValidUnit, if_pos seen], wf⟩
  have fresh : state.units hash = none := Option.not_isSome_iff_eq_none.mp seen
  have freshBlock : state.blocks hash = none :=
    Option.not_isSome_iff_eq_none.mp fun stored => seen (wf.blockOfUnit hash stored)
  obtain ⟨unit, unitBuilt, unitLinked⟩ := Unit.new_linked wf.units fresh sequenced
  -- a block keeps its hash among the units: the new one is stored with its unit
  have covered : ∀ blocks : κ → Option (Block κ), (∀ x, (blocks x).isSome → x = hash ∨ (state.blocks x).isSome) →
      ∀ x, (blocks x).isSome → (Function.update state.units hash (some unit) x).isSome := by
    intro blocks within x stored
    by_cases same : x = hash
    · rw [same, Function.update_self]
      rfl
    · rw [Function.update_of_ne same]
      exact wf.blockOfUnit x ((within x stored).resolve_left same)
  cases value with
  | false =>
    refine ⟨⟨state.blocks, Function.update state.units hash (some unit)⟩, ?_,
      ⟨wf.blocks, wf.units.insert fresh unitLinked, covered _ fun x stored => .inr stored⟩⟩
    simp only [State.addValidUnit, seen, unitBuilt, Bool.false_eq_true, if_false, Option.bind_eq_bind,
      Option.bind_some, Option.pure_def]
  | true =>
    obtain ⟨block, blockBuilt, blockLinked⟩ := Block.new_linked wf.blocks freshBlock forkChoiceStored
    refine ⟨⟨Function.update state.blocks hash (some block), Function.update state.units hash (some unit)⟩, ?_,
      ⟨wf.blocks.insert freshBlock blockLinked, wf.units.insert fresh unitLinked, covered _ fun x stored => ?_⟩⟩
    · simp only [State.addValidUnit, seen, unitBuilt, blockBuilt, if_true, Option.bind_eq_bind, Option.bind_some,
        Option.pure_def, Option.map_some, Function.comp_apply, Bool.false_eq_true, if_false]
    · by_cases same : x = hash
      · exact .inl same
      · dsimp only at stored
        rw [Function.update_of_ne same] at stored
        exact .inr stored

/-- Every reachable state is well formed. By induction on the run. -/
theorem Reachable.wellFormed {state : State κ} (reachable : Reachable state) : state.WellFormed := by
  induction reachable with
  | new => exact wellFormed_empty
  | addValidUnit _ sequenced forkChoiceStored added ih =>
    obtain ⟨state', built, wf'⟩ := ih.addValidUnit _ _ sequenced forkChoiceStored
    rw [added, Option.some.injEq] at built
    rw [built]
    exact wf'
  | retainEvidenceOnly _ _ => exact wellFormed_retainEvidenceOnly _

end Proofs

/-- In every reachable state, `find_ancestor_proposal` and `find_in_swimlane` return nothing
above the block or unit, and otherwise the block or unit that many parents or previous units
back; with fuel past the height or sequence number, so both searches end. -/
theorem skip_list_lookups_return_exact_ancestor [DecidableEq κ] {state : State κ} (reachable : Reachable state) :
    (∀ (hash : κ) (block : Block κ) (height fuel : Nat), state.blocks hash = some block → block.height < fuel →
      (block.height < height → state.findAncestorProposal fuel hash height = some none) ∧
      (height ≤ block.height → ∃ ancestorHash,
        ancestor state.blocks Block.skipIdx (block.height - height) hash = some ancestorHash ∧
        state.findAncestorProposal fuel hash height = some (some ancestorHash))) ∧
    ∀ (hash : κ) (unit : Unit κ) (seqNumber fuel : Nat), state.units hash = some unit → unit.seqNumber < fuel →
      (unit.seqNumber < seqNumber → state.findInSwimlane fuel hash seqNumber = some none) ∧
      (seqNumber ≤ unit.seqNumber → ∃ previousHash,
        ancestor state.units Unit.skipIdx (unit.seqNumber - seqNumber) hash = some previousHash ∧
        state.findInSwimlane fuel hash seqNumber = some (some previousHash)) := by
  have wf := reachable.wellFormed
  exact ⟨fun hash block height fuel stored enough => wf.blocks.find_spec stored height enough,
    fun hash unit seqNumber fuel stored enough => wf.units.find_spec stored seqNumber enough⟩

/-- Five blocks in a chain, each the block of its own unit: the top one, at height 4, jumps to
height 0 along its last pointer, four parents back. -/
theorem skip_list_lookups_on_a_chain_of_five_blocks :
    ∃ state : State Nat, Reachable state ∧ state.blocks 4 = some ⟨4, [3, 2, 0]⟩ ∧
      ancestor state.blocks Block.skipIdx 4 4 = some 0 ∧ state.findAncestorProposal 5 4 0 = some (some 0) := by
  have reachable := @Reachable.addValidUnit Nat _ _ _ 4 (some 3) 4 true (some 3)
    (@Reachable.addValidUnit Nat _ _ _ 3 (some 2) 3 true (some 2)
      (@Reachable.addValidUnit Nat _ _ _ 2 (some 1) 2 true (some 1)
        (@Reachable.addValidUnit Nat _ _ _ 1 (some 0) 1 true (some 0)
          (@Reachable.addValidUnit Nat _ _ _ 0 none 0 true none Reachable.new rfl (fun _ none => (nomatch none)) rfl)
          rfl (by decide) rfl)
        rfl (by decide) rfl)
      rfl (by decide) rfl)
    rfl (by decide) rfl
  obtain ⟨ancestorHash, reached, found⟩ :=
    ((skip_list_lookups_return_exact_ancestor reachable).1 4 ⟨4, [3, 2, 0]⟩ 0 5 rfl (by decide)).2 (Nat.zero_le _)
  have zero : ancestorHash = 0 := Option.some.inj (reached.symm.trans rfl)
  subst zero
  exact ⟨_, reachable, rfl, reached, found⟩

end Highway
