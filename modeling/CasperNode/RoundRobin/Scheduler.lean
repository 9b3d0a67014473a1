import Mathlib
import CasperNode.Lib.CyclicSchedule

/-!
The weighted round-robin scheduler of the reactor (`node/src/utils/round_robin.rs`): its data
and what `push` and `pop` do to it, one operation for each stretch of the source that runs
under one lock. `WellFormed` is kept by every operation: the slots and their keys' queues, and
an active slot that is a copy of the slot at its index with at most its tickets. Under it a
turn of the loop in `pop` never fails (`popTurn_ok`), and `ReadyAt j`, that an item is at most
`j` advances away, only loses one advance per turn (`readyAt_of_advance`).
-/

namespace RoundRobin

variable {ι κ : Type}

structure Slot (κ : Type) where
  key : κ
  tickets : Nat
  deriving DecidableEq, Repr

structure IterationState (κ : Type) where
  activeSlot : Slot κ
  activeSlotIdx : Nat
  deriving DecidableEq, Repr

/-- The iteration state behind its lock, the slots, a queue for each key that has one, and the
permits of the `total` semaphore. Event counters, the dump threshold and the test-only `sealed`
flag are left out. -/
structure WeightedRoundRobin (ι κ : Type) where
  state : IterationState κ
  slots : List (Slot κ)
  queues : κ → Option (List ι)
  total : Nat

/-- How a turn of the loop in `pop` ends: on the next slot, or with an item. -/
inductive Turn (ι κ : Type) where
  | advance (rr : WeightedRoundRobin ι κ)
  | found (item : ι) (key : κ) (rr : WeightedRoundRobin ι κ)

namespace WeightedRoundRobin

variable [DecidableEq κ]

def new (weights : List (κ × ℕ+)) : Option (WeightedRoundRobin ι κ) :=
  -- `assert!(!weights.is_empty(), "must provide at least one slot")`
  if weights.isEmpty then none
  else
    let slots := weights.map fun weight => Slot.mk weight.1 weight.2.val
    slots[0]?.map fun activeSlot =>
      { state := ⟨activeSlot, 0⟩
        slots := slots
        queues := fun key => if key ∈ weights.map Prod.fst then some [] else none
        total := 0 }

/-- The items in the queue of `key`, none for a key without a queue. -/
def queued (rr : WeightedRoundRobin ι κ) (key : κ) : List ι :=
  (rr.queues key).getD []

/-- `push` up to its permit: the item goes to the back of its queue, under that queue's lock. -/
def pushBack (rr : WeightedRoundRobin ι κ) (item : ι) (queue : κ) : Except String (WeightedRoundRobin ι κ) :=
  match rr.queues queue with
  | none => .error "tried to push to non-existent queue"
  | some items => .ok { rr with queues := Function.update rr.queues queue (some (items ++ [item])) }

/-- `self.total.add_permits(1)`. -/
def addPermits (rr : WeightedRoundRobin ι κ) : WeightedRoundRobin ι κ :=
  { rr with total := rr.total + 1 }

/-- `self.total.acquire()`, `none` while the caller has to wait for a permit. -/
def acquire (rr : WeightedRoundRobin ι κ) : Option (WeightedRoundRobin ι κ) :=
  if rr.total = 0 then none else some { rr with total := rr.total - 1 }

/-- One turn of the loop in `pop`, under the state lock and the active queue's lock. -/
def popTurn (rr : WeightedRoundRobin ι κ) : Except String (Turn ι κ) :=
  match rr.queues rr.state.activeSlot.key with
  | none => .error "the queue disappeared. this should not happen"
  | some currentQueue =>
    if rr.state.activeSlot.tickets = 0 ∨ currentQueue.isEmpty then
      -- the next slot is copied in with all its tickets; with no slots the remainder panics
      let activeSlotIdx := (rr.state.activeSlotIdx + 1) % rr.slots.length
      match rr.slots[activeSlotIdx]? with
      | none => .error "attempt to calculate the remainder with a divisor of zero"
      | some activeSlot => .ok (.advance { rr with state := ⟨activeSlot, activeSlotIdx⟩ })
    else
      let activeSlot := { rr.state.activeSlot with tickets := rr.state.activeSlot.tickets - 1 }
      match currentQueue with
      | [] => .error "item disappeared. this should not happen"
      | item :: rest =>
        .ok (.found item activeSlot.key
          { rr with
            state := { rr.state with activeSlot := activeSlot }
            queues := Function.update rr.queues activeSlot.key (some rest) })

/-! ### What each operation does -/

variable {rr rr' : WeightedRoundRobin ι κ} {item : ι} {key : κ}

theorem pushBack_eq_ok {queue : κ} (pushed : rr.pushBack item queue = .ok rr') :
    ∃ items, rr.queues queue = some items ∧
      rr' = { rr with queues := Function.update rr.queues queue (some (items ++ [item])) } := by
  unfold pushBack at pushed
  split at pushed
  · cases pushed
  · rename_i items present
    cases pushed
    exact ⟨items, present, rfl⟩

omit [DecidableEq κ] in
theorem acquire_eq_some (acquired : rr.acquire = some rr') :
    0 < rr.total ∧ rr' = { rr with total := rr.total - 1 } := by
  unfold acquire at acquired
  split_ifs at acquired with none
  cases acquired
  exact ⟨Nat.pos_of_ne_zero none, rfl⟩

theorem popTurn_eq_advance (turned : rr.popTurn = .ok (.advance rr')) :
    (rr.state.activeSlot.tickets = 0 ∨ rr.queued rr.state.activeSlot.key = []) ∧
      ∃ slot, rr.slots[(rr.state.activeSlotIdx + 1) % rr.slots.length]? = some slot ∧
        rr' = { rr with state := ⟨slot, (rr.state.activeSlotIdx + 1) % rr.slots.length⟩ } := by
  unfold popTurn at turned
  split at turned
  · cases turned
  · rename_i currentQueue present
    split_ifs at turned with exhausted
    · dsimp only at turned
      split at turned
      · cases turned
      · rename_i slot at_next
        cases turned
        refine ⟨?_, slot, at_next, rfl⟩
        simpa [queued, present] using exhausted
    · split at turned <;> cases turned

theorem popTurn_eq_found (turned : rr.popTurn = .ok (.found item key rr')) :
    key = rr.state.activeSlot.key ∧ 0 < rr.state.activeSlot.tickets ∧
      ∃ rest, rr.queues key = some (item :: rest) ∧
        rr' = { rr with
          state := { rr.state with
            activeSlot := { rr.state.activeSlot with tickets := rr.state.activeSlot.tickets - 1 } }
          queues := Function.update rr.queues key (some rest) } := by
  unfold popTurn at turned
  split at turned
  · cases turned
  · rename_i currentQueue present
    split_ifs at turned with exhausted
    · dsimp only at turned
      split at turned <;> cases turned
    · dsimp only at turned
      split at turned
      · cases turned
      · rename_i first rest
        cases turned
        refine ⟨rfl, ?_, rest, present, rfl⟩
        omega

theorem isSome_update_some {queues : κ → Option (List ι)} (present : (queues key).isSome)
    (items : List ι) (other : κ) :
    (Function.update queues key (some items) other).isSome = (queues other).isSome := by
  by_cases same : other = key
  · subst same
    rw [Function.update_self, present]
    rfl
  · rw [Function.update_of_ne same]

theorem pushBack_frame {queue : κ} (pushed : rr.pushBack item queue = .ok rr') :
    rr'.state = rr.state ∧ rr'.slots = rr.slots ∧ rr'.total = rr.total := by
  obtain ⟨items, -, rfl⟩ := pushBack_eq_ok pushed
  exact ⟨rfl, rfl, rfl⟩

theorem queued_pushBack {queue : κ} (pushed : rr.pushBack item queue = .ok rr') (key : κ) :
    rr'.queued key = if key = queue then rr.queued queue ++ [item] else rr.queued key := by
  obtain ⟨items, present, rfl⟩ := pushBack_eq_ok pushed
  split_ifs with same
  · subst same
    simp [queued, present]
  · simp [queued, same]

theorem queued_popTurn_found (turned : rr.popTurn = .ok (.found item key rr')) :
    rr.queued key = item :: rr'.queued key ∧ ∀ other, other ≠ key → rr'.queued other = rr.queued other := by
  obtain ⟨-, -, rest, present, rfl⟩ := popTurn_eq_found turned
  refine ⟨by simp [queued, present], fun other differ => ?_⟩
  simp [queued, differ]

/-! ### The invariant of the scheduler's data -/

structure WellFormed (rr : WeightedRoundRobin ι κ) : Prop where
  slots_ne_nil : rr.slots ≠ []
  tickets_pos : ∀ slot ∈ rr.slots, 0 < slot.tickets
  queues_isSome : ∀ key, (rr.queues key).isSome ↔ key ∈ rr.slots.map Slot.key
  active : ∃ slot, rr.slots[rr.state.activeSlotIdx]? = some slot ∧
    slot.key = rr.state.activeSlot.key ∧ rr.state.activeSlot.tickets ≤ slot.tickets

theorem new_eq_some {weights : List (κ × ℕ+)} (built : new weights = some rr) :
    rr.WellFormed ∧ rr.total = 0 ∧ ∀ key, rr.queued key = [] := by
  unfold new at built
  split_ifs at built with empty
  obtain ⟨activeSlot, first, rfl⟩ := Option.map_eq_some_iff.mp built
  refine ⟨⟨?_, ?_, ?_, ⟨activeSlot, first, rfl, Nat.le_refl _⟩⟩, rfl, ?_⟩
  · intro none
    exact empty (List.isEmpty_iff.mpr (List.map_eq_nil_iff.mp none))
  · intro slot member
    obtain ⟨weight, _, rfl⟩ := List.mem_map.mp member
    exact weight.2.pos
  · intro key
    simp [Function.comp_def]
  · intro key
    unfold queued
    dsimp only
    split_ifs <;> rfl

theorem WellFormed.pushBack (wf : rr.WellFormed) {queue : κ} (pushed : rr.pushBack item queue = .ok rr') :
    rr'.WellFormed := by
  obtain ⟨items, present, rfl⟩ := pushBack_eq_ok pushed
  refine ⟨wf.slots_ne_nil, wf.tickets_pos, fun other => ?_, wf.active⟩
  have kept := isSome_update_some (Option.isSome_iff_exists.mpr ⟨items, present⟩) (items ++ [item]) other
  dsimp only
  rw [kept]
  exact wf.queues_isSome other

omit [DecidableEq κ] in
theorem WellFormed.acquire (wf : rr.WellFormed) (acquired : rr.acquire = some rr') : rr'.WellFormed := by
  obtain ⟨-, rfl⟩ := acquire_eq_some acquired
  exact ⟨wf.slots_ne_nil, wf.tickets_pos, wf.queues_isSome, wf.active⟩

theorem WellFormed.popTurn_advance (wf : rr.WellFormed) (turned : rr.popTurn = .ok (.advance rr')) :
    rr'.WellFormed := by
  obtain ⟨-, slot, at_next, rfl⟩ := popTurn_eq_advance turned
  exact ⟨wf.slots_ne_nil, wf.tickets_pos, wf.queues_isSome, slot, at_next, rfl, Nat.le_refl _⟩

theorem WellFormed.popTurn_found (wf : rr.WellFormed) (turned : rr.popTurn = .ok (.found item key rr')) :
    rr'.WellFormed := by
  obtain ⟨rfl, -, rest, present, rfl⟩ := popTurn_eq_found turned
  obtain ⟨slot, at_idx, same_key, fits⟩ := wf.active
  refine ⟨wf.slots_ne_nil, wf.tickets_pos, fun other => ?_, slot, at_idx, same_key, ?_⟩
  · have kept := isSome_update_some (Option.isSome_iff_exists.mpr ⟨_, present⟩) rest other
    dsimp only
    rw [kept]
    exact wf.queues_isSome other
  · dsimp only
    omega

theorem WellFormed.popTurn_ok (wf : rr.WellFormed) : ∃ turn, rr.popTurn = .ok turn := by
  obtain ⟨slot, at_idx, same_key, -⟩ := wf.active
  have member : rr.state.activeSlot.key ∈ rr.slots.map Slot.key :=
    List.mem_map.mpr ⟨slot, List.mem_of_getElem? at_idx, same_key⟩
  obtain ⟨currentQueue, present⟩ := Option.isSome_iff_exists.mp ((wf.queues_isSome _).mpr member)
  have next_lt : (rr.state.activeSlotIdx + 1) % rr.slots.length < rr.slots.length :=
    Nat.mod_lt _ (List.length_pos_iff.mpr wf.slots_ne_nil)
  unfold popTurn
  rw [present]
  dsimp only
  split_ifs with exhausted
  · rw [List.getElem?_eq_getElem next_lt]
    exact ⟨_, rfl⟩
  · cases currentQueue with
    | nil => exact absurd (Or.inr rfl) exhausted
    | cons first rest => exact ⟨_, rfl⟩

/-! ### How far the scan is from an item -/

/-- The scan of `pop` takes an item after `j` more advances: from the active slot at once if
`j = 0`, else from the slot `j` places on, which it enters with all its tickets. -/
def ReadyAt (rr : WeightedRoundRobin ι κ) : Nat → Prop
  | 0 => 0 < rr.state.activeSlot.tickets ∧ rr.queued rr.state.activeSlot.key ≠ []
  | j + 1 => ∃ slot, rr.slots[(rr.state.activeSlotIdx + (j + 1)) % rr.slots.length]? = some slot ∧
      rr.queued slot.key ≠ []

omit [DecidableEq κ] in
theorem readyAt_of_slot {j : Nat} (positive : 0 < j) {slot : Slot κ}
    (at_slot : rr.slots[(rr.state.activeSlotIdx + j) % rr.slots.length]? = some slot)
    (holds : rr.queued slot.key ≠ []) : rr.ReadyAt j := by
  obtain ⟨j, rfl⟩ := Nat.exists_eq_add_one_of_ne_zero (Nat.pos_iff_ne_zero.mp positive)
  exact ⟨slot, at_slot, holds⟩

omit [DecidableEq κ] in
theorem ReadyAt.mono {j : Nat} (ready : rr.ReadyAt j) (state : rr'.state = rr.state) (slots : rr'.slots = rr.slots)
    (grows : ∀ key, rr.queued key ≠ [] → rr'.queued key ≠ []) : rr'.ReadyAt j := by
  cases j with
  | zero =>
    obtain ⟨left, holds⟩ := ready
    refine ⟨?_, ?_⟩
    · rw [state]
      exact left
    · rw [state]
      exact grows _ holds
  | succ j =>
    obtain ⟨slot, at_slot, holds⟩ := ready
    refine ⟨slot, ?_, grows _ holds⟩
    rw [state, slots]
    exact at_slot

omit [DecidableEq κ] in
theorem WellFormed.key_mem (wf : rr.WellFormed) (holds : rr.queued key ≠ []) : key ∈ rr.slots.map Slot.key := by
  have present : (rr.queues key).isSome := by
    cases found : rr.queues key with
    | none => simp [queued, found] at holds
    | some _ => rfl
  exact (wf.queues_isSome key).mp present

omit [DecidableEq κ] in
theorem WellFormed.exists_readyAt (wf : rr.WellFormed) (holds : rr.queued key ≠ []) :
    ∃ j, j ≤ rr.slots.length ∧ rr.ReadyAt j := by
  obtain ⟨slot, member, named⟩ := List.mem_map.mp (wf.key_mem holds)
  obtain ⟨pos, pos_lt, at_pos⟩ := List.getElem_of_mem member
  obtain ⟨active, at_idx, -, -⟩ := wf.active
  have idx_lt : rr.state.activeSlotIdx < rr.slots.length := (List.getElem?_eq_some_iff.mp at_idx).1
  obtain ⟨j, positive, within, reaches⟩ := CyclicSchedule.exists_pos_add_mod_eq idx_lt pos_lt
  have at_slot : rr.slots[(rr.state.activeSlotIdx + j) % rr.slots.length]? = some slot := by
    rw [reaches, List.getElem?_eq_getElem pos_lt, at_pos]
  have slot_holds : rr.queued slot.key ≠ [] := by
    rw [named]
    exact holds
  exact ⟨j, within, readyAt_of_slot positive at_slot slot_holds⟩

theorem not_readyAt_zero_of_advance (turned : rr.popTurn = .ok (.advance rr')) : ¬ rr.ReadyAt 0 := by
  rintro ⟨left, holds⟩
  rcases (popTurn_eq_advance turned).1 with none | empty
  · omega
  · exact holds empty

theorem readyAt_of_advance (wf : rr.WellFormed) (turned : rr.popTurn = .ok (.advance rr')) {j : Nat}
    (ready : rr.ReadyAt (j + 1)) : rr'.ReadyAt j := by
  obtain ⟨-, slot, at_next, rfl⟩ := popTurn_eq_advance turned
  obtain ⟨reached, at_reached, holds⟩ := ready
  cases j with
  | zero =>
    -- the slot one on is now the active slot, with all its tickets
    rw [at_next] at at_reached
    cases at_reached
    exact ⟨wf.tickets_pos _ (List.mem_of_getElem? at_next), holds⟩
  | succ j =>
    refine ⟨reached, ?_, holds⟩
    have around : rr.state.activeSlotIdx + 1 + (j + 1) = rr.state.activeSlotIdx + (j + 1 + 1) := by omega
    show rr.slots[((rr.state.activeSlotIdx + 1) % rr.slots.length + (j + 1)) % rr.slots.length]? = some reached
    rw [Nat.mod_add_mod, around]
    exact at_reached

end WeightedRoundRobin

end RoundRobin
