import CasperNode.RoundRobin.Tasks

/-!
What the scheduler promises over any interleaving of calls. While the queue of a key holds an
item, every stretch of items of other keys returned has at most the other slots' tickets
(`returned_stretches_within`); and while every queue holds one, the keys returned follow the
weighted cycle of the slots (`returned_follow_schedule`): what the active slot has left, then
each slot in turn with all its tickets.

Both are carried along a run by a measure of the scan's position: `budget`, the most items of
other keys that can still come before the next one of the key, and `schedule`, the keys still to
come. A turn of the loop either returns the head of what is to come or moves on to the next slot
without returning anything, which only shortens the budget and keeps the schedule a prefix of
the one before.
-/

namespace RoundRobin

open CyclicSchedule

variable {ι κ : Type} [DecidableEq κ]

namespace WeightedRoundRobin

/-- The most items of other keys the scan returns before the next item of `target`, while the
queue of `target` holds one: what the active slot has left if it is another key's, then the
slots up to the first one of `target`. -/
def budget (rr : WeightedRoundRobin ι κ) (target : κ) : Nat :=
  if rr.state.activeSlot.key = target then
    if rr.state.activeSlot.tickets = 0 then
      gapFrom Slot.key Slot.tickets rr.slots target (rr.state.activeSlotIdx + 1)
    else 0
  else rr.state.activeSlot.tickets + gapFrom Slot.key Slot.tickets rr.slots target (rr.state.activeSlotIdx + 1)

/-- The keys the scan returns while every queue holds an item: the active slot's tickets left,
then `cycles` full cycles from the next slot on. -/
def schedule (rr : WeightedRoundRobin ι κ) (cycles : Nat) : List κ :=
  upcoming Slot.key Slot.tickets rr.slots rr.state.activeSlot.key rr.state.activeSlot.tickets
    rr.state.activeSlotIdx cycles

variable {rr rr' : WeightedRoundRobin ι κ} {target key : κ} {item : ι}

theorem budget_le (wf : rr.WellFormed) (present : target ∈ rr.slots.map Slot.key) :
    rr.budget target ≤ otherTickets Slot.key Slot.tickets rr.slots target := by
  unfold budget
  split_ifs with same
  · exact gapFrom_le _ _ _
  · exact Nat.zero_le _
  · -- the active slot has at most the tickets of its slot, which is another key's
    obtain ⟨slot, at_idx, same_key, fits⟩ := wf.active
    have idx_lt := (List.getElem?_eq_some_iff.mp at_idx).1
    have at_pos : rr.slots[rr.state.activeSlotIdx % rr.slots.length]? = some slot := by
      rw [Nat.mod_eq_of_lt idx_lt]
      exact at_idx
    have bound : slot.tickets + gapFrom Slot.key Slot.tickets rr.slots target (rr.state.activeSlotIdx + 1) ≤
        otherTickets Slot.key Slot.tickets rr.slots target :=
      add_gapFrom_le present at_pos (by rw [same_key]; exact same)
    omega

theorem budget_of_advance (wf : rr.WellFormed) (present : target ∈ rr.slots.map Slot.key)
    (turned : rr.popTurn = .ok (.advance rr')) :
    rr'.budget target = gapFrom Slot.key Slot.tickets rr.slots target (rr.state.activeSlotIdx + 1) := by
  obtain ⟨-, slot, at_next, rfl⟩ := popTurn_eq_advance turned
  have full := wf.tickets_pos slot (List.mem_of_getElem? at_next)
  unfold budget
  dsimp only
  rw [gapFrom_mod_add_one]
  split_ifs with same empty
  · omega
  · exact (gapFrom_of_eq at_next same).symm
  · exact (gapFrom_of_ne present at_next same).symm

theorem gapFrom_le_budget (holds : rr.queued target ≠ []) (turned : rr.popTurn = .ok (.advance rr')) :
    gapFrom Slot.key Slot.tickets rr.slots target (rr.state.activeSlotIdx + 1) ≤ rr.budget target := by
  have exhausted := (popTurn_eq_advance turned).1
  unfold budget
  split_ifs with same empty
  · exact Nat.le_refl _
  · rcases exhausted with none | drained
    · omega
    · rw [same] at drained
      exact absurd drained holds
  · exact Nat.le_add_left _ _

/-- An item of `target` leaves a budget within the other tickets; an item of another key uses
one of the budget. -/
theorem budget_of_found (turned : rr.popTurn = .ok (.found item key rr')) :
    (key = target ∧ rr'.budget target ≤ otherTickets Slot.key Slot.tickets rr.slots target) ∨
      (key ≠ target ∧ rr'.budget target + 1 = rr.budget target) := by
  obtain ⟨rfl, left, rest, -, rfl⟩ := popTurn_eq_found turned
  unfold budget
  dsimp only
  by_cases same : rr.state.activeSlot.key = target
  · refine .inl ⟨same, ?_⟩
    rw [if_pos same]
    split_ifs
    · exact gapFrom_le _ _ _
    · exact Nat.zero_le _
  · refine .inr ⟨same, ?_⟩
    rw [if_neg same, if_neg same]
    omega

theorem schedule_of_found (turned : rr.popTurn = .ok (.found item key rr')) (cycles : Nat) :
    rr.schedule cycles = key :: rr'.schedule cycles := by
  obtain ⟨rfl, left, rest, -, rfl⟩ := popTurn_eq_found turned
  obtain ⟨remaining, more⟩ := Nat.exists_eq_add_one_of_ne_zero (Nat.pos_iff_ne_zero.mp left)
  unfold schedule
  dsimp only
  rw [more, upcoming_succ, Nat.add_sub_cancel]

/-- With the active queue holding an item, the scan advances only on an exhausted slot, and
enters the next one with all its tickets: one cycle of the schedule is used up. -/
theorem schedule_of_advance (holds : rr.queued rr.state.activeSlot.key ≠ [])
    (turned : rr.popTurn = .ok (.advance rr')) (cycles : Nat) :
    rr'.schedule cycles <+: rr.schedule (cycles + 1) := by
  obtain ⟨exhausted, slot, at_next, rfl⟩ := popTurn_eq_advance turned
  have none : rr.state.activeSlot.tickets = 0 := by
    rcases exhausted with none | drained
    · exact none
    · exact absurd drained holds
  unfold schedule
  dsimp only
  rw [none]
  exact upcoming_advance at_next cycles

end WeightedRoundRobin

namespace System

variable {start sys next finish : System ι κ} {target : κ}

/-- The queue of `key` holds an item. -/
def HasItem (key : κ) (sys : System ι κ) : Prop := sys.rr.queued key ≠ []

/-- Every queue holds an item. -/
def Busy (sys : System ι κ) : Prop := ∀ slot ∈ sys.rr.slots, sys.rr.queued slot.key ≠ []

/-! ### No queue starves -/

/-- A state of a run from `start`: the items returned since `start` have their stretches of
other keys within the other slots' tickets, and the last one with the budget still to come. -/
structure Fair (target : κ) (start sys : System ι κ) : Prop where
  invariant : sys.Invariant
  slots : sys.rr.slots = start.rr.slots
  segment : ∃ segment, sys.returned = start.returned ++ segment ∧
    StretchesWithin (fun entry : κ × ι => entry.1 ≠ target)
      (otherTickets Slot.key Slot.tickets start.rr.slots target) segment ∧
    TailWithin (fun entry : κ × ι => entry.1 ≠ target)
      (otherTickets Slot.key Slot.tickets start.rr.slots target) (sys.rr.budget target) segment

theorem fair_start (inv : start.Invariant) (holds : HasItem target start) : Fair target start start := by
  have present := inv.wellFormed.key_mem holds
  refine ⟨inv, rfl, [], (List.append_nil _).symm, stretchesWithin_nil, ?_⟩
  exact tailWithin_nil (WeightedRoundRobin.budget_le inv.wellFormed present)

theorem Fair.step (fair : Fair target start sys) (holds : HasItem target sys) (step : Step sys next) :
    Fair target start next := by
  obtain ⟨segment, returned, stretches, tail⟩ := fair.segment
  have present := fair.invariant.wellFormed.key_mem holds
  refine ⟨fair.invariant.step step, step.slots_eq.trans fair.slots, ?_⟩
  rcases step.effect with ⟨state, slots, same, -⟩ | ⟨turned, same⟩ | ⟨item, key, turned, appended⟩
  · -- the scan is where it was
    have budget : next.rr.budget target = sys.rr.budget target := by
      unfold WeightedRoundRobin.budget
      rw [state, slots]
    refine ⟨segment, same.trans returned, stretches, ?_⟩
    rw [budget]
    exact tail
  · have lower : next.rr.budget target ≤ sys.rr.budget target := by
      rw [WeightedRoundRobin.budget_of_advance fair.invariant.wellFormed present turned]
      exact WeightedRoundRobin.gapFrom_le_budget holds turned
    exact ⟨segment, same.trans returned, stretches, tail.mono lower⟩
  · refine ⟨segment ++ [(key, item)], by rw [appended, returned, List.append_assoc], ?_⟩
    have outcome : (key = target ∧ next.rr.budget target ≤ otherTickets Slot.key Slot.tickets sys.rr.slots target) ∨
        (key ≠ target ∧ next.rr.budget target + 1 = sys.rr.budget target) :=
      WeightedRoundRobin.budget_of_found turned
    rcases outcome with ⟨rfl, fits⟩ | ⟨other, used⟩
    · -- an item of `target` ends the stretch
      refine ⟨stretches.concat fun passes => absurd rfl passes, tailWithin_concat_of_neg (fun passes => passes rfl) ?_⟩
      rw [← fair.slots]
      exact fits
    · refine ⟨stretches.concat fun _ => tail.mono (by omega), ?_⟩
      rw [← used] at tail
      exact tail.concat

theorem fair_of_window (inv : start.Invariant) (holds : HasItem target start)
    (window : Relation.ReflTransGen (fun a b => Step a b ∧ HasItem target b) start finish) :
    Fair target start finish ∧ HasItem target finish := by
  induction window with
  | refl => exact ⟨fair_start inv holds, holds⟩
  | tail _ step ih => exact ⟨ih.1.step ih.2 step.1, step.2⟩

/-- While the queue of `target` holds an item, the items returned come in stretches of other
keys no longer than the other slots' tickets: between two items of `target`, and before the
first. -/
theorem returned_stretches_within (inv : start.Invariant) (holds : HasItem target start)
    (window : Relation.ReflTransGen (fun a b => Step a b ∧ HasItem target b) start finish) :
    ∃ segment, finish.returned = start.returned ++ segment ∧
      ∀ gap, gap <:+: segment → (∀ entry ∈ gap, entry.1 ≠ target) →
        gap.length ≤ otherTickets Slot.key Slot.tickets start.rr.slots target := by
  obtain ⟨segment, returned, stretches, -⟩ := (fair_of_window inv holds window).1.segment
  exact ⟨segment, returned, stretches⟩

/-! ### Whole cycles -/

/-- A state of a run from `start`: the keys returned since `start`, then what the scan has still
to return, are what was to come from `start`. -/
structure InTurn (start sys : System ι κ) : Prop where
  invariant : sys.Invariant
  segment : ∃ segment cycles, sys.returned = start.returned ++ segment ∧
    ∀ more, segment.map Prod.fst ++ sys.rr.schedule more <+: start.rr.schedule (cycles + more)

theorem inTurn_start (inv : start.Invariant) : InTurn start start := by
  refine ⟨inv, [], 0, (List.append_nil _).symm, fun more => ?_⟩
  rw [List.map_nil, List.nil_append, Nat.zero_add]

theorem InTurn.step (inTurn : InTurn start sys) (busy : Busy sys) (step : Step sys next) : InTurn start next := by
  obtain ⟨segment, cycles, returned, follows⟩ := inTurn.segment
  refine ⟨inTurn.invariant.step step, ?_⟩
  rcases step.effect with ⟨state, slots, same, -⟩ | ⟨turned, same⟩ | ⟨item, key, turned, appended⟩
  · have schedule : ∀ more, next.rr.schedule more = sys.rr.schedule more := by
      intro more
      unfold WeightedRoundRobin.schedule
      rw [state, slots]
    refine ⟨segment, cycles, same.trans returned, fun more => ?_⟩
    rw [schedule]
    exact follows more
  · -- an advance uses up one cycle of what was to come
    obtain ⟨slot, at_idx, same_key, -⟩ := inTurn.invariant.wellFormed.active
    have holds : sys.rr.queued sys.rr.state.activeSlot.key ≠ [] := by
      rw [← same_key]
      exact busy slot (List.mem_of_getElem? at_idx)
    refine ⟨segment, cycles + 1, same.trans returned, fun more => ?_⟩
    have shorter := (List.prefix_append_right_inj (segment.map Prod.fst)).mpr
      (WeightedRoundRobin.schedule_of_advance holds turned more)
    rw [Nat.add_right_comm]
    exact shorter.trans (follows (more + 1))
  · refine ⟨segment ++ [(key, item)], cycles, by rw [appended, returned, List.append_assoc], fun more => ?_⟩
    rw [List.map_append, List.map_singleton, List.append_assoc, List.singleton_append,
      ← WeightedRoundRobin.schedule_of_found turned more]
    exact follows more

theorem inTurn_of_window (inv : start.Invariant) (busy : Busy start)
    (window : Relation.ReflTransGen (fun a b => Step a b ∧ Busy b) start finish) :
    InTurn start finish ∧ Busy finish := by
  induction window with
  | refl => exact ⟨inTurn_start inv, busy⟩
  | tail _ step ih => exact ⟨ih.1.step ih.2 step.1, step.2⟩

/-- While every queue holds an item, the keys returned are a prefix of the schedule from `start`:
each full cycle returns every slot's key as many times as the slot has tickets, in slot order. -/
theorem returned_follow_schedule (inv : start.Invariant) (busy : Busy start)
    (window : Relation.ReflTransGen (fun a b => Step a b ∧ Busy b) start finish) :
    ∃ segment cycles, finish.returned = start.returned ++ segment ∧
      segment.map Prod.fst <+: start.rr.schedule cycles := by
  obtain ⟨segment, cycles, returned, follows⟩ := (inTurn_of_window inv busy window).1.segment
  exact ⟨segment, cycles, returned, (List.prefix_append _ _).trans (follows 0)⟩

/-! ### The scheduler under concurrency -/

/-- The weighted round-robin scheduler, under any interleaving of `push` and `pop` calls from its
construction: a pop holding the lock turns its loop at most once per slot and never panics, the
only panic being a push to a key without a queue; every queue returns its items in the order they
were pushed; while a queue holds an item, at most the other slots' tickets are returned between
two of its items; and while every queue holds one, the keys returned follow the weighted cycle. -/
theorem weighted_round_robin_is_live_and_fair (weights : List (κ × ℕ+)) :
    (∀ sys : System ι κ, Reachable weights sys →
      (∀ t advances : Nat, sys.tasks[t]? = some (.scanning advances) →
        advances ≤ sys.rr.slots.length ∧ ∃ next, sys.runTask t = some next ∧
          ((advances < sys.rr.slots.length ∧ next.tasks[t]? = some (.scanning (advances + 1))) ∨
            ∃ item key, next.tasks[t]? = some (.returned item key) ∧
              next.returned = sys.returned ++ [(key, item)])) ∧
      ∀ (t : Nat) (message : String), sys.tasks[t]? = some (.panicked message) →
        message = "tried to push to non-existent queue") ∧
    (∀ sys : System ι κ, Reachable weights sys →
      ∀ key, KeyedFifo.ofKey key sys.returned <+: KeyedFifo.ofKey key sys.enqueued) ∧
    (∀ (start finish : System ι κ) (key : κ), Reachable weights start → HasItem key start →
      Relation.ReflTransGen (fun a b => Step a b ∧ HasItem key b) start finish →
      ∃ segment, finish.returned = start.returned ++ segment ∧
        ∀ gap, gap <:+: segment → (∀ entry ∈ gap, entry.1 ≠ key) →
          gap.length ≤ otherTickets Slot.key Slot.tickets start.rr.slots key) ∧
    (∀ start finish : System ι κ, Reachable weights start → Busy start →
      Relation.ReflTransGen (fun a b => Step a b ∧ Busy b) start finish →
      ∃ segment cycles, finish.returned = start.returned ++ segment ∧
        segment.map Prod.fst <+: start.rr.schedule cycles) := by
  refine ⟨fun sys reachable => ?_, fun sys reachable key => ?_, fun start finish key reachable holds window => ?_,
    fun start finish reachable busy window => ?_⟩
  · have inv := reachable.invariant
    exact ⟨fun t advances scanning => inv.scan scanning, inv.panics⟩
  · exact reachable.invariant.accounts.returned_prefix key
  · exact returned_stretches_within reachable.invariant holds window
  · exact returned_follow_schedule reachable.invariant busy window

/-- Two queues of one ticket each: after a push of `7` to queue `0` runs to its permit, a pop
takes the permit and the lock, and its next turn is taken without a panic. -/
theorem weighted_round_robin_is_live_on_two_queues :
    ∃ sys : System Nat Nat, Reachable [(0, 1), (1, 1)] sys ∧ HasItem 0 sys ∧
      sys.tasks[1]? = some (.scanning 0) ∧ ∃ next, sys.runTask 1 = some next ∧
        (0 < sys.rr.slots.length ∧ next.tasks[1]? = some (.scanning 1) ∨
          ∃ item key, next.tasks[1]? = some (.returned item key) ∧
            next.returned = sys.returned ++ [(key, item)]) := by
  have created : Reachable [((0 : Nat), (1 : ℕ+)), (1, 1)] (init (ι := Nat) _) := .init rfl
  have enqueued := (created.step (.push _ 7 0)).step (.run 0 rfl)
  have permitted := (enqueued.step (.pop _)).step (.run 0 rfl)
  have locked := (permitted.step (.run 1 rfl)).step (.run 1 rfl)
  obtain ⟨-, next, ran, turn⟩ := ((weighted_round_robin_is_live_and_fair _).1 _ locked).1 1 0 rfl
  exact ⟨_, locked, by unfold HasItem; decide, rfl, next, ran, turn⟩

end System

end RoundRobin
