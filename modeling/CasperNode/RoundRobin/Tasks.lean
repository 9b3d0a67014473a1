import CasperNode.RoundRobin.Scheduler
import CasperNode.Lib.KeyedFifo

/-!
Concurrent calls of `push` and `pop` on one scheduler. Each call is a task, and a step of a task
is the stretch of its body between two awaits: `push` puts its item in the queue, then adds a
permit; `pop` takes a permit, then the state lock, then turns the loop one slot at a time, and
gives the lock back with its item. Any task may step at any time, new calls come at any time.
The test-only `drain_queue` and `seal` are left out, and so is the order in which tokio wakes
waiters: a waiting task is one whose step is not enabled.

`Invariant` holds in every reachable state (`Reachable.invariant`). Its centre is `items`: the
queued items are the available permits plus one for each task in flight, because `push` enqueues
before it adds its permit and only the lock holder removes items. So a pop that holds the lock
finds an item within a cycle (`progress`), never panics (`Invariant.scan`), and every queue
returns its items in the order they came (`accounts`).
-/

namespace RoundRobin

variable {ι κ : Type}

/-- Where a call of `push` or `pop` stands. -/
inductive Task (ι κ : Type) where
  | push (item : ι) (queue : κ)
  -- the item is in its queue, the permit not yet added
  | pushed
  | pushDone
  -- waiting for a permit
  | pop
  -- holding a permit, waiting for the state lock
  | acquired
  -- holding the lock, after `advances` slot advances
  | scanning (advances : Nat)
  | returned (item : ι) (key : κ)
  | panicked (message : String)
  deriving DecidableEq, Repr

/-- The task stands for one queued item that no available permit stands for: a push between
its enqueue and its permit, or a pop between its permit and its removal. -/
def Task.inFlight : Task ι κ → Bool
  | .pushed | .acquired | .scanning _ => true
  | _ => false

structure System (ι κ : Type) where
  rr : WeightedRoundRobin ι κ
  -- the task that holds the iteration-state lock
  holder : Option Nat
  tasks : List (Task ι κ)
  -- every item put into a queue, and every item popped, in order
  enqueued : List (κ × ι)
  returned : List (κ × ι)

namespace System

def init (rr : WeightedRoundRobin ι κ) : System ι κ := ⟨rr, none, [], [], []⟩

def setTask (sys : System ι κ) (t : Nat) (task : Task ι κ) : System ι κ :=
  { sys with tasks := sys.tasks.set t task }

@[simp] theorem setTask_rr (sys : System ι κ) (t : Nat) (task : Task ι κ) : (sys.setTask t task).rr = sys.rr := rfl
@[simp] theorem setTask_holder (sys : System ι κ) (t : Nat) (task : Task ι κ) :
    (sys.setTask t task).holder = sys.holder := rfl
@[simp] theorem setTask_enqueued (sys : System ι κ) (t : Nat) (task : Task ι κ) :
    (sys.setTask t task).enqueued = sys.enqueued := rfl
@[simp] theorem setTask_returned (sys : System ι κ) (t : Nat) (task : Task ι κ) :
    (sys.setTask t task).returned = sys.returned := rfl

/-- A new call of `push` or `pop`. -/
def call (sys : System ι κ) (task : Task ι κ) : System ι κ :=
  { sys with tasks := sys.tasks ++ [task] }

variable [DecidableEq κ]

/-- One step of task `t`; `none` when it waits or has finished. -/
def runTask (sys : System ι κ) (t : Nat) : Option (System ι κ) :=
  match sys.tasks[t]? with
  | some (.push item queue) =>
    match sys.rr.pushBack item queue with
    | .error message => some (sys.setTask t (.panicked message))
    | .ok rr => some { sys.setTask t .pushed with rr := rr, enqueued := sys.enqueued ++ [(queue, item)] }
  | some .pushed => some { sys.setTask t .pushDone with rr := sys.rr.addPermits }
  | some .pop => sys.rr.acquire.map fun rr => { sys.setTask t .acquired with rr := rr }
  | some .acquired =>
    match sys.holder with
    | some _ => none
    | none => some { sys.setTask t (.scanning 0) with holder := some t }
  | some (.scanning advances) =>
    if sys.holder = some t then
      match sys.rr.popTurn with
      -- unwinding drops the guard
      | .error message => some { sys.setTask t (.panicked message) with holder := none }
      | .ok (.advance rr) => some { sys.setTask t (.scanning (advances + 1)) with rr := rr }
      | .ok (.found item key rr) =>
        some { sys.setTask t (.returned item key) with
          rr := rr, holder := none, returned := sys.returned ++ [(key, item)] }
    else none
  | _ => none

inductive Step : System ι κ → System ι κ → Prop
  | push (sys : System ι κ) (item : ι) (queue : κ) : Step sys (sys.call (.push item queue))
  | pop (sys : System ι κ) : Step sys (sys.call .pop)
  | run {sys next : System ι κ} (t : Nat) : sys.runTask t = some next → Step sys next

inductive Reachable (weights : List (κ × ℕ+)) : System ι κ → Prop
  | init {rr : WeightedRoundRobin ι κ} : WeightedRoundRobin.new weights = some rr → Reachable weights (init rr)
  | step {sys next : System ι κ} : Reachable weights sys → Step sys next → Reachable weights next

/-- What one step of task `t` can do, branch by branch of `runTask`. -/
inductive Moves (sys : System ι κ) (t : Nat) : System ι κ → Prop
  | pushFailed {item : ι} {queue : κ} {message : String} :
      sys.tasks[t]? = some (.push item queue) → sys.rr.pushBack item queue = .error message →
      Moves sys t (sys.setTask t (.panicked message))
  | pushBack {item : ι} {queue : κ} {rr : WeightedRoundRobin ι κ} :
      sys.tasks[t]? = some (.push item queue) → sys.rr.pushBack item queue = .ok rr →
      Moves sys t { sys.setTask t .pushed with rr := rr, enqueued := sys.enqueued ++ [(queue, item)] }
  | addPermits : sys.tasks[t]? = some .pushed →
      Moves sys t { sys.setTask t .pushDone with rr := sys.rr.addPermits }
  | acquire {rr : WeightedRoundRobin ι κ} : sys.tasks[t]? = some .pop → sys.rr.acquire = some rr →
      Moves sys t { sys.setTask t .acquired with rr := rr }
  | lock : sys.tasks[t]? = some .acquired → sys.holder = none →
      Moves sys t { sys.setTask t (.scanning 0) with holder := some t }
  | scanFailed {advances : Nat} {message : String} : sys.tasks[t]? = some (.scanning advances) →
      sys.holder = some t → sys.rr.popTurn = .error message →
      Moves sys t { sys.setTask t (.panicked message) with holder := none }
  | advance {advances : Nat} {rr : WeightedRoundRobin ι κ} : sys.tasks[t]? = some (.scanning advances) →
      sys.holder = some t → sys.rr.popTurn = .ok (.advance rr) →
      Moves sys t { sys.setTask t (.scanning (advances + 1)) with rr := rr }
  | found {advances : Nat} {item : ι} {key : κ} {rr : WeightedRoundRobin ι κ} :
      sys.tasks[t]? = some (.scanning advances) → sys.holder = some t →
      sys.rr.popTurn = .ok (.found item key rr) →
      Moves sys t { sys.setTask t (.returned item key) with
        rr := rr, holder := none, returned := sys.returned ++ [(key, item)] }

variable {sys next : System ι κ} {t : Nat}

theorem moves_of_runTask (ran : sys.runTask t = some next) : Moves sys t next := by
  unfold runTask at ran
  split at ran
  next item queue at_t =>
    split at ran
    next message failed =>
      cases ran
      exact .pushFailed at_t failed
    next rr pushed =>
      cases ran
      exact .pushBack at_t pushed
  next at_t =>
    cases ran
    exact .addPermits at_t
  next at_t =>
    obtain ⟨rr, acquired, rfl⟩ := Option.map_eq_some_iff.mp ran
    exact .acquire at_t acquired
  next at_t =>
    split at ran
    next => cases ran
    next free =>
      cases ran
      exact .lock at_t free
  next advances at_t =>
    split_ifs at ran with held
    split at ran
    next message failed =>
      cases ran
      exact .scanFailed at_t held failed
    next rr turned =>
      cases ran
      exact .advance at_t held turned
    next item key rr turned =>
      cases ran
      exact .found at_t held turned
  next => cases ran

/-! ### The task list -/

omit [DecidableEq κ] in
theorem getElem?_setTask {old : Task ι κ} (at_t : sys.tasks[t]? = some old) (task : Task ι κ) (t' : Nat) :
    (sys.setTask t task).tasks[t']? = if t = t' then some task else sys.tasks[t']? := by
  have below : t < sys.tasks.length := (List.getElem?_eq_some_iff.mp at_t).1
  simp [setTask, List.getElem?_set, below]

omit [DecidableEq κ] in
theorem countP_setTask {old : Task ι κ} (at_t : sys.tasks[t]? = some old) (task : Task ι κ)
    (p : Task ι κ → Bool) :
    (sys.setTask t task).tasks.countP p + (if p old then 1 else 0) =
      sys.tasks.countP p + (if p task then 1 else 0) := by
  obtain ⟨below, rfl⟩ := List.getElem?_eq_some_iff.mp at_t
  have counted := List.boole_getElem_le_countP (p := p) below
  rw [setTask, List.countP_set below]
  omega

omit [DecidableEq κ] in
theorem getElem?_call {task found : Task ι κ} {t' : Nat} (at_t' : (sys.call task).tasks[t']? = some found) :
    sys.tasks[t']? = some found ∨ (t' = sys.tasks.length ∧ found = task) := by
  unfold call at at_t'
  by_cases inside : t' < sys.tasks.length
  · rw [List.getElem?_append_left inside] at at_t'
    exact .inl at_t'
  · rw [List.getElem?_append_right (by omega)] at at_t'
    have last : t' - sys.tasks.length = 0 := by
      by_contra later
      rw [List.getElem?_eq_none (by rw [List.length_singleton]; omega)] at at_t'
      cases at_t'
    rw [last] at at_t'
    exact .inr ⟨by omega, (Option.some.inj at_t').symm⟩

/-! ### The invariant -/

structure Invariant (sys : System ι κ) : Prop where
  wellFormed : sys.rr.WellFormed
  accounts : KeyedFifo.Accounts sys.rr.queued sys.enqueued sys.returned
  items : sys.enqueued.length = sys.rr.total + sys.returned.length + sys.tasks.countP Task.inFlight
  holder : ∀ t : Nat, sys.holder = some t ↔ ∃ advances, sys.tasks[t]? = some (.scanning advances)
  progress : ∀ t advances : Nat, sys.tasks[t]? = some (.scanning advances) →
    ∃ j, advances + j ≤ sys.rr.slots.length ∧ sys.rr.ReadyAt j
  panics : ∀ (t : Nat) (message : String), sys.tasks[t]? = some (.panicked message) →
    message = "tried to push to non-existent queue"

theorem Invariant.scanning_eq (inv : sys.Invariant) (held : sys.holder = some t) {t' advances : Nat}
    (scanning : sys.tasks[t']? = some (.scanning advances)) : t' = t := by
  have also := (inv.holder t').mpr ⟨advances, scanning⟩
  rw [held] at also
  exact (Option.some.inj also).symm

/-- A move of a task that does not touch the lock and only adds to the queues keeps the
task-indexed parts of the invariant; the other three are given. -/
theorem Invariant.quiet (inv : sys.Invariant) {old task : Task ι κ} (at_t : sys.tasks[t]? = some old)
    (tasks : next.tasks = sys.tasks.set t task) (holder : next.holder = sys.holder)
    (state : next.rr.state = sys.rr.state) (slots : next.rr.slots = sys.rr.slots)
    (grows : ∀ key, sys.rr.queued key ≠ [] → next.rr.queued key ≠ [])
    (old_quiet : ∀ advances, old ≠ .scanning advances) (new_quiet : ∀ advances, task ≠ .scanning advances)
    (new_panics : ∀ message, task = .panicked message → message = "tried to push to non-existent queue")
    (wellFormed : next.rr.WellFormed) (accounts : KeyedFifo.Accounts next.rr.queued next.enqueued next.returned)
    (items : next.enqueued.length = next.rr.total + next.returned.length + next.tasks.countP Task.inFlight) :
    next.Invariant := by
  have lookup : ∀ t', next.tasks[t']? = if t = t' then some task else sys.tasks[t']? := by
    intro t'
    rw [tasks]
    exact getElem?_setTask at_t task t'
  have not_held : sys.holder ≠ some t := by
    intro held
    obtain ⟨advances, scanning⟩ := (inv.holder t).mp held
    rw [at_t] at scanning
    exact old_quiet advances (Option.some.inj scanning)
  refine ⟨wellFormed, accounts, items, fun t' => ?_, fun t' advances scanning => ?_,
    fun t' message panicked => ?_⟩
  · rw [holder, lookup t']
    split_ifs with same
    · subst same
      constructor
      · intro held
        exact absurd held not_held
      · rintro ⟨advances, scanning⟩
        exact absurd (Option.some.inj scanning) (new_quiet advances)
    · exact inv.holder t'
  · rw [lookup t'] at scanning
    split_ifs at scanning with same
    · exact absurd (Option.some.inj scanning) (new_quiet advances)
    · obtain ⟨j, within, ready⟩ := inv.progress t' advances scanning
      refine ⟨j, ?_, ready.mono state slots grows⟩
      rw [slots]
      exact within
  · rw [lookup t'] at panicked
    split_ifs at panicked with same
    · exact new_panics message (Option.some.inj panicked)
    · exact inv.panics t' message panicked

theorem Invariant.pushFailed (inv : sys.Invariant) {item : ι} {queue : κ} {message : String}
    (at_t : sys.tasks[t]? = some (.push item queue)) (failed : sys.rr.pushBack item queue = .error message) :
    (sys.setTask t (.panicked message)).Invariant := by
  have counted := countP_setTask at_t (.panicked message) Task.inFlight
  simp only [Task.inFlight, Bool.false_eq_true, if_false] at counted
  refine inv.quiet at_t rfl rfl rfl rfl (fun _ holds => holds) (fun _ => nofun) (fun _ => nofun) ?_
    inv.wellFormed inv.accounts ?_
  · intro panicMessage same
    cases same
    unfold WeightedRoundRobin.pushBack at failed
    split at failed
    · cases failed
      rfl
    · cases failed
  · have before := inv.items
    dsimp only [setTask] at counted ⊢
    omega

theorem Invariant.pushBack (inv : sys.Invariant) {item : ι} {queue : κ} {rr : WeightedRoundRobin ι κ}
    (at_t : sys.tasks[t]? = some (.push item queue)) (pushed : sys.rr.pushBack item queue = .ok rr) :
    ({ sys.setTask t .pushed with rr := rr, enqueued := sys.enqueued ++ [(queue, item)] } : System ι κ).Invariant := by
  have counted := countP_setTask at_t .pushed Task.inFlight
  simp only [Task.inFlight, Bool.false_eq_true, if_false, if_true] at counted
  have queued := WeightedRoundRobin.queued_pushBack pushed
  obtain ⟨state, slots, total⟩ := WeightedRoundRobin.pushBack_frame pushed
  refine inv.quiet at_t rfl rfl state slots ?_ (fun _ => nofun) (fun _ => nofun) (fun _ => nofun)
    (inv.wellFormed.pushBack pushed) ?_ ?_
  · intro key holds
    rw [queued key]
    split_ifs with same
    · exact List.append_ne_nil_of_right_ne_nil _ (List.cons_ne_nil _ _)
    · exact holds
  · refine inv.accounts.push (by rw [queued queue, if_pos rfl]) fun other differ => ?_
    rw [queued other, if_neg differ]
  · have before := inv.items
    dsimp only [setTask] at counted ⊢
    rw [List.length_append, List.length_singleton, total]
    omega

theorem Invariant.addPermits (inv : sys.Invariant) (at_t : sys.tasks[t]? = some .pushed) :
    ({ sys.setTask t .pushDone with rr := sys.rr.addPermits } : System ι κ).Invariant := by
  have counted := countP_setTask at_t .pushDone Task.inFlight
  simp only [Task.inFlight, Bool.false_eq_true, if_false, if_true] at counted
  refine inv.quiet at_t rfl rfl rfl rfl (fun _ holds => holds) (fun _ => nofun) (fun _ => nofun)
    (fun _ => nofun) ⟨inv.wellFormed.1, inv.wellFormed.2, inv.wellFormed.3, inv.wellFormed.4⟩
    inv.accounts ?_
  have before := inv.items
  dsimp only [setTask, WeightedRoundRobin.addPermits] at counted ⊢
  omega

theorem Invariant.acquire (inv : sys.Invariant) {rr : WeightedRoundRobin ι κ} (at_t : sys.tasks[t]? = some .pop)
    (acquired : sys.rr.acquire = some rr) :
    ({ sys.setTask t .acquired with rr := rr } : System ι κ).Invariant := by
  have counted := countP_setTask at_t .acquired Task.inFlight
  simp only [Task.inFlight, Bool.false_eq_true, if_false, if_true] at counted
  have wellFormed := inv.wellFormed.acquire acquired
  obtain ⟨available, rfl⟩ := WeightedRoundRobin.acquire_eq_some acquired
  refine inv.quiet at_t rfl rfl rfl rfl (fun _ holds => holds) (fun _ => nofun) (fun _ => nofun)
    (fun _ => nofun) wellFormed inv.accounts ?_
  have before := inv.items
  dsimp only [setTask] at counted ⊢
  omega

theorem Invariant.lock (inv : sys.Invariant) (at_t : sys.tasks[t]? = some .acquired) (free : sys.holder = none) :
    ({ sys.setTask t (.scanning 0) with holder := some t } : System ι κ).Invariant := by
  have counted := countP_setTask at_t (.scanning 0) Task.inFlight
  simp only [Task.inFlight, if_true] at counted
  have lookup := getElem?_setTask at_t (.scanning 0)
  have owed : 0 < sys.tasks.countP Task.inFlight :=
    List.countP_pos_iff.mpr ⟨.acquired, List.mem_of_getElem? at_t, rfl⟩
  have fewer : sys.returned.length < sys.enqueued.length := by
    have before := inv.items
    omega
  obtain ⟨key, holds⟩ := inv.accounts.exists_ne_nil fewer
  obtain ⟨j, within, ready⟩ := inv.wellFormed.exists_readyAt holds
  have not_scanning : ∀ t' advances : Nat, sys.tasks[t']? ≠ some (.scanning advances) := by
    intro t' advances scanning
    have held := (inv.holder t').mpr ⟨advances, scanning⟩
    rw [free] at held
    cases held
  refine ⟨inv.wellFormed, inv.accounts, ?_, fun t' => ?_, fun t' advances scanning => ?_,
    fun t' message panicked => ?_⟩
  · have before := inv.items
    dsimp only [setTask] at counted ⊢
    omega
  · dsimp only
    rw [lookup t']
    split_ifs with same
    · subst same
      exact ⟨fun _ => ⟨0, rfl⟩, fun _ => rfl⟩
    · constructor
      · intro held
        exact absurd (Option.some.inj held) same
      · rintro ⟨advances, scanning⟩
        exact absurd scanning (not_scanning t' advances)
  · rw [lookup t'] at scanning
    split_ifs at scanning with same
    · cases scanning
      refine ⟨j, ?_, ready⟩
      show 0 + j ≤ sys.rr.slots.length
      omega
    · exact absurd scanning (not_scanning t' advances)
  · rw [lookup t'] at panicked
    split_ifs at panicked with same
    · cases panicked
    · exact inv.panics t' message panicked

theorem Invariant.advance (inv : sys.Invariant) {advances : Nat} {rr : WeightedRoundRobin ι κ}
    (at_t : sys.tasks[t]? = some (.scanning advances)) (held : sys.holder = some t)
    (turned : sys.rr.popTurn = .ok (.advance rr)) :
    ({ sys.setTask t (.scanning (advances + 1)) with rr := rr } : System ι κ).Invariant := by
  have counted := countP_setTask at_t (.scanning (advances + 1)) Task.inFlight
  simp only [Task.inFlight, if_true] at counted
  have lookup := getElem?_setTask at_t (.scanning (advances + 1))
  have wellFormed := inv.wellFormed.popTurn_advance turned
  obtain ⟨j, within, ready⟩ := inv.progress t advances at_t
  have closer : ∃ j', j = j' + 1 := by
    cases j with
    | zero => exact absurd ready (WeightedRoundRobin.not_readyAt_zero_of_advance turned)
    | succ j' => exact ⟨j', rfl⟩
  obtain ⟨j', rfl⟩ := closer
  have ready' := WeightedRoundRobin.readyAt_of_advance inv.wellFormed turned ready
  obtain ⟨-, slot, -, rfl⟩ := WeightedRoundRobin.popTurn_eq_advance turned
  refine ⟨wellFormed, inv.accounts, ?_, fun t' => ?_, fun t' steps scanning => ?_, fun t' message panicked => ?_⟩
  · have before := inv.items
    dsimp only [setTask] at counted ⊢
    omega
  · dsimp only
    rw [setTask_holder, held, lookup t']
    split_ifs with same
    · subst same
      exact ⟨fun _ => ⟨advances + 1, rfl⟩, fun _ => rfl⟩
    · rw [← held]
      exact inv.holder t'
  · rw [lookup t'] at scanning
    split_ifs at scanning with same
    · cases scanning
      exact ⟨j', by dsimp only; omega, ready'⟩
    · exact absurd (inv.scanning_eq held scanning) (Ne.symm same)
  · rw [lookup t'] at panicked
    split_ifs at panicked with same
    · cases panicked
    · exact inv.panics t' message panicked

theorem Invariant.found (inv : sys.Invariant) {advances : Nat} {item : ι} {key : κ} {rr : WeightedRoundRobin ι κ}
    (at_t : sys.tasks[t]? = some (.scanning advances)) (held : sys.holder = some t)
    (turned : sys.rr.popTurn = .ok (.found item key rr)) :
    ({ sys.setTask t (.returned item key) with
        rr := rr, holder := none, returned := sys.returned ++ [(key, item)] } : System ι κ).Invariant := by
  have counted := countP_setTask at_t (.returned item key) Task.inFlight
  simp only [Task.inFlight, Bool.false_eq_true, if_false, if_true] at counted
  have lookup := getElem?_setTask at_t (.returned item key)
  have wellFormed := inv.wellFormed.popTurn_found turned
  obtain ⟨popped, others⟩ := WeightedRoundRobin.queued_popTurn_found turned
  have not_scanning : ∀ t' steps : Nat,
      (sys.setTask t (.returned item key)).tasks[t']? ≠ some (.scanning steps) := by
    intro t' steps scanning
    rw [lookup t'] at scanning
    split_ifs at scanning with same
    · cases scanning
    · exact absurd (inv.scanning_eq held scanning) (Ne.symm same)
  refine ⟨wellFormed, ?_, ?_, fun t' => ?_, fun t' steps scanning => ?_, fun t' message panicked => ?_⟩
  · exact inv.accounts.pop popped others
  · have before := inv.items
    obtain ⟨-, -, rest, -, rfl⟩ := WeightedRoundRobin.popTurn_eq_found turned
    dsimp only [setTask] at counted ⊢
    rw [List.length_append, List.length_singleton]
    omega
  · constructor
    · intro held'
      cases held'
    · rintro ⟨steps, scanning⟩
      exact absurd scanning (not_scanning t' steps)
  · exact absurd scanning (not_scanning t' steps)
  · rw [lookup t'] at panicked
    split_ifs at panicked with same
    · cases panicked
    · exact inv.panics t' message panicked

theorem Invariant.moves (inv : sys.Invariant) (moves : Moves sys t next) : next.Invariant := by
  cases moves with
  | pushFailed at_t failed => exact inv.pushFailed at_t failed
  | pushBack at_t pushed => exact inv.pushBack at_t pushed
  | addPermits at_t => exact inv.addPermits at_t
  | acquire at_t acquired => exact inv.acquire at_t acquired
  | lock at_t free => exact inv.lock at_t free
  | scanFailed _ _ failed =>
    -- a turn of the scan never fails
    obtain ⟨turn, turned⟩ := inv.wellFormed.popTurn_ok
    rw [turned] at failed
    cases failed
  | advance at_t held turned => exact inv.advance at_t held turned
  | found at_t held turned => exact inv.found at_t held turned

theorem Invariant.call (inv : sys.Invariant) {task : Task ι κ} (waiting : task.inFlight = false)
    (quiet : ∀ advances, task ≠ .scanning advances) (no_panic : ∀ message, task ≠ .panicked message) :
    (sys.call task).Invariant := by
  refine ⟨inv.wellFormed, inv.accounts, ?_, fun t' => ?_, fun t' advances scanning => ?_,
    fun t' message panicked => ?_⟩
  · have before := inv.items
    show sys.enqueued.length = sys.rr.total + sys.returned.length + (sys.tasks ++ [task]).countP Task.inFlight
    rw [List.countP_append, List.countP_singleton, waiting, if_neg Bool.false_ne_true]
    omega
  · constructor
    · intro held
      obtain ⟨advances, scanning⟩ := (inv.holder t').mp held
      refine ⟨advances, ?_⟩
      show (sys.tasks ++ [task])[t']? = _
      rw [List.getElem?_append_left (List.getElem?_eq_some_iff.mp scanning).1, scanning]
    · rintro ⟨advances, scanning⟩
      rcases getElem?_call scanning with before | ⟨-, same⟩
      · exact (inv.holder t').mpr ⟨advances, before⟩
      · exact absurd same.symm (quiet advances)
  · rcases getElem?_call scanning with before | ⟨-, same⟩
    · exact inv.progress t' advances before
    · exact absurd same.symm (quiet advances)
  · rcases getElem?_call panicked with before | ⟨-, same⟩
    · exact inv.panics t' message before
    · exact absurd same.symm (no_panic message)

theorem Invariant.step (inv : sys.Invariant) (step : Step sys next) : next.Invariant := by
  cases step with
  | push item queue => exact inv.call rfl (fun _ => nofun) (fun _ => nofun)
  | pop => exact inv.call rfl (fun _ => nofun) (fun _ => nofun)
  | run t ran => exact inv.moves (moves_of_runTask ran)

theorem invariant_init {weights : List (κ × ℕ+)} {rr : WeightedRoundRobin ι κ}
    (built : WeightedRoundRobin.new weights = some rr) : (init rr).Invariant := by
  obtain ⟨wellFormed, total, empty⟩ := WeightedRoundRobin.new_eq_some built
  refine ⟨wellFormed, fun key => ?_, ?_, fun t => ?_, fun t _ scanning => ?_, fun t _ panicked => ?_⟩
  · show [] ++ rr.queued key = []
    rw [empty key]
    rfl
  · show 0 = rr.total + 0 + 0
    rw [total]
  · exact ⟨nofun, fun ⟨_, scanning⟩ => nomatch scanning⟩
  · exact nomatch scanning
  · exact nomatch panicked

theorem Reachable.invariant {weights : List (κ × ℕ+)} (reachable : Reachable weights sys) : sys.Invariant := by
  induction reachable with
  | init built => exact invariant_init built
  | step _ step inv => exact inv.step step

/-! ### What a step does to the scheduler -/

/-- A step leaves the iteration state and the returned items as they were and only adds to
queues, or turns the loop of a pop once. -/
theorem Step.effect (step : Step sys next) :
    (next.rr.state = sys.rr.state ∧ next.rr.slots = sys.rr.slots ∧ next.returned = sys.returned ∧
        ∀ key, sys.rr.queued key ≠ [] → next.rr.queued key ≠ []) ∨
      (sys.rr.popTurn = .ok (.advance next.rr) ∧ next.returned = sys.returned) ∨
      ∃ item key, sys.rr.popTurn = .ok (.found item key next.rr) ∧
        next.returned = sys.returned ++ [(key, item)] := by
  cases step with
  | push => exact .inl ⟨rfl, rfl, rfl, fun _ holds => holds⟩
  | pop => exact .inl ⟨rfl, rfl, rfl, fun _ holds => holds⟩
  | run t ran =>
    cases moves_of_runTask ran with
    | pushFailed => exact .inl ⟨rfl, rfl, rfl, fun _ holds => holds⟩
    | pushBack _ pushed =>
      obtain ⟨state, slots, -⟩ := WeightedRoundRobin.pushBack_frame pushed
      refine .inl ⟨state, slots, rfl, fun key holds => ?_⟩
      rw [WeightedRoundRobin.queued_pushBack pushed key]
      split_ifs
      · exact List.append_ne_nil_of_right_ne_nil _ (List.cons_ne_nil _ _)
      · exact holds
    | addPermits => exact .inl ⟨rfl, rfl, rfl, fun _ holds => holds⟩
    | acquire _ acquired =>
      obtain ⟨-, rfl⟩ := WeightedRoundRobin.acquire_eq_some acquired
      exact .inl ⟨rfl, rfl, rfl, fun _ holds => holds⟩
    | lock => exact .inl ⟨rfl, rfl, rfl, fun _ holds => holds⟩
    | scanFailed => exact .inl ⟨rfl, rfl, rfl, fun _ holds => holds⟩
    | advance _ _ turned => exact .inr (.inl ⟨turned, rfl⟩)
    | found _ _ turned => exact .inr (.inr ⟨_, _, turned, rfl⟩)

theorem Step.slots_eq (step : Step sys next) : next.rr.slots = sys.rr.slots := by
  rcases step.effect with ⟨-, slots, -⟩ | ⟨turned, -⟩ | ⟨item, key, turned, -⟩
  · exact slots
  · obtain ⟨-, slot, -, same⟩ := WeightedRoundRobin.popTurn_eq_advance turned
    rw [same]
  · obtain ⟨-, -, rest, -, same⟩ := WeightedRoundRobin.popTurn_eq_found turned
    rw [same]

/-! ### A pop that holds the lock -/

/-- The lock holder's next turn is enabled and cannot panic: it advances, within a cycle, or
returns an item. -/
theorem Invariant.scan (inv : sys.Invariant) {advances : Nat} (at_t : sys.tasks[t]? = some (.scanning advances)) :
    advances ≤ sys.rr.slots.length ∧ ∃ next, sys.runTask t = some next ∧
      ((advances < sys.rr.slots.length ∧ next.tasks[t]? = some (.scanning (advances + 1))) ∨
        ∃ item key, next.tasks[t]? = some (.returned item key) ∧ next.returned = sys.returned ++ [(key, item)]) := by
  have held := (inv.holder t).mpr ⟨advances, at_t⟩
  obtain ⟨j, within, ready⟩ := inv.progress t advances at_t
  obtain ⟨turn, turned⟩ := inv.wellFormed.popTurn_ok
  refine ⟨by omega, ?_⟩
  cases turn with
  | advance rr =>
    have moved : 0 < j := by
      cases j with
      | zero => exact absurd ready (WeightedRoundRobin.not_readyAt_zero_of_advance turned)
      | succ j => exact Nat.succ_pos j
    have ran : sys.runTask t = some { sys.setTask t (.scanning (advances + 1)) with rr := rr } := by
      simp only [runTask, at_t, held, if_true, turned]
    refine ⟨_, ran, .inl ⟨by omega, ?_⟩⟩
    rw [getElem?_setTask at_t, if_pos rfl]
  | found item key rr =>
    have ran : sys.runTask t = some { sys.setTask t (.returned item key) with
        rr := rr, holder := none, returned := sys.returned ++ [(key, item)] } := by
      simp only [runTask, at_t, held, if_true, turned]
    refine ⟨_, ran, .inr ⟨item, key, ?_, rfl⟩⟩
    rw [getElem?_setTask at_t, if_pos rfl]

end System

end RoundRobin
