import Kosio.Runtime.Scheduler.Idle
import Kosio.Runtime.Scheduler.LocalQueue

/-!
# `Worker` and `Shared`

The run loop of every worker, and `schedule_remote` from any other thread, on
top of the queues of `WorkStealing`.  A worker's place in the loop is a `Pc`;
each access to the queues, to the idle word and each section under the mutex of
`Idle` is one step.  Nothing has been closed.

`wake_up` only makes `Driver::wait` return, which here it may do at any time.
The flag `published` in a `Pc` is a ghost: the call in progress has put tasks
into the global queue and has not yet come to its wake-up check.
-/

namespace Kosio.Runtime.MultiThread

/-! ## Algorithm -/

/-- Where a thread is in `worker_to_notify`. -/
inductive Notify where
  | check
  /-- the mutex is to be taken -/
  | recheck
  /-- the mutex is held -/
  | wake
  deriving DecidableEq

/-- Where a worker goes on after a wake-up check. -/
inductive After where
  /-- a task is running -/
  | task
  /-- `poll` in `maintenance` -/
  | nextTask
  /-- `poll` in the loop -/
  | loop
  /-- `sleep` -/
  | wait
  deriving DecidableEq

/-- Where `next_remote_task` is called. -/
inductive Remote where
  | interval
  | noRoom
  | steal
  deriving DecidableEq

inductive Pc (n : Nat) (T : Type) where
  /-- the head of the loop -/
  | loop
  /-- `Driver::poll`, or `wait`: completions and timers are to arrive -/
  | arrive (k : After)
  /-- they are pushed -/
  | deliver (k : After) (tasks : List T) (published : Bool)
  | delivering (k : After) (tasks : List T) (published : Bool)
  /-- `should_notify_others` -/
  | notifyHead (k : After) (published : Bool)
  | notifyTail (k : After) (published : Bool) (head : U32)
  /-- `wake_up_one` -/
  | wakeUpOne (stage : Notify) (k : After)
  /-- `next_task` -/
  | nextTask
  | remoteEmpty (k : Remote)
  | remotePop (k : Remote)
  | popping (interval : Bool)
  | globalEmpty
  | remaining
  | globalSize (n : Nat)
  | popN (n : Nat)
  | pushBatch
  /-- `steal_task` -/
  | toSearching
  | incSearching
  | fastrand
  | steal (start : Fin n) (i : Nat)
  | stealing (start : Fin n) (i : Nat)
  /-- `run_task` -/
  | runTask
  | task
  /-- `schedule_local` -/
  | scheduleLocal (task : T) (published : Bool)
  /-- `transition_to_sleeping` -/
  | sleepHead
  | sleepTail (head : U32)
  | toSleeping
  /-- `wake_up_if_work_pending`, at worker `i` -/
  | scanHead (i : Nat)
  | scanTail (i : Fin n) (head : U32)
  | scanGlobal
  /-- `transition_from_sleeping` -/
  | wokenHead (published : Bool)
  | wokenTail (published : Bool) (head : U32)
  | remove (published : Bool)
  | contains (published : Bool)
  /-- `push_batch` has thrown -/
  | thrown
  deriving DecidableEq

def After.pc {n : Nat} {T : Type} : After → Pc n T
  | .task => .task
  | .nextTask => .nextTask
  | .loop => .loop
  | .wait => .arrive .wait

/-- After an access of `worker_to_notify`. -/
def After.next {n : Nat} {T : Type} (k : After) : Option Notify → Pc n T
  | some stage => .wakeUpOne stage k
  | none => k.pc

structure Worker (n : Nat) (T : Type) where
  tick : U32 := 0
  lifoSlot : Option T := none
  isSearching : Bool := false
  pc : Pc n T := .loop

structure Idle (n : Nat) (R : Type) where
  state : IdleState
  sleepingWorkers : Finset (Fin n) := ∅
  mutex : Option (Fin n ⊕ R) := none

structure State (n : Nat) (R T : Type) where
  queues : WorkStealing.State (Fin n) T
  idle : Idle n R
  worker : Fin n → Worker n T
  /-- where another thread is in the wake-up check of its `schedule_remote` -/
  remote : R → Option Notify

variable {n : Nat} {R T : Type}

def init [Inhabited T] : State n R T where
  queues := WorkStealing.init
  idle := { state := .init n }
  worker := fun _ => {}
  remote := fun _ => none

namespace Idle

variable (idle : Idle n R)

def notifyShouldWakeup : Bool := idle.state.numSearching == 0 && idle.state.numWorking < n

/-- The next access of `worker_to_notify`.  `first` is what `begin()` gives. -/
def workerToNotify (t : Fin n ⊕ R) (first : Fin n) : Notify → Option (Idle n R × Option Notify)
  | .check => some (idle, if idle.notifyShouldWakeup then some .recheck else none)
  | .recheck =>
    if idle.mutex.isSome then none
    else if idle.notifyShouldWakeup then some ({ idle with mutex := some t }, some .wake)
    else some (idle, none)
  | .wake =>
    if first ∈ idle.sleepingWorkers then
      some (⟨idle.state.wakeUpOne 1, idle.sleepingWorkers.erase first, none⟩, none)
    else none

/-- Also whether `worker` was the final searching worker. -/
def transitionWorkerToSleeping (worker : Fin n) (isSearching : Bool) : Idle n R × Bool :=
  let (state, result) := idle.state.decNumWorking isSearching
  ({ idle with state, sleepingWorkers := insert worker idle.sleepingWorkers }, result)

/-- Also whether `worker` was in the set. -/
def remove (worker : Fin n) : Idle n R × Bool :=
  if worker ∈ idle.sleepingWorkers then
    ({ idle with
      state := idle.state.wakeUpOne 0
      sleepingWorkers := idle.sleepingWorkers.erase worker }, true)
  else (idle, false)

end Idle

def setWorker (s : State n R T) (w : Fin n) (r : Worker n T) : State n R T :=
  { s with worker := Function.update s.worker w r }

def goTo (s : State n R T) (w : Fin n) (p : Pc n T) : State n R T :=
  setWorker s w { s.worker w with pc := p }

/-- A queue call by `w` starts. -/
def startCall (s : State n R T) (w : Fin n) (a : WorkStealing.Act (Fin n) T) (p : Pc n T) :
    Option (State n R T) :=
  (WorkStealing.step s.queues a).map fun queues => goTo { s with queues } w p

/-- The next step of the queue call of `w`, and what happens with what it
returns when that was the last one. -/
def continueCall (s : State n R T) (w : Fin n) (spurious : Bool)
    (k : State n R T → List T → Option (State n R T)) : Option (State n R T) :=
  (WorkStealing.step s.queues (.step w spurious)).bind fun queues =>
    match queues.pc w with
    | .idle => k { s with queues } (queues.returned.drop s.queues.returned.length)
    | _ => some { s with queues }

/-- The same for a push, which may put tasks into the global queue. -/
def continuePush (s : State n R T) (w : Fin n) (spurious published : Bool) (p : Bool → Pc n T)
    (k : State n R T → Bool → State n R T) : Option (State n R T) :=
  (WorkStealing.step s.queues (.step w spurious)).map fun queues =>
    let published := published || queues.global.num != s.queues.global.num
    match queues.pc w with
    | .idle => k { s with queues } published
    | _ => goTo { s with queues } w (p published)

/-- `next_local_task` -/
def nextLocalTask (s : State n R T) (w : Fin n) (interval : Bool) : Option (State n R T) :=
  match (s.worker w).lifoSlot with
  | some _ => some (setWorker s w { s.worker w with lifoSlot := none, pc := .runTask })
  | none => startCall s w (.pop w) (.popping interval)

/-- `next_remote_task` has found nothing. -/
def noRemoteTask (s : State n R T) (w : Fin n) : Remote → Option (State n R T)
  | .interval => nextLocalTask s w true
  | .noRoom => some (goTo s w .toSearching)
  | .steal => some (goTo s w (.arrive .loop))

/-- What `Driver::poll` and `wait` return to. -/
def delivered (s : State n R T) (w : Fin n) (k : After) (published : Bool) : State n R T :=
  match k with
  | .wait => goTo s w (.wokenHead published)
  | _ => if (s.worker w).isSearching then goTo s w k.pc else goTo s w (.notifyHead k published)

/-- One step of worker `w`. -/
def stepPc (config : Config) (s : State n R T) (w : Fin n) (spurious : Bool) :
    Option (State n R T) :=
  let r := s.worker w
  let q := s.queues.queue w
  let global := s.queues.global
  match r.pc with
  | .loop =>
    let tick := r.tick + 1
    some (setWorker s w { r with
      tick, pc := if tick.toNat % config.ioInterval = 0 then .arrive .nextTask else .nextTask })
  | .arrive _ => none
  | .deliver k [] published => some (delivered s w k published)
  | .deliver k (task :: tasks) published =>
    startCall s w (.pushBackOrOverflow w task) (.delivering k tasks published)
  | .delivering k tasks published =>
    continuePush s w spurious published (.delivering k tasks) fun s published =>
      goTo s w (.deliver k tasks published)
  | .notifyHead k published => some (goTo s w (.notifyTail k published (unpack q.head).2))
  | .notifyTail k _ head =>
    some (goTo s w (if (q.tail - head).toNat > 1 then .wakeUpOne .check k else k.pc))
  | .wakeUpOne _ _ => none
  | .nextTask =>
    if r.tick.toNat % config.globalQueueInterval = 0 then some (goTo s w (.remoteEmpty .interval))
    else nextLocalTask s w false
  | .remoteEmpty k => if global.num = 0 then noRemoteTask s w k else some (goTo s w (.remotePop k))
  | .remotePop k =>
    (WorkStealing.step s.queues .globalPop).bind fun queues =>
      let s := { s with queues }
      match global.pop.1 with
      | some _ => some (goTo s w .runTask)
      | none => noRemoteTask s w k
  | .popping interval =>
    continueCall s w spurious fun s result =>
      match result with
      | [] => some (goTo s w (if interval then .toSearching else .globalEmpty))
      | _ => some (goTo s w .runTask)
  | .globalEmpty =>
    if global.num = 0 then some (goTo s w .toSearching)
    else startCall s w (.remainingSlots w) .remaining
  | .remaining =>
    let slots := match s.queues.pc w with
      | .remTail steal => localQueueCapacity - (q.tail - steal).toNat
      | _ => 0
    continueCall s w spurious fun s _ =>
      let n := min slots (localQueueCapacity / 2)
      some (goTo s w (if n = 0 then .remoteEmpty .noRoom else .globalSize n))
  | .globalSize m => some (goTo s w (.popN (min (global.num / n + 1) m)))
  | .popN m =>
    (WorkStealing.step s.queues (.globalPopN m)).bind fun queues =>
      let s := { s with queues }
      match (global.popN m).1 with
      | [] => some (goTo s w .toSearching)
      | [_] => some (goTo s w .runTask)
      | _ :: tasks => startCall s w (.pushBatch w tasks) .pushBatch
  | .pushBatch =>
    continueCall s w spurious fun s result =>
      match result with
      | [] => some (goTo s w .runTask)
      | _ => some (goTo s w .thrown)
  | .toSearching =>
    if r.isSearching then some (goTo s w .fastrand)
    else if 2 * s.idle.state.numSearching ≥ n then some (goTo s w (.arrive .loop))
    else some (goTo s w .incSearching)
  | .incSearching =>
    let state := s.idle.state.incNumSearching
    some (setWorker { s with idle := { s.idle with state } } w
      { r with isSearching := true, pc := .fastrand })
  | .fastrand => none
  | .steal start i =>
    if i < n then
      let idx : Fin n := ⟨(start.val + i) % n, Nat.mod_lt _ start.pos⟩
      if idx = w then some (goTo s w (.steal start (i + 1)))
      else startCall s w (.stealInto idx w) (.stealing start i)
    else some (goTo s w (.remoteEmpty .steal))
  | .stealing start i =>
    continueCall s w spurious fun s result =>
      match result with
      | [] => some (goTo s w (.steal start (i + 1)))
      | _ => some (goTo s w .runTask)
  | .runTask =>
    if r.isSearching then
      let (state, last) := s.idle.state.decNumSearching
      some (setWorker { s with idle := { s.idle with state } } w
        { r with isSearching := false, pc := if last then .wakeUpOne .check .task else .task })
    else some (goTo s w .task)
  | .task => none
  | .scheduleLocal task published =>
    continuePush s w spurious published (.scheduleLocal task) fun s _ =>
      setWorker s w { s.worker w with lifoSlot := some task, pc := .wakeUpOne .check .task }
  | .sleepHead =>
    some (goTo s w (if r.lifoSlot.isSome then .loop else .sleepTail (unpack q.head).2))
  | .sleepTail head => some (goTo s w (if q.tail - head = 0 then .toSleeping else .loop))
  | .toSleeping =>
    if s.idle.mutex.isSome then none
    else
      let (idle, last) := s.idle.transitionWorkerToSleeping w r.isSearching
      some (setWorker { s with idle } w
        { r with isSearching := false, pc := if last then .scanHead 0 else .arrive .wait })
  | .scanHead i =>
    some (goTo s w (if h : i < n then .scanTail ⟨i, h⟩ (unpack (s.queues.queue ⟨i, h⟩).head).2
      else .scanGlobal))
  | .scanTail i head =>
    -- `worker->wake_up()` for the worker whose queue is not empty
    some (goTo s w (if (s.queues.queue i).tail - head = 0 then .scanHead (i + 1)
      else .arrive .wait))
  | .scanGlobal => some (goTo s w (if global.num = 0 then .arrive .wait else .wakeUpOne .check .wait))
  | .wokenHead published =>
    some (goTo s w (if r.lifoSlot.isSome then .remove published
      else .wokenTail published (unpack q.head).2))
  | .wokenTail published head =>
    some (goTo s w (if q.tail - head = 0 then .contains published else .remove published))
  | .remove _ =>
    if s.idle.mutex.isSome then none
    else
      let (idle, removed) := s.idle.remove w
      some (setWorker { s with idle } w { r with isSearching := !removed, pc := .loop })
  | .contains _ =>
    if s.idle.mutex.isSome then none
    else if w ∈ s.idle.sleepingWorkers then some (goTo s w (.arrive .wait))
    else some (setWorker s w { r with isSearching := true, pc := .loop })
  | .thrown => none

inductive Act (n : Nat) (R T : Type) where
  /-- the next step of `w`; a CAS fails if `spurious` -/
  | step (w : Fin n) (spurious : Bool)
  /-- the driver of `w` has `count` completions and expired timers, which resume `tasks` -/
  | arrive (w : Fin n) (tasks : List T) (count : Nat)
  /-- stealing starts from worker `start` -/
  | fastrand (w start : Fin n)
  /-- the next step of `w` in `wake_up_one` -/
  | wakeUpOne (w first : Fin n)
  /-- what the running task of `w` does -/
  | scheduleLocal (w : Fin n) (task : T)
  | scheduleRemote (w : Fin n) (tasks : List T)
  | suspend (w : Fin n)
  /-- `schedule_remote`, or `schedule_remote_batch`, by another thread -/
  | remote (r : R) (tasks : List T)
  | remoteWakeUpOne (r : R) (first : Fin n)

/-- A push to the global queue. -/
def scheduleRemote (s : State n R T) (tasks : List T) : Option (State n R T) :=
  (WorkStealing.step s.queues (.globalPushBatch tasks)).map fun queues => { s with queues }

def step [DecidableEq R] (config : Config) (s : State n R T) : Act n R T → Option (State n R T)
  | .step w spurious => stepPc config s w spurious
  | .arrive w tasks count =>
    match (s.worker w).pc with
    | .arrive k =>
      if count < tasks.length then none
      else if count = 0 then
        some (goTo s w (match k with
          | .wait => .wokenHead false
          | .loop => .sleepHead
          | _ => .nextTask))
      else some (goTo s w (.deliver k tasks false))
    | _ => none
  | .fastrand w start =>
    match (s.worker w).pc with
    | .fastrand => some (goTo s w (.steal start 0))
    | _ => none
  | .wakeUpOne w first =>
    match (s.worker w).pc with
    | .wakeUpOne stage k =>
      (s.idle.workerToNotify (.inl w) first stage).map fun (idle, next) =>
        goTo { s with idle } w (k.next next)
    | _ => none
  | .scheduleLocal w task =>
    match (s.worker w).pc with
    | .task =>
      match (s.worker w).lifoSlot with
      | some old => startCall s w (.pushBackOrOverflow w old) (.scheduleLocal task false)
      | none => some (setWorker s w { s.worker w with lifoSlot := some task })
    | _ => none
  | .scheduleRemote w tasks =>
    match (s.worker w).pc with
    | .task => (scheduleRemote s tasks).map fun s => goTo s w (.wakeUpOne .check .task)
    | _ => none
  | .suspend w =>
    match (s.worker w).pc with
    | .task => some (goTo s w .loop)
    | _ => none
  | .remote r tasks =>
    match s.remote r with
    | none =>
      (scheduleRemote s tasks).map fun s =>
        { s with remote := Function.update s.remote r (some .check) }
    | some _ => none
  | .remoteWakeUpOne r first =>
    match s.remote r with
    | some stage =>
      (s.idle.workerToNotify (.inr r) first stage).map fun (idle, next) =>
        { s with idle, remote := Function.update s.remote r next }
    | none => none

end Kosio.Runtime.MultiThread
