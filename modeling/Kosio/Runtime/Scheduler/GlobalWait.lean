import Kosio.Lib.Service
import Kosio.Runtime.Scheduler.QueueSteps

/-!
# The multi-threaded scheduler: waiting in the global queue

A worker with local work may never find its own queue empty, so every
`global_queue_interval` turns `next_task` looks into the global queue first.  Whatever the
others do, each look takes the oldest task there is: a task with `p` others before it has
left the global queue when some worker has called `next_task` more than
`(p + 1) * global_queue_interval` times (`global_served`).

Other workers only take from the front and other threads only add at the end
(`step_fifo`), so no step makes the wait longer; the turns of the worker are counted by
`globalDue`.
-/

namespace Kosio.Runtime

open Steps

/-! ## Queue steps -/

namespace WorkStealing

variable {W T : Type}

/-- What a step puts into the global queue: nothing once that is closed. -/
def pushed (s : State W T) (a : Act W T) : List T :=
  if s.global.isClosed then []
  else
    match a with
    | .step w _ =>
      match s.pc w with
      | .pushGlobal task => [task]
      | .overflowRead task _ tasks =>
        if tasks.length < localQueueCapacity / 2 then [] else tasks ++ [task]
      | _ => []
    | .globalPush task => [task]
    | .globalPushBatch tasks => tasks
    | _ => []

/-- What a step takes out of it. -/
def popped (s : State W T) : Act W T → List T
  | .globalPop => s.global.pop.1.toList
  | .globalPopN n => (s.global.popN n).1
  | _ => []

theorem pushBatch_tasks (g : GlobalQueue T) (tasks : List T) (n : Nat) :
    (g.pushBatch tasks n).tasks = g.tasks ++ if g.isClosed then [] else tasks := by
  unfold GlobalQueue.pushBatch
  split
  · exact (List.append_nil _).symm
  · rfl

variable [DecidableEq W] {s t : State W T} {w : W}

theorem stepPc_fifo {b : Bool} (hs : stepPc s w b = some t) :
    t.global.tasks = s.global.tasks ++ pushed s (.step w b) := by
  unfold stepPc at hs
  unfold pushed
  cases hpc : s.pc w
  case pushGlobal task =>
    simp only [hpc] at hs ⊢
    cases hs
    exact pushBatch_tasks ..
  case overflowRead task head tasks =>
    simp only [hpc] at hs ⊢
    split at hs
    · next hlt =>
      cases hs
      rw [if_pos hlt, ite_self, List.append_nil]
      rfl
    · next hlt =>
      cases hs
      rw [if_neg hlt]
      exact pushBatch_tasks ..
  all_goals
    simp only [hpc] at hs ⊢
    rw [ite_self, List.append_nil]
    repeat' split at hs
  all_goals
    cases hs
    try rfl

/-- The global queue is first in, first out. -/
theorem step_fifo {a : Act W T} (hs : step s a = some t) :
    s.global.tasks ++ pushed s a = popped s a ++ t.global.tasks := by
  have hstarts : ∀ {p}, a.starts = some p → pushed s a = [] → popped s a = [] →
      s.global.tasks ++ pushed s a = popped s a ++ t.global.tasks := by
    intro p ha h1 h2
    rw [h1, h2, (step_starts ha hs).2, List.append_nil, List.nil_append]
  cases a with
  | step v b => exact (stepPc_fifo hs).symm
  | globalPush task | globalPushBatch tasks =>
    cases hs
    exact (pushBatch_tasks ..).symm
  | globalPop =>
    cases hs
    rw [show pushed s .globalPop = [] from ite_self _, List.append_nil]
    show s.global.tasks = s.global.pop.1.toList ++ s.global.pop.2.tasks
    unfold GlobalQueue.pop
    cases hg : s.global.tasks with
    | nil => exact hg.symm
    | cons task rest => rfl
  | globalPopN m =>
    cases hs
    rw [show pushed s (.globalPopN m) = [] from ite_self _, List.append_nil]
    exact (List.take_append_drop ..).symm
  | globalClose =>
    cases hs
    rw [show pushed s .globalClose = [] from ite_self _, List.append_nil]
    rfl
  | remainingSlots v | pushBatch v tasks | pushBackOrOverflow v task | pop v | stealInto src v =>
    exact hstarts rfl (ite_self _) rfl

end WorkStealing

/-! ## The worker's turns -/

namespace MultiThread

variable {n : Nat} {R T : Type} {s t : State n R T} {w : Fin n} {b : Bool} {config : Config}

/-- Where a worker is in a turn: before `tick`, between it and `next_task`, where
`next_task` looks into the global queue first, or where no worker ever is. -/
inductive Phase where
  | before | ticked | looking | nowhere
deriving DecidableEq

def After.phase : After → Phase
  | .nextTask => .ticked
  | _ => .before

def Pc.phase : Pc n T → Phase
  | .arrive .task => .nowhere
  | .arrive k | .deliver k _ _ | .delivering k _ _ | .notifyHead k _ | .notifyTail k _ _
  | .wakeUpOne _ k => k.phase
  | .nextTask => .ticked
  | .remoteEmpty .interval | .remotePop .interval => .looking
  | _ => .before

/-- A call of `next_task` by `w`. -/
def calls (w : Fin n) (s : State n R T) : Act n R T → List Unit
  | .step v _ =>
    match (s.worker v).pc with
    | .nextTask => if v = w then [()] else []
    | _ => []
  | _ => []

/-- The calls of `next_task` up to the next one that looks there first. -/
def globalDue (config : Config) (r : Worker n T) : Nat :=
  let passed := r.tick.toNat % config.globalQueueInterval
  match r.pc.phase with
  | .before => config.globalQueueInterval - passed
  | .ticked => if passed = 0 then 1 else config.globalQueueInterval - passed + 1
  | .looking => 0
  | .nowhere => config.globalQueueInterval

theorem globalDue_le {config : Config} (hpos : 0 < config.globalQueueInterval) (r : Worker n T) :
    globalDue config r ≤ config.globalQueueInterval := by
  have hlt := Nat.mod_lt r.tick.toNat hpos
  unfold globalDue
  simp only
  split
  · omega
  · split
    · omega
    · omega
  · omega
  · omega

/-- What the worker's own step leaves of its turn. -/
structure InTurn (s t : State n R T) (w : Fin n) : Prop where
  tick : (t.worker w).tick = (s.worker w).tick
  phase : (t.worker w).pc.phase = (s.worker w).pc.phase

theorem InTurn.due (h : InTurn s t w) :
    globalDue config (t.worker w) = globalDue config (s.worker w) := by
  rw [globalDue, globalDue, h.tick, h.phase]

theorem inTurn_of {r : Worker n T} (hw : t.worker = Function.update s.worker w r)
    (ht : r.tick = (s.worker w).tick) (hp : r.pc.phase = (s.worker w).pc.phase) :
    InTurn s t w := by
  constructor
  · rw [hw, Function.update_self, ht]
  · rw [hw, Function.update_self, hp]

theorem phase_ite {c : Prop} [Decidable c] {p p' : Pc n T} {x : Phase} (hp : p.phase = x)
    (hp' : p'.phase = x) : (if c then p else p').phase = x := by
  split
  · exact hp
  · exact hp'

theorem After.pc_phase (k : After) : (k.pc : Pc n T).phase = k.phase := by
  cases k with
  | task => rfl
  | nextTask => rfl
  | loop => rfl
  | wait => rfl

theorem inTurn_startCall {a : WorkStealing.Act (Fin n) T} {p : Pc n T}
    (hp : p.phase = (s.worker w).pc.phase) (hs : startCall s w a p = some t) : InTurn s t w := by
  obtain ⟨q, -, rfl⟩ := Option.map_eq_some_iff.1 hs
  exact inTurn_of rfl rfl hp

theorem inTurn_continueCall {k : State n R T → List T → Option (State n R T)}
    (hk : ∀ q tasks, k { s with queues := q } tasks = some t → ∃ r : Worker n T,
      t = setWorker { s with queues := q } w r ∧ r.tick = (s.worker w).tick ∧
        r.pc.phase = (s.worker w).pc.phase)
    (hs : continueCall s w b k = some t) : InTurn s t w := by
  obtain ⟨q, -, hs⟩ := Option.bind_eq_some_iff.1 hs
  split at hs
  · obtain ⟨r, rfl, ht, hp⟩ := hk q _ hs
    exact inTurn_of rfl ht hp
  · cases hs
    exact ⟨rfl, rfl⟩

theorem inTurn_continuePush {published : Bool} {p : Bool → Pc n T}
    {k : State n R T → Bool → State n R T}
    (hp : ∀ published, (p published).phase = (s.worker w).pc.phase)
    (hk : ∀ q published, ∃ r : Worker n T,
      k { s with queues := q } published = setWorker { s with queues := q } w r ∧
        r.tick = (s.worker w).tick ∧ r.pc.phase = (s.worker w).pc.phase)
    (hs : continuePush s w b published p k = some t) : InTurn s t w := by
  obtain ⟨q, -, rfl⟩ := Option.map_eq_some_iff.1 hs
  dsimp only
  split
  · obtain ⟨r, hr, ht, hp⟩ := hk q (published || q.global.num != s.queues.global.num)
    rw [hr]
    exact inTurn_of rfl ht hp
  · exact inTurn_of rfl rfl (hp _)

theorem inTurn_delivered {k : After} {published : Bool}
    (hpc : (s.worker w).pc = .deliver k [] published) :
    InTurn s (delivered s w k published) w := by
  unfold delivered
  cases k with
  | wait => exact inTurn_of rfl rfl (by rw [hpc]; rfl)
  | task | nextTask | loop =>
    dsimp only
    split
    · exact inTurn_of rfl rfl (by rw [hpc]; rfl)
    · exact inTurn_of rfl rfl (by rw [hpc]; rfl)

/-- The places where a turn goes on to the next phase. -/
def Pc.turns : Pc n T → Bool
  | .loop | .nextTask | .remoteEmpty .interval | .remotePop .interval => true
  | _ => false

theorem inTurn_noRemoteTask {k : Remote} (hk : k ≠ .interval)
    (hp : (s.worker w).pc.phase = .before) (hs : noRemoteTask s w k = some t) : InTurn s t w := by
  cases k with
  | interval => exact absurd rfl hk
  | noRoom =>
    cases hs
    exact inTurn_of rfl rfl hp.symm
  | steal =>
    cases hs
    exact inTurn_of rfl rfl hp.symm

theorem stepPc_inTurn (hturns : (s.worker w).pc.turns = false)
    (hs : stepPc config s w b = some t) : InTurn s t w := by
  unfold stepPc at hs
  cases hpc : (s.worker w).pc with
  | loop | nextTask =>
    rw [hpc] at hturns
    cases hturns
  | arrive k | wakeUpOne stage k | fastrand | task | thrown =>
    simp only [hpc] at hs
    cases hs
  | deliver k tasks published =>
    cases tasks with
    | nil =>
      simp only [hpc] at hs
      cases hs
      exact inTurn_delivered hpc
    | cons task tasks =>
      simp only [hpc] at hs
      exact inTurn_startCall (by rw [hpc]; rfl) hs
  | delivering k tasks published =>
    simp only [hpc] at hs
    refine inTurn_continuePush (fun _ => ?_) (fun q published => ⟨_, rfl, ?_, ?_⟩) hs
    · rw [hpc]
      rfl
    · rfl
    · rw [hpc]
      rfl
  | scheduleLocal task published =>
    simp only [hpc] at hs
    refine inTurn_continuePush (fun _ => ?_) (fun q published => ⟨_, rfl, ?_, ?_⟩) hs
    · rw [hpc]
      rfl
    · rfl
    · rw [hpc]
      rfl
  | notifyHead k published =>
    simp only [hpc] at hs
    cases hs
    exact inTurn_of rfl rfl (by rw [hpc]; rfl)
  | notifyTail k published head =>
    simp only [hpc] at hs
    cases hs
    exact inTurn_of rfl rfl (by rw [hpc]; exact phase_ite rfl k.pc_phase)
  | remoteEmpty k =>
    have hk : k ≠ .interval := by
      rintro rfl
      rw [hpc] at hturns
      cases hturns
    have hbefore : (s.worker w).pc.phase = .before := by
      rw [hpc]
      cases k with
      | interval => exact absurd rfl hk
      | noRoom => rfl
      | steal => rfl
    simp only [hpc] at hs
    split at hs
    · exact inTurn_noRemoteTask hk hbefore hs
    · cases hs
      refine inTurn_of rfl rfl ?_
      rw [hbefore]
      cases k with
      | interval => exact absurd rfl hk
      | noRoom => rfl
      | steal => rfl
  | remotePop k =>
    have hk : k ≠ .interval := by
      rintro rfl
      rw [hpc] at hturns
      cases hturns
    have hbefore : (s.worker w).pc.phase = .before := by
      rw [hpc]
      cases k with
      | interval => exact absurd rfl hk
      | noRoom => rfl
      | steal => rfl
    simp only [hpc] at hs
    obtain ⟨q, -, hs⟩ := Option.bind_eq_some_iff.1 hs
    split at hs
    · cases hs
      exact inTurn_of rfl rfl hbefore.symm
    · obtain ⟨h1, h2⟩ := inTurn_noRemoteTask (s := { s with queues := q }) hk hbefore hs
      exact ⟨h1, h2⟩
  | popping interval =>
    simp only [hpc] at hs
    refine inTurn_continueCall (fun q tasks hk => ?_) hs
    split at hk
    · cases hk
      exact ⟨_, rfl, rfl, by rw [hpc]; exact phase_ite rfl rfl⟩
    · cases hk
      exact ⟨_, rfl, rfl, by rw [hpc]; rfl⟩
  | globalEmpty =>
    simp only [hpc] at hs
    split at hs
    · cases hs
      exact inTurn_of rfl rfl (by rw [hpc]; rfl)
    · exact inTurn_startCall (by rw [hpc]; rfl) hs
  | remaining =>
    simp only [hpc] at hs
    refine inTurn_continueCall (fun q tasks hk => ?_) hs
    cases hk
    exact ⟨_, rfl, rfl, by rw [hpc]; exact phase_ite rfl rfl⟩
  | globalSize m =>
    simp only [hpc] at hs
    cases hs
    exact inTurn_of rfl rfl (by rw [hpc]; rfl)
  | popN m =>
    simp only [hpc] at hs
    obtain ⟨q, -, hs⟩ := Option.bind_eq_some_iff.1 hs
    split at hs
    · cases hs
      exact inTurn_of rfl rfl (by rw [hpc]; rfl)
    · cases hs
      exact inTurn_of rfl rfl (by rw [hpc]; rfl)
    · have hpc' : Pc.phase (.pushBatch : Pc n T) = ({ s with queues := q }.worker w).pc.phase := by
        show _ = (s.worker w).pc.phase
        rw [hpc]
        rfl
      obtain ⟨h1, h2⟩ := inTurn_startCall (s := { s with queues := q }) hpc' hs
      exact ⟨h1, h2⟩
  | pushBatch =>
    simp only [hpc] at hs
    refine inTurn_continueCall (fun q tasks hk => ?_) hs
    split at hk
    · cases hk
      exact ⟨_, rfl, rfl, by rw [hpc]; rfl⟩
    · cases hk
      exact ⟨_, rfl, rfl, by rw [hpc]; rfl⟩
  | toSearching =>
    simp only [hpc] at hs
    repeat' split at hs
    all_goals
      cases hs
      exact inTurn_of rfl rfl (by rw [hpc]; rfl)
  | incSearching =>
    simp only [hpc] at hs
    cases hs
    exact inTurn_of rfl rfl (by rw [hpc]; rfl)
  | steal start i =>
    simp only [hpc] at hs
    repeat' split at hs
    · cases hs
      exact inTurn_of rfl rfl (by rw [hpc]; rfl)
    · exact inTurn_startCall (by rw [hpc]; rfl) hs
    · cases hs
      exact inTurn_of rfl rfl (by rw [hpc]; rfl)
  | stealing start i =>
    simp only [hpc] at hs
    refine inTurn_continueCall (fun q tasks hk => ?_) hs
    split at hk
    · cases hk
      exact ⟨_, rfl, rfl, by rw [hpc]; rfl⟩
    · cases hk
      exact ⟨_, rfl, rfl, by rw [hpc]; rfl⟩
  | runTask =>
    simp only [hpc] at hs
    split at hs
    · cases hs
      exact inTurn_of rfl rfl (by rw [hpc]; exact phase_ite rfl rfl)
    · cases hs
      exact inTurn_of rfl rfl (by rw [hpc]; rfl)
  | sleepHead | sleepTail head | scanTail i head | scanGlobal | wokenHead published
  | wokenTail published head =>
    simp only [hpc] at hs
    cases hs
    exact inTurn_of rfl rfl (by rw [hpc]; exact phase_ite rfl rfl)
  | toSleeping =>
    simp only [hpc] at hs
    split at hs
    · cases hs
    · cases hs
      exact inTurn_of rfl rfl (by rw [hpc]; exact phase_ite rfl rfl)
  | scanHead i =>
    simp only [hpc] at hs
    cases hs
    refine inTurn_of rfl rfl ?_
    rw [hpc]
    dsimp only
    split
    · rfl
    · rfl
  | remove published =>
    simp only [hpc] at hs
    split at hs
    · cases hs
    · cases hs
      exact inTurn_of rfl rfl (by rw [hpc]; rfl)
  | contains published =>
    simp only [hpc] at hs
    repeat' split at hs
    · cases hs
    · cases hs
      exact inTurn_of rfl rfl (by rw [hpc]; rfl)
    · cases hs
      exact inTurn_of rfl rfl (by rw [hpc]; rfl)

/-! ## The global queue -/

/-- The queue step within a step, of those that may touch the global queue. -/
def queueAct (s : State n R T) : Act n R T → Option (WorkStealing.Act (Fin n) T)
  | .step w b =>
    match (s.worker w).pc with
    | .delivering _ _ _ | .scheduleLocal _ _ | .popping _ | .remaining | .pushBatch
    | .stealing _ _ => some (.step w b)
    | .remotePop _ => some .globalPop
    | .popN m => some (.globalPopN m)
    | _ => none
  | .scheduleRemote _ tasks | .remote _ tasks => some (.globalPushBatch tasks)
  | _ => none

/-- What a step puts into the global queue. -/
def pushed (s : State n R T) (a : Act n R T) : List T :=
  (queueAct s a).elim [] (WorkStealing.pushed s.queues)

/-- What a step takes out of it. -/
def popped (s : State n R T) (a : Act n R T) : List T :=
  (queueAct s a).elim [] (WorkStealing.popped s.queues)

/-- `a` is the only queue step that touches the global queue, if there is one. -/
def ThroughQueue (s t : State n R T) : Option (WorkStealing.Act (Fin n) T) → Prop
  | some a => ∃ q, WorkStealing.step s.queues a = some q ∧ t.queues.global = q.global
  | none => t.queues.global = s.queues.global

theorem startCall_global {a : WorkStealing.Act (Fin n) T} {p : Pc n T}
    {x : Fin n × WorkStealing.Pc (Fin n) T} (ha : a.starts = some x)
    (hs : startCall s w a p = some t) : t.queues.global = s.queues.global := by
  obtain ⟨q, hq, rfl⟩ := Option.map_eq_some_iff.1 hs
  exact (WorkStealing.step_starts ha hq).2

theorem nextLocalTask_before {interval : Bool} (hs : nextLocalTask s w interval = some t) :
    (t.worker w).tick = (s.worker w).tick ∧ (t.worker w).pc.phase = .before ∧
      t.queues.global = s.queues.global := by
  unfold nextLocalTask at hs
  split at hs
  · cases hs
    rw [setWorker_worker_self]
    exact ⟨rfl, rfl, rfl⟩
  · obtain ⟨q, hq, rfl⟩ := Option.map_eq_some_iff.1 hs
    rw [goTo, setWorker_worker_self]
    exact ⟨rfl, rfl, (WorkStealing.step_starts rfl hq).2⟩

theorem noRemoteTask_global {k : Remote} (hs : noRemoteTask s w k = some t) :
    t.queues.global = s.queues.global := by
  cases k with
  | interval => exact (nextLocalTask_before hs).2.2
  | noRoom =>
    cases hs
    rfl
  | steal =>
    cases hs
    rfl

theorem continueCall_global {k : State n R T → List T → Option (State n R T)}
    (hk : ∀ u tasks t, k u tasks = some t → t.queues = u.queues)
    (hs : continueCall s w b k = some t) : ThroughQueue s t (some (.step w b)) := by
  obtain ⟨q, hq, hs⟩ := Option.bind_eq_some_iff.1 hs
  refine ⟨q, hq, ?_⟩
  split at hs
  · rw [hk _ _ _ hs]
  · cases hs
    rfl

theorem continuePush_global {published : Bool} {p : Bool → Pc n T}
    {k : State n R T → Bool → State n R T} (hk : ∀ u published, (k u published).queues = u.queues)
    (hs : continuePush s w b published p k = some t) : ThroughQueue s t (some (.step w b)) := by
  obtain ⟨q, hq, rfl⟩ := Option.map_eq_some_iff.1 hs
  refine ⟨q, hq, ?_⟩
  dsimp only
  split
  · rw [hk]
  · rfl

theorem delivered_global (k : After) (published : Bool) :
    (delivered s w k published).queues = s.queues := by
  unfold delivered
  split
  · rfl
  · split
    · rfl
    · rfl

theorem stepPc_global (hs : stepPc config s w b = some t) :
    ThroughQueue s t (queueAct s (.step w b)) := by
  unfold stepPc at hs
  unfold queueAct
  cases hpc : (s.worker w).pc with
  | deliver k tasks published =>
    cases tasks with
    | nil =>
      simp only [hpc] at hs ⊢
      cases hs
      exact congrArg WorkStealing.State.global (delivered_global k published)
    | cons task tasks =>
      simp only [hpc] at hs ⊢
      exact startCall_global rfl hs
  | delivering k tasks published | scheduleLocal task published =>
    simp only [hpc] at hs ⊢
    refine continuePush_global (fun u published => ?_) hs
    rfl
  | popping interval | pushBatch | stealing start i =>
    simp only [hpc] at hs ⊢
    refine continueCall_global (fun u tasks t hk => ?_) hs
    split at hk
    · cases hk
      rfl
    · cases hk
      rfl
  | remaining =>
    simp only [hpc] at hs ⊢
    refine continueCall_global (fun u tasks t hk => ?_) hs
    cases hk
    rfl
  | nextTask =>
    simp only [hpc] at hs ⊢
    split at hs
    · cases hs
      rfl
    · exact (nextLocalTask_before hs).2.2
  | remoteEmpty k =>
    simp only [hpc] at hs ⊢
    split at hs
    · exact noRemoteTask_global hs
    · cases hs
      rfl
  | remotePop k =>
    simp only [hpc] at hs ⊢
    obtain ⟨q, hq, hs⟩ := Option.bind_eq_some_iff.1 hs
    refine ⟨q, hq, ?_⟩
    split at hs
    · cases hs
      rfl
    · exact noRemoteTask_global hs
  | popN m =>
    simp only [hpc] at hs ⊢
    obtain ⟨q, hq, hs⟩ := Option.bind_eq_some_iff.1 hs
    refine ⟨q, hq, ?_⟩
    split at hs
    · cases hs
      rfl
    · cases hs
      rfl
    · exact startCall_global rfl hs
  | globalEmpty =>
    simp only [hpc] at hs ⊢
    split at hs
    · cases hs
      rfl
    · exact startCall_global rfl hs
  | steal start i =>
    simp only [hpc] at hs ⊢
    split at hs
    · split at hs
      · cases hs
        rfl
      · exact startCall_global rfl hs
    · cases hs
      rfl
  | _ =>
    simp only [hpc] at hs ⊢
    repeat' split at hs
    all_goals
      cases hs
      try rfl

/-! ## Turns and the queue -/

/-- Where the worker calls `next_task`, ticks or looks into the global queue, the next look
comes nearer by as much, and each look takes a task if there is one. -/
theorem turns_due (hpos : 0 < config.globalQueueInterval)
    (hn : s.queues.global.num = s.queues.global.tasks.length)
    (hturns : (s.worker w).pc.turns) (hs : stepPc config s w b = some t) :
    (calls w s (.step w b)).length + globalDue config (t.worker w) ≤
        globalDue config (s.worker w) ∨
      min 1 s.queues.global.tasks.length ≤ (popped s (.step w b)).length ∧
        calls w s (.step w b) = [] := by
  have hlt := Nat.mod_lt (s.worker w).tick.toNat hpos
  unfold stepPc at hs
  cases hpc : (s.worker w).pc with
  | loop =>
    simp only [hpc] at hs
    cases hs
    have hcalls : calls w s (.step w b) = [] := by simp [calls, hpc]
    have hbefore : (s.worker w).pc.phase = .before := by
      rw [hpc]
      rfl
    left
    rw [hcalls, setWorker_worker_self, globalDue, globalDue, hbefore,
      phase_ite (x := .ticked) rfl rfl]
    simp only
    split
    · show 0 + 1 ≤ _
      omega
    · next hne =>
      rw [tick_mod (s.worker w).tick hpos hne, List.length_nil]
      omega
  | nextTask =>
    have hcalls : calls w s (.step w b) = [()] := by simp [calls, hpc]
    have hticked : (s.worker w).pc.phase = .ticked := by
      rw [hpc]
      rfl
    left
    simp only [hpc] at hs
    split at hs
    · next hdue =>
      cases hs
      rw [hcalls, goTo, setWorker_worker_self, globalDue, globalDue, hticked]
      simp only [hdue]
      exact Nat.le_refl 1
    · next hdue =>
      obtain ⟨h1, h2, -⟩ := nextLocalTask_before hs
      rw [hcalls, globalDue, globalDue, hticked, h1, h2]
      simp only
      rw [if_neg hdue]
      show 1 + _ ≤ _
      omega
  | remoteEmpty k =>
    have hk : k = .interval := by
      rw [hpc] at hturns
      cases k with
      | interval => rfl
      | noRoom => cases hturns
      | steal => cases hturns
    subst hk
    have hcalls : calls w s (.step w b) = [] := by simp [calls, hpc]
    simp only [hpc] at hs
    split at hs
    · next h0 =>
      right
      rw [← hn, h0]
      exact ⟨Nat.zero_le _, hcalls⟩
    · cases hs
      left
      have hstays : InTurn s (goTo s w (.remotePop .interval)) w :=
        inTurn_of rfl rfl (by rw [hpc]; rfl)
      rw [hcalls, hstays.due]
      exact Nat.le_of_eq (Nat.zero_add _)
  | remotePop k =>
    right
    have hpop : popped s (.step w b) = s.queues.global.pop.1.toList := by
      simp only [popped, queueAct, hpc]
      rfl
    refine ⟨?_, by simp [calls, hpc]⟩
    rw [hpop]
    unfold GlobalQueue.pop
    cases s.queues.global.tasks with
    | nil => exact Nat.zero_le _
    | cons task rest => exact Nat.min_le_left ..
  | _ =>
    rw [hpc] at hturns
    cases hturns

theorem other_places_calls (hturns : (s.worker w).pc.turns = false) :
    calls w s (.step w b) = [] := by
  cases hpc : (s.worker w).pc with
  | nextTask =>
    rw [hpc] at hturns
    cases hturns
  | _ => simp [calls, hpc]

variable [DecidableEq R] {a : Act n R T}

omit [DecidableEq R] in
theorem other_calls (hb : ∀ b, a ≠ .step w b) : calls w s a = [] := by
  cases a with
  | step v b =>
    have hv : v ≠ w := fun he => hb b (he ▸ rfl)
    show (match (s.worker v).pc with
      | .nextTask => if v = w then [()] else []
      | _ => []) = []
    split
    · exact if_neg hv
    · rfl
  | _ => rfl

/-- The driver, the kernel and the task that runs do not change the turn. -/
theorem outside_due (hpos : 0 < config.globalQueueInterval) (ha : a.worker = some w)
    (hb : ∀ b, a ≠ .step w b) (hs : step config s a = some t) :
    globalDue config (t.worker w) ≤ globalDue config (s.worker w) := by
  have hstays : InTurn s t w → globalDue config (t.worker w) ≤ globalDue config (s.worker w) :=
    fun h => Nat.le_of_eq h.due
  cases a with
  | step v b =>
    cases ha
    exact absurd rfl (hb b)
  | arrive v tasks count =>
    cases ha
    simp only [step] at hs
    split at hs
    · next k hpc =>
      cases k with
      | task =>
        have hdue : globalDue config (s.worker w) = config.globalQueueInterval := by
          rw [globalDue, hpc]
          rfl
        rw [hdue]
        exact globalDue_le hpos (t.worker w)
      | nextTask | loop | wait =>
        split at hs
        · cases hs
        · split at hs
          · cases hs
            exact hstays (inTurn_of rfl rfl (by rw [hpc]; rfl))
          · cases hs
            exact hstays (inTurn_of rfl rfl (by rw [hpc]; rfl))
    · cases hs
  | fastrand v start =>
    cases ha
    simp only [step] at hs
    split at hs
    · next hpc =>
      cases hs
      exact hstays (inTurn_of rfl rfl (by rw [hpc]; rfl))
    · cases hs
  | wakeUpOne v first =>
    cases ha
    simp only [step] at hs
    split at hs
    · next stage k hpc =>
      obtain ⟨r, -, rfl⟩ := Option.map_eq_some_iff.1 hs
      refine hstays (inTurn_of rfl rfl ?_)
      rw [hpc]
      cases r.2 with
      | none => exact k.pc_phase
      | some stage => rfl
    · cases hs
  | scheduleLocal v task =>
    cases ha
    simp only [step] at hs
    split at hs
    · next hpc =>
      split at hs
      · exact hstays (inTurn_startCall (by rw [hpc]; rfl) hs)
      · cases hs
        exact hstays (inTurn_of rfl rfl rfl)
    · cases hs
  | scheduleRemote v tasks =>
    cases ha
    simp only [step] at hs
    split at hs
    · next hpc =>
      obtain ⟨u, hu, rfl⟩ := Option.map_eq_some_iff.1 hs
      obtain ⟨q, hq, rfl⟩ := Option.map_eq_some_iff.1 hu
      exact hstays (inTurn_of rfl rfl (by rw [hpc]; rfl))
    · cases hs
  | suspend v =>
    cases ha
    simp only [step] at hs
    split at hs
    · next hpc =>
      cases hs
      exact hstays (inTurn_of rfl rfl (by rw [hpc]; rfl))
    · cases hs
  | remote r tasks | remoteWakeUpOne r first => cases ha

/-- What others do leaves the worker alone. -/
theorem other_due (hpos : 0 < config.globalQueueInterval) (hb : ∀ b, a ≠ .step w b)
    (hs : step config s a = some t) :
    globalDue config (t.worker w) ≤ globalDue config (s.worker w) := by
  have hsame : t.worker w = s.worker w →
      globalDue config (t.worker w) ≤ globalDue config (s.worker w) := fun h => by rw [h]
  cases ha : a.worker with
  | none => exact hsame (congrFun (step_aside ha hs).worker w)
  | some v =>
    by_cases hv : v = w
    · subst hv
      exact outside_due hpos ha hb hs
    · by_cases hstep : ∃ b, a = .step v b
      · obtain ⟨b, rfl⟩ := hstep
        exact hsame ((stepPc_acts hs).others w (Ne.symm hv))
      · exact hsame ((step_starts ha (fun b he => hstep ⟨b, he⟩) hs).others w (Ne.symm hv))

theorem step_global (hs : step config s a = some t) : ThroughQueue s t (queueAct s a) := by
  cases a with
  | step v b => exact stepPc_global hs
  | arrive v tasks count =>
    simp only [step] at hs
    repeat' split at hs
    all_goals
      cases hs
      try rfl
  | fastrand v start | suspend v =>
    simp only [step] at hs
    split at hs
    · cases hs
      rfl
    · cases hs
  | wakeUpOne v first | remoteWakeUpOne r first =>
    simp only [step] at hs
    split at hs
    · obtain ⟨r, -, rfl⟩ := Option.map_eq_some_iff.1 hs
      rfl
    · cases hs
  | scheduleLocal v task =>
    simp only [step] at hs
    split at hs
    · split at hs
      · exact startCall_global rfl hs
      · cases hs
        rfl
    · cases hs
  | scheduleRemote v tasks | remote r tasks =>
    simp only [step] at hs
    split at hs
    · obtain ⟨u, hu, rfl⟩ := Option.map_eq_some_iff.1 hs
      obtain ⟨q, hq, rfl⟩ := Option.map_eq_some_iff.1 hu
      exact ⟨q, hq, rfl⟩
    · cases hs

/-- The global queue is first in, first out. -/
theorem step_fifo (hs : step config s a = some t) :
    s.queues.global.tasks ++ pushed s a = popped s a ++ t.queues.global.tasks := by
  have hq := step_global hs
  unfold pushed popped
  cases ha : queueAct s a with
  | none =>
    rw [ha] at hq
    rw [show t.queues.global = s.queues.global from hq]
    exact List.append_nil _
  | some x =>
    rw [ha] at hq
    obtain ⟨q, hq, he⟩ := hq
    rw [he]
    exact WorkStealing.step_fifo hq

theorem step_serves (hpos : 0 < config.globalQueueInterval)
    (hn : s.queues.global.num = s.queues.global.tasks.length) (hs : step config s a = some t) :
    Steps.Serves 1 config.globalQueueInterval s.queues.global.tasks (pushed s a) (popped s a)
      t.queues.global.tasks (calls w s a).length (globalDue config (s.worker w))
      (globalDue config (t.worker w)) := by
  have hfifo := step_fifo hs
  by_cases hb : ∃ b, a = .step w b
  · obtain ⟨b, rfl⟩ := hb
    by_cases hturns : (s.worker w).pc.turns
    · obtain hdue | ⟨hpop, hcalls⟩ := turns_due hpos hn hturns hs
      · exact .early hfifo hdue
      · refine .serve hfifo hpop ?_
        have hle := globalDue_le hpos (t.worker w)
        rw [hcalls, List.length_nil]
        omega
    · have hturns : (s.worker w).pc.turns = false := by simpa using hturns
      refine .early hfifo ?_
      rw [other_places_calls hturns, (stepPc_inTurn hturns hs).due]
      exact Nat.le_of_eq (Nat.zero_add _)
  · have hb : ∀ b, a ≠ .step w b := fun b he => hb ⟨b, he⟩
    refine .early hfifo ?_
    rw [other_calls hb, List.length_nil, Nat.zero_add]
    exact other_due hpos hb hs

/-! ## Top theorem -/

/-- **The global queue is served.**  For any number of workers and other threads and every
interleaving: when worker `w` has called `next_task` more than `m * global_queue_interval`
times, the `m` oldest tasks at least have left the queue, or all that there were, whatever
there was to run. -/
theorem global_served [Inhabited T] {config : Config} (hpos : 0 < config.globalQueueInterval)
    {s t : State n R T} {pre as : List (Act n R T)} (hs : run (step config) init pre = some s)
    (hr : run (step config) s as = some t) (w : Fin n) {m : Nat}
    (hm : m * config.globalQueueInterval < (emitted (step config) (calls w) s as).length) :
    s.queues.global.tasks ++ emitted (step config) pushed s as =
        emitted (step config) popped s as ++ t.queues.global.tasks ∧
      min m s.queues.global.tasks.length ≤ (emitted (step config) popped s as).length := by
  have hn : s.queues.global.num = s.queues.global.tasks.length :=
    run_inv (fun s => s.queues.global.num = s.queues.global.tasks.length)
      (fun _ _ _ hn hs _ => step_num hn hs) rfl hs (eachStep_true _ _)
  have hserves : Steps.Serves 1 config.globalQueueInterval s.queues.global.tasks
      (emitted (step config) pushed s as) (emitted (step config) popped s as)
      t.queues.global.tasks (emitted (step config) (calls w) s as).length
      (globalDue config (s.worker w)) (globalDue config (t.worker w)) :=
    run_serves (fun s => s.queues.global.num = s.queues.global.tasks.length)
      (fun _ _ _ hn hs => step_num hn hs) (fun _ _ _ hn hs => step_serves hpos hn hs) hn hr
  have hle := globalDue_le hpos (s.worker w)
  obtain ⟨hqueue, htaken⟩ := hserves.taken (n := m) (by omega)
  rw [Nat.mul_one] at htaken
  exact ⟨hqueue, htaken⟩

def servedConfig : Config := { globalQueueInterval := 2 }

/-- Five tasks come from another thread; `w` takes three of them and runs one. -/
def servedStart (w : Fin n) : List (Act n Unit Nat) :=
  .remote () [1, 2, 3, 4, 5] :: List.replicate 15 (.step w false)

/-- The task that runs schedules another one, and yet the next task is from outside. -/
def servedTurns (w : Fin n) : List (Act n Unit Nat) :=
  [.scheduleLocal w 7, .suspend w] ++ List.replicate 5 (.step w false) ++
    [.suspend w] ++ List.replicate 3 (.step w false) ++
    [.suspend w] ++ List.replicate 2 (.step w false)

theorem global_served_servedTurns :
    ∃ s t : State 2 Unit Nat,
      run (step servedConfig) init (servedStart ⟨0, Nat.zero_lt_two⟩) = some s ∧
      run (step servedConfig) s (servedTurns ⟨0, Nat.zero_lt_two⟩) = some t ∧
      s.queues.global.tasks = [4, 5] ∧
      s.queues.global.tasks ++
          emitted (step servedConfig) pushed s (servedTurns ⟨0, Nat.zero_lt_two⟩) =
        emitted (step servedConfig) popped s (servedTurns ⟨0, Nat.zero_lt_two⟩) ++
          t.queues.global.tasks ∧
      min 1 s.queues.global.tasks.length ≤
        (emitted (step servedConfig) popped s (servedTurns ⟨0, Nat.zero_lt_two⟩)).length := by
  obtain ⟨s, hs, ht, hq, hcalls⟩ := run_eval (step servedConfig) (init : State 2 Unit Nat)
    (servedStart ⟨0, Nat.zero_lt_two⟩)
    (fun s => (run (step servedConfig) s (servedTurns ⟨0, Nat.zero_lt_two⟩)).isSome ∧
      s.queues.global.tasks = [4, 5] ∧
      (emitted (step servedConfig) (calls ⟨0, Nat.zero_lt_two⟩) s
        (servedTurns ⟨0, Nat.zero_lt_two⟩)).length = 3) (by decide +kernel)
  obtain ⟨t, hr⟩ := Option.isSome_iff_exists.1 ht
  exact ⟨s, t, hs, hr, hq, global_served (by decide) hs hr _ (by rw [hcalls]; decide)⟩

end MultiThread

end Kosio.Runtime
