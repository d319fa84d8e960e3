import Mathlib.Tactic.Abel
import Kosio.Lib.Service
import Kosio.Runtime.Scheduler.CurrentThread

/-!
# The single-threaded runtime: every task once, and how long it waits

Tasks come from `schedule_local`, `schedule_remote`, completions and timers, and
`next_task` takes them from the LIFO slot, the local queue and the global queue.

* Each scheduled task is run once or is still in one of these places
  (`tasks_scheduled_once`).
* Whatever is in the local queue, the global queue is served every 61 calls of
  `next_task` (`global_wait`), and the completion queue every 61 calls (`io_wait`): both
  intervals are the default ones, however the runtime is configured (`workerConfig`).
* Nothing bounds the wait in the local queue: the LIFO slot goes first each time, and a
  task that schedules itself is always in it (`lifo_starves`).
-/

namespace Kosio.Runtime.CurrentThread

open Steps

variable {T : Type}

/-! ## Specification -/

/-- The tasks that a step schedules. -/
def scheduled (s : State T) : Act T → List T
  | .worker _ woken =>
    match s.pc with
    | .expire _ _ => woken
    | _ => []
  | .scheduleLocal task => [task]
  | .push tasks => tasks
  | .post task => task.toList
  | _ => []

/-- What the calls of `next_task` return. -/
def returned (config : Config) (s : State T) : Act T → List (Option T)
  | .worker _ _ =>
    match s.pc with
    | .nextTask => [(nextTask config s).map (·.1)]
    | _ => []
  | _ => []

def ran (config : Config) (s : State T) (a : Act T) : List T :=
  (returned config s a).filterMap id

/-- The tasks that are still to be run. -/
def waiting (s : State T) : Multiset T :=
  s.lifoSlot.toList + s.localQueue + s.globalQueue.map (·.2) + s.cq.filterMap id

/-- What a step puts into the global queue. -/
def pushed (s : State T) : Act T → List (Nat × T)
  | .push tasks => tasks.map fun task => (s.calls, task)
  | _ => []

/-- What a step takes out of it. -/
def popped (config : Config) (s : State T) : Act T → List (Nat × T)
  | .worker _ _ =>
    match s.pc with
    | .nextTask =>
      if s.tick.toNat % config.globalQueueInterval = 0 then s.globalQueue.take 1
      -- `pop_all`
      else (nextLocalTask s).elim s.globalQueue fun _ => []
    | _ => []
  | _ => []

/-- The completions that the kernel posts. -/
def completions : Act T → List (Option T)
  | .read => [none]
  | .post task => [task]
  | _ => []

/-- Those that `peek_batch` returns. -/
def seen (s : State T) : Act T → List (Option T)
  | .worker _ _ =>
    match s.pc with
    | .poll _ => s.cq.take localQueueCapacity
    | _ => []
  | _ => []

/-- Those that it has not returned. -/
def unseen (s : State T) : List (Option T) :=
  match s.pc with
  | .handle _ count => s.cq.drop count
  | _ => s.cq

/-! ## Conservation -/

theorem cons_coe (task : T) (l : List T) : ((task :: l : List T) : Multiset T) = {task} + l := rfl

theorem nextLocalTask_waiting {s u : State T} {task : T} (hs : nextLocalTask s = some (task, u)) :
    waiting s = {task} + waiting u := by
  unfold nextLocalTask at hs
  split at hs
  · next hl =>
    cases hs
    simp only [waiting, hl, Option.toList_some, Option.toList_none, cons_coe, Multiset.coe_nil]
    abel
  · next hl =>
    split at hs
    · cases hs
    · next hq =>
      cases hs
      simp only [waiting, hl, hq, cons_coe]
      abel

theorem nextTask_waiting {config : Config} {s u : State T} {task : T}
    (hs : nextTask config s = some (task, u)) : waiting s = {task} + waiting u := by
  unfold nextTask at hs
  split at hs
  · split at hs
    · next hg =>
      cases hs
      simp only [waiting, hg, List.map_cons, cons_coe]
      abel
    · exact nextLocalTask_waiting hs
  · split at hs
    · next r hr =>
      cases hs
      exact nextLocalTask_waiting hr
    · split at hs
      · cases hs
      · next hg =>
        cases hs
        simp only [waiting, hg, List.map_cons, List.map_nil, cons_coe, ← Multiset.coe_add,
          Multiset.coe_nil]
        abel

theorem posted (cq : List (Option T)) (task : Option T) :
    ((cq ++ [task]).filterMap id : Multiset T) = (cq.filterMap id : Multiset T) + task.toList := by
  rw [List.filterMap_append, ← Multiset.coe_add]
  cases task with
  | none => rfl
  | some task => rfl

theorem step_balance {config : Config} {s t : State T} {a : Act T} (hs : step config s a = some t) :
    (scheduled s a : Multiset T) + waiting s = (ran config s a : Multiset T) + waiting t := by
  cases a with
  | worker expired woken =>
    simp only [step, stepWorker] at hs
    cases hpc : s.pc with
    | nextTask =>
      simp only [hpc] at hs
      simp only [scheduled, ran, returned, hpc]
      cases hn : nextTask config s with
      | none =>
        rw [hn] at hs
        cases hs
        rfl
      | some r =>
        obtain ⟨task, u⟩ := r
        rw [hn] at hs
        cases hs
        rw [nextTask_waiting hn]
        exact zero_add _
    | handle site count =>
      simp only [hpc, Option.some.injEq] at hs
      subst hs
      simp only [scheduled, ran, returned, hpc, List.filterMap_nil, waiting, ← Multiset.coe_add,
        Multiset.coe_nil]
      rw [← List.take_append_drop count s.cq, List.filterMap_append, ← Multiset.coe_add]
      simp only [List.take_append_drop]
      abel
    | expire site count =>
      simp only [hpc, Option.ite_none_right_eq_some, Option.some.injEq] at hs
      obtain ⟨-, rfl⟩ := hs
      simp only [scheduled, ran, returned, hpc, List.filterMap_nil, waiting, ← Multiset.coe_add,
        Multiset.coe_nil]
      abel
    | run | turnOn site count | sleep | wait | queues =>
      simp only [hpc] at hs
      simp only [scheduled, ran, returned, hpc]
      repeat' split at hs
      all_goals
        cases hs
        try rfl
    | running | poll site | rearm site count | submit site count =>
      simp only [hpc, Option.some.injEq] at hs
      subst hs
      simp only [scheduled, ran, returned, hpc]
      rfl
    | exited =>
      simp only [hpc] at hs
      cases hs
  | timeout =>
    simp only [step, Option.ite_none_right_eq_some, Option.some.injEq] at hs
    obtain ⟨-, rfl⟩ := hs
    rfl
  | scheduleLocal task =>
    simp only [step, Option.ite_none_right_eq_some] at hs
    obtain ⟨-, hs⟩ := hs
    cases hl : s.lifoSlot with
    | none =>
      rw [hl] at hs
      cases hs
      simp only [scheduled, ran, returned, List.filterMap_nil, waiting, hl, Option.toList_none,
        Option.toList_some, Multiset.coe_nil]
      abel
    | some other =>
      rw [hl] at hs
      cases hs
      simp only [scheduled, ran, returned, List.filterMap_nil, waiting, hl, Option.toList_some,
        ← Multiset.coe_add, Multiset.coe_nil]
      abel
  | push tasks =>
    cases hs
    simp only [scheduled, ran, returned, List.filterMap_nil, waiting, List.map_append,
      List.map_map, Function.comp_def, List.map_id', ← Multiset.coe_add, Multiset.coe_nil]
    abel
  | shutdown =>
    cases hs
    rfl
  | write call =>
    simp only [step, Option.ite_none_right_eq_some, Option.some.injEq] at hs
    obtain ⟨-, rfl⟩ := hs
    rfl
  | read =>
    simp only [step, Option.ite_none_right_eq_some, Option.some.injEq] at hs
    obtain ⟨-, rfl⟩ := hs
    simp only [scheduled, ran, returned, List.filterMap_nil, waiting, posted, Option.toList_none,
      Multiset.coe_nil, add_zero]
  | post task =>
    cases hs
    simp only [scheduled, ran, returned, List.filterMap_nil, waiting, posted, Multiset.coe_nil]
    abel

/-! ## Turns -/

/-- Where the worker is in a turn: before `tick`, at the poll of `maintenance`, or between
these and `next_task`. -/
inductive Phase where
  | before | poll | ticked
deriving DecidableEq

def Site.phase : Site → Phase
  | .maintenance => .ticked
  | _ => .before

def Pc.phase : Pc → Phase
  | .poll .maintenance => .poll
  | .handle site _ | .expire site _ | .turnOn site _ | .rearm site _ | .submit site _ => site.phase
  | .nextTask => .ticked
  | _ => .before

/-- `handle` has as many completions as `peek_batch` counted. -/
def Peeked (s : State T) : Prop :=
  match s.pc with
  | .handle _ count => count ≤ s.cq.length
  | _ => True

/-- What a step does to the turn, and what it takes at least of the two queues that
others fill. -/
inductive Turn (config : Config) (s : State T) (a : Act T) (t : State T) : Prop where
  | tick (tick : t.tick = s.tick + 1) (before : s.pc.phase = .before)
      (after : t.pc.phase = if t.tick.toNat % config.ioInterval = 0 then .poll else .ticked)
      (calls : (returned config s a).length = 0)
  | call (tick : t.tick = s.tick) (before : s.pc.phase = .ticked) (after : t.pc.phase = .before)
      (popped : t.tick.toNat % config.globalQueueInterval = 0 →
        min 1 s.globalQueue.length ≤ (popped config s a).length)
      (calls : (returned config s a).length = 1)
  | peek (tick : t.tick = s.tick)
      (after : t.pc.phase = if s.pc.phase = .poll then .ticked else s.pc.phase)
      (seen : min localQueueCapacity (unseen s).length ≤ (seen s a).length)
      (calls : (returned config s a).length = 0)
  | rest (tick : t.tick = s.tick) (phase : t.pc.phase = s.pc.phase)
      (calls : (returned config s a).length = 0)

/-- Both queues are first in, first out. -/
structure Flow (config : Config) (s : State T) (a : Act T) (t : State T) : Prop where
  globalQueue : s.globalQueue ++ pushed s a = popped config s a ++ t.globalQueue
  unseen : unseen s ++ completions a = seen s a ++ unseen t

theorem nextLocalTask_queues {s u : State T} {task : T} (hs : nextLocalTask s = some (task, u)) :
    u.tick = s.tick ∧ u.globalQueue = s.globalQueue ∧ u.cq = s.cq := by
  unfold nextLocalTask at hs
  split at hs
  · cases hs
    exact ⟨rfl, rfl, rfl⟩
  · split at hs
    · cases hs
    · cases hs
      exact ⟨rfl, rfl, rfl⟩

theorem nextTask_queues {config : Config} {s u : State T} {task : T}
    (hs : nextTask config s = some (task, u)) :
    u.tick = s.tick ∧ u.cq = s.cq ∧
      s.globalQueue = (if s.tick.toNat % config.globalQueueInterval = 0 then s.globalQueue.take 1
        else (nextLocalTask s).elim s.globalQueue fun _ => []) ++ u.globalQueue := by
  unfold nextTask at hs
  split at hs
  · next hdue =>
    rw [if_pos hdue]
    split at hs
    · next hg =>
      cases hs
      rw [hg]
      exact ⟨rfl, rfl, rfl⟩
    · next hg =>
      obtain ⟨h1, h2, h3⟩ := nextLocalTask_queues hs
      rw [h1, h2, hg]
      exact ⟨rfl, h3, rfl⟩
  · next hdue =>
    rw [if_neg hdue]
    split at hs
    · next r hr =>
      cases hs
      obtain ⟨h1, h2, h3⟩ := nextLocalTask_queues hr
      rw [h2, hr]
      exact ⟨h1, h3, rfl⟩
    · next hr =>
      rw [hr]
      split at hs
      · cases hs
      · cases hs
        exact ⟨rfl, rfl, (List.append_nil _).symm⟩

theorem Site.after_phase (site : Site) (count : Nat) :
    (site.after count).phase = site.phase := by
  cases site with
  | maintenance => rfl
  | run =>
    show (if count > 0 then Pc.run else Pc.sleep).phase = .before
    split
    · rfl
    · rfl
  | sleep => rfl

theorem Site.after_ne (site site' : Site) (count count' : Nat) :
    site.after count ≠ .handle site' count' := by
  cases site with
  | maintenance => exact nofun
  | run =>
    show (if count > 0 then Pc.run else Pc.sleep) ≠ _
    split
    · exact nofun
    · exact nofun
  | sleep => exact nofun

theorem unseen_post {s t : State T} {task : Option T} (hp : Peeked s) (hpc : t.pc = s.pc)
    (hcq : t.cq = s.cq ++ [task]) : unseen t = unseen s ++ [task] := by
  unfold unseen
  unfold Peeked at hp
  rw [hpc, hcq]
  split
  · next site count he =>
    rw [he] at hp
    exact List.drop_append_of_le_length hp
  · rfl

theorem unseen_eq {s : State T} (hpc : ∀ site count, s.pc ≠ .handle site count) :
    unseen s = s.cq := by
  unfold unseen
  split
  · next he => exact absurd he (hpc _ _)
  · rfl

theorem Flow.within {config : Config} {s t : State T} {a : Act T}
    (hglobal : t.globalQueue = s.globalQueue)
    (hun : CurrentThread.unseen t = CurrentThread.unseen s)
    (h : pushed s a = [] ∧ popped config s a = [] ∧ completions a = [] ∧ seen s a = []) :
    Flow config s a t := by
  obtain ⟨h1, h2, h3, h4⟩ := h
  constructor
  · rw [h1, h2, hglobal, List.append_nil, List.nil_append]
  · rw [h3, h4, hun, List.append_nil, List.nil_append]

/-- Elsewhere than in `next_task` and `peek_batch` the worker leaves the two queues alone. -/
theorem outputs_worker (config : Config) {s : State T} (expired : Nat) (woken : List T)
    (hnext : s.pc ≠ .nextTask) (hpoll : ∀ site, s.pc ≠ .poll site) :
    pushed s (.worker expired woken) = [] ∧ popped config s (.worker expired woken) = [] ∧
      completions (.worker expired woken) = [] ∧ seen s (.worker expired woken) = [] := by
  refine ⟨rfl, ?_, rfl, ?_⟩
  · simp only [popped]
  · simp only [seen]

theorem worker_turn {config : Config} {s t : State T} {expired : Nat} {woken : List T}
    (hs : stepWorker config s expired woken = some t) :
    Turn config s (.worker expired woken) t ∧ Flow config s (.worker expired woken) t := by
  have hcalls : s.pc ≠ .nextTask → (returned config s (.worker expired woken)).length = 0 := by
    intro hne
    simp only [returned, List.length_nil]
  unfold stepWorker at hs
  cases hpc : s.pc with
  | run =>
    have hnone := hcalls (by simp [hpc])
    have hout := outputs_worker config expired woken (s := s) (by simp [hpc]) (by simp [hpc])
    have hun : unseen s = s.cq := unseen_eq (by simp [hpc])
    simp only [hpc] at hs
    split at hs
    · cases hs
      exact ⟨.rest rfl (by rw [hpc]; rfl) hnone, .within rfl (by rw [hun]; rfl) hout⟩
    · split at hs
      · next hdue =>
        cases hs
        exact ⟨.tick rfl (by rw [hpc]; rfl) (if_pos hdue).symm hnone,
          .within rfl (by rw [hun]; rfl) hout⟩
      · next hdue =>
        cases hs
        exact ⟨.tick rfl (by rw [hpc]; rfl) (if_neg hdue).symm hnone,
          .within rfl (by rw [hun]; rfl) hout⟩
  | nextTask =>
    have hun : unseen s = s.cq := unseen_eq (by simp [hpc])
    have hseen : seen s (.worker expired woken) = [] := by simp [seen, hpc]
    have hpop : popped config s (.worker expired woken) =
        if s.tick.toNat % config.globalQueueInterval = 0 then s.globalQueue.take 1
        else (nextLocalTask s).elim s.globalQueue fun _ => [] := by
      simp only [popped, hpc]
    have hdue : s.tick.toNat % config.globalQueueInterval = 0 →
        min 1 s.globalQueue.length ≤ (popped config s (.worker expired woken)).length := by
      intro h0
      rw [hpop, if_pos h0, List.length_take]
    have hone : (returned config s (.worker expired woken)).length = 1 := by
      simp [returned, hpc]
    simp only [hpc] at hs
    split at hs
    · next hn =>
      cases hs
      obtain ⟨h1, h2, h3⟩ := nextTask_queues hn
      refine ⟨.call h1 (by rw [hpc]; rfl) rfl (fun h0 => hdue (h1 ▸ h0)) hone, ?_, ?_⟩
      · rw [hpop]
        exact (List.append_nil _).trans h3
      · rw [hseen, hun]
        exact (List.append_nil _).trans h2.symm
    · next hn =>
      cases hs
      have hempty := nextTask_none hn
      refine ⟨.call rfl (by rw [hpc]; rfl) rfl hdue hone, ?_, ?_⟩
      · rw [hpop]
        show s.globalQueue ++ [] = _ ++ s.globalQueue
        rw [hempty]
        split
        · rfl
        · cases nextLocalTask s with
          | none => rfl
          | some r => rfl
      · rw [hseen, hun]
        exact List.append_nil _
  | poll site =>
    have hun : unseen s = s.cq := unseen_eq (by simp [hpc])
    have hseen : seen s (.worker expired woken) = s.cq.take localQueueCapacity := by
      simp only [seen, hpc]
    have hnone := hcalls (by simp [hpc])
    simp only [hpc, Option.some.injEq] at hs
    subst hs
    refine ⟨.peek rfl ?_ ?_ hnone, ?_, ?_⟩
    · rw [hpc]
      cases site with
      | maintenance => rfl
      | run => rfl
      | sleep => rfl
    · rw [hseen, hun, List.length_take]
    · rw [show popped config s (.worker expired woken) = [] by simp [popped, hpc]]
      exact List.append_nil _
    · rw [hseen, hun]
      show s.cq ++ [] =
        s.cq.take localQueueCapacity ++ s.cq.drop (min s.cq.length localQueueCapacity)
      rw [List.append_nil, List.take_eq_take_min, Nat.min_comm, List.take_append_drop]
  | handle site count =>
    have hnone := hcalls (by simp [hpc])
    have hout := outputs_worker config expired woken (s := s) (by simp [hpc]) (by simp [hpc])
    simp only [hpc, Option.some.injEq] at hs
    subst hs
    refine ⟨.rest rfl (by rw [hpc]; rfl) hnone, .within rfl ?_ hout⟩
    unfold unseen
    rw [hpc]
  | expire site count =>
    have hnone := hcalls (by simp [hpc])
    have hout := outputs_worker config expired woken (s := s) (by simp [hpc]) (by simp [hpc])
    have hun : unseen s = s.cq := unseen_eq (by simp [hpc])
    simp only [hpc, Option.ite_none_right_eq_some, Option.some.injEq] at hs
    obtain ⟨-, rfl⟩ := hs
    exact ⟨.rest rfl (by rw [hpc]; rfl) hnone, .within rfl (by rw [hun]; rfl) hout⟩
  | turnOn site count | rearm site count | running | sleep | wait | queues =>
    have hnone := hcalls (by simp [hpc])
    have hout := outputs_worker config expired woken (s := s) (by simp [hpc]) (by simp [hpc])
    have hun : unseen s = s.cq := unseen_eq (by simp [hpc])
    simp only [hpc] at hs
    repeat' split at hs
    all_goals
      cases hs
      try exact ⟨.rest rfl (by rw [hpc]; rfl) hnone, .within rfl (by rw [hun]; rfl) hout⟩
  | submit site count =>
    have hnone := hcalls (by simp [hpc])
    have hout := outputs_worker config expired woken (s := s) (by simp [hpc]) (by simp [hpc])
    have hun : unseen s = s.cq := unseen_eq (by simp [hpc])
    simp only [hpc, Option.some.injEq] at hs
    subst hs
    refine ⟨.rest rfl ?_ hnone, .within rfl ?_ hout⟩
    · rw [hpc]
      exact site.after_phase count
    · rw [hun]
      exact unseen_eq fun _ _ => site.after_ne _ count _
  | exited =>
    simp only [hpc] at hs
    cases hs

theorem step_turn {config : Config} {s t : State T} {a : Act T} (hp : Peeked s)
    (hs : step config s a = some t) : Turn config s a t ∧ Flow config s a t := by
  cases a with
  | worker expired woken => exact worker_turn hs
  | timeout =>
    simp only [step, Option.ite_none_right_eq_some, Option.some.injEq] at hs
    obtain ⟨hpc, rfl⟩ := hs
    have hun : unseen s = s.cq := unseen_eq (by simp [hpc])
    exact ⟨.rest rfl (by rw [hpc]; rfl) rfl, .within rfl (by rw [hun]; rfl) ⟨rfl, rfl, rfl, rfl⟩⟩
  | scheduleLocal task =>
    simp only [step, Option.ite_none_right_eq_some] at hs
    obtain ⟨hpc, hs⟩ := hs
    split at hs
    · cases hs
      exact ⟨.rest rfl rfl rfl, .within rfl rfl ⟨rfl, rfl, rfl, rfl⟩⟩
    · cases hs
      exact ⟨.rest rfl rfl rfl, .within rfl rfl ⟨rfl, rfl, rfl, rfl⟩⟩
  | push tasks =>
    cases hs
    exact ⟨.rest rfl rfl rfl, rfl, List.append_nil _⟩
  | shutdown =>
    cases hs
    exact ⟨.rest rfl rfl rfl, .within rfl rfl ⟨rfl, rfl, rfl, rfl⟩⟩
  | write call =>
    simp only [step, Option.ite_none_right_eq_some, Option.some.injEq] at hs
    obtain ⟨-, rfl⟩ := hs
    exact ⟨.rest rfl rfl rfl, .within rfl rfl ⟨rfl, rfl, rfl, rfl⟩⟩
  | read =>
    simp only [step, Option.ite_none_right_eq_some, Option.some.injEq] at hs
    obtain ⟨-, hs⟩ := hs
    have hun : unseen t = unseen s ++ [none] := unseen_post hp (by rw [← hs]) (by rw [← hs])
    subst hs
    refine ⟨.rest rfl rfl rfl, List.append_nil _, ?_⟩
    rw [hun]
    rfl
  | post task =>
    simp only [step, Option.some.injEq] at hs
    have hun : unseen t = unseen s ++ [task] := unseen_post hp (by rw [← hs]) (by rw [← hs])
    subst hs
    refine ⟨.rest rfl rfl rfl, List.append_nil _, ?_⟩
    rw [hun]
    rfl

/-! ## Waiting for the global queue -/

/-- The calls of `next_task` up to the next one that looks into the global queue first. -/
def globalDue (config : Config) (s : State T) : Nat :=
  let passed := s.tick.toNat % config.globalQueueInterval
  match s.pc.phase with
  | .before => config.globalQueueInterval - passed
  | _ => if passed = 0 then 1 else config.globalQueueInterval - passed + 1

theorem globalDue_before {config : Config} {s : State T} (h : s.pc.phase = .before) :
    globalDue config s =
      config.globalQueueInterval - s.tick.toNat % config.globalQueueInterval := by
  rw [globalDue, h]

theorem globalDue_ticked {config : Config} {s : State T} (h : s.pc.phase ≠ .before) :
    globalDue config s =
      if s.tick.toNat % config.globalQueueInterval = 0 then 1
      else config.globalQueueInterval - s.tick.toNat % config.globalQueueInterval + 1 := by
  unfold globalDue
  split
  · contradiction
  · rfl

theorem globalDue_bounds {config : Config} (hpos : 0 < config.globalQueueInterval) (s : State T) :
    0 < globalDue config s ∧ globalDue config s ≤ config.globalQueueInterval := by
  have hlt := Nat.mod_lt s.tick.toNat hpos
  unfold globalDue
  simp only
  split
  · omega
  · split
    · omega
    · omega

theorem Turn.global {config : Config} {s t : State T} {a : Act T}
    (hpos : 0 < config.globalQueueInterval) (h : Turn config s a t) (hflow : Flow config s a t) :
    Serves 1 config.globalQueueInterval s.globalQueue (pushed s a) (popped config s a)
      t.globalQueue (returned config s a).length (globalDue config s) (globalDue config t) := by
  have hlt := Nat.mod_lt s.tick.toNat hpos
  cases h with
  | tick htick hbefore hafter hcalls =>
    have hticked : t.pc.phase ≠ .before := by
      rw [hafter]
      split
      · exact nofun
      · exact nofun
    refine .early hflow.globalQueue ?_
    rw [hcalls, globalDue_before hbefore, globalDue_ticked hticked]
    split
    · omega
    · next hne =>
      rw [htick] at hne ⊢
      rw [tick_mod s.tick hpos hne]
      omega
  | call htick hbefore hafter hpopped hcalls =>
    have hticked : s.pc.phase ≠ .before := by
      rw [hbefore]
      exact nofun
    by_cases h0 : s.tick.toNat % config.globalQueueInterval = 0
    · refine .serve hflow.globalQueue (hpopped (htick ▸ h0)) ?_
      rw [hcalls, globalDue_before hafter, globalDue_ticked hticked, if_pos h0]
      omega
    · refine .early hflow.globalQueue ?_
      rw [hcalls, globalDue_before hafter, globalDue_ticked hticked, if_neg h0, htick]
      omega
  | peek htick hafter hseen hcalls =>
    have hsame : globalDue config t = globalDue config s := by
      unfold globalDue
      rw [htick, hafter]
      cases s.pc.phase with
      | before => rfl
      | poll => rfl
      | ticked => rfl
    refine .early hflow.globalQueue ?_
    rw [hcalls, hsame]
    exact Nat.le_of_eq (Nat.zero_add _)
  | rest htick hphase hcalls =>
    refine .early hflow.globalQueue ?_
    rw [hcalls, globalDue, globalDue, htick, hphase, Nat.zero_add]

/-! ## Waiting for completions -/

/-- The calls of `next_task` before the next poll of `maintenance`. -/
def ioDue (config : Config) (s : State T) : Nat :=
  let passed := s.tick.toNat % config.ioInterval
  match s.pc.phase with
  | .before => config.ioInterval - passed - 1
  | .poll => 0
  | .ticked => config.ioInterval - passed

theorem Turn.io {config : Config} {s t : State T} {a : Act T} (hpos : 0 < config.ioInterval)
    (h : Turn config s a t) (hflow : Flow config s a t) :
    Serves localQueueCapacity config.ioInterval (unseen s) (completions a) (seen s a) (unseen t)
      (returned config s a).length (ioDue config s) (ioDue config t) := by
  have hlt := Nat.mod_lt s.tick.toNat hpos
  cases h with
  | tick htick hbefore hafter hcalls =>
    refine .early hflow.unseen ?_
    rw [hcalls]
    unfold ioDue
    by_cases hdue : t.tick.toNat % config.ioInterval = 0
    · rw [if_pos hdue] at hafter
      rw [hbefore, hafter]
      exact Nat.zero_le _
    · rw [if_neg hdue] at hafter
      rw [hbefore, hafter]
      rw [htick] at hdue ⊢
      simp only
      rw [tick_mod s.tick hpos hdue]
      omega
  | call htick hbefore hafter hpopped hcalls =>
    refine .early hflow.unseen ?_
    rw [hcalls]
    unfold ioDue
    rw [hbefore, hafter, htick]
    simp only
    omega
  | peek htick hafter hseen hcalls =>
    refine .serve hflow.unseen hseen ?_
    rw [hcalls]
    unfold ioDue
    rw [hafter, htick]
    cases s.pc.phase with
    | before =>
      simp
    | poll =>
      simp
    | ticked =>
      simp
  | rest htick hphase hcalls =>
    refine .early hflow.unseen ?_
    rw [hcalls, ioDue, ioDue, htick, hphase, Nat.zero_add]

theorem ioDue_le (config : Config) (s : State T) : ioDue config s ≤ config.ioInterval := by
  unfold ioDue
  simp only
  split
  · omega
  · omega
  · omega

theorem peeked_of_ne {s : State T} (hpc : ∀ site count, s.pc ≠ .handle site count) : Peeked s := by
  unfold Peeked
  split
  · next he => exact absurd he (hpc _ _)
  · trivial

theorem peeked_grow {s t : State T} (hp : Peeked s) (hpc : t.pc = s.pc)
    (hcq : s.cq.length ≤ t.cq.length) : Peeked t := by
  unfold Peeked at hp ⊢
  rw [hpc]
  split
  · next he =>
    rw [he] at hp
    exact Nat.le_trans hp hcq
  · trivial

theorem peeked_worker {config : Config} {s t : State T} {expired : Nat} {woken : List T}
    (hs : stepWorker config s expired woken = some t) : Peeked t := by
  unfold stepWorker at hs
  cases hpc : s.pc with
  | poll site =>
    simp only [hpc, Option.some.injEq] at hs
    subst hs
    exact Nat.min_le_left ..
  | submit site count =>
    simp only [hpc, Option.some.injEq] at hs
    subst hs
    exact peeked_of_ne fun _ _ => site.after_ne _ count _
  | _ =>
    simp only [hpc] at hs
    repeat' split at hs
    all_goals
      cases hs
      try exact peeked_of_ne fun _ _ h => by cases h

theorem peeked_step {config : Config} {s t : State T} {a : Act T} (hp : Peeked s)
    (hs : step config s a = some t) : Peeked t := by
  cases a with
  | worker expired woken => exact peeked_worker hs
  | timeout =>
    simp only [step, Option.ite_none_right_eq_some, Option.some.injEq] at hs
    obtain ⟨-, rfl⟩ := hs
    exact peeked_of_ne fun _ _ h => by cases h
  | scheduleLocal task =>
    simp only [step, Option.ite_none_right_eq_some] at hs
    obtain ⟨-, hs⟩ := hs
    split at hs
    · cases hs
      exact peeked_grow hp rfl (Nat.le_refl _)
    · cases hs
      exact peeked_grow hp rfl (Nat.le_refl _)
  | push tasks | shutdown =>
    cases hs
    exact peeked_grow hp rfl (Nat.le_refl _)
  | write call =>
    simp only [step, Option.ite_none_right_eq_some, Option.some.injEq] at hs
    obtain ⟨-, rfl⟩ := hs
    exact peeked_grow hp rfl (Nat.le_refl _)
  | read =>
    simp only [step, Option.ite_none_right_eq_some, Option.some.injEq] at hs
    obtain ⟨-, rfl⟩ := hs
    exact peeked_grow hp rfl (by simp)
  | post task =>
    cases hs
    exact peeked_grow hp rfl (by simp)

theorem peeked_run {config : Config} {s : State T} {as : List (Act T)}
    (hr : run (step config) init as = some s) : Peeked s := by
  have hinit : Peeked (init : State T) := trivial
  exact run_inv Peeked (fun _ _ _ hp hs _ => peeked_step hp hs) hinit hr (eachStep_true _ _)

/-! ## Starving -/

/-- A task runs, and what else is there is in the local queue. -/
structure Alone (s : State T) : Prop where
  running : s.pc = .running
  lifoSlot : s.lifoSlot = none
  globalQueue : s.globalQueue = []
  going : s.isShutdown = false

/-- `maintenance` only adds to the local queue. -/
theorem maintenance_polls (config : Config) {s : State T} (hpc : s.pc = .poll .maintenance) :
    ∃ as t, run (step config) s as = some t ∧ emitted (step config) (returned config) s as = [] ∧
      t.pc = .nextTask ∧ t.lifoSlot = s.lifoSlot ∧ t.globalQueue = s.globalQueue ∧
      t.isShutdown = s.isShutdown ∧ s.localQueue <+: t.localQueue := by
  by_cases hflag : s.flag = 0
  · refine ⟨List.replicate 5 (.worker 0 []), ?_⟩
    simp [List.replicate, run, emitted, returned, step, stepWorker, hpc, hflag, Site.after]
  · refine ⟨List.replicate 6 (.worker 0 []), ?_⟩
    simp [List.replicate, run, emitted, returned, step, stepWorker, hpc, hflag, Site.after]

/-- The worker comes to `next_task`. -/
theorem turn_starts (config : Config) {s : State T} (hpc : s.pc = .run)
    (hgoing : s.isShutdown = false) :
    ∃ as t, run (step config) s as = some t ∧ emitted (step config) (returned config) s as = [] ∧
      t.pc = .nextTask ∧ t.lifoSlot = s.lifoSlot ∧ t.globalQueue = s.globalQueue ∧
      t.isShutdown = false ∧ s.localQueue <+: t.localQueue := by
  by_cases hdue : (s.tick + 1).toNat % config.ioInterval = 0
  · let u : State T := { s with tick := s.tick + 1, pc := .poll .maintenance }
    have hstep : step config s (.worker 0 []) = some u := by
      simp only [step, stepWorker, hpc]
      rw [if_neg (by simp [hgoing]), if_pos hdue]
    obtain ⟨as, t, hr, hem, h1, h2, h3, h4, h5⟩ := maintenance_polls config (s := u) rfl
    refine ⟨.worker 0 [] :: as, t, (run_cons ..).2 ⟨u, hstep, hr⟩, ?_, h1, h2, h3,
      h4.trans hgoing, h5⟩
    rw [emitted_cons _ hstep, hem]
    simp [returned, hpc]
  · let u : State T := { s with tick := s.tick + 1, pc := .nextTask }
    have hstep : step config s (.worker 0 []) = some u := by
      simp only [step, stepWorker, hpc]
      rw [if_neg (by simp [hgoing]), if_neg hdue]
    refine ⟨[.worker 0 []], u, (run_one ..).trans hstep, ?_, rfl, rfl, rfl, hgoing,
      List.prefix_refl _⟩
    rw [emitted_cons _ hstep]
    simp [returned, hpc]

/-- A task that schedules itself comes next. -/
theorem Alone.round (config : Config) (task : T) {s : State T} (h : Alone s) :
    ∃ as t, run (step config) s as = some t ∧
      emitted (step config) (returned config) s as = [some task] ∧ Alone t ∧
      s.localQueue <+: t.localQueue := by
  let u : State T := { s with lifoSlot := some task, pc := .run }
  have hsched : step config s (.scheduleLocal task) = some { s with lifoSlot := some task } := by
    simp only [step, h.running, h.lifoSlot, if_true]
  have hsuspend : step config { s with lifoSlot := some task } (.worker 0 []) = some u := by
    simp only [step, stepWorker, h.running]
    rfl
  obtain ⟨as, v, hr, hem, hpc, hlifo, hglobal, hgoing, hlocal⟩ :=
    turn_starts config (s := u) rfl h.going
  have hglobal : v.globalQueue = [] := hglobal.trans h.globalQueue
  have hlifo : v.lifoSlot = some task := hlifo
  have hnext : nextTask config v = some (task, { v with lifoSlot := none }) := by
    have hlocal : nextLocalTask v = some (task, { v with lifoSlot := none }) := by
      rw [nextLocalTask, hlifo]
    unfold nextTask
    split
    · split
      · next hcons =>
        rw [hglobal] at hcons
        cases hcons
      · exact hlocal
    · rw [hlocal]
  let t : State T := { v with lifoSlot := none, pc := .running }
  have hrun : step config v (.worker 0 []) = some t := by
    simp only [step, stepWorker, hpc, hnext]
    rfl
  refine ⟨.scheduleLocal task :: .worker 0 [] :: (as ++ [.worker 0 []]), t,
    (run_cons ..).2 ⟨_, hsched, (run_cons ..).2 ⟨u, hsuspend, (run_append ..).2
      ⟨v, hr, (run_one ..).trans hrun⟩⟩⟩, ?_, ⟨rfl, rfl, hglobal, hgoing⟩, hlocal⟩
  rw [emitted_cons _ hsched, emitted_cons _ hsuspend, emitted_append _ hr, hem,
    emitted_cons _ hrun]
  simp [returned, h.running, hpc, hnext]

/-! ## Top theorems -/

/-- **Every task once.**  What has been scheduled has run, or waits. -/
theorem tasks_scheduled_once (config : Config) {as : List (Act T)} {t : State T}
    (hr : run (step config) init as = some t) :
    (emitted (step config) scheduled init as : Multiset T) =
      (emitted (step config) (ran config) init as : Multiset T) + waiting t := by
  have hbal : (emitted (step config) scheduled init as : Multiset T) + waiting init =
      (emitted (step config) (ran config) init as : Multiset T) + waiting t := by
    refine run_conserves (fun _ => True) (fun _ _ _ _ _ _ => trivial) ?_ trivial hr
      (eachStep_true _ _)
    intro s a t _ hs _
    exact step_balance hs
  rwa [show waiting (init : State T) = 0 from rfl, add_zero] at hbal

/-- Two tasks from outside and one of a completion; the first runs. -/
def threeTasks : List (Act Nat) :=
  [.push [1, 2], .post (some 3), .worker 0 [], .worker 0 []]

theorem tasks_scheduled_once_threeTasks :
    ∃ t : State Nat, run (step {}) init threeTasks = some t ∧
      emitted (step {}) (ran {}) init threeTasks = [1] ∧
      (emitted (step {}) scheduled init threeTasks : Multiset Nat) =
        (emitted (step {}) (ran {}) init threeTasks : Multiset Nat) + waiting t := by
  obtain ⟨t, ht, -⟩ := run_eval (step {}) init threeTasks (fun _ => True) (by decide)
  exact ⟨t, ht, by decide, tasks_scheduled_once {} ht⟩

theorem serves_global {config : Config} (hpos : 0 < config.globalQueueInterval) {s t : State T}
    {as : List (Act T)} (hp : Peeked s) (hr : run (step config) s as = some t) :
    Serves 1 config.globalQueueInterval s.globalQueue (emitted (step config) pushed s as)
      (emitted (step config) (popped config) s as) t.globalQueue
      (emitted (step config) (returned config) s as).length (globalDue config s)
      (globalDue config t) := by
  refine run_serves Peeked (fun _ _ _ hp hs => peeked_step hp hs) ?_ hp hr
  intro s a t hp hs
  obtain ⟨hturn, hflow⟩ := step_turn hp hs
  exact hturn.global hpos hflow

theorem serves_io {config : Config} (hpos : 0 < config.ioInterval) {s t : State T}
    {as : List (Act T)} (hp : Peeked s) (hr : run (step config) s as = some t) :
    Serves localQueueCapacity config.ioInterval (unseen s)
      (emitted (step config) (fun _ => completions) s as) (emitted (step config) seen s as)
      (unseen t) (emitted (step config) (returned config) s as).length (ioDue config s)
      (ioDue config t) := by
  refine run_serves Peeked (fun _ _ _ hp hs => peeked_step hp hs) ?_ hp hr
  intro s a t hp hs
  obtain ⟨hturn, hflow⟩ := step_turn hp hs
  exact hturn.io hpos hflow

/-- **The global queue is served**, once in 61 calls of `next_task`, whatever else there is
to run and however the runtime is configured: as many tasks have left it, the oldest first,
or all that there were. -/
theorem global_wait (config : Config) {s t : State T} {pre as : List (Act T)}
    (hs : run (step (workerConfig config)) init pre = some s)
    (hr : run (step (workerConfig config)) s as = some t) {n : Nat}
    (hn : n * 61 ≤
      (emitted (step (workerConfig config)) (returned (workerConfig config)) s as).length) :
    s.globalQueue ++ emitted (step (workerConfig config)) pushed s as =
        emitted (step (workerConfig config)) (popped (workerConfig config)) s as ++
          t.globalQueue ∧
      min n s.globalQueue.length ≤
        (emitted (step (workerConfig config)) (popped (workerConfig config)) s as).length := by
  have hinterval : (workerConfig config).globalQueueInterval = 61 := rfl
  have hpos : 0 < (workerConfig config).globalQueueInterval := by omega
  have hserves := serves_global hpos (peeked_run hs) hr
  have h1 := globalDue_bounds hpos s
  have h2 := globalDue_bounds hpos t
  obtain ⟨hqueue, htaken⟩ := hserves.taken (n := n) (by rw [hinterval]; omega)
  rw [Nat.mul_one] at htaken
  exact ⟨hqueue, htaken⟩

/-- A task from outside runs; two others, and a completion, come in. -/
def busyStart : List (Act Nat) :=
  [.push [7], .worker 0 [], .worker 0 [], .push [8, 9], .post (some 10)]

/-- 124 turns, in each of which the task that runs schedules a task; the 60th and the
121st begin with the poll of `maintenance`. -/
def busyTurns : List (Act Nat) :=
  let suspend : List (Act Nat) := [.scheduleLocal 7, .worker 0 [], .worker 0 []]
  let turn := suspend ++ [.worker 0 []]
  let polling := suspend ++ List.replicate 7 (.worker 0 [])
  (List.replicate 59 turn).flatten ++ polling ++ (List.replicate 60 turn).flatten ++
    (suspend ++ List.replicate 6 (.worker 0 [])) ++ (List.replicate 3 turn).flatten

theorem busyTurns_calls :
    ∃ s t : State Nat, run (step {}) init busyStart = some s ∧ run (step {}) s busyTurns = some t ∧
      (emitted (step {}) (returned {}) s busyTurns).length = 124 := by
  obtain ⟨s, hs, t, ht⟩ := run_eval (step {}) init busyStart
    (fun s => (run (step {}) s busyTurns).isSome ∧
      (emitted (step {}) (returned {}) s busyTurns).length = 124) (by decide +kernel)
  obtain ⟨t, hr⟩ := Option.isSome_iff_exists.1 t
  exact ⟨s, t, hs, hr, ht⟩

theorem global_wait_busyTurns :
    ∃ s t : State Nat, run (step {}) init busyStart = some s ∧ run (step {}) s busyTurns = some t ∧
      s.globalQueue ++ emitted (step {}) pushed s busyTurns =
        emitted (step {}) (popped {}) s busyTurns ++ t.globalQueue ∧
      min 2 s.globalQueue.length ≤ (emitted (step {}) (popped {}) s busyTurns).length := by
  obtain ⟨s, t, hs, hr, hn⟩ := busyTurns_calls
  exact ⟨s, t, hs, hr, global_wait {} hs hr (Nat.le_of_lt_succ (by
    show 2 * 61 < (emitted (step {}) (returned {}) s busyTurns).length + 1
    rw [hn]
    decide))⟩

/-- **Completions are seen**: `LOCAL_QUEUE_CAPACITY` of them once in 61 calls of `next_task`,
whatever there is to run and however the runtime is configured. -/
theorem io_wait (config : Config) {s t : State T} {pre as : List (Act T)}
    (hs : run (step (workerConfig config)) init pre = some s)
    (hr : run (step (workerConfig config)) s as = some t) {n : Nat}
    (hn : n * 61 <
      (emitted (step (workerConfig config)) (returned (workerConfig config)) s as).length) :
    unseen s ++ emitted (step (workerConfig config)) (fun _ => completions) s as =
        emitted (step (workerConfig config)) seen s as ++ unseen t ∧
      min (n * localQueueCapacity) (unseen s).length ≤
        (emitted (step (workerConfig config)) seen s as).length := by
  have hinterval : (workerConfig config).ioInterval = 61 := rfl
  have hserves := serves_io (by omega) (peeked_run hs) hr
  have h1 := ioDue_le (workerConfig config) s
  exact hserves.taken (by rw [hinterval]; omega)

theorem io_wait_busyTurns :
    ∃ s t : State Nat, run (step {}) init busyStart = some s ∧ run (step {}) s busyTurns = some t ∧
      unseen s ++ emitted (step {}) (fun _ => completions) s busyTurns =
        emitted (step {}) seen s busyTurns ++ unseen t ∧
      min (2 * localQueueCapacity) (unseen s).length ≤
        (emitted (step {}) seen s busyTurns).length := by
  obtain ⟨s, t, hs, hr, hn⟩ := busyTurns_calls
  exact ⟨s, t, hs, hr, io_wait {} hs hr (by
    show 2 * 61 < (emitted (step {}) (returned {}) s busyTurns).length
    rw [hn]
    decide)⟩

/-- **The local queue may starve.**  While a task schedules itself, the LIFO slot goes
first, as often as one likes. -/
theorem lifo_starves (config : Config) (task : T) {s : State T} (h : Alone s) (n : Nat) :
    ∃ as t, run (step config) s as = some t ∧
      emitted (step config) (returned config) s as = List.replicate n (some task) ∧
      t.pc = .running ∧ s.localQueue <+: t.localQueue := by
  suffices hall : ∃ as t, run (step config) s as = some t ∧
      emitted (step config) (returned config) s as = List.replicate n (some task) ∧
      Alone t ∧ s.localQueue <+: t.localQueue by
    obtain ⟨as, t, hr, hem, ht, hlocal⟩ := hall
    exact ⟨as, t, hr, hem, ht.running, hlocal⟩
  induction n generalizing s with
  | zero => exact ⟨[], s, rfl, rfl, h, List.prefix_refl _⟩
  | succ n ih =>
    obtain ⟨as, u, hr, hem, hu, hlocal⟩ := h.round config task
    obtain ⟨bs, t, hr', hem', ht, hlocal'⟩ := ih hu
    refine ⟨as ++ bs, t, (run_append ..).2 ⟨u, hr, hr'⟩, ?_, ht, hlocal.trans hlocal'⟩
    rw [emitted_append _ hr, hem, hem', List.replicate_succ]
    rfl

theorem lifo_starves_eight :
    ∃ s : State Nat, run (step {}) init [.push [7, 8], .worker 0 [], .worker 0 []] = some s ∧
      s.localQueue = [8] ∧
      ∃ as t, run (step {}) s as = some t ∧
        emitted (step {}) (returned {}) s as = List.replicate 1000 (some 7) ∧
        t.pc = .running ∧ s.localQueue <+: t.localQueue := by
  obtain ⟨s, hs, h1, h2, h3, h4, h5⟩ := run_eval (step {}) init
    [Act.push [7, 8], .worker 0 [], .worker 0 []]
    (fun s : State Nat => s.pc = .running ∧ s.lifoSlot = none ∧ s.globalQueue = [] ∧
      s.isShutdown = false ∧ s.localQueue = [8]) (by decide +kernel)
  exact ⟨s, hs, h5, lifo_starves {} 7 ⟨h1, h2, h3, h4⟩ 1000⟩

end Kosio.Runtime.CurrentThread
