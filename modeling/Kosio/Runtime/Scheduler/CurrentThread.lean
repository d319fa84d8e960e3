import Mathlib.Data.List.Basic
import Kosio.Lib.Run
import Kosio.Runtime.Config

/-!
# The single-threaded runtime: no sleep on visible work

Other threads push to the global queue and then write the eventfd.  The worker
keeps one read of it in flight: the kernel answers by storing the counter into
`flag_` and posting a completion, and the next `turn_on` that sees a flag makes a
new read.

Between the moment the worker has seen the global queue empty and the moment it
blocks, a push is announced by the counter or by a completion that is still to
be seen, or else `poll` has counted that completion and the worker looks again
(`Inv.visible`).  Blocked without a completion, it has its read in flight
(`Inv.seen`).  So it never blocks for good on work it has been woken for
(`never_stuck`).

`GlobalQueue::close` has no caller in this runtime, so `is_closed` is false.
-/

namespace Kosio.Runtime.CurrentThread

open Steps

variable {T : Type}

/-! ## Algorithm -/

/-- Who calls `Driver::poll`. -/
inductive Site where
  | maintenance | run | sleep
deriving DecidableEq

/-- Where the worker is; in `poll`, with the number of events so far. -/
inductive Pc where
  | run
  | poll (site : Site)
  | handle (site : Site) (count : Nat)
  | expire (site : Site) (count : Nat)
  | turnOn (site : Site) (count : Nat)
  | rearm (site : Site) (count : Nat)
  | submit (site : Site) (count : Nat)
  | nextTask
  | running
  | sleep
  | wait
  | queues
  | exited
deriving DecidableEq

structure State (T : Type) where
  pc : Pc
  tick : BitVec 32
  lifoSlot : Option T
  localQueue : List T
  /-- the tasks, each with the call that pushed it -/
  globalQueue : List (Nat × T)
  isShutdown : Bool
  /-- the calls made so far, and those that have not written the eventfd yet -/
  calls : Nat
  writing : List Nat
  flag : Nat
  /-- reads of the eventfd: taken from the ring, and submitted -/
  sqes : Nat
  reads : Nat
  counter : Nat
  /-- the completions, each with the task it schedules if it has a callback -/
  cq : List (Option T)

def init : State T :=
  { pc := .run, tick := 0, lifoSlot := none, localQueue := [], globalQueue := []
    isShutdown := false, calls := 0, writing := [], flag := 1, sqes := 0, reads := 0, counter := 0
    cq := [] }

/-- `config_`.  The constructor of `Worker` does not copy the configuration it is given,
so the intervals stay what they are by default. -/
def workerConfig (_config : Config) : Config := {}

def nextLocalTask (s : State T) : Option (T × State T) :=
  match s.lifoSlot with
  | some task => some (task, { s with lifoSlot := none })
  | none =>
    match s.localQueue with
    | [] => none
    | task :: localQueue => some (task, { s with localQueue })

/-- `none` with the interval: `global_queue_.pop().or_else(..)`. -/
def nextTask (config : Config) (s : State T) : Option (T × State T) :=
  if s.tick.toNat % config.globalQueueInterval = 0 then
    match s.globalQueue with
    | (_, task) :: globalQueue => some (task, { s with globalQueue })
    | [] => nextLocalTask s
  else
    match nextLocalTask s with
    | some r => some r
    | none =>
      -- `pop_all`
      match s.globalQueue with
      | [] => none
      | (_, task) :: rest =>
        some (task, { s with globalQueue := [], localQueue := s.localQueue ++ rest.map (·.2) })

/-- Where `poll` goes back to. -/
def Site.after (count : Nat) : Site → Pc
  | .maintenance => .nextTask
  | .run => if count > 0 then .run else .sleep
  | .sleep => .queues

/-- A step of the worker.  `expired` and `woken` are the entries that
`handle_expired_entries` executes and the tasks among them.  The ring has an SQE for
the read of the eventfd, and `io_uring_submit` succeeds. -/
def stepWorker (config : Config) (s : State T) (expired : Nat) (woken : List T) :
    Option (State T) :=
  match s.pc with
  | .run =>
    if s.isShutdown then some { s with pc := .exited }
    else
      let s := { s with tick := s.tick + 1 }
      if s.tick.toNat % config.ioInterval = 0 then some { s with pc := .poll .maintenance }
      else some { s with pc := .nextTask }
  | .nextTask =>
    match nextTask config s with
    | some (_, s) => some { s with pc := .running }
    | none => some { s with pc := .poll .run }
  -- the task is suspended or done
  | .running => some { s with pc := .run }
  | .poll site => some { s with pc := .handle site (min s.cq.length localQueueCapacity) }
  | .handle site count =>
    some { s with
      localQueue := s.localQueue ++ (s.cq.take count).filterMap id
      cq := s.cq.drop count, pc := .expire site count }
  | .expire site count =>
    if woken.length ≤ expired then
      some { s with localQueue := s.localQueue ++ woken, pc := .turnOn site (count + expired) }
    else none
  | .turnOn site count =>
    if s.flag ≠ 0 then some { s with pc := .rearm site count }
    else some { s with pc := .submit site count }
  | .rearm site count => some { s with flag := 0, sqes := s.sqes + 1, pc := .submit site count }
  | .submit site count =>
    some { s with reads := s.reads + s.sqes, sqes := 0, pc := site.after count }
  | .sleep => if s.isShutdown then some { s with pc := .run } else some { s with pc := .wait }
  | .wait => if s.cq = [] then none else some { s with pc := .poll .sleep }
  | .queues =>
    if s.localQueue ≠ [] ∨ s.globalQueue ≠ [] then some { s with pc := .run }
    else if s.isShutdown then some { s with pc := .run }
    else some { s with pc := .wait }
  | .exited => none

inductive Act (T : Type) where
  | worker (expired : Nat) (woken : List T)
  /-- the timeout of `wait`, or a signal -/
  | timeout
  /-- `schedule_local` by the task that runs -/
  | scheduleLocal (task : T)
  /-- `schedule_remote` or `schedule_remote_batch`, up to the push -/
  | push (tasks : List T)
  /-- `shutdown`, up to the flag -/
  | shutdown
  /-- `wake_up` of a call -/
  | write (call : Nat)
  /-- the kernel answers the read of the eventfd -/
  | read
  /-- it answers something else -/
  | post (task : Option T)

def step (config : Config) (s : State T) : Act T → Option (State T)
  | .worker expired woken => stepWorker config s expired woken
  | .timeout => if s.pc = .wait then some { s with pc := .poll .sleep } else none
  | .scheduleLocal task =>
    if s.pc = .running then
      match s.lifoSlot with
      | some other => some { s with localQueue := s.localQueue ++ [other], lifoSlot := some task }
      | none => some { s with lifoSlot := some task }
    else none
  | .push tasks =>
    some { s with
      globalQueue := s.globalQueue ++ tasks.map fun task => (s.calls, task)
      writing := s.writing ++ [s.calls], calls := s.calls + 1 }
  | .shutdown =>
    some { s with isShutdown := true, writing := s.writing ++ [s.calls], calls := s.calls + 1 }
  | .write call =>
    if call ∈ s.writing then
      some { s with writing := s.writing.erase call, counter := s.counter + 1 }
    else none
  | .read =>
    if 0 < s.reads ∧ 0 < s.counter then
      some { s with
        flag := s.counter, counter := 0, reads := s.reads - 1, cq := s.cq ++ [none] }
    else none
  | .post task => some { s with cq := s.cq ++ [task] }

/-! ## Specification -/

/-- A task whose `wake_up` has returned is in the global queue. -/
def Visible (s : State T) : Prop := ∃ p ∈ s.globalQueue, p.1 ∉ s.writing

/-- The worker is blocked, nothing will unblock it, and there is work it was woken for. -/
def Stuck (s : State T) : Prop :=
  s.pc = .wait ∧ s.cq = [] ∧ ¬ (0 < s.reads ∧ 0 < s.counter) ∧ Visible s

/-! ## Invariant -/

/-- The worker looks into the global queue before it blocks. -/
def Pc.awake : Pc → Bool
  | .poll site => site ≠ .run
  | .handle site count | .expire site count | .turnOn site count | .rearm site count
  | .submit site count => site ≠ .run || 0 < count
  | .sleep | .wait => false
  | _ => true

/-- The worker has tested the flag since it last handled completions. -/
def Pc.tested : Pc → Bool
  | .submit _ _ | .sleep | .wait | .queues => true
  | _ => false

def Pc.submitting : Pc → Bool
  | .submit _ _ => true
  | _ => false

def Pc.rearming : Pc → Bool
  | .rearm _ _ => true
  | _ => false

structure Inv (s : State T) : Prop where
  /-- a read is under way if and only if the flag is 0 -/
  one : s.reads + s.sqes = if s.flag = 0 then 1 else 0
  submitted : 0 < s.sqes → s.pc.submitting
  flagged : s.pc.rearming → s.flag ≠ 0
  seen : s.pc.tested → s.flag ≠ 0 → s.cq ≠ []
  visible : s.pc.awake = false → Visible s → 0 < s.counter ∨ s.cq ≠ []

theorem inv_init : Inv (init : State T) := ⟨rfl, nofun, nofun, nofun, nofun⟩

theorem Inv.sqes {s : State T} (h : Inv s) (hsub : s.pc.submitting = false) : s.sqes = 0 := by
  by_contra h0
  have := h.submitted (Nat.pos_of_ne_zero h0)
  rw [hsub] at this
  cases this

/-- A step inside the worker: the ring and the eventfd stay, and no task is added. -/
structure Inside (s t : State T) : Prop where
  flag : t.flag = s.flag
  sqes : t.sqes = s.sqes
  reads : t.reads = s.reads
  counter : t.counter = s.counter
  cq : t.cq = s.cq
  writing : t.writing = s.writing
  globalQueue : ∀ p ∈ t.globalQueue, p ∈ s.globalQueue

theorem Inv.inside {s t : State T} (h : Inv s) (hi : Inside s t) (hsub : s.pc.submitting = false)
    (hflag : t.pc.rearming → s.flag ≠ 0) (htest : t.pc.tested → s.pc.tested ∨ s.flag = 0)
    (hawake : t.pc.awake = false → s.pc.awake = false ∨ t.globalQueue = []) : Inv t := by
  have hnone := h.sqes hsub
  refine ⟨?_, fun hpos => ?_, fun hr => ?_, fun ht hf => ?_, fun ha ⟨p, hp, hw⟩ => ?_⟩
  · rw [hi.reads, hi.sqes, hi.flag]
    exact h.one
  · rw [hi.sqes] at hpos
    omega
  · rw [hi.flag]
    exact hflag hr
  · rw [hi.flag] at hf
    rw [hi.cq]
    rcases htest ht with hs | h0
    · exact h.seen hs hf
    · exact absurd h0 hf
  · rw [hi.counter, hi.cq]
    rcases hawake ha with hs | he
    · exact h.visible hs ⟨p, hi.globalQueue p hp, hi.writing ▸ hw⟩
    · rw [he] at hp
      cases hp

/-- The same for a step to a place that is neither after the test of the flag nor
before the wait. -/
theorem Inv.elsewhere {s t : State T} (h : Inv s) (hi : Inside s t) (hsub : s.pc.submitting = false)
    (hflag : t.pc.rearming = false) (htest : t.pc.tested = false) (hawake : t.pc.awake = true) :
    Inv t := by
  refine h.inside hi hsub (fun hr => ?_) (fun ht => ?_) (fun ha => ?_)
  · rw [hflag] at hr
    cases hr
  · rw [htest] at ht
    cases ht
  · rw [hawake] at ha
    cases ha

/-! ## The queues -/

theorem nextLocalTask_inside {s u : State T} {task : T} (hs : nextLocalTask s = some (task, u)) :
    Inside s u := by
  unfold nextLocalTask at hs
  split at hs
  · cases hs
    exact ⟨rfl, rfl, rfl, rfl, rfl, rfl, fun _ hp => hp⟩
  · split at hs
    · cases hs
    · cases hs
      exact ⟨rfl, rfl, rfl, rfl, rfl, rfl, fun _ hp => hp⟩

theorem nextTask_inside {config : Config} {s u : State T} {task : T}
    (hs : nextTask config s = some (task, u)) : Inside s u := by
  unfold nextTask at hs
  split at hs
  · split at hs
    · next rest hq =>
      cases hs
      refine ⟨rfl, rfl, rfl, rfl, rfl, rfl, fun p hp => ?_⟩
      rw [hq]
      exact List.mem_cons_of_mem _ hp
    · exact nextLocalTask_inside hs
  · split at hs
    · next r hr =>
      cases hs
      exact nextLocalTask_inside hr
    · split at hs
      · cases hs
      · cases hs
        exact ⟨rfl, rfl, rfl, rfl, rfl, rfl, nofun⟩

/-- Without a next task the global queue was empty. -/
theorem nextTask_none {config : Config} {s : State T} (hs : nextTask config s = none) :
    s.globalQueue = [] := by
  unfold nextTask at hs
  split at hs
  · split at hs
    · cases hs
    · next hq => exact hq
  · split at hs
    · cases hs
    · split at hs
      · next hq => exact hq
      · cases hs

/-! ## Steps -/

theorem Inv.stepWorker {config : Config} {s t : State T} {expired : Nat} {woken : List T}
    (h : Inv s) (hs : stepWorker config s expired woken = some t) : Inv t := by
  have hsame : ∀ p ∈ s.globalQueue, p ∈ s.globalQueue := fun _ hp => hp
  unfold CurrentThread.stepWorker at hs
  cases hpc : s.pc with
  | run =>
    simp only [hpc] at hs
    split at hs
    · cases hs
      exact h.elsewhere ⟨rfl, rfl, rfl, rfl, rfl, rfl, hsame⟩ (by rw [hpc]; rfl) rfl rfl rfl
    · split at hs <;> cases hs
      · exact h.elsewhere ⟨rfl, rfl, rfl, rfl, rfl, rfl, hsame⟩ (by rw [hpc]; rfl) rfl rfl rfl
      · exact h.elsewhere ⟨rfl, rfl, rfl, rfl, rfl, rfl, hsame⟩ (by rw [hpc]; rfl) rfl rfl rfl
  | nextTask =>
    simp only [hpc] at hs
    split at hs
    · next task u hu =>
      cases hs
      have hi := nextTask_inside hu
      exact h.elsewhere ⟨hi.flag, hi.sqes, hi.reads, hi.counter, hi.cq, hi.writing, hi.globalQueue⟩
        (by rw [hpc]; rfl) rfl rfl rfl
    · next hn =>
      cases hs
      exact h.inside ⟨rfl, rfl, rfl, rfl, rfl, rfl, hsame⟩ (by rw [hpc]; rfl) nofun nofun
        fun _ => Or.inr (show s.globalQueue = [] from nextTask_none hn)
  | running =>
    simp only [hpc] at hs
    cases hs
    exact h.elsewhere ⟨rfl, rfl, rfl, rfl, rfl, rfl, hsame⟩ (by rw [hpc]; rfl) rfl rfl rfl
  | poll site =>
    simp only [hpc] at hs
    cases hs
    refine h.inside ⟨rfl, rfl, rfl, rfl, rfl, rfl, hsame⟩ (by rw [hpc]; rfl) nofun nofun
      fun ha => Or.inl ?_
    -- with a completion there is something to come back for
    rw [hpc]
    exact (Bool.or_eq_false_iff.1 ha).1
  | handle site count =>
    simp only [hpc] at hs
    cases hs
    refine ⟨h.one, fun hpos => ?_, nofun, nofun, fun ha hv => ?_⟩
    · have := h.sqes (by rw [hpc]; rfl)
      have hpos : 0 < s.sqes := hpos
      omega
    · have hcount : count = 0 := by
        have := (Bool.or_eq_false_iff.1 ha).2
        simpa using this
      show 0 < s.counter ∨ s.cq.drop count ≠ []
      rw [hcount]
      exact h.visible (by rw [hpc]; exact ha) hv
  | expire site count =>
    simp only [hpc, Option.ite_none_right_eq_some, Option.some.injEq] at hs
    obtain ⟨-, rfl⟩ := hs
    refine h.inside ⟨rfl, rfl, rfl, rfl, rfl, rfl, hsame⟩ (by rw [hpc]; rfl) nofun nofun
      fun ha => Or.inl ?_
    obtain ⟨h1, h2⟩ := Bool.or_eq_false_iff.1 ha
    have hcount : count + expired = 0 := by simpa using h2
    rw [hpc]
    refine Bool.or_eq_false_iff.2 ⟨h1, ?_⟩
    have : count = 0 := by omega
    rw [this]
    rfl
  | turnOn site count =>
    simp only [hpc] at hs
    split at hs
    · next hf =>
      cases hs
      exact h.inside ⟨rfl, rfl, rfl, rfl, rfl, rfl, hsame⟩ (by rw [hpc]; rfl) (fun _ => hf) nofun
        fun ha => Or.inl (by rw [hpc]; exact ha)
    · next hf =>
      cases hs
      exact h.inside ⟨rfl, rfl, rfl, rfl, rfl, rfl, hsame⟩ (by rw [hpc]; rfl) nofun
        (fun _ => Or.inr (not_not.1 hf)) fun ha => Or.inl (by rw [hpc]; exact ha)
  | rearm site count =>
    simp only [hpc] at hs
    cases hs
    have hf := h.flagged (by rw [hpc]; rfl)
    have hone := h.one
    rw [if_neg hf] at hone
    refine ⟨?_, fun _ => rfl, nofun, fun _ h0 => absurd rfl h0, fun ha hv => ?_⟩
    · show s.reads + (s.sqes + 1) = 1
      omega
    · exact h.visible (by rw [hpc]; exact ha) hv
  | submit site count =>
    simp only [hpc] at hs
    cases hs
    have htest : s.pc.tested := by rw [hpc]; rfl
    refine ⟨h.one, fun hpos => absurd hpos (Nat.lt_irrefl 0), fun hr => ?_, fun _ => h.seen htest,
      fun ha hv => ?_⟩
    · cases site with
      | maintenance => cases hr
      | sleep => cases hr
      | run =>
        have hr : (if count > 0 then Pc.run else Pc.sleep).rearming := hr
        split at hr <;> cases hr
    · -- `sleep` follows only where nothing has been counted
      cases site with
      | maintenance => cases ha
      | sleep => cases ha
      | run =>
        have ha : (if count > 0 then Pc.run else Pc.sleep).awake = false := ha
        split at ha
        · cases ha
        · next h0 =>
          refine h.visible ?_ hv
          rw [hpc]
          simpa [Pc.awake] using h0
  | sleep =>
    simp only [hpc] at hs
    split at hs
    · cases hs
      exact h.elsewhere ⟨rfl, rfl, rfl, rfl, rfl, rfl, hsame⟩ (by rw [hpc]; rfl) rfl rfl rfl
    · cases hs
      exact h.inside ⟨rfl, rfl, rfl, rfl, rfl, rfl, hsame⟩ (by rw [hpc]; rfl) nofun
        (fun _ => Or.inl (by rw [hpc]; rfl)) fun _ => Or.inl (by rw [hpc]; rfl)
  | wait =>
    simp only [hpc, Option.ite_none_left_eq_some, Option.some.injEq] at hs
    obtain ⟨-, rfl⟩ := hs
    exact h.elsewhere ⟨rfl, rfl, rfl, rfl, rfl, rfl, hsame⟩ (by rw [hpc]; rfl) rfl rfl rfl
  | queues =>
    simp only [hpc] at hs
    split at hs
    · cases hs
      exact h.elsewhere ⟨rfl, rfl, rfl, rfl, rfl, rfl, hsame⟩ (by rw [hpc]; rfl) rfl rfl rfl
    · next hq =>
      split at hs
      · cases hs
        exact h.elsewhere ⟨rfl, rfl, rfl, rfl, rfl, rfl, hsame⟩ (by rw [hpc]; rfl) rfl rfl rfl
      · cases hs
        exact h.inside ⟨rfl, rfl, rfl, rfl, rfl, rfl, hsame⟩ (by rw [hpc]; rfl) nofun
          (fun _ => Or.inl (by rw [hpc]; rfl)) fun _ => Or.inr (not_not.1 (not_or.1 hq).2)
  | exited =>
    simp only [hpc] at hs
    cases hs

/-- A task that is not announced before the step is not announced by a push. -/
theorem Inv.pushed {s t : State T} (h : Inv s) (hpc : t.pc = s.pc) (h1 : t.flag = s.flag)
    (h2 : t.sqes = s.sqes) (h3 : t.reads = s.reads) (h4 : t.counter = s.counter) (h5 : t.cq = s.cq)
    (hv : Visible t → Visible s) : Inv t := by
  refine ⟨?_, ?_, ?_, ?_, ?_⟩
  · rw [h1, h2, h3]
    exact h.one
  · rw [h2, hpc]
    exact h.submitted
  · rw [h1, hpc]
    exact h.flagged
  · rw [h1, h5, hpc]
    exact h.seen
  · rw [h4, h5, hpc]
    exact fun ha hx => h.visible ha (hv hx)

theorem Inv.step {config : Config} {s t : State T} {a : Act T} (h : Inv s)
    (hs : step config s a = some t) : Inv t := by
  cases a with
  | worker expired woken => exact h.stepWorker hs
  | timeout =>
    simp only [CurrentThread.step, Option.ite_none_right_eq_some, Option.some.injEq] at hs
    obtain ⟨hpc, rfl⟩ := hs
    exact h.elsewhere ⟨rfl, rfl, rfl, rfl, rfl, rfl, fun _ hp => hp⟩ (by rw [hpc]; rfl) rfl rfl rfl
  | scheduleLocal task =>
    simp only [CurrentThread.step, Option.ite_none_right_eq_some] at hs
    obtain ⟨-, hs⟩ := hs
    split at hs <;> cases hs
    · exact h.pushed rfl rfl rfl rfl rfl rfl id
    · exact h.pushed rfl rfl rfl rfl rfl rfl id
  | push tasks =>
    cases hs
    refine h.pushed rfl rfl rfl rfl rfl rfl fun ⟨p, hp, hw⟩ => ?_
    obtain ⟨hw1, hw2⟩ := not_or.1 (fun hx => hw (List.mem_append.2 hx))
    rcases List.mem_append.1 hp with hp | hp
    · exact ⟨p, hp, hw1⟩
    · obtain ⟨task, -, rfl⟩ := List.mem_map.1 hp
      exact absurd (List.mem_singleton_self s.calls) hw2
  | shutdown =>
    cases hs
    refine h.pushed rfl rfl rfl rfl rfl rfl fun ⟨p, hp, hw⟩ => ?_
    exact ⟨p, hp, fun hx => hw (List.mem_append_left _ hx)⟩
  | write call =>
    simp only [CurrentThread.step, Option.ite_none_right_eq_some, Option.some.injEq] at hs
    obtain ⟨-, rfl⟩ := hs
    exact ⟨h.one, h.submitted, h.flagged, h.seen, fun _ _ => Or.inl (Nat.succ_pos _)⟩
  | read =>
    simp only [CurrentThread.step, Option.ite_none_right_eq_some, Option.some.injEq] at hs
    obtain ⟨⟨hr, hc⟩, rfl⟩ := hs
    have hne : s.cq ++ [none] ≠ [] := List.append_ne_nil_of_right_ne_nil _ (List.cons_ne_nil _ _)
    have hc0 : s.counter ≠ 0 := Nat.ne_of_gt hc
    have hone := h.one
    refine ⟨?_, h.submitted, fun _ => hc0, fun _ _ => hne, fun _ _ => Or.inr hne⟩
    show s.reads - 1 + s.sqes = if s.counter = 0 then 1 else 0
    rw [if_neg hc0]
    split at hone <;> omega
  | post task =>
    cases hs
    have hne : s.cq ++ [task] ≠ [] := List.append_ne_nil_of_right_ne_nil _ (List.cons_ne_nil _ _)
    exact ⟨h.one, h.submitted, h.flagged, fun _ _ => hne, fun _ _ => Or.inr hne⟩

/-! ## Top theorem -/

theorem Inv.not_stuck {s : State T} (h : Inv s) : ¬ Stuck s := by
  rintro ⟨hpc, hcq, hread, hv⟩
  have hcounter : 0 < s.counter := by
    rcases h.visible (by rw [hpc]; rfl) hv with hc | hne
    · exact hc
    · exact absurd hcq hne
  have hflag : s.flag = 0 := by
    by_contra hf
    exact h.seen (by rw [hpc]; rfl) hf hcq
  have hone := h.one
  have hsqes := h.sqes (by rw [hpc]; rfl)
  rw [if_pos hflag] at hone
  exact hread ⟨by omega, hcounter⟩

/-- **No sleep on visible work.**  However calls from other threads, the worker and the
kernel take turns, the worker is never blocked for good while a task it was woken for
is in the global queue, and one read of the eventfd at most is under way. -/
theorem never_stuck (config : Config) (as : List (Act T)) (s : State T)
    (h : run (step config) init as = some s) : ¬ Stuck s ∧ s.reads + s.sqes ≤ 1 := by
  have hi := run_inv Inv (fun _ _ _ h hs _ => h.step hs) inv_init h (eachStep_true _ as)
  refine ⟨hi.not_stuck, ?_⟩
  rw [hi.one]
  split <;> omega

/-- A task comes when the worker has just blocked. -/
def lateTask : List (Act Unit) :=
  List.replicate 9 (.worker 0 []) ++ [.push [()], .write 0]

theorem never_stuck_lateTask :
    ∃ s : State Unit, run (step {}) init lateTask = some s ∧ s.pc = .wait ∧ s.cq = [] ∧
      s.globalQueue = [(0, ())] ∧ s.writing = [] ∧ ¬ Stuck s ∧ s.reads + s.sqes ≤ 1 := by
  obtain ⟨s, hs, hpc, hcq, hglobal, hwriting⟩ := run_eval (step {}) init lateTask
    (fun s => s.pc = .wait ∧ s.cq = [] ∧ s.globalQueue = [(0, ())] ∧ s.writing = [])
    (by decide +kernel)
  exact ⟨s, hs, hpc, hcq, hglobal, hwriting, never_stuck {} lateTask s hs⟩

end Kosio.Runtime.CurrentThread
