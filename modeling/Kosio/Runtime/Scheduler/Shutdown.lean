import Mathlib.Algebra.BigOperators.Fin
import Mathlib.Data.Fintype.Pi
import Kosio.Lib.Service
import Kosio.Runtime.Config

/-!
# Shutting the workers down

`Shared::close` marks the global queue as closed and, the first time, writes the
eventfd of each worker in turn.  A worker looks at the mark every `io_interval` turns
of its loop, before it goes to sleep and each time it comes out of `wait`; then it
leaves `run`, and `~Worker` waits at a latch until every worker has.

* Every worker leaves: one that blocks after it has seen the queue open is written to,
  with a read of its eventfd under way (`Inv.announced`, `Inv.seen`), so something can
  always be done until all workers are gone (`closing_progress`), and each takes a
  bounded number of steps (`closing_bounded`), the wrap of `tick_` included.
* A call made by a worker's task writes to no worker that is gone, since its own worker
  has not arrived at the latch (`worker_calls_safe`).  The latch says nothing about a
  call from outside.

What a worker does between the checks is left open: whether there is a task, which
timers expire, whom it wakes.  Its ring works: `turn_on` gets an SQE, and a submission
does not fail.
-/

namespace Kosio.Runtime.Shutdown

open Function Steps

/-! ## Algorithm -/

/-- Who calls `Driver::poll`. -/
inductive Site where
  | maintenance | run | sleep
deriving DecidableEq

inductive Pc where
  | loop
  | poll (site : Site)
  | handle (site : Site) (count : Nat)
  | expire (site : Site) (count : Nat)
  | turnOn (site : Site) (count : Nat)
  | rearm (site : Site) (count : Nat)
  | submit (site : Site) (count : Nat)
  /-- `check_shutdown` in `maintenance` -/
  | check
  /-- `next_task` and `steal_task` -/
  | nextTask
  | running
  /-- `check_shutdown` in `sleep` -/
  | sleep
  | toSleeping
  | wait
  /-- `check_shutdown` after `wait` -/
  | woken
  | fromSleeping
  /-- in `~Worker` -/
  | latch
  | destroyed
deriving DecidableEq

structure Worker where
  pc : Pc := .loop
  tick : BitVec 32 := 0#32
  isShutdown : Bool := false
  flag : Nat := 1
  /-- reads of the eventfd: taken from the ring, and submitted -/
  sqes : Nat := 0
  reads : Nat := 0
  counter : Nat := 0
  cq : Nat := 0
deriving DecidableEq

/-- Where `poll` goes back to. -/
def Site.after (count : Nat) : Site → Pc
  | .maintenance => .check
  | .run => if count > 0 then .loop else .sleep
  | .sleep => .woken

/-- `check_shutdown` -/
def Worker.checkShutdown (r : Worker) (closed : Bool) : Worker :=
  if r.isShutdown then r else { r with isShutdown := closed }

/-- The loop in `sleep`. -/
def Worker.sleepLoop (r : Worker) : Worker :=
  { r with pc := if r.isShutdown then .loop else .wait }

/-- A step of a worker in `run`.  `found`: there is a task, or the transition is made;
`expired`: the timers that expire.  The ring has an SQE for the read of the eventfd, and
`io_uring_submit` succeeds. -/
def Worker.step (config : Config) (closed : Bool) (r : Worker) (found : Bool) (expired : Nat) :
    Option Worker :=
  match r.pc with
  | .loop =>
    if r.isShutdown then some { r with pc := .latch }
    else
      let r := { r with tick := r.tick + 1#32 }
      if r.tick.toNat % config.ioInterval = 0 then some { r with pc := .poll .maintenance }
      else some { r with pc := .nextTask }
  | .poll site => some { r with pc := .handle site (min r.cq localQueueCapacity) }
  | .handle site count => some { r with cq := r.cq - count, pc := .expire site count }
  | .expire site count => some { r with pc := .turnOn site (count + expired) }
  | .turnOn site count =>
    if r.flag ≠ 0 then some { r with pc := .rearm site count }
    else some { r with pc := .submit site count }
  | .rearm site count => some { r with flag := 0, sqes := r.sqes + 1, pc := .submit site count }
  | .submit site count =>
    some { r with reads := r.reads + r.sqes, sqes := 0, pc := site.after count }
  | .check => some { r.checkShutdown closed with pc := .nextTask }
  | .nextTask => some { r with pc := if found then .running else .poll .run }
  -- the task is suspended or done
  | .running => some { r with pc := .loop }
  | .sleep => some { r.checkShutdown closed with pc := .toSleeping }
  -- `found`: `has_task`
  | .toSleeping => if found then some { r with pc := .loop } else some r.sleepLoop
  | .wait => if r.cq = 0 then none else some { r with pc := .poll .sleep }
  | .woken => some { r.checkShutdown closed with pc := .fromSleeping }
  | .fromSleeping => if found then some { r with pc := .loop } else some r.sleepLoop
  | .latch | .destroyed => none

/-- Out of `run`. -/
def Pc.past : Pc → Bool
  | .latch | .destroyed => true
  | _ => false

structure State (n : Nat) where
  worker : Fin n → Worker
  isClosed : Bool
  /-- `wake_up_all`: who called it (`none` outside of the workers), and who is still to be
  written to -/
  walk : Option (Option (Fin n) × List (Fin n))
  /-- a worker that is gone has been written to -/
  fault : Bool

variable {n : Nat}

def init : State n := { worker := fun _ => {}, isClosed := false, walk := none, fault := false }

def State.set (s : State n) (w : Fin n) (r : Worker) : State n :=
  { s with worker := update s.worker w r }

/-- `Worker::wake_up` -/
def State.wakeUp (s : State n) (w : Fin n) : State n :=
  if (s.worker w).pc = .destroyed then { s with fault := true }
  else s.set w { s.worker w with counter := (s.worker w).counter + 1 }

/-- The task that `w` runs is in `wake_up_all`. -/
def State.walking (s : State n) (w : Fin n) : Bool :=
  match s.walk with
  | some (some v, _) => v == w
  | _ => false

inductive Act (n : Nat) where
  | work (w : Fin n) (found : Bool) (expired : Nat)
  /-- the timeout of `wait`, or a signal -/
  | timeout (w : Fin n)
  /-- the latch lets `w` through -/
  | destroy (w : Fin n)
  /-- `close` by a task on a worker, or from outside -/
  | close (caller : Option (Fin n))
  | walk
  /-- `wake_up_one` and the like, with the worker they pick -/
  | wake (caller : Option (Fin n)) (target : Fin n)
  /-- the kernel answers the read of the eventfd -/
  | read (w : Fin n)
  /-- it answers something else -/
  | post (w : Fin n)
deriving DecidableEq

def step (config : Config) (s : State n) : Act n → Option (State n)
  | .work w found expired =>
    if s.walking w then none
    else ((s.worker w).step config s.isClosed found expired).map (s.set w)
  | .timeout w =>
    if (s.worker w).pc = .wait then some (s.set w { s.worker w with pc := .poll .sleep }) else none
  | .destroy w =>
    if (s.worker w).pc = .latch ∧ ∀ v, (s.worker v).pc.past then
      some (s.set w { s.worker w with pc := .destroyed })
    else none
  | .close caller =>
    if ∀ w ∈ caller, (s.worker w).pc = .running ∧ s.walking w = false then
      if s.isClosed then some s
      else some { s with isClosed := true, walk := some (caller, List.finRange n) }
    else none
  | .walk =>
    match s.walk with
    | none => none
    | some (_, []) => some { s with walk := none }
    | some (caller, w :: rest) => some { s.wakeUp w with walk := some (caller, rest) }
  | .wake caller target =>
    if ∀ w ∈ caller, (s.worker w).pc.past = false then some (s.wakeUp target) else none
  | .read w =>
    if 0 < (s.worker w).reads ∧ 0 < (s.worker w).counter then
      some (s.set w
        { s.worker w with
          flag := (s.worker w).counter, counter := 0, reads := (s.worker w).reads - 1
          cq := (s.worker w).cq + 1 })
    else none
  | .post w => some (s.set w { s.worker w with cq := (s.worker w).cq + 1 })

/-! ## Invariant -/

/-- The flag has been tested since completions were last handled. -/
def Pc.tested : Pc → Bool
  | .submit _ _ | .sleep | .toSleeping | .wait | .woken | .fromSleeping => true
  | _ => false

def Pc.submitting : Pc → Bool
  | .submit _ _ => true
  | _ => false

def Pc.rearming : Pc → Bool
  | .rearm _ _ => true
  | _ => false

/-- The worker blocks before it looks at the mark again. -/
def Pc.asleep : Pc → Bool
  | .toSleeping | .wait | .fromSleeping => true
  | _ => false

theorem Site.after_awake (site : Site) (count : Nat) : (site.after count).rearming = false ∧
    site.after count ≠ .wait ∧ (site.after count).asleep = false := by
  cases site with
  | maintenance => simp [Site.after, Pc.rearming, Pc.asleep]
  | sleep => simp [Site.after, Pc.rearming, Pc.asleep]
  | run =>
    by_cases hc : count > 0
    · simp [Site.after, hc, Pc.rearming, Pc.asleep]
    · simp [Site.after, hc, Pc.rearming, Pc.asleep]

/-- `announced`: the queue has been closed, and the worker written to. -/
structure Worker.Inv (announced : Prop) (r : Worker) : Prop where
  /-- a read is under way if and only if the flag is 0 -/
  one : r.reads + r.sqes = if r.flag = 0 then 1 else 0
  submitted : 0 < r.sqes → r.pc.submitting
  flagged : r.pc.rearming → r.flag ≠ 0
  seen : r.pc.tested → r.flag ≠ 0 → 0 < r.cq
  awake : r.pc = .wait → r.isShutdown = false
  announced : announced → r.pc.asleep → r.isShutdown = false → 0 < r.counter ∨ 0 < r.cq

theorem Worker.inv_init {announced : Prop} : Worker.Inv announced {} := by
  refine ⟨rfl, ?_, ?_, ?_, ?_, ?_⟩
  · exact fun h => absurd h (Nat.lt_irrefl 0)
  · exact fun h => by cases h
  · exact fun h => by cases h
  · exact fun h => by cases h
  · exact fun _ h => by cases h

theorem Worker.Inv.sqes {announced : Prop} {r : Worker} (h : r.Inv announced)
    (hsub : r.pc.submitting = false) : r.sqes = 0 := by
  by_contra h0
  have := h.submitted (Nat.pos_of_ne_zero h0)
  rw [hsub] at this
  cases this

/-- A step that leaves the ring and the eventfd alone. -/
theorem Worker.Inv.inside {announced : Prop} {r : Worker} (h : r.Inv announced) (pc : Pc)
    (tick : BitVec 32) (isShutdown : Bool) (hsub : r.pc.submitting = false)
    (hflag : pc.rearming → r.flag ≠ 0) (htest : pc.tested → r.pc.tested ∨ r.flag = 0)
    (hwait : pc = .wait → isShutdown = false)
    (hasleep : announced → pc.asleep → isShutdown = false →
      r.pc.asleep ∧ r.isShutdown = false) :
    Worker.Inv announced { r with pc, tick, isShutdown } := by
  refine ⟨h.one, ?_, hflag, ?_, hwait, ?_⟩
  · intro hpos
    rw [h.sqes hsub] at hpos
    exact absurd hpos (Nat.lt_irrefl 0)
  · intro ht hf
    rcases htest ht with hr | h0
    · exact h.seen hr hf
    · exact absurd h0 hf
  · intro ha hs hn
    obtain ⟨h1, h2⟩ := hasleep ha hs hn
    exact h.announced ha h1 h2

theorem Worker.Inv.elsewhere {announced : Prop} {r : Worker} (h : r.Inv announced) (pc : Pc)
    (tick : BitVec 32) (isShutdown : Bool) (hsub : r.pc.submitting = false)
    (hflag : pc.rearming = false) (htest : pc.tested = false) (hasleep : pc.asleep = false) :
    Worker.Inv announced { r with pc, tick, isShutdown } := by
  refine h.inside pc tick isShutdown hsub ?_ ?_ ?_ ?_
  · intro hr
    rw [hflag] at hr
    cases hr
  · intro ht
    rw [htest] at ht
    cases ht
  · rintro rfl
    cases hasleep
  · intro _ hs
    rw [hasleep] at hs
    cases hs

/-- After `check_shutdown` the mark has been seen. -/
theorem Worker.Inv.checks {announced : Prop} {r : Worker} {closed : Bool} (h : r.Inv announced)
    (pc : Pc) (hclosed : announced → closed = true) (hsub : r.pc.submitting = false)
    (hflag : pc.rearming = false) (htest : pc.tested → r.pc.tested) (hwait : pc ≠ .wait) :
    Worker.Inv announced { r.checkShutdown closed with pc } := by
  have heq : { r.checkShutdown closed with pc } =
      { r with pc, isShutdown := (r.checkShutdown closed).isShutdown } := by
    unfold Worker.checkShutdown
    split <;> rfl
  rw [heq]
  refine h.inside pc r.tick _ hsub ?_ (fun ht => .inl (htest ht)) (fun hp => absurd hp hwait) ?_
  · intro hr
    rw [hflag] at hr
    cases hr
  · intro ha _ hn
    unfold Worker.checkShutdown at hn
    split at hn
    · rename_i hs
      rw [hs] at hn
      cases hn
    · rw [hclosed ha] at hn
      cases hn

theorem Worker.Inv.sleepLoop {announced : Prop} {r : Worker} (h : r.Inv announced)
    (hsub : r.pc.submitting = false) (htest : r.pc.tested) (hasleep : r.pc.asleep) :
    Worker.Inv announced r.sleepLoop := by
  unfold Worker.sleepLoop
  split
  · exact h.elsewhere .loop r.tick r.isShutdown hsub rfl rfl rfl
  · rename_i hs
    have hs : r.isShutdown = false := by simpa using hs
    exact h.inside .wait r.tick r.isShutdown hsub (fun hr => by cases hr) (fun _ => .inl htest)
      (fun _ => hs) fun _ _ _ => ⟨hasleep, hs⟩

/-- **A step of a worker.** -/
theorem Worker.Inv.step {announced : Prop} {config : Config} {closed found : Bool} {expired : Nat}
    {r t : Worker} (h : r.Inv announced) (hclosed : announced → closed = true)
    (hs : r.step config closed found expired = some t) : t.Inv announced := by
  unfold Worker.step at hs
  cases hpc : r.pc with
  | loop =>
    simp only [hpc] at hs
    split at hs
    · cases hs
      exact h.elsewhere _ _ _ (by rw [hpc]; rfl) rfl rfl rfl
    · split at hs
      · cases hs
        exact h.elsewhere _ _ _ (by rw [hpc]; rfl) rfl rfl rfl
      · cases hs
        exact h.elsewhere _ _ _ (by rw [hpc]; rfl) rfl rfl rfl
  | poll site =>
    simp only [hpc, Option.some.injEq] at hs
    subst hs
    exact h.elsewhere _ _ _ (by rw [hpc]; rfl) rfl rfl rfl
  | handle site count =>
    simp only [hpc, Option.some.injEq] at hs
    subst hs
    refine ⟨h.one, ?_, ?_, ?_, ?_, ?_⟩
    · intro hpos
      rw [h.sqes (by rw [hpc]; rfl)] at hpos
      exact absurd hpos (Nat.lt_irrefl 0)
    · exact fun hr => by cases hr
    · exact fun ht => by cases ht
    · exact fun hw => by cases hw
    · exact fun _ ha => by cases ha
  | expire site count =>
    simp only [hpc, Option.some.injEq] at hs
    subst hs
    exact h.elsewhere _ _ _ (by rw [hpc]; rfl) rfl rfl rfl
  | turnOn site count =>
    simp only [hpc] at hs
    split at hs
    · rename_i hf
      cases hs
      exact h.inside _ _ _ (by rw [hpc]; rfl) (fun _ => hf) (fun ht => by cases ht)
        (fun hw => by cases hw) fun _ ha => by cases ha
    · rename_i hf
      cases hs
      exact h.inside _ _ _ (by rw [hpc]; rfl) (fun hr => by cases hr) (fun _ => .inr (not_not.1 hf))
        (fun hw => by cases hw) fun _ ha => by cases ha
  | rearm site count =>
    simp only [hpc, Option.some.injEq] at hs
    subst hs
    have hf := h.flagged (by rw [hpc]; rfl)
    have hone := h.one
    rw [if_neg hf] at hone
    refine ⟨?_, fun _ => rfl, ?_, fun _ h0 => absurd rfl h0, ?_, ?_⟩
    · show r.reads + (r.sqes + 1) = 1
      omega
    · exact fun hr => by cases hr
    · exact fun hw => by cases hw
    · exact fun _ ha => by cases ha
  | submit site count =>
    simp only [hpc, Option.some.injEq] at hs
    subst hs
    have htest : r.pc.tested := by rw [hpc]; rfl
    obtain ⟨h1, h2, h3⟩ := site.after_awake count
    refine ⟨h.one, ?_, ?_, fun _ => h.seen htest, fun hw => absurd hw h2, ?_⟩
    · exact fun hpos => absurd hpos (Nat.lt_irrefl 0)
    · intro hr
      rw [h1] at hr
      cases hr
    · intro _ ha
      rw [h3] at ha
      cases ha
  | check =>
    simp only [hpc, Option.some.injEq] at hs
    subst hs
    exact h.checks _ hclosed (by rw [hpc]; rfl) rfl (fun ht => by cases ht) fun hw => by cases hw
  | nextTask =>
    simp only [hpc, Option.some.injEq] at hs
    subst hs
    split
    · exact h.elsewhere _ _ _ (by rw [hpc]; rfl) rfl rfl rfl
    · exact h.elsewhere _ _ _ (by rw [hpc]; rfl) rfl rfl rfl
  | running =>
    simp only [hpc, Option.some.injEq] at hs
    subst hs
    exact h.elsewhere _ _ _ (by rw [hpc]; rfl) rfl rfl rfl
  | sleep =>
    simp only [hpc, Option.some.injEq] at hs
    subst hs
    exact h.checks _ hclosed (by rw [hpc]; rfl) rfl (fun _ => by rw [hpc]; rfl) fun hw => by cases hw
  | toSleeping =>
    simp only [hpc] at hs
    split at hs
    · cases hs
      exact h.elsewhere _ _ _ (by rw [hpc]; rfl) rfl rfl rfl
    · cases hs
      exact h.sleepLoop (by rw [hpc]; rfl) (by rw [hpc]; rfl) (by rw [hpc]; rfl)
  | wait =>
    simp only [hpc] at hs
    split at hs
    · cases hs
    · cases hs
      exact h.elsewhere _ _ _ (by rw [hpc]; rfl) rfl rfl rfl
  | woken =>
    simp only [hpc, Option.some.injEq] at hs
    subst hs
    exact h.checks _ hclosed (by rw [hpc]; rfl) rfl (fun _ => by rw [hpc]; rfl) fun hw => by cases hw
  | fromSleeping =>
    simp only [hpc] at hs
    split at hs
    · cases hs
      exact h.elsewhere _ _ _ (by rw [hpc]; rfl) rfl rfl rfl
    · cases hs
      exact h.sleepLoop (by rw [hpc]; rfl) (by rw [hpc]; rfl) (by rw [hpc]; rfl)
  | latch =>
    simp only [hpc] at hs
    cases hs
  | destroyed =>
    simp only [hpc] at hs
    cases hs

/-- Who has not been written to yet. -/
def State.pending (s : State n) : List (Fin n) :=
  match s.walk with
  | some (_, rest) => rest
  | none => []

/-- Closed, and `w` has been written to. -/
def State.announced (s : State n) (w : Fin n) : Prop := s.isClosed = true ∧ w ∉ s.pending

structure Inv (s : State n) : Prop where
  worker : ∀ w, (s.worker w).Inv (s.announced w)
  closed : s.walk ≠ none → s.isClosed = true
  caller : ∀ w rest, s.walk = some (some w, rest) → (s.worker w).pc = .running
  gone : ∀ w, (s.worker w).pc = .destroyed → ∀ v, (s.worker v).pc.past

theorem inv_init : Inv (init : State n) := by
  refine ⟨fun _ => Worker.inv_init, ?_, ?_, ?_⟩
  · exact fun h => absurd rfl h
  · exact fun w rest h => by cases h
  · exact fun w h => by cases h

@[simp] theorem set_worker_self (s : State n) (w : Fin n) (r : Worker) :
    (s.set w r).worker w = r := update_self ..

theorem set_worker_ne (s : State n) {w v : Fin n} (r : Worker) (h : v ≠ w) :
    (s.set w r).worker v = s.worker v := update_of_ne h ..

/-- A step of one worker, which is in `run` before it or at the latch. -/
theorem Inv.set {s : State n} {w : Fin n} {r : Worker} (h : Inv s)
    (hr : r.Inv (s.announced w)) (hpast : (s.worker w).pc.past → r.pc.past)
    (hcaller : s.walking w → r.pc = .running)
    (hgone : r.pc = .destroyed → ∀ v, (s.worker v).pc.past) : Inv (s.set w r) := by
  have hworker : ∀ v, (s.set w r).worker v = if v = w then r else s.worker v := by
    intro v
    by_cases hv : v = w
    · rw [hv, set_worker_self, if_pos rfl]
    · rw [set_worker_ne _ _ hv, if_neg hv]
  have hmono : ∀ v, (s.worker v).pc.past → ((s.set w r).worker v).pc.past := by
    intro v hv
    rw [hworker]
    split
    · rename_i hvw
      exact hpast (hvw ▸ hv)
    · exact hv
  refine ⟨?_, h.closed, ?_, ?_⟩
  · intro v
    show ((s.set w r).worker v).Inv (s.announced v)
    rw [hworker]
    split
    · rename_i hvw
      rw [hvw]
      exact hr
    · exact h.worker v
  · intro v rest hwalk
    rw [hworker]
    split
    · rename_i hvw
      apply hcaller
      show (match s.walk with
        | some (some v, _) => v == w
        | _ => false) = true
      rw [show s.walk = some (some v, rest) from hwalk]
      simpa using hvw
    · exact h.caller v rest hwalk
  · intro v hv u
    apply hmono
    rw [hworker] at hv
    split at hv
    · exact hgone hv u
    · exact h.gone v hv u

theorem Inv.past_of_walking {s : State n} {w : Fin n} (h : Inv s) (hw : s.walking w = true) :
    (s.worker w).pc = .running := by
  unfold State.walking at hw
  split at hw
  · rename_i v rest hwalk
    rw [← eq_of_beq hw]
    exact h.caller v rest hwalk
  · cases hw

/-- An eventfd that has been written to, or a completion. -/
theorem Worker.Inv.arrives {announced announced' : Prop} {r : Worker} (h : r.Inv announced)
    {counter cq : Nat} (hcq : r.cq ≤ cq) (hann : 0 < counter ∨ 0 < cq) :
    Worker.Inv announced' { r with counter, cq } :=
  ⟨h.one, h.submitted, h.flagged, fun ht hf => Nat.lt_of_lt_of_le (h.seen ht hf) hcq, h.awake,
    fun _ _ _ => hann⟩

theorem Worker.Inv.read {announced : Prop} {r : Worker} (h : r.Inv announced) (hr : 0 < r.reads)
    (hc : 0 < r.counter) :
    Worker.Inv announced
      { r with flag := r.counter, counter := 0, reads := r.reads - 1, cq := r.cq + 1 } := by
  have hc0 : r.counter ≠ 0 := Nat.ne_of_gt hc
  have hone := h.one
  refine ⟨?_, h.submitted, fun _ => hc0, fun _ _ => Nat.succ_pos _, h.awake,
    fun _ _ _ => .inr (Nat.succ_pos _)⟩
  show r.reads - 1 + r.sqes = if r.counter = 0 then 1 else 0
  rw [if_neg hc0]
  split at hone
  · omega
  · omega

theorem Inv.wakeUp {s : State n} (h : Inv s) (w : Fin n) : Inv (s.wakeUp w) := by
  unfold State.wakeUp
  split
  · exact ⟨h.worker, h.closed, h.caller, h.gone⟩
  · exact h.set ((h.worker w).arrives (Nat.le_refl _) (.inl (Nat.succ_pos _))) (fun hp => hp)
      h.past_of_walking fun hp => h.gone w hp

theorem Worker.step_past {config : Config} {closed found : Bool} {expired : Nat} {r t : Worker}
    (hs : r.step config closed found expired = some t) :
    r.pc.past = false ∧ t.pc ≠ .destroyed := by
  unfold Worker.step at hs
  cases hpc : r.pc with
  | submit site count =>
    simp only [hpc, Option.some.injEq] at hs
    subst hs
    refine ⟨rfl, ?_⟩
    cases site with
    | maintenance => simp [Site.after]
    | sleep => simp [Site.after]
    | run =>
      by_cases hc : count > 0
      · simp [Site.after, hc]
      · simp [Site.after, hc]
  | loop =>
    simp only [hpc] at hs
    refine ⟨rfl, ?_⟩
    split at hs
    · cases hs
      simp
    · split at hs
      · cases hs
        simp
      · cases hs
        simp
  | turnOn site count =>
    simp only [hpc] at hs
    refine ⟨rfl, ?_⟩
    split at hs
    · cases hs
      simp
    · cases hs
      simp
  | toSleeping | fromSleeping =>
    simp only [hpc, Worker.sleepLoop] at hs
    refine ⟨rfl, ?_⟩
    split at hs
    · cases hs
      simp
    · cases hs
      dsimp only
      split
      · simp
      · simp
  | wait =>
    simp only [hpc] at hs
    refine ⟨rfl, ?_⟩
    split at hs
    · cases hs
    · cases hs
      simp
  | nextTask =>
    simp only [hpc, Option.some.injEq] at hs
    subst hs
    refine ⟨rfl, ?_⟩
    split
    · simp
    · simp
  | latch | destroyed =>
    simp only [hpc] at hs
    cases hs
  | _ =>
    simp only [hpc, Option.some.injEq] at hs
    subst hs
    exact ⟨rfl, by simp⟩

theorem inv_step {config : Config} {s t : State n} {a : Act n} (h : Inv s)
    (hs : step config s a = some t) : Inv t := by
  cases a with
  | work w found expired =>
    simp only [step] at hs
    split at hs
    · cases hs
    · rename_i hwalk
      obtain ⟨r, hr, rfl⟩ := Option.map_eq_some_iff.1 hs
      obtain ⟨h1, h2⟩ := Worker.step_past hr
      refine h.set ((h.worker w).step (fun ha => ha.1) hr) ?_ (fun hw => absurd hw hwalk)
        fun hd => absurd hd h2
      intro hp
      rw [h1] at hp
      cases hp
  | timeout w =>
    simp only [step, Option.ite_none_right_eq_some, Option.some.injEq] at hs
    obtain ⟨hpc, rfl⟩ := hs
    refine h.set ((h.worker w).elsewhere (.poll .sleep) _ _ (by rw [hpc]; rfl) rfl rfl rfl) ?_ ?_ ?_
    · intro hp
      rw [hpc] at hp
      cases hp
    · intro hw
      rw [h.past_of_walking hw] at hpc
      cases hpc
    · exact fun hd => by cases hd
  | destroy w =>
    simp only [step, Option.ite_none_right_eq_some, Option.some.injEq] at hs
    obtain ⟨⟨hpc, hall⟩, rfl⟩ := hs
    refine h.set ((h.worker w).elsewhere .destroyed _ _ (by rw [hpc]; rfl) rfl rfl rfl)
      (fun _ => rfl) ?_ fun _ => hall
    intro hw
    rw [h.past_of_walking hw] at hpc
    cases hpc
  | close caller =>
    simp only [step, Option.ite_none_right_eq_some] at hs
    obtain ⟨hcaller, hs⟩ := hs
    split at hs
    · cases hs
      exact h
    · rename_i hopen
      cases hs
      refine ⟨?_, fun _ => rfl, ?_, h.gone⟩
      · intro w
        have hw := h.worker w
        -- nobody has been written to
        refine ⟨hw.one, hw.submitted, hw.flagged, hw.seen, hw.awake, fun ha => ?_⟩
        exact absurd (List.mem_finRange w) ha.2
      · intro w rest hwalk
        cases hwalk
        exact (hcaller w rfl).1
  | walk =>
    simp only [step] at hs
    split at hs
    · cases hs
    · rename_i caller hwalk
      cases hs
      refine ⟨?_, fun hne => absurd rfl hne, fun w rest hw => (by cases hw), h.gone⟩
      intro w
      have hw := h.worker w
      refine ⟨hw.one, hw.submitted, hw.flagged, hw.seen, hw.awake, fun ha => hw.announced ⟨ha.1, ?_⟩⟩
      rw [State.pending, hwalk]
      exact List.not_mem_nil
    · rename_i caller w rest hwalk
      cases hs
      have hclosed : s.isClosed = true := h.closed (by rw [hwalk]; simp)
      have hw := h.wakeUp w
      have hfields : (s.wakeUp w).walk = s.walk ∧ (s.wakeUp w).isClosed = s.isClosed := by
        unfold State.wakeUp
        split
        · exact ⟨rfl, rfl⟩
        · exact ⟨rfl, rfl⟩
      refine ⟨?_, fun _ => hfields.2.trans hclosed, ?_, hw.gone⟩
      · intro v
        have hv := hw.worker v
        refine ⟨hv.one, hv.submitted, hv.flagged, hv.seen, hv.awake, fun ha hasleep hns => ?_⟩
        by_cases hvw : v = w
        · -- it has just been written to
          subst hvw
          left
          show 0 < ((s.wakeUp v).worker v).counter
          change ((s.wakeUp v).worker v).pc.asleep = true at hasleep
          unfold State.wakeUp at hasleep ⊢
          split
          · rename_i hd
            rw [if_pos hd] at hasleep
            change (s.worker v).pc.asleep = true at hasleep
            rw [hd] at hasleep
            cases hasleep
          · rw [set_worker_self]
            exact Nat.succ_pos _
        · refine hv.announced ⟨ha.1, ?_⟩ hasleep hns
          rw [State.pending, hfields.1, hwalk]
          exact fun hmem => (List.mem_cons.1 hmem).elim hvw ha.2
      · intro v rest' hv
        cases hv
        exact hw.caller v (w :: rest) (hfields.1.trans hwalk)
  | wake caller target =>
    simp only [step, Option.ite_none_right_eq_some, Option.some.injEq] at hs
    obtain ⟨-, rfl⟩ := hs
    exact h.wakeUp target
  | read w =>
    simp only [step, Option.ite_none_right_eq_some, Option.some.injEq] at hs
    obtain ⟨⟨hr, hc⟩, rfl⟩ := hs
    exact h.set ((h.worker w).read hr hc) (fun hp => hp) h.past_of_walking fun hp => h.gone w hp
  | post w =>
    simp only [step, Option.some.injEq] at hs
    subst hs
    exact h.set ((h.worker w).arrives (Nat.le_succ _) (.inr (Nat.succ_pos _))) (fun hp => hp)
      h.past_of_walking fun hp => h.gone w hp

/-! ## How long it takes -/

/-- Turns until the next one whose tick is a multiple of the interval. -/
def Worker.turns (config : Config) (r : Worker) : Nat :=
  config.ioInterval - r.tick.toNat % config.ioInterval

/-- Steps from the head of the loop, once the queue is closed. -/
def Worker.budget (config : Config) (r : Worker) : Nat :=
  if r.isShutdown then 1 else 18 + 12 * r.turns config

/-- Steps from within `poll`. -/
def Pc.polling : Pc → Nat
  | .poll _ => 6
  | .handle _ _ => 5
  | .expire _ _ => 4
  | .turnOn _ _ => 3
  | .rearm _ _ => 2
  | .submit _ _ => 1
  | _ => 0

def Site.rank (config : Config) (r : Worker) : Site → Nat
  | .maintenance => 12
  | .run => r.budget config + 3
  | .sleep => 3

/-- A bound for the steps that `r` still takes, once the queue is closed. -/
def Worker.rank (config : Config) (r : Worker) : Nat :=
  match r.pc with
  | .loop => r.budget config
  | .poll site | .handle site _ | .expire site _ | .turnOn site _ | .rearm site _
  | .submit site _ => site.rank config r + r.pc.polling
  | .check => 12
  | .nextTask => r.budget config + 10
  | .running => r.budget config + 1
  | .sleep => 3
  | .toSleeping | .fromSleeping => if r.isShutdown then 2 else r.budget config + 1
  | .wait => 10
  | .woken => 3
  | .latch | .destroyed => 0

/-- A turn that does not check brings the next check closer; 0 is a multiple, so the wrap
only makes it earlier. -/
theorem turns_tick (config : Config) (r : Worker) (hpos : 0 < config.ioInterval)
    (hne : ¬ (r.tick + 1#32).toNat % config.ioInterval = 0) :
    Worker.turns config { r with tick := r.tick + 1#32 } + 1 = r.turns config := by
  have hmod := Nat.mod_lt r.tick.toNat hpos
  have hsucc : (r.tick + 1#32).toNat % config.ioInterval = r.tick.toNat % config.ioInterval + 1 :=
    tick_mod r.tick hpos hne
  show config.ioInterval - (r.tick + 1#32).toNat % config.ioInterval + 1
    = config.ioInterval - r.tick.toNat % config.ioInterval
  rw [hsucc]
  omega

theorem turns_pos (config : Config) (r : Worker) (hpos : 0 < config.ioInterval) :
    0 < r.turns config := by
  have := Nat.mod_lt r.tick.toNat hpos
  show 0 < config.ioInterval - r.tick.toNat % config.ioInterval
  omega

theorem rank_le (config : Config) (r : Worker) :
    r.rank config ≤ 12 * config.ioInterval + 28 := by
  have hturns : r.turns config ≤ config.ioInterval := Nat.sub_le _ _
  have hbudget : r.budget config ≤ 12 * config.ioInterval + 18 := by
    unfold Worker.budget
    split
    · omega
    · omega
  have hpolling : r.pc.polling ≤ 6 := by
    unfold Pc.polling
    split <;> omega
  have hsite : ∀ site : Site, site.rank config r ≤ 12 * config.ioInterval + 21 := by
    intro site
    cases site with
    | maintenance =>
      show 12 ≤ _
      omega
    | run =>
      show r.budget config + 3 ≤ _
      omega
    | sleep =>
      show 3 ≤ _
      omega
  unfold Worker.rank
  split
  all_goals first
    | omega
    | exact Nat.le_trans (Nat.add_le_add (hsite _) hpolling) (by omega)
    | (split <;> omega)

theorem budget_pos (config : Config) (r : Worker) : 0 < r.budget config := by
  unfold Worker.budget
  split <;> omega

theorem rank_after (config : Config) (r : Worker) (site : Site) (count : Nat) :
    Worker.rank config { r with pc := site.after count } ≤ site.rank config r := by
  cases site with
  | maintenance => exact Nat.le_refl _
  | sleep => exact Nat.le_refl _
  | run =>
    by_cases hc : count > 0
    · rw [show Site.run.after count = .loop from if_pos hc]
      exact Nat.le_add_right _ _
    · rw [show Site.run.after count = .sleep from if_neg hc]
      show 3 ≤ r.budget config + 3
      omega

theorem rank_sleepLoop {config : Config} {r : Worker} (hpos : 0 < config.ioInterval) :
    r.sleepLoop.rank config < if r.isShutdown then 2 else r.budget config + 1 := by
  have hturns := turns_pos config r hpos
  unfold Worker.sleepLoop
  split
  · rename_i hs
    show Worker.budget config { r with pc := .loop } < 2
    rw [Worker.budget, if_pos hs]
    omega
  · rename_i hs
    show 10 < r.budget config + 1
    rw [Worker.budget, if_neg hs]
    omega

theorem checkShutdown_closed (r : Worker) : (r.checkShutdown true).isShutdown = true := by
  unfold Worker.checkShutdown
  split
  · assumption
  · rfl

/-- **Once the queue is closed, a worker comes closer to the end with each step.** -/
theorem rank_step {config : Config} {r t : Worker} {found : Bool} {expired : Nat}
    (hpos : 0 < config.ioInterval) (hs : r.step config true found expired = some t) :
    t.rank config < r.rank config := by
  have hbudget := budget_pos config r
  have hchecked : (r.checkShutdown true).budget config = 1 := by
    rw [Worker.budget, if_pos (checkShutdown_closed r)]
  unfold Worker.step at hs
  cases hpc : r.pc with
  | loop =>
    simp only [hpc] at hs
    have hrank : r.rank config = r.budget config := by rw [Worker.rank, hpc]
    rw [hrank]
    split at hs
    · cases hs
      exact hbudget
    · rename_i hshut
      have hturns := turns_pos config r hpos
      have hopen : r.budget config = 18 + 12 * r.turns config := if_neg hshut
      split at hs
      · cases hs
        show 12 + 6 < r.budget config
        omega
      · rename_i hne
        cases hs
        have htick := turns_tick config r hpos hne
        show Worker.budget config { r with tick := r.tick + 1#32, pc := .nextTask } + 10 < _
        rw [Worker.budget, if_neg hshut]
        change 18 + 12 * Worker.turns config { r with tick := r.tick + 1#32 } + 10 < _
        omega
  | poll site | handle site count | expire site count | rearm site count =>
    simp only [hpc, Option.some.injEq] at hs
    subst hs
    rw [Worker.rank, Worker.rank, hpc]
    exact Nat.add_lt_add_left (by simp [Pc.polling]) _
  | turnOn site count =>
    simp only [hpc] at hs
    split at hs
    · cases hs
      rw [Worker.rank, Worker.rank, hpc]
      exact Nat.add_lt_add_left (by simp [Pc.polling]) _
    · cases hs
      rw [Worker.rank, Worker.rank, hpc]
      exact Nat.add_lt_add_left (by simp [Pc.polling]) _
  | submit site count =>
    simp only [hpc, Option.some.injEq] at hs
    subst hs
    have := rank_after config { r with reads := r.reads + r.sqes, sqes := 0 } site count
    have hrank : r.rank config = site.rank config r + 1 := by
      rw [Worker.rank, hpc]
      rfl
    rw [hrank]
    refine Nat.lt_succ_of_le (Nat.le_trans this (Nat.le_of_eq ?_))
    cases site <;> rfl
  | check =>
    simp only [hpc, Option.some.injEq] at hs
    subst hs
    rw [show r.rank config = 12 by rw [Worker.rank, hpc]]
    show (r.checkShutdown true).budget config + 10 < 12
    omega
  | nextTask =>
    simp only [hpc, Option.some.injEq] at hs
    subst hs
    rw [show r.rank config = r.budget config + 10 by rw [Worker.rank, hpc]]
    split
    · show r.budget config + 1 < r.budget config + 10
      omega
    · show r.budget config + 3 + 6 < r.budget config + 10
      omega
  | running =>
    simp only [hpc, Option.some.injEq] at hs
    subst hs
    rw [show r.rank config = r.budget config + 1 by rw [Worker.rank, hpc]]
    exact Nat.lt_succ_self _
  | sleep | woken =>
    simp only [hpc, Option.some.injEq] at hs
    subst hs
    rw [show r.rank config = 3 by rw [Worker.rank, hpc]]
    show (if (r.checkShutdown true).isShutdown then 2
      else (r.checkShutdown true).budget config + 1) < 3
    rw [if_pos (checkShutdown_closed r)]
    omega
  | toSleeping | fromSleeping =>
    simp only [hpc] at hs
    rw [show r.rank config = if r.isShutdown then 2 else r.budget config + 1 by
      rw [Worker.rank, hpc]]
    split at hs
    · cases hs
      show r.budget config < _
      split
      · rename_i hshut
        rw [Worker.budget, if_pos hshut]
        omega
      · omega
    · cases hs
      exact rank_sleepLoop hpos
  | wait =>
    simp only [hpc] at hs
    split at hs
    · cases hs
    · cases hs
      rw [show r.rank config = 10 by rw [Worker.rank, hpc]]
      show 3 + 6 < 10
      omega
  | latch | destroyed =>
    simp only [hpc] at hs
    cases hs

/-! ## Top theorems -/

/-- A step `w` takes itself. -/
def Act.own (w : Fin n) : Act n → Bool
  | .work v _ _ => v == w
  | .timeout v => v == w
  | _ => false

theorem wakeUp_isClosed (s : State n) (w : Fin n) : (s.wakeUp w).isClosed = s.isClosed := by
  unfold State.wakeUp
  split
  · rfl
  · rfl

theorem step_isClosed {config : Config} {s t : State n} {a : Act n}
    (hs : step config s a = some t) (hclosed : s.isClosed = true) : t.isClosed = true := by
  cases a with
  | work w found expired =>
    simp only [step] at hs
    split at hs
    · cases hs
    · obtain ⟨r, -, rfl⟩ := Option.map_eq_some_iff.1 hs
      exact hclosed
  | timeout w | destroy w | read w =>
    simp only [step, Option.ite_none_right_eq_some, Option.some.injEq] at hs
    obtain ⟨-, rfl⟩ := hs
    exact hclosed
  | close caller =>
    simp only [step, Option.ite_none_right_eq_some] at hs
    obtain ⟨-, hs⟩ := hs
    rw [if_pos hclosed] at hs
    cases hs
    exact hclosed
  | walk =>
    simp only [step] at hs
    split at hs
    · cases hs
    · cases hs
      exact hclosed
    · cases hs
      exact (wakeUp_isClosed s _).trans hclosed
  | wake caller target =>
    simp only [step, Option.ite_none_right_eq_some, Option.some.injEq] at hs
    obtain ⟨-, rfl⟩ := hs
    exact (wakeUp_isClosed s target).trans hclosed
  | post w =>
    simp only [step, Option.some.injEq] at hs
    subst hs
    exact hclosed

theorem rank_set (config : Config) (s : State n) (v w : Fin n) (r : Worker)
    (hr : r.rank config = (s.worker v).rank config) :
    ((s.set v r).worker w).rank config = (s.worker w).rank config := by
  by_cases hw : w = v
  · rw [hw, set_worker_self, hr]
  · rw [set_worker_ne _ _ hw]

theorem rank_wakeUp (config : Config) (s : State n) (v w : Fin n) :
    ((s.wakeUp v).worker w).rank config = (s.worker w).rank config := by
  unfold State.wakeUp
  split
  · rfl
  · exact rank_set config s v w _ rfl

theorem rank_machine {config : Config} {s t : State n} {a : Act n} (w : Fin n)
    (hpos : 0 < config.ioInterval) (hs : step config s a = some t) (hclosed : s.isClosed = true) :
    (t.worker w).rank config + (if a.own w then 1 else 0) ≤ (s.worker w).rank config := by
  -- what one worker does is its own step
  have hone : ∀ (v : Fin n) (r : Worker), r.rank config < (s.worker v).rank config →
      ((s.set v r).worker w).rank config + (if v == w then 1 else 0) ≤
        (s.worker w).rank config := by
    intro v r hlt
    by_cases hv : v = w
    · subst hv
      rw [set_worker_self, beq_self_eq_true, if_pos rfl]
      exact hlt
    · rw [set_worker_ne _ _ (Ne.symm hv), if_neg (by simpa using hv)]
      exact Nat.le_refl _
  cases a with
  | work v found expired =>
    simp only [step] at hs
    split at hs
    · cases hs
    · obtain ⟨r, hr, rfl⟩ := Option.map_eq_some_iff.1 hs
      rw [hclosed] at hr
      exact hone v r (rank_step hpos hr)
  | timeout v =>
    simp only [step, Option.ite_none_right_eq_some, Option.some.injEq] at hs
    obtain ⟨hpc, rfl⟩ := hs
    refine hone v _ ?_
    rw [show (s.worker v).rank config = 10 by rw [Worker.rank, hpc]]
    show 3 + 6 < 10
    omega
  | destroy v =>
    simp only [step, Option.ite_none_right_eq_some, Option.some.injEq] at hs
    obtain ⟨⟨hpc, -⟩, rfl⟩ := hs
    refine Nat.le_of_eq (rank_set config s v w _ ?_)
    rw [show (s.worker v).rank config = 0 by rw [Worker.rank, hpc]]
    rfl
  | close caller =>
    simp only [step, Option.ite_none_right_eq_some] at hs
    obtain ⟨-, hs⟩ := hs
    rw [if_pos hclosed] at hs
    cases hs
    exact Nat.le_refl _
  | walk =>
    simp only [step] at hs
    split at hs
    · cases hs
    · cases hs
      exact Nat.le_refl _
    · cases hs
      exact Nat.le_of_eq (rank_wakeUp config s _ w)
  | wake caller target =>
    simp only [step, Option.ite_none_right_eq_some, Option.some.injEq] at hs
    obtain ⟨-, rfl⟩ := hs
    exact Nat.le_of_eq (rank_wakeUp config s target w)
  | read v =>
    simp only [step, Option.ite_none_right_eq_some, Option.some.injEq] at hs
    obtain ⟨-, rfl⟩ := hs
    exact Nat.le_of_eq (rank_set config s v w _ rfl)
  | post v =>
    simp only [step, Option.some.injEq] at hs
    subst hs
    exact Nat.le_of_eq (rank_set config s v w _ rfl)

theorem own_le_rank {config : Config} {s t : State n} {as : List (Act n)} (w : Fin n)
    (hpos : 0 < config.ioInterval) (hr : run (step config) s as = some t)
    (hclosed : s.isClosed = true) :
    (t.worker w).rank config + as.countP (·.own w) ≤ (s.worker w).rank config := by
  induction as generalizing s with
  | nil =>
    cases hr
    exact Nat.le_refl _
  | cons a as ih =>
    obtain ⟨u, h1, h2⟩ := (run_cons ..).1 hr
    have hstep := rank_machine w hpos h1 hclosed
    have hrest := ih h2 (step_isClosed h1 hclosed)
    rw [List.countP_cons]
    omega

/-- Only `wait` keeps a worker in `run` from its next step. -/
theorem Worker.step_isSome (config : Config) {r : Worker} (closed : Bool)
    (hpast : r.pc.past = false) (hwait : r.pc = .wait → 0 < r.cq) :
    (r.step config closed false 0).isSome := by
  unfold Worker.step
  cases hpc : r.pc with
  | wait =>
    simp only
    rw [if_neg (Nat.ne_of_gt (hwait hpc))]
    rfl
  | latch | destroyed =>
    rw [hpc] at hpast
    cases hpast
  | loop =>
    simp only
    split
    · rfl
    · split
      · rfl
      · rfl
  | turnOn site count =>
    simp only
    split
    · rfl
    · rfl
  | _ => rfl

/-- Steps of the workers, of the walk and of the latch, and the kernel's answer to a read of
an eventfd. -/
def Act.serves : Act n → Bool
  | .work _ _ _ | .destroy _ | .walk | .read _ => true
  | _ => false

/-- A worker that is blocked for good has not been written to. -/
theorem Worker.Inv.served {announced : Prop} {r : Worker} (h : r.Inv announced) (ha : announced)
    (hwait : r.pc = .wait) (hcq : r.cq = 0) : 0 < r.reads ∧ 0 < r.counter := by
  have hcounter : 0 < r.counter := by
    rcases h.announced ha (by rw [hwait]; rfl) (h.awake hwait) with hc | hc
    · exact hc
    · omega
  have hflag : r.flag = 0 := by
    by_contra hf
    have := h.seen (by rw [hwait]; rfl) hf
    omega
  have hone := h.one
  have hsqes := h.sqes (by rw [hwait]; rfl)
  rw [if_pos hflag] at hone
  exact ⟨by omega, hcounter⟩

theorem Inv.progress {config : Config} {s : State n} (h : Inv s) (hclosed : s.isClosed = true)
    (hleft : ∃ w, (s.worker w).pc ≠ .destroyed) :
    ∃ a, a.serves = true ∧ (step config s a).isSome := by
  cases hwalk : s.walk with
  | some walk =>
    refine ⟨.walk, rfl, ?_⟩
    obtain ⟨caller, rest⟩ := walk
    cases rest with
    | nil => simp [step, hwalk]
    | cons w rest => simp [step, hwalk]
  | none =>
    have hquiet : ∀ w, s.walking w = false := by
      intro w
      rw [State.walking, hwalk]
    by_cases hpast : ∀ w, (s.worker w).pc.past
    · -- the latch is open
      obtain ⟨w, hw⟩ := hleft
      have hlatch : (s.worker w).pc = .latch := by
        have := hpast w
        unfold Pc.past at this
        split at this
        · assumption
        · contradiction
        · cases this
      exact ⟨.destroy w, rfl, by simp [step, hlatch, hpast]⟩
    · obtain ⟨w, hw⟩ := not_forall.1 hpast
      have hw : (s.worker w).pc.past = false := by simpa using hw
      by_cases hblocked : (s.worker w).pc = .wait ∧ (s.worker w).cq = 0
      · have hann : s.announced w := ⟨hclosed, by rw [State.pending, hwalk]; exact List.not_mem_nil⟩
        have := (h.worker w).served hann hblocked.1 hblocked.2
        exact ⟨.read w, rfl, by simp [step, this]⟩
      · have hsome := Worker.step_isSome config s.isClosed hw fun hwait =>
          Nat.pos_of_ne_zero fun h0 => hblocked ⟨hwait, h0⟩
        refine ⟨.work w false 0, rfl, ?_⟩
        simpa [step, hquiet w] using hsome

theorem inv_run {config : Config} {s : State n} {as : List (Act n)}
    (hr : run (step config) init as = some s) : Inv s :=
  run_inv Inv (fun _ _ _ h hs _ => inv_step h hs) inv_init hr (eachStep_true _ _)

/-- **`close` ends the runtime.**  From then on a worker takes at most
`12 * io_interval + 28` steps, whatever happens, and until all are destroyed something can
be done that is not up to the tasks or to other events. -/
theorem close_terminates {config : Config} (hpos : 0 < config.ioInterval) {s : State n}
    {as : List (Act n)} (hr : run (step config) init as = some s) (hclosed : s.isClosed = true) :
    (∀ w bs t, run (step config) s bs = some t →
        bs.countP (·.own w) ≤ 12 * config.ioInterval + 28) ∧
      ((∃ w, (s.worker w).pc ≠ .destroyed) →
        ∃ a, a.serves = true ∧ (step config s a).isSome) := by
  refine ⟨fun w bs t hbs => ?_, (inv_run hr).progress hclosed⟩
  have h1 := own_le_rank w hpos hbs hclosed
  have h2 := rank_le config (s.worker w)
  omega

/-- Worker 0 closes when worker 1 has gone to sleep. -/
def closeRun : List (Act 2) :=
  List.replicate 10 (.work ⟨1, Nat.one_lt_two⟩ false 0) ++
    [.work ⟨0, Nat.zero_lt_two⟩ false 0, .work ⟨0, Nat.zero_lt_two⟩ true 0,
      .close (some ⟨0, Nat.zero_lt_two⟩)]

theorem close_terminates_closeRun :
    ∃ s : State 2, run (step {}) init closeRun = some s ∧
      (s.worker ⟨1, Nat.one_lt_two⟩).pc = .wait ∧
      (∀ w bs t, run (step {}) s bs = some t → bs.countP (·.own w) ≤ 12 * 61 + 28) ∧
      ((∃ w, (s.worker w).pc ≠ .destroyed) → ∃ a, a.serves = true ∧ (step {} s a).isSome) := by
  obtain ⟨s, hs, hclosed, hpc⟩ := run_eval (step {}) init closeRun
    (fun s => s.isClosed = true ∧ (s.worker ⟨1, Nat.one_lt_two⟩).pc = .wait) (by decide +kernel)
  have hend := close_terminates (by decide) hs hclosed
  exact ⟨s, hs, hpc, hend.1, hend.2⟩

/-- The call is not made by a task on a worker. -/
def State.outside (s : State n) : Act n → Prop
  | .wake none _ => True
  | .walk => ∃ rest, s.walk = some (none, rest)
  | _ => False

theorem wakeUp_fault {s : State n} {w : Fin n} (hf : (s.wakeUp w).fault = true) :
    s.fault = true ∨ (s.worker w).pc = .destroyed := by
  unfold State.wakeUp at hf
  split at hf
  · exact .inr ‹_›
  · exact .inl hf

theorem Inv.fault {config : Config} {s t : State n} {a : Act n} (h : Inv s)
    (hs : step config s a = some t) (hf : t.fault = true) : s.fault = true ∨ s.outside a := by
  -- a worker from which there is a call has not arrived, so nobody is gone
  have hcaller : ∀ v w, (s.worker v).pc.past = false → (s.wakeUp w).fault = true →
      s.fault = true := by
    intro v w hv hw
    refine (wakeUp_fault hw).resolve_right fun hd => ?_
    rw [h.gone w hd v] at hv
    cases hv
  cases a with
  | work w found expired =>
    simp only [step] at hs
    split at hs
    · cases hs
    · obtain ⟨r, -, rfl⟩ := Option.map_eq_some_iff.1 hs
      exact .inl hf
  | timeout w | destroy w | read w =>
    simp only [step, Option.ite_none_right_eq_some, Option.some.injEq] at hs
    obtain ⟨-, rfl⟩ := hs
    exact .inl hf
  | close caller =>
    simp only [step, Option.ite_none_right_eq_some] at hs
    obtain ⟨-, hs⟩ := hs
    split at hs
    · cases hs
      exact .inl hf
    · cases hs
      exact .inl hf
  | walk =>
    simp only [step] at hs
    split at hs
    · cases hs
    · cases hs
      exact .inl hf
    · rename_i caller w rest hwalk
      cases hs
      cases caller with
      | none => exact .inr ⟨_, hwalk⟩
      | some v =>
        have hv := h.caller v _ hwalk
        exact .inl (hcaller v w (by rw [hv]; rfl) hf)
  | wake caller target =>
    simp only [step, Option.ite_none_right_eq_some, Option.some.injEq] at hs
    obtain ⟨hc, rfl⟩ := hs
    cases caller with
    | none => exact .inr trivial
    | some v => exact .inl (hcaller v target (hc v rfl) hf)
  | post w =>
    simp only [step, Option.some.injEq] at hs
    subst hs
    exact .inl hf

/-- **No call of a worker's task writes to a worker that is gone**; where one is written
to, the call came from outside. -/
theorem worker_calls_safe (config : Config) (as : List (Act n)) :
    EachStep (step config) (fun s a t => t.fault = true → s.fault = true ∨ s.outside a) init as :=
  eachStep_of_inv Inv (fun _ _ _ h hs _ => inv_step h hs) (fun _ _ _ h hs _ hf => h.fault hs hf)
    inv_init (eachStep_true _ _)

/-- `close` from outside while the only worker is awake. -/
example : ∃ s : State 1, run (step { ioInterval := 1 }) init
    ([.close none] ++ List.replicate 8 (.work ⟨0, Nat.zero_lt_one⟩ false 0) ++
      List.replicate 3 (.work ⟨0, Nat.zero_lt_one⟩ true 0) ++
      [.destroy ⟨0, Nat.zero_lt_one⟩, .walk]) = some s ∧ s.fault = true :=
  run_eval _ _ _ _ (by decide +kernel)

end Kosio.Runtime.Shutdown
