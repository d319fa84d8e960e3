import Mathlib.Data.Finset.Card
import Mathlib.Data.Fintype.Sum
import Kosio.Lib.Run
import Kosio.Runtime.Scheduler.WorkStealing
import Kosio.Runtime.Scheduler.Worker

/-!
# No lost wake-up

While the global queue holds a task and a worker sleeps, some worker is
searching, or some thread still owes a wake-up check (`Obliged`).

* The low field of the idle word counts the workers that search or have been
  notified to (`Holds`), so who leaves last knows it.
* Who pushes, and who leaves last, owes a check, and a check that wakes nobody
  has seen a searcher or no sleeper.
* Four places let a debt go or add a sleeper with no check (`Checked`): a worker
  that is not searching goes to sleep; `wake_up_if_work_pending` stops at a local
  queue; `poll` finds at most one task in its own; `sleep` leaves `Driver::wait`.
-/

namespace Kosio.Runtime

/-! ## Queue calls -/

namespace WorkStealing

variable {W T : Type} [DecidableEq W] {s t : State W T} {w : W}

/-- Within `push_back_or_overflow`, the one call that pushes to the global queue. -/
def Pc.pushing : Pc W T → Bool
  | .pushHead _ | .pushTail _ _ | .pushGlobal _ | .pushWrite _ _ | .pushStore _ _ => true
  | .overflowCas _ _ _ | .overflowRead _ _ _ => true
  | _ => false

/-- What a step within a call by `w` leaves alone. -/
structure Local (s t : State W T) (w : W) : Prop where
  pc : ∀ v ≠ w, t.pc v = s.pc v
  pushing : (t.pc w).pushing → (s.pc w).pushing
  global : (s.pc w).pushing = false → t.global = s.global
  num : s.global.num = s.global.tasks.length → t.global.num = t.global.tasks.length

theorem local_of {p : Pc W T} (hpc : t.pc = Function.update s.pc w p) (hg : t.global = s.global)
    (hp : p.pushing → (s.pc w).pushing) : Local s t w := by
  refine ⟨fun v hv => ?_, fun h => hp ?_, fun _ => hg, fun h => hg ▸ h⟩
  · rw [hpc]
    exact Function.update_of_ne hv ..
  · rwa [hpc, Function.update_self] at h

theorem local_publish (tasks : List T) (hp : (s.pc w).pushing) : Local s (publish s w tasks) w := by
  refine ⟨fun v hv => Function.update_of_ne hv .., fun _ => hp, fun h => ?_, fun h => ?_⟩
  · rw [hp] at h
    cases h
  · exact pushBatch_num h tasks

theorem stepPc_local {b : Bool} (hs : stepPc s w b = some t) : Local s t w := by
  unfold stepPc at hs
  cases hpc : s.pc w
  all_goals simp only [hpc] at hs
  all_goals repeat' split at hs
  all_goals cases hs
  all_goals first
    | exact local_publish _ (by rw [hpc]; rfl)
    | exact local_of rfl rfl (by rw [hpc]; simp [Pc.pushing])

theorem call_eq {p : Pc W T} (hs : call s w p = some t) : t = setPc s w p := by
  unfold call at hs
  split at hs
  · cases hs
    rfl
  · cases hs

/-- The call that an action starts. -/
def Act.starts : Act W T → Option (W × Pc W T)
  | .remainingSlots w => some (w, .remHead)
  | .pushBatch w tasks => some (w, .batchHead tasks)
  | .pushBackOrOverflow w task => some (w, .pushHead task)
  | .pop w => some (w, .popHead)
  | .stealInto src w => some (w, .stealDstHead src)
  | _ => none

theorem step_starts {a : Act W T} {p : Pc W T} (ha : a.starts = some (w, p))
    (hs : step s a = some t) : t.pc = Function.update s.pc w p ∧ t.global = s.global := by
  cases a with
  | remainingSlots v =>
    cases ha
    rw [call_eq hs]
    exact ⟨rfl, rfl⟩
  | pushBatch v tasks =>
    cases ha
    simp only [step, Option.ite_none_right_eq_some] at hs
    rw [call_eq hs.2]
    exact ⟨rfl, rfl⟩
  | pushBackOrOverflow v task =>
    cases ha
    rw [call_eq hs]
    exact ⟨rfl, rfl⟩
  | pop v =>
    cases ha
    rw [call_eq hs]
    exact ⟨rfl, rfl⟩
  | stealInto src v =>
    cases ha
    simp only [step, Option.ite_none_left_eq_some] at hs
    rw [call_eq hs.2]
    exact ⟨rfl, rfl⟩
  | _ => cases ha

end WorkStealing

namespace MultiThread

open Steps

variable {n : Nat} {R T : Type} {s t : State n R T} {w : Fin n}

/-! ## Invariant -/

def After.asleep : After → Bool
  | .wait => true
  | _ => false

/-- In the loop of `sleep`. -/
def Pc.asleep : Pc n T → Bool
  | .arrive k | .deliver k _ _ | .delivering k _ _ | .notifyHead k _ | .notifyTail k _ _
  | .wakeUpOne _ k => k.asleep
  | .scanHead _ | .scanTail _ _ | .scanGlobal => true
  | .wokenHead _ | .wokenTail _ _ | .remove _ | .contains _ => true
  | _ => false

/-- Where `is_searching_` is off. -/
def Pc.resting : Pc n T → Bool
  | .incSearching => true
  | p => p.asleep

theorem Pc.resting_of_asleep {p : Pc n T} (h : p.asleep) : p.resting := by
  cases p <;> first | rfl | exact h

/-- In a call of `push_back_or_overflow`. -/
def Pc.inPush : Pc n T → Bool
  | .delivering _ _ _ | .scheduleLocal _ _ => true
  | _ => false

/-- Between a push to the global queue, or leaving the searchers last, and the
wake-up check. -/
def Pc.obliged : Pc n T → Bool
  | .deliver _ _ published | .delivering _ _ published => published
  | .notifyHead _ published | .notifyTail _ published _ => published
  | .scheduleLocal _ published => published
  | .wakeUpOne _ _ | .scanHead _ | .scanTail _ _ | .scanGlobal => true
  | .wokenHead published | .wokenTail published _ => published
  | .remove published | .contains published => published
  | _ => false

def Pc.stage : Pc n T → Option Notify
  | .wakeUpOne stage _ => some stage
  | _ => none

/-- Where a thread is in `worker_to_notify`. -/
def stage (s : State n R T) : Fin n ⊕ R → Option Notify
  | .inl w => (s.worker w).pc.stage
  | .inr r => s.remote r

def Obliged (s : State n R T) : Fin n ⊕ R → Bool
  | .inl w => (s.worker w).pc.obliged
  | .inr r => (s.remote r).isSome

/-- `w` is searching, or has been notified to. -/
def Holds (s : State n R T) (w : Fin n) : Prop :=
  (s.worker w).isSearching ∨ ((s.worker w).pc.asleep ∧ w ∉ s.idle.sleepingWorkers)

instance (s : State n R T) : DecidablePred (Holds s) := fun w => by
  unfold Holds
  infer_instance

def holders (s : State n R T) : Finset (Fin n) := Finset.univ.filter (Holds s)

/-- If `u` owes no check, nobody looks after the global queue for `sleepers`. -/
def Stranded (s : State n R T) (u : Fin n ⊕ R) (sleepers : Finset (Fin n)) : Prop :=
  s.queues.global.num ≠ 0 ∧ sleepers.Nonempty ∧ s.idle.state.numSearching = 0 ∧
    ∀ v ≠ u, Obliged s v = false

/-- The places that make no check are come to only when that strands nobody, and
no increment carries out of the low field. -/
def Checked (s : State n R T) (a : Act n R T) (_ : State n R T) : Prop :=
  let sleepers := s.idle.sleepingWorkers
  match a with
  | .step w _ =>
    let r := s.worker w
    match r.pc with
    | .incSearching => s.idle.state.numSearching + 1 < 2 ^ 16
    | .toSleeping => r.isSearching = false → ¬ Stranded s (.inl w) (insert w sleepers)
    | .scanTail i head => (s.queues.queue i).tail - head ≠ 0 → ¬ Stranded s (.inl w) sleepers
    | .notifyTail _ published head =>
      published ∧ ((s.queues.queue w).tail - head).toNat ≤ 1 → ¬ Stranded s (.inl w) sleepers
    | .remove published =>
      published ∧ w ∈ sleepers → ¬ Stranded s (.inl w) (sleepers.erase w)
    | .contains published => published ∧ w ∈ sleepers → ¬ Stranded s (.inl w) sleepers
    | _ => True
  | .wakeUpOne w _ =>
    stage s (.inl w) = some .wake → s.idle.state.numSearching + 1 < 2 ^ 16
  | .remoteWakeUpOne r _ =>
    stage s (.inr r) = some .wake → s.idle.state.numSearching + 1 < 2 ^ 16
  | _ => True

instance [Fintype R] [DecidableEq R] (s : State n R T) (u : Fin n ⊕ R)
    (sleepers : Finset (Fin n)) : Decidable (Stranded s u sleepers) := by
  unfold Stranded
  infer_instance

instance [Fintype R] [DecidableEq R] (s : State n R T) (a : Act n R T) (t : State n R T) :
    Decidable (Checked s a t) := by
  unfold Checked
  split
  · dsimp only
    split <;> infer_instance
  · infer_instance
  · infer_instance
  · infer_instance

structure Inv (s : State n R T) : Prop where
  small : n < 2 ^ 48
  packs : Packs s.idle.state (n - s.idle.sleepingWorkers.card) (holders s).card
  sleeping : ∀ w ∈ s.idle.sleepingWorkers, (s.worker w).pc.asleep
  quiet : ∀ w, (s.worker w).pc.resting → (s.worker w).isSearching = false
  mutex : ∀ u, stage s u = some .wake → s.idle.mutex = some u
  /-- `begin()` is of a set that is not empty -/
  begins : ∀ u, stage s u = some .wake → s.idle.sleepingWorkers.Nonempty
  calls : ∀ w, (s.queues.pc w).pushing → (s.worker w).pc.inPush
  num : s.queues.global.num = s.queues.global.tasks.length
  covered : s.queues.global.num ≠ 0 → s.idle.sleepingWorkers.Nonempty →
    s.idle.state.numSearching = 0 → ∃ u, Obliged s u

/-- The part of it about `Idle`, which no step breaks. -/
structure Counts (s : State n R T) : Prop where
  small : n < 2 ^ 48
  packs : Packs s.idle.state (n - s.idle.sleepingWorkers.card) (holders s).card
  sleeping : ∀ w ∈ s.idle.sleepingWorkers, (s.worker w).pc.asleep
  quiet : ∀ w, (s.worker w).pc.resting → (s.worker w).isSearching = false
  mutex : ∀ u, stage s u = some .wake → s.idle.mutex = some u
  begins : ∀ u, stage s u = some .wake → s.idle.sleepingWorkers.Nonempty

theorem Inv.counts (h : Inv s) : Counts s :=
  ⟨h.small, h.packs, h.sleeping, h.quiet, h.mutex, h.begins⟩

theorem Inv.of_counts (h : Counts s) (calls : ∀ w, (s.queues.pc w).pushing → (s.worker w).pc.inPush)
    (num : s.queues.global.num = s.queues.global.tasks.length)
    (covered : s.queues.global.num ≠ 0 → s.idle.sleepingWorkers.Nonempty →
      s.idle.state.numSearching = 0 → ∃ u, Obliged s u) : Inv s :=
  ⟨h.small, h.packs, h.sleeping, h.quiet, h.mutex, h.begins, calls, num, covered⟩

theorem counts_init [Inhabited T] (hn : n < 2 ^ 48) : Counts (init : State n R T) := by
  have hh : holders (init : State n R T) = ∅ :=
    Finset.filter_eq_empty_iff.2 fun w _ => by simp [Holds, init, Pc.asleep]
  refine ⟨hn, ?_, nofun, nofun, ?_, ?_⟩
  · rw [hh]
    exact Packs.init hn
  · rintro (w | r) h <;> cases h
  · rintro (w | r) h <;> cases h

theorem inv_init [Inhabited T] (hn : n < 2 ^ 48) : Inv (init : State n R T) :=
  .of_counts (counts_init hn) nofun rfl nofun

/-! ## What a step leaves alone -/

@[simp] theorem setWorker_worker_self (s : State n R T) (w : Fin n) (r : Worker n T) :
    (setWorker s w r).worker w = r := Function.update_self ..

theorem setWorker_worker_ne (s : State n R T) {w v : Fin n} (r : Worker n T) (hv : v ≠ w) :
    (setWorker s w r).worker v = s.worker v := Function.update_of_ne hv ..

theorem holds_setWorker_ne (s : State n R T) {w v : Fin n} (r : Worker n T) (hv : v ≠ w) :
    Holds (setWorker s w r) v ↔ Holds s v := by
  unfold Holds
  rw [setWorker_worker_ne s r hv]
  rfl

theorem stage_setWorker (s : State n R T) {u : Fin n ⊕ R} (r : Worker n T) (hu : u ≠ .inl w) :
    stage (setWorker s w r) u = stage s u := by
  cases u with
  | inl v => exact congrArg (·.pc.stage) (setWorker_worker_ne s r fun hv => hu (congrArg _ hv))
  | inr => rfl

theorem stage_of_setWorker {u : Fin n ⊕ R} {r : Worker n T} (hr : r.pc.stage ≠ some .wake)
    (hu : stage (setWorker s w r) u = some .wake) : stage s u = some .wake := by
  by_cases huw : u = .inl w
  · subst huw
    refine absurd ?_ hr
    simpa [stage] using hu
  · rwa [stage_setWorker _ r huw] at hu

theorem obliged_setWorker (s : State n R T) {u : Fin n ⊕ R} (r : Worker n T) (hu : u ≠ .inl w) :
    Obliged (setWorker s w r) u = Obliged s u := by
  cases u with
  | inl v => exact congrArg (·.pc.obliged) (setWorker_worker_ne s r fun hv => hu (congrArg _ hv))
  | inr => rfl

theorem obliged_idles (s : State n R T) (idle : Idle n R) {u : Fin n ⊕ R} (r : Worker n T)
    (hu : u ≠ .inl w) : Obliged (setWorker { s with idle } w r) u = Obliged s u := by
  rw [obliged_setWorker _ r hu]
  cases u <;> rfl

theorem exists_other {u : Fin n ⊕ R} {sleepers : Finset (Fin n)}
    (hu : ¬ Stranded s u sleepers) (hg : s.queues.global.num ≠ 0) (hs : sleepers.Nonempty)
    (hn : s.idle.state.numSearching = 0) : ∃ v ≠ u, Obliged s v := by
  by_contra hno
  refine hu ⟨hg, hs, hn, fun v hv => ?_⟩
  rw [← Bool.not_eq_true]
  exact fun hv' => hno ⟨v, hv, hv'⟩

/-- What a step of `w` does to the queues, if it goes on at `r`. -/
structure Serves (s : State n R T) (q : WorkStealing.State (Fin n) T) (w : Fin n)
    (r : Worker n T) : Prop where
  pc : ∀ v ≠ w, q.pc v = s.queues.pc v
  calls : (q.pc w).pushing → r.pc.inPush
  num : q.global.num = q.global.tasks.length
  global : q.global.num ≠ 0 → s.queues.global.num ≠ 0 ∨ r.pc.obliged

theorem Counts.stays_quiet (h : Counts s) {r : Worker n T}
    (hr : r.pc.resting → r.isSearching = false) {v : Fin n}
    (hv : ((setWorker s w r).worker v).pc.resting) :
    ((setWorker s w r).worker v).isSearching = false := by
  by_cases hvw : v = w
  · subst hvw
    rw [setWorker_worker_self] at hv ⊢
    exact hr hv
  · rw [setWorker_worker_ne s r hvw] at hv ⊢
    exact h.quiet v hv

/-- A step of `w` that does not touch `Idle`. -/
theorem Counts.move (h : Counts s) {q : WorkStealing.State (Fin n) T} {r : Worker n T}
    (hholds : Holds (setWorker { s with queues := q } w r) w ↔ Holds s w)
    (hsleep : w ∈ s.idle.sleepingWorkers → r.pc.asleep)
    (hquiet : r.pc.resting → r.isSearching = false) (hstage : r.pc.stage ≠ some .wake) :
    Counts (setWorker { s with queues := q } w r) := by
  have hholders : holders (setWorker { s with queues := q } w r) = holders s := by
    refine Finset.filter_congr fun v _ => ?_
    by_cases hv : v = w
    · subst hv
      exact hholds
    · exact holds_setWorker_ne _ r hv
  have hstage' : ∀ u, stage (setWorker { s with queues := q } w r) u = some .wake →
      stage s u = some .wake :=
    fun u hu => stage_of_setWorker hstage hu
  refine ⟨h.small, ?_, fun v hv => ?_, fun v hv => h.stays_quiet hquiet hv,
    fun u hu => h.mutex u (hstage' u hu), fun u hu => h.begins u (hstage' u hu)⟩
  · rw [hholders]
    exact h.packs
  · by_cases hvw : v = w
    · subst hvw
      rw [setWorker_worker_self]
      exact hsleep hv
    · rw [setWorker_worker_ne _ r hvw]
      exact h.sleeping v hv

/-- The same, with what it does to the queues. -/
theorem Inv.move (h : Inv s) {q : WorkStealing.State (Fin n) T} {r : Worker n T}
    (hq : Serves s q w r)
    (hholds : Holds (setWorker { s with queues := q } w r) w ↔ Holds s w)
    (hsleep : w ∈ s.idle.sleepingWorkers → r.pc.asleep)
    (hquiet : r.pc.resting → r.isSearching = false) (hstage : r.pc.stage ≠ some .wake)
    (hobliged : r.pc.obliged ∨ (s.worker w).pc.obliged = false ∨
      ¬ Stranded s (.inl w) s.idle.sleepingWorkers) :
    Inv (setWorker { s with queues := q } w r) := by
  refine .of_counts (h.counts.move hholds hsleep hquiet hstage) (fun v hv => ?_) hq.num
    fun hg hs hn => ?_
  · by_cases hvw : v = w
    · subst hvw
      rw [setWorker_worker_self]
      exact hq.calls hv
    · rw [setWorker_worker_ne _ r hvw]
      refine h.calls v ?_
      rwa [← hq.pc v hvw]
  · have hother : ∀ v, v ≠ Sum.inl w → Obliged s v →
        ∃ u, Obliged (setWorker { s with queues := q } w r) u := by
      intro v hv ho
      refine ⟨v, ?_⟩
      rwa [obliged_setWorker _ r hv]
    by_cases hr : r.pc.obliged
    · refine ⟨.inl w, ?_⟩
      simpa [Obliged] using hr
    have hg' : s.queues.global.num ≠ 0 := (hq.global hg).resolve_right hr
    obtain ⟨u, hu⟩ := h.covered hg' hs hn
    by_cases huw : u = .inl w
    · subst huw
      rcases hobliged with ho | ho | ho
      · exact absurd ho hr
      · exact absurd hu (by simp [Obliged, ho])
      · obtain ⟨v, hv, ho⟩ := exists_other ho hg' hs hn
        exact hother v hv ho
    · exact hother u huw hu

/-- From `p` a step may go on at `p'` and owe no less. -/
structure Leads (p p' : Pc n T) : Prop where
  asleep : p'.asleep = p.asleep
  resting : p'.resting → p.resting
  stage : p'.stage ≠ some .wake
  obliged : p.obliged → p'.obliged

theorem Leads.plain {p p' : Pc n T} (ha : p'.asleep = p.asleep) (hr : p'.resting = false)
    (hs : p'.stage = none) (ho : p.obliged = false) : Leads p p' := by
  refine ⟨ha, fun h => ?_, fun h => ?_, fun h => ?_⟩
  · rw [hr] at h
    cases h
  · rw [hs] at h
    cases h
  · rw [ho] at h
    cases h

theorem Leads.within {p p' : Pc n T} (ha : p'.asleep = p.asleep) (hr : p'.resting = p.resting)
    (hs : p'.stage = none) (ho : p.obliged → p'.obliged) : Leads p p' := by
  refine ⟨ha, fun h => hr ▸ h, fun h => ?_, ho⟩
  rw [hs] at h
  cases h

theorem Leads.check {p : Pc n T} {k : After} (ha : k.asleep = p.asleep) :
    Leads p (.wakeUpOne .check k) := by
  refine ⟨ha, fun h => ?_, fun h => ?_, fun _ => rfl⟩
  · exact Pc.resting_of_asleep (ha ▸ h)
  · cases h

theorem Inv.goes (h : Inv s) {q : WorkStealing.State (Fin n) T} {r : Worker n T} {p : Pc n T}
    (hpc : (s.worker w).pc = p) (hq : Serves s q w r) (hl : Leads p r.pc)
    (hs : r.isSearching = (s.worker w).isSearching) :
    Inv (setWorker { s with queues := q } w r) := by
  subst hpc
  refine h.move hq ?_ (fun hw => ?_) (fun hr => ?_) hl.stage ?_
  · unfold Holds
    rw [setWorker_worker_self, hs, hl.asleep]
    rfl
  · rw [hl.asleep]
    exact h.sleeping w hw
  · rw [hs]
    exact h.quiet w (hl.resting hr)
  · by_cases ho : (s.worker w).pc.obliged
    · exact Or.inl (hl.obliged ho)
    · exact Or.inr (Or.inl (Bool.not_eq_true _ ▸ ho))

/-- No queue call is open. -/
theorem Inv.serves (h : Inv s) {r : Worker n T} {p : Pc n T} (hpc : (s.worker w).pc = p)
    (hp : p.inPush = false) : Serves s s.queues w r := by
  refine ⟨fun _ _ => rfl, fun hw => ?_, h.num, Or.inl⟩
  have := h.calls w hw
  rw [hpc, hp] at this
  cases this

theorem Inv.jump (h : Inv s) {p p' : Pc n T} (hpc : (s.worker w).pc = p) (hp : p.inPush = false)
    (hl : Leads p p') : Inv (goTo s w p') :=
  h.goes hpc (h.serves hpc hp) hl rfl

/-! ## Queue calls of a worker -/

theorem Inv.startCall (h : Inv s) {a : WorkStealing.Act (Fin n) T} {c : WorkStealing.Pc (Fin n) T}
    {p p' : Pc n T} (hpc : (s.worker w).pc = p) (hs : startCall s w a p' = some t)
    (ha : a.starts = some (w, c)) (hc : c.pushing = p'.inPush) (hl : Leads p p') : Inv t := by
  obtain ⟨q, hq, rfl⟩ := Option.map_eq_some_iff.1 hs
  obtain ⟨hqpc, hqg⟩ := WorkStealing.step_starts ha hq
  refine h.goes hpc ⟨fun v hv => ?_, fun hw => hc ▸ ?_, ?_, ?_⟩ hl rfl
  · rw [hqpc]
    exact Function.update_of_ne hv ..
  · rwa [hqpc, Function.update_self] at hw
  · rw [hqg]
    exact h.num
  · rw [hqg]
    exact Or.inl

/-- The queues change without a push. -/
theorem Inv.withQueues (h : Inv s) {q : WorkStealing.State (Fin n) T}
    (hpc : ∀ v, (q.pc v).pushing → (s.queues.pc v).pushing)
    (hnum : q.global.num = q.global.tasks.length)
    (hg : q.global.num ≠ 0 → s.queues.global.num ≠ 0) : Inv { s with queues := q } :=
  ⟨h.small, h.packs, h.sleeping, h.quiet, h.mutex, h.begins, fun v hv => h.calls v (hpc v hv), hnum,
    fun hn => h.covered (hg hn)⟩

theorem Inv.globalPop (h : Inv s) {q : WorkStealing.State (Fin n) T}
    (hq : WorkStealing.step s.queues .globalPop = some q) : Inv { s with queues := q } := by
  have hnum := h.num
  cases hq
  split
  · exact h.withQueues (fun _ => id) hnum id
  · next task rest heq =>
    rw [heq, List.length_cons] at hnum
    refine h.withQueues (fun _ => id) ?_ fun _ => by omega
    show s.queues.global.num - 1 = rest.length
    omega

theorem Inv.globalPopN (h : Inv s) {q : WorkStealing.State (Fin n) T} {m : Nat}
    (hq : WorkStealing.step s.queues (.globalPopN m) = some q) : Inv { s with queues := q } := by
  have hnum := h.num
  cases hq
  refine h.withQueues (fun _ => id) ?_ fun hg => ?_
  · show s.queues.global.num - _ = (s.queues.global.tasks.drop _).length
    rw [List.length_drop, hnum]
  · have : s.queues.global.num - min s.queues.global.num m ≠ 0 := hg
    omega

theorem Inv.continueCall (h : Inv s) {b : Bool}
    {k : State n R T → List T → Option (State n R T)} (hpush : (s.worker w).pc.inPush = false)
    (hk : ∀ queues result, Inv { s with queues } → k { s with queues } result = some t → Inv t)
    (hs : continueCall s w b k = some t) : Inv t := by
  obtain ⟨q, hq, hs⟩ := Option.bind_eq_some_iff.1 hs
  have hlocal := WorkStealing.stepPc_local hq
  have hw : (s.queues.pc w).pushing = false := by
    rw [← Bool.not_eq_true]
    intro hw
    rw [h.calls w hw] at hpush
    cases hpush
  have hi : Inv { s with queues := q } := by
    refine h.withQueues (fun v hv => ?_) (hlocal.num h.num) fun hg => ?_
    · by_cases hvw : v = w
      · subst hvw
        exact hlocal.pushing hv
      · rwa [← hlocal.pc v hvw]
    · rwa [← hlocal.global hw]
  split at hs
  · exact hk q _ hi hs
  · cases hs
    exact hi

/-- A step within `push_back_or_overflow`. -/
theorem Inv.servesPush (h : Inv s) {b : Bool} {q : WorkStealing.State (Fin n) T}
    {r : Worker n T} (hq : WorkStealing.step s.queues (.step w b) = some q)
    (hr : (q.pc w).pushing → r.pc.inPush)
    (ho : q.global.num ≠ s.queues.global.num → r.pc.obliged) : Serves s q w r := by
  have hlocal := WorkStealing.stepPc_local hq
  refine ⟨hlocal.pc, hr, hlocal.num h.num, fun hg => ?_⟩
  by_cases hn : q.global.num = s.queues.global.num
  · exact Or.inl (hn ▸ hg)
  · exact Or.inr (ho hn)

/-! ## Steps on `Idle` -/

theorem card_holders (hw : ¬ Holds s w) (ht : ∀ v, Holds t v ↔ v = w ∨ Holds s v) :
    (holders t).card = (holders s).card + 1 := by
  have hmem : w ∉ holders s := by simp [holders, hw]
  rw [← Finset.card_insert_of_notMem hmem]
  congr 1
  ext v
  simp [holders, ht]

/-- A step of `w` on `Idle`. -/
theorem Counts.idles (h : Counts s) {idle : Idle n R} {r : Worker n T}
    (packs : Packs idle.state (n - idle.sleepingWorkers.card)
      (holders (setWorker { s with idle } w r)).card)
    (hsleeping : ∀ v ∈ idle.sleepingWorkers, v ≠ w → v ∈ s.idle.sleepingWorkers)
    (hsleep : w ∈ idle.sleepingWorkers → r.pc.asleep)
    (hquiet : r.pc.resting → r.isSearching = false) (hstage : r.pc.stage ≠ some .wake)
    (hmutex : ∀ u, stage s u = some .wake → idle.mutex = some u ∧ idle.sleepingWorkers.Nonempty) :
    Counts (setWorker { s with idle } w r) := by
  have hstage' : ∀ u, stage (setWorker { s with idle } w r) u = some .wake →
      stage s u = some .wake :=
    fun u hu => stage_of_setWorker hstage hu
  refine ⟨h.small, packs, fun v hv => ?_, fun v hv => h.stays_quiet hquiet hv,
    fun u hu => (hmutex u (hstage' u hu)).1, fun u hu => (hmutex u (hstage' u hu)).2⟩
  by_cases hvw : v = w
  · subst hvw
    rw [setWorker_worker_self]
    exact hsleep hv
  · rw [setWorker_worker_ne _ r hvw]
    exact h.sleeping v (hsleeping v hv hvw)

theorem Inv.idles (h : Inv s) {idle : Idle n R} {r : Worker n T}
    (hc : Counts (setWorker { s with idle } w r)) (hpush : (s.worker w).pc.inPush = false)
    (covered : s.queues.global.num ≠ 0 → idle.sleepingWorkers.Nonempty →
      idle.state.numSearching = 0 → ∃ u, Obliged (setWorker { s with idle } w r) u) :
    Inv (setWorker { s with idle } w r) := by
  refine .of_counts hc (fun v hv => ?_) h.num covered
  by_cases hvw : v = w
  · subst hvw
    have := h.calls v hv
    rw [hpush] at this
    cases this
  · rw [setWorker_worker_ne _ r hvw]
    exact h.calls v hv

theorem Counts.numSearching (h : Counts s) : s.idle.state.numSearching = (holders s).card :=
  h.packs.numSearching

theorem Inv.numSearching (h : Inv s) : s.idle.state.numSearching = (holders s).card :=
  h.counts.numSearching

theorem Counts.noWake (h : Counts s) (hm : s.idle.mutex.isSome = false) (u : Fin n ⊕ R) :
    stage s u ≠ some .wake := by
  intro hu
  rw [h.mutex u hu] at hm
  cases hm

theorem Counts.not_sleeping (h : Counts s) (hpc : (s.worker w).pc.asleep = false) :
    w ∉ s.idle.sleepingWorkers := fun hw => by
  rw [h.sleeping w hw] at hpc
  cases hpc

theorem Counts.incSearching (h : Counts s) (hpc : (s.worker w).pc = .incSearching)
    (hok : s.idle.state.numSearching + 1 < 2 ^ 16) :
    Counts (setWorker { s with idle := { s.idle with state := s.idle.state.incNumSearching } } w
      { s.worker w with isSearching := true, pc := .fastrand }) := by
  have hsearching : (s.worker w).isSearching = false := h.quiet w (by rw [hpc]; rfl)
  have hnot : ¬ Holds s w := by simp [Holds, hpc, hsearching, Pc.asleep]
  have hcard := card_holders (s := s) (t := setWorker { s with
      idle := { s.idle with state := s.idle.state.incNumSearching } } w
      { s.worker w with isSearching := true, pc := .fastrand }) hnot fun v => by
    by_cases hv : v = w
    · subst hv
      simp [Holds]
    · rw [holds_setWorker_ne _ _ hv]
      simp [hv, Holds]
  rw [h.numSearching] at hok
  refine h.idles ?_ (fun v hv _ => hv) (fun hw => ?_) nofun nofun
    (fun u hu => ⟨h.mutex u hu, h.begins u hu⟩)
  · rw [hcard]
    exact h.packs.incNumSearching hok
  · exact absurd hw (h.not_sleeping (by rw [hpc]; rfl))

theorem Inv.incSearching (h : Inv s) (hpc : (s.worker w).pc = .incSearching)
    (hok : s.idle.state.numSearching + 1 < 2 ^ 16) :
    Inv (setWorker { s with idle := { s.idle with state := s.idle.state.incNumSearching } } w
      { s.worker w with isSearching := true, pc := .fastrand }) := by
  have hc := h.counts.incSearching hpc hok
  refine h.idles hc (by rw [hpc]; rfl) fun _ _ hn => ?_
  -- `w` itself is counted
  have hnone := Finset.card_eq_zero.1 (hc.packs.numSearching.symm.trans hn)
  refine absurd hnone (Finset.nonempty_iff_ne_empty.1 ⟨w, ?_⟩)
  simp [holders, Holds]

theorem Counts.fromSearching (h : Counts s) (hpc : (s.worker w).pc = .runTask)
    (hsearching : (s.worker w).isSearching) :
    Counts (setWorker { s with idle := { s.idle with state := s.idle.state.decNumSearching.1 } } w
      { s.worker w with
        isSearching := false
        pc := if s.idle.state.decNumSearching.2 then .wakeUpOne .check .task else .task }) ∧
      1 ≤ s.idle.state.numSearching ∧
      (s.idle.state.decNumSearching.1.numSearching = 0 → s.idle.state.decNumSearching.2 = true) := by
  generalize ht : setWorker { s with idle := { s.idle with
      state := s.idle.state.decNumSearching.1 } } w { s.worker w with
        isSearching := false
        pc := if s.idle.state.decNumSearching.2 then .wakeUpOne .check .task else .task } = t
  have hcard : (holders s).card = (holders t).card + 1 := by
    subst ht
    refine card_holders (w := w) ?_ fun v => ?_
    · cases s.idle.state.decNumSearching.2 <;> simp [Holds, Pc.asleep, After.asleep]
    · by_cases hv : v = w
      · subst hv
        simp [Holds, hsearching]
      · rw [holds_setWorker_ne _ _ hv]
        simp [hv, Holds]
  have hpacks := h.packs
  rw [hcard] at hpacks
  obtain ⟨hdec, hlast⟩ := hpacks.decNumSearching
  refine ⟨?_, by rw [hpacks.numSearching]; omega, fun hz => hlast.2 (hdec.numSearching.symm.trans hz)⟩
  subst ht
  refine h.idles hdec (fun v hv _ => hv) (fun hw => ?_) (fun _ => rfl) ?_
    (fun u hu => ⟨h.mutex u hu, h.begins u hu⟩)
  · exact absurd hw (h.not_sleeping (by rw [hpc]; rfl))
  · cases s.idle.state.decNumSearching.2 <;> simp [Pc.stage]

theorem Inv.transitionFromSearching (h : Inv s) (hpc : (s.worker w).pc = .runTask)
    (hsearching : (s.worker w).isSearching) :
    Inv (setWorker { s with idle := { s.idle with state := s.idle.state.decNumSearching.1 } } w
      { s.worker w with
        isSearching := false
        pc := if s.idle.state.decNumSearching.2 then .wakeUpOne .check .task else .task }) := by
  obtain ⟨hc, -, hlast⟩ := h.counts.fromSearching hpc hsearching
  refine h.idles hc (by rw [hpc]; rfl) fun _ _ hn => ⟨.inl w, ?_⟩
  simp [Obliged, hlast hn, Pc.obliged]

theorem Counts.toSleeping (h : Counts s) (hpc : (s.worker w).pc = .toSleeping)
    (hmutex : s.idle.mutex.isSome = false) :
    Counts (setWorker { s with
      idle := (s.idle.transitionWorkerToSleeping w (s.worker w).isSearching).1 } w
      { s.worker w with
        isSearching := false
        pc := if (s.idle.transitionWorkerToSleeping w (s.worker w).isSearching).2 then .scanHead 0
          else .arrive .wait }) ∧
      1 ≤ s.idle.state.numWorking ∧
      s.idle.state.numSearching = (s.worker w).isSearching.toNat +
        (s.idle.state.decNumWorking (s.worker w).isSearching).1.numSearching ∧
      ((s.idle.state.decNumWorking (s.worker w).isSearching).1.numSearching = 0 →
        (s.worker w).isSearching →
        (s.idle.state.decNumWorking (s.worker w).isSearching).2 = true) := by
  unfold Idle.transitionWorkerToSleeping
  generalize hlast : (s.idle.state.decNumWorking (s.worker w).isSearching).2 = last
  generalize ht : setWorker { s with idle := { s.idle with
      state := (s.idle.state.decNumWorking (s.worker w).isSearching).1
      sleepingWorkers := insert w s.idle.sleepingWorkers } } w { s.worker w with
        isSearching := false
        pc := if last then .scanHead 0 else .arrive .wait } = t
  have hw : w ∉ s.idle.sleepingWorkers := h.not_sleeping (by rw [hpc]; rfl)
  have hasleep : (t.worker w).pc.asleep := by
    subst ht
    cases last <;> simp [Pc.asleep, After.asleep]
  have hcard : (holders s).card = (holders t).card + (s.worker w).isSearching.toNat := by
    have hnot : ¬ Holds t w := by
      subst ht
      simp [Holds, setWorker]
    have hv : ∀ v, v ≠ w → (Holds s v ↔ Holds t v) := fun v hv => by
      subst ht
      rw [holds_setWorker_ne _ _ hv]
      simp [hv, Holds]
    cases hs : (s.worker w).isSearching
    · refine congrArg Finset.card (Finset.filter_congr fun v _ => ?_)
      by_cases hvw : v = w
      · subst hvw
        exact iff_of_false (by simp [Holds, hs, hpc, Pc.asleep]) hnot
      · exact hv v hvw
    · refine card_holders hnot fun v => ?_
      by_cases hvw : v = w
      · subst hvw
        simp [Holds, hs]
      · rw [hv v hvw]
        simp [hvw]
  have hpacks := h.packs
  have hins : (insert w s.idle.sleepingWorkers).card = s.idle.sleepingWorkers.card + 1 :=
    Finset.card_insert_of_notMem hw
  have hle := Finset.card_le_univ (insert w s.idle.sleepingWorkers)
  rw [Fintype.card_fin] at hle
  rw [hcard, show n - s.idle.sleepingWorkers.card =
    n - (insert w s.idle.sleepingWorkers).card + 1 by omega] at hpacks
  obtain ⟨hdec, hiff⟩ := hpacks.decNumWorking
  rw [hlast] at hiff
  refine ⟨?_, by rw [hpacks.numWorking]; omega, ?_, fun hz hs => ?_⟩
  · subst ht
    refine h.idles hdec (fun v hv hvw => (Finset.mem_insert.1 hv).resolve_left hvw)
      (fun _ => by simpa using hasleep) (fun _ => rfl) ?_ (fun u hu => absurd hu (h.noWake hmutex u))
    cases last <;> simp [Pc.stage]
  · rw [hpacks.numSearching, hdec.numSearching, Nat.add_comm]
  · rw [hdec.numSearching] at hz
    exact hiff.2 ⟨hs, hz⟩

theorem Inv.transitionToSleeping (h : Inv s) (hpc : (s.worker w).pc = .toSleeping)
    (hmutex : s.idle.mutex.isSome = false)
    (hok : (s.worker w).isSearching = false →
      ¬ Stranded s (.inl w) (insert w s.idle.sleepingWorkers)) :
    Inv (setWorker { s with
      idle := (s.idle.transitionWorkerToSleeping w (s.worker w).isSearching).1 } w
      { s.worker w with
        isSearching := false
        pc := if (s.idle.transitionWorkerToSleeping w (s.worker w).isSearching).2 then .scanHead 0
          else .arrive .wait }) := by
  obtain ⟨hc, -, hsum, hlast⟩ := h.counts.toSleeping hpc hmutex
  refine h.idles hc (by rw [hpc]; rfl) fun hg hs hn => ?_
  have hn : (s.idle.state.decNumWorking (s.worker w).isSearching).1.numSearching = 0 := hn
  cases hsearch : (s.worker w).isSearching
  · rw [hn, hsearch] at hsum
    obtain ⟨v, hv, ho⟩ := exists_other (hok hsearch) hg hs hsum
    exact ⟨v, (obliged_idles s _ _ hv).trans ho⟩
  · refine ⟨.inl w, ?_⟩
    simp [Obliged, Idle.transitionWorkerToSleeping, ← hsearch, hlast hn hsearch, Pc.obliged]

theorem Counts.remove (h : Counts s) (hpc : (s.worker w).pc.asleep)
    (hsearching : (s.worker w).isSearching = false)
    (hmutex : s.idle.mutex.isSome = false) (hw : w ∈ s.idle.sleepingWorkers) :
    Counts (setWorker { s with idle := { s.idle with
        state := s.idle.state.wakeUpOne 0
        sleepingWorkers := s.idle.sleepingWorkers.erase w } } w
      { s.worker w with isSearching := false, pc := .loop }) ∧
      (s.idle.state.wakeUpOne 0).numSearching = s.idle.state.numSearching := by
  generalize ht : setWorker { s with idle := { s.idle with
        state := s.idle.state.wakeUpOne 0
        sleepingWorkers := s.idle.sleepingWorkers.erase w } } w
      { s.worker w with isSearching := false, pc := .loop } = t
  have hcard : holders t = holders s := by
    subst ht
    refine Finset.filter_congr fun v _ => ?_
    by_cases hv : v = w
    · subst hv
      simp [Holds, hsearching, hw, Pc.asleep]
    · rw [holds_setWorker_ne _ _ hv]
      simp [Holds, hv]
  have herase := Finset.card_erase_add_one hw
  have hle := Finset.card_le_univ s.idle.sleepingWorkers
  rw [Fintype.card_fin] at hle
  have hsmall := h.small
  have hlt := h.packs.searching_lt
  have hzero : (0 : U64).toNat = 0 := rfl
  have hwake := h.packs.wakeUpOne (k := 0) (Or.inl rfl) (by omega) (by omega)
  rw [hzero, Nat.add_zero, ← hcard, show n - s.idle.sleepingWorkers.card + 1 =
    n - (s.idle.sleepingWorkers.erase w).card by omega] at hwake
  refine ⟨?_, by rw [hwake.numSearching, h.numSearching, hcard, Nat.add_zero]⟩
  subst ht
  exact h.idles hwake (fun v hv _ => Finset.mem_of_mem_erase hv)
    (fun hw' => absurd rfl (Finset.ne_of_mem_erase hw')) nofun nofun
    (fun u hu => absurd hu (h.noWake hmutex u))

/-- `transition_from_sleeping` of a worker that nobody has notified. -/
theorem Inv.remove (h : Inv s) {published : Bool} (hpc : (s.worker w).pc = .remove published)
    (hmutex : s.idle.mutex.isSome = false) (hw : w ∈ s.idle.sleepingWorkers)
    (hok : published → ¬ Stranded s (.inl w) (s.idle.sleepingWorkers.erase w)) :
    Inv (setWorker { s with idle := { s.idle with
        state := s.idle.state.wakeUpOne 0
        sleepingWorkers := s.idle.sleepingWorkers.erase w } } w
      { s.worker w with isSearching := false, pc := .loop }) := by
  obtain ⟨hc, hsame⟩ := h.counts.remove (by rw [hpc]; rfl) (h.quiet w (by rw [hpc]; rfl)) hmutex hw
  refine h.idles hc (by rw [hpc]; rfl) fun hg hs hn => ?_
  have hzero : s.idle.state.numSearching = 0 := hsame.symm.trans hn
  have hother : ∃ v, v ≠ Sum.inl w ∧ Obliged s v := by
    cases published with
    | true => exact exists_other (hok rfl) hg hs hzero
    | false =>
      obtain ⟨v, ho⟩ := h.covered hg ⟨w, hw⟩ hzero
      refine ⟨v, ?_, ho⟩
      rintro rfl
      simp [Obliged, hpc, Pc.obliged] at ho
  obtain ⟨v, hv, ho⟩ := hother
  exact ⟨v, (obliged_idles s _ _ hv).trans ho⟩

/-! ## `worker_to_notify` -/

/-- Between `s` and `t` only `u`, which is in `worker_to_notify`, and `Idle` change. -/
structure Notifies (s t : State n R T) (u : Fin n ⊕ R) : Prop where
  queues : t.queues = s.queues
  isSearching : ∀ v, (t.worker v).isSearching = (s.worker v).isSearching
  asleep : ∀ v, (t.worker v).pc.asleep = (s.worker v).pc.asleep
  resting : ∀ v, (t.worker v).pc.resting → (s.worker v).pc.resting
  inPush : ∀ v, (t.worker v).pc.inPush = (s.worker v).pc.inPush
  stage : ∀ v ≠ u, stage t v = stage s v
  obliged : ∀ v ≠ u, Obliged t v = Obliged s v

theorem workerToNotify_cases {idle idle' : Idle n R} {u : Fin n ⊕ R} {first : Fin n}
    {now : Notify} {next : Option Notify} (hs : idle.workerToNotify u first now = some (idle', next)) :
    (now ≠ .wake ∧ idle' = idle ∧ next ≠ some .wake ∧
      (next = none → idle.notifyShouldWakeup = false)) ∨
    (idle.mutex.isSome = false ∧ idle.notifyShouldWakeup ∧ idle' = { idle with mutex := some u } ∧
      next = some .wake) ∨
    (now = .wake ∧ first ∈ idle.sleepingWorkers ∧
      idle' = ⟨idle.state.wakeUpOne 1, idle.sleepingWorkers.erase first, none⟩ ∧ next = none) := by
  cases now with
  | check =>
    cases hs
    cases idle.notifyShouldWakeup
    · exact Or.inl ⟨nofun, rfl, nofun, fun _ => rfl⟩
    · exact Or.inl ⟨nofun, rfl, nofun, nofun⟩
  | recheck =>
    simp only [Idle.workerToNotify, Option.ite_none_left_eq_some, Bool.not_eq_true] at hs
    obtain ⟨hm, hs⟩ := hs
    split at hs
    · next hb =>
      cases hs
      exact Or.inr (Or.inl ⟨hm, hb, rfl, rfl⟩)
    · next hb =>
      cases hs
      exact Or.inl ⟨nofun, rfl, nofun, fun _ => Bool.not_eq_true _ ▸ hb⟩
  | wake =>
    simp only [Idle.workerToNotify, Option.ite_none_right_eq_some] at hs
    obtain ⟨hfirst, hs⟩ := hs
    obtain ⟨rfl, rfl⟩ := Prod.mk.inj (Option.some.inj hs)
    exact Or.inr (Or.inr ⟨rfl, hfirst, rfl, rfl⟩)

theorem Counts.notifyShouldWakeup_iff (h : Counts s) : s.idle.notifyShouldWakeup ↔
    s.idle.state.numSearching = 0 ∧ s.idle.sleepingWorkers.Nonempty := by
  have hle := Finset.card_le_univ s.idle.sleepingWorkers
  rw [Fintype.card_fin] at hle
  unfold Idle.notifyShouldWakeup
  rw [h.packs.numWorking, Bool.and_eq_true, beq_iff_eq, decide_eq_true_iff, ← Finset.card_pos]
  omega

/-- A step within `worker_to_notify`; one that is over and has seen no searcher
has seen no sleeper. -/
theorem Counts.notifies (h : Counts s) {u : Fin n ⊕ R} {first : Fin n} {now : Notify}
    {next : Option Notify} (hnow : stage s u = some now)
    (hs : s.idle.workerToNotify u first now = some (t.idle, next))
    (hok : now = .wake → s.idle.state.numSearching + 1 < 2 ^ 16) (hn : Notifies s t u)
    (hnext : stage t u = next) :
    Counts t ∧ (next = none → t.idle.state.numSearching = 0 →
      ¬ t.idle.sleepingWorkers.Nonempty) := by
  have hkept : (∀ v ∈ t.idle.sleepingWorkers, v ∈ s.idle.sleepingWorkers) →
      Packs t.idle.state (n - t.idle.sleepingWorkers.card) (holders t).card →
      (∀ v, stage t v = some .wake →
        t.idle.mutex = some v ∧ t.idle.sleepingWorkers.Nonempty) → Counts t := by
    intro hsub hpacks hmutex
    refine ⟨h.small, hpacks, fun v hv => ?_, fun v hv => ?_, fun v hv => (hmutex v hv).1,
      fun v hv => (hmutex v hv).2⟩
    · rw [hn.asleep]
      exact h.sleeping v (hsub v hv)
    · rw [hn.isSearching]
      exact h.quiet v (hn.resting v hv)
  have hothers : ∀ v, stage t v = some .wake → v = u ∨ stage s v = some .wake := by
    intro v hv
    by_cases hvu : v = u
    · exact Or.inl hvu
    · exact Or.inr (hn.stage v hvu ▸ hv)
  have hholds : ∀ v, (v ∈ t.idle.sleepingWorkers ↔ v ∈ s.idle.sleepingWorkers) →
      (Holds t v ↔ Holds s v) := by
    intro v hv
    unfold Holds
    rw [hn.isSearching, hn.asleep, hv]
  rcases workerToNotify_cases hs with ⟨-, hidle, hwake, hnone⟩ | ⟨hm, hb, hidle, rfl⟩ |
    ⟨rfl, hfirst, hidle, rfl⟩
  · -- a check that wakes nobody has seen a searcher, or that nobody sleeps
    have hsame : holders t = holders s :=
      Finset.filter_congr fun v _ => hholds v (by rw [hidle])
    refine ⟨hkept (by rw [hidle]; exact fun _ => id) ?_ fun v hv => ?_, fun hnx hz hne => ?_⟩
    · rw [hsame, hidle]
      exact h.packs
    · rcases hothers v hv with rfl | hv
      · exact absurd (hnext.symm.trans hv) hwake
      · rw [hidle]
        exact ⟨h.mutex v hv, h.begins v hv⟩
    · rw [hidle] at hne hz
      have := hnone hnx
      rw [h.notifyShouldWakeup_iff.2 ⟨hz, hne⟩] at this
      cases this
  · have hsame : holders t = holders s :=
      Finset.filter_congr fun v _ => hholds v (by rw [hidle])
    refine ⟨hkept (by rw [hidle]; exact fun _ => id) ?_ (fun v hv => ?_), nofun⟩
    · rw [hsame, hidle]
      exact h.packs
    · rcases hothers v hv with rfl | hv
      · rw [hidle]
        exact ⟨rfl, (h.notifyShouldWakeup_iff.1 hb).2⟩
      · exact absurd hv (h.noWake hm v)
  · have hasleep := h.sleeping first hfirst
    have hcard : (holders t).card = (holders s).card + 1 := by
      refine card_holders (w := first) ?_ fun v => ?_
      · have := h.quiet first (Pc.resting_of_asleep hasleep)
        simp [Holds, this, hfirst]
      · by_cases hv : v = first
        · subst hv
          simp [Holds, hn.asleep, hasleep, hidle]
        · rw [hholds v (by rw [hidle]; simp [hv])]
          simp [hv]
    have herase := Finset.card_erase_add_one hfirst
    have hle := Finset.card_le_univ s.idle.sleepingWorkers
    rw [Fintype.card_fin] at hle
    have hsmall := h.small
    have hone : (1 : U64).toNat = 1 := rfl
    have hlt := hok rfl
    rw [h.numSearching] at hlt
    have hwake := h.packs.wakeUpOne (k := 1) (Or.inr rfl) (by omega) (by omega)
    rw [hone, ← hcard, show n - s.idle.sleepingWorkers.card + 1 =
      n - (s.idle.sleepingWorkers.erase first).card by omega] at hwake
    refine ⟨hkept ?_ (by rw [hidle]; exact hwake) fun v hv => ?_, fun _ hz => ?_⟩
    · rw [hidle]
      exact fun v => Finset.mem_of_mem_erase
    · rcases hothers v hv with rfl | hv'
      · rw [hnext] at hv
        cases hv
      · -- the mutex is held by `u` alone
        have heq := (h.mutex v hv').symm.trans (h.mutex u hnow)
        cases heq
        rw [hnext] at hv
        cases hv
    · rw [hidle] at hz
      have := hwake.numSearching.symm.trans hz
      omega

theorem Inv.notifies (h : Inv s) {u : Fin n ⊕ R} {first : Fin n} {now : Notify}
    {next : Option Notify} (hnow : stage s u = some now)
    (hs : s.idle.workerToNotify u first now = some (t.idle, next))
    (hok : now = .wake → s.idle.state.numSearching + 1 < 2 ^ 16) (hn : Notifies s t u)
    (hnext : stage t u = next) (hobliged : next.isSome → Obliged t u) : Inv t := by
  obtain ⟨hc, hover⟩ := h.counts.notifies hnow hs hok hn hnext
  refine .of_counts hc (fun v hv => ?_) (by rw [hn.queues]; exact h.num) fun _ hne hz => ?_
  · rw [hn.queues] at hv
    rw [hn.inPush]
    exact h.calls v hv
  · cases hnx : next with
    | none => exact absurd hne (hover hnx hz)
    | some => exact ⟨u, hobliged (by rw [hnx]; rfl)⟩

end MultiThread

end Kosio.Runtime
