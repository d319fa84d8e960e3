import Kosio.Runtime.Scheduler.QueueSteps

/-!
# `next_task`: refilling from the global queue

A worker that finds its queue empty reads how many slots remain, fetches that many
tasks at most, keeps the first and pushes the others as one batch.  The reading
is stale by then, but on the safe side: only the owner moves `tail_`, and thieves
only move `steal` forward.  So

    last + n ≤ steal + 256      from the reading to the end of the push

for the `n` of each stage (`Refilling`), whatever the thieves are doing, and
`push_batch` does not throw (`next_task_refills`).

This needs what `tasks_conserved` needs: no thief sleeps between its load of
`head_` and its CAS while `head_` goes once around.
-/

namespace Kosio.Runtime.NextTask

open Steps MultiThread

variable {n : Nat} {R T : Type}

/-! ## Algorithm -/

/-- The locals of `next_task`. -/
structure Locals (T : Type) where
  /-- as `pop_n` returned it -/
  tasks : List T := []
  result : Option T := none

/-- The scheduler, and what each worker's last `next_task` fetched. -/
structure State (n : Nat) (R T : Type) where
  scheduler : MultiThread.State n R T
  locals : Fin n → Locals T

def init [Inhabited T] : State n R T := ⟨MultiThread.init, fun _ => {}⟩

inductive Act (n : Nat) (R T : Type) where
  | scheduler (a : MultiThread.Act n R T)
  /-- `Shared::close` -/
  | close

/-- `pop_n`, and the first task is the result. -/
def fetch (s : State n R T) (w : Fin n) : Locals T :=
  match (s.scheduler.worker w).pc with
  | .popN m =>
    let tasks := (s.scheduler.queues.global.popN m).1
    ⟨tasks, tasks.head?⟩
  | _ => s.locals w

def setLocals (s : State n R T) : MultiThread.Act n R T → Fin n → Locals T
  | .step w _ => Function.update s.locals w (fetch s w)
  | _ => s.locals

def step [DecidableEq R] (config : Config) (s : State n R T) : Act n R T → Option (State n R T)
  | .scheduler a =>
    (MultiThread.step config s.scheduler a).map fun scheduler => ⟨scheduler, setLocals s a⟩
  | .close =>
    (WorkStealing.step s.scheduler.queues .globalClose).map fun queues =>
      { s with scheduler := { s.scheduler with queues } }

/-! ## Specification -/

namespace State

variable (s : State n R T) (w : Fin n)

def pc : Pc n T := (s.scheduler.worker w).pc

def queue : LocalQueue T := s.scheduler.queues.queue w

/-- The queue call of `w`. -/
def call : WorkStealing.Pc (Fin n) T := s.scheduler.queues.pc w

def tasks : List T := (s.locals w).tasks

def result : Option T := (s.locals w).result

end State

/-- How many steps `push_batch` still takes. -/
def left : WorkStealing.Pc (Fin n) T → Nat
  | .batchHead tasks => tasks.length + 3
  | .batchTail tasks _ => tasks.length + 2
  | .batchWrite tasks i _ => tasks.length - i + 1
  | _ => 0

/-- `pop_n` took the oldest tasks in order, and the oldest is the result; the others,
if there are any, are to be pushed. -/
structure Fetched (s t : State n R T) (w : Fin n) : Prop where
  oldest : s.scheduler.queues.global.tasks = t.tasks w ++ t.scheduler.queues.global.tasks
  result : t.result w = (t.tasks w).head?
  next : t.pc w = match t.tasks w with
    | [] => .toSearching
    | [_] => .runTask
    | _ :: _ :: _ => .pushBatch

/-- `push_batch` comes a step closer to its end. -/
structure Pushes (s t : State n R T) (w : Fin n) : Prop where
  pc : t.pc w = .pushBatch
  live : WorkStealing.live (t.queue w) = WorkStealing.live (s.queue w)
  left : left (t.call w) < left (s.call w)

/-- `push_batch` returns: the tasks are in the queue, in order. -/
structure Pushed (s t : State n R T) (w : Fin n) : Prop where
  pc : t.pc w = .runTask
  live : WorkStealing.live (t.queue w) = WorkStealing.live (s.queue w) ++ (t.tasks w).tail

variable [DecidableEq R]

/-- What is promised of a step. -/
structure Refills (config : Config) (s : State n R T) (a : Act n R T) (t : State n R T) :
    Prop where
  /-- tasks are conserved, and no assertion of the queues fails -/
  sound : WorkStealing.Sound t.scheduler.queues
  /-- `push_batch` has not thrown -/
  safe : ∀ w, t.pc w ≠ .thrown
  /-- nothing stops a worker that fetches or pushes, the assertion of `push_batch` included -/
  enabled : ∀ w b, (∃ m, t.pc w = .popN m) ∨ t.pc w = .pushBatch →
    (step config t (.scheduler (.step w b))).isSome
  fetched : ∀ w b m, a = .scheduler (.step w b) → s.pc w = .popN m → Fetched s t w
  pushed : ∀ w b, a = .scheduler (.step w b) → s.pc w = .pushBatch → Pushes s t w ∨ Pushed s t w
  /-- what was fetched is what is being pushed, and the result -/
  kept : ∀ w, s.pc w = .pushBatch → t.tasks w = s.tasks w ∧ t.result w = s.result w
  inHand : ∀ w, t.pc w = .pushBatch →
    WorkStealing.hand t.scheduler.queues.queue (t.queue w) (t.call w) = (t.tasks w).tail

/-- `head_` does not advance `2^32` between a thief's load and its CAS. -/
def NoWrap (s : State n R T) (a : Act n R T) (_ : State n R T) : Prop :=
  match a with
  | .scheduler (.step w b) => WorkStealing.NoWrap s.scheduler.queues (.step w b) s.scheduler.queues
  | _ => True

omit [DecidableEq R] in
instance (s : State n R T) (a : Act n R T) (t : State n R T) : Decidable (NoWrap s a t) := by
  unfold NoWrap
  split <;> infer_instance

/-! ## Invariant -/

/-- The batch `tasks` has room from the `steal` that `push_batch` has loaded. -/
def Fits (q : LocalQueue T) (tasks : List T) : WorkStealing.Pc (Fin n) T → Prop
  | .batchHead batch => batch = tasks ∧ q.last + tasks.length ≤ q.steal + 256
  | .batchTail batch steal => batch = tasks ∧
    ∃ σ, steal = WorkStealing.pos σ ∧ σ ≤ q.steal ∧ q.last + tasks.length ≤ σ + 256
  | .batchWrite batch _ _ => batch = tasks
  | _ => False

/-- What is known of a worker's queue between the reading and the end of the push. -/
def Refilling (q : LocalQueue T) (call : WorkStealing.Pc (Fin n) T) (tasks : List T) :
    Pc n T → Prop
  | .remaining => call = .remHead ∨ ∃ steal, call = .remTail steal
  | .globalSize m => call = .idle ∧ 1 ≤ m ∧ m ≤ 128 ∧ q.last + m ≤ q.steal + 256
  | .popN m => call = .idle ∧ 1 ≤ m ∧ m ≤ 128 ∧ q.last + m ≤ q.steal + 256
  | .pushBatch => 0 < tasks.tail.length ∧ Fits q tasks.tail call
  | .thrown => False
  | _ => True

structure Inv (s : State n R T) : Prop where
  queues : WorkStealing.Inv s.scheduler.queues
  refilling : ∀ w, Refilling (s.queue w) (s.call w) (s.tasks w) (s.pc w)

omit [DecidableEq R] in
theorem inv_init [Inhabited T] : Inv (init : State n R T) :=
  ⟨WorkStealing.inv_init, fun _ => trivial⟩

/-! ## While others work -/

section Rests

omit [DecidableEq R]

variable {q r : LocalQueue T} {call : WorkStealing.Pc (Fin n) T} {tasks : List T} {p : Pc n T}

theorem Fits.rests (h : Fits q tasks call) (hl : r.last = q.last) (hs : q.steal ≤ r.steal) :
    Fits r tasks call := by
  cases call with
  | batchHead batch =>
    obtain ⟨h1, h2⟩ := h
    exact ⟨h1, by omega⟩
  | batchTail batch steal =>
    obtain ⟨h1, σ, h2, h3, h4⟩ := h
    exact ⟨h1, σ, h2, by omega, by omega⟩
  | batchWrite batch i tail => exact h
  | _ => exact h.elim

theorem Refilling.rests (h : Refilling q call tasks p) (hl : r.last = q.last)
    (hs : q.steal ≤ r.steal) : Refilling r call tasks p := by
  cases p with
  | remaining => exact h
  | globalSize m =>
    obtain ⟨h1, h2, h3, h4⟩ := h
    exact ⟨h1, h2, h3, by omega⟩
  | popN m =>
    obtain ⟨h1, h2, h3, h4⟩ := h
    exact ⟨h1, h2, h3, by omega⟩
  | pushBatch => exact ⟨h.1, h.2.rests hl hs⟩
  | thrown => exact h.elim
  | _ => trivial

theorem Refilling.of_elsewhere (h : p.refilling = false) : Refilling q call tasks p := by
  cases p <;> trivial

end Rests

/-! ## The worker's own steps -/

section Own

omit [DecidableEq R]

variable {s t : MultiThread.State n R T} {w : Fin n} {b : Bool} {config : Config} {tasks : List T}

theorem own_globalEmpty (hpc : (s.worker w).pc = .globalEmpty)
    (hs : stepPc config s w b = some t) :
    Refilling (t.queues.queue w) (t.queues.pc w) tasks (t.worker w).pc := by
  simp only [stepPc, hpc] at hs
  split at hs
  · cases hs
    rw [goTo, setWorker_worker_self]
    trivial
  · obtain ⟨q, hq, rfl⟩ := Option.map_eq_some_iff.1 hs
    rw [goTo, setWorker_worker_self]
    rw [WorkStealing.call_eq hq]
    exact Or.inl (Function.update_self ..)

variable {q : WorkStealing.State (Fin n) T}
  {k : MultiThread.State n R T → List T → Option (MultiThread.State n R T)}

theorem continueCall_goes (hq : WorkStealing.step s.queues (.step w b) = some q)
    (hc : q.pc w ≠ .idle) : continueCall s w b k = some { s with queues := q } := by
  unfold continueCall
  rw [hq, Option.bind_some]
  split
  · next h => exact absurd h hc
  · rfl

theorem continueCall_returns (hq : WorkStealing.step s.queues (.step w b) = some q)
    (hc : q.pc w = .idle) : continueCall s w b k =
      k { s with queues := q } (q.returned.drop s.queues.returned.length) := by
  unfold continueCall
  rw [hq, Option.bind_some, hc]

/-- `remaining_slots`: what is read is no more than there is. -/
theorem own_remaining (hi : WorkStealing.Inv s.queues) (hpc : (s.worker w).pc = .remaining)
    (h : s.queues.pc w = .remHead ∨ ∃ steal, s.queues.pc w = .remTail steal)
    (hs : stepPc config s w b = some t) :
    Refilling (t.queues.queue w) (t.queues.pc w) tasks (t.worker w).pc := by
  have hself := WorkStealing.setPc_pc_self s.queues w
  simp only [stepPc, hpc] at hs
  rcases h with hc | ⟨steal, hc⟩
  · have hq : WorkStealing.step s.queues (.step w b) = some (WorkStealing.setPc s.queues w
        (.remTail (unpack (s.queues.queue w).head).1)) := by
      simp only [WorkStealing.step, WorkStealing.stepPc, hc]
    rw [continueCall_goes hq (by rw [hself]; simp)] at hs
    cases hs
    show Refilling _ _ _ (s.worker w).pc
    rw [hpc]
    exact Or.inr ⟨_, hself _⟩
  · have ho := hi.own w
    rw [hc] at ho
    obtain ⟨σ, hσ, hlast, hsub⟩ := ho.sub (hi.geo w)
    have hq : WorkStealing.step s.queues (.step w b) =
        some (WorkStealing.setPc s.queues w .idle) := by
      simp only [WorkStealing.step, WorkStealing.stepPc, hc]
      rw [hsub, if_pos (show 256 ≥ (s.queues.queue w).last - σ by omega)]
    rw [continueCall_returns hq (hself _), hc] at hs
    cases hs
    rw [goTo, setWorker_worker_self]
    dsimp only
    split
    · trivial
    · next h0 =>
      refine ⟨hself _, Nat.one_le_iff_ne_zero.2 h0, Nat.min_le_right .., ?_⟩
      show (s.queues.queue w).last + min (256 - ((s.queues.queue w).tail - steal).toNat) 128 ≤
        (s.queues.queue w).steal + 256
      rw [hsub]
      omega

theorem own_globalSize {m : Nat} (hpc : (s.worker w).pc = .globalSize m)
    (h : Refilling (s.queues.queue w) (s.queues.pc w) tasks (.globalSize m))
    (hs : stepPc config s w b = some t) :
    Refilling (t.queues.queue w) (t.queues.pc w) tasks (t.worker w).pc := by
  simp only [stepPc, hpc] at hs
  cases hs
  obtain ⟨hc, h1, h2, h3⟩ := h
  rw [goTo, setWorker_worker_self]
  show s.queues.pc w = .idle ∧ 1 ≤ min (s.queues.global.num / n + 1) m ∧
    min (s.queues.global.num / n + 1) m ≤ 128 ∧
    (s.queues.queue w).last + min (s.queues.global.num / n + 1) m ≤
      (s.queues.queue w).steal + 256
  generalize s.queues.global.num / n = share
  exact ⟨hc, by omega, by omega, by omega⟩

/-- What `pop_n` leaves to do. -/
theorem own_popN {m : Nat} (hpc : (s.worker w).pc = .popN m)
    (h : Refilling (s.queues.queue w) (s.queues.pc w) tasks (.popN m))
    (hs : stepPc config s w b = some t) :
    Refilling (t.queues.queue w) (t.queues.pc w) (s.queues.global.popN m).1 (t.worker w).pc ∧
      t.queues.global = (s.queues.global.popN m).2 ∧
      (t.worker w).pc = match (s.queues.global.popN m).1 with
        | [] => .toSearching
        | [_] => .runTask
        | _ :: _ :: _ => .pushBatch := by
  obtain ⟨hc, h1, h2, h3⟩ := h
  simp only [stepPc, hpc] at hs
  obtain ⟨q, hq, hs⟩ := Option.bind_eq_some_iff.1 hs
  cases hq
  have hlen : (s.queues.global.popN m).1.length ≤ m := by
    show (List.take (min s.queues.global.num m) s.queues.global.tasks).length ≤ m
    rw [List.length_take]
    omega
  generalize (s.queues.global.popN m).1 = fetched at hs hlen ⊢
  split at hs
  · cases hs
    rw [goTo, setWorker_worker_self]
    exact ⟨trivial, rfl, rfl⟩
  · cases hs
    rw [goTo, setWorker_worker_self]
    exact ⟨trivial, rfl, rfl⟩
  · next result rest hne =>
    obtain ⟨q, hq, rfl⟩ := Option.map_eq_some_iff.1 hs
    simp only [WorkStealing.step, Option.ite_none_right_eq_some] at hq
    obtain ⟨⟨hpos, -⟩, hq⟩ := hq
    rw [WorkStealing.call_eq hq, goTo, setWorker_worker_self]
    obtain ⟨x, rest, rfl⟩ := List.exists_cons_of_length_pos hpos
    refine ⟨⟨hpos, ?_⟩, rfl, rfl⟩
    show Fits (s.queues.queue w) (x :: rest)
      (Function.update s.queues.pc w (.batchHead (x :: rest)) w)
    rw [Function.update_self]
    refine ⟨rfl, ?_⟩
    rw [List.length_cons] at hlen
    omega

/-! The three stages of `push_batch`. -/

/-- A step that does not end the call. -/
structure Writes (q q' : WorkStealing.State (Fin n) T) (w : Fin n) (tasks : List T) : Prop where
  fits : Fits (q'.queue w) tasks (q'.pc w)
  live : WorkStealing.live (q'.queue w) = WorkStealing.live (q.queue w)
  left : left (q'.pc w) < left (q.pc w)

theorem Writes.continues {q' : WorkStealing.State (Fin n) T} (h : Writes q q' w tasks) :
    q'.pc w ≠ .idle := fun hc => by
  have hfits := h.fits
  rw [hc] at hfits
  exact hfits

theorem writes_batchHead (b : Bool) (hg : WorkStealing.Geo (q.queue w))
    (hc : q.pc w = .batchHead tasks)
    (hroom : (q.queue w).last + tasks.length ≤ (q.queue w).steal + 256) :
    ∃ q', WorkStealing.step q (.step w b) = some q' ∧ Writes q q' w tasks := by
  have hself := WorkStealing.setPc_pc_self q w
  refine ⟨WorkStealing.setPc q w (.batchTail tasks (unpack (q.queue w).head).1), ?_, ?_, rfl, ?_⟩
  · simp only [WorkStealing.step, WorkStealing.stepPc, hc]
  · rw [hself]
    refine ⟨rfl, (q.queue w).steal, ?_, Nat.le_refl _, hroom⟩
    rw [hg.head, WorkStealing.unpack_pack]
  · rw [hself, hc]
    exact Nat.lt_succ_self _

/-- The room is found. -/
theorem writes_batchTail (b : Bool) {σ : Nat} (hg : WorkStealing.Geo (q.queue w))
    (hc : q.pc w = .batchTail tasks (WorkStealing.pos σ)) (hσ : σ ≤ (q.queue w).steal)
    (hroom : (q.queue w).last + tasks.length ≤ σ + 256) :
    ∃ q', WorkStealing.step q (.step w b) = some q' ∧ Writes q q' w tasks := by
  have hself := WorkStealing.setPc_pc_self q w
  have h1 := hg.steal_le
  have h2 := hg.real_le
  have h3 := hg.last_le
  refine ⟨WorkStealing.setPc q w (.batchWrite tasks 0 (q.queue w).tail), ?_, ?_, rfl, ?_⟩
  · simp only [WorkStealing.step, WorkStealing.stepPc, hc]
    rw [hg.tail, WorkStealing.sub_toNat (by omega) (by omega)]
    exact if_neg (show ¬ (q.queue w).last - σ > 256 - tasks.length by omega)
  · rw [hself]
    exact rfl
  · rw [hself, hc]
    exact Nat.lt_succ_self _

theorem writes_batchWrite (b : Bool) {i : Nat} {tail : U32} {task : T}
    (hg : WorkStealing.Geo (q.queue w)) (hc : q.pc w = .batchWrite tasks i tail)
    (ho : WorkStealing.Own (q.queue w) (.batchWrite tasks i tail : WorkStealing.Pc (Fin n) T))
    (hget : tasks[i]? = some task) :
    ∃ q', WorkStealing.step q (.step w b) = some q' ∧ Writes q q' w tasks := by
  obtain ⟨hle, rfl, hroom, hreg⟩ := ho
  have hlt : i < tasks.length := (List.getElem?_eq_some_iff.1 hget).1
  obtain ⟨-, -, hlive⟩ := hg.write (p := (q.queue w).last + i) task (by omega) (by omega)
  refine ⟨WorkStealing.setPc (WorkStealing.setQueue q w ((q.queue w).write
      (WorkStealing.pos ((q.queue w).last + i)) task)) w
    (.batchWrite tasks (i + 1) (WorkStealing.pos ((q.queue w).last + i) + 1)), ?_, ?_, ?_, ?_⟩
  · simp only [WorkStealing.step, WorkStealing.stepPc, hc, hget]
  · rw [WorkStealing.setPc_pc_self]
    exact rfl
  · show WorkStealing.live ((WorkStealing.setQueue q w _).queue w) = _
    rw [WorkStealing.setQueue_queue_self, hlive]
  · rw [WorkStealing.setPc_pc_self, hc]
    show tasks.length - (i + 1) + 1 < tasks.length - i + 1
    omega

/-- The batch is published. -/
theorem publishes_batchWrite (b : Bool) {i : Nat} {tail : U32}
    (hg : WorkStealing.Geo (q.queue w)) (hc : q.pc w = .batchWrite tasks i tail)
    (ho : WorkStealing.Own (q.queue w) (.batchWrite tasks i tail : WorkStealing.Pc (Fin n) T))
    (hget : tasks[i]? = none) :
    ∃ q', WorkStealing.step q (.step w b) = some q' ∧ q'.pc w = .idle ∧
      q'.returned = q.returned ∧
      WorkStealing.live (q'.queue w) = WorkStealing.live (q.queue w) ++ tasks := by
  obtain ⟨hle, rfl, hroom, hreg⟩ := ho
  have hend : i = tasks.length := by
    have := List.getElem?_eq_none_iff.1 hget
    omega
  subst hend
  obtain ⟨-, -, hlive⟩ := hg.storeTail rfl hroom
  refine ⟨WorkStealing.setPc (WorkStealing.setQueue q w ((q.queue w).storeTail
    (WorkStealing.pos ((q.queue w).last + tasks.length)) tasks.length)) w .idle, ?_,
    WorkStealing.setPc_pc_self .., rfl, ?_⟩
  · simp only [WorkStealing.step, WorkStealing.stepPc, hc, hget]
  · show WorkStealing.live ((WorkStealing.setQueue q w _).queue w) = _
    rw [WorkStealing.setQueue_queue_self, hlive, hreg, List.take_length]

/-- **The push.**  There is room for the batch, so it is written slot by slot and then
published at once. -/
theorem step_pushBatch (b : Bool) (hg : WorkStealing.Geo (q.queue w))
    (ho : WorkStealing.Own (q.queue w) (q.pc w)) (h : Fits (q.queue w) tasks (q.pc w)) :
    ∃ q', WorkStealing.step q (.step w b) = some q' ∧ (Writes q q' w tasks ∨
      (q'.pc w = .idle ∧ q'.returned = q.returned ∧
        WorkStealing.live (q'.queue w) = WorkStealing.live (q.queue w) ++ tasks)) := by
  cases hc : q.pc w with
  | batchHead batch =>
    rw [hc] at h
    obtain ⟨rfl, hroom⟩ := h
    obtain ⟨q', hq, hw⟩ := writes_batchHead b hg hc hroom
    exact ⟨q', hq, Or.inl hw⟩
  | batchTail batch steal =>
    rw [hc] at h
    obtain ⟨rfl, σ, rfl, hσ, hroom⟩ := h
    obtain ⟨q', hq, hw⟩ := writes_batchTail b hg hc hσ hroom
    exact ⟨q', hq, Or.inl hw⟩
  | batchWrite batch i tail =>
    rw [hc] at h ho
    obtain rfl : batch = tasks := h
    cases hget : batch[i]? with
    | some task =>
      obtain ⟨q', hq, hw⟩ := writes_batchWrite b hg hc ho hget
      exact ⟨q', hq, Or.inl hw⟩
    | none =>
      obtain ⟨q', hq, hp⟩ := publishes_batchWrite b hg hc ho hget
      exact ⟨q', hq, Or.inr hp⟩
  | _ =>
    rw [hc] at h
    exact h.elim

theorem own_pushBatch (config : Config) (b : Bool) (hi : WorkStealing.Inv s.queues)
    (hpc : (s.worker w).pc = .pushBatch)
    (h : Refilling (s.queues.queue w) (s.queues.pc w) tasks .pushBatch) :
    ∃ u, stepPc config s w b = some u ∧
      Refilling (u.queues.queue w) (u.queues.pc w) tasks (u.worker w).pc ∧
      (((u.worker w).pc = .pushBatch ∧
          WorkStealing.live (u.queues.queue w) = WorkStealing.live (s.queues.queue w) ∧
          left (u.queues.pc w) < left (s.queues.pc w)) ∨
        ((u.worker w).pc = .runTask ∧ WorkStealing.live (u.queues.queue w) =
          WorkStealing.live (s.queues.queue w) ++ tasks.tail)) := by
  obtain ⟨hpos, hfits⟩ := h
  simp only [stepPc, hpc]
  obtain ⟨q, hq, hw | ⟨hidle, hret, hlive⟩⟩ := step_pushBatch b (hi.geo w) (hi.own w) hfits
  · refine ⟨_, continueCall_goes hq hw.continues, ?_, Or.inl ⟨hpc, hw.live, hw.left⟩⟩
    show Refilling _ _ _ (s.worker w).pc
    rw [hpc]
    exact ⟨hpos, hw.fits⟩
  · -- nothing is thrown back
    rw [continueCall_returns hq hidle, hret, List.drop_length]
    refine ⟨_, rfl, ?_, Or.inr ⟨?_, hlive⟩⟩
    · rw [goTo, setWorker_worker_self]
      trivial
    · rw [goTo, setWorker_worker_self]

end Own

section Steps

variable {config : Config} {s t : State n R T} {a : Act n R T}

omit [DecidableEq R] in
/-- Each step of the worker leads from one stage to the next. -/
theorem Inv.own (h : Inv s) {w : Fin n} {b : Bool} {u : MultiThread.State n R T}
    (hs : stepPc config s.scheduler w b = some u) :
    Refilling (u.queues.queue w) (u.queues.pc w) (fetch s w).tasks (u.worker w).pc := by
  have hw := h.refilling w
  unfold fetch
  cases hpc : (s.scheduler.worker w).pc with
  | globalEmpty => exact own_globalEmpty hpc hs
  | remaining =>
    rw [State.pc, hpc] at hw
    exact own_remaining h.queues hpc hw hs
  | globalSize m =>
    rw [State.pc, hpc] at hw
    exact own_globalSize hpc hw hs
  | popN m =>
    rw [State.pc, hpc] at hw
    exact (own_popN hpc hw hs).1
  | pushBatch =>
    rw [State.pc, hpc] at hw
    obtain ⟨u', hu, href, -⟩ := own_pushBatch config b h.queues hpc hw
    rw [hs] at hu
    cases hu
    exact href
  | thrown =>
    rw [State.pc, hpc] at hw
    exact hw.elim
  | _ => exact .of_elsewhere ((stepPc_acts hs).elsewhere (by rw [hpc]; rfl))

omit [DecidableEq R] in
/-- What a worker knows while another one works. -/
theorem Inv.others (h : Inv s) {u : MultiThread.State n R T} {v : Fin n} {locals : Locals T}
    (hl : locals = s.locals v) (hw : u.worker v = s.scheduler.worker v)
    (hr : WorkStealing.Rests s.scheduler.queues u.queues v) :
    Refilling (u.queues.queue v) (u.queues.pc v) locals.tasks (u.worker v).pc := by
  rw [hl, hw, hr.pc]
  exact (h.refilling v).rests hr.last hr.steal

theorem Inv.step (h : Inv s) (hs : step config s a = some t) (hok : NoWrap s a t) : Inv t := by
  cases a with
  | close =>
    simp only [NextTask.step] at hs
    obtain ⟨q, hq, rfl⟩ := Option.map_eq_some_iff.1 hs
    have hinv := (WorkStealing.keeps_step _ _ q h.queues hq trivial).inv
    cases hq
    exact ⟨hinv, h.refilling⟩
  | scheduler a =>
    simp only [NextTask.step] at hs
    obtain ⟨u, hu, rfl⟩ := Option.map_eq_some_iff.1 hs
    cases ha : a.worker with
    | none =>
      have haside := step_aside ha hu
      have hl : setLocals s a = s.locals := by
        cases a <;> first | rfl | cases ha
      refine ⟨haside.inv h.queues, fun v => ?_⟩
      exact h.others (congrFun hl v) (congrFun haside.worker v)
        ⟨congrFun haside.pc v, by rw [haside.queue], by rw [haside.queue]⟩
    | some w =>
      by_cases hb : ∃ b, a = .step w b
      · obtain ⟨b, rfl⟩ := hb
        have hacts := stepPc_acts hu
        refine ⟨hacts.inv h.queues hok, fun v => ?_⟩
        by_cases hv : v = w
        · subst hv
          have hown := h.own hu
          have hl : setLocals s (.step v b) v = fetch s v := Function.update_self ..
          show Refilling _ _ (setLocals s (.step v b) v).tasks _
          rw [hl]
          exact hown
        · exact h.others (Function.update_of_ne hv ..) (hacts.others v hv)
            (hacts.rests h.queues hv)
      · have hne : ∀ b, a ≠ .step w b := fun b he => hb ⟨b, he⟩
        have hstarts := step_starts ha hne hu
        have hl : setLocals s a = s.locals := by
          cases a with
          | step x b =>
            cases ha
            exact absurd rfl (hne b)
          | _ => rfl
        refine ⟨hstarts.queues.inv h.queues, fun v => ?_⟩
        by_cases hv : v = w
        · subst hv
          exact .of_elsewhere (hstarts.elsewhere (step_outside ha hne hu))
        · exact h.others (congrFun hl v) (hstarts.others v hv) (hstarts.queues.rests hv)

/-! ### What they give -/

omit [DecidableEq R] in
theorem fetch_tasks {w : Fin n} {m : Nat} (hpc : s.pc w = .popN m) :
    fetch s w = ⟨(s.scheduler.queues.global.popN m).1,
      (s.scheduler.queues.global.popN m).1.head?⟩ := by
  unfold fetch
  rw [show (s.scheduler.worker w).pc = .popN m from hpc]

omit [DecidableEq R] in
/-- `pop_n`, and the batch is no bigger than a queue. -/
theorem Inv.popN_enabled (h : Inv s) {w : Fin n} {m : Nat} (hpc : s.pc w = .popN m) (b : Bool) :
    (stepPc config s.scheduler w b).isSome := by
  have hw := h.refilling w
  rw [hpc] at hw
  obtain ⟨hc, -, hm, -⟩ := hw
  have hpc' : (s.scheduler.worker w).pc = .popN m := hpc
  have hlen : (s.scheduler.queues.global.popN m).1.length ≤ m := by
    show (List.take (min _ m) _).length ≤ m
    rw [List.length_take]
    omega
  simp only [stepPc, hpc', WorkStealing.step, Option.bind_some]
  generalize (s.scheduler.queues.global.popN m).1 = fetched at hlen ⊢
  split
  · rfl
  · rfl
  · next x rest hne =>
    have hpos : 0 < rest.length := List.length_pos_of_ne_nil hne
    rw [List.length_cons] at hlen
    have hcall : ∀ q : WorkStealing.State (Fin n) T, q.pc w = .idle →
        (WorkStealing.call q w (.batchHead rest)).isSome := by
      intro q hq
      unfold WorkStealing.call
      rw [hq]
      rfl
    unfold startCall
    rw [Option.isSome_map]
    simp only [WorkStealing.step]
    rw [if_pos ⟨hpos, show rest.length ≤ 256 by omega⟩]
    exact hcall _ hc

theorem Inv.enabled (h : Inv s) {w : Fin n} (b : Bool)
    (hpc : (∃ m, s.pc w = .popN m) ∨ s.pc w = .pushBatch) :
    (NextTask.step config s (.scheduler (.step w b))).isSome := by
  show (Option.map _ (stepPc config s.scheduler w b)).isSome
  rw [Option.isSome_map]
  obtain ⟨m, hpc⟩ | hpc := hpc
  · exact h.popN_enabled hpc b
  · have hw := h.refilling w
    rw [hpc] at hw
    obtain ⟨u, hu, -⟩ := own_pushBatch config b h.queues hpc hw
    rw [hu]
    rfl

theorem Inv.fetched (h : Inv s) {w : Fin n} {b : Bool} {m : Nat} (hpc : s.pc w = .popN m)
    (hs : NextTask.step config s (.scheduler (.step w b)) = some t) : Fetched s t w := by
  obtain ⟨u, hu, rfl⟩ := Option.map_eq_some_iff.1 hs
  have hw := h.refilling w
  rw [hpc] at hw
  obtain ⟨-, hglobal, hnext⟩ := own_popN hpc hw hu
  have hl : setLocals s (.step w b) w = _ := (Function.update_self ..).trans (fetch_tasks hpc)
  have htasks : (setLocals s (.step w b) w).tasks = (s.scheduler.queues.global.popN m).1 := by
    rw [hl]
  refine ⟨?_, ?_, ?_⟩
  · show _ = (setLocals s (.step w b) w).tasks ++ u.queues.global.tasks
    rw [htasks, hglobal]
    exact (List.take_append_drop ..).symm
  · show (setLocals s (.step w b) w).result = (setLocals s (.step w b) w).tasks.head?
    rw [hl]
  · show (u.worker w).pc = match (setLocals s (.step w b) w).tasks with
      | [] => .toSearching
      | [_] => .runTask
      | _ :: _ :: _ => .pushBatch
    rw [htasks]
    exact hnext

omit [DecidableEq R] in
/-- Only `pop_n` changes the locals. -/
theorem setLocals_of_pushBatch {w : Fin n} (hpc : s.pc w = .pushBatch) (a : MultiThread.Act n R T) :
    setLocals s a w = s.locals w := by
  cases a with
  | step v b =>
    by_cases hv : w = v
    · subst hv
      refine (Function.update_self ..).trans ?_
      unfold fetch
      rw [show (s.scheduler.worker w).pc = .pushBatch from hpc]
    · exact Function.update_of_ne hv ..
  | _ => rfl

theorem kept_pushBatch {w : Fin n} (hpc : s.pc w = .pushBatch)
    (hs : NextTask.step config s a = some t) : t.locals w = s.locals w := by
  cases a with
  | close =>
    simp only [NextTask.step] at hs
    obtain ⟨q, -, rfl⟩ := Option.map_eq_some_iff.1 hs
    rfl
  | scheduler a =>
    simp only [NextTask.step] at hs
    obtain ⟨u, -, rfl⟩ := Option.map_eq_some_iff.1 hs
    exact setLocals_of_pushBatch hpc a

theorem Inv.pushed (h : Inv s) {w : Fin n} {b : Bool} (hpc : s.pc w = .pushBatch)
    (hs : NextTask.step config s (.scheduler (.step w b)) = some t) :
    Pushes s t w ∨ Pushed s t w := by
  have hkept := kept_pushBatch hpc hs
  obtain ⟨u, hu, rfl⟩ := Option.map_eq_some_iff.1 hs
  have hw := h.refilling w
  rw [hpc] at hw
  obtain ⟨u', hu', -, hend⟩ := own_pushBatch config b h.queues hpc hw
  have hu : stepPc config s.scheduler w b = some u := hu
  rw [hu] at hu'
  cases hu'
  obtain ⟨hnext, hlive, hleft⟩ | ⟨hnext, hlive⟩ := hend
  · exact Or.inl ⟨hnext, hlive, hleft⟩
  · refine Or.inr ⟨hnext, ?_⟩
    show _ = _ ++ (setLocals s (.step w b) w).tasks.tail
    rw [setLocals_of_pushBatch hpc]
    exact hlive

omit [DecidableEq R] in
theorem Inv.inHand (h : Inv s) {w : Fin n} (hpc : s.pc w = .pushBatch) :
    WorkStealing.hand s.scheduler.queues.queue (s.queue w) (s.call w) = (s.tasks w).tail := by
  have hw := h.refilling w
  rw [hpc] at hw
  obtain ⟨-, hfits⟩ := hw
  cases hc : s.call w with
  | batchHead batch =>
    rw [hc] at hfits
    exact hfits.1
  | batchTail batch steal =>
    rw [hc] at hfits
    exact hfits.1
  | batchWrite batch i tail =>
    rw [hc] at hfits
    exact hfits
  | _ =>
    rw [hc] at hfits
    exact hfits.elim

theorem Inv.refills (h : Inv s) (hs : NextTask.step config s a = some t) (hok : NoWrap s a t) :
    Refills config s a t := by
  have ht := h.step hs hok
  refine ⟨ht.queues.sound, fun w hw => ?_, fun w b => ht.enabled b, ?_, ?_, fun w hpc => ?_,
    fun w => ht.inHand⟩
  · have := ht.refilling w
    rw [hw] at this
    exact this
  · rintro w b m rfl hpc
    exact h.fetched hpc hs
  · rintro w b rfl hpc
    exact h.pushed hpc hs
  · have hl := kept_pushBatch hpc hs
    exact ⟨congrArg Locals.tasks hl, congrArg Locals.result hl⟩

end Steps

/-! ## Top theorem -/

/-- **Refilling is safe.**  For any number of workers and other threads, and every
interleaving of any length in which `head_` does not advance `2^32` between a thief's
load and its CAS: `next_task` returns the oldest of the tasks it takes, the others
end up in its queue in order, none is lost, and `push_batch` does not throw. -/
theorem next_task_refills [Inhabited T] (config : Config) (as : List (Act n R T))
    (h : EachStep (step config) NoWrap init as) : EachStep (step config) (Refills config) init as :=
  eachStep_of_inv Inv (fun _ _ _ hi hs hok => hi.step hs hok)
    (fun _ _ _ hi hs hok => hi.refills hs hok) inv_init h

/-- Five tasks come from another thread; `w` takes three of them, one to run. -/
def refillRun (w : Fin n) : List (Act n Unit Nat) :=
  [.scheduler (.remote () [1, 2, 3, 4, 5])] ++
    List.replicate 14 (.scheduler (.step w false))

theorem refillRun_refills :
    (∃ s, run (step {}) (init : State 2 Unit Nat) (refillRun 0) = some s ∧ s.pc 0 = .runTask ∧
      s.result 0 = some 1 ∧ WorkStealing.live (s.queue 0) = [2, 3] ∧
      s.scheduler.queues.global.tasks = [4, 5]) ∧
    EachStep (step {}) (Refills {}) (init : State 2 Unit Nat) (refillRun 0) := by
  refine ⟨?_, next_task_refills {} (refillRun 0) (by decide +kernel)⟩
  exact run_eval (step {}) init (refillRun 0) (fun s => s.pc 0 = .runTask ∧
    s.result 0 = some 1 ∧ WorkStealing.live (s.queue 0) = [2, 3] ∧
    s.scheduler.queues.global.tasks = [4, 5]) (by decide +kernel)

end Kosio.Runtime.NextTask
