import Kosio.Runtime.Timer.Contents

/-!
# `Sleep`

`await_suspend` puts the coroutine into the wheel.  It is `noexcept`, and it
looks at what `insert` gives back with `value()`, which throws if that is an
error: a deadline the wheel has passed ends the program (`awaitSuspend_passed`).

A sleep keeps its word in exactly the runs in which

    start_time_ + elapsed_ < deadline asked for < 2^64     at each co_await
    no sleep(d) in a slot of level 0 reached too early     at each handle_expired_entries

                                                           (total_iff)

The deadline asked for is `now + d` without wrap-around; the code's sum wraps.
-/

namespace Kosio.Time

open Kosio.Runtime Kosio.Runtime.Timer Steps

variable {D H : Type}

/-! ## Algorithm -/

/-- A `Sleep` and the call that made it. -/
inductive Sleep where
  /-- `sleep(duration)` when the clock read `created` -/
  | sleep (created duration : BitVec 64)
  | sleepUntil (deadline : BitVec 64)

namespace Sleep

/-- `cb_.deadline_` -/
def deadline : Sleep → BitVec 64
  | sleep created duration => created + duration
  | sleepUntil deadline => deadline

/-- The deadline asked for. -/
def requested : Sleep → Nat
  | sleep created duration => created.toNat + duration.toNat
  | sleepUntil deadline => deadline.toNat

/-- `d` ms from its creation on are over. -/
def Over (currentMs : Nat) : Sleep → Prop
  | sleep created duration => created.toNat + duration.toNat ≤ currentMs
  | sleepUntil _ => True

def isSleep : Sleep → Bool
  | sleep _ _ => true
  | sleepUntil _ => false

theorem deadline_toNat (sl : Sleep) : sl.deadline.toNat = sl.requested % 2 ^ 64 := by
  cases sl with
  | sleep created duration => exact BitVec.toNat_add created duration
  | sleepUntil deadline => exact (Nat.mod_eq_of_lt deadline.isLt).symm

/-- The sum wraps. -/
example : (sleep 1000 (BitVec.ofNat 64 (2 ^ 64 - 500))).deadline = 500 := by decide

theorem over_iff (sl : Sleep) (currentMs : Nat) :
    sl.Over currentMs ↔ (sl.isSleep → sl.requested ≤ currentMs) := by
  cases sl with
  | sleep created duration => exact ⟨fun h _ => h, fun h => h rfl⟩
  | sleepUntil deadline => exact ⟨fun _ h => (by cases h), fun _ => trivial⟩

end Sleep

/-- What comes of a `co_await`. -/
inductive Awaited where
  | suspended (entry : Nat)
  | resumed (result : Result Unit)
  /-- an exception has left a `noexcept` function -/
  | terminated
deriving DecidableEq

/-- `await_suspend`.  The branch that would set `result_` is behind the `value()`
that throws. -/
def awaitSuspend (t : Timer D H) (handle : H) (deadline : BitVec 64) : Timer D H × Awaited :=
  match t.insertHandle handle deadline.toNat with
  | .ok (t, entry) => (t, .suspended entry)
  | .error _ => (t, .terminated)

structure State (D H : Type) where
  timer : Timer D H
  /-- whose entry it is -/
  sleeps : Nat → Option Sleep
  terminated : Bool

def init (currentMs : Nat) : State D H := ⟨.new currentMs, fun _ => none, false⟩

inductive Act (D H : Type) where
  /-- `co_await` of a sleep when the clock reads `currentMs` -/
  | coAwait (sl : Sleep) (handle : H) (currentMs : Nat)
  /-- the timeout of an io -/
  | insertData (data : D) (expirationTime : Nat)
  | removeData (entry : Nat)
  | handleExpiredEntries (currentMs : Nat)

/-- The state a `co_await` leaves. -/
def awaited (s : State D H) (sl : Sleep) : Timer D H × Awaited → State D H
  | (timer, .suspended entry) =>
    { s with timer, sleeps := Function.update s.sleeps entry (some sl) }
  | (timer, .resumed _) => { s with timer }
  | (timer, .terminated) => { s with timer, terminated := true }

/-- A rejected timeout changes nothing. -/
def inserted (s : State D H) : Result (Timer D H × Nat) → State D H
  | .ok (timer, _) => { s with timer }
  | .error _ => s

/-- As in `ClockRun`, the clock may go back, though not before the start. -/
def step (s : State D H) (a : Act D H) : Option (State D H) :=
  if s.terminated then none
  else match a with
    | .coAwait sl handle _ => some (awaited s sl (awaitSuspend s.timer handle sl.deadline))
    | .insertData data expirationTime =>
      some (inserted s (s.timer.insertData data expirationTime))
    | .removeData entry =>
      if entry < s.timer.made ∧ (s.timer.entries entry).handle.isNone then
        some { s with timer := s.timer.remove entry }
      else none
    | .handleExpiredEntries currentMs =>
      if currentMs < s.timer.startTime then none
      else some { s with timer := (s.timer.handleExpiredEntries currentMs).1 }

/-! ## Specification -/

/-- What a `co_await` owes the coroutine. -/
def Owed (t : Timer D H) (sl : Sleep) (handle : H) (currentMs : Nat) :
    Timer D H × Awaited → Prop
  | (u, .suspended entry) =>
    u.entries = Function.update t.entries entry
      { handle := some handle, expirationTime := sl.requested } ∧
    u.Stored entry ∧ u.total entry = 1 ∧ ∀ i, i ≠ entry → u.total i = t.total i
  | (u, .resumed result) => result = .error .kPassedTime ∧ u = t ∧ sl.Over currentMs
  | (_, .terminated) => False

/-- The step keeps the word of every sleep. -/
def Total (s : State D H) (a : Act D H) (_ : State D H) : Prop :=
  match a with
  | .coAwait sl handle currentMs =>
    Owed s.timer sl handle currentMs (awaitSuspend s.timer handle sl.deadline)
  | .handleExpiredEntries currentMs =>
    ∀ i ∈ (s.timer.handleExpiredEntries currentMs).2.map (·.1), ∀ sl ∈ s.sleeps i,
      sl.Over currentMs
  | _ => True

/-- The entry is that of a `sleep(d)`. -/
def Slept (s : State D H) (i : Nat) : Prop := ∃ sl ∈ s.sleeps i, sl.isSleep

/-- Deadlines are ahead of the wheel and fit, and calls are made in safe states. -/
def OnTime (s : State D H) (a : Act D H) (_ : State D H) : Prop :=
  match a with
  | .coAwait sl _ _ =>
    s.timer.startTime + s.timer.elapsed < sl.requested ∧ sl.requested < 2 ^ 64
  | .handleExpiredEntries currentMs =>
    s.timer.SafeFor (Slept s) (currentMs - s.timer.startTime)
  | _ => True

/-! ## `co_await` -/

theorem awaitSuspend_passed {t : Timer D H} {deadline : BitVec 64}
    (h : deadline.toNat ≤ t.startTime + t.elapsed) (handle : H) :
    awaitSuspend t handle deadline = (t, .terminated) := by
  unfold awaitSuspend insertHandle insertEntry
  rw [if_pos h]

theorem awaitSuspend_ahead {t : Timer D H} {deadline : BitVec 64}
    (h : t.startTime + t.elapsed < deadline.toNat) (handle : H) :
    ∃ u, t.insertHandle handle deadline.toNat = .ok (u, t.made) ∧ u.pending = t.pending ∧
      awaitSuspend t handle deadline = (u, .suspended t.made) := by
  unfold awaitSuspend insertHandle insertEntry
  rw [if_neg (not_le.2 h)]
  exact ⟨_, rfl, rfl, rfl⟩

/-- **One sleep.**  In any state of the wheel. -/
theorem owed_iff {t : Timer D H} (hp : t.pending = []) (hs : ∀ i, t.Stored i → i < t.made)
    (sl : Sleep) (handle : H) (currentMs : Nat) :
    Owed t sl handle currentMs (awaitSuspend t handle sl.deadline) ↔
      t.startTime + t.elapsed < sl.requested ∧ sl.requested < 2 ^ 64 := by
  have hd := sl.deadline_toNat
  by_cases h : sl.deadline.toNat ≤ t.startTime + t.elapsed
  · rw [awaitSuspend_passed h]
    refine ⟨False.elim, fun ⟨hlt, hfit⟩ => ?_⟩
    rw [hd, Nat.mod_eq_of_lt hfit] at h
    omega
  · obtain ⟨u, hu, hup, ha⟩ := awaitSuspend_ahead (not_le.1 h) handle
    obtain ⟨-, hadd⟩ := insertEntry_added hu
    rw [ha]
    constructor
    · rintro ⟨hent, -⟩
      rw [hadd.entries] at hent
      have hreq := congrArg Entry.expirationTime (congrFun hent t.made)
      rw [Function.update_self, Function.update_self] at hreq
      have hreq : sl.deadline.toNat = sl.requested := hreq
      have hlt := sl.deadline.isLt
      omega
    · rintro ⟨hlt, hfit⟩
      have hreq : sl.deadline.toNat = sl.requested := hd.trans (Nat.mod_eq_of_lt hfit)
      have hone : u.total t.made = 1 := by
        rw [hadd.total_new, total_made hp hs]
      refine ⟨hadd.entries.trans (congrArg (fun w => Function.update t.entries t.made
        { handle := some handle, expirationTime := w }) hreq), ?_, hone, fun i => hadd.total_old⟩
      rcases total_pos.1 (show 0 < u.total t.made by omega) with hst | hi
      · exact hst
      · rw [hup, hp] at hi
        cases hi

/-! ## Runs -/

/-- The invariant between steps, once every sleep has kept its word. -/
structure Inv (s : State D H) : Prop where
  marked : ∀ level, (s.timer.levels level).Marked
  pending : s.timer.pending = []
  stored : ∀ i, s.timer.Stored i → i < s.timer.made
  made : ∀ i, ∀ sl ∈ s.sleeps i, i < s.timer.made
  handle : ∀ i, ∀ sl ∈ s.sleeps i, (s.timer.entries i).handle.isSome
  due : ∀ i, ∀ sl ∈ s.sleeps i, (s.timer.entries i).expirationTime = sl.requested

theorem inv_init (currentMs : Nat) : Inv (init currentMs : State D H) :=
  ⟨fun _ => Level.marked_empty, rfl, fun _ ⟨_, _, h⟩ => (List.not_mem_nil h).elim, nofun, nofun,
    nofun⟩

/-- What `insert` keeps of the invariant, before the new entry is anybody's. -/
theorem Inv.insertEntry {s : State D H} (h : Inv s) {entry : Entry D H} {u : Timer D H} {i : Nat}
    (hu : s.timer.insertEntry entry = .ok (u, i)) : Inv { s with timer := u } := by
  obtain ⟨-, hadd⟩ := insertEntry_added hu
  have hent : ∀ i, ∀ sl ∈ s.sleeps i, u.entries i = s.timer.entries i := fun i sl hi =>
    hadd.entries_old (Nat.ne_of_lt (h.made i sl hi))
  refine ⟨hadd.marked h.marked, hadd.pending.trans h.pending, fun i => hadd.stored_lt h.stored,
    fun i sl hi => ?_, fun i sl hi => ?_, fun i sl hi => ?_⟩
  · show i < u.made
    rw [hadd.made]
    exact Nat.lt_succ_of_lt (h.made i sl hi)
  · show (u.entries i).handle.isSome
    rw [hent i sl hi]
    exact h.handle i sl hi
  · show (u.entries i).expirationTime = _
    rw [hent i sl hi]
    exact h.due i sl hi

theorem Inv.inserted {s : State D H} (h : Inv s) (entry : Entry D H) :
    Inv (inserted s (s.timer.insertEntry entry)) := by
  cases hu : s.timer.insertEntry entry with
  | error e => exact h
  | ok r => exact h.insertEntry hu

theorem Inv.awaited {s : State D H} (h : Inv s) {sl : Sleep} {handle : H}
    (hlt : s.timer.startTime + s.timer.elapsed < sl.requested) (hfit : sl.requested < 2 ^ 64) :
    Inv (awaited s sl (awaitSuspend s.timer handle sl.deadline)) := by
  have hreq : sl.deadline.toNat = sl.requested :=
    sl.deadline_toNat.trans (Nat.mod_eq_of_lt hfit)
  obtain ⟨u, hu, -, ha⟩ := awaitSuspend_ahead (hreq.symm ▸ hlt) handle
  obtain ⟨-, hadd⟩ := insertEntry_added hu
  have hi := h.insertEntry hu
  -- the new entry is that of the sleep, the others are whose they were
  have hnew : ∀ i, ∀ sl' ∈ Function.update s.sleeps s.timer.made (some sl) i,
      (i = s.timer.made ∧ sl' = sl) ∨ sl' ∈ s.sleeps i := by
    intro i sl' hi
    by_cases hm : i = s.timer.made
    · rw [hm, Function.update_self] at hi
      exact Or.inl ⟨hm, (Option.mem_some_iff.1 hi).symm⟩
    · rw [Function.update_of_ne hm] at hi
      exact Or.inr hi
  have hent : u.entries s.timer.made = { handle := some handle, expirationTime := sl.requested } := by
    rw [hadd.entries_new, hreq]
  rw [ha]
  refine ⟨hi.marked, hi.pending, hi.stored, fun i sl' hs => ?_, fun i sl' hs => ?_,
    fun i sl' hs => ?_⟩
  · show i < u.made
    rcases hnew i sl' hs with ⟨rfl, -⟩ | hs
    · exact hadd.made.symm ▸ Nat.lt_succ_self _
    · exact hi.made i sl' hs
  · show (u.entries i).handle.isSome
    rcases hnew i sl' hs with ⟨rfl, -⟩ | hs
    · rw [hent]
      rfl
    · exact hi.handle i sl' hs
  · show (u.entries i).expirationTime = _
    rcases hnew i sl' hs with ⟨rfl, rfl⟩ | hs
    · rw [hent]
    · exact hi.due i sl' hs

theorem Inv.removed {s : State D H} (h : Inv s) {entry : Nat}
    (hn : (s.timer.entries entry).handle.isNone) :
    Inv { s with timer := s.timer.remove entry } := by
  rw [remove_data hn]
  refine ⟨h.marked, h.pending, h.stored, h.made, fun i sl hi => ?_, fun i sl hi => ?_⟩
  · exact (congrArg Option.isSome (field_clearData Entry.handle (fun _ => rfl) entry i)).trans
      (h.handle i sl hi)
  · exact (field_clearData Entry.expirationTime (fun _ => rfl) entry i).trans (h.due i sl hi)

/-- **A call.**  It resumes a `sleep(d)` early if and only if the state is not safe. -/
theorem call_spec {s : State D H} (h : Inv s) {currentMs : Nat}
    (hstart : s.timer.startTime ≤ currentMs) :
    Inv { s with timer := (s.timer.handleExpiredEntries currentMs).1 } ∧
    ((∀ i ∈ (s.timer.handleExpiredEntries currentMs).2.map (·.1), ∀ sl ∈ s.sleeps i,
        sl.Over currentMs) ↔ s.timer.SafeFor (Slept s) (currentMs - s.timer.startTime)) := by
  have hu := handleExpiredEntries_called h.marked currentMs
  have hfuel := Nat.lt_succ_self (currentMs - s.timer.startTime - s.timer.elapsed)
  have hdue : ∀ i, ∀ sl ∈ s.sleeps i, s.timer.when_ i ≤ currentMs - s.timer.startTime ↔
      sl.requested ≤ currentMs := by
    intro i sl hi
    rw [← h.due i sl hi]
    unfold when_
    omega
  refine ⟨⟨hu.marked, hu.pending, fun i hi => ?_, fun i sl hi => ?_, fun i sl hi => ?_,
    fun i sl hi => ?_⟩, ?_⟩
  · exact hu.made.symm ▸ h.stored i (hu.stored i hi)
  · exact hu.made.symm ▸ h.made i sl hi
  · exact hu.entries.symm ▸ h.handle i sl hi
  · exact hu.entries.symm ▸ h.due i sl hi
  constructor
  · rintro hover slot i hi ⟨sl, hs, hsl⟩ hle
    have := hover i (expire_reached h.marked hfuel hi hle) sl hs
    exact (hdue i sl hs).2 ((sl.over_iff currentMs).1 this hsl)
  · intro hsafe i hi sl hs
    refine (sl.over_iff currentMs).2 fun hsl => (hdue i sl hs).1 ?_
    refine hsafe.expire h.marked (fun i hi => ?_)
      (currentMs - s.timer.startTime - s.timer.elapsed + 1) i hi ⟨sl, hs, hsl⟩
    rw [h.pending] at hi
    cases hi

theorem step_cases {s t : State D H} {a : Act D H} (hs : step s a = some t) :
    match a with
    | .coAwait sl handle _ => t = awaited s sl (awaitSuspend s.timer handle sl.deadline)
    | .insertData data expirationTime =>
      t = inserted s (s.timer.insertEntry { data := some data, expirationTime })
    | .removeData entry => (s.timer.entries entry).handle.isNone ∧
      t = { s with timer := s.timer.remove entry }
    | .handleExpiredEntries currentMs => s.timer.startTime ≤ currentMs ∧
      t = { s with timer := (s.timer.handleExpiredEntries currentMs).1 } := by
  unfold step at hs
  split at hs
  · cases hs
  · cases a with
    | coAwait sl handle currentMs => exact (Option.some.inj hs).symm
    | insertData data expirationTime => exact (Option.some.inj hs).symm
    | removeData entry =>
      simp only [Option.ite_none_right_eq_some, Option.some.injEq] at hs
      exact ⟨hs.1.2, hs.2.symm⟩
    | handleExpiredEntries currentMs =>
      simp only [Option.ite_none_left_eq_some, Option.some.injEq, not_lt] at hs
      exact ⟨hs.1, hs.2.symm⟩

theorem Inv.step {s t : State D H} {a : Act D H} (h : Inv s) (hs : step s a = some t)
    (hok : OnTime s a t) : Inv t := by
  have hc := step_cases hs
  cases a with
  | coAwait sl handle currentMs =>
    rw [hc]
    exact h.awaited hok.1 hok.2
  | insertData data expirationTime =>
    rw [hc]
    exact h.inserted _
  | removeData entry =>
    obtain ⟨hn, rfl⟩ := hc
    exact h.removed hn
  | handleExpiredEntries currentMs =>
    obtain ⟨hstart, rfl⟩ := hc
    exact (call_spec h hstart).1

theorem step_iff {s t : State D H} {a : Act D H} (h : Inv s) (hs : step s a = some t) :
    Total s a t ↔ OnTime s a t := by
  have hc := step_cases hs
  cases a with
  | coAwait sl handle currentMs => exact owed_iff h.pending h.stored sl handle currentMs
  | insertData data expirationTime => exact Iff.rfl
  | removeData entry => exact Iff.rfl
  | handleExpiredEntries currentMs => exact (call_spec h hc.1).2

/-- **Sleep.**  Every `co_await` suspends with one entry at the deadline asked for,
or passes on the error of `insert`, and no `sleep(d)` is over early, if and only if
deadlines are ahead of the wheel, fit, and calls are made in safe states. -/
theorem total_iff (currentMs : Nat) (as : List (Act D H)) :
    EachStep step Total (init currentMs) as ↔ EachStep step OnTime (init currentMs) as :=
  eachStep_iff Inv (fun _ _ _ h hs hok => h.step hs hok) (fun _ _ _ h hs => step_iff h hs)
    (inv_init currentMs)

/-- `co_await sleep(0)`, with a wheel as old as the call. -/
def sleepZero : List (Act Unit Unit) := [.coAwait (.sleep 0 0) () 0]

theorem sleepZero_terminates :
    ∃ s, run step (init 0) sleepZero = some s ∧ s.terminated = true ∧
      ¬ EachStep step Total (init 0) sleepZero := by
  obtain ⟨s, hs, hterm⟩ := run_eval step (init 0) sleepZero (fun s => s.terminated = true)
    (by decide +kernel)
  refine ⟨s, hs, hterm, fun h => ?_⟩
  rw [sleepZero, run_one] at hs
  have howed : Owed (Timer.new 0 : Timer Unit Unit) (.sleep 0 0) () 0
      (awaitSuspend (Timer.new 0) () (0 : BitVec 64)) := (h s hs).1
  rw [awaitSuspend_passed (by decide)] at howed
  exact howed

end Kosio.Time
