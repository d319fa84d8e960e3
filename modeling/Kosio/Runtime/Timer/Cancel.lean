import Kosio.Runtime.Timer.Contents

/-!
# `remove` of a sleeping coroutine

The handle is moved to a new entry in the slot of `elapsed_` in level 0, "the
slot processed next".  `next_expiration` takes an occupied current slot for the
one a whole round ahead, so the coroutine is scheduled by the next call if and
only if that call comes 64 ms after `elapsed_` or later (`scheduled_iff`).  No
call schedules it twice (`scheduled_once`).

Until then nothing else is reached: other sleeps wait for the new entry, and
those of level 0 for another round.
-/

namespace Kosio.Runtime

open Steps

namespace Timer

variable {D H : Type} {t u : Timer D H} {now : Nat}

/-! ## Specification -/

/-- How often a call schedules the coroutine. -/
def scheduled [DecidableEq D] [DecidableEq H] (handle : H) (log : Log D H) : Nat :=
  (log.map (·.2)).count (.schedule handle)

/-- What the calls at the readings `rs` execute. -/
def callsAt : Timer D H → List Nat → List (Log D H)
  | _, [] => []
  | t, r :: rs => (t.handleExpiredEntries r).2 :: callsAt (t.handleExpiredEntries r).1 rs

/-- Clock readings from now on. -/
def Readings (t : Timer D H) (rs : List Nat) : Prop :=
  ((t.startTime + t.elapsed) :: rs).Pairwise (· ≤ ·)

/-- `remove` wakes the coroutine `handle` up and nobody else. -/
structure Cancels [DecidableEq D] [DecidableEq H] (t : Timer D H) (entry : Nat) (handle : H) :
    Prop where
  next : ∀ r, t.Readings [r] →
    scheduled handle ((t.remove entry).handleExpiredEntries r).2 = 1
  never : ∀ r rs, t.Readings (r :: rs) →
    ∀ log ∈ callsAt ((t.remove entry).handleExpiredEntries r).1 rs, scheduled handle log = 0
  others : ∀ rs, t.Readings rs → ∀ i, i ≠ entry → t.Stored i →
    (callsAt (t.remove entry) rs).map (fun log => decide (i ∈ log.map (·.1))) =
      (callsAt t rs).map fun log => decide (i ∈ log.map (·.1))

/-! ## `remove` -/

/-- What `remove` does to a sleeping coroutine. -/
structure Replaced (t : Timer D H) (entry : Nat) (handle : H) (u : Timer D H) : Prop where
  startTime : u.startTime = t.startTime
  elapsed : u.elapsed = t.elapsed
  pending : u.pending = t.pending
  made : u.made = t.made + 1
  levels : u.levels = (t.addEntry 0 t.made t.elapsed).levels
  emptied : u.entries entry = { expirationTime := (t.entries entry).expirationTime }
  new : u.entries t.made = { handle := some handle, expirationTime := t.startTime + t.elapsed }
  other : ∀ i, i ≠ entry → i ≠ t.made → u.entries i = t.entries i

theorem remove_handle {entry : Nat} {handle : H} (hh : (t.entries entry).handle = some handle)
    (hlt : entry < t.made) : Replaced t entry handle (t.remove entry) := by
  have hdef : t.remove entry =
      (((t.setEntry entry { t.entries entry with data := none }).make
          { handle := some handle, expirationTime := t.startTime + t.elapsed }).1.addEntry 0
        t.made t.elapsed).setEntry entry
          { expirationTime := (t.entries entry).expirationTime } := by
    unfold remove
    have hd : ((t.setEntry entry { t.entries entry with data := none }).entries entry).handle =
        some handle := by simpa [setEntry] using hh
    simp only [hd]
    refine congrArg (Timer.setEntry _ entry) ?_
    show { Function.update (Function.update t.entries entry _) t.made _ entry with
      handle := none } = _
    rw [Function.update_of_ne (Nat.ne_of_lt hlt), Function.update_self]
  rw [hdef]
  refine ⟨rfl, rfl, rfl, rfl, rfl, Function.update_self .., ?_, fun i hi hm => ?_⟩
  · show Function.update (Function.update _ t.made _) entry _ t.made = _
    rw [Function.update_of_ne (Nat.ne_of_gt hlt), Function.update_self]
  · show Function.update (Function.update (Function.update t.entries entry _) t.made _) entry _ i = _
    rw [Function.update_of_ne hi, Function.update_of_ne hm, Function.update_of_ne hi]

theorem Replaced.slots {entry : Nat} {handle : H} (h : Replaced t entry handle u)
    (level : Fin numLevels) (slot : Fin levelMult) :
    u.slots level slot = (t.addEntry 0 t.made t.elapsed).slots level slot := by
  unfold Timer.slots
  rw [h.levels]

theorem Replaced.total {entry : Nat} {handle : H} (h : Replaced t entry handle u) (j : Nat) :
    u.total j = t.total j + [t.made].count j :=
  (total_congr h.slots h.pending j).trans (total_addEntry t 0 t.made t.elapsed j)

theorem Replaced.stored {entry : Nat} {handle : H} (h : Replaced t entry handle u) {j : Nat} :
    u.Stored j ↔ t.Stored j ∨ j = t.made := by
  rw [← stored_addEntry (t := t) (l := 0) (w := t.elapsed)]
  exact exists₂_congr fun level slot => by rw [h.slots]

/-- The new entry is in the current slot. -/
theorem Replaced.current {entry : Nat} {handle : H} (h : Replaced t entry handle u) :
    t.made ∈ u.slots 0 (Level.slotFor 0 u.elapsed) := by
  rw [h.slots, h.elapsed]
  exact mem_slots_addEntry.2 (Or.inr ⟨rfl, rfl, rfl⟩)

/-! ## The current slot -/

/-- An occupied current slot is a round ahead, and the others come after it. -/
theorem reachedAt_current (h : t.slots 0 (Level.slotFor 0 t.elapsed) ≠ []) :
    t.reachedAt (Level.slotFor 0 t.elapsed) = t.elapsed + 64 ∧
      ∀ slot, t.elapsed + 64 ≤ t.reachedAt slot := by
  have hat : ∀ slot, t.reachedAt slot = t.elapsed + 64 + ahead t.elapsed slot := fun slot => by
    rw [reachedAt, if_neg h]
  refine ⟨?_, fun slot => ?_⟩
  · rw [hat, ahead, slotFor_zero]
    omega
  · rw [hat]
    omega

/-- Until then a call executes nothing. -/
theorem expire_wait (hm : ∀ level, (t.levels level).Marked) (hp : t.pending = [])
    (h : t.slots 0 (Level.slotFor 0 t.elapsed) ≠ []) (hlt : now < t.elapsed + 64) (fuel : Nat) :
    (t.expire now fuel).2 = [] := by
  have hexec : t.executed = [] := by rw [executed, hp, List.map_nil]
  cases fuel with
  | zero => rfl
  | succ fuel =>
    unfold Timer.expire
    rcases turn_zero now hm h with ⟨hn, -⟩ | ⟨v, first, -, hle, -⟩
    · simp only [hn]
      exact hexec
    · have := (reachedAt_current h).2 first
      omega

/-! ## Calls -/

theorem scheduled_eq [DecidableEq D] [DecidableEq H] {handle : H} {n : Nat} (log : Log D H)
    (h : ∀ p ∈ log, p.2 = .schedule handle ↔ p.1 = n) :
    scheduled handle log = (log.map (·.1)).count n := by
  unfold scheduled
  induction log with
  | nil => rfl
  | cons p log ih =>
    have hp := h p List.mem_cons_self
    rw [List.map_cons, List.map_cons, List.count_cons, List.count_cons,
      ih fun q hq => h q (List.mem_cons_of_mem _ hq)]
    congr 1
    simp only [beq_iff_eq, hp]

/-- `n` is the one entry left for the coroutine. -/
structure Sole (t : Timer D H) (handle : H) (n : Nat) : Prop where
  marked : ∀ level, (t.levels level).Marked
  pending : t.pending = []
  executes : (t.entries n).execute = .schedule handle
  only : ∀ i, t.Stored i → (t.entries i).execute = .schedule handle → i = n

/-- A call schedules the coroutine as often as it executes that entry. -/
theorem Sole.call [DecidableEq D] [DecidableEq H] {handle : H} {n : Nat} (h : Sole t handle n) (r : Nat) :
    Sole (t.handleExpiredEntries r).1 handle n ∧
    scheduled handle (t.handleExpiredEntries r).2 =
      ((t.handleExpiredEntries r).2.map (·.1)).count n := by
  have hu := handleExpiredEntries_called h.marked r
  refine ⟨⟨hu.marked, hu.pending, hu.entries ▸ h.executes,
    fun i hi he => h.only i (hu.stored i hi) (hu.entries ▸ he)⟩, ?_⟩
  refine scheduled_eq _ fun p hp => ?_
  rw [hu.execute p hp]
  refine ⟨fun he => ?_, fun he => he ▸ h.executes⟩
  rcases hu.mem p.1 (List.mem_map_of_mem hp) with hi | hi
  · rw [h.pending] at hi
    cases hi
  · exact h.only p.1 hi he

theorem Sole.calls [DecidableEq D] [DecidableEq H] {handle : H} {n : Nat} (h : Sole t handle n)
    (rs : List Nat) :
    ((callsAt t rs).map (scheduled handle)).sum ≤ t.total n := by
  induction rs generalizing t with
  | nil => exact Nat.zero_le _
  | cons r rs ih =>
    obtain ⟨hs, hc⟩ := h.call r
    have htot := (handleExpiredEntries_called h.marked r).total n
    have := ih hs
    rw [callsAt, List.map_cons, List.sum_cons, hc]
    omega

end Timer

/-! ## Runs -/

namespace CancelRun

open Timer

variable {D H : Type}

inductive Act (D H : Type) where
  | insertData (data : D) (expirationTime : Nat)
  | insertHandle (handle : H) (expirationTime : Nat)
  | remove (entry : Nat)
  | handleExpiredEntries (currentMs : Nat)

/-- A rejected entry changes nothing. -/
def inserted (t : Timer D H) : Result (Timer D H × Nat) → Timer D H
  | .ok (u, _) => u
  | .error _ => t

/-- The coroutine is asleep. -/
def Asleep (t : Timer D H) (handle : H) : Prop :=
  ∃ level slot, ∃ i ∈ t.slots level slot, (t.entries i).handle = some handle

instance [DecidableEq H] (t : Timer D H) (handle : H) : Decidable (Asleep t handle) :=
  inferInstanceAs (Decidable (∃ level : Fin numLevels, ∃ slot : Fin levelMult,
    ∃ i ∈ t.slots level slot, (t.entries i).handle = some handle))

instance (t : Timer D H) (entry : Nat) : Decidable (t.Stored entry) :=
  inferInstanceAs (Decidable (∃ level : Fin numLevels, ∃ slot : Fin levelMult,
    entry ∈ t.slots level slot))

/-- As in `ClockRun`, the clock may go back, though not before the start.  A
coroutine that is asleep does not start a sleep. -/
def step [DecidableEq H] (t : Timer D H) : Act D H → Option (Timer D H)
  | .insertData data expirationTime => some (inserted t (t.insertData data expirationTime))
  | .insertHandle handle expirationTime =>
    if Asleep t handle then none
    else some (inserted t (t.insertHandle handle expirationTime))
  | .remove entry => if t.Stored entry then some (t.remove entry) else none
  | .handleExpiredEntries currentMs =>
    if currentMs < t.startTime then none else some (t.handleExpiredEntries currentMs).1

/-- The invariant between operations. -/
structure Inv (t : Timer D H) : Prop where
  marked : ∀ level, (t.levels level).Marked
  pending : t.pending = []
  stored : ∀ i, t.Stored i → i < t.made
  once : ∀ i, t.total i ≤ 1
  noData : ∀ i, (t.entries i).handle.isSome → (t.entries i).data = none
  distinct : ∀ i j handle, t.Stored i → t.Stored j → (t.entries i).handle = some handle →
    (t.entries j).handle = some handle → i = j

theorem inv_new (currentMs : Nat) : Inv (Timer.new currentMs : Timer D H) := by
  refine ⟨fun _ => Level.marked_empty, rfl, fun _ ⟨_, _, h⟩ => (List.not_mem_nil h).elim,
    fun i => ?_, nofun, nofun⟩
  by_contra h
  rcases total_pos.1 (Nat.lt_trans Nat.zero_lt_one (not_le.1 h)) with ⟨_, _, h⟩ | h
  · exact List.not_mem_nil h
  · exact List.not_mem_nil h

theorem Inv.once_new {t : Timer D H} (h : Inv t) (i : Nat) :
    t.total i + [t.made].count i ≤ 1 := by
  by_cases hi : i = t.made
  · subst hi
    have h0 := total_made h.pending h.stored
    have h1 := List.count_singleton_self (a := t.made)
    omega
  · have h0 := List.count_eq_zero_of_not_mem (fun he => hi (List.mem_singleton.1 he))
    have h1 := h.once i
    omega

/-- A new entry, whose handle nobody else has. -/
theorem Inv.inserted {t : Timer D H} (h : Inv t) {entry : Entry D H}
    (hd : entry.handle.isSome → entry.data = none)
    (hfree : ∀ handle, entry.handle = some handle → ¬ Asleep t handle) :
    Inv (inserted t (t.insertEntry entry)) := by
  cases hu : t.insertEntry entry with
  | error e => exact h
  | ok r =>
    obtain ⟨u, i⟩ := r
    obtain ⟨-, hadd⟩ := insertEntry_added hu
    have hnew := hadd.entries_new
    have hold : ∀ i, t.Stored i → u.entries i = t.entries i := fun i hi =>
      hadd.entries_old (Nat.ne_of_lt (h.stored i hi))
    have hasleep : ∀ i handle, t.Stored i → (t.entries i).handle = some handle →
        Asleep t handle := fun i handle ⟨level, slot, hi⟩ hh => ⟨level, slot, i, hi, hh⟩
    show Inv u
    refine ⟨hadd.marked h.marked, hadd.pending.trans h.pending, fun i => hadd.stored_lt h.stored,
      fun i => ?_, fun i => ?_, fun i j handle hi hj hih hjh => ?_⟩
    · rw [hadd.total]
      exact h.once_new i
    · by_cases hi : i = t.made
      · rw [hi, hnew]
        exact hd
      · rw [hadd.entries_old hi]
        exact h.noData i
    · rcases (hadd.stored i).1 hi with hi | rfl
      · rw [hold i hi] at hih
        rcases (hadd.stored j).1 hj with hj | rfl
        · rw [hold j hj] at hjh
          exact h.distinct i j handle hi hj hih hjh
        · rw [hnew] at hjh
          exact absurd (hasleep i handle hi hih) (hfree handle hjh)
      · rw [hnew] at hih
        rcases (hadd.stored j).1 hj with hj | rfl
        · rw [hold j hj] at hjh
          exact absurd (hasleep j handle hj hjh) (hfree handle hih)
        · rfl

/-- A sleep whose handle is moved. -/
theorem Inv.replaced {t u : Timer D H} (h : Inv t) {entry : Nat} {handle : H}
    (hs : t.Stored entry) (hh : (t.entries entry).handle = some handle)
    (hr : Replaced t entry handle u) : Inv u := by
  have hne : entry ≠ t.made := Nat.ne_of_lt (h.stored entry hs)
  -- whose the handles are now
  have hcases : ∀ i, u.Stored i → ∀ g, (u.entries i).handle = some g →
      (i = t.made ∧ g = handle) ∨ (i ≠ entry ∧ t.Stored i ∧ (t.entries i).handle = some g) := by
    intro i hi g hg
    by_cases hie : i = entry
    · rw [hie, hr.emptied] at hg
      cases hg
    · by_cases him : i = t.made
      · rw [him, hr.new] at hg
        exact Or.inl ⟨him, (Option.some.inj hg).symm⟩
      · rw [hr.other i hie him] at hg
        exact Or.inr ⟨hie, (hr.stored.1 hi).resolve_right him, hg⟩
  refine ⟨fun level => ?_, hr.pending.trans h.pending, fun i hi => ?_, fun i => ?_, fun i hi => ?_,
    fun i j g hi hj hig hjg => ?_⟩
  · rw [hr.levels]
    exact marked_addEntry h.marked 0 t.made t.elapsed level
  · rw [hr.made]
    rcases hr.stored.1 hi with hi | rfl
    · exact Nat.lt_succ_of_lt (h.stored i hi)
    · exact Nat.lt_succ_self _
  · rw [hr.total]
    exact h.once_new i
  · by_cases hie : i = entry
    · rw [hie, hr.emptied]
    · by_cases him : i = t.made
      · rw [him, hr.new]
      · rw [hr.other i hie him] at hi ⊢
        exact h.noData i hi
  · rcases hcases i hi g hig with ⟨rfl, rfl⟩ | ⟨hie, hi, hig⟩
    · rcases hcases j hj g hjg with ⟨rfl, -⟩ | ⟨hje, hj, hjg⟩
      · rfl
      · exact absurd (h.distinct j entry g hj hs hjg hh) hje
    · rcases hcases j hj g hjg with ⟨rfl, rfl⟩ | ⟨hje, hj, hjg⟩
      · exact absurd (h.distinct i entry g hi hs hig hh) hie
      · exact h.distinct i j g hi hj hig hjg

theorem Inv.removed {t : Timer D H} (h : Inv t) {entry : Nat} (hs : t.Stored entry) :
    Inv (t.remove entry) := by
  cases hh : (t.entries entry).handle with
  | some handle => exact h.replaced hs hh (remove_handle hh (h.stored entry hs))
  | none =>
    rw [remove_data (by rw [hh]; rfl)]
    have hhandle := field_clearData (t := t) Entry.handle (fun _ => rfl) entry
    refine ⟨h.marked, h.pending, h.stored, h.once, fun i hi => ?_,
      fun i j g hi hj hig hjg => ?_⟩
    · rw [hhandle] at hi
      show (Function.update t.entries entry _ i).data = none
      by_cases hie : i = entry
      · rw [hie, Function.update_self]
      · rw [Function.update_of_ne hie]
        exact h.noData i hi
    · exact h.distinct i j g hi hj ((hhandle i).symm.trans hig) ((hhandle j).symm.trans hjg)

theorem Inv.called {t : Timer D H} (h : Inv t) (r : Nat) : Inv (t.handleExpiredEntries r).1 := by
  have hu := handleExpiredEntries_called h.marked r
  refine ⟨hu.marked, hu.pending, fun i hi => hu.made.symm ▸ h.stored i (hu.stored i hi),
    fun i => ?_, hu.entries.symm ▸ h.noData, fun i j g hi hj hig hjg => ?_⟩
  · have := hu.total i
    have := h.once i
    omega
  · rw [hu.entries] at hig hjg
    exact h.distinct i j g (hu.stored i hi) (hu.stored j hj) hig hjg

theorem Inv.step [DecidableEq H] {t u : Timer D H} {a : Act D H} (h : Inv t)
    (hs : step t a = some u) : Inv u := by
  cases a with
  | insertData data expirationTime =>
    cases hs
    exact h.inserted nofun nofun
  | insertHandle handle expirationTime =>
    simp only [CancelRun.step, Option.ite_none_left_eq_some, Option.some.injEq] at hs
    obtain ⟨hfree, rfl⟩ := hs
    exact h.inserted (fun _ => rfl) fun g hg => Option.some.inj hg ▸ hfree
  | remove entry =>
    simp only [CancelRun.step, Option.ite_none_right_eq_some, Option.some.injEq] at hs
    obtain ⟨hst, rfl⟩ := hs
    exact h.removed hst
  | handleExpiredEntries currentMs =>
    simp only [CancelRun.step, Option.ite_none_left_eq_some, Option.some.injEq] at hs
    obtain ⟨-, rfl⟩ := hs
    exact h.called currentMs

theorem inv_run [DecidableEq H] {currentMs : Nat} {as : List (Act D H)} {t : Timer D H}
    (h : run step (.new currentMs) as = some t) : Inv t :=
  run_inv Inv (fun _ _ _ h hs _ => h.step hs) (inv_new currentMs) h (eachStep_true _ as)

/-! ## Top theorems -/

variable {t : Timer D H} {entry : Nat} {handle : H}

/-- The coroutine has one entry left, the new one. -/
theorem Inv.sole (h : Inv t) (hs : t.Stored entry) (hh : (t.entries entry).handle = some handle) :
    Sole (t.remove entry) handle t.made ∧ (t.remove entry).total t.made = 1 := by
  have hr := remove_handle hh (h.stored entry hs)
  have hi := h.removed hs
  have hone : (t.remove entry).total t.made = 1 := by
    rw [hr.total, total_made h.pending h.stored, List.count_singleton_self]
  refine ⟨⟨hi.marked, hi.pending, ?_, fun i hst he => ?_⟩, hone⟩
  · rw [hr.new]
    rfl
  · refine hi.distinct i t.made handle hst (hr.stored.2 (Or.inr rfl)) ?_ (by rw [hr.new])
    unfold Entry.execute at he
    split at he
    · cases he
    · next hg => rw [hg, Effect.schedule.inj he]
    · cases he

/-- No call schedules the coroutine twice, nor do two. -/
theorem scheduled_once [DecidableEq D] [DecidableEq H] (h : Inv t) (hs : t.Stored entry)
    (hh : (t.entries entry).handle = some handle) (rs : List Nat) :
    ((callsAt (t.remove entry) rs).map (scheduled handle)).sum ≤ 1 := by
  obtain ⟨hsole, hone⟩ := h.sole hs hh
  exact hone ▸ hsole.calls rs

/-- Before the new entry is reached a call executes nothing, whatever else is due. -/
theorem nothing_before (h : Inv t) (hs : t.Stored entry)
    (hh : (t.entries entry).handle = some handle) {r : Nat}
    (hr : r < t.startTime + t.elapsed + 64) (hstart : t.startTime ≤ r) :
    ((t.remove entry).handleExpiredEntries r).2 = [] := by
  have hrep := remove_handle hh (h.stored entry hs)
  have hi := h.removed hs
  have hlt : r - (t.remove entry).startTime < (t.remove entry).elapsed + 64 := by
    rw [hrep.startTime, hrep.elapsed]
    omega
  exact expire_wait hi.marked hi.pending (List.ne_nil_of_mem hrep.current) hlt
    (r - (t.remove entry).startTime - (t.remove entry).elapsed + 1)

/-- The next call schedules the coroutine if and only if it comes 64 ms later. -/
theorem scheduled_iff [DecidableEq D] [DecidableEq H] (h : Inv t) (hs : t.Stored entry)
    (hh : (t.entries entry).handle = some handle) {r : Nat} (hstart : t.startTime ≤ r) :
    scheduled handle ((t.remove entry).handleExpiredEntries r).2 = 1 ↔
      t.startTime + t.elapsed + 64 ≤ r := by
  have hrep := remove_handle hh (h.stored entry hs)
  obtain ⟨hsole, hone⟩ := h.sole hs hh
  have hi := h.removed hs
  constructor
  · intro h1
    by_contra hlt
    rw [nothing_before h hs hh (not_le.1 hlt) hstart] at h1
    cases h1
  · intro hle
    have hcur := hrep.current
    have hreach := (reachedAt_current (List.ne_nil_of_mem hcur)).1
    have hle' : (t.remove entry).reachedAt (Level.slotFor 0 (t.remove entry).elapsed) ≤
        r - (t.remove entry).startTime := by
      rw [hreach, hrep.startTime, hrep.elapsed]
      omega
    have hmem : t.made ∈ ((t.remove entry).handleExpiredEntries r).2.map (·.1) :=
      expire_reached hi.marked (Nat.lt_succ_self _) hcur hle'
    have hpos := List.count_pos_iff.2 hmem
    have htot := (handleExpiredEntries_called hi.marked r).total t.made
    have hcall := (hsole.call r).2
    omega

/-- **Cancelling a sleep.**  The next call schedules the coroutine exactly once if
and only if it comes at least 64 ms after `elapsed_`; so in no state can the
caller of `remove` rely on the next call. -/
theorem cancel_exact [DecidableEq D] [DecidableEq H] (currentMs : Nat) (as : List (Act D H)) (t : Timer D H)
    (h : run step (.new currentMs) as = some t) (entry : Nat) (handle : H)
    (hs : t.Stored entry) (hh : (t.entries entry).handle = some handle) :
    (∀ r, t.startTime ≤ r →
      (scheduled handle ((t.remove entry).handleExpiredEntries r).2 = 1 ↔
        t.startTime + t.elapsed + 64 ≤ r)) ∧
    ¬ t.Cancels entry handle := by
  have hi := inv_run h
  refine ⟨fun r hstart => scheduled_iff hi hs hh hstart, fun hc => ?_⟩
  have hnow : t.Readings [t.startTime + t.elapsed] := by
    refine List.pairwise_cons.2 ⟨fun r hr => ?_, List.pairwise_singleton _ _⟩
    rw [List.mem_singleton.1 hr]
  have := (scheduled_iff hi hs hh (Nat.le_add_right _ _)).1 (hc.next _ hnow)
  omega

/-- Two coroutines asleep, until 100 ms and until 1 ms. -/
def twoSleeps : List (Act Unit Bool) := [.insertHandle true 100, .insertHandle false 1]

theorem cancel_exact_twoSleeps :
    ∃ t, run step (.new 0) twoSleeps = some t ∧
      (scheduled true ((t.remove 0).handleExpiredEntries 100).2 = 1 ↔ 64 ≤ 100) ∧
      ¬ t.Cancels 0 true := by
  obtain ⟨t, ht, hs, hh, hstart, helapsed⟩ := run_eval step (.new 0) twoSleeps
    (fun t => t.Stored 0 ∧ (t.entries 0).handle = some true ∧ t.startTime = 0 ∧ t.elapsed = 0)
    (by decide +kernel)
  obtain ⟨hiff, hnot⟩ := cancel_exact 0 twoSleeps t ht 0 true hs hh
  refine ⟨t, ht, ?_, hnot⟩
  have := hiff 100 (by omega)
  rwa [hstart, helapsed] at this

/-- The next call, at 63 ms, executes nothing, and the one at 64 ms leaves out the
sleep due at 1 ms, which it would have executed. -/
theorem twoSleeps_uncancelled :
    ∃ t, run step (.new 0) twoSleeps = some t ∧ t.Stored 0 ∧
      (t.entries 0).handle = some true ∧
      (callsAt (t.remove 0) [63]).map (·.map (·.1)) = [[]] ∧
      (callsAt (t.remove 0) [64]).map (·.map (·.1)) = [[2]] ∧
      (callsAt t [64]).map (·.map (·.1)) = [[1]] ∧ ¬ t.Cancels 0 true := by
  obtain ⟨t, ht, hs, hh, h1, h2, h3, hnow, hnone⟩ := run_eval step (.new 0) twoSleeps
    (fun t => t.Stored 0 ∧ (t.entries 0).handle = some true ∧
      (callsAt (t.remove 0) [63]).map (·.map (·.1)) = [[]] ∧
      (callsAt (t.remove 0) [64]).map (·.map (·.1)) = [[2]] ∧
      (callsAt t [64]).map (·.map (·.1)) = [[1]] ∧ t.startTime + t.elapsed ≤ 63 ∧
      scheduled true ((t.remove 0).handleExpiredEntries 63).2 = 0) (by decide +kernel)
  refine ⟨t, ht, hs, hh, h1, h2, h3, fun hc => ?_⟩
  have hnext := hc.next 63 (List.pairwise_pair.2 hnow)
  rw [hnone] at hnext
  cases hnext

end CancelRun

end Kosio.Runtime
