import Kosio.Lib.Run
import Kosio.Runtime.Scheduler.LocalQueue

/-!
# `GlobalQueue`'s counter

`num_` is a `size_t` kept beside the list: `push` adds one, `push_batch` what
its caller says, `pop` and `pop_n` subtract what they take.  Every operation
runs under the mutex, so one call is one step.  The list nodes are all in
memory at once, which keeps their number below `2 ^ 64`.

`notify_all` calls `schedule_remote_batch(std::move(handles), handles.size())`.
The callee takes the list by value and the compiler may build it before it
evaluates the size, which is zero by then.

    every step keeps the count and takes no more than there is
        ↔  no signal batch that has tasks is moved before it is counted      (num_eq_size_iff)

While the count is right, the queue is `GlobalQueue` with its `num` a number (`toGlobal_step`).
-/

namespace Kosio.Runtime.GlobalCount

open Steps

/-! ## Algorithm -/

abbrev SizeT := BitVec 64

/-- The list's `size()`, as it is passed on. -/
def sizeOf {T : Type} (tasks : List T) : SizeT := BitVec.ofNat 64 tasks.length

structure Queue (T : Type) where
  tasks : List T := []
  num : SizeT := 0
  isClosed : Bool := false
  /-- an iterator has been advanced past the end of `tasks` -/
  strayed : Bool := false
deriving DecidableEq

namespace Queue

variable {T : Type}

def size (q : Queue T) : SizeT := q.num

def empty (q : Queue T) : Bool := q.num == 0

def push (q : Queue T) (task : T) : Queue T :=
  if q.isClosed then q else { q with tasks := q.tasks ++ [task], num := q.num + 1 }

def pushBatch (q : Queue T) (tasks : List T) (n : SizeT) : Queue T :=
  if q.isClosed then q else { q with tasks := q.tasks ++ tasks, num := q.num + n }

def pop (q : Queue T) : Option T × Queue T :=
  match q.tasks with
  | [] => (none, q)
  | task :: rest => (some task, { q with tasks := rest, num := q.num - 1 })

/-- `std::min(num_.load(), n)`. -/
def taken (q : Queue T) (n : SizeT) : SizeT := if n < q.num then n else q.num

/-- `pop_n`; `std::advance` past the end of the list is undefined. -/
def popN (q : Queue T) (n : SizeT) : List T × Queue T :=
  let n := q.taken n
  (q.tasks.take n.toNat,
    { q with
      tasks := q.tasks.drop n.toNat
      num := q.num - n
      strayed := q.strayed || decide (q.tasks.length < n.toNat) })

def close (q : Queue T) : Queue T := { q with isClosed := true }

end Queue

/-- `NUM_TASKS_TAKEN`. -/
abbrev numTasksTaken : Nat := localQueueCapacity / 2

/-- What the queue's callers do to it. -/
inductive Call (T : Type) where
  /-- `schedule_remote`; also `push_back_or_overflow` while a thief is copying -/
  | scheduleRemote (task : T)
  /-- `push_overflow`, with what it has read from its half of the ring -/
  | pushOverflow (read : Fin numTasksTaken → T) (task : T)
  /-- `notify_all`; `moveFirst` when the list is moved before `handles.size()` is evaluated -/
  | notifyAll (handles : List T) (moveFirst : Bool)
  /-- `next_remote_task`, once `empty()` has let it through -/
  | nextRemoteTask
  /-- `next_task`'s batch -/
  | nextTask (n : SizeT)
  | close

variable {T : Type}

/-- `schedule_remote_batch(std::move(handles), handles.size())`. -/
def scheduleRemoteBatch (q : Queue T) (handles : List T) (moveFirst : Bool) : Queue T :=
  q.pushBatch handles (if moveFirst then sizeOf ([] : List T) else sizeOf handles)

def perform (q : Queue T) : Call T → Queue T
  | .scheduleRemote task => q.push task
  | .pushOverflow read task =>
    q.pushBatch (List.ofFn read ++ [task]) (BitVec.ofNat 64 (numTasksTaken + 1))
  | .notifyAll handles moveFirst => scheduleRemoteBatch q handles moveFirst
  | .nextRemoteTask => q.pop.2
  | .nextTask n => (q.popN n).2
  | .close => q.close

/-- One call; the nodes of the list fit in memory. -/
def step (q : Queue T) (c : Call T) : Option (Queue T) :=
  if (perform q c).tasks.length < 2 ^ 64 then some (perform q c) else none

/-- The queue with its counter as a number, as the workers' model has it. -/
def Queue.toGlobal (q : Queue T) : GlobalQueue T := ⟨q.tasks, q.num.toNat, q.isClosed⟩

/-- A call on that queue, every batch counted. -/
def performGlobal (g : GlobalQueue T) : Call T → GlobalQueue T
  | .scheduleRemote task => g.push task
  | .pushOverflow read task => g.pushBatch (List.ofFn read ++ [task]) (numTasksTaken + 1)
  | .notifyAll handles _ => g.pushBatch handles handles.length
  | .nextRemoteTask => g.pop.2
  | .nextTask n => (g.popN n.toNat).2
  | .close => g.close

/-- What a call subtracts from `num_`. -/
def subtracted (q : Queue T) : Call T → SizeT
  | .nextRemoteTask => if q.tasks = [] then 0 else 1
  | .nextTask n => q.taken n
  | _ => 0

/-- `num_` is `tasks_.size()`. -/
def Counted (q : Queue T) : Prop := q.num.toNat = q.tasks.length

/-- What one call owes: the count is right after it and was not taken below
zero, `pop_n` stayed in the list, and `empty()` hides no task. -/
structure Accounts (q : Queue T) (c : Call T) (q' : Queue T) : Prop where
  counted : Counted q'
  noWrap : (subtracted q c).toNat ≤ q.num.toNat
  inside : q'.strayed = false
  shown : q'.empty = true → q'.tasks = []

/-- A signal batch that reaches the queue with tasks is counted before it is moved. -/
def SizeFirst (q : Queue T) (c : Call T) (_ : Queue T) : Prop :=
  ∀ handles, c = .notifyAll handles true → handles = [] ∨ q.isClosed = true

/-! ## Lemmas -/

section

variable {q q' : Queue T} {c : Call T}

theorem step_eq (h : step q c = some q') : perform q c = q' ∧ q'.tasks.length < 2 ^ 64 := by
  unfold step at h
  split at h
  · next hlt =>
    cases h
    exact ⟨rfl, hlt⟩
  · cases h

theorem Counted.lt (h : Counted q) : q.tasks.length < 2 ^ 64 := h ▸ q.num.isLt

theorem Counted.empty_iff (h : Counted q) : q.empty = true ↔ q.tasks = [] := by
  unfold Counted at h
  rw [← List.length_eq_zero_iff, ← h, Queue.empty, beq_iff_eq, ← BitVec.toNat_inj]
  rfl

/-- A batch counted right keeps the count. -/
theorem Counted.pushBatch (h : Counted q) {tasks : List T} {n : SizeT}
    (hlt : (q.pushBatch tasks n).tasks.length < 2 ^ 64) (hn : n.toNat = tasks.length) :
    Counted (q.pushBatch tasks n) := by
  unfold Counted at h
  unfold Queue.pushBatch at hlt ⊢
  split
  · exact h
  · next hopen =>
    rw [if_neg hopen, List.length_append] at hlt
    show (q.num + n).toNat = (q.tasks ++ tasks).length
    rw [BitVec.toNat_add, List.length_append, Nat.mod_eq_of_lt (by omega)]
    omega

theorem push_eq_pushBatch (q : Queue T) (task : T) : q.push task = q.pushBatch [task] 1 := rfl

theorem sizeOf_toNat {tasks : List T} (h : tasks.length < 2 ^ 64) :
    (sizeOf tasks).toNat = tasks.length := by
  rw [sizeOf, BitVec.toNat_ofNat, Nat.mod_eq_of_lt h]

/-- A batch that is not counted leaves the count right only if there is nothing to count. -/
theorem pushBatch_zero_counted_iff (h : Counted q) (handles : List T) :
    Counted (q.pushBatch handles 0) ↔ handles = [] ∨ q.isClosed = true := by
  unfold Counted at h
  unfold Queue.pushBatch
  cases hc : q.isClosed with
  | true => simpa [Counted] using h
  | false =>
    show (q.num + 0#64).toNat = (q.tasks ++ handles).length ↔ _
    rw [BitVec.add_zero, List.length_append, h, ← List.length_eq_zero_iff]
    simp only [Bool.false_eq_true, or_false]
    omega

theorem Counted.pop (h : Counted q) :
    Counted q.pop.2 ∧ (q.tasks ≠ [] → 1 ≤ q.num.toNat) := by
  unfold Counted at h
  unfold Queue.pop
  cases ht : q.tasks with
  | nil => exact ⟨h, fun hne => absurd rfl hne⟩
  | cons task rest =>
    rw [ht, List.length_cons] at h
    refine ⟨?_, fun _ => by omega⟩
    show (q.num - 1).toNat = rest.length
    have hle : (1 : SizeT) ≤ q.num := by
      rw [BitVec.le_def, h]
      exact Nat.le_add_left 1 _
    rw [BitVec.toNat_sub_of_le hle, h]
    rfl

theorem taken_le (q : Queue T) (n : SizeT) : q.taken n ≤ q.num := by
  unfold Queue.taken
  split
  · next h => exact BitVec.le_of_lt h
  · exact BitVec.le_refl _

theorem Counted.popN (h : Counted q) (n : SizeT) :
    Counted (q.popN n).2 ∧ (q.taken n).toNat ≤ q.tasks.length := by
  have hle := taken_le q n
  have hnat : (q.taken n).toNat ≤ q.num.toNat := hle
  unfold Counted at h
  refine ⟨?_, h ▸ hnat⟩
  show (q.num - q.taken n).toNat = (q.tasks.drop (q.taken n).toNat).length
  rw [BitVec.toNat_sub_of_le hle, List.length_drop, h]

/-- With the count right before, a call takes no more than there is. -/
theorem Counted.accounts (h : Counted q) (hs : q.strayed = false) (hq : perform q c = q') :
    Accounts q c q' ↔ Counted q' := by
  refine ⟨Accounts.counted, fun hc => ⟨hc, ?_, ?_, hc.empty_iff.1⟩⟩
  · cases c with
    | nextRemoteTask =>
      show (if q.tasks = [] then (0 : SizeT) else 1).toNat ≤ q.num.toNat
      split
      · exact Nat.zero_le _
      · next hne => exact h.pop.2 hne
    | nextTask n => exact taken_le q n
    | _ => exact Nat.zero_le _
  · subst hq
    cases c with
    | scheduleRemote task =>
      show (q.push task).strayed = false
      unfold Queue.push
      split <;> exact hs
    | pushOverflow read task =>
      show (q.pushBatch _ _).strayed = false
      unfold Queue.pushBatch
      split <;> exact hs
    | notifyAll handles moveFirst =>
      show (q.pushBatch _ _).strayed = false
      unfold Queue.pushBatch
      split <;> exact hs
    | nextRemoteTask =>
      show q.pop.2.strayed = false
      unfold Queue.pop
      split <;> exact hs
    | nextTask n =>
      have := (h.popN n).2
      show (q.strayed || decide (q.tasks.length < (q.taken n).toNat)) = false
      rw [hs, Bool.false_or, decide_eq_false_iff_not]
      omega
    | close => exact hs

/-- From a right count, a call leads to a right count exactly when it is not a
batch moved before it is counted. -/
theorem step_counted_iff (h : Counted q) (hstep : step q c = some q') :
    Counted q' ↔ SizeFirst q c q' := by
  obtain ⟨rfl, hlt⟩ := step_eq hstep
  cases c with
  | scheduleRemote task =>
    rw [perform, push_eq_pushBatch] at hlt ⊢
    exact ⟨nofun, fun _ => h.pushBatch hlt rfl⟩
  | pushOverflow read task =>
    refine ⟨nofun, fun _ => h.pushBatch hlt ?_⟩
    rw [List.length_append, List.length_ofFn]
    rfl
  | notifyAll handles moveFirst =>
    cases moveFirst with
    | true =>
      refine (pushBatch_zero_counted_iff h handles).trans ⟨fun hor hs he => ?_, fun hf => hf handles rfl⟩
      cases he
      exact hor
    | false =>
      refine ⟨nofun, fun _ => ?_⟩
      by_cases hc : q.isClosed = true
      · show Counted (q.pushBatch handles _)
        rw [Queue.pushBatch, if_pos hc]
        exact h
      · refine h.pushBatch hlt (sizeOf_toNat ?_)
        have hlt' : (q.pushBatch handles (sizeOf handles)).tasks.length < 2 ^ 64 := hlt
        rw [Queue.pushBatch, if_neg hc, List.length_append] at hlt'
        omega
  | nextRemoteTask => exact ⟨nofun, fun _ => h.pop.1⟩
  | nextTask n => exact ⟨nofun, fun _ => (h.popN n).1⟩
  | close => exact ⟨nofun, fun _ => h⟩

theorem toGlobal_pushBatch (h : Counted q) {tasks : List T} {n : SizeT}
    (h' : Counted (q.pushBatch tasks n)) :
    (q.pushBatch tasks n).toGlobal = q.toGlobal.pushBatch tasks tasks.length := by
  unfold Counted at h h'
  unfold Queue.pushBatch at h' ⊢
  cases hc : q.isClosed with
  | true => simp [Queue.toGlobal, GlobalQueue.pushBatch, hc]
  | false =>
    rw [hc] at h'
    have hnum : (q.num + n).toNat = q.num.toNat + tasks.length := by
      rw [h, ← List.length_append]
      exact h'
    simp [Queue.toGlobal, GlobalQueue.pushBatch, hc, hnum]

/-- While the count stays right, a call is the call on the queue with a number. -/
theorem toGlobal_step (h : Counted q) (h' : Counted q') (hstep : step q c = some q') :
    q'.toGlobal = performGlobal q.toGlobal c := by
  obtain ⟨rfl, -⟩ := step_eq hstep
  cases c with
  | scheduleRemote task => exact toGlobal_pushBatch h h'
  | pushOverflow read task =>
    have hlen : (List.ofFn read ++ [task]).length = numTasksTaken + 1 := by
      rw [List.length_append, List.length_ofFn]
      rfl
    rw [performGlobal, ← hlen]
    exact toGlobal_pushBatch h h'
  | notifyAll handles moveFirst => exact toGlobal_pushBatch h h'
  | nextRemoteTask =>
    have hpop := h.pop.1
    unfold Counted at h hpop
    show q.pop.2.toGlobal = q.toGlobal.pop.2
    unfold Queue.pop at hpop ⊢
    cases ht : q.tasks with
    | nil => simp [Queue.toGlobal, GlobalQueue.pop, ht]
    | cons task rest =>
      rw [ht] at hpop h
      have hnum : (q.num - 1).toNat = q.num.toNat - 1 := by
        rw [h, List.length_cons, Nat.add_sub_cancel]
        exact hpop
      simp only [Queue.toGlobal, GlobalQueue.pop, ht, hnum]
  | nextTask n =>
    have htaken : (q.taken n).toNat = min q.num.toNat n.toNat := by
      unfold Queue.taken
      split
      · next hlt => exact (Nat.min_eq_right (Nat.le_of_lt hlt)).symm
      · next hge => exact (Nat.min_eq_left (Nat.le_of_not_lt hge)).symm
    show (q.popN n).2.toGlobal = (q.toGlobal.popN n.toNat).2
    simp only [Queue.toGlobal, Queue.popN, GlobalQueue.popN]
    rw [BitVec.toNat_sub_of_le (taken_le q n), htaken]
  | close => rfl

end

/-! ## Top theorem -/

/-- **The counter is the list's size, exactly.**  For every sequence of calls and
either order of evaluation in each: every call accounts for its tasks if and
only if no signal batch with tasks is moved before it is counted. -/
theorem num_eq_size_iff (calls : List (Call T)) :
    EachStep step Accounts ({} : Queue T) calls ↔ EachStep step SizeFirst {} calls := by
  refine eachStep_iff (fun q => Counted q ∧ q.strayed = false) ?_ ?_ ⟨rfl, rfl⟩
  · rintro q c q' ⟨h, hs⟩ hstep hok
    have hacc := (h.accounts hs (step_eq hstep).1).2 ((step_counted_iff h hstep).2 hok)
    exact ⟨hacc.counted, hacc.inside⟩
  · rintro q c q' ⟨h, hs⟩ hstep
    rw [h.accounts hs (step_eq hstep).1, step_counted_iff h hstep]

/-- A signal batch moved before it is counted: `empty()` hides its two tasks, the
first `pop` takes the counter below zero, and the next batch runs off the list. -/
theorem moved_batch_uncounted :
    ∃ q q' q'' : Queue Bool,
      run step {} [.notifyAll [true, false] true] = some q ∧ q.empty = true ∧
      q.tasks = [true, false] ∧
      step q .nextRemoteTask = some q' ∧ q'.num = BitVec.allOnes 64 ∧ q'.tasks = [false] ∧
      step q' (.nextTask 128) = some q'' ∧ q''.strayed = true ∧
      ¬ EachStep step Accounts ({} : Queue Bool) [.notifyAll [true, false] true] := by
  refine ⟨_, _, _, rfl, rfl, rfl, rfl, rfl, rfl, rfl, rfl, fun h => ?_⟩
  cases (h _ rfl).1.counted

end Kosio.Runtime.GlobalCount
