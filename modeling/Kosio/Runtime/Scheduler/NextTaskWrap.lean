import Kosio.Runtime.Scheduler.NextTask

/-!
# `next_task`: once around

Positions have 32 bits.  A thief that has loaded `head_` and sleeps until its
owner has popped `2^32` tasks finds the same `head_`, and claims a slot of a
queue that is empty.  When it gives the slot back, `steal` is past `tail_`.  If
that happens after the owner has read how many slots remain, `push_batch` throws
(`next_task_overflow`).

The run is too long to be evaluated.  Its cycle is a delivery and a pop of one
task, which advances `head_`, `tail_` and `tick_` by one (`Spin.cycle`).
-/

namespace Kosio.Runtime.NextTask

open Steps MultiThread

/-! ## Two workers -/

deriving instance DecidableEq for WorkStealing.Pc, GlobalQueue, Worker

abbrev Two := MultiThread.State 2 Unit Unit

/-- The worker that gets the tasks and pops them. -/
def popper : Fin 2 := ⟨0, Nat.zero_lt_two⟩

/-- The thief. -/
def sleeper : Fin 2 := ⟨1, Nat.one_lt_two⟩

/-- The driver is polled before each task, and the global queue asked first once in
`2^32`. -/
def config : Config := { ioInterval := 1, globalQueueInterval := 2 ^ 32 }

/-- What `popper` does not change: `sleeper` has loaded its `head_` when it was 0 and is
to claim one slot. -/
structure Others where
  global : GlobalQueue Unit := {}
  remote : Option Notify := none
  thief : WorkStealing.Pc (Fin 2) Unit := .stealCas popper 0 0 1 0

/-- `popper` is at `p`, and its queue call at `call`. -/
structure At (s : Two) (p : Pc 2 Unit) (tick : U32) (call : WorkStealing.Pc (Fin 2) Unit)
    (head : BitVec 64) (tail : U32) (o : Others) : Prop where
  owner : s.worker popper = { tick, pc := p }
  call : s.queues.pc popper = call
  head : (s.queues.queue popper).head = head
  tail : (s.queues.queue popper).tail = tail
  global : s.queues.global = o.global
  remote : s.remote () = o.remote
  stealing : (s.worker sleeper).pc = .stealing popper 0
  thief : s.queues.pc sleeper = o.thief

section At

variable {s : Two} {p : Pc 2 Unit} {tick : U32} {call call' : WorkStealing.Pc (Fin 2) Unit}
  {head : BitVec 64} {tail : U32} {o : Others}

theorem At.goes (h : At s p tick call head tail o) (p' : Pc 2 Unit) (tick' : U32) :
    At (setWorker s popper { tick := tick', pc := p' }) p' tick' call head tail o := by
  refine ⟨setWorker_worker_self .., h.call, h.head, h.tail, h.global, h.remote, ?_, h.thief⟩
  rw [setWorker_worker_ne _ _ (by decide)]
  exact h.stealing

theorem At.goTo (h : At s p tick call head tail o) (p' : Pc 2 Unit) :
    At (MultiThread.goTo s popper p') p' tick call head tail o := by
  have := h.goes p' tick
  unfold MultiThread.goTo
  rwa [h.owner]

end At

/-! ## The cycle -/

section Cycle

variable {s : Two} {p : Pc 2 Unit} {tick : U32} {call call' : WorkStealing.Pc (Fin 2) Unit}
  {head head' : BitVec 64} {tail tail' : U32} {o : Others}
  {q : WorkStealing.State (Fin 2) Unit}

/-- What the next state of the queues is. -/
structure Next (s : Two) (q : WorkStealing.State (Fin 2) Unit)
    (call' : WorkStealing.Pc (Fin 2) Unit) (head' : BitVec 64) (tail' : U32) : Prop where
  pc : q.pc = Function.update s.queues.pc popper call'
  head : (q.queue popper).head = head'
  tail : (q.queue popper).tail = tail'
  global : q.global = s.queues.global

theorem At.calls (h : At s p tick call head tail o) (hn : Next s q call' head' tail') :
    At { s with queues := q } p tick call' head' tail' o := by
  refine ⟨h.owner, ?_, hn.head, hn.tail, hn.global.trans h.global, h.remote, h.stealing, ?_⟩
  · show q.pc popper = call'
    rw [hn.pc]
    exact Function.update_self ..
  · show q.pc sleeper = _
    rw [hn.pc]
    exact (Function.update_of_ne (by decide) ..).trans h.thief

/-- A call starts. -/
theorem At.begins (p' : Pc 2 Unit) (h : At s p tick .idle head tail o)
    {a : WorkStealing.Act (Fin 2) Unit}
    (hs : MultiThread.step config s (.step popper false) = startCall s popper a p')
    (hq : WorkStealing.step s.queues a = some q) (hn : Next s q call' head tail) :
    Reaches (MultiThread.step config) s fun t => At t p' tick call' head tail o := by
  refine .next (a := .step popper false) (t := MultiThread.goTo { s with queues := q } popper p') ?_
    (.refl ((h.calls hn).goTo p'))
  rw [hs, startCall, hq]
  rfl

/-- A step within `push_back_or_overflow`. -/
theorem At.pushing {tasks : List Unit}
    (h : At s (.delivering .nextTask tasks false) tick call head tail o)
    (hq : WorkStealing.stepPc s.queues popper false = some q) (hn : Next s q call' head' tail')
    (hne : call' ≠ .idle) : Reaches (MultiThread.step config) s fun t =>
      At t (.delivering .nextTask tasks false) tick call' head' tail' o := by
  have hcall := h.calls hn
  refine .next (a := .step popper false) ?_ (.refl (hcall.goTo (.delivering .nextTask tasks false)))
  show stepPc config s popper false = _
  simp only [stepPc, h.owner, continuePush, WorkStealing.step, hq, Option.map_some, hn.global]
  rw [show q.pc popper = call' from hcall.call]
  simp only [bne_self_eq_false, Bool.or_self]

/-- Its last step. -/
theorem At.pushed {tasks : List Unit}
    (h : At s (.delivering .nextTask tasks false) tick call head tail o)
    (hq : WorkStealing.stepPc s.queues popper false = some q) (hn : Next s q .idle head' tail') :
    Reaches (MultiThread.step config) s fun t =>
      At t (.deliver .nextTask tasks false) tick .idle head' tail' o := by
  have hcall := h.calls hn
  refine .next (a := .step popper false) ?_ (.refl (hcall.goTo (.deliver .nextTask tasks false)))
  show stepPc config s popper false = _
  simp only [stepPc, h.owner, continuePush, WorkStealing.step, hq, Option.map_some, hn.global]
  rw [show q.pc popper = .idle from hcall.call]
  simp only [bne_self_eq_false, Bool.or_self]

/-- A step within a call whose result `next_task` waits for. -/
theorem At.waiting {k : MultiThread.State 2 Unit Unit → List Unit → Option Two}
    (h : At s p tick call head tail o)
    (hs : MultiThread.step config s (.step popper false) = continueCall s popper false k)
    (hq : WorkStealing.stepPc s.queues popper false = some q) (hn : Next s q call' head' tail')
    (hne : call' ≠ .idle) : Reaches (MultiThread.step config) s fun t =>
      At t p tick call' head' tail' o := by
  have hcall := h.calls hn
  refine .next (a := .step popper false) ?_ (.refl hcall)
  rw [hs, continueCall_goes hq fun he => hne (hcall.call.symm.trans he)]

/-- Its last step. -/
theorem At.returns {k : MultiThread.State 2 Unit Unit → List Unit → Option Two} {p' : Pc 2 Unit}
    (result : List Unit) (h : At s p tick call head tail o)
    (hs : MultiThread.step config s (.step popper false) = continueCall s popper false k)
    (hq : WorkStealing.stepPc s.queues popper false = some q) (hn : Next s q .idle head' tail')
    (hr : q.returned = s.queues.returned ++ result)
    (hk : k { s with queues := q } result =
      some (MultiThread.goTo { s with queues := q } popper p')) :
    Reaches (MultiThread.step config) s fun t => At t p' tick .idle head' tail' o := by
  have hcall := h.calls hn
  refine .next (a := .step popper false) ?_ (.refl (hcall.goTo p'))
  rw [hs, continueCall_returns hq hcall.call, hr, List.drop_left]
  exact hk

/-- The head of the loop, up to the driver. -/
theorem At.loop (h : At s .loop tick .idle head tail o) : Reaches (MultiThread.step config) s
    fun t => At t (.arrive .nextTask) (tick + 1) .idle head tail o := by
  refine .next (a := .step popper false) ?_ (.refl (h.goes (.arrive .nextTask) (tick + 1)))
  simp only [MultiThread.step, stepPc, h.owner, config, Nat.mod_one, if_true]

/-- One task arrives and is pushed to the queue, which is empty. -/
theorem At.deliver {x : Nat} (h : At s (.arrive .nextTask) tick .idle
    (pack (WorkStealing.pos x) (WorkStealing.pos x)) (WorkStealing.pos x) o) :
    Reaches (MultiThread.step config) s fun t => At t .nextTask tick .idle
      (pack (WorkStealing.pos x) (WorkStealing.pos x)) (WorkStealing.pos (x + 1)) o := by
  have harrive : Reaches (MultiThread.step config) s fun t =>
      At t (.deliver .nextTask [()] false) tick .idle
        (pack (WorkStealing.pos x) (WorkStealing.pos x)) (WorkStealing.pos x) o := by
    refine .next (a := .arrive popper [()] 1) ?_ (.refl (h.goTo (.deliver .nextTask [()] false)))
    simp [MultiThread.step, h.owner]
  refine harrive.trans fun s h => ?_
  have hbegin := h.begins (.delivering .nextTask [] false) (a := .pushBackOrOverflow popper ())
    (q := WorkStealing.setPc { s.queues with
      handed := s.queues.handed ++ [()] } popper (.pushHead ()))
    (by simp [MultiThread.step, stepPc, h.owner])
    (by simp [WorkStealing.step, WorkStealing.call, h.call]) ⟨rfl, h.head, h.tail, rfl⟩
  refine hbegin.trans fun s h => ?_
  have hhead := h.pushing (q := WorkStealing.setPc s.queues popper
      (.pushTail () (pack (WorkStealing.pos x) (WorkStealing.pos x))))
    (by simp [WorkStealing.stepPc, h.call, h.head]) ⟨rfl, h.head, h.tail, rfl⟩ (by simp)
  refine hhead.trans fun s h => ?_
  have htail := h.pushing (q := WorkStealing.setPc s.queues popper
      (.pushWrite () (WorkStealing.pos x)))
    (by simp [WorkStealing.stepPc, h.call, h.tail]) ⟨rfl, h.head, h.tail, rfl⟩ (by simp)
  refine htail.trans fun s h => ?_
  have hwrite := h.pushing (q := WorkStealing.setPc (WorkStealing.setQueue s.queues popper
      ((s.queues.queue popper).write (WorkStealing.pos x) ()))
      popper (.pushStore () (WorkStealing.pos x)))
    (by simp [WorkStealing.stepPc, h.call]) ⟨rfl, h.head, h.tail, rfl⟩ (by simp)
  refine hwrite.trans fun s h => ?_
  have hstore := h.pushed (q := WorkStealing.setPc (WorkStealing.setQueue s.queues popper
      ((s.queues.queue popper).storeTail (WorkStealing.pos x + 1) 1)) popper .idle)
    (by simp [WorkStealing.stepPc, h.call]) ⟨rfl, h.head, rfl, rfl⟩
  refine hstore.trans fun s h => ?_
  rw [WorkStealing.pos_succ] at h
  have hdone : Reaches (MultiThread.step config) s fun t => At t (.notifyHead .nextTask false) tick
      .idle (pack (WorkStealing.pos x) (WorkStealing.pos x)) (WorkStealing.pos (x + 1)) o := by
    refine .next (a := .step popper false) ?_ (.refl (h.goTo (.notifyHead .nextTask false)))
    simp [MultiThread.step, stepPc, h.owner, delivered]
  refine hdone.trans fun s h => ?_
  have hload : Reaches (MultiThread.step config) s fun t =>
      At t (.notifyTail .nextTask false (WorkStealing.pos x)) tick .idle
        (pack (WorkStealing.pos x) (WorkStealing.pos x)) (WorkStealing.pos (x + 1)) o := by
    refine .next (a := .step popper false) ?_ (.refl (h.goTo (.notifyTail .nextTask false _)))
    simp [MultiThread.step, stepPc, h.owner, h.head]
  refine hload.trans fun s h => ?_
  -- one task is no reason to wake somebody
  have hone : (WorkStealing.pos (x + 1) - WorkStealing.pos x).toNat = 1 := by
    rw [WorkStealing.sub_toNat (by omega) (by omega)]
    omega
  refine .next (a := .step popper false) ?_ (.refl (h.goTo .nextTask))
  simp [MultiThread.step, stepPc, h.owner, h.tail, hone, After.pc]

/-- `next_local_task`, up to `pop`. -/
theorem At.nextLocalTask (interval : Bool) (h : At s p tick .idle head tail o)
    (hs : MultiThread.step config s (.step popper false) =
      MultiThread.nextLocalTask s popper interval) :
    Reaches (MultiThread.step config) s fun t =>
      At t (.popping interval) tick .popHead head tail o := by
  refine h.begins (.popping interval) (a := .pop popper)
    (q := WorkStealing.setPc s.queues popper .popHead) ?_
    (by simp [WorkStealing.step, WorkStealing.call, h.call]) ⟨rfl, h.head, h.tail, rfl⟩
  rw [hs, MultiThread.nextLocalTask, h.owner]

theorem At.step_nextTask (h : At s .nextTask tick .idle head tail o)
    (ht : tick.toNat % 2 ^ 32 ≠ 0) :
    MultiThread.step config s (.step popper false) = MultiThread.nextLocalTask s popper false := by
  show stepPc config s popper false = _
  simp only [stepPc, h.owner, config, if_neg ht]

/-- `next_task`, with nothing in the global queue, up to `pop`. -/
theorem At.toPop (h : At s .nextTask tick .idle head tail {}) :
    Reaches (MultiThread.step config) s fun t =>
      ∃ interval, At t (.popping interval) tick .popHead head tail {} := by
  by_cases ht : tick.toNat % 2 ^ 32 = 0
  · have hempty : Reaches (MultiThread.step config) s fun t =>
        At t (.remoteEmpty .interval) tick .idle head tail {} := by
      refine .next (a := .step popper false) ?_ (.refl (h.goTo (.remoteEmpty .interval)))
      show stepPc config s popper false = _
      simp only [stepPc, h.owner, config, if_pos ht]
    refine hempty.trans fun s h => ?_
    obtain ⟨as, t, hr, hat⟩ := h.nextLocalTask true (by
      simp [MultiThread.step, stepPc, h.owner, h.global, noRemoteTask])
    exact ⟨as, t, hr, true, hat⟩
  · obtain ⟨as, t, hr, hat⟩ := h.nextLocalTask false (h.step_nextTask ht)
    exact ⟨as, t, hr, false, hat⟩

/-- What `next_task` does with the result of `pop`. -/
def popped (interval : Bool) (s : Two) : List Unit → Option Two
  | [] => some (MultiThread.goTo s popper (if interval then .toSearching else .globalEmpty))
  | _ :: _ => some (MultiThread.goTo s popper .runTask)

theorem At.popping {interval : Bool} (h : At s (.popping interval) tick call head tail o) :
    MultiThread.step config s (.step popper false) =
      continueCall s popper false (popped interval) := by
  show stepPc config s popper false = _
  simp only [stepPc, h.owner]
  congr 1
  funext s result
  cases result <;> rfl

/-- The task is popped and run. -/
theorem At.pop {x : Nat} {interval : Bool} (h : At s (.popping interval) tick .popHead
    (pack (WorkStealing.pos x) (WorkStealing.pos x)) (WorkStealing.pos (x + 1)) o) :
    Reaches (MultiThread.step config) s fun t => At t .loop tick .idle
      (pack (WorkStealing.pos (x + 1)) (WorkStealing.pos (x + 1))) (WorkStealing.pos (x + 1))
      o := by
  have hhead := h.waiting h.popping (q := WorkStealing.setPc s.queues popper
      (.popTail (pack (WorkStealing.pos x) (WorkStealing.pos x))))
    (by simp [WorkStealing.stepPc, h.call, h.head]) ⟨rfl, h.head, h.tail, rfl⟩ (by simp)
  refine hhead.trans fun s h => ?_
  have hne : WorkStealing.pos x ≠ WorkStealing.pos (x + 1) := fun he => by
    have := WorkStealing.pos_inj he (by omega) (by omega)
    omega
  have htail := h.waiting h.popping (q := WorkStealing.setPc s.queues popper
      (.popCas (pack (WorkStealing.pos x) (WorkStealing.pos x))))
    (by simp [WorkStealing.stepPc, h.call, h.tail, hne]) ⟨rfl, h.head, h.tail, rfl⟩ (by simp)
  refine htail.trans fun s h => ?_
  have hcas := h.waiting h.popping (q := WorkStealing.setPc (WorkStealing.setQueue s.queues popper
      ((s.queues.queue popper).storeHead
        (pack (WorkStealing.pos x + 1) (WorkStealing.pos x + 1)) 1)) popper
      (.popRead (WorkStealing.pos x)))
    (by simp [WorkStealing.stepPc, h.call, h.head]) ⟨rfl, rfl, h.tail, rfl⟩ (by simp)
  refine hcas.trans fun s h => ?_
  rw [WorkStealing.pos_succ] at h
  have hread := h.returns [()] h.popping (q := WorkStealing.done s.queues popper [()])
    (by simp [WorkStealing.stepPc, h.call]) ⟨rfl, h.head, h.tail, rfl⟩ rfl rfl
  refine hread.trans fun s h => ?_
  have hrun : Reaches (MultiThread.step config) s fun t => At t .task tick .idle
      (pack (WorkStealing.pos (x + 1)) (WorkStealing.pos (x + 1))) (WorkStealing.pos (x + 1))
      o := by
    refine .next (a := .step popper false) ?_ (.refl (h.goTo .task))
    simp [MultiThread.step, stepPc, h.owner]
  refine hrun.trans fun s h => ?_
  refine .next (a := .suspend popper) ?_ (.refl (h.goTo .loop))
  simp [MultiThread.step, h.owner]

/-- `x` tasks have been popped. -/
def Spin (x : Nat) (s : Two) : Prop :=
  At s .loop (WorkStealing.pos x) .idle (pack (WorkStealing.pos x) (WorkStealing.pos x))
    (WorkStealing.pos x) {}

theorem Spin.cycle {x : Nat} (h : Spin x s) :
    Reaches (MultiThread.step config) s (Spin (x + 1)) := by
  have hloop := At.loop h
  rw [WorkStealing.pos_succ] at hloop
  refine hloop.trans fun s h => h.deliver.trans fun s h => h.toPop.trans fun s h => ?_
  obtain ⟨interval, h⟩ := h
  exact h.pop

theorem Spin.around {x : Nat} (h : Spin x s) (k : Nat) :
    Reaches (MultiThread.step config) s (Spin (x + k)) := by
  induction k with
  | zero => exact .refl h
  | succ k ih => exact ih.trans fun s h => h.cycle

end Cycle

/-! ## The end -/

section End

variable {s : Two} {p : Pc 2 Unit} {tick : U32} {call : WorkStealing.Pc (Fin 2) Unit}
  {head head' : BitVec 64} {tail : U32} {o : Others}

/-- Two tasks in the global queue. -/
def two : Others := { global := ⟨[(), ()], 2, false⟩, remote := some .check }

/-- Another thread hands in two tasks. -/
theorem At.schedulesRemote (h : At s p tick call head tail {}) :
    Reaches (MultiThread.step config) s fun t => At t p tick call head tail two := by
  refine .next (a := .remote () [(), ()]) (t := { s with
    queues := { s.queues with
      handed := s.queues.handed ++ [(), ()]
      global := ⟨[(), ()], 2, false⟩ }
    remote := Function.update s.remote () (some .check) }) ?_ (.refl ?_)
  · simp [MultiThread.step, h.remote, scheduleRemote, WorkStealing.step, GlobalQueue.pushBatch,
      h.global]
  · refine ⟨h.owner, h.call, h.head, h.tail, rfl, ?_, h.stealing, h.thief⟩
    show Function.update s.remote () (some .check) () = some .check
    exact Function.update_self ..

/-- Nothing is left to pop. -/
theorem At.popEmpty {interval : Bool} (h : At s (.popping interval) tick .popHead 0 0 o) :
    Reaches (MultiThread.step config) s fun t =>
      At t (if interval then .toSearching else .globalEmpty) tick .idle 0 0 o := by
  have hhead := h.waiting h.popping (q := WorkStealing.setPc s.queues popper (.popTail 0))
    (by simp [WorkStealing.stepPc, h.call, h.head]) ⟨rfl, h.head, h.tail, rfl⟩ (by simp)
  refine hhead.trans fun s h => ?_
  refine h.returns [] h.popping (q := WorkStealing.setPc s.queues popper .idle)
    ?_ ⟨rfl, h.head, h.tail, rfl⟩ (List.append_nil _).symm rfl
  have hempty : (unpack 0#64).2 = 0#32 := by decide
  simp [WorkStealing.stepPc, h.call, h.tail, hempty]

/-- What `next_task` does with the result of `remaining_slots`. -/
def remained (slots : Nat) (s : Two) (_ : List Unit) : Option Two :=
  some (MultiThread.goTo s popper (if min slots 128 = 0 then .remoteEmpty .noRoom
    else .globalSize (min slots 128)))

/-- `remaining_slots` reads that all slots remain. -/
theorem At.reads (h : At s .globalEmpty tick .idle 0 0 two) :
    Reaches (MultiThread.step config) s fun t => At t (.globalSize 128) tick .idle 0 0 two := by
  have hbegin := h.begins .remaining (a := .remainingSlots popper)
    (q := WorkStealing.setPc s.queues popper .remHead)
    (by simp [MultiThread.step, stepPc, h.owner, h.global, two])
    (by simp [WorkStealing.step, WorkStealing.call, h.call]) ⟨rfl, h.head, h.tail, rfl⟩
  refine hbegin.trans fun s h => ?_
  have hsteal : (unpack 0#64).1 = 0#32 := by decide
  have hs : MultiThread.step config s (.step popper false) =
      continueCall s popper false (remained 0) := by
    show stepPc config s popper false = _
    simp only [stepPc, h.owner, h.call]
    rfl
  have hhead := h.waiting hs (q := WorkStealing.setPc s.queues popper (.remTail 0))
    (by simp [WorkStealing.stepPc, h.call, h.head, hsteal]) ⟨rfl, h.head, h.tail, rfl⟩ (by simp)
  refine hhead.trans fun s h => ?_
  have hs : MultiThread.step config s (.step popper false) =
      continueCall s popper false (remained 256) := by
    show stepPc config s popper false = _
    simp only [stepPc, h.owner, h.call, h.tail]
    rfl
  exact h.returns [] hs (q := WorkStealing.setPc s.queues popper .idle)
    (by simp [WorkStealing.stepPc, h.call, h.tail]) ⟨rfl, h.head, h.tail, rfl⟩
    (List.append_nil _).symm rfl

/-- Two tasks are fetched, and the second is to be pushed. -/
theorem At.fetches (h : At s (.globalSize 128) tick .idle 0 0 two) :
    Reaches (MultiThread.step config) s fun t =>
      At t .pushBatch tick (.batchHead [()]) 0 0 { remote := some .check } := by
  have hsize : Reaches (MultiThread.step config) s fun t => At t (.popN 2) tick .idle 0 0 two := by
    refine .next (a := .step popper false) ?_ (.refl (h.goTo (.popN 2)))
    simp [MultiThread.step, stepPc, h.owner, h.global, two]
  refine hsize.trans fun s h => ?_
  have hpop : At { s with queues := WorkStealing.setPc { s.queues with
      global := {}
      handed := s.queues.handed ++ [()]
      returned := s.queues.returned ++ [(), ()] } popper (.batchHead [()]) } (.popN 2) tick
      (.batchHead [()]) 0 0 { remote := some .check } := by
    refine ⟨h.owner, ?_, h.head, h.tail, rfl, h.remote, h.stealing, ?_⟩
    · show Function.update s.queues.pc popper (.batchHead [()]) popper = .batchHead [()]
      exact Function.update_self ..
    · show Function.update s.queues.pc popper (.batchHead [()]) sleeper = _
      rw [Function.update_of_ne (by decide)]
      exact h.thief
  refine .next (a := .step popper false) ?_ (.refl (hpop.goTo .pushBatch))
  simp [MultiThread.step, stepPc, h.owner, WorkStealing.step, h.global, two, GlobalQueue.popN,
    startCall, WorkStealing.call, h.call]

/-- A step of the thief. -/
theorem At.steals {q : WorkStealing.State (Fin 2) Unit} {thief : WorkStealing.Pc (Fin 2) Unit}
    (h : At s p tick call head tail o) (hq : WorkStealing.stepPc s.queues sleeper false = some q)
    (hpc : q.pc = Function.update s.queues.pc sleeper thief) (hne : thief ≠ .idle)
    (hhead : (q.queue popper).head = head')
    (htail : (q.queue popper).tail = (s.queues.queue popper).tail)
    (hg : q.global = s.queues.global) :
    Reaches (MultiThread.step config) s fun t =>
      At t p tick call head' tail { o with thief } := by
  have hthief : q.pc sleeper = thief := by
    rw [hpc]
    exact Function.update_self ..
  refine .next (a := .step sleeper false) (t := { s with queues := q }) ?_ (.refl ?_)
  · show stepPc config s sleeper false = _
    simp only [stepPc, h.stealing]
    exact continueCall_goes hq fun he => hne (hthief.symm.trans he)
  · refine ⟨h.owner, ?_, hhead, htail.trans h.tail, hg.trans h.global, h.remote, h.stealing, hthief⟩
    show q.pc popper = call
    rw [hpc]
    exact (Function.update_of_ne (by decide) ..).trans h.call

/-- The thief claims a slot past the tail, and gives it back. -/
theorem At.claims (h : At s p tick call 0 tail { remote := some .check }) :
    Reaches (MultiThread.step config) s fun t =>
      At t p tick call (pack 1 1) tail { remote := some .check, thief := .stealTake 0 1 } := by
  have hunpack : unpack 0#64 = (0#32, 0#32) := by decide
  have hcas : Reaches (MultiThread.step config) s fun t => At t p tick call (pack 0 1) tail
      { remote := some .check, thief := .stealRead popper 0 0 1 0 } :=
    h.steals (q := WorkStealing.setPc (WorkStealing.setQueue s.queues popper
        ((s.queues.queue popper).storeReal (pack 0 1) 1)) sleeper (.stealRead popper 0 0 1 0))
      (by simp [WorkStealing.stepPc, h.thief, h.head, hunpack]) rfl (by simp) rfl rfl rfl
  refine hcas.trans fun s h => ?_
  have hread : Reaches (MultiThread.step config) s fun t => At t p tick call (pack 0 1) tail
      { remote := some .check, thief := .stealWrite popper 0 0 1 0 () } :=
    h.steals (q := WorkStealing.setPc s.queues sleeper (.stealWrite popper 0 0 1 0 ()))
      (by simp [WorkStealing.stepPc, h.thief]) rfl (by simp) h.head rfl rfl
  refine hread.trans fun s h => ?_
  have hwrite : Reaches (MultiThread.step config) s fun t => At t p tick call (pack 0 1) tail
      { remote := some .check, thief := .stealRead popper 0 0 1 1 } :=
    h.steals (q := WorkStealing.setPc (WorkStealing.setQueue s.queues sleeper
        ((s.queues.queue sleeper).write 0 ())) sleeper (.stealRead popper 0 0 1 1))
      (by simp [WorkStealing.stepPc, h.thief]) rfl (by simp) h.head rfl rfl
  refine hwrite.trans fun s h => ?_
  have hend : Reaches (MultiThread.step config) s fun t => At t p tick call (pack 0 1) tail
      { remote := some .check, thief := .stealRelease popper 0 1 (pack 0 1) } :=
    h.steals (q := WorkStealing.setPc s.queues sleeper (.stealRelease popper 0 1 (pack 0 1)))
      (by simp [WorkStealing.stepPc, h.thief]) rfl (by simp) h.head rfl rfl
  refine hend.trans fun s h => ?_
  exact h.steals (q := WorkStealing.setPc (WorkStealing.setQueue s.queues popper
      ((s.queues.queue popper).release (pack 1 1))) sleeper (.stealTake 0 1))
    (by simp [WorkStealing.stepPc, h.thief, h.head]) rfl (by simp) rfl rfl rfl

/-- What `next_task` does when `push_batch` has returned, or thrown. -/
def returnedBatch (s : Two) : List Unit → Option Two
  | [] => some (MultiThread.goTo s popper .runTask)
  | _ :: _ => some (MultiThread.goTo s popper .thrown)

theorem At.pushBatch (h : At s .pushBatch tick call head tail o) :
    MultiThread.step config s (.step popper false) = continueCall s popper false returnedBatch := by
  show stepPc config s popper false = _
  simp only [stepPc, h.owner]
  congr 1
  funext s result
  cases result <;> rfl

/-- `push_batch` finds no room. -/
theorem At.throws (h : At s .pushBatch tick (.batchHead [()]) (pack 1 1) 0 o) :
    Reaches (MultiThread.step config) s fun t => At t .thrown tick .idle (pack 1 1) 0 o := by
  have hhead := h.waiting h.pushBatch (q := WorkStealing.setPc s.queues popper (.batchTail [()] 1))
    (by simp [WorkStealing.stepPc, h.call, h.head]) ⟨rfl, h.head, h.tail, rfl⟩ (by simp)
  refine hhead.trans fun s h => ?_
  exact h.returns [()] h.pushBatch (q := WorkStealing.done s.queues popper [()])
    (by simp [WorkStealing.stepPc, h.call, h.tail]) ⟨rfl, h.head, h.tail, rfl⟩ rfl rfl

/-- Once around, and the thief's CAS finds what it loaded. -/
theorem Spin.overflows (h : Spin (2 ^ 32) s) :
    Reaches (MultiThread.step config) s fun t => (t.worker popper).pc = .thrown := by
  have hpos : WorkStealing.pos (2 ^ 32) = 0 := by decide
  have hpack : pack 0#32 0#32 = 0#64 := by decide
  have h : At s .loop 0 .idle 0 0 {} := by
    have h := h
    unfold Spin at h
    rw [hpos] at h
    rwa [show pack 0 0 = 0 from hpack] at h
  refine h.schedulesRemote.trans fun s h => h.loop.trans fun s h => ?_
  have hnext : Reaches (MultiThread.step config) s fun t =>
      At t .nextTask (0 + 1) .idle 0 0 two := by
    refine .next (a := .arrive popper [] 0) ?_ (.refl (h.goTo .nextTask))
    simp [MultiThread.step, h.owner]
  refine hnext.trans fun s h => ?_
  have hpop := h.nextLocalTask false (h.step_nextTask (by decide))
  refine hpop.trans fun s h => h.popEmpty.trans fun s h => h.reads.trans fun s h => ?_
  refine h.fetches.trans fun s h => h.claims.trans fun s h => h.throws.trans fun s h => ?_
  refine .refl ?_
  rw [h.owner]

/-- `popper` has pushed a task, `sleeper` is about to steal it, and `popper` has popped it. -/
def setup : List (MultiThread.Act 2 Unit Unit) :=
  [.step popper false, .arrive popper [()] 1] ++ List.replicate 5 (.step popper false) ++
    [.step sleeper false, .arrive sleeper [] 0] ++ List.replicate 6 (.step sleeper false) ++
    [.fastrand sleeper popper] ++ List.replicate 5 (.step sleeper false) ++
    List.replicate 9 (.step popper false) ++ [.suspend popper]

theorem setup_spin : Reaches (MultiThread.step config) (MultiThread.init : Two) (Spin 1) := by
  obtain ⟨s, hs, hr, hc, hq, hg, ht⟩ := run_eval (MultiThread.step config) (MultiThread.init : Two)
    setup (fun s => s.worker popper = { tick := 1, pc := .loop } ∧ s.queues.pc popper = .idle ∧
      ((s.queues.queue popper).head = pack 1 1 ∧ (s.queues.queue popper).tail = 1) ∧
      (s.queues.global = {} ∧ s.remote () = none) ∧
      (s.worker sleeper).pc = .stealing popper 0 ∧
      s.queues.pc sleeper = .stealCas popper 0 0 1 0) (by decide +kernel)
  exact ⟨setup, s, hs, hr, hc, hq.1, hq.2, hg.1, hg.2, ht.1, ht.2⟩

end End

/-! ## Top theorem -/

/-- Runs of the scheduler are runs with the locals of `next_task`. -/
theorem reaches_scheduler {n : Nat} {R T : Type} [DecidableEq R] {config : Config}
    {P : MultiThread.State n R T → Prop} {s : State n R T}
    (h : Reaches (MultiThread.step config) s.scheduler P) :
    Reaches (step config) s fun t => P t.scheduler := by
  have hsim : ∀ x a y (u : State n R T), u.scheduler = x → MultiThread.step config x a = some y →
      True → ∃ as v, run (step config) u as = some v ∧ v.scheduler = y := by
    rintro x a y u rfl hs -
    refine ⟨[.scheduler a], ⟨y, setLocals u a⟩, ?_, rfl⟩
    rw [run_one]
    simp only [step, hs, Option.map_some]
  obtain ⟨as, t, hr, ht⟩ := h
  obtain ⟨bs, v, hv, rfl⟩ := run_simulates hsim rfl hr (eachStep_true _ as)
  exact ⟨bs, v, hv, ht⟩

theorem step_num {n : Nat} {R T : Type} [DecidableEq R] {config : Config} {s t : State n R T}
    {a : Act n R T}
    (h : s.scheduler.queues.global.num = s.scheduler.queues.global.tasks.length)
    (hs : step config s a = some t) :
    t.scheduler.queues.global.num = t.scheduler.queues.global.tasks.length := by
  cases a with
  | scheduler a =>
    simp only [step] at hs
    obtain ⟨u, hu, rfl⟩ := Option.map_eq_some_iff.1 hs
    exact MultiThread.step_num h hu
  | close =>
    simp only [step] at hs
    obtain ⟨q, hq, rfl⟩ := Option.map_eq_some_iff.1 hs
    exact WorkStealing.step_num h hq

/-- **The exception is reachable**: after the thief has slept through `2^32` pops, the
counter of the global queue being its length all the time. -/
theorem next_task_overflow : ∃ (as : List (Act 2 Unit Unit)) (s : State 2 Unit Unit),
    run (step config) init as = some s ∧
    EachStep (step config) (fun _ _ t => t.scheduler.queues.global.num =
      t.scheduler.queues.global.tasks.length) init as ∧
    s.pc popper = .thrown := by
  have hthrown : Reaches (MultiThread.step config) (init : State 2 Unit Unit).scheduler
      fun t => (t.worker popper).pc = .thrown := by
    refine setup_spin.trans fun s h => (h.around (2 ^ 32 - 1)).trans fun s h => ?_
    rw [show 1 + (2 ^ 32 - 1) = 2 ^ 32 by omega] at h
    exact h.overflows
  obtain ⟨as, s, hr, hs⟩ := reaches_scheduler hthrown
  refine ⟨as, s, hr, ?_, hs⟩
  exact eachStep_of_inv (fun s => s.scheduler.queues.global.num =
      s.scheduler.queues.global.tasks.length)
    (fun _ _ _ h hs (_ : True) => step_num h hs) (fun _ _ _ h hs _ => step_num h hs)
    (show 0 = ([] : List Unit).length from rfl) (eachStep_true init as)

end Kosio.Runtime.NextTask
