import Mathlib.Tactic.Abel
import Kosio.Lib.Service
import Kosio.Runtime.Scheduler.NextTask

/-!
# The multi-threaded scheduler conserves tasks

`tasks_conserved` is about the queues alone: what their callers hand in and get back.
Here the callers are the workers.  A task comes from a running task or another thread,
or from completions and timers; on its way it may be in the hands of `Driver::poll`, in
a LIFO slot, in a push that has not got to its queue yet, in a thief's claimed slots;
and it leaves when `next_task` or `steal_task` returns it.  A refill takes tasks out of
the global queue and hands all but one of them in again.

Each scheduled task is taken once or is in one of these places
(`scheduler_conserves`).  What carries it: at every place in the run loop the queue call
in progress is of one kind (`Calls`), which says what may come back from it.
-/

namespace Kosio.Runtime

open Steps

/-! ## What the queues hold -/

namespace WorkStealing

variable {W T : Type}

inductive Kind where
  | idle | failed | slots | batch | push | pop | steal
deriving DecidableEq

/-- Which call is in progress. -/
def Pc.kind : Pc W T → Kind
  | .idle => .idle
  | .failed => .failed
  | .remHead | .remTail _ => .slots
  | .batchHead _ | .batchTail _ _ | .batchWrite _ _ _ => .batch
  | .pushHead _ | .pushTail _ _ | .pushGlobal _ | .overflowCas _ _ _ | .overflowRead _ _ _
  | .pushWrite _ _ | .pushStore _ _ => .push
  | .popHead | .popTail _ | .popCas _ | .popRead _ => .pop
  | .stealDstHead _ | .stealDstTail _ _ | .stealHead _ _ | .stealTail _ _ _ _
  | .stealCas _ _ _ _ _ | .stealRead _ _ _ _ _ | .stealWrite _ _ _ _ _ _ | .stealRelease _ _ _ _
  | .stealTake _ _ | .stealStore _ _ => .steal

/-- What a call hands in. -/
def Act.hands : Act W T → List T
  | .pushBatch _ tasks | .globalPushBatch tasks => tasks
  | .pushBackOrOverflow _ task | .globalPush task => [task]
  | _ => []

section

variable [DecidableEq W] {s t : State W T} {w : W} {b : Bool}

/-- What a step returns to its caller. -/
def returns (s : State W T) (a : Act W T) : List T :=
  (step s a).elim [] fun t => t.returned.drop s.returned.length

/-- A step within a call by `w`, which may end it. -/
structure Ends (s t : State W T) (w : W) (tasks : List T) : Prop where
  handed : t.handed = s.handed
  returned : t.returned = s.returned ++ tasks
  others : ∀ v ≠ w, t.pc v = s.pc v
  inside : t.pc w ≠ .idle → tasks = [] ∧ ((t.pc w).kind = (s.pc w).kind ∨ t.pc w = .failed)
  none : (s.pc w).kind = .slots ∨ (s.pc w).kind = .push → tasks = []
  one : (s.pc w).kind = .pop ∨ (s.pc w).kind = .steal → tasks.length ≤ 1

theorem ends_of {p : Pc W T} (hpc : t.pc = Function.update s.pc w p) (hh : t.handed = s.handed)
    (hr : t.returned = s.returned) (hp : p = .idle ∨ p = .failed ∨ p.kind = (s.pc w).kind) :
    Ends s t w [] := by
  refine ⟨hh, by rw [hr, List.append_nil], fun v hv => ?_, fun hne => ⟨rfl, ?_⟩, fun _ => rfl,
    fun _ => Nat.zero_le _⟩
  · rw [hpc]
    exact Function.update_of_ne hv ..
  · rw [hpc, Function.update_self] at hne ⊢
    rcases hp with hp | hp | hp
    · exact absurd hp hne
    · exact .inr hp
    · exact .inl hp

theorem ends_done {tasks : List T} {u : State W T} (hpc : u.pc = s.pc) (hh : u.handed = s.handed)
    (hr : u.returned = s.returned) (hnone : (s.pc w).kind ≠ .slots ∧ (s.pc w).kind ≠ .push)
    (hone : tasks.length ≤ 1 ∨ (s.pc w).kind = .batch) : Ends s (done u w tasks) w tasks := by
  refine ⟨hh, by rw [← hr]; rfl, fun v hv => ?_, fun hne => ?_, fun h => ?_, fun h => ?_⟩
  · show Function.update u.pc w .idle v = _
    rw [Function.update_of_ne hv, hpc]
  · exact absurd (Function.update_self ..) hne
  · rcases h with h | h
    · exact absurd h hnone.1
    · exact absurd h hnone.2
  · rcases hone with h1 | h1
    · exact h1
    · rw [h1] at h
      rcases h with h | h
      · cases h
      · cases h

theorem stepPc_ends (hs : stepPc s w b = some t) : ∃ tasks, Ends s t w tasks := by
  unfold stepPc at hs
  cases hpc : s.pc w
  all_goals simp only [hpc] at hs
  all_goals repeat' split at hs
  all_goals cases hs
  all_goals first
    | exact ⟨_, ends_of rfl rfl rfl (by
        rw [hpc]
        first | exact .inl rfl | exact .inr (.inl rfl) | exact .inr (.inr rfl))⟩
    | exact ⟨_, ends_done rfl rfl rfl (by simp [hpc, Pc.kind]) (by
        rw [hpc]
        first | exact .inl (Nat.le_refl _) | exact .inr rfl)⟩

theorem Ends.returns {tasks : List T} (h : Ends s t w tasks)
    (hs : step s (.step w b) = some t) : returns s (.step w b) = tasks := by
  rw [WorkStealing.returns, hs]
  show t.returned.drop s.returned.length = tasks
  rw [h.returned, List.drop_left]

variable [Fintype W]

/-- The tasks handed in and not returned. -/
def stored (s : State W T) : Multiset T :=
  (∑ w, (live (s.queue w) : Multiset T)) + (∑ w, (hand s.queue (s.queue w) (s.pc w) : Multiset T)) +
    (s.global.tasks : Multiset T) + (s.dropped : Multiset T)

omit [DecidableEq W] in
theorem stored_flow {X Y : List T} (h : Inv s) (h' : Inv t) (hh : t.handed = s.handed ++ X)
    (hr : t.returned = s.returned ++ Y) : stored s + X = stored t + Y := by
  have h1 := h.conserved
  have h2 := h'.conserved
  rw [hh, ← Multiset.coe_add, h1, places, places, hr, ← Multiset.coe_add] at h2
  refine add_right_cancel (b := (s.returned : Multiset T)) ?_
  unfold stored
  calc _ = _ := by abel
    _ = _ := h2
    _ = _ := by abel

/-- What a step takes in and returns, the queues gain and lose. -/
theorem stored_step {a : Act W T} {Y : List T} (h : Inv s) (hok : NoWrap s a s)
    (hs : step s a = some t) (hr : t.returned = s.returned ++ Y) :
    Inv t ∧ stored s + a.hands = stored t + Y := by
  have ht := (keeps_step s a t h hs hok).inv
  refine ⟨ht, stored_flow h ht ?_ hr⟩
  cases a with
  | step v b =>
    obtain ⟨tasks, he⟩ := stepPc_ends hs
    rw [he.handed]
    exact (List.append_nil _).symm
  | pushBatch v tasks =>
    simp only [step, Option.ite_none_right_eq_some] at hs
    rw [call_eq hs.2]
    rfl
  | pushBackOrOverflow v task =>
    rw [call_eq hs]
    rfl
  | remainingSlots v | pop v =>
    rw [call_eq hs]
    exact (List.append_nil _).symm
  | stealInto src v =>
    simp only [step, Option.ite_none_left_eq_some] at hs
    rw [call_eq hs.2]
    exact (List.append_nil _).symm
  | globalPush task | globalPushBatch tasks =>
    cases hs
    rfl
  | globalPop | globalPopN m | globalClose =>
    cases hs
    exact (List.append_nil _).symm

theorem stored_starts {a : Act W T} {p : Pc W T} (h : Inv s) (ha : a.starts = some (w, p))
    (hs : step s a = some t) : stored s + a.hands = stored t := by
  have hboth : NoWrap s a s ∧ t.returned = s.returned := by
    cases a with
    | pushBatch v tasks =>
      cases ha
      simp only [step, Option.ite_none_right_eq_some] at hs
      rw [call_eq hs.2]
      exact ⟨trivial, rfl⟩
    | stealInto src v =>
      cases ha
      simp only [step, Option.ite_none_left_eq_some] at hs
      rw [call_eq hs.2]
      exact ⟨trivial, rfl⟩
    | remainingSlots v | pushBackOrOverflow v task | pop v =>
      cases ha
      rw [call_eq hs]
      exact ⟨trivial, rfl⟩
    | _ => cases ha
  obtain ⟨-, hst⟩ := stored_step (Y := []) h hboth.1 hs (by rw [hboth.2, List.append_nil])
  rw [hst]
  exact add_zero _

/-- A step within a call. -/
theorem stored_stepPc (h : Inv s) (hok : NoWrap s (.step w b) s) (hs : step s (.step w b) = some t) :
    ∃ tasks, Ends s t w tasks ∧ Inv t ∧ stored s = stored t + tasks := by
  obtain ⟨tasks, he⟩ := stepPc_ends hs
  obtain ⟨ht, hst⟩ := stored_step h hok hs he.returned
  exact ⟨tasks, he, ht, by rw [← hst]; exact (add_zero _).symm⟩

end

end WorkStealing

/-! ## The workers -/

namespace MultiThread

variable {n : Nat} {R T : Type}

/-! ### Specification -/

/-- The tasks that a step schedules. -/
def scheduled : Act n R T → List T
  | .arrive _ tasks _ | .scheduleRemote _ tasks | .remote _ tasks => tasks
  | .scheduleLocal _ task => [task]
  | _ => []

/-- What is taken when the global queue had nothing. -/
def Remote.otherwise (r : Worker n T) : Remote → List T
  | .interval => r.lifoSlot.toList
  | _ => []

/-- The tasks that `next_task` and `steal_task` return. -/
def taken (config : Config) (s : State n R T) : Act n R T → List T
  | .step w b =>
    let r := s.worker w
    let global := s.queues.global
    match r.pc with
    | .nextTask =>
      if r.tick.toNat % config.globalQueueInterval = 0 then [] else r.lifoSlot.toList
    | .remoteEmpty k => if global.num = 0 then k.otherwise r else []
    | .remotePop k =>
      match global.pop.1 with
      | some task => [task]
      | none => k.otherwise r
    | .popN m => (global.popN m).1.take 1
    | .popping _ | .stealing _ _ => WorkStealing.returns s.queues (.step w b)
    | _ => []
  | _ => []

/-- What a worker has outside of the queues: its LIFO slot, whose task `schedule_local`
pushes before it fills the slot again, and what `poll` has not pushed yet. -/
def holding (r : Worker n T) : List T :=
  match r.pc with
  | .scheduleLocal task _ => [task]
  | .deliver _ tasks _ | .delivering _ tasks _ => tasks ++ r.lifoSlot.toList
  | _ => r.lifoSlot.toList

/-- The tasks that are still to be taken. -/
def waiting (s : State n R T) : Multiset T :=
  (∑ w, (holding (s.worker w) : Multiset T)) + WorkStealing.stored s.queues

/-! ### Invariant -/

/-- The queue call that is in progress at a place of the loop. -/
def Pc.call : Pc n T → WorkStealing.Kind
  | .delivering _ _ _ | .scheduleLocal _ _ => .push
  | .popping _ => .pop
  | .stealing _ _ => .steal
  | .remaining => .slots
  | .pushBatch => .batch
  | _ => .idle

def Calls (s : State n R T) : Prop := ∀ w, (s.queues.pc w).kind = (s.worker w).pc.call

/-- A step of `w` that lets `inn` in and `out` out. -/
structure Moves (s t : State n R T) (w : Fin n) (inn out : List T) : Prop where
  others : ∀ v ≠ w, t.worker v = s.worker v
  pcs : ∀ v ≠ w, t.queues.pc v = s.queues.pc v
  call : (t.queues.pc w).kind = (t.worker w).pc.call
  balance : (inn : Multiset T) + holding (s.worker w) + WorkStealing.stored s.queues =
    out + holding (t.worker w) + WorkStealing.stored t.queues

section

variable {s t : State n R T} {w : Fin n} {b : Bool} {inn out : List T}

theorem Moves.calls (h : Moves s t w inn out) (hc : Calls s) : Calls t := by
  intro v
  by_cases hv : v = w
  · rw [hv]
    exact h.call
  · rw [h.others v hv, h.pcs v hv]
    exact hc v

theorem Moves.waiting (h : Moves s t w inn out) :
    (inn : Multiset T) + waiting s = out + waiting t := by
  have hsum := Tally.sum_except (f := fun v => (holding (s.worker v) : Multiset T))
    (g := fun v => (holding (t.worker v) : Multiset T)) w fun v hv => by rw [h.others v hv]
  refine add_right_cancel (b := (holding (s.worker w) : Multiset T)) ?_
  unfold MultiThread.waiting
  calc (inn : Multiset T) + ((∑ v, (holding (s.worker v) : Multiset T)) +
        WorkStealing.stored s.queues) + holding (s.worker w)
      = (∑ v, (holding (s.worker v) : Multiset T)) +
          (inn + holding (s.worker w) + WorkStealing.stored s.queues) := by abel
    _ = (∑ v, (holding (s.worker v) : Multiset T)) +
          (out + holding (t.worker w) + WorkStealing.stored t.queues) := by rw [h.balance]
    _ = ((∑ v, (holding (s.worker v) : Multiset T)) + holding (t.worker w)) +
          (out + WorkStealing.stored t.queues) := by abel
    _ = ((∑ v, (holding (t.worker v) : Multiset T)) + holding (s.worker w)) +
          (out + WorkStealing.stored t.queues) := by rw [hsum]
    _ = out + ((∑ v, (holding (t.worker v) : Multiset T)) + WorkStealing.stored t.queues) +
          holding (s.worker w) := by abel

/-- No queue call is in progress, and outside of the queues there is the LIFO slot only. -/
def Pc.plain : Pc n T → Bool
  | .deliver _ _ _ | .delivering _ _ _ | .scheduleLocal _ _ | .popping _ | .stealing _ _
  | .remaining | .pushBatch => false
  | _ => true

theorem Pc.call_plain {p : Pc n T} (h : p.plain) : p.call = .idle := by
  cases p with
  | delivering _ _ _ | scheduleLocal _ _ | popping _ | stealing _ _ | remaining | pushBatch =>
    cases h
  | _ => rfl

theorem holding_plain {r : Worker n T} (h : r.pc.plain) : holding r = r.lifoSlot.toList := by
  unfold holding
  cases hpc : r.pc with
  | deliver _ _ _ | delivering _ _ _ | scheduleLocal _ _ =>
    rw [hpc] at h
    cases h
  | _ => rfl

/-- No queue has a part in it. -/
theorem moves_setWorker {r : Worker n T} (hc : (s.queues.pc w).kind = (s.worker w).pc.call)
    (hw : t.worker = Function.update s.worker w r) (hq : t.queues = s.queues)
    (hcall : r.pc.call = (s.worker w).pc.call)
    (hbal : (inn : Multiset T) + holding (s.worker w) = out + holding r) :
    Moves s t w inn out := by
  refine ⟨fun v hv => ?_, fun v _ => ?_, ?_, ?_⟩
  · rw [hw]
    exact Function.update_of_ne hv ..
  · rw [hq]
  · rw [hw, hq, Function.update_self, hc, hcall]
  · rw [hw, hq, Function.update_self, hbal]

/-- A step from one such place to another. -/
theorem moves_plain {r : Worker n T} (hc : (s.queues.pc w).kind = (s.worker w).pc.call)
    (hs : (s.worker w).pc.plain) (hw : t.worker = Function.update s.worker w r)
    (hq : t.queues = s.queues) (hr : r.pc.plain) (hl : r.lifoSlot = (s.worker w).lifoSlot) :
    Moves s t w [] [] := by
  refine moves_setWorker hc hw hq ?_ ?_
  · rw [Pc.call_plain hr, Pc.call_plain hs]
  · rw [holding_plain hr, holding_plain hs, hl]

/-- A call has returned `tasks`. -/
theorem holding_returned {r : Worker n T} {p : Pc n T} (hold : holding r = r.lifoSlot.toList)
    (hp : p.plain) (tasks : List T) :
    (holding r : Multiset T) + tasks = tasks + holding { r with pc := p } := by
  rw [holding_plain (r := { r with pc := p }) hp, hold, add_comm]

theorem plain_ite {c : Prop} [Decidable c] {p p' : Pc n T} (hp : p.plain) (hp' : p'.plain) :
    (if c then p else p').plain := by
  split
  · exact hp
  · exact hp'

/-- A call on the global queue came first. -/
theorem Moves.after {q : WorkStealing.State (Fin n) T} {X Y inn' out' : List T}
    (h : Moves { s with queues := q } t w inn' out') (hpc : q.pc = s.queues.pc)
    (hst : WorkStealing.stored s.queues + X = WorkStealing.stored q + Y)
    (hbal : (inn + Y + out' : Multiset T) = inn' + X + out) : Moves s t w inn out := by
  refine ⟨h.others, fun v hv => (h.pcs v hv).trans (by rw [hpc]), h.call, ?_⟩
  have hb : (inn' : Multiset T) + holding (s.worker w) + WorkStealing.stored q =
      out' + holding (t.worker w) + WorkStealing.stored t.queues := h.balance
  refine add_right_cancel (b := (X + inn' : Multiset T)) ?_
  calc (inn : Multiset T) + holding (s.worker w) + WorkStealing.stored s.queues + (X + inn')
      = inn + holding (s.worker w) + inn' + (WorkStealing.stored s.queues + X) := by abel
    _ = inn + Y + (inn' + holding (s.worker w) + WorkStealing.stored q) := by rw [hst]; abel
    _ = (inn + Y + out') + (holding (t.worker w) + WorkStealing.stored t.queues) := by
      rw [hb]; abel
    _ = out + holding (t.worker w) + WorkStealing.stored t.queues + (X + inn') := by
      rw [hbal]; abel

/-- A queue call starts. -/
theorem moves_startCall {a : WorkStealing.Act (Fin n) T} {c : WorkStealing.Pc (Fin n) T}
    {p : Pc n T} (hi : WorkStealing.Inv s.queues) (ha : a.starts = some (w, c))
    (hcall : c.kind = p.call)
    (hbal : (inn : Multiset T) + holding (s.worker w) =
      out + holding { s.worker w with pc := p } + a.hands)
    (hs : startCall s w a p = some t) : Moves s t w inn out := by
  obtain ⟨q, hq, rfl⟩ := Option.map_eq_some_iff.1 hs
  have hpc := (WorkStealing.step_starts ha hq).1
  have hst := WorkStealing.stored_starts hi ha hq
  refine ⟨fun v hv => Function.update_of_ne hv .., fun v hv => ?_, ?_, ?_⟩
  · show q.pc v = s.queues.pc v
    rw [hpc]
    exact Function.update_of_ne hv ..
  · show (q.pc w).kind = (Function.update s.worker w { s.worker w with pc := p } w).pc.call
    rw [hpc, Function.update_self, Function.update_self, hcall]
  · show _ = (out : Multiset T) + holding (Function.update s.worker w _ w) + WorkStealing.stored q
    rw [Function.update_self, hbal, ← hst]
    abel

theorem moves_returned {q : WorkStealing.State (Fin n) T} {tasks : List T} {r : Worker n T}
    (he : WorkStealing.Ends s.queues q w tasks) (hidle : q.pc w = .idle)
    (hst : WorkStealing.stored s.queues = WorkStealing.stored q + tasks)
    (hw : t.worker = Function.update s.worker w r) (hq : t.queues = q) (hcall : r.pc.call = .idle)
    (hbal : (inn : Multiset T) + holding (s.worker w) + tasks = out + holding r) :
    Moves s t w inn out := by
  subst hq
  refine ⟨fun v hv => ?_, he.others, ?_, ?_⟩
  · rw [hw]
    exact Function.update_of_ne hv ..
  · rw [hidle, hw, Function.update_self, hcall]
    rfl
  · rw [hw, Function.update_self, hst, ← hbal]
    abel

/-- A step that does not end the call. -/
theorem moves_inside {q : WorkStealing.State (Fin n) T} {tasks : List T} {r : Worker n T}
    (hi : WorkStealing.Inv q) (hc : (s.queues.pc w).kind = (s.worker w).pc.call)
    (he : WorkStealing.Ends s.queues q w tasks) (hgoes : q.pc w ≠ .idle)
    (hst : WorkStealing.stored s.queues = WorkStealing.stored q + tasks)
    (hw : t.worker = Function.update s.worker w r) (hq : t.queues = q)
    (hcall : r.pc.call = (s.worker w).pc.call) (hhold : holding r = holding (s.worker w)) :
    Moves s t w [] [] := by
  subst hq
  obtain ⟨htasks, hkind⟩ := he.inside hgoes
  have hkind := hkind.resolve_right fun hf => by
    have := hi.own w
    rw [hf] at this
    exact this
  refine ⟨fun v hv => ?_, he.others, ?_, ?_⟩
  · rw [hw]
    exact Function.update_of_ne hv ..
  · rw [hkind, hc, hw, Function.update_self, hcall]
  · rw [hw, Function.update_self, hst, htasks, hhold, Multiset.coe_nil, add_zero]

/-- The queue call goes on or returns. -/
theorem moves_continueCall {k : State n R T → List T → Option (State n R T)}
    (hi : WorkStealing.Inv s.queues) (hok : WorkStealing.NoWrap s.queues (.step w b) s.queues)
    (hc : (s.queues.pc w).kind = (s.worker w).pc.call)
    (hgoes : WorkStealing.returns s.queues (.step w b) = [] → out = [])
    (hk : ∀ q tasks, WorkStealing.Ends s.queues q w tasks →
      WorkStealing.returns s.queues (.step w b) = tasks → k { s with queues := q } tasks = some t →
      ∃ r : Worker n T, t = setWorker { s with queues := q } w r ∧ r.pc.call = .idle ∧
        (holding (s.worker w) : Multiset T) + tasks = out + holding r)
    (hs : continueCall s w b k = some t) : Moves s t w [] out := by
  obtain ⟨q, hq, hs⟩ := Option.bind_eq_some_iff.1 hs
  obtain ⟨tasks, he, hi', hst⟩ := WorkStealing.stored_stepPc hi hok hq
  have hret := he.returns hq
  split at hs
  · next hidle =>
    rw [he.returned, List.drop_left] at hs
    obtain ⟨r, rfl, hcall, hbal⟩ := hk q tasks he hret hs
    refine moves_returned he hidle hst rfl rfl hcall ?_
    rw [Multiset.coe_nil, zero_add]
    exact hbal
  · next hne =>
    cases hs
    have htasks := (he.inside hne).1
    rw [hgoes (hret.trans htasks)]
    exact moves_inside hi' hc he hne hst (Function.update_eq_self w s.worker).symm rfl rfl rfl

/-- The same of a push. -/
theorem moves_continuePush {published : Bool} {p : Bool → Pc n T}
    {k : State n R T → Bool → State n R T} (hi : WorkStealing.Inv s.queues)
    (hok : WorkStealing.NoWrap s.queues (.step w b) s.queues)
    (hc : (s.queues.pc w).kind = (s.worker w).pc.call) (hpush : (s.worker w).pc.call = .push)
    (hp : ∀ published, (p published).call = .push ∧
      holding { s.worker w with pc := p published } = holding (s.worker w))
    (hk : ∀ q published, ∃ r : Worker n T,
      k { s with queues := q } published = setWorker { s with queues := q } w r ∧
        r.pc.call = .idle ∧ holding r = holding (s.worker w))
    (hs : continuePush s w b published p k = some t) : Moves s t w [] [] := by
  obtain ⟨q, hq, rfl⟩ := Option.map_eq_some_iff.1 hs
  obtain ⟨tasks, he, hi', hst⟩ := WorkStealing.stored_stepPc hi hok hq
  have htasks := he.none (.inr (hc.trans hpush))
  dsimp only
  split
  · next hidle =>
    obtain ⟨r, hr, hcall, hhold⟩ := hk q (published || q.global.num != s.queues.global.num)
    rw [hr]
    refine moves_returned he hidle hst rfl rfl hcall ?_
    rw [htasks, hhold, Multiset.coe_nil, add_zero]
  · next hne =>
    obtain ⟨hcall, hhold⟩ := hp (published || q.global.num != s.queues.global.num)
    exact moves_inside hi' hc he hne hst rfl rfl (hcall.trans hpush.symm) hhold

/-! ### Steps -/

theorem After.plain (k : After) : (k.pc : Pc n T).plain := by
  cases k with
  | task => rfl
  | nextTask => rfl
  | loop => rfl
  | wait => rfl

theorem moves_nextLocalTask {interval : Bool} (hi : WorkStealing.Inv s.queues)
    (hc : (s.queues.pc w).kind = (s.worker w).pc.call) (hp : (s.worker w).pc.plain)
    (hs : nextLocalTask s w interval = some t) :
    Moves s t w [] (s.worker w).lifoSlot.toList := by
  unfold nextLocalTask at hs
  cases hl : (s.worker w).lifoSlot with
  | some task =>
    rw [hl] at hs
    cases hs
    refine moves_setWorker hc rfl rfl ?_ ?_
    · rw [Pc.call_plain hp]
      rfl
    · rw [holding_plain hp, hl]
      rfl
  | none =>
    rw [hl] at hs
    refine moves_startCall (c := .popHead) hi rfl rfl ?_ hs
    rw [holding_plain hp, hl]
    show (_ : Multiset T) = _ + ((s.worker w).lifoSlot.toList : Multiset T) + _
    rw [hl]
    rfl

theorem moves_noRemoteTask {k : Remote} (hi : WorkStealing.Inv s.queues)
    (hc : (s.queues.pc w).kind = (s.worker w).pc.call) (hp : (s.worker w).pc.plain)
    (hs : noRemoteTask s w k = some t) :
    Moves s t w [] (k.otherwise (s.worker w)) := by
  cases k with
  | interval => exact moves_nextLocalTask hi hc hp hs
  | noRoom =>
    cases hs
    exact moves_plain hc hp rfl rfl rfl rfl
  | steal =>
    cases hs
    exact moves_plain hc hp rfl rfl rfl rfl

theorem moves_remotePop {config : Config} {k : Remote} (hi : WorkStealing.Inv s.queues)
    (hc : (s.queues.pc w).kind = (s.worker w).pc.call) (hpc : (s.worker w).pc = .remotePop k)
    (hs : stepPc config s w b = some t) : Moves s t w [] (taken config s (.step w b)) := by
  simp only [stepPc, hpc] at hs
  simp only [taken, hpc]
  obtain ⟨q, hq, hs⟩ := Option.bind_eq_some_iff.1 hs
  have hpcs : q.pc = s.queues.pc := by
    cases hq
    rfl
  have hret : q.returned = s.queues.returned ++ s.queues.global.pop.1.toList := by
    cases hq
    rfl
  obtain ⟨hi', hst⟩ := WorkStealing.stored_step (a := .globalPop) hi trivial hq hret
  have hplain : (s.worker w).pc.plain := by
    rw [hpc]
    rfl
  have hc' : (q.pc w).kind = (s.worker w).pc.call := by rw [hpcs, hc]
  cases hpop : s.queues.global.pop.1 with
  | some task =>
    rw [hpop] at hs hst
    cases hs
    have hm : Moves { s with queues := q } (goTo { s with queues := q } w .runTask) w [] [] :=
      moves_plain hc' hplain rfl rfl rfl rfl
    refine hm.after hpcs hst ?_
    simp [WorkStealing.Act.hands]
  | none =>
    rw [hpop] at hs hst
    have hm := moves_noRemoteTask (s := { s with queues := q }) hi' hc' hplain hs
    refine hm.after hpcs hst ?_
    show (0 + 0 + (k.otherwise (s.worker w) : Multiset T)) = 0 + 0 + _
    rfl

theorem moves_popN {config : Config} {m : Nat} (hi : WorkStealing.Inv s.queues)
    (hc : (s.queues.pc w).kind = (s.worker w).pc.call) (hpc : (s.worker w).pc = .popN m)
    (hs : stepPc config s w b = some t) : Moves s t w [] (taken config s (.step w b)) := by
  simp only [stepPc, hpc] at hs
  simp only [taken, hpc]
  obtain ⟨q, hq, hs⟩ := Option.bind_eq_some_iff.1 hs
  have hpcs : q.pc = s.queues.pc := by
    cases hq
    rfl
  have hret : q.returned = s.queues.returned ++ (s.queues.global.popN m).1 := by
    cases hq
    rfl
  obtain ⟨hi', hst⟩ := WorkStealing.stored_step (a := .globalPopN m) hi trivial hq hret
  have hplain : (s.worker w).pc.plain := by
    rw [hpc]
    rfl
  have hc' : (q.pc w).kind = (s.worker w).pc.call := by rw [hpcs, hc]
  generalize (s.queues.global.popN m).1 = fetched at hs hst ⊢
  split at hs
  · cases hs
    have hm : Moves { s with queues := q } (goTo { s with queues := q } w .toSearching) w [] [] :=
      moves_plain hc' hplain rfl rfl rfl rfl
    refine hm.after hpcs hst ?_
    simp [WorkStealing.Act.hands]
  · cases hs
    have hm : Moves { s with queues := q } (goTo { s with queues := q } w .runTask) w [] [] :=
      moves_plain hc' hplain rfl rfl rfl rfl
    refine hm.after hpcs hst ?_
    simp [WorkStealing.Act.hands]
  · next task tasks _ =>
    -- the others are handed in again
    have hm : Moves { s with queues := q } t w tasks [] := by
      refine moves_startCall (c := .batchHead tasks) hi' rfl rfl ?_ hs
      show (tasks : Multiset T) + (holding (s.worker w) : Multiset T) =
        0 + ((s.worker w).lifoSlot.toList : Multiset T) + tasks
      rw [holding_plain hplain]
      abel
    refine hm.after hpcs hst ?_
    show ((0 : Multiset T) + (task :: tasks : List T) + 0) = tasks + 0 + ([task] : List T)
    rw [show ((task :: tasks : List T) : Multiset T) = ([task] : List T) + (tasks : Multiset T) from rfl]
    abel

theorem moves_delivered {k : After} {published : Bool}
    (hc : (s.queues.pc w).kind = (s.worker w).pc.call)
    (hpc : (s.worker w).pc = .deliver k [] published) :
    Moves s (delivered s w k published) w [] [] := by
  have hhold : holding (s.worker w) = (s.worker w).lifoSlot.toList := by
    rw [holding, hpc]
    rfl
  have hgo : ∀ p : Pc n T, p.plain → Moves s (goTo s w p) w [] [] := by
    intro p hp
    refine moves_setWorker hc rfl rfl ?_ ?_
    · rw [hpc]
      exact Pc.call_plain hp
    · rw [hhold, holding_plain (r := { s.worker w with pc := p }) hp]
  unfold delivered
  split
  · exact hgo _ rfl
  · split
    · exact hgo _ k.plain
    · exact hgo _ rfl

/-- **A step of the run loop.** -/
theorem stepPc_moves {config : Config} (hi : WorkStealing.Inv s.queues)
    (hok : WorkStealing.NoWrap s.queues (.step w b) s.queues)
    (hc : (s.queues.pc w).kind = (s.worker w).pc.call) (hthrown : (t.worker w).pc ≠ .thrown)
    (hs : stepPc config s w b = some t) : Moves s t w [] (taken config s (.step w b)) := by
  have hs' := hs
  unfold stepPc at hs
  cases hpc : (s.worker w).pc with
  | loop =>
    simp only [hpc] at hs
    simp only [taken, hpc]
    cases hs
    exact moves_plain hc (by rw [hpc]; rfl) rfl rfl (plain_ite rfl rfl) rfl
  | arrive k | wakeUpOne stage k | fastrand | task | thrown =>
    simp only [hpc] at hs
    cases hs
  | deliver k tasks published =>
    cases tasks with
    | nil =>
      simp only [hpc] at hs
      simp only [taken, hpc]
      cases hs
      exact moves_delivered hc hpc
    | cons task tasks =>
      simp only [hpc] at hs
      simp only [taken, hpc]
      refine moves_startCall (c := .pushHead task) hi rfl rfl ?_ hs
      rw [holding, hpc]
      show (0 : Multiset T) + ([task] ++ tasks ++ (s.worker w).lifoSlot.toList : List T) =
        0 + (tasks ++ (s.worker w).lifoSlot.toList : List T) + ([task] : List T)
      simp only [← Multiset.coe_add]
      abel
  | delivering k tasks published =>
    simp only [hpc] at hs
    simp only [taken, hpc]
    refine moves_continuePush hi hok hc (by rw [hpc]; rfl) (fun published => ⟨rfl, ?_⟩)
      (fun q published => ⟨_, rfl, rfl, ?_⟩) hs
    · rw [holding, holding, hpc]
    · rw [holding, holding, hpc]
  | scheduleLocal task published =>
    simp only [hpc] at hs
    simp only [taken, hpc]
    refine moves_continuePush hi hok hc (by rw [hpc]; rfl) (fun published => ⟨rfl, ?_⟩)
      (fun q published => ⟨_, rfl, rfl, ?_⟩) hs
    · rw [holding, holding, hpc]
    · rw [holding, holding, hpc]
      rfl
  | notifyHead k published =>
    simp only [hpc] at hs
    simp only [taken, hpc]
    cases hs
    exact moves_plain hc (by rw [hpc]; rfl) rfl rfl rfl rfl
  | notifyTail k published head =>
    simp only [hpc] at hs
    simp only [taken, hpc]
    cases hs
    exact moves_plain hc (by rw [hpc]; rfl) rfl rfl (plain_ite rfl k.plain) rfl
  | nextTask =>
    simp only [hpc] at hs
    simp only [taken, hpc]
    split at hs
    · next hdue =>
      cases hs
      rw [if_pos hdue]
      exact moves_plain hc (by rw [hpc]; rfl) rfl rfl rfl rfl
    · next hdue =>
      rw [if_neg hdue]
      exact moves_nextLocalTask hi hc (by rw [hpc]; rfl) hs
  | remoteEmpty k =>
    simp only [hpc] at hs
    simp only [taken, hpc]
    split at hs
    · next hempty =>
      rw [if_pos hempty]
      exact moves_noRemoteTask hi hc (by rw [hpc]; rfl) hs
    · next hempty =>
      cases hs
      rw [if_neg hempty]
      exact moves_plain hc (by rw [hpc]; rfl) rfl rfl rfl rfl
  | remotePop k => exact moves_remotePop hi hc hpc hs'
  | popping interval =>
    simp only [hpc] at hs
    simp only [taken, hpc]
    refine moves_continueCall hi hok hc id (fun q tasks _ hret hk => ?_) hs
    rw [hret]
    split at hk
    · cases hk
      refine ⟨_, rfl, Pc.call_plain (plain_ite rfl rfl), ?_⟩
      exact holding_returned (by rw [holding, hpc]) (plain_ite rfl rfl) []
    · cases hk
      exact ⟨_, rfl, rfl, holding_returned (by rw [holding, hpc]) rfl _⟩
  | globalEmpty =>
    simp only [hpc] at hs
    simp only [taken, hpc]
    split at hs
    · cases hs
      exact moves_plain hc (by rw [hpc]; rfl) rfl rfl rfl rfl
    · refine moves_startCall (c := .remHead) hi rfl rfl ?_ hs
      rw [holding, holding, hpc]
      exact (add_zero _).symm
  | remaining =>
    simp only [hpc] at hs
    simp only [taken, hpc]
    refine moves_continueCall hi hok hc (fun _ => rfl) (fun q tasks he _ hk => ?_) hs
    have htasks := he.none (.inl (hc.trans (by rw [hpc]; rfl)))
    cases hk
    refine ⟨_, rfl, Pc.call_plain (plain_ite rfl rfl), ?_⟩
    rw [htasks]
    exact holding_returned (by rw [holding, hpc]) (plain_ite rfl rfl) []
  | globalSize m =>
    simp only [hpc] at hs
    simp only [taken, hpc]
    cases hs
    exact moves_plain hc (by rw [hpc]; rfl) rfl rfl rfl rfl
  | popN m => exact moves_popN hi hc hpc hs'
  | pushBatch =>
    simp only [hpc] at hs
    simp only [taken, hpc]
    refine moves_continueCall hi hok hc (fun _ => rfl) (fun q tasks he _ hk => ?_) hs
    split at hk
    · cases hk
      exact ⟨_, rfl, rfl, holding_returned (by rw [holding, hpc]) rfl _⟩
    · cases hk
      rw [goTo, setWorker_worker_self] at hthrown
      exact absurd rfl hthrown
  | toSearching =>
    simp only [hpc] at hs
    simp only [taken, hpc]
    repeat' split at hs
    all_goals
      cases hs
      exact moves_plain hc (by rw [hpc]; rfl) rfl rfl rfl rfl
  | incSearching =>
    simp only [hpc] at hs
    simp only [taken, hpc]
    cases hs
    exact moves_plain hc (by rw [hpc]; rfl) rfl rfl rfl rfl
  | steal start i =>
    simp only [hpc] at hs
    simp only [taken, hpc]
    repeat' split at hs
    · cases hs
      exact moves_plain hc (by rw [hpc]; rfl) rfl rfl rfl rfl
    · refine moves_startCall hi rfl rfl ?_ hs
      rw [holding, holding, hpc]
      exact (add_zero _).symm
    · cases hs
      exact moves_plain hc (by rw [hpc]; rfl) rfl rfl rfl rfl
  | stealing start i =>
    simp only [hpc] at hs
    simp only [taken, hpc]
    refine moves_continueCall hi hok hc id (fun q tasks _ hret hk => ?_) hs
    rw [hret]
    split at hk
    · cases hk
      exact ⟨_, rfl, rfl, holding_returned (by rw [holding, hpc]) rfl _⟩
    · cases hk
      exact ⟨_, rfl, rfl, holding_returned (by rw [holding, hpc]) rfl _⟩
  | runTask =>
    simp only [hpc] at hs
    simp only [taken, hpc]
    split at hs
    · cases hs
      exact moves_plain hc (by rw [hpc]; rfl) rfl rfl (plain_ite rfl rfl) rfl
    · cases hs
      exact moves_plain hc (by rw [hpc]; rfl) rfl rfl rfl rfl
  | sleepHead | sleepTail head | scanTail i head | scanGlobal | wokenHead published
  | wokenTail published head =>
    simp only [hpc] at hs
    simp only [taken, hpc]
    cases hs
    exact moves_plain hc (by rw [hpc]; rfl) rfl rfl (plain_ite rfl rfl) rfl
  | toSleeping =>
    simp only [hpc] at hs
    simp only [taken, hpc]
    split at hs
    · cases hs
    · cases hs
      exact moves_plain hc (by rw [hpc]; rfl) rfl rfl (plain_ite rfl rfl) rfl
  | scanHead i =>
    simp only [hpc] at hs
    simp only [taken, hpc]
    cases hs
    refine moves_plain hc (by rw [hpc]; rfl) rfl rfl ?_ rfl
    dsimp only
    split
    · rfl
    · rfl
  | remove published =>
    simp only [hpc] at hs
    simp only [taken, hpc]
    split at hs
    · cases hs
    · cases hs
      exact moves_plain hc (by rw [hpc]; rfl) rfl rfl rfl rfl
  | contains published =>
    simp only [hpc] at hs
    simp only [taken, hpc]
    repeat' split at hs
    · cases hs
    · cases hs
      exact moves_plain hc (by rw [hpc]; rfl) rfl rfl rfl rfl
    · cases hs
      exact moves_plain hc (by rw [hpc]; rfl) rfl rfl rfl rfl

variable [DecidableEq R] {config : Config} {a : Act n R T}

/-- Any other step of a worker. -/
theorem step_moves (hi : WorkStealing.Inv s.queues) (hc : Calls s) (ha : a.worker = some w)
    (hb : ∀ b, a ≠ .step w b) (hs : step config s a = some t) :
    Moves s t w (scheduled a) (taken config s a) := by
  have hc := hc w
  cases a with
  | step v b =>
    cases ha
    exact absurd rfl (hb b)
  | arrive v tasks count =>
    cases ha
    simp only [step] at hs
    split at hs
    · next k hpc =>
      split at hs
      · cases hs
      · next hcount =>
        split at hs
        · next hzero =>
          cases hs
          have htasks : tasks = [] := List.eq_nil_of_length_eq_zero (by omega)
          rw [scheduled, htasks]
          refine moves_plain hc (by rw [hpc]; rfl) rfl rfl ?_ rfl
          dsimp only
          split
          · rfl
          · rfl
          · rfl
        · cases hs
          refine moves_setWorker hc rfl rfl ?_ ?_
          · rw [hpc]
            rfl
          · rw [holding, hpc]
            show (tasks : Multiset T) + ((s.worker w).lifoSlot.toList : Multiset T) =
              0 + (tasks ++ (s.worker w).lifoSlot.toList : List T)
            rw [← Multiset.coe_add, zero_add]
    · cases hs
  | fastrand v start =>
    cases ha
    simp only [step] at hs
    split at hs
    · next hpc =>
      cases hs
      exact moves_plain hc (by rw [hpc]; rfl) rfl rfl rfl rfl
    · cases hs
  | wakeUpOne v first =>
    cases ha
    simp only [step] at hs
    split at hs
    · next stage k hpc =>
      obtain ⟨r, -, rfl⟩ := Option.map_eq_some_iff.1 hs
      refine moves_plain hc (by rw [hpc]; rfl) rfl rfl ?_ rfl
      cases r.2 with
      | none => exact k.plain
      | some stage => rfl
    · cases hs
  | scheduleLocal v task =>
    cases ha
    simp only [step] at hs
    split at hs
    · next hpc =>
      split at hs
      · next old hl =>
        refine moves_startCall (c := .pushHead old) hi rfl rfl ?_ hs
        rw [holding, holding, hpc]
        simp only [hl]
        exact (congrArg (· + _) (zero_add _)).symm
      · next hl =>
        cases hs
        refine moves_setWorker hc rfl rfl (by rw [hpc]) ?_
        rw [holding, holding, hpc]
        simp only [hl]
        exact add_comm _ _
    · cases hs
  | scheduleRemote v tasks =>
    cases ha
    simp only [step] at hs
    split at hs
    · next hpc =>
      obtain ⟨u, hu, rfl⟩ := Option.map_eq_some_iff.1 hs
      obtain ⟨q, hq, rfl⟩ := Option.map_eq_some_iff.1 hu
      have hpcs : q.pc = s.queues.pc := by
        cases hq
        rfl
      obtain ⟨-, hst⟩ := WorkStealing.stored_step (a := .globalPushBatch tasks) (Y := []) hi trivial
        hq (by cases hq; exact (List.append_nil _).symm)
      have hm : Moves { s with queues := q }
          (goTo { s with queues := q } w (.wakeUpOne .check .task)) w [] [] :=
        moves_plain (by rw [← hc, ← hpcs]) (by rw [hpc]; rfl) rfl rfl rfl rfl
      refine hm.after hpcs hst ?_
      show ((tasks : Multiset T) + 0 + 0) = 0 + tasks + 0
      abel
    · cases hs
  | suspend v =>
    cases ha
    simp only [step] at hs
    split at hs
    · next hpc =>
      cases hs
      exact moves_plain hc (by rw [hpc]; rfl) rfl rfl rfl rfl
    · cases hs
  | remote r tasks | remoteWakeUpOne r first => cases ha

/-- A step of another thread. -/
theorem aside_waiting (hi : WorkStealing.Inv s.queues) (hc : Calls s) (ha : a.worker = none)
    (hs : step config s a = some t) :
    Calls t ∧ (scheduled a : Multiset T) + waiting s = taken config s a + waiting t := by
  cases a with
  | remote r tasks =>
    simp only [step] at hs
    split at hs
    · obtain ⟨u, hu, rfl⟩ := Option.map_eq_some_iff.1 hs
      obtain ⟨q, hq, rfl⟩ := Option.map_eq_some_iff.1 hu
      obtain ⟨-, hst⟩ := WorkStealing.stored_step (a := .globalPushBatch tasks) (Y := []) hi trivial
        hq (by cases hq; exact (List.append_nil _).symm)
      have hst : WorkStealing.stored s.queues + tasks = WorkStealing.stored q + ([] : List T) := hst
      refine ⟨fun w => ?_, ?_⟩
      · cases hq
        exact hc w
      · show (tasks : Multiset T) + ((∑ w, (holding (s.worker w) : Multiset T)) +
            WorkStealing.stored s.queues) = ([] : List T) +
          ((∑ w, (holding (s.worker w) : Multiset T)) + WorkStealing.stored q)
        calc (tasks : Multiset T) + ((∑ w, (holding (s.worker w) : Multiset T)) +
              WorkStealing.stored s.queues)
            = (∑ w, (holding (s.worker w) : Multiset T)) +
                (WorkStealing.stored s.queues + tasks) := by abel
          _ = (∑ w, (holding (s.worker w) : Multiset T)) +
                (WorkStealing.stored q + ([] : List T)) := by rw [hst]
          _ = ([] : List T) + ((∑ w, (holding (s.worker w) : Multiset T)) +
                WorkStealing.stored q) := by abel
    · cases hs
  | remoteWakeUpOne r first =>
    simp only [step] at hs
    split at hs
    · obtain ⟨r, -, rfl⟩ := Option.map_eq_some_iff.1 hs
      exact ⟨hc, rfl⟩
    · cases hs
  | _ => cases ha

end

end MultiThread

/-! ## Top theorem -/

namespace NextTask

open MultiThread

variable {n : Nat} {R T : Type}

def scheduled (_ : State n R T) : Act n R T → List T
  | .scheduler a => MultiThread.scheduled a
  | .close => []

def taken (config : Config) (s : State n R T) : Act n R T → List T
  | .scheduler a => MultiThread.taken config s.scheduler a
  | .close => []

variable [DecidableEq R] {config : Config} {s t : State n R T} {a : Act n R T}

theorem Inv.flow (h : Inv s) (hc : Calls s.scheduler) (hs : NextTask.step config s a = some t)
    (hok : NoWrap s a t) :
    Calls t.scheduler ∧ (scheduled s a : Multiset T) + waiting s.scheduler =
      taken config s a + waiting t.scheduler := by
  have ht := h.step hs hok
  cases a with
  | close =>
    simp only [NextTask.step] at hs
    obtain ⟨q, hq, rfl⟩ := Option.map_eq_some_iff.1 hs
    cases hq
    exact ⟨hc, rfl⟩
  | scheduler a =>
    simp only [NextTask.step] at hs
    obtain ⟨u, hu, rfl⟩ := Option.map_eq_some_iff.1 hs
    cases ha : a.worker with
    | none => exact aside_waiting h.queues hc ha hu
    | some w =>
      have hmoves : Moves s.scheduler u w (MultiThread.scheduled a)
          (MultiThread.taken config s.scheduler a) := by
        by_cases hb : ∃ b, a = .step w b
        · obtain ⟨b, rfl⟩ := hb
          refine stepPc_moves h.queues hok (hc w) (fun hp => ?_) hu
          have href := ht.refilling w
          rw [State.pc, hp] at href
          exact href
        · exact step_moves h.queues hc ha (fun b he => hb ⟨b, he⟩) hu
      exact ⟨hmoves.calls hc, hmoves.waiting⟩

/-- **Every task once.**  For any number of workers and other threads, and every
interleaving of any length in which `head_` does not advance `2^32` between a thief's load
and its CAS: the tasks that have been scheduled are those that `next_task` and
`steal_task` have returned to a worker, and those in one of the places of `waiting`.
None is dropped before `close`. -/
theorem scheduler_conserves [Inhabited T] {as : List (Act n R T)}
    (hr : run (step config) init as = some t) (hok : EachStep (step config) NoWrap init as) :
    (emitted (step config) scheduled init as : Multiset T) =
        emitted (step config) (taken config) init as + waiting t.scheduler ∧
      (t.scheduler.queues.global.isClosed = false → t.scheduler.queues.dropped = []) := by
  have hinit : Inv (init : State n R T) ∧ Calls (init : State n R T).scheduler :=
    ⟨inv_init, fun _ => rfl⟩
  have hkeep : ∀ (s : State n R T) a t, Inv s ∧ Calls s.scheduler → step config s a = some t →
      NoWrap s a t → Inv t ∧ Calls t.scheduler :=
    fun _ _ _ hi hs hok => ⟨hi.1.step hs hok, (hi.1.flow hi.2 hs hok).1⟩
  let places : State n R T → Multiset T := fun s => waiting s.scheduler
  have hbal : (emitted (step config) scheduled init as : Multiset T) + places init =
      emitted (step config) (taken config) init as + places t := by
    refine run_conserves _ hkeep ?_ hinit hr hok
    intro s a t hi hs hok
    exact (hi.1.flow hi.2 hs hok).2
  have hempty : places init = 0 := by
    simp [places, waiting, holding, WorkStealing.stored, init, MultiThread.init, WorkStealing.init,
      WorkStealing.live, WorkStealing.hand, LocalQueue.empty]
  rw [hempty, add_zero] at hbal
  exact ⟨hbal, (run_inv _ hkeep hinit hr hok).1.queues.dropped⟩

/-- Five tasks come from another thread; the worker takes three of them and runs one,
which schedules two more. -/
def flowRun (w : Fin n) : List (Act n Unit Nat) :=
  refillRun w ++ [.scheduler (.step w false), .scheduler (.scheduleLocal w 6),
    .scheduler (.scheduleLocal w 7)]

theorem scheduler_conserves_flowRun :
    ∃ t : State 2 Unit Nat, run (step {}) init (flowRun ⟨0, Nat.zero_lt_two⟩) = some t ∧
      emitted (step {}) (taken {}) (init : State 2 Unit Nat) (flowRun ⟨0, Nat.zero_lt_two⟩) = [1] ∧
      (emitted (step {}) scheduled init (flowRun ⟨0, Nat.zero_lt_two⟩) : Multiset Nat) =
          emitted (step {}) (taken {}) init (flowRun ⟨0, Nat.zero_lt_two⟩) + waiting t.scheduler ∧
        (t.scheduler.queues.global.isClosed = false → t.scheduler.queues.dropped = []) := by
  obtain ⟨t, ht, h1⟩ := run_eval (step {}) (init : State 2 Unit Nat)
    (flowRun ⟨0, Nat.zero_lt_two⟩) (fun _ => emitted (step {}) (taken {}) (init : State 2 Unit Nat)
      (flowRun ⟨0, Nat.zero_lt_two⟩) = [1]) (by decide +kernel)
  exact ⟨t, ht, h1, scheduler_conserves ht (by decide +kernel)⟩

end NextTask

end Kosio.Runtime
