import Kosio.Runtime.Scheduler.Conservation
import Kosio.Runtime.Scheduler.WakeUp

/-!
# Scheduler steps as queue steps

A step of the run loop is either the next step of the worker's queue call or a few
calls that start (`stepPc_acts`), so what every queue step keeps the scheduler
keeps too.  And what a worker has read of its queue stays true, on the safe side,
while others work: only `steal` moves, and forward (`Rests`).
-/

namespace Kosio.Runtime

open Steps

/-! ## Queue steps -/

namespace WorkStealing

variable {W T : Type} [DecidableEq W] {s t u : State W T} {v w : W}

theorem setPc_pc_self (s : State W T) (w : W) (p : Pc W T) : (setPc s w p).pc w = p :=
  Function.update_self ..

theorem setQueue_queue_self (s : State W T) (w : W) (q : LocalQueue T) :
    (setQueue s w q).queue w = q := Function.update_self ..

/-- What a step by another thread leaves of a worker's queue. -/
structure Rests (s t : State W T) (v : W) : Prop where
  pc : t.pc v = s.pc v
  last : (t.queue v).last = (s.queue v).last
  steal : (s.queue v).steal ≤ (t.queue v).steal

omit [DecidableEq W] in
theorem Rests.refl (s : State W T) (v : W) : Rests s s v := ⟨rfl, rfl, Nat.le_refl _⟩

omit [DecidableEq W] in
theorem Rests.trans (h : Rests s t v) (h' : Rests t u v) : Rests s u v :=
  ⟨h'.pc.trans h.pc, h'.last.trans h.last, h.steal.trans h'.steal⟩

/-- A call of `w` that starts, or a call on the global queue. -/
def Act.begins (w : W) : Act W T → Prop
  | .step _ _ => False
  | .remainingSlots v | .pushBatch v _ | .pushBackOrOverflow v _ | .pop v | .stealInto _ v => v = w
  | _ => True

theorem rests_setPc {p : Pc W T} (hv : v ≠ w) (hpc : t.pc = Function.update s.pc w p)
    (hq : t.queue = s.queue) : Rests s t v := by
  refine ⟨?_, by rw [hq], by rw [hq]⟩
  rw [hpc]
  exact Function.update_of_ne hv ..

theorem call_rests {p : Pc W T} (hv : v ≠ w) (hs : call s w p = some t) : Rests s t v := by
  rw [call_eq hs]
  exact rests_setPc hv rfl rfl

theorem begins_rests {a : Act W T} (ha : a.begins w) (hv : v ≠ w) (hs : step s a = some t) :
    Rests s t v := by
  cases a with
  | remainingSlots x =>
    cases ha
    exact call_rests hv hs
  | pushBatch x tasks =>
    cases ha
    simp only [step, Option.ite_none_right_eq_some] at hs
    rw [call_eq hs.2]
    exact rests_setPc hv rfl rfl
  | pushBackOrOverflow x task =>
    cases ha
    rw [call_eq hs]
    exact rests_setPc hv rfl rfl
  | pop x =>
    cases ha
    exact call_rests hv hs
  | stealInto src x =>
    cases ha
    simp only [step, Option.ite_none_left_eq_some] at hs
    exact call_rests hv hs.2
  | step x b => exact ha.elim
  | _ =>
    cases hs
    exact ⟨rfl, rfl, Nat.le_refl _⟩

theorem rests_setQueue {x : W} {q : LocalQueue T} {p : Pc W T} (hv : v ≠ w)
    (hpc : t.pc = Function.update s.pc w p) (hq : t.queue = Function.update s.queue x q)
    (hlast : v = x → q.last = (s.queue x).last)
    (hsteal : v = x → (s.queue x).steal ≤ q.steal) : Rests s t v := by
  refine ⟨?_, ?_, ?_⟩
  · rw [hpc]
    exact Function.update_of_ne hv ..
  · rw [hq, Function.update_apply]
    split
    · next he => rw [hlast he, he]
    · rfl
  · rw [hq, Function.update_apply]
    split
    · next he =>
      rw [he]
      exact hsteal he
    · exact Nat.le_refl _

/-- A step of `w` moves of other queues `steal` only. -/
theorem stepPc_rests (hg : ∀ x, Geo (s.queue x)) {b : Bool} (hv : v ≠ w)
    (hs : stepPc s w b = some t) : Rests s t v := by
  unfold stepPc at hs
  cases hpc : s.pc w
  all_goals simp only [hpc] at hs
  all_goals repeat' split at hs
  all_goals cases hs
  all_goals first
    | exact rests_setPc hv rfl rfl
    | exact rests_setQueue hv rfl rfl (fun he => absurd he hv) fun he => absurd he hv
    | exact rests_setQueue hv rfl rfl (fun _ => rfl) fun _ => Nat.le_refl _
    | exact rests_setQueue hv rfl rfl (fun _ => rfl) fun _ => (hg _).steal_le

/-- Calls start, one after the other. -/
def Begun (s t : State W T) (w : W) : Prop :=
  ∃ as, run step s as = some t ∧ ∀ a ∈ as, a.begins w

theorem Begun.refl (s : State W T) (w : W) : Begun s s w := ⟨[], rfl, nofun⟩

theorem Begun.one {a : Act W T} (ha : a.begins w) (hs : step s a = some t) : Begun s t w := by
  refine ⟨[a], (run_one s a).trans hs, fun x hx => ?_⟩
  rw [List.mem_singleton.1 hx]
  exact ha

theorem Begun.trans (h : Begun s t w) (h' : Begun t u w) : Begun s u w := by
  obtain ⟨as, hr, ha⟩ := h
  obtain ⟨bs, hr', hb⟩ := h'
  refine ⟨as ++ bs, (run_append ..).2 ⟨t, hr, hr'⟩, fun x hx => ?_⟩
  obtain hx | hx := List.mem_append.1 hx
  · exact ha x hx
  · exact hb x hx

theorem Begun.rests (h : Begun s t w) (hv : v ≠ w) : Rests s t v := by
  obtain ⟨as, hr, ha⟩ := h
  induction as generalizing s with
  | nil =>
    cases hr
    exact Rests.refl ..
  | cons a as ih =>
    obtain ⟨u, hu, hr⟩ := (run_cons ..).1 hr
    have hfirst := begins_rests (ha a List.mem_cons_self) hv hu
    exact hfirst.trans (ih hr fun x hx => ha x (List.mem_cons_of_mem _ hx))

theorem Begun.inv [Fintype W] (h : Begun s t w) (hi : Inv s) : Inv t := by
  obtain ⟨as, hr, ha⟩ := h
  induction as generalizing s with
  | nil =>
    cases hr
    exact hi
  | cons a as ih =>
    obtain ⟨u, hu, hr⟩ := (run_cons ..).1 hr
    have hfree : NoWrap s a u := by
      have := ha a List.mem_cons_self
      cases a with
      | step x b => exact this.elim
      | _ => trivial
    exact ih (keeps_step s a u hi hu hfree).inv hr fun x hx => ha x (List.mem_cons_of_mem _ hx)

/-- The counter of the global queue is its length. -/
theorem step_num {a : Act W T} (h : s.global.num = s.global.tasks.length)
    (hs : step s a = some t) : t.global.num = t.global.tasks.length := by
  have hstarts : ∀ {p}, a.starts = some p → t.global.num = t.global.tasks.length := fun ha => by
    rw [(step_starts ha hs).2]
    exact h
  cases a with
  | step w b => exact (stepPc_local hs).num h
  | globalPush task =>
    cases hs
    exact pushBatch_num h [task]
  | globalPushBatch tasks =>
    cases hs
    exact pushBatch_num h tasks
  | globalPop =>
    cases hs
    cases hg : s.global.tasks <;> simp [hg, h]
  | globalPopN m =>
    cases hs
    simp [h]
  | globalClose =>
    cases hs
    exact h
  | _ => exact hstarts rfl

theorem Begun.num (h : Begun s t w) (hn : s.global.num = s.global.tasks.length) :
    t.global.num = t.global.tasks.length := by
  obtain ⟨as, hr, -⟩ := h
  exact run_inv (fun s => s.global.num = s.global.tasks.length)
    (fun _ _ _ h hs (_ : True) => step_num h hs) hn hr (eachStep_true s as)

end WorkStealing

/-! ## Scheduler steps -/

namespace MultiThread

variable {n : Nat} {R T : Type} {s t : State n R T} {w : Fin n} {b : Bool}

/-- Between the look at the global queue and the end of the push. -/
def Pc.refilling : Pc n T → Bool
  | .remaining | .globalSize _ | .popN _ | .pushBatch | .thrown => true
  | _ => false

/-- Where a step may lead to that. -/
def Pc.beforeRefill : Pc n T → Bool
  | .globalEmpty => true
  | p => p.refilling

theorem Pc.refilling_of {p : Pc n T} (h : p.beforeRefill = false) : p.refilling = false := by
  cases p <;> first | rfl | exact h

/-- A step of `w` that is no step of a call. -/
structure Starts (s t : State n R T) (w : Fin n) : Prop where
  queues : WorkStealing.Begun s.queues t.queues w
  others : ∀ v ≠ w, t.worker v = s.worker v
  elsewhere : (s.worker w).pc.beforeRefill = false → (t.worker w).pc.refilling = false

theorem starts_of {r : Worker n T} (hw : t.worker = Function.update s.worker w r)
    (hq : WorkStealing.Begun s.queues t.queues w)
    (hr : (s.worker w).pc.beforeRefill = false → r.pc.refilling = false) : Starts s t w := by
  refine ⟨hq, fun v hv => ?_, fun hp => ?_⟩
  · rw [hw]
    exact Function.update_of_ne hv ..
  · rw [hw, Function.update_self]
    exact hr hp

/-- A step that leaves the queues alone. -/
theorem starts_goTo {r : Worker n T} (hw : t.worker = Function.update s.worker w r)
    (hq : t.queues = s.queues)
    (hr : (s.worker w).pc.beforeRefill = false → r.pc.refilling = false) : Starts s t w :=
  starts_of hw (hq ▸ .refl ..) hr

theorem starts_startCall {a : WorkStealing.Act (Fin n) T} {p : Pc n T} (ha : a.begins w)
    (hp : (s.worker w).pc.beforeRefill = false → p.refilling = false)
    (hs : startCall s w a p = some t) : Starts s t w := by
  obtain ⟨q, hq, rfl⟩ := Option.map_eq_some_iff.1 hs
  exact starts_of rfl (.one ha hq) hp

theorem starts_nextLocalTask {interval : Bool} (hs : nextLocalTask s w interval = some t) :
    Starts s t w := by
  unfold nextLocalTask at hs
  split at hs
  · cases hs
    exact starts_goTo rfl rfl fun _ => rfl
  · exact starts_startCall (a := .pop w) rfl (fun _ => rfl) hs

theorem starts_noRemoteTask {k : Remote} (hs : noRemoteTask s w k = some t) : Starts s t w := by
  cases k with
  | interval => exact starts_nextLocalTask hs
  | noRoom =>
    cases hs
    exact starts_goTo rfl rfl fun _ => rfl
  | steal =>
    cases hs
    exact starts_goTo rfl rfl fun _ => rfl

/-- It follows a call on the global queue. -/
theorem Starts.after {a : WorkStealing.Act (Fin n) T} {q : WorkStealing.State (Fin n) T}
    (h : Starts { s with queues := q } t w) (ha : a.begins w)
    (hq : WorkStealing.step s.queues a = some q) : Starts s t w :=
  ⟨(WorkStealing.Begun.one ha hq).trans h.queues, h.others, h.elsewhere⟩

/-- What any step of `w` does. -/
structure Acts (s t : State n R T) (w : Fin n) (b : Bool) : Prop where
  queues : WorkStealing.step s.queues (.step w b) = some t.queues ∨
    WorkStealing.Begun s.queues t.queues w
  others : ∀ v ≠ w, t.worker v = s.worker v
  elsewhere : (s.worker w).pc.beforeRefill = false → (t.worker w).pc.refilling = false

theorem Starts.acts (h : Starts s t w) : Acts s t w b := ⟨Or.inr h.queues, h.others, h.elsewhere⟩

theorem acts_goTo {r : Worker n T} (hw : t.worker = Function.update s.worker w r)
    (hq : t.queues = s.queues) (hr : r.pc.refilling = false) : Acts s t w b :=
  (starts_goTo hw hq fun _ => hr).acts

theorem acts_ite {c : Prop} [Decidable c] {p p' : Pc n T} {r : Worker n T}
    (hw : t.worker = Function.update s.worker w r) (hq : t.queues = s.queues)
    (hr : r.pc = if c then p else p') (hp : p.refilling = false) (hp' : p'.refilling = false) :
    Acts s t w b := by
  refine acts_goTo hw hq ?_
  rw [hr]
  split
  · exact hp
  · exact hp'

theorem acts_of {r : Worker n T} (hw : t.worker = Function.update s.worker w r)
    (hq : WorkStealing.step s.queues (.step w b) = some t.queues)
    (hr : (s.worker w).pc.beforeRefill = false → r.pc.refilling = false) : Acts s t w b := by
  refine ⟨Or.inl hq, fun v hv => ?_, fun hp => ?_⟩
  · rw [hw]
    exact Function.update_of_ne hv ..
  · rw [hw, Function.update_self]
    exact hr hp

theorem acts_continueCall {k : State n R T → List T → Option (State n R T)}
    (hk : ∀ q result u, k { s with queues := q } result = some u → ∃ r : Worker n T,
      u = setWorker { s with queues := q } w r ∧
        ((s.worker w).pc.beforeRefill = false → r.pc.refilling = false))
    (hs : continueCall s w b k = some t) : Acts s t w b := by
  obtain ⟨q, hq, hs⟩ := Option.bind_eq_some_iff.1 hs
  split at hs
  · obtain ⟨r, rfl, hr⟩ := hk q _ t hs
    exact acts_of rfl hq hr
  · cases hs
    exact ⟨Or.inl hq, fun _ _ => rfl, Pc.refilling_of⟩

theorem acts_continuePush {published : Bool} {p : Bool → Pc n T}
    {k : State n R T → Bool → State n R T} (hp : ∀ published, (p published).refilling = false)
    (hk : ∀ q published, ∃ r : Worker n T, k { s with queues := q } published =
      setWorker { s with queues := q } w r ∧ r.pc.refilling = false)
    (hs : continuePush s w b published p k = some t) : Acts s t w b := by
  obtain ⟨q, hq, rfl⟩ := Option.map_eq_some_iff.1 hs
  dsimp only
  split
  · obtain ⟨r, he, hr⟩ := hk q (published || q.global.num != s.queues.global.num)
    rw [he]
    exact acts_of rfl hq fun _ => hr
  · exact acts_of rfl hq fun _ => hp _

theorem After.pc_refilling (k : After) : (k.pc : Pc n T).refilling = false := by cases k <;> rfl

theorem acts_delivered {k : After} {published : Bool} :
    Acts s (delivered s w k published) w b := by
  unfold delivered
  split
  · exact acts_goTo rfl rfl rfl
  · split
    · exact acts_goTo rfl rfl k.pc_refilling
    · exact acts_goTo rfl rfl rfl

/-- `next_task` -/
theorem acts_nextTask {config : Config} (hs : stepPc config s w b = some t)
    (hpc : (s.worker w).pc = .nextTask ∨ (∃ k, (s.worker w).pc = .remoteEmpty k) ∨
      (∃ k, (s.worker w).pc = .remotePop k) ∨ (∃ interval, (s.worker w).pc = .popping interval) ∨
      (s.worker w).pc = .globalEmpty ∨ (s.worker w).pc.refilling) : Acts s t w b := by
  unfold stepPc at hs
  rcases hpc with hpc | ⟨k, hpc⟩ | ⟨k, hpc⟩ | ⟨interval, hpc⟩ | hpc | href
  · simp only [hpc] at hs
    split at hs
    · cases hs
      exact acts_goTo rfl rfl rfl
    · exact (starts_nextLocalTask hs).acts
  · simp only [hpc] at hs
    split at hs
    · exact (starts_noRemoteTask hs).acts
    · cases hs
      exact acts_goTo rfl rfl rfl
  · simp only [hpc] at hs
    obtain ⟨q, hq, hs⟩ := Option.bind_eq_some_iff.1 hs
    refine Starts.acts (Starts.after (a := .globalPop) ?_ trivial hq)
    split at hs
    · cases hs
      exact starts_goTo rfl rfl fun _ => rfl
    · exact starts_noRemoteTask hs
  · simp only [hpc] at hs
    refine acts_continueCall (fun q result u hk => ?_) hs
    split at hk
    · cases hk
      exact ⟨_, rfl, fun _ => by dsimp only; split <;> rfl⟩
    · cases hk
      exact ⟨_, rfl, fun _ => rfl⟩
  · simp only [hpc] at hs
    split at hs
    · cases hs
      exact acts_goTo rfl rfl rfl
    · refine (starts_startCall (a := .remainingSlots w) rfl (fun hp => ?_) hs).acts
      rw [hpc] at hp
      cases hp
  · -- where the step leads is not the matter here
    have hany : ∀ r : Worker n T,
        (s.worker w).pc.beforeRefill = false → r.pc.refilling = false := fun r hp => by
      rw [Pc.refilling_of hp] at href
      cases href
    cases hpc : (s.worker w).pc with
    | remaining =>
      simp only [hpc] at hs
      refine acts_continueCall (fun q result u hk => ?_) hs
      cases hk
      exact ⟨_, rfl, hany _⟩
    | globalSize m =>
      simp only [hpc] at hs
      cases hs
      exact Starts.acts (starts_goTo rfl rfl (hany _))
    | popN m =>
      simp only [hpc] at hs
      obtain ⟨q, hq, hs⟩ := Option.bind_eq_some_iff.1 hs
      refine Starts.acts (Starts.after (a := .globalPopN m) ?_ trivial hq)
      split at hs
      · cases hs
        exact starts_goTo rfl rfl (hany _)
      · cases hs
        exact starts_goTo rfl rfl (hany _)
      · exact starts_startCall (a := .pushBatch w _) rfl (hany { pc := .pushBatch }) hs
    | pushBatch =>
      simp only [hpc] at hs
      refine acts_continueCall (fun q result u hk => ?_) hs
      split at hk
      · cases hk
        exact ⟨_, rfl, hany _⟩
      · cases hk
        exact ⟨_, rfl, hany _⟩
    | thrown => simp only [hpc] at hs; cases hs
    | _ => rw [hpc] at href; cases href

theorem stepPc_acts {config : Config} (hs : stepPc config s w b = some t) : Acts s t w b := by
  have hs' := hs
  unfold stepPc at hs
  cases hpc : (s.worker w).pc with
  | loop =>
    simp only [hpc] at hs
    cases hs
    exact acts_ite rfl rfl rfl rfl rfl
  | arrive k => simp only [hpc] at hs; cases hs
  | deliver k tasks published =>
    cases tasks with
    | nil =>
      simp only [hpc] at hs
      cases hs
      exact acts_delivered
    | cons task tasks =>
      simp only [hpc] at hs
      exact (starts_startCall (a := .pushBackOrOverflow w task) rfl (fun _ => rfl) hs).acts
  | delivering k tasks published =>
    simp only [hpc] at hs
    exact acts_continuePush (fun _ => rfl) (fun _ _ => ⟨_, rfl, rfl⟩) hs
  | notifyHead k published =>
    simp only [hpc] at hs
    cases hs
    exact acts_goTo rfl rfl rfl
  | notifyTail k published head =>
    simp only [hpc] at hs
    cases hs
    exact acts_ite rfl rfl rfl rfl k.pc_refilling
  | wakeUpOne stage k => simp only [hpc] at hs; cases hs
  | nextTask => exact acts_nextTask hs' (Or.inl hpc)
  | remoteEmpty k => exact acts_nextTask hs' (Or.inr (Or.inl ⟨k, hpc⟩))
  | remotePop k => exact acts_nextTask hs' (Or.inr (Or.inr (Or.inl ⟨k, hpc⟩)))
  | popping interval => exact acts_nextTask hs' (Or.inr (Or.inr (Or.inr (Or.inl ⟨_, hpc⟩))))
  | globalEmpty => exact acts_nextTask hs' (Or.inr (Or.inr (Or.inr (Or.inr (Or.inl hpc)))))
  | toSearching =>
    simp only [hpc] at hs
    split at hs
    · cases hs
      exact acts_goTo rfl rfl rfl
    · split at hs <;> cases hs <;> exact acts_goTo rfl rfl rfl
  | incSearching =>
    simp only [hpc] at hs
    cases hs
    exact acts_goTo rfl rfl rfl
  | fastrand => simp only [hpc] at hs; cases hs
  | steal start i =>
    simp only [hpc] at hs
    split at hs
    · split at hs
      · cases hs
        exact acts_goTo rfl rfl rfl
      · exact (starts_startCall (a := .stealInto _ w) rfl (fun _ => rfl) hs).acts
    · cases hs
      exact acts_goTo rfl rfl rfl
  | stealing start i =>
    simp only [hpc] at hs
    refine acts_continueCall (fun q result u hk => ?_) hs
    split at hk <;> cases hk <;> exact ⟨_, rfl, fun _ => rfl⟩
  | runTask =>
    simp only [hpc] at hs
    split at hs <;> cases hs
    · exact acts_ite rfl rfl rfl rfl rfl
    · exact acts_goTo rfl rfl rfl
  | task => simp only [hpc] at hs; cases hs
  | scheduleLocal task published =>
    simp only [hpc] at hs
    exact acts_continuePush (fun _ => rfl) (fun _ _ => ⟨_, rfl, rfl⟩) hs
  | sleepHead =>
    simp only [hpc] at hs
    cases hs
    exact acts_ite rfl rfl rfl rfl rfl
  | sleepTail head =>
    simp only [hpc] at hs
    cases hs
    exact acts_ite rfl rfl rfl rfl rfl
  | toSleeping =>
    simp only [hpc] at hs
    split at hs <;> cases hs
    exact acts_ite rfl rfl rfl rfl rfl
  | scanHead i =>
    simp only [hpc] at hs
    cases hs
    refine acts_goTo rfl rfl ?_
    dsimp only
    split <;> rfl
  | scanTail i head =>
    simp only [hpc] at hs
    cases hs
    exact acts_ite rfl rfl rfl rfl rfl
  | scanGlobal =>
    simp only [hpc] at hs
    cases hs
    exact acts_ite rfl rfl rfl rfl rfl
  | wokenHead published =>
    simp only [hpc] at hs
    cases hs
    exact acts_ite rfl rfl rfl rfl rfl
  | wokenTail published head =>
    simp only [hpc] at hs
    cases hs
    exact acts_ite rfl rfl rfl rfl rfl
  | remove published =>
    simp only [hpc] at hs
    split at hs <;> cases hs
    exact acts_goTo rfl rfl rfl
  | contains published =>
    simp only [hpc] at hs
    split at hs
    · cases hs
    · split at hs <;> cases hs <;> exact acts_goTo rfl rfl rfl
  | _ => exact acts_nextTask hs' (Or.inr (Or.inr (Or.inr (Or.inr (Or.inr (by rw [hpc]; rfl))))))

/-- The worker whose step it is. -/
def Act.worker : Act n R T → Option (Fin n)
  | .step w _ | .arrive w _ _ | .fastrand w _ | .wakeUpOne w _ => some w
  | .scheduleLocal w _ | .scheduleRemote w _ | .suspend w => some w
  | .remote _ _ | .remoteWakeUpOne _ _ => none

/-- What every queue step keeps, a step of `w` keeps. -/
theorem Acts.inv (h : Acts s t w b) (hi : WorkStealing.Inv s.queues)
    (hok : WorkStealing.NoWrap s.queues (.step w b) s.queues) : WorkStealing.Inv t.queues := by
  obtain hq | hq := h.queues
  · exact (WorkStealing.keeps_step s.queues (.step w b) t.queues hi hq hok).inv
  · exact hq.inv hi

theorem Acts.rests (h : Acts s t w b) (hi : WorkStealing.Inv s.queues) {v : Fin n} (hv : v ≠ w) :
    WorkStealing.Rests s.queues t.queues v := by
  obtain hq | hq := h.queues
  · exact WorkStealing.stepPc_rests hi.geo hv hq
  · exact hq.rests hv

section Step

variable [DecidableEq R] {config : Config} {a : Act n R T}

theorem After.next_refilling (k : After) (stage : Option Notify) :
    (k.next stage : Pc n T).refilling = false := by
  cases stage with
  | none => exact k.pc_refilling
  | some stage => rfl

theorem step_starts (ha : a.worker = some w) (hb : ∀ b, a ≠ .step w b)
    (hs : step config s a = some t) : Starts s t w := by
  cases a with
  | step x b =>
    cases ha
    exact absurd rfl (hb b)
  | arrive x tasks count =>
    cases ha
    simp only [step] at hs
    split at hs
    · next k _ =>
      split at hs
      · cases hs
      · split at hs
        · cases hs
          refine starts_goTo rfl rfl fun _ => ?_
          cases k <;> rfl
        · cases hs
          exact starts_goTo rfl rfl fun _ => rfl
    · cases hs
  | fastrand x start =>
    cases ha
    simp only [step] at hs
    split at hs <;> cases hs
    exact starts_goTo rfl rfl fun _ => rfl
  | wakeUpOne x first =>
    cases ha
    simp only [step] at hs
    split at hs
    · next stage k _ =>
      obtain ⟨r, hr, rfl⟩ := Option.map_eq_some_iff.1 hs
      exact starts_goTo rfl rfl fun _ => k.next_refilling _
    · cases hs
  | scheduleLocal x task =>
    cases ha
    simp only [step] at hs
    split at hs
    · next hpc =>
      split at hs
      · exact starts_startCall (a := .pushBackOrOverflow w _) rfl (fun _ => rfl) hs
      · cases hs
        refine starts_goTo rfl rfl fun _ => ?_
        dsimp only
        rw [hpc]
        rfl
    · cases hs
  | scheduleRemote x tasks =>
    cases ha
    simp only [step] at hs
    split at hs
    · obtain ⟨u, hu, rfl⟩ := Option.map_eq_some_iff.1 hs
      obtain ⟨q, hq, rfl⟩ := Option.map_eq_some_iff.1 hu
      refine Starts.after (a := .globalPushBatch tasks) ?_ trivial hq
      exact starts_goTo rfl rfl fun _ => rfl
    · cases hs
  | suspend x =>
    cases ha
    simp only [step] at hs
    split at hs <;> cases hs
    exact starts_goTo rfl rfl fun _ => rfl
  | remote r tasks => cases ha
  | remoteWakeUpOne r first => cases ha

/-- Such a step is not made where the worker refills. -/
theorem step_outside (ha : a.worker = some w) (hb : ∀ b, a ≠ .step w b)
    (hs : step config s a = some t) : (s.worker w).pc.beforeRefill = false := by
  cases a with
  | step x b =>
    cases ha
    exact absurd rfl (hb b)
  | remote r tasks => cases ha
  | remoteWakeUpOne r first => cases ha
  | _ =>
    cases ha
    simp only [step] at hs
    split at hs
    · next hpc =>
      rw [hpc]
      rfl
    · cases hs

/-- Another thread leaves the calls of the workers alone. -/
structure Aside (s t : State n R T) : Prop where
  queue : t.queues.queue = s.queues.queue
  pc : t.queues.pc = s.queues.pc
  worker : t.worker = s.worker
  global : (∃ a, WorkStealing.step s.queues a = some t.queues ∧
    ∀ u, WorkStealing.NoWrap s.queues a u) ∨ t.queues = s.queues

theorem step_aside (ha : a.worker = none) (hs : step config s a = some t) : Aside s t := by
  cases a with
  | remote r tasks =>
    simp only [step] at hs
    split at hs
    · obtain ⟨u, hu, rfl⟩ := Option.map_eq_some_iff.1 hs
      obtain ⟨q, hq, rfl⟩ := Option.map_eq_some_iff.1 hu
      have hglobal := hq
      cases hq
      exact ⟨rfl, rfl, rfl, Or.inl ⟨.globalPushBatch tasks, hglobal, fun _ => trivial⟩⟩
    · cases hs
  | remoteWakeUpOne r first =>
    simp only [step] at hs
    split at hs
    · obtain ⟨x, hx, rfl⟩ := Option.map_eq_some_iff.1 hs
      exact ⟨rfl, rfl, rfl, Or.inr rfl⟩
    · cases hs
  | _ => cases ha

omit [DecidableEq R] in
theorem Aside.inv (h : Aside s t) (hi : WorkStealing.Inv s.queues) : WorkStealing.Inv t.queues := by
  obtain ⟨a, ha, hok⟩ | he := h.global
  · exact (WorkStealing.keeps_step s.queues a t.queues hi ha (hok _)).inv
  · rw [he]
    exact hi

theorem step_num (hn : s.queues.global.num = s.queues.global.tasks.length)
    (hs : step config s a = some t) : t.queues.global.num = t.queues.global.tasks.length := by
  cases ha : a.worker with
  | none =>
    obtain ⟨b, hb, -⟩ | he := (step_aside ha hs).global
    · exact WorkStealing.step_num hn hb
    · rw [he]
      exact hn
  | some w =>
    by_cases hb : ∃ b, a = .step w b
    · obtain ⟨b, rfl⟩ := hb
      obtain hq | hq := (stepPc_acts hs).queues
      · exact WorkStealing.step_num hn hq
      · exact hq.num hn
    · exact (step_starts ha (fun b he => hb ⟨b, he⟩) hs).queues.num hn

end Step

end MultiThread

end Kosio.Runtime
