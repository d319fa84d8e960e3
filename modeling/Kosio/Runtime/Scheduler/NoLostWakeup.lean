import Kosio.Runtime.Scheduler.WakeUp

/-!
# No lost wake-up: every step

One lemma for each part of the run loop, then the theorem over all runs.
-/

namespace Kosio.Runtime.MultiThread

open Steps

variable {n : Nat} {R T : Type} {s t : State n R T} {w : Fin n}

/-! ## Lemmas -/

theorem After.pc_asleep (k : After) : (k.pc : Pc n T).asleep = k.asleep := by cases k <;> rfl

theorem After.pc_resting (k : After) : (k.pc : Pc n T).resting = k.asleep := by cases k <;> rfl

theorem After.pc_stage (k : After) : (k.pc : Pc n T).stage = none := by cases k <;> rfl

theorem After.pc_inPush (k : After) : (k.pc : Pc n T).inPush = false := by cases k <;> rfl

/-- `w` lets go of what it owes, and that strands nobody. -/
theorem Inv.letsGo (h : Inv s) {p p' : Pc n T} (hpc : (s.worker w).pc = p)
    (hp : p.inPush = false) (ha : p'.asleep = p.asleep) (hr : p'.resting → p.resting)
    (hs : p'.stage = none)
    (hok : p.obliged → ¬ Stranded s (.inl w) s.idle.sleepingWorkers) : Inv (goTo s w p') := by
  refine h.move (h.serves hpc hp) ?_ (fun hw => ?_) (fun hw => ?_) (by rw [hs]; simp) (Or.inr ?_)
  · unfold Holds
    rw [setWorker_worker_self, hpc, ha]
    rfl
  · rw [ha, ← hpc]
    exact h.sleeping w hw
  · exact h.quiet w (hpc ▸ hr hw)
  · rw [hpc]
    by_cases ho : p.obliged
    · exact Or.inr (hok ho)
    · exact Or.inl (Bool.not_eq_true _ ▸ ho)

theorem Inv.not_stranded (h : Inv s) (hw : (s.worker w).isSearching) {u : Fin n ⊕ R}
    {sleepers : Finset (Fin n)} : ¬ Stranded s u sleepers := by
  rintro ⟨-, -, hn, -⟩
  have hmem : w ∈ holders s := by simp [holders, Holds, hw]
  have := Finset.card_pos.2 ⟨w, hmem⟩
  rw [h.numSearching] at hn
  omega

/-! ## `next_task` -/

theorem Inv.nextLocalTask (h : Inv s) {p : Pc n T} (hpc : (s.worker w).pc = p)
    (hp : p.inPush = false) (ha : p.asleep = false) (ho : p.obliged = false) {interval : Bool}
    (hs : nextLocalTask s w interval = some t) : Inv t := by
  unfold MultiThread.nextLocalTask at hs
  split at hs
  · cases hs
    exact h.goes hpc (h.serves hpc hp) (.plain ha.symm rfl rfl ho) rfl
  · exact h.startCall hpc hs rfl rfl (.plain ha.symm rfl rfl ho)

theorem Inv.noRemoteTask (h : Inv s) {p : Pc n T} (hpc : (s.worker w).pc = p)
    (hp : p.inPush = false) (ha : p.asleep = false) (ho : p.obliged = false) {k : Remote}
    (hs : noRemoteTask s w k = some t) : Inv t := by
  cases k with
  | interval => exact h.nextLocalTask hpc hp ha ho hs
  | noRoom =>
    cases hs
    exact h.jump hpc hp (.plain ha.symm rfl rfl ho)
  | steal =>
    cases hs
    exact h.jump hpc hp (.plain ha.symm rfl rfl ho)

theorem Inv.stepNextTask (h : Inv s) {config : Config} {b : Bool}
    (hpc : (s.worker w).pc = .loop ∨ (s.worker w).pc = .nextTask ∨
      (∃ k, (s.worker w).pc = .remoteEmpty k) ∨ (∃ k, (s.worker w).pc = .remotePop k) ∨
      ∃ interval, (s.worker w).pc = .popping interval)
    (hs : stepPc config s w b = some t) : Inv t := by
  unfold MultiThread.stepPc at hs
  rcases hpc with hpc | hpc | ⟨k, hpc⟩ | ⟨k, hpc⟩ | ⟨interval, hpc⟩ <;> simp only [hpc] at hs
  · cases hs
    refine h.goes hpc (h.serves hpc rfl) ?_ rfl
    split
    · exact .plain rfl rfl rfl rfl
    · exact .plain rfl rfl rfl rfl
  · split at hs
    · cases hs
      exact h.jump hpc rfl (.plain rfl rfl rfl rfl)
    · exact h.nextLocalTask hpc rfl rfl rfl hs
  · split at hs
    · exact h.noRemoteTask hpc rfl rfl rfl hs
    · cases hs
      exact h.jump hpc rfl (.plain rfl rfl rfl rfl)
  · obtain ⟨q, hq, hs⟩ := Option.bind_eq_some_iff.1 hs
    have hi := h.globalPop hq
    split at hs
    · cases hs
      exact hi.jump hpc rfl (.plain rfl rfl rfl rfl)
    · exact hi.noRemoteTask hpc rfl rfl rfl hs
  · refine h.continueCall (by rw [hpc]; rfl) (fun q result hi hk => ?_) hs
    split at hk
    · cases hk
      cases interval
      · exact hi.jump hpc rfl (.plain rfl rfl rfl rfl)
      · exact hi.jump hpc rfl (.plain rfl rfl rfl rfl)
    · cases hk
      exact hi.jump hpc rfl (.plain rfl rfl rfl rfl)

/-- The batch from the global queue. -/
theorem Inv.stepBatch (h : Inv s) {config : Config} {b : Bool}
    (hpc : (s.worker w).pc = .globalEmpty ∨ (s.worker w).pc = .remaining ∨
      (∃ m, (s.worker w).pc = .globalSize m) ∨ (∃ m, (s.worker w).pc = .popN m) ∨
      (s.worker w).pc = .pushBatch)
    (hs : stepPc config s w b = some t) : Inv t := by
  unfold MultiThread.stepPc at hs
  rcases hpc with hpc | hpc | ⟨m, hpc⟩ | ⟨m, hpc⟩ | hpc <;> simp only [hpc] at hs
  · split at hs
    · cases hs
      exact h.jump hpc rfl (.plain rfl rfl rfl rfl)
    · exact h.startCall hpc hs rfl rfl (.plain rfl rfl rfl rfl)
  · refine h.continueCall (by rw [hpc]; rfl) (fun q result hi hk => ?_) hs
    cases hk
    refine hi.jump hpc rfl ?_
    generalize min _ (localQueueCapacity / 2) = m
    split
    · exact .plain rfl rfl rfl rfl
    · exact .plain rfl rfl rfl rfl
  · cases hs
    exact h.jump hpc rfl (.plain rfl rfl rfl rfl)
  · obtain ⟨q, hq, hs⟩ := Option.bind_eq_some_iff.1 hs
    have hi := h.globalPopN hq
    split at hs
    · cases hs
      exact hi.jump hpc rfl (.plain rfl rfl rfl rfl)
    · cases hs
      exact hi.jump hpc rfl (.plain rfl rfl rfl rfl)
    · exact hi.startCall hpc hs rfl rfl (.plain rfl rfl rfl rfl)
  · refine h.continueCall (by rw [hpc]; rfl) (fun q result hi hk => ?_) hs
    split at hk
    · cases hk
      exact hi.jump hpc rfl (.plain rfl rfl rfl rfl)
    · cases hk
      exact hi.jump hpc rfl (.plain rfl rfl rfl rfl)

/-! ## `steal_task` and `run_task` -/

theorem Inv.stepSteal (h : Inv s) {config : Config} {b : Bool}
    (hpc : (s.worker w).pc = .toSearching ∨ (s.worker w).pc = .incSearching ∨
      (∃ start i, (s.worker w).pc = .steal start i) ∨
      (∃ start i, (s.worker w).pc = .stealing start i) ∨ (s.worker w).pc = .runTask)
    (hs : stepPc config s w b = some t) (hok : Checked s (.step w b) t) : Inv t := by
  unfold MultiThread.stepPc at hs
  rcases hpc with hpc | hpc | ⟨start, i, hpc⟩ | ⟨start, i, hpc⟩ | hpc <;> simp only [hpc] at hs
  · split at hs
    · cases hs
      exact h.jump hpc rfl (.plain rfl rfl rfl rfl)
    · next hsearching =>
      split at hs
      · cases hs
        exact h.jump hpc rfl (.plain rfl rfl rfl rfl)
      · cases hs
        refine h.move (h.serves hpc rfl) ?_ (fun hw => ?_) (fun _ => ?_) (by simp [Pc.stage])
          (Or.inr (Or.inl (by rw [hpc]; rfl)))
        · unfold Holds
          rw [setWorker_worker_self, hpc]
          rfl
        · have := h.sleeping w hw
          rw [hpc] at this
          cases this
        · exact Bool.not_eq_true _ ▸ hsearching
  · cases hs
    refine h.incSearching hpc ?_
    simp only [Checked, hpc] at hok
    exact hok
  · split at hs
    · split at hs
      · cases hs
        exact h.jump hpc rfl (.plain rfl rfl rfl rfl)
      · exact h.startCall hpc hs rfl rfl (.plain rfl rfl rfl rfl)
    · cases hs
      exact h.jump hpc rfl (.plain rfl rfl rfl rfl)
  · refine h.continueCall (by rw [hpc]; rfl) (fun q result hi hk => ?_) hs
    split at hk
    · cases hk
      exact hi.jump hpc rfl (.plain rfl rfl rfl rfl)
    · cases hk
      exact hi.jump hpc rfl (.plain rfl rfl rfl rfl)
  · split at hs
    · next hsearching =>
      cases hs
      exact h.transitionFromSearching hpc hsearching
    · cases hs
      exact h.jump hpc rfl (.plain rfl rfl rfl rfl)

/-! ## `poll`, `wait` and `schedule_local` -/

theorem Inv.delivered (h : Inv s) {k : After} {published : Bool}
    (hpc : (s.worker w).pc = .deliver k [] published) : Inv (delivered s w k published) := by
  have hpoll : Inv (if (s.worker w).isSearching then goTo s w k.pc
      else goTo s w (.notifyHead k published)) := by
    split
    · next hw =>
      refine h.letsGo hpc rfl k.pc_asleep (fun hr => ?_) k.pc_stage
        fun _ => h.not_stranded hw
      rwa [k.pc_resting] at hr
    · exact h.jump hpc rfl (.within rfl rfl rfl id)
  cases k with
  | wait => exact h.jump hpc rfl (.within rfl rfl rfl id)
  | _ => exact hpoll

theorem Inv.stepPoll (h : Inv s) {config : Config} {b : Bool}
    (hpc : (∃ k tasks published, (s.worker w).pc = .deliver k tasks published) ∨
      (∃ k tasks published, (s.worker w).pc = .delivering k tasks published) ∨
      (∃ k published, (s.worker w).pc = .notifyHead k published) ∨
      (∃ k published head, (s.worker w).pc = .notifyTail k published head) ∨
      ∃ task published, (s.worker w).pc = .scheduleLocal task published)
    (hs : stepPc config s w b = some t) (hok : Checked s (.step w b) t) : Inv t := by
  unfold MultiThread.stepPc at hs
  rcases hpc with ⟨k, tasks, published, hpc⟩ | ⟨k, tasks, published, hpc⟩ | ⟨k, published, hpc⟩ |
    ⟨k, published, head, hpc⟩ | ⟨task, published, hpc⟩ <;> simp only [hpc] at hs
  · cases tasks with
    | nil =>
      cases hs
      exact h.delivered hpc
    | cons task tasks => exact h.startCall hpc hs rfl rfl (.within rfl rfl rfl id)
  · obtain ⟨q, hq, hs⟩ := Option.map_eq_some_iff.1 hs
    split at hs
    · next hidle =>
      subst hs
      refine h.goes hpc (h.servesPush hq (fun hw => by rw [hidle] at hw; cases hw) fun hne => ?_) (.within rfl rfl rfl fun hp => ?_) rfl
      · simp [Pc.obliged, hne]
      · have hp : published = true := hp
        simp [Pc.obliged, hp]
    · subst hs
      refine h.goes hpc (h.servesPush hq (fun _ => rfl) fun hne => ?_) (.within rfl rfl rfl fun hp => ?_) rfl
      · simp [Pc.obliged, hne]
      · have hp : published = true := hp
        simp [Pc.obliged, hp]
  · cases hs
    exact h.jump hpc rfl (.within rfl rfl rfl id)
  · split at hs
    · cases hs
      exact h.jump hpc rfl (.check rfl)
    · next hsize =>
      cases hs
      simp only [Checked, hpc] at hok
      refine h.letsGo hpc rfl k.pc_asleep (fun hr => ?_) k.pc_stage
        fun ho => hok ⟨ho, by omega⟩
      rwa [k.pc_resting] at hr
  · obtain ⟨q, hq, hs⟩ := Option.map_eq_some_iff.1 hs
    split at hs
    · next hidle =>
      subst hs
      exact h.goes hpc (h.servesPush hq (fun hw => by rw [hidle] at hw; cases hw) fun _ => rfl)
        (.check rfl) rfl
    · subst hs
      refine h.goes hpc (h.servesPush hq (fun _ => rfl) fun hne => ?_) (.within rfl rfl rfl fun hp => ?_) rfl
      · simp [Pc.obliged, hne]
      · have hp : published = true := hp
        simp [Pc.obliged, hp]

/-! ## `sleep` -/

theorem Inv.fallAsleep (h : Inv s) {config : Config} {b : Bool}
    (hpc : (s.worker w).pc = .sleepHead ∨ (∃ head, (s.worker w).pc = .sleepTail head) ∨
      (s.worker w).pc = .toSleeping ∨ (∃ i, (s.worker w).pc = .scanHead i) ∨
      (∃ i head, (s.worker w).pc = .scanTail i head) ∨ (s.worker w).pc = .scanGlobal)
    (hs : stepPc config s w b = some t) (hok : Checked s (.step w b) t) : Inv t := by
  unfold MultiThread.stepPc at hs
  rcases hpc with hpc | ⟨head, hpc⟩ | hpc | ⟨i, hpc⟩ | ⟨i, head, hpc⟩ | hpc <;>
    simp only [hpc] at hs
  · cases hs
    refine h.jump hpc rfl ?_
    split
    · exact .plain rfl rfl rfl rfl
    · exact .plain rfl rfl rfl rfl
  · cases hs
    refine h.jump hpc rfl ?_
    split
    · exact .plain rfl rfl rfl rfl
    · exact .plain rfl rfl rfl rfl
  · simp only [Option.ite_none_left_eq_some, Bool.not_eq_true] at hs
    obtain ⟨hm, hs⟩ := hs
    cases hs
    simp only [Checked, hpc] at hok
    exact h.transitionToSleeping hpc hm hok
  · cases hs
    refine h.jump hpc rfl ?_
    split
    · exact .within rfl rfl rfl id
    · exact .within rfl rfl rfl id
  · cases hs
    split
    · exact h.jump hpc rfl (.within rfl rfl rfl id)
    · next hne =>
      simp only [Checked, hpc] at hok
      exact h.letsGo hpc rfl rfl (fun _ => rfl) rfl fun _ => hok hne
  · cases hs
    split
    · next hg => exact h.letsGo hpc rfl rfl (fun _ => rfl) rfl fun _ hstr => hstr.1 hg
    · exact h.jump hpc rfl (.check rfl)

/-- `w` finds itself notified. -/
theorem Inv.notified (h : Inv s) {p : Pc n T} (hpc : (s.worker w).pc = p) (hp : p.inPush = false)
    (ha : p.asleep) (hw : w ∉ s.idle.sleepingWorkers) :
    Inv (setWorker s w { s.worker w with isSearching := true, pc := .loop }) := by
  have hholds : Holds s w := Or.inr ⟨hpc ▸ ha, hw⟩
  refine h.move (h.serves hpc hp) (iff_of_true (Or.inl ?_) hholds) (fun hw' => absurd hw' hw)
    (fun hr => ?_) (by simp [Pc.stage]) (Or.inr (Or.inr ?_))
  · rw [setWorker_worker_self]
  · cases hr
  · rintro ⟨-, -, hn, -⟩
    have := Finset.card_pos.2 ⟨w, Finset.mem_filter.2 ⟨Finset.mem_univ w, hholds⟩⟩
    rw [h.numSearching] at hn
    unfold holders at hn
    omega

theorem Inv.wake (h : Inv s) {config : Config} {b : Bool}
    (hpc : (∃ published, (s.worker w).pc = .wokenHead published) ∨
      (∃ published head, (s.worker w).pc = .wokenTail published head) ∨
      (∃ published, (s.worker w).pc = .remove published) ∨
      ∃ published, (s.worker w).pc = .contains published)
    (hs : stepPc config s w b = some t) (hok : Checked s (.step w b) t) : Inv t := by
  unfold MultiThread.stepPc at hs
  rcases hpc with ⟨published, hpc⟩ | ⟨published, head, hpc⟩ | ⟨published, hpc⟩ |
    ⟨published, hpc⟩ <;> simp only [hpc] at hs
  · cases hs
    refine h.jump hpc rfl ?_
    split
    · exact .within rfl rfl rfl id
    · exact .within rfl rfl rfl id
  · cases hs
    refine h.jump hpc rfl ?_
    split
    · exact .within rfl rfl rfl id
    · exact .within rfl rfl rfl id
  · simp only [Option.ite_none_left_eq_some, Bool.not_eq_true, Idle.remove] at hs
    obtain ⟨hm, hs⟩ := hs
    simp only [Checked, hpc] at hok
    split at hs
    · next hw =>
      cases hs
      exact h.remove hpc hm hw fun hp => hok ⟨hp, hw⟩
    · next hw =>
      cases hs
      exact h.notified hpc rfl rfl hw
  · simp only [Option.ite_none_left_eq_some] at hs
    obtain ⟨-, hs⟩ := hs
    simp only [Checked, hpc] at hok
    split at hs
    · next hw =>
      cases hs
      exact h.letsGo hpc rfl rfl (fun _ => rfl) rfl fun hp => hok ⟨hp, hw⟩
    · next hw =>
      cases hs
      exact h.notified hpc rfl rfl hw

theorem Inv.stepPc (h : Inv s) {config : Config} {b : Bool} (hs : stepPc config s w b = some t)
    (hok : Checked s (.step w b) t) : Inv t := by
  cases hpc : (s.worker w).pc with
  | arrive | wakeUpOne | fastrand | task | thrown =>
    unfold MultiThread.stepPc at hs
    simp [hpc] at hs
  | loop => exact h.stepNextTask (Or.inl hpc) hs
  | nextTask => exact h.stepNextTask (Or.inr (Or.inl hpc)) hs
  | remoteEmpty => exact h.stepNextTask (Or.inr (Or.inr (Or.inl ⟨_, hpc⟩))) hs
  | remotePop => exact h.stepNextTask (Or.inr (Or.inr (Or.inr (Or.inl ⟨_, hpc⟩)))) hs
  | popping => exact h.stepNextTask (Or.inr (Or.inr (Or.inr (Or.inr ⟨_, hpc⟩)))) hs
  | globalEmpty => exact h.stepBatch (Or.inl hpc) hs
  | remaining => exact h.stepBatch (Or.inr (Or.inl hpc)) hs
  | globalSize => exact h.stepBatch (Or.inr (Or.inr (Or.inl ⟨_, hpc⟩))) hs
  | popN => exact h.stepBatch (Or.inr (Or.inr (Or.inr (Or.inl ⟨_, hpc⟩)))) hs
  | pushBatch => exact h.stepBatch (Or.inr (Or.inr (Or.inr (Or.inr hpc)))) hs
  | toSearching => exact h.stepSteal (Or.inl hpc) hs hok
  | incSearching => exact h.stepSteal (Or.inr (Or.inl hpc)) hs hok
  | steal => exact h.stepSteal (Or.inr (Or.inr (Or.inl ⟨_, _, hpc⟩))) hs hok
  | stealing => exact h.stepSteal (Or.inr (Or.inr (Or.inr (Or.inl ⟨_, _, hpc⟩)))) hs hok
  | runTask => exact h.stepSteal (Or.inr (Or.inr (Or.inr (Or.inr hpc)))) hs hok
  | deliver => exact h.stepPoll (Or.inl ⟨_, _, _, hpc⟩) hs hok
  | delivering => exact h.stepPoll (Or.inr (Or.inl ⟨_, _, _, hpc⟩)) hs hok
  | notifyHead => exact h.stepPoll (Or.inr (Or.inr (Or.inl ⟨_, _, hpc⟩))) hs hok
  | notifyTail => exact h.stepPoll (Or.inr (Or.inr (Or.inr (Or.inl ⟨_, _, _, hpc⟩)))) hs hok
  | scheduleLocal => exact h.stepPoll (Or.inr (Or.inr (Or.inr (Or.inr ⟨_, _, hpc⟩)))) hs hok
  | sleepHead => exact h.fallAsleep (Or.inl hpc) hs hok
  | sleepTail => exact h.fallAsleep (Or.inr (Or.inl ⟨_, hpc⟩)) hs hok
  | toSleeping => exact h.fallAsleep (Or.inr (Or.inr (Or.inl hpc))) hs hok
  | scanHead => exact h.fallAsleep (Or.inr (Or.inr (Or.inr (Or.inl ⟨_, hpc⟩)))) hs hok
  | scanTail => exact h.fallAsleep (Or.inr (Or.inr (Or.inr (Or.inr (Or.inl ⟨_, _, hpc⟩))))) hs hok
  | scanGlobal => exact h.fallAsleep (Or.inr (Or.inr (Or.inr (Or.inr (Or.inr hpc))))) hs hok
  | wokenHead => exact h.wake (Or.inl ⟨_, hpc⟩) hs hok
  | wokenTail => exact h.wake (Or.inr (Or.inl ⟨_, _, hpc⟩)) hs hok
  | remove => exact h.wake (Or.inr (Or.inr (Or.inl ⟨_, hpc⟩))) hs hok
  | contains => exact h.wake (Or.inr (Or.inr (Or.inr ⟨_, hpc⟩))) hs hok

/-! ## Other actions -/

theorem Inv.noPush (h : Inv s) (hpc : (s.worker w).pc.inPush = false) :
    (s.queues.pc w).pushing = false := by
  rw [← Bool.not_eq_true]
  intro hw
  rw [h.calls w hw] at hpc
  cases hpc

/-- Another thread comes to its wake-up check. -/
theorem Counts.remote [DecidableEq R] (h : Counts s) (q : WorkStealing.State (Fin n) T) (r : R) :
    Counts { s with queues := q, remote := Function.update s.remote r (some .check) } := by
  have hstage : ∀ u, stage { s with remote := Function.update s.remote r (some .check) } u =
      some .wake → stage s u = some .wake := by
    intro u hu
    cases u with
    | inl => exact hu
    | inr r' =>
      by_cases hr : r' = r
      · subst hr
        simp [stage] at hu
      · simpa [stage, hr] using hu
  exact ⟨h.small, h.packs, h.sleeping, h.quiet, fun u hu => h.mutex u (hstage u hu),
    fun u hu => h.begins u (hstage u hu)⟩

theorem Inv.remote [DecidableEq R] (h : Inv s) {r : R} {tasks : List T}
    (hs : (scheduleRemote s tasks).map (fun s =>
      { s with remote := Function.update s.remote r (some .check) }) = some t) : Inv t := by
  simp only [scheduleRemote, WorkStealing.step, Option.map_some, Option.some.injEq] at hs
  subst hs
  exact .of_counts (h.counts.remote _ r) h.calls (WorkStealing.pushBatch_num h.num tasks)
    fun _ _ _ => ⟨.inr r, by simp [Obliged]⟩

/-- What a worker changes in `worker_to_notify`. -/
theorem wakeUpOne_notifies {now : Notify} {k : After} (hpc : (s.worker w).pc = .wakeUpOne now k)
    (idle : Idle n R) (next : Option Notify) :
    let t := goTo { s with idle } w (k.next next)
    Notifies s t (.inl w) ∧ stage t (.inl w) = next ∧ (next.isSome → Obliged t (.inl w)) := by
  generalize hp : (k.next next : Pc n T) = p
  have hshape : p.asleep = k.asleep ∧ p.resting = k.asleep ∧ p.inPush = false ∧ p.stage = next ∧
      (next.isSome → p.obliged) := by
    subst hp
    cases next with
    | none => exact ⟨k.pc_asleep, k.pc_resting, k.pc_inPush, k.pc_stage, nofun⟩
    | some => exact ⟨rfl, rfl, rfl, rfl, fun _ => rfl⟩
  obtain ⟨hasleep, hresting, hpush, hstage, hobliged⟩ := hshape
  have hcase : ∀ P : Worker n T → Worker n T → Prop, P { s.worker w with pc := p } (s.worker w) →
      (∀ v, P (s.worker v) (s.worker v)) →
      ∀ v, P ((goTo { s with idle } w p).worker v) (s.worker v) := by
    intro P hw hv v
    by_cases hvw : v = w
    · subst hvw
      exact (setWorker_worker_self { s with idle } v _).symm ▸ hw
    · exact (setWorker_worker_ne { s with idle } _ hvw).symm ▸ hv v
  refine ⟨⟨rfl, ?_, ?_, ?_, ?_, ?_, ?_⟩, ?_, ?_⟩
  · exact hcase (fun r r' => r.isSearching = r'.isSearching) rfl fun _ => rfl
  · refine hcase (fun r r' => r.pc.asleep = r'.pc.asleep) ?_ fun _ => rfl
    rw [hpc]
    exact hasleep
  · refine hcase (fun r r' => r.pc.resting → r'.pc.resting) ?_ fun _ => id
    rw [hpc]
    exact fun hr => hresting.symm.trans hr
  · refine hcase (fun r r' => r.pc.inPush = r'.pc.inPush) ?_ fun _ => rfl
    rw [hpc]
    exact hpush
  · exact fun v hv => stage_setWorker { s with idle } _ hv
  · exact fun v hv => obliged_idles s idle _ hv
  · simpa [stage, goTo] using hstage
  · simpa [Obliged, goTo] using hobliged

theorem Inv.wakeUpOne (h : Inv s) {first : Fin n} {now : Notify} {k : After}
    (hpc : (s.worker w).pc = .wakeUpOne now k)
    (hs : (s.idle.workerToNotify (.inl w) first now).map (fun (idle, next) =>
      goTo { s with idle } w (k.next next)) = some t)
    (hok : now = .wake → s.idle.state.numSearching + 1 < 2 ^ 16) : Inv t := by
  obtain ⟨⟨idle, next⟩, hi, rfl⟩ := Option.map_eq_some_iff.1 hs
  obtain ⟨hn, hnext, hobliged⟩ := wakeUpOne_notifies hpc idle next
  exact h.notifies (u := .inl w) (by simp [stage, hpc, Pc.stage]) hi hok hn hnext hobliged

/-- What another thread changes in `worker_to_notify`. -/
theorem remoteWakeUpOne_notifies [DecidableEq R] (s : State n R T) (r : R) (idle : Idle n R)
    (next : Option Notify) :
    let t : State n R T := { s with idle, remote := Function.update s.remote r next }
    Notifies s t (.inr r) ∧ stage t (.inr r) = next ∧ (next.isSome → Obliged t (.inr r)) := by
  refine ⟨⟨rfl, fun _ => rfl, fun _ => rfl, fun _ => id, fun _ => rfl, fun v hv => ?_, fun v hv => ?_⟩,
    ?_, fun hn => ?_⟩
  · cases v with
    | inl => rfl
    | inr r' => exact Function.update_of_ne (fun he => hv (congrArg _ he)) ..
  · cases v with
    | inl => rfl
    | inr r' => exact congrArg Option.isSome (Function.update_of_ne (fun he => hv (congrArg _ he)) ..)
  · exact Function.update_self ..
  · show (Function.update s.remote r next r).isSome
    rwa [Function.update_self]

theorem Inv.remoteWakeUpOne [DecidableEq R] (h : Inv s) {r : R} {first : Fin n} {now : Notify}
    (hr : s.remote r = some now)
    (hs : (s.idle.workerToNotify (.inr r) first now).map (fun (idle, next) =>
      { s with idle, remote := Function.update s.remote r next }) = some t)
    (hok : now = .wake → s.idle.state.numSearching + 1 < 2 ^ 16) : Inv t := by
  obtain ⟨⟨idle, next⟩, hi, rfl⟩ := Option.map_eq_some_iff.1 hs
  obtain ⟨hn, hnext, hobliged⟩ := remoteWakeUpOne_notifies s r idle next
  exact h.notifies (u := .inr r) hr hi hok hn hnext hobliged

/-- **Every step.** -/
theorem inv_step [DecidableEq R] {config : Config} (s : State n R T) (a : Act n R T)
    (t : State n R T) (h : Inv s) (hs : step config s a = some t) (hok : Checked s a t) :
    Inv t := by
  cases a with
  | step w b => exact h.stepPc hs hok
  | arrive w tasks count =>
    simp only [step] at hs
    split at hs
    · next k hpc =>
      split at hs
      · cases hs
      · split at hs
        · cases hs
          cases k with
          | wait => exact h.jump hpc rfl (.within rfl rfl rfl id)
          | _ => exact h.jump hpc rfl (.plain rfl rfl rfl rfl)
        · cases hs
          exact h.jump hpc rfl (.within rfl rfl rfl id)
    · cases hs
  | fastrand w start =>
    simp only [step] at hs
    split at hs
    · next hpc =>
      cases hs
      exact h.jump hpc rfl (.plain rfl rfl rfl rfl)
    · cases hs
  | wakeUpOne w first =>
    simp only [step] at hs
    split at hs
    · next now k hpc =>
      refine h.wakeUpOne hpc hs fun hw => hok ?_
      simp [stage, hpc, hw, Pc.stage]
    · cases hs
  | scheduleLocal w task =>
    simp only [step] at hs
    split at hs
    · next hpc =>
      split at hs
      · exact h.startCall hpc hs rfl rfl (.plain rfl rfl rfl rfl)
      · cases hs
        refine h.goes hpc (h.serves hpc rfl) ?_ rfl
        rw [hpc]
        exact .plain rfl rfl rfl rfl
    · cases hs
  | scheduleRemote w tasks =>
    simp only [step] at hs
    split at hs
    · next hpc =>
      simp only [scheduleRemote, WorkStealing.step, Option.map_some, Option.some.injEq] at hs
      subst hs
      refine h.goes hpc ⟨fun _ _ => rfl, fun hw => ?_, WorkStealing.pushBatch_num h.num tasks,
        fun _ => Or.inr rfl⟩ (.check rfl) rfl
      rw [h.noPush (w := w) (by rw [hpc]; rfl)] at hw
      cases hw
    · cases hs
  | suspend w =>
    simp only [step] at hs
    split at hs
    · next hpc =>
      cases hs
      exact h.jump hpc rfl (.plain rfl rfl rfl rfl)
    · cases hs
  | remote r tasks =>
    simp only [step] at hs
    split at hs
    · exact h.remote hs
    · cases hs
  | remoteWakeUpOne r first =>
    simp only [step] at hs
    split at hs
    · next now hr => exact h.remoteWakeUpOne hr hs fun hw => hok (hw ▸ hr)
    · cases hs

/-! ## Top theorem -/

/-- **No lost wake-up.**  For any number of workers and every interleaving whose
steps all meet `Checked`: while no thread owes a wake-up check, the global queue
holds a task and a worker sleeps, some worker is searching or has been notified
to. -/
theorem no_lost_wakeup [DecidableEq R] [Inhabited T] (config : Config) (hn : n < 2 ^ 48)
    (s : State n R T) (h : Reachable (step config) Checked init s)
    (hobliged : ∀ u, Obliged s u = false) (hg : s.queues.global.tasks ≠ [])
    (hs : s.idle.sleepingWorkers.Nonempty) :
    1 ≤ s.idle.state.numSearching ∧ ∃ w, Holds s w := by
  have hi : Inv s := h.inv Inv inv_step (inv_init hn)
  have hnum : s.queues.global.num ≠ 0 := by
    rw [hi.num, ne_eq, List.length_eq_zero_iff]
    exact hg
  have hpos : 1 ≤ s.idle.state.numSearching := by
    by_contra hlt
    obtain ⟨u, hu⟩ := hi.covered hnum hs (by omega)
    rw [hobliged u] at hu
    cases hu
  refine ⟨hpos, ?_⟩
  rw [hi.numSearching] at hpos
  obtain ⟨w, hw⟩ := Finset.card_pos.1 hpos
  exact ⟨w, (Finset.mem_filter.1 hw).2⟩

/-- Worker `w` searches in vain, looks again as the last searcher, and sleeps. -/
def sleepRun (w : Fin 3) : List (Act 3 Unit Nat) :=
  List.replicate 7 (.step w false) ++ [.fastrand w 0] ++ List.replicate 13 (.step w false) ++
    [.arrive w [] 0] ++ List.replicate 11 (.step w false)

/-- Two workers sleep and another thread schedules two tasks. -/
def notifyRun : List (Act 3 Unit Nat) :=
  sleepRun 1 ++ sleepRun 2 ++
    [.remote () [4, 5], .remoteWakeUpOne () 1, .remoteWakeUpOne () 1, .remoteWakeUpOne () 1]

theorem sleeper_notified :
    ∃ s : State 3 Unit Nat, Reachable (step {}) Checked init s ∧
      s.queues.global.tasks = [4, 5] ∧ s.idle.sleepingWorkers = {2} ∧
      1 ≤ s.idle.state.numSearching ∧ ∃ w, Holds s w := by
  obtain ⟨s, hs, hg, hsleep, hobliged⟩ := run_eval (step {}) (init : State 3 Unit Nat) notifyRun
    (fun s => s.queues.global.tasks = [4, 5] ∧ s.idle.sleepingWorkers = {2} ∧
      ∀ u, Obliged s u = false) (by decide +kernel)
  have hr : Reachable (step {}) Checked init s := ⟨notifyRun, hs, by decide +kernel⟩
  exact ⟨s, hr, hg, hsleep, no_lost_wakeup {} (by decide) s hr hobliged
    (by rw [hg]; nofun) (by rw [hsleep]; exact Finset.singleton_nonempty 2)⟩

/-- Worker 0 runs a task; worker 1 searches in vain and is on its way to sleep. -/
def searchRun : List (Act 2 Unit Nat) :=
  [.remote () [1], .remoteWakeUpOne () 0] ++ List.replicate 10 (.step 0 false) ++
    List.replicate 7 (.step 1 false) ++ [.fastrand 1 0] ++ List.replicate 8 (.step 1 false) ++
    [.arrive 1 [] 0] ++ List.replicate 2 (.step 1 false)

/-- The running task puts one task into its worker's queue, another thread puts one
into the global queue, both see worker 1 searching, and worker 1, the last
searcher, wakes worker 0, which is awake, and sleeps. -/
def strandRun : List (Act 2 Unit Nat) :=
  searchRun ++ [.scheduleLocal 0 2, .scheduleLocal 0 3] ++ List.replicate 4 (.step 0 false) ++
    [.wakeUpOne 0 0, .remote () [4], .remoteWakeUpOne () 0] ++ List.replicate 3 (.step 1 false)

/-- Nobody is in a wake-up check or on the way to sleep, yet a worker sleeps, a task
waits and nobody searches. -/
theorem last_searcher_strands :
    ∃ s : State 2 Unit Nat, run (step {}) init strandRun = some s ∧
      (∀ u, Obliged s u = false) ∧ (s.worker 0).pc = .task ∧ (s.worker 1).pc = .arrive .wait ∧
      s.queues.global.tasks = [4] ∧ s.idle.sleepingWorkers = {1} ∧
      ¬ (1 ≤ s.idle.state.numSearching) := by
  exact run_eval (step {}) (init : State 2 Unit Nat) strandRun
    (fun s => (∀ u, Obliged s u = false) ∧ (s.worker 0).pc = .task ∧
      (s.worker 1).pc = .arrive .wait ∧ s.queues.global.tasks = [4] ∧
      s.idle.sleepingWorkers = {1} ∧ ¬ (1 ≤ s.idle.state.numSearching)) (by decide +kernel)

end Kosio.Runtime.MultiThread
