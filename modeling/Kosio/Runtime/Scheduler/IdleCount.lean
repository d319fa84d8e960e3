import Kosio.Runtime.Scheduler.NoLostWakeup

/-!
# What the idle word counts

Unlike the debt of a wake-up check, the part of the invariant about `Idle`
(`Counts`) holds of every run: no step needs to have been checked.

* A worker counted as searching has `is_searching_` set, or has been taken out
  of the sleeping set and has not run `transition_from_sleeping` yet
  (`card_holders_eq`); none of them is in the set, so they are at most the
  working ones (`Counts.searching_le`), and one more still fits the low field.
* `fetch_sub` takes what is there: who leaves the searchers is one of them, and
  who goes to sleep is working (`Counts.noBorrow`).
-/

namespace Kosio.Runtime.MultiThread

open Steps

variable {n : Nat} {R T : Type} {s t : State n R T} {w : Fin n}

/-! ## Specification -/

/-- The workers with `is_searching_` set. -/
def searchers (s : State n R T) : Finset (Fin n) :=
  Finset.univ.filter fun w => (s.worker w).isSearching

/-- The workers taken out of the set by a notifier, before `transition_from_sleeping`. -/
def notified (s : State n R T) : Finset (Fin n) :=
  Finset.univ.filter fun w => (s.worker w).pc.asleep ∧ w ∉ s.idle.sleepingWorkers

/-- What the word counts while the mutex is free, and what `begin()` is of. -/
structure Accounts (s : State n R T) : Prop where
  working : s.idle.mutex = none → s.idle.state.numWorking = n - s.idle.sleepingWorkers.card
  searching : s.idle.mutex = none →
    s.idle.state.numSearching = (searchers s).card + (notified s).card
  searching_le : s.idle.mutex = none → s.idle.state.numSearching ≤ s.idle.state.numWorking
  begins : ∀ u, stage s u = some .wake → s.idle.sleepingWorkers.Nonempty

/-- What the `fetch_sub` of an action takes from the working and the searching count. -/
def subtracts (s : State n R T) : Act n R T → Nat × Nat
  | .step w _ =>
    match (s.worker w).pc with
    | .runTask => (0, (s.worker w).isSearching.toNat)
    | .toSleeping => if s.idle.mutex.isSome then (0, 0) else (1, (s.worker w).isSearching.toNat)
    | _ => (0, 0)
  | _ => (0, 0)

/-- No borrow from one field into the other. -/
def NoBorrow (s : State n R T) (a : Act n R T) : Prop :=
  (subtracts s a).1 ≤ s.idle.state.numWorking ∧ (subtracts s a).2 ≤ s.idle.state.numSearching

/-! ## Consequences of `Counts` -/

theorem Counts.not_holds (h : Counts s) (hw : w ∈ s.idle.sleepingWorkers) : ¬ Holds s w := by
  have hquiet := h.quiet w (Pc.resting_of_asleep (h.sleeping w hw))
  simp [Holds, hquiet, hw]

/-- Nobody sleeps and searches. -/
theorem Counts.searching_le (h : Counts s) :
    (holders s).card + s.idle.sleepingWorkers.card ≤ n := by
  have hdisj : Disjoint (holders s) s.idle.sleepingWorkers := by
    rw [Finset.disjoint_left]
    intro v hv hw
    exact h.not_holds hw (Finset.mem_filter.1 hv).2
  rw [← Finset.card_union_of_disjoint hdisj]
  simpa using Finset.card_le_univ (holders s ∪ s.idle.sleepingWorkers)

/-- There is room for one more searcher in the low field. -/
theorem Counts.room (h : Counts s) (hn : n < 2 ^ 16) (hw : ¬ Holds s w) :
    s.idle.state.numSearching + 1 < 2 ^ 16 := by
  have hmem : w ∉ holders s := by simp [holders, hw]
  have hle := Finset.card_le_univ (insert w (holders s))
  rw [Finset.card_insert_of_notMem hmem, Fintype.card_fin] at hle
  rw [h.numSearching]
  omega

theorem card_holders_eq (h : Counts s) :
    (holders s).card = (searchers s).card + (notified s).card := by
  have hdisj : Disjoint (searchers s) (notified s) := by
    rw [Finset.disjoint_left]
    intro v hv hw
    have := h.quiet v (Pc.resting_of_asleep (Finset.mem_filter.1 hw).2.1)
    rw [(Finset.mem_filter.1 hv).2] at this
    cases this
  rw [← Finset.card_union_of_disjoint hdisj]
  congr 1
  ext v
  simp [holders, Holds, searchers, notified]

theorem Counts.accounts (h : Counts s) : Accounts s := by
  refine ⟨fun _ => h.packs.numWorking, fun _ => ?_, fun _ => ?_, h.begins⟩
  · rw [h.numSearching, card_holders_eq h]
  · rw [h.numSearching, h.packs.numWorking]
    have := h.searching_le
    omega

theorem Counts.noBorrow (h : Counts s) (a : Act n R T) : NoBorrow s a := by
  have hzero : (0, 0).1 ≤ s.idle.state.numWorking ∧ (0, 0).2 ≤ s.idle.state.numSearching :=
    ⟨Nat.zero_le _, Nat.zero_le _⟩
  cases a with
  | step w b =>
    unfold NoBorrow subtracts
    dsimp only
    split
    · next hpc =>
      refine ⟨Nat.zero_le _, ?_⟩
      cases hs : (s.worker w).isSearching
      · exact Nat.zero_le _
      · exact (h.fromSearching hpc hs).2.1
    · next hpc =>
      split
      · exact hzero
      · next hm =>
        obtain ⟨-, hwork, hsum, -⟩ := h.toSleeping hpc (Bool.not_eq_true _ ▸ hm)
        exact ⟨hwork, by rw [hsum]; exact Nat.le_add_right ..⟩
    · exact hzero
  | _ => exact hzero

/-! ## Steps -/

/-- From `p` a step that leaves `Idle` alone may go on at `p'`. -/
structure Stays (p p' : Pc n T) : Prop where
  asleep : p'.asleep = p.asleep
  resting : p'.resting → p.resting
  stage : p'.stage ≠ some .wake

theorem Stays.plain {p p' : Pc n T} (ha : p'.asleep = p.asleep) (hr : p'.resting = false)
    (hs : p'.stage = none) : Stays p p' := by
  refine ⟨ha, fun h => ?_, fun h => ?_⟩
  · rw [hr] at h
    cases h
  · rw [hs] at h
    cases h

theorem Stays.within {p p' : Pc n T} (ha : p'.asleep = p.asleep) (hr : p'.resting = p.resting)
    (hs : p'.stage = none) : Stays p p' := by
  refine ⟨ha, fun h => hr ▸ h, fun h => ?_⟩
  rw [hs] at h
  cases h

theorem Stays.check {p : Pc n T} {k : After} (ha : k.asleep = p.asleep) :
    Stays p (.wakeUpOne .check k) := by
  refine ⟨ha, fun h => ?_, fun h => ?_⟩
  · exact Pc.resting_of_asleep (ha ▸ h)
  · cases h

theorem Stays.ite {p p₁ p₂ : Pc n T} {c : Prop} [Decidable c] (h₁ : Stays p p₁) (h₂ : Stays p p₂) :
    Stays p (if c then p₁ else p₂) := by
  split
  · exact h₁
  · exact h₂

theorem Stays.goesOn {p : Pc n T} {k : After} (ha : k.asleep = p.asleep) : Stays p k.pc := by
  refine ⟨k.pc_asleep.trans ha, fun h => ?_, by rw [k.pc_stage]; simp⟩
  rw [k.pc_resting] at h
  exact Pc.resting_of_asleep (ha ▸ h)

theorem Counts.goes (h : Counts s) {q : WorkStealing.State (Fin n) T} {r : Worker n T} {p : Pc n T}
    (hpc : (s.worker w).pc = p) (hl : Stays p r.pc)
    (hs : r.isSearching = (s.worker w).isSearching) :
    Counts (setWorker { s with queues := q } w r) := by
  subst hpc
  refine h.move ?_ (fun hw => ?_) (fun hr => ?_) hl.stage
  · unfold Holds
    rw [setWorker_worker_self, hs, hl.asleep]
    rfl
  · rw [hl.asleep]
    exact h.sleeping w hw
  · rw [hs]
    exact h.quiet w (hl.resting hr)

theorem Counts.jump (h : Counts s) {p p' : Pc n T} (hpc : (s.worker w).pc = p)
    (hl : Stays p p') : Counts (goTo s w p') :=
  h.goes hpc hl rfl

theorem Counts.withQueues (h : Counts s) (q : WorkStealing.State (Fin n) T) :
    Counts { s with queues := q } :=
  ⟨h.small, h.packs, h.sleeping, h.quiet, h.mutex, h.begins⟩

theorem Counts.startCall (h : Counts s) {a : WorkStealing.Act (Fin n) T} {p p' : Pc n T}
    (hpc : (s.worker w).pc = p) (hs : startCall s w a p' = some t) (hl : Stays p p') :
    Counts t := by
  obtain ⟨q, -, rfl⟩ := Option.map_eq_some_iff.1 hs
  exact h.goes hpc hl rfl

theorem Counts.continueCall (h : Counts s) {b : Bool}
    {k : State n R T → List T → Option (State n R T)}
    (hk : ∀ queues result, Counts { s with queues } → k { s with queues } result = some t → Counts t)
    (hs : continueCall s w b k = some t) : Counts t := by
  obtain ⟨q, -, hs⟩ := Option.bind_eq_some_iff.1 hs
  split at hs
  · exact hk q _ (h.withQueues q) hs
  · cases hs
    exact h.withQueues q

theorem Counts.nextLocalTask (h : Counts s) {p : Pc n T} (hpc : (s.worker w).pc = p)
    (ha : p.asleep = false) {interval : Bool} (hs : nextLocalTask s w interval = some t) :
    Counts t := by
  unfold MultiThread.nextLocalTask at hs
  split at hs
  · cases hs
    exact h.goes hpc (.plain ha.symm rfl rfl) rfl
  · exact h.startCall hpc hs (.plain ha.symm rfl rfl)

theorem Counts.noRemoteTask (h : Counts s) {p : Pc n T} (hpc : (s.worker w).pc = p)
    (ha : p.asleep = false) {k : Remote} (hs : noRemoteTask s w k = some t) : Counts t := by
  cases k with
  | interval => exact h.nextLocalTask hpc ha hs
  | noRoom =>
    cases hs
    exact h.jump hpc (.plain ha.symm rfl rfl)
  | steal =>
    cases hs
    exact h.jump hpc (.plain ha.symm rfl rfl)

theorem Counts.delivered (h : Counts s) {k : After} {published : Bool}
    (hpc : (s.worker w).pc = .deliver k [] published) : Counts (delivered s w k published) := by
  have hpoll : Counts (if (s.worker w).isSearching then goTo s w k.pc
      else goTo s w (.notifyHead k published)) := by
    split
    · exact h.jump hpc (.goesOn rfl)
    · exact h.jump hpc (.within rfl rfl rfl)
  cases k with
  | wait => exact h.jump hpc (.within rfl rfl rfl)
  | _ => exact hpoll

theorem Counts.continuePush (h : Counts s) {b published : Bool} {p : Pc n T} (p' : Bool → Pc n T)
    {k : State n R T → Bool → State n R T} (hpc : (s.worker w).pc = p)
    (hl : ∀ published, Stays p (p' published))
    (hk : ∀ queues published, Counts (k { s with queues } published))
    (hs : continuePush s w b published p' k = some t) : Counts t := by
  obtain ⟨q, -, hs⟩ := Option.map_eq_some_iff.1 hs
  dsimp only at hs
  split at hs
  · subst hs
    exact hk q _
  · subst hs
    exact h.goes hpc (hl _) rfl

/-- `w` finds itself notified. -/
theorem Counts.notified (h : Counts s) (ha : (s.worker w).pc.asleep)
    (hw : w ∉ s.idle.sleepingWorkers) :
    Counts (setWorker s w { s.worker w with isSearching := true, pc := .loop }) := by
  refine h.move (iff_of_true (Or.inl ?_) (Or.inr ⟨ha, hw⟩)) (fun hw' => absurd hw' hw)
    (fun hr => ?_) (by simp [Pc.stage])
  · rw [setWorker_worker_self]
  · cases hr

theorem Counts.stepPc (h : Counts s) (hn : n < 2 ^ 16) {config : Config} {b : Bool}
    (hs : stepPc config s w b = some t) : Counts t := by
  unfold MultiThread.stepPc at hs
  cases hpc : (s.worker w).pc <;> simp only [hpc] at hs
  case arrive | wakeUpOne | fastrand | task | thrown => cases hs
  case loop =>
    cases hs
    exact h.goes hpc (.ite (.plain rfl rfl rfl) (.plain rfl rfl rfl)) rfl
  case deliver k tasks published =>
    cases tasks with
    | nil =>
      cases hs
      exact h.delivered hpc
    | cons task tasks => exact h.startCall hpc hs (.within rfl rfl rfl)
  case delivering k tasks published =>
    refine h.continuePush (.delivering k tasks) hpc (fun _ => .within rfl rfl rfl)
      (fun q published => ?_) hs
    exact (h.withQueues q).jump hpc (.within rfl rfl rfl)
  case notifyHead =>
    cases hs
    exact h.jump hpc (.within rfl rfl rfl)
  case notifyTail k published head =>
    cases hs
    exact h.jump hpc (.ite (.check rfl) (.goesOn rfl))
  case nextTask =>
    split at hs
    · cases hs
      exact h.jump hpc (.plain rfl rfl rfl)
    · exact h.nextLocalTask hpc rfl hs
  case remoteEmpty =>
    split at hs
    · exact h.noRemoteTask hpc rfl hs
    · cases hs
      exact h.jump hpc (.plain rfl rfl rfl)
  case remotePop =>
    obtain ⟨q, -, hs⟩ := Option.bind_eq_some_iff.1 hs
    split at hs
    · cases hs
      exact (h.withQueues q).jump hpc (.plain rfl rfl rfl)
    · exact (h.withQueues q).noRemoteTask hpc rfl hs
  case popping interval =>
    refine h.continueCall (fun q result hi hk => ?_) hs
    split at hk
    · cases hk
      cases interval
      · exact hi.jump hpc (.plain rfl rfl rfl)
      · exact hi.jump hpc (.plain rfl rfl rfl)
    · cases hk
      exact hi.jump hpc (.plain rfl rfl rfl)
  case globalEmpty =>
    split at hs
    · cases hs
      exact h.jump hpc (.plain rfl rfl rfl)
    · exact h.startCall hpc hs (.plain rfl rfl rfl)
  case remaining =>
    refine h.continueCall (fun q result hi hk => ?_) hs
    cases hk
    refine hi.jump hpc ?_
    generalize min _ (localQueueCapacity / 2) = m
    split
    · exact .plain rfl rfl rfl
    · exact .plain rfl rfl rfl
  case globalSize =>
    cases hs
    exact h.jump hpc (.plain rfl rfl rfl)
  case popN =>
    obtain ⟨q, -, hs⟩ := Option.bind_eq_some_iff.1 hs
    split at hs
    · cases hs
      exact (h.withQueues q).jump hpc (.plain rfl rfl rfl)
    · cases hs
      exact (h.withQueues q).jump hpc (.plain rfl rfl rfl)
    · exact (h.withQueues q).startCall hpc hs (.plain rfl rfl rfl)
  case pushBatch =>
    refine h.continueCall (fun q result hi hk => ?_) hs
    split at hk
    · cases hk
      exact hi.jump hpc (.plain rfl rfl rfl)
    · cases hk
      exact hi.jump hpc (.plain rfl rfl rfl)
  case toSearching =>
    split at hs
    · cases hs
      exact h.jump hpc (.plain rfl rfl rfl)
    · next hsearching =>
      split at hs
      · cases hs
        exact h.jump hpc (.plain rfl rfl rfl)
      · cases hs
        refine h.move ?_ (fun hw => ?_) (fun _ => Bool.not_eq_true _ ▸ hsearching) (by simp [Pc.stage])
        · unfold Holds
          rw [setWorker_worker_self, hpc]
          rfl
        · exact absurd hw (h.not_sleeping (by rw [hpc]; rfl))
  case incSearching =>
    cases hs
    have hsearching : (s.worker w).isSearching = false := h.quiet w (by rw [hpc]; rfl)
    have hnot : ¬ Holds s w := by simp [Holds, hpc, hsearching, Pc.asleep]
    exact h.incSearching hpc (h.room hn hnot)
  case steal =>
    split at hs
    · split at hs
      · cases hs
        exact h.jump hpc (.plain rfl rfl rfl)
      · exact h.startCall hpc hs (.plain rfl rfl rfl)
    · cases hs
      exact h.jump hpc (.plain rfl rfl rfl)
  case stealing =>
    refine h.continueCall (fun q result hi hk => ?_) hs
    split at hk
    · cases hk
      exact hi.jump hpc (.plain rfl rfl rfl)
    · cases hk
      exact hi.jump hpc (.plain rfl rfl rfl)
  case runTask =>
    split at hs
    · next hsearching =>
      cases hs
      exact (h.fromSearching hpc hsearching).1
    · cases hs
      exact h.jump hpc (.plain rfl rfl rfl)
  case scheduleLocal task published =>
    refine h.continuePush (.scheduleLocal task) hpc (fun _ => .within rfl rfl rfl)
      (fun q published => ?_) hs
    exact h.goes hpc (.check rfl) rfl
  case sleepHead | sleepTail =>
    cases hs
    exact h.jump hpc (.ite (.plain rfl rfl rfl) (.plain rfl rfl rfl))
  case toSleeping =>
    simp only [Option.ite_none_left_eq_some, Bool.not_eq_true] at hs
    obtain ⟨hm, hs⟩ := hs
    cases hs
    exact (h.toSleeping hpc hm).1
  case scanHead | wokenHead =>
    cases hs
    refine h.jump hpc ?_
    split
    · exact .within rfl rfl rfl
    · exact .within rfl rfl rfl
  case scanTail | wokenTail =>
    cases hs
    exact h.jump hpc (.ite (.within rfl rfl rfl) (.within rfl rfl rfl))
  case scanGlobal =>
    cases hs
    exact h.jump hpc (.ite (.within rfl rfl rfl) (.check rfl))
  case remove =>
    simp only [Option.ite_none_left_eq_some, Bool.not_eq_true, Idle.remove] at hs
    obtain ⟨hm, hs⟩ := hs
    split at hs
    · next hw =>
      cases hs
      exact (h.remove (by rw [hpc]; rfl) (h.quiet w (by rw [hpc]; rfl)) hm hw).1
    · next hw =>
      cases hs
      exact h.notified (by rw [hpc]; rfl) hw
  case contains =>
    simp only [Option.ite_none_left_eq_some] at hs
    obtain ⟨-, hs⟩ := hs
    split at hs
    · cases hs
      exact h.jump hpc (.within rfl rfl rfl)
    · next hw =>
      cases hs
      exact h.notified (by rw [hpc]; rfl) hw

/-- In `worker_to_notify` there is a sleeper to count. -/
theorem Counts.roomToWake (h : Counts s) (hn : n < 2 ^ 16) {u : Fin n ⊕ R}
    (hu : stage s u = some .wake) : s.idle.state.numSearching + 1 < 2 ^ 16 := by
  obtain ⟨v, hv⟩ := h.begins u hu
  exact h.room hn (h.not_holds hv)

theorem counts_step [DecidableEq R] {config : Config} (hn : n < 2 ^ 16) (s : State n R T)
    (a : Act n R T) (t : State n R T) (h : Counts s) (hs : step config s a = some t) :
    Counts t := by
  cases a with
  | step w b => exact h.stepPc hn hs
  | arrive w tasks count =>
    simp only [step] at hs
    split at hs
    · next k hpc =>
      split at hs
      · cases hs
      · split at hs
        · cases hs
          cases k with
          | wait => exact h.jump hpc (.within rfl rfl rfl)
          | _ => exact h.jump hpc (.plain rfl rfl rfl)
        · cases hs
          exact h.jump hpc (.within rfl rfl rfl)
    · cases hs
  | fastrand w start =>
    simp only [step] at hs
    split at hs
    · next hpc =>
      cases hs
      exact h.jump hpc (.plain rfl rfl rfl)
    · cases hs
  | wakeUpOne w first =>
    simp only [step] at hs
    split at hs
    · next now k hpc =>
      obtain ⟨⟨idle, next⟩, hi, rfl⟩ := Option.map_eq_some_iff.1 hs
      obtain ⟨hnot, hnext, -⟩ := wakeUpOne_notifies hpc idle next
      have hnow : stage s (.inl w) = some now := by simp [stage, hpc, Pc.stage]
      exact (h.notifies hnow hi (fun hw => h.roomToWake hn (hw ▸ hnow)) hnot hnext).1
    · cases hs
  | scheduleLocal w task =>
    simp only [step] at hs
    split at hs
    · next hpc =>
      split at hs
      · exact h.startCall hpc hs (.plain rfl rfl rfl)
      · cases hs
        refine h.goes hpc ?_ rfl
        rw [hpc]
        exact .plain rfl rfl rfl
    · cases hs
  | scheduleRemote w tasks =>
    simp only [step] at hs
    split at hs
    · next hpc =>
      obtain ⟨s', hs', rfl⟩ := Option.map_eq_some_iff.1 hs
      obtain ⟨q, -, rfl⟩ := Option.map_eq_some_iff.1 hs'
      exact (h.withQueues q).jump hpc (.check rfl)
    · cases hs
  | suspend w =>
    simp only [step] at hs
    split at hs
    · next hpc =>
      cases hs
      exact h.jump hpc (.plain rfl rfl rfl)
    · cases hs
  | remote r tasks =>
    simp only [step] at hs
    split at hs
    · obtain ⟨s', hs', rfl⟩ := Option.map_eq_some_iff.1 hs
      obtain ⟨q, -, rfl⟩ := Option.map_eq_some_iff.1 hs'
      exact h.remote q r
    · cases hs
  | remoteWakeUpOne r first =>
    simp only [step] at hs
    split at hs
    · next now hr =>
      obtain ⟨⟨idle, next⟩, hi, rfl⟩ := Option.map_eq_some_iff.1 hs
      obtain ⟨hnot, hnext, -⟩ := remoteWakeUpOne_notifies s r idle next
      exact (h.notifies (u := .inr r) hr hi (fun hw => h.roomToWake hn (u := .inr r) (hw ▸ hr))
        hnot hnext).1
    · cases hs

/-! ## Top theorem -/

/-- **Idle accounting.**  For fewer than `2 ^ 16` workers and every interleaving:
in every state reached the word counts the working and the searching while the
mutex is free, `begin()` is of a set that is not empty, and no step from it
borrows from a field. -/
theorem idle_accounting [DecidableEq R] [Inhabited T] (config : Config) (hn : n < 2 ^ 16)
    (s : State n R T) (h : Reachable (step config) (fun _ _ _ => True) init s) :
    Accounts s ∧ ∀ a, NoBorrow s a := by
  have hc : Counts s := h.inv Counts (fun s a t hc hs _ => counts_step hn s a t hc hs)
    (counts_init (by omega))
  exact ⟨hc.accounts, hc.noBorrow⟩

/-- Two workers sleep and a third thread has notified one of them. -/
theorem idle_accounting_notified :
    ∃ s : State 3 Unit Nat, run (step {}) init notifyRun = some s ∧
      s.idle.state.numSearching = 1 ∧ (notified s).card = 1 ∧ Accounts s ∧ ∀ a, NoBorrow s a := by
  obtain ⟨s, hs, hsearching, hnotified⟩ := run_eval (step {}) (init : State 3 Unit Nat) notifyRun
    (fun s => s.idle.state.numSearching = 1 ∧ (notified s).card = 1) (by decide +kernel)
  have hr : Reachable (step {}) (fun _ _ _ => True) init s := ⟨notifyRun, hs, eachStep_true _ _⟩
  exact ⟨s, hs, hsearching, hnotified, idle_accounting {} (by decide) s hr⟩

end Kosio.Runtime.MultiThread
