import Kosio.Common.FastRandPeriod
import Kosio.Runtime.Scheduler.WakeUp

/-!
# `steal_task`: where to begin

A worker that searches draws from its own `FastRand` which worker to ask first, and
asks the others in a circle from there.  Here the draws are steps of the
scheduler: a turn of the loop of `fastrand_n` each.  The loop is left after
finitely many turns of the worker, whatever the others do, if and only if its
seeds are not both zero, or there are as many workers as a power of two.  And
raw values that are uniform make every worker equally likely to be the `i`-th
that is asked.
-/

namespace Kosio.Runtime.StealTask

open Steps MultiThread FastRand

variable {n : Nat} {R T : Type}

/-! ## Algorithm -/

/-- The scheduler, and `rand_` of each worker. -/
structure State (n : Nat) (R T : Type) where
  scheduler : MultiThread.State n R T
  rand : Fin n → FastRand

def init [Inhabited T] (seeds : Fin n → FastRand) : State n R T := ⟨MultiThread.init, seeds⟩

/-- `static_cast<uint32_t>(num)` -/
def numWorkers (n : Nat) : U32 := BitVec.ofNat 32 n

/-- `start`, which is used modulo the number of workers only. -/
def start (w : Fin n) (k : U32) : Fin n := ⟨k.toNat % n, Nat.mod_lt _ w.pos⟩

/-- A turn of the loop of `fastrand_n`; zero is returned at once. -/
def draw (s : State n R T) (w : Fin n) : Option U32 × FastRand :=
  if numWorkers n = 0 then (some 0, s.rand w)
  else (accept (numWorkers n) (s.rand w).raw, (s.rand w).next)

inductive Act (n : Nat) (R T : Type) where
  | scheduler (a : MultiThread.Act n R T)
  /-- the next turn of the loop that `w` is in -/
  | fastrand (w : Fin n)

def setRand (s : State n R T) (w : Fin n) (r : FastRand) : State n R T :=
  { s with rand := Function.update s.rand w r }

def step [DecidableEq R] (config : Config) (s : State n R T) : Act n R T → Option (State n R T)
  | .scheduler (.fastrand _ _) => none
  | .scheduler a =>
    (MultiThread.step config s.scheduler a).map fun scheduler => { s with scheduler }
  | .fastrand w =>
    match (s.scheduler.worker w).pc with
    | .fastrand =>
      let (k, r) := draw s w
      match k with
      | some k => (MultiThread.step config s.scheduler (.fastrand w (start w k))).map
          fun scheduler => { setRand s w r with scheduler }
      | none => some (setRand s w r)
    | _ => none

/-! ## Specification -/

def State.pc (s : State n R T) (w : Fin n) : Pc n T := (s.scheduler.worker w).pc

theorem circle_lt (start : Fin n) (i : Nat) : (start.val + i) % n < n := Nat.mod_lt _ start.pos

/-- The worker that is asked when `i` have been. -/
def victim (start : Fin n) (i : Nat) : Fin n := ⟨(start.val + i) % n, circle_lt start i⟩

/-- The same of the raw values that `fastrand_n` gets. -/
def asked (w : Fin n) (i : Nat) {m : Nat} (rs : Fin m → U32) : Option (Fin n) :=
  (Rejection.result (accept (numWorkers n)) rs).map fun k => victim (start w k) i

def Act.isTurn (w : Fin n) : Act n R T → Bool
  | .fastrand v => v = w
  | _ => false

/-- The loop goes around once more. -/
def Refuses (n : Nat) (r : FastRand) : Prop :=
  numWorkers n ≠ 0 ∧ accept (numWorkers n) r.raw = none

variable [DecidableEq R]

/-- In every run in which `w` stays in the loop, it takes at most `k` turns. -/
def LeavesIn (config : Config) (s : State n R T) (w : Fin n) (k : Nat) : Prop :=
  ∀ as, (run (step config) s as).isSome →
    EachStep (step config) (fun _ _ t => t.pc w = .fastrand) s as → as.countP (Act.isTurn w) ≤ k

def Leaves (config : Config) (s : State n R T) (w : Fin n) : Prop := ∃ k, LeavesIn config s w k

/-! ## Steps -/

section Step

variable {config : Config} {s t : State n R T} {w : Fin n}

theorem step_scheduler {a : MultiThread.Act n R T} (hs : step config s (.scheduler a) = some t) :
    MultiThread.step config s.scheduler a = some t.scheduler ∧ t.rand = s.rand := by
  cases a with
  | fastrand v start => cases hs
  | _ =>
    obtain ⟨u, hu, rfl⟩ := Option.map_eq_some_iff.1 hs
    exact ⟨hu, rfl⟩

/-- A turn that ends the loop is the draw of the scheduler, and any other is none of its
steps. -/
theorem step_fastrand (hs : step config s (.fastrand w) = some t) :
    t.rand = Function.update s.rand w (draw s w).2 ∧
      ((∃ k, (draw s w).1 = some k ∧
          MultiThread.step config s.scheduler (.fastrand w (start w k)) = some t.scheduler) ∨
        ((draw s w).1 = none ∧ t.scheduler = s.scheduler)) := by
  simp only [step] at hs
  split at hs
  · split at hs
    · next k hk =>
      obtain ⟨u, hu, rfl⟩ := Option.map_eq_some_iff.1 hs
      exact ⟨rfl, Or.inl ⟨k, hk, hu⟩⟩
    · next hk =>
      cases hs
      exact ⟨rfl, Or.inr ⟨hk, rfl⟩⟩
  · cases hs

/-- **The scheduler is refined.** -/
theorem step_simulates {a : Act n R T} (hs : step config s a = some t) :
    ∃ as, run (MultiThread.step config) s.scheduler as = some t.scheduler := by
  cases a with
  | scheduler a =>
    refine ⟨[a], ?_⟩
    rw [run_one]
    exact (step_scheduler hs).1
  | fastrand w =>
    obtain ⟨-, ⟨k, -, hk⟩ | ⟨-, he⟩⟩ := step_fastrand hs
    · refine ⟨[.fastrand w (start w k)], ?_⟩
      rw [run_one]
      exact hk
    · exact ⟨[], by rw [he]; rfl⟩

theorem step_turn (hs : step config s (.fastrand w) = some t) (hpc : t.pc w = .fastrand) :
    Refuses n (s.rand w) ∧ t.rand w = (s.rand w).next := by
  obtain ⟨hrand, ⟨k, -, hk⟩ | ⟨hnone, -⟩⟩ := step_fastrand hs
  · -- a draw is followed by the search
    simp only [MultiThread.step] at hk
    split at hk
    · have hgo := Option.some.inj hk
      rw [State.pc, ← hgo, goTo, setWorker_worker_self] at hpc
      cases hpc
    · cases hk
  · unfold draw at hnone hrand
    split at hnone
    · cases hnone
    · next hnum =>
      rw [if_neg hnum] at hrand
      refine ⟨⟨hnum, hnone⟩, ?_⟩
      rw [hrand]
      exact Function.update_self ..

omit [DecidableEq R] in
theorem eq_of_isTurn {a : Act n R T} (ha : a.isTurn w = true) : a = .fastrand w := by
  cases a with
  | scheduler a => cases ha
  | fastrand v =>
    obtain rfl : v = w := of_decide_eq_true ha
    rfl

theorem step_rand_ne {a : Act n R T} (ha : a.isTurn w = false) (hs : step config s a = some t) :
    t.rand w = s.rand w := by
  cases a with
  | scheduler a => rw [(step_scheduler hs).2]
  | fastrand v =>
    rw [(step_fastrand hs).1]
    exact Function.update_of_ne (Ne.symm (of_decide_eq_false ha)) ..

theorem step_rand {a : Act n R T} (hs : step config s a = some t) (w : Fin n) :
    ∃ j, t.rand w = next^[j] (s.rand w) := by
  cases ha : a.isTurn w with
  | false => exact ⟨0, step_rand_ne ha hs⟩
  | true =>
    obtain rfl := eq_of_isTurn ha
    rw [(step_fastrand hs).1, Function.update_self]
    unfold draw
    split
    · exact ⟨0, rfl⟩
    · exact ⟨1, rfl⟩

theorem step_refuses (config : Config) (hpc : s.pc w = .fastrand) (h : Refuses n (s.rand w)) :
    step config s (.fastrand w) = some (setRand s w (s.rand w).next) := by
  have hdraw : draw s w = (none, (s.rand w).next) := by rw [draw, if_neg h.1, h.2]
  have hpc : (s.scheduler.worker w).pc = .fastrand := hpc
  simp only [step, hpc, hdraw]

end Step

/-! ## Runs -/

section Run

variable {config : Config} {s t : State n R T} {w : Fin n}

/-- While `w` stays in the loop, it refuses the raw values one after the other. -/
theorem run_turns {as : List (Act n R T)} (hr : (run (step config) s as).isSome)
    (hstay : EachStep (step config) (fun _ _ t => t.pc w = .fastrand) s as) :
    ∀ i < as.countP (Act.isTurn w), Refuses n (next^[i] (s.rand w)) := by
  induction as generalizing s with
  | nil => exact fun i hi => absurd hi (Nat.not_lt_zero i)
  | cons a as ih =>
    obtain ⟨t, ht⟩ := Option.isSome_iff_exists.1 hr
    obtain ⟨u, hu, hrest⟩ := (run_cons ..).1 ht
    obtain ⟨hpc, hstay⟩ := hstay u hu
    have hih := ih (by rw [hrest]; rfl) hstay
    intro i hi
    rw [List.countP_cons] at hi
    cases ha : a.isTurn w with
    | false =>
      rw [ha, if_neg (by decide), Nat.add_zero] at hi
      rw [← step_rand_ne ha hu]
      exact hih i hi
    | true =>
      obtain rfl := eq_of_isTurn ha
      obtain ⟨hrefuses, hnext⟩ := step_turn hu hpc
      rw [ha, if_pos rfl] at hi
      cases i with
      | zero => exact hrefuses
      | succ i =>
        rw [Function.iterate_succ_apply, ← hnext]
        exact hih i (Nat.lt_of_succ_lt_succ hi)

/-- Where every raw value is refused, `w` goes around as often as it gets to run. -/
theorem run_refuses (config : Config) (hpc : s.pc w = .fastrand)
    (h : ∀ j, Refuses n (next^[j] (s.rand w))) (k : Nat) :
    (run (step config) s (List.replicate k (.fastrand w))).isSome ∧
      EachStep (step config) (fun _ _ t => t.pc w = .fastrand) s
        (List.replicate k (.fastrand w)) := by
  induction k generalizing s with
  | zero => exact ⟨rfl, trivial⟩
  | succ k ih =>
    have hs := step_refuses config hpc (h 0)
    have hrand : (setRand s w (s.rand w).next).rand w = (s.rand w).next :=
      Function.update_self ..
    obtain ⟨hrun, hstay⟩ := ih (s := setRand s w (s.rand w).next) hpc fun j => by
      rw [hrand]
      exact h (j + 1)
    rw [List.replicate_succ]
    constructor
    · rw [run, hs]
      exact hrun
    · intro t ht
      rw [hs, Option.mem_some_iff] at ht
      subst ht
      exact ⟨hpc, hstay⟩

theorem leaves_iff_refuses (hpc : s.pc w = .fastrand) :
    Leaves config s w ↔ ∃ j, ¬ Refuses n (next^[j] (s.rand w)) := by
  constructor
  · rintro ⟨k, hk⟩
    by_contra hall
    have hall : ∀ j, Refuses n (next^[j] (s.rand w)) := fun j =>
      by_contra fun hj => hall ⟨j, hj⟩
    -- one turn more than there may be
    obtain ⟨hrun, hstay⟩ := run_refuses config hpc hall (k + 1)
    have hle := hk _ hrun hstay
    have hturn : (Act.fastrand w : Act n R T).isTurn w = true := decide_eq_true rfl
    rw [List.countP_replicate, if_pos hturn] at hle
    omega
  · rintro ⟨j, hj⟩
    refine ⟨j, fun as hr hstay => ?_⟩
    by_contra hlt
    exact hj (run_turns hr hstay j (Nat.not_le.1 hlt))

end Run

omit [DecidableEq R] in
theorem not_refuses_iff (r : FastRand) : (∃ j, ¬ Refuses n (next^[j] r)) ↔
    r ≠ 0 ∨ numWorkers n = 0 ∨ ∃ k, (numWorkers n).toNat = 2 ^ k := by
  rw [← fastrandN_returns_iff, fastrandN_returns]
  simp only [Refuses, not_and_or, not_not, exists_or, exists_const, ← Option.isSome_iff_ne_none,
    ne_eq]

/-- The `FastRand` of a worker is a later state of its seeds. -/
def Inv (seeds : Fin n → FastRand) (s : State n R T) : Prop :=
  ∀ w, ∃ j, s.rand w = next^[j] (seeds w)

omit [DecidableEq R] in
theorem inv_init [Inhabited T] (seeds : Fin n → FastRand) :
    Inv seeds (init seeds : State n R T) := fun _ => ⟨0, rfl⟩

section Inv

variable {config : Config} {seeds : Fin n → FastRand} {s t : State n R T} (h : Inv seeds s)

include h

theorem Inv.step {a : Act n R T} (hs : step config s a = some t) : Inv seeds t := by
  intro w
  obtain ⟨i, hi⟩ := h w
  obtain ⟨j, hj⟩ := step_rand hs w
  exact ⟨j + i, by rw [hj, hi, Function.iterate_add_apply]⟩

theorem Inv.leaves_iff {w : Fin n} (hpc : s.pc w = .fastrand) : Leaves config s w ↔
    seeds w ≠ 0 ∨ numWorkers n = 0 ∨ ∃ k, (numWorkers n).toNat = 2 ^ k := by
  rw [leaves_iff_refuses hpc, not_refuses_iff]
  obtain ⟨j, hj⟩ := h w
  have hseeds : s.rand w ≠ 0 ↔ seeds w ≠ 0 := by
    rw [hj]
    refine ⟨fun h hs => h ?_, fun h => iterate_ne_zero h j⟩
    show next^[j] (seeds w) = 0
    rw [hs, iterate_zero]
  rw [hseeds]

end Inv

/-! ## Victims -/

/-- Once around at most. -/
theorem round_once {a : Nat} (ha : a < 2 * n) : a % n = if a < n then a else a - n := by
  split
  · next hlt => exact Nat.mod_eq_of_lt hlt
  · next hge =>
    rw [Nat.mod_eq_sub_mod (Nat.not_lt.1 hge)]
    exact Nat.mod_eq_of_lt (by omega)

/-- In the circle, one start leads to each worker. -/
theorem victim_eq_iff (s v : Fin n) (i : Nat) :
    victim s i = v ↔ s.val = (v.val + (n - i % n)) % n := by
  have hi := Nat.mod_lt i s.pos
  have hs := s.isLt
  have hv := v.isLt
  rw [Fin.ext_iff]
  show (s.val + i) % n = v.val ↔ _
  rw [← Nat.add_mod_mod]
  generalize i % n = d at hi ⊢
  rw [round_once (by omega)]
  by_cases hd : d = 0
  · subst hd
    rw [Nat.sub_zero, Nat.add_mod_right, Nat.mod_eq_of_lt hv]
    split <;> omega
  · rw [round_once (by omega)]
    split <;> split <;> omega

theorem numWorkers_toNat (hn : n < 2 ^ 32) : (numWorkers n).toNat = n := by
  rw [numWorkers, BitVec.toNat_ofNat]
  exact Nat.mod_eq_of_lt hn

theorem numWorkers_ne_zero (hpos : 0 < n) (hn : n < 2 ^ 32) : numWorkers n ≠ 0 := by
  intro h
  have hzero : (numWorkers n).toNat = 0 := by rw [h]; rfl
  rw [numWorkers_toNat hn] at hzero
  omega

/-- For each worker there is one draw with which it is the `i`-th that is asked. -/
theorem exists_draw (hn : n < 2 ^ 32) (w v : Fin n) (i : Nat) : ∃ k₀ < numWorkers n,
    ∀ r, (accept (numWorkers n) r).map (fun k => victim (start w k) i) = some v ↔
      accept (numWorkers n) r = some k₀ := by
  have hnat := numWorkers_toNat hn
  have hlt : (v.val + (n - i % n)) % n < n := Nat.mod_lt _ w.pos
  let k₀ : U32 := BitVec.ofNat 32 ((v.val + (n - i % n)) % n)
  have hk₀ : k₀.toNat = (v.val + (n - i % n)) % n := by
    rw [BitVec.toNat_ofNat]
    exact Nat.mod_eq_of_lt (Nat.lt_trans hlt hn)
  refine ⟨k₀, ?_, fun r => ?_⟩
  · rw [BitVec.lt_def, hk₀, hnat]
    exact hlt
  · have hstart : ∀ k, accept (numWorkers n) r = some k → (start w k).val = k.toNat := by
      intro k hk
      have := accept_lt (numWorkers_ne_zero w.pos hn) hk
      exact Nat.mod_eq_of_lt (by omega)
    rw [Option.map_eq_some_iff]
    constructor
    · rintro ⟨k, hk, hv⟩
      rw [victim_eq_iff, hstart k hk, ← hk₀] at hv
      rw [hk, BitVec.eq_of_toNat_eq hv]
    · intro hk
      refine ⟨k₀, hk, ?_⟩
      rw [victim_eq_iff, hstart k₀ hk, hk₀]

/-- One raw value: no worker is preferred, whichever is asked as the `i`-th. -/
theorem card_victim (hn : n < 2 ^ 32) (w v : Fin n) (i : Nat) :
    (Finset.univ.filter fun r =>
      (accept (numWorkers n) r).map (fun k => victim (start w k) i) = some v).card =
        2 ^ 32 / n := by
  obtain ⟨k₀, hk₀, hdraw⟩ := exists_draw hn w v i
  simp only [hdraw]
  rw [card_accept (numWorkers_ne_zero w.pos hn) hk₀, numWorkers_toNat hn]

/-- Up to `m` of them. -/
theorem draws_asked (hn : n < 2 ^ 32) (w : Fin n) (i m : Nat) (v v' : Fin n) :
    Rejection.draws (asked w i (m := m)) (some v) =
      Rejection.draws (asked w i (m := m)) (some v') := by
  have hasked : asked w i (m := m) = Rejection.result fun r =>
      (accept (numWorkers n) r).map fun k => victim (start w k) i :=
    funext fun rs => Rejection.result_map ..
  rw [hasked]
  apply Rejection.draws_result_congr
  exact (card_victim hn w v i).trans (card_victim hn w v' i).symm

/-! ## Top theorems -/

/-- Calls return, and the loop in `steal_task` ends, for all seeds but the two zeros,
and for these where nothing is refused. -/
theorem fastrandN_leaves_iff [Inhabited T] (config : Config) (seeds : Fin n → FastRand)
    (as : List (Act n R T)) :
    (∀ (s : FastRand) (ns : List U32), Returns s ns ↔
      s ≠ 0 ∨ ∀ m ∈ ns, m = 0 ∨ ∃ k, m.toNat = 2 ^ k) ∧
    EachStep (step config) (fun _ _ t => ∀ w, t.pc w = .fastrand →
      (Leaves config t w ↔
        seeds w ≠ 0 ∨ numWorkers n = 0 ∨ ∃ k, (numWorkers n).toNat = 2 ^ k)) (init seeds) as := by
  refine ⟨returns_iff, ?_⟩
  refine eachStep_of_inv (Inv seeds) (fun s a t h hs _ => h.step hs) ?_ (inv_init seeds)
    (eachStep_true _ as)
  intro s a t h hs _ w hpc
  exact (h.step hs).leaves_iff hpc

/-- Three workers, and a `random_device` that has returned zero twice. -/
theorem fastrandN_spins : (¬ ∃ fuel, (fastrandN fuel 3 ⟨0, 0⟩).isSome) ∧
    ∃ as t, run (step {}) (init fun _ => ⟨0, 0⟩ : State 3 Unit Unit) as = some t ∧
      t.pc 0 = .fastrand ∧ ¬ Leaves {} t 0 := by
  have hthree : ¬ ((⟨0, 0⟩ : FastRand) ≠ 0 ∨ numWorkers 3 = 0 ∨
      ∃ k, (numWorkers 3).toNat = 2 ^ k) := by
    rintro (h | h | h)
    · exact h rfl
    · exact absurd h (by decide)
    · exact absurd ((threshold_eq_zero_iff (by decide)).2 h) (by decide)
  refine ⟨fun h => hthree ((fastrandN_returns_iff _ _).1 h), ?_⟩
  let as : List (Act 3 Unit Unit) := List.replicate 7 (.scheduler (.step 0 false))
  obtain ⟨t, ht, hpc⟩ := run_eval (step {}) (init fun _ => ⟨0, 0⟩ : State 3 Unit Unit) as
    (fun t => t.pc 0 = .fastrand) (by decide +kernel)
  have hinv : Inv (fun _ => ⟨0, 0⟩) t :=
    run_inv (Inv _) (fun s a t h hs _ => h.step hs) (inv_init _) ht (eachStep_true _ as)
  exact ⟨as, t, ht, hpc, fun h => hthree ((hinv.leaves_iff hpc).1 h)⟩

/-- Each result comes from equally many raw values, and so does each victim. -/
theorem fastrandN_unbiased (n : Nat) (hpos : 1 ≤ n) (hn : n < 2 ^ 32) :
    Unbiased (BitVec.ofNat 32 n) ∧
      (∀ (w v : Fin n) (i : Nat), (Finset.univ.filter fun r =>
        (accept (numWorkers n) r).map (fun k => victim (start w k) i) = some v).card =
          2 ^ 32 / n) ∧
      ∀ (w : Fin n) (i m : Nat) (v v' : Fin n), Rejection.draws (asked w i (m := m)) (some v) =
        Rejection.draws (asked w i (m := m)) (some v') :=
  ⟨unbiased (numWorkers_ne_zero hpos hn), card_victim hn, draws_asked hn⟩

theorem fastrandN_unbiased_three :
    (1 ≤ 3 ∧ 3 < 2 ^ 32) ∧ (Finset.univ.filter fun r =>
      (accept (numWorkers 3) r).map (fun k => victim (start (0 : Fin 3) k) 1) = some 2).card =
        1431655765 :=
  ⟨by decide, (fastrandN_unbiased 3 (by decide) (by decide)).2.1 0 2 1⟩

end Kosio.Runtime.StealTask
