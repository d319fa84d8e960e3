import Kosio.Async.Refine

/-!
# What the coroutines never do

From the simulation: the coroutines do nothing that the calls could not do
(`refines`).  A program that keeps the variables it spawns from apart from those it
awaits (`Apart`, which is checked instruction by instruction) never spawns a task it
has awaited, so no schedule uses a frame after it was destroyed, destroys one twice,
resumes a coroutine that is running or has ended, or reads a result that is not there
(`never_undefined`).  And nothing is left behind: once no coroutine is scheduled,
running or waiting for an event, every frame has been destroyed (`no_leak`).
-/

namespace Kosio.Async

open Function Steps
open Direct (TaskVal Level Thread Ctl)

variable {n : Nat} {P V E A W : Type} {code : P → Op n P V E A} {debug : Bool}
  {spawned : Fin n → Prop}

/-! ## Invariant -/

/-- A variable that is spawned from is not awaited, and gets its task from another
such variable or from a call. -/
structure Apart (code : P → Op n P V E A) (spawned : Fin n → Prop) : Prop where
  spawn : ∀ p i k, code p = .spawn i k → spawned i
  await : ∀ p i k, code p = .coAwait i k → ¬ spawned i
  assign : ∀ p dst src k, code p = .assign dst src k → spawned dst → spawned src
  call : ∀ p dst callee src param k, code p = .call dst callee (some (src, param)) k →
    spawned param → spawned src

/-- In a call that has not been made, the variables that are spawned from hold no result. -/
inductive Unspent (spawned : Fin n → Prop) : TaskVal n P V E → Prop
  | null : Unspent spawned .null
  | done (r : Result V E) : Unspent spawned (.done r)
  | fresh (p : P) {locals : Fin n → TaskVal n P V E}
      (h : ∀ i, spawned i → ∀ r, locals i ≠ .done r) (hl : ∀ i, Unspent spawned (locals i)) :
      Unspent spawned (.fresh p locals)

def UnspentLocals (spawned : Fin n → Prop) (locals : Fin n → TaskVal n P V E) : Prop :=
  ∀ i, (spawned i → ∀ r, locals i ≠ .done r) ∧ Unspent spawned (locals i)

def UnspentThread (spawned : Fin n → Prop) (th : Thread n P V E) : Prop :=
  UnspentLocals spawned th.locals ∧
    ∀ lv ∈ th.stack, UnspentLocals spawned lv.locals ∧ ¬ spawned lv.src

theorem UnspentLocals.none : UnspentLocals spawned (fun _ => (.null : TaskVal n P V E)) :=
  fun _ => ⟨fun _ r => by simp, .null⟩

theorem UnspentLocals.update {locals : Fin n → TaskVal n P V E} {i : Fin n} {tv : TaskVal n P V E}
    (h : UnspentLocals spawned locals) (htv : Unspent spawned tv)
    (hi : spawned i → ∀ r, tv ≠ .done r) : UnspentLocals spawned (update locals i tv) := by
  intro j
  by_cases hj : j = i
  · subst hj
    rw [update_self]
    exact ⟨hi, htv⟩
  · rw [update_of_ne hj]
    exact h j

theorem UnspentLocals.fresh {locals : Fin n → TaskVal n P V E} (h : UnspentLocals spawned locals)
    (p : P) : Unspent spawned (.fresh p locals) :=
  .fresh p (fun i => (h i).1) fun i => (h i).2

theorem UnspentLocals.of_fresh {p : P} {locals : Fin n → TaskVal n P V E}
    (h : Unspent spawned (.fresh p locals)) : UnspentLocals spawned locals := by
  cases h with
  | fresh _ h hl => exact fun i => ⟨h i, hl i⟩

theorem UnspentLocals.passArg {locals : Fin n → TaskVal n P V E} (h : UnspentLocals spawned locals)
    (arg : Option (Fin n × Fin n))
    (harg : ∀ src param, arg = some (src, param) → spawned param → spawned src) :
    UnspentLocals spawned (Direct.passArg locals arg).1 ∧
      UnspentLocals spawned (Direct.passArg locals arg).2 := by
  cases arg with
  | none => exact ⟨h, .none⟩
  | some arg =>
    obtain ⟨src, param⟩ := arg
    refine ⟨h.update .null fun _ r => by simp, UnspentLocals.none.update (h src).2 ?_⟩
    exact fun hp => (h src).1 (harg src param rfl hp)

/-- No thread has spent what it spawns, and none has spawned what was spent. -/
def Good (spawned : Fin n → Prop) (d : Direct.State n P V E A) : Prop :=
  d.status ≠ .undefined ∧ ∀ t th, d.threads t = some th → UnspentThread spawned th

theorem Good.put {d : Direct.State n P V E A} (h : Good spawned d) {t : Handle}
    {th : Thread n P V E} (hth : UnspentThread spawned th) : Good spawned (d.put t th) := by
  refine ⟨h.1, fun t' th' ht' => ?_⟩
  change update d.threads t (some th) t' = some th' at ht'
  by_cases htt : t' = t
  · subst htt
    cases (update_self t' (some th) d.threads).symm.trans ht'
    exact hth
  · exact h.2 t' th' ((update_of_ne htt (some th) d.threads).symm.trans ht')

theorem Good.emit {d : Direct.State n P V E A} (h : Good spawned d) (e : Event V E A) :
    Good spawned (d.emit e) :=
  h

theorem Good.returns {d : Direct.State n P V E A} (h : Good spawned d) {t : Handle}
    {th : Thread n P V E} (hth : UnspentThread spawned th) (r : Result V E) :
    Good spawned (Direct.returns debug d t th r) := by
  unfold Direct.returns
  split
  · refine ⟨?_, fun t' th' ht' => ?_⟩
    · dsimp only
      split
      · simp
      · exact h.1
    · by_cases htt : t' = t
      · subst htt
        cases (update_self t' none d.threads).symm.trans ht'
      · exact h.2 t' th' ((update_of_ne htt none d.threads).symm.trans ht')
  · rename_i lv ls hst
    obtain ⟨h1, h2⟩ := hth.2 lv (by rw [hst]; exact List.mem_cons_self)
    refine h.put ⟨h1.update (.done r) fun hs => absurd hs h2, fun lv' hlv' => ?_⟩
    exact hth.2 lv' (by rw [hst]; exact List.mem_cons_of_mem _ hlv')

/-- **One instruction spends nothing that is spawned.** -/
theorem Good.exec (hap : Apart code spawned) {d : Direct.State n P V E A} (h : Good spawned d)
    {t new : Handle} {th : Thread n P V E} (hth : UnspentThread spawned th) (p : P) :
    Good spawned (Direct.exec code debug d t new th p) := by
  obtain ⟨hl, hst⟩ := hth
  unfold Direct.exec
  split
  · exact h.returns ⟨hl, hst⟩ _
  · exact h.returns ⟨hl, hst⟩ _
  · exact h.put ⟨hl, hst⟩
  · rename_i dst callee arg k hp
    obtain ⟨h1, h2⟩ := hl.passArg arg (by
      rintro src param rfl
      exact hap.call p dst callee src param k hp)
    exact h.put ⟨h1.update (h2.fresh callee) fun _ r => by simp, hst⟩
  · rename_i src k hp
    split
    · exact h.put ⟨hl, hst⟩
    · exact h.put ⟨hl, hst⟩
    · rename_i q locals hsrc
      refine h.put ⟨.of_fresh (p := q) (hsrc ▸ (hl src).2), fun lv hlv => ?_⟩
      rcases List.mem_cons.1 hlv with rfl | hlv
      · exact ⟨hl.update .null fun _ r => by simp, hap.await p src k hp⟩
      · exact hst lv hlv
  · rename_i dst src k hp
    split
    · exact h.put ⟨hl, hst⟩
    · refine h.put ⟨(hl.update (hl src).2 fun hs => ?_).update .null fun _ r => by simp, hst⟩
      exact (hl src).1 (hap.assign p dst src k hp hs)
  · exact h.put ⟨hl.update .null fun _ r => by simp, hst⟩
  · rename_i src k hp
    split
    · exact h.put ⟨hl, hst⟩
    · rename_i r hsrc
      exact absurd hsrc ((hl src).1 (hap.spawn p src k hp) r)
    · rename_i q locals hsrc
      have h1 : Good spawned (d.put t
          { th with ctl := .runs (k (.ok ())), locals := Function.update th.locals src .null }) :=
        h.put ⟨hl.update .null fun _ r => by simp, hst⟩
      refine (h1.put ⟨.of_fresh (p := q) (hsrc ▸ (hl src).2), fun lv hlv => ?_⟩).emit _
      cases hlv
  · apply Good.emit
    exact h.put ⟨hl, hst⟩

theorem Good.step (hap : Apart code spawned) {d d' : Direct.State n P V E A}
    {act : Direct.Act n P V} (h : Good spawned d) (hs : Direct.step code debug d act = some d') :
    Good spawned d' := by
  cases act with
  | start t p task =>
    simp only [Direct.step] at hs
    split at hs
    · cases hs
      refine (h.put ⟨?_, fun lv hlv => by cases hlv⟩).emit _
      cases task with
      | none => exact .none
      | some task => exact UnspentLocals.none.update (UnspentLocals.none.fresh _) fun _ r => by simp
    · cases hs
  | complete t v =>
    simp only [Direct.step] at hs
    split at hs
    · split at hs
      · rename_i k locals stack ht
        cases hs
        obtain ⟨h1, h2⟩ := h.2 t _ ht
        apply Good.emit
        exact h.put ⟨h1, h2⟩
      · cases hs
    · cases hs
  | work t new =>
    simp only [Direct.step] at hs
    split at hs
    · split at hs
      · rename_i p locals stack ht
        cases hs
        exact h.exec hap (h.2 t _ ht) p
      · cases hs
    · cases hs

theorem Good.run (hap : Apart code spawned) {as : List (Direct.Act n P V)}
    {d : Direct.State n P V E A} (hr : run (Direct.step code debug) Direct.init as = some d) :
    Good spawned d := by
  refine run_inv (Good spawned) (fun _ _ _ h hs _ => h.step hap hs) ?_ hr (eachStep_true _ _)
  exact ⟨by simp [Direct.init], fun t th ht => by cases ht⟩

/-! ## Nothing is left -/

def Susp.waits : Susp P V E → Bool
  | .io _ none => true
  | _ => false

/-- No coroutine is scheduled, running or waiting for an event. -/
structure Quiet (s : State n P V E A W) : Prop where
  ready : s.ready = []
  job : ∀ w, (s.job w).isNone
  io : ∀ h < s.next, ∀ f ∈ s.heap h, f.susp.waits = false

theorem Inv.empty {s : State n P V E A W} {threads : Handle → Option (Thread n P V E)} {g : Ghost W}
    (h : Inv code s threads g) (hq : Quiet s) (x : Handle) : s.heap x = none := by
  by_contra hx
  obtain ⟨o, ho⟩ := (h.owned.live_iff x).1 hx
  cases o with
  | inr w =>
    have hd := h.doomed w
    rw [Option.isNone_iff_eq_none.1 (hq.job w)] at hd
    generalize g.ids (.inr w) = m at hd ho
    cases hd
    exact absurd ho (Multiset.notMem_zero x)
  | inl t =>
    cases hth : threads t with
    | none =>
      rw [h.ended t hth] at ho
      exact absurd ho (Multiset.notMem_zero x)
    | some th =>
      -- its innermost coroutine is somewhere
      obtain ⟨f, hrep, hat⟩ := h.thread t th hth
      cases hp : g.place t with
      | ready =>
        rw [hp] at hat
        have := hat.1
        rw [hq.ready] at this
        cases this
      | waiting =>
        rw [hp] at hat
        obtain ⟨-, k, -, hs⟩ := hat
        have hlt := h.old _ (h.owned.live_of_mem hrep.leaf_mem)
        have := hq.io _ hlt f hrep.1
        rw [hs] at this
        cases this
      | running w =>
        rw [hp] at hat
        obtain ⟨-, p, ts, next, -, hj, -⟩ := hat
        rw [Option.isNone_iff_eq_none.1 (hq.job w)] at hj
        cases hj

/-! ## A program -/

/-- `block_on` of a task that spawns another one and waits for an event: `main_coro` from 0 on,
the task from 3 on, what it spawns at 7. -/
def spawner : Nat → Op 2 Nat Unit Unit Unit
  | 0 => .coAwait ⟨0, Nat.zero_lt_two⟩ fun _ => 1
  | 1 => .effect () 2
  | 3 => .call ⟨1, Nat.one_lt_two⟩ 7 none 4
  | 4 => .spawn ⟨1, Nat.one_lt_two⟩ fun _ => 5
  | 5 => .suspend fun _ => 6
  | _ => .coReturn ()

theorem spawner_apart : Apart spawner (fun i => i = 1) := by
  refine ⟨?_, ?_, ?_, ?_⟩
  · intro p i k hp
    unfold spawner at hp
    split at hp <;> cases hp
    rfl
  · intro p i k hp
    unfold spawner at hp
    split at hp <;> cases hp
    simp
  · intro p dst src k hp
    unfold spawner at hp
    split at hp <;> cases hp
  · intro p dst callee src param k hp
    unfold spawner at hp
    split at hp <;> cases hp

/-- Both coroutines to their ends on one worker. -/
def spawnerRun : List (Act 2 Nat Unit Unit) :=
  [.start 0 (some (⟨0, Nat.zero_lt_two⟩, 3)), .resume () 1] ++ List.replicate 5 (.work ()) ++
    [.complete 0 (), .resume () 0] ++ List.replicate 11 (.work ()) ++ [.resume () 2] ++
    List.replicate 6 (.work ())

theorem spawnerRun_quiet :
    ∃ s : State 2 Nat Unit Unit Unit Unit, run (step spawner true) init spawnerRun = some s ∧
      (s.status = .ok ∧ s.ready = [] ∧ (∀ w, (s.job w).isNone) ∧
        ∀ h < s.next, ∀ f ∈ s.heap h, f.susp.waits = false) := by
  apply run_eval
  decide +kernel

/-! ## Top theorems -/

variable [DecidableEq W] {s : State n P V E A W} {acts : List (Act n P V W)}

/-- **Refinement.**  Whatever the interleaving, what the coroutines do can be done by the same
program with calls in the place of `co_await`; only a program that spawns an awaited
task goes on in another way after it has. -/
theorem refines (hr : run (step code debug) init acts = some s) :
    ∃ as d, run (Direct.step code debug) Direct.init as = some d ∧
      (d.trace = s.trace ∧ d.status = s.status ∨ d.status = .undefined ∧ d.trace <+: s.trace) := by
  obtain ⟨as, d, has, hsim⟩ := run_sim hr
  refine ⟨as, d, has, ?_⟩
  rcases hsim with ⟨hu, htr⟩ | ⟨hd, htr, -⟩
  · exact .inr ⟨hu, htr⟩
  · exact .inl ⟨htr, hd⟩

theorem refines_spawnerRun :
    ∃ s : State 2 Nat Unit Unit Unit Unit, run (step spawner true) init spawnerRun = some s ∧
      ∃ as d, run (Direct.step spawner true) Direct.init as = some d ∧
        (d.trace = s.trace ∧ d.status = s.status ∨ d.status = .undefined ∧ d.trace <+: s.trace) := by
  obtain ⟨s, hr, -⟩ := spawnerRun_quiet
  exact ⟨s, hr, refines hr⟩

theorem never_undefined (hap : Apart code spawned)
    (hr : run (step code debug) init acts = some s) : s.status ≠ .undefined := by
  obtain ⟨as, d, has, hsim⟩ := run_sim hr
  have hgood := Good.run hap has
  rcases hsim with ⟨hu, -⟩ | ⟨hd, -, -⟩
  · exact absurd hu hgood.1
  · rw [← hd]
    exact hgood.1

theorem never_undefined_spawnerRun :
    ∃ s : State 2 Nat Unit Unit Unit Unit, run (step spawner true) init spawnerRun = some s ∧
      s.status ≠ .undefined := by
  obtain ⟨s, hr, -⟩ := spawnerRun_quiet
  exact ⟨s, hr, never_undefined spawner_apart hr⟩

theorem no_leak (hap : Apart code spawned) (hr : run (step code debug) init acts = some s)
    (hok : s.status = .ok) (hq : Quiet s) (h : Handle) : s.heap h = none := by
  obtain ⟨as, d, has, hsim⟩ := run_sim hr
  have hgood := Good.run hap has
  rcases hsim with ⟨hu, -⟩ | ⟨-, -, hs | ⟨-, g, hinv⟩⟩
  · exact absurd hu hgood.1
  · rw [hok] at hs
    cases hs
  · exact hinv.empty hq h

theorem no_leak_spawnerRun :
    ∃ s : State 2 Nat Unit Unit Unit Unit, run (step spawner true) init spawnerRun = some s ∧
      ∀ h, s.heap h = none := by
  obtain ⟨s, hr, hok, h1, h2, h3⟩ := spawnerRun_quiet
  exact ⟨s, hr, no_leak spawner_apart hr hok ⟨h1, h2, h3⟩⟩

end Kosio.Async
