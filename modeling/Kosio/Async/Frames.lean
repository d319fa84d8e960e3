import Mathlib.Algebra.BigOperators.Fin
import Mathlib.Algebra.Order.Group.Multiset
import Kosio.Async.Direct
import Kosio.Lib.Ownership
import Kosio.Lib.Tally

/-!
# What frames stand for

How the heap represents the variables and the stack of a thread.  A task in a slot
is the frame of a call that has not been made yet, or of one that has returned
(`TaskRep`), with the frames of the tasks it holds in turn; the functions that wait
are the frames the `caller_` pointers lead through, down to the one without a caller
(`Callers`).  Each relation carries the handles of the frames it is about, so that a
step which leaves those frames alone leaves the relation alone.

`Inv` is the whole picture: the frames of each thread and those a worker is about to
destroy make up the heap, each frame with one owner; a thread is in the scheduler's
hands, waits for an event or is on the worker that runs its innermost coroutine.
-/

namespace Kosio.Async

open Function Ownership
open Direct (TaskVal Level Thread Ctl errorOf)

variable {n : Nat} {P V E A W : Type}

/-! ## Invariant -/

abbrev Heap (n : Nat) (P V E : Type) := Handle → Option (Frame n P V E)

/-- The task in a slot, and the frames it owns. -/
inductive TaskRep (heap : Heap n P V E) : Option Handle → TaskVal n P V E → Multiset Handle → Prop
  | null : TaskRep heap none .null 0
  | fresh {h : Handle} {p : P} {tasks : Fin n → Option Handle} {locals : Fin n → TaskVal n P V E}
      {ids : Fin n → Multiset Handle} (hf : heap h = some (newFrame p tasks))
      (hl : ∀ i, TaskRep heap (tasks i) (locals i) (ids i)) :
      TaskRep heap (some h) (.fresh p locals) (h ::ₘ ∑ i, ids i)
  | done {h : Handle} {f : Frame n P V E} {r : Result V E} {locals : Fin n → TaskVal n P V E}
      {ids : Fin n → Multiset Handle} (hf : heap h = some f) (hs : f.susp = .final)
      (hr : f.result = some r) (hl : ∀ i, TaskRep heap (f.tasks i) (locals i) (ids i)) :
      TaskRep heap (some h) (.done r) (h ::ₘ ∑ i, ids i)

/-- The variables of a frame. -/
def Locals (heap : Heap n P V E) (tasks : Fin n → Option Handle)
    (locals : Fin n → TaskVal n P V E) (m : Multiset Handle) : Prop :=
  ∃ ids : Fin n → Multiset Handle, (∀ i, TaskRep heap (tasks i) (locals i) (ids i)) ∧ m = ∑ i, ids i

/-- The frames that wait for `callee`, down to that of thread `t`. -/
inductive Callers (heap : Heap n P V E) (t : Handle) :
    Option Handle → Handle → List (Level n P V E) → Multiset Handle → Prop
  | root : Callers heap t none t [] 0
  | level {c callee : Handle} {g : Frame n P V E} {lv : Level n P V E} {ls : List (Level n P V E)}
      {a b : Multiset Handle} (hg : heap c = some g) (hs : g.susp = .awaiting callee lv.next)
      (hex : g.ex_ = none) (hsrc : g.tasks lv.src = some callee)
      (hl : Locals heap (update g.tasks lv.src none) lv.locals a)
      (hc : Callers heap t g.caller_ c ls b) :
      Callers heap t (some c) callee (lv :: ls) (c ::ₘ (a + b))

/-- The frames of thread `t`, with `leaf` the innermost. -/
def Rep (heap : Heap n P V E) (leaf : Handle) (f : Frame n P V E) (th : Thread n P V E) (t : Handle)
    (m : Multiset Handle) : Prop :=
  heap leaf = some f ∧ ∃ a b, Locals heap f.tasks th.locals a ∧
    Callers heap t f.caller_ leaf th.stack b ∧ m = leaf ::ₘ (a + b)

/-- What a worker still destroys. -/
inductive Doomed (heap : Heap n P V E) : List (Option Handle) → Multiset Handle → Prop
  | nil : Doomed heap [] 0
  | cons {t : Option Handle} {tv : TaskVal n P V E} {ts : List (Option Handle)}
      {a b : Multiset Handle} (ht : TaskRep heap t tv a) (hts : Doomed heap ts b) :
      Doomed heap (t :: ts) (a + b)

/-- What an instruction that ends the body leaves behind. -/
def Op.result : Op n P V E A → Option (Result V E)
  | .coReturn v => some (.ok v)
  | .throw x => some (.error x)
  | _ => none

inductive Place (W : Type) where
  | ready
  | waiting
  | running (w : W)

/-- The innermost frame of a thread, by where the thread is. -/
def At (code : P → Op n P V E A) (s : State n P V E A W) (leaf : Handle) (f : Frame n P V E)
    (ctl : Ctl P V) : Place W → Prop
  | .ready =>
    leaf ∈ s.ready ∧ f.ex_ = none ∧
      ∃ p, ctl = .runs p ∧ (f.susp = .initial p ∨ ∃ k v, f.susp = .io k (some v) ∧ p = k v)
  | .waiting => f.ex_ = none ∧ ∃ k, ctl = .waits k ∧ f.susp = .io k none
  | .running w =>
    f.susp = .running ∧ ∃ p doomed next, ctl = .runs p ∧ s.job w = some ⟨doomed, next⟩ ∧
      (next = .exec leaf p ∧ f.ex_ = none ∨
        next = .finalSuspend leaf ∧ ∃ r, (code p).result = some r ∧ f.result = some r)

structure Ghost (W : Type) where
  leaf : Handle → Handle
  place : Handle → Place W
  ids : Handle ⊕ W → Multiset Handle

/-- Thread `t`, which is `th` in the direct semantics. -/
def ThreadOk (code : P → Op n P V E A) (s : State n P V E A W) (leaf : Handle) (place : Place W)
    (th : Thread n P V E) (t : Handle) (m : Multiset Handle) : Prop :=
  ∃ f, Rep s.heap leaf f th t m ∧ At code s leaf f th.ctl place

def doomedOf : Option (Job P) → List (Option Handle)
  | none => []
  | some job => job.doomed

/-- The worker goes back to the same place. -/
def SameNext (j j' : Option (Job P)) : Prop :=
  ∀ ts next, j = some ⟨ts, next⟩ → ∃ ts', j' = some ⟨ts', next⟩

/-- The worker has a coroutine to go back to. -/
def Busy : Option (Job P) → Prop
  | none => False
  | some job => job.next ≠ .back

abbrev State.live (s : State n P V E A W) (h : Handle) : Prop := s.heap h ≠ none

structure Inv (code : P → Op n P V E A) (s : State n P V E A W)
    (threads : Handle → Option (Thread n P V E)) (g : Ghost W) : Prop where
  owned : Owned s.live g.ids
  old : ∀ h, s.live h → h < s.next
  thread : ∀ t th, threads t = some th →
    ThreadOk code s (g.leaf t) (g.place t) th t (g.ids (.inl t))
  ended : ∀ t, threads t = none → g.ids (.inl t) = 0
  nodup : s.ready.Nodup
  ready : ∀ h ∈ s.ready, ∃ t th, threads t = some th ∧ g.place t = .ready ∧ g.leaf t = h
  doomed : ∀ w, Doomed s.heap (doomedOf (s.job w)) (g.ids (.inr w))
  busy : ∀ w, Busy (s.job w) → ∃ t th, threads t = some th ∧ g.place t = .running w

/-! ## Frames that stay -/

section Agree

variable {heap heap' : Heap n P V E}

theorem TaskRep.agree {o : Option Handle} {tv : TaskVal n P V E} {m : Multiset Handle}
    (h : TaskRep heap o tv m) (hm : ∀ x ∈ m, heap' x = heap x) : TaskRep heap' o tv m := by
  induction h with
  | null => exact .null
  | @fresh h p tasks locals ids hf hl ih =>
    refine .fresh ?_ fun i => ih i fun x hx => hm x ?_
    · rw [hm h (Multiset.mem_cons_self h _), hf]
    · exact Multiset.mem_cons_of_mem (Multiset.mem_sum.2 ⟨i, Finset.mem_univ i, hx⟩)
  | @done h f r locals ids hf hs hr hl ih =>
    refine .done ?_ hs hr fun i => ih i fun x hx => hm x ?_
    · rw [hm h (Multiset.mem_cons_self h _), hf]
    · exact Multiset.mem_cons_of_mem (Multiset.mem_sum.2 ⟨i, Finset.mem_univ i, hx⟩)

theorem Locals.agree {tasks : Fin n → Option Handle} {locals : Fin n → TaskVal n P V E}
    {m : Multiset Handle} (h : Locals heap tasks locals m) (hm : ∀ x ∈ m, heap' x = heap x) :
    Locals heap' tasks locals m := by
  obtain ⟨ids, hids, rfl⟩ := h
  refine ⟨ids, fun i => (hids i).agree fun x hx => hm x ?_, rfl⟩
  exact Multiset.mem_sum.2 ⟨i, Finset.mem_univ i, hx⟩

theorem Callers.agree {t : Handle} {caller : Option Handle} {callee : Handle}
    {ls : List (Level n P V E)} {m : Multiset Handle} (h : Callers heap t caller callee ls m)
    (hm : ∀ x ∈ m, heap' x = heap x) : Callers heap' t caller callee ls m := by
  induction h with
  | root => exact .root
  | @level c callee g lv ls a b hg hs hex hsrc hl hc ih =>
    refine .level ?_ hs hex hsrc (hl.agree fun x hx => hm x ?_) (ih fun x hx => hm x ?_)
    · rw [hm c (Multiset.mem_cons_self c _), hg]
    · exact Multiset.mem_cons_of_mem (Multiset.mem_add.2 (.inl hx))
    · exact Multiset.mem_cons_of_mem (Multiset.mem_add.2 (.inr hx))

theorem Doomed.agree {ts : List (Option Handle)} {m : Multiset Handle} (h : Doomed heap ts m)
    (hm : ∀ x ∈ m, heap' x = heap x) : Doomed heap' ts m := by
  induction h with
  | nil => exact .nil
  | cons ht hts ih =>
    refine .cons (ht.agree fun x hx => hm x ?_) (ih fun x hx => hm x ?_)
    · exact Multiset.mem_add.2 (.inl hx)
    · exact Multiset.mem_add.2 (.inr hx)

theorem Rep.agree {leaf : Handle} {f : Frame n P V E} {th : Thread n P V E} {t : Handle}
    {m : Multiset Handle} (h : Rep heap leaf f th t m) (hm : ∀ x ∈ m, heap' x = heap x) :
    Rep heap' leaf f th t m := by
  obtain ⟨hf, a, b, hl, hc, rfl⟩ := h
  refine ⟨?_, a, b, hl.agree fun x hx => hm x ?_, hc.agree fun x hx => hm x ?_, rfl⟩
  · rw [hm leaf (Multiset.mem_cons_self leaf _), hf]
  · exact Multiset.mem_cons_of_mem (Multiset.mem_add.2 (.inl hx))
  · exact Multiset.mem_cons_of_mem (Multiset.mem_add.2 (.inr hx))

theorem SameNext.of_eq {j j' : Option (Job P)} (h : j' = j) : SameNext j j' :=
  fun ts _ hj => ⟨ts, h.trans hj⟩

/-- A thread whose frames, place in the scheduler and worker are left alone. -/
theorem ThreadOk.agree {code : P → Op n P V E A} {s s' : State n P V E A W} {leaf : Handle}
    {place : Place W} {th : Thread n P V E} {t : Handle} {m : Multiset Handle}
    (h : ThreadOk code s leaf place th t m) (hm : ∀ x ∈ m, s'.heap x = s.heap x)
    (hr : place = .ready → leaf ∈ s.ready → leaf ∈ s'.ready)
    (hj : ∀ w, place = .running w → SameNext (s.job w) (s'.job w)) : ThreadOk code s' leaf place th t m := by
  obtain ⟨f, hrep, hat⟩ := h
  refine ⟨f, hrep.agree hm, ?_⟩
  cases place with
  | ready => exact ⟨hr rfl hat.1, hat.2⟩
  | waiting => exact hat
  | running w =>
    obtain ⟨hs, p, ts, next, h1, h2, h3⟩ := hat
    obtain ⟨ts', h2'⟩ := hj w rfl ts next h2
    exact ⟨hs, p, ts', next, h1, h2', h3⟩

end Agree

/-- A frame stands for one value, and owns the same frames however one looks at it. -/
theorem TaskRep.functional {heap : Heap n P V E} {o : Option Handle} {tv tv' : TaskVal n P V E}
    {m m' : Multiset Handle} (h : TaskRep heap o tv m) (h' : TaskRep heap o tv' m') :
    tv = tv' ∧ m = m' := by
  induction h generalizing tv' m' with
  | null =>
    cases h'
    exact ⟨rfl, rfl⟩
  | @fresh h p tasks locals ids hf hl ih =>
    cases h' with
    | @fresh _ p' tasks' locals' ids' hf' hl' =>
      have hfr := Option.some.inj (hf.symm.trans hf')
      have hp : p = p' := Susp.initial.inj (congrArg Frame.susp hfr)
      have ht : tasks = tasks' := congrArg Frame.tasks hfr
      subst hp ht
      have hloc : locals = locals' := funext fun i => (ih i (hl' i)).1
      have hids : ids = ids' := funext fun i => (ih i (hl' i)).2
      rw [hloc, hids]
      exact ⟨rfl, rfl⟩
    | done hf' hs' =>
      have hfr := Option.some.inj (hf.symm.trans hf')
      rw [← hfr] at hs'
      cases hs'
  | @done h f r locals ids hf hs hr hl ih =>
    cases h' with
    | fresh hf' hl' =>
      have hfr := Option.some.inj (hf.symm.trans hf')
      rw [hfr] at hs
      cases hs
    | @done _ f' r' locals' ids' hf' hs' hr' hl' =>
      have hfr := Option.some.inj (hf.symm.trans hf')
      subst hfr
      have hres : r = r' := Option.some.inj (hr.symm.trans hr')
      have hids : ids = ids' := funext fun i => (ih i (hl' i)).2
      rw [hres, hids]
      exact ⟨rfl, rfl⟩

/-- The tasks a frame or a worker holds have not been started or have returned. -/
theorem TaskRep.not_io {heap : Heap n P V E} {o : Option Handle} {tv : TaskVal n P V E}
    {m : Multiset Handle} (h : TaskRep heap o tv m) {x : Handle} (hx : x ∈ m) {f : Frame n P V E}
    (hf : heap x = some f) (k : V → P) (v : Option V) : f.susp ≠ .io k v := by
  induction h with
  | null => exact absurd hx (Multiset.notMem_zero x)
  | @fresh h p tasks locals ids hf' hl ih =>
    rcases Multiset.mem_cons.1 hx with rfl | hx
    · rw [hf] at hf'
      cases hf'
      exact fun he => by cases he
    · obtain ⟨i, -, hi⟩ := Multiset.mem_sum.1 hx
      exact ih i hi
  | @done h f' r locals ids hf' hs hr hl ih =>
    rcases Multiset.mem_cons.1 hx with rfl | hx
    · rw [hf] at hf'
      cases hf'
      rw [hs]
      exact fun he => by cases he
    · obtain ⟨i, -, hi⟩ := Multiset.mem_sum.1 hx
      exact ih i hi

theorem Locals.not_io {heap : Heap n P V E} {tasks : Fin n → Option Handle}
    {locals : Fin n → TaskVal n P V E} {m : Multiset Handle} (h : Locals heap tasks locals m)
    {x : Handle} (hx : x ∈ m) {f : Frame n P V E} (hf : heap x = some f) (k : V → P)
    (v : Option V) : f.susp ≠ .io k v := by
  obtain ⟨ids, hids, rfl⟩ := h
  obtain ⟨i, -, hi⟩ := Multiset.mem_sum.1 hx
  exact (hids i).not_io hi hf k v

theorem Callers.not_io {heap : Heap n P V E} {t callee : Handle} {caller : Option Handle}
    {ls : List (Level n P V E)} {m : Multiset Handle} (h : Callers heap t caller callee ls m)
    {x : Handle} (hx : x ∈ m) {f : Frame n P V E} (hf : heap x = some f) (k : V → P)
    (v : Option V) : f.susp ≠ .io k v := by
  induction h with
  | root => exact absurd hx (Multiset.notMem_zero x)
  | @level c callee g lv ls a b hg hs hex hsrc hl hc ih =>
    rcases Multiset.mem_cons.1 hx with rfl | hx
    · rw [hf] at hg
      cases hg
      rw [hs]
      exact fun he => by cases he
    · rcases Multiset.mem_add.1 hx with hx | hx
      · exact hl.not_io hx hf k v
      · exact ih hx

theorem Doomed.not_io {heap : Heap n P V E} {ts : List (Option Handle)} {m : Multiset Handle}
    (h : Doomed heap ts m) {x : Handle} (hx : x ∈ m) {f : Frame n P V E} (hf : heap x = some f)
    (k : V → P) (v : Option V) : f.susp ≠ .io k v := by
  induction h with
  | nil => exact absurd hx (Multiset.notMem_zero x)
  | cons ht hts ih =>
    rcases Multiset.mem_add.1 hx with hx | hx
    · exact ht.not_io hx hf k v
    · exact ih hx

/-! ## Slots -/

section Slots

variable {heap : Heap n P V E} {tasks : Fin n → Option Handle} {locals : Fin n → TaskVal n P V E}
  {m : Multiset Handle}

theorem Locals.null : Locals heap (fun _ => none) (fun _ : Fin n => .null) 0 :=
  ⟨fun _ => 0, fun _ => .null, by simp⟩

/-- Another task in slot `i`. -/
theorem Locals.swap (h : Locals heap tasks locals m) (i : Fin n) :
    ∃ a b, TaskRep heap (tasks i) (locals i) a ∧ m = a + b ∧
      ∀ t tv c, TaskRep heap t tv c →
        Locals heap (update tasks i t) (update locals i tv) (c + b) := by
  obtain ⟨ids, hids, rfl⟩ := h
  refine ⟨ids i, ∑ j ∈ Finset.univ.erase i, ids j, hids i, ?_, ?_⟩
  · exact (Finset.add_sum_erase Finset.univ ids (Finset.mem_univ i)).symm
  · intro t tv c ht
    refine ⟨update ids i c, ?_, ?_⟩
    · intro j
      by_cases hj : j = i
      · subst hj
        simpa only [update_self] using ht
      · simpa only [update_of_ne hj] using hids j
    · rw [← Finset.add_sum_erase Finset.univ _ (Finset.mem_univ i), update_self]
      congr 1
      refine Finset.sum_congr rfl fun j hj => ?_
      rw [update_of_ne (Finset.ne_of_mem_erase hj)]

/-- What is in slot `i` is taken out. -/
theorem Locals.take (h : Locals heap tasks locals m) (i : Fin n) :
    ∃ a b, TaskRep heap (tasks i) (locals i) a ∧
      Locals heap (update tasks i none) (update locals i .null) b ∧ m = a + b := by
  obtain ⟨a, b, ha, hm, hput⟩ := h.swap i
  refine ⟨a, b, ha, ?_, hm⟩
  simpa using hput none .null 0 .null

/-- A task is put into slot `i`, and what was there comes out. -/
theorem Locals.put (h : Locals heap tasks locals m) (i : Fin n) {t : Option Handle}
    {tv : TaskVal n P V E} {c : Multiset Handle} (ht : TaskRep heap t tv c) :
    ∃ a b, TaskRep heap (tasks i) (locals i) a ∧
      Locals heap (update tasks i t) (update locals i tv) (c + b) ∧ m = a + b := by
  obtain ⟨a, b, ha, hm, hput⟩ := h.swap i
  exact ⟨a, b, ha, hput t tv c ht, hm⟩

/-- A task in a frame without others. -/
theorem Locals.single {t : Option Handle} {tv : TaskVal n P V E} {c : Multiset Handle}
    (ht : TaskRep heap t tv c) (i : Fin n) :
    Locals heap (update (fun _ => none) i t) (update (fun _ => .null) i tv) c := by
  have hnull : Locals heap (fun _ => none) (fun _ : Fin n => .null) 0 := .null
  obtain ⟨a, b, -, hm, hput⟩ := hnull.swap i
  have hb : b = 0 := Multiset.le_zero.1 (hm ▸ Multiset.le_add_left b a)
  simpa [hb] using hput t tv c ht

theorem Doomed.one {t : Option Handle} {tv : TaskVal n P V E} {a : Multiset Handle}
    (h : TaskRep heap t tv a) : Doomed heap [t] a := by
  simpa using Doomed.cons h .nil

theorem Doomed.append {ts us : List (Option Handle)} {a b : Multiset Handle}
    (h : Doomed heap ts a) (h' : Doomed heap us b) : Doomed heap (ts ++ us) (a + b) := by
  induction h with
  | nil => simpa using h'
  | cons ht hts ih =>
    rw [List.cons_append, add_assoc]
    exact .cons ht ih

/-- A destroyed frame leaves the tasks of its slots to be destroyed. -/
theorem Doomed.slots {k : Nat} {tasks : Fin k → Option Handle} {locals : Fin k → TaskVal n P V E}
    {ids : Fin k → Multiset Handle} (h : ∀ i, TaskRep heap (tasks i) (locals i) (ids i)) :
    Doomed heap (List.ofFn tasks) (∑ i, ids i) := by
  induction k with
  | zero => simpa using Doomed.nil
  | succ k ih =>
    rw [List.ofFn_succ, Fin.sum_univ_succ]
    exact .cons (h 0) (ih fun i => h i.succ)

end Slots

end Kosio.Async
