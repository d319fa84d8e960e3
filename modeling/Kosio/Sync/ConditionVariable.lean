import Kosio.Lib.Chain
import Kosio.Lib.Run

/-!
# `ConditionVariable`: waiters pushed on a list, notifiers that take them off

`awaiters_` is the head of the LIFO list of waiters, linked by `next_`.  An
`Awaiter` is named by its address `c : C`, so a coroutine that waits again may
come back under the same name; a call of `notify_one` or `notify_all` is made by
a notifier `n : N`.  One step is one access to the shared memory, and a run takes
the steps in any order.

Beside the memory a state keeps the waiters whose CAS has succeeded and that no
notifier has taken, newest first (`queue`), what the call of each notifier has taken
(`found`) and what it has scheduled (`woken`).

`notify_one` reads `next_` of the head before its CAS and never looks again.
`exact_iff` says when that is harmless: in exactly the runs in which no other
notifier comes in between.
-/

namespace Kosio.ConditionVariable

open Steps

/-! ## Algorithm -/

inductive WaiterPc (C N : Type) where
  | idle
  /-- in `await_suspend`, about to load `awaiters_` -/
  | waitLoad
  /-- about to store the head it has seen in `next_` -/
  | waitStore (awaiters : Option C)
  | waitCas
  /-- the CAS of `await_suspend` has succeeded -/
  | waiting
  /-- handed to the worker that runs `notifier` -/
  | scheduled (notifier : N)
deriving DecidableEq

inductive NotifierPc (C : Type) where
  | idle
  /-- in `notify_one`, about to load `awaiters_` -/
  | oneLoad
  /-- about to read `awaiters->next_` -/
  | oneRead (awaiters : Option C)
  | oneCas (awaiters : C) (next : Option C)
  /-- about to clear `next_` of the waiter it has taken -/
  | oneClear (awaiters : C)
  /-- in `notify_all`, about to load `awaiters_` -/
  | allLoad
  | allCas (awaiters : Option C)
  /-- in `resume`, about to test `awaiter` -/
  | resume (awaiter : Option C)
  /-- about to read `next_` of the waiter it has scheduled -/
  | resumeRead (awaiter : C)
deriving DecidableEq

inductive Call where
  | one
  | all
deriving DecidableEq

structure State (C N : Type) where
  awaiters : Option C
  next : C → Option C
  waiter : C → WaiterPc C N
  notifier : N → NotifierPc C
  /-- the last call of each notifier -/
  call : N → Call
  /-- enqueued and not taken, newest first -/
  queue : List C
  /-- what the CAS of the call has taken -/
  found : N → List C
  /-- what the call has scheduled -/
  woken : N → List C

variable {C N : Type}

def init : State C N :=
  ⟨none, fun _ => none, fun _ => .idle, fun _ => .idle, fun _ => .one, [], fun _ => [], fun _ => []⟩

/-- A weak CAS fails when `spurious` says so. -/
inductive Act (C N : Type) where
  /-- `co_await Awaiter{*this, mutex}` -/
  | wait (c : C)
  | waiter (c : C) (spurious : Bool)
  /-- the worker runs the coroutine it was handed -/
  | run (c : C)
  | notifyOne (n : N)
  | notifyAll (n : N)
  | notifier (n : N) (spurious : Bool)

section

variable [DecidableEq C] [DecidableEq N]

def setNext (s : State C N) (c : C) (v : Option C) : State C N :=
  { s with next := Function.update s.next c v }

def setWaiter (s : State C N) (c : C) (p : WaiterPc C N) : State C N :=
  { s with waiter := Function.update s.waiter c p }

def setNotifier (s : State C N) (n : N) (p : NotifierPc C) : State C N :=
  { s with notifier := Function.update s.notifier n p }

/-- `n` calls: nothing found and nothing woken yet. -/
def enter (s : State C N) (n : N) (k : Call) (p : NotifierPc C) : State C N :=
  { setNotifier s n p with
    call := Function.update s.call n k
    found := Function.update s.found n []
    woken := Function.update s.woken n [] }

/-- The CAS of `n` puts `v` in `awaiters_` and takes the waiters `l`; `rest` stay. -/
def take (s : State C N) (n : N) (v : Option C) (l rest : List C) (p : NotifierPc C) :
    State C N :=
  { setNotifier s n p with
    awaiters := v
    queue := rest
    found := Function.update s.found n l }

/-- `schedule_local(awaiter->handle_)` -/
def schedule (s : State C N) (n : N) (c : C) : State C N :=
  { setNotifier (setWaiter s c (.scheduled n)) n (.resumeRead c) with
    woken := Function.update s.woken n (s.woken n ++ [c]) }

def stepWaiter (s : State C N) (c : C) (spurious : Bool) : Option (State C N) :=
  match s.waiter c with
  | .waitLoad => some (setWaiter s c (.waitStore s.awaiters))
  | .waitStore v => some (setWaiter (setNext s c v) c .waitCas)
  | .waitCas =>
    if spurious = false ∧ s.awaiters = s.next c then
      some { setWaiter s c .waiting with awaiters := some c, queue := c :: s.queue }
    else some (setWaiter s c (.waitStore s.awaiters))
  | _ => none

def stepNotifier (s : State C N) (n : N) (spurious : Bool) : Option (State C N) :=
  match s.notifier n with
  | .oneLoad =>
    some (setNotifier s n (if s.awaiters = none then .idle else .oneRead s.awaiters))
  | .oneRead (some c) => some (setNotifier s n (.oneCas c (s.next c)))
  -- a null pointer is dereferenced
  | .oneRead none => none
  | .oneCas c v =>
    if spurious = false ∧ s.awaiters = some c then
      some (take s n v [c] (s.queue.erase c) (.oneClear c))
    else some (setNotifier s n (.oneRead s.awaiters))
  | .oneClear c => some (setNotifier (setNext s c none) n (.resume (some c)))
  | .allLoad => some (setNotifier s n (.allCas s.awaiters))
  | .allCas w =>
    if spurious = false ∧ s.awaiters = w then some (take s n none s.queue [] (.resume w))
    else some (setNotifier s n (.allCas s.awaiters))
  | .resume none => some (setNotifier s n .idle)
  | .resume (some c) => some (schedule s n c)
  | .resumeRead c => some (setNotifier s n (.resume (s.next c)))
  | .idle => none

def step (s : State C N) : Act C N → Option (State C N)
  | .wait c => if s.waiter c = .idle then some (setWaiter (setNext s c none) c .waitLoad) else none
  | .waiter c spurious => stepWaiter s c spurious
  | .run c =>
    match s.waiter c with
    -- it is in the slot of the worker that runs `resume`, until that schedules another
    | .scheduled n => if s.notifier n = .resumeRead c then none else some (setWaiter s c .idle)
    | _ => none
  | .notifyOne n => if s.notifier n = .idle then some (enter s n .one .oneLoad) else none
  | .notifyAll n => if s.notifier n = .idle then some (enter s n .all .allLoad) else none
  | .notifier n spurious => stepNotifier s n spurious

end

/-! ## What is promised -/

/-- Wake-ups are exact in `s`; `hands n` is what `n` has taken and not scheduled. -/
structure Exact (s : State C N) (hands : N → List C) : Prop where
  /-- nobody is about to read `next_` through null or a head that is off the list -/
  reads : ∀ n w, s.notifier n = .oneRead w → ∃ c ∈ s.queue, w = some c
  /-- following `next_` from `awaiters_` meets whoever is enqueued and not taken -/
  reachable : Chain s.next s.awaiters s.queue
  /-- what a call has found it has scheduled or will schedule, in order -/
  found : ∀ n, s.found n = s.woken n ++ hands n
  returned : ∀ n, s.notifier n = .idle → hands n = []
  one : ∀ n, s.call n = .one → (s.found n).length ≤ 1
  /-- whoever waits can be found or is in the hands of one notifier, once -/
  waits : ∀ c, s.waiter c = .waiting ↔ c ∈ s.queue ∨ ∃ n, c ∈ hands n
  queue_nodup : s.queue.Nodup
  hands_nodup : ∀ n, (hands n).Nodup
  apart : ∀ n, ∀ c ∈ hands n, c ∉ s.queue ∧ ∀ m, c ∈ hands m → m = n
  /-- who is scheduled waits -/
  schedules : ∀ n c, s.notifier n = .resume (some c) → s.waiter c = .waiting

/-- `n` is at a CAS of `notify_one` that does not fail. -/
def TakesOne (s : State C N) (a : Act C N) (n : N) (c : C) (v : Option C) : Prop :=
  a = .notifier n false ∧ s.notifier n = .oneCas c v ∧ s.awaiters = some c

/-- `n` is at a CAS of `notify_all` that does not fail. -/
def TakesAll (s : State C N) (a : Act C N) (n : N) : Prop :=
  a = .notifier n false ∧ s.notifier n = .allCas s.awaiters

/-- Wake-ups are exact in the step `a` from `s` to `t`. -/
structure Wakes (s : State C N) (a : Act C N) (t : State C N) : Prop where
  /-- `notify_all` takes whoever is enqueued at its CAS -/
  takesAll : ∀ n, TakesAll s a n → t.found n = s.queue ∧ t.queue = []
  /-- `notify_one` takes the newest of those enqueued -/
  takesOne : ∀ n c v, TakesOne s a n c v → t.found n = [c] ∧ s.queue = c :: t.queue
  /-- what a call has found is what its CAS has taken -/
  kept : ∀ n, t.found n = s.found n ∨ a = .notifyOne n ∨ a = .notifyAll n ∨
    TakesAll s a n ∨ ∃ c v, TakesOne s a n c v
  /-- a call that returns has scheduled what it has found -/
  returns : ∀ n, s.notifier n ≠ .idle → t.notifier n = .idle → t.woken n = t.found n
  /-- a `notify_one` that returns has seen null, or has scheduled one waiter -/
  wakesOne : ∀ n, s.call n = .one → s.notifier n ≠ .idle → t.notifier n = .idle →
    s.notifier n = .oneLoad ∧ s.awaiters = none ∧ t.woken n = [] ∨ ∃ c, t.woken n = [c]

/-- No other notifier comes between the read of `next_` and the CAS of `notify_one`. -/
structure Undisturbed (s : State C N) (a : Act C N) : Prop where
  /-- a CAS of `notify_one` that fails finds a waiter -/
  retry : ∀ n b c v, a = .notifier n b → s.notifier n = .oneCas c v → s.awaiters ≠ none
  /-- a waiter whose `next_` another notifier is about to read is not taken -/
  takeOne : ∀ n c v, TakesOne s a n c v → ∀ m, s.notifier m ≠ .oneRead (some c)
  takeAll : ∀ n, TakesAll s a n → ∀ m c, s.notifier m ≠ .oneRead (some c)
  /-- the `next_` put in `awaiters_` is that of the waiter taken -/
  fresh : ∀ n c v, TakesOne s a n c v → v = s.next c

/-! ## Invariant -/

/-- What the place of the notifier `n` says about what it holds. -/
def Mid (s : State C N) (n : N) (hand : List C) : NotifierPc C → Prop
  | .idle => hand = []
  | .oneLoad => s.found n = []
  | .oneRead w => s.found n = [] ∧ ∃ c ∈ s.queue, w = some c
  | .oneCas _ _ => s.found n = []
  | .oneClear c => hand = [c]
  | .allLoad => s.found n = [] ∧ s.call n = .all
  | .allCas _ => s.found n = [] ∧ s.call n = .all
  | .resume p => Chain s.next p hand ∧ (s.call n = .one → s.found n ≠ [])
  | .resumeRead c => s.waiter c = .scheduled n ∧ Chain s.next (s.next c) hand ∧
      (s.call n = .one → s.found n ≠ [])

structure Inv (s : State C N) (hands : N → List C) : Prop where
  reachable : Chain s.next s.awaiters s.queue
  found : ∀ n, s.found n = s.woken n ++ hands n
  one : ∀ n, s.call n = .one → (s.found n).length ≤ 1
  waits : ∀ c, s.waiter c = .waiting ↔ c ∈ s.queue ∨ ∃ n, c ∈ hands n
  queue_nodup : s.queue.Nodup
  hands_nodup : ∀ n, (hands n).Nodup
  apart : ∀ n, ∀ c ∈ hands n, c ∉ s.queue ∧ ∀ m, c ∈ hands m → m = n
  mid : ∀ n, Mid s n (hands n) (s.notifier n)

theorem inv_init : Inv (init : State C N) fun _ => [] := by
  constructor <;> simp [init, Chain, Mid]

/-- The invariant is what is promised. -/
theorem Inv.exact {s : State C N} {hands : N → List C} (h : Inv s hands) : Exact s hands := by
  refine ⟨?_, h.reachable, h.found, ?_, h.one, h.waits, h.queue_nodup, h.hands_nodup, h.apart, ?_⟩
  · intro n w hn
    have hm := h.mid n
    rw [hn] at hm
    exact hm.2
  · intro n hn
    have hm := h.mid n
    rwa [hn] at hm
  · intro n c hn
    have hm := h.mid n
    rw [hn] at hm
    obtain ⟨l, hl, -⟩ := Chain.some_iff.1 hm.1
    exact (h.waits c).2 (Or.inr ⟨n, by simp [hl]⟩)

/-- Who does not wait is on no list. -/
theorem Inv.off {s : State C N} {hands : N → List C} {c : C} (h : Inv s hands)
    (hc : s.waiter c ≠ .waiting) : c ∉ s.queue ∧ ∀ n, c ∉ hands n := by
  rw [Ne, h.waits c, not_or, not_exists] at hc
  exact hc

/-- The head of the list is the newest waiter. -/
theorem Inv.head {s : State C N} {hands : N → List C} {c : C} (h : Inv s hands)
    (hc : s.awaiters = some c) : ∃ l, s.queue = c :: l ∧ Chain s.next (s.next c) l := by
  have hr := h.reachable
  rw [hc] at hr
  exact Chain.some_iff.1 hr

/-! ## Lemmas -/

@[simp] theorem setNotifier_notifier [DecidableEq N] (s : State C N) (n : N) (p : NotifierPc C) :
    (setNotifier s n p).notifier = Function.update s.notifier n p := rfl

/-- What is said of `n` depends on the links of its list, on whether a waiter it
is about to read is there, and on its own records. -/
theorem Mid.congr {s t : State C N} {n : N} {l : List C} {p : NotifierPc C} (h : Mid s n l p)
    (hfound : t.found n = s.found n) (hcall : t.call n = s.call n)
    (hqueue : ∀ c, p = .oneRead (some c) → c ∈ s.queue → c ∈ t.queue)
    (hchain : ∀ q, Chain s.next q l → Chain t.next q l)
    (hread : ∀ c, p = .resumeRead c → s.waiter c = .scheduled n →
      t.waiter c = .scheduled n ∧ t.next c = s.next c) : Mid t n l p := by
  cases p with
  | idle => exact h
  | oneLoad => exact hfound.trans h
  | oneRead w =>
    obtain ⟨h1, c, hc, rfl⟩ := h
    exact ⟨hfound.trans h1, c, hqueue c rfl hc, rfl⟩
  | oneCas c v => exact hfound.trans h
  | oneClear c => exact h
  | allLoad => exact ⟨hfound.trans h.1, hcall.trans h.2⟩
  | allCas w => exact ⟨hfound.trans h.1, hcall.trans h.2⟩
  | resume q =>
    refine ⟨hchain q h.1, ?_⟩
    rw [hfound, hcall]
    exact h.2
  | resumeRead c =>
    obtain ⟨h1, h2⟩ := hread c rfl h.1
    refine ⟨h1, h2 ▸ hchain _ h.2.1, ?_⟩
    rw [hfound, hcall]
    exact h.2.2

/-! ### Waiters -/

section

variable [DecidableEq C]

/-- A coroutine that is on no list, and whose `next_` nobody is about to read, writes it. -/
theorem Inv.writeNext {s : State C N} {hands : N → List C} {c : C} (h : Inv s hands)
    (hc : s.waiter c ≠ .waiting) (hs : ∀ n, s.waiter c ≠ .scheduled n) (v : Option C) :
    Inv (setNext s c v) hands := by
  have hoff := h.off hc
  refine { h with reachable := h.reachable.update hoff.1, mid := ?_ }
  intro n
  refine (h.mid n).congr rfl rfl (fun _ _ hx => hx) ?_ ?_
  · intro q hq
    exact hq.update (hoff.2 n)
  · intro d _ hd
    have hdc : d ≠ c := by
      rintro rfl
      exact hs n hd
    exact ⟨hd, Function.update_of_ne hdc _ _⟩

/-- A coroutine that does not wait moves to a place where it does not wait either. -/
theorem Inv.moveWaiter {s : State C N} {hands : N → List C} {c : C} {p : WaiterPc C N}
    (h : Inv s hands) (hc : s.waiter c ≠ .waiting) (hp : p ≠ .waiting)
    (hs : ∀ n, s.waiter c = .scheduled n → s.notifier n ≠ .resumeRead c) :
    Inv (setWaiter s c p) hands := by
  refine { h with waits := ?_, mid := ?_ }
  · intro d
    show Function.update s.waiter c p d = _ ↔ d ∈ s.queue ∨ ∃ n, d ∈ hands n
    rw [← h.waits d]
    by_cases hd : d = c
    · subst hd
      simp [hp, hc]
    · rw [Function.update_of_ne hd]
  · intro n
    refine (h.mid n).congr rfl rfl (fun _ _ hx => hx) (fun _ hq => hq) ?_
    intro d hd hsched
    have hdc : d ≠ c := by
      rintro rfl
      exact hs n hsched hd
    exact ⟨(Function.update_of_ne hdc _ _).trans hsched, rfl⟩

/-- The CAS of `await_suspend`. -/
theorem Inv.enqueue {s : State C N} {hands : N → List C} {c : C} (h : Inv s hands)
    (hc : s.waiter c = .waitCas) (hn : s.awaiters = s.next c) :
    Inv { setWaiter s c .waiting with awaiters := some c, queue := c :: s.queue } hands := by
  have hoff := h.off (c := c) (by rw [hc]; nofun)
  refine { h with
    reachable := ⟨rfl, hn ▸ h.reachable⟩
    waits := ?_
    queue_nodup := List.nodup_cons.2 ⟨hoff.1, h.queue_nodup⟩
    apart := ?_
    mid := ?_ }
  · intro d
    show Function.update s.waiter c _ d = _ ↔ _
    by_cases hd : d = c
    · subst hd
      simp
    · rw [Function.update_of_ne hd, h.waits d, List.mem_cons, or_iff_right hd]
  · intro n d hd
    have hdc : d ≠ c := by
      rintro rfl
      exact hoff.2 n hd
    exact ⟨by simp [hdc, (h.apart n d hd).1], (h.apart n d hd).2⟩
  · intro n
    refine (h.mid n).congr rfl rfl ?_ ?_ ?_
    · intro d _ hd
      exact List.mem_cons_of_mem _ hd
    · exact fun _ hq => hq
    · intro d _ hd
      have hdc : d ≠ c := by
        rintro rfl
        rw [hc] at hd
        cases hd
      exact ⟨(Function.update_of_ne hdc _ _).trans hd, rfl⟩

theorem stepWaiter_inv {s t : State C N} {hands : N → List C} {c : C} {b : Bool}
    (h : Inv s hands) (hs : stepWaiter s c b = some t) : Inv t hands := by
  have hmove : ∀ {p}, s.waiter c ≠ .waiting → (∀ n, s.waiter c ≠ .scheduled n) → p ≠ .waiting →
      Inv (setWaiter s c p) hands :=
    fun h1 h2 h3 => h.moveWaiter h1 h3 fun n hn => absurd hn (h2 n)
  unfold stepWaiter at hs
  split at hs
  case h_1 hc =>
    cases hs
    exact hmove (by simp [hc]) (by simp [hc]) (by simp)
  case h_2 v hc =>
    cases hs
    have hw := h.writeNext (c := c) (by simp [hc]) (by simp [hc]) v
    exact hw.moveWaiter (c := c) (by simp [setNext, hc]) (by simp) (by simp [setNext, hc])
  case h_3 hc =>
    split at hs
    case isTrue hcas =>
      cases hs
      exact h.enqueue hc hcas.2
    case isFalse =>
      cases hs
      exact hmove (by simp [hc]) (by simp [hc]) (by simp)
  case h_4 => cases hs

end

/-! ### Notifiers -/

section

variable [DecidableEq N]

/-- A notifier moves without touching anything. -/
theorem Inv.moveNotifier {s : State C N} {hands : N → List C} {n : N} {p : NotifierPc C}
    (h : Inv s hands) (hp : Mid s n (hands n) p) : Inv (setNotifier s n p) hands := by
  refine { h with mid := ?_ }
  intro m
  rw [setNotifier_notifier]
  by_cases hm : m = n
  · subst hm
    rw [Function.update_self]
    exact hp.congr rfl rfl (fun _ _ hx => hx) (fun _ hq => hq) (fun _ _ hx => ⟨hx, rfl⟩)
  · rw [Function.update_of_ne hm]
    exact (h.mid m).congr rfl rfl (fun _ _ hx => hx) (fun _ hq => hq) (fun _ _ hx => ⟨hx, rfl⟩)

theorem Inv.entered {s : State C N} {hands : N → List C} {n : N} {k : Call} {p : NotifierPc C}
    (h : Inv s hands) (hn : s.notifier n = .idle)
    (hp : p = .oneLoad ∨ p = .allLoad ∧ k = .all) : Inv (enter s n k p) hands := by
  have hidle : hands n = [] := by
    have := h.mid n
    rwa [hn] at this
  refine { h with found := ?_, one := ?_, mid := ?_ }
  · intro m
    by_cases hm : m = n
    · subst hm
      simpa [enter] using hidle
    · simpa [enter, hm] using h.found m
  · intro m hk
    by_cases hm : m = n
    · subst hm
      simp [enter]
    · have := h.one m
      simp_all [enter]
  · intro m
    by_cases hm : m = n
    · subst hm
      rcases hp with rfl | ⟨rfl, rfl⟩ <;> simp [enter, Mid]
    · have hmid := h.mid m
      show Mid _ m _ (Function.update s.notifier n p m)
      rw [Function.update_of_ne hm]
      exact hmid.congr (Function.update_of_ne hm _ _) (Function.update_of_ne hm _ _)
        (fun _ _ hx => hx) (fun _ hq => hq) (fun _ _ hx => ⟨hx, rfl⟩)

/-- The CAS of a notifier that has found nothing yet takes the waiters `l`. -/
theorem Inv.taken {s : State C N} {hands : N → List C} {n : N} {v : Option C} {l rest : List C}
    {p : NotifierPc C} (h : Inv s hands) (hn : s.found n = []) (hq : s.queue = l ++ rest)
    (hv : Chain s.next v rest) (hone : s.call n = .one → l.length ≤ 1)
    (hread : ∀ m c, m ≠ n → s.notifier m = .oneRead (some c) → c ∉ l)
    (hp : p = .resume s.awaiters ∧ rest = [] ∧ s.call n = .all ∨ ∃ c, p = .oneClear c ∧ l = [c]) :
    Inv (take s n v l rest p) (Function.update hands n l) := by
  have hfound := h.found n
  rw [hn, eq_comm, List.append_eq_nil_iff] at hfound
  obtain ⟨hwoken, hhand⟩ := hfound
  have hnd := h.queue_nodup
  rw [hq, List.nodup_append'] at hnd
  obtain ⟨hl, hrest, hdis⟩ := hnd
  constructor
  · exact hv
  · intro m
    by_cases hm : m = n
    · subst hm
      simp [take, setNotifier, hwoken]
    · simpa [take, setNotifier, hm] using h.found m
  · intro m hk
    by_cases hm : m = n
    · subst hm
      simpa [take] using hone hk
    · simpa [take, setNotifier, hm] using h.one m hk
  · intro c
    show s.waiter c = _ ↔ c ∈ rest ∨ _
    rw [h.waits c, hq, List.mem_append]
    constructor
    · rintro ((hc | hc) | ⟨m, hc⟩)
      · exact Or.inr ⟨n, by simpa using hc⟩
      · exact Or.inl hc
      · have hm : m ≠ n := by
          rintro rfl
          simp [hhand] at hc
        exact Or.inr ⟨m, by simpa [hm] using hc⟩
    · rintro (hc | ⟨m, hc⟩)
      · exact Or.inl (Or.inr hc)
      · by_cases hm : m = n
        · subst hm
          exact Or.inl (Or.inl (by simpa using hc))
        · exact Or.inr ⟨m, by simpa [hm] using hc⟩
  · exact hrest
  · intro m
    by_cases hm : m = n
    · subst hm
      simpa using hl
    · simpa [hm] using h.hands_nodup m
  · have hqueue : ∀ m, m ≠ n → ∀ c ∈ hands m, c ∉ l ∧ c ∉ rest := by
      intro m _ c hc
      have := (h.apart m c hc).1
      rw [hq, List.mem_append, not_or] at this
      exact this
    intro m c hc
    by_cases hm : m = n
    · subst hm
      rw [Function.update_self] at hc
      refine ⟨hdis hc, fun m' hc' => ?_⟩
      by_contra hm'
      rw [Function.update_of_ne hm'] at hc'
      exact (hqueue m' hm' c hc').1 hc
    · rw [Function.update_of_ne hm] at hc
      refine ⟨(hqueue m hm c hc).2, fun m' hc' => ?_⟩
      by_cases hm' : m' = n
      · subst hm'
        rw [Function.update_self] at hc'
        exact absurd hc' (hqueue m hm c hc).1
      · rw [Function.update_of_ne hm'] at hc'
        exact (h.apart m c hc).2 m' hc'
  · intro m
    by_cases hm : m = n
    · subst hm
      show Mid _ m _ (Function.update s.notifier m p m)
      rw [Function.update_self, Function.update_self]
      rcases hp with ⟨rfl, rfl, hk⟩ | ⟨c, rfl, rfl⟩
      · have hr := h.reachable
        rw [hq, List.append_nil] at hr
        refine ⟨hr, fun hone => ?_⟩
        rw [show (take s m v l [] _).call m = .all from hk] at hone
        cases hone
      · rfl
    · show Mid _ m _ (Function.update s.notifier n p m)
      rw [Function.update_of_ne hm, Function.update_of_ne hm]
      refine (h.mid m).congr (Function.update_of_ne hm _ _) rfl ?_ ?_ ?_
      · intro c hc hmem
        have := hread m c hm hc
        rw [hq, List.mem_append] at hmem
        exact hmem.resolve_left this
      · exact fun _ hq => hq
      · exact fun _ _ hx => ⟨hx, rfl⟩

variable [DecidableEq C]

/-- `awaiters->next_ = nullptr` -/
theorem Inv.clear {s : State C N} {hands : N → List C} {n : N} {c : C} (h : Inv s hands)
    (hn : s.notifier n = .oneClear c) :
    Inv (setNotifier (setNext s c none) n (.resume (some c))) hands := by
  have hhand := h.mid n
  rw [hn] at hhand
  have hc : c ∈ hands n := by simp [show hands n = [c] from hhand]
  have hwait := (h.waits c).2 (Or.inr ⟨n, hc⟩)
  have hoff := h.apart n c hc
  refine { h with reachable := h.reachable.update hoff.1, mid := ?_ }
  intro m
  show Mid _ m _ (Function.update s.notifier n _ m)
  by_cases hm : m = n
  · subst hm
    rw [Function.update_self, show hands m = [c] from hhand]
    refine ⟨⟨rfl, Function.update_self _ _ _⟩, fun _ => ?_⟩
    show s.found m ≠ []
    simp [h.found m, show hands m = [c] from hhand]
  · rw [Function.update_of_ne hm]
    refine (h.mid m).congr rfl rfl (fun _ _ hx => hx) ?_ ?_
    · intro q hq
      exact hq.update fun hcm => hm (hoff.2 m hcm)
    · intro d _ hd
      have hdc : d ≠ c := by
        rintro rfl
        rw [hwait] at hd
        cases hd
      exact ⟨hd, Function.update_of_ne hdc _ _⟩

/-- `schedule_local` of the waiter in front. -/
theorem Inv.scheduled {s : State C N} {hands : N → List C} {n : N} {c : C} (h : Inv s hands)
    (hn : s.notifier n = .resume (some c)) :
    ∃ l, Inv (schedule s n c) (Function.update hands n l) := by
  have hmid := h.mid n
  rw [hn] at hmid
  obtain ⟨hmid, hone⟩ := hmid
  obtain ⟨l, hl, hch⟩ := Chain.some_iff.1 hmid
  have hc : c ∈ hands n := by simp [hl]
  have hwait := (h.waits c).2 (Or.inr ⟨n, hc⟩)
  have hoff := h.apart n c hc
  have hnd := h.hands_nodup n
  rw [hl, List.nodup_cons] at hnd
  -- of the lists only that of `n` changes: it loses `c`
  have hmem : ∀ m d, d ∈ Function.update hands n l m ↔ d ∈ hands m ∧ d ≠ c := by
    intro m d
    by_cases hm : m = n
    · subst hm
      rw [Function.update_self, hl, List.mem_cons]
      constructor
      · intro hd
        exact ⟨Or.inr hd, fun he => hnd.1 (he ▸ hd)⟩
      · rintro ⟨hd, hne⟩
        exact hd.resolve_left hne
    · rw [Function.update_of_ne hm]
      constructor
      · intro hd
        refine ⟨hd, ?_⟩
        rintro rfl
        exact hm (hoff.2 m hd)
      · exact And.left
  refine ⟨l, h.reachable, ?_, h.one, ?_, h.queue_nodup, ?_, ?_, ?_⟩
  · intro m
    by_cases hm : m = n
    · subst hm
      simp [schedule, setNotifier, setWaiter, h.found m, hl]
    · simpa [schedule, setNotifier, setWaiter, hm] using h.found m
  · intro d
    show Function.update s.waiter c _ d = _ ↔ d ∈ s.queue ∨ _
    simp only [hmem]
    by_cases hd : d = c
    · subst hd
      simp [hoff.1]
    · rw [Function.update_of_ne hd, h.waits d]
      simp [hd]
  · intro m
    by_cases hm : m = n
    · subst hm
      simpa using hnd.2
    · simpa [hm] using h.hands_nodup m
  · intro m d hd
    rw [hmem] at hd
    exact ⟨(h.apart m d hd.1).1, fun m' hd' => (h.apart m d hd.1).2 m' ((hmem m' d).1 hd').1⟩
  · intro m
    show Mid _ m _ (Function.update s.notifier n _ m)
    by_cases hm : m = n
    · subst hm
      rw [Function.update_self, Function.update_self]
      exact ⟨Function.update_self _ _ _, hch, hone⟩
    · rw [Function.update_of_ne hm, Function.update_of_ne hm]
      refine (h.mid m).congr rfl rfl (fun _ _ hx => hx) (fun _ hq => hq) ?_
      intro d _ hd
      have hdc : d ≠ c := by
        rintro rfl
        rw [hwait] at hd
        cases hd
      exact ⟨(Function.update_of_ne hdc _ _).trans hd, rfl⟩

/-! ## Steps -/

theorem stepNotifier_inv {s t : State C N} {hands : N → List C} {n : N} {b : Bool}
    (h : Inv s hands) (hs : stepNotifier s n b = some t)
    (hok : Undisturbed s (.notifier n b)) : ∃ hands', Inv t hands' := by
  have hmid := h.mid n
  -- a head that is not null is on the list
  have hhead : s.awaiters ≠ none → ∃ c ∈ s.queue, s.awaiters = some c := by
    intro hne
    obtain ⟨c, hc⟩ := Option.ne_none_iff_exists'.1 hne
    obtain ⟨l, hl, -⟩ := h.head hc
    exact ⟨c, by simp [hl], hc⟩
  unfold stepNotifier at hs
  split at hs
  case h_1 hn =>
    cases hs
    rw [hn] at hmid
    refine ⟨hands, h.moveNotifier ?_⟩
    by_cases hnull : s.awaiters = none
    · rw [if_pos hnull]
      have := h.found n
      rw [show s.found n = [] from hmid, eq_comm, List.append_eq_nil_iff] at this
      exact this.2
    · rw [if_neg hnull]
      exact ⟨hmid, hhead hnull⟩
  case h_2 c hn =>
    cases hs
    rw [hn] at hmid
    exact ⟨hands, h.moveNotifier hmid.1⟩
  case h_3 => cases hs
  case h_4 c v hn =>
    rw [hn] at hmid
    split at hs
    case isTrue hcas =>
      cases hs
      obtain ⟨rfl, hc⟩ := hcas
      have htakes : TakesOne s (.notifier n false) n c v := ⟨rfl, hn, hc⟩
      obtain ⟨l, hl, hch⟩ := h.head hc
      rw [show s.queue.erase c = l by simp [hl]]
      refine ⟨_, h.taken hmid hl ?_ (by simp) ?_ (Or.inr ⟨c, rfl, rfl⟩)⟩
      · rw [hok.fresh n c v htakes]
        exact hch
      · intro m d _ hm hd
        rw [List.mem_singleton] at hd
        exact hok.takeOne n c v htakes m (hd ▸ hm)
    case isFalse =>
      cases hs
      exact ⟨hands, h.moveNotifier ⟨hmid, hhead (hok.retry n b c v rfl hn)⟩⟩
  case h_5 c hn =>
    cases hs
    exact ⟨hands, h.clear hn⟩
  case h_6 hn =>
    cases hs
    rw [hn] at hmid
    exact ⟨hands, h.moveNotifier hmid⟩
  case h_7 w hn =>
    rw [hn] at hmid
    split at hs
    case isTrue hcas =>
      cases hs
      obtain ⟨rfl, hw⟩ := hcas
      have htakes : TakesAll s (.notifier n false) n := ⟨rfl, by rw [hn, hw]⟩
      refine ⟨_, h.taken hmid.1 (List.append_nil _).symm rfl ?_ ?_
        (Or.inl ⟨by rw [hw], rfl, hmid.2⟩)⟩
      · intro hk
        rw [hmid.2] at hk
        cases hk
      · intro m d _ hm
        exact absurd hm (hok.takeAll n htakes m d)
    case isFalse =>
      cases hs
      exact ⟨hands, h.moveNotifier hmid⟩
  case h_8 hn =>
    cases hs
    rw [hn] at hmid
    exact ⟨hands, h.moveNotifier (Chain.none_iff.1 hmid.1)⟩
  case h_9 c hn =>
    cases hs
    obtain ⟨l, hl⟩ := h.scheduled hn
    exact ⟨_, hl⟩
  case h_10 c hn =>
    cases hs
    rw [hn] at hmid
    exact ⟨hands, h.moveNotifier hmid.2⟩
  case h_11 => cases hs

theorem step_inv (s : State C N) (a : Act C N) (t : State C N) (h : ∃ hands, Inv s hands)
    (hs : step s a = some t) (hok : Undisturbed s a) : ∃ hands, Inv t hands := by
  obtain ⟨hands, h⟩ := h
  cases a with
  | wait c =>
    simp only [step, Option.ite_none_right_eq_some, Option.some.injEq] at hs
    obtain ⟨hc, rfl⟩ := hs
    have hw := h.writeNext (c := c) (by simp [hc]) (by simp [hc]) none
    exact ⟨hands, hw.moveWaiter (c := c) (by simp [setNext, hc]) (by simp) (by simp [setNext, hc])⟩
  | waiter c b => exact ⟨hands, stepWaiter_inv h hs⟩
  | run c =>
    simp only [step] at hs
    split at hs
    case h_1 n hc =>
      split at hs
      case isTrue => cases hs
      case isFalse hn =>
        cases hs
        refine ⟨hands, h.moveWaiter (by simp [hc]) (by simp) ?_⟩
        intro m hm
        rw [hc] at hm
        cases hm
        exact hn
    case h_2 => cases hs
  | notifyOne n =>
    simp only [step, Option.ite_none_right_eq_some, Option.some.injEq] at hs
    obtain ⟨hn, rfl⟩ := hs
    exact ⟨hands, h.entered hn (Or.inl rfl)⟩
  | notifyAll n =>
    simp only [step, Option.ite_none_right_eq_some, Option.some.injEq] at hs
    obtain ⟨hn, rfl⟩ := hs
    exact ⟨hands, h.entered hn (Or.inr ⟨rfl, rfl⟩)⟩
  | notifier n b => exact stepNotifier_inv h hs hok

/-- A step after which wake-ups are exact was undisturbed. -/
theorem Inv.undisturbed {s t : State C N} {a : Act C N} {hands hands' : N → List C}
    (h : Inv s hands) (hs : step s a = some t) (ht : Exact t hands') : Undisturbed s a := by
  have htake : ∀ {n c v}, TakesOne s a n c v →
      t = take s n v [c] (s.queue.erase c) (.oneClear c) := by
    rintro n c v ⟨rfl, hn, hc⟩
    simpa [step, stepNotifier, hn, hc] using hs.symm
  constructor
  · rintro n b c v rfl hn hnull
    have hfail : t = setNotifier s n (.oneRead none) := by
      simpa [step, stepNotifier, hn, hnull] using hs.symm
    obtain ⟨d, -, hd⟩ := ht.reads n none (by simp [hfail])
    cases hd
  · intro n c v htakes m hm
    have hmn : m ≠ n := by
      rintro rfl
      rw [htakes.2.1] at hm
      cases hm
    have := htake htakes
    subst this
    obtain ⟨d, hd, hcd⟩ := ht.reads m (some c) ((Function.update_of_ne hmn _ _).trans hm)
    cases hcd
    exact h.queue_nodup.not_mem_erase hd
  · rintro n ⟨rfl, hn⟩ m c hm
    have hmn : m ≠ n := by
      rintro rfl
      rw [hn] at hm
      cases hm
    have htake : t = take s n none s.queue [] (.resume s.awaiters) := by
      simpa [step, stepNotifier, hn] using hs.symm
    subst htake
    obtain ⟨d, hd, -⟩ := ht.reads m (some c) ((Function.update_of_ne hmn _ _).trans hm)
    cases hd
  · intro n c v htakes
    have := htake htakes
    subst this
    obtain ⟨l, hl, hch⟩ := h.head htakes.2.2
    have hr : Chain s.next v (s.queue.erase c) := ht.reachable
    rw [show s.queue.erase c = l by simp [hl]] at hr
    exact hr.start.trans hch.start.symm

/-- The notifier `n` is in a call, and its step moves it alone; it comes to the CAS
of `notify_one` by reading `next_`. -/
theorem stepNotifier_moves {s t : State C N} {n : N} {b : Bool}
    (hs : stepNotifier s n b = some t) : s.notifier n ≠ .idle ∧
      (∀ m, m ≠ n → t.notifier m = s.notifier m) ∧
      ∀ c v, t.notifier n = .oneCas c v →
        s.notifier n = .oneRead (some c) ∧ v = s.next c ∧ t.next = s.next ∧ t.queue = s.queue := by
  unfold stepNotifier at hs
  split at hs
  case h_1 hn =>
    cases hs
    refine ⟨by simp [hn], fun m hm => Function.update_of_ne hm _ _, ?_⟩
    intro c v hc
    rw [setNotifier_notifier, Function.update_self] at hc
    split at hc <;> cases hc
  case h_2 c hn =>
    cases hs
    refine ⟨by simp [hn], fun m hm => Function.update_of_ne hm _ _, ?_⟩
    intro d v hd
    rw [setNotifier_notifier, Function.update_self] at hd
    cases hd
    exact ⟨hn, rfl, rfl, rfl⟩
  case h_3 => cases hs
  case h_4 hn =>
    split at hs <;> cases hs <;>
      exact ⟨by simp [hn], fun m hm => Function.update_of_ne hm _ _, by simp [take]⟩
  case h_7 hn =>
    split at hs <;> cases hs <;>
      exact ⟨by simp [hn], fun m hm => Function.update_of_ne hm _ _, by simp [take]⟩
  case h_11 => cases hs
  all_goals
    rename_i hn
    cases hs
    exact ⟨by simp [hn], fun m hm => Function.update_of_ne hm _ _, by simp [schedule]⟩

/-- A step leaves a notifier and its records alone unless it starts its call or is one
of the call. -/
theorem step_frame {s t : State C N} {a : Act C N} (hs : step s a = some t) (n : N) :
    ((a = .notifyOne n ∨ a = .notifyAll n) ∧ s.notifier n = .idle) ∨
      (∃ b, a = .notifier n b ∧ stepNotifier s n b = some t) ∨
      t.notifier n = s.notifier n ∧ t.found n = s.found n := by
  cases a with
  | wait c =>
    simp only [step, Option.ite_none_right_eq_some, Option.some.injEq] at hs
    obtain ⟨-, rfl⟩ := hs
    exact Or.inr (Or.inr ⟨rfl, rfl⟩)
  | waiter c b =>
    simp only [step, stepWaiter] at hs
    split at hs
    case h_3 => split at hs <;> cases hs <;> exact Or.inr (Or.inr ⟨rfl, rfl⟩)
    all_goals
      cases hs
      try exact Or.inr (Or.inr ⟨rfl, rfl⟩)
  | run c =>
    simp only [step] at hs
    split at hs
    case h_1 =>
      split at hs <;> cases hs
      exact Or.inr (Or.inr ⟨rfl, rfl⟩)
    case h_2 => cases hs
  | notifyOne m =>
    simp only [step, Option.ite_none_right_eq_some, Option.some.injEq] at hs
    obtain ⟨hm, rfl⟩ := hs
    by_cases hn : n = m
    · subst hn
      exact Or.inl ⟨Or.inl rfl, hm⟩
    · exact Or.inr (Or.inr ⟨Function.update_of_ne hn _ _, Function.update_of_ne hn _ _⟩)
  | notifyAll m =>
    simp only [step, Option.ite_none_right_eq_some, Option.some.injEq] at hs
    obtain ⟨hm, rfl⟩ := hs
    by_cases hn : n = m
    · subst hn
      exact Or.inl ⟨Or.inr rfl, hm⟩
    · exact Or.inr (Or.inr ⟨Function.update_of_ne hn _ _, Function.update_of_ne hn _ _⟩)
  | notifier m b =>
    by_cases hn : n = m
    · subst hn
      exact Or.inr (Or.inl ⟨b, rfl, hs⟩)
    · refine Or.inr (Or.inr ⟨(stepNotifier_moves hs).2.1 n hn, ?_⟩)
      simp only [step, stepNotifier] at hs
      split at hs
      case h_4 | h_7 =>
        split at hs <;> cases hs
        · exact Function.update_of_ne hn _ _
        · rfl
      all_goals
        cases hs
        try rfl

/-- What a call has found changes where it starts and at its CAS. -/
theorem step_found {s t : State C N} {a : Act C N} (hs : step s a = some t) (n : N) :
    t.found n = s.found n ∨ a = .notifyOne n ∨ a = .notifyAll n ∨ TakesAll s a n ∨
      ∃ c v, TakesOne s a n c v := by
  obtain ⟨ha | ha, -⟩ | ⟨b, rfl, hn⟩ | ⟨-, hf⟩ := step_frame hs n
  · exact Or.inr (Or.inl ha)
  · exact Or.inr (Or.inr (Or.inl ha))
  · unfold stepNotifier at hn
    split at hn
    case h_4 c v hat =>
      split at hn <;> cases hn
      case isTrue hcas =>
        obtain ⟨rfl, hc⟩ := hcas
        exact Or.inr (Or.inr (Or.inr (Or.inr ⟨c, v, rfl, hat, hc⟩)))
      case isFalse => exact Or.inl rfl
    case h_7 w hat =>
      split at hn <;> cases hn
      case isTrue hcas =>
        obtain ⟨rfl, hw⟩ := hcas
        exact Or.inr (Or.inr (Or.inr (Or.inl ⟨rfl, by rw [hat, hw]⟩)))
      case isFalse => exact Or.inl rfl
    all_goals
      cases hn
      try exact Or.inl rfl
  · exact Or.inl hf

/-- A call returns where it has seen null, or at the end of the list it schedules. -/
theorem step_returns {s t : State C N} {a : Act C N} {n : N} (hs : step s a = some t)
    (hn : s.notifier n ≠ .idle) (ht : t.notifier n = .idle) :
    (s.notifier n = .oneLoad ∧ s.awaiters = none ∨ s.notifier n = .resume none) ∧
      t.found n = s.found n := by
  obtain ⟨-, hidle⟩ | ⟨b, -, hmove⟩ | ⟨hsame, -⟩ := step_frame hs n
  · exact absurd hidle hn
  · unfold stepNotifier at hmove
    split at hmove
    case h_1 hload =>
      cases hmove
      rw [setNotifier_notifier, Function.update_self] at ht
      split at ht
      case isTrue hnull => exact ⟨Or.inl ⟨hload, hnull⟩, rfl⟩
      case isFalse => cases ht
    case h_4 | h_7 => split at hmove <;> cases hmove <;> simp [take] at ht
    case h_8 hend =>
      cases hmove
      exact ⟨Or.inr hend, rfl⟩
    all_goals
      cases hmove
      try simp [schedule] at ht
  · exact absurd (hsame ▸ ht) hn

theorem Inv.wakes {s t : State C N} {a : Act C N} {hands hands' : N → List C}
    (h : Inv s hands) (hs : step s a = some t) (h' : Inv t hands') : Wakes s a t := by
  have hreturned : ∀ n, t.notifier n = .idle → t.woken n = t.found n := by
    intro n ht
    have hmid := h'.mid n
    rw [ht] at hmid
    rw [h'.found n, show hands' n = [] from hmid, List.append_nil]
  refine ⟨?_, ?_, step_found hs, fun n _ => hreturned n, ?_⟩
  · rintro n ⟨rfl, hn⟩
    have htake : t = take s n none s.queue [] (.resume s.awaiters) := by
      simpa [step, stepNotifier, hn] using hs.symm
    subst htake
    exact ⟨Function.update_self _ _ _, rfl⟩
  · rintro n c v ⟨rfl, hn, hc⟩
    have htake : t = take s n v [c] (s.queue.erase c) (.oneClear c) := by
      simpa [step, stepNotifier, hn, hc] using hs.symm
    subst htake
    obtain ⟨l, hl, -⟩ := h.head hc
    refine ⟨Function.update_self _ _ _, ?_⟩
    show s.queue = c :: s.queue.erase c
    simp [hl]
  · intro n hone hn ht
    have hmid := h.mid n
    obtain ⟨hat, hfound⟩ := step_returns hs hn ht
    rw [hreturned n ht, hfound]
    obtain ⟨hload, hnull⟩ | hend := hat
    · rw [hload] at hmid
      exact Or.inl ⟨hload, hnull, hmid⟩
    · rw [hend] at hmid
      exact Or.inr (List.length_eq_one_iff.1 (Nat.le_antisymm (h.one n hone)
        (List.length_pos_iff.2 (hmid.2 hone))))

/-- **Exact wake-ups.**  In every run, wake-ups are exact in every step if and
only if no step disturbs a `notify_one` between its read of `next_` and its CAS. -/
theorem exact_iff (as : List (Act C N)) :
    EachStep step (fun s a t => (∃ hands, Exact t hands) ∧ Wakes s a t) (init : State C N) as ↔
      EachStep step (fun s a _ => Undisturbed s a) init as := by
  apply eachStep_iff (fun s => ∃ hands, Inv s hands) step_inv
  · rintro s a t ⟨hands, h⟩ hs
    constructor
    · rintro ⟨⟨hands', ht⟩, -⟩
      exact h.undisturbed hs ht
    · intro hok
      obtain ⟨hands', ht⟩ := step_inv s a t ⟨hands, h⟩ hs hok
      exact ⟨⟨hands', ht.exact⟩, h.wakes hs ht⟩
  · exact ⟨_, inv_init⟩

/-! ## One notifier at a time -/

/-- A call starts when no other is under way, as it does under the mutex. -/
def Serial (s : State C N) (a : Act C N) : Prop :=
  ∀ n, a = .notifyOne n ∨ a = .notifyAll n → ∀ m, s.notifier m = .idle

/-- Between its read of `next_` and its CAS a lone notifier sees the list grow only. -/
structure Alone (s : State C N) : Prop where
  alone : ∀ n m, s.notifier n ≠ .idle → s.notifier m ≠ .idle → n = m
  held : ∀ n c v, s.notifier n = .oneCas c v → c ∈ s.queue ∧ v = s.next c

omit [DecidableEq C] [DecidableEq N] in
theorem Alone.undisturbed {s : State C N} {hands : N → List C} {a : Act C N} (ha : Alone s)
    (h : Inv s hands) : Undisturbed s a := by
  refine ⟨?_, ?_, ?_, fun n c v htakes => (ha.held n c v htakes.2.1).2⟩
  · rintro n b c v - hn hnull
    have hr := h.reachable
    rw [hnull, Chain.none_iff] at hr
    have := (ha.held n c v hn).1
    simp [hr] at this
  · rintro n c v ⟨-, hn, -⟩ m hm
    have := ha.alone n m (by simp [hn]) (by simp [hm])
    subst this
    rw [hn] at hm
    cases hm
  · rintro n ⟨-, hn⟩ m c hm
    have := ha.alone n m (by simp [hn]) (by simp [hm])
    subst this
    rw [hn] at hm
    cases hm

omit [DecidableEq C] [DecidableEq N] in
theorem Alone.of_idle {t : State C N} {n : N} (hidle : ∀ m, m ≠ n → t.notifier m = .idle)
    (hcas : ∀ c v, t.notifier n = .oneCas c v → c ∈ t.queue ∧ v = t.next c) : Alone t := by
  refine ⟨?_, ?_⟩
  · intro m m' hm hm'
    rw [Not.imp_symm (hidle m) hm, Not.imp_symm (hidle m') hm']
  · intro m c v hm
    by_cases hmn : m = n
    · subst hmn
      exact hcas c v hm
    · rw [hidle m hmn] at hm
      cases hm

omit [DecidableEq C] [DecidableEq N] in
/-- What a lone notifier needs is kept by steps that leave the notifiers and the
links of the waiters alone. -/
theorem Alone.congr {s t : State C N} (h : Alone s) (hn : t.notifier = s.notifier)
    (hq : ∀ c ∈ s.queue, c ∈ t.queue ∧ t.next c = s.next c) : Alone t := by
  refine ⟨by rw [hn]; exact h.alone, ?_⟩
  intro n c v hc
  rw [hn] at hc
  obtain ⟨hmem, rfl⟩ := h.held n c v hc
  exact ⟨(hq c hmem).1, (hq c hmem).2.symm⟩

omit [DecidableEq N] in
theorem stepWaiter_alone {s t : State C N} {hands : N → List C} {c : C} {b : Bool} (h : Inv s hands)
    (ha : Alone s) (hs : stepWaiter s c b = some t) : Alone t := by
  unfold stepWaiter at hs
  split at hs
  case h_1 =>
    cases hs
    exact ha.congr rfl fun _ hd => ⟨hd, rfl⟩
  case h_2 v hc =>
    cases hs
    refine ha.congr rfl fun d hd => ⟨hd, Function.update_of_ne ?_ _ _⟩
    rintro rfl
    exact (h.off (by simp [hc])).1 hd
  case h_3 =>
    split at hs <;> cases hs
    · exact ha.congr rfl fun _ hd => ⟨List.mem_cons_of_mem _ hd, rfl⟩
    · exact ha.congr rfl fun _ hd => ⟨hd, rfl⟩
  case h_4 => cases hs

theorem step_alone (s : State C N) (a : Act C N) (t : State C N)
    (h : (∃ hands, Inv s hands) ∧ Alone s) (hs : step s a = some t) (hok : Serial s a) :
    (∃ hands, Inv t hands) ∧ Alone t := by
  obtain ⟨⟨hands, h⟩, ha⟩ := h
  refine ⟨step_inv s a t ⟨hands, h⟩ hs (ha.undisturbed h), ?_⟩
  -- whoever starts a call is the only one in a call
  have henter : ∀ n k p, (a = .notifyOne n ∨ a = .notifyAll n) → (∀ c v, p ≠ .oneCas c v) →
      t = enter s n k p → Alone t := by
    rintro n k p hcall hp rfl
    apply Alone.of_idle (n := n)
    · intro m hm
      exact (Function.update_of_ne hm _ _).trans (hok n hcall m)
    · intro c v hn
      exact absurd ((Function.update_self _ _ _).symm.trans hn) (hp c v)
  cases a with
  | wait c =>
    simp only [step, Option.ite_none_right_eq_some, Option.some.injEq] at hs
    obtain ⟨hc, rfl⟩ := hs
    refine ha.congr rfl fun d hd => ⟨hd, Function.update_of_ne ?_ _ _⟩
    rintro rfl
    exact (h.off (by simp [hc])).1 hd
  | waiter c b => exact stepWaiter_alone h ha hs
  | run c =>
    simp only [step] at hs
    split at hs
    case h_1 =>
      split at hs <;> cases hs
      exact ha.congr rfl fun _ hd => ⟨hd, rfl⟩
    case h_2 => cases hs
  | notifyOne n =>
    simp only [step, Option.ite_none_right_eq_some, Option.some.injEq] at hs
    exact henter n .one .oneLoad (Or.inl rfl) (by simp) hs.2.symm
  | notifyAll n =>
    simp only [step, Option.ite_none_right_eq_some, Option.some.injEq] at hs
    exact henter n .all .allLoad (Or.inr rfl) (by simp) hs.2.symm
  | notifier n b =>
    obtain ⟨hn, hother, hcas⟩ := stepNotifier_moves hs
    apply Alone.of_idle (n := n)
    · intro m hm
      rw [hother m hm]
      by_contra hne
      exact hm (ha.alone m n hne hn)
    · intro c v hc
      obtain ⟨hread, rfl, hnext, hqueue⟩ := hcas c v hc
      have hmid := h.mid n
      rw [hread] at hmid
      obtain ⟨-, d, hd, hcd⟩ := hmid
      cases hcd
      rw [hnext, hqueue]
      exact ⟨hd, rfl⟩

/-- Under the mutex, one notifier at a time, wake-ups are exact. -/
theorem exact_of_serial (as : List (Act C N))
    (h : EachStep step (fun s a _ => Serial s a) (init : State C N) as) :
    EachStep step (fun s a t => (∃ hands, Exact t hands) ∧ Wakes s a t) (init : State C N) as := by
  have hinit : (∃ hands, Inv (init : State C N) hands) ∧ Alone (init : State C N) :=
    ⟨⟨_, inv_init⟩, by simp [init], by simp [init]⟩
  apply eachStep_of_inv (fun s => (∃ hands, Inv s hands) ∧ Alone s) step_alone _ hinit h
  intro s a t hi hs hok
  obtain ⟨hands', ht⟩ := (step_alone s a t hi hs hok).1
  obtain ⟨⟨hands, h⟩, -⟩ := hi
  exact ⟨⟨hands', ht.exact⟩, h.wakes hs ht⟩

end

/-! ## Two notifiers at a time -/

def enqueue {C N : Type} (c : C) : List (Act C N) :=
  [.wait c, .waiter c false, .waiter c false, .waiter c false]

/-- `notify_one` up to its CAS. -/
def peek {C N : Type} (n : N) : List (Act C N) :=
  [.notifyOne n, .notifier n false, .notifier n false]

/-- A call of `notify_one` that wakes a waiter. -/
def pop {C N : Type} (n : N) : List (Act C N) :=
  peek n ++ List.replicate 5 (.notifier n false)

/-- One waiter and two notifiers: the first has read `next_` when the second takes
the waiter.  Its CAS fails, and it goes on with the null pointer it has found. -/
def overtaken : List (Act Unit Bool) :=
  enqueue () ++ peek true ++ pop false ++ [.notifier true false]

/-- Between the read and the CAS of the first notifier both waiters are woken, `2`
starts to wait and `1` waits again: the CAS finds the head it expects. -/
def rebuilt : List (Act Nat Bool) :=
  enqueue 0 ++ enqueue 1 ++ peek true ++ pop false ++ pop false ++ [.run 1, .run 0] ++
    enqueue 2 ++ enqueue 1 ++ [.notifier true false]

/-- In the one run `notify_one` dereferences null next, in the other `2` is lost: what
`awaiters_` points to is a waiter long gone, with no other behind it. -/
theorem overtaken_rebuilt :
    (∃ t, run step init overtaken = some t ∧ t.notifier true = .oneRead none ∧
      ¬ EachStep step (fun s a t => (∃ hands, Exact t hands) ∧ Wakes s a t) init overtaken) ∧
    ∃ t, run step init rebuilt = some t ∧ t.waiter 2 = .waiting ∧ (∀ n, 2 ∉ t.found n) ∧
      t.awaiters = some 0 ∧ t.waiter 0 = .idle ∧ t.next 0 = none := by
  refine ⟨⟨_, rfl, rfl, ?_⟩, ⟨_, rfl, rfl, by decide, rfl, rfl, rfl⟩⟩
  intro h
  obtain ⟨hands, ht⟩ := run_inv (fun t => ∃ hands, Exact t hands) (fun _ _ _ _ _ hok => hok.1)
    ⟨_, inv_init.exact⟩ rfl h
  obtain ⟨c, -, hc⟩ := ht.reads true none rfl
  cases hc

end Kosio.ConditionVariable
