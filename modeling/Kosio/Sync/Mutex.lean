import Kosio.Lib.Chain
import Kosio.Lib.HandOff

/-!
# `Mutex`: one word for the lock and its waiters

`state_` is the unlocked mark, the null pointer (locked, nobody new waits) or
the head of the LIFO list of waiters; `fifo_awaiters_` is the list in the order
in which the lock is handed over.  An `Awaiter` is named by its coroutine `c : C`,
and one step of a coroutine is one access to the shared memory.

A coroutine handed over by `unlock` sits in the slot of the worker that runs
`unlock`, so it goes on only when that call has returned (`Pc.scheduled`).

`try_lock` exchanges whatever it has loaded for "locked".  Where it has loaded
the unlocked mark, or where the word has changed since, the lock is a line in
which everybody keeps their place (`run_handOff`); the remaining case takes a lock
that is held and drops its waiters (`two_owners`).
-/

namespace Kosio.Mutex

open Steps

/-! ## Algorithm -/

/-- `std::atomic<Awaiter *> state_`. -/
inductive Word (C : Type) where
  | unlocked
  | locked
  | list (head : C)
deriving DecidableEq

inductive Pc (C : Type) where
  | idle
  /-- in `await_suspend`, about to load `state_` -/
  | lockLoad
  /-- about to CAS, having loaded `state` -/
  | lockCas (state : Word C)
  /-- `await_suspend` has answered `true` -/
  | parked
  /-- handed to the worker of `by` -/
  | scheduled (unlocker : C)
  | owner
  | tryLoad
  | tryCas (state : Word C)
  /-- in `unlock`: the first assert -/
  | unlockAssert
  /-- about to test `fifo_awaiters_` -/
  | unlockFifo
  | unlockLoad
  | unlockCas
  | unlockXchg
  /-- in the loop that reverses the list, at `lifo_awaiters` -/
  | unlockRev (lifoAwaiters : C)
  /-- about to schedule the front of `fifo_awaiters_` -/
  | unlockSched
  /-- about to take the front off `fifo_awaiters_` -/
  | unlockPop
deriving DecidableEq

structure State (C : Type) where
  state : Word C
  fifoAwaiters : Option C
  next : C → Option C
  pc : C → Pc C

variable {C : Type}

def init : State C := ⟨.unlocked, none, fun _ => none, fun _ => .idle⟩

/-- The word stored in a field `next_`; the unlocked mark never is. -/
def Word.toPtr : Word C → Option C
  | .unlocked => none
  | .locked => none
  | .list c => some c

inductive Act (C : Type) where
  | lock (c : C)
  | tryLock (c : C)
  | unlock (c : C)
  /-- one step of `c`; a weak CAS fails when `spurious` says so -/
  | step (c : C) (spurious : Bool)

section

variable [DecidableEq C]

def setPc (s : State C) (c : C) (p : Pc C) : State C :=
  { s with pc := Function.update s.pc c p }

def setNext (s : State C) (c : C) (v : Option C) : State C :=
  { s with next := Function.update s.next c v }

def step (s : State C) : Act C → Option (State C)
  | .lock c => if s.pc c = .idle then some (setPc s c .lockLoad) else none
  | .tryLock c => if s.pc c = .idle then some (setPc s c .tryLoad) else none
  | .unlock c => if s.pc c = .owner then some (setPc s c .unlockAssert) else none
  | .step c spurious =>
    match s.pc c with
    | .lockLoad => some (setPc s c (.lockCas s.state))
    | .lockCas state =>
      if state = .unlocked then
        if spurious = false ∧ s.state = state then
          some (setPc { s with state := .locked } c .owner)
        else some (setPc s c (.lockCas s.state))
      else
        let s := setNext s c state.toPtr
        if spurious = false ∧ s.state = state then
          some (setPc { s with state := .list c } c .parked)
        else some (setPc s c (.lockCas s.state))
    | .scheduled d => if s.pc d = .unlockPop then none else some (setPc s c .owner)
    | .tryLoad => some (setPc s c (.tryCas s.state))
    | .tryCas state =>
      if s.state = state then some (setPc { s with state := .locked } c .owner)
      else some (setPc s c .idle)
    | .unlockAssert => some (setPc s c .unlockFifo)
    | .unlockFifo =>
      some (setPc s c (if s.fifoAwaiters = none then .unlockLoad else .unlockSched))
    | .unlockLoad => some (setPc s c (if s.state = .locked then .unlockCas else .unlockXchg))
    | .unlockCas =>
      if s.state = .locked then some (setPc { s with state := .unlocked } c .idle)
      else some (setPc s c .unlockXchg)
    | .unlockXchg =>
      match s.state with
      | .list x => some (setPc { s with state := .locked } c (.unlockRev x))
      | _ => none
    | .unlockRev x =>
      some (setPc { setNext s x s.fifoAwaiters with fifoAwaiters := some x } c
        (match s.next x with
          | none => .unlockSched
          | some y => .unlockRev y))
    | .unlockSched =>
      match s.fifoAwaiters with
      | some a => some (setPc (setPc s a (.scheduled c)) c .unlockPop)
      | none => none
    | .unlockPop => some (setPc { s with fifoAwaiters := s.fifoAwaiters.bind s.next } c .idle)
    | _ => none

end

/-! ## What is promised -/

/-- Owns the lock: from the CAS of `lock` or `try_lock`, or from being handed it
over, to the point where `unlock` frees the lock or hands it over. -/
def Pc.Owns : Pc C → Prop
  | .scheduled _ => True
  | .owner => True
  | .unlockAssert => True
  | .unlockFifo => True
  | .unlockLoad => True
  | .unlockCas => True
  | .unlockXchg => True
  | .unlockRev _ => True
  | .unlockSched => True
  | _ => False

/-- From the call of `lock` until `unlock` is called. -/
def Pc.Locking : Pc C → Prop
  | .lockLoad => True
  | .lockCas _ => True
  | .parked => True
  | .scheduled _ => True
  | .owner => True
  | _ => False

/-- In `unlock`, or outside. -/
def Pc.Unlocking : Pc C → Prop
  | .idle => True
  | .unlockAssert => True
  | .unlockFifo => True
  | .unlockLoad => True
  | .unlockCas => True
  | .unlockXchg => True
  | .unlockRev _ => True
  | .unlockSched => True
  | .unlockPop => True
  | _ => False

/-- On one of the lists: that of `state_`, that of `fifo_awaiters_`, or the one
`unlock` is reversing. -/
def Queued (s : State C) (x : C) : Prop :=
  ∃ p l, Chain s.next p l ∧ x ∈ l ∧
    (p = s.state.toPtr ∨ p = s.fifoAwaiters ∨ ∃ d y, s.pc d = .unlockRev y ∧ p = some y)

/-- The asserts of `unlock` hold at `c`. -/
structure Asserts (s : State C) (c : C) : Prop where
  held : s.pc c = .unlockAssert → s.state ≠ .unlocked
  list : s.pc c = .unlockXchg → ∃ x, s.state = .list x
  fifo : s.pc c = .unlockSched → s.fifoAwaiters ≠ none

/-- What a step must not do: leave two owners, take a held lock by `try_lock`, or
take a waiter off its list by `try_lock`. -/
structure Exclusive (s : State C) (a : Act C) (t : State C) : Prop where
  one_owner : ∀ c d, (t.pc c).Owns → (t.pc d).Owns → c = d
  try_unlocked : ∀ c b w, a = .step c b → s.pc c = .tryCas w → t.pc c = .owner →
    s.state = .unlocked
  try_keeps : ∀ c b w, a = .step c b → s.pc c = .tryCas w → ∀ x, s.pc x = .parked →
    Queued s x → Queued t x

/-- `try_lock` comes to its CAS having loaded the unlocked mark, or finds the
word changed. -/
def FreshTry (s : State C) (a : Act C) (_ : State C) : Prop :=
  ∀ c b w, a = .step c b → s.pc c = .tryCas w → w = .unlocked ∨ s.state ≠ w

/-! ## Invariant -/

/-- What the place of the owner `c` says about the lists: `rem` is still to be
reversed, `fifo` is in hand-over order. -/
def Mid (s : State C) (rem fifo : List C) (c : C) : Pc C → Prop
  | .scheduled d => rem = [] ∧
      (s.pc d = .unlockPop → s.fifoAwaiters = some c ∧ Chain s.next (s.next c) fifo) ∧
      (s.pc d ≠ .unlockPop → Chain s.next s.fifoAwaiters fifo)
  | .owner => rem = [] ∧ Chain s.next s.fifoAwaiters fifo
  | .unlockAssert => rem = [] ∧ Chain s.next s.fifoAwaiters fifo
  | .unlockFifo => rem = [] ∧ Chain s.next s.fifoAwaiters fifo
  | .unlockLoad => rem = [] ∧ fifo = [] ∧ s.fifoAwaiters = none
  | .unlockCas => rem = [] ∧ fifo = [] ∧ s.fifoAwaiters = none
  | .unlockXchg => rem = [] ∧ fifo = [] ∧ s.fifoAwaiters = none ∧ ∃ x, s.state = .list x
  | .unlockRev x => Chain s.next (some x) rem ∧ Chain s.next s.fifoAwaiters fifo
  | .unlockSched => rem = [] ∧ ∃ a, s.fifoAwaiters = some a ∧ Chain s.next (some a) fifo
  | _ => False

structure Inv (s : State C) (o : Option C) (rem fifo lifo : List C) : Prop where
  owns : ∀ c, (s.pc c).Owns ↔ o = some c
  parks : ∀ c, s.pc c = .parked ↔ c ∈ rem ∨ c ∈ fifo ∨ c ∈ lifo
  nodup : (rem ++ fifo ++ lifo).Nodup
  unlocked : s.state = .unlocked ↔ o = none
  free : o = none → rem = [] ∧ fifo = [] ∧ s.fifoAwaiters = none
  lifo : Chain s.next s.state.toPtr lifo
  mid : ∀ c, o = some c → Mid s rem fifo c (s.pc c)
  /-- whoever is about to take the front off the list has just handed it the lock -/
  pop : ∀ d, s.pc d = .unlockPop → ∃ a, o = some a ∧ s.pc a = .scheduled d

theorem inv_init : Inv (init : State C) none [] [] [] := by
  constructor <;> simp [init, Chain, Word.toPtr, Pc.Owns]

section

variable [DecidableEq C]

/-! ## Lemmas -/

@[simp, grind =] theorem setPc_pc (s : State C) (c x : C) (p : Pc C) :
    (setPc s c p).pc x = if x = c then p else s.pc x := by
  simp [setPc, Function.update_apply]

@[simp, grind =] theorem setPc_state (s : State C) (c : C) (p : Pc C) :
    (setPc s c p).state = s.state := rfl

@[simp, grind =] theorem setPc_fifoAwaiters (s : State C) (c : C) (p : Pc C) :
    (setPc s c p).fifoAwaiters = s.fifoAwaiters := rfl

@[simp, grind =] theorem setPc_next (s : State C) (c : C) (p : Pc C) :
    (setPc s c p).next = s.next := rfl

@[simp, grind =] theorem setNext_pc (s : State C) (c : C) (v : Option C) :
    (setNext s c v).pc = s.pc := rfl

@[simp, grind =] theorem setNext_state (s : State C) (c : C) (v : Option C) :
    (setNext s c v).state = s.state := rfl

@[simp, grind =] theorem setNext_fifoAwaiters (s : State C) (c : C) (v : Option C) :
    (setNext s c v).fifoAwaiters = s.fifoAwaiters := rfl

@[simp, grind =] theorem setNext_next (s : State C) (c x : C) (v : Option C) :
    (setNext s c v).next x = if x = c then v else s.next x := by
  simp [setNext, Function.update_apply]

theorem setNext_chain {s : State C} {c : C} {p : Option C} {l : List C} (v : Option C)
    (h : Chain s.next p l) (hc : c ∉ l) : Chain (setNext s c v).next p l :=
  h.update hc

/-- A coroutine that does not wait may write its `next_`. -/
theorem Inv.writeNext {s : State C} {o : Option C} {rem fifo lifo : List C} {c : C}
    (h : Inv s o rem fifo lifo) (hc : s.pc c ≠ .parked) (ho : o ≠ some c) (v : Option C) :
    Inv (setNext s c v) o rem fifo lifo := by
  have hq : c ∉ rem ∧ c ∉ fifo ∧ c ∉ lifo := by
    have := h.parks c
    tauto
  refine ⟨h.owns, h.parks, h.nodup, h.unlocked, h.free, setNext_chain v h.lifo hq.2.2, ?_, h.pop⟩
  intro a ha
  have hne : a ≠ c := fun he => ho (he ▸ ha)
  have hm := h.mid a ha
  have hr : ∀ p, Chain s.next p rem → Chain (setNext s c v).next p rem :=
    fun p hp => setNext_chain v hp hq.1
  have hf : ∀ p, Chain s.next p fifo → Chain (setNext s c v).next p fifo :=
    fun p hp => setNext_chain v hp hq.2.1
  cases hp : s.pc a <;> simp only [hp, Mid, setNext_pc, setNext_state, setNext_fifoAwaiters,
    setNext_next, if_neg hne] at hm ⊢ <;> grind

/-- What the owner's place says does not depend on the others, unless one takes the
front off the list. -/
theorem Mid.other {s : State C} {rem fifo : List C} {a c : C} {p q : Pc C} (hm : Mid s rem fifo a q)
    (hc : s.pc c ≠ .unlockPop) (hp : p ≠ .unlockPop) : Mid (setPc s c p) rem fifo a q := by
  cases q with
  | scheduled d =>
    obtain ⟨hrem, hpop, hrest⟩ := hm
    have hd : (setPc s c p).pc d = .unlockPop ↔ s.pc d = .unlockPop := by
      rw [setPc_pc]
      split
      · next hdc =>
        subst hdc
        exact iff_of_false hp hc
      · rfl
    exact ⟨hrem, fun h => hpop (hd.1 h), fun h => hrest (mt hd.2 h)⟩
  | _ => exact hm

omit [DecidableEq C] in
theorem Mid.push {s : State C} {rem fifo : List C} {a : C} {q : Pc C} (hm : Mid s rem fifo a q)
    (x : C) : Mid { s with state := .list x } rem fifo a q := by
  cases q with
  | unlockXchg =>
    obtain ⟨hrem, hfifo, hnull, -⟩ := hm
    exact ⟨hrem, hfifo, hnull, x, rfl⟩
  | _ => exact hm

/-- A move between places that have nothing to do with the lock. -/
theorem Inv.move {s : State C} {o : Option C} {rem fifo lifo : List C} {c : C} {p : Pc C}
    (h : Inv s o rem fifo lifo) (hc : ¬ (s.pc c).Owns) (hc1 : s.pc c ≠ .parked)
    (hc2 : s.pc c ≠ .unlockPop) (hp : ¬ p.Owns) (hp1 : p ≠ .parked) (hp2 : p ≠ .unlockPop) :
    Inv (setPc s c p) o rem fifo lifo := by
  have howns := h.owns
  have hparks := h.parks
  have hpop := h.pop
  refine ⟨?_, ?_, h.nodup, h.unlocked, h.free, h.lifo, ?_, ?_⟩
  · grind
  · grind
  · intro a ha
    have hne : a ≠ c := by grind
    rw [setPc_pc, if_neg hne]
    exact (h.mid a ha).other hc2 hp2
  · grind [Pc.Owns]

/-- The owner moves on: `p` is an owner's place and what it says holds. -/
theorem Inv.ownerMove {s : State C} {rem fifo lifo : List C} {c : C} {p : Pc C}
    (h : Inv s (some c) rem fifo lifo) (hp : p.Owns) (hpop : ∀ d, s.pc d ≠ .unlockPop)
    (hm : Mid (setPc s c p) rem fifo c p) : Inv (setPc s c p) (some c) rem fifo lifo := by
  have howns := h.owns
  have hparks := h.parks
  refine ⟨?_, ?_, h.nodup, h.unlocked, h.free, h.lifo, ?_, ?_⟩
  · grind
  · grind [Pc.Owns]
  · grind
  · grind [Pc.Owns]

/-- The CAS of `lock` or `try_lock` on the unlocked mark. -/
theorem Inv.acquire {s : State C} {rem fifo lifo : List C} {c : C}
    (h : Inv s none rem fifo lifo) (hc : s.pc c ≠ .parked) :
    Inv (setPc { s with state := .locked } c .owner) (some c) rem fifo lifo := by
  obtain ⟨owns, parks, nodup, unlocked, free, lifo, mid, pop⟩ := h
  constructor
  case owns => grind [Pc.Owns]
  case parks => grind
  case nodup => grind
  case unlocked => grind
  case free => grind
  case lifo => grind [Word.toPtr]
  case mid => grind [Mid, Chain.nil_iff]
  case pop => grind

/-- The CAS of `lock` that puts the awaiter in front of the list. -/
theorem Inv.enqueue {s : State C} {o : Option C} {rem fifo lifo : List C} {c : C}
    (h : Inv s o rem fifo lifo) (hc : ¬ (s.pc c).Owns) (hc1 : s.pc c ≠ .parked)
    (hc2 : s.pc c ≠ .unlockPop) (hl : s.state ≠ .unlocked) (hn : s.next c = s.state.toPtr) :
    Inv (setPc { s with state := .list c } c .parked) o rem fifo (c :: lifo) := by
  have howns := h.owns
  have hparks := h.parks
  have hpop := h.pop
  have hnodup := h.nodup
  refine ⟨?_, ?_, ?_, ?_, h.free, ⟨rfl, hn ▸ h.lifo⟩, ?_, ?_⟩
  · grind [Pc.Owns]
  · grind
  · grind
  · have := h.unlocked
    grind
  · intro a ha
    have hne : a ≠ c := by grind
    rw [setPc_pc, if_neg hne]
    exact ((h.mid a ha).push c).other hc2 (by simp)
  · grind [Pc.Owns]

/-- `unlock` frees the lock. -/
theorem Inv.release {s : State C} {rem fifo lifo : List C} {c : C}
    (h : Inv s (some c) rem fifo lifo) (hc : s.pc c = .unlockCas) (hl : s.state = .locked) :
    Inv (setPc { s with state := .unlocked } c .idle) none rem fifo lifo := by
  have hm := h.mid c rfl
  rw [hc] at hm
  obtain ⟨owns, parks, nodup, unlocked, free, lifo, mid, pop⟩ := h
  constructor
  case owns => grind [Pc.Owns]
  case parks => grind
  case nodup => grind
  case unlocked => grind
  case free => grind [Mid]
  case lifo => grind [Word.toPtr]
  case mid => grind
  case pop => grind

/-- `unlock` takes the list of waiters. -/
theorem Inv.takeList {s : State C} {rem fifo lifo : List C} {c x : C}
    (h : Inv s (some c) rem fifo lifo) (hc : s.pc c = .unlockXchg) (hl : s.state = .list x) :
    Inv (setPc { s with state := .locked } c (.unlockRev x)) (some c) lifo fifo [] := by
  have hm := h.mid c rfl
  rw [hc] at hm
  obtain ⟨hrem, hfifo, hnull, -⟩ := hm
  obtain ⟨owns, parks, nodup, unlocked, free, lifo', mid, pop⟩ := h
  constructor
  case owns => grind [Pc.Owns]
  case parks => grind
  case nodup => grind
  case unlocked => grind
  case free => grind
  case lifo => grind [Word.toPtr, Chain.nil_iff]
  case mid => grind [Mid, Word.toPtr, Chain.nil_iff]
  case pop => grind

/-- One turn of the loop that reverses the list. -/
theorem Inv.reverse {s : State C} {r fifo lifo : List C} {c x : C}
    (h : Inv s (some c) (x :: r) fifo lifo) (hc : s.pc c = .unlockRev x) :
    Inv (setPc { setNext s x s.fifoAwaiters with fifoAwaiters := some x } c
      (match s.next x with
        | none => .unlockSched
        | some y => .unlockRev y)) (some c) r (x :: fifo) lifo := by
  have hm := h.mid c rfl
  rw [hc] at hm
  obtain ⟨⟨-, hr⟩, hf⟩ := hm
  have hnd := h.nodup
  have hf' : Chain (setNext s x s.fifoAwaiters).next (some x) (x :: fifo) :=
    hf.push (by grind)
  have hr' : Chain (setNext s x s.fifoAwaiters).next (s.next x) r := hr.update (by grind)
  have hl' : Chain (setNext s x s.fifoAwaiters).next s.state.toPtr lifo :=
    h.lifo.update (by grind)
  obtain ⟨owns, parks, nodup, unlocked, free, lifo', mid, pop⟩ := h
  constructor
  case owns => grind [Pc.Owns]
  case parks => grind
  case nodup => grind
  case unlocked => grind
  case free => grind
  case lifo => exact hl'
  case mid =>
    intro a ha
    cases ha
    rw [setPc_pc, if_pos rfl]
    cases hn : s.next x with
    | none =>
      rw [hn, Chain.none_iff] at hr'
      exact ⟨hr', x, rfl, hf'⟩
    | some y =>
      rw [hn] at hr'
      exact ⟨hr', hf'⟩
  case pop => grind

/-- `unlock` hands the lock to the front of the list. -/
theorem Inv.handOver {s : State C} {rem fifo lifo : List C} {c a : C}
    (h : Inv s (some c) rem fifo lifo) (hc : s.pc c = .unlockSched)
    (hf : s.fifoAwaiters = some a) : ∃ f, rem = [] ∧ fifo = a :: f ∧
      Inv (setPc (setPc s a (.scheduled c)) c .unlockPop) (some a) [] f lifo := by
  have hm := h.mid c rfl
  rw [hc] at hm
  obtain ⟨rfl, b, hb, hch⟩ := hm
  obtain rfl : a = b := Option.some.inj (hf.symm.trans hb)
  obtain ⟨f, rfl, hf'⟩ := Chain.some_iff.1 hch
  refine ⟨f, rfl, rfl, ?_⟩
  have hac : a ≠ c := by
    rintro rfl
    have := (h.parks a).2 (by simp)
    rw [hc] at this
    cases this
  obtain ⟨owns, parks, nodup, unlocked, free, lifo', mid, pop⟩ := h
  constructor
  case owns => grind [Pc.Owns]
  case parks => grind
  case nodup => grind
  case unlocked => grind
  case free => grind
  case lifo => exact lifo'
  case mid => grind [Mid]
  case pop => grind

/-- `unlock` takes the front off the list and returns. -/
theorem Inv.popFront {s : State C} {o : Option C} {rem fifo lifo : List C} {c : C}
    (h : Inv s o rem fifo lifo) (hc : s.pc c = .unlockPop) :
    Inv (setPc { s with fifoAwaiters := s.fifoAwaiters.bind s.next } c .idle) o rem fifo lifo := by
  obtain ⟨a, rfl, ha⟩ := h.pop c hc
  have hm := h.mid a rfl
  rw [ha] at hm
  obtain ⟨hrem, hpop, -⟩ := hm
  obtain ⟨hf, hch⟩ := hpop hc
  obtain ⟨owns, parks, nodup, unlocked, free, lifo', mid, pop⟩ := h
  constructor
  case owns => grind [Pc.Owns]
  case parks => grind
  case nodup => grind
  case unlocked => grind
  case free => grind
  case lifo => exact lifo'
  case mid => grind [Mid]
  case pop => grind

end

/-- The lock as a line: the owner, then the waiters in hand-over order. -/
def line (o : Option C) (rem fifo lifo : List C) : List C :=
  o.toList ++ (rem.reverse ++ fifo ++ lifo.reverse)

/-- The state `s` is the line `l`. -/
def Stands (s : State C) (l : List C) : Prop :=
  ∃ o rem fifo lifo, Inv s o rem fifo lifo ∧ l = line o rem fifo lifo

/-- How the line changes when `c` takes a step. -/
inductive Change (s t : State C) (c : C) : List C → List C → Prop where
  | quiet (l : List C) (hcas : ∀ w, s.pc c = .lockCas w → ∃ w', t.pc c = .lockCas w')
      (hsched : s.pc c ≠ .unlockSched) : Change s t c l l
  | acquire (hcas : ∃ w, s.pc c = .lockCas w ∨ s.pc c = .tryCas w) (hc : t.pc c = .owner) :
      Change s t c [] [c]
  | enqueue (l : List C) (hcas : ∃ w, s.pc c = .lockCas w) (hc : t.pc c = .parked) (hl : l ≠ [])
      (hnot : c ∉ l) : Change s t c l (l ++ [c])
  | release (hcas : s.pc c = .unlockCas) : Change s t c [c] []
  | handOver (a : C) (l : List C) (hsched : s.pc c = .unlockSched)
      (ha : s.fifoAwaiters = some a) : Change s t c (c :: a :: l) (a :: l)

/-- `s` is the line `l`, and so is `t`, up to the change made by the step of `c`. -/
def Changes (s t : State C) (c : C) (l : List C) : Prop := ∃ l', Stands t l' ∧ Change s t c l l'

theorem stands_init : Stands (init : State C) [] := ⟨none, [], [], [], inv_init, rfl⟩

theorem Inv.line_none {s : State C} {rem fifo lifo : List C} (h : Inv s none rem fifo lifo) :
    rem = [] ∧ fifo = [] ∧ lifo = [] := by
  obtain ⟨h1, h2, -⟩ := h.free rfl
  have h3 := h.lifo
  rw [h.unlocked.2 rfl, Word.toPtr, Chain.none_iff] at h3
  exact ⟨h1, h2, h3⟩

theorem Stands.owns {s : State C} {l : List C} (h : Stands s l) (c : C) :
    (s.pc c).Owns ↔ HandOff.owner l = some c := by
  obtain ⟨o, rem, fifo, lifo, hi, rfl⟩ := h
  rw [hi.owns c]
  cases o with
  | none =>
    obtain ⟨rfl, rfl, rfl⟩ := hi.line_none
    simp [line, HandOff.owner]
  | some a => simp [line, HandOff.owner]

/-- A held lock whose word is not "locked" has a list of waiters. -/
theorem Inv.isList {s : State C} {c : C} {rem fifo lifo : List C}
    (h : Inv s (some c) rem fifo lifo) (hl : s.state ≠ .locked) : ∃ x, s.state = .list x := by
  cases hs : s.state with
  | unlocked => exact absurd (h.unlocked.1 hs) (by simp)
  | locked => exact absurd hs hl
  | list x => exact ⟨x, rfl⟩

theorem Inv.notMem_line {s : State C} {o : Option C} {rem fifo lifo : List C} {c : C}
    (h : Inv s o rem fifo lifo) (hc : ¬ (s.pc c).Owns) (hc1 : s.pc c ≠ .parked) :
    c ∉ line o rem fifo lifo := by
  rw [h.owns c] at hc
  rw [Ne, h.parks c] at hc1
  cases o <;> simp_all [line, eq_comm]

theorem Stands.asserts {s : State C} {l : List C} (h : Stands s l) (c : C) : Asserts s c := by
  obtain ⟨o, rem, fifo, lifo, h, -⟩ := h
  have hm := h.mid c
  rw [← h.owns c] at hm
  constructor
  · intro hc hu
    have ho := (h.owns c).1 (by rw [hc]; trivial)
    rw [h.unlocked.1 hu] at ho
    cases ho
  · intro hc
    rw [hc] at hm
    exact (hm trivial).2.2.2
  · intro hc
    rw [hc] at hm
    obtain ⟨-, a, ha, -⟩ := hm trivial
    simp [ha]

section

variable [DecidableEq C]

/-- The line `l` takes some steps and `t` is where it gets to. -/
def Follows (l : List C) (t : State C) : Prop :=
  ∃ as l', run HandOff.step l as = some l' ∧ Stands t l'

/-- A change is no step or one step of the line. -/
theorem Changes.follows {s t : State C} {c : C} {l : List C} (h : Changes s t c l) :
    Follows l t := by
  obtain ⟨l', ht, hch⟩ := h
  cases hch with
  | quiet => exact ⟨[], l, rfl, ht⟩
  | acquire => exact ⟨[.acquire c], [c], rfl, ht⟩
  | enqueue _ _ _ _ hnot =>
    refine ⟨[.acquire c], l ++ [c], ?_, ht⟩
    rw [run_one, HandOff.step_acquire]
    exact ⟨hnot, rfl⟩
  | release =>
    refine ⟨[.release c], [], ?_, ht⟩
    rw [run_one, HandOff.step_release]
  | handOver a l =>
    refine ⟨[.release c], a :: l, ?_, ht⟩
    rw [run_one, HandOff.step_release]

variable {s : State C} {o : Option C} {rem fifo lifo : List C} {c : C}

omit [DecidableEq C] in
/-- The lists change, the line does not. -/
theorem Inv.changes_nil {t : State C} {rem' fifo' lifo' : List C} (h : Inv t o rem' fifo' lifo')
    (hl : rem'.reverse ++ fifo' ++ lifo'.reverse = rem.reverse ++ fifo ++ lifo.reverse)
    (hcas : ∀ w, s.pc c = .lockCas w → ∃ w', t.pc c = .lockCas w')
    (hsched : s.pc c ≠ .unlockSched) : Changes s t c (line o rem fifo lifo) :=
  ⟨_, ⟨o, rem', fifo', lifo', h, by simp only [line, hl]⟩, .quiet _ hcas hsched⟩

/-- A move that has nothing to do with the lock. -/
theorem Inv.changes_move {p : Pc C} (h : Inv s o rem fifo lifo) (h1 : ¬ (s.pc c).Owns)
    (h2 : s.pc c ≠ .parked) (h3 : s.pc c ≠ .unlockPop) (h4 : ¬ p.Owns) (h5 : p ≠ .parked)
    (h6 : p ≠ .unlockPop) (h7 : ∀ w, s.pc c = .lockCas w → ∃ w', p = .lockCas w') :
    Changes s (setPc s c p) c (line o rem fifo lifo) := by
  refine (h.move h1 h2 h3 h4 h5 h6).changes_nil rfl (by simpa using h7) fun hc => h1 ?_
  rw [hc]
  trivial

/-- A move of the owner that changes no list. -/
theorem Inv.changes_owner (h : Inv s o rem fifo lifo) (p : Pc C) (hc : (s.pc c).Owns)
    (hns : ∀ d, s.pc c = .scheduled d → s.pc d ≠ .unlockPop) (hp : p.Owns)
    (hm : Mid s rem fifo c (s.pc c) → Mid (setPc s c p) rem fifo c p)
    (hsched : s.pc c ≠ .unlockSched) :
    Changes s (setPc s c p) c (line o rem fifo lifo) := by
  obtain rfl := (h.owns c).1 hc
  refine (h.ownerMove hp (fun d hd => ?_) (hm (h.mid c rfl))).changes_nil rfl (fun w hw => ?_) hsched
  · obtain ⟨a, ha, had⟩ := h.pop d hd
    cases ha
    exact hns d had hd
  · rw [hw] at hc
    cases hc

/-- Taking the free lock. -/
theorem Inv.changes_acquire (h : Inv s o rem fifo lifo) (hu : s.state = .unlocked)
    (hcas : ∃ w, s.pc c = .lockCas w ∨ s.pc c = .tryCas w) :
    Changes s (setPc { s with state := .locked } c .owner) c (line o rem fifo lifo) := by
  obtain rfl := h.unlocked.1 hu
  have hc : s.pc c ≠ .parked := by
    obtain ⟨w, hw | hw⟩ := hcas <;> simp [hw]
  have hi := h.acquire hc
  obtain ⟨rfl, rfl, rfl⟩ := h.line_none
  exact ⟨[c], ⟨_, _, _, _, hi, rfl⟩, .acquire hcas (by simp)⟩

/-- Joining the line. -/
theorem Inv.changes_enqueue {w : Word C} (h : Inv s o rem fifo lifo) (hc : s.pc c = .lockCas w)
    (hu : s.state ≠ .unlocked) :
    Changes s (setPc { setNext s c s.state.toPtr with state := .list c } c .parked) c
      (line o rem fifo lifo) := by
  have hc0 : ¬ (s.pc c).Owns := by simp [hc, Pc.Owns]
  have hc1 : s.pc c ≠ .parked := by simp [hc]
  have ho : o ≠ some c := fun he => hc0 ((h.owns c).2 he)
  have hi := (h.writeNext hc1 ho s.state.toPtr).enqueue hc0 hc1 (by simp [hc]) hu (by simp)
  refine ⟨line o rem fifo lifo ++ [c], ⟨_, _, _, _, hi, by simp [line]⟩,
    .enqueue _ ⟨w, hc⟩ (by simp) ?_ (h.notMem_line hc0 hc1)⟩
  have : o ≠ none := fun he => hu (h.unlocked.2 he)
  obtain ⟨a, rfl⟩ := Option.ne_none_iff_exists'.1 this
  simp [line]

/-- Every step of `lock` and `try_lock`. -/
theorem Inv.changes_lock {t : State C} {b : Bool} (h : Inv s o rem fifo lifo)
    (hs : step s (.step c b) = some t) (hok : FreshTry s (.step c b) t) (hc : ¬ (s.pc c).Owns) :
    Changes s t c (line o rem fifo lifo) := by
  have ho : o ≠ some c := fun he => hc ((h.owns c).2 he)
  simp only [step] at hs
  cases hpc : s.pc c <;> simp only [hpc, Pc.Owns, not_true_eq_false, reduceCtorEq] at hs hc
  case lockLoad =>
    cases hs
    apply h.changes_move <;> simp [hpc, Pc.Owns]
  case lockCas w =>
    by_cases hw : w = .unlocked
    · rw [if_pos hw] at hs
      split at hs
      · next hu =>
        cases hs
        exact h.changes_acquire (hu.2.trans hw) ⟨w, Or.inl hpc⟩
      · cases hs
        apply h.changes_move <;> simp [hpc, Pc.Owns]
    · rw [if_neg hw] at hs
      split at hs
      · next hu =>
        cases hs
        obtain rfl : s.state = w := hu.2
        exact h.changes_enqueue hpc hw
      · cases hs
        have hi := (h.writeNext (by simp [hpc]) ho w.toPtr).move (c := c)
          (p := .lockCas (setNext s c w.toPtr).state)
        refine (hi ?_ ?_ ?_ ?_ ?_ ?_).changes_nil rfl ?_ ?_ <;> simp [hpc, Pc.Owns]
  case tryLoad =>
    cases hs
    apply h.changes_move <;> simp [hpc, Pc.Owns]
  case tryCas w =>
    split at hs
    · next hw =>
      cases hs
      have hu := (hok c b w rfl hpc).resolve_right fun hne => hne hw
      exact h.changes_acquire (hw.trans hu) ⟨w, Or.inr hpc⟩
    · cases hs
      apply h.changes_move <;> simp [hpc, Pc.Owns]
  case unlockPop =>
    cases hs
    exact (h.popFront hpc).changes_nil rfl (by simp [hpc]) (by simp [hpc])

/-- Every step of the owner. -/
theorem Inv.changes_unlock {t : State C} {b : Bool} (h : Inv s (some c) rem fifo lifo)
    (hs : step s (.step c b) = some t) : Changes s t c (line (some c) rem fifo lifo) := by
  have hc : (s.pc c).Owns := (h.owns c).2 rfl
  have hm := h.mid c rfl
  have move : ∀ p : Pc C, (∀ d, s.pc c ≠ .scheduled d) → s.pc c ≠ .unlockSched → p.Owns →
      Mid (setPc s c p) rem fifo c p →
      Changes s (setPc s c p) c (line (some c) rem fifo lifo) := fun p hns hsc hp hm' =>
    h.changes_owner p hc (fun d hd => absurd hd (hns d)) hp (fun _ => hm') hsc
  simp only [step] at hs
  cases hpc : s.pc c <;> simp only [hpc, Mid, Pc.Owns, reduceCtorEq] at hs hm hc
  case scheduled d =>
    split at hs
    · cases hs
    · next hd =>
      cases hs
      refine h.changes_owner .owner (by simp [hpc, Pc.Owns]) ?_ (by simp [Pc.Owns])
        (fun _ => ⟨hm.1, hm.2.2 hd⟩) (by simp [hpc])
      intro e he
      rw [hpc] at he
      cases he
      exact hd
  case unlockAssert =>
    cases hs
    exact move .unlockFifo (by simp [hpc]) (by simp [hpc]) (by simp [Pc.Owns]) hm
  case unlockFifo =>
    cases hs
    obtain ⟨hrem, hf⟩ := hm
    cases hn : s.fifoAwaiters with
    | none =>
      rw [hn, Chain.none_iff] at hf
      exact move .unlockLoad (by simp [hpc]) (by simp [hpc]) (by simp [Pc.Owns]) ⟨hrem, hf, hn⟩
    | some a =>
      rw [hn] at hf
      exact move .unlockSched (by simp [hpc]) (by simp [hpc]) (by simp [Pc.Owns]) ⟨hrem, a, hn, hf⟩
  case unlockLoad =>
    cases hs
    obtain ⟨hrem, hf, hn⟩ := hm
    by_cases hl : s.state = .locked
    · rw [if_pos hl]
      exact move .unlockCas (by simp [hpc]) (by simp [hpc]) (by simp [Pc.Owns]) ⟨hrem, hf, hn⟩
    · rw [if_neg hl]
      exact move .unlockXchg (by simp [hpc]) (by simp [hpc]) (by simp [Pc.Owns]) ⟨hrem, hf, hn, h.isList hl⟩
  case unlockCas =>
    obtain ⟨hrem, hf, hn⟩ := hm
    split at hs
    · next hl =>
      cases hs
      have hi := h.release hpc hl
      obtain ⟨-, -, hlifo⟩ := hi.line_none
      subst hrem hf hlifo
      exact ⟨[], ⟨_, _, _, _, hi, rfl⟩, .release hpc⟩
    · next hl =>
      cases hs
      exact move .unlockXchg (by simp [hpc]) (by simp [hpc]) (by simp [Pc.Owns]) ⟨hrem, hf, hn, h.isList hl⟩
  case unlockXchg =>
    obtain ⟨rfl, rfl, hn, x, hx⟩ := hm
    rw [hx] at hs
    cases hs
    exact (h.takeList hpc hx).changes_nil (by simp) (by simp [hpc]) (by simp [hpc])
  case unlockRev x =>
    cases hs
    obtain ⟨r, rfl, hr⟩ := Chain.some_iff.1 hm.1
    exact (h.reverse hpc).changes_nil (by simp) (by simp [hpc]) (by simp [hpc])
  case unlockSched =>
    obtain ⟨hrem, a, ha, -⟩ := hm
    rw [ha] at hs
    cases hs
    obtain ⟨f, rfl, rfl, hi⟩ := h.handOver hpc ha
    exact ⟨_, ⟨_, _, _, _, hi, rfl⟩, .handOver a _ hpc ha⟩

/-- The coroutine that takes the step. -/
def Act.actor : Act C → C
  | .lock c => c
  | .tryLock c => c
  | .unlock c => c
  | .step c _ => c

/-- **Step lemma.**  What a step with a fresh `try_lock` does to the line. -/
theorem changes_step (s : State C) (a : Act C) (t : State C) (l : List C) (h : Stands s l)
    (hs : step s a = some t) (hok : FreshTry s a t) : Changes s t a.actor l := by
  obtain ⟨o, rem, fifo, lifo, h, rfl⟩ := h
  cases a with
  | lock c =>
    simp only [step] at hs
    split at hs
    · next hc =>
      cases hs
      apply h.changes_move <;> simp [hc, Pc.Owns]
    · cases hs
  | tryLock c =>
    simp only [step] at hs
    split at hs
    · next hc =>
      cases hs
      apply h.changes_move <;> simp [hc, Pc.Owns]
    · cases hs
  | unlock c =>
    simp only [step] at hs
    split at hs
    · next hc =>
      cases hs
      refine h.changes_owner _ (by simp [hc, Pc.Owns]) (by simp [hc])
        (by simp [Pc.Owns]) (fun hm => ?_) (by simp [hc])
      rw [hc] at hm
      exact hm
    · cases hs
  | step c b =>
    by_cases hc : (s.pc c).Owns
    · obtain rfl := (h.owns c).1 hc
      exact h.changes_unlock hs
    · exact h.changes_lock hs hok hc

/-- A step with a fresh `try_lock` is no step or one step of the line. -/
theorem stands_step (s : State C) (a : Act C) (t : State C) (l : List C) (h : Stands s l)
    (hs : step s a = some t) (hok : FreshTry s a t) : Follows l t :=
  (changes_step s a t l h hs hok).follows

/-- A step moves its own coroutine, within `lock` or within `unlock`, and no
other but the one it hands the lock to. -/
theorem Stands.step_pc {l : List C} {t : State C} {b : Bool} (h : Stands s l)
    (hs : step s (.step c b) = some t) :
    ((s.pc c).Locking → (t.pc c).Locking) ∧ ((s.pc c).Unlocking → (t.pc c).Unlocking) ∧
      ∀ x, x ≠ c → t.pc x = s.pc x ∨ s.pc x = .parked ∧ ∃ d, t.pc x = .scheduled d := by
  obtain ⟨o, rem, fifo, lifo, h, rfl⟩ := h
  have hfront : ∀ a, s.pc c = .unlockSched → s.fifoAwaiters = some a → s.pc a = .parked := by
    intro a hc ha
    obtain rfl := (h.owns c).1 (by rw [hc]; trivial)
    obtain ⟨f, rfl, rfl, -⟩ := h.handOver hc ha
    exact (h.parks a).2 (by simp)
  simp only [step] at hs
  cases hpc : s.pc c <;> simp only [hpc, reduceCtorEq] at hs
  all_goals grind [Pc.Locking, Pc.Unlocking]

/-- A fresh `try_lock` leaves the lists alone. -/
theorem Inv.try_keeps {t : State C} {b : Bool} {w : Word C} (h : Inv s o rem fifo lifo)
    (hs : step s (.step c b) = some t) (hok : FreshTry s (.step c b) t) (hc : s.pc c = .tryCas w)
    {x : C} (hx : s.pc x = .parked) (hq : Queued s x) : Queued t x := by
  simp only [step, hc] at hs
  split at hs
  · next hw =>
    -- a free lock has no waiters
    have hu := hw.trans ((hok c b w rfl hc).resolve_right fun hne => hne hw)
    obtain rfl := h.unlocked.1 hu
    obtain ⟨rfl, rfl, rfl⟩ := h.line_none
    have := (h.parks x).1 hx
    simp at this
  · cases hs
    obtain ⟨p, l, hl, hxl, hp⟩ := hq
    refine ⟨p, l, hl, hxl, hp.imp_right (Or.imp_right ?_)⟩
    rintro ⟨d, y, hd, rfl⟩
    refine ⟨d, y, ?_, rfl⟩
    have hdc : d ≠ c := by
      rintro rfl
      rw [hc] at hd
      cases hd
    rw [setPc_pc, if_neg hdc, hd]

/-- Under the invariant a step is as promised just when its `try_lock` is fresh. -/
theorem exclusive_step_iff {a : Act C} {t : State C} {l : List C} (h : Stands s l)
    (hs : step s a = some t) : Exclusive s a t ↔ FreshTry s a t := by
  constructor
  · intro hx c b w ha hc
    by_cases hw : s.state = w
    · left
      subst ha
      simp only [step, hc, if_pos hw] at hs
      cases hs
      rw [← hw]
      exact hx.try_unlocked c b w rfl hc (by simp)
    · exact Or.inr hw
  · intro hok
    constructor
    · intro c d hc hd
      obtain ⟨_, l', -, hl'⟩ := stands_step s a t l h hs hok
      have := ((hl'.owns c).1 hc).symm.trans ((hl'.owns d).1 hd)
      exact Option.some.inj this
    · rintro c b w rfl hc ht
      simp only [step, hc] at hs
      split at hs
      · next hw => exact hw.trans ((hok c b w rfl hc).resolve_right fun hne => hne hw)
      · cases hs
        simp at ht
    · rintro c b w rfl hc x hx hq
      obtain ⟨o, rem, fifo, lifo, h, rfl⟩ := h
      exact h.try_keeps hs hok hc hx hq

/-! ## Top theorems -/

/-- **Mutual exclusion.**  The runs that keep to it are exactly those in which
every `try_lock` is fresh. -/
theorem exclusive_iff (as : List (Act C)) :
    EachStep step Exclusive init as ↔ EachStep step FreshTry init as :=
  eachStep_iff (fun s => ∃ l, Stands s l)
    (fun s a t ⟨l, h⟩ hs hok =>
      have ⟨_, l', _, h'⟩ := stands_step s a t l h hs hok
      ⟨l', h'⟩)
    (fun _ _ _ ⟨_, h⟩ hs => exclusive_step_iff h hs) ⟨[], stands_init⟩

/-- **Refinement.**  With fresh `try_lock`s every run is a run of the abstract
lock, whose line is the owner followed by the suspended coroutines. -/
theorem run_handOff {t : State C} {as : List (Act C)} (hr : run step init as = some t)
    (hok : EachStep step FreshTry init as) :
    ∃ bs l, run HandOff.step [] bs = some l ∧ Stands t l :=
  run_simulates (fun s a t l => stands_step s a t l) stands_init hr hok

/-- So nobody waits twice, and the lock goes round in the order it is asked for. -/
theorem run_in_order {t : State C} {as : List (Act C)} (hr : run step init as = some t)
    (hok : EachStep step FreshTry init as) :
    ∃ bs l, Stands t l ∧ l.Nodup ∧ HandOff.released bs ++ l = HandOff.acquired bs := by
  obtain ⟨bs, l, hbs, hl⟩ := run_handOff hr hok
  exact ⟨bs, l, hl, HandOff.nodup_run List.nodup_nil hbs, HandOff.fifo hbs⟩

theorem asserts {t : State C} (h : Reachable step FreshTry init t) (c : C) : Asserts t c := by
  obtain ⟨as, hr, hok⟩ := h
  obtain ⟨-, l, -, hl⟩ := run_handOff hr hok
  exact hl.asserts c

end

/-- `false` takes the lock by `try_lock`; `true` loads "locked" and exchanges it
for "locked". -/
def tryRun : List (Act Bool) :=
  [.tryLock false, .step false false, .step false false,
   .tryLock true, .step true false, .step true false]

theorem two_owners : ¬ EachStep step Exclusive (init : State Bool) tryRun ∧
    ∃ s, run step init tryRun = some s ∧ s.pc false = .owner ∧ s.pc true = .owner := by
  refine ⟨?_, _, rfl, rfl, rfl⟩
  intro h
  obtain ⟨-, h⟩ := h _ rfl
  obtain ⟨-, h⟩ := h _ rfl
  obtain ⟨-, h⟩ := h _ rfl
  obtain ⟨-, h⟩ := h _ rfl
  obtain ⟨-, h⟩ := h _ rfl
  obtain ⟨h, -⟩ := h _ rfl
  exact absurd (h.one_owner false true trivial trivial) (by decide)

end Kosio.Mutex
