import Mathlib.Algebra.Group.Nat.Defs
import Mathlib.Data.Finset.Card
import Kosio.Sync.Mutex

/-!
# `SharedMutex`: readers and writers over one `Mutex`

Every operation runs with `mutex_` held, except while it waits: `cond_.wait`
and `writer_cond_.wait` link the caller, unlock, and lock again once notified.
A coroutine `c : C` has its place here and, while it is inside `mutex_`, its
place there; one step is one step inside `mutex_` or one access to `state_`,
`cond_` or `writer_cond_`.  The lists of the condition variables are only
touched with `mutex_` held, so a loop of load and CAS on one is one step.

`lock_shared` calls `mutex_.unlock()` and then leaves the scope of a guard that
calls it again (`unlocked_twice`).  As long as no call gets to the guard, every
unlock of `mutex_` is its owner's, writers are alone, `state_` counts, and who
is suspended has a reason to be (`sound_iff`).
-/

namespace Kosio.SharedMutex

open Steps

/-! ## Algorithm -/

def writerFlag : BitVec 64 := 1 <<< 63

def readerMask : BitVec 64 := ~~~writerFlag

def hasWriter (state : BitVec 64) : Bool := state &&& writerFlag != 0

def countReader (state : BitVec 64) : BitVec 64 := state &&& readerMask

/-- The three waits: `lock` for no writer and for no reader, `lock_shared`. -/
inductive Wait where
  | writer
  | drain
  | reader
deriving DecidableEq

def Wait.predicate (state : BitVec 64) : Wait → Bool
  | .writer => !hasWriter state
  | .drain => countReader state == 0
  | .reader => state < readerMask

/-- What follows an unlock of `mutex_`. -/
inductive After where
  | parked (g : Wait)
  | writeHeld
  | returned
  | guard
deriving DecidableEq

/-- What is done with `mutex_` held. -/
inductive Body (C : Type) where
  | test (g : Wait)
  /-- `await_suspend` links the awaiter -/
  | push (g : Wait)
  /-- `state_ |= WRITER_FLAG` -/
  | setFlag
  /-- `state_ = 0` -/
  | clear
  | notifyAll
  /-- in the loop of `ConditionVariable::resume` -/
  | resume (awaiters : List C)
  /-- `state_ += 1` -/
  | add
  /-- `state_ -= 1` -/
  | sub
  /-- `writer_cond_.notify_one()` -/
  | notifyWriter
  /-- `cond_.notify_one()` -/
  | notifyReader
  | unlock (k : After)
deriving DecidableEq

inductive Pc (C : Type) where
  | idle
  /-- awaits `mutex_.lock()` -/
  | locking (k : Body C)
  | body (k : Body C)
  /-- on the list of a condition variable -/
  | parked (g : Wait)
  /-- scheduled by a notification -/
  | woken (g : Wait)
  | writeHeld
  /-- in `lock_shared`, at the end of the scope of the guard -/
  | guard
  | readHeld
deriving DecidableEq

def After.pc {C : Type} : After → Pc C
  | .parked g => .parked g
  | .writeHeld => .writeHeld
  | .returned => .idle
  | .guard => .guard

structure State (C : Type) where
  mutex : Mutex.State C
  cond : List C
  writerCond : List C
  state : BitVec 64
  pc : C → Pc C

variable {C : Type}

def init : State C := ⟨Mutex.init, [], [], 0, fun _ => .idle⟩

inductive Act (C : Type) where
  | lock (c : C)
  | unlock (c : C)
  | lockShared (c : C)
  | unlockShared (c : C)
  /-- one step of `c`; a weak CAS fails when `spurious` says so -/
  | step (c : C) (spurious : Bool)

/-- `c` is not inside an operation of `mutex_`. -/
def outside (s : State C) (c : C) : Bool :=
  match s.mutex.pc c with
  | .idle => true
  | .owner => true
  | _ => false

/-- What `unlock_shared` does after `state_ -= 1`. -/
def afterSub (prev : BitVec 64) : Body C :=
  let state := prev - 1
  if hasWriter state ∧ countReader state = 0 then .notifyWriter
  else if prev = readerMask then .notifyReader
  else .unlock .returned

/-- `await_suspend` links the awaiter. -/
def link (s : State C) (c : C) : Wait → State C
  | .drain => { s with writerCond := c :: s.writerCond }
  | _ => { s with cond := c :: s.cond }

section

variable [DecidableEq C]

def setPc (s : State C) (c : C) (p : Pc C) : State C :=
  { s with pc := Function.update s.pc c p }

/-- `co_await mutex_.lock()`, then `k`. -/
def lockMutex (s : State C) (c : C) (k : Body C) : State C :=
  setPc { s with mutex := Mutex.setPc s.mutex c .lockLoad } c (.locking k)

/-- `mutex_.unlock()`, whoever owns it, then `p`. -/
def unlockMutex (s : State C) (c : C) (p : Pc C) : State C :=
  setPc { s with mutex := Mutex.setPc s.mutex c .unlockAssert } c p

/-- `schedule_local` of a suspended coroutine. -/
def wake (s : State C) (a : C) : State C :=
  match s.pc a with
  | .parked g => setPc s a (.woken g)
  | _ => s

/-- One step with `mutex_` held. -/
def bodyStep (s : State C) (c : C) : Body C → State C
  | .test g =>
    setPc s c (.body (if g.predicate s.state then
      (match g with
        | .writer => .setFlag
        | .drain => .unlock .writeHeld
        | .reader => .add) else .push g))
  | .push g => setPc (link s c g) c (.body (.unlock (.parked g)))
  | .setFlag => setPc { s with state := s.state ||| writerFlag } c (.body (.test .drain))
  | .clear => setPc { s with state := 0 } c (.body .notifyAll)
  | .notifyAll => setPc { s with cond := [] } c (.body (.resume s.cond))
  | .resume [] => setPc s c (.body (.unlock .returned))
  | .resume (a :: l) => setPc (wake s a) c (.body (.resume l))
  | .add => setPc { s with state := s.state + 1 } c (.body (.unlock .guard))
  | .sub => setPc { s with state := s.state - 1 } c (.body (afterSub s.state))
  | .notifyWriter =>
    match s.writerCond with
    | [] => setPc s c (.body (.unlock .returned))
    | a :: l => setPc (wake { s with writerCond := l } a) c (.body (.unlock .returned))
  | .notifyReader =>
    match s.cond with
    | [] => setPc s c (.body (.unlock .returned))
    | a :: l => setPc (wake { s with cond := l } a) c (.body (.unlock .returned))
  | .unlock k => unlockMutex s c k.pc

def step (s : State C) : Act C → Option (State C)
  | .lock c =>
    if s.pc c = .idle ∧ outside s c then some (lockMutex s c (.test .writer)) else none
  | .unlock c =>
    if s.pc c = .writeHeld ∧ outside s c then some (lockMutex s c .clear) else none
  | .lockShared c =>
    if s.pc c = .idle ∧ outside s c then some (lockMutex s c (.test .reader)) else none
  | .unlockShared c =>
    if s.pc c = .readHeld ∧ outside s c then some (lockMutex s c .sub) else none
  | .step c spurious =>
    if outside s c then
      match s.pc c with
      | .locking k => if s.mutex.pc c = .owner then some (setPc s c (.body k)) else none
      | .body k => some (bodyStep s c k)
      | .woken g => some (lockMutex s c (.test g))
      | .guard => some (unlockMutex s c .readHeld)
      | _ => none
    else (Mutex.step s.mutex (.step c spurious)).map fun m => { s with mutex := m }

end

/-! ## What is promised -/

/-- Has set the writer flag, which stands: holds the lock as a writer, or waits
for the readers to leave. -/
def Pc.Flags : Pc C → Prop
  | .writeHeld => True
  | .parked .drain => True
  | .woken .drain => True
  | .locking (.test .drain) => True
  | .locking .clear => True
  | .body (.test .drain) => True
  | .body (.push .drain) => True
  | .body (.unlock (.parked .drain)) => True
  | .body (.unlock .writeHeld) => True
  | .body .clear => True
  | _ => False

/-- Holds the lock as a writer. -/
def Pc.Writes : Pc C → Prop
  | .writeHeld => True
  | .locking .clear => True
  | .body (.unlock .writeHeld) => True
  | .body .clear => True
  | _ => False

/-- Holds the lock as a reader. -/
def Pc.Reads : Pc C → Prop
  | .readHeld => True
  | .guard => True
  | .locking .sub => True
  | .body (.unlock .guard) => True
  | .body .sub => True
  | _ => False

/-- About to call `mutex_.unlock()`. -/
def Unlocks (s : State C) (c : C) : Prop :=
  s.pc c = .guard ∨ ∃ k, s.pc c = .body (.unlock k)

/-- A notification that will wake `c` is under way. -/
def Notified (s : State C) (c : C) : Prop :=
  ∃ d, (s.pc d = .body .notifyAll ∧ c ∈ s.cond) ∨
    (∃ l, s.pc d = .body (.resume l) ∧ c ∈ l) ∨
    (s.pc d = .body .notifyWriter ∧ s.writerCond.head? = some c) ∨
    (s.pc d = .body .notifyReader ∧ s.cond.head? = some c)

structure Sound (s : State C) (a : Act C) (t : State C) : Prop where
  /-- every unlock of `mutex_` is its owner's -/
  owner : ∀ c b, a = .step c b → outside s c → Unlocks s c → s.mutex.pc c = .owner
  /-- the asserts of `Mutex::unlock` and of `SharedMutex::unlock` hold -/
  asserts : ∀ c, Mutex.Asserts t.mutex c ∧ (t.pc c = .body .clear → t.state = writerFlag)
  alone : ∀ c d, (t.pc c).Writes → d ≠ c → ¬ (t.pc d).Writes ∧ ¬ (t.pc d).Reads
  state : ∃ readers : Finset C, (∀ c, c ∈ readers ↔ (t.pc c).Reads) ∧
    ((∃ c, (t.pc c).Flags) → t.state.toNat = 2 ^ 63 + readers.card) ∧
    ((∀ c, ¬ (t.pc c).Flags) → t.state.toNat = readers.card)
  waits : ∀ c g, t.pc c = .parked g → g.predicate t.state → Notified t c

/-- No call of `lock_shared` gets to the unlock of its guard. -/
def NoGuard (s : State C) (a : Act C) (_ : State C) : Prop :=
  ∀ c b, a = .step c b → outside s c → s.pc c ≠ .guard

/-! ## The word -/

theorem writerFlag_toNat : writerFlag.toNat = 2 ^ 63 := by decide

theorem readerMask_toNat : readerMask.toNat = 2 ^ 63 - 1 := by decide

section
variable {state : BitVec 64} {w : Bool} {n : Nat}
  (h : state.toNat = (if w then 2 ^ 63 else 0) + n) (hn : n < 2 ^ 63)
include h hn

theorem countReader_toNat : (countReader state).toNat = n := by
  rw [countReader, BitVec.toNat_and, readerMask_toNat, Nat.and_two_pow_sub_one_eq_mod, h]
  cases w <;> simp <;> omega

theorem hasWriter_eq : hasWriter state = w := by
  have hf : writerFlag = BitVec.twoPow 64 63 := by decide
  have hb : state.getLsbD 63 = w := by
    rw [BitVec.getLsbD, h, Nat.testBit_eq_decide_div_mod_eq]
    cases w
    · rw [if_neg Bool.false_ne_true]
      exact decide_eq_false (by omega)
    · rw [if_pos rfl]
      exact decide_eq_true (by omega)
  rw [hasWriter, hf, BitVec.and_twoPow, hb]
  cases w <;> decide

theorem lt_readerMask : state < readerMask ↔ w = false ∧ n + 1 < 2 ^ 63 := by
  rw [BitVec.lt_def, readerMask_toNat, h]
  cases w <;> simp <;> omega

theorem predicate_writer : Wait.writer.predicate state = !w := by
  simp [Wait.predicate, hasWriter_eq h hn]

theorem predicate_drain : Wait.drain.predicate state = true ↔ n = 0 := by
  have := countReader_toNat h hn
  simp only [Wait.predicate, beq_iff_eq, ← BitVec.toNat_inj, this]
  rfl

theorem predicate_reader : Wait.reader.predicate state = true ↔ w = false ∧ n + 1 < 2 ^ 63 := by
  simp only [Wait.predicate, decide_eq_true_eq, lt_readerMask h hn]

theorem setFlag_toNat (hw : w = false) : (state ||| writerFlag).toNat = 2 ^ 63 + n := by
  subst hw
  rw [BitVec.toNat_or, writerFlag_toNat, h]
  simp [Nat.or_two_pow_eq_add_of_lt hn, Nat.add_comm]

end
theorem afterSub_cases (C : Type) (prev : BitVec 64) : (afterSub prev : Body C) = .notifyWriter ∨
    prev = readerMask ∧ (afterSub prev : Body C) = .notifyReader ∨
    (afterSub prev : Body C) = .unlock .returned := by
  unfold afterSub
  dsimp only
  split
  · exact Or.inl rfl
  · split
    · next h => exact Or.inr (Or.inl ⟨h, rfl⟩)
    · exact Or.inr (Or.inr rfl)

/-! ## Invariant -/

/-- Where a coroutine is inside `mutex_`, by its place here. -/
def Agree (p : Mutex.Pc C) : Pc C → Prop
  | .locking _ => p.Locking
  | .body _ => p = .owner
  | _ => p.Unlocking

/-- `state_` against the places: `w` says that the flag is set, `r` are the readers. -/
structure Count (s : State C) (w : Bool) (r : Finset C) : Prop where
  word : s.state.toNat = (if w then 2 ^ 63 else 0) + r.card
  bound : r.card < 2 ^ 63
  flags : ∀ c, (s.pc c).Flags → w = true
  oneFlag : ∀ c d, (s.pc c).Flags → (s.pc d).Flags → c = d
  flag : w = true → ∃ c, (s.pc c).Flags
  reads : ∀ c, c ∈ r ↔ (s.pc c).Reads
  writes : ∀ c, (s.pc c).Writes → r = ∅
  setFlag : ∀ c, s.pc c = .body .setFlag → w = false
  add : ∀ c, s.pc c = .body .add → w = false ∧ r.card + 1 < 2 ^ 63

/-- The awaiter is, or is about to be, left on a list. -/
def Linked (g : Wait) (p : Pc C) : Prop := p = .parked g ∨ p = .body (.unlock (.parked g))

/-- The lists of the condition variables against the places. -/
structure Lists (s : State C) : Prop where
  cond : ∀ c, Linked .writer (s.pc c) ∨ Linked .reader (s.pc c) ↔
    c ∈ s.cond ∨ ∃ d l, s.pc d = .body (.resume l) ∧ c ∈ l
  condNodup : s.cond.Nodup
  resume : ∀ d l, s.pc d = .body (.resume l) → s.cond = [] ∧ l.Nodup
  writerCond : ∀ c, Linked .drain (s.pc c) ↔ c ∈ s.writerCond
  writerNodup : s.writerCond.Nodup

/-- Is notifying those who wait for `g`. -/
def Notifies : Wait → Pc C → Prop
  | .drain, .body .notifyWriter => True
  | .writer, .body .notifyAll => True
  | .writer, .body (.resume _) => True
  | .reader, .body .notifyAll => True
  | .reader, .body (.resume _) => True
  | _, _ => False

/-- Who waits has a reason to, or is being notified. -/
structure Waits (s : State C) : Prop where
  push : ∀ c g, s.pc c = .body (.push g) → g.predicate s.state = false
  linked : ∀ c g, Linked g (s.pc c) → g.predicate s.state = false ∨ ∃ d, Notifies g (s.pc d)

structure Inv (s : State C) (w : Bool) (r : Finset C) : Prop where
  stands : ∃ l, Mutex.Stands s.mutex l
  agree : ∀ c, Agree (s.mutex.pc c) (s.pc c)
  entry : ∀ c k, s.pc c = .locking k → (∃ g, k = .test g) ∨ k = .clear ∨ k = .sub
  noNotifyReader : ∀ c, s.pc c ≠ .body .notifyReader
  count : Count s w r
  lists : Lists s
  waits : Waits s

theorem inv_init : Inv (init : State C) false ∅ := by
  refine ⟨⟨[], Mutex.stands_init⟩, fun _ => trivial, by simp [init], by simp [init], ?_, ?_, ?_⟩ <;>
    constructor <;> simp [init, Pc.Flags, Pc.Reads, Pc.Writes, Linked]

/-! ## Lemmas -/

theorem Linked.flags {p : Pc C} (h : Linked .drain p) : p.Flags := by
  rcases h with rfl | rfl <;> trivial

theorem Pc.Writes.flags {p : Pc C} (h : p.Writes) : p.Flags := by
  unfold Pc.Writes at h
  split at h <;> trivial

theorem Count.predicate {s : State C} {w : Bool} {r : Finset C} (h : Count s w r) :
    (Wait.writer.predicate s.state = !w) ∧ (Wait.drain.predicate s.state = true ↔ r = ∅) ∧
    (Wait.reader.predicate s.state = true ↔ w = false ∧ r.card + 1 < 2 ^ 63) := by
  refine ⟨predicate_writer h.word h.bound, ?_, predicate_reader h.word h.bound⟩
  rw [predicate_drain h.word h.bound, Finset.card_eq_zero]

/-- Only `c` has `mutex_` and is not notifying: who waits has a reason to. -/
theorem Waits.blocked {s : State C} (h : Waits s) {c : C} (ha : ∀ d k, s.pc d = .body k → d = c)
    (hc : ∀ g, ¬ Notifies g (s.pc c)) {x : C} {g : Wait} (hx : Linked g (s.pc x)) :
    g.predicate s.state = false := by
  refine (h.linked x g hx).resolve_right ?_
  rintro ⟨d, hd⟩
  have hdc : d = c := by
    unfold Notifies at hd
    split at hd
    all_goals first | exact ha d _ ‹_› | exact hd.elim
  exact hc g (hdc ▸ hd)

@[simp] theorem link_pc (s : State C) (c : C) (g : Wait) : (link s c g).pc = s.pc := by
  cases g <;> rfl

@[simp] theorem link_state (s : State C) (c : C) (g : Wait) : (link s c g).state = s.state := by
  cases g <;> rfl

@[simp] theorem link_mutex (s : State C) (c : C) (g : Wait) : (link s c g).mutex = s.mutex := by
  cases g <;> rfl

section

variable [DecidableEq C]

@[simp, grind =] theorem setPc_pc (s : State C) (c x : C) (p : Pc C) :
    (setPc s c p).pc x = if x = c then p else s.pc x := by
  simp [setPc, Function.update_apply]

@[simp, grind =] theorem setPc_state (s : State C) (c : C) (p : Pc C) :
    (setPc s c p).state = s.state := rfl

@[simp, grind =] theorem setPc_cond (s : State C) (c : C) (p : Pc C) :
    (setPc s c p).cond = s.cond := rfl

@[simp, grind =] theorem setPc_writerCond (s : State C) (c : C) (p : Pc C) :
    (setPc s c p).writerCond = s.writerCond := rfl

@[simp, grind =] theorem setPc_mutex (s : State C) (c : C) (p : Pc C) :
    (setPc s c p).mutex = s.mutex := rfl

variable {s : State C} {w : Bool} {r : Finset C} {c : C} {p q : Pc C}

/-! ### Moves: a step that changes one place and nothing else -/

theorem Count.move (h : Count s w r) (hc : s.pc c = q) (hF : p.Flags ↔ q.Flags)
    (hR : p.Reads ↔ q.Reads) (hW : p.Writes → r = ∅)
    (hset : p = .body .setFlag → w = false)
    (hadd : p = .body .add → w = false ∧ r.card + 1 < 2 ^ 63) : Count (setPc s c p) w r := by
  subst hc
  have hF' : ∀ x, ((setPc s c p).pc x).Flags ↔ (s.pc x).Flags := by
    intro x
    by_cases hx : x = c <;> simp [hx, hF]
  have hR' : ∀ x, ((setPc s c p).pc x).Reads ↔ (s.pc x).Reads := by
    intro x
    by_cases hx : x = c <;> simp [hx, hR]
  obtain ⟨word, bound, flags, oneFlag, flag, reads, writes, setFlag, add⟩ := h
  refine ⟨word, bound, fun x hx => flags x ((hF' x).1 hx),
    fun x y hx hy => oneFlag x y ((hF' x).1 hx) ((hF' y).1 hy),
    fun hw => (flag hw).imp fun x hx => (hF' x).2 hx, fun x => (reads x).trans (hR' x).symm,
    ?_, ?_, ?_⟩
  · grind
  · grind
  · grind

theorem Lists.move (h : Lists s) (hc : s.pc c = q) (hL : ∀ g, Linked g p ↔ Linked g q)
    (hres : ∀ l, p ≠ .body (.resume l)) (hold : ∀ l, q = .body (.resume l) → l = []) :
    Lists (setPc s c p) := by
  subst hc
  have hL' : ∀ g x, Linked g ((setPc s c p).pc x) ↔ Linked g (s.pc x) := by
    intro g x
    by_cases hx : x = c <;> simp [hx, hL]
  have hres' : ∀ x, (∃ d l, (setPc s c p).pc d = .body (.resume l) ∧ x ∈ l) ↔
      ∃ d l, s.pc d = .body (.resume l) ∧ x ∈ l := by
    intro x
    constructor
    · rintro ⟨d, l, hd, hx⟩
      exact ⟨d, l, by grind, hx⟩
    · rintro ⟨d, l, hd, hx⟩
      have hdc : d ≠ c := by
        rintro rfl
        rw [hold l hd] at hx
        cases hx
      exact ⟨d, l, by rwa [setPc_pc, if_neg hdc], hx⟩
  obtain ⟨cond, condNodup, resume, writerCond, writerNodup⟩ := h
  refine ⟨?_, condNodup, ?_, fun x => (hL' .drain x).trans (writerCond x), writerNodup⟩
  · intro x
    rw [hL', hL', hres']
    exact cond x
  · grind

theorem Waits.move (h : Waits s) (hc : s.pc c = q) (hL : ∀ g, Linked g p → Linked g q)
    (hpush : ∀ g, p = .body (.push g) → g.predicate s.state = false)
    (hN : ∀ g, Notifies g q → Notifies g p ∨ ∀ x, x ≠ c → ¬ Linked g (s.pc x)) :
    Waits (setPc s c p) := by
  subst hc
  refine ⟨?_, ?_⟩
  · have := h.push
    grind
  · intro x g hx
    have hx' : Linked g (s.pc x) := by
      by_cases he : x = c
      · subst he
        exact hL g (by simpa using hx)
      · simpa [he] using hx
    refine (h.linked x g hx').imp_right ?_
    rintro ⟨d, hd⟩
    by_cases hdc : d = c
    · subst hdc
      rcases hN g hd with hp | hno
      · exact ⟨d, by simpa using hp⟩
      · have hxd : x = d := by
          by_contra hne
          exact hno x hne hx'
        -- nobody is linked and notifies at once
        subst hxd
        rcases hx' with he | he <;> rw [he] at hd <;> cases g <;> exact hd.elim
    · exact ⟨d, by simpa [hdc] using hd⟩

omit [DecidableEq C] in
theorem Count.congr {t : State C} (h : Count s w r) (hs : t.state = s.state) (hp : t.pc = s.pc) :
    Count t w r := by
  obtain ⟨m, co, wc, st, pc⟩ := t
  dsimp only at hs hp
  subst hs hp
  exact ⟨h.word, h.bound, h.flags, h.oneFlag, h.flag, h.reads, h.writes, h.setFlag, h.add⟩

omit [DecidableEq C] in
theorem Waits.congr {t : State C} (h : Waits s) (hs : t.state = s.state) (hp : t.pc = s.pc) :
    Waits t := by
  obtain ⟨m, co, wc, st, pc⟩ := t
  dsimp only at hs hp
  subst hs hp
  exact ⟨h.push, h.linked⟩

omit [DecidableEq C] in
theorem Lists.congr {t : State C} (h : Lists s) (hc : t.cond = s.cond)
    (hw : t.writerCond = s.writerCond) (hp : t.pc = s.pc) : Lists t := by
  obtain ⟨m, co, wc, st, pc⟩ := t
  dsimp only at hc hw hp
  subst hc hw hp
  exact ⟨h.cond, h.condNodup, h.resume, h.writerCond, h.writerNodup⟩

/-! ### Waking -/

/-- With another coroutine past `mutex_.lock()`, who is linked is suspended. -/
theorem wake_eq {a : C} {g : Wait} (ha : ∀ d k, s.pc d = .body k → d = c) (hc : a ≠ c)
    (hg : Linked g (s.pc a)) : s.pc a = .parked g ∧ wake s a = setPc s a (.woken g) := by
  have hp : s.pc a = .parked g := hg.resolve_right fun hb => hc (ha a _ hb)
  exact ⟨hp, by simp only [wake, hp]⟩

theorem Count.wake {a : C} {g : Wait} (h : Count s w r) (ha : s.pc a = .parked g) :
    Count (setPc s a (.woken g)) w r := by
  apply h.move ha <;> cases g <;> simp [Pc.Flags, Pc.Reads, Pc.Writes]

/-! ### The steps with `mutex_` held -/

/-- The flag after a step. -/
def flagAfter (w : Bool) : Body C → Bool
  | .setFlag => true
  | .clear => false
  | _ => w

/-- The readers after a step of `c`. -/
def readersAfter (r : Finset C) (c : C) : Body C → Finset C
  | .add => insert c r
  | .sub => r.erase c
  | _ => r

variable {k : Body C}

omit [DecidableEq C] in
theorem linked_ne {a : C} {g : Wait} (hc : s.pc c = .body k) (hk : ∀ g, k ≠ .unlock (.parked g))
    (ha : Linked g (s.pc a)) : a ≠ c := by
  rintro rfl
  rw [hc] at ha
  rcases ha with ha | ha <;> cases ha
  exact hk g rfl

/-- The waiter that `notify_all` schedules next is suspended. -/
theorem Lists.front {a : C} {l : List C} (h : Lists s) (hc : s.pc c = .body (.resume (a :: l)))
    (ha : ∀ d k, s.pc d = .body k → d = c) :
    ∃ g, g ≠ .drain ∧ a ≠ c ∧ s.pc a = .parked g ∧ wake s a = setPc s a (.woken g) := by
  obtain ⟨g, hg, hgd⟩ : ∃ g, Linked g (s.pc a) ∧ g ≠ .drain := by
    rcases (h.cond a).2 (Or.inr ⟨c, _, hc, List.mem_cons_self⟩) with hl | hl
    · exact ⟨_, hl, by simp⟩
    · exact ⟨_, hl, by simp⟩
  have hac := linked_ne hc (by simp) hg
  exact ⟨g, hgd, hac, wake_eq ha hac hg⟩

/-- The writer that `notify_one` schedules is suspended. -/
theorem Lists.frontWriter {a : C} {l : List C} (h : Lists s) (hc : s.pc c = .body .notifyWriter)
    (ha : ∀ d k, s.pc d = .body k → d = c) (hl : s.writerCond = a :: l) :
    a ≠ c ∧ s.pc a = .parked .drain ∧
      wake { s with writerCond := l } a = setPc { s with writerCond := l } a (.woken .drain) := by
  have hg := (h.writerCond a).2 (hl ▸ List.mem_cons_self)
  have hac := linked_ne hc (by simp) hg
  obtain ⟨hp, -⟩ := wake_eq ha hac hg
  exact ⟨hac, hp, by simp only [wake, hp]⟩

/-- Two fields of `Count` speak of places past `mutex_.lock()`. -/
theorem Count.of_alone {st : BitVec 64} {w' : Bool} {r' : Finset C} {k' : Body C}
    (ha : ∀ d k, s.pc d = .body k → d = c) (hk1 : k' ≠ .setFlag) (hk2 : k' ≠ .add)
    (word : st.toNat = (if w' then 2 ^ 63 else 0) + r'.card) (bound : r'.card < 2 ^ 63)
    (flags : ∀ x, ((setPc s c (.body k')).pc x).Flags → w' = true)
    (oneFlag : ∀ x y, ((setPc s c (.body k')).pc x).Flags → ((setPc s c (.body k')).pc y).Flags → x = y)
    (flag : w' = true → ∃ x, ((setPc s c (.body k')).pc x).Flags)
    (reads : ∀ x, x ∈ r' ↔ ((setPc s c (.body k')).pc x).Reads)
    (writes : ∀ x, ((setPc s c (.body k')).pc x).Writes → r' = ∅) :
    Count (setPc { s with state := st } c (.body k')) w' r' := by
  refine ⟨word, bound, flags, oneFlag, flag, reads, writes, ?_, ?_⟩
  · intro x hx
    have hx' : (setPc s c (.body k')).pc x = .body .setFlag := hx
    grind
  · intro x hx
    have hx' : (setPc s c (.body k')).pc x = .body .add := hx
    grind

theorem Count.setFlagStep (h : Count s w r) (hc : s.pc c = .body .setFlag)
    (ha : ∀ d k, s.pc d = .body k → d = c) :
    Count (setPc { s with state := s.state ||| writerFlag } c (.body (.test .drain))) true r := by
  obtain rfl := h.setFlag c hc
  have hno : ∀ x, ¬ (s.pc x).Flags := fun x hx => absurd (h.flags x hx) (by simp)
  have hF : ∀ x, ((setPc s c (.body (.test .drain))).pc x).Flags ↔ x = c := by
    intro x
    by_cases hx : x = c
    · simp [hx, Pc.Flags]
    · simp [hx, hno]
  apply Count.of_alone ha (by simp) (by simp) (setFlag_toNat h.word h.bound rfl) h.bound
  · exact fun _ _ => rfl
  · exact fun x y hx hy => ((hF x).1 hx).trans ((hF y).1 hy).symm
  · exact fun _ => ⟨c, (hF c).2 rfl⟩
  · intro x
    rw [h.reads x]
    by_cases hx : x = c <;> simp [hx, hc, Pc.Reads]
  · intro x hx
    have := (hF x).1 hx.flags
    subst this
    simp [Pc.Writes] at hx

theorem Count.clearStep (h : Count s w r) (hc : s.pc c = .body .clear)
    (ha : ∀ d k, s.pc d = .body k → d = c) :
    Count (setPc { s with state := 0 } c (.body .notifyAll)) false r := by
  have hr : r = ∅ := h.writes c (by rw [hc]; trivial)
  have hF : ∀ x, ¬ ((setPc s c (.body .notifyAll)).pc x).Flags := by
    intro x hx
    by_cases he : x = c
    · simp [he, Pc.Flags] at hx
    · rw [setPc_pc, if_neg he] at hx
      exact he (h.oneFlag x c hx (by rw [hc]; trivial))
  apply Count.of_alone ha (by simp) (by simp) (by simp [hr]) h.bound
  · exact fun x hx => absurd hx (hF x)
  · exact fun x y hx _ => absurd hx (hF x)
  · intro hw
    cases hw
  · intro x
    rw [h.reads x]
    by_cases hx : x = c <;> simp [hx, hc, Pc.Reads]
  · exact fun x hx => absurd hx.flags (hF x)

theorem Count.addStep (h : Count s w r) (hc : s.pc c = .body .add)
    (ha : ∀ d k, s.pc d = .body k → d = c) :
    Count (setPc { s with state := s.state + 1 } c (.body (.unlock .guard))) w (insert c r) := by
  obtain ⟨rfl, hlt⟩ := h.add c hc
  have hcr : c ∉ r := by
    rw [h.reads c, hc]
    exact id
  have hcard := Finset.card_insert_of_notMem hcr
  have hF : ∀ x, ¬ ((setPc s c (.body (.unlock .guard))).pc x).Flags := by
    intro x hx
    by_cases he : x = c
    · simp [he, Pc.Flags] at hx
    · rw [setPc_pc, if_neg he] at hx
      cases h.flags x hx
  have hword := h.word
  apply Count.of_alone ha (by simp) (by simp)
  · rw [hcard, BitVec.toNat_add, hword]
    simp
    omega
  · omega
  · exact fun x hx => absurd hx (hF x)
  · exact fun x y hx _ => absurd hx (hF x)
  · intro hw
    cases hw
  · intro x
    rw [Finset.mem_insert, h.reads x]
    by_cases hx : x = c <;> simp [hx, Pc.Reads]
  · exact fun x hx => absurd hx.flags (hF x)

theorem Count.subStep (h : Count s w r) (hc : s.pc c = .body .sub)
    (ha : ∀ d k, s.pc d = .body k → d = c) :
    Count (bodyStep s c .sub) w (r.erase c) := by
  have hcr : c ∈ r := by
    rw [h.reads c, hc]
    trivial
  have hcard := Finset.card_erase_add_one hcr
  have hword := h.word
  have hne : r ≠ ∅ := fun he => by simp [he] at hcr
  obtain ⟨k', hk⟩ : ∃ k', (afterSub s.state : Body C) = k' := ⟨_, rfl⟩
  have hk1 : k' = .notifyWriter ∨ k' = .notifyReader ∨ k' = .unlock .returned := by
    have := afterSub_cases C s.state
    rw [hk] at this
    tauto
  have hF : ∀ x, ((setPc s c (.body k')).pc x).Flags ↔ (s.pc x).Flags := by
    intro x
    by_cases hx : x = c
    · rcases hk1 with rfl | rfl | rfl <;> simp [hx, hc, Pc.Flags]
    · simp [hx]
  rw [bodyStep, hk]
  apply Count.of_alone ha
  · rcases hk1 with rfl | rfl | rfl <;> simp
  · rcases hk1 with rfl | rfl | rfl <;> simp
  · rw [BitVec.toNat_sub, hword]
    have hb := h.bound
    cases w <;> simp <;> omega
  · have := h.bound
    omega
  · exact fun x hx => h.flags x ((hF x).1 hx)
  · exact fun x y hx hy => h.oneFlag x y ((hF x).1 hx) ((hF y).1 hy)
  · exact fun hw => (h.flag hw).imp fun x hx => (hF x).2 hx
  · intro x
    rw [Finset.mem_erase, h.reads x]
    by_cases hx : x = c
    · rcases hk1 with rfl | rfl | rfl <;> simp [hx, Pc.Reads]
    · simp [hx]
  · intro x hx
    exfalso
    by_cases he : x = c
    · rcases hk1 with rfl | rfl | rfl <;> simp [he, Pc.Writes] at hx
    · rw [setPc_pc, if_neg he] at hx
      exact hne (h.writes x hx)

theorem Inv.count_bodyStep (h : Inv s w r) (hc : s.pc c = .body k)
    (ha : ∀ d k, s.pc d = .body k → d = c) :
    Count (bodyStep s c k) (flagAfter w k) (readersAfter r c k) := by
  obtain ⟨hpw, hpd, hpr⟩ := h.count.predicate
  have hcount := h.count
  cases k with
  | test g =>
    by_cases hp : g.predicate s.state = true
    · simp only [bodyStep, hp, if_true]
      apply hcount.move hc <;> cases g <;> simp_all [Pc.Flags, Pc.Reads, Pc.Writes, Wait.predicate]
    · simp only [bodyStep, if_neg hp]
      apply hcount.move hc <;> cases g <;> simp [Pc.Flags, Pc.Reads, Pc.Writes]
  | push g =>
    have hcongr : Count (link s c g) w r := hcount.congr (link_state s c g) (link_pc s c g)
    apply hcongr.move ((congrFun (link_pc s c g) c).trans hc) <;> cases g <;>
      simp [Pc.Flags, Pc.Reads, Pc.Writes]
  | setFlag => exact hcount.setFlagStep hc ha
  | clear => exact hcount.clearStep hc ha
  | notifyAll =>
    have hcongr : Count { s with cond := [] } w r := hcount.congr rfl rfl
    apply hcongr.move hc <;> simp [Pc.Flags, Pc.Reads, Pc.Writes]
  | resume l =>
    cases l with
    | nil => apply hcount.move hc <;> simp [Pc.Flags, Pc.Reads, Pc.Writes]
    | cons a l =>
      obtain ⟨g, -, hac, hp, he⟩ := h.lists.front hc ha
      have hc' : (setPc s a (.woken g)).pc c = .body (.resume (a :: l)) := by
        rw [setPc_pc, if_neg (Ne.symm hac), hc]
      simp only [bodyStep, he]
      apply (hcount.wake hp).move hc' <;> simp [Pc.Flags, Pc.Reads, Pc.Writes]
  | add => exact hcount.addStep hc ha
  | sub => exact hcount.subStep hc ha
  | notifyWriter =>
    cases hl : s.writerCond with
    | nil =>
      simp only [bodyStep, hl]
      apply hcount.move hc <;> simp [Pc.Flags, Pc.Reads, Pc.Writes]
    | cons a l =>
      obtain ⟨hac, hp, he⟩ := h.lists.frontWriter hc ha hl
      have hcongr : Count { s with writerCond := l } w r := hcount.congr rfl rfl
      have hc' : (setPc { s with writerCond := l } a (.woken .drain)).pc c = .body .notifyWriter := by
        rw [setPc_pc, if_neg (Ne.symm hac), hc]
      simp only [bodyStep, hl, he]
      apply (hcongr.wake hp).move hc' <;> simp [Pc.Flags, Pc.Reads, Pc.Writes]
  | notifyReader => exact absurd hc (h.noNotifyReader c)
  | unlock k =>
    have hcongr : Count { s with mutex := Mutex.setPc s.mutex c .unlockAssert } w r :=
      hcount.congr rfl rfl
    have hw := hcount.writes c
    rw [hc] at hw
    cases k with
    | parked g =>
      apply hcongr.move hc <;> cases g <;> simp [After.pc, Pc.Flags, Pc.Reads, Pc.Writes]
    | _ =>
      apply hcongr.move hc <;> simp_all [After.pc, Pc.Flags, Pc.Reads, Pc.Writes]

omit [DecidableEq C] in
/-- With `c` past `mutex_.lock()` and not waking anybody, `cond_` has everybody on it. -/
theorem Lists.cond_of_alone (h : Lists s) (hc : s.pc c = .body k) (hk : ∀ l, k ≠ .resume l)
    (ha : ∀ d k, s.pc d = .body k → d = c) (x : C) :
    Linked .writer (s.pc x) ∨ Linked .reader (s.pc x) ↔ x ∈ s.cond := by
  rw [h.cond x, or_iff_left]
  rintro ⟨d, l, hd, -⟩
  have hdc := ha d _ hd
  subst hdc
  rw [hc] at hd
  cases hd
  exact hk l rfl

theorem Lists.pushStep {g : Wait} (h : Lists s) (hc : s.pc c = .body (.push g))
    (ha : ∀ d k, s.pc d = .body k → d = c) : Lists (bodyStep s c (.push g)) := by
  have hcond := h.cond_of_alone hc (by simp) ha
  have hres : ∀ d l, (bodyStep s c (.push g)).pc d ≠ .body (.resume l) := by
    intro d l hd
    simp only [bodyStep, setPc_pc, link_pc] at hd
    split at hd
    · cases hd
    · next hdc => exact hdc (ha d _ hd)
  have hno : ∀ g', ¬ Linked g' (s.pc c) := by
    intro g'
    rw [hc]
    simp [Linked]
  have hL : ∀ g' x, Linked g' ((bodyStep s c (.push g)).pc x) ↔
      (x = c ∧ g' = g) ∨ Linked g' (s.pc x) := by
    intro g' x
    by_cases hx : x = c
    · subst hx
      simp only [bodyStep, setPc_pc, if_pos, hno, or_false, true_and]
      simp [Linked, eq_comm]
    · simp [bodyStep, hx]
  refine ⟨?_, ?_, fun d l hd => absurd hd (hres d l), ?_, ?_⟩
  · intro x
    have : ¬ ∃ d l, (bodyStep s c (.push g)).pc d = .body (.resume l) ∧ x ∈ l :=
      fun ⟨d, l, hd, _⟩ => hres d l hd
    rw [hL, hL, or_iff_left this]
    have := hcond x
    cases g <;> simp [bodyStep, link] <;> grind
  · have := (hcond c).not.1 (by simp [hno])
    cases g <;> simp [bodyStep, link, h.condNodup, this]
  · intro x
    rw [hL]
    have := h.writerCond x
    cases g <;> simp [bodyStep, link] <;> grind
  · have := (h.writerCond c).not.1 (hno _)
    cases g <;> simp [bodyStep, link, h.writerNodup, this]

theorem Lists.notifyAllStep (h : Lists s) (hc : s.pc c = .body .notifyAll)
    (ha : ∀ d k, s.pc d = .body k → d = c) : Lists (bodyStep s c .notifyAll) := by
  have hcond := h.cond_of_alone hc (by simp) ha
  have hL : ∀ g x, Linked g ((bodyStep s c .notifyAll).pc x) ↔ Linked g (s.pc x) := by
    intro g x
    by_cases hx : x = c <;> simp [bodyStep, hx, hc, Linked]
  have hres : ∀ d l, (bodyStep s c .notifyAll).pc d = .body (.resume l) ↔ d = c ∧ l = s.cond := by
    intro d l
    by_cases hd : d = c
    · simp [bodyStep, hd, eq_comm]
    · simp only [bodyStep, setPc_pc, hd, false_and, iff_false]
      exact fun he => hd (ha d _ he)
  refine ⟨?_, List.nodup_nil, ?_, fun x => (hL .drain x).trans (h.writerCond x), h.writerNodup⟩
  · intro x
    rw [hL, hL, hcond x]
    simp only [hres]
    simp [bodyStep]
  · intro d l hd
    obtain ⟨-, rfl⟩ := (hres d l).1 hd
    exact ⟨rfl, h.condNodup⟩

theorem Lists.resumeStep {a : C} {l : List C} (h : Lists s) (hc : s.pc c = .body (.resume (a :: l)))
    (ha : ∀ d k, s.pc d = .body k → d = c) : Lists (bodyStep s c (.resume (a :: l))) := by
  obtain ⟨hnil, hnd⟩ := h.resume c _ hc
  obtain ⟨g, hgd, hac, hp, he⟩ := h.front hc ha
  have hL : ∀ g' x, Linked g' ((bodyStep s c (.resume (a :: l))).pc x) ↔
      x ≠ a ∧ Linked g' (s.pc x) := by
    intro g' x
    simp only [bodyStep, he, setPc_pc]
    by_cases hx : x = c
    · simp [hx, hc, Linked]
    · by_cases hxa : x = a <;> simp [hx, hxa, hac, Linked]
  have hres : ∀ d l', (bodyStep s c (.resume (a :: l))).pc d = .body (.resume l') ↔
      d = c ∧ l' = l := by
    intro d l'
    simp only [bodyStep, he, setPc_pc]
    by_cases hd : d = c
    · simp [hd, eq_comm]
    · by_cases hda : d = a
      · simp [hda, hac]
      · simp only [if_neg hda, hd, false_and, iff_false]
        exact fun hb => hd (ha d _ hb)
  rw [List.nodup_cons] at hnd
  have hco : (bodyStep s c (.resume (a :: l))).cond = s.cond := by simp [bodyStep, he]
  have hwc : (bodyStep s c (.resume (a :: l))).writerCond = s.writerCond := by simp [bodyStep, he]
  refine ⟨?_, hco ▸ h.condNodup, ?_, ?_, hwc ▸ h.writerNodup⟩
  · intro x
    have hx := h.cond x
    rw [hL, hL, ← and_or_left, hx, hco, hnil]
    simp only [hres, List.not_mem_nil, false_or]
    constructor
    · rintro ⟨hxa, d, l', hd, hm⟩
      have hdc := ha d _ hd
      subst hdc
      rw [hc] at hd
      cases hd
      exact ⟨d, l, ⟨rfl, rfl⟩, (List.mem_cons.1 hm).resolve_left hxa⟩
    · rintro ⟨d, l', ⟨rfl, rfl⟩, hm⟩
      exact ⟨fun hxa => hnd.1 (hxa ▸ hm), d, _, hc, List.mem_cons_of_mem _ hm⟩
  · intro d l' hd
    obtain ⟨-, rfl⟩ := (hres d l').1 hd
    exact ⟨hco ▸ hnil, hnd.2⟩
  · intro x
    rw [hL, hwc, ← h.writerCond x, and_iff_right_iff_imp]
    rintro hx rfl
    rw [hp] at hx
    rcases hx with hx | hx <;> cases hx
    exact hgd rfl

theorem Lists.notifyWriterStep (h : Lists s) (hc : s.pc c = .body .notifyWriter)
    (ha : ∀ d k, s.pc d = .body k → d = c) : Lists (bodyStep s c .notifyWriter) := by
  cases hl : s.writerCond with
  | nil =>
    simp only [bodyStep, hl]
    apply h.move hc <;> simp [Linked]
  | cons a l =>
    obtain ⟨hac, hp, he⟩ := h.frontWriter hc ha hl
    have hnd := h.writerNodup
    rw [hl, List.nodup_cons] at hnd
    have hL : ∀ g' x, Linked g' ((bodyStep s c .notifyWriter).pc x) ↔
        x ≠ a ∧ Linked g' (s.pc x) := by
      intro g' x
      simp only [bodyStep, hl, he, setPc_pc]
      by_cases hx : x = c
      · simp [hx, hc, Linked]
      · by_cases hxa : x = a <;> simp [hx, hxa, hac, Linked]
    have hres : ∀ d l', (bodyStep s c .notifyWriter).pc d ≠ .body (.resume l') := by
      intro d l' hd
      simp only [bodyStep, hl, he, setPc_pc] at hd
      split at hd
      · cases hd
      · next hdc =>
        split at hd
        · cases hd
        · exact hdc (ha d _ hd)
    have hco : (bodyStep s c .notifyWriter).cond = s.cond := by simp [bodyStep, hl, he]
    have hwc : (bodyStep s c .notifyWriter).writerCond = l := by simp [bodyStep, hl, he]
    refine ⟨?_, hco ▸ h.condNodup, fun d l' hd => absurd hd (hres d l'), ?_, hwc ▸ hnd.2⟩
    · intro x
      have hx := h.cond_of_alone hc (by simp) ha x
      have hno : ¬ ∃ d l', (bodyStep s c .notifyWriter).pc d = .body (.resume l') ∧ x ∈ l' :=
        fun ⟨d, l', hd, _⟩ => hres d l' hd
      rw [hL, hL, ← and_or_left, hco, or_iff_left hno, ← hx, and_iff_right_iff_imp]
      rintro hxl rfl
      rw [hp] at hxl
      simp [Linked] at hxl
    · intro x
      have hx := h.writerCond x
      rw [hl, List.mem_cons] at hx
      rw [hL, hwc, hx]
      constructor
      · rintro ⟨hxa, hm⟩
        exact hm.resolve_left hxa
      · exact fun hm => ⟨fun hxa => hnd.1 (hxa ▸ hm), Or.inr hm⟩

theorem Inv.lists_bodyStep (h : Inv s w r) (hc : s.pc c = .body k)
    (ha : ∀ d k, s.pc d = .body k → d = c) : Lists (bodyStep s c k) := by
  have hl := h.lists
  cases k with
  | test g =>
    by_cases hp : g.predicate s.state = true
    · simp only [bodyStep, hp, if_true]
      apply hl.move hc <;> cases g <;> simp [Linked]
    · simp only [bodyStep, if_neg hp]
      apply hl.move hc <;> simp [Linked]
  | push g => exact hl.pushStep hc ha
  | setFlag =>
    apply (hl.congr rfl rfl rfl : Lists { s with state := s.state ||| writerFlag }).move hc <;>
      simp [Linked]
  | clear =>
    apply (hl.congr rfl rfl rfl : Lists { s with state := 0 }).move hc <;> simp [Linked]
  | notifyAll => exact hl.notifyAllStep hc ha
  | resume l =>
    cases l with
    | nil => apply hl.move hc <;> simp [Linked]
    | cons a l => exact hl.resumeStep hc ha
  | add =>
    apply (hl.congr rfl rfl rfl : Lists { s with state := s.state + 1 }).move hc <;> simp [Linked]
  | sub =>
    apply (hl.congr rfl rfl rfl : Lists { s with state := s.state - 1 }).move hc
    · intro g
      rcases afterSub_cases C s.state with hk | ⟨-, hk⟩ | hk <;> simp [hk, Linked]
    · intro l
      rcases afterSub_cases C s.state with hk | ⟨-, hk⟩ | hk <;> simp [hk]
    · simp
  | notifyWriter => exact hl.notifyWriterStep hc ha
  | notifyReader => exact absurd hc (h.noNotifyReader c)
  | unlock k =>
    have hcongr : Lists { s with mutex := Mutex.setPc s.mutex c .unlockAssert } :=
      hl.congr rfl rfl rfl
    apply hcongr.move hc <;> cases k <;> simp [After.pc, Linked]

theorem Waits.wake {a : C} {g : Wait} (h : Waits s) (ha : s.pc a = .parked g) :
    Waits (setPc s a (.woken g)) := by
  apply h.move ha
  · simp [Linked]
  · simp
  · intro g' hN
    cases g' <;> exact hN.elim

/-- A step of `c` alone: who is linked afterwards has a reason to wait or is notified. -/
theorem Waits.of_alone {t : State C} (k' : Body C) (ha : ∀ d k, s.pc d = .body k → d = c)
    (hpc : t.pc = (setPc s c (.body k')).pc) (hk : ∀ g, k' ≠ .push g)
    (hl : ∀ x g, Linked g (t.pc x) → g.predicate t.state = false ∨ Notifies g (.body k')) :
    Waits t := by
  refine ⟨?_, ?_⟩
  · intro x g hx
    rw [hpc, setPc_pc] at hx
    split at hx
    · exact absurd (Pc.body.inj hx) (hk g)
    · next hxc => exact absurd (ha x _ hx) hxc
  · intro x g hx
    refine (hl x g hx).imp_right fun hN => ⟨c, ?_⟩
    rwa [hpc, setPc_pc, if_pos rfl]

/-- A reader leaves.  Without a writer nobody is waiting; with one, the last
reader goes on to notify it. -/
theorem Inv.waits_sub (h : Inv s w r) (hc : s.pc c = .body .sub)
    (ha : ∀ d k, s.pc d = .body k → d = c) (hok : s.state ≠ readerMask) :
    Waits (bodyStep s c .sub) := by
  have hcount := h.count_bodyStep hc ha
  obtain ⟨hpw, -, hpr⟩ := h.count.predicate
  obtain ⟨hpw', hpd', hpr'⟩ := hcount.predicate
  have hword := hcount.word
  have hstate : (bodyStep s c .sub).state = s.state - 1 := rfl
  simp only [flagAfter, readersAfter, hstate] at hpw' hpd' hpr' hword
  have hk := afterSub_cases C s.state
  refine Waits.of_alone (afterSub s.state) ha rfl ?_ ?_
  · intro g
    rcases hk with hk | ⟨-, hk⟩ | hk <;> simp [hk]
  intro x g hx
  have hxc : x ≠ c := by
    rintro rfl
    rcases hk with hk | ⟨-, hk⟩ | hk <;> simp [bodyStep, hk, Linked] at hx
  simp only [bodyStep, setPc_pc, if_neg hxc] at hx
  have hb := h.waits.blocked ha (by simp [hc, Notifies]) hx
  rw [hstate]
  cases w with
  | false =>
    exfalso
    cases g with
    | writer => simp [hpw] at hb
    | reader =>
      rw [← Bool.not_eq_true, hpr] at hb
      have hbound := h.count.bound
      apply hok
      apply BitVec.eq_of_toNat_eq
      rw [h.count.word, readerMask_toNat]
      simp only [Bool.false_eq_true, if_false, true_and] at hb ⊢
      omega
    | drain => exact absurd (h.count.flags x hx.flags) (by simp)
  | true =>
    cases g with
    | writer => exact Or.inl (by simpa using hpw')
    | reader =>
      left
      rw [← Bool.not_eq_true, hpr']
      simp
    | drain =>
      by_cases hr : r.erase c = ∅
      · right
        have hwr := hasWriter_eq hword hcount.bound
        have hcr : countReader (s.state - 1) = 0 :=
          BitVec.eq_of_toNat_eq (by rw [countReader_toNat hword hcount.bound, hr]; rfl)
        rw [afterSub, if_pos ⟨hwr, hcr⟩]
        trivial
      · left
        rw [← Bool.not_eq_true, hpd']
        exact hr

theorem Inv.waits_bodyStep (h : Inv s w r) (hc : s.pc c = .body k)
    (ha : ∀ d k, s.pc d = .body k → d = c) (hok : k = .sub → s.state ≠ readerMask) :
    Waits (bodyStep s c k) := by
  have hw := h.waits
  have hcount := h.count_bodyStep hc ha
  obtain ⟨hpw, hpd, hpr⟩ := h.count.predicate
  obtain ⟨hpw', hpd', hpr'⟩ := hcount.predicate
  have blocked : (∀ g, ¬ Notifies g (.body k : Pc C)) → ∀ {x g}, Linked g (s.pc x) →
      g.predicate s.state = false := fun hk {x g} hx => hw.blocked ha (by rwa [hc]) hx
  cases k with
  | test g =>
    by_cases hp : g.predicate s.state = true
    · simp only [bodyStep, hp, if_true]
      apply hw.move hc <;> cases g <;> simp [Linked, Notifies]
    · simp only [bodyStep, if_neg hp]
      apply hw.move hc
      · simp [Linked]
      · intro g' he
        cases he
        simpa using hp
      · simp [Notifies]
  | push g =>
    refine Waits.of_alone (.unlock (.parked g)) ha ?_ (by simp) ?_
    · funext x
      simp [bodyStep]
    · intro x g' hx
      left
      simp only [bodyStep, setPc_state, link_state]
      by_cases hxc : x = c
      · subst hxc
        have hg : g = g' := by simpa [bodyStep, Linked] using hx
        exact hg ▸ hw.push x g hc
      · simp only [bodyStep, setPc_pc, if_neg hxc, link_pc] at hx
        exact blocked (by simp [Notifies]) hx
  | setFlag =>
    refine Waits.of_alone (.test .drain) ha rfl (by simp) ?_
    intro x g hx
    left
    cases g with
    | writer => simpa [flagAfter] using hpw'
    | reader =>
      rw [← Bool.not_eq_true, hpr']
      simp [flagAfter]
    | drain =>
      have hxc : x ≠ c := by
        rintro rfl
        simp [bodyStep, Linked] at hx
      simp only [bodyStep, setPc_pc, if_neg hxc] at hx
      have := h.count.flags x hx.flags
      rw [h.count.setFlag c hc] at this
      cases this
  | clear =>
    refine Waits.of_alone .notifyAll ha rfl (by simp) ?_
    intro x g hx
    have hxc : x ≠ c := by
      rintro rfl
      simp [bodyStep, Linked] at hx
    cases g with
    | writer => exact Or.inr trivial
    | reader => exact Or.inr trivial
    | drain =>
      simp only [bodyStep, setPc_pc, if_neg hxc] at hx
      exact absurd (h.count.oneFlag x c hx.flags (by rw [hc]; trivial)) hxc
  | notifyAll =>
    have hcongr : Waits { s with cond := [] } := hw.congr rfl rfl
    apply hcongr.move hc
    · simp [Linked]
    · simp
    · intro g hN
      cases g <;> first | exact Or.inl trivial | exact hN.elim
  | resume l =>
    cases l with
    | nil =>
      have hnil := (h.lists.resume c _ hc).1
      apply hw.move hc
      · simp [Linked]
      · simp
      · intro g hN
        right
        intro x _ hx
        have hgd : Linked .writer (s.pc x) ∨ Linked .reader (s.pc x) := by
          cases g with
          | writer => exact Or.inl hx
          | reader => exact Or.inr hx
          | drain => exact hN.elim
        rw [h.lists.cond x, hnil] at hgd
        obtain ⟨d, l, hd, hm⟩ := hgd.resolve_left (by simp)
        have hdc := ha d _ hd
        subst hdc
        rw [hc] at hd
        cases hd
        cases hm
    | cons a l =>
      obtain ⟨g, -, hac, hp, he⟩ := h.lists.front hc ha
      have hc' : (setPc s a (.woken g)).pc c = .body (.resume (a :: l)) := by
        rw [setPc_pc, if_neg (Ne.symm hac), hc]
      simp only [bodyStep, he]
      apply (hw.wake hp).move hc'
      · simp [Linked]
      · simp
      · intro g' hN
        cases g' <;> first | exact Or.inl trivial | exact hN.elim
  | add =>
    obtain ⟨hwf, hlt⟩ := h.count.add c hc
    refine Waits.of_alone (.unlock .guard) ha rfl (by simp) ?_
    intro x g hx
    exfalso
    have hxc : x ≠ c := by
      rintro rfl
      simp [bodyStep, Linked] at hx
    simp only [bodyStep, setPc_pc, if_neg hxc] at hx
    have hb := blocked (by simp [Notifies]) hx
    cases g with
    | writer => simp [hpw, hwf] at hb
    | reader => simp [hpr.2 ⟨hwf, hlt⟩] at hb
    | drain => simp [hwf] at hpw; exact absurd (h.count.flags x hx.flags) (by simp [hwf])
  | sub => exact h.waits_sub hc ha (hok rfl)
  | notifyWriter =>
    cases hl : s.writerCond with
    | nil =>
      simp only [bodyStep, hl]
      apply hw.move hc
      · simp [Linked]
      · simp
      · intro g hN
        right
        intro x _ hx
        cases g with
        | drain =>
          have := (h.lists.writerCond x).1 hx
          rw [hl] at this
          cases this
        | writer => exact hN.elim
        | reader => exact hN.elim
    | cons a l =>
      have hg := (h.lists.writerCond a).2 (hl ▸ List.mem_cons_self)
      obtain ⟨hac, hp, he⟩ := h.lists.frontWriter hc ha hl
      have hcongr : Waits { s with writerCond := l } := hw.congr rfl rfl
      have hc' : (setPc { s with writerCond := l } a (.woken .drain)).pc c = .body .notifyWriter := by
        rw [setPc_pc, if_neg (Ne.symm hac), hc]
      simp only [bodyStep, hl, he]
      apply (hcongr.wake hp).move hc'
      · simp [Linked]
      · simp
      · intro g hN
        right
        intro x _ hx
        cases g with
        | drain =>
          by_cases hxa : x = a
          · simp [hxa, Linked] at hx
          · rw [setPc_pc, if_neg hxa] at hx
            exact hxa (h.count.oneFlag x a hx.flags hg.flags)
        | writer => exact hN.elim
        | reader => exact hN.elim
  | notifyReader => exact absurd hc (h.noNotifyReader c)
  | unlock k =>
    have hcongr : Waits { s with mutex := Mutex.setPc s.mutex c .unlockAssert } := hw.congr rfl rfl
    apply hcongr.move hc <;> cases k <;> simp [After.pc, Linked, Notifies]

/-! ### All steps -/

omit [DecidableEq C] in
theorem Inv.alone (h : Inv s w r) (hc : s.pc c = .body k) : ∀ d k, s.pc d = .body k → d = c := by
  intro d k' hd
  obtain ⟨l, hl⟩ := h.stands
  have owns : ∀ x k, s.pc x = .body k → HandOff.owner l = some x := by
    intro x k hx
    have hx' := h.agree x
    rw [hx] at hx'
    exact (hl.owns x).1 (by rw [show s.mutex.pc x = .owner from hx']; trivial)
  exact Option.some.inj ((owns d k' hd).symm.trans (owns c k hc))

/-- A step with `mutex_` held leaves `c` with it, except to unlock it. -/
theorem bodyStep_pc_self (hk : ∀ k', k ≠ .unlock k') : ∃ k', (bodyStep s c k).pc c = .body k' ∧
    k' ≠ .sub ∧ (k' = .notifyReader → k = .sub ∧ s.state = readerMask) := by
  cases k with
  | unlock k' => exact absurd rfl (hk k')
  | test g =>
    refine ⟨_, by simp [bodyStep]; rfl, ?_⟩
    by_cases hp : g.predicate s.state = true <;> cases g <;> simp [hp]
  | push g => exact ⟨.unlock (.parked g), by simp [bodyStep], by simp, by simp⟩
  | setFlag => exact ⟨.test .drain, by simp [bodyStep], by simp, by simp⟩
  | clear => exact ⟨.notifyAll, by simp [bodyStep], by simp, by simp⟩
  | notifyAll => exact ⟨.resume s.cond, by simp [bodyStep], by simp, by simp⟩
  | resume l =>
    cases l with
    | nil => exact ⟨.unlock .returned, by simp [bodyStep], by simp, by simp⟩
    | cons a l => exact ⟨.resume l, by simp [bodyStep], by simp, by simp⟩
  | add => exact ⟨.unlock .guard, by simp [bodyStep], by simp, by simp⟩
  | sub =>
    refine ⟨afterSub s.state, by simp [bodyStep], ?_⟩
    rcases afterSub_cases C s.state with hk | ⟨hm, hk⟩ | hk <;> simp [hk]
    exact hm
  | notifyWriter =>
    refine ⟨.unlock .returned, ?_, by simp, by simp⟩
    simp only [bodyStep]
    split <;> simp
  | notifyReader =>
    refine ⟨.unlock .returned, ?_, by simp, by simp⟩
    simp only [bodyStep]
    split <;> simp

theorem wake_pc (a x : C) : (wake s a).pc x = s.pc x ∨
    ∃ g, s.pc x = .parked g ∧ (wake s a).pc x = .woken g := by
  unfold wake
  split
  · next g hg =>
    by_cases hx : x = a
    · subst hx
      exact Or.inr ⟨g, hg, by simp⟩
    · exact Or.inl (by simp [hx])
  · exact Or.inl rfl

@[simp] theorem wake_mutex (a : C) : (wake s a).mutex = s.mutex := by
  unfold wake
  split <;> rfl

/-- Others are left where they are or woken. -/
theorem bodyStep_pc_ne {x : C} (hx : x ≠ c) : (bodyStep s c k).pc x = s.pc x ∨
    ∃ g, s.pc x = .parked g ∧ (bodyStep s c k).pc x = .woken g := by
  cases k with
  | resume l =>
    cases l with
    | nil => simp [bodyStep, hx]
    | cons a l => simpa [bodyStep, hx] using wake_pc a x
  | notifyWriter =>
    simp only [bodyStep]
    split
    · simp [hx]
    · next a l _ =>
      have := wake_pc (s := { s with writerCond := l }) a x
      simpa [hx] using this
  | notifyReader =>
    simp only [bodyStep]
    split
    · simp [hx]
    · next a l _ =>
      have := wake_pc (s := { s with cond := l }) a x
      simpa [hx] using this
  | _ => simp [bodyStep, unlockMutex, hx]

theorem bodyStep_mutex (hk : ∀ k', k ≠ .unlock k') : (bodyStep s c k).mutex = s.mutex := by
  cases k with
  | unlock k' => exact absurd rfl (hk k')
  | resume l => cases l <;> simp [bodyStep]
  | notifyWriter =>
    simp only [bodyStep]
    split <;> simp
  | notifyReader =>
    simp only [bodyStep]
    split <;> simp
  | _ => simp [bodyStep]

omit [DecidableEq C] in
theorem Inv.congr_mutex (h : Inv s w r) {m : Mutex.State C} (hm : ∃ l, Mutex.Stands m l)
    (ha : ∀ c, Agree (m.pc c) (s.pc c)) : Inv { s with mutex := m } w r :=
  ⟨hm, ha, h.entry, h.noNotifyReader, h.count.congr rfl rfl, h.lists.congr rfl rfl rfl,
    h.waits.congr rfl rfl⟩

/-- `mutex_.lock()` completes. -/
theorem Inv.locked (h : Inv s w r) (hc : s.pc c = .locking k) (ho : s.mutex.pc c = .owner) :
    Inv (setPc s c (.body k)) w r := by
  have hagree := h.agree
  have hentry := h.entry
  have hnn := h.noNotifyReader
  have hk := hentry c k hc
  have hw := h.count.writes c
  rw [hc] at hw
  refine ⟨h.stands, ?_, ?_, ?_, ?_, ?_, ?_⟩
  · intro x
    by_cases hx : x = c
    · simpa [hx, Agree] using ho
    · simpa [hx] using hagree x
  · grind
  · grind
  · apply h.count.move hc
    · rcases hk with ⟨g, rfl⟩ | rfl | rfl
      · cases g <;> simp [Pc.Flags]
      · simp [Pc.Flags]
      · simp [Pc.Flags]
    · rcases hk with ⟨g, rfl⟩ | rfl | rfl <;> simp [Pc.Reads]
    · rcases hk with ⟨g, rfl⟩ | rfl | rfl
      · simp [Pc.Writes]
      · exact fun _ => hw trivial
      · simp [Pc.Writes]
    · rcases hk with ⟨g, rfl⟩ | rfl | rfl <;> simp
    · rcases hk with ⟨g, rfl⟩ | rfl | rfl <;> simp
  · apply h.lists.move hc
    · rcases hk with ⟨g, rfl⟩ | rfl | rfl <;> simp [Linked]
    · rcases hk with ⟨g, rfl⟩ | rfl | rfl <;> simp
    · simp
  · apply h.waits.move hc
    · rcases hk with ⟨g, rfl⟩ | rfl | rfl <;> simp [Linked]
    · rcases hk with ⟨g, rfl⟩ | rfl | rfl <;> simp
    · intro g hN
      cases g <;> exact hN.elim

/-- `mutex_.lock()` is called from outside `mutex_`. -/
theorem Inv.lockMutex (h : Inv s w r) (hc : s.pc c = q) (hq : ∀ k, q ≠ .body k)
    (hq' : ∀ k, q ≠ .locking k) (ho : outside s c = true) {k : Body C}
    (he : (∃ g, k = .test g) ∨ k = .clear ∨ k = .sub)
    (hF : (Pc.locking k).Flags ↔ q.Flags) (hR : (Pc.locking k).Reads ↔ q.Reads)
    (hW : (Pc.locking k).Writes → r = ∅) (hL : ∀ g, ¬ Linked g q) :
    Inv (SharedMutex.lockMutex s c k) w r := by
  have hidle : s.mutex.pc c = .idle := by
    have ha := h.agree c
    rw [hc] at ha
    cases hp : s.mutex.pc c <;> simp only [outside, hp, Bool.false_eq_true] at ho
    · rfl
    · cases q <;> simp_all [Agree, Mutex.Pc.Unlocking]
  obtain ⟨l, hl⟩ := h.stands
  have hs : Mutex.step s.mutex (.lock c) = some (Mutex.setPc s.mutex c .lockLoad) := by
    simp [Mutex.step, hidle]
  obtain ⟨-, l', -, hl'⟩ := Mutex.stands_step _ _ _ l hl hs (by rintro _ _ _ ⟨⟩)
  have hcount := (h.count.congr rfl rfl : Count { s with mutex := Mutex.setPc s.mutex c .lockLoad } w r)
  have hlists := (h.lists.congr rfl rfl rfl : Lists { s with mutex := Mutex.setPc s.mutex c .lockLoad })
  have hwaits := (h.waits.congr rfl rfl : Waits { s with mutex := Mutex.setPc s.mutex c .lockLoad })
  have hagree := h.agree
  have hentry := h.entry
  have hnn := h.noNotifyReader
  have hlin : ∀ g, Linked g (Pc.locking k) ↔ Linked g q := fun g =>
    iff_of_false (by simp [Linked]) (hL g)
  refine ⟨⟨l', hl'⟩, ?_, ?_, ?_, ?_, ?_, ?_⟩
  · intro x
    by_cases hx : x = c
    · simp [SharedMutex.lockMutex, hx, Agree, Mutex.Pc.Locking]
    · simpa [SharedMutex.lockMutex, hx] using hagree x
  · grind [SharedMutex.lockMutex]
  · grind [SharedMutex.lockMutex]
  · exact hcount.move hc hF hR hW (by simp) (by simp)
  · exact hlists.move hc hlin (by simp) fun l hl => absurd hl (hq _)
  · refine hwaits.move hc (fun g => (hlin g).1) (by simp) ?_
    intro g hN
    unfold Notifies at hN
    split at hN
    all_goals first | exact absurd rfl (hq _) | exact hN.elim

/-- `c` goes on within `mutex_`. -/
theorem Inv.inner (h : Inv s w r) {b : Bool} {m : Mutex.State C}
    (hs : Mutex.step s.mutex (.step c b) = some m) : Inv { s with mutex := m } w r := by
  obtain ⟨l, hl⟩ := h.stands
  obtain ⟨h1, h2, h3⟩ := hl.step_pc hs
  have hnt : ∀ x, s.mutex.pc c ≠ .tryCas x := by
    intro x hx
    have ha := h.agree c
    rw [hx] at ha
    cases hp : s.pc c <;> simp [hp, Agree, Mutex.Pc.Locking, Mutex.Pc.Unlocking] at ha
  obtain ⟨-, l', -, hl'⟩ := Mutex.stands_step _ _ _ l hl hs fun c' b' x he hx => by
    cases he
    exact absurd hx (hnt x)
  refine h.congr_mutex ⟨l', hl'⟩ ?_
  intro x
  have ha := h.agree x
  by_cases hx : x = c
  · subst hx
    cases hp : s.pc x with
    | locking k =>
      rw [hp] at ha
      exact h1 ha
    | body k =>
      rw [hp] at ha
      rw [show s.mutex.pc x = .owner from ha] at h1
      have ho : s.mutex.pc x = .owner := ha
      simp [Mutex.step, ho] at hs
    | _ =>
      rw [hp] at ha
      exact h2 ha
  · rcases h3 x hx with he | ⟨he, d, hd⟩
    · rwa [he]
    · rw [he] at ha
      rw [hd]
      cases hp : s.pc x <;> simp_all [Agree, Mutex.Pc.Locking, Mutex.Pc.Unlocking]

/-- The owner calls `mutex_.unlock()`. -/
theorem Inv.stands_unlock (h : Inv s w r) (hc : s.pc c = .body k) :
    ∃ l, Mutex.Stands (Mutex.setPc s.mutex c .unlockAssert) l := by
  obtain ⟨l, hl⟩ := h.stands
  have ho : s.mutex.pc c = .owner := by
    have := h.agree c
    rwa [hc] at this
  have hs : Mutex.step s.mutex (.unlock c) = some (Mutex.setPc s.mutex c .unlockAssert) := by
    simp [Mutex.step, ho]
  obtain ⟨-, l', -, hl'⟩ := Mutex.stands_step _ _ _ l hl hs (by rintro _ _ _ ⟨⟩)
  exact ⟨l', hl'⟩

/-- One step with `mutex_` held. -/
theorem Inv.body (h : Inv s w r) (hc : s.pc c = .body k)
    (hok : k = .sub → s.state ≠ readerMask) :
    Inv (bodyStep s c k) (flagAfter w k) (readersAfter r c k) := by
  have ha := h.alone hc
  have hagree := h.agree
  have hself : (∃ k', k = .unlock k' ∧ (bodyStep s c k).pc c = k'.pc) ∨
      (∃ k', (bodyStep s c k).pc c = .body k' ∧ k' ≠ .notifyReader) := by
    by_cases hk : ∃ k', k = .unlock k'
    · obtain ⟨k', rfl⟩ := hk
      exact Or.inl ⟨k', rfl, by simp [bodyStep, unlockMutex]⟩
    · obtain ⟨k', hk', -, hn⟩ := bodyStep_pc_self (s := s) (c := c) fun k' he => hk ⟨k', he⟩
      exact Or.inr ⟨k', hk', fun he => hok (hn he).1 (hn he).2⟩
  refine ⟨?_, ?_, ?_, ?_, h.count_bodyStep hc ha, h.lists_bodyStep hc ha, h.waits_bodyStep hc ha hok⟩
  · by_cases hk : ∃ k', k = .unlock k'
    · obtain ⟨k', rfl⟩ := hk
      exact h.stands_unlock hc
    · rw [bodyStep_mutex fun k' he => hk ⟨k', he⟩]
      exact h.stands
  · intro x
    by_cases hk : ∃ k', k = .unlock k'
    · obtain ⟨k', rfl⟩ := hk
      by_cases hx : x = c
      · subst hx
        cases k' <;> simp [bodyStep, unlockMutex, After.pc, Agree, Mutex.Pc.Unlocking]
      · simpa [bodyStep, unlockMutex, hx] using hagree x
    · rw [bodyStep_mutex fun k' he => hk ⟨k', he⟩]
      by_cases hx : x = c
      · subst hx
        have ho := hagree x
        rw [hc] at ho
        obtain ⟨k', rfl, -⟩ | ⟨k', hk', -⟩ := hself
        · exact absurd ⟨k', rfl⟩ hk
        · rw [hk']
          exact ho
      · have hax := hagree x
        rcases bodyStep_pc_ne (s := s) (k := k) hx with he | ⟨g, hg, he⟩
        · rwa [he]
        · rw [hg] at hax
          rw [he]
          exact hax
  · intro x k' hx
    by_cases hxc : x = c
    · subst hxc
      obtain ⟨k'', rfl, hk⟩ | ⟨k'', hk, -⟩ := hself
      · rw [hk] at hx
        cases k'' <;> cases hx
      · rw [hk] at hx
        cases hx
    · rcases bodyStep_pc_ne (s := s) (k := k) hxc with he | ⟨g, hg, he⟩
      · exact h.entry x k' (he ▸ hx)
      · rw [he] at hx
        cases hx
  · intro x hx
    by_cases hxc : x = c
    · subst hxc
      obtain ⟨k'', rfl, hk⟩ | ⟨k'', hk, hn⟩ := hself
      · rw [hk] at hx
        cases k'' <;> cases hx
      · rw [hk] at hx
        exact hn (Pc.body.inj hx)
    · rcases bodyStep_pc_ne (s := s) (k := k) hxc with he | ⟨g, hg, he⟩
      · exact h.noNotifyReader x (he ▸ hx)
      · rw [he] at hx
        cases hx

omit [DecidableEq C] in
/-- A reader does not leave while the count of readers is at its maximum. -/
def Roomy (s : State C) (a : Act C) : Prop :=
  ∀ c b, a = .step c b → outside s c → s.pc c = .body .sub → s.state ≠ readerMask

/-- **Step lemma.**  Every step but the second unlock of `lock_shared` keeps the
invariant, also those of readers that hold the lock. -/
theorem Inv.step (h : Inv s w r) {a : Act C} {t : State C} (hs : SharedMutex.step s a = some t)
    (hok : NoGuard s a t) (hroom : Roomy s a) : ∃ w' r', Inv t w' r' := by
  cases a with
  | lock c =>
    simp only [SharedMutex.step] at hs
    split at hs
    · next hc =>
      cases hs
      refine ⟨w, r, h.lockMutex hc.1 ?_ ?_ hc.2 (Or.inl ⟨_, rfl⟩) ?_ ?_ ?_ ?_⟩ <;>
        simp [Pc.Flags, Pc.Reads, Pc.Writes, Linked]
    · cases hs
  | unlock c =>
    simp only [SharedMutex.step] at hs
    split at hs
    · next hc =>
      cases hs
      have hw : r = ∅ := h.count.writes c (by rw [hc.1]; trivial)
      refine ⟨w, r, h.lockMutex hc.1 ?_ ?_ hc.2 (Or.inr (Or.inl rfl)) ?_ ?_ ?_ ?_⟩ <;>
        simp [Pc.Flags, Pc.Reads, Pc.Writes, Linked, hw]
    · cases hs
  | lockShared c =>
    simp only [SharedMutex.step] at hs
    split at hs
    · next hc =>
      cases hs
      refine ⟨w, r, h.lockMutex hc.1 ?_ ?_ hc.2 (Or.inl ⟨_, rfl⟩) ?_ ?_ ?_ ?_⟩ <;>
        simp [Pc.Flags, Pc.Reads, Pc.Writes, Linked]
    · cases hs
  | unlockShared c =>
    simp only [SharedMutex.step] at hs
    split at hs
    · next hc =>
      cases hs
      refine ⟨w, r, h.lockMutex hc.1 ?_ ?_ hc.2 (Or.inr (Or.inr rfl)) ?_ ?_ ?_ ?_⟩ <;>
        simp [Pc.Flags, Pc.Reads, Pc.Writes, Linked]
    · cases hs
  | step c b =>
    simp only [SharedMutex.step] at hs
    split at hs
    · next ho =>
      cases hpc : s.pc c <;> simp only [hpc, reduceCtorEq] at hs
      case locking k =>
        split at hs
        · next hown =>
          cases hs
          exact ⟨w, r, h.locked hpc hown⟩
        · cases hs
      case body k =>
        cases hs
        exact ⟨_, _, h.body hpc fun hk => hroom c b rfl ho (hk ▸ hpc)⟩
      case woken g =>
        cases hs
        refine ⟨w, r, h.lockMutex hpc ?_ ?_ ho (Or.inl ⟨_, rfl⟩) ?_ ?_ ?_ ?_⟩ <;>
          cases g <;> simp [Pc.Flags, Pc.Reads, Pc.Writes, Linked]
      case guard => exact absurd hpc (hok c b rfl ho)
    · next ho =>
      obtain ⟨m, hm, rfl⟩ := Option.map_eq_some_iff.1 hs
      exact ⟨w, r, h.inner hm⟩

/-- From `init` no reader gets as far as `unlock_shared`. -/
def NoReader (s : State C) : Prop :=
  ∀ c, s.pc c ≠ .readHeld ∧ s.pc c ≠ .locking .sub ∧ s.pc c ≠ .body .sub

theorem NoReader.step (h : NoReader s) {a : Act C} {t : State C}
    (hs : SharedMutex.step s a = some t) (hok : NoGuard s a t) : NoReader t := by
  -- one coroutine moves to a place that is none of these, others are left or woken
  have key : ∀ c (u : State C), u.pc c ≠ .readHeld ∧ u.pc c ≠ .locking .sub ∧ u.pc c ≠ .body .sub →
      (∀ x, x ≠ c → u.pc x = s.pc x ∨ ∃ g, s.pc x = .parked g ∧ u.pc x = .woken g) →
      NoReader u := by
    intro c u hc hu x
    by_cases hx : x = c
    · exact hx ▸ hc
    · rcases hu x hx with he | ⟨g, -, he⟩
      · rw [he]
        exact h x
      · simp [he]
  have lock : ∀ c k, k ≠ .sub → NoReader (SharedMutex.lockMutex s c k) := fun c k hk =>
    key c _ (by simp [SharedMutex.lockMutex, hk]) fun x hx => by simp [SharedMutex.lockMutex, hx]
  cases a with
  | lock c =>
    simp only [SharedMutex.step] at hs
    split at hs <;> cases hs
    exact lock c _ (by simp)
  | unlock c =>
    simp only [SharedMutex.step] at hs
    split at hs <;> cases hs
    exact lock c _ (by simp)
  | lockShared c =>
    simp only [SharedMutex.step] at hs
    split at hs <;> cases hs
    exact lock c _ (by simp)
  | unlockShared c =>
    simp only [SharedMutex.step] at hs
    split at hs
    · next hc => exact absurd hc.1 (h c).1
    · cases hs
  | step c b =>
    simp only [SharedMutex.step] at hs
    split at hs
    · next ho =>
      cases hpc : s.pc c <;> simp only [hpc, reduceCtorEq] at hs
      case locking k =>
        split at hs <;> cases hs
        have hk : k ≠ .sub := fun he => (h c).2.1 (he ▸ hpc)
        exact key c _ (by simp [hk]) fun x hx => by simp [hx]
      case body k =>
        cases hs
        refine key c _ ?_ fun x hx => bodyStep_pc_ne hx
        by_cases hk : ∃ k', k = .unlock k'
        · obtain ⟨k', rfl⟩ := hk
          cases k' <;> simp [bodyStep, unlockMutex, After.pc]
        · obtain ⟨k', hk', hn, -⟩ := bodyStep_pc_self (s := s) (c := c) fun k' he => hk ⟨k', he⟩
          simp [hk', hn]
      case woken g =>
        cases hs
        exact lock c _ (by simp)
      case guard => exact absurd hpc (hok c b rfl ho)
    · obtain ⟨m, -, rfl⟩ := Option.map_eq_some_iff.1 hs
      exact h

omit [DecidableEq C] in
/-- Who is waiting while its condition holds is being notified. -/
theorem Inv.notified (h : Inv s w r) {g : Wait} (hc : s.pc c = .parked g)
    (hp : g.predicate s.state = true) : Notified s c := by
  have hl : Linked g (s.pc c) := Or.inl hc
  obtain ⟨d, hd⟩ := (h.waits.linked c g hl).resolve_left (by simp [hp])
  have all : ∀ k, s.pc d = .body k → (∀ l, k ≠ .resume l) → g ≠ .drain → c ∈ s.cond := by
    intro k hk hn hg
    refine (h.lists.cond_of_alone hk hn (h.alone hk) c).1 ?_
    cases g with
    | writer => exact Or.inl hl
    | reader => exact Or.inr hl
    | drain => exact absurd rfl hg
  have some_ : ∀ l, s.pc d = .body (.resume l) → g ≠ .drain → c ∈ l := by
    intro l hk hg
    have hm : c ∈ s.cond ∨ ∃ d l, s.pc d = .body (.resume l) ∧ c ∈ l := by
      refine (h.lists.cond c).1 ?_
      cases g with
      | writer => exact Or.inl hl
      | reader => exact Or.inr hl
      | drain => exact absurd rfl hg
    rw [(h.lists.resume d l hk).1] at hm
    obtain ⟨e, l', he, hm⟩ := hm.resolve_left (by simp)
    have hed := h.alone hk e _ he
    subst hed
    rw [hk] at he
    cases he
    exact hm
  refine ⟨d, ?_⟩
  unfold Notifies at hd
  split at hd
  · next hk =>
    have hm := (h.lists.writerCond c).1 hl
    refine Or.inr (Or.inr (Or.inl ⟨hk, ?_⟩))
    cases hw : s.writerCond with
    | nil =>
      rw [hw] at hm
      cases hm
    | cons a l =>
      have ha : Linked .drain (s.pc a) := (h.lists.writerCond a).2 (hw ▸ List.mem_cons_self)
      rw [h.count.oneFlag c a hl.flags ha.flags]
      rfl
  · next hk => exact Or.inl ⟨hk, all _ hk (by simp) (by simp)⟩
  · next l hk => exact Or.inr (Or.inl ⟨l, hk, some_ l hk (by simp)⟩)
  · next hk => exact Or.inl ⟨hk, all _ hk (by simp) (by simp)⟩
  · next l hk => exact Or.inr (Or.inl ⟨l, hk, some_ l hk (by simp)⟩)
  · exact hd.elim

omit [DecidableEq C] in
/-- What the invariant says, in the terms of the promise. -/
theorem Inv.sound (h : Inv s w r) {a : Act C} {s₀ : State C} (h₀ : ∃ w r, Inv s₀ w r)
    (hok : NoGuard s₀ a s) : Sound s₀ a s := by
  constructor
  · intro c b ha hout hu
    obtain ⟨w₀, r₀, h₀⟩ := h₀
    rcases hu with hg | ⟨k, hk⟩
    · exact absurd hg (hok c b ha hout)
    · have := h₀.agree c
      rwa [hk] at this
  · intro c
    obtain ⟨l, hl⟩ := h.stands
    refine ⟨hl.asserts c, fun hc => ?_⟩
    have hw : w = true := h.count.flags c (by rw [hc]; trivial)
    have hr : r = ∅ := h.count.writes c (by rw [hc]; trivial)
    apply BitVec.eq_of_toNat_eq
    rw [h.count.word, hw, hr, writerFlag_toNat]
    simp
  · intro c d hc hdc
    have hr := h.count.writes c hc
    refine ⟨fun hd => hdc (h.count.oneFlag d c hd.flags hc.flags), fun hd => ?_⟩
    have := (h.count.reads d).2 hd
    simp [hr] at this
  · refine ⟨r, h.count.reads, fun ⟨c, hc⟩ => ?_, fun hno => ?_⟩
    · rw [h.count.word, h.count.flags c hc, if_pos rfl]
    · have hw : w = false := by
        by_contra hw
        obtain ⟨c, hc⟩ := h.count.flag (by simpa using hw)
        exact hno c hc
      rw [h.count.word, hw]
      simp
  · exact fun c g hc hp => h.notified hc hp

omit [DecidableEq C] in
/-- The second unlock of `lock_shared` is not the owner's. -/
theorem Inv.noGuard {a : Act C} {t : State C} (h : Inv s w r) (hx : Sound s a t) :
    NoGuard s a t := by
  intro c b ha hout hc
  have ho := hx.owner c b ha hout (Or.inl hc)
  have := h.agree c
  rw [hc, ho] at this
  exact this

/-! ## Top theorems -/

theorem inv_step (s : State C) (a : Act C) (t : State C) (h : (∃ w r, Inv s w r) ∧ NoReader s)
    (hs : step s a = some t) (hok : NoGuard s a t) : (∃ w r, Inv t w r) ∧ NoReader t := by
  obtain ⟨⟨w, r, h⟩, hn⟩ := h
  exact ⟨h.step hs hok fun c _ _ _ hc => absurd hc (hn c).2.2, hn.step hs hok⟩

/-- A lock that the coroutines of `r` hold as readers. -/
def initWith (r : Finset C) : State C :=
  { (init : State C) with
    state := BitVec.ofNat 64 r.card
    pc := fun c => if c ∈ r then .readHeld else .idle }

theorem inv_initWith (hr : r.card < 2 ^ 63) : Inv (initWith r) false r := by
  have hpc : ∀ c, c ∈ r ∧ (initWith r).pc c = .readHeld ∨ c ∉ r ∧ (initWith r).pc c = .idle := by
    intro c
    by_cases hc : c ∈ r <;> simp [initWith, hc]
  have hbody : ∀ c k, (initWith r).pc c ≠ .body k := by
    grind
  have hlinked : ∀ c g, ¬ Linked g ((initWith r).pc c) := by
    intro c g
    rcases hpc c with ⟨-, hc⟩ | ⟨-, hc⟩ <;> simp [hc, Linked]
  have hflags : ∀ c, ¬ ((initWith r).pc c).Flags := by
    intro c
    rcases hpc c with ⟨-, hc⟩ | ⟨-, hc⟩ <;> simp [hc, Pc.Flags]
  refine ⟨⟨[], Mutex.stands_init⟩, ?_, ?_, fun c => hbody c _, ?_, ?_, ?_⟩
  · intro c
    rcases hpc c with ⟨-, hc⟩ | ⟨-, hc⟩ <;> rw [hc] <;> trivial
  · intro c k hk
    rcases hpc c with ⟨-, hc⟩ | ⟨-, hc⟩ <;> rw [hc] at hk <;> cases hk
  · refine ⟨?_, hr, fun c hc => absurd hc (hflags c), fun c _ hc => absurd hc (hflags c), nofun, ?_,
      fun c hc => absurd hc.flags (hflags c), fun c hc => absurd hc (hbody c _),
      fun c hc => absurd hc (hbody c _)⟩
    · show (BitVec.ofNat 64 r.card).toNat = 0 + r.card
      rw [BitVec.toNat_ofNat, Nat.mod_eq_of_lt (by omega), Nat.zero_add]
    · intro c
      rcases hpc c with ⟨hm, hc⟩ | ⟨hm, hc⟩ <;> simp [hc, hm, Pc.Reads]
  · refine ⟨fun c => iff_of_false ?_ ?_, List.nodup_nil, fun c l hc => absurd hc (hbody c _),
      fun c => iff_of_false (hlinked c _) (List.not_mem_nil), List.nodup_nil⟩
    · exact fun h => h.elim (hlinked c _) (hlinked c _)
    · rintro (h | ⟨d, l, hd, -⟩)
      · cases h
      · exact hbody d _ hd
  · exact ⟨fun c g hc => absurd hc (hbody c _), fun c g hc => absurd hc (hlinked c g)⟩

/-- With readers holding the lock from the start, every run keeps every promise
that has no second unlock and no reader leaving at the maximal count. -/
theorem sound_with_readers (hr : r.card < 2 ^ 63) (as : List (Act C))
    (hok : EachStep step (fun s a t => NoGuard s a t ∧ Roomy s a) (initWith r) as) :
    EachStep step Sound (initWith r) as :=
  eachStep_of_inv (fun s => ∃ w r, Inv s w r)
    (fun _ _ _ ⟨_, _, h⟩ hs hok => h.step hs hok.1 hok.2)
    (fun _ _ _ ⟨w, r, h⟩ hs hok =>
      have ⟨_, _, h'⟩ := h.step hs hok.1 hok.2
      h'.sound ⟨w, r, h⟩ hok.1)
    ⟨false, r, inv_initWith hr⟩ hok

/-- **Readers and writers.**  For any number of coroutines, the runs that keep
every promise are exactly those in which no `lock_shared` gets to the unlock of
its guard. -/
theorem sound_iff (as : List (Act C)) :
    EachStep step Sound init as ↔ EachStep step NoGuard init as := by
  refine eachStep_iff (fun s => (∃ w r, Inv s w r) ∧ NoReader s) inv_step ?_
    ⟨⟨false, ∅, inv_init⟩, by simp [NoReader, init]⟩
  intro s a t h hs
  obtain ⟨w, r, hi⟩ := h.1
  constructor
  · exact fun hx => hi.noGuard hx
  · intro hok
    obtain ⟨⟨w', r', hi'⟩, -⟩ := inv_step s a t h hs hok
    exact hi'.sound ⟨w, r, hi⟩ hok

end

/-- `lock_shared` alone: it takes `mutex_`, counts itself, unlocks, and unlocks
again while nobody owns `mutex_`. -/
def sharedRun : List (Act Unit) :=
  .lockShared () :: List.replicate 11 (.step () false)

theorem unlocked_twice : ¬ EachStep step Sound init sharedRun ∧
    ∃ s, run step init (sharedRun.take 11) = some s ∧ Unlocks s () ∧
      s.mutex.state = .unlocked := by
  refine ⟨fun h => ?_, _, rfl, Or.inl rfl, rfl⟩
  unfold sharedRun at h
  obtain ⟨-, h⟩ := h _ rfl
  iterate 10 obtain ⟨-, h⟩ := h _ rfl
  obtain ⟨h, -⟩ := h _ rfl
  exact absurd (h.owner () false rfl rfl (Or.inl rfl)) (by decide)

end Kosio.SharedMutex
