import Kosio.Sync.Channel

/-!
# `Channel`: closing while others send and receive

`destroy` does not take `mutex_`.  Here a critical section is split into its
steps (test for a peer, pop the peer, schedule it, test the buffer, test
`is_closed_`, park) and so is `destroy` (exchange `is_closed_`, walk over the
senders, walk over the receivers, clear both lists).  Calls are named by
`c : C`, and one critical section runs at a time.

The walk holds an iterator: it stands on a node, schedules it and moves to the
next one.  A call that parks once the walk over its list is over is cleared
without having been scheduled (`receiver_left_behind`); one that is popped once
the walk has begun is scheduled twice.  Without the two, every parked call is
scheduled exactly once and closing leaves the lists empty (`nobody_left`).
-/

namespace Kosio.ChannelClose

open Steps

/-! ## Algorithm -/

inductive Pc (C V : Type) where
  | idle
  /-- `send`: about to test `waiting_receivers_` -/
  | sendTest (value : V)
  | sendPop (value : V)
  /-- about to schedule the popped receiver -/
  | sendSchedule (receiver : C)
  | sendFill (value : V)
  | sendClosed (value : V)
  | sendPark (value : V)
  /-- `recv`: about to test `waiting_senders_` -/
  | recvTest
  | recvPop
  /-- about to schedule the popped sender -/
  | recvSchedule (sender : C)
  | recvEmpty
  | recvClosed
  | recvPark
  | parked
  | returned

/-- A walk over a list. -/
inductive Walk (C : Type) where
  | begin
  /-- the iterator stands on a node that is about to be scheduled -/
  | on (node : C)
  /-- the node has been scheduled -/
  | next (node : C)

/-- Where `destroy` is. -/
inductive Phase (C : Type) where
  | open
  | senders (w : Walk C)
  | receivers (w : Walk C)
  | clearSenders
  | clearReceivers
  | done

structure State (C V : Type) where
  buf : HeapRingBuffer V
  waitingSenders : List C
  waitingReceivers : List C
  isClosed : Bool
  numSenders : Nat
  numReceivers : Nat
  /-- `sub_sender`s and `sub_receiver`s that are about to call `destroy` -/
  destroying : Nat
  phase : Phase C
  /-- who has `mutex_` -/
  holder : Option C
  pc : C → Pc C V
  /-- how often the call has been scheduled -/
  scheduled : C → Nat

variable {C V : Type}

def init [Inhabited V] (numSenders numReceivers cap : Nat) : State C V :=
  ⟨.make cap, [], [], false, numSenders, numReceivers, 0, .open, none, fun _ => .idle, fun _ => 0⟩

inductive Act (C V : Type) where
  /-- `c` takes `mutex_` to send -/
  | send (c : C) (value : V)
  | recv (c : C)
  /-- one step of the critical section of `c` -/
  | step (c : C)
  | addSender
  | subSender
  | addReceiver
  | subReceiver
  /-- one that is about to call `destroy` exchanges `is_closed_` -/
  | exchange
  /-- one step of `destroy` -/
  | destroy

/-- `fetch_sub(1) == 1`. -/
def drop (n destroying : Nat) : Nat := if n = 1 then destroying + 1 else destroying

section

variable [DecidableEq C]

def setPc (s : State C V) (c : C) (p : Pc C V) : State C V :=
  { s with pc := Function.update s.pc c p }

/-- The critical section ends. -/
def leave (s : State C V) (c : C) (p : Pc C V) : State C V :=
  { setPc s c p with holder := none }

/-- `schedule_local(c->handle_)`. -/
def schedule (s : State C V) (c : C) : State C V :=
  { s with scheduled := Function.update s.scheduled c (s.scheduled c + 1) }

/-- One step of a critical section. -/
def stepCs (s : State C V) (c : C) : Option (State C V) :=
  match s.pc c with
  | .sendTest v =>
    some (setPc s c (if s.waitingReceivers.isEmpty then .sendFill v else .sendPop v))
  | .sendPop _ =>
    match s.waitingReceivers with
    | r :: rest => some (setPc { s with waitingReceivers := rest } c (.sendSchedule r))
    | [] => none
  | .sendSchedule r => some (leave (schedule s r) c .returned)
  | .sendFill v =>
    match s.buf.isFill with
    | none => none
    | some true => some (setPc s c (.sendClosed v))
    | some false => (s.buf.safetyPush v).map fun buf => leave { s with buf } c .returned
  | .sendClosed v => some (if s.isClosed then leave s c .returned else setPc s c (.sendPark v))
  | .sendPark _ => some (leave { s with waitingSenders := s.waitingSenders ++ [c] } c .parked)
  | .recvTest =>
    some (setPc s c (if s.waitingSenders.isEmpty then .recvEmpty else .recvPop))
  | .recvPop =>
    match s.waitingSenders with
    | w :: rest => some (setPc { s with waitingSenders := rest } c (.recvSchedule w))
    | [] => none
  | .recvSchedule w => some (leave (schedule s w) c .returned)
  | .recvEmpty =>
    if s.buf.isEmpty then some (setPc s c .recvClosed)
    else s.buf.safetyPop.map fun p => leave { s with buf := p.2 } c .returned
  | .recvClosed => some (if s.isClosed then leave s c .returned else setPc s c .recvPark)
  | .recvPark => some (leave { s with waitingReceivers := s.waitingReceivers ++ [c] } c .parked)
  | _ => none

/-- The node after `x`; `none` when `x` is no longer on the list. -/
def after (l : List C) (x : C) : Option (Option C) :=
  match l with
  | [] => none
  | y :: l => if y = x then some l.head? else after l x

/-- One step of a walk over `l`; `finish` is where `destroy` goes on at the end. -/
def walkStep (s : State C V) (l : List C) (phase : Walk C → Phase C) (finish : Phase C) :
    Walk C → Option (State C V)
  | .begin =>
    match l with
    | [] => some { s with phase := finish }
    | x :: _ => some { s with phase := phase (.on x) }
  | .on x => some { schedule s x with phase := phase (.next x) }
  | .next x =>
    (after l x).map fun
      | none => { s with phase := finish }
      | some y => { s with phase := phase (.on y) }

def stepDestroy (s : State C V) : Option (State C V) :=
  match s.phase with
  | .senders w => walkStep s s.waitingSenders .senders (.receivers .begin) w
  | .receivers w => walkStep s s.waitingReceivers .receivers .clearSenders w
  | .clearSenders => some { s with waitingSenders := [], phase := .clearReceivers }
  | .clearReceivers => some { s with waitingReceivers := [], phase := .done }
  | .open => none
  | .done => none

def step (s : State C V) : Act C V → Option (State C V)
  | .send c v =>
    match s.pc c, s.holder with
    | .idle, none => some { setPc s c (.sendTest v) with holder := some c }
    | _, _ => none
  | .recv c =>
    match s.pc c, s.holder with
    | .idle, none => some { setPc s c .recvTest with holder := some c }
    | _, _ => none
  | .step c => stepCs s c
  | .addSender => some { s with numSenders := s.numSenders + 1 }
  | .subSender =>
    if s.numSenders = 0 then none
    else some { s with
      numSenders := s.numSenders - 1
      destroying := drop s.numSenders s.destroying }
  | .addReceiver => some { s with numReceivers := s.numReceivers + 1 }
  | .subReceiver =>
    if s.numReceivers = 0 then none
    else some { s with
      numReceivers := s.numReceivers - 1
      destroying := drop s.numReceivers s.destroying }
  | .exchange =>
    if s.destroying = 0 then none
    else if s.isClosed then some { s with destroying := s.destroying - 1 }
    else some { s with
      destroying := s.destroying - 1, isClosed := true, phase := .senders .begin }
  | .destroy => stepDestroy s

end

/-! ## What is promised -/

/-- Nobody is scheduled twice; between operations who is parked is waiting on a
list or has been scheduled; and after closing the lists are empty. -/
structure Served (s : State C V) : Prop where
  once : ∀ c, s.scheduled c ≤ 1
  parked : s.holder = none → ∀ c, s.pc c = .parked →
    s.scheduled c = 1 ∨ c ∈ s.waitingSenders ∨ c ∈ s.waitingReceivers
  closed : s.isClosed = true → s.holder = none → s.phase = .done →
    s.waitingSenders = [] ∧ s.waitingReceivers = [] ∧ ∀ c, s.pc c = .parked → s.scheduled c = 1

/-- How far `destroy` has got with a list. -/
inductive Stage (C : Type) where
  | untouched
  | on (node : C)
  | next (node : C)
  | walked
  | cleared

def Walk.stage : Walk C → Stage C
  | .begin => .untouched
  | .on x => .on x
  | .next x => .next x

def Phase.senders_ : Phase C → Stage C
  | .open => .untouched
  | .senders w => w.stage
  | .receivers _ => .walked
  | .clearSenders => .walked
  | .clearReceivers => .cleared
  | .done => .cleared

def Phase.receivers_ : Phase C → Stage C
  | .open => .untouched
  | .senders _ => .untouched
  | .receivers w => w.stage
  | .clearSenders => .walked
  | .clearReceivers => .walked
  | .done => .cleared

/-- `destroy` still gets to what is pushed now. -/
def Stage.Ahead : Stage C → Prop
  | .walked => False
  | .cleared => False
  | _ => True

/-- Nobody parks on a list once the walk over it is over, and nobody is popped
off a list once the walk over it has begun. -/
structure InTime (s : State C V) (a : Act C V) (_ : State C V) : Prop where
  parkSender : ∀ c v, a = .step c → s.pc c = .sendPark v → s.phase.senders_.Ahead
  parkReceiver : ∀ c, a = .step c → s.pc c = .recvPark → s.phase.receivers_.Ahead
  popReceiver : ∀ c v, a = .step c → s.pc c = .sendPop v → s.phase.receivers_ = .untouched
  popSender : ∀ c, a = .step c → s.pc c = .recvPop → s.phase.senders_ = .untouched

/-! ## Invariant -/

/-- Which nodes of a list have been scheduled. -/
def Stage.Good (scheduled : C → Nat) (l : List C) : Stage C → Prop
  | .untouched => ∀ c ∈ l, scheduled c = 0
  | .on x => ∃ pre post, l = pre ++ x :: post ∧ (∀ c ∈ pre, scheduled c = 1) ∧
      ∀ c ∈ x :: post, scheduled c = 0
  | .next x => ∃ pre post, l = pre ++ x :: post ∧ (∀ c ∈ pre ++ [x], scheduled c = 1) ∧
      ∀ c ∈ post, scheduled c = 0
  | .walked => ∀ c ∈ l, scheduled c = 1
  | .cleared => l = []

/-- `c` has popped `x` and is about to schedule it. -/
def Pops (s : State C V) (c x : C) : Prop :=
  s.pc c = .sendSchedule x ∨ s.pc c = .recvSchedule x

structure Inv (s : State C V) : Prop where
  senders : s.phase.senders_.Good s.scheduled s.waitingSenders
  receivers : s.phase.receivers_.Good s.scheduled s.waitingReceivers
  nodup : (s.waitingSenders ++ s.waitingReceivers).Nodup
  listed : ∀ c, c ∈ s.waitingSenders ∨ c ∈ s.waitingReceivers → s.pc c = .parked
  holder : ∀ c, s.holder ≠ some c → s.pc c = .idle ∨ s.pc c = .parked ∨ s.pc c = .returned
  once : ∀ c, s.scheduled c ≤ 1
  fresh : ∀ c, s.pc c ≠ .parked → s.scheduled c = 0
  popped : ∀ c x, Pops s c x → s.pc x = .parked ∧ s.scheduled x = 0 ∧
    x ∉ s.waitingSenders ∧ x ∉ s.waitingReceivers
  parked : ∀ c, s.pc c = .parked → s.scheduled c = 1 ∨ c ∈ s.waitingSenders ∨
    c ∈ s.waitingReceivers ∨ ∃ d, Pops s d c

theorem inv_init [Inhabited V] (n m cap : Nat) : Inv (init n m cap : State C V) := by
  constructor <;> simp [init, Phase.senders_, Phase.receivers_, Stage.Good, Pops]

theorem Inv.served {s : State C V} (h : Inv s) : Served s := by
  have hno : s.holder = none → ∀ c d, ¬ Pops s d c := by
    intro hh c d hp
    have := h.holder d (by simp [hh])
    rcases hp with hp | hp <;> simp [hp] at this
  refine ⟨h.once, ?_, ?_⟩
  · intro hh c hc
    have := h.parked c hc
    have := hno hh c
    grind
  · intro _ hh hd
    have h1 := h.senders
    have h2 := h.receivers
    rw [hd] at h1 h2
    have h1 : s.waitingSenders = [] := h1
    have h2 : s.waitingReceivers = [] := h2
    refine ⟨h1, h2, fun c hc => ?_⟩
    have := h.parked c hc
    have := hno hh c
    grind

/-! ## Lemmas -/

/-! ### A list under a walk -/

section Stage

variable {scheduled scheduled' : C → Nat} {l l' : List C} {g : Stage C} {x y : C}

/-- Only the nodes of the list count. -/
theorem Stage.Good.congr (h : g.Good scheduled l) (he : ∀ c ∈ l, scheduled' c = scheduled c) :
    g.Good scheduled' l := by
  cases g with
  | untouched => exact fun c hc => (he c hc).trans (h c hc)
  | on x =>
    obtain ⟨pre, post, rfl, h1, h2⟩ := h
    refine ⟨pre, post, rfl, fun c hc => ?_, fun c hc => ?_⟩
    · rw [he c (by simp [hc]), h1 c hc]
    · rw [he c (List.mem_append_right _ hc), h2 c hc]
  | next x =>
    obtain ⟨pre, post, rfl, h1, h2⟩ := h
    refine ⟨pre, post, rfl, fun c hc => ?_, fun c hc => ?_⟩
    · rw [he c (by simp only [List.mem_append, List.mem_cons] at hc ⊢; tauto),
        h1 c hc]
    · rw [he c (by simp [hc]), h2 c hc]
  | walked => exact fun c hc => (he c hc).trans (h c hc)
  | cleared => exact h

/-- What is pushed before the walk is over will be scheduled. -/
theorem Stage.Good.push (h : g.Good scheduled l) (hg : g.Ahead) (hx : scheduled x = 0) :
    g.Good scheduled (l ++ [x]) := by
  cases g with
  | untouched =>
    intro c hc
    rcases List.mem_append.1 hc with hc | hc
    · exact h c hc
    · rw [List.mem_singleton.1 hc, hx]
  | on y =>
    obtain ⟨pre, post, rfl, h1, h2⟩ := h
    refine ⟨pre, post ++ [x], by simp, h1, ?_⟩
    intro c hc
    rw [← List.cons_append, List.mem_append, List.mem_singleton] at hc
    rcases hc with hc | rfl
    · exact h2 c hc
    · exact hx
  | next y =>
    obtain ⟨pre, post, rfl, h1, h2⟩ := h
    refine ⟨pre, post ++ [x], by simp, h1, ?_⟩
    intro c hc
    rw [List.mem_append, List.mem_singleton] at hc
    rcases hc with hc | rfl
    · exact h2 c hc
    · exact hx
  | walked => exact hg.elim
  | cleared => exact hg.elim

theorem Stage.Good.begin (h : Stage.untouched.Good scheduled (x :: l)) :
    (Stage.on x).Good scheduled (x :: l) :=
  ⟨[], l, rfl, nofun, h⟩

theorem Stage.Good.mem_on (h : (Stage.on x).Good scheduled l) : x ∈ l ∧ scheduled x = 0 := by
  obtain ⟨pre, post, rfl, -, h2⟩ := h
  exact ⟨by simp, h2 x List.mem_cons_self⟩

/-- The iterator moves to the next node, or the walk is over. -/
theorem Stage.Good.advance [DecidableEq C] (h : (Stage.next x).Good scheduled l) (hnd : l.Nodup) :
    (after l x = some none ∧ Stage.walked.Good scheduled l) ∨
      ∃ y, after l x = some (some y) ∧ (Stage.on y).Good scheduled l := by
  obtain ⟨pre, post, rfl, h1, h2⟩ := h
  have hx : x ∉ pre := by
    rw [List.nodup_append] at hnd
    exact fun hm => hnd.2.2 x hm x List.mem_cons_self rfl
  have hafter : after (pre ++ x :: post) x = some post.head? := by
    clear h1 hnd
    induction pre with
    | nil => simp [after]
    | cons a pre ih =>
      rw [List.mem_cons, not_or] at hx
      rw [List.cons_append, after, if_neg (Ne.symm hx.1)]
      exact ih hx.2
  cases post with
  | nil =>
    refine Or.inl ⟨hafter, fun c hc => h1 c ?_⟩
    simpa using hc
  | cons y post =>
    refine Or.inr ⟨y, hafter, pre ++ [x], post, by simp, h1, h2⟩

variable [DecidableEq C]

/-- The node under the iterator is scheduled. -/
theorem Stage.Good.schedule (h : (Stage.on x).Good scheduled l) (hnd : l.Nodup) :
    (Stage.next x).Good (Function.update scheduled x (scheduled x + 1)) l := by
  obtain ⟨pre, post, rfl, h1, h2⟩ := h
  have hx : scheduled x = 0 := h2 x List.mem_cons_self
  rw [List.nodup_append, List.nodup_cons] at hnd
  refine ⟨pre, post, rfl, fun c hc => ?_, fun c hc => ?_⟩
  · rw [List.mem_append, List.mem_singleton] at hc
    rcases hc with hc | rfl
    · have hcx : c ≠ x := fun he => hnd.2.2 c hc x List.mem_cons_self he
      rw [Function.update_of_ne hcx, h1 c hc]
    · rw [Function.update_self, hx]
  · have hcx : c ≠ x := fun he => hnd.2.1.1 (he ▸ hc)
    rw [Function.update_of_ne hcx, h2 c (List.mem_cons_of_mem _ hc)]

end Stage

/-! ### The steps -/

section

variable [DecidableEq C] {s : State C V} {c x : C} {p : Pc C V}

@[simp, grind =] theorem setPc_pc (s : State C V) (c x : C) (p : Pc C V) :
    (setPc s c p).pc x = if x = c then p else s.pc x := by
  simp [setPc, Function.update_apply]

@[simp, grind =] theorem setPc_scheduled (s : State C V) (c : C) (p : Pc C V) :
    (setPc s c p).scheduled = s.scheduled := rfl

@[simp, grind =] theorem setPc_waitingSenders (s : State C V) (c : C) (p : Pc C V) :
    (setPc s c p).waitingSenders = s.waitingSenders := rfl

@[simp, grind =] theorem setPc_waitingReceivers (s : State C V) (c : C) (p : Pc C V) :
    (setPc s c p).waitingReceivers = s.waitingReceivers := rfl

/-- A step of the critical section of `c` that neither parks nor pops. -/
theorem Inv.move (h : Inv s) (hc : s.pc c ≠ .parked) (hpops : ∀ x, ¬ Pops s c x)
    (hh : s.holder = some c ∨ s.holder = none) (hp : p ≠ .parked)
    (hp1 : ∀ x, p ≠ .sendSchedule x ∧ p ≠ .recvSchedule x) {o : Option C} (b : HeapRingBuffer V)
    (ho : o = some c ∨ p = .returned) :
    Inv { setPc s c p with holder := o, buf := b } := by
  obtain ⟨senders, receivers, nodup, listed, holder, once, fresh, popped, parked⟩ := h
  have hP : ∀ d x, Pops { setPc s c p with holder := o, buf := b } d x ↔ Pops s d x := by
    intro d x
    unfold Pops at hpops ⊢
    by_cases hd : d = c
    · subst hd
      have := hpops x
      have := hp1 x
      simp_all
    · simp [hd]
  refine ⟨senders, receivers, nodup, ?_, ?_, once, ?_, ?_, ?_⟩
  · intro d hd
    have := listed d hd
    grind
  · grind
  · grind
  · intro d x hd
    have := popped d x ((hP d x).1 hd)
    grind
  · intro d hd
    have hd' : s.pc d = .parked := by grind
    simp only [hP]
    exact parked d hd'

/-- A receiver or a sender is popped. -/
theorem Inv.pop {s t : State C V} (h : Inv s) (hc : s.holder = some c) (hcp : s.pc c ≠ .parked)
    (hpops : ∀ x, ¬ Pops s c x) (hx : s.pc x = .parked) (hx0 : s.scheduled x = 0)
    (hpc : t.pc = (setPc s c p).pc) (hp : p = .sendSchedule x ∨ p = .recvSchedule x)
    (hsch : t.scheduled = s.scheduled) (hh : t.holder = s.holder)
    (hS : t.phase.senders_.Good t.scheduled t.waitingSenders)
    (hR : t.phase.receivers_.Good t.scheduled t.waitingReceivers)
    (hmem : ∀ y, y ∈ s.waitingSenders ∨ y ∈ s.waitingReceivers ↔
      y = x ∨ y ∈ t.waitingSenders ∨ y ∈ t.waitingReceivers)
    (hnd : (t.waitingSenders ++ t.waitingReceivers).Nodup)
    (hxt : x ∉ t.waitingSenders ∧ x ∉ t.waitingReceivers) : Inv t := by
  have hP : ∀ d y, Pops t d y ↔ Pops s d y ∨ d = c ∧ y = x := by
    intro d y
    unfold Pops at hpops ⊢
    rw [hpc]
    by_cases hd : d = c
    · subst hd
      have := hpops y
      rcases hp with rfl | rfl <;> simp_all [eq_comm]
    · simp [hd]
  obtain ⟨senders, receivers, nodup, listed, holder, once, fresh, popped, parked⟩ := h
  refine ⟨hS, hR, hnd, ?_, ?_, ?_, ?_, ?_, ?_⟩
  · intro y hy
    have := listed y ((hmem y).2 (Or.inr hy))
    rw [hpc]
    grind
  · intro d hd
    rw [hpc]
    grind
  · rw [hsch]
    exact once
  · intro d hd
    rw [hpc] at hd
    rw [hsch]
    grind
  · intro d y hd
    rw [hpc, hsch]
    rcases (hP d y).1 hd with hd | ⟨rfl, rfl⟩
    · have h1 := popped d y hd
      have h2 := hmem y
      grind
    · grind
  · intro d hd
    rw [hpc] at hd
    rw [hsch]
    have hd' : s.pc d = .parked := by grind
    simp only [hP]
    have h1 := parked d hd'
    have h2 := hmem d
    grind

/-- The popped peer is scheduled. -/
theorem Inv.handOver (h : Inv s) (hc : Pops s c x) : Inv (leave (schedule s x) c .returned) := by
  obtain ⟨hx, hx0, hxs, hxr⟩ := h.popped c x hc
  have hcp : s.pc c ≠ .parked := by rcases hc with hc | hc <;> simp [hc]
  have hxc : x ≠ c := fun he => hcp (he ▸ hx)
  have hhold : s.holder = some c := by
    by_contra hne
    have := h.holder c hne
    unfold Pops at hc
    grind
  have honly : ∀ d y, Pops s d y → d = c ∧ y = x := by
    intro d y hd
    have h1 := h.holder d
    unfold Pops at hc hd
    grind
  have hP : ∀ d y, ¬ Pops (leave (schedule s x) c .returned) d y := by
    intro d y hd
    by_cases hdc : d = c
    · simp [hdc, leave, setPc, Pops] at hd
    · have : Pops s d y := by simpa [leave, setPc, schedule, Pops, hdc] using hd
      exact hdc (honly d y this).1
  have hpc : ∀ d, (leave (schedule s x) c .returned).pc d = if d = c then .returned else s.pc d := by
    intro d
    simp [leave, setPc, schedule, Function.update_apply]
  have hsch : ∀ d, (leave (schedule s x) c .returned).scheduled d =
      if d = x then 1 else s.scheduled d := by
    intro d
    simp [leave, setPc, schedule, Function.update_apply, hx0]
  obtain ⟨senders, receivers, nodup, listed, holder, once, fresh, popped, parked⟩ := h
  refine ⟨?_, ?_, nodup, ?_, ?_, ?_, ?_, fun d y hd => absurd hd (hP d y), ?_⟩
  · refine Stage.Good.congr senders fun d hd => ?_
    have hd' : d ∈ s.waitingSenders := hd
    grind
  · refine Stage.Good.congr receivers fun d hd => ?_
    have hd' : d ∈ s.waitingReceivers := hd
    grind
  · intro d hd
    have := listed d hd
    grind
  · intro d _
    have := holder d
    grind
  · grind
  · grind
  · intro d hd
    show _ ∨ d ∈ s.waitingSenders ∨ d ∈ s.waitingReceivers ∨ _
    have hd' : s.pc d = .parked := by grind
    have h1 := parked d hd'
    have h2 := honly
    grind

/-- `c` parks on a list the walk is not past. -/
theorem Inv.park {s t : State C V} (h : Inv s) (hc : s.holder = some c)
    (hcp : s.pc c = .recvPark ∨ ∃ v, s.pc c = .sendPark v)
    (hpc : t.pc = (setPc s c .parked).pc) (hsch : t.scheduled = s.scheduled)
    (hS : t.phase.senders_.Good t.scheduled t.waitingSenders)
    (hR : t.phase.receivers_.Good t.scheduled t.waitingReceivers)
    (hmem : ∀ y, y ∈ t.waitingSenders ∨ y ∈ t.waitingReceivers ↔
      y = c ∨ y ∈ s.waitingSenders ∨ y ∈ s.waitingReceivers)
    (hnd : (t.waitingSenders ++ t.waitingReceivers).Nodup) : Inv t := by
  have hP : ∀ d y, ¬ Pops t d y := by
    intro d y hd
    unfold Pops at hd
    rw [hpc] at hd
    have := h.holder d
    grind
  have hP' : ∀ d y, ¬ Pops s d y := by
    intro d y hd
    unfold Pops at hd
    have := h.holder d
    grind
  obtain ⟨senders, receivers, nodup, listed, holder, once, fresh, popped, parked⟩ := h
  refine ⟨hS, hR, hnd, ?_, ?_, ?_, ?_, fun d y hd => absurd hd (hP d y), ?_⟩
  · intro y hy
    have h1 := (hmem y).1 hy
    have h2 := listed y
    rw [hpc]
    grind
  · intro d _
    rw [hpc]
    grind
  · rw [hsch]
    exact once
  · intro d hd
    rw [hpc] at hd
    rw [hsch]
    grind
  · intro d hd
    rw [hpc] at hd
    rw [hsch]
    have h1 := parked d
    have h2 := hmem d
    grind

omit [DecidableEq C] in
/-- `destroy` moves on without touching a list. -/
theorem Inv.phase (h : Inv s) {f : Phase C}
    (hS : f.senders_.Good s.scheduled s.waitingSenders)
    (hR : f.receivers_.Good s.scheduled s.waitingReceivers) : Inv { s with phase := f } :=
  ⟨hS, hR, h.nodup, h.listed, h.holder, h.once, h.fresh, h.popped, h.parked⟩

/-- `destroy` schedules the node under its iterator. -/
theorem Inv.destroyOn (h : Inv s) {f : Phase C} (hx : x ∈ s.waitingSenders ∨ x ∈ s.waitingReceivers)
    (hx0 : s.scheduled x = 0)
    (hS : f.senders_.Good (schedule s x).scheduled s.waitingSenders)
    (hR : f.receivers_.Good (schedule s x).scheduled s.waitingReceivers) :
    Inv { schedule s x with phase := f } := by
  have hsch : ∀ d, (schedule s x).scheduled d = if d = x then 1 else s.scheduled d := by
    intro d
    simp [schedule, Function.update_apply, hx0]
  obtain ⟨senders, receivers, nodup, listed, holder, once, fresh, popped, parked⟩ := h
  have hpx := listed x hx
  refine ⟨hS, hR, nodup, listed, holder, ?_, ?_, ?_, ?_⟩
  · grind
  · intro d hd
    have hd' : s.pc d ≠ .parked := hd
    grind
  · intro d y hd
    have h1 := popped d y hd
    refine ⟨h1.1, ?_, h1.2.2⟩
    have hyx : y ≠ x := by
      rintro rfl
      rcases hx with hx | hx
      · exact h1.2.2.1 hx
      · exact h1.2.2.2 hx
    exact (hsch y).trans ((if_neg hyx).trans h1.2.1)
  · intro d hd
    have h1 : s.scheduled d = 1 ∨ _ := parked d hd
    show (schedule s x).scheduled d = 1 ∨ _
    by_cases hdx : d = x
    · exact Or.inl ((hsch d).trans (if_pos hdx))
    · rw [hsch, if_neg hdx]
      exact h1

omit [DecidableEq C] in
/-- `destroy` clears what it has walked over. -/
theorem Inv.clear {t : State C V} (h : Inv s) (hpc : t.pc = s.pc) (hsch : t.scheduled = s.scheduled)
    (hh : t.holder = s.holder)
    (hS : t.phase.senders_.Good t.scheduled t.waitingSenders)
    (hR : t.phase.receivers_.Good t.scheduled t.waitingReceivers)
    (hnd : (t.waitingSenders ++ t.waitingReceivers).Nodup)
    (hsub : ∀ y, y ∈ t.waitingSenders ∨ y ∈ t.waitingReceivers → y ∈ s.waitingSenders ∨ y ∈ s.waitingReceivers)
    (hgone : ∀ y, y ∈ s.waitingSenders ∨ y ∈ s.waitingReceivers →
      y ∈ t.waitingSenders ∨ y ∈ t.waitingReceivers ∨ s.scheduled y = 1) : Inv t := by
  have hP : ∀ d y, Pops t d y ↔ Pops s d y := by
    intro d y
    unfold Pops
    rw [hpc]
  obtain ⟨senders, receivers, nodup, listed, holder, once, fresh, popped, parked⟩ := h
  refine ⟨hS, hR, hnd, ?_, ?_, ?_, ?_, ?_, ?_⟩
  · intro y hy
    rw [hpc]
    exact listed y (hsub y hy)
  · rw [hpc, hh]
    exact holder
  · rw [hsch]
    exact once
  · rw [hpc, hsch]
    exact fresh
  · intro d y hd
    have h1 := popped d y ((hP d y).1 hd)
    have h2 := hsub y
    rw [hpc, hsch]
    grind
  · intro d hd
    rw [hpc] at hd
    rw [hsch]
    simp only [hP]
    have h1 := parked d hd
    have h2 := hgone d
    grind

omit [DecidableEq C] in
theorem Inv.inside (h : Inv s) (h1 : s.pc c ≠ .idle) (h2 : s.pc c ≠ .parked)
    (h3 : s.pc c ≠ .returned) : s.holder = some c := by
  by_contra hne
  have := h.holder c hne
  tauto

/-- Every step of a critical section that is in time. -/
theorem Inv.stepCs {t : State C V} (h : Inv s) (hs : stepCs s c = some t)
    (hok : InTime s (.step c) t) : Inv t := by
  -- `c` neither parks nor pops
  have move : ∀ (p : Pc C V) (o : Option C) (b : HeapRingBuffer V), s.pc c ≠ .idle →
      s.pc c ≠ .parked → s.pc c ≠ .returned → (∀ x, ¬ Pops s c x) → p ≠ .parked →
      (∀ x, p ≠ .sendSchedule x ∧ p ≠ .recvSchedule x) → (o = some c ∨ p = .returned) →
      Inv { setPc s c p with holder := o, buf := b } := fun p o b h1 h2 h3 h4 h5 h6 h7 =>
    h.move h2 h4 (Or.inl (h.inside h1 h2 h3)) h5 h6 b h7
  have keep : ∀ p : Pc C V, s.pc c ≠ .idle → s.pc c ≠ .parked → s.pc c ≠ .returned →
      (∀ x, ¬ Pops s c x) → p ≠ .parked → (∀ x, p ≠ .sendSchedule x ∧ p ≠ .recvSchedule x) →
      Inv (setPc s c p) := by
    intro p h1 h2 h3 h4 h5 h6
    have := move p (some c) s.buf h1 h2 h3 h4 h5 h6 (Or.inl rfl)
    rwa [← h.inside h1 h2 h3] at this
  simp only [ChannelClose.stepCs] at hs
  cases hpc : s.pc c <;> simp only [hpc, reduceCtorEq] at hs
  case sendTest v =>
    cases hs
    by_cases he : s.waitingReceivers.isEmpty
    · simp only [he, if_true]
      apply keep <;> simp [hpc, Pops]
    · simp only [he]
      apply keep <;> simp [hpc, Pops]
  case sendPop v =>
    cases hr : s.waitingReceivers with
    | nil =>
      rw [hr] at hs
      cases hs
    | cons r rest =>
      rw [hr] at hs
      cases hs
      have hu := hok.popReceiver c v rfl hpc
      have hR := h.receivers
      have hnd := h.nodup
      rw [hu, hr] at hR
      rw [hr] at hnd
      have hlisted := h.listed r (Or.inr (hr ▸ List.mem_cons_self))
      refine h.pop (h.inside ?_ ?_ ?_) ?_ ?_ hlisted (hR r List.mem_cons_self) rfl (Or.inl rfl)
        rfl rfl h.senders ?_ ?_ ?_ ?_
      · simp [hpc]
      · simp [hpc]
      · simp [hpc]
      · simp [hpc]
      · simp [hpc, Pops]
      · show s.phase.receivers_.Good s.scheduled rest
        rw [hu]
        exact fun d hd => hR d (List.mem_cons_of_mem _ hd)
      · intro y
        show _ ↔ y = r ∨ y ∈ s.waitingSenders ∨ y ∈ rest
        rw [hr]
        grind
      · show (s.waitingSenders ++ rest).Nodup
        grind
      · show r ∉ s.waitingSenders ∧ r ∉ rest
        grind
  case sendSchedule r =>
    cases hs
    exact h.handOver (Or.inl hpc)
  case sendFill v =>
    split at hs
    · cases hs
    · cases hs
      apply keep <;> simp [hpc, Pops]
    · cases hb : s.buf.safetyPush v with
      | none =>
        rw [hb] at hs
        cases hs
      | some b =>
        rw [hb] at hs
        cases hs
        apply move <;> simp [hpc, Pops]
  case sendClosed v =>
    cases hs
    split
    · exact move .returned none s.buf (by simp [hpc]) (by simp [hpc]) (by simp [hpc])
        (by simp [hpc, Pops]) (by simp) (by simp) (Or.inr rfl)
    · apply keep <;> simp [hpc, Pops]
  case sendPark v =>
    cases hs
    have hg := hok.parkSender c v rfl hpc
    have hin : s.holder = some c := h.inside (by simp [hpc]) (by simp [hpc]) (by simp [hpc])
    have h0 : s.scheduled c = 0 := h.fresh c (by simp [hpc])
    have hnl := h.listed c
    rw [hpc] at hnl
    have hnd := h.nodup
    refine h.park hin (Or.inr ⟨v, hpc⟩) rfl rfl (h.senders.push hg h0) h.receivers ?_ ?_
    · intro y
      show y ∈ s.waitingSenders ++ [c] ∨ y ∈ s.waitingReceivers ↔ _
      grind
    · show (s.waitingSenders ++ [c] ++ s.waitingReceivers).Nodup
      grind
  case recvTest =>
    cases hs
    by_cases he : s.waitingSenders.isEmpty
    · simp only [he, if_true]
      apply keep <;> simp [hpc, Pops]
    · simp only [he]
      apply keep <;> simp [hpc, Pops]
  case recvPop =>
    cases hr : s.waitingSenders with
    | nil =>
      rw [hr] at hs
      cases hs
    | cons r rest =>
      rw [hr] at hs
      cases hs
      have hu := hok.popSender c rfl hpc
      have hS := h.senders
      have hnd := h.nodup
      rw [hu, hr] at hS
      rw [hr] at hnd
      have hlisted := h.listed r (Or.inl (hr ▸ List.mem_cons_self))
      refine h.pop (h.inside ?_ ?_ ?_) ?_ ?_ hlisted (hS r List.mem_cons_self) rfl (Or.inr rfl)
        rfl rfl ?_ h.receivers ?_ ?_ ?_
      · simp [hpc]
      · simp [hpc]
      · simp [hpc]
      · simp [hpc]
      · simp [hpc, Pops]
      · show s.phase.senders_.Good s.scheduled rest
        rw [hu]
        exact fun d hd => hS d (List.mem_cons_of_mem _ hd)
      · intro y
        show _ ↔ y = r ∨ y ∈ rest ∨ y ∈ s.waitingReceivers
        rw [hr]
        grind
      · show (rest ++ s.waitingReceivers).Nodup
        grind
      · show r ∉ rest ∧ r ∉ s.waitingReceivers
        grind
  case recvSchedule w =>
    cases hs
    exact h.handOver (Or.inr hpc)
  case recvEmpty =>
    split at hs
    · cases hs
      apply keep <;> simp [hpc, Pops]
    · cases hb : s.buf.safetyPop with
      | none =>
        rw [hb] at hs
        cases hs
      | some b =>
        rw [hb] at hs
        cases hs
        apply move <;> simp [hpc, Pops]
  case recvClosed =>
    cases hs
    split
    · exact move .returned none s.buf (by simp [hpc]) (by simp [hpc]) (by simp [hpc])
        (by simp [hpc, Pops]) (by simp) (by simp) (Or.inr rfl)
    · apply keep <;> simp [hpc, Pops]
  case recvPark =>
    cases hs
    have hg := hok.parkReceiver c rfl hpc
    have hin : s.holder = some c := h.inside (by simp [hpc]) (by simp [hpc]) (by simp [hpc])
    have h0 : s.scheduled c = 0 := h.fresh c (by simp [hpc])
    have hnl := h.listed c
    rw [hpc] at hnl
    have hnd := h.nodup
    refine h.park hin (Or.inl hpc) rfl rfl h.senders (h.receivers.push hg h0) ?_ ?_
    · intro y
      show y ∈ s.waitingSenders ∨ y ∈ s.waitingReceivers ++ [c] ↔ _
      grind
    · show (s.waitingSenders ++ (s.waitingReceivers ++ [c])).Nodup
      grind

/-- A walk step either only moves the iterator or schedules the node under it. -/
theorem walkStep_cases {l : List C} {ph : Walk C → Phase C} {finish : Phase C} {w : Walk C}
    {t : State C V} (hg : w.stage.Good s.scheduled l) (hnd : l.Nodup)
    (hs : walkStep s l ph finish w = some t) :
    (t = { s with phase := finish } ∧ Stage.walked.Good s.scheduled l) ∨
    (∃ w', t = { s with phase := ph w' } ∧ w'.stage.Good s.scheduled l) ∨
    ∃ x, t = { schedule s x with phase := ph (.next x) } ∧ x ∈ l ∧ s.scheduled x = 0 ∧
      (Stage.next x).Good (schedule s x).scheduled l := by
  cases w with
  | begin =>
    cases l with
    | nil =>
      cases hs
      exact Or.inl ⟨rfl, nofun⟩
    | cons x l =>
      cases hs
      exact Or.inr (Or.inl ⟨.on x, rfl, Stage.Good.begin hg⟩)
  | on x =>
    cases hs
    have hx := Stage.Good.mem_on hg
    exact Or.inr (Or.inr ⟨x, rfl, hx.1, hx.2, Stage.Good.schedule hg hnd⟩)
  | next x =>
    simp only [walkStep] at hs
    rcases Stage.Good.advance hg hnd with ⟨ha, hg'⟩ | ⟨y, ha, hg'⟩
    · rw [ha] at hs
      cases hs
      exact Or.inl ⟨rfl, hg'⟩
    · rw [ha] at hs
      cases hs
      exact Or.inr (Or.inl ⟨.on y, rfl, hg'⟩)

/-- Every step of `destroy`. -/
theorem Inv.stepDestroy {t : State C V} (h : Inv s) (hs : stepDestroy s = some t) : Inv t := by
  have hS := h.senders
  have hR := h.receivers
  have hnd := List.nodup_append.1 h.nodup
  simp only [ChannelClose.stepDestroy] at hs
  cases hph : s.phase <;> rw [hph] at hS hR <;> simp only [hph, reduceCtorEq] at hs
  case senders w =>
    rcases walkStep_cases hS hnd.1 hs with ⟨rfl, hg⟩ | ⟨w', rfl, hg⟩ | ⟨x, rfl, hx, hx0, hg⟩
    · exact h.phase hg hR
    · exact h.phase hg hR
    · refine h.destroyOn (Or.inl hx) hx0 hg (Stage.Good.congr hR fun d hd => ?_)
      exact Function.update_of_ne (fun he => hnd.2.2 x hx d hd he.symm) ..
  case receivers w =>
    rcases walkStep_cases hR hnd.2.1 hs with ⟨rfl, hg⟩ | ⟨w', rfl, hg⟩ | ⟨x, rfl, hx, hx0, hg⟩
    · exact h.phase hS hg
    · exact h.phase hS hg
    · refine h.destroyOn (Or.inr hx) hx0 (Stage.Good.congr hS fun d hd => ?_) hg
      exact Function.update_of_ne (fun he => hnd.2.2 d hd x hx he) ..
  case clearSenders =>
    cases hs
    have hw : ∀ c ∈ s.waitingSenders, s.scheduled c = 1 := hS
    refine h.clear rfl rfl rfl rfl hR hnd.2.1 ?_ ?_
    · exact fun y hy => Or.inr (hy.resolve_left (List.not_mem_nil))
    · exact fun y hy => hy.elim (fun hy => Or.inr (Or.inr (hw y hy))) fun hy => Or.inr (Or.inl hy)
  case clearReceivers =>
    cases hs
    have hw : ∀ c ∈ s.waitingReceivers, s.scheduled c = 1 := hR
    refine h.clear rfl rfl rfl hS rfl (by simpa using hnd.1) ?_ ?_
    · exact fun y hy => Or.inl (hy.resolve_right (List.not_mem_nil))
    · exact fun y hy => hy.elim Or.inl fun hy => Or.inr (Or.inr (hw y hy))

/-! ### Frames -/

/-- A critical section leaves `is_closed_` and `destroy` alone. -/
theorem stepCs_frame {t : State C V} (hs : stepCs s c = some t) :
    t.isClosed = s.isClosed ∧ t.phase = s.phase := by
  unfold ChannelClose.stepCs at hs
  cases hpc : s.pc c <;> simp only [hpc, reduceCtorEq] at hs
  case sendFill v =>
    split at hs
    · cases hs
    · cases hs
      exact ⟨rfl, rfl⟩
    · obtain ⟨b, -, rfl⟩ := Option.map_eq_some_iff.1 hs
      exact ⟨rfl, rfl⟩
  case recvEmpty =>
    split at hs
    · cases hs
      exact ⟨rfl, rfl⟩
    · obtain ⟨b, -, rfl⟩ := Option.map_eq_some_iff.1 hs
      exact ⟨rfl, rfl⟩
  case sendPop v =>
    split at hs
    · cases hs
      exact ⟨rfl, rfl⟩
    · cases hs
  case recvPop =>
    split at hs
    · cases hs
      exact ⟨rfl, rfl⟩
    · cases hs
  case sendClosed v =>
    cases hs
    split <;> exact ⟨rfl, rfl⟩
  case recvClosed =>
    cases hs
    split <;> exact ⟨rfl, rfl⟩
  all_goals
    cases hs
    exact ⟨rfl, rfl⟩

theorem walkStep_isClosed {t : State C V} {l : List C} {ph : Walk C → Phase C} {finish : Phase C}
    {w : Walk C} (hs : walkStep s l ph finish w = some t) : t.isClosed = s.isClosed := by
  cases w with
  | begin =>
    cases l <;>
    · cases hs
      rfl
  | on x =>
    cases hs
    rfl
  | next x =>
    obtain ⟨o, -, rfl⟩ := Option.map_eq_some_iff.1 hs
    cases o <;> rfl

/-- `destroy` runs only after the exchange, and leaves `is_closed_` set. -/
theorem stepDestroy_frame {t : State C V} (hs : stepDestroy s = some t) :
    t.isClosed = s.isClosed ∧ s.phase ≠ .open := by
  unfold ChannelClose.stepDestroy at hs
  cases hph : s.phase <;> simp only [hph, reduceCtorEq] at hs
  case senders w => exact ⟨walkStep_isClosed hs, nofun⟩
  case receivers w => exact ⟨walkStep_isClosed hs, nofun⟩
  all_goals
    cases hs
    exact ⟨rfl, nofun⟩

/-- What every step that is in time keeps; `destroy` starts only once. -/
theorem inv_step (s : State C V) (a : Act C V) (t : State C V)
    (h : Inv s ∧ (s.isClosed = false → s.phase = .open))
    (hs : step s a = some t) (hok : InTime s a t) :
    Inv t ∧ (t.isClosed = false → t.phase = .open) := by
  obtain ⟨h, ho⟩ := h
  -- a call enters its critical section
  have enter : ∀ c (p : Pc C V), s.pc c = .idle → s.holder = none → p ≠ .parked →
      (∀ x, p ≠ .sendSchedule x ∧ p ≠ .recvSchedule x) →
      Inv { setPc s c p with holder := some c } := fun c p hc hh h1 h2 =>
    h.move (by simp [hc]) (by simp [Pops, hc]) (Or.inr hh) h1 h2 s.buf (Or.inl rfl)
  cases a with
  | send c v =>
    simp only [step] at hs
    split at hs
    · cases hs
      exact ⟨enter c _ ‹_› ‹_› (by simp) (by simp), ho⟩
    · cases hs
  | recv c =>
    simp only [step] at hs
    split at hs
    · cases hs
      exact ⟨enter c _ ‹_› ‹_› (by simp) (by simp), ho⟩
    · cases hs
  | step c =>
    have hf := stepCs_frame hs
    rw [hf.1, hf.2]
    exact ⟨h.stepCs hs hok, ho⟩
  | addSender =>
    cases hs
    exact ⟨⟨h.1, h.2, h.3, h.4, h.5, h.6, h.7, h.8, h.9⟩, ho⟩
  | subSender =>
    simp only [step, Option.ite_none_left_eq_some, Option.some.injEq] at hs
    obtain ⟨-, rfl⟩ := hs
    exact ⟨⟨h.1, h.2, h.3, h.4, h.5, h.6, h.7, h.8, h.9⟩, ho⟩
  | addReceiver =>
    cases hs
    exact ⟨⟨h.1, h.2, h.3, h.4, h.5, h.6, h.7, h.8, h.9⟩, ho⟩
  | subReceiver =>
    simp only [step, Option.ite_none_left_eq_some, Option.some.injEq] at hs
    obtain ⟨-, rfl⟩ := hs
    exact ⟨⟨h.1, h.2, h.3, h.4, h.5, h.6, h.7, h.8, h.9⟩, ho⟩
  | exchange =>
    simp only [step, Option.ite_none_left_eq_some] at hs
    obtain ⟨-, hs⟩ := hs
    split at hs
    · cases hs
      exact ⟨⟨h.1, h.2, h.3, h.4, h.5, h.6, h.7, h.8, h.9⟩, ho⟩
    · rename_i hc
      cases hs
      have hph := ho (by simpa using hc)
      have h1 := h.senders
      have h2 := h.receivers
      rw [hph] at h1 h2
      exact ⟨⟨h1, h2, h.3, h.4, h.5, h.6, h.7, h.8, h.9⟩, nofun⟩
  | destroy =>
    refine ⟨h.stepDestroy hs, fun hc => ?_⟩
    have hf := stepDestroy_frame hs
    rw [hf.1] at hc
    exact absurd (ho hc) hf.2

/-! ## Top theorems -/

/-- **Nobody is left behind.**  For every number of senders and receivers, every
capacity and every interleaving in which nobody parks on a list the walk is past
and nobody is popped off a list the walk is on. -/
theorem nobody_left [Inhabited V] (n m cap : Nat) (s : State C V)
    (h : Reachable step InTime (init n m cap) s) : Served s :=
  (h.inv (fun s => Inv s ∧ (s.isClosed = false → s.phase = .open)) inv_step
    ⟨inv_init n m cap, fun _ => rfl⟩).1.served

end

theorem inTime_of_open {s t : State C V} {a : Act C V} (h : s.phase = .open) : InTime s a t := by
  constructor
  · intro c v _ _
    rw [h]
    trivial
  · intro c _ _
    rw [h]
    trivial
  · intro c v _ _
    rw [h]
    rfl
  · intro c _ _
    rw [h]
    rfl

theorem inTime_destroy (s t : State C V) : InTime s .destroy t :=
  ⟨nofun, nofun, nofun, nofun⟩

/-- A receiver parks, then the last sender closes the channel. -/
def parkedRun : List (Act Unit Nat) :=
  [.recv (), .step (), .step (), .step (), .step (), .subSender, .exchange,
   .destroy, .destroy, .destroy, .destroy, .destroy, .destroy]

theorem parked_receiver_woken :
    ∃ s : State Unit Nat, Reachable step InTime (init 1 1 1) s ∧ s.pc () = .parked ∧
      s.scheduled () = 1 ∧ s.waitingReceivers = [] ∧ Served s := by
  have hr : Reachable step InTime (init 1 1 1 : State Unit Nat) _ := ⟨parkedRun, rfl, by
    iterate 13
      rintro t ⟨⟩
      refine ⟨?_, ?_⟩
      · first
        | exact inTime_of_open rfl
        | exact inTime_destroy _ _
    trivial⟩
  exact ⟨_, hr, rfl, rfl, rfl, nobody_left 1 1 1 _ hr⟩

/-- A receiver has found the buffer empty and the channel open when the last
sender closes it; it parks when `destroy` has returned. -/
def lateRun : List (Act Unit Nat) :=
  [.recv (), .step (), .step (), .step (), .subSender, .exchange,
   .destroy, .destroy, .destroy, .destroy, .step ()]

theorem receiver_left_behind :
    ∃ s : State Unit Nat, run step (init 1 1 1) lateRun = some s ∧ s.isClosed = true ∧ s.holder = none ∧
      s.pc () = .parked ∧ s.scheduled () = 0 ∧ s.waitingReceivers = [()] ∧ ¬ Served s :=
  ⟨_, rfl, rfl, rfl, rfl, rfl, rfl, fun h => absurd (h.closed rfl rfl rfl).2.1 nofun⟩

end Kosio.ChannelClose
