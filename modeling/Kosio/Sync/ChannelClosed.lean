import Kosio.Sync.ChannelClose

/-!
# `Channel`: calls on a closed channel

The machine of `ChannelClose`, with what the calls return.  Every awaiter is
made with the result `kClosedChannel`; who hands over a value puts `ok` in its
place.  A call is late when it takes `mutex_` after the last handle of the other
side is gone and `destroy` has finished.

`send` looks at `is_closed_` only when nobody waits and the buffer is full, so a
late `send` that finds a place in the buffer succeeds (`late_send_succeeds`).
If none does, and no late call finds a peer that `destroy` has left behind, late
sends are refused and late receives drain the buffer (`late_calls`).
-/

namespace Kosio.ChannelClosed

open Steps ChannelClose

/-! ## Algorithm -/

structure State (C V : Type) where
  chan : ChannelClose.State C V
  /-- `SendAwaiter::value_` -/
  value : C → V
  /-- `SendAwaiter::result_` -/
  sendResult : C → Result Unit
  /-- `RecvAwaiter::result_` -/
  recvResult : C → Result V
  late : C → Bool

variable {C V : Type}

def init [Inhabited V] (numSenders numReceivers cap : Nat) : State C V :=
  ⟨ChannelClose.init numSenders numReceivers cap, fun _ => default,
    fun _ => .error .kClosedChannel, fun _ => .error .kClosedChannel, fun _ => false⟩

/-- `destroy` has finished. -/
def finished (s : ChannelClose.State C V) : Bool :=
  match s.phase with
  | .done => true
  | _ => false

/-- The last receiver is gone. -/
def noReceiver (s : ChannelClose.State C V) : Bool := finished s && s.numReceivers == 0

/-- The last sender is gone. -/
def noSender (s : ChannelClose.State C V) : Bool := finished s && s.numSenders == 0

section
variable [DecidableEq C]

def setSend (s : State C V) (c : C) (r : Result Unit) : State C V :=
  { s with sendResult := Function.update s.sendResult c r }

def setRecv (s : State C V) (c : C) (r : Result V) : State C V :=
  { s with recvResult := Function.update s.recvResult c r }

/-- What the next step of the critical section of `c` does to the results. -/
def record (s : State C V) (c : C) : State C V :=
  match s.chan.pc c with
  | .sendPop v =>
    match s.chan.waitingReceivers with
    | receiver :: _ => setRecv s receiver (.ok v)
    | [] => s
  | .sendSchedule _ => setSend s c (.ok ())
  | .sendFill _ => if s.chan.buf.isFill = some false then setSend s c (.ok ()) else s
  | .recvPop =>
    match s.chan.waitingSenders with
    | sender :: _ => setRecv (setSend s sender (.ok ())) c (.ok (s.value sender))
    | [] => s
  | .recvEmpty =>
    if s.chan.buf.isEmpty then s
    else
      match s.chan.buf.safetyPop with
      | some (v, _) => setRecv s c (.ok v)
      | none => s
  | _ => s

/-- A call takes `mutex_`. -/
def enter (s : State C V) (c : C) (late : Bool) : State C V :=
  { s with late := Function.update s.late c late }

def step (s : State C V) (a : Act C V) : Option (State C V) :=
  (ChannelClose.step s.chan a).map fun chan =>
    match a with
    | .send c v =>
      { enter s c (noReceiver s.chan) with chan, value := Function.update s.value c v }
    | .recv c => { enter s c (noSender s.chan) with chan }
    | .step c => { record s c with chan }
    | _ => { s with chan }

end

/-! ## What is promised -/

/-- In the critical section of a `send`. -/
def sending : Pc C V → Bool
  | .sendTest _ | .sendPop _ | .sendSchedule _ | .sendFill _ | .sendClosed _ | .sendPark _ => true
  | _ => false

/-- In the critical section of a `recv`. -/
def receiving : Pc C V → Bool
  | .recvTest | .recvPop | .recvSchedule _ | .recvEmpty | .recvClosed | .recvPark => true
  | _ => false

/-- A step of a `send` that is refused: it leaves the buffer alone and ends in the error. -/
structure Refused (s t : State C V) (c : C) : Prop where
  buf : t.chan.buf = s.chan.buf
  noPark : t.chan.pc c ≠ .parked
  result : t.chan.pc c = .returned → t.sendResult c = .error .kClosedChannel

/-- A step of a `recv` that drains: it ends with the oldest value of the buffer, or
with the error if there is none. -/
structure Drains (s t : State C V) (c : C) : Prop where
  noPark : t.chan.pc c ≠ .parked
  result : t.chan.pc c = .returned → ∃ l, s.chan.buf.Contents l ∧
    match l with
    | [] => t.recvResult c = .error .kClosedChannel ∧ t.chan.buf = s.chan.buf
    | v :: rest => t.recvResult c = .ok v ∧ t.chan.buf.Contents rest

/-- Late calls go on to their end; sends are refused and receives drain. -/
structure Closed [DecidableEq C] (s : State C V) (a : Act C V) (t : State C V) : Prop where
  goesOn : ∀ c, s.late c = true → sending (s.chan.pc c) = true ∨ receiving (s.chan.pc c) = true →
    (step s (.step c)).isSome
  send : ∀ c, a = .step c → s.late c = true → sending (s.chan.pc c) = true → Refused s t c
  recv : ∀ c, a = .step c → s.late c = true → receiving (s.chan.pc c) = true → Drains s t c

/-- A late `send` finds nobody waiting and the buffer full, a late `recv` nobody waiting. -/
structure Exhausted (s : State C V) (a : Act C V) (_ : State C V) : Prop where
  send : ∀ c v, a = .send c v → noReceiver s.chan = true →
    s.chan.waitingReceivers = [] ∧ s.chan.buf.isFill = some true
  recv : ∀ c, a = .recv c → noSender s.chan = true → s.chan.waitingSenders = []

/-! ## Invariant -/

/-- Where a late call can be, and what it has found. -/
def LateOk (s : State C V) (c : C) : Prop :=
  match s.chan.pc c with
  | .sendTest _ => s.chan.waitingReceivers = [] ∧ s.chan.buf.isFill = some true
  | .sendFill _ => s.chan.buf.isFill = some true
  | .recvTest => s.chan.waitingSenders = []
  | .recvClosed => s.chan.buf.isEmpty = true
  | .sendClosed _ | .recvEmpty | .returned => True
  | _ => False

/-- Not in a critical section. -/
def Outside (p : Pc C V) : Prop := p = .idle ∨ p = .parked ∨ p = .returned

/-- On one of the two lists. -/
def Listed (s : ChannelClose.State C V) (c : C) : Prop :=
  c ∈ s.waitingSenders ∨ c ∈ s.waitingReceivers

/-- A `recv` that has not been given a value. -/
def unserved : Pc C V → Bool
  | .idle | .recvTest | .recvPop | .recvEmpty | .recvClosed | .recvPark => true
  | _ => false

/-- A `send` that has not handed over its value. -/
def unsent (p : Pc C V) : Bool :=
  match p with
  | .idle => true
  | p => sending p

structure Inv (s : State C V) : Prop where
  outside : ∀ c, s.chan.holder ≠ some c → Outside (s.chan.pc c)
  listed : ∀ c, Listed s.chan c → s.chan.pc c = .parked
  closed : s.chan.isClosed = false → s.chan.phase = .open
  contents : ∃ l, s.chan.buf.Contents l
  unsent : ∀ c, unsent (s.chan.pc c) = true → s.sendResult c = .error .kClosedChannel
  unserved : ∀ c, unserved (s.chan.pc c) = true → s.recvResult c = .error .kClosedChannel
  late : ∀ c, s.late c = true → finished s.chan = true ∧ LateOk s c

theorem inv_init [Inhabited V] (n m cap : Nat) : Inv (init n m cap : State C V) :=
  ⟨fun _ _ => Or.inl rfl, fun _ h => by simp [Listed, init, ChannelClose.init] at h, fun _ => rfl,
    ⟨[], HeapRingBuffer.make_contents cap⟩, fun _ _ => rfl, fun _ _ => rfl,
    fun _ h => by simp [init] at h⟩

section
variable {s t : State C V} {c : C}

theorem finished_phase {s : ChannelClose.State C V} (h : finished s = true) : s.phase = .done := by
  unfold finished at h
  split at h
  · assumption
  · cases h

theorem Inv.isClosed (h : Inv s) (hf : finished s.chan = true) : s.chan.isClosed = true := by
  by_contra hc
  have ho := h.closed (by simpa using hc)
  rw [finished_phase hf] at ho
  cases ho

/-- Who is in a critical section has `mutex_`. -/
theorem Inv.inside (h : Inv s) (hc : ¬ Outside (s.chan.pc c)) : s.chan.holder = some c := by
  by_contra hne
  exact hc (h.outside c hne)

/-- A late call outside a critical section has returned. -/
theorem Inv.late_returned (h : Inv s) (hc : s.late c = true) (ho : Outside (s.chan.pc c)) :
    s.chan.pc c = .returned := by
  have hok := (h.late c hc).2
  unfold LateOk at hok
  rcases ho with ho | ho | ho
  · rw [ho] at hok
    exact hok.elim
  · rw [ho] at hok
    exact hok.elim
  · exact ho

theorem LateOk.of_returned (h : s.chan.pc c = .returned) : LateOk s c := by
  unfold LateOk
  rw [h]
  trivial

/-- A step that leaves the calls and the buffer alone. -/
theorem Inv.frame (h : Inv s) (hpc : t.chan.pc = s.chan.pc) (hbuf : t.chan.buf = s.chan.buf)
    (hholder : t.chan.holder = s.chan.holder) (hlist : ∀ c, Listed t.chan c → Listed s.chan c)
    (hclosed : t.chan.isClosed = false → t.chan.phase = .open)
    (hsend : t.sendResult = s.sendResult) (hrecv : t.recvResult = s.recvResult)
    (hlate : t.late = s.late)
    (hwait : finished s.chan = true → finished t.chan = true ∧
      t.chan.waitingSenders = s.chan.waitingSenders ∧
      t.chan.waitingReceivers = s.chan.waitingReceivers) : Inv t := by
  refine ⟨?_, ?_, hclosed, ?_, ?_, ?_, ?_⟩
  · intro d hd
    rw [hpc]
    exact h.outside d (by rwa [hholder] at hd)
  · intro d hd
    rw [hpc]
    exact h.listed d (hlist d hd)
  · rw [hbuf]
    exact h.contents
  · rw [hpc, hsend]
    exact h.unsent
  · rw [hpc, hrecv]
    exact h.unserved
  · intro d hd
    rw [hlate] at hd
    obtain ⟨hf, hok⟩ := h.late d hd
    obtain ⟨h1, h2, h3⟩ := hwait hf
    refine ⟨h1, ?_⟩
    unfold LateOk at hok ⊢
    rwa [hpc, hbuf, h2, h3]

/-- A step of the critical section of `c`. -/
theorem Inv.own (h : Inv s) (hc : s.chan.holder = some c)
    (hpc : ∀ d, d ≠ c → t.chan.pc d = s.chan.pc d)
    (hholder : t.chan.holder = some c ∨ Outside (t.chan.pc c))
    (hlist : ∀ d, Listed t.chan d → t.chan.pc d = .parked)
    (hframe : t.chan.isClosed = s.chan.isClosed ∧ t.chan.phase = s.chan.phase)
    (hbuf : ∃ l, t.chan.buf.Contents l)
    (hsend : ∀ d, d ≠ c → ChannelClosed.unsent (s.chan.pc d) = true →
      t.sendResult d = s.sendResult d)
    (hsendc : ChannelClosed.unsent (t.chan.pc c) = true → t.sendResult c = .error .kClosedChannel)
    (hrecv : ∀ d, d ≠ c → ChannelClosed.unserved (s.chan.pc d) = true →
      t.recvResult d = s.recvResult d)
    (hrecvc : ChannelClosed.unserved (t.chan.pc c) = true →
      t.recvResult c = .error .kClosedChannel)
    (hlate : t.late = s.late) (hlatec : s.late c = true → LateOk t c) : Inv t := by
  have hfin : finished t.chan = finished s.chan := by
    unfold finished
    rw [hframe.2]
  have houtside : ∀ d, d ≠ c → Outside (s.chan.pc d) := by
    intro d hd
    apply h.outside d
    rw [hc]
    exact fun he => hd (Option.some.inj he).symm
  refine ⟨?_, hlist, ?_, hbuf, ?_, ?_, ?_⟩
  · intro d hd
    by_cases he : d = c
    · subst he
      exact hholder.resolve_left hd
    · rw [hpc d he]
      exact houtside d he
  · rw [hframe.1, hframe.2]
    exact h.closed
  · intro d hd
    by_cases he : d = c
    · subst he
      exact hsendc hd
    · rw [hpc d he] at hd
      rw [hsend d he hd]
      exact h.unsent d hd
  · intro d hd
    by_cases he : d = c
    · subst he
      exact hrecvc hd
    · rw [hpc d he] at hd
      rw [hrecv d he hd]
      exact h.unserved d hd
  · intro d hd
    rw [hlate] at hd
    rw [hfin]
    refine ⟨(h.late d hd).1, ?_⟩
    by_cases he : d = c
    · subst he
      exact hlatec hd
    · exact LateOk.of_returned ((hpc d he).trans (h.late_returned hd (houtside d he)))

end

/-! ## The steps -/

section
variable [DecidableEq C] {s : State C V} {t : ChannelClose.State C V} {c : C}

/-- A step that only moves `c` on, with the lists and the results as they are. -/
theorem Inv.move (h : Inv s) (hc : ¬ Outside (s.chan.pc c)) {p : Pc C V} {o : Option C}
    {b : HeapRingBuffer V} (ho : o = some c ∨ p = .returned) (hb : ∃ l, b.Contents l)
    (hsend : ChannelClosed.unsent p = true → ChannelClosed.unsent (s.chan.pc c) = true)
    (hrecv : ChannelClosed.unserved p = true → ChannelClosed.unserved (s.chan.pc c) = true)
    (hlate : s.late c = true →
      LateOk { s with chan := { setPc s.chan c p with holder := o, buf := b } } c) :
    Inv { s with chan := { setPc s.chan c p with holder := o, buf := b } } := by
  have hself : (setPc s.chan c p).pc c = p := by simp
  refine h.own (h.inside hc) (fun d hd => by simp [hd]) ?_ ?_ ⟨rfl, rfl⟩ hb (fun _ _ _ => rfl) ?_
    (fun _ _ _ => rfl) ?_ rfl hlate
  · rcases ho with ho | rfl
    · exact Or.inl ho
    · exact Or.inr (Or.inr (Or.inr hself))
  · intro d hd
    have hp := h.listed d hd
    have hne : d ≠ c := by
      rintro rfl
      exact hc (Or.inr (Or.inl hp))
    show (setPc s.chan c p).pc d = .parked
    rw [setPc_pc, if_neg hne]
    exact hp
  · intro hu
    exact h.unsent c (hsend (hself ▸ hu))
  · intro hu
    exact h.unserved c (hrecv (hself ▸ hu))

/-- A call that has its result leaves the critical section. -/
theorem Inv.result (h : Inv s) (hc : ¬ Outside (s.chan.pc c)) {b : HeapRingBuffer V}
    (hb : ∃ l, b.Contents l) {scheduled : C → Nat} {sr : C → Result Unit} {rr : C → Result V}
    (hsr : ∀ d, d ≠ c → sr d = s.sendResult d) (hrr : ∀ d, d ≠ c → rr d = s.recvResult d) :
    Inv { s with
      chan := { setPc s.chan c .returned with holder := none, buf := b, scheduled := scheduled }
      sendResult := sr
      recvResult := rr } := by
  have hself : (setPc s.chan c (.returned : Pc C V)).pc c = .returned := by simp
  refine h.own (h.inside hc) (fun d hd => by simp [hd]) (Or.inr (Or.inr (Or.inr hself))) ?_
    ⟨rfl, rfl⟩ hb (fun d hd _ => hsr d hd) ?_ (fun d hd _ => hrr d hd) ?_ rfl ?_
  · intro d hd
    have hp := h.listed d hd
    have hne : d ≠ c := by
      rintro rfl
      exact hc (Or.inr (Or.inl hp))
    show (setPc s.chan c .returned).pc d = .parked
    rw [setPc_pc, if_neg hne]
    exact hp
  · intro hu
    exact absurd (hself ▸ hu) (by simp [ChannelClosed.unsent, sending])
  · intro hu
    exact absurd (hself ▸ hu) (by simp [ChannelClosed.unserved])
  · exact fun _ => LateOk.of_returned hself

/-- `c` takes the front of a list. -/
theorem Inv.pop (h : Inv s) (hc : ¬ Outside (s.chan.pc c)) {p : Pc C V}
    (hp : ChannelClosed.unsent p = true → ChannelClosed.unsent (s.chan.pc c) = true)
    (hp' : ChannelClosed.unserved p = false) {x : C}
    (hx : s.chan.pc x = .parked) {ws wr : List C}
    (hlist : ∀ d, d ∈ ws ∨ d ∈ wr → Listed s.chan d) {sr : C → Result Unit} {rr : C → Result V}
    (hsr : ∀ d, d ≠ x → sr d = s.sendResult d) (hrr : ∀ d, d ≠ x → d ≠ c → rr d = s.recvResult d)
    (hlate : s.late c = false) :
    Inv { s with
      chan := setPc { s.chan with waitingSenders := ws, waitingReceivers := wr } c p
      sendResult := sr
      recvResult := rr } := by
  have hself : (setPc s.chan c p).pc c = p := by simp
  have hxc : c ≠ x := by
    rintro rfl
    exact hc (Or.inr (Or.inl hx))
  -- a parked call keeps neither error
  have hpark : ∀ d, (ChannelClosed.unsent (s.chan.pc d) = true ∨
      ChannelClosed.unserved (s.chan.pc d) = true) → d ≠ x := by
    rintro d hd rfl
    rw [hx] at hd
    simp [ChannelClosed.unsent, ChannelClosed.unserved, sending] at hd
  refine h.own (h.inside hc) (fun d hd => by simp [hd]) (Or.inl (h.inside hc)) ?_ ⟨rfl, rfl⟩
    h.contents (fun d _ hu => hsr d (hpark d (Or.inl hu))) ?_
    (fun d hd hu => hrr d (hpark d (Or.inr hu)) hd) ?_ rfl ?_
  · intro d hd
    have hd' := h.listed d (hlist d hd)
    have hne : d ≠ c := by
      rintro rfl
      exact hc (Or.inr (Or.inl hd'))
    show (setPc s.chan c p).pc d = .parked
    rw [setPc_pc, if_neg hne]
    exact hd'
  · intro hu
    exact (hsr c hxc).trans (h.unsent c (hp (hself ▸ hu)))
  · intro hu
    have hu' : ChannelClosed.unserved p = true := hself ▸ hu
    rw [hp'] at hu'
    cases hu'
  · intro hl
    rw [hlate] at hl
    cases hl

/-- `c` parks. -/
theorem Inv.park (h : Inv s) (hc : ¬ Outside (s.chan.pc c)) {ws wr : List C}
    (hlist : ∀ d, d ∈ ws ∨ d ∈ wr → Listed s.chan d ∨ d = c) (hlate : s.late c = false) :
    Inv { s with chan := { setPc s.chan c .parked with
      holder := none, waitingSenders := ws, waitingReceivers := wr } } := by
  have hself : (setPc s.chan c (.parked : Pc C V)).pc c = .parked := by simp
  refine h.own (h.inside hc) (fun d hd => by simp [hd]) (Or.inr (Or.inr (Or.inl hself))) ?_
    ⟨rfl, rfl⟩ h.contents (fun _ _ _ => rfl) ?_ (fun _ _ _ => rfl) ?_ rfl ?_
  · intro d hd
    show (setPc s.chan c .parked).pc d = .parked
    rw [setPc_pc]
    split
    · rfl
    · next hne => exact h.listed d ((hlist d hd).resolve_right hne)
  · intro hu
    exact absurd (hself ▸ hu) (by simp [ChannelClosed.unsent, sending])
  · intro hu
    exact absurd (hself ▸ hu) (by simp [ChannelClosed.unserved])
  · intro hl
    rw [hlate] at hl
    cases hl

omit [DecidableEq C] in
/-- Where a late call cannot be. -/
theorem Inv.not_late (h : Inv s) (hno : ¬ LateOk s c) : s.late c = false := by
  by_contra hl
  exact hno (h.late c (by simpa using hl)).2

theorem record_sendPop {v : V} {r : C} {rest : List C} (hpc : s.chan.pc c = .sendPop v)
    (hr : s.chan.waitingReceivers = r :: rest) : record s c = setRecv s r (.ok v) := by
  unfold record
  rw [hpc]
  dsimp only
  rw [hr]

theorem record_recvPop {w : C} {rest : List C} (hpc : s.chan.pc c = .recvPop)
    (hw : s.chan.waitingSenders = w :: rest) :
    record s c = setRecv (setSend s w (.ok ())) c (.ok (s.value w)) := by
  unfold record
  rw [hpc]
  dsimp only
  rw [hw]

theorem Inv.stepCs (h : Inv s) (hs : ChannelClose.stepCs s.chan c = some t) :
    Inv { record s c with chan := t } := by
  have hc : ¬ Outside (s.chan.pc c) := by
    rintro (ho | ho | ho) <;> simp [ChannelClose.stepCs, ho] at hs
  have hin := h.inside hc
  obtain ⟨l, hl⟩ := h.contents
  have hno := h.not_late (c := c)
  have hlate := fun hl => (h.late c hl).2
  unfold LateOk at hno hlate
  cases hpc : s.chan.pc c <;>
    simp only [ChannelClose.stepCs, hpc, reduceCtorEq, not_false_eq_true, forall_const] at hs hno hlate
  case sendTest v =>
    simp only [record, hpc]
    cases hs
    refine h.move hc (Or.inl hin) h.contents (fun _ => by rw [hpc]; rfl) (fun hu => ?_) fun hla => ?_
    · split at hu <;> cases hu
    · obtain ⟨hr, hf⟩ := hlate hla
      simp [LateOk, hr, hf]
  case sendPop v =>
    split at hs
    · next r rest hr =>
      cases hs
      have hmem : Listed s.chan r := Or.inr (hr ▸ List.mem_cons_self)
      rw [record_sendPop hpc hr]
      refine h.pop (p := .sendSchedule r) hc (fun _ => by rw [hpc]; rfl) rfl (h.listed r hmem) ?_
        (fun _ _ => rfl) ?_ hno
      · rintro d (hd | hd)
        · exact Or.inl hd
        · exact Or.inr (hr ▸ List.mem_cons_of_mem _ hd)
      · intro d hd _
        exact Function.update_of_ne hd ..
    · cases hs
  case sendSchedule r =>
    simp only [record, hpc]
    cases hs
    exact h.result hc h.contents (fun d hd => Function.update_of_ne hd ..) fun _ _ => rfl
  case sendFill v =>
    simp only [record, hpc]
    split at hs
    · cases hs
    · next hf =>
      cases hs
      rw [hf, if_neg (by simp)]
      refine h.move hc (Or.inl hin) h.contents (fun _ => by rw [hpc]; rfl) (fun hu => by cases hu) fun _ => ?_
      simp [LateOk]
    · next hf =>
      obtain ⟨hb, hroom⟩ := hl.room hf
      obtain ⟨b, hpush, -, hb'⟩ := hb.safetyPush hroom v
      rw [hpush] at hs
      cases hs
      rw [hf, if_pos rfl]
      exact h.result hc ⟨_, Or.inl hb'⟩ (fun d hd => Function.update_of_ne hd ..) fun _ _ => rfl
  case sendClosed v =>
    simp only [record, hpc]
    cases hs
    split
    · exact h.result hc h.contents (fun _ _ => rfl) fun _ _ => rfl
    · next hopen =>
      refine h.move hc (Or.inl hin) h.contents (fun _ => by rw [hpc]; rfl) (fun hu => by cases hu) fun hla => ?_
      exact absurd (h.isClosed (h.late c hla).1) hopen
  case sendPark v =>
    simp only [record, hpc]
    cases hs
    refine h.park hc ?_ hno
    rintro d (hd | hd)
    · rcases List.mem_append.1 hd with hd | hd
      · exact Or.inl (Or.inl hd)
      · exact Or.inr (List.mem_singleton.1 hd)
    · exact Or.inl (Or.inr hd)
  case recvTest =>
    simp only [record, hpc]
    cases hs
    refine h.move hc (Or.inl hin) h.contents (fun hu => ?_) (fun _ => by rw [hpc]; rfl) fun hla => ?_
    · split at hu <;> cases hu
    · simp [LateOk, hlate hla]
  case recvPop =>
    split at hs
    · next w rest hw =>
      cases hs
      have hmem : Listed s.chan w := Or.inl (hw ▸ List.mem_cons_self)
      rw [record_recvPop hpc hw]
      refine h.pop (p := .recvSchedule w) hc (fun hu => by cases hu) rfl (h.listed w hmem) ?_ ?_ ?_ hno
      · rintro d (hd | hd)
        · exact Or.inl (hw ▸ List.mem_cons_of_mem _ hd)
        · exact Or.inr hd
      · intro d hd
        exact Function.update_of_ne hd ..
      · intro d _ hd
        exact Function.update_of_ne hd ..
    · cases hs
  case recvSchedule w =>
    simp only [record, hpc]
    cases hs
    exact h.result hc h.contents (fun _ _ => rfl) fun _ _ => rfl
  case recvEmpty =>
    simp only [record, hpc]
    split at hs
    · next he =>
      cases hs
      rw [if_pos he]
      refine h.move hc (Or.inl hin) h.contents (fun hu => by cases hu) (fun _ => by rw [hpc]; rfl) fun _ => ?_
      simp [LateOk, he]
    · next he =>
      obtain ⟨v, l', rfl, hb⟩ := hl.nonempty (by simpa using he)
      obtain ⟨b, hpop, -, hb'⟩ := hb.safetyPop
      rw [hpop] at hs
      cases hs
      rw [if_neg he, hpop]
      exact h.result hc ⟨_, Or.inl hb'⟩ (fun _ _ => rfl) fun d hd => Function.update_of_ne hd ..
  case recvClosed =>
    simp only [record, hpc]
    cases hs
    split
    · exact h.result hc h.contents (fun _ _ => rfl) fun _ _ => rfl
    · next hopen =>
      refine h.move hc (Or.inl hin) h.contents (fun hu => by cases hu) (fun _ => by rw [hpc]; rfl) fun hla => ?_
      exact absurd (h.isClosed (h.late c hla).1) hopen
  case recvPark =>
    simp only [record, hpc]
    cases hs
    refine h.park hc ?_ hno
    rintro d (hd | hd)
    · exact Or.inl (Or.inl hd)
    · rcases List.mem_append.1 hd with hd | hd
      · exact Or.inl (Or.inr hd)
      · exact Or.inr (List.mem_singleton.1 hd)

/-- A call takes `mutex_`. -/
theorem Inv.enter (h : Inv s) (hidle : s.chan.pc c = .idle) (hfree : s.chan.holder = none)
    {p : Pc C V} {late : Bool} {value : C → V}
    (hok : late = true → finished s.chan = true ∧
      LateOk { s with chan := { setPc s.chan c p with holder := some c } } c) :
    Inv { ChannelClosed.enter s c late with
      chan := { setPc s.chan c p with holder := some c }, value := value } := by
  have houtside : ∀ d, Outside (s.chan.pc d) := by
    intro d
    apply h.outside d
    rw [hfree]
    simp
  have hpc : ∀ d, d ≠ c → (setPc s.chan c p).pc d = s.chan.pc d := fun d hd => by simp [hd]
  refine ⟨?_, ?_, h.closed, h.contents, ?_, ?_, ?_⟩
  · intro d hd
    have hne : d ≠ c := fun he => hd (by rw [he])
    show Outside ((setPc s.chan c p).pc d)
    rw [hpc d hne]
    exact houtside d
  · intro d hd
    have hp := h.listed d hd
    have hne : d ≠ c := by
      rintro rfl
      rw [hidle] at hp
      cases hp
    exact (hpc d hne).trans hp
  · intro d hd
    by_cases he : d = c
    · subst he
      exact h.unsent d (by rw [hidle]; rfl)
    · exact h.unsent d (by rw [← hpc d he]; exact hd)
  · intro d hd
    by_cases he : d = c
    · subst he
      exact h.unserved d (by rw [hidle]; rfl)
    · exact h.unserved d (by rw [← hpc d he]; exact hd)
  · intro d hd
    by_cases he : d = c
    · subst he
      have hl : Function.update s.late d late d = true := hd
      rw [Function.update_self] at hl
      exact hok hl
    · have hl : Function.update s.late c late d = true := hd
      rw [Function.update_of_ne he] at hl
      exact ⟨(h.late d hl).1,
        LateOk.of_returned ((hpc d he).trans (h.late_returned hl (houtside d)))⟩

omit [DecidableEq C] in
theorem noReceiver_finished {s : ChannelClose.State C V} (h : noReceiver s = true) :
    finished s = true := (Bool.and_eq_true _ _ ▸ h).1

omit [DecidableEq C] in
theorem noSender_finished {s : ChannelClose.State C V} (h : noSender s = true) :
    finished s = true := (Bool.and_eq_true _ _ ▸ h).1

theorem walkStep_frame {s : ChannelClose.State C V} {l : List C} {ph : Walk C → Phase C}
    {finish : Phase C} {w : Walk C} (hs : walkStep s l ph finish w = some t) :
    t.pc = s.pc ∧ t.buf = s.buf ∧ t.holder = s.holder ∧ t.waitingSenders = s.waitingSenders ∧
      t.waitingReceivers = s.waitingReceivers := by
  cases w with
  | begin =>
    cases l <;>
    · cases hs
      exact ⟨rfl, rfl, rfl, rfl, rfl⟩
  | on x =>
    cases hs
    exact ⟨rfl, rfl, rfl, rfl, rfl⟩
  | next x =>
    obtain ⟨o, -, rfl⟩ := Option.map_eq_some_iff.1 hs
    cases o <;> exact ⟨rfl, rfl, rfl, rfl, rfl⟩

/-- A step of `destroy` empties the lists at most, and is none once it has finished. -/
theorem stepDestroy_lists {s : ChannelClose.State C V} (hs : stepDestroy s = some t) :
    t.pc = s.pc ∧ t.buf = s.buf ∧ t.holder = s.holder ∧ (∀ c, Listed t c → Listed s c) ∧
      finished s = false := by
  unfold stepDestroy at hs
  unfold finished
  cases hph : s.phase <;> simp only [hph, reduceCtorEq] at hs
  case senders w =>
    obtain ⟨h1, h2, h3, h4, h5⟩ := walkStep_frame hs
    exact ⟨h1, h2, h3, fun c hc => by unfold Listed at hc ⊢; rwa [h4, h5] at hc, rfl⟩
  case receivers w =>
    obtain ⟨h1, h2, h3, h4, h5⟩ := walkStep_frame hs
    exact ⟨h1, h2, h3, fun c hc => by unfold Listed at hc ⊢; rwa [h4, h5] at hc, rfl⟩
  case clearSenders =>
    cases hs
    exact ⟨rfl, rfl, rfl, fun c hc => Or.inr (hc.resolve_left List.not_mem_nil), rfl⟩
  case clearReceivers =>
    cases hs
    exact ⟨rfl, rfl, rfl, fun c hc => Or.inl (hc.resolve_right List.not_mem_nil), rfl⟩

theorem inv_step (s : State C V) (a : Act C V) (u : State C V) (h : Inv s)
    (hs : step s a = some u) (hok : Exhausted s a u) : Inv u := by
  simp only [step, Option.map_eq_some_iff] at hs
  obtain ⟨t, hs, rfl⟩ := hs
  have hcount : ∀ t : ChannelClose.State C V, t.pc = s.chan.pc → t.buf = s.chan.buf →
      t.holder = s.chan.holder → t.waitingSenders = s.chan.waitingSenders →
      t.waitingReceivers = s.chan.waitingReceivers → t.isClosed = s.chan.isClosed →
      t.phase = s.chan.phase → Inv { s with chan := t } := by
    intro t h1 h2 h3 h4 h5 h6 h7
    refine h.frame h1 h2 h3 (fun c hc => ?_) ?_ rfl rfl rfl fun hf => ⟨?_, h4, h5⟩
    · unfold Listed at hc ⊢
      rwa [← h4, ← h5]
    · show t.isClosed = false → t.phase = .open
      rw [h6, h7]
      exact h.closed
    · unfold finished at hf ⊢
      rwa [h7]
  cases a with
  | send c v =>
    simp only [ChannelClose.step] at hs
    split at hs
    · next hidle hfree =>
      cases hs
      refine h.enter hidle hfree fun hl => ⟨noReceiver_finished hl, ?_⟩
      obtain ⟨hr, hf⟩ := hok.send c v rfl hl
      simp [LateOk, hr, hf, setPc]
    · cases hs
  | recv c =>
    simp only [ChannelClose.step] at hs
    split at hs
    · next hidle hfree =>
      cases hs
      refine h.enter hidle hfree fun hl => ⟨noSender_finished hl, ?_⟩
      simp [LateOk, hok.recv c rfl hl, setPc]
    · cases hs
  | step c => exact h.stepCs hs
  | addSender =>
    cases hs
    exact hcount _ rfl rfl rfl rfl rfl rfl rfl
  | subSender =>
    simp only [ChannelClose.step, Option.ite_none_left_eq_some, Option.some.injEq] at hs
    obtain ⟨-, rfl⟩ := hs
    exact hcount _ rfl rfl rfl rfl rfl rfl rfl
  | addReceiver =>
    cases hs
    exact hcount _ rfl rfl rfl rfl rfl rfl rfl
  | subReceiver =>
    simp only [ChannelClose.step, Option.ite_none_left_eq_some, Option.some.injEq] at hs
    obtain ⟨-, rfl⟩ := hs
    exact hcount _ rfl rfl rfl rfl rfl rfl rfl
  | exchange =>
    simp only [ChannelClose.step, Option.ite_none_left_eq_some] at hs
    obtain ⟨-, hs⟩ := hs
    split at hs
    · cases hs
      exact hcount _ rfl rfl rfl rfl rfl rfl rfl
    · next hopen =>
      cases hs
      refine h.frame rfl rfl rfl (fun _ hc => hc) (fun hc => by cases hc) rfl rfl rfl fun hf => ?_
      exact absurd (h.isClosed hf) hopen
  | destroy =>
    obtain ⟨h1, h2, h3, h4, h5⟩ := stepDestroy_lists hs
    obtain ⟨h6, h7⟩ := stepDestroy_frame hs
    refine h.frame h1 h2 h3 h4 (fun hc => ?_) rfl rfl rfl fun hf => ?_
    · exact absurd (h.closed (h6 ▸ hc)) h7
    · rw [h5] at hf
      cases hf

/-- A late call's next step. -/
theorem Inv.goesOn (h : Inv s) (hl : s.late c = true)
    (hin : sending (s.chan.pc c) = true ∨ receiving (s.chan.pc c) = true) :
    (step s (.step c)).isSome := by
  have hok := (h.late c hl).2
  obtain ⟨l, hc⟩ := h.contents
  rw [step, Option.isSome_map]
  unfold LateOk at hok
  cases hpc : s.chan.pc c <;> simp only [hpc] at hok hin <;>
    simp only [ChannelClose.step, ChannelClose.stepCs, hpc]
  case sendFill v => rw [hok]; rfl
  case recvEmpty =>
    split
    · rfl
    · next he =>
      obtain ⟨v, l', rfl, hb⟩ := hc.nonempty (by simpa using he)
      obtain ⟨b, hpop, -⟩ := hb.safetyPop
      rw [hpop]
      rfl
  case returned => simp [sending, receiving] at hin
  all_goals rfl

theorem Inv.refused (h : Inv s) {u : State C V} (hs : step s (.step c) = some u)
    (hl : s.late c = true) (hin : sending (s.chan.pc c) = true) : Refused s u c := by
  obtain ⟨hf, hok⟩ := h.late c hl
  have hclosed := h.isClosed hf
  have herr : s.sendResult c = .error .kClosedChannel := by
    refine h.unsent c ?_
    cases hpc : s.chan.pc c <;> rw [hpc] at hin <;> first | rfl | cases hin
  simp only [step, Option.map_eq_some_iff] at hs
  obtain ⟨t, hs, rfl⟩ := hs
  unfold LateOk at hok
  cases hpc : s.chan.pc c <;> rw [hpc] at hok hin <;>
    simp only [ChannelClose.step, ChannelClose.stepCs, hpc] at hs <;> simp only [record, hpc]
  case sendTest v =>
    cases hs
    refine ⟨rfl, ?_, ?_⟩ <;> simp [hok.1]
  case sendFill v =>
    rw [hok] at hs
    cases hs
    refine ⟨rfl, ?_, ?_⟩ <;> simp
  case sendClosed v =>
    rw [hclosed] at hs
    cases hs
    exact ⟨rfl, by simp [leave], fun _ => herr⟩
  all_goals first | exact hok.elim | cases hin

theorem Inv.drains (h : Inv s) {u : State C V} (hs : step s (.step c) = some u)
    (hl : s.late c = true) (hin : receiving (s.chan.pc c) = true) : Drains s u c := by
  obtain ⟨hf, hok⟩ := h.late c hl
  have hclosed := h.isClosed hf
  obtain ⟨l, hc⟩ := h.contents
  have herr := h.unserved c
  simp only [step, Option.map_eq_some_iff] at hs
  obtain ⟨t, hs, rfl⟩ := hs
  unfold LateOk at hok
  cases hpc : s.chan.pc c <;> rw [hpc] at hok hin <;>
    simp only [ChannelClose.step, ChannelClose.stepCs, hpc] at hs <;> simp only [record, hpc]
  case recvTest =>
    cases hs
    refine ⟨?_, ?_⟩ <;> simp [hok]
  case recvEmpty =>
    split at hs
    · next he =>
      cases hs
      refine ⟨?_, ?_⟩ <;> simp [he]
    · next he =>
      obtain ⟨v, l', rfl, hb⟩ := hc.nonempty (by simpa using he)
      obtain ⟨b, hpop, -, hb'⟩ := hb.safetyPop
      rw [hpop] at hs
      cases hs
      rw [if_neg he, hpop]
      exact ⟨by simp [leave], fun _ => ⟨_, hc, by simp [setRecv], Or.inl hb'⟩⟩
  case recvClosed =>
    rw [hclosed] at hs
    cases hs
    obtain rfl := hc.isEmpty_iff.1 hok
    exact ⟨by simp [leave], fun _ => ⟨[], hc, herr (by rw [hpc]; rfl), rfl⟩⟩
  all_goals first | exact hok.elim | cases hin

/-! ## Top theorems -/

/-- **Closed channel.**  For any number of senders and receivers, every capacity
and every interleaving in which late sends find nobody waiting and no room and
late receives nobody waiting: late sends are refused and leave the buffer alone,
late receives return the buffered values in order and then the error. -/
theorem late_calls [Inhabited V] (n m cap : Nat) (as : List (Act C V))
    (hok : EachStep step Exhausted (init n m cap) as) :
    EachStep step Closed (init n m cap : State C V) as := by
  refine eachStep_of_inv Inv inv_step ?_ (inv_init n m cap) hok
  intro s a u h hs _
  refine ⟨fun c hl hin => h.goesOn hl hin, ?_, ?_⟩
  · rintro c rfl hl hin
    exact h.refused hs hl hin
  · rintro c rfl hl hin
    exact h.drains hs hl hin

end

/-- The last receiver goes, and `destroy` runs to its end. -/
def receiverGoes : List (Act Unit Nat) :=
  [.subReceiver, .exchange, .destroy, .destroy, .destroy, .destroy]

/-- A channel without a place in its buffer refuses a late `send`. -/
def refusedRun : List (Act Unit Nat) := receiverGoes ++ [.send () 7, .step (), .step (), .step ()]

theorem late_send_refused :
    EachStep step Closed (init 1 1 0 : State Unit Nat) refusedRun ∧
      ∃ s, run step (init 1 1 0 : State Unit Nat) refusedRun = some s ∧ s.late () = true ∧
        s.chan.pc () = .returned ∧ s.sendResult () = .error .kClosedChannel := by
  refine ⟨late_calls 1 1 0 refusedRun ?_, _, rfl, rfl, rfl, rfl⟩
  iterate 6
    rintro t ⟨⟩
    refine ⟨⟨fun _ _ h => (by cases h), fun _ h => (by cases h)⟩, ?_⟩
  rintro t ⟨⟩
  refine ⟨⟨fun _ _ _ _ => ⟨rfl, rfl⟩, fun _ h => (by cases h)⟩, ?_⟩
  iterate 3
    rintro t ⟨⟩
    refine ⟨⟨fun _ _ h => (by cases h), fun _ h => (by cases h)⟩, ?_⟩
  trivial

/-- Capacity 1: with the last receiver gone and `destroy` finished, a `send` succeeds. -/
theorem late_send_succeeds :
    ∃ s, run step (init 1 1 1 : State Unit Nat) (receiverGoes ++ [.send () 7, .step (), .step ()]) =
        some s ∧ s.chan.numReceivers = 0 ∧ s.late () = true ∧ s.chan.pc () = .returned ∧
      s.sendResult () = .ok () ∧ s.chan.buf.isEmpty = false ∧
      ¬ EachStep step Closed (init 1 1 1 : State Unit Nat)
        (receiverGoes ++ [.send () 7, .step (), .step ()]) := by
  refine ⟨_, rfl, rfl, rfl, rfl, rfl, rfl, fun h => ?_⟩
  -- the last step is that of the `send` that pushes
  have hlast := (h _ rfl).2
  iterate 7
    replace hlast := (hlast _ rfl).2
  have hbad := (((hlast _ rfl).1.send () rfl rfl rfl).result rfl)
  cases hbad

end Kosio.ChannelClosed
