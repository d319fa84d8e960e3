import Kosio.Common.Error
import Kosio.Common.RingBuffer
import Kosio.Lib.Run

/-!
# `Channel`: the order in which values arrive

The critical sections of `send` and `recv` and the closing `destroy`, each one
step.  A value travels as a message that carries the number of its `send`, and
calls are numbered in the order of their critical sections.

A `recv` that finds a parked sender takes its value even when older ones are in
the buffer (`newer_first`).  As long as none does, the values received are
those of the successful sends, in order (`fifo_iff`).
-/

namespace Kosio.Channel

open Steps

/-! ## Algorithm -/

/-- A value and the number of the `send` it comes from. -/
structure Msg (V : Type) where
  call : Nat
  value : V
deriving DecidableEq, Inhabited

structure State (V : Type) where
  buf : HeapRingBuffer (Msg V)
  /-- the parked `SendAwaiter`s -/
  waitingSenders : List (Msg V)
  /-- the parked `RecvAwaiter`s, by number -/
  waitingReceivers : List Nat
  isClosed : Bool
  /-- every `send` so far -/
  sends : List (Msg V)
  /-- what `send` has returned; `none` while it is suspended -/
  sendResult : Nat → Option (Result Unit)
  numRecvs : Nat
  recvResult : Nat → Option (Result (Msg V))
  /-- what `recv` has yielded, in the order of the hand-overs -/
  received : List (Msg V)

variable {V : Type}

def init [Inhabited V] (cap : Nat) : State V :=
  ⟨.make cap, [], [], false, [], fun _ => none, 0, fun _ => none, []⟩

/-- Result of a `send`. -/
def setSend (s : State V) (call : Nat) (r : Result Unit) : State V :=
  { s with sendResult := Function.update s.sendResult call (some r) }

/-- Result of a `recv`. -/
def setRecv (s : State V) (call : Nat) (r : Result (Msg V)) : State V :=
  { s with recvResult := Function.update s.recvResult call (some r) }

/-- A `recv` gets the message. -/
def deliver (s : State V) (call : Nat) (m : Msg V) : State V :=
  { setRecv s call (.ok m) with received := s.received ++ [m] }

inductive Act (V : Type) where
  | send (value : V)
  | recv
  | destroy

/-- `SendAwaiter::await_suspend` of the message `m`. -/
def send (s : State V) (m : Msg V) : Option (State V) :=
  match s.waitingReceivers with
  | receiver :: rest =>
    some (setSend (deliver { s with waitingReceivers := rest } receiver m) m.call (.ok ()))
  | [] =>
    match s.buf.isFill with
    | none => none
    | some true =>
      if s.isClosed then some (setSend s m.call (.error .kClosedChannel))
      else some { s with waitingSenders := s.waitingSenders ++ [m] }
    | some false => (s.buf.safetyPush m).map fun buf => setSend { s with buf } m.call (.ok ())

/-- `RecvAwaiter::await_suspend` of the call `r`. -/
def recv (s : State V) (r : Nat) : Option (State V) :=
  match s.waitingSenders with
  | sender :: rest =>
    some (deliver (setSend { s with waitingSenders := rest } sender.call (.ok ())) r sender)
  | [] =>
    if s.buf.isEmpty then
      if s.isClosed then some (setRecv s r (.error .kClosedChannel))
      else some { s with waitingReceivers := s.waitingReceivers ++ [r] }
    else s.buf.safetyPop.map fun p => deliver { s with buf := p.2 } r p.1

/-- The parked calls return the error they were made with. -/
def destroy (s : State V) : State V :=
  if s.isClosed then s
  else
    { s with
      isClosed := true
      sendResult := fun k =>
        if k ∈ s.waitingSenders.map Msg.call then some (.error .kClosedChannel) else s.sendResult k
      recvResult := fun k =>
        if k ∈ s.waitingReceivers then some (.error .kClosedChannel) else s.recvResult k
      waitingSenders := []
      waitingReceivers := [] }

def step (s : State V) : Act V → Option (State V)
  | .send value =>
    let m : Msg V := ⟨s.sends.length, value⟩
    send { s with sends := s.sends ++ [m] } m
  | .recv => recv { s with numRecvs := s.numRecvs + 1 } s.numRecvs
  | .destroy => some (destroy s)

/-! ## What is promised -/

def isOk : Option (Result Unit) → Bool
  | some (.ok _) => true
  | _ => false

/-- The sends that have succeeded, in the order of their critical sections. -/
def succeeded (s : State V) : List (Msg V) := s.sends.filter fun m => isOk (s.sendResult m.call)

/-- The `k`-th message received is that of the `k`-th successful send. -/
def Fifo (s : State V) : Prop := s.received <+: succeeded s

/-- No `recv` finds a parked sender while the buffer holds something. -/
def InOrder (s : State V) (a : Act V) (_ : State V) : Prop :=
  a = .recv → s.waitingSenders ≠ [] → s.buf.isEmpty = true

/-! ## Invariant -/

/-- The buffer holds `l`; a buffer without a slot holds nothing. -/
def Holds (b : HeapRingBuffer (Msg V)) (l : List (Msg V)) : Prop :=
  b.Holds l ∨ b.data = [] ∧ b.isEmpty = true ∧ l = []

structure Inv (s : State V) (l : List (Msg V)) : Prop where
  buf : Holds s.buf l
  sorted : s.sends.Pairwise fun a b => a.call < b.call
  bound : ∀ m ∈ s.sends, m.call < s.sends.length
  fresh : ∀ k, s.sends.length ≤ k → s.sendResult k = none
  order : succeeded s = s.received ++ l
  /-- the parked senders came after everything that has succeeded -/
  parked : ∀ w ∈ s.waitingSenders, w ∈ s.sends ∧ isOk (s.sendResult w.call) = false ∧
    ∀ m ∈ succeeded s, m.call < w.call
  parkedSorted : s.waitingSenders.Pairwise fun a b => a.call < b.call
  full : s.waitingSenders ≠ [] → l.length + 1 = s.buf.data.length
  receivers : s.waitingReceivers ≠ [] → l = [] ∧ s.waitingSenders = []

theorem inv_init [Inhabited V] (cap : Nat) : Inv (init cap : State V) [] := by
  refine ⟨?_, List.Pairwise.nil, by simp [init], fun _ _ => rfl, rfl, by simp [init],
    List.Pairwise.nil, by simp [init], by simp [init]⟩
  exact HeapRingBuffer.make_contents cap

/-! ## Lemmas -/

theorem Holds.contents {b : HeapRingBuffer (Msg V)} {l : List (Msg V)} (h : Holds b l) :
    b.Contents l := h

/-- The sends that `ok` accepts, when it comes to accept a later one. -/
theorem filter_update {sends : List (Msg V)} {res : Nat → Option (Result Unit)} {w : Msg V}
    (hs : sends.Pairwise fun a b => a.call < b.call) (hw : w ∈ sends)
    (hn : isOk (res w.call) = false)
    (hlate : ∀ m ∈ sends.filter fun m => isOk (res m.call), m.call < w.call) :
    (sends.filter fun m => isOk (Function.update res w.call (some (.ok ())) m.call)) =
      (sends.filter fun m => isOk (res m.call)) ++ [w] := by
  obtain ⟨pre, post, rfl⟩ := List.append_of_mem hw
  rw [List.pairwise_append] at hs
  obtain ⟨-, hpost, hpre⟩ := hs
  rw [List.pairwise_cons] at hpost
  have hpre' : ∀ m ∈ pre, m.call ≠ w.call := fun m hm =>
    Nat.ne_of_lt (hpre m hm w List.mem_cons_self)
  have hpost' : ∀ m ∈ post, m.call ≠ w.call := fun m hm => Nat.ne_of_gt (hpost.1 m hm)
  -- what comes after `w` has not succeeded
  have hnone : ∀ m ∈ post, isOk (res m.call) = false := by
    intro m hm
    by_contra hok
    have hmem : m ∈ (pre ++ w :: post).filter fun m => isOk (res m.call) := by
      rw [List.mem_filter]
      exact ⟨by simp [hm], by simpa using hok⟩
    have := hlate m hmem
    have := hpost.1 m hm
    omega
  have e1 : (pre.filter fun m => isOk (Function.update res w.call (some (.ok ())) m.call)) =
      pre.filter fun m => isOk (res m.call) := by
    apply List.filter_congr
    intro m hm
    rw [Function.update_of_ne (hpre' m hm)]
  have e2 : (post.filter fun m => isOk (Function.update res w.call (some (.ok ())) m.call)) = [] := by
    rw [List.filter_eq_nil_iff]
    intro m hm
    rw [Function.update_of_ne (hpost' m hm), hnone m hm]
    simp
  have e3 : (post.filter fun m => isOk (res m.call)) = [] := by
    rw [List.filter_eq_nil_iff]
    intro m hm
    simp [hnone m hm]
  have hwok : isOk (Function.update res w.call (some (.ok ())) w.call) = true := by
    rw [Function.update_self]
    rfl
  simp only [List.filter_append, List.filter_cons, hwok, hn, e1, e2, e3, if_true,
    Bool.false_eq_true, if_false, List.append_nil]

/-- Taking the value of a parked sender makes it the last of the successful ones. -/
theorem Inv.succeeded_take {s t : State V} {l : List (Msg V)} {w : Msg V} (h : Inv s l)
    (hw : w ∈ s.waitingSenders) (hs : t.sends = s.sends)
    (hr : t.sendResult = Function.update s.sendResult w.call (some (.ok ()))) :
    succeeded t = succeeded s ++ [w] := by
  obtain ⟨hws, hwn, hwl⟩ := h.parked w hw
  unfold succeeded
  rw [hs, hr]
  exact filter_update h.sorted hws hwn hwl

/-- The result of a new `send` is not that of an old one. -/
theorem update_bound {s : State V} {m : Msg V} (hb : ∀ x ∈ s.sends, x.call < s.sends.length)
    (hm : m.call = s.sends.length) (r : Option (Result Unit)) :
    ∀ x ∈ s.sends, Function.update s.sendResult m.call r x.call = s.sendResult x.call := by
  intro x hx
  have := hb x hx
  rw [Function.update_of_ne (by omega)]

theorem succeeded_enter {s t : State V} {m : Msg V} {r : Option (Result Unit)}
    (hb : ∀ x ∈ s.sends, x.call < s.sends.length) (hm : m.call = s.sends.length)
    (hsends : t.sends = s.sends ++ [m])
    (hres : t.sendResult = Function.update s.sendResult m.call r) :
    succeeded t = succeeded s ++ if isOk r then [m] else [] := by
  unfold succeeded
  rw [hsends, hres, List.filter_append]
  congr 1
  · apply List.filter_congr
    intro x hx
    rw [update_bound hb hm r x hx]
  · cases hr : isOk r <;> simp [hr]

/-- A new `send` is entered with its result `r`: it succeeds only while nobody is
parked, or it fails, or it parks. -/
theorem Inv.enter {s t : State V} {l l' : List (Msg V)} (h : Inv s l) (m : Msg V)
    (r : Option (Result Unit)) (new : List (Msg V)) (hm : m.call = s.sends.length)
    (hsends : t.sends = s.sends ++ [m])
    (hres : t.sendResult = Function.update s.sendResult m.call r)
    (hnew : t.waitingSenders = s.waitingSenders ++ new) (hnew' : ∀ x ∈ new, x = m ∧ isOk r = false)
    (hnd : new.Pairwise fun a b => a.call < b.call) (hok : isOk r = true → s.waitingSenders = [])
    (hbuf : Holds t.buf l')
    (horder : t.received ++ l' = s.received ++ l ++ if isOk r then [m] else [])
    (hfull : t.waitingSenders ≠ [] → l'.length + 1 = t.buf.data.length)
    (hrecv : t.waitingReceivers ≠ [] → l' = [] ∧ t.waitingSenders = []) : Inv t l' := by
  have hold := update_bound h.bound hm r
  have hsucc := succeeded_enter h.bound hm hsends hres
  refine ⟨hbuf, ?_, ?_, ?_, ?_, ?_, ?_, hfull, hrecv⟩
  · rw [hsends, List.pairwise_append]
    refine ⟨h.sorted, List.pairwise_singleton _ _, ?_⟩
    intro a ha b hb
    rw [List.mem_singleton.1 hb, hm]
    exact h.bound a ha
  · intro x hx
    rw [hsends, List.mem_append, List.mem_singleton] at hx
    rw [hsends, List.length_append, List.length_singleton]
    rcases hx with hx | rfl
    · have := h.bound x hx
      omega
    · omega
  · intro k hk
    rw [hsends, List.length_append, List.length_singleton] at hk
    rw [hres, Function.update_of_ne (by omega)]
    exact h.fresh k (by omega)
  · rw [hsucc, h.order, horder]
  · intro x hx
    rw [hnew, List.mem_append] at hx
    rw [hsends, hres, hsucc]
    rcases hx with hx | hx
    · have hnok : isOk r = false := by
        by_contra hr
        rw [hok (by simpa using hr)] at hx
        cases hx
      obtain ⟨h1, h2, h3⟩ := h.parked x hx
      refine ⟨List.mem_append_left _ h1, by rwa [hold x h1], ?_⟩
      simpa [hnok] using h3
    · obtain ⟨rfl, hnok⟩ := hnew' x hx
      refine ⟨by simp, by rwa [Function.update_self], ?_⟩
      intro y hy
      simp only [hnok, Bool.false_eq_true, if_false, List.append_nil] at hy
      rw [hm]
      exact h.bound y (List.mem_of_mem_filter hy)
  · rw [hnew, List.pairwise_append]
    refine ⟨h.parkedSorted, hnd, ?_⟩
    intro a ha b hb
    rw [(hnew' b hb).1, hm]
    exact h.bound a (h.parked a ha).1

/-- What `send` of `m` does to a channel that holds `l`, and what it holds then. -/
inductive Sent (s : State V) (m : Msg V) : List (Msg V) → State V → List (Msg V) → Prop where
  /-- handed to a parked receiver: the buffer is empty -/
  | handed {c : Nat} {rest : List Nat} (hr : s.waitingReceivers = c :: rest)
      (hw : s.waitingSenders = []) :
    Sent s m [] (setSend (deliver { s with sends := s.sends ++ [m], waitingReceivers := rest } c m)
      m.call (.ok ())) []
  | refused {l : List (Msg V)} (hfull : l.length + 1 = s.buf.data.length) :
    Sent s m l (setSend { s with sends := s.sends ++ [m] } m.call (.error .kClosedChannel)) l
  | parked {l : List (Msg V)} (hr : s.waitingReceivers = [])
      (hfull : l.length + 1 = s.buf.data.length) :
    Sent s m l { s with sends := s.sends ++ [m], waitingSenders := s.waitingSenders ++ [m] } l
  | buffered {l : List (Msg V)} {b : HeapRingBuffer (Msg V)} (hr : s.waitingReceivers = [])
      (hw : s.waitingSenders = []) (hb : b.Holds (l ++ [m])) :
    Sent s m l (setSend { s with sends := s.sends ++ [m], buf := b } m.call (.ok ())) (l ++ [m])

theorem send_cases {s t : State V} {l : List (Msg V)} {v : V} (hbuf : Holds s.buf l)
    (hfull : s.waitingSenders ≠ [] → l.length + 1 = s.buf.data.length)
    (hrecv : s.waitingReceivers ≠ [] → l = [] ∧ s.waitingSenders = [])
    (hs : step s (.send v) = some t) : ∃ l', Sent s ⟨s.sends.length, v⟩ l t l' := by
  simp only [step, Channel.send] at hs
  split at hs
  · next c rest hr =>
    cases hs
    obtain ⟨rfl, hw⟩ := hrecv (by rw [hr]; simp)
    exact ⟨[], .handed hr hw⟩
  · next hr =>
    split at hs
    · cases hs
    · next hfill =>
      have hlen := hbuf.contents.isFill_iff.1 hfill
      split at hs
      · cases hs
        exact ⟨l, .refused hlen⟩
      · cases hs
        exact ⟨l, .parked hr hlen⟩
    · next hfill =>
      obtain ⟨hb, hroom⟩ := hbuf.contents.room hfill
      obtain ⟨b, hpush, hlen, hb'⟩ := hb.safetyPush hroom ⟨s.sends.length, v⟩
      rw [hpush] at hs
      cases hs
      have hw : s.waitingSenders = [] := by
        by_contra hne
        have := hfull hne
        omega
      exact ⟨l ++ [⟨s.sends.length, v⟩], .buffered hr hw hb'⟩

/-- What `recv` does to a channel that holds `l`. -/
inductive Received (s : State V) : List (Msg V) → State V → List (Msg V) → Prop where
  /-- from the front sender, whatever the buffer holds -/
  | taken {l : List (Msg V)} {w : Msg V} {rest : List (Msg V)} (hw : s.waitingSenders = w :: rest) :
    Received s l (deliver (setSend { s with numRecvs := s.numRecvs + 1, waitingSenders := rest }
      w.call (.ok ())) s.numRecvs w) l
  | refused : Received s [] (setRecv { s with numRecvs := s.numRecvs + 1 } s.numRecvs
      (.error .kClosedChannel)) []
  | parked (hw : s.waitingSenders = []) :
    Received s [] { s with
      numRecvs := s.numRecvs + 1, waitingReceivers := s.waitingReceivers ++ [s.numRecvs] } []
  | popped {m : Msg V} {l : List (Msg V)} {b : HeapRingBuffer (Msg V)}
      (hw : s.waitingSenders = []) (hb : b.Holds l) :
    Received s (m :: l) (deliver { s with numRecvs := s.numRecvs + 1, buf := b } s.numRecvs m) l

theorem recv_cases {s t : State V} {l : List (Msg V)} (hbuf : Holds s.buf l)
    (hs : step s .recv = some t) : ∃ l', Received s l t l' := by
  simp only [step, Channel.recv] at hs
  split at hs
  · next w rest hw =>
    cases hs
    exact ⟨l, .taken hw⟩
  · next hw =>
    split at hs
    · next he =>
      obtain rfl := hbuf.contents.isEmpty_iff.1 he
      split at hs
      · cases hs
        exact ⟨[], .refused⟩
      · cases hs
        exact ⟨[], .parked hw⟩
    · next he =>
      obtain ⟨m, l', rfl, hb⟩ := hbuf.contents.nonempty (by simpa using he)
      obtain ⟨b, hpop, hlen, hb'⟩ := hb.safetyPop
      rw [hpop] at hs
      cases hs
      exact ⟨l', .popped hw hb'⟩

/-- Every `send` keeps the order. -/
theorem Inv.send {s t : State V} {l : List (Msg V)} {v : V} (h : Inv s l)
    (hs : step s (.send v) = some t) : ∃ l', Inv t l' := by
  have hup : s.sendResult = Function.update s.sendResult s.sends.length none := by
    rw [← h.fresh _ (Nat.le_refl _), Function.update_eq_self]
  obtain ⟨l', hsent⟩ := send_cases h.buf h.full h.receivers hs
  refine ⟨l', ?_⟩
  cases hsent with
  | handed hr hw =>
    refine h.enter ⟨s.sends.length, v⟩ (some (.ok ())) [] rfl rfl rfl (List.append_nil _).symm
      (List.forall_mem_nil _) List.Pairwise.nil (fun _ => hw) h.buf
      (by simp [setSend, deliver, isOk]) ?_ fun _ => ⟨rfl, hw⟩
    exact fun hne => absurd hw hne
  | refused hfull =>
    exact h.enter ⟨s.sends.length, v⟩ (some (.error .kClosedChannel)) [] rfl rfl rfl
      (List.append_nil _).symm (List.forall_mem_nil _) List.Pairwise.nil (by simp [isOk]) h.buf
      (by simp [setSend, isOk]) (fun _ => hfull) h.receivers
  | parked hr hfull =>
    refine h.enter ⟨s.sends.length, v⟩ none [⟨s.sends.length, v⟩] rfl rfl hup rfl ?_
      (List.pairwise_singleton _ _) (by simp [isOk]) h.buf (by simp [isOk]) (fun _ => hfull) ?_
    · intro x hx
      exact ⟨List.mem_singleton.1 hx, rfl⟩
    · exact fun hne => absurd hr hne
  | buffered hr hw hb =>
    refine h.enter ⟨s.sends.length, v⟩ (some (.ok ())) [] rfl rfl rfl (List.append_nil _).symm
      (List.forall_mem_nil _) List.Pairwise.nil (fun _ => hw) (Or.inl hb) ?_ ?_ ?_
    · simp [setSend, isOk]
    · exact fun hne => absurd hw hne
    · exact fun hne => absurd hr hne

/-- What a `recv` does that finds a parked sender. -/
structure Takes (s t : State V) (w : Msg V) (rest : List (Msg V)) : Prop where
  buf : t.buf = s.buf
  sends : t.sends = s.sends
  sendResult : t.sendResult = Function.update s.sendResult w.call (some (.ok ()))
  waitingSenders : t.waitingSenders = rest
  waitingReceivers : t.waitingReceivers = s.waitingReceivers
  received : t.received = s.received ++ [w]

theorem recv_takes {s t : State V} {w : Msg V} {rest : List (Msg V)}
    (hs : step s .recv = some t) (hw : s.waitingSenders = w :: rest) : Takes s t w rest := by
  simp only [step, Channel.recv, hw] at hs
  cases hs
  exact ⟨rfl, rfl, rfl, rfl, rfl, rfl⟩

/-- With the buffer empty the front sender is next in order. -/
theorem Inv.take {s t : State V} {w : Msg V} {rest : List (Msg V)} (h : Inv s [])
    (hw : s.waitingSenders = w :: rest) (ht : Takes s t w rest) : Inv t [] := by
  have hwm : w ∈ s.waitingSenders := hw ▸ List.mem_cons_self
  have hws := (h.parked w hwm).1
  have hsort := h.parkedSorted
  rw [hw, List.pairwise_cons] at hsort
  have hsucc := h.succeeded_take hwm ht.sends ht.sendResult
  have hmem : ∀ x ∈ rest, x ∈ s.waitingSenders := fun x hx => hw ▸ List.mem_cons_of_mem _ hx
  refine ⟨ht.buf ▸ h.buf, ht.sends ▸ h.sorted, ht.sends ▸ h.bound, ?_, ?_, ?_, ?_, fun _ => ?_,
    fun hne => ?_⟩
  · intro k hk
    rw [ht.sends] at hk
    have hwb := h.bound w hws
    rw [ht.sendResult, Function.update_of_ne (by omega)]
    exact h.fresh k hk
  · rw [hsucc, h.order, ht.received, List.append_nil, List.append_nil]
  · intro x hx
    rw [ht.waitingSenders] at hx
    obtain ⟨h1, h2, h3⟩ := h.parked x (hmem x hx)
    refine ⟨ht.sends ▸ h1, ?_, ?_⟩
    · rw [ht.sendResult, Function.update_of_ne (Nat.ne_of_gt (hsort.1 x hx))]
      exact h2
    · intro y hy
      rw [hsucc, List.mem_append, List.mem_singleton] at hy
      rcases hy with hy | rfl
      · exact h3 y hy
      · exact hsort.1 x hx
  · rw [ht.waitingSenders]
    exact hsort.2
  · rw [ht.buf]
    exact h.full (by rw [hw]; simp)
  · rw [ht.waitingReceivers] at hne
    exact absurd (h.receivers hne).2 (by rw [hw]; simp)

/-- A `recv` in order keeps the order. -/
theorem Inv.recv {s t : State V} {l : List (Msg V)} (h : Inv s l) (hs : step s .recv = some t)
    (hok : s.waitingSenders ≠ [] → s.buf.isEmpty = true) : ∃ l', Inv t l' := by
  obtain ⟨l', hrecv⟩ := recv_cases h.buf hs
  refine ⟨l', ?_⟩
  cases hrecv with
  | taken hw =>
    obtain rfl := h.buf.contents.isEmpty_iff.1 (hok (by rw [hw]; simp))
    exact h.take hw (recv_takes hs hw)
  | refused =>
    exact ⟨h.buf, h.sorted, h.bound, h.fresh, h.order, h.parked, h.parkedSorted, h.full,
      h.receivers⟩
  | parked hw =>
    exact ⟨h.buf, h.sorted, h.bound, h.fresh, h.order, h.parked, h.parkedSorted, h.full,
      fun _ => ⟨rfl, hw⟩⟩
  | @popped m _ _ hw hb =>
    refine ⟨Or.inl hb, h.sorted, h.bound, h.fresh, ?_, h.parked, h.parkedSorted,
      fun hx => absurd hw hx, fun hx => ?_⟩
    · show succeeded s = (s.received ++ [m]) ++ l'
      rw [h.order]
      simp
    · exact absurd (h.receivers hx).1 (by simp)

theorem Inv.destroy {s : State V} {l : List (Msg V)} (h : Inv s l) : Inv (destroy s) l := by
  unfold Channel.destroy
  split
  · exact h
  · -- the parked senders had not succeeded and do not now
    have hsame : ∀ k, isOk (if k ∈ s.waitingSenders.map Msg.call then some (.error .kClosedChannel)
        else s.sendResult k) = isOk (s.sendResult k) := by
      intro k
      split
      · next hk =>
        obtain ⟨w, hw, rfl⟩ := List.mem_map.1 hk
        rw [(h.parked w hw).2.1]
        rfl
      · rfl
    refine ⟨h.buf, h.sorted, h.bound, ?_, ?_, nofun, List.Pairwise.nil,
      fun hne => absurd rfl hne, fun hne => absurd rfl hne⟩
    · intro k hk
      have hk' : s.sends.length ≤ k := hk
      have hnot : k ∉ s.waitingSenders.map Msg.call := by
        intro hm
        obtain ⟨w, hw, rfl⟩ := List.mem_map.1 hm
        have := h.bound w (h.parked w hw).1
        omega
      exact (if_neg hnot).trans (h.fresh k hk')
    · exact (List.filter_congr fun m _ => hsame m.call).trans h.order

theorem inv_step (s : State V) (a : Act V) (t : State V) (h : ∃ l, Inv s l)
    (hs : step s a = some t) (hok : InOrder s a t) : ∃ l, Inv t l := by
  obtain ⟨l, h⟩ := h
  cases a with
  | send v => exact h.send hs
  | recv => exact h.recv hs (hok rfl)
  | destroy =>
    cases hs
    exact ⟨l, h.destroy⟩

/-- A parked sender's value taken past the buffer is out of order. -/
theorem Inv.inOrder {s t : State V} {l : List (Msg V)} {a : Act V} (h : Inv s l)
    (hs : step s a = some t) (hf : Fifo t) : InOrder s a t := by
  rintro rfl hne
  by_contra he
  have hl : l ≠ [] := fun hl => he (h.buf.contents.isEmpty_iff.2 hl)
  obtain ⟨m, l', rfl⟩ := List.exists_cons_of_ne_nil hl
  obtain ⟨w, rest, hw⟩ := List.exists_cons_of_ne_nil hne
  have hwm : w ∈ s.waitingSenders := hw ▸ List.mem_cons_self
  have hwl := (h.parked w hwm).2.2
  have ht := recv_takes hs hw
  rw [Fifo, ht.received, h.succeeded_take hwm ht.sends ht.sendResult, h.order, List.append_assoc,
    List.prefix_append_right_inj, List.cons_append, List.cons_prefix_cons] at hf
  have hm : m ∈ succeeded s := by
    rw [h.order]
    simp
  have := hwl m hm
  rw [hf.1] at this
  omega

/-! ## Top theorems -/

/-- **First in, first out.**  For every capacity, the runs that yield the
values of the successful sends in order are exactly those in which no `recv`
finds a parked sender while the buffer holds something. -/
theorem fifo_iff [Inhabited V] (cap : Nat) (as : List (Act V)) :
    EachStep step (fun _ _ t => Fifo t) (init cap) as ↔ EachStep step InOrder (init cap) as := by
  refine eachStep_iff (fun s => ∃ l, Inv s l) inv_step ?_ ⟨[], inv_init cap⟩
  rintro s a t ⟨l, h⟩ hs
  constructor
  · exact h.inOrder hs
  · intro hok
    obtain ⟨l', h'⟩ := inv_step s a t ⟨l, h⟩ hs hok
    exact ⟨l', h'.order.symm⟩

/-- Capacity 1: 10 is buffered, 20 is parked, and 20 is received first. -/
theorem newer_first : ∃ s, run step (init 1) [.send 10, .send 20, .recv] = some s ∧
    s.received = [⟨1, 20⟩] ∧ (succeeded s).map Msg.value = [10, 20] ∧ ¬ Fifo s := by
  refine ⟨_, rfl, rfl, by decide, ?_⟩
  unfold Fifo
  decide

end Kosio.Channel
