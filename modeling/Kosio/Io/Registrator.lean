import Mathlib.Data.List.Perm.Basic
import Kosio.Common.Error
import Kosio.Lib.Run

/-!
# `IoRegistrator`: from an operation to its result

An operation takes an SQE in its constructor, names its callback in it, and is
awaited.  `Timeout` is an operation moved to a new place, with a timer.  The
classes differ in what they add:

* most of them nothing (`plain`);
* those that write `sqe_->addr` in their constructor (`addressed`: vectored
  reads and writes, `TcpSocket::connect`);
* `BaseStream::connect`, whose `await_suspend` opens the socket.

A callback is named by its address; an SQE by its place in the queue, which it
keeps until the end of the `co_await` expression.

`await_resume` takes `result_ >= 0` for success.  Failures are reported, and a
suspended coroutine has its request under way, in exactly the runs in which

    no connect with an SQE, and a timer if it asks for one, fails to get a socket

                                                              (reported_iff)
-/

namespace Kosio.IoRegistrator

open Steps

/-! ## The ring -/

/-- What is asked of the kernel. -/
inductive Request where
  | nop
  | io
  /-- `io_uring_prep_cancel` of what carries this callback -/
  | cancel (cb : Nat)
  /-- the read of the eventfd into `flag_` -/
  | read
  | close
deriving DecidableEq

/-- `io_uring_sqe` -/
structure Sqe where
  request : Request := .nop
  userData : Option Nat := none
deriving DecidableEq

/-- `io_uring_cqe` -/
structure Cqe where
  userData : Option Nat
  res : Int
deriving DecidableEq

/-- `IoUring`, the submission side. -/
structure Ring where
  entries : Nat
  /-- handed out by `get_sqe` and not yet submitted -/
  sq : List Sqe := []
  submitTick : Nat := 0
  submitInterval : Nat

namespace Ring

def Room (r : Ring) : Prop := r.sq.length < r.entries

instance (r : Ring) : Decidable r.Room := inferInstanceAs (Decidable (r.sq.length < r.entries))

/-- `get_sqe`; null when the queue is full. -/
def getSqe (r : Ring) : Ring × Option Nat :=
  if r.Room then ({ r with sq := r.sq ++ [{}] }, some r.sq.length) else (r, none)

/-- A write through a pointer to an SQE. -/
def write (r : Ring) (sqe : Nat) (f : Sqe → Sqe) : Ring := { r with sq := r.sq.modify sqe f }

/-- The same through a pointer that may be null; `none` is the use of a null pointer. -/
def write? (r : Ring) (sqe : Option Nat) (f : Sqe → Sqe) : Option Ring :=
  sqe.map fun sqe => r.write sqe f

end Ring

/-! ## Operations -/

inductive Class where
  | plain | addressed | connect
deriving DecidableEq

/-- An `IoRegistrator`, or what is derived from it. -/
structure Io where
  cls : Class
  /-- the address of `cb_` -/
  cb : Nat
  sqe : Option Nat
  /-- `cb_.result_` -/
  result : Int := 0
  /-- `fd_` of `Connect`, not initialised -/
  fd : Option Int := none

def ENOMEM : Int := 12

/-- The constructor of `IoRegistrator` at `cb`, and what the derived one adds. -/
def construct (r : Ring) (cls : Class) (cb : Nat) : Option (Ring × Io) :=
  let (r, sqe) := r.getSqe
  let (r, io) : Ring × Io := match sqe with
    | some i => (r.write i fun _ => { request := .io, userData := some cb }, { cls, cb, sqe })
    | none => (r, { cls, cb, sqe, result := -ENOMEM })
  match cls with
  -- `sqe_->addr = ...`
  | .addressed => (r.write? io.sqe id).map fun r => (r, io)
  | _ => some (r, io)

/-- The move constructor, to the address `cb`. -/
def move (r : Ring) (io : Io) (cb : Nat) : Option (Ring × Io) :=
  (r.write? io.sqe fun sqe => { sqe with userData := some cb }).map fun r => (r, { io with cb })

/-- A socket for `Connect`, the number of bytes or a descriptor for the others. -/
def Io.awaitResume (io : Io) : Result (Option Int) :=
  if io.result ≥ 0 then
    match io.cls with
    | .connect => .ok io.fd
    | _ => .ok (some io.result)
  else .error ⟨-io.result⟩

inductive Status where
  | suspended
  | resumed (ret : Result (Option Int))

/-! ## The machine -/

structure State where
  ring : Ring
  /-- submitted and not yet answered -/
  inflight : List Sqe
  cq : List Cqe
  /-- the operations awaited, by the address of their callback -/
  ios : Nat → Option (Io × Status)
  /-- the addresses used so far -/
  made : Nat
  /-- the callbacks that an entry of the timer points to -/
  timer : List Nat
  /-- `flag_` of the waker is not 0 -/
  flag : Bool
  /-- a null pointer has been used -/
  crashed : Bool
  /-- what the kernel answered -/
  answers : List (Nat × Int)
  /-- the callbacks whose timer has expired, and those a cancel request was queued for -/
  expired : List Nat
  cancelled : List Nat

def init (entries submitInterval : Nat) : State :=
  { ring := { entries, submitInterval }, inflight := [], cq := [], ios := fun _ => none, made := 0
    timer := [], flag := true, crashed := false, answers := [], expired := [], cancelled := [] }

/-- `IoUring::submit` -/
def submit (s : State) : State :=
  { s with ring := { s.ring with sq := [], submitTick := 0 }, inflight := s.inflight ++ s.ring.sq }

def pendSubmit (s : State) : State :=
  let s := { s with ring := { s.ring with submitTick := s.ring.submitTick + 1 } }
  if s.ring.submitTick ≥ s.ring.submitInterval then submit s else s

/-- What the outside says during a `co_await`. -/
structure Outcome where
  /-- `Timer::insert` fails with `kPassedTime` -/
  refused : Bool
  /-- `::socket`: a descriptor or `errno` -/
  socket : Except Nat Nat

/-- The SQE becomes a nop that nobody waits for. -/
def withdraw (s : State) (sqe : Nat) : State :=
  { s with ring := s.ring.write sqe fun _ => {} }

/-- `await_suspend` of the class itself: what it returns, `true` if nothing. -/
def awaitSuspend (s : State) (io : Io) (sqe : Nat) (o : Outcome) : State × Io × Bool :=
  match io.cls with
  | .connect =>
    match o.socket with
    | .error errno => (withdraw s sqe, { io with fd := some (-1), result := errno }, false)
    | .ok fd => (pendSubmit s, { io with fd := some fd }, true)
  | _ => (pendSubmit s, io, true)

/-- `await_suspend` of `Timeout`. -/
def awaitTimeout (s : State) (io : Io) (sqe : Nat) (o : Outcome) : State × Io × Bool :=
  if o.refused then
    (withdraw s sqe, { io with result := -Error.kPassedTime.errorCode }, false)
  else
    -- what `T::await_suspend` returns is dropped
    let (s, io, _) := awaitSuspend { s with timer := s.timer ++ [io.cb] } io sqe o
    (s, io, true)

def store (s : State) (io : Io) (status : Status) : State :=
  { s with ios := Function.update s.ios io.cb (some (io, status)) }

/-- The operation as the `co_await` finds it, moved if it has a timeout. -/
def operation (s : State) (cls : Class) (timed : Bool) : Option (State × Io) :=
  match construct s.ring cls s.made with
  | none => none
  | some (ring, io) =>
    if timed then
      (move ring io (s.made + 1)).map fun (ring, io) => ({ s with ring, made := s.made + 2 }, io)
    else some ({ s with ring, made := s.made + 1 }, io)

def coAwait (s : State) (cls : Class) (timed : Bool) (o : Outcome) : State :=
  match operation s cls timed with
  | none => { s with crashed := true }
  | some (s, io) =>
    match io.sqe with
    -- `await_ready`
    | none => store s io (.resumed io.awaitResume)
    | some sqe =>
      let (s, io, suspended) :=
        if timed then awaitTimeout s io sqe o else awaitSuspend s io sqe o
      if suspended then store s io .suspended else store s io (.resumed io.awaitResume)

/-- The kernel answers a request. -/
def answer (s : State) (i : Nat) (sqe : Sqe) (res : Int) : State :=
  { s with
    inflight := s.inflight.eraseIdx i
    cq := s.cq ++ [⟨sqe.userData, res⟩]
    flag := s.flag || (sqe.request = .read ∧ res ≥ 0)
    answers := match sqe.userData with
      | some cb => s.answers ++ [(cb, res)]
      | none => s.answers }

/-- One turn of the loop of `Driver::poll`, and the coroutine resumes. -/
def reap (s : State) (cqe : Cqe) : State :=
  match cqe.userData with
  | none => s
  | some cb =>
    match s.ios cb with
    | none => s
    | some (io, _) =>
      let io := { io with result := cqe.res }
      store { s with timer := s.timer.erase cb } io (.resumed io.awaitResume)

/-- `Entry::execute` -/
def execute (s : State) (cb : Nat) : State :=
  let (ring, sqe) := s.ring.getSqe
  let s := match sqe with
    | some i =>
      pendSubmit { s with
        ring := ring.write i fun _ => { request := .cancel cb }, cancelled := s.cancelled ++ [cb] }
    | none => s
  { s with timer := s.timer.erase cb, expired := s.expired ++ [cb] }

/-- `Waker::turn_on` -/
def turnOn (s : State) : State :=
  if s.flag then
    let s := { s with flag := false }
    let (ring, sqe) := s.ring.getSqe
    match ring.write? sqe fun _ => { request := .read } with
    | some ring => { s with ring }
    | none => { s with crashed := true }
  else s

/-- `do_close` of a descriptor, which closes it at once when there is no SQE. -/
def doClose (s : State) : State :=
  let (ring, sqe) := s.ring.getSqe
  match sqe with
  | some i => pendSubmit { s with ring := ring.write i fun _ => { request := .close } }
  | none => s

inductive Act where
  | coAwait (cls : Class) (timed : Bool) (o : Outcome)
  | submit
  | answer (i : Nat) (res : Int)
  | reap
  /-- the timer of `cb` expires -/
  | execute (cb : Nat)
  | turnOn
  | doClose

def step (s : State) (a : Act) : Option State :=
  if s.crashed then none
  else match a with
    | .coAwait cls timed o => some (coAwait s cls timed o)
    | .submit => some (submit s)
    | .answer i res => s.inflight[i]?.map fun sqe => answer s i sqe res
    | .reap =>
      match s.cq with
      | [] => none
      | cqe :: cq => some (reap { s with cq } cqe)
    | .execute cb => if cb ∈ s.timer then some (execute s cb) else none
    | .turnOn => some (turnOn s)
    | .doClose => some (doClose s)

/-! ## Specification -/

/-- The requests that carry `cb` and whose answer has not been handled. -/
def inFlight (s : State) (cb : Nat) : Nat :=
  (s.ring.sq.map (·.userData)).count (some cb) + (s.inflight.map (·.userData)).count (some cb) +
    (s.cq.map (·.userData)).count (some cb)

/-- The code of a failure: what the kernel answered, or why it was not asked. -/
def Cause (answers : List (Nat × Int)) (cb : Nat) (e : Error) : Prop :=
  0 < e.errorCode ∧ ((cb, -e.errorCode) ∈ answers ∨ e = ⟨ENOMEM⟩ ∨ e = .kPassedTime)

/-- Failures are reported, and nobody waits for nothing. -/
structure Reported (s : State) : Prop where
  ok : ∀ cb io value, s.ios cb = some (io, .resumed (.ok value)) →
    ∃ res, (cb, res) ∈ s.answers ∧ 0 ≤ res
  error : ∀ cb io e, s.ios cb = some (io, .resumed (.error e)) → Cause s.answers cb e
  suspended : ∀ cb io, s.ios cb = some (io, .suspended) → inFlight s cb = 1

/-- A connect has its SQE, and its timer if it asks for one, and gets no socket. -/
def SocketFails (s : State) : Act → Prop
  | .coAwait .connect timed o =>
    s.ring.Room ∧ (timed = true → o.refused = false) ∧ ∃ errno, o.socket = .error errno
  | _ => False

/-! ## The ring -/

theorem modify_concat {α : Type} (l : List α) (x : α) (f : α → α) :
    (l ++ [x]).modify l.length f = l ++ [f x] := by
  induction l with
  | nil => rfl
  | cons y l ih => exact congrArg (y :: ·) ih

namespace Ring

theorem getSqe_room {r : Ring} (h : r.Room) :
    r.getSqe = ({ r with sq := r.sq ++ [{}] }, some r.sq.length) := if_pos h

theorem getSqe_full {r : Ring} (h : ¬ r.Room) : r.getSqe = (r, none) := if_neg h

/-- A write to the SQE handed out last. -/
theorem write_last (r : Ring) (sqe : Sqe) (f : Sqe → Sqe) :
    ({ r with sq := r.sq ++ [sqe] } : Ring).write r.sq.length f =
      { r with sq := r.sq ++ [f sqe] } := by
  unfold write
  rw [modify_concat]

end Ring

/-- The ring after an operation has taken an SQE and put `cb` into it. -/
def Ring.taken (r : Ring) (cb : Nat) : Ring :=
  { r with sq := r.sq ++ [{ request := .io, userData := some cb }] }

theorem construct_room {r : Ring} (h : r.Room) (cls : Class) (cb : Nat) :
    construct r cls cb = some (r.taken cb, { cls, cb, sqe := some r.sq.length }) := by
  unfold construct
  simp only [Ring.getSqe_room h, Ring.write_last]
  cases cls with
  | plain => rfl
  | connect => rfl
  | addressed =>
    simp only [Ring.write?, Option.map_some, Ring.write_last]
    rfl

theorem construct_full {r : Ring} (h : ¬ r.Room) (cls : Class) (cb : Nat) :
    construct r cls cb =
      if cls = .addressed then none else some (r, { cls, cb, sqe := none, result := -ENOMEM }) := by
  unfold construct
  rw [Ring.getSqe_full h]
  cases cls <;> rfl

/-- Where the callback is when the operation is awaited. -/
def callback (s : State) (timed : Bool) : Nat := if timed then s.made + 1 else s.made

/-- **With an SQE** an operation comes to its `co_await` in order. -/
theorem operation_room {s : State} (h : s.ring.Room) (cls : Class) (timed : Bool) :
    operation s cls timed =
      some ({ s with ring := s.ring.taken (callback s timed), made := callback s timed + 1 },
        { cls, cb := callback s timed, sqe := some s.ring.sq.length }) := by
  unfold operation callback
  rw [construct_room h]
  cases timed with
  | false => rfl
  | true =>
    simp only [move, Ring.taken, Ring.write?, Option.map_some, if_true, Ring.write_last]

/-- **Without**, a class that writes to it and a timeout use the null pointer. -/
theorem operation_full {s : State} (h : ¬ s.ring.Room) (cls : Class) (timed : Bool) :
    operation s cls timed =
      if cls = .addressed ∨ timed = true then none
      else some ({ s with made := s.made + 1 },
        { cls, cb := s.made, sqe := none, result := -ENOMEM }) := by
  unfold operation
  rw [construct_full h]
  by_cases hc : cls = .addressed
  · rw [if_pos hc, if_pos (Or.inl hc)]
  · rw [if_neg hc]
    cases timed with
    | false => rw [if_neg (by simpa using hc)]; rfl
    | true => rw [if_pos (Or.inr rfl)]; rfl

/-! ## What the steps do -/

/-- What submitting and the like leave as it was. -/
structure Same (s u : State) : Prop where
  cq : u.cq = s.cq
  ios : u.ios = s.ios
  answers : u.answers = s.answers
  crashed : u.crashed = s.crashed
  expired : u.expired = s.expired
  cancelled : u.cancelled = s.cancelled

theorem Same.trans {s t u : State} (h : Same s t) (h' : Same t u) : Same s u :=
  ⟨h'.cq.trans h.cq, h'.ios.trans h.ios, h'.answers.trans h.answers, h'.crashed.trans h.crashed,
    h'.expired.trans h.expired, h'.cancelled.trans h.cancelled⟩

theorem inFlight_submit (s : State) (cb : Nat) : inFlight (submit s) cb = inFlight s cb := by
  unfold inFlight submit
  simp only [List.map_nil, List.count_nil, List.map_append, List.count_append]
  omega

theorem same_pendSubmit (s : State) : Same s (pendSubmit s) := by
  unfold pendSubmit
  dsimp only
  split <;> exact ⟨rfl, rfl, rfl, rfl, rfl, rfl⟩

theorem pendSubmit_made (s : State) : (pendSubmit s).made = s.made := by
  unfold pendSubmit
  dsimp only
  split <;> rfl

theorem pendSubmit_timer (s : State) : (pendSubmit s).timer = s.timer := by
  unfold pendSubmit
  dsimp only
  split <;> rfl

theorem inFlight_pendSubmit (s : State) (cb : Nat) : inFlight (pendSubmit s) cb = inFlight s cb := by
  unfold pendSubmit
  dsimp only
  split
  · exact inFlight_submit _ cb
  · rfl

/-- One more SQE in the queue. -/
theorem inFlight_push {s u : State} (sqe : Sqe) (hq : u.ring.sq = s.ring.sq ++ [sqe])
    (hf : u.inflight = s.inflight) (hc : u.cq = s.cq) (cb : Nat) :
    inFlight u cb = inFlight s cb + if sqe.userData = some cb then 1 else 0 := by
  unfold inFlight
  rw [hq, hf, hc, List.map_append, List.count_append]
  have : ([sqe].map (·.userData)).count (some cb) = if sqe.userData = some cb then 1 else 0 := by
    rw [List.map_singleton, List.count_singleton]
    simp only [beq_iff_eq]
  omega

/-- A request that nobody waits for is queued, and perhaps submitted. -/
theorem queued_same (s : State) (sqe : Sqe) (hd : sqe.userData = none) :
    let u := pendSubmit { s with ring := { s.ring with sq := s.ring.sq ++ [sqe] } }
    Same s u ∧ u.made = s.made ∧ u.timer = s.timer ∧ ∀ c, inFlight u c = inFlight s c := by
  intro u
  let t : State := { s with ring := { s.ring with sq := s.ring.sq ++ [sqe] } }
  have hsame : Same s t := ⟨rfl, rfl, rfl, rfl, rfl, rfl⟩
  refine ⟨hsame.trans (same_pendSubmit t), pendSubmit_made t, pendSubmit_timer t, fun c => ?_⟩
  have hpush := inFlight_push (s := s) (u := t) sqe rfl rfl rfl c
  rw [hd, if_neg nofun] at hpush
  exact (inFlight_pendSubmit t c).trans hpush

/-- How an operation at `cb` is left by its `await_suspend`, with `n` requests. -/
structure Awaited (s : State) (cb n : Nat) (u : State) : Prop extends Same s u where
  made : u.made = cb + 1
  inFlight : ∀ c, inFlight u c = IoRegistrator.inFlight s c + if c = cb then n else 0
  timer : u.timer = s.timer ∨ u.timer = s.timer ++ [cb]

/-- The state in which `await_suspend` is called, and what it may do to it. -/
theorem awaited_cases {s : State} (io : Io) (timer : List Nat)
    (ht : timer = s.timer ∨ timer = s.timer ++ [io.cb]) :
    let t := { s with ring := s.ring.taken io.cb, made := io.cb + 1, timer }
    Awaited s io.cb 1 (pendSubmit t) ∧ Awaited s io.cb 0 (withdraw t s.ring.sq.length) := by
  intro t
  constructor
  · refine ⟨(⟨rfl, rfl, rfl, rfl, rfl, rfl⟩ : Same s t).trans (same_pendSubmit t),
      pendSubmit_made t, fun c => ?_, ?_⟩
    · rw [inFlight_pendSubmit]
      refine (inFlight_push (s := s) (u := t) _ rfl rfl rfl c).trans ?_
      simp only [Option.some.injEq, eq_comm]
    · rw [pendSubmit_timer]
      exact ht
  · have hring : (withdraw t s.ring.sq.length).ring.sq = s.ring.sq ++ [({} : Sqe)] :=
      congrArg Ring.sq (Ring.write_last s.ring _ _)
    refine ⟨⟨rfl, rfl, rfl, rfl, rfl, rfl⟩, rfl, fun c => ?_, ht⟩
    refine (inFlight_push (s := s) (u := withdraw t s.ring.sq.length) {} hring rfl rfl c).trans ?_
    simp

/-- `Connect` gets no socket. -/
def NoSocket (cls : Class) (o : Outcome) : Prop := cls = .connect ∧ ∃ errno, o.socket = .error errno

theorem awaitSuspend_cases (t : State) (io : Io) (sqe : Nat) (o : Outcome) :
    (NoSocket io.cls o ∧ ∃ errno : Nat, awaitSuspend t io sqe o =
      (withdraw t sqe, { io with fd := some (-1), result := errno }, false)) ∨
    (¬ NoSocket io.cls o ∧ ∃ io', io'.cb = io.cb ∧ io'.sqe = io.sqe ∧
      awaitSuspend t io sqe o = (pendSubmit t, io', true)) := by
  obtain ⟨cls, cb, sqe', result, fd⟩ := io
  have hplain : cls ≠ .connect → ¬ NoSocket cls o := fun hne h => hne h.1
  cases cls with
  | plain => exact Or.inr ⟨hplain nofun, _, rfl, rfl, rfl⟩
  | addressed => exact Or.inr ⟨hplain nofun, _, rfl, rfl, rfl⟩
  | connect =>
    cases ho : o.socket with
    | error errno =>
      refine Or.inl ⟨⟨rfl, errno, ho⟩, errno, ?_⟩
      simp only [awaitSuspend, ho]
    | ok fd =>
      refine Or.inr ⟨fun ⟨_, errno, he⟩ => ?_, { cls := .connect, cb, sqe := sqe', result, fd := some fd },
        rfl, rfl, ?_⟩
      · rw [ho] at he
        cases he
      · simp only [awaitSuspend, ho]

theorem socketFails_iff {s : State} (h : s.ring.Room) (cls : Class) (timed : Bool) (o : Outcome) :
    SocketFails s (.coAwait cls timed o) ↔ NoSocket cls o ∧ (timed = true → o.refused = false) := by
  constructor
  · cases cls with
    | plain => exact False.elim
    | addressed => exact False.elim
    | connect => exact fun ⟨_, hr, he⟩ => ⟨⟨rfl, he⟩, hr⟩
  · rintro ⟨⟨rfl, he⟩, hr⟩
    exact ⟨h, hr, he⟩

/-- **A `co_await` with an SQE.**  The coroutine waits for one request; or its timer is
refused and it hears of that; or it gets no socket, and then it waits for nothing or
takes `-1` for a connection. -/
theorem coAwait_room {s : State} (h : s.ring.Room) (cls : Class) (timed : Bool) (o : Outcome) :
    ∃ u io, io.cb = callback s timed ∧ io.sqe ≠ none ∧
      ((Awaited s io.cb 1 u ∧ coAwait s cls timed o = store u io .suspended ∧
          ¬ SocketFails s (.coAwait cls timed o)) ∨
        (Awaited s io.cb 0 u ∧
          coAwait s cls timed o = store u io (.resumed (.error .kPassedTime)) ∧
          ¬ SocketFails s (.coAwait cls timed o)) ∨
        (Awaited s io.cb 0 u ∧ SocketFails s (.coAwait cls timed o) ∧
          (coAwait s cls timed o = store u io .suspended ∨
            coAwait s cls timed o = store u io (.resumed (.ok (some (-1))))))) := by
  rw [socketFails_iff h]
  unfold coAwait
  rw [operation_room h]
  dsimp only
  generalize hio : ({ cls, cb := callback s timed, sqe := some s.ring.sq.length } : Io) = io
  have hcb : io.cb = callback s timed := by rw [← hio]
  have hcls : io.cls = cls := by rw [← hio]
  have hsqe : io.sqe ≠ none := by rw [← hio]; nofun
  rw [← hcb, ← hcls]
  cases timed with
  | false =>
    obtain ⟨hp, hw⟩ := awaited_cases io s.timer (Or.inl rfl)
    simp only [Bool.false_eq_true, if_false, false_implies, and_true]
    have hcases := awaitSuspend_cases
      { s with ring := s.ring.taken io.cb, made := io.cb + 1 } io s.ring.sq.length o
    rcases hcases with ⟨hs, errno, he⟩ | ⟨hs, io', hcb', hsqe', he⟩
    · rw [he]
      refine ⟨_, { io with fd := some (-1), result := errno }, rfl, hsqe,
        Or.inr (Or.inr ⟨hw, hs, Or.inr ?_⟩)⟩
      have hconn : io.cls = .connect := hs.1
      simp [Io.awaitResume, hconn]
    · rw [he]
      exact ⟨_, io', hcb', hsqe' ▸ hsqe, Or.inl ⟨hcb' ▸ hp, rfl, hs⟩⟩
  | true =>
    simp only [if_true, true_implies, awaitTimeout]
    by_cases hr : o.refused = true
    · obtain ⟨-, hw⟩ := awaited_cases io s.timer (Or.inl rfl)
      simp only [hr, if_true]
      refine ⟨_, { io with result := -Error.kPassedTime.errorCode }, rfl, hsqe,
        Or.inr (Or.inl ⟨hw, ?_, ?_⟩)⟩
      · rfl
      · simp
    · obtain ⟨hp, hw⟩ := awaited_cases io (s.timer ++ [io.cb]) (Or.inr rfl)
      have hr' : o.refused = false := by simpa using hr
      simp only [hr', Bool.false_eq_true, if_false, and_true]
      have hcases := awaitSuspend_cases { s with
        ring := s.ring.taken io.cb, made := io.cb + 1, timer := s.timer ++ [io.cb] }
        io s.ring.sq.length o
      rcases hcases with ⟨hs, errno, he⟩ | ⟨hs, io', hcb', hsqe', he⟩
      · rw [he]
        exact ⟨_, { io with fd := some (-1), result := errno }, rfl, hsqe,
          Or.inr (Or.inr ⟨hw, hs, Or.inl rfl⟩)⟩
      · rw [he]
        exact ⟨_, io', hcb', hsqe' ▸ hsqe, Or.inl ⟨hcb' ▸ hp, rfl, hs⟩⟩

/-- **A `co_await` without.** -/
theorem coAwait_full {s : State} (h : ¬ s.ring.Room) (cls : Class) (timed : Bool) (o : Outcome) :
    coAwait s cls timed o =
      if cls = .addressed ∨ timed = true then { s with crashed := true }
      else store { s with made := s.made + 1 }
        { cls, cb := s.made, sqe := none, result := -ENOMEM } (.resumed (.error ⟨ENOMEM⟩)) := by
  unfold coAwait
  rw [operation_full h]
  by_cases hc : cls = .addressed ∨ timed = true
  · rw [if_pos hc, if_pos hc]
  · rw [if_neg hc, if_neg hc]
    rfl

theorem not_socketFails_full {s : State} (h : ¬ s.ring.Room) (cls : Class) (timed : Bool)
    (o : Outcome) : ¬ SocketFails s (.coAwait cls timed o) := by
  cases cls with
  | plain => exact id
  | addressed => exact id
  | connect => exact fun hs => h hs.1

/-- What the expiry of the timer of `cb` does. -/
structure Executed (s : State) (cb : Nat) (u : State) : Prop where
  ios : u.ios = s.ios
  answers : u.answers = s.answers
  cq : u.cq = s.cq
  made : u.made = s.made
  crashed : u.crashed = s.crashed
  inFlight : ∀ c, inFlight u c = IoRegistrator.inFlight s c
  timer : u.timer = s.timer.erase cb
  expired : u.expired = s.expired ++ [cb]
  /-- the cancel request is queued if there is room for it -/
  cancelled : u.cancelled = if s.ring.Room then s.cancelled ++ [cb] else s.cancelled

theorem execute_executed (s : State) (cb : Nat) : Executed s cb (execute s cb) := by
  unfold execute
  by_cases h : s.ring.Room
  · simp only [Ring.getSqe_room h, Ring.write_last]
    obtain ⟨hsame, hmade, htimer, hfl⟩ := queued_same
      { s with cancelled := s.cancelled ++ [cb] } { request := .cancel cb } rfl
    refine ⟨hsame.ios, hsame.answers, hsame.cq, hmade, hsame.crashed, hfl,
      congrArg (List.erase · cb) htimer, congrArg (· ++ [cb]) hsame.expired, ?_⟩
    rw [if_pos h]
    exact hsame.cancelled
  · rw [Ring.getSqe_full h]
    refine ⟨rfl, rfl, rfl, rfl, rfl, fun _ => rfl, rfl, rfl, ?_⟩
    rw [if_neg h]

theorem same_doClose (s : State) :
    Same s (doClose s) ∧ (doClose s).made = s.made ∧ (doClose s).timer = s.timer ∧
      ∀ c, inFlight (doClose s) c = inFlight s c := by
  unfold doClose
  by_cases h : s.ring.Room
  · simp only [Ring.getSqe_room h, Ring.write_last]
    exact queued_same s { request := .close } rfl
  · rw [Ring.getSqe_full h]
    exact ⟨⟨rfl, rfl, rfl, rfl, rfl, rfl⟩, rfl, rfl, fun _ => rfl⟩

theorem turnOn_cases (s : State) :
    (turnOn s = s ∧ s.flag = false) ∨
    (s.flag = true ∧ s.ring.Room ∧ turnOn s = { s with
      flag := false, ring := { s.ring with sq := s.ring.sq ++ [{ request := .read }] } }) ∨
    (s.flag = true ∧ ¬ s.ring.Room ∧ turnOn s = { s with flag := false, crashed := true }) := by
  unfold turnOn
  cases hf : s.flag with
  | false => exact Or.inl ⟨rfl, rfl⟩
  | true =>
    by_cases h : s.ring.Room
    · refine Or.inr (Or.inl ⟨rfl, h, ?_⟩)
      simp only [if_true, Ring.getSqe_room h, Ring.write?, Option.map_some, Ring.write_last]
    · refine Or.inr (Or.inr ⟨rfl, h, ?_⟩)
      simp only [if_true, Ring.getSqe_full h, Ring.write?, Option.map_none]

/-! ## Invariant -/

structure Inv (s : State) : Prop extends Reported s where
  fresh : ∀ cb, s.made ≤ cb → s.ios cb = none
  place : ∀ cb io status, s.ios cb = some (io, status) → io.cb = cb
  waits : ∀ cb, 0 < inFlight s cb → ∃ io, s.ios cb = some (io, .suspended)
  answered : ∀ cqe ∈ s.cq, ∀ cb, cqe.userData = some cb → (cb, cqe.res) ∈ s.answers
  known : ∀ p ∈ s.answers, p.1 < s.made

theorem inv_init (entries submitInterval : Nat) : Inv (init entries submitInterval) :=
  ⟨⟨nofun, nofun, nofun⟩, fun _ _ => rfl, nofun, fun _ h => absurd h (Nat.lt_irrefl 0), nofun, nofun⟩

theorem Inv.congr {s u : State} (h : Inv s) (h1 : u.ios = s.ios) (h2 : u.answers = s.answers)
    (h3 : u.cq = s.cq) (h4 : u.made = s.made) (h5 : ∀ cb, inFlight u cb = inFlight s cb) : Inv u := by
  refine ⟨⟨?_, ?_, ?_⟩, ?_, ?_, ?_, ?_, ?_⟩
  · rw [h1, h2]
    exact h.ok
  · rw [h1, h2]
    exact h.error
  · intro cb io hs
    rw [h1] at hs
    rw [h5]
    exact h.suspended cb io hs
  · rw [h1, h4]
    exact h.fresh
  · rw [h1]
    exact h.place
  · intro cb hpos
    rw [h5] at hpos
    rw [h1]
    exact h.waits cb hpos
  · rw [h2, h3]
    exact h.answered
  · rw [h2, h4]
    exact h.known

theorem Inv.lt {s : State} (h : Inv s) {cb : Nat} (hs : s.ios cb ≠ none) : cb < s.made := by
  by_contra hlt
  exact hs (h.fresh cb (Nat.not_lt.1 hlt))

theorem Awaited.store_ios {s u : State} {io : Io} {n : Nat} (hu : Awaited s io.cb n u)
    (status : Status) (c : Nat) :
    (store u io status).ios c = if c = io.cb then some (io, status) else s.ios c := by
  show Function.update u.ios io.cb _ c = _
  rw [Function.update_apply, hu.ios]

/-- An operation is the new one, or one of those before. -/
theorem Awaited.store_cases {s u : State} {io : Io} {n : Nat} (hu : Awaited s io.cb n u)
    (status : Status) {c : Nat} {io' : Io} {st : Status}
    (hs : (store u io status).ios c = some (io', st)) :
    (c = io.cb ∧ io' = io ∧ st = status) ∨ (c ≠ io.cb ∧ s.ios c = some (io', st)) := by
  rw [hu.store_ios] at hs
  split at hs
  · next hc =>
    cases hs
    exact Or.inl ⟨hc, rfl, rfl⟩
  · next hc => exact Or.inr ⟨hc, hs⟩

/-- What the state of an operation asks for, when `n` requests carry its callback. -/
def Kept (n : Nat) : Status → Prop
  | .suspended => n = 1
  | .resumed (.error e) => n = 0 ∧ (e = ⟨ENOMEM⟩ ∨ e = .kPassedTime)
  | .resumed (.ok _) => False

/-- A new operation is added to those there are. -/
theorem Inv.add {s u : State} (h : Inv s) {io : Io} {n : Nat} {status : Status}
    (hu : Awaited s io.cb n u) (hnew : s.made ≤ io.cb) (hk : Kept n status) :
    Inv (store u io status) := by
  have hself := hu.store_ios status
  have hfl : ∀ c, inFlight (store u io status) c = inFlight s c + if c = io.cb then n else 0 :=
    hu.inFlight
  have hzero : inFlight s io.cb = 0 := by
    by_contra h0
    obtain ⟨io', hs⟩ := h.waits io.cb (Nat.pos_of_ne_zero h0)
    rw [h.fresh io.cb hnew] at hs
    cases hs
  refine ⟨⟨fun c io' value hs => ?_, fun c io' e hs => ?_, fun c io' hs => ?_⟩, fun c hc => ?_,
    fun c io' st hs => ?_, fun c hpos => ?_, ?_, fun p hp => ?_⟩
  · rcases hu.store_cases status hs with ⟨-, -, rfl⟩ | ⟨-, hs⟩
    · exact hk.elim
    · show ∃ res, (c, res) ∈ u.answers ∧ 0 ≤ res
      rw [hu.answers]
      exact h.ok c io' value hs
  · rcases hu.store_cases status hs with ⟨-, -, rfl⟩ | ⟨-, hs⟩
    · show Cause u.answers c e
      rcases hk.2 with rfl | rfl
      · exact ⟨by decide, Or.inr (Or.inl rfl)⟩
      · exact ⟨by decide, Or.inr (Or.inr rfl)⟩
    · show Cause u.answers c e
      rw [hu.answers]
      exact h.error c io' e hs
  · rw [hfl]
    rcases hu.store_cases status hs with ⟨rfl, -, rfl⟩ | ⟨hc, hs⟩
    · have hk : n = 1 := hk
      rw [if_pos rfl, hzero, hk]
    · rw [if_neg hc]
      exact h.suspended c io' hs
  · have hc : u.made ≤ c := hc
    rw [hu.made] at hc
    rw [hself, if_neg (by omega)]
    exact h.fresh c (by omega)
  · rcases hu.store_cases status hs with ⟨rfl, rfl, -⟩ | ⟨-, hs⟩
    · rfl
    · exact h.place c io' st hs
  · rw [hfl] at hpos
    rw [hself]
    split
    · next hc =>
      rw [if_pos hc, hc, hzero, Nat.zero_add] at hpos
      cases status with
      | suspended => exact ⟨io, rfl⟩
      | resumed ret =>
        cases ret with
        | ok value => exact hk.elim
        | error e =>
          have := hk.1
          omega
    · next hc =>
      rw [if_neg hc] at hpos
      exact h.waits c hpos
  · show ∀ cqe ∈ u.cq, ∀ cb, cqe.userData = some cb → (cb, cqe.res) ∈ u.answers
    rw [hu.cq, hu.answers]
    exact h.answered
  · have hp : p ∈ u.answers := hp
    rw [hu.answers] at hp
    have := h.known p hp
    show p.1 < u.made
    rw [hu.made]
    omega

/-! ### The kernel's answers -/

/-- An answer moves the request to the completion queue. -/
theorem inFlight_answer {s : State} {i : Nat} {sqe : Sqe} (hi : s.inflight[i]? = some sqe)
    (res : Int) (cb : Nat) : inFlight (answer s i sqe res) cb = inFlight s cb := by
  obtain ⟨hlt, rfl⟩ := List.getElem?_eq_some_iff.1 hi
  have hp := ((List.getElem_cons_eraseIdx_perm hlt).map (·.userData)).count_eq (some cb)
  unfold inFlight answer
  simp only [List.map_append, List.count_append, List.map_cons, List.map_nil, List.count_cons,
    List.count_nil] at hp ⊢
  omega

theorem mem_answers_answer {s : State} {i : Nat} {sqe : Sqe} {res : Int} {p : Nat × Int} :
    p ∈ (answer s i sqe res).answers ↔ p ∈ s.answers ∨ (sqe.userData = some p.1 ∧ p.2 = res) := by
  unfold answer
  cases hd : sqe.userData with
  | none => simp
  | some cb =>
    simp only [List.mem_append, List.mem_singleton, Option.some.injEq, Prod.ext_iff]
    exact or_congr_right (and_congr_left fun _ => eq_comm)

theorem Inv.answer {s : State} (h : Inv s) {i : Nat} {sqe : Sqe} (hi : s.inflight[i]? = some sqe)
    (res : Int) : Inv (answer s i sqe res) := by
  have hfl := inFlight_answer hi res
  refine ⟨⟨fun cb io value hs => ?_, fun cb io e hs => ?_, fun cb io hs => ?_⟩, h.fresh, h.place,
    fun cb hpos => ?_, fun cqe hc cb hd => ?_, fun p hp => ?_⟩
  · obtain ⟨r, hr, h0⟩ := h.ok cb io value hs
    exact ⟨r, mem_answers_answer.2 (Or.inl hr), h0⟩
  · obtain ⟨h0, hcause⟩ := h.error cb io e hs
    exact ⟨h0, hcause.imp_left fun hm => mem_answers_answer.2 (Or.inl hm)⟩
  · rw [hfl]
    exact h.suspended cb io hs
  · rw [hfl] at hpos
    exact h.waits cb hpos
  · rcases List.mem_append.1 hc with hc | hc
    · exact mem_answers_answer.2 (Or.inl (h.answered cqe hc cb hd))
    · rw [List.mem_singleton.1 hc] at hd ⊢
      exact mem_answers_answer.2 (Or.inr ⟨hd, rfl⟩)
  · rcases mem_answers_answer.1 hp with hp | ⟨hd, -⟩
    · exact h.known p hp
    · have hmem : sqe ∈ s.inflight := List.mem_of_getElem? hi
      have hpos : 0 < inFlight s p.1 := by
        have : 0 < (s.inflight.map (·.userData)).count (some p.1) :=
          List.count_pos_iff.2 (List.mem_map.2 ⟨sqe, hmem, hd⟩)
        unfold inFlight
        omega
      obtain ⟨io, hs⟩ := h.waits p.1 hpos
      exact h.lt (by rw [hs]; nofun)

/-- A completion is handled: `n` is how often it counts. -/
theorem inFlight_cons {s : State} {cqe : Cqe} {cq : List Cqe} (hc : s.cq = cqe :: cq) (cb : Nat) :
    inFlight s cb =
      inFlight { s with cq } cb + if cqe.userData = some cb then 1 else 0 := by
  unfold inFlight
  rw [hc, List.map_cons, List.count_cons]
  simp only [beq_iff_eq]
  omega

/-- What handling a completion leaves as it was. -/
structure Handled (s u : State) : Prop where
  answers : u.answers = s.answers
  made : u.made = s.made
  cq : u.cq = s.cq
  crashed : u.crashed = s.crashed
  expired : u.expired = s.expired
  cancelled : u.cancelled = s.cancelled
  inFlight : ∀ c, inFlight u c = IoRegistrator.inFlight s c

theorem reap_handled (s : State) (cqe : Cqe) : Handled s (reap s cqe) := by
  unfold reap
  split
  · exact ⟨rfl, rfl, rfl, rfl, rfl, rfl, fun _ => rfl⟩
  · split <;> exact ⟨rfl, rfl, rfl, rfl, rfl, rfl, fun _ => rfl⟩

/-- The operation that a completion names resumes, if it is there; the others stay. -/
theorem reap_ios {s : State} {cqe : Cqe} {cb : Nat} {io : Io} {status : Status}
    (hd : cqe.userData = some cb) (hs : s.ios cb = some (io, status)) (hplace : io.cb = cb) (c : Nat) :
    (reap s cqe).ios c =
      if c = cb then
        some ({ io with result := cqe.res }, .resumed ({ io with result := cqe.res } : Io).awaitResume)
      else s.ios c := by
  have hdef : reap s cqe = store { s with timer := s.timer.erase cb } { io with result := cqe.res }
      (.resumed ({ io with result := cqe.res } : Io).awaitResume) := by
    simp only [reap, hd, hs]
  rw [hdef]
  show Function.update s.ios io.cb _ c = _
  rw [Function.update_apply, hplace]

/-- A completion for nobody. -/
theorem reap_none {s : State} {cqe : Cqe} (hd : cqe.userData = none) : reap s cqe = s := by
  simp only [reap, hd]

theorem awaitResume_cases (io : Io) :
    (∃ value, io.awaitResume = .ok value ∧ 0 ≤ io.result) ∨
    ∃ e : Error, io.awaitResume = .error e ∧ 0 < e.errorCode ∧ -e.errorCode = io.result := by
  unfold Io.awaitResume
  by_cases h0 : io.result ≥ 0
  · rw [if_pos h0]
    cases io.cls <;> exact Or.inl ⟨_, rfl, h0⟩
  · rw [if_neg h0]
    exact Or.inr ⟨_, rfl, by show 0 < -io.result; omega, Int.neg_neg io.result⟩

/-- A completion that nobody waits for is taken out of the queue. -/
theorem Inv.skip {s : State} (h : Inv s) {cqe : Cqe} {cq : List Cqe} (hc : s.cq = cqe :: cq)
    (hd : cqe.userData = none) : Inv { s with cq } := by
  have hsame : ∀ cb, inFlight { s with cq } cb = inFlight s cb := fun cb => by
    rw [inFlight_cons hc, hd]
    rfl
  refine ⟨⟨h.ok, h.error, fun cb io hs => ?_⟩, h.fresh, h.place, fun cb hpos => ?_,
    fun c hm => h.answered c (hc ▸ List.mem_cons_of_mem _ hm), h.known⟩
  · rw [hsame]
    exact h.suspended cb io hs
  · rw [hsame] at hpos
    exact h.waits cb hpos

/-- The operation waits for this completion and for no other, and returns what it says. -/
theorem Inv.resume {s : State} (h : Inv s) {cqe : Cqe} {cq : List Cqe} (hc : s.cq = cqe :: cq)
    {cb : Nat} (hd : cqe.userData = some cb) : Inv (reap { s with cq } cqe) := by
  have hfl := inFlight_cons hc
  have hpos : 0 < inFlight s cb := by
    rw [hfl, if_pos hd]
    omega
  obtain ⟨io, hs⟩ := h.waits cb hpos
  have hone := h.suspended cb io hs
  have hmem : (cb, cqe.res) ∈ s.answers := h.answered cqe (hc ▸ List.mem_cons_self) cb hd
  have hself := reap_ios (s := { s with cq }) hd hs (h.place cb io _ hs)
  have hu := reap_handled { s with cq } cqe
  have hret := awaitResume_cases { io with result := cqe.res }
  generalize ({ io with result := cqe.res } : Io).awaitResume = ret at hself hret
  have hother : ∀ c, c ≠ cb → inFlight (IoRegistrator.reap { s with cq } cqe) c = inFlight s c := by
    intro c hne
    rw [hu.inFlight, hfl c, hd, if_neg (fun he => hne (Option.some.inj he).symm), Nat.add_zero]
  have hgone : inFlight (IoRegistrator.reap { s with cq } cqe) cb = 0 := by
    rw [hu.inFlight]
    rw [hfl, if_pos hd] at hone
    omega
  refine ⟨⟨fun c io' value hv => ?_, fun c io' e hv => ?_, fun c io' hv => ?_⟩, fun c hm => ?_,
    fun c io' st hv => ?_, fun c hp => ?_, ?_, ?_⟩
  · rw [hself] at hv
    rw [hu.answers]
    split at hv
    · next he =>
      rcases hret with ⟨v, -, h0⟩ | ⟨e, he', -⟩
      · exact ⟨cqe.res, he ▸ hmem, h0⟩
      · rw [he'] at hv
        cases hv
    · exact h.ok c io' value hv
  · rw [hself] at hv
    rw [hu.answers]
    split at hv
    · next he =>
      rcases hret with ⟨v, hv', -⟩ | ⟨e', he', hpos', hneg⟩
      · rw [hv'] at hv
        cases hv
      · rw [he'] at hv
        cases hv
        exact ⟨hpos', Or.inl (by rw [hneg, he]; exact hmem)⟩
    · exact h.error c io' e hv
  · rw [hself] at hv
    split at hv
    · cases hv
    · next hne =>
      rw [hother c hne]
      exact h.suspended c io' hv
  · have hm : s.made ≤ c := hu.made ▸ hm
    rw [hself, if_neg]
    · exact h.fresh c hm
    · rintro rfl
      rw [h.fresh c hm] at hs
      cases hs
  · rw [hself] at hv
    split at hv
    · next he =>
      cases hv
      exact (h.place cb io _ hs).trans he.symm
    · exact h.place c io' st hv
  · by_cases he : c = cb
    · rw [he, hgone] at hp
      omega
    · rw [hother c he] at hp
      rw [hself, if_neg he]
      exact h.waits c hp
  · rw [hu.cq, hu.answers]
    exact fun c hm => h.answered c (hc ▸ List.mem_cons_of_mem _ hm)
  · rw [hu.answers, hu.made]
    exact h.known

theorem Inv.reap {s : State} (h : Inv s) {cqe : Cqe} {cq : List Cqe} (hc : s.cq = cqe :: cq) :
    Inv (reap { s with cq } cqe) := by
  cases hd : cqe.userData with
  | none =>
    rw [reap_none hd]
    exact h.skip hc hd
  | some cb => exact h.resume hc hd

/-! ## Runs -/

/-- A step, read off. -/
theorem step_cases {s t : State} {a : Act} (hs : step s a = some t) :
    s.crashed = false ∧ match a with
    | .coAwait cls timed o => t = coAwait s cls timed o
    | .submit => t = submit s
    | .answer i res => ∃ sqe, s.inflight[i]? = some sqe ∧ t = answer s i sqe res
    | .reap => ∃ cqe cq, s.cq = cqe :: cq ∧ t = reap { s with cq } cqe
    | .execute cb => cb ∈ s.timer ∧ t = execute s cb
    | .turnOn => t = turnOn s
    | .doClose => t = doClose s := by
  unfold step at hs
  cases hc : s.crashed with
  | true =>
    rw [hc] at hs
    cases hs
  | false =>
    rw [hc, if_neg Bool.false_ne_true] at hs
    refine ⟨rfl, ?_⟩
    cases a with
    | coAwait cls timed o => exact (Option.some.inj hs).symm
    | submit => exact (Option.some.inj hs).symm
    | answer i res =>
      obtain ⟨sqe, hi, ht⟩ := Option.map_eq_some_iff.1 hs
      exact ⟨sqe, hi, ht.symm⟩
    | reap =>
      cases hq : s.cq with
      | nil =>
        simp only [hq] at hs
        cases hs
      | cons cqe cq =>
        simp only [hq, Option.some.injEq] at hs
        exact ⟨cqe, cq, rfl, hs.symm⟩
    | execute cb =>
      simp only [Option.ite_none_right_eq_some, Option.some.injEq] at hs
      exact ⟨hs.1, hs.2.symm⟩
    | turnOn => exact (Option.some.inj hs).symm
    | doClose => exact (Option.some.inj hs).symm

theorem callback_ge (s : State) (timed : Bool) : s.made ≤ callback s timed := by
  unfold callback
  split <;> omega

theorem Inv.coAwait {s : State} (h : Inv s) {cls : Class} {timed : Bool} {o : Outcome}
    (hok : ¬ SocketFails s (.coAwait cls timed o)) : Inv (coAwait s cls timed o) := by
  by_cases hr : s.ring.Room
  · obtain ⟨u, io, hcb, -, hcase⟩ := coAwait_room hr cls timed o
    have hnew : s.made ≤ io.cb := hcb ▸ callback_ge s timed
    rcases hcase with ⟨hu, he, -⟩ | ⟨hu, he, -⟩ | ⟨-, hf, -⟩
    · rw [he]
      exact h.add hu hnew rfl
    · rw [he]
      exact h.add hu hnew ⟨rfl, Or.inr rfl⟩
    · exact absurd hf hok
  · rw [coAwait_full hr]
    split
    · exact h.congr rfl rfl rfl rfl fun _ => rfl
    · refine h.add (n := 0) ?_ (Nat.le_refl s.made) ⟨rfl, Or.inl rfl⟩
      exact ⟨⟨rfl, rfl, rfl, rfl, rfl, rfl⟩, rfl, fun c => by simp [inFlight], Or.inl rfl⟩

theorem Inv.step {s t : State} {a : Act} (h : Inv s) (hs : step s a = some t)
    (hok : ¬ SocketFails s a) : Inv t := by
  obtain ⟨-, hc⟩ := step_cases hs
  cases a with
  | coAwait cls timed o =>
    rw [hc]
    exact h.coAwait hok
  | submit =>
    rw [hc]
    exact h.congr rfl rfl rfl rfl (inFlight_submit s)
  | answer i res =>
    obtain ⟨sqe, hi, rfl⟩ := hc
    exact h.answer hi res
  | reap =>
    obtain ⟨cqe, cq, hq, rfl⟩ := hc
    exact h.reap hq
  | execute cb =>
    obtain ⟨-, rfl⟩ := hc
    have hx := execute_executed s cb
    exact h.congr hx.ios hx.answers hx.cq hx.made hx.inFlight
  | turnOn =>
    rw [hc]
    rcases turnOn_cases s with ⟨he, -⟩ | ⟨-, -, he⟩ | ⟨-, -, he⟩
    · rwa [he]
    · rw [he]
      exact h.congr rfl rfl rfl rfl (inFlight_push { request := .read } rfl rfl rfl)
    · rw [he]
      exact h.congr rfl rfl rfl rfl fun _ => rfl
  | doClose =>
    rw [hc]
    obtain ⟨hsame, hm, -, hfl⟩ := same_doClose s
    exact h.congr hsame.ios hsame.answers hsame.cq hm hfl

/-- Without a socket nothing carries the callback, and there is no answer. -/
theorem not_reported {s : State} (h : Inv s) {a : Act} (hf : SocketFails s a) {t : State}
    (hs : step s a = some t) : ¬ Reported t := by
  obtain ⟨-, hc⟩ := step_cases hs
  cases a with
  | coAwait cls timed o =>
    have hr : s.ring.Room := by
      by_contra hr
      exact not_socketFails_full hr cls timed o hf
    obtain ⟨u, io, hcb, -, hcase⟩ := coAwait_room hr cls timed o
    have hnew : s.made ≤ io.cb := hcb ▸ callback_ge s timed
    rcases hcase with ⟨-, -, hn⟩ | ⟨-, -, hn⟩ | ⟨hu, -, he | he⟩
    · exact absurd hf hn
    · exact absurd hf hn
    · -- suspended
      intro hrep
      rw [hc, he] at hrep
      have hone := hrep.suspended io.cb io (Function.update_self ..)
      have hfl : inFlight (store u io .suspended) io.cb = inFlight s io.cb + 0 :=
        (hu.inFlight io.cb).trans (by rw [if_pos rfl])
      obtain ⟨io', hs'⟩ := h.waits io.cb (by omega)
      rw [h.fresh io.cb hnew] at hs'
      cases hs'
    · -- resumed with a stream
      intro hrep
      rw [hc, he] at hrep
      obtain ⟨res, hmem, -⟩ := hrep.ok io.cb io _ (Function.update_self ..)
      have hmem : (io.cb, res) ∈ u.answers := hmem
      rw [hu.answers] at hmem
      have : io.cb < s.made := h.known _ hmem
      omega
  | submit => exact hf.elim
  | answer i res => exact hf.elim
  | reap => exact hf.elim
  | execute cb => exact hf.elim
  | turnOn => exact hf.elim
  | doClose => exact hf.elim

/-! ## Top theorems -/

/-- **Inline failures.**  In every state of a run each operation that has resumed with
a value was answered with one, the errors are positive, and each that waits has one
request under way, if and only if no connect with an SQE, and a timer if it asks for
one, fails to get a socket. -/
theorem reported_iff (entries submitInterval : Nat) (as : List Act) :
    EachStep step (fun _ _ t => Reported t) (init entries submitInterval) as ↔
      EachStep step (fun s a _ => ¬ SocketFails s a) (init entries submitInterval) as := by
  refine eachStep_iff Inv (fun _ _ _ h hs hok => h.step hs hok) (fun s a t h hs => ?_)
    (inv_init entries submitInterval)
  constructor
  · intro hrep hf
    exact not_reported h hf hs hrep
  · intro hok
    exact (h.step hs hok).toReported

/-- `EMFILE` from `::socket`. -/
def noSocket : Outcome := { refused := false, socket := .error 24 }

/-- A plain connect resumes with the descriptor `-1`, one with a timeout waits for nothing. -/
theorem connect_noSocket :
    (∃ s io, run step (init 8 1) [.coAwait .connect false noSocket] = some s ∧
      s.ios 0 = some (io, .resumed (.ok (some (-1)))) ∧ s.answers = []) ∧
    (∃ s io, run step (init 8 1) [.coAwait .connect true noSocket] = some s ∧
      s.ios 1 = some (io, .suspended) ∧ inFlight s 1 = 0) ∧
    ¬ EachStep step (fun _ _ t => Reported t) (init 8 1) [.coAwait .connect false noSocket] := by
  refine ⟨⟨_, _, rfl, rfl, rfl⟩, ⟨_, _, rfl, rfl, rfl⟩, fun h => ?_⟩
  obtain ⟨res, hmem, -⟩ := (h _ rfl).1.ok 0 _ _ rfl
  cases hmem

end Kosio.IoRegistrator
