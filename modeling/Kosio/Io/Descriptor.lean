import Kosio.Common.Error
import Kosio.Lib.Ownership
import Kosio.Lib.Run

/-!
# `FD`: who closes a descriptor

The objects that hold descriptors, in any number and on any of the workers: an `FD`
(a socket, a stream, a file), a stream in the control block that two halves share,
a `Connect` that is awaited.  A step is what one of them does between two calls
of the kernel, and the kernel gives an opened descriptor any number that is free.

An open descriptor has one owner at any time, and only its owner closes it
(`owned_iff`), except that

* the loop in `do_close` calls `::close` again after a failure, when the number
  is free already and may have been given to someone else;
* a `Connect` whose `await_suspend` never ran, for want of an SQE or because its
  deadline had passed, closes what happens to be in `fd_`.

No descriptor is forgotten (`no_leak_iff`) except by `close()`: `fd_` is `-1` by then,
and nothing is asked of the kernel when the queue is full or the deadline of the
`close()` has passed, and a timer may cancel what is asked.  The halves of a stream
share it, and only a half that has been given up leads nowhere (`fault_iff`).
-/

namespace Kosio.Descriptor

open Function Ownership Steps

/-! ## Algorithm -/

/-- What `do_close` returns to. -/
inductive After where
  | destroyed
  /-- `operator=`, which goes on with `other` -/
  | assigned (other : Nat)
deriving DecidableEq

inductive Phase where
  | idle
  /-- in the loop of `do_close`, after `i` failures -/
  | closing (i : Nat) (k : After)
  /-- the `other` of an `operator=` of `x` that is in `do_close` -/
  | lent (x : Nat)
deriving DecidableEq

structure Obj where
  fd : Int
  phase : Phase := .idle
  /-- in the control block of a `shared_ptr` -/
  shared : Bool := false
deriving DecidableEq

/-- An `OwnedReadHalf` or `OwnedWriteHalf`. -/
inductive Half where
  | gone
  | null
  | owns (stream : Nat)
deriving DecidableEq

/-- The awaiter of `BaseStream::connect`; `fd_` is not initialised in the first four. -/
inductive Connect where
  /-- `get_sqe` gave null: `result_` is `-ENOMEM` -/
  | full (fd : Int)
  | made (fd : Int)
  /-- in a `Timeout` -/
  | timed (fd : Int)
  /-- the timer took no entry: `result_` is `-kPassedTime` -/
  | refused (fd : Int)
  /-- suspended with no request to wait for -/
  | hung
  | waiting (fd : Int)
  | done (fd result : Int)
deriving DecidableEq

/-- What the kernel gets from a `close()`. -/
inductive Request where
  | plain
  | timed
  | none
deriving DecidableEq

structure State where
  /-- the kernel's table -/
  isOpen : Int → Bool
  objs : Nat → Option Obj
  conns : Nat → Option Connect
  halves : List Half
  /-- the requests to close that the kernel has not executed -/
  pending : List Int
  /-- those with a timeout -/
  timed : List Int
  /-- numbers that are held without an object -/
  raw : List Int
  /-- numbers that `close()` has dropped, and no request closes -/
  lost : List Int
  /-- a pointer that is null, or to a stream that is gone, has been used -/
  fault : Bool

def init : State :=
  { isOpen := fun _ => false, objs := fun _ => none, conns := fun _ => none, halves := [],
    pending := [], timed := [], raw := [], lost := [], fault := false }

namespace State

def put (s : State) (x : Nat) (o : Obj) : State := { s with objs := update s.objs x (some o) }

def erase (s : State) (x : Nat) : State := { s with objs := update s.objs x none }

def setConn (s : State) (c : Nat) (k : Option Connect) : State :=
  { s with conns := update s.conns c k }

/-- What `::close` does to the table, whatever it returns. -/
def kernelClose (s : State) (fd : Int) : State := { s with isOpen := update s.isOpen fd false }

/-- `fd_` of an object that a thread may use. -/
def usable (s : State) (x : Nat) : Option Int :=
  match s.objs x with
  | some { fd, phase := .idle, shared := false } => some fd
  | _ => none

/-- `fd_ = other.fd_; other.fd_ = -1;` -/
def take (s : State) (x other : Nat) : State :=
  match s.objs other with
  | none => s
  | some o => (s.put x { fd := o.fd }).put other { fd := -1 }

def afterClose (s : State) (x : Nat) : After → State
  | .destroyed => s.erase x
  | .assigned other => (s.put x { fd := -1 }).take x other

/-- `do_close`; `sqe`: whether `get_sqe` gives one. -/
def doClose (s : State) (x : Nat) (o : Obj) (sqe : Bool) (k : After) : State :=
  if sqe then { s with pending := s.pending ++ [o.fd] }.afterClose x k
  else s.put x { o with phase := .closing 0 k }

/-- The destructor. -/
def destroy (s : State) (x : Nat) (o : Obj) (sqe : Bool) : State :=
  if 0 ≤ o.fd then s.doClose x o sqe .destroyed else s.erase x

/-- `close()` -/
def giveUp (s : State) (x : Nat) (fd : Int) : Request → State
  | .plain => { s.put x { fd := -1 } with pending := s.pending ++ [fd] }
  | .timed => { s.put x { fd := -1 } with timed := s.timed ++ [fd] }
  | .none => { s.put x { fd := -1 } with lost := s.lost ++ [fd] }

def faulty (s : State) : State := { s with fault := true }

end State

inductive Act where
  /-- a socket, a file, an accepted stream -/
  | opened (x : Nat) (fd : Int)
  /-- the rest of the program opens and closes -/
  | openRaw (fd : Int)
  | closeRaw (fd : Int)
  /-- `Socket{fd}` -/
  | wrap (x : Nat) (fd : Int)
  | construct (x other : Nat)
  | assign (x other : Nat) (sqe : Bool)
  | destroy (x : Nat) (sqe : Bool)
  /-- `::close` in the loop of `do_close` -/
  | attempt (x : Nat) (fails : Bool)
  | close (x : Nat) (sqe : Bool)
  /-- `close()` with a timeout, that has an SQE -/
  | closeTimed (x : Nat) (passed : Bool)
  | release (x : Nat)
  | intoSplit (x stream : Nat)
  | copyHalf (a : Nat)
  | moveHalf (a : Nat)
  | dropHalf (a : Nat) (sqe : Bool)
  /-- an operation on the descriptor of the half -/
  | useHalf (a : Nat)
  | reunite (a b x : Nat)
  /-- `junk` is what is in `fd_` -/
  | connect (c : Nat) (sqe : Bool) (junk : Int)
  /-- `set_timeout_at`, which ends the program when there is no SQE -/
  | setTimeout (c : Nat)
  /-- `await_suspend`; `fd` is what `::socket` returns -/
  | suspend (c : Nat) (fd : Int) (errno : Nat)
  /-- `Timeout::await_suspend`; `passed`: whether `insert` fails -/
  | suspendTimed (c : Nat) (passed : Bool) (fd : Int)
  | connected (c : Nat) (result : Int)
  /-- `await_resume`, and the stream if there is one -/
  | resume (c x : Nat)
  /-- the kernel executes a request to close -/
  | complete (fd : Int)
  | completeTimed (fd : Int)
  /-- it has not begun when the timer cancels it -/
  | cancelled (fd : Int)

def ENOMEM : Int := 12

/-- The turn `i` of the loop in `do_close`. -/
def attempt (s : State) (x : Nat) (o : Obj) (i : Nat) (k : After) (fails : Bool) : State :=
  let t := s.kernelClose o.fd
  if s.isOpen o.fd && !fails || i == 2 then t.afterClose x k
  else t.put x { o with phase := .closing (i + 1) k }

/-- `~shared_ptr` of the half `a`, which has been `owns stream`. -/
def dropHalf (s : State) (a stream : Nat) (sqe : Bool) : State :=
  let t := { s with halves := s.halves.set a .gone }
  if .owns stream ∈ t.halves then t
  else
    match s.objs stream with
    | none => t.faulty
    | some o => t.destroy stream o sqe

/-- `reunite` of two halves `owns stream`. -/
def reunite (s : State) (a b stream x : Nat) : State :=
  match s.objs stream with
  | none => s.faulty
  | some o =>
    let t := { s with halves := (s.halves.set b .null).set a .null }
    let t := (t.put x { fd := o.fd }).put stream { o with fd := -1 }
    if .owns stream ∈ t.halves then t else t.erase stream

/-- `await_resume` of a `Connect`. -/
def resume (s : State) (c x : Nat) (fd result : Int) : State :=
  let t := s.setConn c none
  if 0 ≤ result then t.put x { fd }
  else if 0 ≤ fd then t.kernelClose fd else t

def step (s : State) (a : Act) : Option State :=
  if s.fault then none else
  match a with
  | .opened x fd =>
    if 0 ≤ fd ∧ s.isOpen fd = false ∧ s.objs x = none then
      some ({ s with isOpen := update s.isOpen fd true }.put x { fd })
    else none
  | .openRaw fd =>
    if 0 ≤ fd ∧ s.isOpen fd = false then
      some { s with isOpen := update s.isOpen fd true, raw := s.raw ++ [fd] }
    else none
  | .closeRaw fd =>
    if fd ∈ s.raw then some { s.kernelClose fd with raw := s.raw.erase fd } else none
  | .wrap x fd =>
    if fd ∈ s.raw ∧ s.objs x = none then some ({ s with raw := s.raw.erase fd }.put x { fd })
    else none
  | .construct x other =>
    match s.usable other with
    | some fd => if s.objs x = none then some ((s.put x { fd }).put other { fd := -1 }) else none
    | none => none
  | .assign x other sqe =>
    match s.usable x, s.usable other with
    | some fd, some fd' =>
      if 0 ≤ fd then
        some ((s.put other { fd := fd', phase := .lent x }).doClose x { fd } sqe (.assigned other))
      else some (s.take x other)
    | _, _ => none
  | .destroy x sqe =>
    match s.usable x with
    | some fd => some (s.destroy x { fd } sqe)
    | none => none
  | .attempt x fails =>
    match s.objs x with
    | some { fd, phase := .closing i k, shared } =>
      some (attempt s x { fd, phase := .closing i k, shared } i k fails)
    | _ => none
  | .close x sqe =>
    match s.usable x with
    -- without an SQE `Close` is ready at once, and answers `-ENOMEM`
    | some fd => some (s.giveUp x fd (if sqe then .plain else .none))
    | none => none
  | .closeTimed x passed =>
    match s.usable x with
    -- the SQE becomes a nop
    | some fd => some (s.giveUp x fd (if passed then .none else .timed))
    | none => none
  | .release x =>
    match s.usable x with
    | some fd => some { s.put x { fd := -1 } with raw := s.raw ++ [fd] }
    | none => none
  | .intoSplit x stream =>
    match s.usable x with
    | some fd =>
      if s.objs stream = none then
        some ({ s with halves := s.halves ++ [Half.owns stream, .owns stream] }.put stream
          { fd, shared := true } |>.put x { fd := -1 })
      else none
    | none => none
  | .copyHalf a =>
    match s.halves[a]? with
    | none | some .gone => none
    | some h => some { s with halves := s.halves ++ [h] }
  | .moveHalf a =>
    match s.halves[a]? with
    | none | some .gone => none
    | some h => some { s with halves := s.halves.set a .null ++ [h] }
  | .dropHalf a sqe =>
    match s.halves[a]? with
    | none | some .gone => none
    | some .null => some { s with halves := s.halves.set a .gone }
    | some (.owns stream) => some (dropHalf s a stream sqe)
  | .useHalf a =>
    match s.halves[a]? with
    | none | some .gone => none
    | some .null => some s.faulty
    | some (.owns stream) => if s.objs stream = none then some s.faulty else some s
  | .reunite a b x =>
    match s.objs x, s.halves[a]?, s.halves[b]? with
    | none, some h, some h' =>
      if h = .gone ∨ h' = .gone then none
      else if a = b ∨ h ≠ h' then some s
      else
        match h with
        | .owns stream => some (reunite s a b stream x)
        | _ => some s.faulty
    | _, _, _ => none
  | .connect c sqe junk =>
    if s.conns c = none then some (s.setConn c (some (if sqe then .made junk else .full junk)))
    else none
  | .setTimeout c =>
    match s.conns c with
    | some (.made junk) => some (s.setConn c (some (.timed junk)))
    | _ => none
  | .suspend c fd errno =>
    match s.conns c with
    | some (.made _) =>
      -- `result_ = errno`, with the sign that `await_resume` takes for success
      if fd < 0 then some (s.setConn c (some (.done fd errno)))
      else if s.isOpen fd = false then
        some ({ s with isOpen := update s.isOpen fd true }.setConn c (some (.waiting fd)))
      else none
    | _ => none
  | .suspendTimed c passed fd =>
    match s.conns c with
    | some (.timed junk) =>
      if passed then some (s.setConn c (some (.refused junk)))
      -- `Timeout` does not look at what `Connect::await_suspend` returns
      else if fd < 0 then some (s.setConn c (some .hung))
      else if s.isOpen fd = false then
        some ({ s with isOpen := update s.isOpen fd true }.setConn c (some (.waiting fd)))
      else none
    | _ => none
  | .connected c result =>
    match s.conns c with
    | some (.waiting fd) => some (s.setConn c (some (.done fd result)))
    | _ => none
  | .resume c x =>
    match s.objs x, s.conns c with
    | none, some (.full fd) => some (resume s c x fd (-ENOMEM))
    | none, some (.refused fd) => some (resume s c x fd (-Error.kPassedTime.errorCode))
    | none, some (.done fd result) => some (resume s c x fd result)
    | _, _ => none
  | .complete fd =>
    if fd ∈ s.pending then some { s.kernelClose fd with pending := s.pending.erase fd } else none
  | .completeTimed fd =>
    if fd ∈ s.timed then some { s.kernelClose fd with timed := s.timed.erase fd } else none
  | .cancelled fd =>
    if fd ∈ s.timed then some { s with timed := s.timed.erase fd, lost := s.lost ++ [fd] }
    else none

/-! ## Specification -/

inductive Owner where
  | obj (x : Nat)
  | conn (c : Nat)
  | pending
  | timed
  | raw
  | lost
deriving DecidableEq

/-- After a failure `::close` has freed the number all the same. -/
def Obj.fds (o : Obj) : List Int :=
  match o.phase with
  | .closing (_ + 1) _ => []
  | _ => [o.fd]

def Connect.fds : Connect → List Int
  | .full _ | .made _ | .timed _ | .refused _ | .hung => []
  | .waiting fd | .done fd _ => [fd]

def State.fds (s : State) : Owner → List Int
  | .obj x => ((s.objs x).map Obj.fds).getD []
  | .conn c => ((s.conns c).map Connect.fds).getD []
  | .pending => s.pending
  | .timed => s.timed
  | .raw => s.raw
  | .lost => s.lost

/-- The descriptors in a list of numbers. -/
def valid (l : List Int) : Multiset Int := (l : Multiset Int).filter (0 ≤ ·)

def State.holds (s : State) (o : Owner) : Multiset Int := valid (s.fds o)

/-- Every open descriptor has one owner, once, and nobody else has a number. -/
def OneOwner (s : State) : Prop := Owned (fun fd => s.isOpen fd = true) s.holds

/-- The step closes a descriptor that its maker does not own. -/
def Foreign (s : State) : Act → Prop
  | .attempt x _ =>
    match s.objs x with
    | some { fd, phase := .closing (_ + 1) _, .. } => s.isOpen fd = true
    | _ => False
  | .resume c _ =>
    match s.conns c with
    | some (.full fd) | some (.refused fd) => 0 ≤ fd ∧ s.isOpen fd = true
    | _ => False
  | _ => False

instance (s : State) (a : Act) : Decidable (Foreign s a) := by
  unfold Foreign
  split
  · split <;> infer_instance
  · split <;> infer_instance
  · infer_instance

/-- `close()` of a descriptor gets no SQE, or its deadline has passed, or is reached before the
kernel has begun. -/
def Leaks (s : State) : Act → Prop
  | .close x sqe => sqe = false ∧ ∃ fd ∈ s.usable x, 0 ≤ fd
  | .closeTimed x passed => passed = true ∧ ∃ fd ∈ s.usable x, 0 ≤ fd
  | .cancelled fd => fd ∈ s.timed ∧ 0 ≤ fd
  | _ => False

instance (s : State) (a : Act) : Decidable (Leaks s a) := by
  unfold Leaks
  split <;> infer_instance

/-- The program has let go of everything, and the kernel has nothing left to close. -/
structure Quiet (s : State) : Prop where
  objs : ∀ x, s.objs x = none
  conns : ∀ c, s.conns c = none
  raw : s.raw = []
  pending : s.pending = []
  timed : s.timed = []

/-- The step goes through a half that has been moved from or reunited. -/
def NullUse (s : State) : Act → Prop
  | .useHalf a => s.halves[a]? = some .null
  | .reunite a b x =>
    s.objs x = none ∧ a ≠ b ∧ s.halves[a]? = some .null ∧ s.halves[b]? = some .null
  | _ => False

instance (s : State) (a : Act) : Decidable (NullUse s a) := by
  unfold NullUse
  split <;> infer_instance

/-! ## The steps -/

theorem usable_eq {s : State} {x : Nat} {fd : Int} (h : s.usable x = some fd) :
    s.objs x = some { fd } := by
  unfold State.usable at h
  split at h
  · cases h
    assumption
  · cases h

/-- `step`, with what it looks at. -/
inductive Does (s : State) : Act → State → Prop where
  | opened {x fd} (h0 : 0 ≤ fd) (hfd : s.isOpen fd = false) (hx : s.objs x = none) :
    Does s (.opened x fd) ({ s with isOpen := update s.isOpen fd true }.put x { fd })
  | openRaw {fd} (h0 : 0 ≤ fd) (hfd : s.isOpen fd = false) :
    Does s (.openRaw fd) { s with isOpen := update s.isOpen fd true, raw := s.raw ++ [fd] }
  | closeRaw {fd} (h : fd ∈ s.raw) :
    Does s (.closeRaw fd) { s.kernelClose fd with raw := s.raw.erase fd }
  | wrap {x fd} (h : fd ∈ s.raw) (hx : s.objs x = none) :
    Does s (.wrap x fd) ({ s with raw := s.raw.erase fd }.put x { fd })
  | construct {x other fd} (ho : s.objs other = some { fd }) (hx : s.objs x = none) :
    Does s (.construct x other) ((s.put x { fd }).put other { fd := -1 })
  | assign {x other sqe fd fd'} (hx : s.objs x = some { fd })
    (ho : s.objs other = some { fd := fd' }) (h0 : 0 ≤ fd) :
    Does s (.assign x other sqe)
      ((s.put other { fd := fd', phase := .lent x }).doClose x { fd } sqe (.assigned other))
  | assignEmpty {x other sqe fd fd'} (hx : s.objs x = some { fd })
    (ho : s.objs other = some { fd := fd' }) (h0 : fd < 0) :
    Does s (.assign x other sqe) (s.take x other)
  | destroy {x sqe fd} (hx : s.objs x = some { fd }) :
    Does s (.destroy x sqe) (s.destroy x { fd } sqe)
  | attempt {x fails fd i k shared} (hx : s.objs x = some { fd, phase := .closing i k, shared }) :
    Does s (.attempt x fails) (attempt s x { fd, phase := .closing i k, shared } i k fails)
  | close {x sqe fd} (hx : s.objs x = some { fd }) :
    Does s (.close x sqe) (s.giveUp x fd (if sqe then .plain else .none))
  | closeTimed {x passed fd} (hx : s.objs x = some { fd }) :
    Does s (.closeTimed x passed) (s.giveUp x fd (if passed then .none else .timed))
  | release {x fd} (hx : s.objs x = some { fd }) :
    Does s (.release x) { s.put x { fd := -1 } with raw := s.raw ++ [fd] }
  | intoSplit {x stream fd} (hx : s.objs x = some { fd }) (hs : s.objs stream = none) :
    Does s (.intoSplit x stream)
      ({ s with halves := s.halves ++ [Half.owns stream, .owns stream] }.put stream
        { fd, shared := true } |>.put x { fd := -1 })
  | copyHalf {a h} (ha : s.halves[a]? = some h) (hg : h ≠ .gone) :
    Does s (.copyHalf a) { s with halves := s.halves ++ [h] }
  | moveHalf {a h} (ha : s.halves[a]? = some h) (hg : h ≠ .gone) :
    Does s (.moveHalf a) { s with halves := s.halves.set a .null ++ [h] }
  | dropNull {a sqe} (ha : s.halves[a]? = some .null) :
    Does s (.dropHalf a sqe) { s with halves := s.halves.set a .gone }
  | dropHalf {a sqe stream} (ha : s.halves[a]? = some (.owns stream)) :
    Does s (.dropHalf a sqe) (dropHalf s a stream sqe)
  | useNull {a} (ha : s.halves[a]? = some .null) : Does s (.useHalf a) s.faulty
  | useHalf {a stream} (ha : s.halves[a]? = some (.owns stream)) :
    Does s (.useHalf a) (if s.objs stream = none then s.faulty else s)
  | reuniteFailed {a b x} (h : a = b ∨ s.halves[a]? ≠ s.halves[b]?) : Does s (.reunite a b x) s
  | reuniteNull {a b x} (hx : s.objs x = none) (hab : a ≠ b) (ha : s.halves[a]? = some .null)
    (hb : s.halves[b]? = some .null) : Does s (.reunite a b x) s.faulty
  | reunite {a b x stream} (hx : s.objs x = none) (hab : a ≠ b)
    (ha : s.halves[a]? = some (.owns stream)) (hb : s.halves[b]? = some (.owns stream)) :
    Does s (.reunite a b x) (reunite s a b stream x)
  | connect {c sqe junk} (hc : s.conns c = none) :
    Does s (.connect c sqe junk)
      (s.setConn c (some (if sqe then .made junk else .full junk)))
  | setTimeout {c junk} (hc : s.conns c = some (.made junk)) :
    Does s (.setTimeout c) (s.setConn c (some (.timed junk)))
  | noSocket {c junk fd errno} (hc : s.conns c = some (.made junk)) (h0 : fd < 0) :
    Does s (.suspend c fd errno) (s.setConn c (some (.done fd errno)))
  | socket {c junk fd errno} (hc : s.conns c = some (.made junk)) (h0 : 0 ≤ fd)
    (hfd : s.isOpen fd = false) :
    Does s (.suspend c fd errno)
      ({ s with isOpen := update s.isOpen fd true }.setConn c (some (.waiting fd)))
  | refused {c junk fd} (hc : s.conns c = some (.timed junk)) :
    Does s (.suspendTimed c true fd) (s.setConn c (some (.refused junk)))
  | hung {c junk fd} (hc : s.conns c = some (.timed junk)) (h0 : fd < 0) :
    Does s (.suspendTimed c false fd) (s.setConn c (some .hung))
  | socketTimed {c junk fd} (hc : s.conns c = some (.timed junk)) (h0 : 0 ≤ fd)
    (hfd : s.isOpen fd = false) :
    Does s (.suspendTimed c false fd)
      ({ s with isOpen := update s.isOpen fd true }.setConn c (some (.waiting fd)))
  | connected {c fd result} (hc : s.conns c = some (.waiting fd)) :
    Does s (.connected c result) (s.setConn c (some (.done fd result)))
  | resumeFull {c x fd} (hx : s.objs x = none) (hc : s.conns c = some (.full fd)) :
    Does s (.resume c x) (resume s c x fd (-ENOMEM))
  | resumeRefused {c x fd} (hx : s.objs x = none) (hc : s.conns c = some (.refused fd)) :
    Does s (.resume c x) (resume s c x fd (-Error.kPassedTime.errorCode))
  | resumeDone {c x fd result} (hx : s.objs x = none) (hc : s.conns c = some (.done fd result)) :
    Does s (.resume c x) (resume s c x fd result)
  | complete {fd} (h : fd ∈ s.pending) :
    Does s (.complete fd) { s.kernelClose fd with pending := s.pending.erase fd }
  | completeTimed {fd} (h : fd ∈ s.timed) :
    Does s (.completeTimed fd) { s.kernelClose fd with timed := s.timed.erase fd }
  | cancelled {fd} (h : fd ∈ s.timed) :
    Does s (.cancelled fd) { s with timed := s.timed.erase fd, lost := s.lost ++ [fd] }

theorem does_of_step {s t : State} {a : Act} (h : step s a = some t) : Does s a t := by
  unfold step at h
  split at h
  · cases h
  cases a <;> simp only at h
  case opened x fd =>
    split at h
    case isTrue hg =>
      cases h
      exact .opened hg.1 hg.2.1 hg.2.2
    case isFalse => cases h
  case openRaw fd =>
    split at h
    case isTrue hg =>
      cases h
      exact .openRaw hg.1 hg.2
    case isFalse => cases h
  case closeRaw fd =>
    split at h
    case isTrue hg =>
      cases h
      exact .closeRaw hg
    case isFalse => cases h
  case wrap x fd =>
    split at h
    case isTrue hg =>
      cases h
      exact .wrap hg.1 hg.2
    case isFalse => cases h
  case construct x other =>
    split at h
    case h_1 fd ho =>
      split at h
      case isTrue hx =>
        cases h
        exact .construct (usable_eq ho) hx
      case isFalse => cases h
    case h_2 => cases h
  case assign x other sqe =>
    split at h
    case h_1 fd fd' hx ho =>
      split at h
      case isTrue h0 =>
        cases h
        exact .assign (usable_eq hx) (usable_eq ho) h0
      case isFalse h0 =>
        cases h
        exact .assignEmpty (usable_eq hx) (usable_eq ho) (by omega)
    case h_2 => cases h
  case destroy x sqe =>
    split at h
    case h_1 fd hx =>
      cases h
      exact .destroy (usable_eq hx)
    case h_2 => cases h
  case attempt x fails =>
    split at h
    case h_1 hx =>
      cases h
      exact .attempt hx
    case h_2 => cases h
  case close x sqe =>
    split at h
    case h_1 fd hx =>
      cases h
      exact .close (usable_eq hx)
    case h_2 => cases h
  case closeTimed x passed =>
    split at h
    case h_1 fd hx =>
      cases h
      exact .closeTimed (usable_eq hx)
    case h_2 => cases h
  case release x =>
    split at h
    case h_1 fd hx =>
      cases h
      exact .release (usable_eq hx)
    case h_2 => cases h
  case intoSplit x stream =>
    split at h
    case h_1 fd hx =>
      split at h
      case isTrue hs =>
        cases h
        exact .intoSplit (usable_eq hx) hs
      case isFalse => cases h
    case h_2 => cases h
  case copyHalf a =>
    split at h
    case h_1 => cases h
    case h_2 => cases h
    case h_3 half hg ha =>
      cases h
      exact .copyHalf ha hg
  case moveHalf a =>
    split at h
    case h_1 => cases h
    case h_2 => cases h
    case h_3 half hg ha =>
      cases h
      exact .moveHalf ha hg
  case dropHalf a sqe =>
    split at h
    case h_1 => cases h
    case h_2 => cases h
    case h_3 ha =>
      cases h
      exact .dropNull ha
    case h_4 stream ha =>
      cases h
      exact .dropHalf ha
  case useHalf a =>
    split at h
    case h_1 => cases h
    case h_2 => cases h
    case h_3 ha =>
      cases h
      exact .useNull ha
    case h_4 stream ha =>
      have ht : (if s.objs stream = none then s.faulty else s) = t := by
        split at h <;> cases h <;> simp [*]
      rw [← ht]
      exact .useHalf ha
  case reunite a b x =>
    split at h
    case h_1 half half' hx ha hb =>
      split at h
      case isTrue => cases h
      case isFalse hg =>
        rw [not_or] at hg
        split at h
        case isTrue hab =>
          cases h
          refine .reuniteFailed (hab.imp_right fun hne => ?_)
          rw [ha, hb]
          exact fun heq => hne (Option.some.inj heq)
        case isFalse hab =>
          rw [not_or, not_not] at hab
          obtain ⟨hab, rfl⟩ := hab
          cases half with
          | gone => exact absurd rfl hg.1
          | null =>
            cases h
            exact .reuniteNull hx hab ha hb
          | owns stream =>
            cases h
            exact .reunite hx hab ha hb
    case h_2 => cases h
  case connect c sqe junk =>
    split at h
    case isTrue hc =>
      cases h
      exact .connect hc
    case isFalse => cases h
  case setTimeout c =>
    split at h
    case h_1 junk hc =>
      cases h
      exact .setTimeout hc
    case h_2 => cases h
  case suspend c fd errno =>
    split at h
    case h_1 junk hc =>
      split at h
      case isTrue h0 =>
        cases h
        exact .noSocket hc h0
      case isFalse h0 =>
        split at h
        case isTrue hfd =>
          cases h
          exact .socket hc (by omega) hfd
        case isFalse => cases h
    case h_2 => cases h
  case suspendTimed c passed fd =>
    split at h
    case h_1 junk hc =>
      split at h
      case isTrue hp =>
        cases h
        subst hp
        exact .refused hc
      case isFalse hp =>
        rw [Bool.not_eq_true] at hp
        subst hp
        split at h
        case isTrue h0 =>
          cases h
          exact .hung hc h0
        case isFalse h0 =>
          split at h
          case isTrue hfd =>
            cases h
            exact .socketTimed hc (by omega) hfd
          case isFalse => cases h
    case h_2 => cases h
  case connected c result =>
    split at h
    case h_1 fd hc =>
      cases h
      exact .connected hc
    case h_2 => cases h
  case resume c x =>
    split at h
    case h_1 fd hx hc =>
      cases h
      exact .resumeFull hx hc
    case h_2 fd hx hc =>
      cases h
      exact .resumeRefused hx hc
    case h_3 fd result hx hc =>
      cases h
      exact .resumeDone hx hc
    case h_4 => cases h
  case complete fd =>
    split at h
    case isTrue hg =>
      cases h
      exact .complete hg
    case isFalse => cases h
  case completeTimed fd =>
    split at h
    case isTrue hg =>
      cases h
      exact .completeTimed hg
    case isFalse => cases h
  case cancelled fd =>
    split at h
    case isTrue hg =>
      cases h
      exact .cancelled hg
    case isFalse => cases h

end Kosio.Descriptor
