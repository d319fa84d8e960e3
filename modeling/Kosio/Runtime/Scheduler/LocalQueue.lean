import Mathlib.Data.List.Range
import Mathlib.Logic.Function.Basic
import Kosio.Runtime.Config

/-!
# `LocalQueue` and `GlobalQueue`

Each worker owns a ring of 256 slots.  Positions are 32-bit and wrap; `head_`
packs two of them: slots from `real` on are live, and the ones from `steal` on
may still be being copied by a thief.  Only the owner moves `tail_`.

A thread's call is a `Pc`, with the locals of the source as its arguments, and
every load, store, CAS and slot access is one step (`step`).  A CAS may fail
spuriously.  The fields `steal`, `real` and `last` of a queue and `seen` of a
thief are ghosts: the positions, and `real` when the thief last loaded `head_`,
as numbers that do not wrap.
-/

namespace Kosio.Runtime

/-! ## Algorithm -/

abbrev U32 := BitVec 32

/-- `MASK` keeps the low eight bits. -/
def slot (position : U32) : Fin localQueueCapacity :=
  ⟨position.toNat % localQueueCapacity, Nat.mod_lt _ (by decide)⟩

def unpack (head : BitVec 64) : U32 × U32 := ((head >>> 32).setWidth 32, head.setWidth 32)

def pack (steal real : U32) : BitVec 64 := (steal.setWidth 64 <<< 32) ||| real.setWidth 64

structure GlobalQueue (T : Type) where
  tasks : List T := []
  num : Nat := 0
  isClosed : Bool := false

namespace GlobalQueue

variable {T : Type}

/-- `push_batch`; when the queue is closed the tasks are dropped. -/
def pushBatch (q : GlobalQueue T) (tasks : List T) (n : Nat) : GlobalQueue T :=
  if q.isClosed then q else { q with tasks := q.tasks ++ tasks, num := q.num + n }

def push (q : GlobalQueue T) (task : T) : GlobalQueue T := q.pushBatch [task] 1

def pop (q : GlobalQueue T) : Option T × GlobalQueue T :=
  match q.tasks with
  | [] => (none, q)
  | task :: rest => (some task, { q with tasks := rest, num := q.num - 1 })

def popN (q : GlobalQueue T) (n : Nat) : List T × GlobalQueue T :=
  let n := min q.num n
  (q.tasks.take n, { q with tasks := q.tasks.drop n, num := q.num - n })

def close (q : GlobalQueue T) : GlobalQueue T := { q with isClosed := true }

end GlobalQueue

structure LocalQueue (T : Type) where
  head : BitVec 64
  tail : U32
  buffer : Fin localQueueCapacity → T
  steal : Nat
  real : Nat
  last : Nat

namespace LocalQueue

variable {T : Type}

def empty [Inhabited T] : LocalQueue T := ⟨0, 0, fun _ => default, 0, 0, 0⟩

def write (q : LocalQueue T) (position : U32) (task : T) : LocalQueue T :=
  { q with buffer := Function.update q.buffer (slot position) task }

/-- `tail_.store` of a position `n` further on. -/
def storeTail (q : LocalQueue T) (tail : U32) (n : Nat) : LocalQueue T :=
  { q with tail, last := q.last + n }

/-- `head_.store` of a position `n` further on, by who finds no thief. -/
def storeHead (q : LocalQueue T) (head : BitVec 64) (n : Nat) : LocalQueue T :=
  { q with head, steal := q.steal + n, real := q.real + n }

/-- The same while the slots from `steal` on are a thief's. -/
def storeReal (q : LocalQueue T) (head : BitVec 64) (n : Nat) : LocalQueue T :=
  { q with head, real := q.real + n }

/-- The thief gives its slots back. -/
def release (q : LocalQueue T) (head : BitVec 64) : LocalQueue T := { q with head, steal := q.real }

end LocalQueue

namespace WorkStealing

/-- Where a thread is.  `src` is the worker it steals from. -/
inductive Pc (W T : Type) where
  | idle
  /-- an assertion has failed -/
  | failed
  /-- `remaining_slots` -/
  | remHead
  | remTail (steal : U32)
  /-- `push_batch` -/
  | batchHead (tasks : List T)
  | batchTail (tasks : List T) (steal : U32)
  /-- `i` tasks have been written -/
  | batchWrite (tasks : List T) (i : Nat) (tail : U32)
  /-- `push_back_or_overflow` -/
  | pushHead (task : T)
  | pushTail (task : T) (head : BitVec 64)
  | pushGlobal (task : T)
  /-- `push_overflow`, at its CAS -/
  | overflowCas (task : T) (head tail : U32)
  /-- `tasks` have been read -/
  | overflowRead (task : T) (head : U32) (tasks : List T)
  | pushWrite (task : T) (tail : U32)
  | pushStore (task : T) (tail : U32)
  /-- `pop` -/
  | popHead
  | popTail (head : BitVec 64)
  | popCas (head : BitVec 64)
  | popRead (real : U32)
  /-- `steal_into`: the loads from the thief's own queue -/
  | stealDstHead (src : W)
  | stealDstTail (src : W) (steal : U32)
  /-- `steal_into2` -/
  | stealHead (src : W) (dstTail : U32)
  | stealTail (src : W) (dstTail : U32) (prev : BitVec 64) (seen : Nat)
  | stealCas (src : W) (dstTail : U32) (prev : BitVec 64) (n : U32) (seen : Nat)
  | stealRead (src : W) (dstTail first n : U32) (i : Nat)
  | stealWrite (src : W) (dstTail first n : U32) (i : Nat) (task : T)
  | stealRelease (src : W) (dstTail n : U32) (prev : BitVec 64)
  /-- back in `steal_into` -/
  | stealTake (dstTail n : U32)
  | stealStore (dstNewTail : U32) (result : T)

structure State (W T : Type) where
  queue : W → LocalQueue T
  global : GlobalQueue T
  pc : W → Pc W T
  /-- tasks handed in -/
  handed : List T
  /-- tasks returned to a caller -/
  returned : List T
  /-- tasks pushed to the closed global queue -/
  dropped : List T

variable {W T : Type}

def init [Inhabited T] : State W T := ⟨fun _ => .empty, {}, fun _ => .idle, [], [], []⟩

inductive Act (W T : Type) where
  /-- a call by worker `w` -/
  | remainingSlots (w : W)
  | pushBatch (w : W) (tasks : List T)
  | pushBackOrOverflow (w : W) (task : T)
  | pop (w : W)
  | stealInto (src w : W)
  /-- the next step of the call of `w`; a CAS fails if `spurious` -/
  | step (w : W) (spurious : Bool)
  /-- calls on the global queue -/
  | globalPush (task : T)
  | globalPushBatch (tasks : List T)
  | globalPop
  | globalPopN (n : Nat)
  | globalClose

section

variable [DecidableEq W]

def setPc (s : State W T) (w : W) (p : Pc W T) : State W T :=
  { s with pc := Function.update s.pc w p }

def setQueue (s : State W T) (w : W) (q : LocalQueue T) : State W T :=
  { s with queue := Function.update s.queue w q }

/-- The call returns `tasks`. -/
def done (s : State W T) (w : W) (tasks : List T) : State W T :=
  { setPc s w .idle with returned := s.returned ++ tasks }

/-- A push to the global queue ends the call. -/
def publish (s : State W T) (w : W) (tasks : List T) : State W T :=
  { setPc s w .idle with
    global := s.global.pushBatch tasks tasks.length
    dropped := if s.global.isClosed then s.dropped ++ tasks else s.dropped }

/-- One step of the call of `w`. -/
def stepPc (s : State W T) (w : W) (spurious : Bool) : Option (State W T) :=
  let q := s.queue w
  match s.pc w with
  | .idle => none
  | .failed => none
  | .remHead => some (setPc s w (.remTail (unpack q.head).1))
  | .remTail steal =>
    some (setPc s w (if localQueueCapacity ≥ (q.tail - steal).toNat then .idle else .failed))
  | .batchHead tasks => some (setPc s w (.batchTail tasks (unpack q.head).1))
  | .batchTail tasks steal =>
    -- a batch that does not fit is thrown back
    if (q.tail - steal).toNat > localQueueCapacity - tasks.length then some (done s w tasks)
    else some (setPc s w (.batchWrite tasks 0 q.tail))
  | .batchWrite tasks i tail =>
    match tasks[i]? with
    | some task => some (setPc (setQueue s w (q.write tail task)) w (.batchWrite tasks (i + 1) (tail + 1)))
    | none => some (setPc (setQueue s w (q.storeTail tail tasks.length)) w .idle)
  | .pushHead task => some (setPc s w (.pushTail task q.head))
  | .pushTail task head =>
    let (steal, real) := unpack head
    if (q.tail - steal).toNat < localQueueCapacity then some (setPc s w (.pushWrite task q.tail))
    else if steal ≠ real then some (setPc s w (.pushGlobal task))
    else some (setPc s w (.overflowCas task real q.tail))
  | .pushGlobal task => some (publish s w [task])
  | .overflowCas task head tail =>
    if (tail - head).toNat ≠ localQueueCapacity then some (setPc s w .failed)
    else if spurious ∨ q.head ≠ pack head head then some (setPc s w (.pushHead task))
    else
      let q := q.storeHead (pack (head + 128) (head + 128)) 128
      some (setPc (setQueue s w q) w (.overflowRead task head []))
  | .overflowRead task head tasks =>
    if tasks.length < localQueueCapacity / 2 then
      let read := q.buffer (slot (head + BitVec.ofNat 32 tasks.length))
      some (setPc s w (.overflowRead task head (tasks ++ [read])))
    else some (publish s w (tasks ++ [task]))
  | .pushWrite task tail => some (setPc (setQueue s w (q.write tail task)) w (.pushStore task tail))
  | .pushStore _ tail => some (setPc (setQueue s w (q.storeTail (tail + 1) 1)) w .idle)
  | .popHead => some (setPc s w (.popTail q.head))
  | .popTail head =>
    some (setPc s w (if (unpack head).2 = q.tail then .idle else .popCas head))
  | .popCas head =>
    let (steal, real) := unpack head
    let nextReal := real + 1
    if spurious ∨ q.head ≠ head then some (setPc s w (.popTail q.head))
    else
      let q := if steal = real then q.storeHead (pack nextReal nextReal) 1
        else q.storeReal (pack steal nextReal) 1
      some (setPc (setQueue s w q) w (.popRead real))
  | .popRead real => some (done s w [q.buffer (slot real)])
  | .stealDstHead src => some (setPc s w (.stealDstTail src (unpack q.head).1))
  | .stealDstTail src steal =>
    some (setPc s w (if (q.tail - steal).toNat > localQueueCapacity / 2 then .idle
      else .stealHead src q.tail))
  | .stealHead src dstTail =>
    some (setPc s w (.stealTail src dstTail (s.queue src).head (s.queue src).real))
  | .stealTail src dstTail prev seen =>
    let (srcSteal, srcReal) := unpack prev
    if srcSteal ≠ srcReal then some (setPc s w .idle)
    else
      let n := (s.queue src).tail - srcReal
      let n := n - BitVec.ofNat 32 (n.toNat / 2)
      if n = 0 then some (setPc s w .idle)
      else if srcSteal = srcReal + n then some (setPc s w .failed)
      else some (setPc s w (.stealCas src dstTail prev n seen))
  | .stealCas src dstTail prev n _ =>
    let (srcSteal, srcReal) := unpack prev
    let q := s.queue src
    if spurious ∨ q.head ≠ prev then some (setPc s w (.stealTail src dstTail q.head q.real))
    else
      let q := q.storeReal (pack srcSteal (srcReal + n)) n.toNat
      some (setPc (setQueue s src q) w (.stealRead src dstTail srcSteal n 0))
  | .stealRead src dstTail first n i =>
    if i < n.toNat then
      let task := (s.queue src).buffer (slot (first + BitVec.ofNat 32 i))
      some (setPc s w (.stealWrite src dstTail first n i task))
    else some (setPc s w (.stealRelease src dstTail n (pack first (first + n))))
  | .stealWrite src dstTail first n i task =>
    some (setPc (setQueue s w (q.write (dstTail + BitVec.ofNat 32 i) task)) w
      (.stealRead src dstTail first n (i + 1)))
  | .stealRelease src dstTail n prev =>
    let q := s.queue src
    if spurious ∨ q.head ≠ prev then some (setPc s w (.stealRelease src dstTail n q.head))
    else
      let head := (unpack prev).2
      let q := q.release (pack head head)
      some (setPc (setQueue s src q) w (.stealTake dstTail n))
  | .stealTake dstTail n =>
    let n := n - 1
    let dstNewTail := dstTail + n
    let result := q.buffer (slot dstNewTail)
    if n = 0 then some (done s w [result]) else some (setPc s w (.stealStore dstNewTail result))
  | .stealStore dstNewTail result =>
    some (done (setQueue s w (q.storeTail dstNewTail (dstNewTail - q.tail).toNat)) w [result])

/-- A call starts when the thread is idle. -/
def call (s : State W T) (w : W) (p : Pc W T) : Option (State W T) :=
  match s.pc w with
  | .idle => some (setPc s w p)
  | _ => none

def step (s : State W T) : Act W T → Option (State W T)
  | .remainingSlots w => call s w .remHead
  -- `assert(0 < len && len <= capacity())`: the caller's part
  | .pushBatch w tasks =>
    if 0 < tasks.length ∧ tasks.length ≤ localQueueCapacity then
      call { s with handed := s.handed ++ tasks } w (.batchHead tasks)
    else none
  | .pushBackOrOverflow w task => call { s with handed := s.handed ++ [task] } w (.pushHead task)
  | .pop w => call s w .popHead
  -- a worker does not steal from itself
  | .stealInto src w => if src = w then none else call s w (.stealDstHead src)
  | .step w spurious => stepPc s w spurious
  | .globalPush task =>
    some { s with
      handed := s.handed ++ [task]
      global := s.global.push task
      dropped := if s.global.isClosed then s.dropped ++ [task] else s.dropped }
  | .globalPushBatch tasks =>
    some { s with
      handed := s.handed ++ tasks
      global := s.global.pushBatch tasks tasks.length
      dropped := if s.global.isClosed then s.dropped ++ tasks else s.dropped }
  | .globalPop =>
    let (task, global) := s.global.pop
    some { s with global, returned := s.returned ++ task.toList }
  | .globalPopN n =>
    let (tasks, global) := s.global.popN n
    some { s with global, returned := s.returned ++ tasks }
  | .globalClose => some { s with global := s.global.close }

end

end WorkStealing

end Kosio.Runtime
