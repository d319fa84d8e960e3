import Mathlib.Logic.Function.Basic
import Kosio.Lib.Run

/-!
# Tasks: frames, callers and symmetric transfer

A `Task` owns the frame of a coroutine that has been called and not started.
`co_await` on it stores the awaiting coroutine as the callee's `caller_` and
transfers control; the callee's final awaiter transfers it back, and what the
callee returned or threw is read out of its frame.  A coroutine without a caller
has been handed to the scheduler: at its end it prints the exception nobody
caught and destroys itself.  Everything else is destroyed by the `Task` that owns
it, and with it the `Task`s it still holds.

The bodies of coroutines are the user's: `code` gives the instruction at each
point of the program.  A variable of type `Task` is a slot of the frame.  `reset`
is its destructor where the compiler calls it before `co_return` (a local); a
slot that is not reset is destroyed with the frame (a parameter).  What a
coroutine suspends on other than a task (a read, a lock, a timer) hands it back to
the scheduler once, with a value.
-/

namespace Kosio.Async

open Function

/-! ## Algorithm -/

/-- An exception: one of the program's, or the `std::logic_error` of an empty `Task`. -/
inductive Exc (E : Type) where
  | user (x : E)
  | logicError
deriving DecidableEq

/-- What `TaskPromise::result` gives its caller. -/
abbrev Result (V E : Type) := Except (Exc E) V

/-- What a coroutine does next; the last argument is where it goes on, or with a
result where the instruction has one or can throw. -/
inductive Op (n : Nat) (P V E A : Type) where
  | coReturn (v : V)
  /-- an exception leaves the body -/
  | throw (x : Exc E)
  | suspend (k : V → P)
  /-- `dst = f(..)`; `arg` is the caller's task that is moved into a parameter -/
  | call (dst : Fin n) (callee : P) (arg : Option (Fin n × Fin n)) (k : P)
  | coAwait (src : Fin n) (k : Result V E → P)
  /-- `dst = std::move(src)` -/
  | assign (dst src : Fin n) (k : P)
  | reset (dst : Fin n) (k : P)
  | spawn (src : Fin n) (k : Result Unit E → P)
  | effect (a : A) (k : P)

abbrev Handle := Nat

/-- Where a coroutine is suspended. -/
inductive Susp (P V E : Type) where
  | initial (p : P)
  | running
  /-- with the value, once there is one -/
  | io (k : V → P) (value : Option V)
  | awaiting (callee : Handle) (k : Result V E → P)
  | final

structure Frame (n : Nat) (P V E : Type) where
  susp : Susp P V E
  tasks : Fin n → Option Handle
  caller_ : Option Handle
  value_ : Option V
  ex_ : Option (Exc E)

/-- What a worker does when the destructors it is in have returned. -/
inductive Next (P : Type) where
  | exec (h : Handle) (p : P)
  | finalSuspend (h : Handle)
  | back

/-- A worker inside `resume()`: the tasks still to be destroyed, and what is next. -/
structure Job (P : Type) where
  doomed : List (Option Handle)
  next : Next P

/-- What can be seen from outside: the coroutines that are given to the scheduler, what
they are resumed with, what their bodies do, and their ends, with the exception that is
printed. -/
inductive Event (V E A : Type) where
  | started (h : Handle)
  | input (v : V)
  | effect (a : A)
  | ended (h : Handle) (ex : Option (Exc E))
deriving DecidableEq

inductive Status where
  | ok
  /-- `std::terminate` -/
  | terminated
  /-- a frame used after it was destroyed, a coroutine resumed or destroyed where it
  must not be -/
  | undefined
deriving DecidableEq

structure State (n : Nat) (P V E A W : Type) where
  heap : Handle → Option (Frame n P V E)
  next : Handle
  /-- what the scheduler holds, in no particular order -/
  ready : List Handle
  job : W → Option (Job P)
  trace : List (Event V E A)
  status : Status

variable {n : Nat} {P V E A W : Type} [DecidableEq W]

def init : State n P V E A W :=
  { heap := fun _ => none, next := 0, ready := [], job := fun _ => none, trace := [], status := .ok }

/-- `initial_suspend` always suspends. -/
def newFrame (p : P) (tasks : Fin n → Option Handle) : Frame n P V E :=
  { susp := .initial p, tasks, caller_ := none, value_ := none, ex_ := none }

/-- `TaskPromise::result`; `none` where `assert(value_.has_value())` fails. -/
def Frame.result (f : Frame n P V E) : Option (Result V E) :=
  match f.ex_ with
  | some x => some (.error x)
  | none => f.value_.map .ok

/-- At its final suspend point. -/
def Frame.finish (f : Frame n P V E) : Frame n P V E := { f with susp := .final }

def State.fault (s : State n P V E A W) : State n P V E A W := { s with status := .undefined }

def State.put (s : State n P V E A W) (h : Handle) (f : Frame n P V E) : State n P V E A W :=
  { s with heap := update s.heap h (some f) }

def State.goTo (s : State n P V E A W) (w : W) (doomed : List (Option Handle)) (next : Next P) :
    State n P V E A W :=
  { s with job := update s.job w (some ⟨doomed, next⟩) }

def State.idle (s : State n P V E A W) (w : W) : State n P V E A W :=
  { s with job := update s.job w none }

/-- The caller's slots and the callee's parameters, once the argument has been moved. -/
def passArg (tasks : Fin n → Option Handle) :
    Option (Fin n × Fin n) → (Fin n → Option Handle) × (Fin n → Option Handle)
  | none => (tasks, fun _ => none)
  | some (src, param) => (update tasks src none, update (fun _ => none) param (tasks src))

/-- `co_await task` in coroutine `h`, whose frame is `f`. -/
def stepAwait (s : State n P V E A W) (w : W) (h : Handle) (f : Frame n P V E) (src : Fin n)
    (k : Result V E → P) : State n P V E A W :=
  match f.tasks src with
  | none => s.goTo w [] (.exec h (k (.error .logicError)))
  | some callee =>
    match s.heap callee with
    | none => s.fault
    | some g =>
      match g.susp with
      | .final =>
        match g.result with
        | some r => s.goTo w [] (.exec h (k r))
        | none => s.fault
      | .initial p =>
        ((s.put h { f with susp := .awaiting callee k }).put callee
          { g with susp := .running, caller_ := some h }).goTo w [] (.exec callee p)
      -- resumed where it waits for something else
      | _ => s.fault

/-- One instruction of coroutine `h`. -/
def stepExec (code : P → Op n P V E A) (s : State n P V E A W) (w : W) (h : Handle) (p : P) :
    State n P V E A W :=
  match s.heap h with
  | none => s.fault
  | some f =>
    match code p with
    | .coReturn v => (s.put h { f with value_ := some v }).goTo w [] (.finalSuspend h)
    -- `unhandled_exception`
    | .throw x => (s.put h { f with ex_ := some x }).goTo w [] (.finalSuspend h)
    | .suspend k => (s.put h { f with susp := .io k none }).idle w
    | .call dst callee arg k =>
      let (tasks, params) := passArg f.tasks arg
      let s' := { s with next := s.next + 1 }
      ((s'.put s.next (newFrame callee params)).put h
        { f with tasks := update tasks dst (some s.next) }).goTo w [tasks dst] (.exec h k)
    | .coAwait src k => stepAwait s w h f src k
    | .assign dst src k =>
      if dst = src then s.goTo w [] (.exec h k)
      else
        (s.put h { f with tasks := update (update f.tasks dst (f.tasks src)) src none }).goTo w
          [f.tasks dst] (.exec h k)
    | .reset dst k =>
      (s.put h { f with tasks := update f.tasks dst none }).goTo w [f.tasks dst] (.exec h k)
    -- `task.take()`, then `schedule_local`
    | .spawn src k =>
      match f.tasks src with
      | none => s.goTo w [] (.exec h (k (.error .logicError)))
      | some c =>
        let s := s.put h { f with tasks := update f.tasks src none }
        { s with ready := s.ready ++ [c], trace := s.trace ++ [Event.started c] }.goTo w []
          (.exec h (k (.ok ())))
    | .effect a k => { s with trace := s.trace ++ [Event.effect a] }.goTo w [] (.exec h k)

/-- `TaskFinalAwaiter::await_suspend`; `debug` is the build without `NDEBUG`. -/
def stepFinal (debug : Bool) (s : State n P V E A W) (w : W) (h : Handle) : State n P V E A W :=
  match s.heap h with
  | none => s.fault
  | some f =>
    let s := s.put h f.finish
    match f.caller_ with
    | some c =>
      match s.heap c with
      | none => s.fault
      | some g =>
        match g.susp with
        | .awaiting callee k =>
          -- `await_resume` in the caller
          match (s.heap callee).bind Frame.result with
          | some r => (s.put c { g with susp := .running }).goTo w [] (.exec c (k r))
          | none => s.fault
        | _ => s.fault
    | none =>
      let s := { s with trace := s.trace ++ [Event.ended h f.ex_] }
      if f.ex_.isSome && debug then { s with status := .terminated }
      else s.goTo w [some h] .back

/-- `~Task`, which destroys the frame and so the tasks it holds. -/
def stepDestroy (s : State n P V E A W) (w : W) (t : Option Handle) (rest : List (Option Handle))
    (next : Next P) : State n P V E A W :=
  match t with
  | none => s.goTo w rest next
  | some h =>
    match s.heap h with
    | none => s.fault
    | some f =>
      match f.susp with
      -- what it waits for has the address of its awaiter, which is in the frame
      | .running | .io _ none => s.fault
      | _ => { s with heap := update s.heap h none }.goTo w (List.ofFn f.tasks ++ rest) next

def stepWork (code : P → Op n P V E A) (debug : Bool) (s : State n P V E A W) (w : W) :
    Option (State n P V E A W) :=
  match s.job w with
  | none => none
  | some ⟨t :: rest, next⟩ => some (stepDestroy s w t rest next)
  | some ⟨[], .exec h p⟩ => some (stepExec code s w h p)
  | some ⟨[], .finalSuspend h⟩ => some (stepFinal debug s w h)
  | some ⟨[], .back⟩ => some (s.idle w)

/-- `handle.resume()` by a worker that took `h` from the scheduler. -/
def stepResume (s : State n P V E A W) (w : W) (h : Handle) : State n P V E A W :=
  let s := { s with ready := s.ready.erase h }
  match s.heap h with
  | none => s.fault
  | some f =>
    match f.susp with
    | .initial p => (s.put h { f with susp := .running }).goTo w [] (.exec h p)
    | .io k (some v) => (s.put h { f with susp := .running }).goTo w [] (.exec h (k v))
    | _ => s.fault

/-- A coroutine that is called outside of the runtime and scheduled.  `Runtime::block_on`
moves the user's task into a parameter of it. -/
def stepStart (s : State n P V E A W) (p : P) : Option (Fin n × P) → State n P V E A W
  | none =>
    { s.put s.next (newFrame p fun _ => none) with
      next := s.next + 1, ready := s.ready ++ [s.next]
      trace := s.trace ++ [Event.started s.next] }
  | some (param, q) =>
    { (s.put s.next (newFrame q fun _ => none)).put (s.next + 1)
        (newFrame p (update (fun _ => none) param (some s.next))) with
      next := s.next + 2, ready := s.ready ++ [s.next + 1]
      trace := s.trace ++ [Event.started (s.next + 1)] }

inductive Act (n : Nat) (P V W : Type) where
  | start (p : P) (task : Option (Fin n × P))
  /-- what `h` waits for is there -/
  | complete (h : Handle) (v : V)
  | resume (w : W) (h : Handle)
  | work (w : W)

def step (code : P → Op n P V E A) (debug : Bool) (s : State n P V E A W) (act : Act n P V W) :
    Option (State n P V E A W) :=
  if s.status = .ok then
    match act with
    | .start p task => some (stepStart s p task)
    | .complete h v =>
      match s.heap h with
      | none => none
      | some f =>
        match f.susp with
        | .io k none =>
          some
            { s.put h { f with susp := .io k (some v) } with
              ready := s.ready ++ [h], trace := s.trace ++ [Event.input v] }
        | _ => none
    | .resume w h =>
      if s.job w = none ∧ h ∈ s.ready then some (stepResume s w h) else none
    | .work w => stepWork code debug s w
  else none

end Kosio.Async
