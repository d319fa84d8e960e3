import Kosio.Async.Task

/-!
# The same programs without coroutines

What the bodies mean when a `co_await` is a call.  There are no frames, no callers
and no final awaiters: a thread has the variables of the function it is in and the
functions that wait for it, a task in a variable is a call that has not been made
yet or the result of one that has, and a call whose result is there already gives it
again.  Threads take their instructions in any order.

The one thing that has no meaning here is to spawn a task that has been awaited.
-/

namespace Kosio.Async.Direct

open Function

/-! ## Specification -/

/-- What a variable of type `Task` stands for. -/
inductive TaskVal (n : Nat) (P V E : Type) where
  | null
  | fresh (p : P) (locals : Fin n → TaskVal n P V E)
  | done (r : Result V E)

/-- A function that waits for the call in `src`. -/
structure Level (n : Nat) (P V E : Type) where
  locals : Fin n → TaskVal n P V E
  src : Fin n
  next : Result V E → P

inductive Ctl (P V : Type) where
  | runs (p : P)
  | waits (k : V → P)

structure Thread (n : Nat) (P V E : Type) where
  ctl : Ctl P V
  locals : Fin n → TaskVal n P V E
  stack : List (Level n P V E)

structure State (n : Nat) (P V E A : Type) where
  threads : Handle → Option (Thread n P V E)
  trace : List (Event V E A)
  status : Status

variable {n : Nat} {P V E A : Type}

def init : State n P V E A := { threads := fun _ => none, trace := [], status := .ok }

def State.put (s : State n P V E A) (t : Handle) (th : Thread n P V E) : State n P V E A :=
  { s with threads := update s.threads t (some th) }

def State.emit (s : State n P V E A) (e : Event V E A) : State n P V E A :=
  { s with trace := s.trace ++ [e] }

def errorOf : Result V E → Option (Exc E)
  | .ok _ => none
  | .error x => some x

def passArg (locals : Fin n → TaskVal n P V E) :
    Option (Fin n × Fin n) → (Fin n → TaskVal n P V E) × (Fin n → TaskVal n P V E)
  | none => (locals, fun _ => .null)
  | some (src, param) => (update locals src .null, update (fun _ => .null) param (locals src))

/-- The function returns `r` to the one that waits for it, or the thread ends. -/
def returns (debug : Bool) (s : State n P V E A) (t : Handle) (th : Thread n P V E)
    (r : Result V E) : State n P V E A :=
  match th.stack with
  | [] =>
    { threads := update s.threads t none
      trace := s.trace ++ [Event.ended t (errorOf r)]
      status := if (errorOf r).isSome && debug then .terminated else s.status }
  | level :: stack =>
    s.put t
      { ctl := .runs (level.next r), locals := update level.locals level.src (.done r), stack }

/-- One instruction of thread `t`; `new` names the thread it spawns, if it does. -/
def exec (code : P → Op n P V E A) (debug : Bool) (s : State n P V E A) (t new : Handle)
    (th : Thread n P V E) (p : P) : State n P V E A :=
  match code p with
  | .coReturn v => returns debug s t th (.ok v)
  | .throw x => returns debug s t th (.error x)
  | .suspend k => s.put t { th with ctl := .waits k }
  | .call dst callee arg k =>
    let (locals, params) := passArg th.locals arg
    s.put t { th with ctl := .runs k, locals := update locals dst (.fresh callee params) }
  | .coAwait src k =>
    match th.locals src with
    | .null => s.put t { th with ctl := .runs (k (.error .logicError)) }
    | .done r => s.put t { th with ctl := .runs (k r) }
    | .fresh q locals =>
      s.put t
        { ctl := .runs q, locals
          stack := { locals := update th.locals src .null, src, next := k } :: th.stack }
  | .assign dst src k =>
    if dst = src then s.put t { th with ctl := .runs k }
    else
      s.put t
        { th with
          ctl := .runs k, locals := update (update th.locals dst (th.locals src)) src .null }
  | .reset dst k => s.put t { th with ctl := .runs k, locals := update th.locals dst .null }
  | .spawn src k =>
    match th.locals src with
    | .null => s.put t { th with ctl := .runs (k (.error .logicError)) }
    | .done _ => { s with status := .undefined }
    | .fresh q locals =>
      ((s.put t { th with ctl := .runs (k (.ok ())), locals := update th.locals src .null }).put new
        { ctl := .runs q, locals, stack := [] }).emit (.started new)
  | .effect a k => (s.put t { th with ctl := .runs k }).emit (.effect a)

def startLocals : Option (Fin n × P) → Fin n → TaskVal n P V E
  | none => fun _ => .null
  | some (param, q) => update (fun _ => .null) param (.fresh q fun _ => .null)

inductive Act (n : Nat) (P V : Type) where
  | start (t : Handle) (p : P) (task : Option (Fin n × P))
  | complete (t : Handle) (v : V)
  | work (t new : Handle)

/-- A name is given to one thread at a time. -/
def step (code : P → Op n P V E A) (debug : Bool) (s : State n P V E A) :
    Act n P V → Option (State n P V E A)
  | .start t p task =>
    if s.status = .ok ∧ (s.threads t).isNone then
      some ((s.put t { ctl := .runs p, locals := startLocals task, stack := [] }).emit
        (.started t))
    else none
  | .complete t v =>
    if s.status = .ok then
      match s.threads t with
      | some ⟨.waits k, locals, stack⟩ => some ((s.put t ⟨.runs (k v), locals, stack⟩).emit (.input v))
      | _ => none
    else none
  | .work t new =>
    if s.status = .ok ∧ (s.threads new).isNone then
      match s.threads t with
      | some ⟨.runs p, locals, stack⟩ => some (exec code debug s t new ⟨.runs p, locals, stack⟩ p)
      | _ => none
    else none

end Kosio.Async.Direct
