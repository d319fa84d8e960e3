import Kosio.Common.Error
import Kosio.Lib.Run
import Kosio.Runtime.Timer.Level

/-!
# `Timer`: a hierarchical timing wheel

Six levels of 64 slots.  An entry due at `w` (ms since the start) is stored, at
time `elapsed_ = e`, in the level of the highest base-64 digit in which `e` and
`w` differ, in the slot of that digit of `w`.  `handle_expired_entries` jumps
from deadline to deadline; a slot of a higher level is spread over lower ones.

`turn` is one round of its loop and `expire` the loop, with the fuel
`now - elapsed_ + 1` that is always enough (`expire_fuel`).
-/

namespace Kosio.Runtime

open Bits Steps

/-! ## Algorithm -/

structure Timer (D H : Type) where
  startTime : Nat
  elapsed : Nat
  levels : (level : Fin numLevels) → Level level
  pending : List Nat
  /-- the entries made so far -/
  entries : Nat → Entry D H
  made : Nat

variable {D H : Type}

/-- A timer built when the clock reads `currentMs`. -/
def Timer.new (currentMs : Nat) : Timer D H :=
  { startTime := currentMs, elapsed := 0, levels := fun _ => {}, pending := []
    entries := fun _ => {}, made := 0 }

def slotMask : Nat := 2 ^ 6 - 1

/-- The position of the highest bit in which `elapsed` and `when_` differ, at
least 5 and at most 35. -/
def significant (elapsed when_ : Nat) : Nat :=
  let masked := (elapsed ^^^ when_) ||| slotMask
  let masked := if masked ≥ maxDuration then maxDuration - 1 else masked
  63 - countlZero (BitVec.ofNat 64 masked)

theorem significant_spec (e w : Nat) :
    let masked := if ((e ^^^ w) ||| slotMask) ≥ maxDuration then maxDuration - 1
      else (e ^^^ w) ||| slotMask
    2 ^ significant e w ≤ masked ∧ masked < 2 ^ (significant e w + 1) := by
  have h63 : 63 ≤ (e ^^^ w) ||| slotMask := Nat.right_le_or
  apply countlZero_spec
  · rw [maxDuration_eq]
    split <;> omega
  · rw [maxDuration_eq]
    split <;> omega

theorem significant_lt (e w : Nat) : significant e w < 36 := by
  have hm : 2 ^ significant e w < 2 ^ 36 := by
    refine lt_of_le_of_lt (significant_spec e w).1 ?_
    rw [maxDuration_eq]
    split <;> omega
  exact (Nat.pow_lt_pow_iff_right (by decide)).1 hm

def levelFor (elapsed when_ : Nat) : Fin numLevels :=
  ⟨significant elapsed when_ / numLevels, by
    apply Nat.div_lt_of_lt_mul
    exact significant_lt elapsed when_⟩

namespace Timer

def addEntry (t : Timer D H) (level : Fin numLevels) (entry when_ : Nat) : Timer D H :=
  { t with levels := Function.update t.levels level ((t.levels level).addEntry entry when_) }

/-- `Entry::make`. -/
def make (t : Timer D H) (entry : Entry D H) : Timer D H × Nat :=
  ({ t with entries := Function.update t.entries t.made entry, made := t.made + 1 }, t.made)

/-- Both overloads of `insert`. -/
def insertEntry (t : Timer D H) (entry : Entry D H) : Result (Timer D H × Nat) :=
  if entry.expirationTime ≤ t.startTime + t.elapsed then .error .kPassedTime
  else
    let when_ := entry.expirationTime - t.startTime
    let (t, result) := t.make entry
    .ok (t.addEntry (levelFor t.elapsed when_) result when_, result)

/-- `insert(Callback*, uint64_t)` -/
def insertData (t : Timer D H) (data : D) (expirationTime : Nat) : Result (Timer D H × Nat) :=
  t.insertEntry { data := some data, expirationTime }

/-- `insert(std::coroutine_handle<>, uint64_t)` -/
def insertHandle (t : Timer D H) (handle : H) (expirationTime : Nat) : Result (Timer D H × Nat) :=
  t.insertEntry { handle := some handle, expirationTime }

def setEntry (t : Timer D H) (i : Nat) (entry : Entry D H) : Timer D H :=
  { t with entries := Function.update t.entries i entry }

/-- Lazy removal: a sleeping coroutine is put into the slot of `elapsed_`. -/
def remove (t : Timer D H) (entry : Nat) : Timer D H :=
  let t := t.setEntry entry { t.entries entry with data := none }
  match (t.entries entry).handle with
  | none => t
  | some handle =>
    let (t, newEntry) := t.make { handle := some handle, expirationTime := t.startTime + t.elapsed }
    let t := t.addEntry 0 newEntry t.elapsed
    t.setEntry entry { t.entries entry with handle := none }

/-- The first level that has one. -/
def nextExpiration (t : Timer D H) : Option Expiration :=
  (List.finRange numLevels).findSome? fun level => (t.levels level).nextExpiration t.elapsed

def nextExpirationTime (t : Timer D H) : Option Nat :=
  t.nextExpiration.map fun expiration => expiration.deadline - t.elapsed

/-- When an entry is due, in ms since the start. -/
def when_ (t : Timer D H) (entry : Nat) : Nat := (t.entries entry).expirationTime - t.startTime

def takeEntries (t : Timer D H) (expiration : Expiration) : List Nat × Timer D H :=
  let (entries, level) := (t.levels expiration.level).takeSlot expiration.slot
  (entries, { t with levels := Function.update t.levels expiration.level level })

/-- Where an entry of a slot that has been reached goes. -/
def cascade (deadline : Nat) (t : Timer D H) (entry : Nat) : Timer D H :=
  if t.when_ entry ≤ deadline then { t with pending := t.pending ++ [entry] }
  else t.addEntry (levelFor deadline (t.when_ entry)) entry (t.when_ entry)

def processExpiration (t : Timer D H) (expiration : Expiration) : Timer D H :=
  let (entries, t) := t.takeEntries expiration
  if expiration.level = 0 then { t with pending := t.pending ++ entries }
  else entries.foldl (cascade expiration.deadline) t

/-- The entries executed, in order, and what they did. -/
abbrev Log (D H : Type) := List (Nat × Effect D H)

/-- `pending_` is executed. -/
def executed (t : Timer D H) : Log D H :=
  t.pending.map fun entry => (entry, (t.entries entry).execute)

/-- One round of the loop after `pending_` has been executed; `none` is the `break`. -/
def turn (now : Nat) (t : Timer D H) : Option (Timer D H) :=
  let t := { t with pending := [] }
  match t.nextExpiration with
  | none => none
  | some expiration =>
    if expiration.deadline > now then none
    else some { t.processExpiration expiration with elapsed := expiration.deadline }

/-- The loop. -/
def expire (now : Nat) : Nat → Timer D H → Timer D H × Log D H
  | 0, t => (t, [])
  | fuel + 1, t =>
    match t.turn now with
    | none => ({ t with pending := [] }, t.executed)
    | some u =>
      let (v, log) := expire now fuel u
      (v, t.executed ++ log)

/-- `currentMs` is what the clock reads. -/
def handleExpiredEntries (t : Timer D H) (currentMs : Nat) : Timer D H × Log D H :=
  let now := currentMs - t.startTime
  let (t, log) := t.expire now (now - t.elapsed + 1)
  ({ t with elapsed := now }, log)

/-- The states in which the loop looks for the next expiration. -/
def heads (now : Nat) : Nat → Timer D H → List (Timer D H)
  | 0, _ => []
  | fuel + 1, t =>
    t :: match t.turn now with
      | none => []
      | some u => heads now fuel u

end Timer

/-! ## Runs -/

namespace TimerRun

structure State (D H : Type) where
  timer : Timer D H
  /-- the clock reading of each `handle_expired_entries` and the entries it executed -/
  calls : List (Nat × List Nat)
  /-- how many of them there had been when the entry was inserted -/
  birth : Nat → Nat
  /-- the time that `insert` was called with for the entry -/
  due : Nat → Nat

def init (currentMs : Nat) : State D H := ⟨.new currentMs, [], fun _ => 0, fun _ => 0⟩

inductive Act (D H : Type) where
  | insertData (data : D) (expirationTime : Nat)
  | insertHandle (handle : H) (expirationTime : Nat)
  /-- `remove` of an entry that has not been executed and whose `handle_` is null -/
  | removeData (entry : Nat)
  | handleExpiredEntries (currentMs : Nat)

/-- A rejected entry changes nothing. -/
def inserted (s : State D H) (expirationTime : Nat) : Result (Timer D H × Nat) → State D H
  | .error _ => s
  | .ok (timer, i) =>
    { s with
      timer
      birth := Function.update s.birth i s.calls.length
      due := Function.update s.due i expirationTime }

def step (s : State D H) : Act D H → Option (State D H)
  | .insertData data expirationTime =>
    some (inserted s expirationTime (s.timer.insertData data expirationTime))
  | .insertHandle handle expirationTime =>
    some (inserted s expirationTime (s.timer.insertHandle handle expirationTime))
  | .removeData entry =>
    if entry < s.timer.made ∧ entry ∉ s.calls.flatMap (·.2) ∧
        (s.timer.entries entry).handle.isNone then
      some { s with timer := s.timer.remove entry }
    else none
  -- the clock does not go back
  | .handleExpiredEntries currentMs =>
    if currentMs < s.timer.startTime + s.timer.elapsed then none
    else
      let (timer, log) := s.timer.handleExpiredEntries currentMs
      some { s with timer, calls := s.calls ++ [(currentMs, log.map (·.1))] }

/-- The timers a step goes through: those at the head of the loop, and the last. -/
def visited (s : State D H) (a : Act D H) (t : State D H) : List (Timer D H) :=
  match a with
  | .handleExpiredEntries currentMs =>
    let now := currentMs - s.timer.startTime
    s.timer.heads now (now - s.timer.elapsed + 1) ++ [t.timer]
  | _ => [t.timer]

end TimerRun

end Kosio.Runtime
