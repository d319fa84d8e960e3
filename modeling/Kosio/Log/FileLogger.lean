import Mathlib.Algebra.GroupWithZero.Nat
import Mathlib.Data.List.Basic
import Kosio.Lib.Run

/-!
# `FileLogger`: every message once and in order

`log` appends to the current buffer under the lock, or moves it to the full ones
and starts another.  `work` does the same to the current buffer under the lock,
and then writes the full buffers, resets them and gives them back, without it.

A full buffer that comes before the loop has reached the end is written by it.
One that comes after, before `splice`, is given back or dropped as it is.  And the
constructor starts `work` before it has initialised `running_` and has pushed the empty
buffers: if the worker finds what happens to be in `running_`, it may leave at once.  So

    no `log` moves a buffer between the end of the loop and `splice`, and the worker
    waits for the constructor
      →  what is in the file is what was accepted, in order, and in the end all of it

                                                                    (file_exact)

and the condition is exact, step by step (`ordered_iff`).

A buffer is the list of the messages written to it since it was reset; `len` is the
length of a message and `cap` the size of a buffer.
-/

namespace Kosio.FileLogger

open Steps

variable {M : Type} (cap : Nat) (len : M → Nat)

/-! ## `LogBuffer` -/

abbrev LogBuffer (M : Type) := List M

namespace LogBuffer

def size (b : LogBuffer M) : Nat := (b.map len).sum

def writableBytes (b : LogBuffer M) : Nat := cap - LogBuffer.size len b

/-- `none` if the assertion fails. -/
def write (b : LogBuffer M) (msg : M) : Option (LogBuffer M) :=
  if writableBytes cap len b > len msg then some (b ++ [msg]) else none

end LogBuffer

/-! ## Algorithm -/

/-- Where the worker is; in the loops, at which buffer. -/
inductive Pc where
  /-- `while (running_)` -/
  | loop
  /-- the critical section -/
  | swap
  | check
  /-- `begin()` -/
  | first
  | write (i : Nat)
  | reset (i : Nat)
  /-- `++it` -/
  | next (i : Nat)
  | trim
  | flush
  | splice
  /-- after `running_` has been seen false -/
  | last
  | drain (i : Nat)
  | done
deriving DecidableEq

/-- Where the constructor is. -/
inductive Built where
  /-- `thread_` has been started, `running_` is not initialised -/
  | thread
  /-- in its body, with so many empty buffers pushed -/
  | pushing (i : Nat)
  | done
deriving DecidableEq

structure State (M : Type) where
  built : Built
  /-- `current_buffer_`, null once it has been moved away -/
  current : Option (LogBuffer M)
  empty : List (LogBuffer M)
  full : List (LogBuffer M)
  running : Bool
  pc : Pc
  file : List M
  /-- the messages accepted, in the order of their critical sections -/
  accepted : List M

/-- The constructor has started `work`; `garbage` happens to be in `running_`. -/
def init (garbage : Bool) : State M :=
  { built := .thread, current := some [], empty := [], full := [], running := garbage, pc := .loop
    file := [], accepted := [] }

/-- The rest of the constructor: `running_{true}`, and the two pushes. -/
def construct (s : State M) : Option (State M) :=
  match s.built with
  | .thread => some { s with running := true, built := .pushing 0 }
  | .pushing i =>
    if i < 2 then some { s with empty := s.empty ++ [[]], built := .pushing (i + 1) }
    else some { s with built := .done }
  | .done => none

def maxBufferListSize : Nat := 15

/-- The buffer that takes the place of the current one, an empty or a new one. -/
def replacement (s : State M) : LogBuffer M := s.empty.headD []

/-- The current buffer goes to the full ones. -/
def switch (s : State M) (current : LogBuffer M) : State M :=
  { s with full := s.full ++ [current], current := some (replacement s), empty := s.empty.tail }

/-- The message is in the current buffer. -/
def accept (s : State M) (msg : M) (buffer : LogBuffer M) : State M :=
  { s with current := some buffer, accepted := s.accepted ++ [msg] }

/-- The critical section of `log`. -/
def log (s : State M) (msg : M) : Option (State M) :=
  match s.current with
  -- a null pointer is dereferenced
  | none => none
  | some current =>
    if LogBuffer.writableBytes cap len current > len msg then
      (LogBuffer.write cap len current msg).map (accept s msg)
    else (LogBuffer.write cap len (replacement s) msg).map (accept (switch s current) msg)

/-- A step of `work`. -/
def work (s : State M) : Option (State M) :=
  match s.pc with
  | .loop => if s.running then some { s with pc := .swap } else some { s with pc := .last }
  -- `wait_for` returns when there is a full buffer, or after 3 ms
  | .swap => s.current.map fun current => { switch s current with pc := .check }
  | .check =>
    if s.full.length > maxBufferListSize then some { s with full := s.full.take 2, pc := .first }
    else some { s with pc := .first }
  | .first => if s.full = [] then some { s with pc := .trim } else some { s with pc := .write 0 }
  | .write i =>
    s.full[i]?.map fun buffer => { s with file := s.file ++ buffer, pc := .reset i }
  | .reset i => some { s with full := s.full.set i [], pc := .next i }
  -- the iterator is at the end if there is no buffer behind it now
  | .next i =>
    if i + 1 < s.full.length then some { s with pc := .write (i + 1) }
    else some { s with pc := .trim }
  | .trim =>
    if s.full.length > 2 then some { s with full := s.full.take 2, pc := .flush }
    else some { s with pc := .flush }
  | .flush => some { s with pc := .splice }
  | .splice => some { s with empty := s.empty ++ s.full, full := [], pc := .loop }
  -- without the lock
  | .last =>
    s.current.map fun current =>
      if current ≠ [] then
        { s with full := s.full ++ [current], current := none, pc := .drain 0 }
      else { s with pc := .drain 0 }
  | .drain i =>
    match s.full[i]? with
    | some buffer => some { s with file := s.file ++ buffer, pc := .drain (i + 1) }
    | none => some { s with pc := .done }
  | .done => none

inductive Act (M : Type) where
  | construct
  | log (msg : M)
  | work
  /-- the destructor sets `running_`, when every call of `log` has returned -/
  | stop

def step (s : State M) : Act M → Option (State M)
  | .construct => construct s
  | .log msg => if s.built = .done ∧ s.running then log cap len s msg else none
  | .work => work s
  | .stop => if s.built = .done then some { s with running := false } else none

/-! ## Specification -/

/-- The worker has left the loop over the full buffers and has not given them back. -/
def Pc.window : Pc → Bool
  | .trim | .flush | .splice => true
  | _ => false

/-- The worker waits for the constructor. -/
structure Waits (s : State M) (a : Act M) : Prop where
  /-- `running_` has been initialised when it is tested -/
  tested : a = .work → s.pc = .loop → s.built ≠ .thread
  /-- the empty buffers have been pushed when one is taken -/
  pushed : a = .work → s.pc = .swap → s.built = .done

instance (s : State M) : (a : Act M) → Decidable (Waits s a)
  | .work => decidable_of_iff
      ((s.pc = .loop → s.built ≠ .thread) ∧ (s.pc = .swap → s.built = .done))
      ⟨fun h => ⟨fun _ => h.1, fun _ => h.2⟩, fun h => ⟨h.tested rfl, h.pushed rfl⟩⟩
  | .construct | .log _ | .stop => isTrue ⟨nofun, nofun⟩

/-- The message has room in the current buffer. -/
def Fits (s : State M) (msg : M) : Prop :=
  ∀ b ∈ s.current, LogBuffer.writableBytes cap len b > len msg

instance (s : State M) (msg : M) : Decidable (Fits cap len s msg) :=
  match h : s.current with
  | none => isTrue (by rw [Fits, h]; nofun)
  | some b => decidable_of_iff (LogBuffer.writableBytes cap len b > len msg) (by simp [Fits, h])

/-- What is asked of the steps of a run. -/
structure Allowed (s : State M) (a : Act M) (t : State M) : Prop where
  small : ∀ msg, a = .log msg → len msg < cap
  pending : t.full.length ≤ maxBufferListSize
  waits : Waits s a
  /-- in the window `log` does not move the current buffer -/
  outside : ∀ msg, a = .log msg → s.pc.window → Fits cap len s msg

instance (s : State M) (t : State M) : (a : Act M) → Decidable (Allowed cap len s a t)
  | .log msg => decidable_of_iff (len msg < cap ∧ t.full.length ≤ maxBufferListSize ∧
      (s.pc.window → Fits cap len s msg))
      ⟨fun h => ⟨fun _ he => by cases he; exact h.1, h.2.1, ⟨nofun, nofun⟩,
        fun _ he => by cases he; exact h.2.2⟩,
        fun h => ⟨h.small msg rfl, h.pending, h.outside msg rfl⟩⟩
  | .work => decidable_of_iff (t.full.length ≤ maxBufferListSize ∧ Waits s .work)
      ⟨fun h => ⟨nofun, h.1, h.2, nofun⟩, fun h => ⟨h.pending, h.waits⟩⟩
  | .construct | .stop => decidable_of_iff (t.full.length ≤ maxBufferListSize)
      ⟨fun h => ⟨nofun, h, ⟨nofun, nofun⟩, nofun⟩, fun h => h.pending⟩

/-- What the worker is still going to write. -/
def unwritten (s : State M) : List (LogBuffer M) :=
  match s.pc with
  | .loop | .swap | .check | .first | .last => s.full
  | .write i | .drain i => s.full.drop i
  | .reset i | .next i => s.full.drop (i + 1)
  | .trim | .flush | .splice | .done => []

/-- How many of the full buffers have been reset. -/
def resets (s : State M) : Nat :=
  match s.pc with
  | .write i | .reset i => i
  | .next i => i + 1
  | .trim | .flush | .splice => s.full.length
  | _ => 0

/-- Where the iterator is. -/
def Pc.iterator : Pc → Option Nat
  | .write i | .reset i | .next i => some i
  | _ => none

/-- The worker is past the main loop. -/
def Pc.stopped : Pc → Bool
  | .last | .drain _ | .done => true
  | _ => false

def Pc.drained : Pc → Bool
  | .drain _ | .done => true
  | _ => false

/-- What the constructor and the destructor have done when the worker and `log` need it. -/
structure Ready (s : State M) : Prop where
  /-- the current buffer is there until the worker takes it in the end -/
  present : s.pc.drained = false → s.current ≠ none
  stopped : s.pc.stopped → s.running = false ∧ s.built = .done
  pushing : ∀ i, s.built = .pushing i → s.running = true

structure Inv (s : State M) : Prop where
  order : s.file ++ (unwritten s).flatten ++ s.current.getD [] = s.accepted
  clean : ∀ b ∈ s.empty, b = []
  reset : ∀ b ∈ s.full.take (resets s), b = []
  /-- the loop is inside the list -/
  index : ∀ i ∈ s.pc.iterator, i < s.full.length
  ready : Ready s
  drained : s.pc.drained → s.current.getD [] = []
  pending : s.full.length ≤ maxBufferListSize

theorem ready_init (garbage : Bool) : Ready (init garbage : State M) := ⟨nofun, nofun, nofun⟩

theorem inv_init (garbage : Bool) : Inv (init garbage : State M) :=
  ⟨rfl, by simp [init], by simp [init, resets], nofun, ready_init garbage, nofun, by simp [init]⟩

/-! ## The lists of buffers -/

theorem replacement_eq {s : State M} (h : ∀ b ∈ s.empty, b = []) : replacement s = [] := by
  unfold replacement
  cases he : s.empty with
  | nil => rfl
  | cons b empty => exact h b (he ▸ List.mem_cons_self)

theorem tail_clean {s : State M} (h : ∀ b ∈ s.empty, b = []) : ∀ b ∈ s.empty.tail, b = [] :=
  fun b hb => h b (List.mem_of_mem_tail hb)

variable {cap : Nat} {len : M → Nat}

/-- What `log` does. -/
theorem log_cases {s t : State M} {msg : M} (hs : log cap len s msg = some t) :
    ∃ current, s.current = some current ∧
      ((LogBuffer.writableBytes cap len current > len msg ∧ t = accept s msg (current ++ [msg])) ∨
        (¬ LogBuffer.writableBytes cap len current > len msg ∧
          t = accept (switch s current) msg (replacement s ++ [msg]))) := by
  have hwrite : ∀ {b c : LogBuffer M}, LogBuffer.write cap len b msg = some c → c = b ++ [msg] := by
    intro b c hb
    unfold LogBuffer.write at hb
    split at hb
    · exact (Option.some.inj hb).symm
    · cases hb
  unfold log at hs
  split at hs
  · cases hs
  · next current hcur =>
    refine ⟨current, hcur, ?_⟩
    split at hs
    · next hfit =>
      obtain ⟨buffer, hb, rfl⟩ := Option.map_eq_some_iff.1 hs
      rw [hwrite hb]
      exact Or.inl ⟨hfit, rfl⟩
    · next hfit =>
      obtain ⟨buffer, hb, rfl⟩ := Option.map_eq_some_iff.1 hs
      rw [hwrite hb]
      exact Or.inr ⟨hfit, rfl⟩

/-- A buffer moved in front of the end of the loop is going to be written. -/
theorem unwritten_switch {s : State M} (h : Inv s) (current : LogBuffer M)
    (hw : s.pc.window = false) (hd : s.pc.drained = false) :
    unwritten (switch s current) = unwritten s ++ [current] ∧
      resets (switch s current) = resets s := by
  unfold unwritten resets switch
  cases hpc : s.pc with
  | loop => exact ⟨rfl, rfl⟩
  | swap => exact ⟨rfl, rfl⟩
  | check => exact ⟨rfl, rfl⟩
  | first => exact ⟨rfl, rfl⟩
  | last => exact ⟨rfl, rfl⟩
  | write i =>
    have hlt := h.index i (by rw [hpc]; rfl)
    exact ⟨List.drop_append_of_le_length (Nat.le_of_lt hlt), rfl⟩
  | reset i =>
    have hlt := h.index i (by rw [hpc]; rfl)
    exact ⟨List.drop_append_of_le_length hlt, rfl⟩
  | next i =>
    have hlt := h.index i (by rw [hpc]; rfl)
    exact ⟨List.drop_append_of_le_length hlt, rfl⟩
  | trim => rw [hpc] at hw; cases hw
  | flush => rw [hpc] at hw; cases hw
  | splice => rw [hpc] at hw; cases hw
  | drain i => rw [hpc] at hd; cases hd
  | done => rw [hpc] at hd; cases hd

/-- The buffers reset so far are among those there were. -/
theorem resets_le {s : State M} (h : Inv s) : resets s ≤ s.full.length := by
  unfold resets
  split
  · next i hpc => exact Nat.le_of_lt (h.index i (by rw [hpc]; rfl))
  · next i hpc => exact Nat.le_of_lt (h.index i (by rw [hpc]; rfl))
  · next i hpc => exact h.index i (by rw [hpc]; rfl)
  · exact Nat.le_refl _
  · exact Nat.le_refl _
  · exact Nat.le_refl _
  · exact Nat.zero_le _

theorem flatten_drop {α : Type} {l : List (List α)} {i : Nat} {b : List α} (h : l[i]? = some b) :
    (l.drop i).flatten = b ++ (l.drop (i + 1)).flatten := by
  obtain ⟨hlt, rfl⟩ := List.getElem?_eq_some_iff.1 h
  rw [List.drop_eq_getElem_cons hlt, List.flatten_cons]

/-- One more buffer is reset. -/
theorem reset_next {full : List (LogBuffer M)} {i : Nat} (hlt : i < full.length)
    (h : ∀ b ∈ full.take i, b = []) : ∀ b ∈ (full.set i []).take (i + 1), b = [] := by
  intro b hb
  rw [List.take_add_one, List.getElem?_set_self hlt, List.mem_append] at hb
  rcases hb with hb | hb
  · rw [List.take_set_of_le (Nat.le_refl i)] at hb
    exact h b hb
  · exact List.mem_singleton.1 hb

/-! ## Steps -/

theorem Ready.step {s t : State M} {a : Act M} (h : Ready s) (hs : step cap len s a = some t)
    (hok : Waits s a) : Ready t := by
  cases a with
  | construct =>
    simp only [FileLogger.step, construct] at hs
    cases hb : s.built with
    | thread =>
      simp only [hb] at hs
      cases hs
      refine ⟨h.present, fun hst => ?_, fun _ _ => rfl⟩
      rw [(h.stopped hst).2] at hb
      cases hb
    | pushing i =>
      have hnot : s.pc.stopped → False := fun hst => by
        rw [(h.stopped hst).2] at hb
        cases hb
      simp only [hb] at hs
      split at hs
      · cases hs
        exact ⟨h.present, fun hst => (hnot hst).elim, fun _ _ => h.pushing i hb⟩
      · cases hs
        exact ⟨h.present, fun hst => (hnot hst).elim, nofun⟩
    | done =>
      simp only [hb] at hs
      cases hs
  | log msg =>
    simp only [FileLogger.step, Option.ite_none_right_eq_some] at hs
    obtain ⟨current, -, ⟨-, rfl⟩ | ⟨-, rfl⟩⟩ := log_cases hs.2
    · exact ⟨fun _ => nofun, h.stopped, h.pushing⟩
    · exact ⟨fun _ => nofun, h.stopped, h.pushing⟩
  | work =>
    have hpresent := h.present
    have hstopped := h.stopped
    simp only [FileLogger.step] at hs
    unfold FileLogger.work at hs
    cases hpc : s.pc with
    | loop =>
      rw [hpc] at hpresent
      simp only [hpc] at hs
      split at hs
      · cases hs
        exact ⟨hpresent, nofun, h.pushing⟩
      · next hr =>
        cases hs
        refine ⟨hpresent, fun _ => ⟨by simpa using hr, ?_⟩, h.pushing⟩
        cases hb : s.built with
        | thread => exact absurd hb (hok.tested rfl hpc)
        | pushing i => exact absurd (h.pushing i hb) hr
        | done => rfl
    | swap =>
      simp only [hpc] at hs
      obtain ⟨current, -, rfl⟩ := Option.map_eq_some_iff.1 hs
      exact ⟨fun _ => nofun, nofun, h.pushing⟩
    | last =>
      rw [hpc] at hstopped
      simp only [hpc] at hs
      obtain ⟨current, -, rfl⟩ := Option.map_eq_some_iff.1 hs
      split
      · exact ⟨nofun, fun _ => hstopped rfl, h.pushing⟩
      · exact ⟨nofun, fun _ => hstopped rfl, h.pushing⟩
    | drain i =>
      rw [hpc] at hstopped
      simp only [hpc] at hs
      split at hs
      · cases hs
        exact ⟨nofun, fun _ => hstopped rfl, h.pushing⟩
      · cases hs
        exact ⟨nofun, fun _ => hstopped rfl, h.pushing⟩
    | done =>
      simp only [hpc] at hs
      cases hs
    | write i =>
      rw [hpc] at hpresent
      simp only [hpc] at hs
      obtain ⟨buffer, -, rfl⟩ := Option.map_eq_some_iff.1 hs
      exact ⟨hpresent, nofun, h.pushing⟩
    | check | first | next i | trim =>
      rw [hpc] at hpresent
      simp only [hpc] at hs
      split at hs
      · cases hs
        exact ⟨hpresent, nofun, h.pushing⟩
      · cases hs
        exact ⟨hpresent, nofun, h.pushing⟩
    | reset i | flush | splice =>
      rw [hpc] at hpresent
      simp only [hpc] at hs
      cases hs
      exact ⟨hpresent, nofun, h.pushing⟩
  | stop =>
    simp only [FileLogger.step, Option.ite_none_right_eq_some, Option.some.injEq] at hs
    obtain ⟨hb, rfl⟩ := hs
    refine ⟨h.present, fun _ => ⟨rfl, hb⟩, fun i hi => ?_⟩
    rw [show s.built = .pushing i from hi] at hb
    cases hb

theorem Ready.going {s : State M} (h : Ready s) (hr : s.running = true) :
    s.pc.stopped = false ∧ s.pc.drained = false := by
  have hstop : s.pc.stopped = false := by
    by_contra hn
    rw [(h.stopped (Bool.not_eq_false _ ▸ hn)).1] at hr
    cases hr
  refine ⟨hstop, ?_⟩
  cases hpc : s.pc with
  | drain i => rw [hpc] at hstop; cases hstop
  | done => rw [hpc] at hstop; cases hstop
  | _ => rfl

theorem Inv.log {s t : State M} {msg : M} (h : Inv s) (hr : s.running = true)
    (hs : log cap len s msg = some t) (ht : Ready t) (hok : Allowed cap len s (.log msg) t) :
    Inv t := by
  have hdrain := (h.ready.going hr).2
  have hnot : s.pc.drained → False := fun hd => by
    rw [hdrain] at hd
    cases hd
  have horder := h.order
  obtain ⟨current, hcur, ⟨-, rfl⟩ | ⟨hfit, rfl⟩⟩ := log_cases hs
  · rw [hcur] at horder
    refine ⟨?_, h.clean, h.reset, h.index, ht, fun hd => (hnot hd).elim, h.pending⟩
    show s.file ++ (unwritten s).flatten ++ (current ++ [msg]) = s.accepted ++ [msg]
    rw [← List.append_assoc, ← horder]
    rfl
  · have hw : s.pc.window = false := by
      by_contra hn
      exact hfit (hok.outside msg rfl (Bool.not_eq_false _ ▸ hn) current hcur)
    obtain ⟨hunw, hres⟩ := unwritten_switch h current hw hdrain
    rw [hcur] at horder
    refine ⟨?_, tail_clean h.clean, ?_, fun i hi => ?_, ht, fun hd => (hnot hd).elim, hok.pending⟩
    · show s.file ++ (unwritten (switch s current)).flatten ++ (replacement s ++ [msg]) =
        s.accepted ++ [msg]
      rw [hunw, replacement_eq h.clean, ← horder]
      simp only [List.flatten_append, List.flatten_cons, List.flatten_nil, List.append_nil,
        List.nil_append, List.append_assoc, Option.getD_some]
    · show ∀ b ∈ (s.full ++ [current]).take (resets (switch s current)), b = []
      rw [hres, List.take_append_of_le_length (resets_le h)]
      exact h.reset
    · have := h.index i hi
      show i < (s.full ++ [current]).length
      rw [List.length_append]
      omega

/-- The worker moves on: the buffers and the file stay. -/
theorem Inv.goTo {s : State M} (h : Inv s) {pc : Pc} (hr : Ready { s with pc })
    (hunw : (unwritten { s with pc }).flatten = (unwritten s).flatten)
    (hres : ∀ b ∈ s.full.take (resets { s with pc }), b = [])
    (hidx : ∀ i ∈ pc.iterator, i < s.full.length)
    (hdrain : pc.drained → s.current.getD [] = []) :
    Inv { s with pc } := by
  refine ⟨?_, h.clean, hres, hidx, hr, hdrain, h.pending⟩
  show s.file ++ (unwritten { s with pc }).flatten ++ s.current.getD [] = s.accepted
  rw [hunw, h.order]

theorem Inv.work {s t : State M} (h : Inv s) (hs : work s = some t) (ht : Ready t)
    (hpend : t.full.length ≤ maxBufferListSize) : Inv t := by
  have horder := h.order
  have hreset := h.reset
  unfold FileLogger.work at hs
  cases hpc : s.pc with
  | loop =>
    simp only [hpc] at hs
    have hunw : unwritten s = s.full := by unfold unwritten; rw [hpc]
    split at hs <;> cases hs
    · exact h.goTo ht (by rw [hunw]; rfl) (fun b hb => (by cases hb)) nofun nofun
    · exact h.goTo ht (by rw [hunw]; rfl) (fun b hb => (by cases hb)) nofun nofun
  | swap =>
    simp only [hpc] at hs
    obtain ⟨current, hcur, rfl⟩ := Option.map_eq_some_iff.1 hs
    have hunw : unwritten s = s.full := by unfold unwritten; rw [hpc]
    refine ⟨?_, tail_clean h.clean, fun b hb => (by cases hb), nofun, ht, nofun, hpend⟩
    show s.file ++ (s.full ++ [current]).flatten ++ replacement s = s.accepted
    rw [replacement_eq h.clean, ← horder, hunw, hcur]
    simp only [List.flatten_append, List.flatten_cons, List.flatten_nil, List.append_nil,
      List.append_assoc, Option.getD_some]
  | check =>
    -- at most 15 buffers are pending
    simp only [hpc, if_neg (Nat.not_lt.2 h.pending)] at hs
    cases hs
    have hunw : unwritten s = s.full := by unfold unwritten; rw [hpc]
    exact h.goTo ht (by rw [hunw]; rfl) (fun b hb => (by cases hb)) nofun nofun
  | first =>
    simp only [hpc] at hs
    have hunw : unwritten s = s.full := by unfold unwritten; rw [hpc]
    split at hs
    · next he =>
      cases hs
      refine h.goTo ht (by rw [hunw, he]; rfl) (fun b hb => ?_) nofun nofun
      rw [he, List.take_nil] at hb
      cases hb
    · next he =>
      cases hs
      refine h.goTo ht (by rw [hunw]; rfl) (fun b hb => (by cases hb)) (fun i hi => ?_) nofun
      cases hi
      exact List.length_pos_of_ne_nil he
  | write i =>
    simp only [hpc] at hs
    obtain ⟨buffer, hi, rfl⟩ := Option.map_eq_some_iff.1 hs
    have hunw : unwritten s = s.full.drop i := by unfold unwritten; rw [hpc]
    have hres : resets s = i := by unfold resets; rw [hpc]
    refine ⟨?_, h.clean, ?_, fun j hj => ?_, ht, nofun, h.pending⟩
    · show s.file ++ buffer ++ (s.full.drop (i + 1)).flatten ++ s.current.getD [] = s.accepted
      rw [← horder, hunw, flatten_drop hi, List.append_assoc s.file]
    · rwa [hres] at hreset
    · cases hj
      exact (List.getElem?_eq_some_iff.1 hi).1
  | reset i =>
    simp only [hpc] at hs
    cases hs
    have hlt := h.index i (by rw [hpc]; rfl)
    have hunw : unwritten s = s.full.drop (i + 1) := by unfold unwritten; rw [hpc]
    have hres : resets s = i := by unfold resets; rw [hpc]
    rw [hres] at hreset
    refine ⟨?_, h.clean, reset_next hlt hreset, fun j hj => ?_, ht, nofun, hpend⟩
    · show s.file ++ ((s.full.set i []).drop (i + 1)).flatten ++ s.current.getD [] = s.accepted
      rw [List.drop_set_of_lt (Nat.lt_succ_self i), ← hunw]
      exact horder
    · cases hj
      show i < (s.full.set i []).length
      rw [List.length_set]
      exact hlt
  | next i =>
    simp only [hpc] at hs
    have hunw : unwritten s = s.full.drop (i + 1) := by unfold unwritten; rw [hpc]
    have hres : resets s = i + 1 := by unfold resets; rw [hpc]
    rw [hres] at hreset
    split at hs
    · next hlt =>
      cases hs
      refine h.goTo ht (by rw [hunw]; rfl) hreset (fun j hj => ?_) nofun
      cases hj
      exact hlt
    · next hge =>
      -- every full buffer has been written and reset
      cases hs
      have hle := Nat.not_lt.1 hge
      refine h.goTo ht ?_ (fun b hb => hreset b ?_) nofun nofun
      · rw [hunw, List.drop_eq_nil_of_le hle]
        rfl
      · rw [List.take_of_length_le hle]
        exact List.mem_of_mem_take hb
  | trim =>
    simp only [hpc] at hs
    have hunw : unwritten s = [] := by unfold unwritten; rw [hpc]
    have hall : ∀ b ∈ s.full, b = [] := by
      have hres : resets s = s.full.length := by unfold resets; rw [hpc]
      rwa [hres, List.take_length] at hreset
    split at hs <;> cases hs
    · refine ⟨?_, h.clean, fun b hb => ?_, nofun, ht, nofun, hpend⟩
      · rw [hunw] at horder
        exact horder
      · exact hall b (List.mem_of_mem_take (List.mem_of_mem_take hb))
    · exact h.goTo ht (by rw [hunw]; rfl) (fun b hb => hall b (List.mem_of_mem_take hb)) nofun
        nofun
  | flush =>
    simp only [hpc] at hs
    cases hs
    have hunw : unwritten s = [] := by unfold unwritten; rw [hpc]
    have hres : resets s = s.full.length := by unfold resets; rw [hpc]
    rw [hres] at hreset
    exact h.goTo ht (by rw [hunw]; rfl) hreset nofun nofun
  | splice =>
    simp only [hpc] at hs
    cases hs
    have hunw : unwritten s = [] := by unfold unwritten; rw [hpc]
    have hres : resets s = s.full.length := by unfold resets; rw [hpc]
    rw [hres, List.take_length] at hreset
    rw [hunw] at horder
    refine ⟨horder, fun b hb => ?_, fun b hb => (by cases hb), nofun, ht, nofun, Nat.zero_le _⟩
    rcases List.mem_append.1 hb with hb | hb
    · exact h.clean b hb
    · exact hreset b hb
  | last =>
    simp only [hpc] at hs
    obtain ⟨current, hcur, rfl⟩ := Option.map_eq_some_iff.1 hs
    have hunw : unwritten s = s.full := by unfold unwritten; rw [hpc]
    rw [hunw, hcur] at horder
    by_cases he : current ≠ []
    · rw [if_pos he] at ht hpend ⊢
      refine ⟨?_, h.clean, fun b hb => (by cases hb), nofun, ht, fun _ => rfl, hpend⟩
      show s.file ++ (s.full ++ [current]).flatten ++ [] = s.accepted
      rw [← horder]
      simp only [List.flatten_append, List.flatten_cons, List.flatten_nil, List.append_nil,
        List.append_assoc, Option.getD_some]
    · rw [if_neg he] at ht ⊢
      refine h.goTo ht (by rw [hunw]; rfl) (fun b hb => (by cases hb)) nofun fun _ => ?_
      rw [hcur]
      exact not_not.1 he
  | drain i =>
    simp only [hpc] at hs
    have hcur := h.drained (by rw [hpc]; rfl)
    have hunw : unwritten s = s.full.drop i := by unfold unwritten; rw [hpc]
    split at hs
    · next buffer hi =>
      cases hs
      refine ⟨?_, h.clean, fun b hb => (by cases hb), nofun, ht, fun _ => hcur, h.pending⟩
      show s.file ++ buffer ++ (s.full.drop (i + 1)).flatten ++ s.current.getD [] = s.accepted
      rw [← horder, hunw, flatten_drop hi, List.append_assoc s.file]
    · next hn =>
      cases hs
      refine h.goTo ht ?_ (fun b hb => (by cases hb)) nofun fun _ => hcur
      rw [hunw, List.drop_eq_nil_of_le (List.getElem?_eq_none_iff.1 hn)]
      rfl
  | done =>
    simp only [hpc] at hs
    cases hs

theorem Inv.step {s t : State M} {a : Act M} (h : Inv s) (hs : step cap len s a = some t)
    (hok : Allowed cap len s a t) : Inv t := by
  have ht := h.ready.step hs hok.waits
  cases a with
  | construct =>
    simp only [FileLogger.step, construct] at hs
    split at hs
    · cases hs
      exact ⟨h.order, h.clean, h.reset, h.index, ht, h.drained, h.pending⟩
    · split at hs
      · cases hs
        refine ⟨h.order, fun b hb => ?_, h.reset, h.index, ht, h.drained, h.pending⟩
        rcases List.mem_append.1 hb with hb | hb
        · exact h.clean b hb
        · exact List.mem_singleton.1 hb
      · cases hs
        exact ⟨h.order, h.clean, h.reset, h.index, ht, h.drained, h.pending⟩
    · cases hs
  | log msg =>
    simp only [FileLogger.step, Option.ite_none_right_eq_some] at hs
    exact h.log hs.1.2 hs.2 ht hok
  | work => exact h.work hs ht hok.pending
  | stop =>
    simp only [FileLogger.step, Option.ite_none_right_eq_some, Option.some.injEq] at hs
    obtain ⟨-, rfl⟩ := hs
    exact ⟨h.order, h.clean, h.reset, h.index, ht, h.drained, h.pending⟩

/-- A message smaller than a buffer is accepted where the empty buffers are: no
assertion fails. -/
theorem accepts_of_clean {s : State M} (hclean : ∀ b ∈ s.empty, b = []) (h : Ready s)
    (hb : s.built = .done) (hr : s.running = true) {msg : M} (hsmall : len msg < cap) :
    (step cap len s (.log msg)).isSome := by
  have hroom : ∀ b : LogBuffer M, LogBuffer.writableBytes cap len b > len msg →
      (LogBuffer.write cap len b msg).isSome := fun b hb => by
    unfold LogBuffer.write
    rw [if_pos hb]
    rfl
  show (if s.built = .done ∧ s.running then FileLogger.log cap len s msg else none).isSome
  rw [if_pos ⟨hb, hr⟩]
  obtain ⟨current, hcur⟩ := Option.ne_none_iff_exists'.1 (h.present (h.going hr).2)
  unfold FileLogger.log
  simp only [hcur]
  split
  · next hfit =>
    rw [Option.isSome_map]
    exact hroom _ hfit
  · rw [Option.isSome_map]
    refine hroom _ ?_
    rw [replacement_eq hclean]
    exact hsmall

/-- In the window a buffer that is moved is neither written nor still to be written. -/
theorem Inv.outside {s t : State M} {msg : M} (h : Inv s)
    (hs : FileLogger.log cap len s msg = some t) (hsmall : len msg < cap) (hw : s.pc.window)
    (horder : t.file ++ (unwritten t).flatten ++ t.current.getD [] = t.accepted) :
    Fits cap len s msg := by
  intro b hb
  obtain ⟨current, hcur, ⟨hfit, -⟩ | ⟨hfit, rfl⟩⟩ := log_cases hs
  · rw [hcur] at hb
    cases hb
    exact hfit
  · have hnone : ∀ v : State M, v.pc = s.pc → unwritten v = [] := by
      intro v hv
      unfold unwritten
      rw [hv]
      cases hpc : s.pc with
      | trim => rfl
      | flush => rfl
      | splice => rfl
      | done => rfl
      | _ => rw [hpc] at hw; cases hw
    have hold := h.order
    rw [hnone s rfl, hcur] at hold
    rw [hnone (accept (switch s current) msg (replacement s ++ [msg])) rfl] at horder
    have horder : s.file ++ [].flatten ++ (replacement s ++ [msg]) = s.accepted ++ [msg] := horder
    rw [replacement_eq h.clean, ← hold] at horder
    have hempty : current = [] := by
      have := congrArg List.length horder
      simp only [List.length_append, List.flatten_nil, List.append_nil, List.length_nil,
        Option.getD_some] at this
      exact List.eq_nil_of_length_eq_zero (by omega)
    rw [hempty] at hfit
    exact absurd hsmall hfit

/-! ## Top theorems -/

/-- Messages are smaller than a buffer, not too many buffers are pending, and the worker
waits for the constructor. -/
structure Moderate (cap : Nat) (len : M → Nat) (s : State M) (a : Act M) (t : State M) : Prop where
  small : ∀ msg, a = .log msg → len msg < cap
  pending : t.full.length ≤ maxBufferListSize
  waits : Waits s a

/-- **The window is the defect.**  In a run with messages and lists of moderate size, in which
the worker waits for the constructor, what is in the file, in the full buffers to come and
in the current one stays what was accepted if and only if no `log` moves a buffer in the
window. -/
theorem ordered_iff (garbage : Bool) (as : List (Act M)) :
    EachStep (step cap len) (fun s a t => Moderate cap len s a t ∧
      t.file ++ (unwritten t).flatten ++ t.current.getD [] = t.accepted) (init garbage) as ↔
    EachStep (step cap len) (Allowed cap len) (init garbage) as := by
  refine eachStep_iff Inv (fun _ _ _ h hs hok => h.step hs hok) (fun s a t h hs => ?_)
    (inv_init garbage)
  constructor
  · rintro ⟨hm, horder⟩
    refine ⟨hm.small, hm.pending, hm.waits, fun msg ha hw => ?_⟩
    subst ha
    simp only [step, Option.ite_none_right_eq_some] at hs
    exact h.outside hs.2 (hm.small msg rfl) hw horder
  · intro hok
    exact ⟨⟨hok.small, hok.pending, hok.waits⟩, (h.step hs hok).order⟩

/-- **Once and in order.**  In a run in which the worker waits for the constructor and no `log`
moves a buffer between the end of the loop and `splice`, the file holds what was accepted
first, in the order it was accepted, and all of it once the worker is done. -/
theorem file_exact (garbage : Bool) (as : List (Act M)) (s : State M)
    (h : run (step cap len) (init garbage) as = some s)
    (hok : EachStep (step cap len) (Allowed cap len) (init garbage) as) :
    s.file <+: s.accepted ∧ (s.pc = .done → s.file = s.accepted) := by
  have hi := run_inv Inv (fun _ _ _ h hs hok => h.step hs hok) (inv_init garbage) h hok
  refine ⟨⟨(unwritten s).flatten ++ s.current.getD [], ?_⟩, fun hpc => ?_⟩
  · rw [← List.append_assoc]
    exact hi.order
  · have hunw : unwritten s = [] := by unfold unwritten; rw [hpc]
    have horder := hi.order
    rw [hunw, hi.drained (by rw [hpc]; rfl)] at horder
    simpa using horder

/-- The size of the buffers of `FileLogger`. -/
def bufferSize : Nat := 4000 * 1024

/-- Messages that fill a buffer each. -/
def fill : Nat → Nat := fun _ => bufferSize - 1

/-- The constructor runs to its end. -/
def constructed {M : Type} : List (Act M) := List.replicate 4 .construct

/-- The second and the third come while the worker writes the first. -/
def early : List (Act Nat) :=
  constructed ++ [.log 0] ++ List.replicate 3 .work ++ [.log 1, .log 2] ++
    List.replicate 10 .work ++ [.stop] ++ List.replicate 4 .work

theorem file_exact_early :
    ∃ s, run (step bufferSize fill) (init false) early = some s ∧ s.pc = .done ∧
      s.file = [0, 1, 2] ∧ s.file <+: s.accepted ∧ (s.pc = .done → s.file = s.accepted) := by
  obtain ⟨s, hs, hpc, hfile⟩ := run_eval (step bufferSize fill) (init false) early
    (fun s => s.pc = .done ∧ s.file = [0, 1, 2]) (by decide +kernel)
  exact ⟨s, hs, hpc, hfile, file_exact false early s hs (by decide +kernel)⟩

/-- They come when the loop has ended: the second is given back with its buffer. -/
def late : List (Act Nat) :=
  constructed ++ [.log 0] ++ List.replicate 7 .work ++ [.log 1, .log 2] ++
    List.replicate 3 .work ++ [.stop] ++ List.replicate 4 .work

/-- The worker finds 0 in `running_`, which is not initialised, and leaves. -/
def hasty : List (Act Nat) :=
  [.work] ++ constructed ++ List.replicate 2 .work ++ [.log 0, .stop]

/-- In the one run the second message is lost, in the other whatever is logged. -/
theorem late_lost :
    (∀ msg, fill msg < bufferSize) ∧
    EachStep (step bufferSize fill) (fun _ _ t => t.full.length ≤ maxBufferListSize) (init false)
      late ∧
    (∃ s, run (step bufferSize fill) (init false) late = some s ∧ s.pc = .done ∧
      s.accepted = [0, 1, 2] ∧ s.file = [0, 2]) ∧
    ∃ s, run (step bufferSize fill) (init false) hasty = some s ∧ s.pc = .done ∧
      s.accepted = [0] ∧ s.file = [] := by
  refine ⟨fun _ => show bufferSize - 1 < bufferSize by decide, by decide +kernel, ?_, ?_⟩
  · exact run_eval (step bufferSize fill) (init false) late
      (fun s => s.pc = .done ∧ s.accepted = [0, 1, 2] ∧ s.file = [0, 2]) (by decide +kernel)
  · exact run_eval (step bufferSize fill) (init false) hasty
      (fun s => s.pc = .done ∧ s.accepted = [0] ∧ s.file = []) (by decide +kernel)

end Kosio.FileLogger
