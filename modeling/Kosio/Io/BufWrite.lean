import Kosio.Common.Error
import Kosio.Io.StreamBuffer
import Kosio.Lib.Run

/-!
# `ImplBufWrite`: buffered writes

The sink behind the writer is a script of what it does at each call: accept up
to `n` of the bytes offered (all of them if fewer are offered), or fail.  A
script that ends before the call does is no run of the call and gives `none`.

A `real_write` that has to go to the sink offers the pending bytes and then the
caller's, again and again until what is left of the caller's fits the buffer.
Where it stands is settled by how much the sink has accepted (`Progress`).

Over a run, the bytes accepted and then the bytes pending are the bytes taken
from the callers, call by call (`write_fidelity`).
-/

namespace Kosio.BufWrite

open Steps StreamBuffer

/-! ## Algorithm -/

/-- What one `io_.write` or `io_.write_vectored` does. -/
inductive SinkOut where
  | ok (n : Nat)
  | err (e : Error)
deriving DecidableEq, Repr

/-- A finished call: its result, the stream, the bytes the sink accepted, the rest of the script. -/
structure Out (α : Type) where
  ret : Result α
  stream : StreamBuffer
  sent : List UInt8
  sink : List SinkOut

/-- The `while` of `flush`, on the slice still to be written. -/
def flushLoop (s : StreamBuffer) (slice sent : List UInt8) (sink : List SinkOut) :
    Option (Out Unit) :=
  if slice = [] then some ⟨.ok (), s.resetPos, sent, sink⟩
  else
    match sink with
    | [] => none
    | .err e :: sink => some ⟨.error e, s, sent, sink⟩
    | .ok n :: sink =>
      let n := min n slice.length
      if n = 0 then some ⟨.error .kWriteZero, s, sent, sink⟩
      else flushLoop (s.rIncrease n) (slice.drop n) (sent ++ slice.take n) sink

def flush (s : StreamBuffer) (sink : List SinkOut) : Option (Out Unit) :=
  flushLoop s s.rSlice [] sink

/-- The `do … while` of `real_write<write_once>` and what follows it. -/
def realWriteLoop (writeOnce : Bool) (s : StreamBuffer) (buf : List UInt8) (result : Nat)
    (sent : List UInt8) : List SinkOut → Option (Out Nat)
  | [] => none
  | .err e :: sink => some ⟨.error e, s, sent, sink⟩
  | .ok n :: sink =>
    let n := min n (s.rSlice.length + buf.length)
    if n = 0 then some ⟨.error .kWriteZero, s, sent, sink⟩
    else
      let sent := sent ++ (s.rSlice ++ buf).take n
      let len := min n s.rRemaining
      let s := (s.rIncrease len).resetData
      let result := result + (n - len)
      let buf := buf.drop (n - len)
      if !writeOnce && decide (s.wRemaining < buf.length) then
        realWriteLoop writeOnce s buf result sent sink
      else some ⟨.ok (result + (s.readFrom buf).1), (s.readFrom buf).2, sent, sink⟩

/-- `real_write<write_once>(buf)`. -/
def realWrite (writeOnce : Bool) (s : StreamBuffer) (buf : List UInt8) (sink : List SinkOut) :
    Option (Out Nat) :=
  if buf.length ≤ s.wRemaining then
    some ⟨.ok (s.readFrom buf).1, (s.readFrom buf).2, [], sink⟩
  else realWriteLoop writeOnce s buf 0 [] sink

def write (s : StreamBuffer) (buf : List UInt8) (sink : List SinkOut) : Option (Out Nat) :=
  realWrite true s buf sink

def writeAll (s : StreamBuffer) (buf : List UInt8) (sink : List SinkOut) : Option (Out Nat) :=
  realWrite false s buf sink

/-! ## Runs -/

/-- A writer, with what its sink will do, the bytes the sink has accepted, the
bytes taken from the callers, and the result of the last call. -/
structure Writer where
  stream : StreamBuffer
  sink : List SinkOut
  accepted : List UInt8
  taken : List UInt8
  ret : Result Nat

def Writer.make (size : Nat) (sink : List SinkOut) : Writer := ⟨.make size, sink, [], [], .ok 0⟩

inductive Call where
  | write (buf : List UInt8)
  | writeAll (buf : List UInt8)
  | flush

/-- The caller's bytes. -/
def Call.buf : Call → List UInt8
  | .write buf | .writeAll buf => buf
  | .flush => []

/-- A call; the void result of `flush` counts as 0. -/
def perform (s : StreamBuffer) (sink : List SinkOut) : Call → Option (Out Nat)
  | .write buf => write s buf sink
  | .writeAll buf => writeAll s buf sink
  | .flush => (flush s sink).map fun o => ⟨o.ret.map fun _ => 0, o.stream, o.sent, o.sink⟩

/-- What a call takes from its caller: `write` the bytes it counts, `write_all` all of them, a call
that fails those the sink has accepted behind the `pending` ones. -/
def took (c : Call) (pending : Nat) (o : Out Nat) : List UInt8 :=
  match o.ret with
  | .error _ => c.buf.take (o.sent.length - pending)
  | .ok n =>
    match c with
    | .write buf => buf.take n
    | .writeAll buf => buf
    | .flush => []

def step (w : Writer) (c : Call) : Option Writer :=
  (perform w.stream w.sink c).map fun o =>
    { stream := o.stream
      sink := o.sink
      accepted := w.accepted ++ o.sent
      taken := w.taken ++ took c w.stream.rSlice.length o
      ret := o.ret }

/-- What the result of a call says about it. -/
def CallExact (w : Writer) (c : Call) (w' : Writer) : Prop :=
  match w'.ret with
  | .error _ =>
    -- some front part of the caller's bytes is taken, the unsent rest of the pending ones stays
    (∃ k ≤ c.buf.length, w'.taken = w.taken ++ c.buf.take k) ∧
      w'.stream.rSlice = w.stream.rSlice.drop (w'.accepted.length - w.accepted.length)
  | .ok n =>
    match c with
    | .write buf => w'.taken = w.taken ++ buf.take n ∧ n ≤ buf.length ∧ (buf ≠ [] → 1 ≤ n)
    | .writeAll buf => w'.taken = w.taken ++ buf ∧ n = buf.length
    | .flush => w'.taken = w.taken ∧ w'.stream.rSlice = []

/-- No byte lost, duplicated or reordered, and the call did what its result says. -/
def Exact (w : Writer) (c : Call) (w' : Writer) : Prop :=
  w'.accepted ++ w'.stream.rSlice = w'.taken ∧ CallExact w c w'

/-! ## `flush` -/

/-- `flush` writes the pending bytes from the front; its slice is always what is pending. -/
theorem flushLoop_spec : ∀ (sink : List SinkOut) (s : StreamBuffer) (sent : List UInt8)
    (o : Out Unit), s.Wf → flushLoop s s.rSlice sent sink = some o →
    o.stream.Wf ∧ (∃ more, o.sent = sent ++ more ∧ more ++ o.stream.rSlice = s.rSlice) ∧
      (o.ret = .ok () → o.stream.rSlice = []) := by
  intro sink
  induction sink with
  | nil =>
    intro s sent o h ho
    unfold flushLoop at ho
    split at ho
    · next hnil =>
      cases ho
      exact ⟨resetPos_wf s, ⟨[], by simp, by simp [hnil]⟩, fun _ => resetPos_rSlice s⟩
    · cases ho
  | cons a sink ih =>
    intro s sent o h ho
    unfold flushLoop at ho
    split at ho
    · next hnil =>
      cases ho
      exact ⟨resetPos_wf s, ⟨[], by simp, by simp [hnil]⟩, fun _ => resetPos_rSlice s⟩
    · cases a with
      | err e =>
        cases ho
        exact ⟨h, ⟨[], by simp, rfl⟩, fun hret => by cases hret⟩
      | ok n =>
        simp only at ho
        split at ho
        · cases ho
          exact ⟨h, ⟨[], by simp, rfl⟩, fun hret => by cases hret⟩
        · have hle : min n s.rSlice.length ≤ s.rRemaining := by
            rw [← h.rSlice_length]
            exact Nat.min_le_right _ _
          rw [← rIncrease_rSlice] at ho
          obtain ⟨hwf, ⟨more, hsent, hmore⟩, hok⟩ := ih _ _ _ (h.rIncrease hle) ho
          refine ⟨hwf, ⟨s.rSlice.take (min n s.rSlice.length) ++ more, ?_, ?_⟩, hok⟩
          · rw [hsent, List.append_assoc]
          · rw [List.append_assoc, hmore, rIncrease_rSlice, List.take_append_drop]

theorem flushLoop_isSome : ∀ (sink : List SinkOut) (s : StreamBuffer) (slice sent : List UInt8),
    slice.length ≤ sink.length → (flushLoop s slice sent sink).isSome := by
  intro sink
  induction sink with
  | nil =>
    intro s slice sent hlen
    unfold flushLoop
    rw [if_pos (List.length_eq_zero_iff.1 (Nat.le_zero.1 hlen))]
    rfl
  | cons a sink ih =>
    intro s slice sent hlen
    unfold flushLoop
    split
    · rfl
    · cases a with
      | err e => rfl
      | ok n =>
        simp only
        split
        · rfl
        · apply ih
          rw [List.length_drop]
          rw [List.length_cons] at hlen
          omega

/-! ## `real_write` -/

/-- Where a `real_write` of `buf₀` over the pending `p₀` stands: what the sink
has accepted of the two settles what is pending, what is left of the caller's
bytes and the result so far. -/
structure Progress (p₀ buf₀ : List UInt8) (s : StreamBuffer) (buf : List UInt8) (result : Nat)
    (sent : List UInt8) : Prop where
  wf : s.Wf
  all : sent ++ (s.rSlice ++ buf) = p₀ ++ buf₀
  pending : s.rSlice = p₀.drop sent.length
  rest : buf = buf₀.drop result
  count : result = sent.length - p₀.length

section
variable {p₀ buf₀ : List UInt8} {s : StreamBuffer} {buf sent : List UInt8} {result : Nat}

theorem Progress.result_le (h : Progress p₀ buf₀ s buf result sent) : result ≤ buf₀.length := by
  have hlen := congrArg List.length h.all
  have hcount := h.count
  simp only [List.length_append] at hlen
  omega

/-- The bytes the sink has accepted and the pending ones are those taken so far. -/
theorem Progress.taken (h : Progress p₀ buf₀ s buf result sent) :
    sent ++ s.rSlice = p₀ ++ buf₀.take result := by
  have hall := h.all
  rw [h.rest, ← List.append_assoc] at hall
  refine List.append_cancel_right (hall.trans ?_)
  rw [List.append_assoc, List.take_append_drop]

/-- Advancing the read position and moving the readable bytes to the front. -/
theorem advance_spec (h : s.Wf) (n : Nat) :
    (s.rIncrease (min n s.rRemaining)).resetData.Wf ∧
      (s.rIncrease (min n s.rRemaining)).resetData.rSlice = s.rSlice.drop n ∧
      (s.rIncrease (min n s.rRemaining)).resetData.wRemaining =
        s.capacity - (s.rRemaining - min n s.rRemaining) := by
  have hwf := h.rIncrease (Nat.min_le_right n s.rRemaining)
  have hl := h.rSlice_length
  refine ⟨hwf.resetData, ?_, ?_⟩
  · rw [hwf.resetData_rSlice, rIncrease_rSlice]
    rcases Nat.le_total n s.rRemaining with hle | hle
    · rw [Nat.min_eq_left hle]
    · rw [Nat.min_eq_right hle, List.drop_of_length_le (by omega), List.drop_of_length_le (by omega)]
  · rw [hwf.resetData_wRemaining, ← hwf.rSlice_length, rIncrease_rSlice, List.length_drop, hl]
    rfl

/-- One vectored write of `n` bytes. -/
theorem Progress.next (h : Progress p₀ buf₀ s buf result sent) {n : Nat}
    (hn : n ≤ s.rSlice.length + buf.length) :
    Progress p₀ buf₀ (s.rIncrease (min n s.rRemaining)).resetData
      (buf.drop (n - min n s.rRemaining)) (result + (n - min n s.rRemaining))
      (sent ++ (s.rSlice ++ buf).take n) := by
  obtain ⟨hwf, hslice, -⟩ := advance_spec h.wf n
  have hl := h.wf.rSlice_length
  have hlen := congrArg List.length h.all
  have hpend := congrArg List.length h.pending
  have hcount := h.count
  simp only [List.length_append] at hlen
  rw [List.length_drop] at hpend
  have hsent : (sent ++ (s.rSlice ++ buf).take n).length = sent.length + n := by
    rw [List.length_append, List.length_take, List.length_append]
    omega
  have hdrop : n - min n s.rRemaining = n - s.rSlice.length := by omega
  refine ⟨hwf, ?_, ?_, ?_, ?_⟩
  · rw [hslice, hdrop, ← List.drop_append, List.append_assoc, List.take_append_drop]
    exact h.all
  · rw [hslice, hsent, h.pending, List.drop_drop]
  · rw [h.rest, List.drop_drop]
  · rw [hsent]
    omega

end

/-- What a `real_write` of `buf₀` over the pending `p₀` leaves. -/
structure Landed (p₀ buf₀ : List UInt8) (o : Out Nat) : Prop where
  wf : o.stream.Wf
  ok : ∀ n, o.ret = .ok n → n ≤ buf₀.length ∧ o.sent ++ o.stream.rSlice = p₀ ++ buf₀.take n
  error : ∀ e, o.ret = .error e → o.sent.length - p₀.length ≤ buf₀.length ∧
    o.sent ++ o.stream.rSlice = p₀ ++ buf₀.take (o.sent.length - p₀.length) ∧
    o.stream.rSlice = p₀.drop o.sent.length

section
variable {p₀ buf₀ : List UInt8} {s : StreamBuffer} {buf sent : List UInt8} {result : Nat}

theorem Progress.landed_error (h : Progress p₀ buf₀ s buf result sent) (e : Error)
    (sink : List SinkOut) : Landed p₀ buf₀ ⟨.error e, s, sent, sink⟩ := by
  refine ⟨h.wf, fun n hn => (by cases hn), fun _ _ => ?_⟩
  have hle := h.result_le
  have htaken := h.taken
  rw [h.count] at hle htaken
  exact ⟨hle, htaken, h.pending⟩

/-- The last `read_from` puts what is left of the caller's bytes behind the pending ones. -/
theorem Progress.landed_ok (h : Progress p₀ buf₀ s buf result sent) (sink : List SinkOut) :
    Landed p₀ buf₀ ⟨.ok (result + (s.readFrom buf).1), (s.readFrom buf).2, sent, sink⟩ := by
  obtain ⟨hwf, hslice⟩ := h.wf.readFrom buf
  have hm : (s.readFrom buf).1 ≤ buf.length := Nat.min_le_right _ _
  have hlen := congrArg List.length h.rest
  have hle := h.result_le
  rw [List.length_drop] at hlen
  refine ⟨hwf, fun n hn => ?_, fun _ he => by cases he⟩
  cases hn
  refine ⟨by omega, ?_⟩
  rw [hslice, ← List.append_assoc, h.taken, List.append_assoc, List.take_add, ← h.rest]

end

theorem realWriteLoop_spec (writeOnce : Bool) (p₀ buf₀ : List UInt8) :
    ∀ (sink : List SinkOut) (s : StreamBuffer) (buf : List UInt8) (result : Nat)
      (sent : List UInt8) (o : Out Nat), Progress p₀ buf₀ s buf result sent →
      s.wRemaining < buf.length → realWriteLoop writeOnce s buf result sent sink = some o →
      Landed p₀ buf₀ o ∧
        ∀ n, o.ret = .ok n → 1 ≤ n ∧ (writeOnce = false → n = buf₀.length) := by
  intro sink
  induction sink with
  | nil => intro s buf result sent o _ _ ho; cases ho
  | cons a sink ih =>
    intro s buf result sent o h hroom ho
    unfold realWriteLoop at ho
    cases a with
    | err e =>
      cases ho
      exact ⟨h.landed_error e sink, fun n hn => by cases hn⟩
    | ok n₀ =>
      simp only at ho
      split at ho
      · cases ho
        exact ⟨h.landed_error _ sink, fun n hn => by cases hn⟩
      · next hpos =>
        generalize hn₀ : min n₀ (s.rSlice.length + buf.length) = n at ho hpos
        have hn : n ≤ s.rSlice.length + buf.length := by omega
        have hnext := h.next hn
        obtain ⟨-, -, hrem⟩ := advance_spec h.wf n
        have hcap := h.wf.rRemaining_le
        generalize (s.rIncrease (min n s.rRemaining)).resetData = s' at ho hnext hrem
        split at ho
        · next hagain =>
          simp only [Bool.and_eq_true, decide_eq_true_eq] at hagain
          exact ih _ _ _ _ _ hnext hagain.2 ho
        · next hdone =>
          cases ho
          refine ⟨hnext.landed_ok sink, fun m hm => ?_⟩
          cases hm
          have hrest := congrArg List.length hnext.rest
          have hle := hnext.result_le
          have hread : (s'.readFrom (buf.drop (n - min n s.rRemaining))).1 =
            min s'.wRemaining (buf.drop (n - min n s.rRemaining)).length := rfl
          rw [hread]
          simp only [List.length_drop] at hrest ⊢
          constructor
          · -- a write that ends inside the pending bytes has made room for the caller's
            omega
          · intro hall
            simp only [hall, Bool.not_false, Bool.true_and, decide_eq_true_eq,
              List.length_drop] at hdone
            omega

theorem realWriteLoop_isSome (writeOnce : Bool) : ∀ (sink : List SinkOut) (s : StreamBuffer)
    (buf : List UInt8) (result : Nat) (sent : List UInt8), s.Wf → s.wRemaining < buf.length →
    s.rSlice.length + buf.length ≤ sink.length →
    (realWriteLoop writeOnce s buf result sent sink).isSome := by
  intro sink
  induction sink with
  | nil =>
    intro s buf result sent _ hroom hlen
    rw [List.length_nil] at hlen
    omega
  | cons a sink ih =>
    intro s buf result sent h hroom hlen
    unfold realWriteLoop
    cases a with
    | err e => rfl
    | ok n₀ =>
      simp only
      split
      · rfl
      · next hpos =>
        generalize hn₀ : min n₀ (s.rSlice.length + buf.length) = n at hpos
        obtain ⟨hwf, hslice, -⟩ := advance_spec h n
        have hl := h.rSlice_length
        split
        · next hagain =>
          simp only [Bool.and_eq_true, decide_eq_true_eq] at hagain
          apply ih _ _ _ _ hwf hagain.2
          rw [hslice, List.length_drop, List.length_drop]
          rw [List.length_cons] at hlen
          omega
        · rfl

theorem realWrite_spec (writeOnce : Bool) {s : StreamBuffer} (h : s.Wf) (buf : List UInt8)
    (sink : List SinkOut) (o : Out Nat) (ho : realWrite writeOnce s buf sink = some o) :
    Landed s.rSlice buf o ∧
      ∀ n, o.ret = .ok n → (buf ≠ [] → 1 ≤ n) ∧ (writeOnce = false → n = buf.length) := by
  have hstart : Progress s.rSlice buf s buf 0 [] := ⟨h, rfl, rfl, rfl, (Nat.zero_sub _).symm⟩
  unfold realWrite at ho
  split at ho
  · next hfits =>
    cases ho
    have hread : (s.readFrom buf).1 = buf.length := Nat.min_eq_right hfits
    have hlanded := hstart.landed_ok sink
    rw [Nat.zero_add] at hlanded
    refine ⟨hlanded, fun n hn => ?_⟩
    cases hn
    exact ⟨fun hne => hread ▸ List.length_pos_iff.2 hne, fun _ => hread⟩
  · next hlong =>
    obtain ⟨hlanded, hret⟩ := realWriteLoop_spec writeOnce s.rSlice buf sink s buf 0 [] o hstart
      (by omega) ho
    exact ⟨hlanded, fun n hn => ⟨fun _ => (hret n hn).1, (hret n hn).2⟩⟩

theorem realWrite_isSome (writeOnce : Bool) {s : StreamBuffer} (h : s.Wf) (buf : List UInt8)
    (sink : List SinkOut) (hlen : s.rSlice.length + buf.length ≤ sink.length) :
    (realWrite writeOnce s buf sink).isSome := by
  unfold realWrite
  split
  · rfl
  · exact realWriteLoop_isSome writeOnce sink s buf 0 [] h (by omega) hlen

/-! ## Top theorems -/

theorem perform_isSome {s : StreamBuffer} (h : s.Wf) (sink : List SinkOut) (c : Call)
    (hlen : s.rSlice.length + c.buf.length ≤ sink.length) : (perform s sink c).isSome := by
  cases c with
  | write buf => exact realWrite_isSome true h buf sink hlen
  | writeAll buf => exact realWrite_isSome false h buf sink hlen
  | flush =>
    simp only [perform, Option.isSome_map]
    exact flushLoop_isSome sink s s.rSlice [] (by simp only [Call.buf] at hlen; omega)

/-- A call leaves what is pending and what it took in order, and keeps to its result. -/
theorem perform_spec {s : StreamBuffer} (h : s.Wf) (sink : List SinkOut) (c : Call) (o : Out Nat)
    (ho : perform s sink c = some o) :
    Landed s.rSlice c.buf o ∧ o.sent ++ o.stream.rSlice = s.rSlice ++ took c s.rSlice.length o ∧
      ∀ n, o.ret = .ok n → match c with
        | .write buf => n ≤ buf.length ∧ (buf ≠ [] → 1 ≤ n)
        | .writeAll buf => n = buf.length
        | .flush => o.stream.rSlice = [] := by
  cases c with
  | write buf =>
    obtain ⟨hlanded, hret⟩ := realWrite_spec true h buf sink o ho
    refine ⟨hlanded, ?_, fun n hn => ⟨(hlanded.ok n hn).1, (hret n hn).1⟩⟩
    unfold took
    split
    · next e he => exact (hlanded.error e he).2.1
    · next n hn => exact (hlanded.ok n hn).2
  | writeAll buf =>
    obtain ⟨hlanded, hret⟩ := realWrite_spec false h buf sink o ho
    refine ⟨hlanded, ?_, fun n hn => (hret n hn).2 rfl⟩
    unfold took
    split
    · next e he => exact (hlanded.error e he).2.1
    · next n hn =>
      have hbytes := (hlanded.ok n hn).2
      rw [(hret n hn).2 rfl, List.take_length] at hbytes
      exact hbytes
  | flush =>
    simp only [perform, Option.map_eq_some_iff] at ho
    obtain ⟨f, hf, rfl⟩ := ho
    obtain ⟨hwf, ⟨more, hsent, hmore⟩, hok⟩ := flushLoop_spec sink s [] f h hf
    rw [List.nil_append] at hsent
    subst hsent
    have hpend : f.stream.rSlice = s.rSlice.drop f.sent.length := by
      rw [← hmore, List.drop_left]
    have hnil : ∀ k, f.sent ++ f.stream.rSlice = s.rSlice ++ ([] : List UInt8).take k := by
      intro k
      rw [hmore, List.take_nil, List.append_nil]
    refine ⟨⟨hwf, fun n hn => ?_, fun e _ => ?_⟩, ?_, fun n hn => hok ?_⟩
    · cases hr : f.ret with
      | error e => rw [hr] at hn; cases hn
      | ok u => rw [hr] at hn; cases hn; exact ⟨Nat.le_refl 0, hnil 0⟩
    · have hle : f.sent.length ≤ s.rSlice.length := by
        rw [← hmore, List.length_append]
        omega
      exact ⟨by rw [Nat.sub_eq_zero_of_le hle]; exact Nat.zero_le _, hnil _, hpend⟩
    · unfold took
      split
      · exact hnil _
      · rw [List.append_nil]
        exact hmore
    · cases hr : f.ret with
      | error e => rw [hr] at hn; cases hn
      | ok u => rfl

theorem step_exact (w w' : Writer) (c : Call)
    (h : w.stream.Wf ∧ w.accepted ++ w.stream.rSlice = w.taken) (hstep : step w c = some w') :
    w'.stream.Wf ∧ Exact w c w' := by
  obtain ⟨hwf, htaken⟩ := h
  simp only [step, Option.map_eq_some_iff] at hstep
  obtain ⟨o, ho, rfl⟩ := hstep
  obtain ⟨hlanded, hbytes, hret⟩ := perform_spec hwf w.sink c o ho
  refine ⟨hlanded.wf, ?_, ?_⟩
  · show (w.accepted ++ o.sent) ++ o.stream.rSlice = w.taken ++ took c w.stream.rSlice.length o
    rw [List.append_assoc, hbytes, ← List.append_assoc, htaken]
  · unfold CallExact
    cases hr : o.ret with
    | error e =>
      obtain ⟨hle, -, hpend⟩ := hlanded.error e hr
      simp only [hr, took]
      refine ⟨⟨_, hle, rfl⟩, ?_⟩
      rw [List.length_append, Nat.add_sub_cancel_left]
      exact hpend
    | ok n =>
      have hn := hret n hr
      cases c with
      | write buf => simpa only [hr, took, true_and] using hn
      | writeAll buf => simpa only [hr, took, true_and] using hn
      | flush => simpa only [hr, took, List.append_nil, true_and] using hn

/-- **Byte fidelity and progress.**  For every capacity, every sequence of calls
and every behaviour of the sink: after each call the bytes accepted and then
the bytes pending are the bytes taken, each call takes and leaves what its
result says, and it returns after at most as many sink calls as there are bytes
pending and offered. -/
theorem write_fidelity (size : Nat) (sink : List SinkOut) (calls : List Call) :
    EachStep step Exact (Writer.make size sink) calls ∧
      ∀ w, run step (Writer.make size sink) calls = some w →
        ∀ c : Call, w.stream.rSlice.length + c.buf.length ≤ w.sink.length → (step w c).isSome := by
  have hstart : (Writer.make size sink).stream.Wf ∧
      (Writer.make size sink).accepted ++ (Writer.make size sink).stream.rSlice =
        (Writer.make size sink).taken :=
    ⟨StreamBuffer.make_wf size, by simp [Writer.make]⟩
  have hinv : ∀ w c w', (w.stream.Wf ∧ w.accepted ++ w.stream.rSlice = w.taken) →
      step w c = some w' → True → w'.stream.Wf ∧ w'.accepted ++ w'.stream.rSlice = w'.taken := by
    intro w c w' h hstep _
    obtain ⟨hwf, hexact⟩ := step_exact w w' c h hstep
    exact ⟨hwf, hexact.1⟩
  constructor
  · exact eachStep_of_inv _ hinv (fun w c w' h hstep _ => (step_exact w w' c h hstep).2) hstart
      (eachStep_true _ _)
  · intro w hrun c hlen
    have hwf := (run_inv _ hinv hstart hrun (eachStep_true _ _)).1
    rw [step, Option.isSome_map]
    exact perform_isSome hwf w.sink c hlen

end Kosio.BufWrite
