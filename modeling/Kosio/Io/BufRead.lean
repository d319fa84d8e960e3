import Kosio.Common.Error
import Kosio.Io.StreamBuffer
import Kosio.Lib.Run

/-!
# `ImplBufRead`: buffered reads

The io behind the reader is a script of outcomes, one for each `io_.read` a
call makes: the bytes it put into the span (none at end of file) or an error.
A call takes the outcomes it needs from the front; one that does not fit the
span it is asked for is no behaviour of the io and gives `none`.

A run keeps, next to the stream, the bytes taken from the io and the bytes
handed to the caller.  `Fidelity` says the second followed by the readable
bytes are the first, and

    every state of a run is faithful  ↔  no call of the run drops bytes     (fidelity_iff)

where a call drops bytes exactly when it is a `read` into a span longer than
the buffer, with bytes buffered, whose io read fails: `real_read` has moved the
buffered bytes into the span by then and returns the bare error.
-/

namespace Kosio.BufRead

open Steps

/-! ## Algorithm -/

/-- What one `io_.read` does. -/
inductive IoOut where
  | ok (bs : List UInt8)
  | err (e : Error)
deriving DecidableEq, Repr

/-- The bytes a script hands over. -/
def ioBytes : List IoOut → List UInt8
  | [] => []
  | .ok bs :: io => bs ++ ioBytes io
  | .err _ :: io => ioBytes io

/-- `io_.read(span)` for a span of `len` bytes. -/
def ioRead (len : Nat) : List IoOut → Option (Result (List UInt8) × List IoOut)
  | [] => none
  | .err e :: io => some (.error e, io)
  | .ok bs :: io => if bs.length ≤ len then some (.ok bs, io) else none

/-- `ImplAsyncRead::read_exact`: read until the span is full.  What a read delivers is the
script's, so also that a span of `2^32` bytes has the length 0 for the kernel. -/
def ioReadExact (span : List UInt8) : List IoOut → Option (Result Unit × List UInt8 × List IoOut)
  | [] => if span = [] then some (.ok (), span, []) else none
  | o :: io =>
    if span = [] then some (.ok (), span, o :: io)
    else match o with
      | .err e => some (.error e, span, io)
      | .ok bs =>
        if bs.length ≤ span.length then
          if bs.length = 0 then some (.error .kEarlyEOF, span, io)
          else (ioReadExact (span.drop bs.length) io).map fun r => (r.1, bs ++ r.2.1, r.2.2)
        else none

/-- A finished `real_read`: its result, the caller's span, the stream, the rest of the script. -/
structure ReadOut where
  ret : Result Nat
  span : List UInt8
  stream : StreamBuffer
  io : List IoOut

/-- `co_return r_stream_.write_to(buf)`. -/
def finishRead (s : StreamBuffer) (span : List UInt8) (io : List IoOut) : ReadOut :=
  ⟨.ok (s.writeTo span).1, (s.writeTo span).2.1, (s.writeTo span).2.2, io⟩

/-- The `while (true)` of `real_read`. -/
def realReadLoop (eofIsError : Bool) (pred : StreamBuffer → Bool) (span : List UInt8) :
    StreamBuffer → List IoOut → Option ReadOut
  | _, [] => none
  | s, o :: io =>
    let s := if s.wRemaining < span.length then s.resetData else s
    match o with
    | .err e => some ⟨.error e, span, s, io⟩
    | .ok bs =>
      if bs.length ≤ s.wRemaining then
        let s := (s.wFill bs).wIncrease bs.length
        if eofIsError then
          if bs.length = 0 then some ⟨.error .kEarlyEOF, span, s, io⟩
          else if pred s then some (finishRead s span io)
          else realReadLoop eofIsError pred span s io
        else if pred s || bs.length == 0 then some (finishRead s span io)
        else realReadLoop eofIsError pred span s io
      else none

/-- `real_read` after its first `if`. -/
def realReadTail (eofIsError : Bool) (pred : StreamBuffer → Bool) (s : StreamBuffer)
    (span : List UInt8) (io : List IoOut) : Option ReadOut :=
  if pred s then some (finishRead s span io) else realReadLoop eofIsError pred span s io

/-- `real_read<eof_is_error>(buf, pred)`. -/
def realRead (eofIsError : Bool) (pred : StreamBuffer → Bool) (s : StreamBuffer)
    (span : List UInt8) (io : List IoOut) : Option ReadOut :=
  if s.capacity < span.length then
    let (len, dst, s) := s.writeTo span
    if eofIsError then
      match ioReadExact (dst.drop len) io with
      | none => none
      | some (.ok (), rest, io) => some ⟨.ok (len + rest.length), dst.take len ++ rest, s, io⟩
      | some (.error _, rest, io) =>
        -- no `co_return` here: the call goes on with the shortened span
        (realReadTail eofIsError pred s rest io).map fun r => { r with span := dst.take len ++ r.span }
    else
      match ioRead (span.length - len) io with
      | none => none
      | some (.ok bs, io) => some ⟨.ok (len + bs.length), overwrite dst len bs, s, io⟩
      | some (.error e, io) => some ⟨.error e, dst, s, io⟩
  else realReadTail eofIsError pred s span io

def read (s : StreamBuffer) (span : List UInt8) (io : List IoOut) : Option ReadOut :=
  realRead false (fun s => !s.empty) s span io

def readExact (s : StreamBuffer) (span : List UInt8) (io : List IoOut) : Option ReadOut :=
  realRead true (fun s' => decide (span.length ≤ s'.rRemaining)) s span io

/-- `read_until(buf, end_flag)`; `Ok` carries `buf.size()`. -/
def readUntil (flag : List UInt8) (s : StreamBuffer) (out : List UInt8) (io : List IoOut) :
    Option (Result Nat × List UInt8 × StreamBuffer × List IoOut) :=
  let slice := s.findFlagAndReturnSlice flag
  if slice ≠ [] then
    some (.ok (out ++ slice).length, out ++ slice, s.rIncrease slice.length, io)
  else
    let out := out ++ s.rSlice
    let s := s.resetPos
    match io with
    | [] => none
    | .err e :: io => some (.error e, out, s, io)
    | .ok bs :: io =>
      if bs.length ≤ s.wRemaining then
        if bs.length = 0 then some (.ok out.length, out, s, io)
        else readUntil flag ((s.wFill bs).wIncrease bs.length) out io
      else none

/-- `fill_buf`: one read into the writable room. -/
def fillBuf (s : StreamBuffer) (o : IoOut) : Option (Result Unit × StreamBuffer) :=
  match o with
  | .err e => some (.error e, s)
  | .ok bs =>
    if bs.length ≤ s.wRemaining then some (.ok (), (s.wFill bs).wIncrease bs.length) else none

def consume (s : StreamBuffer) (n : Nat) : StreamBuffer := s.rIncrease (min n s.rRemaining)

/-! ## Runs -/

/-- A reader, with the bytes its io has handed over and the bytes it has passed on. -/
structure Reader where
  stream : StreamBuffer
  taken : List UInt8
  delivered : List UInt8
deriving DecidableEq, Repr

def Reader.make (size : Nat) : Reader := ⟨.make size, [], []⟩

inductive Call where
  | read (span : List UInt8) (io : List IoOut)
  | readUntil (flag out : List UInt8) (io : List IoOut)
  | fillBuf (o : IoOut)
  | consume (n : Nat)

/-- One call, with the io outcomes it uses up. -/
def step (r : Reader) : Call → Option Reader
  | .read span io =>
    match read r.stream span io with
    | some ⟨ret, span', s, []⟩ => some
        { stream := s
          taken := r.taken ++ ioBytes io
          delivered := r.delivered ++ match ret with
            | .ok n => span'.take n
            | .error _ => [] }
    | _ => none
  | .readUntil flag out io =>
    match readUntil flag r.stream out io with
    | some (_, out', s, []) => some
        { stream := s
          taken := r.taken ++ ioBytes io
          delivered := r.delivered ++ out'.drop out.length }
    | _ => none
  | .fillBuf o =>
    (fillBuf r.stream o).map fun x => { r with stream := x.2, taken := r.taken ++ ioBytes [o] }
  | .consume n => some
      { r with
        stream := consume r.stream n
        delivered := r.delivered ++ r.stream.rSlice.take (min n r.stream.rRemaining) }

/-- No byte lost, duplicated or reordered. -/
def Fidelity (r : Reader) : Prop := r.delivered ++ r.stream.rSlice = r.taken

instance (r : Reader) : Decidable (Fidelity r) := inferInstanceAs (Decidable (_ = _))

/-- A `read` past the buffer's capacity, with bytes buffered, on which the io fails. -/
def DropsBytes (r : Reader) : Call → Prop
  | .read span io =>
    r.stream.capacity < span.length ∧ r.stream.rSlice ≠ [] ∧ ∃ e, io = [.err e]
  | _ => False

/-! ## Lemmas -/

/-- `write_to` splits the readable bytes into what it reports and what stays. -/
theorem finishRead_spec {s : StreamBuffer} (h : s.Wf) (span : List UInt8) (io : List IoOut) :
    (finishRead s span io).stream.Wf ∧ ∃ n, (finishRead s span io).ret = .ok n ∧
      (finishRead s span io).span.take n ++ (finishRead s span io).stream.rSlice = s.rSlice := by
  obtain ⟨hn, hspan, hwf, hslice, -⟩ := h.writeTo span
  have hl := h.rSlice_length
  refine ⟨hwf, _, rfl, ?_⟩
  simp only [finishRead, hn, hspan, hslice]
  rcases Nat.le_total span.length s.rRemaining with hle | hle
  · rw [Nat.min_eq_right hle, List.take_append_of_le_length (by simp; omega),
      List.take_take, Nat.min_self, List.take_append_drop]
  · rw [Nat.min_eq_left hle, List.take_append_of_le_length (by simp; omega),
      List.take_of_length_le (by omega : s.rSlice.length ≤ span.length),
      List.drop_of_length_le (by omega), List.append_nil, List.take_of_length_le (by omega)]

/-- The loop of `read` makes one io read: it starts with nothing buffered, so
after it either something is buffered or the file has ended. -/
theorem readLoop_spec {s : StreamBuffer} (h : s.Wf) (hs : s.rSlice = []) (span : List UInt8)
    (io : List IoOut) (r : ReadOut)
    (hr : realReadLoop false (fun s => !s.empty) span s io = some r) (hio : r.io = []) :
    r.stream.Wf ∧
      ((∃ e, io = [.err e] ∧ r.ret = .error e ∧ r.stream.rSlice = []) ∨
        ∃ n, r.ret = .ok n ∧ r.span.take n ++ r.stream.rSlice = ioBytes io) := by
  cases io with
  | nil => cases hr
  | cons o io =>
    simp only [realReadLoop] at hr
    generalize hs1 : (if s.wRemaining < span.length then s.resetData else s) = s1 at hr
    have h1 : s1.Wf ∧ s1.rSlice = [] := by
      subst hs1
      split
      · exact ⟨h.resetData, by rw [h.resetData_rSlice, hs]⟩
      · exact ⟨h, hs⟩
    cases o with
    | err e =>
      cases hr
      cases hio
      exact ⟨h1.1, Or.inl ⟨e, rfl, rfl, h1.2⟩⟩
    | ok bs =>
      simp only [Bool.false_eq_true, if_false] at hr
      split at hr
      · next hb =>
        obtain ⟨hwf, hslice, -⟩ := h1.1.wFill_wIncrease hb
        rw [h1.2, List.nil_append] at hslice
        -- `pred` fails only on an empty buffer, that is when nothing was read
        have hstop : (!((s1.wFill bs).wIncrease bs.length).empty || bs.length == 0) = true := by
          cases he : ((s1.wFill bs).wIncrease bs.length).empty
          · rfl
          · rw [hwf.empty_iff, hslice] at he
            simp [he]
        rw [if_pos hstop] at hr
        cases hr
        cases hio
        obtain ⟨hwf', n, hret, hbytes⟩ := finishRead_spec hwf span []
        refine ⟨hwf', Or.inr ⟨n, hret, hbytes.trans ?_⟩⟩
        rw [hslice, ioBytes, ioBytes, List.append_nil]
      · cases hr

/-- What `read` does to the bytes: on success it hands over a front part of
what was buffered followed by what came in; on an io error it hands over
nothing, and what was buffered is still there only if the span fits the buffer. -/
theorem read_spec {s : StreamBuffer} (h : s.Wf) (span : List UInt8) (io : List IoOut) (r : ReadOut)
    (hr : read s span io = some r) (hio : r.io = []) :
    r.stream.Wf ∧
      ((∃ e, io = [.err e] ∧ r.ret = .error e ∧
          r.stream.rSlice = if s.capacity < span.length then [] else s.rSlice) ∨
        ∃ n, r.ret = .ok n ∧ r.span.take n ++ r.stream.rSlice = s.rSlice ++ ioBytes io) := by
  obtain ⟨hn, hspan, hwf, hslice, -⟩ := h.writeTo span
  have hl := h.rSlice_length
  have hcap := h.rRemaining_le
  unfold read realRead at hr
  split at hr
  · next hlong =>
    -- the whole buffer fits into the span, so `write_to` empties it
    have hn' : (s.writeTo span).1 = s.rRemaining := by omega
    have hempty : (s.writeTo span).2.2.rSlice = [] := by
      rw [hslice, List.drop_of_length_le (by omega)]
    have hdst : (s.writeTo span).2.1 = s.rSlice ++ span.drop s.rRemaining := by
      rw [hspan, List.take_of_length_le (by omega)]
    simp only [Bool.false_eq_true, if_false] at hr
    cases io with
    | nil => cases hr
    | cons o io =>
      cases o with
      | err e =>
        cases hr
        cases hio
        exact ⟨hwf, Or.inl ⟨e, rfl, rfl, by rw [if_pos hlong, hempty]⟩⟩
      | ok bs =>
        by_cases hb : bs.length ≤ span.length - (s.writeTo span).1
        · simp only [ioRead, hb, if_true] at hr
          cases hr
          cases hio
          refine ⟨hwf, Or.inr ⟨_, rfl, ?_⟩⟩
          simp only [hn', hempty, hdst, overwrite, ← hl, ioBytes, List.append_nil]
          rw [List.take_left, List.take_append_of_le_length (by simp),
            List.take_of_length_le (by simp)]
        · simp only [ioRead, hb, if_false] at hr
          cases hr
  · next hshort =>
    unfold realReadTail at hr
    split at hr
    · cases hr
      cases hio
      obtain ⟨hwf', n, hret, hbytes⟩ := finishRead_spec h span []
      exact ⟨hwf', Or.inr ⟨n, hret, by rw [ioBytes, List.append_nil]; exact hbytes⟩⟩
    · next hpred =>
      have hs : s.rSlice = [] := h.empty_iff.1 (by simpa using hpred)
      obtain ⟨hwf', hres⟩ := readLoop_spec h hs span io r hr hio
      refine ⟨hwf', ?_⟩
      rw [hs, List.nil_append, ite_self]
      exact hres

/-- `read_until` appends what it takes out of the buffer, on every exit. -/
theorem readUntil_spec (flag : List UInt8) : ∀ (io : List IoOut) (s : StreamBuffer) (out : List UInt8)
    (ret : Result Nat) (out' : List UInt8) (s' : StreamBuffer) (io' : List IoOut), s.Wf →
    readUntil flag s out io = some (ret, out', s', io') →
    s'.Wf ∧ ∃ more, out' = out ++ more ∧
      more ++ (s'.rSlice ++ ioBytes io') = s.rSlice ++ ioBytes io := by
  -- a slice found in the buffer leaves the script alone
  have found : ∀ (s : StreamBuffer) (out : List UInt8) (io : List IoOut), s.Wf →
      let slice := s.findFlagAndReturnSlice flag
      (s.rIncrease slice.length).Wf ∧ ∃ more, out ++ slice = out ++ more ∧
        more ++ ((s.rIncrease slice.length).rSlice ++ ioBytes io) = s.rSlice ++ ioBytes io := by
    intro s out io h slice
    have htake := s.findFlagAndReturnSlice_take flag
    have hle : slice.length ≤ s.rRemaining := by
      rw [show slice = s.findFlagAndReturnSlice flag from rfl, htake, List.length_take,
        h.rSlice_length]
      omega
    refine ⟨h.rIncrease hle, slice, rfl, ?_⟩
    rw [StreamBuffer.rIncrease_rSlice, ← List.append_assoc]
    conv => lhs; lhs; lhs; rw [show slice = s.findFlagAndReturnSlice flag from rfl, htake]
    rw [List.take_append_drop]
  intro io
  induction io with
  | nil =>
    intro s out ret out' s' io' h hr
    unfold readUntil at hr
    dsimp only at hr
    split at hr
    · cases hr
      exact found s out [] h
    · cases hr
  | cons o io ih =>
    intro s out ret out' s' io' h hr
    unfold readUntil at hr
    dsimp only at hr
    split at hr
    · cases hr
      exact found s out (o :: io) h
    · have h0 := StreamBuffer.resetPos_wf s
      cases o with
      | err e =>
        cases hr
        exact ⟨h0, s.rSlice, rfl, by simp [ioBytes]⟩
      | ok bs =>
        simp only at hr
        split at hr
        · next hb =>
          split at hr
          · next hz =>
            cases hr
            exact ⟨h0, s.rSlice, rfl, by simp [ioBytes, List.length_eq_zero_iff.1 hz]⟩
          · obtain ⟨hwf, hslice, -⟩ := h0.wFill_wIncrease hb
            obtain ⟨hwf', more, rfl, hmore⟩ := ih _ _ _ _ _ _ hwf hr
            refine ⟨hwf', s.rSlice ++ more, by rw [List.append_assoc], ?_⟩
            rw [List.append_assoc, hmore, hslice, StreamBuffer.resetPos_rSlice, List.nil_append, ioBytes]
        · cases hr

/-! ## Top theorems -/

/-- From a faithful reader, a call leads to a faithful one exactly when it drops no bytes. -/
theorem step_fidelity_iff (r r' : Reader) (c : Call) (h : r.stream.Wf ∧ Fidelity r)
    (hstep : step r c = some r') : r'.stream.Wf ∧ (Fidelity r' ↔ ¬ DropsBytes r c) := by
  obtain ⟨hwf, hf⟩ := h
  unfold Fidelity at hf ⊢
  cases c with
  | read span io =>
    simp only [step] at hstep
    split at hstep
    · next ret span' s heq =>
      cases hstep
      obtain ⟨hwf', hres⟩ := read_spec hwf span io _ heq rfl
      refine ⟨hwf', ?_⟩
      simp only [DropsBytes]
      rcases hres with ⟨e, rfl, rfl, hs⟩ | ⟨n, rfl, hs⟩
      · simp only at hs
        simp only [hs, ioBytes, List.append_nil, ← hf]
        split
        · next hlong => simp [hlong]
        · next hshort => simp [hshort]
      · simp only [List.append_assoc] at hs ⊢
        rw [hs, ← List.append_assoc, hf]
        simp only [true_iff]
        rintro ⟨-, -, e, rfl⟩
        -- an io script that is a lone error does not end in success
        simp only [read, realRead, realReadTail, realReadLoop, ioRead] at heq
        split at heq
        · cases heq
        · split at heq
          · cases heq
          · cases heq
    · cases hstep
  | readUntil flag out io =>
    simp only [step] at hstep
    split at hstep
    · next ret out' s heq =>
      cases hstep
      obtain ⟨hwf', more, rfl, hmore⟩ := readUntil_spec flag io _ _ _ _ _ _ hwf heq
      rw [ioBytes, List.append_nil] at hmore
      refine ⟨hwf', ?_⟩
      simp [DropsBytes, hmore, ← hf]
    · cases hstep
  | fillBuf o =>
    simp only [step, fillBuf] at hstep
    cases o with
    | err e =>
      cases hstep
      exact ⟨hwf, by simp [DropsBytes, ioBytes, hf]⟩
    | ok bs =>
      simp only at hstep
      split at hstep
      · next hb =>
        cases hstep
        obtain ⟨hwf', hslice, -⟩ := hwf.wFill_wIncrease hb
        refine ⟨hwf', ?_⟩
        simp [DropsBytes, ioBytes, hslice, ← hf]
      · cases hstep
  | consume n =>
    cases hstep
    refine ⟨hwf.rIncrease (Nat.min_le_right _ _), ?_⟩
    simp [DropsBytes, consume, StreamBuffer.rIncrease_rSlice, hf]

/-- **Byte fidelity, exactly.**  For every capacity and every sequence of calls
and io outcomes: every state reached is faithful if and only if no call is a
`read` longer than the buffer that finds bytes buffered and an io error. -/
theorem fidelity_iff (size : Nat) (calls : List Call) :
    EachStep step (fun _ _ r => Fidelity r) (Reader.make size) calls ↔
      EachStep step (fun r c _ => ¬ DropsBytes r c) (Reader.make size) calls := by
  refine eachStep_iff (fun r => r.stream.Wf ∧ Fidelity r) ?_ ?_
    ⟨StreamBuffer.make_wf size, by simp [Fidelity, Reader.make]⟩
  · intro r c r' h hstep hok
    obtain ⟨hwf, hiff⟩ := step_fidelity_iff r r' c h hstep
    exact ⟨hwf, hiff.2 hok⟩
  · intro r c r' h hstep
    exact (step_fidelity_iff r r' c h hstep).2

/-- Two bytes are buffered, a three-byte `read` moves them into the span, the io
read fails: they are neither reported nor in the stream. -/
theorem read_error_loses_buffered_bytes :
    ∃ r, run step (Reader.make 2) [.fillBuf (.ok [7, 8]), .read [0, 0, 0] [.err ⟨5⟩]] = some r ∧
      ¬ Fidelity r :=
  ⟨_, rfl, by decide⟩

end Kosio.BufRead
