import Kosio.Io.BufRead
import Mathlib.Data.Stream.Init

/-!
# `read_exact`: the bytes asked for, or the first failure

The io is an endless sequence of outcomes, one for each read, none longer than
the span it is read into (`Serves`).  A call ends whatever they are
(`readExact_total`), so it has a result; `Exact` says what that result owes the
caller once the outcomes used up are known.

    read_exact is exact  ↔  not (the span is longer than the buffer and the io
                                 fails before the missing bytes are there)    (readExact_exact_iff)

A span longer than the buffer is filled by `io_.read_exact`, and only its
success returns: after a failure `real_read` goes on and reads again.
-/

namespace Kosio.BufRead

open StreamBuffer

/-! ## Specification -/

/-- The end of the file, or an error. -/
def IoOut.Failed : IoOut → Prop
  | .ok bs => bs = []
  | .err _ => True

instance (o : IoOut) : Decidable o.Failed :=
  match o with
  | .ok bs => inferInstanceAs (Decidable (bs = []))
  | .err _ => .isTrue trivial

/-- The io can answer a read of `len` bytes so. -/
def IoOut.Fits (len : Nat) : IoOut → Prop
  | .ok bs => bs.length ≤ len
  | .err _ => True

/-- What the outcomes bring first: `need` bytes, or the failure before them. -/
def arrival : Nat → List IoOut → Option (Result Unit)
  | 0, _ => some (.ok ())
  | _ + 1, [] => none
  | _ + 1, .err e :: _ => some (.error e)
  | need + 1, .ok bs :: io =>
    if bs = [] then some (.error .kEarlyEOF) else arrival (need + 1 - bs.length) io

/-- What a call owes its caller when its reads came out as `io`. -/
structure Exact (buffered : List UInt8) (n : Nat) (io : List IoOut) (r : ReadOut) : Prop where
  settled : (arrival (n - buffered.length) io).isSome
  arrived : arrival (n - buffered.length) io = some (.ok ()) →
    r.ret = .ok n ∧ r.span = (buffered ++ ioBytes io).take n
  failed : ∀ e, arrival (n - buffered.length) io = some (.error e) → r.ret = .error e
  stopped : ∀ o ∈ io.dropLast, ¬ o.Failed

/-! ### What the io is asked for -/

/-- The stream whose room the loop of `real_read` hands to the io. -/
def loopRoom (n : Nat) (s : StreamBuffer) : StreamBuffer :=
  if s.wRemaining < n then s.resetData else s

/-- The length of the span the loop reads into after the outcomes `io`; none once it has returned. -/
def loopAsks (pred : StreamBuffer → Bool) (n : Nat) : StreamBuffer → List IoOut → Option Nat
  | s, [] => some (loopRoom n s).wRemaining
  | _, .err _ :: _ => none
  | s, .ok bs :: io =>
    let s := ((loopRoom n s).wFill bs).wIncrease bs.length
    if bs = [] ∨ pred s then none else loopAsks pred n s io

def tailAsks (pred : StreamBuffer → Bool) (n : Nat) (s : StreamBuffer) (io : List IoOut) :
    Option Nat :=
  if pred s then none else loopAsks pred n s io

/-- The same for `io_.read_exact`, which hands the outcomes after a failure on to `tail`. -/
def directAsks (tail : List IoOut → Option Nat) : Nat → List IoOut → Option Nat
  | 0, _ => none
  | len + 1, [] => some (len + 1)
  | _ + 1, .err _ :: io => tail io
  | len + 1, .ok bs :: io => if bs = [] then tail io else directAsks tail (len + 1 - bs.length) io

def readExactAsks (s : StreamBuffer) (span : List UInt8) (io : List IoOut) : Option Nat :=
  let pred := fun s' : StreamBuffer => decide (span.length ≤ s'.rRemaining)
  if s.capacity < span.length then
    let len := (s.writeTo span).1
    directAsks (tailAsks pred (span.length - len) (s.writeTo span).2.2) (span.length - len) io
  else tailAsks pred span.length s io

/-- No outcome is longer than the span it is read into. -/
def Serves (asks : List IoOut → Option Nat) (outs : Stream' IoOut) : Prop :=
  ∀ k, ∀ len ∈ asks (outs.take k), (outs.get k).Fits len

/-- The call ends, with the result it owes. -/
def ReadsExactly (s : StreamBuffer) (span : List UInt8) (outs : Stream' IoOut) : Prop :=
  ∃ k r, readExact s span (outs.take k) = some r ∧ r.io = [] ∧
    Exact s.rSlice span.length (outs.take k) r

/-- The io fails before it has handed over `need` bytes. -/
def FailsFirst (need : Nat) (outs : Stream' IoOut) : Prop :=
  ∃ k e, arrival need (outs.take k) = some (.error e)

/-! ## Lemmas -/

@[simp] theorem arrival_zero (io : List IoOut) : arrival 0 io = some (.ok ()) := by
  cases io <;> rfl

/-- What has been decided stays so, whatever comes after. -/
theorem arrival_append {need : Nat} {io : List IoOut} {a : Result Unit} (more : List IoOut)
    (h : arrival need io = some a) : arrival need (io ++ more) = some a := by
  induction io generalizing need with
  | nil =>
    cases need with
    | zero => rwa [arrival_zero] at h ⊢
    | succ need => cases h
  | cons o io ih =>
    cases need with
    | zero => rwa [arrival_zero] at h ⊢
    | succ need =>
      cases o with
      | err e => exact h
      | ok bs =>
        simp only [List.cons_append, arrival] at h ⊢
        split at h
        · next hb => rw [if_pos hb, h]
        · next hb => rw [if_neg hb, ih h]

theorem arrival_unique {need : Nat} {outs : Stream' IoOut} {k l : Nat} {a b : Result Unit}
    (ha : arrival need (outs.take k) = some a) (hb : arrival need (outs.take l) = some b) : a = b := by
  have prefix_of : ∀ {i j : Nat}, i ≤ j → ∃ more, outs.take j = outs.take i ++ more := by
    intro i j hij
    refine ⟨(outs.take j).drop i, ?_⟩
    conv => lhs; rw [← List.take_append_drop i (outs.take j), Stream'.take_take, Nat.min_eq_right hij]
  rcases Nat.le_total k l with hkl | hlk
  · obtain ⟨more, hmore⟩ := prefix_of hkl
    rw [hmore, arrival_append more ha] at hb
    exact Option.some.inj hb
  · obtain ⟨more, hmore⟩ := prefix_of hlk
    rw [hmore, arrival_append more hb] at ha
    exact (Option.some.inj ha).symm

theorem loopRoom_spec {s : StreamBuffer} (h : s.Wf) (n : Nat) :
    (loopRoom n s).Wf ∧ (loopRoom n s).rSlice = s.rSlice ∧ (loopRoom n s).capacity = s.capacity := by
  unfold loopRoom
  split
  · exact ⟨h.resetData, h.resetData_rSlice, h.resetData_capacity⟩
  · exact ⟨h, rfl, rfl⟩

/-- The stream after a read of `bs` in the loop. -/
theorem loopFill_spec {s : StreamBuffer} (h : s.Wf) (n : Nat) {bs : List UInt8}
    (hb : bs.length ≤ (loopRoom n s).wRemaining) :
    let s' := ((loopRoom n s).wFill bs).wIncrease bs.length
    s'.Wf ∧ s'.rSlice = s.rSlice ++ bs ∧ s'.capacity = s.capacity := by
  obtain ⟨hwf, hslice, hcap⟩ := loopRoom_spec h n
  obtain ⟨hwf', hslice', hcap'⟩ := hwf.wFill_wIncrease hb
  exact ⟨hwf', by rw [hslice', hslice], hcap'.trans hcap⟩

theorem Serves.head {asks : List IoOut → Option Nat} {o : IoOut} {outs : Stream' IoOut}
    (h : Serves asks (Stream'.cons o outs)) {len : Nat} (hlen : asks [] = some len) : o.Fits len :=
  h 0 len hlen

/-- After an outcome, the rest of the sequence serves the rest of the call. -/
theorem Serves.tail {asks asks' : List IoOut → Option Nat} {o : IoOut} {outs : Stream' IoOut}
    (h : Serves asks (Stream'.cons o outs)) (hasks : ∀ io, asks (o :: io) = asks' io) :
    Serves asks' outs := by
  intro k len hlen
  refine h (k + 1) len ?_
  rw [Stream'.take_succ_cons, hasks]
  exact hlen

theorem arrival_ok {need : Nat} (h : 0 < need) {bs : List UInt8} (hbs : bs ≠ []) (io : List IoOut) :
    arrival need (.ok bs :: io) = arrival (need - bs.length) io := by
  obtain ⟨need, rfl⟩ : ∃ m, need = m + 1 := ⟨need - 1, by omega⟩
  rw [arrival, if_neg hbs]

/-- The error a failed outcome stands for. -/
def IoOut.failure : IoOut → Error
  | .ok _ => .kEarlyEOF
  | .err e => e

theorem arrival_failed {need : Nat} (h : 0 < need) {o : IoOut} (ho : o.Failed) (io : List IoOut) :
    arrival need (o :: io) = some (.error o.failure) := by
  obtain ⟨need, rfl⟩ : ∃ m, need = m + 1 := ⟨need - 1, by omega⟩
  cases o with
  | err e => rfl
  | ok bs =>
    rw [arrival, if_pos (show bs = [] from ho)]
    rfl

/-! ### `Exact` along the outcomes -/

theorem Exact.done {buffered : List UInt8} {n : Nat} {r : ReadOut} (hn : n ≤ buffered.length)
    (hret : r.ret = .ok n) (hspan : r.span = buffered.take n) : Exact buffered n [] r := by
  have hneed : n - buffered.length = 0 := by omega
  refine ⟨by simp [hneed], fun _ => ⟨hret, by simp [ioBytes, hspan]⟩, fun e he => ?_, by simp⟩
  rw [hneed, arrival_zero] at he
  cases he

theorem Exact.fail {buffered : List UInt8} {n : Nat} {o : IoOut} {r : ReadOut}
    (hn : buffered.length < n) (ho : o.Failed) (hret : r.ret = .error o.failure) :
    Exact buffered n [o] r := by
  have harr := arrival_failed (by omega : 0 < n - buffered.length) ho []
  refine ⟨by simp [harr], fun h => ?_, fun e he => ?_, by simp⟩
  · rw [harr] at h
    cases h
  · rw [harr] at he
    cases he
    exact hret

theorem Exact.cons {buffered bs : List UInt8} {n : Nat} {io : List IoOut} {r : ReadOut}
    (hn : buffered.length < n) (hbs : bs ≠ []) (h : Exact (buffered ++ bs) n io r) :
    Exact buffered n (.ok bs :: io) r := by
  have harr : arrival (n - buffered.length) (.ok bs :: io) =
      arrival (n - (buffered ++ bs).length) io := by
    rw [arrival_ok (by omega) hbs, List.length_append, Nat.sub_sub]
  refine ⟨by rw [harr]; exact h.settled, fun ha => ?_, fun e he => h.failed e (harr ▸ he), ?_⟩
  · have := h.arrived (harr ▸ ha)
    rwa [List.append_assoc] at this
  · intro o ho
    cases io with
    | nil => simp at ho
    | cons o' io =>
      rw [List.dropLast_cons_cons, List.mem_cons] at ho
      rcases ho with rfl | ho
      · exact hbs
      · exact h.stopped o ho

/-! ### The loop -/

theorem realReadLoop_ok (pred : StreamBuffer → Bool) (span : List UInt8) (s : StreamBuffer)
    {bs : List UInt8} (io : List IoOut) (hb : bs.length ≤ (loopRoom span.length s).wRemaining) :
    realReadLoop true pred span s (.ok bs :: io) =
      let s' := ((loopRoom span.length s).wFill bs).wIncrease bs.length
      if bs = [] then some ⟨.error .kEarlyEOF, span, s', io⟩
      else if pred s' then some (finishRead s' span io) else realReadLoop true pred span s' io := by
  show (if bs.length ≤ (loopRoom span.length s).wRemaining then _ else _ : Option ReadOut) = _
  rw [if_pos hb]
  simp only [if_true, List.length_eq_zero_iff]
  rfl

/-- The loop ends: a read that does not end it takes a byte more into the buffer. -/
theorem realReadLoop_total (pred : StreamBuffer → Bool) (span : List UInt8) (room : Nat) :
    ∀ (s : StreamBuffer) (outs : Stream' IoOut), s.Wf → s.capacity - s.rRemaining < room →
      Serves (loopAsks pred span.length s) outs →
      ∃ k r, realReadLoop true pred span s (outs.take k) = some r ∧ r.io = [] := by
  induction room with
  | zero =>
    intro s outs h hroom hserve
    omega
  | succ room ih =>
    intro s outs h hroom hserve
    obtain ⟨o, outs, rfl⟩ : ∃ o t, outs = Stream'.cons o t := ⟨_, _, (Stream'.eta outs).symm⟩
    have hfits := hserve.head rfl
    cases o with
    | err e => exact ⟨1, _, rfl, rfl⟩
    | ok bs =>
      obtain ⟨hwf, hslice, hcap⟩ := loopFill_spec h span.length hfits
      by_cases hend : bs = [] ∨ pred (((loopRoom span.length s).wFill bs).wIncrease bs.length)
      · refine ⟨1, ?_⟩
        rw [Stream'.take_succ_cons, realReadLoop_ok pred span s _ hfits]
        dsimp only
        split
        · exact ⟨_, rfl, rfl⟩
        · next hbs =>
          rw [if_pos (hend.resolve_left hbs)]
          exact ⟨_, rfl, rfl⟩
      · have hmore : s.rRemaining < (((loopRoom span.length s).wFill bs).wIncrease bs.length).rRemaining := by
          rw [← hwf.rSlice_length, hslice, List.length_append, h.rSlice_length]
          have := List.length_pos_iff.2 (not_or.1 hend).1
          omega
        have hroom' := hwf.rRemaining_le
        obtain ⟨k, r, hr, hio⟩ := ih _ outs hwf (by omega)
          (hserve.tail fun io => by simp only [loopAsks, if_neg hend])
        refine ⟨k + 1, r, ?_, hio⟩
        rw [Stream'.take_succ_cons, realReadLoop_ok pred span s _ hfits]
        dsimp only
        rw [if_neg (not_or.1 hend).1, if_neg (not_or.1 hend).2]
        exact hr

/-- `co_return r_stream_.write_to(buf)` once `pred` holds. -/
theorem finishRead_exact {s : StreamBuffer} (h : s.Wf) {span : List UInt8}
    (hn : span.length ≤ s.rRemaining) (io : List IoOut) :
    (finishRead s span io).ret = .ok span.length ∧
      (finishRead s span io).span = s.rSlice.take span.length := by
  obtain ⟨hret, hspan, -⟩ := h.writeTo span
  refine ⟨?_, ?_⟩
  · show Except.ok (s.writeTo span).1 = _
    rw [hret, Nat.min_eq_right hn]
  · show (s.writeTo span).2.1 = _
    rw [hspan, List.drop_of_length_le hn, List.append_nil]

/-- Through the buffer, a call gives what it owes. -/
theorem realReadLoop_exact (span : List UInt8) (io : List IoOut) :
    ∀ (s : StreamBuffer) (r : ReadOut), s.Wf → s.rRemaining < span.length →
      realReadLoop true (fun s' => decide (span.length ≤ s'.rRemaining)) span s io = some r →
      r.io = [] → Exact s.rSlice span.length io r := by
  induction io with
  | nil =>
    intro s r h hn hr hio
    cases hr
  | cons o io ih =>
    intro s r h hn hr hio
    have hn' : s.rSlice.length < span.length := h.rSlice_length.symm ▸ hn
    cases o with
    | err e =>
      cases hr
      cases hio
      exact Exact.fail hn' trivial rfl
    | ok bs =>
      by_cases hb : bs.length ≤ (loopRoom span.length s).wRemaining
      · obtain ⟨hwf, hslice, hcap⟩ := loopFill_spec h span.length hb
        rw [realReadLoop_ok _ span s io hb] at hr
        dsimp only at hr
        split at hr
        · next hbs =>
          cases hr
          cases hio
          exact Exact.fail hn' hbs rfl
        · next hbs =>
          apply Exact.cons hn' hbs
          rw [← hslice]
          split at hr
          · next hpred =>
            cases hr
            cases hio
            have hpred := of_decide_eq_true hpred
            obtain ⟨hret, hspan⟩ := finishRead_exact hwf hpred []
            exact Exact.done (hwf.rSlice_length.symm ▸ hpred) hret hspan
          · next hpred =>
            exact ih _ r hwf (by simpa using hpred) hr hio
      · replace hr : (if bs.length ≤ (loopRoom span.length s).wRemaining then _ else none) = some r := hr
        rw [if_neg hb] at hr
        cases hr

/-! ### Straight into the span -/

theorem ioReadExact_nil (io : List IoOut) : ioReadExact [] io = some (.ok (), [], io) := by
  cases io <;> rfl

theorem ioReadExact_ok {span bs : List UInt8} (hspan : span ≠ []) (hbs : bs ≠ [])
    (hb : bs.length ≤ span.length) (io : List IoOut) :
    ioReadExact span (.ok bs :: io) =
      (ioReadExact (span.drop bs.length) io).map fun r => (r.1, bs ++ r.2.1, r.2.2) := by
  rw [ioReadExact, if_neg hspan, if_pos hb, if_neg (mt List.length_eq_zero_iff.1 hbs)]

theorem ioReadExact_failed {span : List UInt8} (hspan : span ≠ []) {o : IoOut} (ho : o.Failed)
    (io : List IoOut) : ioReadExact span (o :: io) = some (.error o.failure, span, io) := by
  cases o with
  | err e => rw [ioReadExact, if_neg hspan]; rfl
  | ok bs =>
    obtain rfl : bs = [] := ho
    rw [ioReadExact, if_neg hspan]
    rfl

/-- What `io_.read_exact` used of the script, and what it made of it. -/
theorem ioReadExact_spec (io : List IoOut) : ∀ (span : List UInt8) (ret : Result Unit)
    (span' : List UInt8) (io' : List IoOut), ioReadExact span io = some (ret, span', io') →
    span'.length = span.length ∧ ∃ used, io = used ++ io' ∧ arrival span.length used = some ret ∧
      (ret = .ok () → span' = ioBytes used ∧ ∀ o ∈ used, ¬ o.Failed) ∧
      (∀ e, ret = .error e → ∃ o ∈ used, o.Failed) := by
  induction io with
  | nil =>
    intro span ret span' io' h
    rw [ioReadExact] at h
    split at h
    · next hspan =>
      cases h
      exact ⟨rfl, [], rfl, by rw [hspan]; rfl, fun _ => ⟨hspan, by simp⟩, fun e he => by cases he⟩
    · cases h
  | cons o io ih =>
    intro span ret span' io' h
    by_cases hspan : span = []
    · rw [hspan, ioReadExact_nil] at h
      cases h
      exact ⟨by rw [hspan], [], rfl, by rw [hspan]; rfl, fun _ => ⟨rfl, by simp⟩,
        fun e he => by cases he⟩
    · have hlen : 0 < span.length := List.length_pos_iff.2 hspan
      by_cases ho : o.Failed
      · rw [ioReadExact_failed hspan ho] at h
        cases h
        refine ⟨rfl, [o], rfl, arrival_failed hlen ho [], fun he => ?_, fun e he => ?_⟩
        · cases he
        · exact ⟨o, List.mem_singleton_self o, ho⟩
      · obtain ⟨bs, rfl, hbs⟩ : ∃ bs, o = .ok bs ∧ bs ≠ [] := by
          cases o with
          | err e => exact absurd trivial ho
          | ok bs => exact ⟨bs, rfl, ho⟩
        by_cases hb : bs.length ≤ span.length
        · rw [ioReadExact_ok hspan hbs hb] at h
          obtain ⟨⟨ret1, span1, io1⟩, h1, heq⟩ := Option.map_eq_some_iff.1 h
          cases heq
          obtain ⟨hl, used, rfl, harr, hok, herr⟩ := ih _ _ _ _ h1
          rw [List.length_drop] at harr hl
          refine ⟨by rw [List.length_append, hl]; omega, .ok bs :: used, rfl,
            by rw [arrival_ok hlen hbs, harr], fun hret => ?_, fun e he => ?_⟩
          · obtain ⟨rfl, hgood⟩ := hok hret
            refine ⟨rfl, fun o ho => ?_⟩
            rcases List.mem_cons.1 ho with rfl | ho
            · exact hbs
            · exact hgood o ho
          · obtain ⟨o, ho, hf⟩ := herr e he
            exact ⟨o, List.mem_cons_of_mem _ ho, hf⟩
        · rw [ioReadExact, if_neg hspan, if_neg hb] at h
          cases h

/-- `io_.read_exact` ends: with the span full, or on a failure with the rest of
the sequence left for what comes after. -/
theorem ioReadExact_total (tail : List IoOut → Option Nat) (need : Nat) :
    ∀ (span : List UInt8) (outs : Stream' IoOut), span.length < need →
      Serves (directAsks tail span.length) outs →
      (∃ k span', ioReadExact span (outs.take k) = some (.ok (), span', [])) ∨
      ∃ k e span', Serves tail (outs.drop k) ∧
        ∀ l, ioReadExact span (outs.take (k + l)) = some (.error e, span', (outs.drop k).take l) := by
  induction need with
  | zero =>
    intro span outs hneed
    omega
  | succ need ih =>
    intro span outs hneed hserve
    by_cases hspan : span = []
    · exact Or.inl ⟨0, [], by rw [hspan]; rfl⟩
    · obtain ⟨len, hlen⟩ : ∃ len, span.length = len + 1 :=
        Nat.exists_eq_succ_of_ne_zero (mt List.length_eq_zero_iff.1 hspan)
      rw [hlen] at hserve
      obtain ⟨o, outs, rfl⟩ : ∃ o t, outs = Stream'.cons o t := ⟨_, _, (Stream'.eta outs).symm⟩
      have hfits := hserve.head rfl
      by_cases ho : o.Failed
      · refine Or.inr ⟨1, o.failure, span, hserve.tail fun io => ?_, fun l => ?_⟩
        · cases o with
          | err e => rfl
          | ok bs => exact if_pos ho
        · rw [Nat.add_comm 1 l, Stream'.take_succ_cons, ioReadExact_failed hspan ho]
          rfl
      · obtain ⟨bs, rfl, hbs⟩ : ∃ bs, o = .ok bs ∧ bs ≠ [] := by
          cases o with
          | err e => exact absurd trivial ho
          | ok bs => exact ⟨bs, rfl, ho⟩
        have hb : bs.length ≤ span.length := hlen ▸ hfits
        have hpos := List.length_pos_iff.2 hbs
        have hrest : Serves (directAsks tail (span.drop bs.length).length) outs := by
          refine hserve.tail fun io => ?_
          rw [directAsks, if_neg hbs, List.length_drop, hlen]
        rcases ih (span.drop bs.length) outs (by rw [List.length_drop]; omega) hrest with
          ⟨k, span', h⟩ | ⟨k, e, span', hs, h⟩
        · refine Or.inl ⟨k + 1, bs ++ span', ?_⟩
          rw [Stream'.take_succ_cons, ioReadExact_ok hspan hbs hb, h]
          rfl
        · refine Or.inr ⟨k + 1, e, bs ++ span', hs, fun l => ?_⟩
          rw [Nat.add_right_comm, Stream'.take_succ_cons, ioReadExact_ok hspan hbs hb, h]
          rfl

/-- A span longer than the buffer: the buffered bytes, then `io_.read_exact`. -/
theorem readExact_long {s : StreamBuffer} (h : s.Wf) {span : List UInt8}
    (hlong : s.capacity < span.length) (io : List IoOut) :
    readExact s span io =
      match ioReadExact (span.drop s.rRemaining) io with
      | none => none
      | some (.ok (), rest, io) =>
        some ⟨.ok (s.rRemaining + rest.length), s.rSlice ++ rest, (s.writeTo span).2.2, io⟩
      | some (.error _, rest, io) =>
        (realReadTail true (fun s' => decide (span.length ≤ s'.rRemaining))
          (s.writeTo span).2.2 rest io).map fun r => { r with span := s.rSlice ++ r.span } := by
  obtain ⟨hlen, hdst, -⟩ := h.writeTo span
  have hcap := h.rRemaining_le
  have hl := h.rSlice_length
  rw [Nat.min_eq_left (by omega)] at hlen
  rw [List.take_of_length_le (by omega)] at hdst
  have hdrop : (s.writeTo span).2.1.drop (s.writeTo span).1 = span.drop s.rRemaining := by
    rw [hdst, hlen, ← hl, List.drop_left]
  have htake : (s.writeTo span).2.1.take (s.writeTo span).1 = s.rSlice := by
    rw [hdst, hlen, ← hl, List.take_left]
  unfold readExact realRead
  rw [if_pos hlong]
  dsimp only
  rewrite [if_pos rfl, hdrop, htake, hlen]
  rfl

/-- The stream a long `read_exact` falls back on is empty, too short for the span. -/
theorem longTail_spec {s : StreamBuffer} (h : s.Wf) {span : List UInt8}
    (hlong : s.capacity < span.length) :
    (s.writeTo span).2.2.Wf ∧
      ¬ decide (span.length ≤ (s.writeTo span).2.2.rRemaining) = true := by
  obtain ⟨-, -, hwf, -, hcap⟩ := h.writeTo span
  refine ⟨hwf, ?_⟩
  have := hwf.rRemaining_le
  rw [decide_eq_true_iff]
  omega

/-- **`read_exact` ends**, whatever the io hands over. -/
theorem readExact_total {s : StreamBuffer} (h : s.Wf) (span : List UInt8) (outs : Stream' IoOut)
    (hserve : Serves (readExactAsks s span) outs) :
    ∃ k r, readExact s span (outs.take k) = some r ∧ r.io = [] := by
  by_cases hlong : s.capacity < span.length
  · have hlen : (s.writeTo span).1 = s.rRemaining := by
      have := h.rRemaining_le
      rw [(h.writeTo span).1, Nat.min_eq_left (by omega)]
    obtain ⟨hwf, hpred⟩ := longTail_spec h hlong
    have hdirect : Serves (directAsks (tailAsks (fun s' => decide (span.length ≤ s'.rRemaining))
        (span.length - s.rRemaining) (s.writeTo span).2.2) (span.drop s.rRemaining).length) outs := by
      intro k len hk
      refine hserve k len ?_
      rw [readExactAsks, if_pos hlong]
      rw [List.length_drop] at hk
      dsimp only
      rwa [hlen]
    rcases ioReadExact_total _ _ (span.drop s.rRemaining) outs (Nat.lt_succ_self _) hdirect with
      ⟨k, rest, hk⟩ | ⟨k, e, rest, hs, hk⟩
    · refine ⟨k, ⟨.ok (s.rRemaining + rest.length), s.rSlice ++ rest, (s.writeTo span).2.2, []⟩,
        ?_, rfl⟩
      rw [readExact_long h hlong, hk]
    · have hrest : rest.length = span.length - s.rRemaining := by
        have := (ioReadExact_spec _ _ _ _ _ (hk 0)).1
        rwa [List.length_drop] at this
      have hloop : Serves (loopAsks (fun s' => decide (span.length ≤ s'.rRemaining)) rest.length
          (s.writeTo span).2.2) (outs.drop k) := by
        intro l len hl
        refine hs l len ?_
        rw [tailAsks, if_neg hpred, ← hrest]
        exact hl
      obtain ⟨l, r, hr, hio⟩ := realReadLoop_total _ rest _ _ _ hwf (Nat.lt_succ_self _) hloop
      refine ⟨k + l, { r with span := s.rSlice ++ r.span }, ?_, hio⟩
      rw [readExact_long h hlong, hk l]
      dsimp only
      rw [realReadTail, if_neg hpred, hr]
      rfl
  · by_cases hpred : span.length ≤ s.rRemaining
    · refine ⟨0, finishRead s span [], ?_, rfl⟩
      rw [readExact, realRead, if_neg hlong, realReadTail, if_pos (decide_eq_true hpred)]
      rfl
    · have hloop : Serves (loopAsks (fun s' => decide (span.length ≤ s'.rRemaining)) span.length s)
          outs := by
        intro k len hk
        refine hserve k len ?_
        rw [readExactAsks, if_neg hlong, tailAsks, if_neg (by simpa using hpred)]
        exact hk
      obtain ⟨k, r, hr, hio⟩ := realReadLoop_total _ span _ s outs h (Nat.lt_succ_self _) hloop
      refine ⟨k, r, ?_, hio⟩
      rw [readExact, realRead, if_neg hlong, realReadTail, if_neg (by simpa using hpred), hr]

/-! ## Top theorem -/

/-- Within the buffer's capacity the result is always what is owed. -/
theorem readExact_short_exact {s : StreamBuffer} (h : s.Wf) {span : List UInt8}
    (hshort : ¬ s.capacity < span.length) {io : List IoOut} {r : ReadOut}
    (hr : readExact s span io = some r) (hio : r.io = []) : Exact s.rSlice span.length io r := by
  rw [readExact, realRead, if_neg hshort, realReadTail] at hr
  split at hr
  · next hpred =>
    cases hr
    cases hio
    have hpred := of_decide_eq_true hpred
    obtain ⟨hret, hspan⟩ := finishRead_exact h hpred []
    exact Exact.done (h.rSlice_length.symm ▸ hpred) hret hspan
  · next hpred => exact realReadLoop_exact span io s r h (by simpa using hpred) hr hio

/-- Past it, the result is what is owed exactly when the missing bytes come in. -/
theorem readExact_long_exact_iff {s : StreamBuffer} (h : s.Wf) {span : List UInt8}
    (hlong : s.capacity < span.length) {io : List IoOut} {r : ReadOut}
    (hr : readExact s span io = some r) (hio : r.io = []) :
    Exact s.rSlice span.length io r ↔ arrival (span.length - s.rRemaining) io = some (.ok ()) := by
  obtain ⟨hwf, hpred⟩ := longTail_spec h hlong
  have hcap := h.rRemaining_le
  have hl := h.rSlice_length
  rw [readExact_long h hlong] at hr
  split at hr
  · cases hr
  · next rest io' heq =>
    cases hr
    obtain rfl : io' = [] := hio
    obtain ⟨hrest, used, hused, harr, hok, -⟩ := ioReadExact_spec _ _ _ _ _ heq
    obtain ⟨rfl, hgood⟩ := hok rfl
    rw [List.append_nil] at hused
    subst hused
    rw [List.length_drop] at harr hrest
    refine ⟨fun _ => harr, fun _ => ⟨by rw [hl, harr]; rfl, fun _ => ⟨?_, ?_⟩, fun e he => ?_, ?_⟩⟩
    · dsimp only
      rw [hrest]
      congr 1
      omega
    · rw [List.take_of_length_le]
      rw [List.length_append, hrest]
      omega
    · rw [hl, harr] at he
      cases he
    · exact fun o ho => hgood o (List.dropLast_subset _ ho)
  · next e rest io' heq =>
    obtain ⟨hrest, used, rfl, harr, -, herr⟩ := ioReadExact_spec _ _ _ _ _ heq
    rw [List.length_drop] at harr
    rw [realReadTail, if_neg hpred] at hr
    have hne : io' ≠ [] := by
      rintro rfl
      cases hr
    refine ⟨fun hex => ?_, fun hok => ?_⟩
    · -- the failure of `io_.read_exact` is followed by another read
      obtain ⟨o, ho, hf⟩ := herr e rfl
      refine absurd hf (hex.stopped o ?_)
      rw [List.dropLast_append_of_ne_nil hne]
      exact List.mem_append_left _ ho
    · rw [arrival_append io' harr] at hok
      cases hok

theorem readExact_long_settled {s : StreamBuffer} (h : s.Wf) {span : List UInt8}
    (hlong : s.capacity < span.length) {io : List IoOut} {r : ReadOut}
    (hr : readExact s span io = some r) :
    ∃ a, arrival (span.length - s.rRemaining) io = some a := by
  rw [readExact_long h hlong] at hr
  cases heq : ioReadExact (span.drop s.rRemaining) io with
  | none =>
    rw [heq] at hr
    cases hr
  | some x =>
    obtain ⟨-, used, rfl, harr, -⟩ := ioReadExact_spec io _ x.1 x.2.1 x.2.2 heq
    rw [List.length_drop] at harr
    exact ⟨x.1, arrival_append _ harr⟩

/-- **`read_exact` is exact, exactly.**  For every capacity, buffered content,
span and sequence of io outcomes the call ends; it is what the caller is owed if
and only if it is not a span longer than the buffer on which the io fails before
the missing bytes are there. -/
theorem readExact_exact_iff {s : StreamBuffer} (h : s.Wf) (span : List UInt8)
    (outs : Stream' IoOut) (hserve : Serves (readExactAsks s span) outs) :
    ReadsExactly s span outs ↔
      ¬ (s.capacity < span.length ∧ FailsFirst (span.length - s.rRemaining) outs) := by
  constructor
  · rintro ⟨k, r, hr, hio, hex⟩ ⟨hlong, l, e, he⟩
    cases arrival_unique ((readExact_long_exact_iff h hlong hr hio).1 hex) he
  · intro hcond
    obtain ⟨k, r, hr, hio⟩ := readExact_total h span outs hserve
    refine ⟨k, r, hr, hio, ?_⟩
    by_cases hlong : s.capacity < span.length
    · rw [readExact_long_exact_iff h hlong hr hio]
      obtain ⟨a, ha⟩ := readExact_long_settled h hlong hr
      cases a with
      | ok _ => exact ha
      | error e => exact absurd ⟨hlong, k, e, ha⟩ hcond
    · exact readExact_short_exact h hlong hr hio

/-- Two bytes wanted through a one-byte buffer, from an io that hands them over one by one. -/
theorem readExact_exact_two_bytes :
    ReadsExactly (make 1) [0, 0]
      (Stream'.cons (.ok [7]) (Stream'.cons (.ok [8]) (Stream'.const (.ok [])))) := by
  refine (readExact_exact_iff (make_wf 1) [0, 0] _ fun k len hlen => ?_).2 ?_
  · match k, hlen with
    | 0, hlen =>
      obtain rfl : 2 = len := Option.some.inj hlen
      exact (by decide : [(7 : UInt8)].length ≤ 2)
    | 1, hlen =>
      obtain rfl : 1 = len := Option.some.inj hlen
      exact Nat.le_refl 1
    | k + 2, hlen => exact Nat.zero_le len
  · rintro ⟨-, k, e, he⟩
    cases arrival_unique (k := 2) rfl he

/-- An io that fails with error 5 and with error 6 ever after. -/
def failsTwice : Stream' IoOut := Stream'.cons (.err ⟨5⟩) (Stream'.const (.err ⟨6⟩))

/-- Two bytes wanted through a one-byte buffer: the io is read again after its
first error, and the caller is told the second one. -/
theorem readExact_reports_second_error :
    Serves (readExactAsks (make 1) [0, 0]) failsTwice ∧
      (readExact (make 1) [0, 0] (failsTwice.take 2)).map (·.ret) = some (.error ⟨6⟩) ∧
      ¬ ReadsExactly (make 1) [0, 0] failsTwice := by
  refine ⟨fun k len hlen => ?_, rfl, ?_⟩
  · cases k <;> trivial
  · rintro ⟨k, r, hr, hio, hex⟩
    have harr := (readExact_long_exact_iff (make_wf 1) (by decide) hr hio).1 hex
    cases arrival_unique harr (l := 1) rfl

end Kosio.BufRead
