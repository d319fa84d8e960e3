import Mathlib.Algebra.BigOperators.Intervals
import Kosio.Common.Error

/-!
# `write_all` and `read_exact` over spans of any length

Both loops hand what is left of the span to a single operation, which casts its
length to `unsigned int`.  The lengths of the requests follow the length of the
span modulo `2^32`: a span of `2^32` bytes or more ends, after its length modulo
`2^32`, in a request for nothing, and the 0 that comes back is taken for a sink
that accepts nothing or an early end of file.

`transfer` is the loop, for any `Device`; `transfer_cases` says how it ends.
-/

namespace Kosio.Transfer

/-! ## Algorithm -/

/-- The greatest `int`. -/
def intMax : Nat := 2 ^ 31 - 1

/-- The kernel's error numbers. -/
structure Errno where
  code : Nat
  pos : 0 < code
  le : code ≤ 4095

/-- What the kernel is ready to do when a request comes. -/
inductive Outcome where
  /-- moves up to `n` bytes -/
  | moved (n : Nat)
  | failed (errno : Errno)

/-- `result_` of a request for `len` bytes. -/
def Outcome.result (len : Nat) (o : Outcome) : Int :=
  if len = 0 then 0
  else
    match o with
    | .moved n => (min (min n len) intMax : Nat)
    | .failed errno => -errno.code

/-- `await_resume` of `Read` and of `Write`. -/
def awaitResume (result : Int) : Result Nat :=
  if 0 ≤ result then .ok result.toNat else .error ⟨-result⟩

/-- The outcomes, one for each request, and the requests made with their results. -/
structure Kernel where
  outs : Nat → Outcome
  log : List (Nat × Int) := []

def Kernel.request (k : Kernel) (len : Nat) : Int × Kernel :=
  let result := (k.outs k.log.length).result len
  (result, { k with log := k.log ++ [(len, result)] })

/-- What the bytes go to or come from. -/
structure Device (σ : Type) where
  kernel : σ → Kernel
  /-- `n` bytes are moved at offset `off` of the span -/
  move : Nat → Nat → Kernel → σ → σ
  kernel_move : ∀ off n k s, kernel (move off n k s) = k

variable {σ : Type}

/-- `write` or `read` of the `len` bytes of the span from `off` on. -/
def Device.op (d : Device σ) (off len : Nat) (s : σ) : Result Nat × σ :=
  -- `static_cast<unsigned int>(buf.size_bytes())`
  let (result, k) := (d.kernel s).request (len % 2 ^ 32)
  (awaitResume result, d.move off result.toNat k s)

/-- The loop of `write_all` and `read_exact`, over the `len` bytes from `off` on. -/
def transfer (zero : Error) (d : Device σ) (off len : Nat) (s : σ) : Result Unit × σ :=
  if len = 0 then (.ok (), s)
  else
    match d.op off len s with
    | (.error e, s) => (.error e, s)
    | (.ok n, s) => if n = 0 then (.error zero, s) else transfer zero d (off + n) (len - n) s
termination_by len

structure Sink where
  kernel : Kernel
  received : List UInt8

/-- `ImplAsyncWrite::write` from the span `buf`. -/
def Sink.device (buf : List UInt8) : Device Sink where
  kernel s := s.kernel
  move off n k s := ⟨k, s.received ++ (buf.drop off).take n⟩
  kernel_move _ _ _ _ := rfl

def writeAll (outs : Nat → Outcome) (buf : List UInt8) : Result Unit × Sink :=
  transfer .kWriteZero (Sink.device buf) 0 buf.length ⟨{ outs }, []⟩

/-- The bytes that come, how many of them have, and the span. -/
structure Source where
  kernel : Kernel
  input : Nat → UInt8
  pos : Nat
  span : List UInt8

def Source.next (s : Source) (n : Nat) : List UInt8 :=
  (List.range n).map fun i => s.input (s.pos + i)

/-- `ImplAsyncRead::read` into the span. -/
def Source.device : Device Source where
  kernel s := s.kernel
  move off n k s :=
    { s with kernel := k, pos := s.pos + n
             span := s.span.take off ++ s.next n ++ s.span.drop (off + n) }
  kernel_move _ _ _ _ := rfl

def readExact (outs : Nat → Outcome) (input : Nat → UInt8) (span : List UInt8) :
    Result Unit × Source :=
  transfer .kEarlyEOF Source.device 0 span.length ⟨{ outs }, input, 0, span⟩

/-! ## Specification -/

/-- The kernel moves at least a byte. -/
def Outcome.Moves : Outcome → Prop
  | .moved n => 0 < n
  | .failed _ => False

/-- How many bytes the outcome is good for. -/
def Outcome.amount : Outcome → Nat
  | .moved n => min n intMax
  | .failed _ => 0

/-- The kernel fails or moves nothing before it has moved `need` bytes. -/
def FailsFirst (outs : Nat → Outcome) (need : Nat) : Prop :=
  ∃ k, ¬ (outs k).Moves ∧ ∑ i ∈ Finset.range k, (outs i).amount < need

/-- What a call over `len` bytes owes its caller: it ends, it succeeds where no
request fails, and it says `zero` only after a request for something got 0. -/
structure Handled (zero : Error) (len : Nat) (outs : Nat → Outcome) (done : Prop)
    (ret : Result Unit) (log : List (Nat × Int)) : Prop where
  ends : log.length ≤ len
  complete : (∀ i, (outs i).Moves) → ret = .ok () ∧ done
  ok : ret = .ok () → done
  zero : ret = .error zero → ∃ n, 0 < n ∧ (n, 0) ∈ log

/-! ## Lemmas -/

theorem awaitResume_nat (n : Nat) : awaitResume n = .ok n := rfl

theorem awaitResume_errno (errno : Errno) :
    awaitResume (-errno.code) = .error ⟨errno.code⟩ := by
  have := errno.pos
  rw [awaitResume, if_neg (by omega), Int.neg_neg]

/-- A request for something, by an outcome that moves something. -/
theorem Outcome.Moves.result_eq {o : Outcome} (h : o.Moves) {len : Nat} (hlen : 0 < len) :
    ∃ n, 0 < n ∧ n = min o.amount len ∧ o.result len = (n : Int) := by
  cases o with
  | failed errno => exact h.elim
  | moved n =>
    have hn : 0 < n := h
    have hpos : 0 < intMax := by decide
    refine ⟨min (min n len) intMax, by omega, ?_, ?_⟩
    · show _ = min (min n intMax) len
      omega
    · rw [result, if_neg (by omega)]

/-- A request for something that is not met. -/
theorem Outcome.result_of_not_moves {o : Outcome} (h : ¬ o.Moves) {len : Nat} (hlen : 0 < len) :
    o.result len = 0 ∨ ∃ errno : Errno, o.result len = -errno.code := by
  cases o with
  | failed errno => exact Or.inr ⟨errno, by rw [result, if_neg (by omega)]⟩
  | moved n =>
    have hn : n = 0 := Nat.eq_zero_of_not_pos h
    left
    rw [result, if_neg (by omega)]
    simp [hn]

theorem failsFirst_zero (outs : Nat → Outcome) : ¬ FailsFirst outs 0 := by
  rintro ⟨k, -, hlt⟩
  omega

/-- After an outcome that moves something. -/
theorem failsFirst_succ {outs : Nat → Outcome} {j : Nat} (h : (outs j).Moves) {need n : Nat}
    (heq : n = min (outs j).amount need) :
    FailsFirst (fun i => outs (j + i)) need ↔
      FailsFirst (fun i => outs (j + 1 + i)) (need - n) := by
  have hshift : ∀ i, j + 1 + i = j + (i + 1) := fun i => by omega
  simp only [FailsFirst, hshift]
  constructor
  · rintro ⟨k, hk, hlt⟩
    cases k with
    | zero => exact absurd h hk
    | succ k =>
      rw [Finset.sum_range_succ', Nat.add_zero] at hlt
      exact ⟨k, hk, by omega⟩
  · rintro ⟨k, hk, hlt⟩
    refine ⟨k + 1, hk, ?_⟩
    rw [Finset.sum_range_succ', Nat.add_zero]
    omega

/-! ## The loop -/

/-- Every request for something got something. -/
def Clean (log : List (Nat × Int)) : Prop := ∀ p ∈ log, 0 < p.1 → 0 < p.2

theorem Clean.append {log : List (Nat × Int)} (h : Clean log) {p : Nat × Int}
    (hp : 0 < p.1 → 0 < p.2) : Clean (log ++ [p]) := by
  intro q hq
  rcases List.mem_append.1 hq with hq | hq
  · exact h q hq
  · rwa [List.mem_singleton.1 hq]

section Loop

variable {zero : Error} {d : Device σ} {total : Nat} {P : Nat → σ → Prop}

/-- How the loop over `len` bytes ends when `outs` are the outcomes to come. -/
inductive Ended (zero : Error) (len : Nat) (outs : Nat → Outcome) (done : Prop)
    (log : List (Nat × Int)) : Result Unit → Prop where
  | failed {ret : Result Unit} (h : FailsFirst outs (len % 2 ^ 32)) (hret : ret ≠ .ok ())
    (hzero : ret = .error zero → ∃ n, 0 < n ∧ (n, 0) ∈ log) : Ended zero len outs done log ret
  | ok (h : ¬ FailsFirst outs (len % 2 ^ 32)) (hlen : len < 2 ^ 32) (hdone : done) :
    Ended zero len outs done log (.ok ())
  /-- the rest of the span is a multiple of `2^32` -/
  | spurious (h : ¬ FailsFirst outs (len % 2 ^ 32)) (hlen : 2 ^ 32 ≤ len) (hclean : Clean log) :
    Ended zero len outs done log (.error zero)

/-- What an operation leaves of the device. -/
def Device.after (d : Device σ) (off len : Nat) (result : Int) (s : σ) : σ :=
  d.move off result.toNat
    { d.kernel s with log := (d.kernel s).log ++ [(len % 2 ^ 32, result)] } s

theorem Device.op_eq {off len : Nat} {result : Int} {s : σ}
    (h : ((d.kernel s).outs (d.kernel s).log.length).result (len % 2 ^ 32) = result) :
    d.op off len s = (awaitResume result, d.after off len result s) := by
  subst h
  rfl

theorem Device.op_nat {off len n : Nat} {s : σ}
    (h : ((d.kernel s).outs (d.kernel s).log.length).result (len % 2 ^ 32) = (n : Int)) :
    d.op off len s = (.ok n, d.after off len n s) := d.op_eq h

theorem Device.after_log (off len : Nat) (result : Int) (s : σ) :
    (d.kernel (d.after off len result s)).log =
      (d.kernel s).log ++ [(len % 2 ^ 32, result)] := by
  rw [after, d.kernel_move]

theorem Device.after_length (off len : Nat) (result : Int) (s : σ) :
    (d.kernel (d.after off len result s)).log.length = (d.kernel s).log.length + 1 := by
  rw [d.after_log, List.length_append, List.length_singleton]

theorem Device.after_outs (off len : Nat) (result : Int) (s : σ) :
    (d.kernel (d.after off len result s)).outs = (d.kernel s).outs := by
  rw [after, d.kernel_move]

theorem transfer_empty (off : Nat) (s : σ) : transfer zero d off 0 s = (.ok (), s) := by
  rw [transfer, if_pos rfl]

theorem transfer_error {off len : Nat} {s s' : σ} {e : Error} (hlen : 0 < len)
    (h : d.op off len s = (.error e, s')) : transfer zero d off len s = (.error e, s') := by
  rw [transfer, if_neg (by omega), h]

theorem transfer_zero {off len : Nat} {s s' : σ} (hlen : 0 < len)
    (h : d.op off len s = (.ok 0, s')) : transfer zero d off len s = (.error zero, s') := by
  rw [transfer, if_neg (by omega), h]
  exact if_pos rfl

theorem transfer_ok {off len n : Nat} {s s' : σ} (hlen : 0 < len) (hn : 0 < n)
    (h : d.op off len s = (.ok n, s')) :
    transfer zero d off len s = transfer zero d (off + n) (len - n) s' := by
  rw [transfer, if_neg (by omega), h]
  exact if_neg (by omega)

/-- A request for nothing. -/
theorem transfer_multiple {off len : Nat} (hlen : 0 < len) (hrem : len % 2 ^ 32 = 0) (s : σ) :
    transfer zero d off len s = (.error zero, d.after off len 0 s) := by
  refine transfer_zero hlen (d.op_nat (n := 0) ?_)
  rw [hrem]
  exact if_pos rfl

/-- **The loop.**  `P off` holds of the device when `off` bytes have been moved. -/
theorem transfer_ended (hzero : 4095 < zero.errorCode)
    (hmove : ∀ off n k s, off + n ≤ total → P off s → P (off + n) (d.move off n k s))
    {len off : Nat} {s : σ} (hlen : off + len = total) (hat : P off s)
    (hclean : Clean (d.kernel s).log) :
    (d.kernel (transfer zero d off len s).2).log.length ≤ (d.kernel s).log.length + len ∧
    Ended zero len (fun i => (d.kernel s).outs ((d.kernel s).log.length + i))
      (P total (transfer zero d off len s).2)
      (d.kernel (transfer zero d off len s).2).log (transfer zero d off len s).1 := by
  induction len using Nat.strong_induction_on generalizing off s with
  | _ len ih =>
    by_cases h0 : len = 0
    · subst h0
      rw [transfer_empty]
      refine ⟨Nat.le_refl _, .ok (failsFirst_zero _) (by decide) ?_⟩
      rwa [← hlen, Nat.add_zero]
    have hpos : 0 < len := Nat.pos_of_ne_zero h0
    by_cases hrem : len % 2 ^ 32 = 0
    · rw [transfer_multiple hpos hrem, d.after_length, d.after_log]
      refine ⟨by omega, .spurious ?_ (by omega) (hclean.append fun h => ?_)⟩
      · rw [hrem]
        exact failsFirst_zero _
      · rw [hrem] at h
        exact absurd h (lt_irrefl 0)
    have hrpos : 0 < len % 2 ^ 32 := Nat.pos_of_ne_zero hrem
    by_cases hm : ((d.kernel s).outs (d.kernel s).log.length).Moves
    · obtain ⟨n, hn, heq, hresult⟩ := hm.result_eq hrpos
      have hfails := failsFirst_succ hm heq
      have hrest : (len - n) % 2 ^ 32 = len % 2 ^ 32 - n := by omega
      rw [transfer_ok hpos hn (d.op_nat hresult)]
      obtain ⟨hle, hend⟩ := ih (len - n) (by omega) (s := d.after off len n s)
        (show off + n + (len - n) = total by omega) (hmove off n _ s (by omega) hat)
        (by rw [d.after_log]; exact hclean.append fun _ => Int.natCast_pos.2 hn)
      rw [d.after_length] at hle
      refine ⟨by omega, ?_⟩
      rw [d.after_outs, d.after_length] at hend
      generalize transfer zero d (off + n) (len - n) (d.after off len n s) = out at hend ⊢
      generalize hret : out.1 = ret at hend
      cases hend with
      | failed h hne hzero' => exact .failed (hfails.2 (hrest ▸ h)) hne hzero'
      | ok h hlt hdone => exact .ok (fun hf => h (hrest ▸ hfails.1 hf)) (by omega) hdone
      | spurious h hge hc => exact .spurious (fun hf => h (hrest ▸ hfails.1 hf)) (by omega) hc
    · have hfails : FailsFirst (fun i => (d.kernel s).outs ((d.kernel s).log.length + i))
          (len % 2 ^ 32) := ⟨0, hm, hrpos⟩
      rcases Outcome.result_of_not_moves hm hrpos with hresult | ⟨errno, hresult⟩
      · rw [transfer_zero hpos (d.op_nat (n := 0) hresult), d.after_length, d.after_log]
        refine ⟨by omega, .failed hfails nofun fun _ => ⟨len % 2 ^ 32, hrpos, ?_⟩⟩
        exact List.mem_append_right _ List.mem_cons_self
      · have hop : d.op off len s = _ := d.op_eq hresult
        rw [awaitResume_errno] at hop
        rw [transfer_error hpos hop, d.after_length]
        refine ⟨by omega, .failed hfails nofun fun he => ?_⟩
        have hle := errno.le
        cases he
        have hlt : 4095 < (errno.code : Int) := hzero
        omega

/-- **A call is handled if and only if** its span is shorter than `2^32` or the
kernel fails first. -/
theorem handled_iff (hzero : 4095 < zero.errorCode)
    (hmove : ∀ off n k s, off + n ≤ total → P off s → P (off + n) (d.move off n k s))
    {s : σ} (hat : P 0 s) (hlog : (d.kernel s).log = []) {Q : σ → Prop}
    (hdone : ∀ s, P total s → Q s) :
    Handled zero total (d.kernel s).outs (Q (transfer zero d 0 total s).2)
      (transfer zero d 0 total s).1 (d.kernel (transfer zero d 0 total s).2).log ↔
    total < 2 ^ 32 ∨ FailsFirst (d.kernel s).outs (total % 2 ^ 32) := by
  have hclean : Clean (d.kernel s).log := by
    rw [hlog]
    exact fun p hp => absurd hp List.not_mem_nil
  obtain ⟨hends, hend⟩ := transfer_ended hzero hmove (Nat.zero_add total) hat hclean
  simp only [hlog, List.length_nil, Nat.zero_add] at hends hend
  generalize hret : (transfer zero d 0 total s).1 = ret at hend ⊢
  cases hend with
  | failed h hne hz =>
    refine ⟨fun _ => Or.inr h, fun _ => ⟨hends, fun hm => ?_, fun he => absurd he hne, hz⟩⟩
    obtain ⟨k, hk, -⟩ := h
    exact absurd (hm k) hk
  | ok h hlt hd =>
    exact ⟨fun _ => Or.inl hlt,
      fun _ => ⟨hends, fun _ => ⟨rfl, hdone _ hd⟩, fun _ => hdone _ hd, nofun⟩⟩
  | spurious h hge hc =>
    constructor
    · intro hh
      obtain ⟨n, hn, hmem⟩ := hh.zero rfl
      exact absurd (hc _ hmem hn) (lt_irrefl _)
    · rintro (hlt | hf)
      · omega
      · exact absurd hf h

end Loop

/-! ## Top theorems -/

/-- What the sink has received. -/
def Sink.At (buf : List UInt8) (off : Nat) (s : Sink) : Prop := s.received = buf.take off

theorem Sink.at_move {buf : List UInt8} (off n : Nat) (k : Kernel) (s : Sink)
    (_ : off + n ≤ buf.length) (h : s.At buf off) :
    ((Sink.device buf).move off n k s).At buf (off + n) := by
  show s.received ++ (buf.drop off).take n = buf.take (off + n)
  rw [h, List.take_add]

/-- The first bytes of the input, and the rest of the span as it was. -/
def Source.At (input : Nat → UInt8) (span : List UInt8) (off : Nat) (s : Source) : Prop :=
  s.input = input ∧ s.pos = off ∧ s.span = (List.range off).map input ++ span.drop off

theorem Source.at_move {input : Nat → UInt8} {span : List UInt8} (off n : Nat) (k : Kernel)
    (s : Source) (_ : off + n ≤ span.length) (h : s.At input span off) :
    (Source.device.move off n k s).At input span (off + n) := by
  obtain ⟨rfl, rfl, hspan⟩ := h
  refine ⟨rfl, rfl, ?_⟩
  show s.span.take s.pos ++ s.next n ++ s.span.drop (s.pos + n) = _
  have hlen : ((List.range s.pos).map s.input).length = s.pos := by simp
  rw [hspan, List.take_left' hlen, List.range_add, List.map_append, List.map_map,
    show s.pos + n = ((List.range s.pos).map s.input).length + n by rw [hlen],
    List.drop_length_add_append, List.drop_drop, hlen]
  rfl

/-- **Every length.**  `write_all` and `read_exact` keep their word on a span, for
the outcomes that come, if and only if it is shorter than `2^32` bytes or the
kernel fails before it has moved its length modulo `2^32`. -/
theorem transfer_all_iff (outs : Nat → Outcome) (input : Nat → UInt8) (buf span : List UInt8) :
    (Handled .kWriteZero buf.length outs ((writeAll outs buf).2.received = buf)
        (writeAll outs buf).1 (writeAll outs buf).2.kernel.log ↔
      buf.length < 2 ^ 32 ∨ FailsFirst outs (buf.length % 2 ^ 32)) ∧
    (Handled .kEarlyEOF span.length outs
        ((readExact outs input span).2.span = (List.range span.length).map input)
        (readExact outs input span).1 (readExact outs input span).2.kernel.log ↔
      span.length < 2 ^ 32 ∨ FailsFirst outs (span.length % 2 ^ 32)) := by
  constructor
  · refine handled_iff (d := Sink.device buf) (P := Sink.At buf) (s := ⟨{ outs }, []⟩)
      (Q := fun s => s.received = buf) (by decide) Sink.at_move rfl rfl fun s h => ?_
    have h : s.received = buf.take buf.length := h
    rwa [List.take_length] at h
  · refine handled_iff (d := Source.device) (P := Source.At input span)
      (s := ⟨{ outs }, input, 0, span⟩)
      (Q := fun s => s.span = (List.range span.length).map input) (by decide)
      Source.at_move ⟨rfl, rfl, rfl⟩ rfl fun s h => ?_
    obtain ⟨-, -, h⟩ := h
    rwa [List.drop_length, List.append_nil] at h

/-- 4 GiB, and a kernel that moves all it is asked to: the first request of
either call is for nothing, and the call fails. -/
theorem transfer_four_gib :
    let buf : List UInt8 := List.replicate (2 ^ 32) 0
    (∀ i, ((fun _ => .moved intMax : Nat → Outcome) i).Moves) ∧
    writeAll (fun _ => .moved intMax) buf =
      (.error .kWriteZero, ⟨⟨fun _ => .moved intMax, [(0, 0)]⟩, []⟩) ∧
    (readExact (fun _ => .moved intMax) (fun _ => 1) buf).1 = .error .kEarlyEOF ∧
    (readExact (fun _ => .moved intMax) (fun _ => 1) buf).2.kernel.log = [(0, 0)] := by
  intro buf
  have hlen : buf.length = 2 ^ 32 := List.length_replicate
  refine ⟨fun _ => show 0 < intMax by decide, ?_, ?_, ?_⟩
  · rw [writeAll, hlen, transfer_multiple (by decide) (by decide)]
    rfl
  · rw [readExact, hlen, transfer_multiple (by decide) (by decide)]
  · rw [readExact, hlen, transfer_multiple (by decide) (by decide)]
    rfl

end Kosio.Transfer
