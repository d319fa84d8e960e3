import Kosio.Io.Transfer

/-!
# `File::read_to_end`

The buffer grows by `stx_size` less the offset, in 64 bits, and what was added
is read into until it is full or a read gives 0.  The file hands over `rest`, in
pieces of any size, and then its end; how that compares with `stx_size` is not
looked at.  And a read asks for the length of the span modulo `2^32`, so only that
many bytes are read.  So the buffer ends as it should if and only if the file has
exactly the bytes that `stx_size` and the offset say, and fewer than `2^32` of
them (`readToEnd_iff`).

The container can grow to any length.
-/

namespace Kosio.Fs

open Transfer

/-! ## Algorithm -/

structure File where
  /-- `stx_size`, if `metadata` succeeds -/
  metadata : Result (BitVec 64)
  /-- `lseek64(fd_, 0, SEEK_CUR)` -/
  offset : BitVec 64
  /-- what reads hand over up to the end of the file -/
  rest : List UInt8
  /-- what comes of each read -/
  outs : Nat → Outcome

/-- How many bytes a read is good for; one that brings nothing is at the end. -/
def size : Outcome → Nat
  | .moved n => min (max n 1) intMax
  | .failed _ => 0

/-- `result_` of a read of `len` bytes with `rest` bytes before the end of the file. -/
def readResult (len rest : Nat) (o : Outcome) : Int :=
  if len = 0 then 0
  else
    match o with
    | .moved n => (min (size (.moved n)) (min len rest) : Nat)
    | .failed errno => -errno.code

/-- The `while (true)`, from read `i` on: the result, the span, and what the reads
have delivered. -/
def readLoop (outs : Nat → Outcome) (i : Nat) (rest span : List UInt8) :
    Result Unit × List UInt8 × List UInt8 :=
  match awaitResume (readResult (span.length % 2 ^ 32) rest.length (outs i)) with
  | .error e => (.error e, span, [])
  | .ok n =>
    if n = 0 then (.ok (), span, [])
    else if _ : span.drop n = [] then (.ok (), rest.take n, rest.take n)
    else
      let (ret, more, delivered) := readLoop outs (i + 1) (rest.drop n) (span.drop n)
      (ret, rest.take n ++ more, rest.take n ++ delivered)
termination_by span.length
decreasing_by
  have := List.length_pos_of_ne_nil ‹_›
  rw [List.length_drop] at this ⊢
  omega

/-- `buf.resize(n)` -/
def resize (buf : List UInt8) (n : Nat) : List UInt8 :=
  buf.take n ++ List.replicate (n - buf.length) 0

inductive Out where
  /-- with the bytes that the reads have delivered -/
  | returned (ret : Result Unit) (buf delivered : List UInt8)
  /-- a subspan that starts behind the end -/
  | undefined

def File.readToEnd (file : File) (buf : List UInt8) : Out :=
  let oldLen := buf.length
  match file.metadata with
  | .error e => .returned (.error e) buf []
  | .ok stxSize =>
    let buf := resize buf (BitVec.ofNat 64 oldLen + stxSize - file.offset).toNat
    if buf.length < oldLen then .undefined
    else
      let (ret, span, delivered) := readLoop file.outs 0 file.rest (buf.drop oldLen)
      .returned ret (buf.take oldLen ++ span) delivered

/-! ## Specification -/

/-- The size is computed without wrapping around, and after a success what the reads
have delivered is behind what was there, and is the rest of the file. -/
structure Appends (file : File) (buf : List UInt8) : Prop where
  size : ∀ stxSize, file.metadata = .ok stxSize →
    buf.length + stxSize.toNat < 2 ^ 64 ∧ file.offset.toNat ≤ buf.length + stxSize.toNat
  rest : ∃ ret buf' delivered, file.readToEnd buf = .returned ret buf' delivered ∧
    (ret = .ok () → buf' = buf ++ delivered ∧ delivered = file.rest)

/-- A read fails before the end of the file has been met and `room` bytes have been read. -/
def FailsFirst (outs : Nat → Outcome) (rest room : Nat) : Prop :=
  ∃ k, (∃ errno, outs k = .failed errno) ∧
    (∀ j < k, ∑ i ∈ Finset.range j, size (outs i) < rest) ∧
    min (∑ i ∈ Finset.range k, size (outs i)) rest < room

/-- `metadata` fails, or the offset is inside the file and a read fails or the
file is as long as it says, in 32 bits. -/
def Measured (file : File) (buf : List UInt8) : Prop :=
  (∃ e, file.metadata = .error e) ∨
  ∃ stxSize, file.metadata = .ok stxSize ∧ buf.length + stxSize.toNat < 2 ^ 64 ∧
    file.offset.toNat ≤ stxSize.toNat ∧
    (FailsFirst file.outs file.rest.length ((stxSize.toNat - file.offset.toNat) % 2 ^ 32) ∨
      file.rest.length = stxSize.toNat - file.offset.toNat ∧ file.rest.length < 2 ^ 32)

/-! ## Lemmas -/

theorem not_failsFirst_of_room {outs : Nat → Outcome} {rest : Nat} :
    ¬ FailsFirst outs rest 0 := by
  rintro ⟨k, -, -, hlt⟩
  omega

/-- At the end of the file a read brings nothing. -/
theorem not_failsFirst_of_end {outs : Nat → Outcome} {room n : Nat} (h : outs 0 = .moved n) :
    ¬ FailsFirst outs 0 room := by
  rintro ⟨k, ⟨errno, hk⟩, hend, -⟩
  cases k with
  | zero =>
    rw [h] at hk
    cases hk
  | succ k => exact absurd (hend 0 (Nat.succ_pos k)) (Nat.not_lt_zero _)

/-- After a read of `m` bytes. -/
theorem failsFirst_succ {outs : Nat → Outcome} {i n m rest room : Nat} (h : outs i = .moved n)
    (hrest : 0 < rest) (hm : m = min (size (outs i)) (min room rest)) :
    FailsFirst (fun j => outs (i + j)) rest room ↔
      FailsFirst (fun j => outs (i + 1 + j)) (rest - m) (room - m) := by
  have hshift : ∀ j, i + 1 + j = i + (j + 1) := fun j => by omega
  have hsum : ∀ k, ∑ j ∈ Finset.range (k + 1), size (outs (i + j)) =
      ∑ j ∈ Finset.range k, size (outs (i + (j + 1))) + size (outs i) := by
    intro k
    rw [Finset.sum_range_succ', Nat.add_zero]
  simp only [FailsFirst, hshift]
  constructor
  · rintro ⟨k, ⟨errno, hk⟩, hend, hlt⟩
    cases k with
    | zero =>
      rw [Nat.add_zero, h] at hk
      cases hk
    | succ k =>
      rw [hsum] at hlt
      refine ⟨k, ⟨errno, hk⟩, fun j hj => ?_, by omega⟩
      have := hend (j + 1) (by omega)
      rw [hsum] at this
      omega
  · rintro ⟨k, hk, hend, hlt⟩
    refine ⟨k + 1, hk, fun j hj => ?_, ?_⟩
    · cases j with
      | zero => exact hrest
      | succ j =>
        have := hend j (by omega)
        rw [hsum]
        omega
    · rw [hsum]
      omega

/-! ## The loop -/

section Loop

variable {outs : Nat → Outcome} {i : Nat} {rest span : List UInt8}

theorem readLoop_zero (h : readResult (span.length % 2 ^ 32) rest.length (outs i) = 0) :
    readLoop outs i rest span = (.ok (), span, []) := by
  rw [readLoop, h]
  rfl

theorem readLoop_error {errno : Errno}
    (h : readResult (span.length % 2 ^ 32) rest.length (outs i) = -errno.code) :
    readLoop outs i rest span = (.error ⟨errno.code⟩, span, []) := by
  rw [readLoop, h, awaitResume_errno]

theorem readLoop_full {m : Nat} (hm : 0 < m)
    (h : readResult (span.length % 2 ^ 32) rest.length (outs i) = (m : Int))
    (hfull : span.length ≤ m) :
    readLoop outs i rest span = (.ok (), rest.take m, rest.take m) := by
  rw [readLoop, h, awaitResume_nat]
  dsimp only
  rw [if_neg (by omega), dif_pos (List.drop_of_length_le hfull)]

theorem readLoop_next {m : Nat} (hm : 0 < m)
    (h : readResult (span.length % 2 ^ 32) rest.length (outs i) = (m : Int))
    (hlt : m < span.length) : readLoop outs i rest span =
      ((readLoop outs (i + 1) (rest.drop m) (span.drop m)).1,
        rest.take m ++ (readLoop outs (i + 1) (rest.drop m) (span.drop m)).2.1,
        rest.take m ++ (readLoop outs (i + 1) (rest.drop m) (span.drop m)).2.2) := by
  have hne : span.drop m ≠ [] := by
    intro he
    have := congrArg List.length he
    rw [List.length_drop, List.length_nil] at this
    omega
  rw [readLoop, h, awaitResume_nat]
  dsimp only
  rw [if_neg (by omega), dif_neg hne]

theorem readResult_moved {len rest n : Nat} (h : 0 < len) :
    readResult len rest (.moved n) = (min (size (.moved n)) (min len rest) : Nat) := by
  rw [readResult, if_neg (by omega)]

theorem size_pos (n : Nat) : 0 < size (.moved n) := by
  have : 0 < intMax := by decide
  show 0 < min (max n 1) intMax
  omega

/-- **The loop.**  An error comes first, or the span is filled from the rest of
the file, up to its length modulo `2^32`. -/
theorem readLoop_spec (outs : Nat → Outcome) (len : Nat) :
    ∀ (i : Nat) (rest span : List UInt8), span.length = len →
    (FailsFirst (fun j => outs (i + j)) rest.length (len % 2 ^ 32) ∧
      ∃ e, (readLoop outs i rest span).1 = .error e) ∨
    (¬ FailsFirst (fun j => outs (i + j)) rest.length (len % 2 ^ 32) ∧
      readLoop outs i rest span =
        (.ok (), rest.take (len % 2 ^ 32) ++ span.drop (min rest.length (len % 2 ^ 32)),
          rest.take (len % 2 ^ 32))) := by
  induction len using Nat.strong_induction_on with
  | _ len ih =>
    intro i rest span hlen
    by_cases hroom : len % 2 ^ 32 = 0
    · right
      rw [hroom]
      refine ⟨not_failsFirst_of_room, ?_⟩
      rw [readLoop_zero (by rw [hlen, hroom]; rfl), Nat.min_zero, List.take_zero, List.drop_zero,
        List.nil_append]
    have hpos : 0 < len % 2 ^ 32 := Nat.pos_of_ne_zero hroom
    cases ho : outs i with
    | failed errno =>
      left
      refine ⟨⟨0, ⟨errno, ho⟩, fun j hj => absurd hj (Nat.not_lt_zero j), ?_⟩, ⟨errno.code⟩, ?_⟩
      · rw [Finset.sum_range_zero]
        omega
      · rw [readLoop_error]
        rw [hlen, ho, readResult, if_neg hroom]
    | moved n =>
      have hresult : readResult (span.length % 2 ^ 32) rest.length (outs i) =
          (min (size (outs i)) (min (len % 2 ^ 32) rest.length) : Nat) := by
        rw [hlen, ho, readResult_moved hpos]
      generalize hm : min (size (outs i)) (min (len % 2 ^ 32) rest.length) = m at hresult
      have hsize : 0 < size (outs i) := ho ▸ size_pos n
      by_cases hend : rest.length = 0
      · right
        have hm0 : m = 0 := by omega
        rw [hm0] at hresult
        rw [readLoop_zero hresult, hend, List.length_eq_zero_iff.1 hend, Nat.zero_min,
          List.take_nil, List.drop_zero, List.nil_append]
        exact ⟨not_failsFirst_of_end ho, rfl⟩
      · have hfails := failsFirst_succ ho (Nat.pos_of_ne_zero hend) hm.symm
        rw [hfails]
        have hmpos : 0 < m := by omega
        by_cases hfull : len ≤ m
        · -- the span is full
          right
          have hmr : len % 2 ^ 32 = m := by omega
          rw [readLoop_full hmpos hresult (by omega), hmr, Nat.sub_self,
            Nat.min_eq_right (by omega), List.drop_of_length_le (by omega), List.append_nil]
          exact ⟨not_failsFirst_of_room, rfl⟩
        · have hmod : (len - m) % 2 ^ 32 = len % 2 ^ 32 - m := by omega
          have hih := ih (len - m) (by omega) (i + 1) (rest.drop m) (span.drop m)
            (by rw [List.length_drop, hlen])
          rw [List.length_drop, hmod] at hih
          rw [readLoop_next hmpos hresult (by omega)]
          rcases hih with ⟨hf, he⟩ | ⟨hf, heq⟩
          · exact Or.inl ⟨hf, he⟩
          · right
            refine ⟨hf, ?_⟩
            have htake : rest.take m ++ (rest.drop m).take (len % 2 ^ 32 - m) =
                rest.take (len % 2 ^ 32) := by
              rw [← List.take_add]
              congr 1
              omega
            rw [heq, ← List.append_assoc, htake, List.drop_drop]
            congr 5
            omega

end Loop

/-! ## Top theorem -/

/-- Nothing is padded and nothing is missing if and only if the span is as long as the rest
of the file, in 32 bits. -/
theorem filled_iff (rest : List UInt8) (len : Nat) :
    (List.replicate len (0 : UInt8)).drop (min rest.length (len % 2 ^ 32)) = [] ∧
      rest.take (len % 2 ^ 32) = rest ↔ rest.length = len ∧ rest.length < 2 ^ 32 := by
  rw [List.drop_eq_nil_iff, List.length_replicate, List.take_eq_self_iff]
  omega

theorem length_resize (buf : List UInt8) (n : Nat) : (resize buf n).length = n := by
  rw [resize, List.length_append, List.length_take, List.length_replicate]
  omega

theorem resize_eq {buf : List UInt8} {n : Nat} (h : buf.length ≤ n) :
    resize buf n = buf ++ List.replicate (n - buf.length) 0 := by
  rw [resize, List.take_of_length_le h]

section Size

variable {file : File} {buf : List UInt8} {stxSize : BitVec 64}

/-- The new size, where it does not wrap around. -/
theorem newSize_toNat (h1 : buf.length + stxSize.toNat < 2 ^ 64)
    (h2 : file.offset.toNat ≤ buf.length + stxSize.toNat) :
    (BitVec.ofNat 64 buf.length + stxSize - file.offset).toNat =
      buf.length + stxSize.toNat - file.offset.toNat := by
  rw [BitVec.toNat_sub, BitVec.toNat_add, BitVec.toNat_ofNat]
  omega

theorem readToEnd_undefined (hmeta : file.metadata = .ok stxSize)
    (h1 : buf.length + stxSize.toNat < 2 ^ 64)
    (h2 : file.offset.toNat ≤ buf.length + stxSize.toNat) (h : stxSize.toNat < file.offset.toNat) :
    file.readToEnd buf = .undefined := by
  rw [File.readToEnd, hmeta]
  dsimp only
  rw [newSize_toNat h1 h2, length_resize, if_pos (by omega)]

theorem readToEnd_eq (hmeta : file.metadata = .ok stxSize)
    (h1 : buf.length + stxSize.toNat < 2 ^ 64) (h : file.offset.toNat ≤ stxSize.toNat) {len : Nat}
    (hlen : stxSize.toNat - file.offset.toNat = len) :
    file.readToEnd buf = .returned (readLoop file.outs 0 file.rest (List.replicate len 0)).1
      (buf ++ (readLoop file.outs 0 file.rest (List.replicate len 0)).2.1)
      (readLoop file.outs 0 file.rest (List.replicate len 0)).2.2 := by
  have hsub : buf.length + stxSize.toNat - file.offset.toNat - buf.length = len := by omega
  rw [File.readToEnd, hmeta]
  dsimp only
  rw [newSize_toNat h1 (by omega), length_resize, if_neg (by omega), resize_eq (by omega),
    List.drop_left, List.take_left, hsub]

end Size

/-- **`read_to_end` appends the rest of the file** if and only if the file is as
long as `stx_size` and the offset say, in 32 bits, or fails: for every buffer, every
offset, every file and every sequence of short reads. -/
theorem readToEnd_iff (file : File) (buf : List UInt8) : Appends file buf ↔ Measured file buf := by
  cases hmeta : file.metadata with
  | error e =>
    refine iff_of_true ⟨fun stxSize h => ?_, .error e, buf, [], ?_, nofun⟩ (Or.inl ⟨e, hmeta⟩)
    · rw [hmeta] at h
      cases h
    · rw [File.readToEnd, hmeta]
  | ok stxSize =>
    generalize hspan : stxSize.toNat - file.offset.toNat = len
    have hloop := readLoop_spec file.outs len 0 file.rest (List.replicate len 0)
      List.length_replicate
    simp only [Nat.zero_add] at hloop
    constructor
    · rintro ⟨hsize, ret, buf', delivered, hr, hrest⟩
      obtain ⟨h1, h2⟩ := hsize stxSize hmeta
      by_cases h : file.offset.toNat ≤ stxSize.toNat
      · rw [readToEnd_eq hmeta h1 h hspan] at hr
        refine Or.inr ⟨stxSize, hmeta, h1, h, ?_⟩
        rw [hspan]
        rcases hloop with ⟨hf, -⟩ | ⟨-, heq⟩
        · exact Or.inl hf
        · rw [heq] at hr
          cases hr
          obtain ⟨happ, hall⟩ := hrest rfl
          exact Or.inr ((filled_iff _ _).1
            ⟨List.append_right_eq_self.1 (List.append_cancel_left happ), hall⟩)
      · rw [readToEnd_undefined hmeta h1 h2 (by omega)] at hr
        cases hr
    · rintro (⟨e, he⟩ | ⟨_, he, h1, h, hcase⟩)
      · rw [hmeta] at he
        cases he
      rw [hmeta] at he
      cases he
      rw [hspan] at hcase
      refine ⟨fun stxSize' he => ?_, _, _, _, readToEnd_eq hmeta h1 h hspan, fun hok => ?_⟩
      · rw [hmeta] at he
        cases he
        exact ⟨h1, by omega⟩
      · rcases hloop with ⟨-, e, he⟩ | ⟨hnf, heq⟩
        · rw [he] at hok
          cases hok
        · obtain ⟨hpad, hall⟩ := (filled_iff _ _).2 (hcase.resolve_left hnf)
          rw [heq]
          exact ⟨by rw [hpad, List.append_nil], hall⟩

/-- A procfs file of three bytes, of which `stx_size` says nothing. -/
def procfs : File := ⟨.ok 0, 0, [49, 50, 10], fun _ => .moved 3⟩

/-- A file of four bytes that has lost two since `metadata`. -/
def truncated : File := ⟨.ok 4, 0, [65, 66], fun _ => .moved 4⟩

/-- A file of four bytes whose offset is 6. -/
def beyond : File := ⟨.ok 4, 6, [], fun _ => .moved 4⟩

/-- Of the first nothing is read, the second is padded with zeros, and behind the
end the span is not one of the buffer, or the size wraps around. -/
theorem readToEnd_lost :
    procfs.readToEnd [7] = .returned (.ok ()) [7] [] ∧ ¬ Appends procfs [7] ∧
    truncated.readToEnd [7] = .returned (.ok ()) [7, 65, 66, 0, 0] [65, 66] ∧
    ¬ Appends truncated [7] ∧
    beyond.readToEnd [7, 8] = .undefined ∧ ¬ Appends beyond [7, 8] ∧ ¬ Appends beyond [] := by
  have hprocfs : procfs.readToEnd [7] = .returned (.ok ()) [7] [] := by
    refine (readToEnd_eq rfl (by decide) (by decide) rfl).trans ?_
    rw [readLoop_zero rfl]
    rfl
  have htruncated : truncated.readToEnd [7] = .returned (.ok ()) [7, 65, 66, 0, 0] [65, 66] := by
    have hlast : readLoop truncated.outs 1 [] [0, 0] = (.ok (), [0, 0], []) := readLoop_zero rfl
    have hnext : readLoop truncated.outs 0 truncated.rest (List.replicate 4 0) =
        ((readLoop truncated.outs 1 [] [0, 0]).1,
          [65, 66] ++ (readLoop truncated.outs 1 [] [0, 0]).2.1,
          [65, 66] ++ (readLoop truncated.outs 1 [] [0, 0]).2.2) :=
      readLoop_next (m := 2) (by decide) rfl (by decide)
    refine (readToEnd_eq rfl (by decide) (by decide) (show _ = 4 from rfl)).trans ?_
    rw [hnext, hlast]
    rfl
  have hbeyond : beyond.readToEnd [7, 8] = .undefined :=
    readToEnd_undefined rfl (by decide) (by decide) (by decide)
  refine ⟨hprocfs, fun h => ?_, htruncated, fun h => ?_, hbeyond, fun h => ?_, fun h => ?_⟩
  · obtain ⟨-, ret, buf', delivered, hr, hrest⟩ := h
    rw [hprocfs] at hr
    cases hr
    exact absurd (hrest rfl).2 (by decide)
  · obtain ⟨-, ret, buf', delivered, hr, hrest⟩ := h
    rw [htruncated] at hr
    cases hr
    exact absurd (hrest rfl).1 (by decide)
  · obtain ⟨-, ret, buf', delivered, hr, -⟩ := h
    rw [hbeyond] at hr
    cases hr
  · exact absurd (h.size 4 rfl).2 (by decide)

end Kosio.Fs
