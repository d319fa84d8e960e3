import Mathlib.Data.List.Basic

/-!
# `StreamBuffer`: the byte buffer behind `BufReader` and `BufWriter`

`buf` is the vector (its size never changes), `rPos` and `wPos` the two
positions.  The readable bytes are `rSlice = buf[rPos, wPos)`, the writable
room is `buf[wPos, size)`.  Each operation has one lemma that says what it does
to `rSlice`; everything later is said about `rSlice` only.
-/

namespace Kosio

/-- `std::copy_n` of `src` into `dst` from position `i` on. -/
def overwrite {α : Type*} (dst : List α) (i : Nat) (src : List α) : List α :=
  dst.take i ++ src ++ dst.drop (i + src.length)

theorem overwrite_length {α : Type*} (dst src : List α) (i : Nat)
    (h : i + src.length ≤ dst.length) : (overwrite dst i src).length = dst.length := by
  simp only [overwrite, List.length_append, List.length_take, List.length_drop]
  omega

structure StreamBuffer where
  buf : List UInt8
  rPos : Nat
  wPos : Nat
deriving DecidableEq, Repr

namespace StreamBuffer

/-! ## Algorithm -/

/-- `StreamBuffer(size)`: a zeroed vector, both positions at the front. -/
def make (size : Nat) : StreamBuffer := ⟨List.replicate size 0, 0, 0⟩

def rRemaining (s : StreamBuffer) : Nat := s.wPos - s.rPos

def wRemaining (s : StreamBuffer) : Nat := s.buf.length - s.wPos

def capacity (s : StreamBuffer) : Nat := s.buf.length

def empty (s : StreamBuffer) : Bool := s.rPos == s.wPos

def rSlice (s : StreamBuffer) : List UInt8 := (s.buf.drop s.rPos).take s.rRemaining

/-- Move the readable bytes to the front of the vector. -/
def resetData (s : StreamBuffer) : StreamBuffer :=
  ⟨overwrite s.buf 0 s.rSlice, 0, s.rRemaining⟩

def resetPos (s : StreamBuffer) : StreamBuffer := { s with rPos := 0, wPos := 0 }

def rIncrease (s : StreamBuffer) (n : Nat) : StreamBuffer := { s with rPos := s.rPos + n }

/-- Someone else wrote `bs` at `w_begin()`: the kernel, or `read_from`'s copy. -/
def wFill (s : StreamBuffer) (bs : List UInt8) : StreamBuffer :=
  { s with buf := overwrite s.buf s.wPos bs }

def wIncrease (s : StreamBuffer) (n : Nat) : StreamBuffer := { s with wPos := s.wPos + n }

/-- Copy readable bytes to the front of `dst`: how many, the new `dst`, the new stream. -/
def writeTo (s : StreamBuffer) (dst : List UInt8) : Nat × List UInt8 × StreamBuffer :=
  let len := min s.rRemaining dst.length
  let dst := overwrite dst 0 (s.rSlice.take len)
  let s := s.rIncrease len
  (len, dst, if s.rPos = s.wPos then s.resetPos else s)

def readFrom (s : StreamBuffer) (src : List UInt8) : Nat × StreamBuffer :=
  let len := min s.wRemaining src.length
  (len, (s.wFill (src.take len)).wIncrease len)

/-- `std::string_view::find`: the first position `flag` occurs at. -/
def find (flag : List UInt8) : List UInt8 → Option Nat
  | [] => if flag = [] then some 0 else none
  | b :: bs => if flag.isPrefixOf (b :: bs) then some 0 else (find flag bs).map (· + 1)

/-- The readable bytes up to and including the first `flag`, empty when it does
not occur.  The overload for a single `char` is the one-byte flag. -/
def findFlagAndReturnSlice (s : StreamBuffer) (flag : List UInt8) : List UInt8 :=
  match find flag s.rSlice with
  | none => []
  | some pos => s.rSlice.take (pos + flag.length)

/-! ## Lemmas -/

/-- The positions are in order and inside the vector. -/
structure Wf (s : StreamBuffer) : Prop where
  r_le_w : s.rPos ≤ s.wPos
  w_le : s.wPos ≤ s.buf.length

theorem make_wf (size : Nat) : (make size).Wf := ⟨Nat.le_refl 0, Nat.zero_le _⟩

@[simp] theorem make_rSlice (size : Nat) : (make size).rSlice = [] := by
  simp [make, rSlice, rRemaining]

variable {s : StreamBuffer}

theorem Wf.rSlice_length (h : s.Wf) : s.rSlice.length = s.rRemaining := by
  have := h.r_le_w
  have := h.w_le
  simp only [rSlice, rRemaining, List.length_take, List.length_drop]
  omega

theorem Wf.rRemaining_le (h : s.Wf) : s.rRemaining ≤ s.capacity := by
  have := h.w_le
  simp only [rRemaining, capacity]
  omega

theorem Wf.empty_iff (h : s.Wf) : s.empty = true ↔ s.rSlice = [] := by
  rw [← List.length_eq_zero_iff, h.rSlice_length]
  have := h.r_le_w
  simp only [empty, beq_iff_eq, rRemaining]
  omega

theorem resetPos_wf (s : StreamBuffer) : s.resetPos.Wf := ⟨Nat.le_refl 0, Nat.zero_le _⟩

@[simp] theorem resetPos_rSlice (s : StreamBuffer) : s.resetPos.rSlice = [] := by
  simp [resetPos, rSlice, rRemaining]

theorem Wf.resetData (h : s.Wf) : s.resetData.Wf := by
  have hb : (overwrite s.buf 0 s.rSlice).length = s.buf.length :=
    overwrite_length _ _ _ (by rw [h.rSlice_length, Nat.zero_add]; exact h.rRemaining_le)
  exact ⟨Nat.zero_le _, by rw [StreamBuffer.resetData, hb]; exact h.rRemaining_le⟩

theorem Wf.resetData_rSlice (h : s.Wf) : s.resetData.rSlice = s.rSlice := by
  have hl : s.rSlice.length = s.rRemaining := h.rSlice_length
  show ((overwrite s.buf 0 s.rSlice).drop 0).take (s.rRemaining - 0) = s.rSlice
  simp [overwrite, ← hl]

theorem Wf.resetData_capacity (h : s.Wf) : s.resetData.capacity = s.capacity :=
  overwrite_length _ _ _ (by rw [h.rSlice_length, Nat.zero_add]; exact h.rRemaining_le)

theorem Wf.rIncrease (h : s.Wf) {n : Nat} (hn : n ≤ s.rRemaining) : (s.rIncrease n).Wf := by
  have := h.r_le_w
  simp only [rRemaining] at hn
  exact ⟨by simp only [StreamBuffer.rIncrease]; omega, h.w_le⟩

/-- Advancing the read position drops bytes from the front. -/
theorem rIncrease_rSlice (s : StreamBuffer) (n : Nat) : (s.rIncrease n).rSlice = s.rSlice.drop n := by
  simp only [rSlice, StreamBuffer.rIncrease, rRemaining, List.drop_take, List.drop_drop]
  congr 1
  omega

/-- Bytes written at `w_begin()` and then counted in are appended to the readable ones. -/
theorem Wf.wFill_wIncrease (h : s.Wf) {bs : List UInt8} (hb : bs.length ≤ s.wRemaining) :
    ((s.wFill bs).wIncrease bs.length).Wf ∧
      ((s.wFill bs).wIncrease bs.length).rSlice = s.rSlice ++ bs ∧
      ((s.wFill bs).wIncrease bs.length).capacity = s.capacity := by
  have hr := h.r_le_w
  have hw := h.w_le
  simp only [wRemaining] at hb
  have hlen : (overwrite s.buf s.wPos bs).length = s.buf.length :=
    overwrite_length _ _ _ (by omega)
  refine ⟨⟨?_, ?_⟩, ?_, hlen⟩
  · simp only [wIncrease, wFill]
    omega
  · simp only [wIncrease, wFill, hlen]
    omega
  · have hsplit : s.buf.take s.wPos = s.buf.take s.rPos ++ s.rSlice := by
      rw [rSlice, rRemaining, ← List.take_add]
      congr 1
      omega
    have hlr : (s.buf.take s.rPos).length = s.rPos := by
      rw [List.length_take]
      omega
    have hcount : s.wPos + bs.length - s.rPos = (s.rSlice ++ bs).length := by
      rw [List.length_append, h.rSlice_length, rRemaining]
      omega
    show ((overwrite s.buf s.wPos bs).drop s.rPos).take (s.wPos + bs.length - s.rPos) = _
    rw [overwrite, hsplit, hcount, List.append_assoc, List.append_assoc,
      List.drop_append_of_le_length (by omega), List.drop_of_length_le (by omega),
      List.nil_append, ← List.append_assoc, List.take_left]

/-- `write_to` hands over the longest readable prefix that fits. -/
theorem Wf.writeTo (h : s.Wf) (dst : List UInt8) :
    (s.writeTo dst).1 = min s.rRemaining dst.length ∧
      (s.writeTo dst).2.1 = s.rSlice.take dst.length ++ dst.drop s.rRemaining ∧
      (s.writeTo dst).2.2.Wf ∧
      (s.writeTo dst).2.2.rSlice = s.rSlice.drop dst.length ∧
      (s.writeTo dst).2.2.capacity = s.capacity := by
  have hl := h.rSlice_length
  have hmin : min s.rRemaining dst.length ≤ s.rRemaining := Nat.min_le_left _ _
  have hdrop : s.rSlice.drop (min s.rRemaining dst.length) = s.rSlice.drop dst.length := by
    rcases Nat.le_total dst.length s.rRemaining with hle | hle
    · rw [Nat.min_eq_right hle]
    · rw [Nat.min_eq_left hle, List.drop_of_length_le (by omega), List.drop_of_length_le (by omega)]
  refine ⟨rfl, ?_, ?_, ?_, ?_⟩
  · show overwrite dst 0 (s.rSlice.take (min s.rRemaining dst.length)) = _
    rcases Nat.le_total dst.length s.rRemaining with hle | hle
    · rw [Nat.min_eq_right hle, overwrite, List.drop_of_length_le (by simp [hl, hle]),
        List.drop_of_length_le hle]
      simp
    · rw [Nat.min_eq_left hle, overwrite,
        List.take_of_length_le (by omega : s.rSlice.length ≤ s.rRemaining),
        List.take_of_length_le (by omega : s.rSlice.length ≤ dst.length)]
      simp [hl]
  · show (if _ then _ else _ : StreamBuffer).Wf
    split
    · exact resetPos_wf _
    · exact h.rIncrease hmin
  · show (if _ then _ else _ : StreamBuffer).rSlice = _
    split
    · next heq =>
      -- nothing is left to read, so resetting the positions loses nothing
      have hr := h.r_le_w
      simp only [StreamBuffer.rIncrease, rRemaining] at heq
      rw [resetPos_rSlice, List.drop_of_length_le]
      simp only [hl, rRemaining]
      omega
    · rw [rIncrease_rSlice, hdrop]
  · show (if _ then _ else _ : StreamBuffer).capacity = _
    split <;> rfl

/-- `read_from` takes in the longest front part of `src` there is room for. -/
theorem Wf.readFrom (h : s.Wf) (src : List UInt8) :
    (s.readFrom src).2.Wf ∧
      (s.readFrom src).2.rSlice = s.rSlice ++ src.take (s.readFrom src).1 := by
  have hlen : (src.take (min s.wRemaining src.length)).length = min s.wRemaining src.length := by
    rw [List.length_take]
    omega
  have hroom : (src.take (min s.wRemaining src.length)).length ≤ s.wRemaining := by
    rw [hlen]
    exact Nat.min_le_left _ _
  obtain ⟨hwf, hslice, -⟩ := h.wFill_wIncrease hroom
  rw [hlen] at hwf hslice
  exact ⟨hwf, hslice⟩

/-- Moving the readable bytes to the front makes all the rest writable. -/
theorem Wf.resetData_wRemaining (h : s.Wf) :
    s.resetData.wRemaining = s.capacity - s.rRemaining := by
  show s.resetData.capacity - s.rRemaining = _
  rw [h.resetData_capacity]

/-- The slice that ends with the flag is a front part of the readable bytes. -/
theorem findFlagAndReturnSlice_take (s : StreamBuffer) (flag : List UInt8) :
    s.findFlagAndReturnSlice flag = s.rSlice.take (s.findFlagAndReturnSlice flag).length := by
  unfold findFlagAndReturnSlice
  split
  · simp
  · rw [List.length_take]
    rcases Nat.le_total (_ + flag.length) s.rSlice.length with hle | hle
    · rw [Nat.min_eq_left hle]
    · rw [Nat.min_eq_right hle, List.take_of_length_le hle, List.take_length]

end StreamBuffer

end Kosio
