import Kosio.Common.RingBuffer

/-!
# `HeapRingBuffer` is a bounded queue

`Fifo` is a list with a capacity and says what each call returns.  A buffer that
holds the list returns the same, call after call (`Holds.simulates`): the
subtraction in `size()` wraps at `2^64` and comes back, as a vector has fewer
than `2^63` slots.

The number of slots is one more than the capacity asked for, in 64 bits, so a
buffer of capacity `2^64 - 1` has none.
-/

namespace Kosio

/-! ## The queue -/

inductive Call (T : Type) where
  | push (val : T)
  | pop
  | safetyPush (val : T)
  | safetyPop
  | isEmpty
  | isFill
  | size
  | capacity

/-- What a call returns; `undefined` where the language says nothing. -/
inductive Out (T : Type) where
  | unit
  | bool (b : Bool)
  | val (val : T)
  | optional (val : Option T)
  | nat (n : Nat)
  | undefined
deriving DecidableEq

structure Fifo (T : Type) where
  cap : Nat
  items : List T

namespace Fifo

variable {T : Type}

def isFill (q : Fifo T) : Bool := q.items.length = q.cap

def put (q : Fifo T) (val : T) : Fifo T := { q with items := q.items ++ [val] }

/-- `none` is a `safety_push` into a full or a `safety_pop` from an empty queue. -/
def exec (q : Fifo T) : Call T → Option (Out T × Fifo T)
  | .push val => some (if q.isFill then (.bool false, q) else (.bool true, q.put val))
  | .pop =>
    match q.items with
    | [] => some (.optional none, q)
    | val :: items => some (.optional (some val), { q with items })
  | .safetyPush val => if q.isFill then none else some (.unit, q.put val)
  | .safetyPop =>
    match q.items with
    | [] => none
    | val :: items => some (.val val, { q with items })
  | .isEmpty => some (.bool q.items.isEmpty, q)
  | .isFill => some (.bool q.isFill, q)
  | .size => some (.nat q.items.length, q)
  | .capacity => some (.nat q.cap, q)

/-- What the calls return one after the other. -/
def outputs : Fifo T → List (Call T) → Option (List (Out T))
  | _, [] => some []
  | q, call :: calls =>
    (q.exec call).bind fun (out, q') => (q'.outputs calls).map fun outs => out :: outs

end Fifo

namespace HeapRingBuffer

variable {T : Type}

/-! ## Algorithm -/

/-- `std::vector<T>::max_size()` -/
def maxSize (sizeofT : Nat) : Nat := (2 ^ 63 - 1) / sizeofT

/-- `HeapRingBuffer(size)`; a vector that is too long is a `std::length_error`. -/
def construct [Inhabited T] (sizeofT size : Nat) : Option (HeapRingBuffer T) :=
  if (size + 1) % 2 ^ 64 ≤ maxSize sizeofT then some (make size) else none

def push (b : HeapRingBuffer T) (val : T) : Option (Bool × HeapRingBuffer T) :=
  b.isFill.bind fun fill =>
    if fill then some (false, b) else (b.safetyPush val).map fun b' => (true, b')

def pop (b : HeapRingBuffer T) : Option (Option T × HeapRingBuffer T) :=
  if b.isEmpty then some (none, b) else b.safetyPop.map fun (ret, b') => (some ret, b')

/-- `(end_ - start_ + data_.size()) % data_.size()`, in 64 bits. -/
def size (b : HeapRingBuffer T) : Option Nat :=
  if b.data.length = 0 then none
  else
    let diff := (b.end_ + 2 ^ 64 - b.start) % 2 ^ 64
    some ((diff + b.data.length) % 2 ^ 64 % b.data.length)

def capacity (b : HeapRingBuffer T) : Nat := (b.data.length + 2 ^ 64 - 1) % 2 ^ 64

/-- What a call returns and leaves; nothing is known of the state after `undefined`. -/
def exec (b : HeapRingBuffer T) : Call T → Out T × HeapRingBuffer T
  | .push val => (b.push val).elim (.undefined, b) fun (ok, b') => (.bool ok, b')
  | .pop => b.pop.elim (.undefined, b) fun (ret, b') => (.optional ret, b')
  | .safetyPush val => (b.safetyPush val).elim (.undefined, b) fun b' => (.unit, b')
  | .safetyPop => b.safetyPop.elim (.undefined, b) fun (ret, b') => (.val ret, b')
  | .isEmpty => (.bool b.isEmpty, b)
  | .isFill => (b.isFill.elim .undefined .bool, b)
  | .size => (b.size.elim .undefined .nat, b)
  | .capacity => (.nat b.capacity, b)

def outputs : HeapRingBuffer T → List (Call T) → List (Out T)
  | _, [] => []
  | b, call :: calls => (b.exec call).1 :: (b.exec call).2.outputs calls

/-- Whatever is called, the buffer returns what the queue returns. -/
def Simulates (b : HeapRingBuffer T) (q : Fifo T) : Prop :=
  ∀ calls outs, q.outputs calls = some outs → b.outputs calls = outs

/-! ## Lemmas -/

theorem maxSize_lt (sizeofT : Nat) : maxSize sizeofT < 2 ^ 63 := by
  have := Nat.div_le_self (2 ^ 63 - 1) sizeofT
  unfold maxSize
  omega

variable {b : HeapRingBuffer T} {l : List T} {cap : Nat}

theorem Holds.size_eq (h : Holds b l) (hn : b.data.length < 2 ^ 63) :
    b.size = some l.length := by
  have hs := h.start_lt
  have hl := h.length_lt
  have hround := round_eq hs (Nat.le_of_lt hl)
  rw [← h.end_eq] at hround
  have hn0 : b.data.length ≠ 0 := by omega
  rw [size, if_neg hn0, Option.some.injEq]
  split at hround
  · -- not wrapped
    have hd : (b.end_ + 2 ^ 64 - b.start) % 2 ^ 64 = l.length := by omega
    rw [hd, Nat.mod_eq_of_lt (show l.length + b.data.length < 2 ^ 64 by omega),
      Nat.add_mod_right, Nat.mod_eq_of_lt hl]
  · -- wrapped: the difference is negative, and the sum wraps back
    have hd : (b.end_ + 2 ^ 64 - b.start) % 2 ^ 64 + b.data.length = 2 ^ 64 + l.length := by omega
    rw [hd, Nat.add_mod_left, Nat.mod_eq_of_lt (show l.length < 2 ^ 64 by omega),
      Nat.mod_eq_of_lt hl]

theorem capacity_eq (hb : b.data.length = cap + 1) (hn : b.data.length < 2 ^ 63) :
    b.capacity = cap := by
  unfold capacity
  omega

theorem Holds.isFill_fifo (h : Holds b l) (hb : b.data.length = cap + 1) :
    b.isFill = some (⟨cap, l⟩ : Fifo T).isFill := by
  rw [h.isFill_eq, hb]
  unfold Fifo.isFill
  simp

/-- One slot is to spare where the queue is not full. -/
theorem Holds.put (h : Holds b l) (hb : b.data.length = cap + 1)
    (hf : ¬ (⟨cap, l⟩ : Fifo T).isFill = true) (val : T) :
    ∃ b', b.safetyPush val = some b' ∧ b'.data.length = b.data.length ∧ Holds b' (l ++ [val]) := by
  have hl := h.length_lt
  have hne : l.length ≠ cap := fun he => hf (decide_eq_true he)
  exact h.safetyPush (by omega) val

section Exec

variable {b' : HeapRingBuffer T} {val : T}

theorem exec_push {ok : Bool} (h : b.push val = some (ok, b')) :
    b.exec (.push val) = (.bool ok, b') := by
  rw [HeapRingBuffer.exec, h, Option.elim_some]

theorem exec_pop {ret : Option T} (h : b.pop = some (ret, b')) :
    b.exec .pop = (.optional ret, b') := by
  rw [HeapRingBuffer.exec, h, Option.elim_some]

theorem exec_safetyPush (h : b.safetyPush val = some b') :
    b.exec (.safetyPush val) = (.unit, b') := by
  rw [HeapRingBuffer.exec, h, Option.elim_some]

theorem exec_safetyPop (h : b.safetyPop = some (val, b')) : b.exec .safetyPop = (.val val, b') := by
  rw [HeapRingBuffer.exec, h, Option.elim_some]

end Exec

/-- **A call.** -/
theorem Holds.exec (h : Holds b l) (hb : b.data.length = cap + 1) (hn : b.data.length < 2 ^ 63)
    {call : Call T} {out : Out T} {q : Fifo T}
    (hq : (⟨cap, l⟩ : Fifo T).exec call = some (out, q)) :
    q.cap = cap ∧ (b.exec call).1 = out ∧ Holds (b.exec call).2 q.items ∧
      (b.exec call).2.data.length = b.data.length := by
  have hfill := h.isFill_fifo hb
  cases call with
  | push val =>
    simp only [Fifo.exec, Option.some.injEq] at hq
    split at hq
    · next hf =>
      cases hq
      have hpush : b.push val = some (false, b) := by
        rw [push, hfill, hf]
        rfl
      rw [exec_push hpush]
      exact ⟨rfl, rfl, h, rfl⟩
    · next hf =>
      cases hq
      obtain ⟨b', hs, hlen, hb'⟩ := h.put hb hf val
      have hpush : b.push val = some (true, b') := by
        rw [push, hfill, Option.bind_some, if_neg hf, hs]
        rfl
      rw [exec_push hpush]
      exact ⟨rfl, rfl, hb', hlen⟩
  | pop =>
    cases l with
    | nil =>
      cases hq
      have hpop : b.pop = some (none, b) := if_pos (h.isEmpty_iff.2 rfl)
      rw [exec_pop hpop]
      exact ⟨rfl, rfl, h, rfl⟩
    | cons val l =>
      cases hq
      obtain ⟨b', hs, hlen, hb'⟩ := h.safetyPop
      have hpop : b.pop = some (some val, b') := by
        rw [pop, if_neg (fun he => List.cons_ne_nil _ _ (h.isEmpty_iff.1 he)), hs]
        rfl
      rw [exec_pop hpop]
      exact ⟨rfl, rfl, hb', hlen⟩
  | safetyPush val =>
    simp only [Fifo.exec] at hq
    split at hq
    · cases hq
    · next hf =>
      cases hq
      obtain ⟨b', hs, hlen, hb'⟩ := h.put hb hf val
      rw [exec_safetyPush hs]
      exact ⟨rfl, rfl, hb', hlen⟩
  | safetyPop =>
    cases l with
    | nil => cases hq
    | cons val l =>
      cases hq
      obtain ⟨b', hs, hlen, hb'⟩ := h.safetyPop
      rw [exec_safetyPop hs]
      exact ⟨rfl, rfl, hb', hlen⟩
  | isEmpty =>
    cases hq
    refine ⟨rfl, congrArg Out.bool ?_, h, rfl⟩
    rw [Bool.eq_iff_iff, h.isEmpty_iff, List.isEmpty_iff]
  | isFill =>
    cases hq
    exact ⟨rfl, congrArg (fun o => Option.elim o (Out.undefined : Out T) Out.bool) hfill, h, rfl⟩
  | size =>
    cases hq
    have hsize := congrArg (fun o => Option.elim o (Out.undefined : Out T) Out.nat) (h.size_eq hn)
    exact ⟨rfl, hsize, h, rfl⟩
  | capacity =>
    cases hq
    exact ⟨rfl, congrArg Out.nat (capacity_eq hb hn), h, rfl⟩

/-- **A buffer that holds a list is a queue of it.** -/
theorem Holds.simulates (h : Holds b l) (hb : b.data.length = cap + 1)
    (hn : b.data.length < 2 ^ 63) : Simulates b ⟨cap, l⟩ := by
  intro calls
  induction calls generalizing b l with
  | nil =>
    intro outs hout
    cases hout
    rfl
  | cons call calls ih =>
    intro outs hout
    obtain ⟨⟨out, q⟩, hq, hmap⟩ := Option.bind_eq_some_iff.1 hout
    obtain ⟨outs', hrest, rfl⟩ := Option.map_eq_some_iff.1 hmap
    obtain ⟨rfl, h1, h2, h3⟩ := h.exec hb hn hq
    show (b.exec call).1 :: (b.exec call).2.outputs calls = _
    rw [h1, ih h2 (h3.trans hb) (h3 ▸ hn) outs' hrest]

/-- Without a slot `is_fill()` is a remainder by zero. -/
theorem not_simulates_of_no_slots (hb : b.data = []) (hcap : cap ≠ 0) :
    ¬ Simulates b ⟨cap, []⟩ := by
  intro hsim
  have hq : (⟨cap, []⟩ : Fifo T).outputs [.isFill] = some [.bool false] := by
    have hf : (⟨cap, []⟩ : Fifo T).isFill = false := decide_eq_false (Ne.symm hcap)
    simp only [Fifo.outputs, Fifo.exec, hf, Option.bind_some, Option.map_some]
  have hfill : b.isFill = none := if_pos (by rw [hb]; rfl)
  have := hsim _ _ hq
  simp [outputs, HeapRingBuffer.exec, hfill] at this

/-! ## Top theorem -/

/-- **A bounded queue.**  For every element type and every capacity, a buffer that
can be built simulates a queue of that capacity, unless it is `2^64 - 1`. -/
theorem ringBuffer_fifo_iff [Inhabited T] (sizeofT : Nat) (size : BitVec 64) :
    (∀ b : HeapRingBuffer T, construct sizeofT size.toNat = some b →
      Simulates b ⟨size.toNat, []⟩) ↔ size ≠ BitVec.allOnes 64 := by
  have hlt := size.isLt
  have hall : size = BitVec.allOnes 64 ↔ size.toNat = 2 ^ 64 - 1 := by
    rw [← BitVec.toNat_inj, BitVec.toNat_allOnes]
  have hlen : ((make size.toNat : HeapRingBuffer T)).data.length = (size.toNat + 1) % 2 ^ 64 :=
    List.length_replicate
  rw [ne_eq, hall]
  constructor
  · intro h he
    have h0 : (size.toNat + 1) % 2 ^ 64 = 0 := by omega
    have hc : construct sizeofT size.toNat = some (make size.toNat : HeapRingBuffer T) :=
      if_pos (by omega)
    refine not_simulates_of_no_slots ?_ (by omega) (h _ hc)
    exact List.length_eq_zero_iff.1 (hlen.trans h0)
  · intro hne b hc
    obtain ⟨hmax, heq⟩ := Option.ite_none_right_eq_some.1 hc
    cases heq
    have := maxSize_lt sizeofT
    exact (make_holds (by omega)).simulates (by omega) (by omega)

/-- A buffer for `2^64 - 1` elements of one byte can be built and has no slots. -/
theorem ringBuffer_allOnes :
    ∃ b : HeapRingBuffer Bool, construct 1 (BitVec.allOnes 64).toNat = some b ∧
      b.outputs [.capacity, .push true] = [.nat (2 ^ 64 - 1), .undefined] ∧
      ¬ Simulates b ⟨(BitVec.allOnes 64).toNat, []⟩ := by
  refine ⟨⟨0, 0, []⟩, rfl, by decide, fun h => ?_⟩
  have := h [.push true] [.bool true] (by decide)
  revert this
  decide

end HeapRingBuffer

end Kosio
