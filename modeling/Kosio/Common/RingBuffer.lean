import Mathlib.Algebra.Group.Nat.Defs
import Mathlib.Data.List.Basic

/-!
# `HeapRingBuffer`: a bounded queue in a circle

A buffer for `size` elements is a vector of `size + 1` slots: the elements lie
from `start_` up to `end_`, round the end of the vector, and one slot stays free
so that full and empty differ.  A step that the language leaves undefined (a
remainder by zero, an index off the vector) is `none`.

`Holds b l` says that `b` holds the elements `l`, oldest first; each operation
does to `l` what a queue does.
-/

namespace Kosio

structure HeapRingBuffer (T : Type) where
  start : Nat
  end_ : Nat
  data : List T

namespace HeapRingBuffer

variable {T : Type}

/-! ## Algorithm -/

/-- `data_(size + 1)`, in 64 bits. -/
def make [Inhabited T] (size : Nat) : HeapRingBuffer T :=
  ⟨0, 0, List.replicate ((size + 1) % 2 ^ 64) default⟩

def isEmpty (b : HeapRingBuffer T) : Bool := b.start = b.end_

def isFill (b : HeapRingBuffer T) : Option Bool :=
  if b.data.length = 0 then none else some ((b.end_ + 1) % b.data.length = b.start)

def safetyPush (b : HeapRingBuffer T) (val : T) : Option (HeapRingBuffer T) :=
  if b.end_ < b.data.length then
    some { b with data := b.data.set b.end_ val, end_ := (b.end_ + 1) % b.data.length }
  else none

def safetyPop (b : HeapRingBuffer T) : Option (T × HeapRingBuffer T) :=
  b.data[b.start]?.map fun ret => (ret, { b with start := (b.start + 1) % b.data.length })

/-! ## Lemmas -/

/-- `b` holds `l`, oldest first. -/
structure Holds (b : HeapRingBuffer T) (l : List T) : Prop where
  start_lt : b.start < b.data.length
  length_lt : l.length < b.data.length
  end_eq : b.end_ = (b.start + l.length) % b.data.length
  get : ∀ i, i < l.length → b.data[(b.start + i) % b.data.length]? = l[i]?

/-- Going round once at most. -/
theorem round_eq {start i n : Nat} (hs : start < n) (hi : i ≤ n) :
    (start + i) % n = if start + i < n then start + i else start + i - n := by
  split
  · next h => exact Nat.mod_eq_of_lt h
  · next h =>
    rw [Nat.mod_eq_sub_mod (by omega)]
    exact Nat.mod_eq_of_lt (by omega)

variable {b : HeapRingBuffer T} {l : List T}

theorem make_holds [Inhabited T] {size : Nat} (h : (size + 1) % 2 ^ 64 ≠ 0) :
    Holds (make size : HeapRingBuffer T) [] := by
  have hlen : (make size : HeapRingBuffer T).data.length = (size + 1) % 2 ^ 64 := by simp [make]
  refine ⟨?_, ?_, ?_, by simp⟩
  · show 0 < _
    omega
  · show 0 < _
    omega
  · show 0 = (0 + 0) % _
    simp

theorem Holds.isEmpty_iff (h : Holds b l) : b.isEmpty = true ↔ l = [] := by
  have hs := h.start_lt
  have hl := h.length_lt
  unfold isEmpty
  rw [decide_eq_true_iff, h.end_eq, round_eq hs (Nat.le_of_lt hl), ← List.length_eq_zero_iff]
  split <;> omega

theorem Holds.isFill_eq (h : Holds b l) :
    b.isFill = some (decide (l.length + 1 = b.data.length)) := by
  have hs := h.start_lt
  have hl := h.length_lt
  have hn : b.data.length ≠ 0 := by omega
  rw [isFill, if_neg hn, h.end_eq, Nat.mod_add_mod, Nat.add_assoc, round_eq hs (by omega),
    Option.some.injEq, decide_eq_decide]
  split <;> omega

theorem Holds.safetyPush (h : Holds b l) (hl : l.length + 1 < b.data.length) (val : T) :
    ∃ b', b.safetyPush val = some b' ∧ b'.data.length = b.data.length ∧ Holds b' (l ++ [val]) := by
  have hs := h.start_lt
  have hn : 0 < b.data.length := by omega
  have he : b.end_ < b.data.length := by
    rw [h.end_eq]
    exact Nat.mod_lt _ hn
  refine ⟨_, if_pos he, List.length_set, ?_, ?_, ?_, ?_⟩
  · rwa [List.length_set]
  · simpa using hl
  · simp only [List.length_set, List.length_append, List.length_singleton]
    rw [h.end_eq, Nat.mod_add_mod, Nat.add_assoc]
  · intro i hi
    simp only [List.length_append, List.length_singleton] at hi
    simp only [List.length_set]
    by_cases hil : i = l.length
    · subst hil
      rw [← h.end_eq, List.getElem?_set_self he]
      simp
    · have hi' : i < l.length := by omega
      have hne : b.end_ ≠ (b.start + i) % b.data.length := by
        rw [h.end_eq, round_eq hs (by omega), round_eq hs (by omega)]
        split <;> split <;> omega
      rw [List.getElem?_set_ne hne, List.getElem?_append_left hi']
      exact h.get i hi'

theorem Holds.safetyPop {val : T} (h : Holds b (val :: l)) :
    ∃ b', b.safetyPop = some (val, b') ∧ b'.data.length = b.data.length ∧ Holds b' l := by
  have hs := h.start_lt
  have hl := h.length_lt
  rw [List.length_cons] at hl
  have hget : b.data[b.start]? = some val := by
    have := h.get 0 (by simp)
    rwa [Nat.add_zero, Nat.mod_eq_of_lt hs] at this
  refine ⟨{ b with start := (b.start + 1) % b.data.length }, ?_, rfl, ?_, ?_, ?_, ?_⟩
  · rw [HeapRingBuffer.safetyPop, hget]
    rfl
  · exact Nat.mod_lt _ (by omega)
  · show l.length < b.data.length
    omega
  · show b.end_ = ((b.start + 1) % b.data.length + l.length) % b.data.length
    rw [h.end_eq, Nat.mod_add_mod, List.length_cons]
    congr 1
    omega
  · intro i hi
    have := h.get (i + 1) (by simpa using hi)
    simp only [List.getElem?_cons_succ] at this
    rw [← this]
    show b.data[((b.start + 1) % b.data.length + i) % b.data.length]? = _
    rw [Nat.mod_add_mod]
    congr 2
    omega

/-! ## Any number of slots -/

/-- `b` holds `l`; a buffer without a slot holds nothing. -/
def Contents (b : HeapRingBuffer T) (l : List T) : Prop :=
  b.Holds l ∨ b.data = [] ∧ b.isEmpty = true ∧ l = []

theorem make_contents [Inhabited T] (size : Nat) : Contents (make size : HeapRingBuffer T) [] := by
  by_cases h : (size + 1) % 2 ^ 64 = 0
  · exact Or.inr ⟨by rw [make, h, List.replicate_zero], rfl, rfl⟩
  · exact Or.inl (make_holds h)

theorem Contents.isEmpty_iff (h : Contents b l) : b.isEmpty = true ↔ l = [] := by
  rcases h with h | ⟨-, he, hl⟩
  · exact h.isEmpty_iff
  · simp [he, hl]

/-- A full buffer holds one element less than it has slots. -/
theorem Contents.isFill_iff (h : Contents b l) :
    b.isFill = some true ↔ l.length + 1 = b.data.length := by
  rcases h with h | ⟨hd, -, rfl⟩
  · rw [h.isFill_eq]
    simp
  · simp [isFill, hd]

/-- A buffer that is not full has slots, and one of them to spare. -/
theorem Contents.room (h : Contents b l) (hfill : b.isFill = some false) :
    b.Holds l ∧ l.length + 1 < b.data.length := by
  rcases h with h | ⟨hd, -⟩
  · have h1 : l.length + 1 ≠ b.data.length := by simpa [h.isFill_eq] using hfill
    have h2 := h.length_lt
    exact ⟨h, by omega⟩
  · simp [isFill, hd] at hfill

theorem Contents.nonempty (h : Contents b l) (he : b.isEmpty = false) :
    ∃ val l', l = val :: l' ∧ b.Holds (val :: l') := by
  rcases h with h | ⟨-, ht, -⟩
  · cases l with
    | nil => rw [h.isEmpty_iff.2 rfl] at he; cases he
    | cons val l' => exact ⟨val, l', rfl, h⟩
  · rw [ht] at he
    cases he

end HeapRingBuffer

end Kosio
