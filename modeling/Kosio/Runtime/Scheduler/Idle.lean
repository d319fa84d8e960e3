import Mathlib.Data.Finset.Card
import Mathlib.Data.Nat.Bitwise
import Mathlib.Data.Fintype.Card

/-!
# `IdleState` and `Idle`

One 64-bit word counts the workers that are awake (high 48 bits) and those of
them that are searching (low 16 bits); `Packs` says what it holds while no
count has carried out of its field.
-/

namespace Kosio.Runtime

/-! ## Algorithm -/

abbrev U64 := BitVec 64

def workingShift : Nat := 16

def searchingMask : U64 := (1#64 <<< workingShift) - 1#64

def workingMask : U64 := BitVec.allOnes 64 ^^^ searchingMask

structure IdleState where
  state : U64
  deriving DecidableEq

namespace IdleState

def init (numWorkers : Nat) : IdleState := ⟨BitVec.ofNat 64 numWorkers <<< workingShift⟩

def numSearching (s : IdleState) : Nat := (s.state &&& searchingMask).toNat

def numWorking (s : IdleState) : Nat := ((s.state &&& workingMask) >>> workingShift).toNat

def incNumSearching (s : IdleState) : IdleState := ⟨s.state + 1⟩

/-- Also whether this was the final searching worker. -/
def decNumSearching (s : IdleState) : IdleState × Bool := (⟨s.state - 1⟩, s.numSearching == 1)

def wakeUpOne (s : IdleState) (numSearching : U64) : IdleState :=
  ⟨s.state + (numSearching ||| 1#64 <<< workingShift)⟩

/-- Also whether this was the final searching worker. -/
def decNumWorking (s : IdleState) (isSearching : Bool) : IdleState × Bool :=
  let dec := 1#64 <<< workingShift
  let dec := if isSearching then dec + 1 else dec
  (⟨s.state - dec⟩, isSearching && s.numSearching == 1)

end IdleState

/-! ## What the word holds -/

structure Packs (s : IdleState) (working searching : Nat) : Prop where
  working_lt : working < 2 ^ 48
  searching_lt : searching < 2 ^ 16
  eq : s.state.toNat = working * 2 ^ 16 + searching

namespace Packs

variable {s : IdleState} {working searching : Nat}

theorem init {n : Nat} (hn : n < 2 ^ 48) : Packs (IdleState.init n) n 0 := by
  refine ⟨hn, by decide, ?_⟩
  unfold IdleState.init workingShift
  rw [BitVec.toNat_shiftLeft, BitVec.toNat_ofNat, Nat.shiftLeft_eq]
  omega

theorem numSearching (h : Packs s working searching) : s.numSearching = searching := by
  have hmask : searchingMask.toNat = 2 ^ 16 - 1 := by decide
  have := h.searching_lt
  unfold IdleState.numSearching
  rw [BitVec.toNat_and, hmask, Nat.and_two_pow_sub_one_eq_mod, h.eq]
  omega

theorem numWorking (h : Packs s working searching) : s.numWorking = working := by
  have hmask : (workingMask >>> workingShift).toNat = 2 ^ 48 - 1 := by decide
  have := h.working_lt
  have := h.searching_lt
  unfold IdleState.numWorking
  rw [BitVec.ushiftRight_and_distrib, BitVec.toNat_and, hmask, Nat.and_two_pow_sub_one_eq_mod,
    BitVec.toNat_ushiftRight, Nat.shiftRight_eq_div_pow, h.eq]
  show (working * 2 ^ 16 + searching) / 2 ^ 16 % 2 ^ 48 = working
  omega

theorem incNumSearching (h : Packs s working searching) (hs : searching + 1 < 2 ^ 16) :
    Packs s.incNumSearching working (searching + 1) := by
  refine ⟨h.working_lt, hs, ?_⟩
  have := h.eq
  have := h.working_lt
  show (s.state + 1#64).toNat = _
  rw [BitVec.toNat_add]
  show (s.state.toNat + 1) % 2 ^ 64 = _
  omega

theorem decNumSearching (h : Packs s working (searching + 1)) :
    Packs s.decNumSearching.1 working searching ∧
      (s.decNumSearching.2 = true ↔ searching = 0) := by
  refine ⟨⟨h.working_lt, by have := h.searching_lt; omega, ?_⟩, ?_⟩
  · have := h.eq
    have := h.working_lt
    have := h.searching_lt
    show (s.state - 1#64).toNat = _
    rw [BitVec.toNat_sub]
    show (2 ^ 64 - 1 + s.state.toNat) % 2 ^ 64 = _
    omega
  · show (s.numSearching == 1) = true ↔ _
    rw [h.numSearching, beq_iff_eq]
    omega

theorem wakeUpOne (h : Packs s working searching) {k : U64} (hk : k = 0 ∨ k = 1)
    (hw : working + 1 < 2 ^ 48) (hs : searching + k.toNat < 2 ^ 16) :
    Packs (s.wakeUpOne k) (working + 1) (searching + k.toNat) := by
  refine ⟨hw, hs, ?_⟩
  have hinc : (k ||| 1#64 <<< workingShift).toNat = 2 ^ 16 + k.toNat := by
    rcases hk with rfl | rfl <;> decide
  have := h.eq
  unfold IdleState.wakeUpOne
  rw [BitVec.toNat_add, hinc]
  omega

theorem decNumWorking {b : Bool} (h : Packs s (working + 1) (searching + b.toNat)) :
    Packs (s.decNumWorking b).1 working searching ∧
      ((s.decNumWorking b).2 = true ↔ b = true ∧ searching = 0) := by
  have := h.working_lt
  have := h.searching_lt
  have hdec : (if b then 1#64 <<< workingShift + 1 else 1#64 <<< workingShift).toNat =
      2 ^ 16 + b.toNat := by
    cases b <;> decide
  refine ⟨⟨by omega, by omega, ?_⟩, ?_⟩
  · have := h.eq
    show (s.state - (if b then 1#64 <<< workingShift + 1 else 1#64 <<< workingShift)).toNat = _
    rw [BitVec.toNat_sub, hdec]
    omega
  · show (b && s.numSearching == 1) = true ↔ _
    rw [h.numSearching, Bool.and_eq_true, beq_iff_eq]
    cases b
    · simp
    · simp

end Packs

end Kosio.Runtime
