import Mathlib.Data.List.Basic
import Kosio.Lib.Bits
import Kosio.Runtime.Config

/-!
# `Level`: one ring of the timing wheel

A level is 64 slots and a bitmap of the occupied ones.  A slot of level `i`
spans `64^i` ms.  `D` and `H` are what callback pointers and coroutine handles
point to; an entry is named by the number of entries made before it.

Times are milliseconds since the epoch or since the wheel started.  A clock
reading is an `int64_t`, so no sum below reaches `2^64`.
-/

namespace Kosio.Runtime

open Bits

/-! ## Algorithm -/

/-- `SLOT_RANGE`: the span of a slot. -/
def slotRange : Nat → Nat
  | 0 => 1
  | i + 1 => slotRange i * levelMult

/-- `LEVEL_RANGE`: the span of a level. -/
def levelRange : Nat → Nat
  | 0 => 64
  | i + 1 => levelRange i * levelMult

/-- `MAX_DURATION` -/
def maxDuration : Nat := 2 ^ (6 * numLevels) - 1

theorem maxDuration_eq : maxDuration = 68719476735 := by decide

structure Entry (D H : Type) where
  data : Option D := none
  handle : Option H := none
  expirationTime : Nat := 0

/-- What `execute` does. -/
inductive Effect (D H : Type) where
  /-- submits a cancel request for the callback and clears its `entry_` -/
  | cancel (data : D)
  /-- pushes the handle to the local queue -/
  | schedule (handle : H)
  | nothing
deriving DecidableEq

def Entry.execute {D H : Type} (entry : Entry D H) : Effect D H :=
  match entry.data, entry.handle with
  | some data, _ => .cancel data
  | none, some handle => .schedule handle
  | none, none => .nothing

structure Expiration where
  level : Fin numLevels
  slot : Fin levelMult
  deadline : Nat
deriving DecidableEq

structure Level (level : Fin numLevels) where
  occupied : BitVec 64 := 0
  slots : Fin levelMult → List Nat := fun _ => []

namespace Level

variable {level : Fin numLevels}

def slotFor (level : Fin numLevels) (when_ : Nat) : Fin levelMult :=
  ⟨(when_ >>> (level.val * 6)) % levelMult, Nat.mod_lt _ (by decide)⟩

def addEntry (l : Level level) (entry when_ : Nat) : Level level :=
  let slot := slotFor level when_
  { slots := Function.update l.slots slot (l.slots slot ++ [entry])
    occupied := l.occupied ||| 1#64 <<< slot.val }

def nextOccupiedSlot (l : Level level) (now : Nat) : Option (Fin levelMult) :=
  if l.occupied = 0 then none
  else
    let nowSlot := now / slotRange level
    let occupied := rotr l.occupied (toInt32 nowSlot)
    let zeros := countrZero occupied
    some ⟨(zeros + nowSlot) % levelMult, Nat.mod_lt _ (by decide)⟩

def nextExpiration (l : Level level) (now : Nat) : Option Expiration :=
  (l.nextOccupiedSlot now).map fun slot : Fin levelMult =>
    -- `now & ~(LEVEL_RANGE[level_] - 1)`, for a power of two
    let levelStart := now / levelRange level * levelRange level
    let deadline := levelStart + slot.val * slotRange level
    let deadline := if deadline ≤ now then deadline + levelRange level else deadline
    ⟨level, slot, deadline⟩

def takeSlot (l : Level level) (slot : Fin levelMult) : List Nat × Level level :=
  (l.slots slot,
   { slots := Function.update l.slots slot []
     occupied := l.occupied &&& ~~~(1#64 <<< slot.val) })

end Level

/-! ## Lemmas -/

theorem slotRange_eq (i : Nat) : slotRange i = 64 ^ i := by
  induction i with
  | zero => rfl
  | succ i ih => rw [slotRange, ih, Nat.pow_succ]

theorem levelRange_eq (i : Nat) : levelRange i = 64 ^ (i + 1) := by
  induction i with
  | zero => rfl
  | succ i ih => rw [levelRange, ih, ← Nat.pow_succ]

theorem slotFor_val (level : Fin numLevels) (w : Nat) :
    (Level.slotFor level w).val = w / 64 ^ level.val % 64 := by
  show (w >>> (level.val * 6)) % 64 = _
  rw [Nat.shiftRight_eq_div_pow, Nat.mul_comm, Nat.pow_mul]

namespace Level

variable {level : Fin numLevels} {l : Level level}

/-- The bitmap says which slots hold something. -/
def Marked (l : Level level) : Prop :=
  ∀ s : Fin levelMult, l.occupied.getLsbD s.val = true ↔ l.slots s ≠ []

theorem marked_empty : Marked ({} : Level level) := by
  intro s
  simp

theorem getLsbD_one_shift (s : Fin levelMult) (i : Nat) :
    (1#64 <<< s.val).getLsbD i = decide (i = s.val) := by
  have hs : s.val < 64 := s.isLt
  rw [BitVec.getLsbD_shiftLeft]
  by_cases hi : i = s.val
  · subst hi
    simp [hs]
  · by_cases hlt : i < s.val
    · simp [hlt, hi]
    · have : i - s.val ≠ 0 := by omega
      simp [hlt, hi, this]

theorem Marked.addEntry (h : l.Marked) (entry w : Nat) : (l.addEntry entry w).Marked := by
  intro s
  show (l.occupied ||| 1#64 <<< (slotFor level w).val).getLsbD s.val = true ↔
    Function.update l.slots (slotFor level w) _ s ≠ []
  rw [BitVec.getLsbD_or, getLsbD_one_shift]
  by_cases hs : s = slotFor level w
  · subst hs
    simp
  · have hv : s.val ≠ (slotFor level w).val := fun he => hs (Fin.ext he)
    rw [Function.update_of_ne hs, ← h s, decide_eq_false hv, Bool.or_false]

theorem Marked.takeSlot (h : l.Marked) (slot : Fin levelMult) : (l.takeSlot slot).2.Marked := by
  intro s
  show (l.occupied &&& ~~~(1#64 <<< slot.val)).getLsbD s.val = true ↔
    Function.update l.slots slot [] s ≠ []
  have hlt : s.val < 64 := s.isLt
  rw [BitVec.getLsbD_and, BitVec.getLsbD_not, getLsbD_one_shift]
  by_cases hs : s = slot
  · subst hs
    simp
  · have hv : s.val ≠ slot.val := fun he => hs (Fin.ext he)
    rw [Function.update_of_ne hs, ← h s, decide_eq_false hv]
    simp [hlt]

theorem Marked.occupied_eq_zero_iff (h : l.Marked) : l.occupied = 0 ↔ ∀ s, l.slots s = [] := by
  constructor
  · intro h0 s
    by_contra hne
    have := (h s).2 hne
    rw [h0] at this
    simp at this
  · intro he
    by_contra h0
    obtain ⟨i, hi, hb⟩ := exists_bit h0
    exact (h ⟨i, hi⟩).1 hb (he _)

/-- **Next slot.**  The first occupied one in cyclic order from the current one. -/
theorem nextOccupiedSlot_eq (h : l.occupied ≠ 0) (now : Nat) :
    ∃ (k : Nat) (slot : Fin levelMult), l.nextOccupiedSlot now = some slot ∧ k < 64 ∧
      slot.val = (k + now / 64 ^ level.val) % 64 ∧ l.occupied.getLsbD slot.val = true ∧
      ∀ j < k, l.occupied.getLsbD ((j + now / 64 ^ level.val) % 64) = false := by
  rw [← slotRange_eq level.val]
  obtain ⟨hk, hb, hlt⟩ := countrZero_rotr h (now / slotRange level.val)
  refine ⟨countrZero (rotr l.occupied (toInt32 (now / slotRange level.val))),
    ⟨_, Nat.mod_lt _ (show 0 < levelMult by decide)⟩, ?_, hk, rfl, hb, hlt⟩
  unfold nextOccupiedSlot
  rw [if_neg h]

theorem nextExpiration_none (h : l.Marked) (now : Nat) :
    l.nextExpiration now = none ↔ ∀ s, l.slots s = [] := by
  rw [← h.occupied_eq_zero_iff, nextExpiration, Option.map_eq_none_iff, nextOccupiedSlot]
  by_cases h0 : l.occupied = 0 <;> simp [h0]

/-- **Next deadline.**  Where the slot is `k` after the current one, the deadline
is the start of the `k`th slot from now, and a whole round later for `k = 0`. -/
theorem nextExpiration_eq (h : l.Marked) {now : Nat} {x : Expiration}
    (hx : l.nextExpiration now = some x) :
    x.level = level ∧ l.slots x.slot ≠ [] ∧ ∃ k < 64,
      x.slot.val = (k + now / 64 ^ level.val) % 64 ∧
      x.deadline = (now / 64 ^ level.val + if k = 0 then 64 else k) * 64 ^ level.val ∧
      ∀ s : Fin levelMult, l.slots s ≠ [] → ∀ j < k, s.val ≠ (j + now / 64 ^ level.val) % 64 := by
  have h0 : l.occupied ≠ 0 := by
    intro h0
    rw [(nextExpiration_none h now).2 (h.occupied_eq_zero_iff.1 h0)] at hx
    cases hx
  obtain ⟨k, slot, hslot, hk, hv, hb, hlt⟩ := nextOccupiedSlot_eq h0 now
  rw [nextExpiration, hslot, Option.map_some, Option.some.injEq] at hx
  subst hx
  refine ⟨rfl, (h slot).1 hb, k, hk, hv, ?_, ?_⟩
  · -- in units of a slot: `u` is the current slot, `u / 64 * 64` the start of the round
    simp only [levelRange_eq, slotRange_eq, hv]
    generalize hu : now / 64 ^ level.val = u
    generalize hR : 64 ^ level.val = R
    rw [hR] at hu
    have hRpos : 0 < R := hR ▸ Nat.pow_pos (by decide)
    have hround : now / 64 ^ (level.val + 1) * 64 ^ (level.val + 1) = u / 64 * 64 * R := by
      rw [Nat.pow_succ, hR, ← Nat.div_div_eq_div_mul, hu, Nat.mul_assoc, Nat.mul_comm 64 R]
    have hdm : u / 64 * 64 + u % 64 = u := Nat.div_add_mod' u 64
    have hle : ∀ a, a * R ≤ now ↔ a ≤ u := fun a => by
      rw [← hu, Nat.le_div_iff_mul_le hRpos]
    rw [hround, ← Nat.add_mul, Nat.pow_succ, hR, Nat.mul_comm R 64]
    by_cases hc : u / 64 * 64 + (k + u) % 64 ≤ u
    · rw [if_pos ((hle _).2 hc), ← Nat.add_mul]
      congr 1
      split <;> omega
    · rw [if_neg (fun he => hc ((hle _).1 he))]
      congr 1
      split <;> omega
  · intro s hs j hj he
    have := (h s).2 hs
    rw [he, hlt j hj] at this
    cases this

end Level

end Kosio.Runtime
