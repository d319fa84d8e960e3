import Mathlib.Order.Bounds.Basic
import Kosio.Runtime.Timer.Level

/-!
# The search for a slot, on machine words

`Level.nextOccupiedSlot` counts in `Nat`; here `now`, the slot number and the
sum are `uint64_t`.  At level 0 the slot number goes up to `2^64 - 1`: the cast
to `int` then drops its upper half and may turn the rotation round, and the sum
with the count of zeros may wrap.  64 divides both `2^32` and `2^64`, so neither
shows in the slot (`nextOccupiedWord_toNat`).
-/

namespace Kosio.Runtime.Level

open Bits

variable {level : Fin numLevels}

/-! ## Algorithm -/

/-- `next_occupied_slot`, word by word. -/
def nextOccupiedWord (l : Level level) (now : BitVec 64) : Option (BitVec 64) :=
  if l.occupied = 0 then none
  else
    let nowSlot := now / BitVec.ofNat 64 (slotRange level)
    let occupied := rotr l.occupied (toInt32 nowSlot.toNat)
    let zeros := countrZero occupied
    -- the `int` is converted to the type of the other summand
    some ((BitVec.ofNat 64 zeros + nowSlot) % BitVec.ofNat 64 levelMult)

/-- The bit `k` slots after the current one is set. -/
def OccupiedAfter (l : Level level) (now : BitVec 64) (k : Nat) : Prop :=
  l.occupied.getLsbD ((now.toNat / slotRange level + k) % 64) = true

/-! ## Lemmas -/

theorem slotRange_lt (level : Fin numLevels) : slotRange level < 2 ^ 64 := by
  have hl : level.val < 6 := level.isLt
  have h5 : 64 ^ level.val ≤ 64 ^ 5 := Nat.pow_le_pow_right (by decide) (by omega)
  rw [slotRange_eq]
  omega

theorem nowSlot_toNat (level : Fin numLevels) (now : BitVec 64) :
    (now / BitVec.ofNat 64 (slotRange level)).toNat = now.toNat / slotRange level := by
  rw [BitVec.toNat_udiv, BitVec.toNat_ofNat, Nat.mod_eq_of_lt (slotRange_lt level)]

/-- The sum may wrap; its remainder does not notice. -/
theorem sum_toNat (a : Nat) (b : BitVec 64) :
    ((BitVec.ofNat 64 a + b) % BitVec.ofNat 64 levelMult).toNat = (a + b.toNat) % 64 := by
  rw [BitVec.toNat_umod, BitVec.toNat_add, BitVec.toNat_ofNat]
  show (a % 2 ^ 64 + b.toNat) % 2 ^ 64 % 64 = _
  omega

/-- The word is the slot of `nextOccupiedSlot`. -/
theorem nextOccupiedWord_toNat (l : Level level) (now : BitVec 64) :
    (l.nextOccupiedWord now).map BitVec.toNat = (l.nextOccupiedSlot now.toNat).map Fin.val := by
  unfold nextOccupiedWord nextOccupiedSlot
  by_cases h0 : l.occupied = 0
  · rw [if_pos h0, if_pos h0]
    rfl
  · rw [if_neg h0, if_neg h0, Option.map_some, Option.map_some, sum_toNat, nowSlot_toNat]

/-! ## Top theorem -/

/-- **Next slot.**  For every level, every bitmap with a bit set and every
`uint64_t`, the slot is the first occupied one in cyclic order from the current. -/
theorem nextOccupiedWord_first (l : Level level) (now : BitVec 64) (h : l.occupied ≠ 0) :
    ∃ k slot, IsLeast {k | l.OccupiedAfter now k} k ∧ l.nextOccupiedWord now = some slot ∧
      slot.toNat = (now.toNat / slotRange level + k) % 64 := by
  obtain ⟨k, slot, hslot, -, hv, hb, hlt⟩ := nextOccupiedSlot_eq h now.toNat
  rw [← slotRange_eq] at hv hlt
  have hword := l.nextOccupiedWord_toNat now
  rw [hslot, Option.map_some, Option.map_eq_some_iff] at hword
  obtain ⟨word, hword, hto⟩ := hword
  refine ⟨k, word, ⟨?_, ?_⟩, hword, ?_⟩
  · show l.occupied.getLsbD ((now.toNat / slotRange level + k) % 64) = true
    rw [Nat.add_comm, ← hv]
    exact hb
  · intro j hj
    by_contra hjk
    have hbit : l.occupied.getLsbD ((now.toNat / slotRange level + j) % 64) = true := hj
    rw [Nat.add_comm, hlt j (by omega)] at hbit
    cases hbit
  · rw [hto, hv, Nat.add_comm]

/-- At the last millisecond of level 0 the rotation count is -1 and the sum wraps. -/
theorem nextOccupiedWord_first_last :
    ∃ k slot, IsLeast {k | ({ occupied := 4#64 } : Level 0).OccupiedAfter (BitVec.allOnes 64) k} k ∧
      ({ occupied := 4#64 } : Level 0).nextOccupiedWord (BitVec.allOnes 64) = some slot ∧
      slot.toNat = ((BitVec.allOnes 64).toNat / slotRange (0 : Fin numLevels) + k) % 64 :=
  nextOccupiedWord_first _ _ (by decide)

end Kosio.Runtime.Level
