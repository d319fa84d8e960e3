import Mathlib.Algebra.GroupWithZero.Nat

/-!
# Runtime configuration
-/

namespace Kosio

/-- `NUM_LEVELS`: the levels of the timing wheel. -/
abbrev numLevels : Nat := 6

instance : NeZero numLevels := ⟨by decide⟩

/-- `LEVEL_MULT`: the slots of a level. -/
abbrev levelMult : Nat := 64

/-- `LOCAL_QUEUE_CAPACITY`. -/
abbrev localQueueCapacity : Nat := 256

structure Config where
  ioInterval : Nat := 61
  globalQueueInterval : Nat := 61

end Kosio
