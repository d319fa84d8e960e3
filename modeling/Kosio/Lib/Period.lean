import Mathlib.Data.Fintype.EquivFin
import Mathlib.Data.Nat.Prime.Basic
import Mathlib.Dynamics.PeriodicPts.Defs

/-!
# Points of maximal period

A map of a finite set that fixes `z` moves the other points among themselves.
If the period of one of them is as large as it can be,

    minimalPeriod f x + 1 = card α,

there is one cycle, and every point but `z` comes to `x` (`reaches_of_maximal`).
A period is found out with few iterates: `n` is the minimal one if it is one and
`n / q` is none for each prime `q` of `n` (`minimalPeriod_eq_of_prime`).
-/

namespace Period

open Function

variable {α : Type*} {f : α → α} {x y z : α}

theorem minimalPeriod_eq_of_prime {n : Nat} (h : IsPeriodicPt f n x)
    (hq : ∀ q, q.Prime → q ∣ n → ¬ IsPeriodicPt f (n / q) x) : minimalPeriod f x = n := by
  obtain ⟨k, hk⟩ := h.minimalPeriod_dvd
  by_cases h1 : k = 1
  · rw [h1, Nat.mul_one] at hk
    exact hk.symm
  · exfalso
    have hprime := Nat.minFac_prime h1
    obtain ⟨m, hm⟩ := Nat.minFac_dvd k
    have hdiv : n = k.minFac * (minimalPeriod f x * m) := by
      rw [Nat.mul_left_comm, ← hm]
      exact hk
    refine hq k.minFac hprime ⟨_, hdiv⟩ (isPeriodicPt_iff_minimalPeriod_dvd.2 ⟨m, ?_⟩)
    exact Nat.div_eq_of_eq_mul_right hprime.pos hdiv

/-- A point that is not fixed does not come to a fixed one if it comes back. -/
theorem iterate_ne_fixed {n : Nat} (hn : 0 < n) (h : IsPeriodicPt f n x) (hz : f z = z)
    (hne : x ≠ z) (k : Nat) : f^[k] x ≠ z := by
  intro hk
  have hfix : f^[k * n] x = z := by
    obtain ⟨j, hj⟩ := Nat.exists_eq_add_of_le (Nat.le_mul_of_pos_right k hn)
    rw [hj, Nat.add_comm, iterate_add_apply, hk]
    exact iterate_fixed hz j
  exact hne ((h.const_mul k).symm.trans hfix)

theorem reaches_of_maximal [Fintype α] (hz : f z = z) (hne : x ≠ z)
    (h : minimalPeriod f x + 1 = Fintype.card α) (hy : y ≠ z) :
    ∃ k, f^[k + 1] y = x := by
  classical
  have hper := isPeriodicPt_minimalPeriod f x
  have hpos : 0 < minimalPeriod f x := by
    have := Fintype.one_lt_card_iff.2 ⟨x, z, hne⟩
    omega
  -- the cycle has as many points as there are besides `z`
  have hcycle : (Finset.range (minimalPeriod f x)).image (f^[·] x) = Finset.univ.erase z := by
    apply Finset.eq_of_subset_of_card_le
    · intro v hv
      obtain ⟨k, -, rfl⟩ := Finset.mem_image.1 hv
      exact Finset.mem_erase.2 ⟨iterate_ne_fixed hpos hper hz hne k, Finset.mem_univ _⟩
    · rw [Finset.card_image_of_injOn, Finset.card_range,
        Finset.card_erase_of_mem (Finset.mem_univ _), Finset.card_univ]
      · omega
      · rw [Finset.coe_range]
        exact iterate_injOn_Iio_minimalPeriod
  have hmem : y ∈ (Finset.range (minimalPeriod f x)).image (f^[·] x) := by
    rw [hcycle]
    exact Finset.mem_erase.2 ⟨hy, Finset.mem_univ _⟩
  obtain ⟨k, hk, rfl⟩ := Finset.mem_image.1 hmem
  obtain ⟨j, hj⟩ := Nat.exists_eq_add_of_lt (Finset.mem_range.1 hk)
  refine ⟨j, ?_⟩
  rw [← iterate_add_apply, show j + 1 + k = minimalPeriod f x by omega]
  exact hper

end Period
