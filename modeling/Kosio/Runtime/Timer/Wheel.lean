import Mathlib.Algebra.Group.Nat.Defs
import Mathlib.Order.Fin.Basic
import Kosio.Runtime.Timer.Timer

/-!
# The wheel: where entries are and what comes next

`Placed e level slot w`: at time `e` an entry due at `w` may be in that slot.
Only the current digit and the ones above it count, so an entry stays placed
while time moves, up to the start of its slot (`Placed.later`).

The next deadline is a lower bound of what is stored as long as the wheel is
not in `Conflict`: in the top level, which wraps around, an entry 64 slots or
more ahead may sit in the current slot, and the search then looks past the
nearer ones (`Inv.nextExpiration`).
-/

namespace Kosio.Runtime

open Bits

/-! ## Algorithm -/

/-- The start of the slot of `w`. -/
def reach (level : Fin numLevels) (w : Nat) : Nat := w / 64 ^ level.val * 64 ^ level.val

structure Placed (e : Nat) (level : Fin numLevels) (slot : Fin levelMult) (w : Nat) : Prop where
  /-- below the top level, the same round -/
  round : level.val < 5 → e / 64 ^ (level.val + 1) = w / 64 ^ (level.val + 1)
  /-- a later slot -/
  ahead : e / 64 ^ level.val < w / 64 ^ level.val
  slot : slot = Level.slotFor level w

namespace Timer

variable {D H : Type}

def slots (t : Timer D H) (level : Fin numLevels) (slot : Fin levelMult) : List Nat :=
  (t.levels level).slots slot

def Stored (t : Timer D H) (i : Nat) : Prop := ∃ level slot, i ∈ t.slots level slot

/-- What holds of the slots whenever a deadline is looked for. -/
structure Inv (t : Timer D H) : Prop where
  placed : ∀ level slot, ∀ i ∈ t.slots level slot, Placed t.elapsed level slot (t.when_ i)
  marked : ∀ level, (t.levels level).Marked
  sorted : ∀ level slot, (t.slots level slot).Pairwise (· < ·)
  made : ∀ level slot, ∀ i ∈ t.slots level slot, i < t.made

/-- The lower levels are empty, the current slot of the top level is occupied,
and something in the top level is due fewer than 64 slots ahead. -/
def Conflict (t : Timer D H) : Prop :=
  (∀ level, level ≠ 5 → ∀ slot, t.slots level slot = []) ∧
  t.slots 5 (Level.slotFor 5 t.elapsed) ≠ [] ∧
  ∃ slot, ∃ i ∈ t.slots 5 slot, t.when_ i / 64 ^ 5 < t.elapsed / 64 ^ 5 + 64

end Timer

/-! ## Placement -/

section Placed

variable {e e' w : Nat} {level : Fin numLevels} {slot : Fin levelMult}

theorem lt_reach (x : Nat) : x < reach level w ↔ x / 64 ^ level.val < w / 64 ^ level.val := by
  unfold reach
  exact (Nat.div_lt_iff_lt_mul (Nat.pow_pos (by decide))).symm

theorem reach_le : reach level w ≤ w := Nat.div_mul_le_self w _

theorem Placed.lt (h : Placed e level slot w) : e < w :=
  lt_of_lt_of_le ((lt_reach e).2 h.ahead) reach_le

/-- Time may move up to the start of the slot. -/
theorem Placed.later (h : Placed e level slot w) (he : e ≤ e') (hlt : e' < reach level w) :
    Placed e' level slot w := by
  refine ⟨fun hl => ?_, (lt_reach e').1 hlt, h.slot⟩
  have h1 : e / 64 ^ (level.val + 1) ≤ e' / 64 ^ (level.val + 1) := Nat.div_le_div_right he
  have h2 : e' / 64 ^ (level.val + 1) ≤ w / 64 ^ (level.val + 1) :=
    Nat.div_le_div_right (le_of_lt (lt_of_lt_of_le hlt reach_le))
  have h3 := h.round hl
  omega

/-- `level_for` finds it. -/
theorem placed_levelFor (h : e < w) :
    Placed e (levelFor e w) (Level.slotFor (levelFor e w) w) w := by
  have hs := significant_spec e w
  have hle : ∀ n, e / n ≤ w / n := fun n => Nat.div_le_div_right (le_of_lt h)
  simp only [show slotMask = 2 ^ 6 - 1 from rfl, maxDuration_eq] at hs
  have hlv : (levelFor e w).val = significant e w / 6 := rfl
  by_cases hbig : (e ^^^ w) ||| (2 ^ 6 - 1) ≥ 68719476735
  · rw [if_pos hbig] at hs
    have hsig : significant e w = 35 := by
      have h1 : significant e w < 36 := significant_lt e w
      have h2 : 2 ^ 35 < 2 ^ (significant e w + 1) := lt_of_le_of_lt (by omega) hs.2
      have := (Nat.pow_lt_pow_iff_right (by decide)).1 h2
      omega
    have hl5 : (levelFor e w).val = 5 := by rw [hlv, hsig]
    refine ⟨fun hl => absurd hl (by omega), ?_, rfl⟩
    have hne : ¬ (e ^^^ w) ||| (2 ^ 6 - 1) < 2 ^ 30 := by omega
    rw [xor_or_lt e w (by decide)] at hne
    have := hle (2 ^ 30)
    rw [hl5]
    show e / 2 ^ 30 < w / 2 ^ 30
    omega
  · rw [if_neg hbig] at hs
    have hd := highest_digit (k := 6) (by decide) hs.1 hs.2
    refine ⟨fun _ => hd.1, ?_, rfl⟩
    rw [hlv]
    by_cases h0 : significant e w / 6 = 0
    · rw [h0]
      simpa using h
    · exact lt_of_le_of_ne (hle _) (hd.2 h0)

/-- An entry whose slot has been reached moves to a lower level. -/
theorem levelFor_lt (h : e < w) (heq : e / 64 ^ level.val = w / 64 ^ level.val) :
    levelFor e w < level := by
  by_contra hle
  have := div_pow_eq_of_le (show level.val ≤ (levelFor e w).val from not_lt.1 hle) heq
  have := (placed_levelFor h).ahead
  omega

end Placed

namespace Timer

variable {D H : Type} {t u : Timer D H}

/-! ## Slots under the operations -/

theorem slots_addEntry (t : Timer D H) (l level : Fin numLevels) (i w : Nat) (slot : Fin levelMult) :
    (t.addEntry l i w).slots level slot =
      if level = l ∧ slot = Level.slotFor l w then t.slots level slot ++ [i]
      else t.slots level slot := by
  unfold slots addEntry
  by_cases hl : level = l
  · subst hl
    simp only [Function.update_self, Level.addEntry, true_and]
    by_cases hs : slot = Level.slotFor level w
    · subst hs
      simp
    · simp [hs]
  · simp [hl]

theorem mem_slots_addEntry {l level : Fin numLevels} {i j w : Nat} {slot : Fin levelMult} :
    j ∈ (t.addEntry l i w).slots level slot ↔
      j ∈ t.slots level slot ∨ (j = i ∧ level = l ∧ slot = Level.slotFor l w) := by
  rw [slots_addEntry]
  split <;> simp_all

theorem marked_addEntry (h : ∀ level, (t.levels level).Marked) (l : Fin numLevels) (i w : Nat)
    (level : Fin numLevels) : ((t.addEntry l i w).levels level).Marked := by
  unfold addEntry
  by_cases hl : level = l
  · subst hl
    simpa using (h level).addEntry i w
  · simpa [hl] using h level

theorem slots_takeEntries (t : Timer D H) (x : Expiration) (level : Fin numLevels)
    (slot : Fin levelMult) :
    (t.takeEntries x).2.slots level slot =
      if level = x.level ∧ slot = x.slot then [] else t.slots level slot := by
  unfold slots takeEntries
  by_cases hl : level = x.level
  · subst hl
    simp only [Function.update_self, Level.takeSlot, true_and]
    by_cases hs : slot = x.slot
    · subst hs
      simp
    · simp [hs]
  · simp [hl]

theorem marked_takeEntries (h : ∀ level, (t.levels level).Marked) (x : Expiration)
    (level : Fin numLevels) : ((t.takeEntries x).2.levels level).Marked := by
  unfold takeEntries
  by_cases hl : level = x.level
  · subst hl
    simpa using (h x.level).takeSlot x.slot
  · simpa [hl] using h level

theorem Inv.stored_lt (h : t.Inv) {i : Nat} (hi : t.Stored i) : t.elapsed < t.when_ i := by
  obtain ⟨level, slot, hi⟩ := hi
  exact (h.placed level slot i hi).lt

/-! ## The next deadline -/

theorem nextExpiration_cases (h : ∀ level, (t.levels level).Marked) :
    (t.nextExpiration = none ∧ ∀ level slot, t.slots level slot = []) ∨
    ∃ x, t.nextExpiration = some x ∧ (t.levels x.level).nextExpiration t.elapsed = some x ∧
      ∀ level < x.level, ∀ slot, t.slots level slot = [] := by
  unfold nextExpiration
  cases hx : (List.finRange numLevels).findSome?
      fun level => (t.levels level).nextExpiration t.elapsed with
  | none =>
    refine Or.inl ⟨rfl, fun level slot => ?_⟩
    rw [List.findSome?_eq_none_iff] at hx
    exact (Level.nextExpiration_none (h level) _).1 (hx level (List.mem_finRange level)) slot
  | some x =>
    obtain ⟨l1, level, l2, hl, he, hn⟩ := List.findSome?_eq_some_iff.1 hx
    have hlevel : x.level = level := (Level.nextExpiration_eq (h level) he).1
    subst hlevel
    refine Or.inr ⟨x, rfl, he, fun l' hlt slot => ?_⟩
    have hmem : l' ∈ l1 ++ x.level :: l2 := hl ▸ List.mem_finRange l'
    have hp : (l1 ++ x.level :: l2).Pairwise (· < ·) := hl ▸ List.pairwise_lt_finRange _
    rw [List.pairwise_append, List.pairwise_cons] at hp
    rcases List.mem_append.1 hmem with hm | hm
    · exact (Level.nextExpiration_none (h l') _).1 (hn l' hm) slot
    · rcases List.mem_cons.1 hm with rfl | hm
      · exact absurd hlt (lt_irrefl _)
      · exact absurd (hp.2.1.1 l' hm) (not_lt.2 (le_of_lt hlt))

/-- What the next expiration is, for every state; `k` counts slots. -/
theorem nextExpiration_eq (h : ∀ level, (t.levels level).Marked) {x : Expiration} (hx : t.nextExpiration = some x) :
    t.slots x.level x.slot ≠ [] ∧ (∀ level < x.level, ∀ slot, t.slots level slot = []) ∧
    ∃ k < 64, x.slot.val = (k + t.elapsed / 64 ^ x.level.val) % 64 ∧
      x.deadline = (t.elapsed / 64 ^ x.level.val + if k = 0 then 64 else k) * 64 ^ x.level.val ∧
      ∀ slot : Fin levelMult, t.slots x.level slot ≠ [] →
        ∀ j < k, slot.val ≠ (j + t.elapsed / 64 ^ x.level.val) % 64 := by
  rcases nextExpiration_cases h with ⟨hn, -⟩ | ⟨y, hy, he, hlow⟩
  · rw [hn] at hx
    cases hx
  · rw [hx] at hy
    cases hy
    obtain ⟨-, hne, hk⟩ := Level.nextExpiration_eq (h x.level) he
    exact ⟨hne, hlow, hk⟩

/-- The deadline is always in the future, so the loop ends. -/
theorem deadline_gt (h : ∀ level, (t.levels level).Marked) {x : Expiration}
    (hx : t.nextExpiration = some x) : t.elapsed < x.deadline := by
  obtain ⟨-, -, k, -, -, hd, -⟩ := nextExpiration_eq h hx
  rw [hd, ← Nat.div_lt_iff_lt_mul (Nat.pow_pos (by decide))]
  split <;> omega

/-- In a round that is the current one, a later digit tells how far a slot is. -/
theorem eq_add_of_round {u v k : Nat} (h : u < v) (hr : u / 64 = v / 64) (hk : k < 64)
    (hm : (k + u) % 64 = v % 64) : k ≠ 0 ∧ v = u + k := by omega

theorem le_of_first {u v k : Nat} (h : u < v) (hf : ∀ j < k, v % 64 ≠ (j + u) % 64) :
    k ≤ v - u := by
  by_contra hlt
  exact hf ((v - u) % 64) (by omega) (by omega)

/-- **Next deadline.**  Out of conflict it is the start of the chosen slot for
the entries there (below the top level), and before the start of every other
occupied slot. -/
theorem Inv.nextExpiration (h : t.Inv) (hc : ¬ t.Conflict) {x : Expiration}
    (hx : t.nextExpiration = some x) :
    (x.level.val < 5 → ∀ i ∈ t.slots x.level x.slot, reach x.level (t.when_ i) = x.deadline) ∧
    (∀ i ∈ t.slots x.level x.slot, x.deadline ≤ reach x.level (t.when_ i)) ∧
    ∀ level slot, ¬ (level = x.level ∧ slot = x.slot) → ∀ i ∈ t.slots level slot,
      x.deadline < reach level (t.when_ i) := by
  obtain ⟨hne, hlow, k, hk, hv, hd, hfirst⟩ := nextExpiration_eq h.marked hx
  generalize hu : t.elapsed / 64 ^ x.level.val = u at hv hd hfirst
  have hslot : ∀ slot, ∀ i ∈ t.slots x.level slot,
      u < t.when_ i / 64 ^ x.level.val ∧ slot.val = t.when_ i / 64 ^ x.level.val % 64 := by
    intro slot i hi
    have hp := h.placed _ _ i hi
    exact ⟨hu ▸ hp.ahead, hp.slot ▸ slotFor_val _ _⟩
  have hpos : 0 < 64 ^ x.level.val := Nat.pow_pos (by decide)
  -- an entry in the `k`th slot or later
  have hfar : ∀ slot, ∀ i ∈ t.slots x.level slot, k ≤ t.when_ i / 64 ^ x.level.val - u := by
    intro slot i hi
    obtain ⟨h1, h2⟩ := hslot slot i hi
    refine le_of_first h1 fun j hj he => ?_
    exact hfirst slot (List.ne_nil_of_mem hi) j hj (h2.trans he)
  by_cases hl : x.level.val < 5
  · -- below the top level everything is in the current round
    have hround : ∀ slot, ∀ i ∈ t.slots x.level slot, u / 64 = t.when_ i / 64 ^ x.level.val / 64 := by
      intro slot i hi
      have := (h.placed _ _ i hi).round hl
      rwa [Nat.pow_succ, ← Nat.div_div_eq_div_mul, ← Nat.div_div_eq_div_mul, hu] at this
    have hhere : ∀ i ∈ t.slots x.level x.slot, k ≠ 0 ∧ t.when_ i / 64 ^ x.level.val = u + k := by
      intro i hi
      obtain ⟨h1, h2⟩ := hslot _ i hi
      exact eq_add_of_round h1 (hround _ i hi) hk (hv.symm.trans h2)
    obtain ⟨i0, hi0⟩ := List.exists_mem_of_ne_nil _ hne
    have hk0 := (hhere i0 hi0).1
    rw [if_neg hk0] at hd
    have heq : ∀ i ∈ t.slots x.level x.slot, reach x.level (t.when_ i) = x.deadline := by
      intro i hi
      rw [reach, (hhere i hi).2, hd]
    refine ⟨fun _ => heq, fun i hi => (heq i hi).ge, fun level slot hnot i hi => ?_⟩
    have hdiv : x.deadline / 64 ^ x.level.val = u + k := by
      rw [hd, Nat.mul_div_cancel _ hpos]
    rcases lt_trichotomy level x.level with hlt | rfl | hgt
    · rw [hlow level hlt slot] at hi
      cases hi
    · rw [lt_reach, hdiv]
      obtain ⟨h1, h2⟩ := hslot _ i hi
      have h3 := hfar _ i hi
      have h4 : slot.val ≠ x.slot.val := fun he => hnot ⟨rfl, Fin.ext he⟩
      rw [h2, hv] at h4
      omega
    · -- the deadline is in the current round of `x.level`, so in the current slot of `level`
      rw [lt_reach]
      have hsame : t.elapsed / 64 ^ (x.level.val + 1) = x.deadline / 64 ^ (x.level.val + 1) := by
        rw [Nat.pow_succ, ← Nat.div_div_eq_div_mul, ← Nat.div_div_eq_div_mul, hu, hdiv,
          ← (hhere i0 hi0).2]
        exact hround _ i0 hi0
      have := div_pow_eq_of_le (show x.level.val + 1 ≤ level.val from hgt) hsame
      have := (h.placed _ _ i hi).ahead
      omega
  · have h5 : x.level = 5 := by
      apply Fin.ext
      have : x.level.val < 6 := x.level.isLt
      show x.level.val = 5
      omega
    have hempty : ∀ level, level ≠ 5 → ∀ slot, t.slots level slot = [] := by
      intro level hne5 slot
      refine hlow level ?_ slot
      have : level.val < 6 := level.isLt
      have : level.val ≠ 5 := fun he => hne5 (Fin.ext he)
      show level.val < x.level.val
      omega
    have hle : ∀ slot, ∀ i ∈ t.slots x.level slot,
        (u + if k = 0 then 64 else k) ≤ t.when_ i / 64 ^ x.level.val := by
      intro slot i hi
      obtain ⟨h1, -⟩ := hslot _ i hi
      have h3 := hfar _ i hi
      split
      · next hk0 =>
        -- the current slot is occupied: out of conflict nothing is nearer
        by_contra hlt
        refine hc ⟨hempty, ?_, slot, i, h5 ▸ hi, ?_⟩
        · have : Level.slotFor 5 t.elapsed = x.slot := by
            apply Fin.ext
            rw [slotFor_val, hv, ← hu, h5, hk0]
            simp
          rw [this, ← h5]
          exact hne
        · rw [h5] at hu hlt
          show _ / 64 ^ (5 : Fin numLevels).val < t.elapsed / 64 ^ (5 : Fin numLevels).val + 64
          rw [hu]
          omega
      · omega
    refine ⟨fun h' => absurd h' hl, fun i hi => ?_, fun level slot hnot i hi => ?_⟩
    · rw [hd, reach]
      exact Nat.mul_le_mul_right _ (hle _ i hi)
    · have hl5 : level = x.level := by
        by_contra hne'
        rw [hempty level (fun he => hne' (he.trans h5.symm))] at hi
        cases hi
      subst hl5
      rw [hd, reach]
      refine Nat.mul_lt_mul_of_pos_right ?_ hpos
      have h1 := hle _ i hi
      have h2 := (hslot _ i hi).2
      have h4 : slot.val ≠ x.slot.val := fun he => hnot ⟨rfl, Fin.ext he⟩
      rw [h2, hv] at h4
      split at h1 <;> split <;> omega

/-- Out of conflict the next deadline is a lower bound. -/
theorem Inv.deadline_le (h : t.Inv) (hc : ¬ t.Conflict) {x : Expiration}
    (hx : t.nextExpiration = some x) {level : Fin numLevels} {slot : Fin levelMult} {i : Nat}
    (hi : i ∈ t.slots level slot) : x.deadline ≤ reach level (t.when_ i) := by
  obtain ⟨-, h1, h2⟩ := h.nextExpiration hc hx
  by_cases hx' : level = x.level ∧ slot = x.slot
  · obtain ⟨rfl, rfl⟩ := hx'
    exact h1 i hi
  · exact le_of_lt (h2 level slot hx' i hi)

end Timer

end Kosio.Runtime
