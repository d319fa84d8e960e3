import Mathlib.Data.Multiset.AddSub
import Mathlib.Data.Multiset.UnionInter
import Mathlib.Logic.Function.Basic

/-!
# Ownership

Cells that are live, and owners with the cells of each: every live cell has one
owner, which has it once (`Owned`).  What a step does to the cells of two owners
keeps this as long as the two have no cell twice between them, take none from a
third and account for what becomes live and what is freed (`Owned.exchange`).
The usual steps are cases of it: cells are allocated, a cell is freed, cells change
hands.
-/

namespace Ownership

variable {κ ω : Type*} {live live' : κ → Prop} {ids ids' : ω → Multiset κ} {o o' : ω}

structure Owned (live : κ → Prop) (ids : ω → Multiset κ) : Prop where
  nodup : ∀ o, (ids o).Nodup
  live_iff : ∀ x, live x ↔ ∃ o, x ∈ ids o
  unique : ∀ o o' x, x ∈ ids o → x ∈ ids o' → o = o'

theorem Owned.live_of_mem {x : κ} (h : Owned live ids) (hx : x ∈ ids o) : live x :=
  (h.live_iff x).2 ⟨o, hx⟩

theorem Owned.live_of_add {x : κ} (h : Owned live ids) (hx : x ∈ ids o + ids o') : live x := by
  rcases Multiset.mem_add.1 hx with hx | hx
  · exact h.live_of_mem hx
  · exact h.live_of_mem hx

theorem Owned.nodup_add (h : Owned live ids) (hne : o ≠ o') : (ids o + ids o').Nodup := by
  rw [Multiset.nodup_add, Multiset.disjoint_left]
  exact ⟨h.nodup o, h.nodup o', fun {x} hx hx' => hne (h.unique o o' x hx hx')⟩

/-- What a third owner has is not among the cells of the two. -/
theorem Owned.notMem_add {p : ω} {x : κ} (h : Owned live ids) (hp : p ≠ o) (hp' : p ≠ o')
    (hx : x ∈ ids p) : x ∉ ids o + ids o' := by
  intro hm
  rcases Multiset.mem_add.1 hm with hm | hm
  · exact hp (h.unique p o x hx hm)
  · exact hp' (h.unique p o' x hx hm)

/-- Only the cells of `o` and `o'` change. -/
theorem Owned.exchange (h : Owned live ids) (hne : o ≠ o')
    (hother : ∀ p, p ≠ o → p ≠ o' → ids' p = ids p) (hnd : (ids' o + ids' o').Nodup)
    (hlive : ∀ x, live' x ↔ x ∈ ids' o + ids' o' ∨ live x ∧ x ∉ ids o + ids o')
    (hold : ∀ x ∈ ids' o + ids' o', live x → x ∈ ids o + ids o') : Owned live' ids' := by
  -- what a third owner has, the two do not get
  have hthird : ∀ p x, p ≠ o → p ≠ o' → x ∈ ids' p → x ∉ ids' o + ids' o' := by
    intro p x hp hp' hx hm
    rw [hother p hp hp'] at hx
    exact h.notMem_add hp hp' hx (hold x hm (h.live_of_mem hx))
  rw [Multiset.nodup_add, Multiset.disjoint_left] at hnd
  obtain ⟨ho, ho', hdis⟩ := hnd
  refine ⟨?_, ?_, ?_⟩
  · intro p
    by_cases hp : p = o
    · rwa [hp]
    · by_cases hp' : p = o'
      · rwa [hp']
      · rw [hother p hp hp']
        exact h.nodup p
  · intro x
    rw [hlive]
    constructor
    · rintro (hx | ⟨hl, hx⟩)
      · rcases Multiset.mem_add.1 hx with hx | hx
        · exact ⟨o, hx⟩
        · exact ⟨o', hx⟩
      · obtain ⟨p, hp⟩ := (h.live_iff x).1 hl
        rw [Multiset.mem_add, not_or] at hx
        refine ⟨p, ?_⟩
        rw [hother p (by rintro rfl; exact hx.1 hp) (by rintro rfl; exact hx.2 hp)]
        exact hp
    · rintro ⟨p, hp⟩
      by_cases hpo : p = o
      · exact .inl (Multiset.mem_add.2 (.inl (hpo ▸ hp)))
      · by_cases hpo' : p = o'
        · exact .inl (Multiset.mem_add.2 (.inr (hpo' ▸ hp)))
        · rw [hother p hpo hpo'] at hp
          exact .inr ⟨h.live_of_mem hp, h.notMem_add hpo hpo' hp⟩
  · intro p q x hp hq
    by_cases hpo : p = o ∨ p = o'
    · have hx : x ∈ ids' o + ids' o' := by
        rw [Multiset.mem_add]
        rcases hpo with rfl | rfl
        · exact .inl hp
        · exact .inr hp
      by_cases hqo : q = o ∨ q = o'
      · rcases hpo with rfl | rfl <;> rcases hqo with rfl | rfl
        · rfl
        · exact absurd hq (hdis hp)
        · exact absurd hp (hdis hq)
        · rfl
      · rw [not_or] at hqo
        exact absurd hx (hthird q x hqo.1 hqo.2 hq)
    · rw [not_or] at hpo
      by_cases hqo : q = o ∨ q = o'
      · refine absurd ?_ (hthird p x hpo.1 hpo.2 hp)
        rw [Multiset.mem_add]
        rcases hqo with rfl | rfl
        · exact .inl hq
        · exact .inr hq
      · rw [not_or] at hqo
        rw [hother p hpo.1 hpo.2] at hp
        rw [hother q hqo.1 hqo.2] at hq
        exact h.unique p q x hp hq

/-- Cells change hands, and the new cells `c` get an owner. -/
theorem Owned.alloc {c : Multiset κ} (h : Owned live ids) (hne : o ≠ o')
    (hother : ∀ p, p ≠ o → p ≠ o' → ids' p = ids p) (hc : c.Nodup) (hfresh : ∀ x ∈ c, ¬ live x)
    (hids : ids' o + ids' o' = c + (ids o + ids o')) (hlive : ∀ x, live' x ↔ x ∈ c ∨ live x) :
    Owned live' ids' := by
  have hmem : ∀ x, x ∈ ids o + ids o' → live x := fun x => h.live_of_add
  apply h.exchange hne hother
  · rw [hids, Multiset.nodup_add, Multiset.disjoint_left]
    exact ⟨hc, h.nodup_add hne, fun {x} hx hx' => hfresh x hx (hmem x hx')⟩
  · intro x
    rw [hlive, hids, Multiset.mem_add]
    have := hmem x
    tauto
  · intro x hx hl
    rw [hids, Multiset.mem_add] at hx
    exact hx.resolve_left fun hx => hfresh x hx hl

/-- Cells change hands. -/
theorem Owned.move (h : Owned live ids) (hne : o ≠ o')
    (hother : ∀ p, p ≠ o → p ≠ o' → ids' p = ids p) (hids : ids' o + ids' o' = ids o + ids o')
    (hlive : ∀ x, live' x ↔ live x) : Owned live' ids' := by
  apply h.alloc hne hother (c := 0) Multiset.nodup_zero
  · intro x hx
    exact absurd hx (Multiset.notMem_zero x)
  · rw [hids, Multiset.zero_add]
  · intro x
    rw [hlive]
    simp

/-- Cell `c` of `o` is freed. -/
theorem Owned.free {c : κ} (h : Owned live ids) (hother : ∀ p, p ≠ o → ids' p = ids p)
    (hids : ids o = c ::ₘ ids' o) (hlive : ∀ x, live' x ↔ live x ∧ x ≠ c) : Owned live' ids' := by
  have hnd := h.nodup o
  rw [hids, Multiset.nodup_cons] at hnd
  have hmem : ∀ p x, x ∈ ids' p ↔ x ∈ ids p ∧ x ≠ c := by
    intro p x
    by_cases hp : p = o
    · rw [hp, hids, Multiset.mem_cons]
      constructor
      · intro hx
        exact ⟨.inr hx, fun hxc => hnd.1 (hxc ▸ hx)⟩
      · rintro ⟨hx, hxc⟩
        exact hx.resolve_left hxc
    · rw [hother p hp]
      refine (and_iff_left_of_imp fun hx => ?_).symm
      rintro rfl
      exact hp (h.unique p o x hx (by rw [hids]; exact Multiset.mem_cons_self x _))
  refine ⟨?_, ?_, ?_⟩
  · intro p
    by_cases hp : p = o
    · rw [hp]
      exact hnd.2
    · rw [hother p hp]
      exact h.nodup p
  · intro x
    simp only [hlive, h.live_iff, hmem, exists_and_right]
  · intro p q x hp hq
    exact h.unique p q x ((hmem p x).1 hp).1 ((hmem q x).1 hq).1

end Ownership
