import Mathlib.Algebra.BigOperators.Group.Finset.Basic
import Mathlib.Data.Fintype.Basic
import Mathlib.Data.List.Basic
import Mathlib.Data.List.Perm.Basic

/-!
# Tallies

What a list yields under a partial function, when the function changes at one
element of it: that one joins the tally and the others stay, so the new tally is
the old one and one more, up to order.  For sums over a finite type the same is
`sum_except`.
-/

namespace Tally

variable {α β : Type*} {l : List α} {w : α}

/-- `w`, which yielded nothing, now yields `b`. -/
theorem filterMap_flip {f g : α → Option β} {b : β} (hnd : l.Nodup) (hw : w ∈ l)
    (hf : f w = none) (hg : g w = some b) (hfg : ∀ a ∈ l, a ≠ w → g a = f a) :
    (l.filterMap g).Perm (b :: l.filterMap f) := by
  obtain ⟨pre, post, rfl⟩ := List.append_of_mem hw
  rw [List.nodup_append, List.nodup_cons] at hnd
  obtain ⟨-, ⟨hpost, -⟩, hpre⟩ := hnd
  have h1 : pre.filterMap g = pre.filterMap f := by
    apply List.filterMap_congr
    intro a ha
    exact hfg a (by simp [ha]) fun h => hpre a ha w List.mem_cons_self h
  have h2 : post.filterMap g = post.filterMap f := by
    apply List.filterMap_congr
    intro a ha
    exact hfg a (by simp [ha]) fun h => hpost (h ▸ ha)
  rw [List.filterMap_append, List.filterMap_append, List.filterMap_cons_some hg,
    List.filterMap_cons_none hf, h1, h2]
  exact List.perm_middle

/-- `w`, which was left out, is now let in. -/
theorem filter_flip {p q : α → Bool} (hnd : l.Nodup) (hw : w ∈ l) (hp : p w = false)
    (hq : q w = true) (hpq : ∀ a ∈ l, a ≠ w → q a = p a) :
    (l.filter q).Perm (w :: l.filter p) := by
  rw [← List.filterMap_eq_filter, ← List.filterMap_eq_filter]
  refine filterMap_flip hnd hw (by simp [Option.guard, hp]) (by simp [Option.guard, hq]) ?_
  intro a ha hne
  simp [Option.guard, hpq a ha hne]

/-- Two sums that differ in one place. -/
theorem sum_except {ι M : Type*} [Fintype ι] [DecidableEq ι] [AddCommMonoid M] {f g : ι → M}
    (i : ι) (h : ∀ j, j ≠ i → g j = f j) : (∑ j, g j) + f i = (∑ j, f j) + g i := by
  have h1 := Finset.add_sum_erase Finset.univ f (Finset.mem_univ i)
  have h2 := Finset.add_sum_erase Finset.univ g (Finset.mem_univ i)
  have h3 : ∑ j ∈ Finset.univ.erase i, g j = ∑ j ∈ Finset.univ.erase i, f j :=
    Finset.sum_congr rfl fun j hj => h j (Finset.ne_of_mem_erase hj)
  rw [← h1, ← h2, h3]
  ac_rfl

end Tally
