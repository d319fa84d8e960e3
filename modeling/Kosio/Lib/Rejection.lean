import Mathlib.Data.Fintype.BigOperators
import Mathlib.Logic.Equiv.Fin.Basic

/-!
# Rejection

One draws until a draw is accepted, and the first that is gives the result.  Where
every draw is one of finitely many, and as likely as any other, it is enough to
look at one draw: results that come from equally many draws are equally likely,
however often one may draw.
-/

namespace Rejection

variable {α β : Type*} {m : Nat}

def result (f : α → Option β) (rs : Fin m → α) : Option β := (List.ofFn rs).findSome? f

theorem result_cons (f : α → Option β) (r : α) (rs : Fin m → α) :
    result f (Fin.cons r rs : Fin (m + 1) → α) = (f r).or (result f rs) := by
  unfold result
  rw [List.ofFn_cons, List.findSome?_cons]
  cases f r <;> rfl

theorem result_isSome (f : α → Option β) (rs : Fin m → α) :
    (result f rs).isSome ↔ ∃ i, (f (rs i)).isSome := by
  unfold result
  rw [List.findSome?_isSome_iff]
  constructor
  · rintro ⟨r, hr, hsome⟩
    obtain ⟨i, rfl⟩ := List.mem_ofFn.1 hr
    exact ⟨i, hsome⟩
  · rintro ⟨i, hsome⟩
    exact ⟨rs i, List.mem_ofFn.2 ⟨i, rfl⟩, hsome⟩

theorem result_map {γ : Type*} (f : α → Option β) (g : β → γ) (rs : Fin m → α) :
    (result f rs).map g = result (fun r => (f r).map g) rs := List.map_findSome?

variable [Fintype α] [DecidableEq β]

/-- How many draws give `b`. -/
def draws (f : α → Option β) (b : Option β) : Nat := (Finset.univ.filter fun r => f r = b).card

/-- The first draw gives `b`, or it is rejected. -/
theorem draws_result_succ (f : α → Option β) (b : β) :
    draws (result f (m := m + 1)) (some b) =
      draws f (some b) * Fintype.card α ^ m +
        draws f none * draws (result f (m := m)) (some b) := by
  let S := Finset.univ.filter fun r => f r = some b
  let N := Finset.univ.filter fun r => f r = none
  let T := Finset.univ.filter fun rs : Fin m → α => result f rs = some b
  have hdisj : Disjoint (S ×ˢ Finset.univ) (N ×ˢ T) := by
    refine Finset.disjoint_product.2 (Or.inl (Finset.disjoint_filter.2 fun r _ hr => ?_))
    rw [hr]
    exact Option.some_ne_none b
  have hcons : ((S ×ˢ Finset.univ).disjUnion (N ×ˢ T) hdisj).card =
      draws (result f (m := m + 1)) (some b) := by
    refine Finset.card_equiv (Fin.consEquiv fun _ => α) fun p => ?_
    have hmem : Fin.consEquiv (fun _ => α) p ∈
        (Finset.univ.filter fun rs : Fin (m + 1) → α => result f rs = some b) ↔
          (f p.1).or (result f p.2) = some b := by
      rw [Finset.mem_filter, ← result_cons]
      exact and_iff_right (Finset.mem_univ _)
    rw [hmem, Finset.mem_disjUnion, Finset.mem_product, Finset.mem_product]
    simp only [S, N, T, Finset.mem_filter, Finset.mem_univ, true_and, and_true]
    exact Option.or_eq_some_iff.symm
  rw [← hcons, Finset.card_disjUnion, Finset.card_product, Finset.card_product,
    Finset.card_univ, Fintype.card_fun, Fintype.card_fin]
  rfl

theorem draws_result_congr {f : α → Option β} {b c : β} (h : draws f (some b) = draws f (some c)) :
    draws (result f (m := m)) (some b) = draws (result f (m := m)) (some c) := by
  induction m with
  | zero => rfl
  | succ m ih => rw [draws_result_succ, draws_result_succ, h, ih]

end Rejection
