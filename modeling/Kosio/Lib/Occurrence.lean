import Mathlib.Data.List.Basic

/-!
# Occurrences of a word in a list

`FirstAt w l p`: the word `w` occurs in `l` at position `p` and nowhere before.
A list that comes in pieces is `cs.flatten`; `Within n p cs` says that the `n`
letters from position `p` on lie in one piece.  Searching piece by piece finds
the first occurrence that is `Within`, which need not be the first one.
-/

namespace Occurrence

variable {α : Type*} {w l m : List α} {p q : Nat}

/-- `w` stands in `l` at position `p`. -/
def OccursAt (w l : List α) (p : Nat) : Prop := w <+: l.drop p

/-- `p` is the first position `w` occurs at. -/
def FirstAt (w l : List α) (p : Nat) : Prop := OccursAt w l p ∧ ∀ q < p, ¬ OccursAt w l q

theorem OccursAt.le (h : OccursAt w l p) (hw : w ≠ []) : p + w.length ≤ l.length := by
  have hlen : w.length ≤ (l.drop p).length := List.IsPrefix.length_le h
  have hpos : 0 < w.length := List.length_pos_iff.2 hw
  rw [List.length_drop] at hlen
  omega

theorem FirstAt.unique (hp : FirstAt w l p) (hq : FirstAt w l q) : p = q := by
  have h1 : ¬ q < p := fun hlt => hp.2 q hlt hq.1
  have h2 : ¬ p < q := fun hlt => hq.2 p hlt hp.1
  omega

/-- An occurrence that ends inside the front part is one of the front part. -/
theorem occursAt_append_left (h : p + w.length ≤ l.length) :
    OccursAt w (l ++ m) p ↔ OccursAt w l p := by
  unfold OccursAt
  rw [List.drop_append_of_le_length (by omega)]
  constructor
  · intro hpre
    exact List.prefix_of_prefix_length_le hpre (List.prefix_append _ _)
      (by rw [List.length_drop]; omega)
  · exact fun hpre => hpre.trans (List.prefix_append _ _)

theorem occursAt_append_right : OccursAt w (l ++ m) (l.length + p) ↔ OccursAt w m p := by
  unfold OccursAt
  rw [List.drop_length_add_append]

/-- A first occurrence in the front part is one in the whole list. -/
theorem FirstAt.append (hw : w ≠ []) (h : FirstAt w l p) : FirstAt w (l ++ m) p := by
  have hp := h.1.le hw
  refine ⟨(occursAt_append_left hp).2 h.1, fun q hq hocc => h.2 q hq ?_⟩
  exact (occursAt_append_left (by omega)).1 hocc

/-! ## Pieces -/

/-- The `n` letters from position `p` on lie inside one piece. -/
def Within (n p : Nat) : List (List α) → Prop
  | [] => False
  | c :: cs => p + n ≤ c.length ∨ c.length ≤ p ∧ Within n (p - c.length) cs

instance Within.decidable (n : Nat) : ∀ (p : Nat) (cs : List (List α)), Decidable (Within n p cs)
  | _, [] => isFalse id
  | p, c :: cs =>
    have := Within.decidable n (p - c.length) cs
    inferInstanceAs (Decidable (p + n ≤ c.length ∨ c.length ≤ p ∧ Within n (p - c.length) cs))

/-- One letter never lies across a boundary. -/
theorem within_one : ∀ (cs : List (List α)) (p : Nat), p < cs.flatten.length → Within 1 p cs := by
  intro cs
  induction cs with
  | nil => intro p hp; simp at hp
  | cons c cs ih =>
    intro p hp
    rw [List.flatten_cons, List.length_append] at hp
    by_cases hc : p < c.length
    · exact Or.inl hc
    · exact Or.inr ⟨by omega, ih _ (by omega)⟩

end Occurrence
