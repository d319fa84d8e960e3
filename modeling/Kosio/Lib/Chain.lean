import Mathlib.Data.List.Nodup
import Mathlib.Logic.Function.Basic

/-!
# Linked lists through a `next` field

`Chain next p l`: following `next` from the pointer `p` runs through exactly
the nodes `l` and ends at the null pointer.  Writing the field of a node
outside `l` changes nothing (`Chain.update`), so a node that is not yet linked
may set its own field and then be put in front (`Chain.push`).
-/

/-- The nodes met from `p` on, in order. -/
def Chain {α : Type*} (next : α → Option α) : Option α → List α → Prop
  | p, [] => p = none
  | p, a :: l => p = some a ∧ Chain next (next a) l

namespace Chain

variable {α : Type*} {next : α → Option α} {p : Option α} {l : List α}

theorem nil_iff : Chain next p [] ↔ p = none := Iff.rfl

/-- The first node is the one pointed to. -/
theorem start (h : Chain next p l) : p = l.head? := by
  cases l with
  | nil => exact h
  | cons a l => exact h.1

theorem none_iff : Chain next none l ↔ l = [] := by
  cases l <;> simp [Chain]

theorem some_iff {a : α} : Chain next (some a) l ↔ ∃ l', l = a :: l' ∧ Chain next (next a) l' := by
  cases l with
  | nil => simp [Chain]
  | cons b l =>
    simp only [Chain, Option.some.injEq, List.cons.injEq]
    constructor
    · rintro ⟨rfl, h⟩
      exact ⟨l, ⟨rfl, rfl⟩, h⟩
    · rintro ⟨l', ⟨rfl, rfl⟩, h⟩
      exact ⟨rfl, h⟩

theorem unique : ∀ {l l' : List α} {p : Option α}, Chain next p l → Chain next p l' → l = l'
  | [], l', p, h, h' => by
    rw [nil_iff] at h
    subst h
    exact (none_iff.1 h').symm
  | a :: l, l', p, h, h' => by
    obtain ⟨rfl, h⟩ := h
    obtain ⟨l'', rfl, h''⟩ := some_iff.1 h'
    rw [unique h h'']

variable [DecidableEq α]

/-- Fields of nodes off the list do not matter. -/
theorem update {a : α} {v : Option α} (h : Chain next p l) (ha : a ∉ l) :
    Chain (Function.update next a v) p l := by
  induction l generalizing p with
  | nil => exact h
  | cons b l ih =>
    obtain ⟨hp, hl⟩ := h
    rw [List.mem_cons, not_or] at ha
    refine ⟨hp, ?_⟩
    rw [Function.update_of_ne (Ne.symm ha.1)]
    exact ih hl ha.2

/-- Link a new node in front. -/
theorem push {a : α} (h : Chain next p l) (ha : a ∉ l) :
    Chain (Function.update next a p) (some a) (a :: l) :=
  ⟨rfl, by rw [Function.update_self]; exact h.update ha⟩

end Chain
