import Mathlib.Data.List.Nodup
import Kosio.Lib.Run

/-!
# A lock that is handed over

The abstract lock is a line: whoever is first owns the lock, the others wait.
`acquire` joins at the end (of an empty line: takes the lock), `release` leaves
at the front and so hands the lock to the next.  An attempt that fails changes
nothing and has no action of its own.

There is at most one owner, nobody stands in line twice (`HandOff.nodup_run`),
and the lock is given out in the order it was asked for (`HandOff.fifo`).
-/

namespace HandOff

open Steps

variable {α : Type*}

inductive Act (α : Type*) where
  | acquire (a : α)
  | release (a : α)

def owner (l : List α) : Option α := l.head?

/-- Who asked, in order. -/
def acquired (as : List (Act α)) : List α :=
  as.filterMap fun | .acquire a => some a | .release _ => none

/-- Who gave the lock back, in order. -/
def released (as : List (Act α)) : List α :=
  as.filterMap fun | .acquire _ => none | .release a => some a

variable [DecidableEq α]

def step : List α → Act α → Option (List α)
  | l, .acquire a => if a ∈ l then none else some (l ++ [a])
  | [], .release _ => none
  | b :: l, .release a => if b = a then some l else none

theorem step_acquire {l t : List α} {a : α} :
    step l (.acquire a) = some t ↔ a ∉ l ∧ t = l ++ [a] := by
  simp only [step]
  split
  · next h => simp [h]
  · next h => simp [h, eq_comm]

theorem step_release {l t : List α} {a : α} : step l (.release a) = some t ↔ l = a :: t := by
  cases l with
  | nil => simp [step]
  | cons b l =>
    simp only [step, List.cons.injEq]
    split
    · next h => simp [h]
    · next h => simp [h]

theorem nodup_step (l : List α) (a : Act α) (t : List α) (h : l.Nodup) (hs : step l a = some t)
    (_ : True) : t.Nodup := by
  cases a with
  | acquire a =>
    obtain ⟨ha, rfl⟩ := step_acquire.1 hs
    rw [← List.concat_eq_append]
    exact h.concat ha
  | release a =>
    rw [step_release.1 hs] at h
    exact h.of_cons

theorem nodup_run {l t : List α} {as : List (Act α)} (h : l.Nodup) (hr : run step l as = some t) :
    t.Nodup :=
  run_inv List.Nodup nodup_step h hr (eachStep_true l as)

/-- **First come, first served.**  Those who have given the lock back and those
still in line are, in order, those who were in line and those who asked. -/
theorem fifo {l t : List α} {as : List (Act α)} (hr : run step l as = some t) :
    released as ++ t = l ++ acquired as := by
  induction as generalizing l with
  | nil =>
    cases hr
    simp [released, acquired]
  | cons a as ih =>
    obtain ⟨v, h1, h2⟩ := (run_cons _ _ _ _).1 hr
    have := ih h2
    cases a with
    | acquire a =>
      obtain ⟨-, rfl⟩ := step_acquire.1 h1
      simpa [released, acquired] using this
    | release a =>
      rw [step_release.1 h1]
      simpa [released, acquired] using this

end HandOff
