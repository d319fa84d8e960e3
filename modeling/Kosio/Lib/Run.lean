import Mathlib.Data.List.Basic

/-!
# Runs of a step function

A machine is a function `step : σ → α → Option σ`: an action that is not
enabled gives `none`, and every choice the scheduler or the environment makes
is part of the action.  A run is a list of actions, so "for every interleaving
of any length" is a quantifier over lists.

* `EachStep step P s as`: every step the run takes satisfies `P before action after`.
* `Reachable step ok s t`: `t` is reached from `s` by a run whose steps all meet `ok`.
* `Reaches step s P`: some run from `s` ends in `P`.

The rules are the usual ones: an invariant kept by each step that meets `ok`
holds of what is reached (`Reachable.inv`), gives any step property it implies
(`eachStep_of_inv`), and where it makes a step property equivalent to `ok` the
two hold of the same runs (`eachStep_iff`, and `run_iff` for a property of the
last state).
-/

namespace Steps

variable {σ α : Type*} {step : σ → α → Option σ}

/-- Take the actions in order; `none` as soon as one is not enabled. -/
def run (step : σ → α → Option σ) : σ → List α → Option σ
  | s, [] => some s
  | s, a :: as => (step s a).bind fun t => run step t as

/-- Every step taken from `s` satisfies `P before action after`. -/
def EachStep (step : σ → α → Option σ) (P : σ → α → σ → Prop) : σ → List α → Prop
  | _, [] => True
  | s, a :: as => ∀ t ∈ step s a, P s a t ∧ EachStep step P t as

instance EachStep.decidable (P : σ → α → σ → Prop) [∀ s a t, Decidable (P s a t)] :
    ∀ s as, Decidable (EachStep step P s as)
  | _, [] => isTrue trivial
  | s, a :: as =>
    match h : step s a with
    | none => isTrue (by rintro t ht; rw [h] at ht; cases ht)
    | some t =>
      have := EachStep.decidable P t as
      decidable_of_iff (P s a t ∧ EachStep step P t as) (by simp [EachStep, h])

/-- `t` is reached from `s` by steps that all meet `ok`. -/
def Reachable (step : σ → α → Option σ) (ok : σ → α → σ → Prop) (s t : σ) : Prop :=
  ∃ as, run step s as = some t ∧ EachStep step ok s as

@[simp] theorem run_nil (s : σ) : run step s [] = some s := rfl

theorem run_cons (s u : σ) (a : α) (as : List α) :
    run step s (a :: as) = some u ↔ ∃ t, step s a = some t ∧ run step t as = some u := by
  simp [run, Option.bind_eq_some_iff]

theorem run_one (s : σ) (a : α) : run step s [a] = step s a := by
  cases h : step s a <;> simp [run, h]

theorem run_append (s u : σ) (as bs : List α) :
    run step s (as ++ bs) = some u ↔ ∃ t, run step s as = some t ∧ run step t bs = some u := by
  induction as generalizing s with
  | nil => simp
  | cons a as ih =>
    rw [List.cons_append, run_cons]
    constructor
    · rintro ⟨t, h1, h2⟩
      obtain ⟨v, h3, h4⟩ := (ih t).1 h2
      exact ⟨v, (run_cons _ _ _ _).2 ⟨t, h1, h3⟩, h4⟩
    · rintro ⟨v, h1, h2⟩
      obtain ⟨t, h3, h4⟩ := (run_cons _ _ _ _).1 h1
      exact ⟨t, h3, (ih t).2 ⟨v, h4, h2⟩⟩

/-- A run that is evaluated, and what is decided of the state it ends in. -/
theorem run_eval (step : σ → α → Option σ) (s : σ) (as : List α) (P : σ → Prop) [DecidablePred P]
    (h : (run step s as).any fun t => decide (P t)) : ∃ t, run step s as = some t ∧ P t := by
  cases hr : run step s as with
  | none =>
    rw [hr] at h
    cases h
  | some t =>
    rw [hr] at h
    exact ⟨t, rfl, of_decide_eq_true h⟩

theorem eachStep_true (s : σ) (as : List α) : EachStep step (fun _ _ _ => True) s as := by
  induction as generalizing s with
  | nil => trivial
  | cons a as ih => exact fun t _ => ⟨trivial, ih t⟩

section Invariant

variable (Inv : σ → Prop) {ok P : σ → α → σ → Prop}
  (hstep : ∀ s a t, Inv s → step s a = some t → ok s a t → Inv t)

include hstep

/-- **Invariant rule.** -/
theorem run_inv {s t : σ} {as : List α} (hs : Inv s) (hr : run step s as = some t)
    (hok : EachStep step ok s as) : Inv t := by
  induction as generalizing s with
  | nil =>
    cases hr
    exact hs
  | cons a as ih =>
    obtain ⟨v, h1, h2⟩ := (run_cons _ _ _ _).1 hr
    obtain ⟨ha, has⟩ := hok v h1
    exact ih (hstep s a v hs h1 ha) h2 has

theorem Reachable.inv {s t : σ} (hs : Inv s) (h : Reachable step ok s t) : Inv t := by
  obtain ⟨as, hr, hok⟩ := h
  exact run_inv Inv hstep hs hr hok

/-- What the invariant and `ok` give of one step, they give of every step of the run. -/
theorem eachStep_of_inv (hP : ∀ s a t, Inv s → step s a = some t → ok s a t → P s a t)
    {s : σ} {as : List α} (hs : Inv s) (hok : EachStep step ok s as) : EachStep step P s as := by
  induction as generalizing s with
  | nil => trivial
  | cons a as ih =>
    intro t ht
    obtain ⟨ha, has⟩ := hok t ht
    exact ⟨hP s a t hs ht ha, ih (hstep s a t hs ht ha) has⟩

/-- **Exact condition.**  Where the invariant makes `P` and `ok` the same step
property, the runs that satisfy one are the runs that satisfy the other. -/
theorem eachStep_iff (hP : ∀ s a t, Inv s → step s a = some t → (P s a t ↔ ok s a t))
    {s : σ} {as : List α} (hs : Inv s) : EachStep step P s as ↔ EachStep step ok s as := by
  induction as generalizing s with
  | nil => exact Iff.rfl
  | cons a as ih =>
    constructor
    · intro h t ht
      have ha := (hP s a t hs ht).1 (h t ht).1
      exact ⟨ha, (ih (hstep s a t hs ht ha)).1 (h t ht).2⟩
    · intro h t ht
      obtain ⟨ha, has⟩ := h t ht
      exact ⟨(hP s a t hs ht).2 ha, (ih (hstep s a t hs ht ha)).2 has⟩

end Invariant

/-- **Exact condition for a state.**  Where a step keeps `Q` if and only if it meets
`ok`, and never restores it, `Q` holds at the end of the runs that meet `ok` throughout. -/
theorem run_iff (Inv : σ → Prop) {ok : σ → α → σ → Prop} {Q : σ → Prop}
    (hQ : ∀ s a t, Inv s → step s a = some t → (Q t ↔ Q s ∧ ok s a t))
    (hkeep : ∀ s a t, Inv s → step s a = some t → Inv t)
    {s t : σ} {as : List α} (hs : Inv s) (hr : run step s as = some t) :
    Q t ↔ Q s ∧ EachStep step ok s as := by
  induction as generalizing s with
  | nil =>
    cases hr
    exact (and_iff_left trivial).symm
  | cons a as ih =>
    obtain ⟨v, h1, h2⟩ := (run_cons _ _ _ _).1 hr
    rw [ih (hkeep s a v hs h1) h2, hQ s a v hs h1, and_assoc]
    refine and_congr_right fun _ => ?_
    simp only [EachStep, h1, Option.mem_some_iff, forall_eq']

/-! ## Reaching -/

section Reaches

variable {s : σ} {P Q : σ → Prop}

/-- Some run from `s` ends in `P`. -/
def Reaches (step : σ → α → Option σ) (s : σ) (P : σ → Prop) : Prop :=
  ∃ as t, run step s as = some t ∧ P t

theorem Reaches.refl (h : P s) : Reaches step s P := ⟨[], s, rfl, h⟩

theorem Reaches.next {a : α} {t : σ} (hs : step s a = some t) (h : Reaches step t P) :
    Reaches step s P := by
  obtain ⟨as, u, hr, hu⟩ := h
  exact ⟨a :: as, u, (run_cons ..).2 ⟨t, hs, hr⟩, hu⟩

theorem Reaches.trans (h : Reaches step s P) (h' : ∀ t, P t → Reaches step t Q) :
    Reaches step s Q := by
  obtain ⟨as, t, hr, ht⟩ := h
  obtain ⟨bs, u, hr', hu⟩ := h' t ht
  exact ⟨as ++ bs, u, (run_append ..).2 ⟨t, hr, hr'⟩, hu⟩

end Reaches

/-! ## Simulation -/

/-- **Simulation rule.**  If each step is matched by some steps of the abstract
machine, each run is. -/
theorem run_simulates {τ β : Type*} {astep : τ → β → Option τ} {R : σ → τ → Prop}
    {ok : σ → α → σ → Prop}
    (hsim : ∀ s a t u, R s u → step s a = some t → ok s a t →
      ∃ bs v, run astep u bs = some v ∧ R t v)
    {s t : σ} {u : τ} {as : List α} (hs : R s u) (hr : run step s as = some t)
    (hok : EachStep step ok s as) : ∃ bs v, run astep u bs = some v ∧ R t v := by
  induction as generalizing s u with
  | nil =>
    cases hr
    exact ⟨[], u, rfl, hs⟩
  | cons a as ih =>
    obtain ⟨s1, h1, h2⟩ := (run_cons _ _ _ _).1 hr
    obtain ⟨ha, has⟩ := hok s1 h1
    obtain ⟨bs, v, h3, h4⟩ := hsim s a s1 u hs h1 ha
    obtain ⟨cs, w, h5, h6⟩ := ih h4 h2 has
    exact ⟨bs ++ cs, w, (run_append _ _ _ _).2 ⟨v, h3, h5⟩, h6⟩

end Steps
