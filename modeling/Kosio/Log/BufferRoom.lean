import Kosio.Log.FileLogger

/-!
# `LogBuffer`: room for every message

A write asserts that there is more room than the message needs.  `log` looks at
the room of the current buffer only, and if there is too little writes to the
next one, whatever is in it.  A message as long as a buffer fits none.  A shorter
one fits every buffer that has been reset, and a buffer that is not reset comes
back in one way: `log` moves it to the full ones when the loop over them has
ended and it is not one of those that `resize(2)` drops.  And the worker, if it has not
waited for the constructor, may move the current buffer away and leave none.  So

    no `log` moves a buffer to where it is given back as it is, and the worker waits
    for the constructor
      →  a write fails if and only if the message is as long as a buffer

                                                                    (log_room_iff)
-/

namespace Kosio.FileLogger

open Steps

variable {M : Type} {cap : Nat} {len : M → Nat}

/-! ## Specification -/

/-- A buffer moved to the full ones now is given back as it is. -/
def State.givesBack (s : State M) : Bool :=
  match s.pc with
  | .trim => s.full.length < 2
  | .flush | .splice => true
  | _ => false

/-- `log` moves no buffer that is given back as it is, and the worker waits for the
constructor. -/
structure Stays (cap : Nat) (len : M → Nat) (s : State M) (a : Act M) (_ : State M) : Prop where
  waits : Waits s a
  stays : ∀ msg, a = .log msg → s.givesBack → Fits cap len s msg

instance (s t : State M) : (a : Act M) → Decidable (Stays cap len s a t)
  | .log msg => decidable_of_iff (s.givesBack → Fits cap len s msg)
      ⟨fun h => ⟨⟨nofun, nofun⟩, fun _ he => by cases he; exact h⟩, fun h => h.stays msg rfl⟩
  | .work => decidable_of_iff (Waits s .work) ⟨fun h => ⟨h, nofun⟩, fun h => h.waits⟩
  | .construct | .stop => isTrue ⟨⟨nofun, nofun⟩, nofun⟩

/-- How many of the full buffers have been reset; more than two are not kept. -/
def cleared (s : State M) : Nat :=
  match s.pc with
  | .write i | .reset i => i
  | .next i => i + 1
  | .trim => 2
  | .flush | .splice => s.full.length
  | _ => 0

structure Clean (s : State M) : Prop where
  empty : ∀ b ∈ s.empty, b = []
  full : ∀ b ∈ s.full.take (cleared s), b = []
  index : ∀ i ∈ s.pc.iterator, i < s.full.length
  ready : Ready s

theorem clean_init (garbage : Bool) : Clean (init garbage : State M) :=
  ⟨by simp [init], by simp [init, cleared], nofun, ready_init garbage⟩

/-! ## Steps -/

theorem Clean.cleared_le {s : State M} (h : Clean s) (hg : s.givesBack = false) :
    cleared s ≤ s.full.length := by
  have index := h.index
  unfold State.givesBack at hg
  unfold cleared
  cases hpc : s.pc with
  | write i => exact Nat.le_of_lt (index i (by rw [hpc]; rfl))
  | reset i => exact Nat.le_of_lt (index i (by rw [hpc]; rfl))
  | next i => exact index i (by rw [hpc]; rfl)
  | trim =>
    rw [hpc] at hg
    exact Nat.not_lt.1 (of_decide_eq_false hg)
  | flush => exact Nat.le_refl _
  | splice => exact Nat.le_refl _
  | _ => exact Nat.zero_le _

theorem Clean.log {s t : State M} {msg : M} (h : Clean s) (hs : log cap len s msg = some t)
    (ht : Ready t) (hok : Stays cap len s (.log msg) t) : Clean t := by
  obtain ⟨current, hcur, ⟨-, rfl⟩ | ⟨hfit, rfl⟩⟩ := log_cases hs
  · exact ⟨h.empty, h.full, h.index, ht⟩
  · have hg : s.givesBack = false := by
      by_contra hn
      exact hfit (hok.stays msg rfl (Bool.not_eq_false _ ▸ hn) current hcur)
    have hcleared : cleared (switch s current) = cleared s := by
      unfold State.givesBack at hg
      unfold cleared switch
      cases hpc : s.pc with
      | flush => rw [hpc] at hg; cases hg
      | splice => rw [hpc] at hg; cases hg
      | _ => rfl
    refine ⟨tail_clean h.empty, ?_, fun i hi => ?_, ht⟩
    · show ∀ b ∈ (s.full ++ [current]).take (cleared (switch s current)), b = []
      -- the buffer that was moved is behind those
      rw [hcleared, List.take_append_of_le_length (h.cleared_le hg)]
      exact h.full
    · have := h.index i hi
      show i < (s.full ++ [current]).length
      rw [List.length_append]
      exact Nat.lt_add_right _ this

theorem Clean.work {s t : State M} (h : Clean s) (hs : work s = some t) (ht : Ready t) :
    Clean t := by
  have hempty := h.empty
  have hfull := h.full
  unfold FileLogger.work at hs
  unfold cleared at hfull
  cases hpc : s.pc with
  | loop =>
    simp only [hpc] at hs
    split at hs <;> cases hs <;> exact ⟨hempty, fun b hb => (by cases hb), nofun, ht⟩
  | swap =>
    simp only [hpc] at hs
    obtain ⟨current, -, rfl⟩ := Option.map_eq_some_iff.1 hs
    exact ⟨tail_clean hempty, fun b hb => (by cases hb), nofun, ht⟩
  | check =>
    simp only [hpc] at hs
    split at hs <;> cases hs <;> exact ⟨hempty, fun b hb => (by cases hb), nofun, ht⟩
  | first =>
    simp only [hpc] at hs
    split at hs <;> cases hs
    · next he =>
      refine ⟨hempty, fun b hb => ?_, nofun, ht⟩
      have hb : b ∈ s.full.take 2 := hb
      rw [he, List.take_nil] at hb
      cases hb
    · next he =>
      refine ⟨hempty, fun b hb => (by cases hb), fun i hi => ?_, ht⟩
      cases hi
      exact List.length_pos_of_ne_nil he
  | write i =>
    simp only [hpc] at hs hfull
    obtain ⟨buffer, hi, rfl⟩ := Option.map_eq_some_iff.1 hs
    refine ⟨hempty, hfull, fun j hj => ?_, ht⟩
    cases hj
    exact (List.getElem?_eq_some_iff.1 hi).1
  | reset i =>
    simp only [hpc] at hs hfull
    cases hs
    have hlt := h.index i (by rw [hpc]; rfl)
    refine ⟨hempty, reset_next hlt hfull, fun j hj => ?_, ht⟩
    cases hj
    show i < (s.full.set i []).length
    rw [List.length_set]
    exact hlt
  | next i =>
    simp only [hpc] at hs hfull
    split at hs <;> cases hs
    · next hlt =>
      refine ⟨hempty, hfull, fun j hj => ?_, ht⟩
      cases hj
      exact hlt
    · next hge =>
      -- the loop has been over every buffer
      rw [List.take_of_length_le (Nat.not_lt.1 hge)] at hfull
      exact ⟨hempty, fun b hb => hfull b (List.mem_of_mem_take hb), nofun, ht⟩
  | trim =>
    simp only [hpc] at hs hfull
    split at hs <;> cases hs
    · exact ⟨hempty, fun b hb => hfull b (List.mem_of_mem_take hb), nofun, ht⟩
    · next hle =>
      rw [List.take_of_length_le (Nat.not_lt.1 hle)] at hfull
      exact ⟨hempty, fun b hb => hfull b (List.mem_of_mem_take hb), nofun, ht⟩
  | flush =>
    simp only [hpc] at hs hfull
    cases hs
    exact ⟨hempty, hfull, nofun, ht⟩
  | splice =>
    simp only [hpc] at hs hfull
    cases hs
    rw [List.take_length] at hfull
    refine ⟨fun b hb => ?_, fun b hb => (by cases hb), nofun, ht⟩
    obtain hb | hb := List.mem_append.1 hb
    · exact hempty b hb
    · exact hfull b hb
  | last =>
    simp only [hpc] at hs
    obtain ⟨current, -, rfl⟩ := Option.map_eq_some_iff.1 hs
    split at ht
    · next he =>
      rw [if_pos he]
      exact ⟨hempty, fun b hb => (by cases hb), nofun, ht⟩
    · next he =>
      rw [if_neg he]
      exact ⟨hempty, fun b hb => (by cases hb), nofun, ht⟩
  | drain i =>
    simp only [hpc] at hs
    split at hs <;> cases hs <;> exact ⟨hempty, fun b hb => (by cases hb), nofun, ht⟩
  | done =>
    simp only [hpc] at hs
    cases hs

theorem Clean.step {s t : State M} {a : Act M} (h : Clean s) (hs : step cap len s a = some t)
    (hok : Stays cap len s a t) : Clean t := by
  have ht := h.ready.step hs hok.waits
  cases a with
  | construct =>
    simp only [FileLogger.step, construct] at hs
    split at hs
    · cases hs
      exact ⟨h.empty, h.full, h.index, ht⟩
    · split at hs
      · cases hs
        refine ⟨fun b hb => ?_, h.full, h.index, ht⟩
        obtain hb | hb := List.mem_append.1 hb
        · exact h.empty b hb
        · exact List.mem_singleton.1 hb
      · cases hs
        exact ⟨h.empty, h.full, h.index, ht⟩
    · cases hs
  | log msg =>
    simp only [FileLogger.step, Option.ite_none_right_eq_some] at hs
    exact h.log hs.2 ht hok
  | work => exact h.work hs ht
  | stop =>
    simp only [FileLogger.step, Option.ite_none_right_eq_some, Option.some.injEq] at hs
    obtain ⟨-, rfl⟩ := hs
    exact ⟨h.empty, h.full, h.index, ht⟩

/-- A message as long as a buffer fits none. -/
theorem log_refused (s : State M) {msg : M} (hlong : cap ≤ len msg) :
    step cap len s (.log msg) = none := by
  have hnone : ∀ b : LogBuffer M, LogBuffer.write cap len b msg = none := fun b => by
    unfold LogBuffer.write LogBuffer.writableBytes
    exact if_neg (by omega)
  have hlog : FileLogger.log cap len s msg = none := by
    unfold FileLogger.log
    split
    · rfl
    · simp only [hnone, Option.map_none, ite_self]
  show (if s.built = .done ∧ s.running then FileLogger.log cap len s msg else none) = none
  rw [hlog, ite_self]

/-! ## Top theorem -/

/-- **Room for every message.**  In a run in which the worker waits for the constructor and
`log` moves no buffer that is given back as it is, whatever the state, the writes of a
call are in bounds if and only if the message is shorter than a buffer. -/
theorem log_room_iff (garbage : Bool) (as : List (Act M)) (s : State M)
    (h : run (step cap len) (init garbage) as = some s)
    (hok : EachStep (step cap len) (Stays cap len) (init garbage) as)
    (hb : s.built = .done) (hr : s.running = true) (msg : M) :
    (step cap len s (.log msg)).isSome ↔ len msg < cap := by
  have hi : Clean s :=
    run_inv Clean (fun _ _ _ h hs hok => h.step hs hok) (clean_init garbage) h hok
  constructor
  · intro hsome
    by_contra hlong
    rw [log_refused s (Nat.not_lt.1 hlong)] at hsome
    cases hsome
  · exact accepts_of_clean hi.empty hi.ready hb hr

/-- The second fills the buffer that `late` gives back as it is, and the fifth is to
be written to it. -/
def recycled : List (Act Nat) :=
  constructed ++ [.log 0] ++ List.replicate 7 .work ++ [.log 1, .log 2] ++
    List.replicate 3 .work ++ [.log 3]

/-- The worker that has found 0 in `running_` moves the current buffer away. -/
def emptied : List (Act Nat) := [.work] ++ constructed ++ [.log 0, .work]

/-- A message that is too long, a buffer that is not empty, no buffer at all. -/
theorem log_overflows :
    (∃ s, run (step bufferSize (fun _ : Nat => bufferSize)) (init true) constructed = some s ∧
      s.built = .done ∧ s.running ∧ step bufferSize (fun _ => bufferSize) s (.log 0) = none) ∧
    (∀ msg, fill msg < bufferSize) ∧
    (∃ s, run (step bufferSize fill) (init true) recycled = some s ∧ s.built = .done ∧ s.running ∧
      step bufferSize fill s (.log 4) = none) ∧
    ∃ s, run (step bufferSize fun _ => 1) (init false) emptied = some s ∧ s.built = .done ∧
      s.running ∧ step bufferSize (fun _ => 1) s (.log 1) = none := by
  refine ⟨?_, fun _ => show bufferSize - 1 < bufferSize by decide, ?_, ?_⟩
  · exact run_eval (step bufferSize fun _ : Nat => bufferSize) (init true) constructed
      (fun s => s.built = .done ∧ s.running ∧
        step bufferSize (fun _ => bufferSize) s (.log 0) = none)
      (by decide +kernel)
  · exact run_eval (step bufferSize fill) (init true) recycled
      (fun s => s.built = .done ∧ s.running ∧ step bufferSize fill s (.log 4) = none)
      (by decide +kernel)
  · exact run_eval (step bufferSize fun _ => 1) (init false) emptied
      (fun s => s.built = .done ∧ s.running ∧ step bufferSize (fun _ => 1) s (.log 1) = none)
      (by decide +kernel)

/-- A buffer is being written while `log` moves another. -/
theorem log_room_early :
    ∃ s, run (step bufferSize fill) (init false) (early.take 10) = some s ∧ s.built = .done ∧
      s.running ∧ ((step bufferSize fill s (.log 3)).isSome ↔ fill 3 < bufferSize) := by
  obtain ⟨s, hs, hb, hr⟩ := run_eval (step bufferSize fill) (init false) (early.take 10)
    (fun s => s.built = .done ∧ s.running = true) (by decide +kernel)
  exact ⟨s, hs, hb, hr, log_room_iff false (early.take 10) s hs (by decide +kernel) hb hr 3⟩

end Kosio.FileLogger
