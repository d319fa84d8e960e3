import Kosio.Lib.Agenda
import Kosio.Runtime.Timer.Deadline

/-!
# The timing wheel is an agenda

Within `2^36` ms of the start the top level does not wrap around, so the wheel
never gets into conflict, and every run of it is a run of an agenda: what is
stored is what waits, and a call takes what is due, in order
(`handleExpired_takes`).  Exactness is then the agenda's.
-/

namespace Kosio.Runtime.TimerRun

open Steps Timer

variable {D H : Type}

/-! ## Algorithm -/

/-- A run seen as an agenda: what `insert` was called with is when an entry is due. -/
def State.agenda (s : State D H) : Agenda.State where
  due := s.due
  made := s.timer.made
  birth := s.birth
  calls := s.calls

/-- Expirations less than `2^36` ms after the start. -/
def InRange (s : State D H) (a : Act D H) (_ : State D H) : Prop :=
  ∀ expirationTime, (∃ data, a = .insertData data expirationTime) ∨
    (∃ handle, a = .insertHandle handle expirationTime) →
    expirationTime < s.timer.startTime + 2 ^ 36

/-! ## Invariant -/

/-- What is stored waits in the agenda, and is due within `2^36` ms of the start. -/
structure Waits (s : State D H) : Prop where
  inv : Inv s
  due : ∀ i, s.due i = (s.timer.entries i).expirationTime
  small : ∀ i, s.timer.Stored i → s.timer.when_ i < 2 ^ 36
  stored : ∀ i, s.timer.Stored i ↔ i < s.timer.made ∧ i ∉ s.agenda.taken
  monotone : ∀ c ∈ s.calls, c.1 ≤ s.timer.startTime + s.timer.elapsed
  bound : ∀ i ∈ s.agenda.taken, i < s.timer.made

theorem waits_init (currentMs : Nat) : Waits (init currentMs : State D H) :=
  ⟨inv_init currentMs, fun _ => rfl, fun _ ⟨_, _, h⟩ => (List.not_mem_nil h).elim,
    fun _ => ⟨fun ⟨_, _, h⟩ => (List.not_mem_nil h).elim, fun h => absurd h.1 (Nat.not_lt_zero _)⟩,
    nofun, nofun⟩

/-! ## Lemmas -/

/-- The top level does not wrap around. -/
theorem not_conflict {t : Timer D H} (h : t.Inv) (hs : ∀ i, t.Stored i → t.when_ i < 2 ^ 36) :
    ¬ t.Conflict := by
  rintro ⟨-, hcur, -⟩
  obtain ⟨i, hi⟩ := List.exists_mem_of_ne_nil _ hcur
  have hp := h.placed _ _ i hi
  have h1 : t.elapsed / 64 ^ 5 < t.when_ i / 64 ^ 5 := hp.ahead
  have h2 : t.elapsed / 64 ^ 5 % 64 = t.when_ i / 64 ^ 5 % 64 := by
    have := congrArg Fin.val hp.slot
    rwa [slotFor_val, slotFor_val] at this
  have h3 := hs i ⟨_, _, hi⟩
  have h4 : t.when_ i / 64 ^ 5 < 64 := by
    rw [Nat.div_lt_iff_lt_mul (by decide)]
    omega
  omega

theorem heads_not_conflict {t : Timer D H} {now : Nat} (h : t.Inv)
    (hs : ∀ i, t.Stored i → t.when_ i < 2 ^ 36) (fuel : Nat) :
    ∀ u ∈ t.heads now fuel, ¬ u.Conflict := by
  induction fuel generalizing t with
  | zero => simp [heads]
  | succ fuel ih =>
    unfold heads
    have hc := not_conflict h hs
    rw [List.forall_mem_cons]
    refine ⟨hc, ?_⟩
    cases ht : t.turn now with
    | none => simp
    | some u =>
      have hu := (h.turn hc ht).1
      refine ih hu.inv fun i hi => ?_
      rw [when_congr hu.entries hu.startTime]
      exact hs i ((hu.stored i).2 (Or.inl hi))

theorem agenda_inserted {s : State D H} (h : Waits s) (entry : Entry D H)
    (hr : entry.expirationTime < s.timer.startTime + 2 ^ 36) :
    ∃ bs v, run Agenda.step s.agenda bs = some v ∧
      (inserted s entry.expirationTime (s.timer.insertEntry entry)).agenda = v ∧
      Waits (inserted s entry.expirationTime (s.timer.insertEntry entry)) := by
  cases hi : s.timer.insertEntry entry with
  | error e => exact ⟨[], _, rfl, rfl, h⟩
  | ok p =>
    obtain ⟨u, i⟩ := p
    obtain ⟨hinv, rfl, hmade, hstart, helapsed, hpending, hentries, hgt, hstored⟩ :=
      h.inv.timer.insertEntry hi
    have hd : ∀ c ∈ s.agenda.calls, c.1 < entry.expirationTime := fun c hc =>
      lt_of_le_of_lt (h.monotone c hc) hgt
    have hagenda : (inserted s entry.expirationTime (.ok (u, s.timer.made))).agenda =
        s.agenda.add entry.expirationTime := by
      unfold State.agenda inserted Agenda.State.add
      simp only [hmade]
    have htaken : (inserted s entry.expirationTime (.ok (u, s.timer.made))).agenda.taken =
        s.agenda.taken := rfl
    refine ⟨[.add entry.expirationTime], _, ?_, hagenda, ⟨⟨hinv, hpending.trans h.inv.pending⟩,
      ?_, ?_, ?_, ?_, ?_⟩⟩
    · rw [run_one, Agenda.step, if_pos hd]
    · intro j
      show Function.update s.due s.timer.made entry.expirationTime j = (u.entries j).expirationTime
      rw [hentries]
      by_cases hj : j = s.timer.made
      · rw [hj, Function.update_self, Function.update_self]
      · rw [Function.update_of_ne hj, Function.update_of_ne hj, h.due]
    · intro j hj
      show u.when_ j < 2 ^ 36
      rcases (hstored j).1 hj with hj | rfl
      · have hlt := ((h.stored j).1 hj).1
        have : u.when_ j = s.timer.when_ j := by
          unfold when_
          rw [hentries, hstart, Function.update_of_ne (by omega)]
        rw [this]
        exact h.small j hj
      · unfold when_
        rw [hentries, hstart, Function.update_self]
        omega
    · intro j
      rw [htaken]
      show u.Stored j ↔ j < u.made ∧ _
      rw [hstored, h.stored, hmade]
      have := h.bound j
      constructor
      · rintro (⟨h1, h2⟩ | rfl)
        · exact ⟨by omega, h2⟩
        · exact ⟨by omega, fun hm => absurd (this hm) (lt_irrefl _)⟩
      · rintro ⟨h1, h2⟩
        by_cases hj : j = s.timer.made
        · exact Or.inr hj
        · exact Or.inl ⟨by omega, h2⟩
    · intro c hc
      show c.1 ≤ u.startTime + u.elapsed
      rw [hstart, helapsed]
      exact h.monotone c hc
    · intro j hj
      show j < u.made
      rw [htaken] at hj
      rw [hmade]
      exact Nat.lt_succ_of_lt (h.bound j hj)

/-- **A call takes what is due, in order.** -/
theorem handleExpired_takes {s t : State D H} {currentMs : Nat} (h : Waits s)
    (hs : step s (.handleExpiredEntries currentMs) = some t) :
    ∃ out, s.agenda.Takes currentMs out ∧ t.agenda = s.agenda.call currentMs out ∧ Waits t := by
  obtain ⟨hm, v, log, he, rfl⟩ :=
    h.inv.expired hs (heads_not_conflict h.inv.timer h.small _)
  have hpast : ∀ i, s.timer.Stored i →
      s.timer.when_ i = s.due i - s.timer.startTime ∧ s.timer.startTime < s.due i := by
    intro i hi
    have := h.inv.timer.stored_lt hi
    rw [h.due]
    unfold when_ at this
    exact ⟨rfl, by omega⟩
  have hlog : ∀ i, i ∈ log ↔ s.timer.Stored i ∧ s.due i ≤ currentMs := by
    intro i
    rw [he.mem, h.inv.pending]
    have := hpast i
    constructor
    · rintro (hi | ⟨hi, hle⟩)
      · cases hi
      · exact ⟨hi, by have := this hi; omega⟩
    · rintro ⟨hi, hle⟩
      exact Or.inr ⟨hi, by have := this hi; omega⟩
  have htaken : ∀ w : Timer D H, ({ s with
      timer := w, calls := s.calls ++ [(currentMs, log)] } : State D H).agenda.taken =
      s.agenda.taken ++ log := by
    intro w
    simp [Agenda.State.taken, State.agenda]
  refine ⟨log, ⟨?_, ?_, ?_⟩, ?_, ⟨⟨he.inv, he.pending⟩, fun i => ?_, ?_, ?_, ?_, ?_⟩⟩
  · intro c hc
    exact (h.monotone c hc).trans hm
  · refine he.sorted.imp_of_mem fun {i j} hi hj hij => ?_
    have h1 := hpast i ((hlog i).1 hi).1
    have h2 := hpast j ((hlog j).1 hj).1
    rw [h1.1, h2.1] at hij
    show s.due i < s.due j ∨ (s.due i = s.due j ∧ i < j)
    omega
  · intro i
    rw [hlog, h.stored]
    exact and_assoc
  · unfold State.agenda Agenda.State.call
    simp only [he.made]
  · rw [he.entries]
    exact h.due i
  · intro i hi
    have hi' : v.Stored i := hi
    show v.when_ i < 2 ^ 36
    rw [when_congr he.entries he.startTime]
    exact h.small i ((he.stored i).1 hi').1
  · intro i
    rw [htaken]
    show v.Stored i ↔ i < v.made ∧ _
    rw [he.stored, he.made, List.mem_append, hlog]
    have h1 := h.stored i
    have h2 := hpast i
    constructor
    · rintro ⟨hi, hlt⟩
      refine ⟨(h1.1 hi).1, ?_⟩
      rintro (hm' | ⟨-, hle⟩)
      · exact (h1.1 hi).2 hm'
      · have := h2 hi
        omega
    · rintro ⟨hlt, hn⟩
      rw [not_or] at hn
      have hi := h1.2 ⟨hlt, hn.1⟩
      refine ⟨hi, ?_⟩
      by_contra hle
      have := h2 hi
      exact hn.2 ⟨hi, by omega⟩
  · intro c hc
    show c.1 ≤ v.startTime + (currentMs - s.timer.startTime)
    rw [he.startTime]
    rcases List.mem_append.1 hc with hc | hc
    · exact (h.monotone c hc).trans (by omega)
    · rw [List.mem_singleton.1 hc]
      show currentMs ≤ _
      omega
  · intro i hi
    rw [htaken, List.mem_append] at hi
    show i < v.made
    rw [he.made]
    rcases hi with hi | hi
    · exact h.bound i hi
    · exact ((h.stored i).1 ((hlog i).1 hi).1).1

theorem agenda_remove {s : State D H} (h : Waits s) {entry : Nat}
    (hn : (s.timer.entries entry).handle.isNone) :
    ({ s with timer := s.timer.remove entry } : State D H).agenda = s.agenda ∧
      Waits { s with timer := s.timer.remove entry } := by
  rw [remove_data hn]
  refine ⟨rfl, ⟨⟨h.inv.timer.setEntry rfl, h.inv.pending⟩, fun i => ?_, ?_, h.stored,
    h.monotone, h.bound⟩⟩
  · rw [h.due]
    exact (field_clearData Entry.expirationTime (fun _ => rfl) entry i).symm
  · intro i hi
    have hw := when_setEntry (t := s.timer) (i := entry)
      (show ({ s.timer.entries entry with data := none } : Entry D H).expirationTime = _ from rfl) i
    exact hw.trans_lt (h.small i hi)

/-- **The wheel refines the agenda.** -/
theorem agenda_step (s : State D H) (a : Act D H) (t : State D H) (v : Agenda.State)
    (h : s.agenda = v ∧ Waits s) (hs : step s a = some t) (hr : InRange s a t) :
    ∃ bs w, run Agenda.step v bs = some w ∧ t.agenda = w ∧ Waits t := by
  obtain ⟨rfl, h⟩ := h
  cases a with
  | insertData data expirationTime =>
    cases hs
    exact agenda_inserted h _ (hr expirationTime (Or.inl ⟨data, rfl⟩))
  | insertHandle handle expirationTime =>
    cases hs
    exact agenda_inserted h _ (hr expirationTime (Or.inr ⟨handle, rfl⟩))
  | removeData entry =>
    simp only [step, Option.ite_none_right_eq_some, Option.some.injEq] at hs
    obtain ⟨⟨-, -, hn⟩, rfl⟩ := hs
    exact ⟨[], _, rfl, agenda_remove h hn⟩
  | handleExpiredEntries currentMs =>
    obtain ⟨out, ht, ha, hw⟩ := handleExpired_takes h hs
    refine ⟨[.call currentMs out], _, ?_, ha, hw⟩
    rw [run_one, Agenda.step, if_pos ht]

/-! ## Top theorems -/

/-- **The timing wheel is exact.**  For every start time and every run with
expirations less than `2^36` ms after it, each entry is executed exactly once, by
the first call at or after its expiration, and entries are executed in order. -/
theorem timer_exact (currentMs : Nat) (s : State D H)
    (h : Reachable step InRange (init currentMs) s) : Agenda.Exact s.agenda := by
  obtain ⟨as, hr, hok⟩ := h
  obtain ⟨bs, v, hv, rfl, -⟩ := run_simulates agenda_step
    (⟨rfl, waits_init currentMs⟩ : (init currentMs : State D H).agenda = _ ∧ _) hr hok
  have hv : run Agenda.step (Agenda.init (fun _ => 0) fun _ => 0) bs = some s.agenda := hv
  exact Agenda.exact hv

/-- Four entries over three levels, two of them due together; the io entry is
removed before it is due. -/
def cascadeRun : List (Act Unit Unit) :=
  [.insertData () 91000, .insertHandle () 1900, .insertHandle () 1700, .insertHandle () 1700,
   .removeData 0, .handleExpiredEntries 1700, .handleExpiredEntries 500000]

theorem cascadeRun_exact :
    ∃ s : State Unit Unit, Reachable step InRange (init 1000) s ∧
      s.calls = [(1700, [2, 3]), (500000, [1, 0])] ∧ Agenda.Exact s.agenda := by
  obtain ⟨s, hs, hcalls⟩ := run_eval step (init 1000) cascadeRun
    (fun s => s.calls = [(1700, [2, 3]), (500000, [1, 0])]) (by decide +kernel)
  have hr : Reachable step InRange (init 1000) s := by
    refine ⟨cascadeRun, hs, ?_⟩
    iterate 4
      rintro t ⟨⟩
      refine ⟨?_, ?_⟩
      · rintro expirationTime (⟨_, ⟨⟩⟩ | ⟨_, ⟨⟩⟩)
        decide +kernel
    iterate 3
      intro t _
      refine ⟨?_, ?_⟩
      · rintro expirationTime (⟨_, ⟨⟩⟩ | ⟨_, ⟨⟩⟩)
    trivial
  exact ⟨s, hr, hcalls, timer_exact 1000 s hr⟩

end Kosio.Runtime.TimerRun
