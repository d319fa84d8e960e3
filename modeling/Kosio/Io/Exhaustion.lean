import Mathlib.Data.List.Nodup
import Kosio.Io.Registrator

/-!
# A full submission queue

`get_sqe` gives back null when the queue is full.  The constructor of
`IoRegistrator` and `await_ready` deal with that.  A derived constructor that
writes `sqe_->addr`, the move of `set_timeout` and `turn_on` use the pointer all
the same, and `Entry::execute` gives the cancel request up for good.  So a run
survives a full queue if and only if no step of these kinds finds one:

    survives ↔ room in the queue for each vectored operation, each timeout,
               each expiry, and each read of the eventfd     (survives_iff)
-/

namespace Kosio.IoRegistrator

open Steps

/-! ## Specification -/

/-- What exhaustion of the queue must not break. -/
structure Survives (s : State) : Prop where
  /-- no null pointer has been used -/
  noNull : s.crashed = false
  /-- who got no SQE has resumed with `ENOMEM` -/
  inline : ∀ cb io status, s.ios cb = some (io, status) → io.sqe = none →
    status = .resumed (.error ⟨ENOMEM⟩)
  /-- who timed out has been cancelled -/
  cancels : ∀ cb ∈ s.expired, cb ∈ s.cancelled

/-- The steps that rely on an SQE get one. -/
def HasRoom (s : State) (a : Act) (_ : State) : Prop :=
  match a with
  | .coAwait cls timed _ => cls = .addressed ∨ timed = true → s.ring.Room
  | .execute _ => s.ring.Room
  | .turnOn => s.flag = true → s.ring.Room
  | _ => True

instance : (s : State) → (a : Act) → (t : State) → Decidable (HasRoom s a t)
  | s, .coAwait cls timed _, _ =>
    inferInstanceAs (Decidable (cls = .addressed ∨ timed = true → s.ring.Room))
  | s, .execute _, _ => inferInstanceAs (Decidable s.ring.Room)
  | s, .turnOn, _ => inferInstanceAs (Decidable (s.flag = true → s.ring.Room))
  | _, .submit, _ => isTrue trivial
  | _, .answer _ _, _ => isTrue trivial
  | _, .reap, _ => isTrue trivial
  | _, .doClose, _ => isTrue trivial

/-! ## Invariant -/

/-- What holds in every run, whatever has been lost in it. -/
structure Tracked (s : State) : Prop where
  fresh : ∀ cb, s.made ≤ cb → s.ios cb = none ∧ inFlight s cb = 0
  place : ∀ cb io status, s.ios cb = some (io, status) → io.cb = cb
  /-- a request is that of an operation with an SQE -/
  carried : ∀ cb, 0 < inFlight s cb → ∀ io status, s.ios cb = some (io, status) → io.sqe ≠ none
  inline : ∀ cb io status, s.ios cb = some (io, status) → io.sqe = none →
    status = .resumed (.error ⟨ENOMEM⟩)
  timers : s.timer.Nodup
  timerLt : ∀ cb ∈ s.timer, cb < s.made
  /-- a timer expires once -/
  expiredLt : ∀ cb ∈ s.expired, cb < s.made ∧ cb ∉ s.timer
  queued : ∀ cb ∈ s.cancelled, cb ∈ s.expired

theorem tracked_init (entries submitInterval : Nat) : Tracked (init entries submitInterval) :=
  ⟨fun _ _ => ⟨rfl, rfl⟩, nofun, nofun, nofun, List.nodup_nil, nofun, nofun, nofun⟩

theorem Tracked.survives_of {s : State} (h : Tracked s) :
    Survives s ↔ s.crashed = false ∧ ∀ cb ∈ s.expired, cb ∈ s.cancelled :=
  ⟨fun hs => ⟨hs.noNull, hs.cancels⟩, fun hs => ⟨hs.1, h.inline, hs.2⟩⟩

/-- The timer, the operations and their requests are as before. -/
theorem Tracked.congr {s u : State} (h : Tracked s) (h1 : u.ios = s.ios) (h2 : u.made = s.made)
    (h3 : ∀ cb, inFlight u cb = inFlight s cb) (h4 : u.timer = s.timer)
    (h5 : u.expired = s.expired) (h6 : u.cancelled = s.cancelled) : Tracked u := by
  refine ⟨?_, ?_, ?_, ?_, ?_, ?_, ?_, ?_⟩
  · intro cb hm
    rw [h2] at hm
    rw [h1, h3]
    exact h.fresh cb hm
  · rw [h1]
    exact h.place
  · intro cb hpos
    rw [h3] at hpos
    rw [h1]
    exact h.carried cb hpos
  · rw [h1]
    exact h.inline
  · rw [h4]
    exact h.timers
  · rw [h2, h4]
    exact h.timerLt
  · rw [h2, h4, h5]
    exact h.expiredLt
  · rw [h5, h6]
    exact h.queued

/-- A new operation, with `n` requests if it has an SQE. -/
theorem Tracked.add {s u : State} (h : Tracked s) {io : Io} {n : Nat} {status : Status}
    (hu : Awaited s io.cb n u) (hnew : s.made ≤ io.cb) (hn : io.sqe = none → n = 0)
    (hin : io.sqe = none → status = .resumed (.error ⟨ENOMEM⟩)) : Tracked (store u io status) := by
  have hself := hu.store_ios status
  have hfl : ∀ c, inFlight (store u io status) c = inFlight s c + if c = io.cb then n else 0 :=
    hu.inFlight
  have hmem : ∀ c, c ∈ u.timer → c ∈ s.timer ∨ c = io.cb := by
    intro c hc
    rcases hu.timer with he | he
    · rw [he] at hc
      exact Or.inl hc
    · rw [he] at hc
      exact (List.mem_append.1 hc).imp_right List.mem_singleton.1
  refine ⟨fun c hc => ?_, fun c io' st hs => ?_, fun c hpos io' st hs => ?_, fun c io' st hs hq => ?_,
    ?_, fun c hc => ?_, fun c hc => ?_, ?_⟩
  · have hc : u.made ≤ c := hc
    rw [hu.made] at hc
    have hne : ¬ c = io.cb := by omega
    rw [hself, hfl, if_neg hne, if_neg hne]
    exact h.fresh c (by omega)
  · rcases hu.store_cases status hs with ⟨rfl, rfl, -⟩ | ⟨-, hs⟩
    · rfl
    · exact h.place c io' st hs
  · rw [hfl] at hpos
    rcases hu.store_cases status hs with ⟨rfl, rfl, -⟩ | ⟨hne, hs⟩
    · intro hq
      rw [(h.fresh _ hnew).2, if_pos rfl, hn hq] at hpos
      omega
    · rw [if_neg hne] at hpos
      exact h.carried c hpos io' st hs
  · rcases hu.store_cases status hs with ⟨-, rfl, rfl⟩ | ⟨-, hs⟩
    · exact hin hq
    · exact h.inline c io' st hs hq
  · show u.timer.Nodup
    rcases hu.timer with he | he
    · exact he ▸ h.timers
    · rw [he]
      refine List.nodup_append.2 ⟨h.timers, List.nodup_singleton _, fun a ha b hb => ?_⟩
      have := h.timerLt a ha
      have := List.mem_singleton.1 hb
      omega
  · show c < u.made
    rw [hu.made]
    rcases hmem c hc with hc | rfl
    · have := h.timerLt c hc
      omega
    · omega
  · have hc : c ∈ u.expired := hc
    rw [hu.expired] at hc
    obtain ⟨hlt, hnot⟩ := h.expiredLt c hc
    refine ⟨?_, fun ht => ?_⟩
    · show c < u.made
      rw [hu.made]
      omega
    · rcases hmem c ht with ht | rfl
      · exact hnot ht
      · omega
  · show ∀ cb ∈ u.cancelled, cb ∈ u.expired
    rw [hu.cancelled, hu.expired]
    exact h.queued

theorem Tracked.answer {s : State} (h : Tracked s) {i : Nat} {sqe : Sqe}
    (hi : s.inflight[i]? = some sqe) (res : Int) : Tracked (answer s i sqe res) :=
  h.congr rfl rfl (inFlight_answer hi res) rfl rfl rfl

/-- A completion is taken out of the queue. -/
theorem Tracked.skip {s : State} (h : Tracked s) {cqe : Cqe} {cq : List Cqe}
    (hc : s.cq = cqe :: cq) : Tracked { s with cq } := by
  have hle : ∀ c, inFlight { s with cq } c ≤ inFlight s c := fun c => by
    rw [inFlight_cons hc c]
    omega
  refine ⟨fun c hm => ⟨(h.fresh c hm).1, ?_⟩, h.place, fun c hpos => ?_, h.inline, h.timers,
    h.timerLt, h.expiredLt, h.queued⟩
  · have := hle c
    have := (h.fresh c hm).2
    omega
  · exact h.carried c (Nat.lt_of_lt_of_le hpos (hle c))

/-- The operation that a completion names has an SQE. -/
theorem Tracked.reap {s : State} (h : Tracked s) {cqe : Cqe} {cq : List Cqe}
    (hc : s.cq = cqe :: cq) : Tracked (reap { s with cq } cqe) := by
  have hskip := h.skip hc
  cases hd : cqe.userData with
  | none =>
    rw [reap_none hd]
    exact hskip
  | some cb =>
    cases hs : s.ios cb with
    | none =>
      have hdef : IoRegistrator.reap { s with cq } cqe = { s with cq } := by
        simp only [IoRegistrator.reap, hd, hs]
      rw [hdef]
      exact hskip
    | some p =>
      obtain ⟨io, status⟩ := p
      have hpos : 0 < inFlight s cb := by
        rw [inFlight_cons hc, if_pos hd]
        omega
      have hsqe := h.carried cb hpos io status hs
      have hplace := h.place cb io status hs
      have hself := reap_ios (s := { s with cq }) hd hs hplace
      have hu := reap_handled { s with cq } cqe
      have htimer : (IoRegistrator.reap { s with cq } cqe).timer = s.timer.erase cb := by
        simp only [IoRegistrator.reap, hd, hs]
        rfl
      refine ⟨fun c hm => ?_, fun c io' st hv => ?_, fun c hp io' st hv => ?_,
        fun c io' st hv hq => ?_, ?_, fun c hm => ?_, fun c hm => ?_, ?_⟩
      · have hm : s.made ≤ c := hu.made ▸ hm
        rw [hself, hu.inFlight, if_neg]
        · exact hskip.fresh c hm
        · rintro rfl
          rw [(h.fresh c hm).1] at hs
          cases hs
      · rw [hself] at hv
        split at hv
        · next he =>
          cases hv
          exact hplace.trans he.symm
        · exact h.place c io' st hv
      · rw [hself] at hv
        rw [hu.inFlight] at hp
        split at hv
        · cases hv
          exact hsqe
        · exact hskip.carried c hp io' st hv
      · rw [hself] at hv
        split at hv
        · cases hv
          exact absurd hq hsqe
        · exact h.inline c io' st hv hq
      · rw [htimer]
        exact h.timers.erase cb
      · rw [htimer] at hm
        rw [hu.made]
        exact h.timerLt c (List.mem_of_mem_erase hm)
      · rw [hu.expired] at hm
        rw [hu.made, htimer]
        obtain ⟨hlt, hnot⟩ := h.expiredLt c hm
        exact ⟨hlt, fun ht => hnot (List.mem_of_mem_erase ht)⟩
      · rw [hu.cancelled, hu.expired]
        exact h.queued

/-- A timer expires: it has not done so before, and it will not again. -/
theorem Tracked.execute {s : State} (h : Tracked s) {cb : Nat} (hm : cb ∈ s.timer) :
    Tracked (execute s cb) ∧
      ((∀ c ∈ (execute s cb).expired, c ∈ (execute s cb).cancelled) ↔
        (∀ c ∈ s.expired, c ∈ s.cancelled) ∧ s.ring.Room) := by
  have hu := execute_executed s cb
  have hnew : cb ∉ s.expired := fun hx => (h.expiredLt cb hx).2 hm
  constructor
  · refine ⟨?_, ?_, ?_, ?_, ?_, ?_, ?_, ?_⟩
    · intro c hc
      rw [hu.made] at hc
      rw [hu.ios, hu.inFlight]
      exact h.fresh c hc
    · rw [hu.ios]
      exact h.place
    · intro c hpos
      rw [hu.inFlight] at hpos
      rw [hu.ios]
      exact h.carried c hpos
    · rw [hu.ios]
      exact h.inline
    · rw [hu.timer]
      exact h.timers.erase cb
    · intro c hc
      rw [hu.timer] at hc
      rw [hu.made]
      exact h.timerLt c (List.mem_of_mem_erase hc)
    · intro c hc
      rw [hu.expired] at hc
      rw [hu.made, hu.timer]
      rcases List.mem_append.1 hc with hc | hc
      · obtain ⟨hlt, hnot⟩ := h.expiredLt c hc
        exact ⟨hlt, fun hx => hnot (List.mem_of_mem_erase hx)⟩
      · rw [List.mem_singleton.1 hc]
        exact ⟨h.timerLt cb hm, h.timers.not_mem_erase⟩
    · intro c hc
      rw [hu.cancelled] at hc
      rw [hu.expired]
      split at hc
      · rcases List.mem_append.1 hc with hc | hc
        · exact List.mem_append_left _ (h.queued c hc)
        · exact List.mem_append_right _ hc
      · exact List.mem_append_left _ (h.queued c hc)
  · rw [hu.expired, hu.cancelled]
    by_cases hr : s.ring.Room
    · rw [if_pos hr]
      constructor
      · refine fun hall => ⟨fun c hc => ?_, hr⟩
        rcases List.mem_append.1 (hall c (List.mem_append_left _ hc)) with hx | hx
        · exact hx
        · rw [List.mem_singleton.1 hx] at hc
          exact absurd hc hnew
      · rintro ⟨hall, -⟩ c hc
        rcases List.mem_append.1 hc with hc | hc
        · exact List.mem_append_left _ (hall c hc)
        · exact List.mem_append_right _ hc
    · rw [if_neg hr]
      constructor
      · intro hall
        have := hall cb (List.mem_append_right _ (List.mem_singleton_self cb))
        exact absurd (h.queued cb this) hnew
      · rintro ⟨-, hx⟩
        exact absurd hx hr

theorem Tracked.coAwait {s : State} (h : Tracked s) (hc : s.crashed = false) (cls : Class)
    (timed : Bool) (o : Outcome) :
    Tracked (coAwait s cls timed o) ∧
      (coAwait s cls timed o).expired = s.expired ∧
      (coAwait s cls timed o).cancelled = s.cancelled ∧
      ((coAwait s cls timed o).crashed = false ↔
        (cls = .addressed ∨ timed = true → s.ring.Room)) := by
  by_cases hr : s.ring.Room
  · obtain ⟨u, io, hcb, hsqe, hcase⟩ := coAwait_room hr cls timed o
    have hnew : s.made ≤ io.cb := hcb ▸ callback_ge s timed
    -- however the coroutine goes on, its operation has an SQE
    have hstore : ∃ n status, Awaited s io.cb n u ∧ IoRegistrator.coAwait s cls timed o = store u io status := by
      rcases hcase with ⟨hu, he, -⟩ | ⟨hu, he, -⟩ | ⟨hu, -, he | he⟩ <;> exact ⟨_, _, hu, he⟩
    obtain ⟨n, status, hu, he⟩ := hstore
    rw [he]
    refine ⟨h.add hu hnew (fun hq => absurd hq hsqe) fun hq => absurd hq hsqe, hu.expired,
      hu.cancelled, ?_⟩
    exact ⟨fun _ _ => hr, fun _ => hu.crashed.trans hc⟩
  · rw [coAwait_full hr]
    split
    · next hn =>
      refine ⟨h.congr rfl rfl (fun _ => rfl) rfl rfl rfl, rfl, rfl, ?_⟩
      exact ⟨fun hx => (by cases hx), fun hx => absurd (hx hn) hr⟩
    · next hn =>
      refine ⟨h.add (n := 0) ?_ (Nat.le_refl s.made) (fun _ => rfl) fun _ => rfl, rfl, rfl, ?_⟩
      · exact ⟨⟨rfl, rfl, rfl, rfl, rfl, rfl⟩, rfl, fun c => by simp [inFlight], Or.inl rfl⟩
      · exact ⟨fun _ hx => absurd hx hn, fun _ => hc⟩

theorem Tracked.step {s t : State} {a : Act} (h : Tracked s) (hs : step s a = some t) :
    Tracked t ∧ (Survives t ↔ Survives s ∧ HasRoom s a t) := by
  obtain ⟨hcr, hc⟩ := step_cases hs
  -- a state with the same ghosts survives if it has not crashed
  have hkeep : ∀ {u : State} {P : Prop}, Tracked u → u.expired = s.expired →
      u.cancelled = s.cancelled → (u.crashed = false ↔ P) →
      (Survives u ↔ Survives s ∧ P) := by
    intro u P hu he hq hp
    rw [hu.survives_of, h.survives_of, he, hq, hp]
    constructor
    · exact fun ⟨hP, hall⟩ => ⟨⟨hcr, hall⟩, hP⟩
    · exact fun ⟨⟨_, hall⟩, hP⟩ => ⟨hP, hall⟩
  cases a with
  | coAwait cls timed o =>
    rw [hc]
    obtain ⟨ht, he, hq, hp⟩ := h.coAwait hcr cls timed o
    exact ⟨ht, hkeep ht he hq hp⟩
  | submit =>
    rw [hc]
    have ht : Tracked (submit s) := h.congr rfl rfl (inFlight_submit s) rfl rfl rfl
    exact ⟨ht, hkeep ht rfl rfl ⟨fun _ => trivial, fun _ => hcr⟩⟩
  | answer i res =>
    obtain ⟨sqe, hi, rfl⟩ := hc
    have ht := h.answer hi res
    exact ⟨ht, hkeep ht rfl rfl ⟨fun _ => trivial, fun _ => hcr⟩⟩
  | reap =>
    obtain ⟨cqe, cq, hq, rfl⟩ := hc
    have hu := reap_handled { s with cq } cqe
    have ht := h.reap hq
    exact ⟨ht, hkeep ht hu.expired hu.cancelled ⟨fun _ => trivial, fun _ => hu.crashed.trans hcr⟩⟩
  | execute cb =>
    obtain ⟨hm, rfl⟩ := hc
    obtain ⟨ht, hiff⟩ := h.execute hm
    refine ⟨ht, ?_⟩
    rw [ht.survives_of, h.survives_of, hiff, (execute_executed s cb).crashed, and_assoc]
    rfl
  | turnOn =>
    rw [hc]
    rcases turnOn_cases s with ⟨he, hf⟩ | ⟨hf, hr, he⟩ | ⟨hf, hr, he⟩
    · rw [he]
      refine ⟨h, hkeep h rfl rfl ⟨fun _ hx => ?_, fun _ => hcr⟩⟩
      rw [hf] at hx
      cases hx
    · rw [he]
      have ht := h.congr (u := { s with
        flag := false, ring := { s.ring with sq := s.ring.sq ++ [{ request := .read }] } })
        rfl rfl (inFlight_push { request := .read } rfl rfl rfl) rfl rfl rfl
      exact ⟨ht, hkeep ht rfl rfl ⟨fun _ _ => hr, fun _ => hcr⟩⟩
    · rw [he]
      have ht := h.congr (u := { s with flag := false, crashed := true })
        rfl rfl (fun _ => rfl) rfl rfl rfl
      exact ⟨ht, hkeep ht rfl rfl ⟨fun hx => (by cases hx), fun hx => absurd (hx hf) hr⟩⟩
  | doClose =>
    rw [hc]
    obtain ⟨hsame, hm, htm, hfl⟩ := same_doClose s
    have ht := h.congr hsame.ios hm hfl htm hsame.expired hsame.cancelled
    exact ⟨ht, hkeep ht hsame.expired hsame.cancelled
      ⟨fun _ => trivial, fun _ => hsame.crashed.trans hcr⟩⟩

/-! ## Top theorems -/

/-- **Exhaustion.**  No null pointer has been used, who got no SQE has resumed with
`ENOMEM`, and who timed out has been cancelled, if and only if each step of the run
that relies on an SQE found room.  What was given up is not made up for later. -/
theorem survives_iff (entries submitInterval : Nat) (as : List Act) (s : State)
    (h : run step (init entries submitInterval) as = some s) :
    Survives s ↔ EachStep step HasRoom (init entries submitInterval) as := by
  rw [run_iff Tracked (fun s a t hi hs => (hi.step hs).2) (fun s a t hi hs => (hi.step hs).1)
    (tracked_init entries submitInterval) h]
  exact and_iff_right ⟨rfl, nofun, nofun⟩

/-- Nothing goes wrong outside the ring. -/
def fine : Outcome := { refused := false, socket := .ok 3 }

/-- A timeout expires while the queue has room for its cancel request. -/
def roomy : List Act := [.turnOn, .coAwait .addressed true fine, .execute 1]

theorem survives_roomy : ∃ s, run step (init 2 1) roomy = some s ∧ s.expired = [1] ∧ Survives s := by
  obtain ⟨s, hs, hexp⟩ := run_eval step (init 2 1) roomy (fun s => s.expired = [1])
    (by decide +kernel)
  exact ⟨s, hs, hexp, (survives_iff 2 1 roomy s hs).2 (by decide +kernel)⟩

/-- A queue of one: a vectored operation after another one, and a timeout that expires
while its own request is still in the queue. -/
theorem exhausted :
    (∃ s, run step (init 1 2) [.coAwait .plain false fine, .coAwait .addressed false fine] = some s ∧
      s.crashed = true ∧ ¬ Survives s) ∧
    ∃ s, run step (init 1 2) [.coAwait .plain true fine, .execute 1] = some s ∧
      s.crashed = false ∧ s.expired = [1] ∧ s.cancelled = [] ∧ ¬ Survives s := by
  refine ⟨⟨_, rfl, rfl, fun h => ?_⟩, ⟨_, rfl, rfl, rfl, rfl, fun h => ?_⟩⟩
  · have := h.noNull
    cases this
  · have := h.cancels 1 (List.mem_singleton_self 1)
    cases this

end Kosio.IoRegistrator
