import Kosio.Runtime.Scheduler.Driver
import Kosio.Runtime.Timer.Contents

/-!
# Timer entries and callbacks point to each other

`Timeout::await_suspend` links an entry and a callback.  The completion takes the
link away on the side of the entry (`Timer::remove` clears `data_`), the expiry
on the side of the callback (`Entry::execute` clears `entry_`), and each side is
left alone by what comes second.

With one completion for each operation the two pointers stay a matching pair as
long as the operation is outstanding and the entry is in the timer (`Linked`),
so what `remove` and `execute` reach through them is there (`links_hold`).
-/

namespace Kosio.Runtime.Driver

open Steps Timer

variable {H : Type}

/-! ## What is promised -/

/-- Suspended, and its completion has not been handled. -/
def Outstanding (s : State H) (callback : Nat) : Prop :=
  callback ∈ s.suspended.map (·.1) ∧ callback ∉ s.pushed.map (·.callback)

/-- In the wheel or in `pending_`, which own it. -/
def InTimer (s : State H) (entry : Nat) : Prop := s.timer.Stored entry ∨ entry ∈ s.timer.pending

structure Linked (s : State H) : Prop where
  data : ∀ entry callback, InTimer s entry → (s.timer.entries entry).data = some callback →
    Outstanding s callback ∧ (s.callbacks callback).entry = some entry
  entry : ∀ callback entry, Outstanding s callback → (s.callbacks callback).entry = some entry →
    InTimer s entry ∧ (s.timer.entries entry).data = some callback

/-- The entry that a step executes. -/
def executes (s : State H) : Act H → Option Nat
  | .step _ =>
    match s.phase with
    | .expiring _ => s.timer.pending.head?
    | _ => none
  | _ => none

/-- What a step goes to through a pointer is there. -/
structure Touches (s : State H) (a : Act H) (_ : State H) : Prop where
  /-- a completion is that of an outstanding operation, and `remove` gets an entry of the timer -/
  remove : ∀ cqe ∈ handles s a, ∀ callback, cqe.userData = some callback →
    Outstanding s callback ∧ ∀ entry, (s.callbacks callback).entry = some entry → InTimer s entry
  /-- `execute` clears the `entry_` of an outstanding operation -/
  execute : ∀ entry ∈ executes s a, ∀ callback, (s.timer.entries entry).data = some callback →
    Outstanding s callback

/-- The kernel answers the operations once. -/
def OneCqe (_ : State H) : Act H → State H → Prop
  | .start _ zeroCopy _, _ => zeroCopy = false
  | _, _ => True

instance : (s : State H) → (a : Act H) → (t : State H) → Decidable (OneCqe s a t)
  | _, .start _ zeroCopy _, _ => inferInstanceAs (Decidable (zeroCopy = false))
  | _, .sleep _ _, _ => isTrue trivial
  | _, .answer _ _ _, _ => isTrue trivial
  | _, .notify _, _ => isTrue trivial
  | _, .post _, _ => isTrue trivial
  | _, .poll _, _ => isTrue trivial
  | _, .step _, _ => isTrue trivial

/-! ## Invariant -/

/-- Nothing is or will be a notification. -/
structure Plain (s : State H) : Prop where
  inflight : ∀ r ∈ s.inflight, r.2 = false
  notifying : s.notifying = []
  results : ∀ cqe ∈ s.cq, cqe.notif = false
  pushes : ∀ p ∈ s.pushed, p.notif = false

/-- Each entry is owned once; an io entry has no handle. -/
structure Owned (t : Timer Nat H) : Prop where
  once : ∀ entry, t.total entry ≤ 1
  made : ∀ entry, 0 < t.total entry → entry < t.made
  io : ∀ entry, (t.entries entry).data ≠ none → (t.entries entry).handle = none

structure Links (s : State H) : Prop where
  driver : Inv s
  plain : Plain s
  owned : Owned s.timer
  linked : Linked s

theorem total_new (currentMs entry : Nat) : (Timer.new currentMs : Timer Nat H).total entry = 0 := by
  rw [← Nat.le_zero, ← Nat.not_lt, total_pos]
  rintro (⟨_, _, h⟩ | h)
  · cases h
  · cases h

theorem links_init (currentMs : Nat) : Links (init currentMs : State H) := by
  refine ⟨inv_init currentMs, ⟨nofun, rfl, nofun, nofun⟩, ⟨fun entry => ?_, fun entry h => ?_,
    fun _ h => absurd rfl h⟩, ⟨fun _ _ _ h => (by cases h), fun _ _ h => absurd h.1 List.not_mem_nil⟩⟩
  · exact (total_new currentMs entry).le.trans (Nat.zero_le _)
  · exact absurd (total_new currentMs entry) (Nat.ne_of_gt h)

/-! ## Lemmas -/

theorem inTimer_iff {s : State H} {entry : Nat} : InTimer s entry ↔ 0 < s.timer.total entry :=
  total_pos.symm

theorem handles_mem {s : State H} {a : Act H} {cqe : Cqe} (h : cqe ∈ handles s a) : cqe ∈ s.cq := by
  unfold handles at h
  split at h
  · split at h
    · exact List.mem_of_mem_head? h
    · cases h
  · cases h

theorem handleCqe_kernel (s : State H) (cqe : Cqe) :
    (handleCqe s cqe).inflight = s.inflight ∧ (handleCqe s cqe).notifying = s.notifying ∧
      (handleCqe s cqe).cq = s.cq := by
  cases hc : cqe.userData with
  | none =>
    unfold handleCqe
    rw [hc]
    exact ⟨rfl, rfl, rfl⟩
  | some callback =>
    obtain ⟨timer, h⟩ := handleCqe_spec (s := s) hc
    rw [h]
    exact ⟨rfl, rfl, rfl⟩

theorem execute_kernel (s : State H) (entry : Nat) :
    (execute s entry).inflight = s.inflight ∧ (execute s entry).notifying = s.notifying ∧
      (execute s entry).cq = s.cq := by
  unfold execute
  split <;> exact ⟨rfl, rfl, rfl⟩

/-- `poll` takes completions off the queue and asks nothing of the kernel. -/
theorem step_kernel {s t : State H} {currentMs : Nat} (hs : step s (.step currentMs) = some t) :
    t.inflight = s.inflight ∧ t.notifying = s.notifying ∧ ∀ cqe ∈ t.cq, cqe ∈ s.cq := by
  cases step_polls hs with
  | reaped => exact ⟨rfl, rfl, fun _ h => h⟩
  | @handled _ cqe cq _ hcq =>
    obtain ⟨h1, h2, h3⟩ := handleCqe_kernel { s with cq } cqe
    refine ⟨h1, h2, fun c hc => ?_⟩
    have hc : c ∈ (handleCqe { s with cq } cqe).cq := hc
    rw [h3] at hc
    rw [hcq]
    exact List.mem_cons_of_mem _ hc
  | @executed _ entry pending =>
    obtain ⟨h1, h2, h3⟩ := execute_kernel { s with timer := { s.timer with pending } } entry
    exact ⟨h1, h2, fun c hc => h3 ▸ hc⟩
  | turned => exact ⟨rfl, rfl, fun _ h => h⟩
  | returned => exact ⟨rfl, rfl, fun _ h => h⟩

theorem Plain.step {s t : State H} {a : Act H} (h : Plain s) (hi : Inv s)
    (hs : step s a = some t) (hone : OneCqe s a t) : Plain t := by
  have hpushes : ∀ p ∈ t.pushed, p.notif = false :=
    (step_spec s a t hi hs).2.2 ⟨h.pushes, fun cqe hc => h.results cqe (handles_mem hc)⟩
  obtain ⟨hflight, hnot, hres, hpush⟩ := h
  have hsuspend : ∀ (timer : Timer Nat H) (handle : H) (cb : Callback H),
      Plain (suspend { s with timer } handle false cb) := by
    refine fun timer handle cb => ⟨fun r hr => ?_, hnot, hres, hpush⟩
    rcases List.mem_append.1 hr with hr | hr
    · exact hflight r hr
    · rw [List.mem_singleton.1 hr]
  have hpost : ∀ (cqe : Cqe) (inflight : List (Nat × Bool)) (answers : List (Nat × Int)),
      cqe.notif = false → (∀ r ∈ inflight, r ∈ s.inflight) →
      Plain { s with inflight, answers, cq := s.cq ++ [cqe] } := by
    refine fun cqe inflight answers hn hin => ⟨fun r hr => hflight r (hin r hr), hnot, ?_, hpush⟩
    intro c hc
    rcases List.mem_append.1 hc with hc | hc
    · exact hres c hc
    · rw [List.mem_singleton.1 hc]
      exact hn
  cases a with
  | start handle zeroCopy deadline =>
    simp only [Driver.step, Option.ite_none_right_eq_some, Option.some.injEq] at hs
    obtain ⟨-, rfl⟩ := hs
    obtain rfl : zeroCopy = false := hone
    unfold awaitSuspend
    split
    · exact hsuspend s.timer handle {}
    · split
      · exact hsuspend _ handle _
      · exact ⟨hflight, hnot, hres, hpush⟩
  | sleep handle deadline =>
    simp only [Driver.step, Option.ite_none_right_eq_some] at hs
    obtain ⟨-, hs⟩ := hs
    split at hs
    · cases hs
      exact ⟨hflight, hnot, hres, hpush⟩
    · cases hs
  | answer callback zeroCopy res =>
    simp only [Driver.step, Option.ite_none_right_eq_some, Option.some.injEq] at hs
    obtain ⟨hin, rfl⟩ := hs
    obtain rfl : zeroCopy = false := hflight _ hin
    exact hpost { userData := some callback, res } _ _ rfl fun r hr => List.mem_of_mem_erase hr
  | notify callback =>
    simp [Driver.step, hnot] at hs
  | post res =>
    cases hs
    exact hpost { userData := none, res } _ _ rfl fun r hr => hr
  | poll count =>
    simp only [Driver.step, Option.ite_none_right_eq_some, Option.some.injEq] at hs
    obtain ⟨-, rfl⟩ := hs
    exact ⟨hflight, hnot, hres, hpush⟩
  | step currentMs =>
    obtain ⟨h1, h2, h3⟩ := step_kernel hs
    exact ⟨h1 ▸ hflight, h2.trans hnot, fun c hc => hres c (h3 c hc), hpushes⟩

/-! ## The timer -/

theorem Owned.total_made {t : Timer Nat H} (h : Owned t) : t.total t.made = 0 := by
  by_contra hne
  exact absurd (h.made t.made (Nat.pos_of_ne_zero hne)) (Nat.lt_irrefl _)

theorem Owned.insert {t u : Timer Nat H} {entry : Entry Nat H} {i : Nat} (h : Owned t)
    (hs : t.insertEntry entry = .ok (u, i)) (hio : entry.data ≠ none → entry.handle = none) :
    Owned u := by
  obtain ⟨-, hadd⟩ := insertEntry_added hs
  refine ⟨fun e => ?_, fun e he => ?_, fun e he => ?_⟩
  · by_cases hne : e = t.made
    · rw [hne, hadd.total_new, h.total_made]
    · rw [hadd.total_old hne]
      exact h.once e
  · rw [hadd.made]
    by_cases hne : e = t.made
    · omega
    · rw [hadd.total_old hne] at he
      have := h.made e he
      omega
  · by_cases hne : e = t.made
    · rw [hne, hadd.entries_new] at he ⊢
      exact hio he
    · rw [hadd.entries_old hne] at he ⊢
      exact h.io e he

theorem Owned.congr {t u : Timer Nat H} (h : Owned t) (h1 : ∀ e, u.total e = t.total e)
    (h2 : u.made = t.made) (h3 : u.entries = t.entries) : Owned u := by
  refine ⟨fun e => ?_, fun e he => ?_, fun e he => ?_⟩
  · rw [h1]
    exact h.once e
  · rw [h1] at he
    rw [h2]
    exact h.made e he
  · rw [h3] at he ⊢
    exact h.io e he

/-- `remove` of an io entry that the timer owns. -/
theorem Owned.remove {t : Timer Nat H} {i callback : Nat} (h : Owned t)
    (hd : (t.entries i).data = some callback) :
    Owned (t.remove i) ∧ (∀ e, (t.remove i).total e = t.total e) ∧
      (t.remove i).entries = Function.update t.entries i { t.entries i with data := none } := by
  have hn : (t.entries i).handle.isNone := by
    rw [h.io i (by rw [hd]; exact Option.some_ne_none _)]
    rfl
  rw [remove_data hn]
  have htotal : ∀ e, (t.setEntry i { t.entries i with data := none }).total e = t.total e :=
    fun e => total_congr (fun _ _ => rfl) rfl e
  refine ⟨⟨fun e => ?_, fun e he => ?_, fun e he => ?_⟩, htotal, rfl⟩
  · rw [htotal]
    exact h.once e
  · rw [htotal] at he
    exact h.made e he
  · have he : (Function.update t.entries i { t.entries i with data := none } e).data ≠ none := he
    show (Function.update t.entries i { t.entries i with data := none } e).handle = none
    by_cases hei : e = i
    · rw [hei, Function.update_self] at he
      exact absurd rfl he
    · rw [Function.update_of_ne hei] at he ⊢
      exact h.io e he

/-- The first of `pending_` leaves the timer. -/
theorem Owned.pop {t : Timer Nat H} {i : Nat} {pending : List Nat} (h : Owned t)
    (hp : t.pending = i :: pending) :
    Owned { t with pending } ∧ ∀ e, 0 < ({ t with pending } : Timer Nat H).total e ↔
      0 < t.total e ∧ e ≠ i := by
  have htotal : ∀ e, t.total e = ({ t with pending } : Timer Nat H).total e + [i].count e := by
    intro e
    unfold Timer.total
    have : (i :: pending).count e = [i].count e + pending.count e := by
      rw [← List.count_append]
      rfl
    rw [hp, this]
    show _ = (_ + pending.count e) + _
    have hslots : ∀ level slot, ({ t with pending } : Timer Nat H).slots level slot =
        t.slots level slot := fun _ _ => rfl
    simp only [hslots]
    omega
  have hself : [i].count i = 1 := List.count_singleton_self
  have hother : ∀ e, e ≠ i → [i].count e = 0 := fun e he =>
    List.count_eq_zero.2 (by simpa using he)
  refine ⟨⟨fun e => ?_, fun e he => ?_, h.io⟩, fun e => ?_⟩
  · have := h.once e
    have := htotal e
    omega
  · refine h.made e ?_
    have := htotal e
    omega
  · have h1 := htotal e
    have h2 := h.once e
    by_cases hei : e = i
    · subst hei
      rw [hself] at h1
      omega
    · rw [hother e hei] at h1
      omega

/-! ## The links -/

theorem Links.outstanding_lt {s : State H} (h : Links s) {x : Nat} (hx : Outstanding s x) :
    x < s.made := by
  obtain ⟨o, ho, rfl⟩ := List.mem_map.1 hx.1
  exact h.driver.made o ho

theorem entry_update (f : Nat → Callback H) {callback : Nat} {cb : Callback H}
    (h : cb.entry = (f callback).entry) (x : Nat) :
    (Function.update f callback cb x).entry = (f x).entry := by
  by_cases hx : x = callback
  · rw [hx, Function.update_self, h]
  · rw [Function.update_of_ne hx]

/-- Nothing that the links are about changes. -/
theorem Linked.congr {s t : State H} (h : Linked s)
    (h1 : ∀ x, Outstanding t x ↔ Outstanding s x)
    (h2 : ∀ x, Outstanding s x → (t.callbacks x).entry = (s.callbacks x).entry)
    (h3 : t.timer.entries = s.timer.entries) (h4 : ∀ e, InTimer t e ↔ InTimer s e) : Linked t := by
  constructor
  · intro e x he hd
    rw [h3] at hd
    obtain ⟨hx, hl⟩ := h.data e x ((h4 e).1 he) hd
    exact ⟨(h1 x).2 hx, (h2 x hx).trans hl⟩
  · intro x e hx hl
    have hx := (h1 x).1 hx
    rw [h2 x hx] at hl
    rw [h3, h4]
    exact h.entry x e hx hl

/-- A new operation: `entry_` is the entry just made for it, or null. -/
theorem Links.started {s : State H} (h : Links s) (timer : Timer Nat H) (handle : H)
    (cb : Callback H)
    (hold : ∀ e, e ∉ cb.entry → timer.entries e = s.timer.entries e ∧
      (0 < timer.total e ↔ 0 < s.timer.total e))
    (hnew : ∀ e ∈ cb.entry, 0 < timer.total e ∧ s.timer.total e = 0 ∧
      (timer.entries e).data = some s.made) :
    Linked (suspend { s with timer } handle false cb) := by
  have hpush : s.made ∉ s.pushed.map (·.callback) := by
    intro hm
    obtain ⟨p, hp, he⟩ := List.mem_map.1 hm
    obtain ⟨⟨k, hk, -⟩, -⟩ := h.driver.stored p hp (h.plain.pushes p hp)
    have : p.callback < s.made := h.driver.made _ hk
    omega
  have hout : ∀ x, Outstanding (suspend { s with timer } handle false cb) x ↔
      Outstanding s x ∨ x = s.made := by
    intro x
    show x ∈ (s.suspended ++ [(s.made, handle)]).map (·.1) ∧ x ∉ s.pushed.map (·.callback) ↔ _
    rw [List.map_append, List.mem_append, List.map_singleton, List.mem_singleton]
    constructor
    · rintro ⟨hx | hx, hn⟩
      · exact Or.inl ⟨hx, hn⟩
      · exact Or.inr hx
    · rintro (⟨hx, hn⟩ | rfl)
      · exact ⟨Or.inl hx, hn⟩
      · exact ⟨Or.inr rfl, hpush⟩
  have hself : ((suspend { s with timer } handle false cb).callbacks s.made).entry = cb.entry := by
    show (Function.update s.callbacks s.made { cb with handle := some handle } s.made).entry = _
    rw [Function.update_self]
  have hcb : ∀ x, x ≠ s.made →
      (suspend { s with timer } handle false cb).callbacks x = s.callbacks x := fun x hx =>
    Function.update_of_ne hx _ _
  constructor
  · intro e x he hd
    have he : timer.Stored e ∨ e ∈ timer.pending := he
    rw [← total_pos] at he
    have hd : (timer.entries e).data = some x := hd
    by_cases hee : e ∈ cb.entry
    · obtain rfl : s.made = x := Option.some.inj ((hnew e hee).2.2.symm.trans hd)
      exact ⟨(hout _).2 (Or.inr rfl), hself.trans hee⟩
    · obtain ⟨h1, h2⟩ := hold e hee
      rw [h1] at hd
      obtain ⟨hx, hl⟩ := h.linked.data e x (inTimer_iff.2 (h2.1 he)) hd
      have := h.outstanding_lt hx
      rw [hcb x (by omega)]
      exact ⟨(hout x).2 (Or.inl hx), hl⟩
  · intro x e hx hl
    show (timer.Stored e ∨ e ∈ timer.pending) ∧ (timer.entries e).data = some x
    rw [← total_pos]
    rcases (hout x).1 hx with hx | rfl
    · have := h.outstanding_lt hx
      rw [hcb x (by omega)] at hl
      obtain ⟨he, hd⟩ := h.linked.entry x e hx hl
      rw [inTimer_iff] at he
      have hee : e ∉ cb.entry := fun hee => by
        have := (hnew e hee).2.1
        omega
      obtain ⟨h1, h2⟩ := hold e hee
      rw [h1]
      exact ⟨h2.2 he, hd⟩
    · rw [hself] at hl
      exact ⟨(hnew e hl).1, (hnew e hl).2.2⟩

theorem Links.awaited {s : State H} (h : Links s) (handle : H) (deadline : Option Nat) :
    Owned (awaitSuspend s handle false deadline).timer ∧
      Linked (awaitSuspend s handle false deadline) := by
  cases deadline with
  | none =>
    refine ⟨h.owned, h.started s.timer handle {} (fun e _ => ⟨rfl, Iff.rfl⟩) ?_⟩
    intro e he
    cases he
  | some deadline =>
    unfold awaitSuspend
    dsimp only
    split
    · next timer entry hs =>
      obtain ⟨rfl, hadd⟩ := insertEntry_added hs
      refine ⟨h.owned.insert hs fun _ => rfl, h.started _ handle _ (fun e he => ?_) fun e he => ?_⟩
      · have hne : e ≠ s.timer.made := fun hee => he (by rw [hee]; rfl)
        rw [hadd.entries_old hne, hadd.total_old hne]
        exact ⟨rfl, Iff.rfl⟩
      · obtain rfl : s.timer.made = e := Option.some.inj he
        rw [hadd.entries_new, hadd.total_new]
        exact ⟨Nat.succ_pos _, h.owned.total_made, rfl⟩
    · refine ⟨h.owned, h.linked.congr (fun _ => Iff.rfl) (fun x hx => ?_) rfl fun _ => Iff.rfl⟩
      have := h.outstanding_lt hx
      show (Function.update s.callbacks s.made _ x).entry = _
      rw [Function.update_of_ne (by omega)]

/-- An entry without callback joins. -/
theorem Links.slept {s : State H} (h : Links s) {timer : Timer Nat H} {entry : Entry Nat H}
    {i : Nat} (hs : s.timer.insertEntry entry = .ok (timer, i)) (hd : entry.data = none) :
    Owned timer ∧ Linked { s with timer } := by
  obtain ⟨-, hadd⟩ := insertEntry_added hs
  have hold : ∀ e, e ≠ s.timer.made → timer.entries e = s.timer.entries e ∧
      (InTimer { s with timer } e ↔ InTimer s e) := by
    intro e hne
    refine ⟨hadd.entries_old hne, ?_⟩
    show timer.Stored e ∨ e ∈ timer.pending ↔ _
    rw [inTimer_iff, ← total_pos, hadd.total_old hne]
  have hnew : (timer.entries s.timer.made).data = none := by
    rw [hadd.entries_new, hd]
  refine ⟨h.owned.insert hs fun hne => absurd hd hne, fun e x he hde => ?_, fun x e hx hl => ?_⟩
  · have hde : (timer.entries e).data = some x := hde
    have hne : e ≠ s.timer.made := by
      rintro rfl
      rw [hnew] at hde
      cases hde
    obtain ⟨h1, h2⟩ := hold e hne
    rw [h1] at hde
    exact h.linked.data e x (h2.1 he) hde
  · obtain ⟨he, hde⟩ := h.linked.entry x e hx hl
    have := h.owned.made e (inTimer_iff.1 he)
    obtain ⟨h1, h2⟩ := hold e (by omega)
    refine ⟨h2.2 he, ?_⟩
    show (timer.entries e).data = some x
    rw [h1]
    exact hde

/-- A completion in the queue is that of an outstanding operation. -/
theorem Links.outstanding {s : State H} (h : Links s) {cqe : Cqe} (hin : cqe ∈ s.cq) {cb : Nat}
    (hc : cqe.userData = some cb) : Outstanding s cb := by
  have hr : cqe.result = some cb := by
    simp [Cqe.result, h.plain.results cqe hin, hc]
  have hcq : cb ∈ s.cq.filterMap Cqe.result := List.mem_filterMap.2 ⟨cqe, hin, hr⟩
  have hresumed : s.pushed.map (·.callback) = s.resumed := by
    rw [State.resumed, List.filter_eq_self.2]
    intro p hp
    simp [h.plain.pushes p hp]
  have hnd := h.driver.owed.nodup_iff.2 h.driver.nodup
  refine ⟨h.driver.owed.mem_iff.1 (by simp [hcq]), fun hm => ?_⟩
  rw [hresumed] at hm
  exact (List.nodup_append.1 (List.nodup_append.1 hnd).2.1).2.2 cb hcq cb hm rfl

theorem handleCqe_timer (s : State H) {cqe : Cqe} {cb : Nat} (hc : cqe.userData = some cb) :
    (handleCqe s cqe).timer = match (s.callbacks cb).entry with
      | some entry => s.timer.remove entry
      | none => s.timer := by
  unfold handleCqe
  rw [hc]
  dsimp only
  cases (s.callbacks cb).entry <;> rfl

/-- **A completion is handled.** -/
theorem Links.handled {s : State H} (h : Links s) {cqe : Cqe} {cq : List Cqe}
    (hcq : s.cq = cqe :: cq) : Owned (handleCqe { s with cq } cqe).timer ∧
      Linked (handleCqe { s with cq } cqe) := by
  cases hc : cqe.userData with
  | none =>
    have hdef : handleCqe { s with cq } cqe = { s with cq } := by
      unfold handleCqe
      rw [hc]
    rw [hdef]
    exact ⟨h.owned, h.linked.congr (fun _ => Iff.rfl) (fun _ _ => rfl) rfl fun _ => Iff.rfl⟩
  | some cb =>
    have hcb := h.outstanding (by simp [hcq]) hc
    have htimer := handleCqe_timer { s with cq } hc
    obtain ⟨timer, hdef⟩ := handleCqe_spec (s := { s with cq }) hc
    have hout : ∀ x, Outstanding (handleCqe { s with cq } cqe) x ↔ Outstanding s x ∧ x ≠ cb := by
      intro x
      rw [hdef]
      show _ ∧ x ∉ (s.pushed ++ [(⟨cb, (s.callbacks cb).handle, cqe.res, cqe.notif⟩ :
        Pushed H)]).map (·.callback) ↔ _
      rw [List.map_append, List.mem_append, not_or, List.map_singleton, List.mem_singleton]
      exact and_assoc.symm
    have hentry : ∀ x, ((handleCqe { s with cq } cqe).callbacks x).entry =
        (s.callbacks x).entry := by
      intro x
      rw [hdef]
      exact entry_update s.callbacks (by rfl) x
    generalize handleCqe { s with cq } cqe = t at htimer hout hentry
    have htimer : t.timer = match (s.callbacks cb).entry with
      | some entry => s.timer.remove entry
      | none => s.timer := htimer
    cases he : (s.callbacks cb).entry with
    | none =>
      rw [he] at htimer
      refine ⟨htimer ▸ h.owned, ?_, ?_⟩
      · intro e x hin hd
        rw [InTimer, htimer] at hin
        rw [htimer] at hd
        obtain ⟨hx, hl⟩ := h.linked.data e x hin hd
        refine ⟨(hout x).2 ⟨hx, ?_⟩, (hentry x).trans hl⟩
        rintro rfl
        rw [he] at hl
        cases hl
      · intro x e hx hl
        rw [hentry] at hl
        rw [InTimer, htimer]
        exact h.linked.entry x e ((hout x).1 hx).1 hl
    | some i =>
      rw [he] at htimer
      -- the entry of this operation, and of no other
      obtain ⟨hi, hid⟩ := h.linked.entry cb i hcb he
      obtain ⟨howned, htotal, hentries⟩ := h.owned.remove hid
      have hin : ∀ e, InTimer t e ↔ InTimer s e := by
        intro e
        rw [inTimer_iff, inTimer_iff, htimer, htotal]
      refine ⟨htimer ▸ howned, ?_, ?_⟩
      · intro e x hein hd
        rw [htimer, hentries] at hd
        by_cases hei : e = i
        · rw [hei, Function.update_self] at hd
          cases hd
        · rw [Function.update_of_ne hei] at hd
          obtain ⟨hx, hl⟩ := h.linked.data e x ((hin e).1 hein) hd
          refine ⟨(hout x).2 ⟨hx, ?_⟩, (hentry x).trans hl⟩
          rintro rfl
          exact hei (Option.some.inj (hl.symm.trans he))
      · intro x e hx hl
        obtain ⟨hx, hne⟩ := (hout x).1 hx
        rw [hentry] at hl
        obtain ⟨hein, hd⟩ := h.linked.entry x e hx hl
        have hei : e ≠ i := by
          rintro rfl
          exact hne (Option.some.inj (hd.symm.trans hid))
        rw [hin, htimer, hentries, Function.update_of_ne hei]
        exact ⟨hein, hd⟩

theorem execute_cases (entry : Entry Nat H) :
    (∃ cb, entry.data = some cb ∧ entry.execute = .cancel cb) ∨
    (entry.data = none ∧ ∀ cb, entry.execute ≠ .cancel cb) := by
  unfold Entry.execute
  cases entry.data with
  | some cb => exact Or.inl ⟨cb, rfl, rfl⟩
  | none =>
    refine Or.inr ⟨rfl, fun cb => ?_⟩
    cases entry.handle <;> simp

/-- **An entry is executed.**  It leaves the timer, and its callback lets go of it. -/
theorem Links.executed {s : State H} (h : Links s) {i : Nat} {pending : List Nat}
    (hp : s.timer.pending = i :: pending) :
    Owned (execute { s with timer := { s.timer with pending } } i).timer ∧
      Linked (execute { s with timer := { s.timer with pending } } i) := by
  obtain ⟨howned, hpos⟩ := h.owned.pop hp
  have htimer : (execute { s with timer := { s.timer with pending } } i).timer =
      { s.timer with pending } := by
    unfold execute
    split <;> rfl
  have hout : ∀ x, Outstanding (execute { s with timer := { s.timer with pending } } i) x ↔
      Outstanding s x := by
    intro x
    unfold execute
    split <;> exact Iff.rfl
  have hcancel : ∀ x, ((execute { s with timer := { s.timer with pending } } i).callbacks x).entry =
      if (s.timer.entries i).data = some x then none else (s.callbacks x).entry := by
    intro x
    unfold execute
    rcases execute_cases (s.timer.entries i) with ⟨cb, hd, hx⟩ | ⟨hd, hx⟩
    · rw [hx, hd]
      show (Function.update s.callbacks cb _ x).entry = _
      by_cases hxc : x = cb
      · rw [hxc, Function.update_self, if_pos rfl]
      · rw [Function.update_of_ne hxc, if_neg fun he => hxc (Option.some.inj he).symm]
    · rw [hd, if_neg (Option.some_ne_none _).symm]
      cases hexec : (s.timer.entries i).execute with
      | cancel cb => exact absurd hexec (hx cb)
      | schedule handle => rfl
      | nothing => rfl
  generalize execute { s with timer := { s.timer with pending } } i = t at htimer hout hcancel
  have hin : ∀ e, InTimer t e ↔ InTimer s e ∧ e ≠ i := by
    intro e
    rw [inTimer_iff, inTimer_iff, htimer]
    exact hpos e
  have hiin : InTimer s i := Or.inr (by rw [hp]; exact List.mem_cons_self)
  refine ⟨htimer ▸ howned, ?_, ?_⟩
  · intro e x he hd
    rw [htimer] at hd
    obtain ⟨he, hei⟩ := (hin e).1 he
    obtain ⟨hx, hl⟩ := h.linked.data e x he hd
    refine ⟨(hout x).2 hx, ?_⟩
    rw [hcancel, if_neg]
    · exact hl
    · intro hdi
      have := (h.linked.data i x hiin hdi).2
      exact hei (Option.some.inj (hl.symm.trans this))
  · intro x e hx hl
    rw [hcancel] at hl
    split at hl
    · cases hl
    · next hne =>
      obtain ⟨he, hd⟩ := h.linked.entry x e ((hout x).1 hx) hl
      rw [htimer]
      refine ⟨(hin e).2 ⟨he, ?_⟩, hd⟩
      rintro rfl
      exact hne hd

/-! ## Steps -/

theorem links_step (s : State H) (a : Act H) (t : State H) (h : Links s)
    (hs : step s a = some t) (hone : OneCqe s a t) : Links t := by
  have hdriver := (step_spec s a t h.driver hs).1
  have hplain := h.plain.step h.driver hs hone
  suffices hlinks : Owned t.timer ∧ Linked t from ⟨hdriver, hplain, hlinks.1, hlinks.2⟩
  have hkernel : ∀ u : State H, u.timer = s.timer → u.callbacks = s.callbacks →
      u.suspended = s.suspended → u.pushed = s.pushed → Owned u.timer ∧ Linked u := by
    intro u h1 h2 h3 h4
    refine ⟨h1 ▸ h.owned, h.linked.congr (fun x => ?_) (fun x _ => by rw [h2]) (by rw [h1])
      fun e => ?_⟩
    · rw [Outstanding, Outstanding, h3, h4]
    · rw [InTimer, InTimer, h1]
  cases a with
  | start handle zeroCopy deadline =>
    simp only [step, Option.ite_none_right_eq_some, Option.some.injEq] at hs
    obtain ⟨-, rfl⟩ := hs
    obtain rfl : zeroCopy = false := hone
    exact h.awaited handle deadline
  | sleep handle deadline =>
    simp only [step, Option.ite_none_right_eq_some] at hs
    obtain ⟨-, hs⟩ := hs
    split at hs
    · next timer i hins =>
      cases hs
      exact h.slept hins rfl
    · cases hs
  | answer callback zeroCopy res =>
    simp only [step, Option.ite_none_right_eq_some, Option.some.injEq] at hs
    obtain ⟨-, rfl⟩ := hs
    exact hkernel _ rfl rfl rfl rfl
  | notify callback =>
    simp only [step, Option.ite_none_right_eq_some, Option.some.injEq] at hs
    obtain ⟨-, rfl⟩ := hs
    exact hkernel _ rfl rfl rfl rfl
  | post res =>
    cases hs
    exact hkernel _ rfl rfl rfl rfl
  | poll count =>
    simp only [step, Option.ite_none_right_eq_some, Option.some.injEq] at hs
    obtain ⟨-, rfl⟩ := hs
    exact hkernel _ rfl rfl rfl rfl
  | step currentMs =>
    cases step_polls hs with
    | reaped => exact hkernel _ rfl rfl rfl rfl
    | handled _ hcq =>
      obtain ⟨ho, hl⟩ := h.handled hcq
      exact ⟨ho, hl.congr (fun _ => Iff.rfl) (fun _ _ => rfl) rfl fun _ => Iff.rfl⟩
    | executed _ hpend => exact h.executed hpend
    | @turned _ timer _ hpend hturn =>
      have hk := turn_kept hturn
      have htotal := total_turn hpend hturn
      refine ⟨h.owned.congr htotal hk.made hk.entries, h.linked.congr (fun _ => Iff.rfl)
        (fun _ _ => rfl) hk.entries fun e => ?_⟩
      show timer.Stored e ∨ e ∈ timer.pending ↔ _
      rw [inTimer_iff, ← total_pos, htotal]
    | @returned now =>
      have howned : Owned { s.timer with elapsed := now } :=
        h.owned.congr (fun e => total_congr (fun _ _ => rfl) rfl e) rfl rfl
      exact ⟨howned, h.linked.congr (fun _ => Iff.rfl) (fun _ _ => rfl) rfl fun _ => Iff.rfl⟩

/-- Whatever a step reaches through a pointer is there. -/
theorem touches_step {s t : State H} {a : Act H} (h : Links s) : Touches s a t := by
  refine ⟨fun cqe hc cb hcb => ?_, fun e he cb hd => ?_⟩
  · have hout := h.outstanding (handles_mem hc) hcb
    exact ⟨hout, fun e he => (h.linked.entry cb e hout he).1⟩
  · refine (h.linked.data e cb (Or.inr ?_) hd).1
    unfold executes at he
    split at he
    · split at he
      · exact List.mem_of_mem_head? he
      · cases he
    · cases he

/-! ## Top theorems -/

/-- **Entries and callbacks stay linked.**  For every interleaving of starting
operations, handling completions and expiring timers, with one completion for
each operation: an entry of the timer that has a callback and an outstanding
callback that has an entry have each other, and no step goes to a freed entry or
to a completed operation. -/
theorem links_hold (currentMs : Nat) (as : List (Act H)) (s : State H)
    (h : run step (init currentMs) as = some s)
    (hone : EachStep step OneCqe (init currentMs) as) :
    Linked s ∧ EachStep step Touches (init currentMs) as :=
  ⟨(run_inv Links links_step (links_init currentMs) h hone).linked,
    eachStep_of_inv Links links_step (fun _ _ _ hi _ _ => touches_step hi) (links_init currentMs)
      hone⟩

/-- In `timedRun` one link is cleared by the expiry, and the completion comes after;
here another is cleared by the completion, and its entry expires after. -/
def crossedRun : List (Act Bool) :=
  timedRun ++ [.start true false (some 20), .answer 2 false 1, .poll 1,
    .step 14, .step 14, .step 14, .poll 0, .step 25, .step 25, .step 25, .step 25]

theorem crossedRun_linked : ∃ s, run step (init 0) crossedRun = some s ∧
    s.pushed.map (·.callback) = [1, 0, 2] ∧ s.phase = .running ∧ Linked s ∧
    EachStep step Touches (init 0) crossedRun := by
  obtain ⟨s, hs, hpushed, hphase⟩ := run_eval step (init 0) crossedRun
    (fun s => s.pushed.map (·.callback) = [1, 0, 2] ∧ s.phase = .running) (by decide +kernel)
  exact ⟨s, hs, hpushed, hphase, links_hold 0 crossedRun s hs (by decide +kernel)⟩

end Kosio.Runtime.Driver
