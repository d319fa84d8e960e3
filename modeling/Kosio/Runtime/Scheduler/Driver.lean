import Mathlib.Data.List.Nodup
import Kosio.Runtime.Timer.Timer

/-!
# `Driver::poll`: completions and timers of one worker

An io operation owns a `Callback`, named by the number of callbacks made before
it, which is what the `user_data` of its request and the entry of its timeout
point to.  `poll` handles a batch of completions, one at a time, and then runs
the timer; in between the worker runs coroutines, which start operations.

The kernel may answer a request as soon as it is made, with any result and in
any order, and whatever else it posts (for cancel requests, for the waker) has
no `user_data`.  A zero-copy request is answered twice: the notification comes
after the result, and `IORING_CQE_F_NOTIF` tells it apart.  `poll` does not look
at that flag, so it schedules the coroutine again: each operation resumes once if
and only if no notification is handled (`resumed_once_iff`).
-/

namespace Kosio.Runtime.Driver

open Steps

/-! ## Algorithm -/

structure Callback (H : Type) where
  handle : Option H := none
  result : Int := 0
  deadline : Nat := 0
  /-- the timer entry of a timeout -/
  entry : Option Nat := none

/-- `io_uring_cqe` -/
structure Cqe where
  userData : Option Nat
  res : Int
  /-- `IORING_CQE_F_NOTIF` -/
  notif : Bool := false

/-- Where the worker is. -/
inductive Phase where
  /-- outside `poll` -/
  | running
  /-- in the loop of `poll`, with so many completions of the batch left -/
  | reaping (count : Nat)
  /-- in the loop of `handle_expired_entries` -/
  | expiring (now : Nat)
deriving DecidableEq

/-- A handle pushed to the run queue, and the result its operation finds. -/
structure Pushed (H : Type) where
  callback : Nat
  handle : Option H
  result : Int
  notif : Bool

structure State (H : Type) where
  timer : Timer Nat H
  /-- the callbacks made so far -/
  callbacks : Nat → Callback H
  made : Nat
  phase : Phase
  /-- requests not yet answered, and whether they are zero-copy -/
  inflight : List (Nat × Bool)
  /-- zero-copy requests answered but not yet notified -/
  notifying : List Nat
  cq : List Cqe
  /-- the operations whose `await_suspend` suspended, and their coroutines -/
  suspended : List (Nat × H)
  /-- what the kernel answered -/
  answers : List (Nat × Int)
  pushed : List (Pushed H)
  /-- sleeping coroutines pushed to the run queue -/
  woken : List H

variable {H : Type}

/-- The clock reads `currentMs` when the timer is built. -/
def init (currentMs : Nat) : State H :=
  { timer := .new currentMs, callbacks := fun _ => {}, made := 0, phase := .running, inflight := []
    notifying := [], cq := [], suspended := [], answers := [], pushed := [], woken := [] }

inductive Act (H : Type) where
  /-- `co_await` of an operation, with a timeout if there is a deadline -/
  | start (handle : H) (zeroCopy : Bool) (deadline : Option Nat)
  /-- `co_await` of a sleep -/
  | sleep (handle : H) (deadline : Nat)
  /-- the kernel answers a request -/
  | answer (callback : Nat) (zeroCopy : Bool) (res : Int)
  /-- the kernel is done with the buffer of a zero-copy request -/
  | notify (callback : Nat)
  /-- the kernel posts something without `user_data` -/
  | post (res : Int)
  | poll (count : Nat)
  /-- a step of `poll`; `currentMs` is what the clock reads -/
  | step (currentMs : Nat)

def setCallback (s : State H) (callback : Nat) (cb : Callback H) : State H :=
  { s with callbacks := Function.update s.callbacks callback cb }

/-- `IoRegistrator::await_suspend`: the coroutine suspends. -/
def suspend (s : State H) (handle : H) (zeroCopy : Bool) (cb : Callback H) : State H :=
  { setCallback s s.made { cb with handle := some handle } with
    made := s.made + 1
    inflight := s.inflight ++ [(s.made, zeroCopy)]
    suspended := s.suspended ++ [(s.made, handle)] }

/-- `await_suspend`, that of `Timeout` if there is a deadline.  A deadline in the
past turns the request into a nop without `user_data`. -/
def awaitSuspend (s : State H) (handle : H) (zeroCopy : Bool) : Option Nat → State H
  | none => suspend s handle zeroCopy {}
  | some deadline =>
    match s.timer.insertData s.made deadline with
    | .ok (timer, entry) =>
      suspend { s with timer } handle zeroCopy { deadline, entry := some entry }
    | .error e =>
      { setCallback s s.made { deadline, result := -e.errorCode } with made := s.made + 1 }

/-- One turn of the loop of `poll`. -/
def handleCqe (s : State H) (cqe : Cqe) : State H :=
  match cqe.userData with
  | none => s
  | some callback =>
    let cb := s.callbacks callback
    let s := match cb.entry with
      | some entry => { s with timer := s.timer.remove entry }
      | none => s
    let s := setCallback s callback { cb with result := cqe.res }
    let cb := s.callbacks callback
    { s with pushed := s.pushed ++ [⟨callback, cb.handle, cb.result, cqe.notif⟩] }

/-- `Entry::execute`; what the cancel request is answered is up to the kernel. -/
def execute (s : State H) (entry : Nat) : State H :=
  match (s.timer.entries entry).execute with
  | .cancel callback => setCallback s callback { s.callbacks callback with entry := none }
  | .schedule handle => { s with woken := s.woken ++ [handle] }
  | .nothing => s

def step (s : State H) : Act H → Option (State H)
  | .start handle zeroCopy deadline =>
    if s.phase = .running then some (awaitSuspend s handle zeroCopy deadline) else none
  | .sleep handle deadline =>
    if s.phase = .running then
      match s.timer.insertHandle handle deadline with
      | .ok (timer, _) => some { s with timer }
      -- `ret.value()` throws in a `noexcept` function, which ends the program
      | .error _ => none
    else none
  | .answer callback zeroCopy res =>
    if (callback, zeroCopy) ∈ s.inflight then
      some { s with
        inflight := s.inflight.erase (callback, zeroCopy)
        notifying := if zeroCopy then s.notifying ++ [callback] else s.notifying
        cq := s.cq ++ [{ userData := some callback, res }]
        answers := s.answers ++ [(callback, res)] }
    else none
  | .notify callback =>
    if callback ∈ s.notifying then
      some { s with
        notifying := s.notifying.erase callback
        cq := s.cq ++ [{ userData := some callback, res := 0, notif := true }] }
    else none
  | .post res => some { s with cq := s.cq ++ [{ userData := none, res }] }
  | .poll count =>
    if s.phase = .running ∧ count ≤ s.cq.length ∧ count ≤ localQueueCapacity then
      some { s with phase := .reaping count }
    else none
  | .step currentMs =>
    match s.phase with
    | .running => none
    | .reaping 0 => some { s with phase := .expiring (currentMs - s.timer.startTime) }
    | .reaping (count + 1) =>
      match s.cq with
      | [] => none
      | cqe :: cq => some { handleCqe { s with cq } cqe with phase := .reaping count }
    | .expiring now =>
      match s.timer.pending with
      | entry :: pending => some (execute { s with timer := { s.timer with pending } } entry)
      | [] =>
        match s.timer.turn now with
        | some timer => some { s with timer }
        | none => some { s with timer := { s.timer with elapsed := now }, phase := .running }

/-! ## What is promised -/

/-- The operation a completion is the result of. -/
def Cqe.result (cqe : Cqe) : Option Nat := if cqe.notif then none else cqe.userData

structure Sound (s : State H) : Prop where
  /-- no completion is handled for an operation that has been resumed -/
  once : (s.pushed.map (·.callback)).Nodup
  /-- what is pushed is the coroutine of the operation, and its answer is stored -/
  stored : ∀ p ∈ s.pushed, (∃ handle, (p.callback, handle) ∈ s.suspended ∧ p.handle = some handle) ∧
    (p.callback, p.result) ∈ s.answers
  /-- who suspended has been pushed, or its completion is still to be handled -/
  owed : ∀ o ∈ s.suspended, o.1 ∈ s.pushed.map (·.callback) ∨ o.1 ∈ s.inflight.map (·.1) ∨
    o.1 ∈ s.cq.filterMap Cqe.result

/-- The completion that a step handles. -/
def handles (s : State H) : Act H → Option Cqe
  | .step _ =>
    match s.phase with
    | .reaping (_ + 1) => s.cq.head?
    | _ => none
  | _ => none

/-- The completion handled, if any, is not a notification. -/
def NoNotif (s : State H) (a : Act H) (_ : State H) : Prop :=
  ∀ cqe ∈ handles s a, cqe.notif = false

instance (s : State H) (a : Act H) (t : State H) : Decidable (NoNotif s a t) :=
  inferInstanceAs (Decidable (∀ cqe ∈ handles s a, cqe.notif = false))

/-! ## Invariant -/

/-- The operations resumed by their result. -/
def State.resumed (s : State H) : List Nat :=
  (s.pushed.filter fun p => !p.notif).map (·.callback)

/-- Every notification comes after its result; `resumed` are those before. -/
def Ordered : List Nat → List Cqe → Prop
  | _, [] => True
  | resumed, cqe :: cq =>
    (cqe.notif = true → ∃ callback ∈ resumed, cqe.userData = some callback) ∧
      Ordered (resumed ++ cqe.result.toList) cq

structure Inv (s : State H) : Prop where
  /-- each operation is in flight, answered, or resumed -/
  owed : (s.inflight.map (·.1) ++ (s.cq.filterMap Cqe.result ++ s.resumed)).Perm
    (s.suspended.map (·.1))
  nodup : (s.suspended.map (·.1)).Nodup
  made : ∀ o ∈ s.suspended, o.1 < s.made
  handles : ∀ o ∈ s.suspended, (s.callbacks o.1).handle = some o.2
  answered : ∀ cqe ∈ s.cq, ∀ callback, cqe.result = some callback →
    (callback, cqe.res) ∈ s.answers
  stored : ∀ p ∈ s.pushed, p.notif = false →
    (∃ handle, (p.callback, handle) ∈ s.suspended ∧ p.handle = some handle) ∧
      (p.callback, p.result) ∈ s.answers
  ordered : Ordered s.resumed s.cq
  notifying : ∀ callback ∈ s.notifying, callback ∈ s.resumed ++ s.cq.filterMap Cqe.result
  again : ∀ p ∈ s.pushed, p.notif = true → p.callback ∈ s.resumed

theorem inv_init (currentMs : Nat) : Inv (init currentMs : State H) :=
  ⟨List.Perm.refl _, List.nodup_nil, nofun, nofun, nofun, nofun, trivial, nofun, nofun⟩

/-! ## Lemmas -/

theorem ordered_append {r : List Nat} {cq : List Cqe} {cqe : Cqe} :
    Ordered r (cq ++ [cqe]) ↔ Ordered r cq ∧ (cqe.notif = true →
      ∃ callback ∈ r ++ cq.filterMap Cqe.result, cqe.userData = some callback) := by
  induction cq generalizing r with
  | nil => simp [Ordered]
  | cons c cq ih =>
    rw [List.cons_append, Ordered, Ordered, ih, and_assoc]
    refine and_congr_right fun _ => and_congr_right fun _ => ?_
    have : r ++ (c :: cq).filterMap Cqe.result =
        r ++ c.result.toList ++ cq.filterMap Cqe.result := by
      rw [List.filterMap_cons]
      cases c.result <;> simp
    rw [this]

/-- The kernel has nothing to do with timers, phases and the other fields of a callback. -/
theorem Inv.congr {s t : State H} (h : Inv s) (h1 : t.inflight = s.inflight)
    (h2 : t.notifying = s.notifying) (h3 : t.cq = s.cq) (h4 : t.suspended = s.suspended)
    (h5 : t.answers = s.answers) (h6 : t.pushed = s.pushed) (h7 : t.made = s.made)
    (h8 : ∀ o ∈ s.suspended, (t.callbacks o.1).handle = (s.callbacks o.1).handle) : Inv t := by
  have hr : t.resumed = s.resumed := by rw [State.resumed, h6]; rfl
  obtain ⟨owed, nodup, made, handles, answered, stored, ordered, notifying, again⟩ := h
  constructor
  · rw [h1, h3, h4, hr]
    exact owed
  · rw [h4]
    exact nodup
  · rw [h4, h7]
    exact made
  · rw [h4]
    exact fun o ho => (h8 o ho).trans (handles o ho)
  · rw [h3, h5]
    exact answered
  · rw [h4, h5, h6]
    exact stored
  · rw [h3, hr]
    exact ordered
  · rw [h2, h3, hr]
    exact notifying
  · rw [h6, hr]
    exact again

/-- The promise is kept as long as no notification has been taken for a result. -/
theorem Inv.clean_iff {s : State H} (h : Inv s) : Sound s ↔ ∀ p ∈ s.pushed, p.notif = false := by
  constructor
  · intro hs p hp
    by_contra hn
    -- its result has been pushed too, by another push
    obtain ⟨q, hq, he⟩ := List.mem_map.1 (h.again p hp (by simpa using hn))
    obtain ⟨hq, hqn⟩ := List.mem_filter.1 hq
    have := List.inj_on_of_nodup_map hs.once hq hp he
    rw [this] at hqn
    simp [hn] at hqn
  · intro hall
    have hr : s.pushed.map (·.callback) = s.resumed := by
      rw [State.resumed, List.filter_eq_self.2]
      intro p hp
      simp [hall p hp]
    have hnd := h.owed.nodup_iff.2 h.nodup
    refine ⟨?_, fun p hp => h.stored p hp (hall p hp), fun o ho => ?_⟩
    · rw [hr]
      exact (List.nodup_append.1 (List.nodup_append.1 hnd).2.1).2.1
    · have := h.owed.mem_iff.2 (List.mem_map_of_mem ho)
      rw [hr]
      simp only [List.mem_append] at this
      tauto

/-! ## Steps -/

theorem suspend_inv {s : State H} (h : Inv s) (timer : Timer Nat H) (handle : H) (zeroCopy : Bool)
    (cb : Callback H) : Inv (suspend { s with timer } handle zeroCopy cb) := by
  obtain ⟨owed, nodup, made, handles, answered, stored, ordered, notifying, again⟩ := h
  have hfresh : s.made ∉ s.suspended.map (·.1) := by
    intro hm
    obtain ⟨o, ho, he⟩ := List.mem_map.1 hm
    have := made o ho
    omega
  refine ⟨?_, ?_, ?_, ?_, answered, ?_, ordered, notifying, again⟩
  · show ((s.inflight ++ [(s.made, zeroCopy)]).map (·.1) ++ _).Perm
      ((s.suspended ++ [(s.made, handle)]).map (·.1))
    rw [List.map_append, List.map_append, List.append_assoc]
    exact List.perm_middle.trans ((owed.cons _).trans (List.perm_append_singleton _ _).symm)
  · show ((s.suspended ++ [(s.made, handle)]).map (·.1)).Nodup
    rw [List.map_append]
    exact List.nodup_append.2 ⟨nodup, List.nodup_singleton _, fun a ha b hb => by
      rw [List.mem_singleton.1 hb]
      rintro rfl
      exact hfresh ha⟩
  · intro o ho
    show o.1 < s.made + 1
    rcases List.mem_append.1 ho with ho | ho
    · exact Nat.lt_succ_of_lt (made o ho)
    · rw [List.mem_singleton.1 ho]
      exact Nat.lt_succ_self _
  · intro o ho
    show (Function.update s.callbacks s.made { cb with handle := some handle } o.1).handle = _
    rcases List.mem_append.1 ho with ho | ho
    · have := made o ho
      rw [Function.update_of_ne (by omega)]
      exact handles o ho
    · rw [List.mem_singleton.1 ho, Function.update_self]
  · intro p hp hn
    obtain ⟨⟨k, h1, h2⟩, h3⟩ := stored p hp hn
    exact ⟨⟨k, List.mem_append_left _ h1, h2⟩, h3⟩

theorem awaitSuspend_inv {s : State H} (h : Inv s) (handle : H) (zeroCopy : Bool)
    (deadline : Option Nat) : Inv (awaitSuspend s handle zeroCopy deadline) := by
  cases deadline with
  | none => exact suspend_inv h s.timer handle zeroCopy {}
  | some deadline =>
    unfold awaitSuspend
    dsimp only
    split
    · exact suspend_inv h _ handle zeroCopy _
    · obtain ⟨owed, nodup, made, handles, answered, stored, ordered, notifying, again⟩ := h
      refine ⟨owed, nodup, fun o ho => Nat.lt_succ_of_lt (made o ho), fun o ho => ?_, answered,
        stored, ordered, notifying, again⟩
      have := made o ho
      show (Function.update s.callbacks s.made _ o.1).handle = _
      rw [Function.update_of_ne (by omega)]
      exact handles o ho

theorem results_append (cq : List Cqe) (cqe : Cqe) :
    (cq ++ [cqe]).filterMap Cqe.result = cq.filterMap Cqe.result ++ cqe.result.toList := by
  rw [List.filterMap_append, List.filterMap_cons, List.filterMap_nil]
  cases cqe.result <;> rfl

/-- The kernel posts a completion. -/
theorem Inv.posted {s : State H} (h : Inv s) (cqe : Cqe) {inflight : List (Nat × Bool)}
    {notifying : List Nat} {answers : List (Nat × Int)}
    (hflight : (inflight.map (·.1) ++ cqe.result.toList).Perm (s.inflight.map (·.1)))
    (hanswers : ∀ a ∈ s.answers, a ∈ answers)
    (hres : ∀ callback, cqe.result = some callback → (callback, cqe.res) ∈ answers)
    (hnotif : cqe.notif = true →
      ∃ callback ∈ s.resumed ++ s.cq.filterMap Cqe.result, cqe.userData = some callback)
    (hnotifying : ∀ callback ∈ notifying, callback ∈ s.notifying ∨ cqe.result = some callback) :
    Inv { s with inflight, notifying, cq := s.cq ++ [cqe], answers } := by
  obtain ⟨owed, nodup, made, handles, answered, stored, ordered, notif, again⟩ := h
  refine ⟨?_, nodup, made, handles, ?_, ?_, ordered_append.2 ⟨ordered, hnotif⟩, ?_, again⟩
  · refine List.Perm.trans ?_ owed
    rw [results_append, List.perm_iff_count]
    intro cb
    have := hflight.count_eq cb
    show List.count cb (inflight.map (·.1) ++ (_ ++ s.resumed)) = _
    simp only [List.count_append] at this ⊢
    omega
  · intro c hc cb hcb
    rcases List.mem_append.1 hc with hc | hc
    · exact hanswers _ (answered c hc cb hcb)
    · rw [List.mem_singleton.1 hc] at hcb ⊢
      exact hres cb hcb
  · intro p hp hn
    obtain ⟨h1, h2⟩ := stored p hp hn
    exact ⟨h1, hanswers _ h2⟩
  · intro cb hcb
    show cb ∈ s.resumed ++ (s.cq ++ [cqe]).filterMap Cqe.result
    rw [results_append, ← List.append_assoc]
    rcases hnotifying cb hcb with hcb | hcb
    · exact List.mem_append_left _ (notif cb hcb)
    · rw [hcb]
      exact List.mem_append_right _ List.mem_cons_self

theorem resumed_append {s t : State H} {p : Pushed H} (h : t.pushed = s.pushed ++ [p]) :
    t.resumed = s.resumed ++ if p.notif then [] else [p.callback] := by
  rw [State.resumed, h, List.filter_append, List.map_append]
  cases hn : p.notif <;> simp [State.resumed, hn]

/-- `poll` pushes the handle, with the result stored; only `result_` and the timer change. -/
theorem handleCqe_spec {s : State H} {cqe : Cqe} {callback : Nat}
    (hc : cqe.userData = some callback) :
    ∃ timer, handleCqe s cqe =
      { setCallback s callback { s.callbacks callback with result := cqe.res } with
        timer
        pushed := s.pushed ++ [⟨callback, (s.callbacks callback).handle, cqe.res, cqe.notif⟩] } := by
  unfold handleCqe
  rw [hc]
  dsimp only
  cases he : (s.callbacks callback).entry with
  | none =>
    refine ⟨s.timer, ?_⟩
    simp [setCallback]
  | some entry =>
    refine ⟨s.timer.remove entry, ?_⟩
    simp [setCallback]

theorem handle_update (f : Nat → Callback H) {callback : Nat} {cb : Callback H}
    (h : cb.handle = (f callback).handle) (x : Nat) :
    (Function.update f callback cb x).handle = (f x).handle := by
  by_cases hx : x = callback
  · rw [hx, Function.update_self, h]
  · rw [Function.update_of_ne hx]

/-- The first completion is taken off the queue. -/
theorem Inv.taken {s : State H} {cqe : Cqe} {cq : List Cqe} (h : Inv s) (hcq : s.cq = cqe :: cq)
    {t : State H} (h1 : t.inflight = s.inflight) (h2 : t.notifying = s.notifying) (h3 : t.cq = cq)
    (h4 : t.suspended = s.suspended) (h5 : t.answers = s.answers) (h6 : t.made = s.made)
    (h7 : ∀ o ∈ s.suspended, (t.callbacks o.1).handle = (s.callbacks o.1).handle)
    (h8 : t.resumed = s.resumed ++ cqe.result.toList)
    (h9 : ∀ p ∈ t.pushed, p ∈ s.pushed ∨ (p.notif = true → p.callback ∈ s.resumed) ∧
      (p.notif = false → (∃ handle, (p.callback, handle) ∈ s.suspended ∧ p.handle = some handle) ∧
        (p.callback, p.result) ∈ s.answers)) : Inv t := by
  obtain ⟨owed, nodup, made, handles, answered, stored, ordered, notif, again⟩ := h
  rw [hcq] at owed answered ordered notif
  have hres : (cqe :: cq).filterMap Cqe.result = cqe.result.toList ++ cq.filterMap Cqe.result := by
    rw [List.filterMap_cons]
    cases cqe.result <;> rfl
  rw [hres] at owed notif
  refine ⟨?_, ?_, ?_, ?_, ?_, ?_, ?_, ?_, ?_⟩
  · rw [h1, h3, h4, h8]
    refine List.Perm.trans ?_ owed
    rw [List.perm_iff_count]
    intro cb
    simp only [List.count_append]
    omega
  · rw [h4]
    exact nodup
  · rw [h4, h6]
    exact made
  · rw [h4]
    exact fun o ho => (h7 o ho).trans (handles o ho)
  · rw [h3, h5]
    exact fun c hc => answered c (List.mem_cons_of_mem _ hc)
  · rw [h4, h5]
    intro p hp hn
    rcases h9 p hp with hp | ⟨-, hp⟩
    · exact stored p hp hn
    · exact hp hn
  · rw [h3, h8]
    exact ordered.2
  · rw [h2, h3, h8]
    intro cb hcb
    rw [List.append_assoc]
    exact notif cb hcb
  · rw [h8]
    intro p hp hn
    refine List.mem_append_left _ ?_
    rcases h9 p hp with hp | ⟨hp, -⟩
    · exact again p hp hn
    · exact hp hn

/-- **A completion is handled.**  It is taken for a result in any case. -/
theorem Inv.handled {s : State H} {cqe : Cqe} {cq : List Cqe} (h : Inv s) (hcq : s.cq = cqe :: cq) :
    Inv (handleCqe { s with cq } cqe) ∧
      ((∀ p ∈ (handleCqe { s with cq } cqe).pushed, p.notif = false) ↔
        (∀ p ∈ s.pushed, p.notif = false) ∧ cqe.notif = false) := by
  have hord := h.ordered
  rw [hcq] at hord
  cases hc : cqe.userData with
  | none =>
    have hn : cqe.notif = false := by
      by_contra hn
      obtain ⟨cb, -, he⟩ := hord.1 (by simpa using hn)
      rw [hc] at he
      cases he
    have hdef : handleCqe { s with cq } cqe = { s with cq } := by
      unfold handleCqe
      rw [hc]
    rw [hdef]
    refine ⟨h.taken hcq rfl rfl rfl rfl rfl rfl (fun _ _ => rfl) ?_ fun p hp => Or.inl hp, ?_⟩
    · rw [Cqe.result, hc]
      simp [State.resumed]
    · simp [hn]
  | some cb =>
    obtain ⟨timer, hdef⟩ := handleCqe_spec (s := { s with cq }) hc
    rw [hdef]
    have hres : cqe.result.toList = if cqe.notif then [] else [cb] := by
      rw [Cqe.result, hc]
      cases cqe.notif <;> rfl
    refine ⟨h.taken hcq rfl rfl rfl rfl rfl rfl (fun o _ => handle_update s.callbacks (by rfl) o.1) ?_ ?_, ?_⟩
    · rw [hres]
      exact resumed_append (s := s)
        (p := ⟨cb, (s.callbacks cb).handle, cqe.res, cqe.notif⟩) rfl
    · intro p hp
      rcases List.mem_append.1 hp with hp | hp
      · exact Or.inl hp
      · right
        rw [List.mem_singleton.1 hp]
        refine ⟨fun hn => ?_, fun hn => ?_⟩
        · obtain ⟨cb', hcb', he⟩ := hord.1 hn
          rw [hc] at he
          cases he
          exact hcb'
        · have hr : cqe.result = some cb := by
            have hn : cqe.notif = false := hn
            simp [Cqe.result, hn, hc]
          have hin : cb ∈ s.suspended.map (·.1) := by
            rw [← h.owed.mem_iff, hcq, List.filterMap_cons, hr]
            simp
          obtain ⟨o, ho, rfl⟩ := List.mem_map.1 hin
          refine ⟨⟨o.2, ho, h.handles o ho⟩, ?_⟩
          exact h.answered cqe (by simp [hcq]) _ hr
    · show (∀ p ∈ s.pushed ++ [_], p.notif = false) ↔ _
      rw [List.forall_mem_append, List.forall_mem_singleton]

/-- The steps that push nothing. -/
theorem quiet {s t : State H} {a : Act H} (ha : handles s a = none) (hi : Inv t)
    (hp : t.pushed = s.pushed) :
    Inv t ∧ ((∀ p ∈ t.pushed, p.notif = false) ↔
      (∀ p ∈ s.pushed, p.notif = false) ∧ NoNotif s a t) := by
  refine ⟨hi, ?_⟩
  rw [hp]
  exact (and_iff_left fun cqe hc => by rw [ha] at hc; cases hc).symm

theorem pushed_suspend (s : State H) (handle : H) (zeroCopy : Bool) (deadline : Option Nat) :
    (awaitSuspend s handle zeroCopy deadline).pushed = s.pushed := by
  unfold awaitSuspend
  split
  · rfl
  · split <;> rfl

theorem execute_inv {s : State H} (h : Inv s) (entry : Nat) (pending : List Nat) :
    Inv (execute { s with timer := { s.timer with pending } } entry) ∧
      (execute { s with timer := { s.timer with pending } } entry).pushed = s.pushed := by
  unfold execute
  split
  · exact ⟨h.congr rfl rfl rfl rfl rfl rfl rfl fun o _ => handle_update s.callbacks (by rfl) o.1, rfl⟩
  · exact ⟨h.congr rfl rfl rfl rfl rfl rfl rfl fun _ _ => rfl, rfl⟩
  · exact ⟨h.congr rfl rfl rfl rfl rfl rfl rfl fun _ _ => rfl, rfl⟩

/-- What one step of `poll` does. -/
inductive Polls (s : State H) (currentMs : Nat) : State H → Prop where
  | reaped (hp : s.phase = .reaping 0) :
    Polls s currentMs { s with phase := .expiring (currentMs - s.timer.startTime) }
  | handled {count : Nat} {cqe : Cqe} {cq : List Cqe} (hp : s.phase = .reaping (count + 1))
      (hcq : s.cq = cqe :: cq) :
    Polls s currentMs { handleCqe { s with cq } cqe with phase := .reaping count }
  | executed {now entry : Nat} {pending : List Nat} (hp : s.phase = .expiring now)
      (hpend : s.timer.pending = entry :: pending) :
    Polls s currentMs (execute { s with timer := { s.timer with pending } } entry)
  | turned {now : Nat} {timer : Timer Nat H} (hp : s.phase = .expiring now)
      (hpend : s.timer.pending = []) (hturn : s.timer.turn now = some timer) :
    Polls s currentMs { s with timer }
  | returned {now : Nat} (hp : s.phase = .expiring now) (hpend : s.timer.pending = []) :
    Polls s currentMs { s with timer := { s.timer with elapsed := now }, phase := .running }

theorem step_polls {s t : State H} {currentMs : Nat} (hs : step s (.step currentMs) = some t) :
    Polls s currentMs t := by
  cases hp : s.phase with
  | running => simp [step, hp] at hs
  | reaping count =>
    cases count with
    | zero =>
      simp only [step, hp, Option.some.injEq] at hs
      subst hs
      exact .reaped hp
    | succ count =>
      cases hcq : s.cq with
      | nil => simp [step, hp, hcq] at hs
      | cons cqe cq =>
        have heq : step s (.step currentMs) =
            some { handleCqe { s with cq } cqe with phase := .reaping count } := by
          simp only [step, hp, hcq]
        cases heq.symm.trans hs
        exact .handled hp hcq
  | expiring now =>
    cases hpend : s.timer.pending with
    | cons entry pending =>
      have heq : step s (.step currentMs) =
          some (execute { s with timer := { s.timer with pending } } entry) := by
        simp only [step, hp, hpend]
      cases heq.symm.trans hs
      exact .executed hp hpend
    | nil =>
      have heq : step s (.step currentMs) =
          match s.timer.turn now with
          | some timer => some { s with timer }
          | none => some { s with timer := { s.timer with elapsed := now }, phase := .running } := by
        simp only [step, hp, hpend]
      rw [heq] at hs
      split at hs
      · next hturn =>
        cases hs
        exact .turned hp hpend hturn
      · cases hs
        exact .returned hp hpend

/-- **Step lemma.** -/
theorem step_spec (s : State H) (a : Act H) (t : State H) (h : Inv s) (hs : step s a = some t) :
    Inv t ∧ ((∀ p ∈ t.pushed, p.notif = false) ↔
      (∀ p ∈ s.pushed, p.notif = false) ∧ NoNotif s a t) := by
  cases a with
  | start handle zeroCopy deadline =>
    simp only [step, Option.ite_none_right_eq_some, Option.some.injEq] at hs
    obtain ⟨-, rfl⟩ := hs
    exact quiet rfl (awaitSuspend_inv h handle zeroCopy deadline)
      (pushed_suspend s handle zeroCopy deadline)
  | sleep handle deadline =>
    simp only [step, Option.ite_none_right_eq_some] at hs
    obtain ⟨-, hs⟩ := hs
    split at hs
    · cases hs
      exact quiet rfl
        (h.congr rfl rfl rfl rfl rfl rfl rfl fun _ _ => rfl) rfl
    · cases hs
  | answer callback zeroCopy res =>
    simp only [step, Option.ite_none_right_eq_some, Option.some.injEq] at hs
    obtain ⟨hin, rfl⟩ := hs
    refine quiet rfl (h.posted _ ?_ ?_ ?_ ?_ ?_) rfl
    · refine (List.perm_append_singleton _ _).trans ?_
      exact ((List.perm_cons_erase hin).map (·.1)).symm
    · exact fun a ha => List.mem_append_left _ ha
    · intro cb hcb
      obtain rfl : callback = cb := by simpa [Cqe.result] using hcb
      exact List.mem_append_right _ List.mem_cons_self
    · exact fun he => by cases he
    · intro cb hcb
      cases zeroCopy with
      | false => exact Or.inl hcb
      | true => simpa [Cqe.result, eq_comm] using hcb
  | notify callback =>
    simp only [step, Option.ite_none_right_eq_some, Option.some.injEq] at hs
    obtain ⟨hin, rfl⟩ := hs
    refine quiet rfl (h.posted _ ?_ ?_ ?_ ?_ ?_) rfl
    · simp [Cqe.result]
    · exact fun a ha => ha
    · exact fun cb hcb => by simp [Cqe.result] at hcb
    · exact fun _ => ⟨callback, h.notifying callback hin, rfl⟩
    · exact fun cb hcb => Or.inl (List.mem_of_mem_erase hcb)
  | post res =>
    cases hs
    refine quiet rfl (h.posted _ ?_ ?_ ?_ ?_ ?_) rfl
    · simp [Cqe.result]
    · exact fun a ha => ha
    · exact fun cb hcb => by simp [Cqe.result] at hcb
    · exact fun he => by cases he
    · exact fun cb hcb => Or.inl hcb
  | poll count =>
    simp only [step, Option.ite_none_right_eq_some, Option.some.injEq] at hs
    obtain ⟨-, rfl⟩ := hs
    exact quiet rfl
      (h.congr rfl rfl rfl rfl rfl rfl rfl fun _ _ => rfl) rfl
  | step currentMs =>
    cases step_polls hs with
    | reaped hp =>
      exact quiet (by simp [handles, hp])
        (h.congr rfl rfl rfl rfl rfl rfl rfl fun _ _ => rfl) rfl
    | handled hp hcq =>
      obtain ⟨hi, hiff⟩ := h.handled hcq
      refine ⟨hi.congr rfl rfl rfl rfl rfl rfl rfl fun _ _ => rfl, hiff.trans ?_⟩
      simp [NoNotif, handles, hp, hcq]
    | @executed _ entry pending hp hpend =>
      obtain ⟨hi, he⟩ := execute_inv h entry pending
      exact quiet (by simp [handles, hp]) hi he
    | turned hp =>
      exact quiet (by simp [handles, hp])
        (h.congr rfl rfl rfl rfl rfl rfl rfl fun _ _ => rfl) rfl
    | returned hp =>
      exact quiet (by simp [handles, hp])
        (h.congr rfl rfl rfl rfl rfl rfl rfl fun _ _ => rfl) rfl

/-! ## Top theorems -/

/-- **Each operation resumes once**, after its result is stored, if and only if
no notification is handled: for any mix of operations, any order of completions
and any batches. -/
theorem resumed_once_iff (currentMs : Nat) (as : List (Act H)) (s : State H)
    (h : run step (init currentMs) as = some s) :
    Sound s ↔ EachStep step NoNotif (init currentMs) as := by
  have hall : EachStep step (fun _ _ _ => True) (init currentMs) as := eachStep_true _ as
  have hinv := run_inv Inv (fun s a t hi hs _ => (step_spec s a t hi hs).1) (inv_init currentMs) h
    hall
  rw [hinv.clean_iff, run_iff Inv (fun s a t hi hs => (step_spec s a t hi hs).2)
    (fun s a t hi hs => (step_spec s a t hi hs).1) (inv_init currentMs) h]
  exact and_iff_right nofun

/-- A timeout expires and its operation is cancelled, another completes at once. -/
def timedRun : List (Act Bool) :=
  [.start true false (some 10), .start false false none, .answer 1 false 3,
   .poll 1, .step 0, .step 12, .step 12, .step 12, .step 12,
   .post 0, .answer 0 false (-125), .poll 2, .step 13, .step 13, .step 13, .step 13]

theorem timedRun_once : ∃ s, run step (init 0) timedRun = some s ∧
    s.pushed.map (fun p => (p.handle, p.result)) = [(some false, 3), (some true, -125)] ∧
    s.phase = .running ∧ Sound s := by
  obtain ⟨s, hs, hpushed, hphase⟩ := run_eval step (init 0) timedRun
    (fun s => s.pushed.map (fun p => (p.handle, p.result)) = [(some false, 3), (some true, -125)] ∧
      s.phase = .running) (by decide +kernel)
  exact ⟨s, hs, hpushed, hphase, (resumed_once_iff 0 timedRun s hs).2 (by decide +kernel)⟩

/-- `write_zc`: the notification resumes the coroutine again. -/
def zeroCopyRun : List (Act Unit) :=
  [.start () true none, .answer 0 true 5, .notify 0, .poll 2, .step 0, .step 0]

theorem resumed_twice : ∃ s, run step (init 0) zeroCopyRun = some s ∧
    s.suspended = [(0, ())] ∧ s.pushed.map (·.callback) = [0, 0] ∧ ¬ Sound s :=
  ⟨_, rfl, rfl, rfl, fun h => absurd h.once (by decide)⟩

end Kosio.Runtime.Driver
