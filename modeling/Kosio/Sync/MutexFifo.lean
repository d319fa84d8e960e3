import Kosio.Sync.Mutex

/-!
# `lock` is first come, first served

`lock` and `unlock` only, each `unlock` by the owner.  Beside the mutex a run
keeps four lists: whose CAS in `await_suspend` has succeeded, which of these
suspended, who has had the lock, and what `unlock` has scheduled.

A step changes the line of the mutex at one of its ends or not at all
(`changes_step`), so what the lists say is kept by four small cases: everybody
who asked has had the lock or waits for it, in the order of the CASes, and
everybody who suspended has been scheduled once or still waits (`lock_fair`).
-/

namespace Kosio.MutexFifo

open Steps Mutex

/-! ## Algorithm -/

structure State (C : Type) where
  mutex : Mutex.State C
  /-- whose CAS in `await_suspend` has succeeded -/
  arrived : List C
  /-- those of them whose `await_suspend` has answered `true` -/
  suspended : List C
  /-- who got the lock -/
  owners : List C
  /-- the calls of `schedule_local`: by whose `unlock`, and which coroutine -/
  scheduled : List (C × C)

variable {C : Type}

def init : State C := ⟨Mutex.init, [], [], [], []⟩

/-- `c` has taken a step to `t`. -/
def record (s : State C) (c : C) (t : Mutex.State C) : State C :=
  match s.mutex.pc c, t.pc c with
  | .lockCas _, .owner =>
    { s with mutex := t, arrived := s.arrived ++ [c], owners := s.owners ++ [c] }
  | .lockCas _, .parked =>
    { s with mutex := t, arrived := s.arrived ++ [c], suspended := s.suspended ++ [c] }
  | .unlockSched, _ =>
    match s.mutex.fifoAwaiters with
    | some a =>
      { s with mutex := t, owners := s.owners ++ [a], scheduled := s.scheduled ++ [(c, a)] }
    | none => { s with mutex := t }
  | _, _ => { s with mutex := t }

def step [DecidableEq C] (s : State C) : Act C → Option (State C)
  | .tryLock _ => none
  | a => (Mutex.step s.mutex a).map (record s a.actor)

/-! ## What is promised -/

structure Fair [DecidableEq C] (s : State C) : Prop where
  /-- those who wait, in the order in which they will get the lock -/
  order : ∃ waiting : List C, waiting.Nodup ∧ (∀ c, s.mutex.pc c = .parked ↔ c ∈ waiting) ∧
    s.arrived = s.owners ++ waiting ∧ s.suspended = s.scheduled.map (·.2) ++ waiting
  owner : ∀ c, (s.mutex.pc c).Owns → s.owners.getLast? = some c
  queued : ∀ c, s.mutex.pc c = .parked → Queued s.mutex c
  /-- nobody waits for a free lock -/
  served : ∀ c, s.mutex.pc c = .parked → ∃ d, (s.mutex.pc d).Owns
  asserts : ∀ c, Asserts s.mutex c
  free : s.mutex.state = .unlocked →
    s.mutex.fifoAwaiters = none ∧ ∀ c, s.mutex.pc c ≠ .parked
  /-- a call of `unlock` goes on until it returns -/
  moves : ∀ c spurious, (s.mutex.pc c).Unlocking → s.mutex.pc c ≠ .idle →
    (step s (.step c spurious)).isSome
  /-- when all calls have returned or wait, all have returned -/
  settled : (∀ c, s.mutex.pc c = .idle ∨ s.mutex.pc c = .parked) →
    (∀ c, s.mutex.pc c = .idle) ∧ s.suspended = s.scheduled.map (·.2)

/-- What a step does about those who wait. -/
structure HandsOver (s : State C) (a : Act C) (t : State C) : Prop where
  /-- a coroutine stops waiting when it is scheduled -/
  woken : ∀ x, s.mutex.pc x = .parked → t.mutex.pc x ≠ .parked →
    t.scheduled = s.scheduled ++ [(a.actor, x)]
  /-- whom `unlock` schedules has waited, and owns the lock in place of its caller -/
  handed : ∀ c x, t.scheduled = s.scheduled ++ [(c, x)] →
    c = a.actor ∧ s.mutex.pc x = .parked ∧ (s.mutex.pc c).Owns ∧ ¬ (t.mutex.pc c).Owns ∧
      (t.mutex.pc x).Owns ∧ t.mutex.pc x = .scheduled c

/-! ## Invariant -/

/-- The lists follow the line `l`; nobody is in `try_lock`. -/
structure Inv (s : State C) (l : List C) : Prop where
  stands : Stands s.mutex l
  places : ∀ c, (s.mutex.pc c).Locking ∨ (s.mutex.pc c).Unlocking
  arrived : s.arrived = s.owners ++ l.tail
  suspended : s.suspended = s.scheduled.map (·.2) ++ l.tail
  owner : ∀ c, HandOff.owner l = some c → s.owners.getLast? = some c

theorem inv_init : Inv (init : State C) [] :=
  ⟨stands_init, fun _ => Or.inr trivial, rfl, rfl, fun _ h => by cases h⟩

/-! ## Lemmas -/

theorem record_quiet {s : State C} {c : C} {t : Mutex.State C}
    (hcas : ∀ w, s.mutex.pc c = .lockCas w → ∃ w', t.pc c = .lockCas w')
    (hsched : s.mutex.pc c ≠ .unlockSched) : record s c t = { s with mutex := t } := by
  unfold record
  split
  · next h1 h2 =>
    obtain ⟨w', h3⟩ := hcas _ h1
    rw [h2] at h3
    cases h3
  · next h1 h2 =>
    obtain ⟨w', h3⟩ := hcas _ h1
    rw [h2] at h3
    cases h3
  · next h1 => exact absurd h1 hsched
  · rfl

theorem record_handOver {s : State C} {c a : C} (t : Mutex.State C)
    (hsched : s.mutex.pc c = .unlockSched) (ha : s.mutex.fifoAwaiters = some a) :
    record s c t =
      { s with mutex := t, owners := s.owners ++ [a], scheduled := s.scheduled ++ [(c, a)] } := by
  unfold record
  rw [hsched, ha]

theorem record_scheduled {s : State C} {c : C} (t : Mutex.State C)
    (hsched : s.mutex.pc c ≠ .unlockSched) : (record s c t).scheduled = s.scheduled := by
  unfold record
  split
  · rfl
  · rfl
  · next h => exact absurd h hsched
  · rfl

theorem record_mutex (s : State C) (c : C) (t : Mutex.State C) : (record s c t).mutex = t := by
  unfold record
  split
  · rfl
  · rfl
  · split <;> rfl
  · rfl

/-- The lists follow what happens to the line. -/
theorem Inv.change {s : State C} {l l' : List C} {c : C} {t : Mutex.State C} (h : Inv s l)
    (ht : Stands t l') (hp : ∀ x, (t.pc x).Locking ∨ (t.pc x).Unlocking)
    (hch : Change s.mutex t c l l') : Inv (record s c t) l' := by
  obtain ⟨-, hplaces, harr, hsus, hown⟩ := h
  cases hch with
  | quiet _ hcas hsched =>
    rw [record_quiet hcas hsched]
    exact ⟨ht, hp, harr, hsus, hown⟩
  | acquire hcas hc =>
    have hlock : ∃ w, s.mutex.pc c = .lockCas w := by
      obtain ⟨w, hw | hw⟩ := hcas
      · exact ⟨w, hw⟩
      · have := hplaces c
        rw [hw] at this
        simp [Pc.Locking, Pc.Unlocking] at this
    obtain ⟨w, hw⟩ := hlock
    have hr : record s c t =
        { s with mutex := t, arrived := s.arrived ++ [c], owners := s.owners ++ [c] } := by
      unfold record
      rw [hw, hc]
    rw [hr]
    refine ⟨ht, hp, ?_, hsus, fun x hx => ?_⟩
    · rw [harr]
      simp
    · cases hx
      simp
  | enqueue _ hcas hc hl hnot =>
    obtain ⟨w, hw⟩ := hcas
    have hr : record s c t =
        { s with mutex := t, arrived := s.arrived ++ [c], suspended := s.suspended ++ [c] } := by
      unfold record
      rw [hw, hc]
    have htail : (l ++ [c]).tail = l.tail ++ [c] := List.tail_append_of_ne_nil hl
    have hhead : HandOff.owner (l ++ [c]) = HandOff.owner l := List.head?_append_of_ne_nil _ hl
    rw [hr]
    refine ⟨ht, hp, ?_, ?_, fun x hx => hown x (hhead ▸ hx)⟩
    · show s.arrived ++ [c] = _
      rw [harr, htail, List.append_assoc]
    · show s.suspended ++ [c] = _
      rw [hsus, htail, List.append_assoc]
  | release hc =>
    rw [record_quiet (by simp [hc]) (by simp [hc])]
    exact ⟨ht, hp, harr, hsus, fun x hx => by cases hx⟩
  | handOver a l hc ha =>
    rw [record_handOver t hc ha]
    refine ⟨ht, hp, ?_, ?_, fun x hx => ?_⟩
    · show s.arrived = _
      rw [harr]
      simp
    · show s.suspended = _
      rw [hsus]
      simp
    · cases hx
      simp

/-- Whoever waits is on a list. -/
theorem queued_of_parked {s : Mutex.State C} {l : List C} (h : Stands s l) {x : C}
    (hx : s.pc x = .parked) : Queued s x := by
  obtain ⟨o, rem, fifo, lifo, h, -⟩ := h
  have hin := (h.parks x).1 hx
  cases o with
  | none =>
    obtain ⟨rfl, rfl, rfl⟩ := h.line_none
    simp at hin
  | some c =>
    rcases hin with hin | hin | hin
    · -- only a list that is being reversed is in `rem`
      have hm := h.mid c rfl
      cases hc : s.pc c with
      | unlockRev y =>
        rw [hc] at hm
        exact ⟨some y, rem, hm.1, hin, Or.inr (Or.inr ⟨c, y, hc, rfl⟩)⟩
      | _ =>
        rw [hc] at hm
        first
        | exact hm.elim
        | rw [hm.1] at hin
          cases hin
    · have hm := h.mid c rfl
      cases hc : s.pc c with
      | scheduled d =>
        rw [hc] at hm
        by_cases hd : s.pc d = .unlockPop
        · obtain ⟨hf, hch⟩ := hm.2.1 hd
          exact ⟨some c, c :: fifo, ⟨rfl, hch⟩, List.mem_cons_of_mem _ hin, Or.inr (Or.inl hf.symm)⟩
        · exact ⟨_, fifo, hm.2.2 hd, hin, Or.inr (Or.inl rfl)⟩
      | owner | unlockAssert | unlockFifo | unlockRev y =>
        rw [hc] at hm
        exact ⟨_, fifo, hm.2, hin, Or.inr (Or.inl rfl)⟩
      | unlockSched =>
        rw [hc] at hm
        obtain ⟨-, a, ha, hch⟩ := hm
        exact ⟨some a, fifo, hch, hin, Or.inr (Or.inl ha.symm)⟩
      | unlockLoad | unlockCas | unlockXchg =>
        rw [hc] at hm
        rw [hm.2.1] at hin
        cases hin
      | _ =>
        rw [hc] at hm
        exact hm.elim
    · exact ⟨_, lifo, h.lifo, hin, Or.inl rfl⟩

/-- What the line says about who waits and when the lock is free. -/
theorem parked_iff {s : Mutex.State C} {l : List C} (h : Stands s l) :
    l.tail.Nodup ∧ (∀ c, s.pc c = .parked ↔ c ∈ l.tail) ∧ (s.state = .unlocked ↔ l = []) ∧
      (s.state = .unlocked → s.fifoAwaiters = none) := by
  obtain ⟨o, rem, fifo, lifo, h, rfl⟩ := h
  cases o with
  | none =>
    have hp := h.parks
    have hu := h.unlocked.2 rfl
    have hf := (h.free rfl).2.2
    obtain ⟨rfl, rfl, rfl⟩ := h.line_none
    refine ⟨List.nodup_nil, fun c => (hp c).trans (by simp [line]), ?_, fun _ => hf⟩
    simp [line, hu]
  | some a =>
    have hu : s.state ≠ .unlocked := fun he => by cases h.unlocked.1 he
    refine ⟨?_, fun c => ?_, ?_, fun he => absurd he hu⟩
    · have := h.nodup
      simp only [line, Option.toList_some, List.singleton_append, List.tail_cons]
      rw [List.nodup_append, List.nodup_append] at this ⊢
      simpa using this
    · rw [h.parks c]
      simp [line]
    · simp [line, hu]

section

variable [DecidableEq C]

theorem Inv.fair {s : State C} {l : List C} (h : Inv s l) : Fair s := by
  obtain ⟨hnd, hpark, hfree, hnull⟩ := parked_iff h.stands
  have hserved : ∀ c, s.mutex.pc c = .parked → ∃ d, (s.mutex.pc d).Owns := by
    intro c hc
    cases l with
    | nil => simp [hpark c] at hc
    | cons d l => exact ⟨d, (h.stands.owns d).2 rfl⟩
  refine ⟨⟨l.tail, hnd, hpark, h.arrived, h.suspended⟩, fun c hc => ?_,
    fun c hc => queued_of_parked h.stands hc, hserved, fun c => h.stands.asserts c,
    fun hu => ⟨hnull hu, fun c hc => ?_⟩, fun c spurious hc hne => ?_, fun hall => ?_⟩
  · exact h.owner c ((h.stands.owns c).1 hc)
  · rw [hpark c, hfree.1 hu] at hc
    cases hc
  · obtain ⟨-, hlist, hfifo⟩ := h.stands.asserts c
    cases hp : s.mutex.pc c with
    | unlockXchg =>
      obtain ⟨x, hx⟩ := hlist hp
      simp [step, Mutex.step, hp, hx]
    | unlockSched =>
      obtain ⟨x, hx⟩ := Option.ne_none_iff_exists'.1 (hfifo hp)
      simp [step, Mutex.step, hp, hx]
    | unlockCas =>
      simp only [step, Mutex.step, hp]
      split <;> rfl
    | idle => exact absurd hp hne
    | unlockAssert | unlockFifo | unlockLoad | unlockRev x | unlockPop =>
      simp [step, Mutex.step, hp]
    | _ =>
      rw [hp] at hc
      exact hc.elim
  · have hidle : ∀ c, s.mutex.pc c = .idle := by
      intro c
      refine (hall c).resolve_right fun hc => ?_
      obtain ⟨d, hd⟩ := hserved c hc
      rcases hall d with he | he <;> rw [he] at hd <;> exact hd
    have htail : l.tail = [] := by
      rw [List.eq_nil_iff_forall_not_mem]
      intro c hc
      have := (hpark c).2 hc
      rw [hidle c] at this
      cases this
    refine ⟨hidle, ?_⟩
    rw [h.suspended, htail, List.append_nil]

theorem step_cases {s t : State C} {a : Act C} (hs : step s a = some t) :
    (∀ c, a ≠ .tryLock c) ∧ Mutex.step s.mutex a = some t.mutex ∧ t = record s a.actor t.mutex := by
  have key : ∀ b : Act C, (Mutex.step s.mutex b).map (record s b.actor) = some t →
      Mutex.step s.mutex b = some t.mutex ∧ t = record s b.actor t.mutex := by
    intro b hb
    obtain ⟨u, hu, rfl⟩ := Option.map_eq_some_iff.1 hb
    rw [record_mutex]
    exact ⟨hu, rfl⟩
  cases a with
  | tryLock c => cases hs
  | lock c => exact ⟨fun _ h => (by cases h), key _ hs⟩
  | unlock c => exact ⟨fun _ h => (by cases h), key _ hs⟩
  | step c b => exact ⟨fun _ h => (by cases h), key _ hs⟩

/-- Nobody gets into `try_lock`. -/
theorem places_step {s t : Mutex.State C} {a : Act C} {l : List C} (h : Stands s l)
    (hp : ∀ c, (s.pc c).Locking ∨ (s.pc c).Unlocking) (ha : ∀ c, a ≠ .tryLock c)
    (hs : Mutex.step s a = some t) (x : C) : (t.pc x).Locking ∨ (t.pc x).Unlocking := by
  cases a with
  | tryLock c => exact absurd rfl (ha c)
  | lock c =>
    simp only [Mutex.step] at hs
    split at hs
    · cases hs
      rw [setPc_pc]
      split
      · exact Or.inl trivial
      · exact hp x
    · cases hs
  | unlock c =>
    simp only [Mutex.step] at hs
    split at hs
    · cases hs
      rw [setPc_pc]
      split
      · exact Or.inr trivial
      · exact hp x
    · cases hs
  | step c b =>
    obtain ⟨hlock, hunlock, hother⟩ := h.step_pc hs
    by_cases hx : x = c
    · subst hx
      exact (hp x).imp hlock hunlock
    · rcases hother x hx with he | ⟨-, d, hd⟩
      · rw [he]
        exact hp x
      · rw [hd]
        exact Or.inl trivial

omit [DecidableEq C] in
/-- Without `try_lock` every step is a fresh one. -/
theorem fresh {s t : Mutex.State C} {a : Act C} (hp : ∀ c, (s.pc c).Locking ∨ (s.pc c).Unlocking) :
    FreshTry s a t := by
  intro c b w _ hc
  have := hp c
  rw [hc] at this
  simp [Pc.Locking, Pc.Unlocking] at this

/-- **Step lemma.** -/
theorem inv_step (s : State C) (a : Act C) (t : State C) (h : ∃ l, Inv s l)
    (hs : step s a = some t) : ∃ l, Inv t l := by
  obtain ⟨l, h⟩ := h
  obtain ⟨ha, hm, hr⟩ := step_cases hs
  obtain ⟨l', ht, hch⟩ := changes_step _ _ _ _ h.stands hm (fresh h.places)
  rw [hr]
  exact ⟨l', h.change ht (places_step h.stands h.places ha hm) hch⟩

/-- Whoever waits goes on when the lock is handed to it, and not before. -/
theorem handsOver_step {s t : State C} {a : Act C} {l : List C} (h : Inv s l)
    (hs : step s a = some t) : HandsOver s a t := by
  obtain ⟨ha, hm, hr⟩ := step_cases hs
  obtain ⟨l', ht, hch⟩ := changes_step _ _ _ _ h.stands hm (fresh h.places)
  obtain ⟨-, hpark, -⟩ := parked_iff h.stands
  obtain ⟨-, hpark', -⟩ := parked_iff ht
  -- nothing is scheduled, and who waited still waits
  have calm : s.mutex.pc a.actor ≠ .unlockSched → (∀ x ∈ l.tail, x ∈ l'.tail) →
      HandsOver s a t := by
    intro hsched hin
    have hsame : t.scheduled = s.scheduled := by
      rw [hr]
      exact record_scheduled _ hsched
    refine ⟨fun x h1 h2 => absurd ((hpark' x).2 (hin x ((hpark x).1 h1))) h2, fun d x hd => ?_⟩
    rw [hsame] at hd
    exact absurd hd (by simp)
  generalize hc : a.actor = c at hr hch calm
  cases hch with
  | quiet _ _ hsched => exact calm hsched fun x hx => hx
  | acquire hcas =>
    refine calm (fun he => ?_) fun x hx => (by cases hx)
    obtain ⟨w, hw | hw⟩ := hcas <;> rw [hw] at he <;> cases he
  | enqueue _ hcas _ hl =>
    refine calm (fun he => ?_) fun x hx => ?_
    · obtain ⟨w, hw⟩ := hcas
      rw [hw] at he
      cases he
    · rw [List.tail_append_of_ne_nil hl]
      exact List.mem_append_left _ hx
  | release hcas =>
    refine calm (fun he => ?_) fun x hx => (by cases hx)
    rw [hcas] at he
    cases he
  | handOver b l hsched hb =>
    have hlog : t.scheduled = s.scheduled ++ [(c, b)] := by
      rw [hr, record_handOver _ hsched hb]
    have hwait : s.mutex.pc b = .parked := (hpark b).2 List.mem_cons_self
    have hcown : (s.mutex.pc c).Owns := (h.stands.owns c).2 rfl
    have hbown : (t.mutex.pc b).Owns := (ht.owns b).2 rfl
    have hne : b ≠ c := by
      rintro rfl
      rw [hwait] at hsched
      cases hsched
    have hmoved : t.mutex.pc b = .scheduled c := by
      cases a with
      | step d spurious =>
        obtain rfl : d = c := hc
        simp only [Mutex.step, hsched, hb, Option.some.injEq] at hm
        rw [← hm]
        simp [hne]
      | lock d | unlock d =>
        obtain rfl : d = c := hc
        simp [Mutex.step, hsched] at hm
      | tryLock d => exact absurd rfl (ha d)
    refine ⟨fun x h1 h2 => ?_, fun d x hd => ?_⟩
    · have hx := (hpark x).1 h1
      have hx' := fun he => h2 ((hpark' x).2 he)
      rcases List.mem_cons.1 hx with rfl | hx
      · rw [hc]
        exact hlog
      · exact absurd hx hx'
    · rw [hlog, List.append_cancel_left_eq, List.singleton_inj, Prod.mk.injEq] at hd
      obtain ⟨rfl, rfl⟩ := hd
      refine ⟨hc.symm, hwait, hcown, fun hc' => hne ?_, hbown, hmoved⟩
      have := (ht.owns c).1 hc'
      exact Option.some.inj this

/-! ## Top theorems -/

/-- **First come, first served.**  For any number of coroutines and any
interleaving of `lock` and `unlock`: those who suspended have been scheduled,
once each and in the order of their CASes, or still wait on a list; they are
scheduled by the `unlock` that hands them the lock. -/
theorem lock_fair (as : List (Act C)) (s : State C) (h : run step init as = some s) :
    Fair s ∧ EachStep step HandsOver init as := by
  have hstep : ∀ (s : State C) (a : Act C) (t : State C), (∃ l, Inv s l) → step s a = some t →
      True → ∃ l, Inv t l := fun s a t hi hs _ => inv_step s a t hi hs
  have hall : EachStep step (fun _ _ _ => True) (init : State C) as := eachStep_true _ as
  obtain ⟨l, hl⟩ := run_inv (fun s : State C => ∃ l, Inv s l) hstep ⟨[], inv_init⟩ h hall
  refine ⟨hl.fair, eachStep_of_inv (fun s : State C => ∃ l, Inv s l) hstep ?_ ⟨[], inv_init⟩ hall⟩
  intro s a t ⟨l, hi⟩ hs _
  exact handsOver_step hi hs

end

/-- `true` comes while `false` has the lock, and gets it from `false`'s `unlock`. -/
def handRun : List (Act Bool) :=
  [.lock false, .step false false, .step false false, .lock true, .step true false, .step true true,
   .step true false, .unlock false, .step false false, .step false false, .step false false,
   .step false false, .step false false, .step false false]

theorem handRun_fair : ∃ s, run step init handRun = some s ∧ s.suspended = [true] ∧
    s.scheduled = [(false, true)] ∧ Fair s ∧ EachStep step HandsOver init handRun :=
  ⟨_, rfl, rfl, rfl, lock_fair handRun _ rfl⟩

end Kosio.MutexFifo
