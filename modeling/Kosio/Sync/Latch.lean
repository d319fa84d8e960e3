import Kosio.Lib.Chain
import Kosio.Lib.Run

/-!
# `Latch`: who resumes a waiter

Threads `w : W` each make one call (`wait`, `count_down` or
`arrive_and_wait`); a waiter's `Awaiter` is named by its thread.  One step is
one access to `expected_` or `head_`, or one turn of the loop of `notify_all`.
`resumed w` counts how often `w` has been made to go on: by itself, because
`await_ready` or `await_suspend` said so, or by being handed to the scheduler.

A waiter links itself into `head_` and then tests the count once more.  If the
count has reached zero by then, `await_suspend` answers `false` and the waiter
goes on, also when the walk of `notify_all` has found it or will find it on the
list (`waiter_resumed_twice`).  Without such a test, and without a
`count_down` after the count is down, every waiter goes on exactly once
(`resumed_exactly_once`).
-/

namespace Kosio.Latch

open Steps

/-! ## Algorithm -/

inductive Op where
  | wait
  | countDown (update : BitVec 64)
  | arriveAndWait (update : BitVec 64)

/-- Where a thread is; `thenWait` marks a `count_down` made by `arrive_and_wait`. -/
inductive Pc (W : Type) where
  | idle
  /-- about to `fetch_sub` -/
  | sub (update : BitVec 64) (thenWait : Bool)
  /-- in `notify_all`, about to load `head_` -/
  | notify (thenWait : Bool)
  /-- in the loop of `notify_all` -/
  | walk (head : Option W) (thenWait : Bool)
  /-- `count_down` has returned -/
  | finished
  /-- about to test in `await_ready` -/
  | ready
  /-- in `await_suspend`, about to load `head_` -/
  | load
  /-- about to CAS itself in front of `next_` -/
  | cas
  /-- linked, about to test in `await_suspend` -/
  | test
  /-- `await_suspend` has answered `true` -/
  | parked
  /-- went on by itself -/
  | inline
deriving DecidableEq

structure State (W : Type) where
  expected : BitVec 64
  head : Option W
  next : W → Option W
  pc : W → Pc W
  resumed : W → Nat

variable {W : Type}

def init (expected : BitVec 64) : State W :=
  ⟨expected, none, fun _ => none, fun _ => .idle, fun _ => 0⟩

inductive Act (W : Type) where
  | call (w : W) (op : Op)
  /-- one step of `w`; a weak CAS fails when `spurious` says so -/
  | step (w : W) (spurious : Bool)

/-- What follows a `count_down`. -/
def afterCountDown (thenWait : Bool) : Pc W := if thenWait then .ready else .finished

section

variable [DecidableEq W]

def setPc (s : State W) (w : W) (p : Pc W) : State W :=
  { s with pc := Function.update s.pc w p }

/-- `w` is made to go on. -/
def resume (s : State W) (w : W) : State W :=
  { s with resumed := Function.update s.resumed w (s.resumed w + 1) }

def step (s : State W) : Act W → Option (State W)
  | .call w op =>
    if s.pc w = .idle then
      some (setPc s w (match op with
        | .wait => .ready
        | .countDown u => .sub u false
        | .arriveAndWait u => .sub u true))
    else none
  | .step w spurious =>
    match s.pc w with
    | .sub u b => some (setPc { s with expected := s.expected - u } w
        (if s.expected = u then .notify b else afterCountDown b))
    | .notify b => some (setPc s w (.walk s.head b))
    | .walk none b => some (setPc s w (afterCountDown b))
    | .walk (some h) b => some (setPc (resume s h) w (.walk (s.next h) b))
    | .ready =>
      if s.expected = 0 then some (setPc (resume s w) w .inline) else some (setPc s w .load)
    | .load => some (setPc { s with next := Function.update s.next w s.head } w .cas)
    | .cas =>
      if spurious = false ∧ s.head = s.next w then
        some (setPc { s with head := some w } w .test)
      else some { s with next := Function.update s.next w s.head }
    | .test =>
      if s.expected = 0 then some (setPc (resume s w) w .inline) else some (setPc s w .parked)
    | _ => none

end

/-! ## What is promised of a state, and of which steps -/

/-- In `notify_all`. -/
def Pc.Walking : Pc W → Prop
  | .notify _ => True
  | .walk _ _ => True
  | _ => False

/-- Between `await_ready` and the end of `await_suspend`, or suspended. -/
def Pc.Waiting : Pc W → Prop
  | .load => True
  | .cas => True
  | .test => True
  | .parked => True
  | _ => False

/-- The walk of `t` has not yet passed `w`. -/
def Ahead (s : State W) (t w : W) : Prop :=
  match s.pc t with
  | .notify _ => ∃ l, Chain s.next s.head l ∧ w ∈ l
  | .walk h _ => ∃ l, Chain s.next h l ∧ w ∈ l
  | _ => False

/-- Nobody goes on twice or before the count is zero; who went on by itself went
on once; and when the count is zero and no walk is under way, nobody is left
suspended. -/
structure ExactlyOnce (s : State W) : Prop where
  once : ∀ w, s.resumed w ≤ 1
  not_early : ∀ w, s.resumed w ≠ 0 → s.expected = 0
  inline_once : ∀ w, s.pc w = .inline → s.resumed w = 1
  parked_once : s.expected = 0 → (∀ t, ¬ (s.pc t).Walking) →
    ∀ w, s.pc w = .parked → s.resumed w = 1

/-- The last test of a waiter finds zero although `notify_all` has handed it to
the scheduler or still has it ahead. -/
def LateTest (s : State W) (w : W) : Prop :=
  s.pc w = .test ∧ s.expected = 0 ∧ (s.resumed w ≠ 0 ∨ ∃ t, Ahead s t w)

/-- A `count_down` after the count is down, unless it takes nothing off and no
waiter has got past `await_ready`. -/
def LateCountDown (s : State W) (w : W) : Prop :=
  s.expected = 0 ∧ ∃ u b, s.pc w = .sub u b ∧
    ¬ (u = 0 ∧ s.head = none ∧ ∀ x, ¬ (s.pc x).Waiting)

def InTime (s : State W) (a : Act W) (_ : State W) : Prop :=
  ∀ w b, a = .step w b → ¬ LateTest s w ∧ ¬ LateCountDown s w

/-! ## Invariant -/

/-- The count is down and no waiter will ever link itself again. -/
def Over (s : State W) : Prop :=
  s.expected = 0 ∧ s.head = none ∧ ∀ x, ¬ (s.pc x).Waiting

structure Inv (s : State W) (l : List W) : Prop where
  chain : Chain s.next s.head l
  nodup : l.Nodup
  /-- the linked waiters are those that got past the CAS -/
  linked : ∀ w ∈ l, s.pc w = .test ∨ s.pc w = .parked ∨ s.pc w = .inline
  mem : ∀ w, s.pc w = .test ∨ s.pc w = .parked → w ∈ l
  /-- before the count is down nobody walks and nobody has gone on -/
  early : s.expected ≠ 0 → ∀ w, ¬ (s.pc w).Walking ∧ s.resumed w = 0
  walk : ∀ t h b, s.pc t = .walk h b → ∃ r, Chain s.next h r ∧ r.Nodup ∧ ∀ w ∈ r, w ∈ l
  walker : ∀ t t', (s.pc t).Walking → (s.pc t').Walking → t = t' ∨ Over s
  /-- who is ahead of a walk has not gone on -/
  ahead : ∀ t w, Ahead s t w → s.resumed w = 0 ∧ s.pc w ≠ .inline
  parked : s.expected = 0 → ∀ w, s.pc w = .parked → s.resumed w = 1 ∨ ∃ t, Ahead s t w
  once : ∀ w, s.resumed w ≤ 1
  fresh : ∀ w, w ∉ l → s.pc w ≠ .inline → s.resumed w = 0
  inline : ∀ w, s.pc w = .inline → s.resumed w = 1

theorem Inv.exactlyOnce {s : State W} {l : List W} (h : Inv s l) : ExactlyOnce s where
  once := h.once
  not_early := by
    intro w hw
    by_contra he
    exact hw (h.early he w).2
  inline_once := h.inline
  parked_once := by
    intro he hno w hw
    rcases h.parked he w hw with h1 | ⟨t, ht⟩
    · exact h1
    · exfalso
      have := hno t
      unfold Ahead at ht
      cases hp : s.pc t <;> simp_all [Pc.Walking]

theorem inv_init (expected : BitVec 64) : Inv (init expected : State W) [] := by
  constructor <;> simp [init, Chain, Pc.Walking, Ahead]

/-! ## Lemmas -/

theorem Ahead.walking {s : State W} {t w : W} (h : Ahead s t w) : (s.pc t).Walking := by
  unfold Ahead at h
  split at h
  · next heq => rw [heq]; trivial
  · next heq => rw [heq]; trivial
  · exact h.elim

theorem Inv.notMem {s : State W} {l : List W} (h : Inv s l) {w : W} (h1 : s.pc w ≠ .test)
    (h2 : s.pc w ≠ .parked) (h3 : s.pc w ≠ .inline) : w ∉ l := by
  intro hw
  rcases h.linked w hw with h' | h' | h'
  · exact h1 h'
  · exact h2 h'
  · exact h3 h'

theorem Inv.ahead_mem {s : State W} {l : List W} (h : Inv s l) {t w : W} (ha : Ahead s t w) :
    w ∈ l := by
  unfold Ahead at ha
  split at ha
  · obtain ⟨l', hl', hw⟩ := ha
    rwa [h.chain.unique hl']
  · next x b heq =>
    obtain ⟨r, hr, hw⟩ := ha
    obtain ⟨r', hr', -, hsub⟩ := h.walk t x b heq
    rw [hr.unique hr'] at hw
    exact hsub w hw
  · exact ha.elim

/-- With a node on the list the count is not over. -/
theorem Inv.not_over {s : State W} {l : List W} (h : Inv s l) {w : W} (hw : w ∈ l) : ¬ Over s := by
  rintro ⟨-, hhead, -⟩
  have hc := h.chain
  rw [hhead, Chain.none_iff] at hc
  rw [hc] at hw
  cases hw

/-- Before the count is down every step is in time; afterwards those of `notify_all` are. -/
theorem inTime_of {s t : State W} {w : W} {b : Bool}
    (h : s.expected ≠ 0 ∨ (s.pc w).Walking) : InTime s (.step w b) t := by
  rintro x b' ⟨⟩
  rcases h with h | h
  · exact ⟨fun hl => h hl.2.1, fun hl => h hl.1⟩
  · constructor
    · rintro ⟨hpc, -⟩
      rw [hpc] at h
      exact h
    · rintro ⟨-, u, b, hpc, -⟩
      rw [hpc] at h
      exact h

section

variable [DecidableEq W]

@[simp] theorem setPc_pc_self (s : State W) (w : W) (p : Pc W) : (setPc s w p).pc w = p :=
  Function.update_self ..

theorem setPc_pc_ne (s : State W) {w x : W} (p : Pc W) (hx : x ≠ w) :
    (setPc s w p).pc x = s.pc x :=
  Function.update_of_ne hx ..

theorem walking_of_setPc {s : State W} {w t : W} {p : Pc W} (hp : ¬ p.Walking)
    (ht : ((setPc s w p).pc t).Walking) : t ≠ w ∧ (s.pc t).Walking := by
  by_cases he : t = w
  · subst he
    rw [setPc_pc_self] at ht
    exact absurd ht hp
  · rw [setPc_pc_ne s p he] at ht
    exact ⟨he, ht⟩

theorem setPc_ahead (s : State W) {w t : W} (p : Pc W) (x : W) (ht : t ≠ w) :
    Ahead (setPc s w p) t x ↔ Ahead s t x := by
  unfold Ahead
  rw [setPc_pc_ne s p ht]
  rfl

theorem not_ahead_setPc (s : State W) {w x : W} {p : Pc W} (hp : ¬ p.Walking) :
    ¬ Ahead (setPc s w p) w x := by
  intro h
  have := h.walking
  rw [setPc_pc_self] at this
  exact hp this

/-- A move of a thread that is not linked and leaves every walk where it is. -/
theorem Inv.setPc {s : State W} {l : List W} (h : Inv s l) {w : W} {p : Pc W} (hw : w ∉ l)
    (hi : s.pc w ≠ .inline) (h1 : p ≠ .test) (h2 : p ≠ .parked) (h3 : p ≠ .inline)
    (h4 : s.expected = 0 → p.Waiting → (s.pc w).Waiting) (hpw : p.Walking → (s.pc w).Walking)
    (hr : ∀ x b, p = .walk x b → ∃ r, Chain s.next x r ∧ r.Nodup ∧ ∀ y ∈ r, y ∈ l)
    (hsame : ∀ x, Ahead (Latch.setPc s w p) w x ↔ Ahead s w x) : Inv (Latch.setPc s w p) l := by
  have hne : ∀ x ∈ l, x ≠ w := fun x hx he => hw (he ▸ hx)
  have hwalk : ∀ t, ((Latch.setPc s w p).pc t).Walking → (s.pc t).Walking := by
    intro t ht
    by_cases he : t = w
    · subst he
      rw [setPc_pc_self] at ht
      exact hpw ht
    · rwa [setPc_pc_ne s p he] at ht
  have hahead : ∀ t x, Ahead (Latch.setPc s w p) t x ↔ Ahead s t x := by
    intro t x
    by_cases he : t = w
    · exact he ▸ hsame x
    · exact setPc_ahead s p x he
  refine ⟨h.chain, h.nodup, ?_, ?_, ?_, ?_, ?_, ?_, ?_, h.once, ?_, ?_⟩
  · intro x hx
    rw [setPc_pc_ne s p (hne x hx)]
    exact h.linked x hx
  · intro x hx
    by_cases he : x = w
    · subst he
      rw [setPc_pc_self] at hx
      exact absurd hx (by simp [h1, h2])
    · rw [setPc_pc_ne s p he] at hx
      exact h.mem x hx
  · intro he t
    exact ⟨fun ht => (h.early he t).1 (hwalk t ht), (h.early he t).2⟩
  · intro t x b ht
    by_cases he : t = w
    · subst he
      rw [setPc_pc_self] at ht
      exact hr x b ht
    · rw [setPc_pc_ne s p he] at ht
      exact h.walk t x b ht
  · intro t t' ht ht'
    rcases h.walker t t' (hwalk t ht) (hwalk t' ht') with he | ⟨he, hh, hx⟩
    · exact Or.inl he
    · refine Or.inr ⟨he, hh, fun x => ?_⟩
      by_cases hxw : x = w
      · subst hxw
        rw [setPc_pc_self]
        exact fun hp => hx x (h4 he hp)
      · rw [setPc_pc_ne s p hxw]
        exact hx x
  · intro t x ha
    rw [hahead] at ha
    rw [setPc_pc_ne s p (hne x (h.ahead_mem ha))]
    exact h.ahead t x ha
  · intro he x hx
    simp only [hahead]
    by_cases hxw : x = w
    · subst hxw
      rw [setPc_pc_self] at hx
      exact absurd hx h2
    · rw [setPc_pc_ne s p hxw] at hx
      exact h.parked he x hx
  · intro x hx hxi
    by_cases hxw : x = w
    · subst hxw
      exact h.fresh x hx hi
    · rw [setPc_pc_ne s p hxw] at hxi
      exact h.fresh x hx hxi
  · intro x hx
    by_cases hxw : x = w
    · subst hxw
      rw [setPc_pc_self] at hx
      exact absurd hx h3
    · rw [setPc_pc_ne s p hxw] at hx
      exact h.inline x hx

/-- A move between places outside the list and outside `notify_all`. -/
theorem Inv.setPc_quiet {s : State W} {l : List W} (h : Inv s l) {w : W} {p : Pc W}
    (hold : ∀ x, ¬ Ahead s w x) (hw : w ∉ l) (hi : s.pc w ≠ .inline) (hp : ¬ p.Walking)
    (h1 : p ≠ .test) (h2 : p ≠ .parked) (h3 : p ≠ .inline)
    (h4 : s.expected = 0 → p.Waiting → (s.pc w).Waiting) : Inv (Latch.setPc s w p) l :=
  h.setPc hw hi h1 h2 h3 h4 (fun hpw => absurd hpw hp) (fun _ _ he => absurd (he ▸ trivial) hp)
    fun x => ⟨fun ha => absurd ha (not_ahead_setPc s hp), fun ha => absurd ha (hold x)⟩

/-- A thread that is not linked may write its `next_`. -/
theorem Inv.setNext {s : State W} {l : List W} (h : Inv s l) {w : W} (hw : w ∉ l) (v : Option W) :
    Inv { s with next := Function.update s.next w v } l := by
  have hahead : ∀ t x, Ahead { s with next := Function.update s.next w v } t x ↔ Ahead s t x := by
    intro t x
    unfold Ahead
    dsimp only
    cases hp : s.pc t with
    | notify b =>
      simp only
      constructor
      · rintro ⟨l', hl', hx⟩
        rw [← (h.chain.update hw).unique hl'] at hx
        exact ⟨l, h.chain, hx⟩
      · rintro ⟨l', hl', hx⟩
        rw [← h.chain.unique hl'] at hx
        exact ⟨l, h.chain.update hw, hx⟩
    | walk y b =>
      simp only
      obtain ⟨r, hr, -, hsub⟩ := h.walk t y b hp
      have hwr : w ∉ r := fun hm => hw (hsub w hm)
      constructor
      · rintro ⟨l', hl', hx⟩
        rw [← (hr.update hwr).unique hl'] at hx
        exact ⟨r, hr, hx⟩
      · rintro ⟨l', hl', hx⟩
        rw [← hr.unique hl'] at hx
        exact ⟨r, hr.update hwr, hx⟩
    | _ => exact Iff.rfl
  refine ⟨h.chain.update hw, h.nodup, h.linked, h.mem, h.early, ?_, h.walker, ?_, ?_, h.once,
    h.fresh, h.inline⟩
  · intro t x b ht
    obtain ⟨r, hr, hnd, hsub⟩ := h.walk t x b ht
    exact ⟨r, hr.update fun hm => hw (hsub w hm), hnd, hsub⟩
  · intro t x ha
    exact h.ahead t x ((hahead t x).1 ha)
  · intro he x hx
    simp only [hahead]
    exact h.parked he x hx

/-- `notify_all` loads `head_`. -/
theorem Inv.notify {s : State W} {l : List W} (h : Inv s l) {w : W} {b : Bool}
    (hpc : s.pc w = .notify b) : Inv (Latch.setPc s w (.walk s.head b)) l := by
  have hw : w ∉ l := h.notMem (by simp [hpc]) (by simp [hpc]) (by simp [hpc])
  refine h.setPc hw (by simp [hpc]) (by simp) (by simp) (by simp) (fun _ => False.elim) ?_ ?_ ?_
  · intro _
    rw [hpc]
    trivial
  · intro x b' he
    cases he
    exact ⟨l, h.chain, h.nodup, fun y hy => hy⟩
  · intro x
    unfold Ahead
    rw [setPc_pc_self, hpc]
    exact Iff.rfl

/-- The count goes down to zero: a walk starts with every linked waiter ahead of it. -/
theorem Inv.startWalk {s : State W} {l : List W} (h : Inv s l) {w : W} (b : Bool) (hw : w ∉ l)
    (hi : s.pc w ≠ .inline) (hl : ∀ x ∈ l, s.resumed x = 0)
    (hover : ∀ t, (s.pc t).Walking → Over s) :
    Inv (Latch.setPc { s with expected := 0 } w (.notify b)) l := by
  have hne : ∀ x ∈ l, x ≠ w := fun x hx he => hw (he ▸ hx)
  have hpc : ∀ x, x ≠ w → (Latch.setPc { s with expected := 0 } w (.notify b)).pc x = s.pc x :=
    fun x hx => setPc_pc_ne { s with expected := 0 } _ hx
  have hover' : ∀ t, t ≠ w → (s.pc t).Walking → Over (Latch.setPc { s with expected := 0 } w (.notify b)) := by
    intro t _ ht
    obtain ⟨-, hh, hx⟩ := hover t ht
    refine ⟨rfl, hh, fun x => ?_⟩
    by_cases hxw : x = w
    · subst hxw
      rw [setPc_pc_self]
      exact id
    · rw [hpc x hxw]
      exact hx x
  have hself : ∀ x, Ahead (Latch.setPc { s with expected := 0 } w (.notify b)) w x ↔ x ∈ l := by
    intro x
    unfold Ahead
    rw [setPc_pc_self]
    exact ⟨fun ⟨l', hl', hx⟩ => by rwa [h.chain.unique hl'], fun hx => ⟨l, h.chain, hx⟩⟩
  refine ⟨h.chain, h.nodup, ?_, ?_, fun he => absurd rfl he, ?_, ?_, ?_, ?_, h.once, ?_, ?_⟩
  · intro x hx
    rw [hpc x (hne x hx)]
    exact h.linked x hx
  · intro x hx
    by_cases he : x = w
    · subst he
      simp at hx
    · rw [hpc x he] at hx
      exact h.mem x hx
  · intro t x b' ht
    by_cases he : t = w
    · subst he
      simp at ht
    · rw [hpc t he] at ht
      exact h.walk t x b' ht
  · intro t t' ht ht'
    by_cases he : t = w
    · by_cases he' : t' = w
      · exact Or.inl (he.trans he'.symm)
      · rw [hpc t' he'] at ht'
        exact Or.inr (hover' t' he' ht')
    · rw [hpc t he] at ht
      exact Or.inr (hover' t he ht)
  · intro t x ha
    have hx : x ∈ l := by
      by_cases he : t = w
      · subst he
        exact (hself x).1 ha
      · rw [setPc_ahead _ _ x he] at ha
        exact h.ahead_mem (s := s) (t := t) ha
    refine ⟨hl x hx, ?_⟩
    rw [hpc x (hne x hx)]
    intro hin
    have := h.inline x hin
    have := hl x hx
    omega
  · intro _ x hx
    have hxw : x ≠ w := by
      rintro rfl
      simp at hx
    rw [hpc x hxw] at hx
    exact Or.inr ⟨w, (hself x).2 (h.mem x (Or.inr hx))⟩
  · intro x hx hxi
    by_cases hxw : x = w
    · subst hxw
      exact h.fresh x hx hi
    · rw [hpc x hxw] at hxi
      exact h.fresh x hx hxi
  · intro x hx
    by_cases hxw : x = w
    · subst hxw
      simp at hx
    · rw [hpc x hxw] at hx
      exact h.inline x hx

/-- `fetch_sub` of a `count_down` that comes in time. -/
theorem Inv.countDown {s : State W} {l : List W} (h : Inv s l) {w : W} {u : BitVec 64} {b : Bool}
    (hpc : s.pc w = .sub u b) (hok : ¬ LateCountDown s w) :
    Inv (Latch.setPc { s with expected := s.expected - u } w
      (if s.expected = u then .notify b else afterCountDown b)) l := by
  have hw : w ∉ l := h.notMem (by simp [hpc]) (by simp [hpc]) (by simp [hpc])
  have hi : s.pc w ≠ .inline := by simp [hpc]
  by_cases he : s.expected = 0
  · -- only a `count_down(0)` with nobody waiting comes in time now
    have hz : u = 0 ∧ s.head = none ∧ ∀ x, ¬ (s.pc x).Waiting := by
      by_contra hno
      exact hok ⟨he, u, b, hpc, hno⟩
    obtain ⟨rfl, hhead, hwait⟩ := hz
    have hl : l = [] := by
      have := h.chain
      rwa [hhead, Chain.none_iff] at this
    subst hl
    rw [if_pos he, he]
    exact h.startWalk b hw hi (by simp) fun _ _ => ⟨he, hhead, hwait⟩
  · have hearly := h.early he
    by_cases heu : s.expected = u
    · rw [if_pos heu, heu, BitVec.sub_self]
      exact h.startWalk b hw hi (fun x _ => (hearly x).2) fun t ht => absurd ht (hearly t).1
    · rw [if_neg heu]
      have he' : s.expected - u ≠ 0 := by bv_omega
      have h' : Inv { s with expected := s.expected - u } l :=
        { h with
          early := fun _ => hearly
          walker := fun t _ ht _ => absurd ht (hearly t).1
          parked := fun hz => absurd hz he' }
      have hpc' : ({ s with expected := s.expected - u } : State W).pc w = .sub u b := hpc
      refine h'.setPc_quiet ?_ hw hi ?_ ?_ ?_ ?_ fun hz => absurd hz he'
      · intro x ha
        unfold Ahead at ha
        rw [hpc'] at ha
        exact ha
      all_goals cases b <;> simp [afterCountDown, Pc.Walking]

/-- One turn of the walk: the next waiter is handed to the scheduler. -/
theorem Inv.walkNext {s : State W} {l : List W} (h : Inv s l) {w x : W} {b : Bool}
    (hpc : s.pc w = .walk (some x) b) :
    Inv (Latch.setPc (resume s x) w (.walk (s.next x) b)) l := by
  obtain ⟨r, hr, hnd, hsub⟩ := h.walk w (some x) b hpc
  obtain ⟨r', rfl, hr'⟩ := Chain.some_iff.1 hr
  obtain ⟨hxr, hnd'⟩ := List.nodup_cons.1 hnd
  have hxl : x ∈ l := hsub x List.mem_cons_self
  have hold : ∀ y, Ahead s w y ↔ y ∈ x :: r' := by
    intro y
    unfold Ahead
    rw [hpc]
    exact ⟨fun ⟨l', hl', hy⟩ => by rwa [hr.unique hl'], fun hy => ⟨_, hr, hy⟩⟩
  obtain ⟨hx0, hxi⟩ := h.ahead w x ((hold x).2 List.mem_cons_self)
  have hw : w ∉ l := h.notMem (by simp [hpc]) (by simp [hpc]) (by simp [hpc])
  have hne : ∀ y ∈ l, y ≠ w := fun y hy he => hw (he ▸ hy)
  have hwalking : (s.pc w).Walking := by
    rw [hpc]
    trivial
  have hz : s.expected = 0 := by
    by_contra he
    exact (h.early he w).1 hwalking
  -- `x` is on the list, so nobody else walks
  have honly : ∀ t, (s.pc t).Walking → t = w := fun t ht =>
    (h.walker t w ht hwalking).resolve_right (h.not_over hxl)
  have hpcne : ∀ y, y ≠ w → (Latch.setPc (resume s x) w (.walk (s.next x) b)).pc y = s.pc y :=
    fun y hy => setPc_pc_ne (resume s x) _ hy
  have hself : ∀ y, Ahead (Latch.setPc (resume s x) w (.walk (s.next x) b)) w y ↔ y ∈ r' := by
    intro y
    unfold Ahead
    rw [setPc_pc_self]
    exact ⟨fun ⟨l', hl', hy⟩ => by rwa [hr'.unique hl'], fun hy => ⟨r', hr', hy⟩⟩
  have hres : ∀ y, y ≠ x → (resume s x).resumed y = s.resumed y := fun y hy =>
    Function.update_of_ne hy ..
  have hresx : (resume s x).resumed x = 1 := by
    simp [resume, hx0]
  refine ⟨h.chain, h.nodup, ?_, ?_, fun he => absurd hz he, ?_, ?_, ?_, ?_, ?_, ?_, ?_⟩
  · intro y hy
    rw [hpcne y (hne y hy)]
    exact h.linked y hy
  · intro y hy
    by_cases he : y = w
    · subst he
      simp at hy
    · rw [hpcne y he] at hy
      exact h.mem y hy
  · intro t y b' ht
    by_cases he : t = w
    · subst he
      rw [setPc_pc_self] at ht
      cases ht
      exact ⟨r', hr', hnd', fun z hz => hsub z (List.mem_cons_of_mem _ hz)⟩
    · rw [hpcne t he] at ht
      exact h.walk t y b' ht
  · intro t t' ht ht'
    have hall : ∀ t, ((Latch.setPc (resume s x) w (.walk (s.next x) b)).pc t).Walking → t = w := by
      intro t ht
      by_cases he : t = w
      · exact he
      · rw [hpcne t he] at ht
        exact honly t ht
    exact Or.inl ((hall t ht).trans (hall t' ht').symm)
  · intro t y ha
    have ht : t = w := by
      by_contra he
      rw [setPc_ahead _ _ y he] at ha
      exact he (honly t (Ahead.walking (s := s) ha))
    subst ht
    have hy := (hself y).1 ha
    have hyx : y ≠ x := fun he => hxr (he ▸ hy)
    obtain ⟨h0, hin⟩ := h.ahead t y ((hold y).2 (List.mem_cons_of_mem _ hy))
    have hyl := hsub y (List.mem_cons_of_mem _ hy)
    exact ⟨by rw [← h0]; exact hres y hyx, by rw [hpcne y (hne y hyl)]; exact hin⟩
  · intro _ y hy
    have hyw : y ≠ w := by
      rintro rfl
      simp at hy
    rw [hpcne y hyw] at hy
    by_cases hyx : y = x
    · subst hyx
      exact Or.inl hresx
    · rcases h.parked hz y hy with h1 | ⟨t, ht⟩
      · exact Or.inl ((hres y hyx).trans h1)
      · have htw := honly t ht.walking
        subst htw
        have := (hold y).1 ht
        exact Or.inr ⟨t, (hself y).2 ((List.mem_cons.1 this).resolve_left hyx)⟩
  · intro y
    by_cases hyx : y = x
    · subst hyx
      exact Nat.le_of_eq hresx
    · exact Nat.le_trans (Nat.le_of_eq (hres y hyx)) (h.once y)
  · intro y hy hyi
    have hyx : y ≠ x := fun he => hy (he ▸ hxl)
    refine (hres y hyx).trans (h.fresh y hy fun hin => ?_)
    by_cases hyw : y = w
    · subst hyw
      simp [hpc] at hin
    · rw [hpcne y hyw] at hyi
      exact hyi hin
  · intro y hy
    have hyw : y ≠ w := by
      rintro rfl
      simp at hy
    rw [hpcne y hyw] at hy
    have hyx : y ≠ x := fun he => hxi (he ▸ hy)
    exact (hres y hyx).trans (h.inline y hy)

/-- A waiter that no walk has met or will meet goes on by itself. -/
theorem Inv.goInline {s : State W} {l : List W} (h : Inv s l) {w : W} (hz : s.expected = 0)
    (hw : ¬ (s.pc w).Walking) (h0 : s.resumed w = 0) (hno : ∀ t, ¬ Ahead s t w) :
    Inv (Latch.setPc (resume s w) w .inline) l := by
  have hpcne : ∀ y, y ≠ w → (Latch.setPc (resume s w) w .inline).pc y = s.pc y :=
    fun y hy => setPc_pc_ne (resume s w) _ hy
  have hres : ∀ y, y ≠ w → (resume s w).resumed y = s.resumed y := fun y hy =>
    Function.update_of_ne hy ..
  have hresw : (resume s w).resumed w = 1 := by
    simp [resume, h0]
  have hwalk : ∀ t, ((Latch.setPc (resume s w) w .inline).pc t).Walking →
      t ≠ w ∧ (s.pc t).Walking :=
    fun t ht => walking_of_setPc (by simp [Pc.Walking]) ht
  have hahead : ∀ t x, Ahead (Latch.setPc (resume s w) w .inline) t x ↔ Ahead s t x := by
    intro t x
    by_cases he : t = w
    · subst he
      exact ⟨fun ha => absurd ha.walking (by simp [Pc.Walking]), fun ha => absurd ha.walking hw⟩
    · exact setPc_ahead (resume s w) _ x he
  refine ⟨h.chain, h.nodup, ?_, ?_, fun he => absurd hz he, ?_, ?_, ?_, ?_, ?_, ?_, ?_⟩
  · intro x hx
    by_cases hxw : x = w
    · subst hxw
      exact Or.inr (Or.inr (setPc_pc_self _ _ _))
    · rw [hpcne x hxw]
      exact h.linked x hx
  · intro x hx
    by_cases hxw : x = w
    · subst hxw
      simp at hx
    · rw [hpcne x hxw] at hx
      exact h.mem x hx
  · intro t x b ht
    have := hwalk t (by rw [ht]; trivial)
    rw [hpcne t this.1] at ht
    exact h.walk t x b ht
  · intro t t' ht ht'
    rcases h.walker t t' (hwalk t ht).2 (hwalk t' ht').2 with he | ⟨he, hh, hx⟩
    · exact Or.inl he
    · refine Or.inr ⟨he, hh, fun x => ?_⟩
      by_cases hxw : x = w
      · subst hxw
        rw [setPc_pc_self]
        exact id
      · rw [hpcne x hxw]
        exact hx x
  · intro t x ha
    rw [hahead] at ha
    have hxw : x ≠ w := fun he => hno t (he ▸ ha)
    exact ⟨(hres x hxw).trans (h.ahead t x ha).1, by rw [hpcne x hxw]; exact (h.ahead t x ha).2⟩
  · intro he x hx
    have hxw : x ≠ w := by
      rintro rfl
      simp at hx
    rw [hpcne x hxw] at hx
    simp only [hahead]
    rcases h.parked he x hx with h1 | h1
    · exact Or.inl ((hres x hxw).trans h1)
    · exact Or.inr h1
  · intro x
    by_cases hxw : x = w
    · subst hxw
      exact Nat.le_of_eq hresw
    · exact Nat.le_trans (Nat.le_of_eq (hres x hxw)) (h.once x)
  · intro x hx hxi
    have hxw : x ≠ w := by
      rintro rfl
      simp at hxi
    rw [hpcne x hxw] at hxi
    exact (hres x hxw).trans (h.fresh x hx hxi)
  · intro x hx
    by_cases hxw : x = w
    · subst hxw
      exact hresw
    · rw [hpcne x hxw] at hx
      exact (hres x hxw).trans (h.inline x hx)

/-- `await_suspend` answers `true` while the count is not down. -/
theorem Inv.park {s : State W} {l : List W} (h : Inv s l) {w : W} (hpc : s.pc w = .test)
    (hz : s.expected ≠ 0) : Inv (Latch.setPc s w .parked) l := by
  have hwl : w ∈ l := h.mem w (Or.inl hpc)
  have hearly := h.early hz
  have hwalk : ∀ t, ¬ ((Latch.setPc s w .parked).pc t).Walking := by
    intro t ht
    by_cases he : t = w
    · subst he
      simp [Pc.Walking] at ht
    · rw [setPc_pc_ne s _ he] at ht
      exact (hearly t).1 ht
  refine ⟨h.chain, h.nodup, ?_, ?_, fun _ t => ⟨hwalk t, (hearly t).2⟩, ?_,
    fun t _ ht _ => absurd ht (hwalk t), fun t x ha => absurd ha.walking (hwalk t),
    fun he => absurd he hz, h.once, ?_, ?_⟩
  · intro x hx
    by_cases hxw : x = w
    · subst hxw
      exact Or.inr (Or.inl (setPc_pc_self _ _ _))
    · rw [setPc_pc_ne s _ hxw]
      exact h.linked x hx
  · intro x hx
    by_cases hxw : x = w
    · exact hxw ▸ hwl
    · rw [setPc_pc_ne s _ hxw] at hx
      exact h.mem x hx
  · intro t x b ht
    exact absurd (by rw [ht]; trivial) (hwalk t)
  · intro x _ _
    exact (hearly x).2
  · intro x hx
    have hxw : x ≠ w := by
      rintro rfl
      simp at hx
    rw [setPc_pc_ne s _ hxw] at hx
    exact h.inline x hx

/-- The CAS of `await_suspend` links the waiter in front. -/
theorem Inv.link {s : State W} {l : List W} (h : Inv s l) {w : W} (hpc : s.pc w = .cas)
    (hnext : s.head = s.next w) : Inv (Latch.setPc { s with head := some w } w .test) (w :: l) := by
  have hw : w ∉ l := h.notMem (by simp [hpc]) (by simp [hpc]) (by simp [hpc])
  have hne : ∀ x ∈ l, x ≠ w := fun x hx he => hw (he ▸ hx)
  have hpcne : ∀ x, x ≠ w → (Latch.setPc { s with head := some w } w .test).pc x = s.pc x :=
    fun x hx => setPc_pc_ne { s with head := some w } _ hx
  have hnot : ¬ Over s := fun ho => ho.2.2 w (by rw [hpc]; trivial)
  have hchain : Chain s.next (some w) (w :: l) := ⟨rfl, hnext ▸ h.chain⟩
  have h0 : s.resumed w = 0 := h.fresh w hw (by simp [hpc])
  have hwalk : ∀ t, ((Latch.setPc { s with head := some w } w .test).pc t).Walking →
      t ≠ w ∧ (s.pc t).Walking :=
    fun t ht => walking_of_setPc (by simp [Pc.Walking]) ht
  -- the new node is ahead of the walks that have not loaded `head_` yet, and of no other
  have hahead : ∀ t x, Ahead (Latch.setPc { s with head := some w } w .test) t x →
      x = w ∨ Ahead s t x := by
    intro t x ha
    have htw := (hwalk t ha.walking).1
    rw [setPc_ahead _ _ x htw] at ha
    unfold Ahead at ha ⊢
    dsimp only at ha
    cases hp : s.pc t with
    | notify b =>
      rw [hp] at ha
      obtain ⟨l', hl', hx⟩ := ha
      rw [← hchain.unique hl'] at hx
      exact (List.mem_cons.1 hx).imp_right fun hx => ⟨l, h.chain, hx⟩
    | walk y b =>
      rw [hp] at ha
      exact Or.inr ha
    | _ =>
      rw [hp] at ha
      exact ha.elim
  have hahead' : ∀ t x, Ahead s t x → Ahead (Latch.setPc { s with head := some w } w .test) t x := by
    intro t x ha
    have htw : t ≠ w := by
      rintro rfl
      exact absurd ha.walking (by simp [hpc, Pc.Walking])
    rw [setPc_ahead _ _ x htw]
    unfold Ahead at ha ⊢
    dsimp only
    cases hp : s.pc t with
    | notify b =>
      rw [hp] at ha
      obtain ⟨l', hl', hx⟩ := ha
      rw [← h.chain.unique hl'] at hx
      exact ⟨w :: l, hchain, List.mem_cons_of_mem _ hx⟩
    | walk y b =>
      rw [hp] at ha
      exact ha
    | _ =>
      rw [hp] at ha
      exact ha.elim
  refine ⟨hchain, List.nodup_cons.2 ⟨hw, h.nodup⟩, ?_, ?_, ?_, ?_, ?_, ?_, ?_, h.once, ?_, ?_⟩
  · intro x hx
    rcases List.mem_cons.1 hx with rfl | hx
    · exact Or.inl (setPc_pc_self _ _ _)
    · rw [hpcne x (hne x hx)]
      exact h.linked x hx
  · intro x hx
    by_cases hxw : x = w
    · exact hxw ▸ List.mem_cons_self
    · rw [hpcne x hxw] at hx
      exact List.mem_cons_of_mem _ (h.mem x hx)
  · intro he t
    exact ⟨fun ht => (h.early he t).1 (hwalk t ht).2, (h.early he t).2⟩
  · intro t x b ht
    have := hwalk t (by rw [ht]; trivial)
    rw [hpcne t this.1] at ht
    obtain ⟨r, hr, hnd, hsub⟩ := h.walk t x b ht
    exact ⟨r, hr, hnd, fun y hy => List.mem_cons_of_mem _ (hsub y hy)⟩
  · intro t t' ht ht'
    exact Or.inl ((h.walker t t' (hwalk t ht).2 (hwalk t' ht').2).resolve_right hnot)
  · intro t x ha
    rcases hahead t x ha with rfl | ha
    · exact ⟨h0, by rw [setPc_pc_self]; simp⟩
    · rw [hpcne x (hne x (h.ahead_mem ha))]
      exact h.ahead t x ha
  · intro he x hx
    have hxw : x ≠ w := by
      rintro rfl
      simp at hx
    rw [hpcne x hxw] at hx
    exact (h.parked he x hx).imp_right fun ⟨t, ht⟩ => ⟨t, hahead' t x ht⟩
  · intro x hx hxi
    rw [List.mem_cons, not_or] at hx
    rw [hpcne x hx.1] at hxi
    exact h.fresh x hx.2 hxi
  · intro x hx
    have hxw : x ≠ w := by
      rintro rfl
      simp at hx
    rw [hpcne x hxw] at hx
    exact h.inline x hx

omit [DecidableEq W] in
theorem afterCountDown_quiet (b : Bool) : ¬ (afterCountDown b : Pc W).Walking ∧
    ¬ (afterCountDown b : Pc W).Waiting ∧ (afterCountDown b : Pc W) ≠ .test ∧
    (afterCountDown b : Pc W) ≠ .parked ∧ (afterCountDown b : Pc W) ≠ .inline := by
  cases b <;> simp [afterCountDown, Pc.Walking, Pc.Waiting]

theorem inv_step (s : State W) (a : Act W) (t : State W) (h : ∃ l, Inv s l) (hs : step s a = some t)
    (hok : InTime s a t) : ∃ l, Inv t l := by
  obtain ⟨l, h⟩ := h
  -- a thread that is neither linked nor walking may be moved to another such place
  have quiet : ∀ w p, (∀ x, ¬ Ahead s w x) → s.pc w ≠ .test → s.pc w ≠ .parked → s.pc w ≠ .inline →
      ¬ p.Walking → p ≠ .test → p ≠ .parked → p ≠ .inline →
      (s.expected = 0 → p.Waiting → (s.pc w).Waiting) → ∃ l, Inv (setPc s w p) l :=
    fun w p hold h1 h2 h3 hp h4 h5 h6 h7 =>
      ⟨l, h.setPc_quiet hold (h.notMem h1 h2 h3) h3 hp h4 h5 h6 h7⟩
  cases a with
  | call w op =>
    simp only [step] at hs
    split at hs
    · next hpc =>
      cases hs
      have hold : ∀ x, ¬ Ahead s w x := fun x ha => absurd ha.walking (by simp [hpc, Pc.Walking])
      refine quiet w _ hold (by simp [hpc]) (by simp [hpc]) (by simp [hpc]) ?_ ?_ ?_ ?_ ?_ <;>
        cases op <;> simp [Pc.Walking, Pc.Waiting]
    · cases hs
  | step w spurious =>
    obtain ⟨hlate, hdown⟩ := hok w spurious rfl
    simp only [step] at hs
    split at hs
    · next u b hpc =>
      cases hs
      exact ⟨l, h.countDown hpc hdown⟩
    · next b hpc =>
      cases hs
      exact ⟨l, h.notify hpc⟩
    · next b hpc =>
      cases hs
      obtain ⟨h1, h2, h3, h4, h5⟩ := afterCountDown_quiet (W := W) b
      refine quiet w _ ?_ (by simp [hpc]) (by simp [hpc]) (by simp [hpc]) h1 h3 h4 h5
        fun _ hp => absurd hp h2
      intro x ha
      unfold Ahead at ha
      rw [hpc] at ha
      obtain ⟨r, hr, hx⟩ := ha
      rw [Chain.none_iff.1 hr] at hx
      cases hx
    · next x b hpc =>
      cases hs
      exact ⟨l, h.walkNext hpc⟩
    · next hpc =>
      have hwl : w ∉ l := h.notMem (by simp [hpc]) (by simp [hpc]) (by simp [hpc])
      split at hs
      · next hz =>
        cases hs
        exact ⟨l, h.goInline hz (by simp [hpc, Pc.Walking]) (h.fresh w hwl (by simp [hpc]))
          fun t ha => hwl (h.ahead_mem ha)⟩
      · next hz =>
        cases hs
        refine quiet w .load (fun x ha => absurd ha.walking (by simp [hpc, Pc.Walking]))
          (by simp [hpc]) (by simp [hpc]) (by simp [hpc]) ?_ ?_ ?_ ?_ (fun he => absurd he hz) <;>
          simp [Pc.Walking]
    · next hpc =>
      cases hs
      have hwl : w ∉ l := h.notMem (by simp [hpc]) (by simp [hpc]) (by simp [hpc])
      have hpc' : ({ s with next := Function.update s.next w s.head } : State W).pc w = .load := hpc
      refine ⟨l, (h.setNext hwl s.head).setPc_quiet ?_ hwl ?_ ?_ ?_ ?_ ?_ fun _ _ => ?_⟩
      · exact fun x ha => absurd ha.walking (by simp [hpc, Pc.Walking])
      all_goals simp [hpc, Pc.Walking, Pc.Waiting]
    · next hpc =>
      have hwl : w ∉ l := h.notMem (by simp [hpc]) (by simp [hpc]) (by simp [hpc])
      split at hs
      · next hc =>
        cases hs
        exact ⟨_, h.link hpc hc.2⟩
      · cases hs
        exact ⟨l, h.setNext hwl _⟩
    · next hpc =>
      split at hs
      · next hz =>
        cases hs
        have h0 : ¬ (s.resumed w ≠ 0 ∨ ∃ t, Ahead s t w) := fun hbad => hlate ⟨hpc, hz, hbad⟩
        rw [not_or, not_exists, not_not] at h0
        exact ⟨l, h.goInline hz (by simp [hpc, Pc.Walking]) h0.1 h0.2⟩
      · next hz =>
        cases hs
        exact ⟨l, h.park hpc hz⟩
    · cases hs

/-! ## Top theorems -/

/-- **Exactly once.**  For every initial count and every interleaving in which
no waiter tests too late and no `count_down` comes after the count is down. -/
theorem resumed_exactly_once (expected : BitVec 64) (s : State W)
    (h : Reachable step InTime (init expected) s) : ExactlyOnce s := by
  obtain ⟨l, hl⟩ := h.inv (fun s => ∃ l, Inv s l) inv_step ⟨[], inv_init expected⟩
  exact hl.exactlyOnce

end

/-- Waiter `true` is suspended before `false` counts down to zero and walks the list. -/
def parkedRun : List (Act Bool) :=
  [.call true .wait, .step true false, .step true false, .step true false, .step true false,
   .call false (.countDown 1), .step false false, .step false false, .step false false]

theorem parked_waiter_resumed_once :
    ∃ s, Reachable step InTime (init 1) s ∧ s.pc true = .parked ∧ s.resumed true = 1 ∧
      ExactlyOnce s := by
  have hr : Reachable step InTime (init 1) _ := ⟨parkedRun, rfl, by
    iterate 9
      rintro t ⟨⟩
      refine ⟨?_, ?_⟩
      · first
        | (rintro w b ⟨⟩; done)
        | exact inTime_of (Or.inl (by decide))
        | exact inTime_of (Or.inr trivial)
    trivial⟩
  exact ⟨_, hr, rfl, rfl, resumed_exactly_once 1 _ hr⟩

/-- Waiter `true` links itself, `false` counts down to zero and walks the list,
then the waiter's last test finds zero. -/
def twiceRun : List (Act Bool) :=
  [.call true .wait, .step true false, .step true false, .step true false,
   .call false (.countDown 1), .step false false, .step false false, .step false false,
   .step true false]

theorem waiter_resumed_twice :
    ∃ s, run step (init 1) twiceRun = some s ∧ s.resumed true = 2 ∧ ¬ ExactlyOnce s :=
  ⟨_, rfl, rfl, fun h => absurd (h.once true) (by decide)⟩

end Kosio.Latch
