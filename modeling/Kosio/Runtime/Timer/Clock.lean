import Kosio.Runtime.Timer.Deadline

/-!
# A clock that steps back

`elapsed_` becomes whatever the clock says, so it can move to before the time
the entries of the wheel were placed at.  A slot of level 0 is then read in an
earlier round than the one it was filled for, and all of it is taken as due.

The time at which the loop reaches a slot of level 0 is known before the call
(`reachedAt`): while level 0 holds something the loop only goes from one of its
slots to the next.  Slots of the other levels are checked entry by entry.  So a
call fires early if and only if a slot of level 0 is reached by `now` with an
entry in it that is due later (`Safe`), and a run never fires early if and only
if each call is safe (`never_early_iff`).
-/

namespace Kosio.Runtime

open Steps

namespace Timer

variable {D H : Type} {t u : Timer D H} {now : Nat}

/-! ## Algorithm -/

/-- How many ms after `elapsed` a slot of level 0 comes. -/
def ahead (elapsed : Nat) (slot : Fin levelMult) : Nat := (slot.val + (64 - elapsed % 64)) % 64

/-- When the loop reaches a slot of level 0 that holds something.  An occupied
current slot is reached first, 64 ms ahead, and all others after it. -/
def reachedAt (t : Timer D H) (slot : Fin levelMult) : Nat :=
  (if t.slots 0 (Level.slotFor 0 t.elapsed) = [] then t.elapsed else t.elapsed + 64) +
    ahead t.elapsed slot

/-- What is reached by `now` in level 0 is due by `now`. -/
def Safe (t : Timer D H) (now : Nat) : Prop :=
  ∀ slot, ∀ i ∈ t.slots 0 slot, t.reachedAt slot ≤ now → t.when_ i ≤ now

instance (t : Timer D H) (now : Nat) : Decidable (t.Safe now) :=
  inferInstanceAs (Decidable (∀ slot : Fin levelMult, ∀ i ∈ t.slots 0 slot,
    t.reachedAt slot ≤ now → t.when_ i ≤ now))

/-- The same for the entries of a kind. -/
def SafeFor (p : Nat → Prop) (t : Timer D H) (now : Nat) : Prop :=
  ∀ slot, ∀ i ∈ t.slots 0 slot, p i → t.reachedAt slot ≤ now → t.when_ i ≤ now

/-! ## What a round moves -/

/-- `w` is `v` with the entries of `l` spread from time `d` on. -/
structure Spread (d : Nat) (l : List Nat) (v w : Timer D H) : Prop where
  entries : w.entries = v.entries
  startTime : w.startTime = v.startTime
  made : w.made = v.made
  pending : ∀ i ∈ w.pending, i ∈ v.pending ∨ (i ∈ l ∧ v.when_ i ≤ d)
  slots : ∀ level slot, ∀ i ∈ w.slots level slot,
    i ∈ v.slots level slot ∨ (i ∈ l ∧ Placed d level slot (v.when_ i))

theorem foldl_spread (d : Nat) (l : List Nat) (v : Timer D H) :
    Spread d l v (l.foldl (cascade d) v) := by
  induction l generalizing v with
  | nil => exact ⟨rfl, rfl, rfl, fun i hi => Or.inl hi, fun level slot i hi => Or.inl hi⟩
  | cons j l ih =>
    have h := ih (cascade d v j)
    have hw : (cascade d v j).entries = v.entries ∧ (cascade d v j).startTime = v.startTime ∧
        (cascade d v j).made = v.made := by
      unfold cascade
      split <;> exact ⟨rfl, rfl, rfl⟩
    have hwhen : ∀ i, (cascade d v j).when_ i = v.when_ i := fun i => when_congr hw.1 hw.2.1 i
    refine ⟨h.entries.trans hw.1, h.startTime.trans hw.2.1, h.made.trans hw.2.2, ?_, ?_⟩
    · intro i hi
      rcases h.pending i hi with hi | ⟨hi, hle⟩
      · unfold cascade at hi
        split at hi
        · next hle =>
          rcases List.mem_append.1 hi with hi | hi
          · exact Or.inl hi
          · rw [List.mem_singleton.1 hi]
            exact Or.inr ⟨List.mem_cons_self, hle⟩
        · exact Or.inl hi
      · rw [hwhen] at hle
        exact Or.inr ⟨List.mem_cons_of_mem _ hi, hle⟩
    · intro level slot i hi
      rcases h.slots level slot i hi with hi | ⟨hi, hp⟩
      · unfold cascade at hi
        split at hi
        · exact Or.inl hi
        · next hgt =>
          rcases mem_slots_addEntry.1 hi with hi | ⟨rfl, rfl, rfl⟩
          · exact Or.inl hi
          · exact Or.inr ⟨List.mem_cons_self, placed_levelFor (by omega)⟩
      · rw [hwhen] at hp
        exact Or.inr ⟨List.mem_cons_of_mem _ hi, hp⟩

theorem turn_cases (hs : t.turn now = some u) :
    ∃ x, ({ t with pending := [] } : Timer D H).nextExpiration = some x ∧ x.deadline ≤ now ∧
      u = { ({ t with pending := [] } : Timer D H).processExpiration x with
        elapsed := x.deadline } := by
  unfold turn at hs
  cases hx : ({ t with pending := [] } : Timer D H).nextExpiration with
  | none => simp [hx] at hs
  | some x =>
    simp only [hx, Option.ite_none_left_eq_some, Option.some.injEq, not_lt] at hs
    exact ⟨x, rfl, hs.1, hs.2.symm⟩

/-- What a round leaves as it was, and that nothing comes from elsewhere. -/
structure Kept (t u : Timer D H) : Prop where
  entries : u.entries = t.entries
  startTime : u.startTime = t.startTime
  made : u.made = t.made
  stored : ∀ i, u.Stored i → t.Stored i
  pending : ∀ i ∈ u.pending, t.Stored i

theorem stored_takeEntries {x : Expiration} {i : Nat} (h : (t.takeEntries x).2.Stored i) :
    t.Stored i := by
  obtain ⟨level, slot, hi⟩ := h
  rw [slots_takeEntries] at hi
  split at hi
  · cases hi
  · exact ⟨level, slot, hi⟩

theorem processExpiration_kept (hp : t.pending = []) (x : Expiration) :
    Kept t (t.processExpiration x) := by
  have hslot : ∀ i ∈ t.slots x.level x.slot, t.Stored i := fun i hi => ⟨_, _, hi⟩
  show Kept t (if x.level = 0 then _ else _)
  split
  · refine ⟨rfl, rfl, rfl, fun i hi => stored_takeEntries (x := x) hi, fun i hi => ?_⟩
    have hi : i ∈ t.pending ++ t.slots x.level x.slot := hi
    rw [hp, List.nil_append] at hi
    exact hslot i hi
  · have h := foldl_spread x.deadline (t.slots x.level x.slot) (t.takeEntries x).2
    refine ⟨h.entries, h.startTime, h.made, ?_, ?_⟩
    · rintro i ⟨level, slot, hi⟩
      rcases h.slots level slot i hi with hi | ⟨hi, -⟩
      · exact stored_takeEntries ⟨level, slot, hi⟩
      · exact hslot i hi
    · intro i hi
      rcases h.pending i hi with hi | ⟨hi, -⟩
      · have hi : i ∈ t.pending := hi
        rw [hp] at hi
        cases hi
      · exact hslot i hi

theorem turn_kept (hs : t.turn now = some u) : Kept t u := by
  obtain ⟨x, -, -, rfl⟩ := turn_cases hs
  have h := processExpiration_kept (t := { t with pending := [] }) rfl x
  exact ⟨h.entries, h.startTime, h.made, h.stored, h.pending⟩

theorem Kept.when_ (h : Kept t u) (i : Nat) : u.when_ i = t.when_ i :=
  when_congr h.entries h.startTime i

/-! ## Level 0 -/

theorem slotFor_zero (w : Nat) : (Level.slotFor 0 w).val = w % 64 := by
  rw [slotFor_val]
  simp

theorem reachedAt_of_free (h : t.slots 0 (Level.slotFor 0 t.elapsed) = []) (slot : Fin levelMult) :
    t.reachedAt slot = t.elapsed + ahead t.elapsed slot := by
  rw [reachedAt, if_pos h]

/-- While level 0 holds something, the next expiration is the first of its slots;
what is reached later stays where it is. -/
theorem nextExpiration_zero (h : ∀ level, (t.levels level).Marked) {slot : Fin levelMult}
    (hne : t.slots 0 slot ≠ []) :
    ∃ x, t.nextExpiration = some x ∧ x.level = 0 ∧ t.slots 0 x.slot ≠ [] ∧
      x.deadline = t.reachedAt x.slot ∧ ∀ other, t.slots 0 other ≠ [] → other ≠ x.slot →
        x.deadline < t.reachedAt other ∧ x.deadline + ahead x.deadline other = t.reachedAt other ∧
          other ≠ Level.slotFor 0 x.deadline := by
  rcases nextExpiration_cases h with ⟨-, he⟩ | ⟨x, hx, -, hlow⟩
  · exact absurd (he 0 slot) hne
  have hlevel : x.level = 0 := by
    by_contra h0
    exact hne (hlow 0 (Fin.pos_of_ne_zero h0) slot)
  obtain ⟨hslot, -, k, hk, hv, hd, hfirst⟩ := nextExpiration_eq h hx
  rw [hlevel] at hslot hv hd hfirst
  simp only [Fin.val_zero, Nat.pow_zero, Nat.div_one, Nat.mul_one] at hv hd hfirst
  -- the current slot is occupied if and only if it is the one chosen
  have hcur : t.slots 0 (Level.slotFor 0 t.elapsed) = [] ↔ k ≠ 0 := by
    constructor
    · rintro he rfl
      have : x.slot = Level.slotFor 0 t.elapsed := Fin.ext (by rw [slotFor_zero, hv, Nat.zero_add])
      exact hslot (this ▸ he)
    · intro hk0
      by_contra he
      refine hfirst _ he 0 (by omega) ?_
      rw [slotFor_zero, Nat.zero_add]
  have hbase : (if t.slots 0 (Level.slotFor 0 t.elapsed) = [] then t.elapsed else t.elapsed + 64) =
      if k = 0 then t.elapsed + 64 else t.elapsed := by
    by_cases hk0 : k = 0
    · rw [if_neg (fun he => hcur.1 he hk0), if_pos hk0]
    · rw [if_pos (hcur.2 hk0), if_neg hk0]
  refine ⟨x, hx, hlevel, hslot, ?_, fun other ho hne => ?_⟩
  · rw [hd, reachedAt, hbase, ahead, hv]
    split <;> omega
  · have hlt : other.val < 64 := other.isLt
    have hval : other.val ≠ x.slot.val := fun he => hne (Fin.ext he)
    have hfar : ∀ j < k, other.val ≠ (j + t.elapsed) % 64 := hfirst other ho
    have hge : k ≤ ahead t.elapsed other := by
      by_contra hlt'
      refine hfar (ahead t.elapsed other) (by omega) ?_
      unfold ahead
      omega
    rw [hv] at hval
    rw [reachedAt, hbase, hd]
    refine ⟨?_, ?_, fun he => ?_⟩
    · unfold ahead at hge ⊢
      split <;> omega
    · unfold ahead at hge ⊢
      split <;> omega
    · have := congrArg Fin.val he
      rw [slotFor_zero] at this
      split at this <;> omega

/-- A round that starts in level 0. -/
theorem turn_zero (now : Nat) (h : ∀ level, (t.levels level).Marked) {slot : Fin levelMult}
    (hne : t.slots 0 slot ≠ []) :
    (t.turn now = none ∧ ∀ other, t.slots 0 other ≠ [] → now < t.reachedAt other) ∨
    ∃ u first, t.turn now = some u ∧ t.reachedAt first ≤ now ∧ u.pending = t.slots 0 first ∧
      (∀ other, u.slots 0 other = if other = first then [] else t.slots 0 other) ∧
      ∀ other, t.slots 0 other ≠ [] → other ≠ first → u.reachedAt other = t.reachedAt other := by
  obtain ⟨x, hx, hlevel, hslot, hd, hother⟩ :=
    nextExpiration_zero (t := { t with pending := [] }) h hne
  have hd : x.deadline = t.reachedAt x.slot := hd
  by_cases hgt : x.deadline > now
  · refine Or.inl ⟨?_, fun other ho => ?_⟩
    · unfold turn
      simp only [hx, if_pos hgt]
    · by_cases he : other = x.slot
      · rw [he, ← hd]
        exact hgt
      · exact lt_trans hgt (hother other ho he).1
  · have hslots : ∀ other, (({ t with pending := [] } : Timer D H).processExpiration x).slots 0 other =
        if other = x.slot then [] else t.slots 0 other := by
      intro other
      show Timer.slots (if x.level = 0 then _ else _) 0 other = _
      rw [if_pos hlevel]
      refine (slots_takeEntries { t with pending := [] } x 0 other).trans ?_
      simp only [hlevel, true_and]
      rfl
    refine Or.inr ⟨{ ({ t with pending := [] } : Timer D H).processExpiration x with
      elapsed := x.deadline }, x.slot, ?_, hd ▸ not_lt.1 hgt, ?_, hslots, fun other ho he => ?_⟩
    · unfold turn
      simp only [hx, if_neg hgt]
    · show Timer.pending (if x.level = 0 then _ else _) = _
      rw [if_pos hlevel]
      show [] ++ t.slots x.level x.slot = _
      rw [hlevel, List.nil_append]
    · obtain ⟨-, h2, -⟩ := hother other ho he
      have hcur : Timer.slots { ({ t with pending := [] } : Timer D H).processExpiration x with
          elapsed := x.deadline } 0 (Level.slotFor 0 x.deadline) = [] := by
        refine (hslots _).trans ?_
        split
        · rfl
        · next hne' =>
          by_contra ho'
          exact (hother _ ho' hne').2.2 rfl
      exact (reachedAt_of_free hcur other).trans h2

/-- A round that starts above: what it executes is due, and what it puts into
level 0 is reached when it is due. -/
theorem turn_above (hempty : ∀ slot, t.slots 0 slot = []) (h : ∀ level, (t.levels level).Marked)
    (hs : t.turn now = some u) :
    (∀ i ∈ u.pending, t.when_ i ≤ now) ∧
      ∀ slot, ∀ i ∈ u.slots 0 slot, u.reachedAt slot = t.when_ i := by
  obtain ⟨x, hx, hle, rfl⟩ := turn_cases hs
  have hne := (nextExpiration_eq (t := { t with pending := [] }) h hx).1
  have hlevel : x.level ≠ 0 := fun h0 => hne (h0 ▸ hempty x.slot)
  have hsp := foldl_spread x.deadline (t.slots x.level x.slot)
    (Timer.takeEntries { t with pending := [] } x).2
  have hdef : ({ t with pending := [] } : Timer D H).processExpiration x =
      (t.slots x.level x.slot).foldl (cascade x.deadline)
        (Timer.takeEntries { t with pending := [] } x).2 := if_neg hlevel
  rw [← hdef] at hsp
  have hplaced : ∀ slot, ∀ i ∈ (({ t with pending := [] } : Timer D H).processExpiration x).slots 0 slot,
      Placed x.deadline 0 slot (t.when_ i) := by
    intro slot i hi
    rcases hsp.slots 0 slot i hi with hi | ⟨-, hp⟩
    · rw [slots_takeEntries] at hi
      split at hi
      · cases hi
      · have hi : i ∈ t.slots 0 slot := hi
        rw [hempty slot] at hi
        cases hi
    · exact hp
  have harith : ∀ slot i, Placed x.deadline 0 slot (t.when_ i) →
      x.deadline < t.when_ i ∧ x.deadline / 64 = t.when_ i / 64 ∧ slot.val = t.when_ i % 64 := by
    intro slot i hp
    refine ⟨hp.lt, by simpa using hp.round (by decide), ?_⟩
    rw [hp.slot, slotFor_zero]
  refine ⟨fun i hi => ?_, fun slot i hi => ?_⟩
  · rcases hsp.pending i hi with hi | ⟨-, hd⟩
    · cases hi
    · exact le_trans hd hle
  · obtain ⟨h1, h2, h3⟩ := harith slot i (hplaced slot i hi)
    have hcur : Timer.slots { ({ t with pending := [] } : Timer D H).processExpiration x with
        elapsed := x.deadline } 0 (Level.slotFor 0 x.deadline) = [] := by
      by_contra hne'
      obtain ⟨j, hj⟩ := List.exists_mem_of_ne_nil _ hne'
      obtain ⟨h4, h5, h6⟩ := harith _ j (hplaced _ j hj)
      rw [slotFor_zero] at h6
      omega
    refine (reachedAt_of_free hcur slot).trans ?_
    show x.deadline + (slot.val + (64 - x.deadline % 64)) % 64 = _
    omega

/-! ## The loop -/

/-- A safe state stays safe, and what a round puts into `pending_` is due. -/
theorem SafeFor.turn {p : Nat → Prop} (hsafe : t.SafeFor p now)
    (h : ∀ level, (t.levels level).Marked) (hs : t.turn now = some u) :
    u.SafeFor p now ∧ ∀ i ∈ u.pending, p i → u.when_ i ≤ now := by
  have hk := turn_kept hs
  by_cases hempty : ∀ slot, t.slots 0 slot = []
  · obtain ⟨hp, hslots⟩ := turn_above hempty h hs
    refine ⟨fun slot i hi _ hle => ?_, fun i hi _ => ?_⟩
    · rw [hk.when_, ← hslots slot i hi]
      exact hle
    · rw [hk.when_]
      exact hp i hi
  · obtain ⟨slot, hne⟩ := not_forall.1 hempty
    rcases turn_zero now h hne with ⟨hn, -⟩ | ⟨u', first, hu, hle, hp, hslots, hreach⟩
    · rw [hn] at hs
      cases hs
    · rw [hu, Option.some.injEq] at hs
      subst hs
      refine ⟨fun other i hi hpi hle' => ?_, fun i hi hpi => ?_⟩
      · rw [hslots] at hi
        split at hi
        · cases hi
        · next he =>
          rw [hreach other (List.ne_nil_of_mem hi) he] at hle'
          rw [hk.when_]
          exact hsafe other i hi hpi hle'
      · rw [hp] at hi
        rw [hk.when_]
        exact hsafe first i hi hpi hle

/-- From a safe state nothing is executed early. -/
theorem SafeFor.expire {p : Nat → Prop} (hsafe : t.SafeFor p now)
    (h : ∀ level, (t.levels level).Marked) (hp : ∀ i ∈ t.pending, p i → t.when_ i ≤ now)
    (fuel : Nat) : ∀ i ∈ (t.expire now fuel).2.map (·.1), p i → t.when_ i ≤ now := by
  induction fuel generalizing t with
  | zero =>
    intro i hi
    cases hi
  | succ fuel ih =>
    intro i hi hpi
    unfold Timer.expire at hi
    cases hs : t.turn now with
    | none =>
      simp only [hs, executed_fst] at hi
      exact hp i hi hpi
    | some u =>
      simp only [hs, List.map_append, executed_fst, List.mem_append] at hi
      rcases hi with hi | hi
      · exact hp i hi hpi
      · obtain ⟨hsu, hpu⟩ := hsafe.turn h hs
        have := ih hsu (turn_elapsed h hs).2.2 hpu i hi hpi
        rwa [(turn_kept hs).when_] at this

theorem Safe.expire (hsafe : t.Safe now) (h : ∀ level, (t.levels level).Marked)
    (hp : ∀ i ∈ t.pending, t.when_ i ≤ now) (fuel : Nat) :
    ∀ i ∈ (t.expire now fuel).2.map (·.1), t.when_ i ≤ now := by
  have hall : t.SafeFor (fun _ => True) now := fun slot i hi _ => hsafe slot i hi
  exact fun i hi => hall.expire h (fun i hi _ => hp i hi) fuel i hi trivial

/-- What level 0 holds is executed when its slot is reached. -/
theorem expire_reached (h : ∀ level, (t.levels level).Marked) {fuel : Nat}
    (hfuel : now - t.elapsed < fuel) {slot : Fin levelMult} {i : Nat} (hi : i ∈ t.slots 0 slot)
    (hle : t.reachedAt slot ≤ now) : i ∈ (t.expire now fuel).2.map (·.1) := by
  induction fuel generalizing t with
  | zero => omega
  | succ fuel ih =>
    have hne := List.ne_nil_of_mem hi
    rcases turn_zero now h hne with ⟨-, hlater⟩ | ⟨u, first, hu, -, hp, hslots, hreach⟩
    · have := hlater slot hne
      omega
    · unfold Timer.expire
      simp only [hu, List.map_append, executed_fst, List.mem_append]
      right
      obtain ⟨hgt, hnow, hm⟩ := turn_elapsed h hu
      by_cases he : slot = first
      · -- `pending_` is executed in the next round
        have hiu : i ∈ u.pending := by rwa [hp, ← he]
        cases fuel with
        | zero => omega
        | succ fuel =>
          unfold Timer.expire
          cases hs : u.turn now with
          | none => simpa only [executed_fst] using hiu
          | some v =>
            simp only [List.map_append, executed_fst, List.mem_append]
            exact Or.inl hiu
      · refine ih hm (by omega) ?_ ?_
        · rwa [hslots, if_neg he]
        · rwa [hreach slot hne he]

/-- What a call leaves as it was, given fuel for every millisecond. -/
theorem expire_kept (h : ∀ level, (t.levels level).Marked) {fuel : Nat}
    (hfuel : now - t.elapsed < fuel) :
    (t.expire now fuel).1.pending = [] ∧ (∀ level, ((t.expire now fuel).1.levels level).Marked) ∧
    (t.expire now fuel).1.entries = t.entries ∧ (t.expire now fuel).1.startTime = t.startTime ∧
    (t.expire now fuel).1.made = t.made ∧
    (∀ i, (t.expire now fuel).1.Stored i → t.Stored i) ∧
    ∀ i ∈ (t.expire now fuel).2.map (·.1), i ∈ t.pending ∨ t.Stored i := by
  induction fuel generalizing t with
  | zero => omega
  | succ fuel ih =>
    unfold Timer.expire
    cases hs : t.turn now with
    | none =>
      refine ⟨rfl, h, rfl, rfl, rfl, fun i hi => hi, fun i hi => ?_⟩
      rw [executed_fst] at hi
      exact Or.inl hi
    | some u =>
      obtain ⟨hgt, hle, hm⟩ := turn_elapsed h hs
      have hk := turn_kept hs
      obtain ⟨h1, h2, h3, h4, h5, h6, h7⟩ := ih hm (by omega)
      refine ⟨h1, h2, h3.trans hk.entries, h4.trans hk.startTime, h5.trans hk.made,
        fun i hi => hk.stored i (h6 i hi), fun i hi => ?_⟩
      rw [List.map_append, executed_fst, List.mem_append] at hi
      rcases hi with hi | hi
      · exact Or.inl hi
      · rcases h7 i hi with hi | hi
        · exact Or.inr (hk.pending i hi)
        · exact Or.inr (hk.stored i hi)

end Timer

/-! ## Runs -/

namespace ClockRun

open Timer TimerRun

variable {D H : Type}

/-- As in `TimerRun`, but the clock may go back, though not before the start. -/
def step (s : State D H) : Act D H → Option (State D H)
  | .handleExpiredEntries currentMs =>
    if currentMs < s.timer.startTime then none
    else
      let (timer, log) := s.timer.handleExpiredEntries currentMs
      some { s with timer, calls := s.calls ++ [(currentMs, log.map (·.1))] }
  | a => TimerRun.step s a

/-- No call has executed an entry that expires after its clock reading. -/
def NeverEarly (s : State D H) : Prop :=
  ∀ c ∈ s.calls, ∀ i ∈ c.2, (s.timer.entries i).expirationTime ≤ c.1

/-- Calls are made in safe states only. -/
def SafeCall (s : State D H) (a : Act D H) (_ : State D H) : Prop :=
  ∀ currentMs, a = .handleExpiredEntries currentMs →
    s.timer.Safe (currentMs - s.timer.startTime)

instance : (s : State D H) → (a : Act D H) → (t : State D H) → Decidable (SafeCall s a t)
  | _, .insertData _ _, _ => isTrue (fun _ h => by cases h)
  | _, .insertHandle _ _, _ => isTrue (fun _ h => by cases h)
  | _, .removeData _, _ => isTrue (fun _ h => by cases h)
  | s, .handleExpiredEntries currentMs, _ =>
    decidable_of_iff (s.timer.Safe (currentMs - s.timer.startTime))
      ⟨fun hs _ h => by cases h; exact hs, fun h => h currentMs rfl⟩

/-- The invariant between operations, however the clock moves. -/
structure Inv (s : State D H) : Prop where
  marked : ∀ level, (s.timer.levels level).Marked
  pending : s.timer.pending = []
  stored : ∀ i, s.timer.Stored i → i < s.timer.made
  called : ∀ c ∈ s.calls, ∀ i ∈ c.2, i < s.timer.made

theorem inv_init (currentMs : Nat) : Inv (init currentMs : State D H) :=
  ⟨fun _ => Level.marked_empty, rfl, fun _ ⟨_, _, h⟩ => (List.not_mem_nil h).elim, nofun⟩

/-- An inserted entry is not one of those executed. -/
theorem inserted_spec {s : State D H} (h : Inv s) (expirationTime : Nat) (entry : Entry D H) :
    Inv (inserted s expirationTime (s.timer.insertEntry entry)) ∧
      (NeverEarly (inserted s expirationTime (s.timer.insertEntry entry)) ↔ NeverEarly s) := by
  unfold insertEntry
  split
  · exact ⟨h, Iff.rfl⟩
  · refine ⟨⟨fun level => marked_addEntry (t := (s.timer.make entry).1) h.marked _ _ _ level,
      h.pending, fun i hi => ?_, fun c hc i hi => Nat.lt_succ_of_lt (h.called c hc i hi)⟩, ?_⟩
    · show i < s.timer.made + 1
      rcases stored_addEntry.1 hi with hi | rfl
      · exact Nat.lt_succ_of_lt (h.stored i hi)
      · exact Nat.lt_succ_self _
    · refine forall₂_congr fun c hc => forall₂_congr fun i hi => ?_
      have := h.called c hc i hi
      show (Function.update s.timer.entries s.timer.made entry i).expirationTime ≤ c.1 ↔ _
      rw [Function.update_of_ne (by omega)]

theorem removed_spec {s : State D H} (h : Inv s) {entry : Nat}
    (hn : (s.timer.entries entry).handle.isNone) :
    Inv { s with timer := s.timer.remove entry } ∧
      (NeverEarly { s with timer := s.timer.remove entry } ↔ NeverEarly s) := by
  rw [remove_data hn]
  refine ⟨⟨h.marked, h.pending, h.stored, h.called⟩, ?_⟩
  refine forall₂_congr fun c hc => forall₂_congr fun i hi => ?_
  exact iff_of_eq (congrArg (· ≤ c.1) (field_clearData Entry.expirationTime (fun _ => rfl) entry i))

/-- **A call.**  It fires early if and only if the state is not safe. -/
theorem call_spec {s t : State D H} (h : Inv s) {currentMs : Nat}
    (hs : step s (.handleExpiredEntries currentMs) = some t) :
    Inv t ∧ (NeverEarly t ↔ NeverEarly s ∧ s.timer.Safe (currentMs - s.timer.startTime)) := by
  simp only [step, Option.ite_none_left_eq_some, Option.some.injEq, not_lt] at hs
  obtain ⟨hstart, rfl⟩ := hs
  generalize hnow : currentMs - s.timer.startTime = now
  have hfuel : now - s.timer.elapsed < now - s.timer.elapsed + 1 := Nat.lt_succ_self _
  obtain ⟨h1, h2, h3, h4, h5, h6, h7⟩ := expire_kept h.marked hfuel
  have hsafe := fun hsafe : s.timer.Safe now => hsafe.expire h.marked
    (fun i hi => by rw [h.pending] at hi; cases hi) (now - s.timer.elapsed + 1)
  have hreached : ∀ slot, ∀ i ∈ s.timer.slots 0 slot, s.timer.reachedAt slot ≤ now →
      i ∈ (s.timer.expire now (now - s.timer.elapsed + 1)).2.map (·.1) :=
    fun slot i hi hle => expire_reached h.marked hfuel hi hle
  have hdef : s.timer.handleExpiredEntries currentMs =
      ({ (s.timer.expire now (now - s.timer.elapsed + 1)).1 with elapsed := now },
        (s.timer.expire now (now - s.timer.elapsed + 1)).2) := by
    rw [← hnow]
    rfl
  rw [hdef]
  generalize s.timer.expire now (now - s.timer.elapsed + 1) = r at h1 h2 h3 h4 h5 h6 h7 hsafe hreached
  have hlog : ∀ i ∈ r.2.map (·.1), s.timer.Stored i := by
    intro i hi
    rcases h7 i hi with hi | hi
    · rw [h.pending] at hi
      cases hi
    · exact hi
  have hdue : ∀ i, s.timer.when_ i ≤ now ↔ (s.timer.entries i).expirationTime ≤ currentMs := by
    intro i
    unfold when_
    omega
  refine ⟨⟨h2, h1, fun i hi => ?_, fun c hc i hi => ?_⟩, ?_⟩
  · show i < r.1.made
    rw [h5]
    exact h.stored i (h6 i hi)
  · show i < r.1.made
    rw [h5]
    rcases List.mem_append.1 hc with hc | hc
    · exact h.called c hc i hi
    · rw [List.mem_singleton.1 hc] at hi
      exact h.stored i (hlog i hi)
  · show (∀ c ∈ s.calls ++ [(currentMs, r.2.map (·.1))], ∀ i ∈ c.2,
      (r.1.entries i).expirationTime ≤ c.1) ↔ _
    rw [h3, List.forall_mem_append, List.forall_mem_singleton]
    refine and_congr_right fun _ => ?_
    constructor
    · intro hin slot i hi hle
      exact (hdue i).2 (hin i (hreached slot i hi hle))
    · intro hs i hi
      exact (hdue i).1 (hsafe hs i hi)

theorem step_spec (s : State D H) (a : Act D H) (t : State D H) (h : Inv s)
    (hs : step s a = some t) : Inv t ∧ (NeverEarly t ↔ NeverEarly s ∧ SafeCall s a t) := by
  have hquiet : (∀ currentMs, a ≠ .handleExpiredEntries currentMs) → SafeCall s a t :=
    fun ha currentMs he => absurd he (ha currentMs)
  cases a with
  | insertData data expirationTime =>
    cases hs
    obtain ⟨hi, hq⟩ := inserted_spec h expirationTime { data := some data, expirationTime }
    exact ⟨hi, hq.trans (and_iff_left (hquiet fun _ he => (by cases he))).symm⟩
  | insertHandle handle expirationTime =>
    cases hs
    obtain ⟨hi, hq⟩ := inserted_spec h expirationTime { handle := some handle, expirationTime }
    exact ⟨hi, hq.trans (and_iff_left (hquiet fun _ he => (by cases he))).symm⟩
  | removeData entry =>
    simp only [step, TimerRun.step, Option.ite_none_right_eq_some, Option.some.injEq] at hs
    obtain ⟨⟨-, -, hn⟩, rfl⟩ := hs
    obtain ⟨hi, hq⟩ := removed_spec h hn
    exact ⟨hi, hq.trans (and_iff_left (hquiet fun _ he => (by cases he))).symm⟩
  | handleExpiredEntries currentMs =>
    obtain ⟨hi, hq⟩ := call_spec h hs
    refine ⟨hi, hq.trans (and_congr_right fun _ => ?_)⟩
    exact ⟨fun hsafe c he => by cases he; exact hsafe, fun hc => hc currentMs rfl⟩

/-! ## Top theorems -/

/-- **Never early.**  Whatever the clock says from the start time on, no entry is
executed by a call whose reading is smaller than its expiration if and only if
every call is made in a safe state. -/
theorem never_early_iff (currentMs : Nat) (as : List (Act D H)) (s : State D H)
    (h : run step (init currentMs) as = some s) :
    NeverEarly s ↔ EachStep step SafeCall (init currentMs) as := by
  rw [run_iff Inv (fun s a t hi hs => (step_spec s a t hi hs).2)
    (fun s a t hi hs => (step_spec s a t hi hs).1) (inv_init currentMs) h]
  exact and_iff_right nofun

/-- A sleep set at 1000 ms for 1010 ms, and then the clock is set back to 500 ms. -/
def setBack : List (Act Unit Unit) :=
  [.handleExpiredEntries 1000, .insertHandle () 1010, .handleExpiredEntries 500]

/-- The clock is right again before it reaches the slot of the sleep. -/
theorem never_early_setBack :
    ∃ s, run step (init 0) (setBack ++ [.handleExpiredEntries 1010]) = some s ∧
      s.calls = [(1000, []), (500, []), (1010, [0])] ∧ NeverEarly s := by
  obtain ⟨s, hs, hcalls⟩ := run_eval step (init 0) (setBack ++ [.handleExpiredEntries 1010])
    (fun s => s.calls = [(1000, []), (500, []), (1010, [0])]) (by decide +kernel)
  exact ⟨s, hs, hcalls, (never_early_iff 0 _ s hs).2 (by decide +kernel)⟩

/-- Slot 50 of level 0 is reached at 562 ms, 448 ms early. -/
theorem setBack_early :
    ∃ s, run step (init 0) (setBack ++ [.handleExpiredEntries 562]) = some s ∧
      s.calls = [(1000, []), (500, []), (562, [0])] ∧
      (s.timer.entries 0).expirationTime = 1010 ∧ ¬ NeverEarly s := by
  obtain ⟨s, hs, hcalls, hdue⟩ := run_eval step (init 0) (setBack ++ [.handleExpiredEntries 562])
    (fun s => s.calls = [(1000, []), (500, []), (562, [0])] ∧
      (s.timer.entries 0).expirationTime = 1010) (by decide +kernel)
  refine ⟨s, hs, hcalls, hdue, fun h => ?_⟩
  have := h (562, [0]) (by rw [hcalls]; decide) 0 (by decide)
  omega

end ClockRun

end Kosio.Runtime
