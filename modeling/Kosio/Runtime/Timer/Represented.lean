import Mathlib.Logic.Relation
import Kosio.Runtime.Timer.Clock
import Kosio.Runtime.Timer.Exact

/-!
# The representation invariant of the wheel

`Placed` says which slots an entry may be in.  There is only one: while time
moves, `level_for` gives the level the entry is at (`Placed.level_eq`), whatever
`elapsed_` was when it got there.  Within `2^36` ms of the start that holds in
every state of the loop, and what a round takes out of a slot and does not
execute goes to a lower level (`descends`).
-/

namespace Kosio.Runtime

open Bits Steps

/-- Above the level of `level_for` the entry is not ahead, below it is not in the round. -/
theorem Placed.level_eq {e w : Nat} {level : Fin numLevels} {slot : Fin levelMult}
    (h : Placed e level slot w) : level = levelFor e w := by
  have hp := placed_levelFor h.lt
  have h6 : (levelFor e w).val < 6 := (levelFor e w).isLt
  have hl6 : level.val < 6 := level.isLt
  rcases lt_trichotomy level (levelFor e w) with hlt | heq | hgt
  · have hlt : level.val < (levelFor e w).val := hlt
    have := div_pow_eq_of_le (show level.val + 1 ≤ (levelFor e w).val from hlt)
      (h.round (by omega))
    have := hp.ahead
    omega
  · exact heq
  · have hgt : (levelFor e w).val < level.val := hgt
    have := div_pow_eq_of_le (show (levelFor e w).val + 1 ≤ level.val from hgt)
      (hp.round (by omega))
    have := h.ahead
    omega

namespace Timer

variable {D H : Type} {t u : Timer D H} {now : Nat}

/-! ## Algorithm -/

/-- Every entry is due later and where `insert` would put it now, and the
bitmaps say which slots hold something. -/
structure Represented (t : Timer D H) : Prop where
  later : ∀ level slot, ∀ i ∈ t.slots level slot, t.elapsed < t.when_ i
  level : ∀ level slot, ∀ i ∈ t.slots level slot, level = levelFor t.elapsed (t.when_ i)
  slot : ∀ level slot, ∀ i ∈ t.slots level slot,
    slot.val = (t.when_ i >>> (6 * level.val)) % 64
  occupied : ∀ level (slot : Fin levelMult),
    (t.levels level).occupied.getLsbD slot.val = true ↔ t.slots level slot ≠ []

/-- What a round leaves in the wheel of the slot it takes is in a lower level. -/
def Descends (now : Nat) (t : Timer D H) : Prop :=
  ∀ x u, t.nextExpiration = some x → t.turn now = some u →
    ∀ i ∈ t.slots x.level x.slot, ∀ level slot, i ∈ u.slots level slot → level < x.level

/-- One round of the loop, backwards. -/
def After (now : Nat) (u t : Timer D H) : Prop := t.turn now = some u

/-! ## Lemmas -/

theorem Inv.represented (h : t.Inv) : t.Represented := by
  refine ⟨fun level slot i hi => ?_, fun level slot i hi => ?_, fun level slot i hi => ?_,
    fun level slot => h.marked level slot⟩
  · exact (h.placed level slot i hi).lt
  · exact (h.placed level slot i hi).level_eq
  · rw [(h.placed level slot i hi).slot, Nat.mul_comm]
    rfl

/-- The deadline is the start of the slot, in the top level too: it does not wrap around. -/
theorem Inv.reach_eq (h : t.Inv) (hs : ∀ i, t.Stored i → t.when_ i < 2 ^ 36) {x : Expiration}
    (hx : t.nextExpiration = some x) :
    ∀ i ∈ t.slots x.level x.slot, reach x.level (t.when_ i) = x.deadline := by
  intro i hi
  obtain ⟨hhere, hge, -⟩ := h.nextExpiration (TimerRun.not_conflict h hs) hx
  by_cases hl : x.level.val < 5
  · exact hhere hl i hi
  · have h5 : x.level.val = 5 := by
      have : x.level.val < 6 := x.level.isLt
      omega
    obtain ⟨-, -, k, hk, hv, hd, -⟩ := nextExpiration_eq h.marked hx
    have hp := h.placed _ _ i hi
    have hslot := slotFor_val x.level (t.when_ i)
    rw [← hp.slot, hv] at hslot
    have hle := hge i hi
    have hsmall : t.when_ i / 64 ^ x.level.val < 64 := by
      rw [h5, Nat.div_lt_iff_lt_mul (by decide)]
      exact hs i ⟨_, _, hi⟩
    rw [hd, reach, Nat.mul_le_mul_right_iff (Nat.pow_pos (by decide))] at hle
    rw [hd, reach]
    generalize t.when_ i / 64 ^ x.level.val = v at hslot hle hsmall ⊢
    generalize t.elapsed / 64 ^ x.level.val = u at hslot hle ⊢
    have hvu : v = u + if k = 0 then 64 else k := by
      split at hle <;> split <;> omega
    rw [hvu]

/-- What is in the wheel after a slot has been spread. -/
theorem mem_slots_processExpiration {x : Expiration} {i : Nat} {level : Fin numLevels}
    {slot : Fin levelMult} (hi : i ∈ (t.processExpiration x).slots level slot) :
    i ∈ (t.takeEntries x).2.slots level slot ∨ Placed x.deadline level slot (t.when_ i) := by
  by_cases h0 : x.level = 0
  · have hdef : t.processExpiration x = { (t.takeEntries x).2 with
        pending := t.pending ++ t.slots x.level x.slot } := if_pos h0
    rw [hdef] at hi
    exact Or.inl hi
  · have hdef : t.processExpiration x =
        (t.slots x.level x.slot).foldl (cascade x.deadline) (t.takeEntries x).2 := if_neg h0
    rw [hdef] at hi
    exact ((foldl_spread x.deadline _ _).slots level slot i hi).imp_right fun hp => hp.2

theorem descends (h : t.Inv) (hs : ∀ i, t.Stored i → t.when_ i < 2 ^ 36) : t.Descends now := by
  intro x u hx hu i hi level slot hiu
  obtain ⟨y, hy, -, rfl⟩ := turn_cases hu
  have hxy : some x = some y := hx.symm.trans hy
  cases hxy
  rcases mem_slots_processExpiration (t := { t with pending := [] }) hiu with hm | hp
  · -- it was in one slot, which has been taken
    rw [slots_takeEntries] at hm
    split at hm
    · cases hm
    · next hne =>
      have h1 := h.placed x.level x.slot i hi
      have h2 := h.placed level slot i hm
      have hl : level = x.level := h2.level_eq.trans h1.level_eq.symm
      subst hl
      exact absurd ⟨rfl, h2.slot.trans h1.slot.symm⟩ hne
  · rw [hp.level_eq]
    refine levelFor_lt hp.lt ?_
    have hr := h.reach_eq hs hx i hi
    show x.deadline / 64 ^ x.level.val = t.when_ i / 64 ^ x.level.val
    rw [← hr, reach, Nat.mul_div_cancel _ (Nat.pow_pos (by decide))]

/-- The loop only goes forward, and not past `now`. -/
theorem after_acc (h : ∀ level, (t.levels level).Marked) : Acc (After now) t := by
  induction hn : now - t.elapsed using Nat.strong_induction_on generalizing t with
  | _ n ih =>
    refine ⟨t, fun u hu => ?_⟩
    obtain ⟨h1, h2, h3⟩ := turn_elapsed h hu
    exact ih (now - u.elapsed) (by omega) h3 rfl

/-- Every state of the loop. -/
theorem after_represented (h : t.Inv) (hs : ∀ i, t.Stored i → t.when_ i < 2 ^ 36)
    (hu : Relation.ReflTransGen (fun t u => After now u t) t u) :
    u.Represented ∧ u.Descends now := by
  induction hu using Relation.ReflTransGen.head_induction_on with
  | refl => exact ⟨h.represented, descends h hs⟩
  | @head t v htv _ ih =>
    have hv := (h.turn (TimerRun.not_conflict h hs) htv).1
    refine ih hv.inv fun i hi => ?_
    rw [when_congr hv.entries hv.startTime]
    exact hs i ((hv.stored i).2 (Or.inl hi))

end Timer

namespace TimerRun

open Timer

variable {D H : Type}

theorem waits_step (s : State D H) (a : Act D H) (t : State D H) (h : Waits s)
    (hs : step s a = some t) (hr : InRange s a t) : Waits t := by
  obtain ⟨-, -, -, -, ht⟩ := agenda_step s a t s.agenda ⟨rfl, h⟩ hs hr
  exact ht

/-! ## Top theorem -/

/-- **The wheel is well formed** after every operation and in every round of the
loop of the next call, whatever the clock reads; what a round moves goes down,
and the loop ends. -/
theorem wheel_represented (currentMs : Nat) (s : State D H)
    (h : Reachable step InRange (init currentMs) s) :
    s.timer.pending = [] ∧ s.timer.Represented ∧
    ∀ now, Acc (After now) s.timer ∧
      ∀ u, Relation.ReflTransGen (fun t u => After now u t) s.timer u →
        u.Represented ∧ u.Descends now := by
  have hw : Waits s := h.inv Waits waits_step (waits_init currentMs)
  exact ⟨hw.inv.pending, hw.inv.timer.represented, fun now =>
    ⟨after_acc hw.inv.timer.marked, fun u hu => after_represented hw.inv.timer hw.small hu⟩⟩

/-- A sleep of 5000 ms starts in level 2 and is in level 1 after 4200 ms. -/
theorem wheel_represented_cascade :
    ∃ s : State Unit Unit, s.timer.slots 1 14 = [0] ∧ s.timer.Represented := by
  obtain ⟨s, hs, hslot⟩ := run_eval step (init 1000)
    [.insertHandle () 6000, .handleExpiredEntries 5200]
    (fun s : State Unit Unit => s.timer.slots 1 14 = [0]) (by decide +kernel)
  refine ⟨s, hslot, (wheel_represented 1000 s ⟨_, hs, ?_⟩).2.1⟩
  intro t _
  refine ⟨?_, fun u _ => ⟨?_, trivial⟩⟩
  · rintro expirationTime (⟨_, ⟨⟩⟩ | ⟨_, ⟨⟩⟩)
    show 6000 < 1000 + 2 ^ 36
    decide
  · rintro expirationTime (⟨_, ⟨⟩⟩ | ⟨_, ⟨⟩⟩)

end TimerRun

end Kosio.Runtime
