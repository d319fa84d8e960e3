import Mathlib.Algebra.BigOperators.Group.Finset.Piecewise
import Mathlib.Algebra.Order.BigOperators.Group.Finset
import Mathlib.Data.Fintype.Prod
import Kosio.Lib.Tally
import Kosio.Runtime.Timer.Clock

/-!
# What the timer holds

`total t i` counts the places of entry `i` in the wheel and in `pending_`.
Whatever the clock says, a round of the loop moves entries and neither drops nor
doubles one (`total_turn`), so an entry that is owned once stays owned once.
-/

namespace Kosio.Runtime.Timer

variable {D H : Type} {t u : Timer D H}

/-! ## Algorithm -/

/-- How often `entry` is in the wheel or in `pending_`. -/
def total (t : Timer D H) (entry : Nat) : Nat :=
  ∑ p : Fin numLevels × Fin levelMult, (t.slots p.1 p.2).count entry + t.pending.count entry

/-! ## Lemmas -/

theorem total_pos {i : Nat} : 0 < t.total i ↔ t.Stored i ∨ i ∈ t.pending := by
  unfold total
  rw [Nat.add_pos_iff_pos_or_pos, List.count_pos_iff, Finset.sum_pos_iff]
  refine or_congr_left ?_
  constructor
  · rintro ⟨p, -, hp⟩
    exact ⟨p.1, p.2, List.count_pos_iff.1 hp⟩
  · rintro ⟨level, slot, hi⟩
    exact ⟨(level, slot), Finset.mem_univ _, List.count_pos_iff.2 hi⟩

/-- The wheel stays as it is. -/
theorem total_append {l : List Nat} (hs : ∀ level slot, u.slots level slot = t.slots level slot)
    (hp : u.pending = t.pending ++ l) (j : Nat) : u.total j = t.total j + l.count j := by
  unfold total
  rw [hp, List.count_append, ← Nat.add_assoc]
  simp only [hs]

theorem total_congr (hs : ∀ level slot, u.slots level slot = t.slots level slot)
    (hp : u.pending = t.pending) (j : Nat) : u.total j = t.total j := by
  unfold total
  rw [hp]
  simp only [hs]

/-- The wheel changes in one slot only. -/
theorem total_slot {l : Fin numLevels} {s : Fin levelMult} {i n m : Nat}
    (hother : ∀ level slot, ¬ (level = l ∧ slot = s) → u.slots level slot = t.slots level slot)
    (hslot : (u.slots l s).count i + n = (t.slots l s).count i + m)
    (hp : u.pending = t.pending) : u.total i + n = t.total i + m := by
  unfold total
  have := Tally.sum_except (f := fun p => (t.slots p.1 p.2).count i)
    (g := fun p => (u.slots p.1 p.2).count i) (l, s) fun p hne => by
      rw [hother p.1 p.2 fun he => hne (Prod.ext he.1 he.2)]
  rw [hp]
  dsimp only at this
  omega

theorem total_addEntry (t : Timer D H) (l : Fin numLevels) (i w j : Nat) :
    (t.addEntry l i w).total j = t.total j + [i].count j := by
  have := total_slot (t := t) (u := t.addEntry l i w) (l := l) (s := Level.slotFor l w) (i := j)
    (n := 0) (m := [i].count j) (fun level slot hne => by rw [slots_addEntry, if_neg hne])
    (by rw [slots_addEntry, if_pos ⟨rfl, rfl⟩, List.count_append, Nat.add_zero]) rfl
  rwa [Nat.add_zero] at this

theorem total_takeEntries (t : Timer D H) (x : Expiration) (j : Nat) :
    (t.takeEntries x).2.total j + (t.slots x.level x.slot).count j = t.total j := by
  have := total_slot (t := t) (u := (t.takeEntries x).2) (l := x.level) (s := x.slot) (i := j)
    (n := (t.slots x.level x.slot).count j) (m := 0)
    (fun level slot hne => by rw [slots_takeEntries, if_neg hne])
    (by rw [slots_takeEntries, if_pos ⟨rfl, rfl⟩, List.count_nil, Nat.zero_add, Nat.add_zero]) rfl
  rwa [Nat.add_zero] at this

theorem total_cascade (t : Timer D H) (d i j : Nat) :
    (t.cascade d i).total j = t.total j + [i].count j := by
  unfold cascade
  split
  · exact total_append (t := t) (u := { t with pending := t.pending ++ [i] }) (fun _ _ => rfl) rfl j
  · exact total_addEntry t _ i _ j

theorem total_foldl (d : Nat) (l : List Nat) (t : Timer D H) (j : Nat) :
    (l.foldl (cascade d) t).total j = t.total j + l.count j := by
  induction l generalizing t with
  | nil => rw [List.foldl_nil, List.count_nil, Nat.add_zero]
  | cons i l ih =>
    have : (i :: l).count j = [i].count j + l.count j := by
      rw [← List.count_append]
      rfl
    rw [List.foldl_cons, ih, total_cascade, this, Nat.add_assoc]

theorem total_processExpiration (t : Timer D H) (x : Expiration) (j : Nat) :
    (t.processExpiration x).total j = t.total j := by
  rw [← total_takeEntries t x j]
  by_cases h0 : x.level = 0
  · have hdef : t.processExpiration x = { (t.takeEntries x).2 with
        pending := t.pending ++ t.slots x.level x.slot } := if_pos h0
    rw [hdef]
    exact total_append (t := (t.takeEntries x).2) (u := { (t.takeEntries x).2 with
      pending := t.pending ++ t.slots x.level x.slot }) (fun _ _ => rfl) rfl j
  · have hdef : t.processExpiration x =
        (t.slots x.level x.slot).foldl (cascade x.deadline) (t.takeEntries x).2 := if_neg h0
    rw [hdef]
    exact total_foldl x.deadline (t.slots x.level x.slot) (t.takeEntries x).2 j

/-- **A round moves entries.**  However the clock moves, none is lost or doubled. -/
theorem total_turn {now : Nat} (hp : t.pending = []) (hs : t.turn now = some u) (j : Nat) :
    u.total j = t.total j := by
  obtain ⟨x, -, -, rfl⟩ := turn_cases hs
  have ht : ({ t with pending := [] } : Timer D H) = t := by rw [← hp]
  rw [ht, ← total_processExpiration t x j]
  exact total_congr (fun _ _ => rfl) rfl j

/-- Executed or still there. -/
theorem total_expire (now fuel : Nat) (t : Timer D H) (j : Nat) :
    ((t.expire now fuel).2.map (·.1)).count j + (t.expire now fuel).1.total j = t.total j := by
  induction fuel generalizing t with
  | zero => exact Nat.zero_add _
  | succ fuel ih =>
    have hflush := total_append (t := { t with pending := [] }) (u := t) (l := t.pending)
      (fun _ _ => rfl) rfl j
    unfold Timer.expire
    cases hs : t.turn now with
    | none =>
      simp only [executed_fst]
      omega
    | some u =>
      have hturn := total_turn (t := { t with pending := [] }) rfl hs j
      have := ih u
      simp only [List.map_append, executed_fst, List.count_append]
      omega

/-- What is executed is what the entry was before the call. -/
theorem expire_execute (now fuel : Nat) (t : Timer D H) :
    ∀ p ∈ (t.expire now fuel).2, p.2 = (t.entries p.1).execute := by
  have hexec : ∀ p ∈ t.executed, p.2 = (t.entries p.1).execute := by
    intro p hp
    obtain ⟨i, -, rfl⟩ := List.mem_map.1 hp
    rfl
  induction fuel generalizing t with
  | zero =>
    intro p hp
    cases hp
  | succ fuel ih =>
    intro p hp
    unfold Timer.expire at hp
    cases hs : t.turn now with
    | none =>
      simp only [hs] at hp
      exact hexec p hp
    | some u =>
      simp only [hs, List.mem_append] at hp
      rcases hp with hp | hp
      · exact hexec p hp
      · rw [← (turn_kept hs).entries]
        refine ih u (fun p hp => ?_) p hp
        obtain ⟨i, -, rfl⟩ := List.mem_map.1 hp
        rfl

/-- What a call of `handle_expired_entries` with this log leaves. -/
structure Called (t : Timer D H) (log : Log D H) (u : Timer D H) : Prop where
  marked : ∀ level, (u.levels level).Marked
  pending : u.pending = []
  entries : u.entries = t.entries
  made : u.made = t.made
  stored : ∀ i, u.Stored i → t.Stored i
  mem : ∀ i ∈ log.map (·.1), i ∈ t.pending ∨ t.Stored i
  execute : ∀ p ∈ log, p.2 = (t.entries p.1).execute
  total : ∀ j, (log.map (·.1)).count j + u.total j = t.total j

theorem handleExpiredEntries_called (hm : ∀ level, (t.levels level).Marked) (currentMs : Nat) :
    Called t (t.handleExpiredEntries currentMs).2 (t.handleExpiredEntries currentMs).1 := by
  obtain ⟨h1, h2, h3, -, h5, h6, h7⟩ := expire_kept hm
    (Nat.lt_succ_self (currentMs - t.startTime - t.elapsed))
  exact ⟨h2, h1, h3, h5, h6, h7,
    expire_execute (currentMs - t.startTime) (currentMs - t.startTime - t.elapsed + 1) t,
    total_expire (currentMs - t.startTime) (currentMs - t.startTime - t.elapsed + 1) t⟩

/-- `u` has one entry more, in the wheel. -/
structure Added (t : Timer D H) (entry : Entry D H) (u : Timer D H) : Prop where
  pending : u.pending = t.pending
  made : u.made = t.made + 1
  entries : u.entries = Function.update t.entries t.made entry
  marked : (∀ level, (t.levels level).Marked) → ∀ level, (u.levels level).Marked
  stored : ∀ j, u.Stored j ↔ t.Stored j ∨ j = t.made
  total : ∀ j, u.total j = t.total j + [t.made].count j

theorem insertEntry_added {entry : Entry D H} {i : Nat} (h : t.insertEntry entry = .ok (u, i)) :
    i = t.made ∧ Added t entry u := by
  unfold insertEntry at h
  split at h
  · cases h
  · cases h
    refine ⟨rfl, rfl, rfl, rfl, fun hm => marked_addEntry (t := (t.make entry).1) hm _ _ _,
      fun j => stored_addEntry, fun j => (total_addEntry _ _ _ _ j).trans ?_⟩
    congr 1

namespace Added

variable {entry : Entry D H}

theorem total_new (h : Added t entry u) : u.total t.made = t.total t.made + 1 := by
  rw [h.total, List.count_singleton_self]

theorem total_old (h : Added t entry u) {j : Nat} (hj : j ≠ t.made) : u.total j = t.total j := by
  rw [h.total, List.count_eq_zero_of_not_mem (fun he => hj (List.mem_singleton.1 he)),
    Nat.add_zero]

theorem entries_new (h : Added t entry u) : u.entries t.made = entry := by
  rw [h.entries, Function.update_self]

theorem entries_old (h : Added t entry u) {j : Nat} (hj : j ≠ t.made) :
    u.entries j = t.entries j := by
  rw [h.entries, Function.update_of_ne hj]

theorem stored_lt (h : Added t entry u) (hs : ∀ i, t.Stored i → i < t.made) {j : Nat}
    (hj : u.Stored j) : j < u.made := by
  rw [h.made]
  rcases (h.stored j).1 hj with hj | rfl
  · exact Nat.lt_succ_of_lt (hs j hj)
  · exact Nat.lt_succ_self _

end Added

/-- The next entry is nowhere yet. -/
theorem total_made (hp : t.pending = []) (hs : ∀ i, t.Stored i → i < t.made) :
    t.total t.made = 0 := by
  by_contra h0
  rcases total_pos.1 (Nat.pos_of_ne_zero h0) with hi | hi
  · exact lt_irrefl _ (hs _ hi)
  · rw [hp] at hi
    cases hi

end Kosio.Runtime.Timer
