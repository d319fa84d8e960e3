import Kosio.Runtime.Timer.Wheel

/-!
# `next_expiration` as a lower bound

A round of the loop in `handle_expired_entries` keeps the placement of entries
as long as the wheel is out of conflict (`Inv.turn`), so the deadlines it jumps
to, and the one the driver sleeps to, are lower bounds in exactly the runs that
never get into conflict (`lower_bound_iff`).
-/

namespace Kosio.Runtime

open Steps

namespace Timer

variable {D H : Type} {t u : Timer D H} {now : Nat}

/-! ## Spreading a slot -/

/-- Half way through a slot: `rest` is still to be spread. -/
structure Mid (old : Timer D H) (x : Expiration) (rest : List Nat) (t : Timer D H) : Prop where
  entries : t.entries = old.entries
  sameMade : t.made = old.made
  startTime : t.startTime = old.startTime
  placed : ∀ level slot, ∀ i ∈ t.slots level slot, Placed x.deadline level slot (old.when_ i)
  marked : ∀ level, (t.levels level).Marked
  sorted : ∀ level slot, (t.slots level slot).Pairwise (· < ·)
  made : ∀ level slot, ∀ i ∈ t.slots level slot, i < old.made
  pendingSorted : t.pending.Pairwise (· < ·)
  pendingWhen : ∀ i ∈ t.pending, old.when_ i = x.deadline
  pendingBefore : ∀ i ∈ t.pending, ∀ j ∈ rest, i < j
  /-- where entries still go there is nothing but what came from this slot -/
  before : ∀ level slot, level < x.level ∨ (level = x.level ∧ slot = x.slot) →
    ∀ i ∈ t.slots level slot, ∀ j ∈ rest, i < j
  stored : ∀ i, old.Stored i ↔ t.Stored i ∨ i ∈ t.pending ∨ i ∈ rest

theorem when_congr (h1 : t.entries = u.entries) (h2 : t.startTime = u.startTime) (i : Nat) :
    t.when_ i = u.when_ i := by
  unfold when_
  rw [h1, h2]

theorem stored_addEntry {l : Fin numLevels} {i j w : Nat} :
    (t.addEntry l i w).Stored j ↔ t.Stored j ∨ j = i := by
  constructor
  · rintro ⟨level, slot, hj⟩
    rcases mem_slots_addEntry.1 hj with hj | ⟨hj, -⟩
    · exact Or.inl ⟨level, slot, hj⟩
    · exact Or.inr hj
  · rintro (⟨level, slot, hj⟩ | rfl)
    · exact ⟨level, slot, mem_slots_addEntry.2 (Or.inl hj)⟩
    · exact ⟨l, _, mem_slots_addEntry.2 (Or.inr ⟨rfl, rfl, rfl⟩)⟩

/-- Entries of a slot go down, or, in the top level, back to the same slot. -/
theorem levelFor_of_slot {old : Timer D H} {x : Expiration} {j : Nat}
    (hlow : x.level.val < 5 → reach x.level (old.when_ j) = x.deadline)
    (hslot : x.slot = Level.slotFor x.level (old.when_ j)) (hlt : x.deadline < old.when_ j) :
    levelFor x.deadline (old.when_ j) < x.level ∨ (levelFor x.deadline (old.when_ j) = x.level ∧
      Level.slotFor (levelFor x.deadline (old.when_ j)) (old.when_ j) = x.slot) := by
  by_cases hl : x.level.val < 5
  · left
    refine levelFor_lt hlt ?_
    rw [← hlow hl, reach, Nat.mul_div_cancel _ (Nat.pow_pos (by decide))]
  · rcases lt_or_eq_of_le (show levelFor x.deadline (old.when_ j) ≤ x.level by
      have := (levelFor x.deadline (old.when_ j)).isLt
      show (levelFor x.deadline (old.when_ j)).val ≤ x.level.val
      unfold numLevels at this
      omega) with h | h
    · exact Or.inl h
    · exact Or.inr ⟨h, by rw [h, ← hslot]⟩

theorem Mid.cascade {old : Timer D H} {x : Expiration} {j : Nat} {rest : List Nat}
    (h : Mid old x (j :: rest) t) (hrest : ∀ k ∈ rest, j < k) (hge : x.deadline ≤ old.when_ j)
    (hlow : x.level.val < 5 → reach x.level (old.when_ j) = x.deadline)
    (hslot : x.slot = Level.slotFor x.level (old.when_ j)) (hj : j < old.made) :
    Mid old x rest (t.cascade x.deadline j) := by
  have hw : t.when_ j = old.when_ j := when_congr h.entries h.startTime j
  have hjr := fun i (hi : i < j) k (hk : k ∈ rest) => lt_trans hi (hrest k hk)
  unfold Timer.cascade
  rw [hw]
  split
  · next hle =>
    refine ⟨h.entries, h.sameMade, h.startTime, h.placed, h.marked, h.sorted, h.made, ?_, ?_, ?_, ?_, ?_⟩
    · show (t.pending ++ [j]).Pairwise (· < ·)
      rw [List.pairwise_append]
      refine ⟨h.pendingSorted, List.pairwise_singleton _ _, fun i hi k hk => ?_⟩
      rw [List.mem_singleton.1 hk]
      exact h.pendingBefore i hi j List.mem_cons_self
    · intro i hi
      rcases List.mem_append.1 hi with hi | hi
      · exact h.pendingWhen i hi
      · rw [List.mem_singleton.1 hi]
        omega
    · intro i hi k hk
      rcases List.mem_append.1 hi with hi | hi
      · exact h.pendingBefore i hi k (List.mem_cons_of_mem _ hk)
      · rw [List.mem_singleton.1 hi]
        exact hrest k hk
    · exact fun level slot hls i hi k hk => h.before level slot hls i hi k (List.mem_cons_of_mem _ hk)
    · intro i
      show old.Stored i ↔ t.Stored i ∨ i ∈ t.pending ++ [j] ∨ i ∈ rest
      rw [h.stored i, List.mem_append, List.mem_cons, List.mem_singleton]
      tauto
  · next hgt =>
    have hlt : x.deadline < old.when_ j := by omega
    have hgo := levelFor_of_slot hlow hslot hlt
    generalize hl : levelFor x.deadline (old.when_ j) = l at hgo ⊢
    refine ⟨h.entries, h.sameMade, h.startTime, ?_, marked_addEntry h.marked l j _, ?_, ?_,
      h.pendingSorted, h.pendingWhen, ?_, ?_, ?_⟩
    · intro level slot i hi
      rcases mem_slots_addEntry.1 hi with hi | ⟨rfl, rfl, rfl⟩
      · exact h.placed level slot i hi
      · rw [← hl]
        exact placed_levelFor hlt
    · intro level slot
      rw [slots_addEntry]
      split
      · next hls =>
        obtain ⟨rfl, rfl⟩ := hls
        rw [List.pairwise_append]
        refine ⟨h.sorted _ _, List.pairwise_singleton _ _, fun i hi k hk => ?_⟩
        rw [List.mem_singleton.1 hk]
        exact h.before _ _ hgo i hi j List.mem_cons_self
      · exact h.sorted level slot
    · intro level slot i hi
      rcases mem_slots_addEntry.1 hi with hi | ⟨rfl, -⟩
      · exact h.made level slot i hi
      · exact hj
    · exact fun i hi k hk => h.pendingBefore i hi k (List.mem_cons_of_mem _ hk)
    · intro level slot hls i hi k hk
      rcases mem_slots_addEntry.1 hi with hi | ⟨rfl, -⟩
      · exact h.before level slot hls i hi k (List.mem_cons_of_mem _ hk)
      · exact hrest k hk
    · intro i
      rw [h.stored i, stored_addEntry, List.mem_cons]
      show _ ↔ _ ∨ i ∈ t.pending ∨ _
      tauto

theorem Mid.foldl {old : Timer D H} {x : Expiration} {rest : List Nat} (h : Mid old x rest t)
    (hsorted : rest.Pairwise (· < ·)) (hge : ∀ j ∈ rest, x.deadline ≤ old.when_ j)
    (hlow : x.level.val < 5 → ∀ j ∈ rest, reach x.level (old.when_ j) = x.deadline)
    (hslot : ∀ j ∈ rest, x.slot = Level.slotFor x.level (old.when_ j))
    (hmade : ∀ j ∈ rest, j < old.made) : Mid old x [] (rest.foldl (Timer.cascade x.deadline) t) := by
  induction rest generalizing t with
  | nil => exact h
  | cons j rest ih =>
    rw [List.pairwise_cons] at hsorted
    simp only [List.mem_cons, forall_eq_or_imp] at hge hslot hmade
    have hlow1 := fun hl => hlow hl j List.mem_cons_self
    have hlow2 := fun hl k hk => hlow hl k (List.mem_cons_of_mem _ hk)
    exact ih (h.cascade hsorted.1 hge.1 hlow1 hslot.1 hmade.1) hsorted.2 hge.2 hlow2 hslot.2 hmade.2

/-- Spreading a slot whose entries are all due appends it to `pending_`. -/
theorem foldl_cascade_due {d : Nat} (l : List Nat) (t : Timer D H) (h : ∀ i ∈ l, t.when_ i ≤ d) :
    l.foldl (Timer.cascade d) t = { t with pending := t.pending ++ l } := by
  induction l generalizing t with
  | nil => simp
  | cons i l ih =>
    simp only [List.mem_cons, forall_eq_or_imp] at h
    have hi : t.cascade d i = { t with pending := t.pending ++ [i] } := if_pos h.1
    rw [List.foldl_cons, hi]
    refine (ih { t with pending := t.pending ++ [i] } h.2).trans ?_
    simp only [List.append_assoc, List.singleton_append]

/-- **A slot is spread.** -/
theorem Inv.processExpiration (h : t.Inv) (hc : ¬ t.Conflict) (hp : t.pending = [])
    {x : Expiration} (hx : t.nextExpiration = some x) : Mid t x [] (t.processExpiration x) := by
  obtain ⟨hhere, hge, hother⟩ := h.nextExpiration hc hx
  have hlow := (nextExpiration_eq h.marked hx).2.1
  have hgt := deadline_gt h.marked hx
  have hdef : t.processExpiration x =
      (t.slots x.level x.slot).foldl (Timer.cascade x.deadline) (t.takeEntries x).2 := by
    show (if x.level = 0 then _ else _) = _
    by_cases h0 : x.level = 0
    · rw [if_pos h0, foldl_cascade_due]
      · rfl
      · intro i hi
        have h1 := hhere (by rw [h0]; decide) i hi
        rw [h0, reach] at h1
        show t.when_ i ≤ x.deadline
        simpa using h1.le
    · rw [if_neg h0]
      rfl
  rw [hdef]
  have hnot : ∀ {level slot i}, i ∈ (t.takeEntries x).2.slots level slot →
      ¬ (level = x.level ∧ slot = x.slot) ∧ i ∈ t.slots level slot := by
    intro level slot i hi
    rw [slots_takeEntries] at hi
    split at hi
    · cases hi
    · exact ⟨‹_›, hi⟩
  refine Mid.foldl ⟨rfl, rfl, rfl, ?_, marked_takeEntries h.marked x, ?_, ?_, ?_, ?_, ?_, ?_, ?_⟩
    (h.sorted _ _) (fun j hj => (hge j hj).trans reach_le) hhere
    (fun j hj => (h.placed _ _ j hj).slot) (h.made _ _)
  · intro level slot i hi
    obtain ⟨hne, hi⟩ := hnot hi
    exact (h.placed level slot i hi).later (le_of_lt hgt) (hother level slot hne i hi)
  · intro level slot
    rw [slots_takeEntries]
    split
    · exact List.Pairwise.nil
    · exact h.sorted level slot
  · exact fun level slot i hi => h.made level slot i (hnot hi).2
  · show t.pending.Pairwise (· < ·)
    rw [hp]
    exact List.Pairwise.nil
  · intro i hi
    have hi' : i ∈ t.pending := hi
    rw [hp] at hi'
    cases hi'
  · intro i hi
    have hi' : i ∈ t.pending := hi
    rw [hp] at hi'
    cases hi'
  · intro level slot hls i hi
    obtain ⟨hne, hi⟩ := hnot hi
    rw [hlow level (hls.resolve_right hne) slot] at hi
    cases hi
  · intro i
    show t.Stored i ↔ _ ∨ i ∈ t.pending ∨ _
    rw [hp]
    constructor
    · rintro ⟨level, slot, hi⟩
      by_cases hls : level = x.level ∧ slot = x.slot
      · obtain ⟨rfl, rfl⟩ := hls
        exact Or.inr (Or.inr hi)
      · refine Or.inl ⟨level, slot, ?_⟩
        rwa [slots_takeEntries, if_neg hls]
    · rintro (⟨level, slot, hi⟩ | hi | hi)
      · exact ⟨level, slot, (hnot hi).2⟩
      · cases hi
      · exact ⟨_, _, hi⟩

/-! ## A round of the loop -/

/-- What a round does: `u` is at the deadline, and what was due there is pending. -/
structure Turned (t u : Timer D H) : Prop where
  inv : u.Inv
  entries : u.entries = t.entries
  made : u.made = t.made
  startTime : u.startTime = t.startTime
  elapsed : t.elapsed < u.elapsed
  sorted : u.pending.Pairwise (· < ·)
  due : ∀ i ∈ u.pending, t.when_ i = u.elapsed
  stored : ∀ i, t.Stored i ↔ u.Stored i ∨ i ∈ u.pending

theorem Inv.turn (h : t.Inv) (hc : ¬ t.Conflict) (hs : t.turn now = some u) :
    Turned t u ∧ u.elapsed ≤ now := by
  unfold Timer.turn at hs
  have h' : Inv { t with pending := [] } := ⟨h.placed, h.marked, h.sorted, h.made⟩
  cases hx : ({ t with pending := [] } : Timer D H).nextExpiration with
  | none => simp [hx] at hs
  | some x =>
    simp only [hx, Option.ite_none_left_eq_some, Option.some.injEq, not_lt] at hs
    obtain ⟨hle, rfl⟩ := hs
    have hm := h'.processExpiration hc rfl hx
    have hw : ∀ i, ({ t with pending := [] } : Timer D H).when_ i = t.when_ i := fun _ => rfl
    generalize ({ t with pending := [] } : Timer D H).processExpiration x = v at hm
    have hwv : ∀ i, v.when_ i = t.when_ i := fun i => when_congr hm.entries hm.startTime i
    refine ⟨⟨⟨?_, hm.marked, hm.sorted, ?_⟩, hm.entries, hm.sameMade, hm.startTime, deadline_gt h'.marked hx,
      hm.pendingSorted, hm.pendingWhen, ?_⟩, hle⟩
    · intro level slot i hi
      have := hm.placed level slot i hi
      rw [hw, ← hwv] at this
      exact this
    · intro level slot i hi
      exact hm.sameMade.symm ▸ hm.made level slot i hi
    · intro i
      exact (hm.stored i).trans (by simp; rfl)

/-- The loop ends when no slot starts before `now`. -/
theorem Inv.turn_none (h : t.Inv) (hc : ¬ t.Conflict) (hs : t.turn now = none)
    {level : Fin numLevels} {slot : Fin levelMult} {i : Nat} (hi : i ∈ t.slots level slot) :
    now < reach level (t.when_ i) := by
  have h' : Inv { t with pending := [] } := ⟨h.placed, h.marked, h.sorted, h.made⟩
  unfold Timer.turn at hs
  rcases nextExpiration_cases h'.marked with ⟨-, he⟩ | ⟨x, hx, -⟩
  · have he' : t.slots level slot = [] := he level slot
    rw [he'] at hi
    cases hi
  · simp only [hx] at hs
    split at hs
    · next hgt => exact lt_of_lt_of_le hgt (h'.deadline_le hc hx hi)
    · cases hs

/-! ## The loop -/

theorem marked_processExpiration (h : ∀ level, (t.levels level).Marked) (x : Expiration)
    (level : Fin numLevels) : ((t.processExpiration x).levels level).Marked := by
  have hfold : ∀ (l : List Nat) (v : Timer D H), (∀ level, (v.levels level).Marked) →
      ∀ level, ((l.foldl (Timer.cascade x.deadline) v).levels level).Marked := by
    intro l
    induction l with
    | nil => exact fun v hv => hv
    | cons i l ih =>
      intro v hv
      refine ih _ ?_
      unfold Timer.cascade
      split
      · exact hv
      · exact marked_addEntry hv _ _ _
  have ht := marked_takeEntries h x
  show ((if x.level = 0 then _ else _ : Timer D H).levels level).Marked
  split
  · exact ht level
  · exact hfold _ _ ht level

/-- A round moves the time on, in conflict or not. -/
theorem turn_elapsed (h : ∀ level, (t.levels level).Marked) (hs : t.turn now = some u) :
    t.elapsed < u.elapsed ∧ u.elapsed ≤ now ∧ ∀ level, (u.levels level).Marked := by
  unfold Timer.turn at hs
  cases hx : ({ t with pending := [] } : Timer D H).nextExpiration with
  | none => simp [hx] at hs
  | some x =>
    simp only [hx, Option.ite_none_left_eq_some, Option.some.injEq, not_lt] at hs
    obtain ⟨hle, rfl⟩ := hs
    exact ⟨deadline_gt (t := { t with pending := [] }) h hx, hle,
      marked_processExpiration (t := { t with pending := [] }) h x⟩

/-- **The loop ends.**  A turn for each millisecond is always enough. -/
theorem expire_fuel {f g : Nat} (h : ∀ level, (t.levels level).Marked)
    (hf : now - t.elapsed < f) (hg : now - t.elapsed < g) : t.expire now f = t.expire now g := by
  induction f generalizing t g with
  | zero => omega
  | succ f ih =>
    cases g with
    | zero => omega
    | succ g =>
      unfold Timer.expire
      cases hs : t.turn now with
      | none => rfl
      | some u =>
        obtain ⟨h1, h2, h3⟩ := turn_elapsed h hs
        simp only [ih h3 (g := g) (by omega) (by omega)]

/-- **A call.**  Given fuel for every millisecond it executes what is pending
and what is due by `now`, in order. -/
structure Expired (t v : Timer D H) (now : Nat) (log : List Nat) : Prop where
  inv : Inv { v with elapsed := now }
  pending : v.pending = []
  entries : v.entries = t.entries
  made : v.made = t.made
  startTime : v.startTime = t.startTime
  sorted : log.Pairwise fun i j => t.when_ i < t.when_ j ∨ (t.when_ i = t.when_ j ∧ i < j)
  mem : ∀ i, i ∈ log ↔ i ∈ t.pending ∨ (t.Stored i ∧ t.when_ i ≤ now)
  stored : ∀ i, v.Stored i ↔ t.Stored i ∧ now < t.when_ i

theorem Inv.expire_none (h : t.Inv) (hc : ¬ t.Conflict) (hs : t.turn now = none)
    (he : t.elapsed ≤ now) (hsorted : t.pending.Pairwise (· < ·))
    (hdue : ∀ i ∈ t.pending, t.when_ i = t.elapsed) :
    Expired t { t with pending := [] } now t.pending := by
  have hlater : ∀ {level slot i}, i ∈ t.slots level slot → now < reach level (t.when_ i) :=
    h.turn_none hc hs
  have hgt : ∀ i, t.Stored i → now < t.when_ i := by
    rintro i ⟨level, slot, hi⟩
    exact lt_of_lt_of_le (hlater hi) reach_le
  refine ⟨⟨fun level slot i hi => ?_, h.marked, h.sorted, h.made⟩, rfl, rfl, rfl, rfl, ?_, ?_, ?_⟩
  · exact (h.placed level slot i hi).later he (hlater hi)
  · refine hsorted.imp_of_mem fun {i j} hi hj hij => Or.inr ⟨?_, hij⟩
    rw [hdue i hi, hdue j hj]
  · intro i
    constructor
    · exact Or.inl
    · rintro (hi | ⟨hi, hle⟩)
      · exact hi
      · exact absurd (hgt i hi) (by omega)
  · exact fun i => ⟨fun hi => ⟨hi, hgt i hi⟩, fun hi => hi.1⟩

theorem Turned.expired (h : Turned t u) {v : Timer D H} {log : List Nat} (hv : Expired u v now log)
    (ht : t.Inv) (hle : u.elapsed ≤ now) (hsorted : t.pending.Pairwise (· < ·))
    (hdue : ∀ i ∈ t.pending, t.when_ i = t.elapsed) : Expired t v now (t.pending ++ log) := by
  have hw : ∀ i, u.when_ i = t.when_ i := fun i => when_congr h.entries h.startTime i
  -- what is executed later was stored or is due at the deadline
  have hlog : ∀ i ∈ log, t.Stored i := by
    intro i hi
    rw [h.stored]
    exact ((hv.mem i).1 hi).elim Or.inr fun hi => Or.inl hi.1
  refine ⟨hv.inv, hv.pending, hv.entries.trans h.entries, hv.made.trans h.made,
    hv.startTime.trans h.startTime, ?_, ?_, ?_⟩
  · rw [List.pairwise_append]
    refine ⟨?_, ?_, ?_⟩
    · refine hsorted.imp_of_mem fun {i j} hi hj hij => Or.inr ⟨?_, hij⟩
      rw [hdue i hi, hdue j hj]
    · simpa only [hw] using hv.sorted
    · intro i hi j hj
      left
      rw [hdue i hi]
      exact ht.stored_lt (hlog j hj)
  · intro i
    rw [List.mem_append, hv.mem, h.stored, hw]
    have := h.due i
    constructor
    · rintro (hi | hi | hi)
      · exact Or.inl hi
      · exact Or.inr ⟨Or.inr hi, by rw [this hi]; exact hle⟩
      · exact Or.inr ⟨Or.inl hi.1, hi.2⟩
    · rintro (hi | ⟨hi | hi, hle'⟩)
      · exact Or.inl hi
      · exact Or.inr (Or.inr ⟨hi, hle'⟩)
      · exact Or.inr (Or.inl hi)
  · intro i
    rw [hv.stored, h.stored, hw]
    have := h.due i
    constructor
    · exact fun hi => ⟨Or.inl hi.1, hi.2⟩
    · rintro ⟨hi | hi, hlt⟩
      · exact ⟨hi, hlt⟩
      · exact absurd hlt (by rw [this hi]; omega)

theorem executed_fst (t : Timer D H) : t.executed.map (·.1) = t.pending := by
  rw [executed, List.map_map]
  exact List.map_id _

theorem Inv.expire {fuel : Nat} (h : t.Inv) (hfuel : now < t.elapsed + fuel)
    (he : t.elapsed ≤ now) (hsorted : t.pending.Pairwise (· < ·))
    (hdue : ∀ i ∈ t.pending, t.when_ i = t.elapsed) (hc : ∀ u ∈ t.heads now fuel, ¬ u.Conflict) :
    Expired t (t.expire now fuel).1 now ((t.expire now fuel).2.map (·.1)) := by
  induction fuel generalizing t with
  | zero => omega
  | succ fuel ih =>
    have hc0 : ¬ t.Conflict := hc t List.mem_cons_self
    unfold Timer.expire
    cases hs : t.turn now with
    | none =>
      simp only [executed_fst]
      exact h.expire_none hc0 hs he hsorted hdue
    | some u =>
      obtain ⟨hu, hle⟩ := h.turn hc0 hs
      have hw : ∀ i, u.when_ i = t.when_ i := fun i => when_congr hu.entries hu.startTime i
      have hgt := hu.elapsed
      have hc' : ∀ v ∈ u.heads now fuel, ¬ v.Conflict := by
        intro v hv
        refine hc v (List.mem_cons_of_mem _ ?_)
        rw [hs]
        exact hv
      have := ih hu.inv (by omega) hle hu.sorted (fun i hi => (hw i).trans (hu.due i hi)) hc'
      simp only [List.map_append, executed_fst]
      exact hu.expired this h hle hsorted hdue

/-! ## Inserting -/

theorem Inv.insertEntry (h : t.Inv) {entry : Entry D H} {i : Nat}
    (hs : t.insertEntry entry = .ok (u, i)) :
    u.Inv ∧ i = t.made ∧ u.made = t.made + 1 ∧ u.startTime = t.startTime ∧ u.elapsed = t.elapsed ∧
      u.pending = t.pending ∧ u.entries = Function.update t.entries t.made entry ∧
      t.startTime + t.elapsed < entry.expirationTime ∧
      ∀ j, u.Stored j ↔ t.Stored j ∨ j = i := by
  unfold Timer.insertEntry at hs
  split at hs
  · cases hs
  · next hgt =>
    cases hs
    have hlt : t.elapsed < entry.expirationTime - t.startTime := by omega
    generalize hw : entry.expirationTime - t.startTime = w at hlt
    have hold : ∀ j, j < t.made → (t.make entry).1.when_ j = t.when_ j := by
      intro j hj
      have : j ≠ t.made := by omega
      simp [when_, make, this]
    have hnew : (t.make entry).1.when_ t.made = w := by
      simp [when_, make, hw]
    refine ⟨⟨?_, ?_, ?_, ?_⟩, rfl, rfl, rfl, rfl, rfl, rfl, by omega, fun j => stored_addEntry⟩
    · intro level slot j hj
      rcases mem_slots_addEntry.1 hj with hj | ⟨rfl, rfl, rfl⟩
      · have := h.placed level slot j hj
        rw [← hold j (h.made level slot j hj)] at this
        exact this
      · show Placed t.elapsed _ _ ((t.make entry).1.when_ t.made)
        rw [hnew]
        exact placed_levelFor hlt
    · exact marked_addEntry (t := (t.make entry).1) h.marked _ _ _
    · intro level slot
      rw [slots_addEntry]
      split
      · rw [List.pairwise_append]
        refine ⟨h.sorted level slot, List.pairwise_singleton _ _, fun a ha b hb => ?_⟩
        rw [List.mem_singleton.1 hb]
        exact h.made level slot a ha
      · exact h.sorted level slot
    · intro level slot j hj
      show j < t.made + 1
      rcases mem_slots_addEntry.1 hj with hj | ⟨rfl, -⟩
      · exact Nat.lt_succ_of_lt (h.made level slot j hj)
      · exact Nat.lt_succ_self _

/-- Lazy removal of an io entry moves nothing. -/
theorem remove_data {i : Nat} (hn : (t.entries i).handle.isNone) :
    t.remove i = t.setEntry i { t.entries i with data := none } := by
  unfold remove
  have : ((t.setEntry i { t.entries i with data := none }).entries i).handle = none := by
    simpa [setEntry] using hn
  simp only [this]

/-- A field other than `data_`, of any entry. -/
theorem field_clearData {β : Type*} (f : Entry D H → β)
    (hf : ∀ entry : Entry D H, f { entry with data := none } = f entry) (i j : Nat) :
    f ((t.setEntry i { t.entries i with data := none }).entries j) = f (t.entries j) := by
  show f (Function.update t.entries i _ j) = _
  by_cases hj : j = i
  · rw [hj, Function.update_self, hf]
  · rw [Function.update_of_ne hj]

theorem when_setEntry {i : Nat} {entry : Entry D H}
    (he : entry.expirationTime = (t.entries i).expirationTime) (j : Nat) :
    (t.setEntry i entry).when_ j = t.when_ j := by
  unfold when_ setEntry
  by_cases hj : j = i
  · subst hj
    simp [he]
  · simp [hj]

theorem Inv.setEntry (h : t.Inv) {i : Nat} {entry : Entry D H}
    (he : entry.expirationTime = (t.entries i).expirationTime) : (t.setEntry i entry).Inv := by
  refine ⟨fun level slot j hj => ?_, h.marked, h.sorted, h.made⟩
  rw [when_setEntry he]
  exact h.placed level slot j hj

/-! ## The bound -/

/-- A slot that holds something and a deadline that no stored entry is before. -/
def LowerBound (t : Timer D H) : Prop :=
  (∃ i, t.Stored i) → ∃ x, t.nextExpiration = some x ∧ t.slots x.level x.slot ≠ [] ∧
    t.elapsed < x.deadline ∧ ∀ i, t.Stored i → x.deadline ≤ t.when_ i

/-- In conflict the deadline is a whole round ahead. -/
theorem Inv.conflict_deadline (h : t.Inv) (hc : t.Conflict) {x : Expiration}
    (hx : t.nextExpiration = some x) :
    x.deadline = (t.elapsed / 64 ^ 5 + 64) * 64 ^ 5 := by
  obtain ⟨hempty, hcur, -⟩ := hc
  obtain ⟨hne, -, k, -, -, hd, hfirst⟩ := nextExpiration_eq h.marked hx
  have h5 : x.level = 5 := by
    by_contra hne5
    exact hne (hempty _ hne5 _)
  rw [h5] at hd hfirst
  have hk : k = 0 := by
    by_contra hk
    refine hfirst _ hcur 0 (by omega) ?_
    rw [slotFor_val, Nat.zero_add]
  rw [hd, if_pos hk]
  rfl

theorem Inv.lowerBound_iff (h : t.Inv) : t.LowerBound ↔ ¬ t.Conflict := by
  constructor
  · intro hb hc
    obtain ⟨slot, i, hi, hnear⟩ := hc.2.2
    have hi' : t.Stored i := ⟨5, slot, hi⟩
    obtain ⟨x, hx, -, -, hle⟩ := hb ⟨i, hi'⟩
    have h1 := hle i hi'
    rw [h.conflict_deadline hc hx] at h1
    rw [Nat.div_lt_iff_lt_mul (by decide)] at hnear
    omega
  · rintro hc ⟨i, level, slot, hi⟩
    rcases nextExpiration_cases h.marked with ⟨-, he⟩ | ⟨x, hx, -⟩
    · rw [he level slot] at hi
      cases hi
    · refine ⟨x, hx, (nextExpiration_eq h.marked hx).1, deadline_gt h.marked hx, ?_⟩
      rintro j ⟨level', slot', hj⟩
      exact (h.deadline_le hc hx hj).trans reach_le

/-- Up to the first conflict the loop keeps the placement, so the two are the same. -/
theorem Inv.heads_iff (h : t.Inv) (fuel : Nat) :
    (∀ u ∈ t.heads now fuel, u.LowerBound) ↔ ∀ u ∈ t.heads now fuel, ¬ u.Conflict := by
  induction fuel generalizing t with
  | zero => simp [heads]
  | succ fuel ih =>
    unfold heads
    rw [List.forall_mem_cons, List.forall_mem_cons, h.lowerBound_iff]
    refine and_congr_right fun hc => ?_
    cases hs : t.turn now with
    | none => simp
    | some u => exact ih (h.turn hc hs).1.inv

end Timer

namespace TimerRun

open Timer

variable {D H : Type}

/-- The invariant between operations. -/
structure Inv (s : State D H) : Prop where
  timer : s.timer.Inv
  pending : s.timer.pending = []

theorem inv_init (currentMs : Nat) : Inv (init currentMs : State D H) :=
  ⟨⟨nofun, fun _ => Level.marked_empty, fun _ _ => List.Pairwise.nil, nofun⟩, rfl⟩

/-- No state the step goes through is in conflict. -/
def Clear (s : State D H) (a : Act D H) (t : State D H) : Prop :=
  ∀ u ∈ visited s a t, ¬ u.Conflict

theorem Inv.inserted {s : State D H} (h : Inv s) (expirationTime : Nat) (entry : Entry D H) :
    Inv (inserted s expirationTime (s.timer.insertEntry entry)) := by
  cases hr : s.timer.insertEntry entry with
  | error e => exact h
  | ok p =>
    obtain ⟨hi, -, -, -, -, hp, -⟩ := h.timer.insertEntry hr
    exact ⟨hi, hp.trans h.pending⟩

/-- Inserting and removing need no condition. -/
theorem Inv.quiet {s t : State D H} {a : Act D H} (h : Inv s) (hs : step s a = some t)
    (ha : ∀ currentMs, a ≠ .handleExpiredEntries currentMs) : Inv t := by
  cases a with
  | insertData data expirationTime =>
    cases hs
    exact h.inserted _ _
  | insertHandle handle expirationTime =>
    cases hs
    exact h.inserted _ _
  | removeData entry =>
    simp only [step, Option.ite_none_right_eq_some, Option.some.injEq] at hs
    obtain ⟨⟨-, -, hn⟩, rfl⟩ := hs
    refine ⟨?_, ?_⟩
    · show (s.timer.remove entry).Inv
      rw [remove_data hn]
      exact h.timer.setEntry rfl
    · show (s.timer.remove entry).pending = []
      rw [remove_data hn]
      exact h.pending
  | handleExpiredEntries currentMs => exact absurd rfl (ha currentMs)

/-- What `handle_expired_entries` does out of conflict. -/
theorem Inv.expired {s t : State D H} {currentMs : Nat} (h : Inv s)
    (hs : step s (.handleExpiredEntries currentMs) = some t)
    (hc : ∀ u ∈ s.timer.heads (currentMs - s.timer.startTime)
      (currentMs - s.timer.startTime - s.timer.elapsed + 1), ¬ u.Conflict) :
    s.timer.startTime + s.timer.elapsed ≤ currentMs ∧
    ∃ v log, Expired s.timer v (currentMs - s.timer.startTime) log ∧
      t = { s with
        timer := { v with elapsed := currentMs - s.timer.startTime }
        calls := s.calls ++ [(currentMs, log)] } := by
  simp only [step, Option.ite_none_left_eq_some, Option.some.injEq, not_lt] at hs
  obtain ⟨hm, rfl⟩ := hs
  refine ⟨hm, _, _, h.timer.expire (by omega) (by omega) ?_ ?_ hc, rfl⟩
  · rw [h.pending]
    exact List.Pairwise.nil
  · rw [h.pending]
    exact nofun

theorem inv_step (s : State D H) (a : Act D H) (t : State D H) (h : Inv s)
    (hs : step s a = some t) (hc : Clear s a t) : Inv t := by
  by_cases ha : ∃ currentMs, a = .handleExpiredEntries currentMs
  · obtain ⟨currentMs, rfl⟩ := ha
    obtain ⟨-, v, log, he, rfl⟩ := h.expired hs fun u hu => hc u (List.mem_append_left _ hu)
    exact ⟨he.inv, he.pending⟩
  · exact h.quiet hs fun currentMs he => ha ⟨currentMs, he⟩

/-- The bound holds in the states of a step if and only if none is in conflict. -/
theorem visited_iff (s : State D H) (a : Act D H) (t : State D H) (h : Inv s)
    (hs : step s a = some t) : (∀ u ∈ visited s a t, u.LowerBound) ↔ Clear s a t := by
  by_cases ha : ∃ currentMs, a = .handleExpiredEntries currentMs
  · obtain ⟨currentMs, rfl⟩ := ha
    simp only [Clear, visited, List.forall_mem_append, List.forall_mem_singleton]
    rw [h.timer.heads_iff]
    refine and_congr_right fun hc => ?_
    obtain ⟨-, v, log, he, rfl⟩ := h.expired hs hc
    exact he.inv.lowerBound_iff
  · have hq := h.quiet hs fun currentMs he => ha ⟨currentMs, he⟩
    have hv : visited s a t = [t.timer] := by
      cases a with
      | handleExpiredEntries currentMs => exact absurd ⟨currentMs, rfl⟩ ha
      | _ => rfl
    rw [Clear, hv, List.forall_mem_singleton, List.forall_mem_singleton]
    exact hq.timer.lowerBound_iff

/-! ## Top theorems -/

/-- **The next deadline is a lower bound** in every state of a run, between
operations and at the head of the loop, if and only if none of them is in
conflict: whatever is inserted, whenever, and however the clock advances. -/
theorem lower_bound_iff (currentMs : Nat) (as : List (Act D H)) :
    EachStep step (fun s a t => ∀ u ∈ visited s a t, u.LowerBound) (init currentMs) as ↔
      EachStep step Clear (init currentMs) as :=
  eachStep_iff Inv inv_step visited_iff (inv_init currentMs)

/-- Just before the end of a top-level slot, a sleep a little shorter than
`MAX_DURATION` lands in the current slot, 64 slots ahead. -/
def conflictRun : List (Act Unit Unit) :=
  [.handleExpiredEntries (2 ^ 30 - 1), .insertHandle () (2 ^ 30 - 1 + (maxDuration - 1)),
   .insertHandle () (10 * 2 ^ 30)]

/-- The second sleep is due after `10 * 2^30` ms, the deadline is `2^36`. -/
theorem nearer_entry_missed :
    ∃ s, run step (init 0) conflictRun = some s ∧ s.timer.Stored 1 ∧
      s.timer.when_ 1 = 10 * 2 ^ 30 ∧ s.timer.nextExpirationTime = some (2 ^ 36 - (2 ^ 30 - 1)) ∧
      ¬ s.timer.LowerBound := by
  obtain ⟨s, hs, hslot, hdue, hnext, hfound⟩ := run_eval step (init 0) conflictRun
    (fun s => 1 ∈ s.timer.slots 5 10 ∧ s.timer.when_ 1 = 10 * 2 ^ 30 ∧
      s.timer.nextExpirationTime = some (2 ^ 36 - (2 ^ 30 - 1)) ∧
      s.timer.nextExpiration = some ⟨5, 0, 2 ^ 36⟩) (by decide +kernel)
  have hstored : s.timer.Stored 1 := ⟨5, 10, hslot⟩
  refine ⟨s, hs, hstored, hdue, hnext, fun h => ?_⟩
  obtain ⟨x, hx, -, -, hle⟩ := h ⟨1, hstored⟩
  have h1 := hle 1 hstored
  rw [hfound] at hx
  cases hx
  rw [hdue] at h1
  exact absurd h1 (by decide)

end TimerRun

end Kosio.Runtime
