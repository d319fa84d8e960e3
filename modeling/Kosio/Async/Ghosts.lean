import Kosio.Async.Frames

/-!
# Changing one thread

What has to be shown for `Inv` after a step: that the step keeps to the frames of
one thread and of the workers it involves, that the ownership works out, and the
picture of that thread and of those workers (`Inv.change`).  Everything else stays
because its frames do.
-/

namespace Kosio.Async

open Function Ownership
open Direct (TaskVal Level Thread Ctl)

variable {n : Nat} {P V E A W : Type} {code : P → Op n P V E A} {s s' : State n P V E A W}
  {threads : Handle → Option (Thread n P V E)} {g : Ghost W}

/-- `Inv` is not about the trace. -/
theorem Inv.withTrace (h : Inv code s threads g) (trace : List (Event V E A)) :
    Inv code { s with trace } threads g :=
  ⟨h.owned, h.old, h.thread, h.ended, h.nodup, h.ready, h.doomed, h.busy⟩

/-! ## Threads are apart -/

theorem Callers.root_mem {heap : Heap n P V E} {t : Handle} {caller : Option Handle}
    {callee : Handle} {ls : List (Level n P V E)} {m : Multiset Handle}
    (h : Callers heap t caller callee ls m) : t ∈ callee ::ₘ m := by
  induction h with
  | root => exact Multiset.mem_cons_self t 0
  | @level c callee f lv ls a b hg hs hex hsrc hl hc ih =>
    rw [Multiset.mem_cons] at ih ⊢
    refine .inr ?_
    rcases ih with rfl | ih
    · exact Multiset.mem_cons_self t _
    · exact Multiset.mem_cons_of_mem (Multiset.mem_add.2 (.inr ih))

theorem Rep.root_mem {heap : Heap n P V E} {leaf : Handle} {f : Frame n P V E}
    {th : Thread n P V E} {t : Handle} {m : Multiset Handle} (h : Rep heap leaf f th t m) :
    t ∈ m := by
  obtain ⟨-, a, b, -, hc, rfl⟩ := h
  rcases Multiset.mem_cons.1 hc.root_mem with rfl | ht
  · exact Multiset.mem_cons_self t _
  · exact Multiset.mem_cons_of_mem (Multiset.mem_add.2 (.inr ht))

theorem Rep.leaf_mem {heap : Heap n P V E} {leaf : Handle} {f : Frame n P V E}
    {th : Thread n P V E} {t : Handle} {m : Multiset Handle} (h : Rep heap leaf f th t m) :
    leaf ∈ m := by
  obtain ⟨-, a, b, -, -, rfl⟩ := h
  exact Multiset.mem_cons_self leaf _

theorem Inv.root_mem (h : Inv code s threads g) {t : Handle} {th : Thread n P V E}
    (ht : threads t = some th) : t ∈ g.ids (.inl t) := by
  obtain ⟨f, hrep, -⟩ := h.thread t th ht
  exact hrep.root_mem

/-- A name that no frame has is free. -/
theorem Inv.name_free (h : Inv code s threads g) {t : Handle} (ht : t ∉ g.ids (.inl t)) :
    threads t = none := by
  cases hth : threads t with
  | none => rfl
  | some th => exact absurd (h.root_mem hth) ht

theorem Inv.leaf_inj (h : Inv code s threads g) {t t' : Handle} {th th' : Thread n P V E}
    (ht : threads t = some th) (ht' : threads t' = some th') (hl : g.leaf t = g.leaf t') :
    t = t' := by
  obtain ⟨f, hrep, -⟩ := h.thread t th ht
  obtain ⟨f', hrep', -⟩ := h.thread t' th' ht'
  have h1 := hrep.leaf_mem
  have h2 := hrep'.leaf_mem
  rw [← hl] at h2
  exact Sum.inl_injective (h.owned.unique _ _ _ h1 h2)

/-- A worker runs one thread. -/
theorem Inv.running_inj (h : Inv code s threads g) {w : W} {t t' : Handle}
    {th th' : Thread n P V E} (ht : threads t = some th) (ht' : threads t' = some th')
    (hp : g.place t = .running w) (hp' : g.place t' = .running w) : t = t' := by
  obtain ⟨f, -, hat⟩ := h.thread t th ht
  obtain ⟨f', -, hat'⟩ := h.thread t' th' ht'
  rw [hp] at hat
  rw [hp'] at hat'
  obtain ⟨-, p, ts, next, -, hj, hn⟩ := hat
  obtain ⟨-, p', ts', next', -, hj', hn'⟩ := hat'
  rw [hj, Option.some.injEq, Job.mk.injEq] at hj'
  obtain ⟨-, rfl⟩ := hj'
  apply h.leaf_inj ht ht'
  rcases hn with ⟨rfl, -⟩ | ⟨rfl, -⟩ <;> rcases hn' with ⟨hn', -⟩ | ⟨hn', -⟩
  · exact (Next.exec.injEq .. ▸ hn').1
  · cases hn'
  · cases hn'
  · exact Next.finalSuspend.injEq .. ▸ hn'

theorem Inv.busy_of_running (h : Inv code s threads g) {w : W} {t : Handle} {th : Thread n P V E}
    (ht : threads t = some th) (hp : g.place t = .running w) : Busy (s.job w) := by
  obtain ⟨f, -, hat⟩ := h.thread t th ht
  rw [hp] at hat
  obtain ⟨-, p, ts, next, -, hj, hn⟩ := hat
  rw [hj]
  rcases hn with ⟨rfl, -⟩ | ⟨rfl, -⟩
  · exact fun he => by cases he
  · exact fun he => by cases he

/-! ## The change -/

/-- Thread `t` becomes `th?` (or ends) and the workers of `K` go on; the others stay. -/
theorem Inv.change (h : Inv code s threads g) {t : Handle} {th? : Option (Thread n P V E)}
    (leaf : Handle) (place : Place W) (ids : Handle ⊕ W → Multiset Handle) (K : W → Prop)
    (hids : ∀ t', t' ≠ t → ids (.inl t') = g.ids (.inl t'))
    (hrest : ∀ w, ¬ K w → ids (.inr w) = g.ids (.inr w) ∧ s'.job w = s.job w)
    (hheap : ∀ o, o ≠ .inl t → (∀ w, o = .inr w → ¬ K w) → ∀ x ∈ g.ids o, s'.heap x = s.heap x)
    (howned : Owned s'.live ids) (hold : ∀ x, s'.live x → x < s'.next)
    (hsome : ∀ th, th? = some th → ThreadOk code s' leaf place th t (ids (.inl t)))
    (hnone : th? = none → ids (.inl t) = 0)
    (hother : ∀ t' th w, t' ≠ t → threads t' = some th → g.place t' = .running w → K w →
      SameNext (s.job w) (s'.job w))
    (hthis : ∀ th w, threads t = some th → g.place t = .running w → K w)
    (hnd : s'.ready.Nodup)
    (hkeep : ∀ t' th, t' ≠ t → threads t' = some th → g.leaf t' ∈ s.ready → g.leaf t' ∈ s'.ready)
    (hfrom : ∀ x ∈ s'.ready, x = leaf ∧ place = .ready ∧ th?.isSome ∨
      x ∈ s.ready ∧ ∀ th, threads t = some th → x ≠ g.leaf t)
    (hwork : ∀ w, K w → Doomed s'.heap (doomedOf (s'.job w)) (ids (.inr w)) ∧
      (Busy (s'.job w) → th?.isSome ∧ place = .running w ∨
        ∃ t' th, t' ≠ t ∧ threads t' = some th ∧ g.place t' = .running w)) :
    Inv code s' (update threads t th?)
      { leaf := update g.leaf t leaf, place := update g.place t place, ids } := by
  -- what is said of the other threads
  have hstay : ∀ t', t' ≠ t → update threads t th? t' = threads t' ∧
      update g.leaf t leaf t' = g.leaf t' ∧ update g.place t place t' = g.place t' :=
    fun t' ht' => ⟨update_of_ne ht' .., update_of_ne ht' .., update_of_ne ht' ..⟩
  refine ⟨howned, hold, ?_, ?_, hnd, ?_, ?_, ?_⟩
  · intro t' th ht'
    by_cases htt : t' = t
    · subst htt
      rw [update_self] at ht'
      simpa only [update_self] using hsome th ht'
    · obtain ⟨h1, h2, h3⟩ := hstay t' htt
      rw [h1] at ht'
      simp only [h2, h3, hids t' htt]
      refine (h.thread t' th ht').agree ?_ ?_ ?_
      · exact hheap _ (fun he => htt (Sum.inl_injective he)) fun w he => by cases he
      · exact fun _ => hkeep t' th htt ht'
      · intro w hw
        by_cases hK : K w
        · exact hother t' th w htt ht' hw hK
        · exact .of_eq (hrest w hK).2
  · intro t' ht'
    by_cases htt : t' = t
    · subst htt
      rw [update_self] at ht'
      exact hnone ht'
    · rw [(hstay t' htt).1] at ht'
      show ids (.inl t') = 0
      rw [hids t' htt]
      exact h.ended t' ht'
  · intro x hx
    rcases hfrom x hx with ⟨rfl, hplace, hth⟩ | ⟨hx, hne⟩
    · obtain ⟨th, hth⟩ := Option.isSome_iff_exists.1 hth
      exact ⟨t, th, (update_self ..).trans hth, (update_self ..).trans hplace, update_self ..⟩
    · obtain ⟨t', th, ht', hp, hl⟩ := h.ready x hx
      have htt : t' ≠ t := by
        rintro rfl
        exact hne th ht' hl.symm
      obtain ⟨h1, h2, h3⟩ := hstay t' htt
      exact ⟨t', th, h1.trans ht', h3.trans hp, h2.trans hl⟩
  · intro w
    by_cases hw : K w
    · exact (hwork w hw).1
    · obtain ⟨h1, h2⟩ := hrest w hw
      simp only [h1, h2]
      refine (h.doomed w).agree (hheap _ (fun he => by cases he) ?_)
      intro v hv
      rwa [← Sum.inr_injective hv]
  · intro w hb
    by_cases hw : K w
    · rcases (hwork w hw).2 hb with ⟨hth, hplace⟩ | ⟨t', th, htt, ht', hp⟩
      · obtain ⟨th, hth⟩ := Option.isSome_iff_exists.1 hth
        exact ⟨t, th, (update_self ..).trans hth, (update_self ..).trans hplace⟩
      · obtain ⟨h1, -, h3⟩ := hstay t' htt
        exact ⟨t', th, h1.trans ht', h3.trans hp⟩
    · rw [(hrest w hw).2] at hb
      obtain ⟨t', th, ht', hp⟩ := h.busy w hb
      have htt : t' ≠ t := by
        rintro rfl
        exact hw (hthis th w ht' hp)
      obtain ⟨h1, -, h3⟩ := hstay t' htt
      exact ⟨t', th, h1.trans ht', h3.trans hp⟩

/-- A handle that has not been given out names no thread. -/
theorem Inv.free_of_le (h : Inv code s threads g) {t : Handle} (ht : s.next ≤ t) :
    threads t = none := by
  apply h.name_free
  intro hm
  exact absurd (h.old _ (h.owned.live_of_mem hm)) (Nat.not_lt.2 ht)

theorem Inv.next_free (h : Inv code s threads g) : threads s.next = none :=
  h.free_of_le (Nat.le_refl _)

/-- What a worker does that has no thread to change: `m` is what it still has to destroy. -/
theorem Inv.worker [DecidableEq W] (h : Inv code s threads g) {w : W} {job : Option (Job P)}
    {m : Multiset Handle} (hjob : s'.job = update s.job w job) (hready : s'.ready = s.ready)
    (hheap : ∀ x, s.live x → x ∉ g.ids (.inr w) → s'.heap x = s.heap x)
    (howned : Owned s'.live (update g.ids (.inr w) m)) (hold : ∀ x, s'.live x → x < s'.next)
    (hd : Doomed s'.heap (doomedOf job) m) (hnext : Busy (s.job w) → SameNext (s.job w) job)
    (hb : Busy job → Busy (s.job w)) : ∃ g', Inv code s' threads g' := by
  have hfree := h.next_free
  have hself : update threads s.next none = threads := by
    rw [← hfree, update_eq_self]
  rw [← hself]
  refine ⟨_, h.change (g.leaf s.next) (g.place s.next) (update g.ids (.inr w) m) (· = w)
    ?_ ?_ ?_ howned hold ?_ ?_ ?_ ?_ ?_ ?_ ?_ ?_⟩
  · intro t' _
    exact update_of_ne (fun he => by cases he) ..
  · intro v hv
    rw [hjob, update_of_ne hv, update_of_ne fun he => hv (Sum.inr_injective he)]
    exact ⟨rfl, rfl⟩
  · intro o _ ho x hx
    refine hheap x (h.owned.live_of_mem hx) fun hx' => ?_
    exact ho w (h.owned.unique _ _ _ hx hx') rfl
  · intro th hth
    cases hth
  · intro _
    rw [update_of_ne (fun he => by cases he)]
    exact h.ended _ hfree
  · rintro t' th v - ht' hp rfl
    rw [hjob, update_self]
    exact hnext (h.busy_of_running ht' hp)
  · intro th v hth
    rw [hfree] at hth
    cases hth
  · rw [hready]
    exact h.nodup
  · intro t' th _ _ hx
    rwa [hready]
  · intro x hx
    rw [hready] at hx
    refine .inr ⟨hx, fun th hth => ?_⟩
    rw [hfree] at hth
    cases hth
  · rintro v rfl
    rw [hjob, update_self, update_self]
    refine ⟨hd, fun hbusy => .inr ?_⟩
    obtain ⟨t', th, ht', hp⟩ := h.busy v (hb hbusy)
    refine ⟨t', th, ?_, ht', hp⟩
    rintro rfl
    rw [hfree] at ht'
    cases ht'

/-! ## A worker at an instruction -/

/-- Worker `w` is in coroutine `h` of thread `t`, and in no destructor. -/
structure Runs (s : State n P V E A W) (threads : Handle → Option (Thread n P V E)) (g : Ghost W)
    (w : W) (t h : Handle) (th : Thread n P V E) (f : Frame n P V E) (a b : Multiset Handle) :
    Prop where
  thread : threads t = some th
  place : g.place t = .running w
  leaf : g.leaf t = h
  frame : s.heap h = some f
  susp : f.susp = .running
  locals : Locals s.heap f.tasks th.locals a
  callers : Callers s.heap t f.caller_ h th.stack b
  ids : g.ids (.inl t) = h ::ₘ (a + b)
  idle : g.ids (.inr w) = 0

theorem Inv.runs (h : Inv code s threads g) {w : W} {next : Next P}
    (hj : s.job w = some ⟨[], next⟩) (hb : next ≠ .back) :
    ∃ t leaf th f a b p, Runs s threads g w t leaf th f a b ∧ th.ctl = .runs p ∧
      (next = .exec leaf p ∧ f.ex_ = none ∨
        next = .finalSuspend leaf ∧ ∃ r, (code p).result = some r ∧ f.result = some r) := by
  obtain ⟨t, th, ht, hp⟩ := h.busy w (by rw [hj]; exact hb)
  obtain ⟨f, ⟨hf, a, b, hl, hc, hids⟩, hat⟩ := h.thread t th ht
  rw [hp] at hat
  obtain ⟨hs, p, ts, next', hctl, hj', hn⟩ := hat
  rw [hj, Option.some.injEq, Job.mk.injEq] at hj'
  obtain ⟨-, rfl⟩ := hj'
  have hd := h.doomed w
  rw [hj] at hd
  refine ⟨t, g.leaf t, th, f, a, b, p, ⟨ht, hp, rfl, hf, hs, hl, hc, hids, ?_⟩, hctl, hn⟩
  generalize g.ids (.inr w) = m at hd
  cases hd
  rfl

/-- What the worker does to the thread it runs; `c` are the frames it allocates. -/
theorem Runs.change [DecidableEq W] (h : Inv code s threads g) {w : W} {t leaf : Handle}
    {th : Thread n P V E} {f : Frame n P V E} {a b : Multiset Handle}
    {th? : Option (Thread n P V E)} (hr : Runs s threads g w t leaf th f a b) (leaf' : Handle)
    (place : Place W) (m d c : Multiset Handle) (job : Option (Job P))
    (hjob : s'.job = update s.job w job) (hready : s'.ready = s.ready)
    (hheap : ∀ x, s.live x → x ∉ leaf ::ₘ (a + b) → s'.heap x = s.heap x)
    (hc : c.Nodup) (hfresh : ∀ x ∈ c, ¬ s.live x) (hlive : ∀ x, s'.live x ↔ x ∈ c ∨ s.live x)
    (hold : ∀ x, s'.live x → x < s'.next) (hids : m + d = c + leaf ::ₘ (a + b))
    (hsome : ∀ th, th? = some th → ThreadOk code s' leaf' place th t m) (hnone : th? = none → m = 0)
    (hd : Doomed s'.heap (doomedOf job) d)
    (hb : Busy job → th?.isSome ∧ place = .running w) :
    ∃ g', Inv code s' (update threads t th?) g' := by
  have hne : (Sum.inl t : Handle ⊕ W) ≠ .inr w := fun he => by cases he
  refine ⟨_, h.change leaf' place (update (update g.ids (.inl t) m) (.inr w) d) (· = w)
    ?_ ?_ ?_ ?_ hold ?_ ?_ ?_ ?_ ?_ ?_ ?_ ?_⟩
  · intro t' ht'
    rw [update_of_ne (fun he => by cases he), update_of_ne (fun he => ht' (Sum.inl_injective he))]
  · intro v hv
    rw [update_of_ne (fun he => hv (Sum.inr_injective he)), update_of_ne (fun he => by cases he),
      hjob, update_of_ne hv]
    exact ⟨rfl, rfl⟩
  · intro o ho ho' x hx
    refine hheap x (h.owned.live_of_mem hx) ?_
    rw [← hr.ids]
    intro hx'
    exact ho (h.owned.unique _ _ _ hx hx')
  · refine h.owned.alloc hne ?_ hc hfresh ?_ hlive
    · intro o ho ho'
      rw [update_of_ne ho', update_of_ne ho]
    · rw [update_of_ne hne, update_self, update_self, hids, hr.ids, hr.idle, add_zero]
  · intro th hth
    rw [update_of_ne hne, update_self]
    exact hsome th hth
  · intro hth
    rw [update_of_ne hne, update_self]
    exact hnone hth
  · rintro t' th' v ht' hth' hp rfl
    exact absurd (h.running_inj hth' hr.thread hp hr.place) ht'
  · intro th' v hth' hp
    rw [hr.place] at hp
    exact (Place.running.inj hp).symm
  · rw [hready]
    exact h.nodup
  · intro t' th' ht' hth' hx
    rwa [hready]
  · intro x hx
    rw [hready] at hx
    refine .inr ⟨hx, ?_⟩
    rintro th' - rfl
    -- a running thread is not in the scheduler's hands
    obtain ⟨t', th', ht', hp, hl⟩ := h.ready _ hx
    have := h.leaf_inj ht' hr.thread hl
    rw [this, hr.place] at hp
    cases hp
  · rintro v rfl
    rw [hjob, update_self, update_self]
    exact ⟨hd, fun hbusy => .inl (hb hbusy)⟩

end Kosio.Async
