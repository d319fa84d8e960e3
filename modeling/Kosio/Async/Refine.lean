import Kosio.Async.Ghosts

/-!
# Coroutines behave like calls

Each step of the coroutine machine is matched by at most one instruction of the
direct semantics: the transfer into a callee by the call, the final awaiter by the
return, the rest of the body one to one.  Leaving the body, destroying and resuming
are matched by nothing.  So whatever the workers and the scheduler do, what is seen
from outside is something the direct program can do as well (`refines`).

The direct semantics gives no meaning to a program that spawns a task which has been
awaited; there, and only there, the coroutines may do anything.
-/

namespace Kosio.Async

open Function Ownership Steps
open Direct (TaskVal Level Thread Ctl errorOf)

variable {n : Nat} {P V E A W : Type} {code : P → Op n P V E A}
  {debug : Bool} {s s' : State n P V E A W} {d : Direct.State n P V E A}
  {threads : Handle → Option (Thread n P V E)} {g : Ghost W} {w : W} {t leaf : Handle}
  {th : Thread n P V E} {f : Frame n P V E} {a b : Multiset Handle}

/-! ## Small steps of the state -/

@[simp] theorem put_heap (s : State n P V E A W) (h : Handle) (f : Frame n P V E) :
    (s.put h f).heap = update s.heap h (some f) := rfl
@[simp] theorem put_next (s : State n P V E A W) (h : Handle) (f : Frame n P V E) :
    (s.put h f).next = s.next := rfl
@[simp] theorem put_ready (s : State n P V E A W) (h : Handle) (f : Frame n P V E) :
    (s.put h f).ready = s.ready := rfl
@[simp] theorem put_trace (s : State n P V E A W) (h : Handle) (f : Frame n P V E) :
    (s.put h f).trace = s.trace := rfl
@[simp] theorem put_status (s : State n P V E A W) (h : Handle) (f : Frame n P V E) :
    (s.put h f).status = s.status := rfl
@[simp] theorem put_job (s : State n P V E A W) (h : Handle) (f : Frame n P V E) :
    (s.put h f).job = s.job := rfl

/-- A frame that is written stays live, and the others are what they were. -/
theorem live_put {h x : Handle} {f f' : Frame n P V E} (hf : s.heap h = some f) :
    (s.put h f').live x ↔ s.live x := by
  show update s.heap h (some f') x ≠ none ↔ s.heap x ≠ none
  by_cases hx : x = h
  · subst hx
    simp [hf]
  · rw [update_of_ne hx]

/-! ## The thread a worker runs -/

theorem Runs.notMem (h : Inv code s threads g) (hr : Runs s threads g w t leaf th f a b) :
    leaf ∉ a + b := by
  have hnd := h.owned.nodup (.inl t)
  rw [hr.ids, Multiset.nodup_cons] at hnd
  exact hnd.1

/-- The frame of a task in a slot is not that of a thread. -/
theorem Runs.name_free (h : Inv code s threads g) (hr : Runs s threads g w t leaf th f a b)
    {c : Handle} (hc : c ∈ a) : threads c = none := by
  have hmem : c ∈ g.ids (.inl t) := by
    rw [hr.ids]
    exact Multiset.mem_cons_of_mem (Multiset.mem_add.2 (.inl hc))
  apply h.name_free
  intro hc'
  have hct : c = t := Sum.inl_injective (h.owned.unique _ _ _ hc' hmem)
  have hnd := h.owned.nodup (.inl t)
  rw [hr.ids, ← Multiset.add_cons, Multiset.nodup_add, Multiset.disjoint_left] at hnd
  exact hnd.2.2 hc (hct ▸ hr.callers.root_mem)

theorem Runs.live (h : Inv code s threads g) (hr : Runs s threads g w t leaf th f a b) {x : Handle}
    (hx : x ∈ leaf ::ₘ (a + b)) : s.live x := by
  rw [← hr.ids] at hx
  exact h.owned.live_of_mem hx

variable [DecidableEq W]

@[simp] theorem goTo_heap (s : State n P V E A W) (w : W) (ts : List (Option Handle))
    (next : Next P) : (s.goTo w ts next).heap = s.heap := rfl
@[simp] theorem goTo_next (s : State n P V E A W) (w : W) (ts : List (Option Handle))
    (next : Next P) : (s.goTo w ts next).next = s.next := rfl
@[simp] theorem goTo_ready (s : State n P V E A W) (w : W) (ts : List (Option Handle))
    (next : Next P) : (s.goTo w ts next).ready = s.ready := rfl
@[simp] theorem goTo_trace (s : State n P V E A W) (w : W) (ts : List (Option Handle))
    (next : Next P) : (s.goTo w ts next).trace = s.trace := rfl
@[simp] theorem goTo_status (s : State n P V E A W) (w : W) (ts : List (Option Handle))
    (next : Next P) : (s.goTo w ts next).status = s.status := rfl
@[simp] theorem goTo_job (s : State n P V E A W) (w : W) (ts : List (Option Handle))
    (next : Next P) : (s.goTo w ts next).job = update s.job w (some ⟨ts, next⟩) := rfl

/-- Coroutine `leaf` goes on at `p`, with other variables and, in `c`, new frames. -/
theorem Runs.goOn (h : Inv code s threads g) (hr : Runs s threads g w t leaf th f a b)
    (f' : Frame n P V E) {locals : Fin n → TaskVal n P V E} (a' m c : Multiset Handle)
    {ts : List (Option Handle)} {p : P}
    (hjob : s'.job = update s.job w (some ⟨ts, .exec leaf p⟩)) (hready : s'.ready = s.ready)
    (hf : s'.heap leaf = some f') (hs : f'.susp = .running) (hex : f'.ex_ = none)
    (hcaller : f'.caller_ = f.caller_) (hheap : ∀ x, s.live x → x ≠ leaf → s'.heap x = s.heap x)
    (hc : c.Nodup) (hfresh : ∀ x ∈ c, ¬ s.live x) (hlive : ∀ x, s'.live x ↔ x ∈ c ∨ s.live x)
    (hold : ∀ x, s'.live x → x < s'.next) (hl : Locals s'.heap f'.tasks locals a')
    (hd : Doomed s'.heap ts m) (hids : a' + m = c + a) :
    ∃ g', Inv code s' (update threads t (some { th with ctl := .runs p, locals })) g' := by
  refine hr.change h leaf (.running w) (leaf ::ₘ (a' + b)) m c (some ⟨ts, .exec leaf p⟩)
    hjob hready ?_ hc hfresh hlive hold ?_ ?_ ?_ hd ?_
  · intro x hx hm
    exact hheap x hx fun he => hm (he ▸ Multiset.mem_cons_self leaf _)
  · rw [Multiset.cons_add, Multiset.add_cons, add_right_comm, hids, add_assoc]
  · rintro th' h'
    cases h'
    refine ⟨f', ⟨hf, a', b, hl, ?_, rfl⟩, hs, p, ts, .exec leaf p, rfl, ?_, .inl ⟨rfl, hex⟩⟩
    · rw [hcaller]
      refine hr.callers.agree fun x hx => hheap x ?_ ?_
      · exact hr.live h (Multiset.mem_cons_of_mem (Multiset.mem_add.2 (.inr hx)))
      · rintro rfl
        exact hr.notMem h (Multiset.mem_add.2 (.inr hx))
    · rw [hjob, update_self]
  · intro h'
    cases h'
  · exact fun _ => ⟨rfl, rfl⟩

/-- The same where only the frame of `leaf` is written. -/
theorem Runs.goOn_put (h : Inv code s threads g) (hr : Runs s threads g w t leaf th f a b)
    {tasks : Fin n → Option Handle} {locals : Fin n → TaskVal n P V E} {a' m : Multiset Handle}
    {ts : List (Option Handle)} (p : P) (hex : f.ex_ = none)
    (hl : Locals s.heap tasks locals a') (hd : Doomed s.heap ts m) (hids : a' + m = a) :
    ∃ g', Inv code ((s.put leaf { f with tasks }).goTo w ts (.exec leaf p))
      (update threads t (some { th with ctl := .runs p, locals })) g' := by
  have hkeep : ∀ x ∈ a' + m, update s.heap leaf (some { f with tasks }) x = s.heap x := by
    intro x hx
    refine update_of_ne ?_ ..
    rintro rfl
    rw [hids] at hx
    exact hr.notMem h (Multiset.mem_add.2 (.inl hx))
  refine hr.goOn h { f with tasks } a' m 0 rfl rfl ?_ hr.susp hex rfl ?_ Multiset.nodup_zero
    ?_ ?_ ?_ (hl.agree ?_) (hd.agree ?_) ?_
  · exact update_self ..
  · intro x _ hx
    exact update_of_ne hx ..
  · intro x hx
    exact absurd hx (Multiset.notMem_zero x)
  · exact fun x => (live_put hr.frame).trans (by simp)
  · exact fun x hx => h.old x ((live_put hr.frame).1 hx)
  · exact fun x hx => hkeep x (Multiset.mem_add.2 (.inl hx))
  · exact fun x hx => hkeep x (Multiset.mem_add.2 (.inr hx))
  · rw [hids, zero_add]

/-- The coroutine only goes on. -/
theorem Runs.goOn_same (h : Inv code s threads g) (hr : Runs s threads g w t leaf th f a b)
    (hex : f.ex_ = none) (p : P) :
    ∃ g', Inv code (s.goTo w [] (.exec leaf p))
      (update threads t (some { th with ctl := .runs p })) g' := by
  have hput : s.put leaf f = s := by
    show { s with heap := update s.heap leaf (some f) } = s
    rw [← hr.frame, update_eq_self]
  obtain ⟨g', hg'⟩ := hr.goOn_put h p hex hr.locals .nil (add_zero a)
  refine ⟨g', ?_⟩
  have : s.put leaf { f with tasks := f.tasks } = s := hput
  rw [this] at hg'
  exact hg'

/-! ## Instructions -/

/-- What has been done so far is the same; a thread that has spawned an awaited task
may do anything. -/
def Sim (code : P → Op n P V E A) (s : State n P V E A W) (d : Direct.State n P V E A) : Prop :=
  d.status = .undefined ∧ d.trace <+: s.trace ∨
    d.status = s.status ∧ d.trace = s.trace ∧
      (s.status = .terminated ∨ s.status = .ok ∧ ∃ g, Inv code s d.threads g)

theorem step_work {p : P} {new : Handle} (hd : d.status = .ok) (ht : d.threads t = some th)
    (hctl : th.ctl = .runs p) (hnew : d.threads new = none) :
    Direct.step code debug d (.work t new) = some (Direct.exec code debug d t new th p) := by
  obtain ⟨ctl, locals, stack⟩ := th
  cases hctl
  simp [Direct.step, hd, ht, hnew]

/-- `co_await`. -/
theorem await_sim (debug : Bool) (h : Inv code s d.threads g)
    (hr : Runs s d.threads g w t leaf th f a b) {p : P} {src : Fin n} {k : Result V E → P}
    (hex : f.ex_ = none) (hs : s.status = .ok) (hd : d.status = .ok) (htr : d.trace = s.trace)
    (hp : code p = .coAwait src k) (new : Handle) :
    Sim code (stepAwait s w leaf f src k) (Direct.exec code debug d t new th p) := by
  have hok : ∀ {s' : State n P V E A W} {th' : Thread n P V E}, s'.status = s.status →
      s'.trace = s.trace → (∃ g', Inv code s' (update d.threads t (some th')) g') →
      Sim code s' (d.put t th') := by
    intro s' th' h1 h2 h3
    exact .inr ⟨by rw [h1, hs]; exact hd, by rw [h2]; exact htr, .inr ⟨h1.trans hs, h3⟩⟩
  obtain ⟨a1, a2, htask, hl, rfl⟩ := hr.locals.take src
  have hnd := h.owned.nodup (.inl t)
  rw [hr.ids] at hnd
  unfold stepAwait Direct.exec
  simp only [hp]
  generalize hsrc : f.tasks src = o at htask
  generalize hval : th.locals src = tv at htask
  cases htask with
  | null => exact hok rfl rfl (hr.goOn_same h hex _)
  | @done c fc r locals ids hfc hfinal hres hrest =>
    simp only [hfc, hfinal, hres]
    exact hok rfl rfl (hr.goOn_same h hex _)
  | @fresh c q tasks locals ids hfc hrest =>
    simp only [hfc, newFrame]
    refine hok rfl rfl ?_
    -- the frames written are those of the caller and of the callee
    simp only [Multiset.nodup_cons, Multiset.cons_add, Multiset.mem_cons, not_or] at hnd
    obtain ⟨⟨hne, hleaf⟩, hc, -⟩ := hnd
    set fa : Frame n P V E := { f with susp := .awaiting c k } with hfa
    have hkeep : ∀ x ∈ ∑ i, ids i + a2 + b, ∀ fr fr',
        update (update s.heap leaf (some fr)) c (some fr') x = s.heap x := by
      intro x hx fr fr'
      rw [update_of_ne, update_of_ne]
      · rintro rfl
        exact hleaf hx
      · rintro rfl
        exact hc hx
    have hlive : ∀ x fr fr', update (update s.heap leaf (some fr)) c (some fr') x ≠ none ↔
        s.live x := by
      intro x fr fr'
      by_cases hxc : x = c
      · simp [hxc, hfc]
      · by_cases hxl : x = leaf
        · simp [hxl, hr.frame, update_of_ne hne]
        · rw [update_of_ne hxc, update_of_ne hxl]
    refine hr.change h c (.running w) (c ::ₘ (∑ i, ids i + leaf ::ₘ (a2 + b))) 0 0
      (some ⟨[], .exec c q⟩) rfl rfl ?_ Multiset.nodup_zero ?_ ?_ ?_ ?_ ?_ ?_ .nil ?_
    · intro x _ hx
      simp only [Multiset.cons_add, Multiset.mem_cons, not_or] at hx
      show update (update s.heap leaf (some fa)) c _ x = s.heap x
      rw [update_of_ne hx.2.1, update_of_ne hx.1]
    · intro x hx
      exact absurd hx (Multiset.notMem_zero x)
    · exact fun x => (hlive x _ _).trans (by simp)
    · exact fun x hx => h.old x ((hlive x _ _).1 hx)
    · simp only [Multiset.cons_add, Multiset.add_cons, add_zero, zero_add, add_assoc]
      rw [Multiset.cons_swap]
    · rintro th' h'
      cases h'
      refine ⟨_, ⟨update_self .., ∑ i, ids i, leaf ::ₘ (a2 + b), ?_, ?_, rfl⟩, rfl, q, [],
        .exec c q, rfl, update_self .., .inl ⟨rfl, rfl⟩⟩
      · refine Locals.agree ⟨ids, hrest, rfl⟩ fun x hx => hkeep x ?_ _ _
        exact Multiset.mem_add.2 (.inl (Multiset.mem_add.2 (.inl hx)))
      · refine .level (g := fa) ?_ rfl hex hsrc (hl.agree fun x hx => hkeep x ?_ _ _)
          (hr.callers.agree fun x hx => hkeep x ?_ _ _)
        · exact (update_of_ne hne ..).trans (update_self ..)
        · exact Multiset.mem_add.2 (.inl (Multiset.mem_add.2 (.inr hx)))
        · exact Multiset.mem_add.2 (.inr hx)
    · intro h'
      cases h'
    · exact fun _ => ⟨rfl, rfl⟩

theorem passArg_rep {heap : Heap n P V E} {tasks : Fin n → Option Handle}
    {locals : Fin n → TaskVal n P V E} (h : Locals heap tasks locals a)
    (arg : Option (Fin n × Fin n)) :
    ∃ a1 a2, Locals heap (passArg tasks arg).1 (Direct.passArg locals arg).1 a1 ∧
      Locals heap (passArg tasks arg).2 (Direct.passArg locals arg).2 a2 ∧ a = a1 + a2 := by
  cases arg with
  | none => exact ⟨a, 0, h, .null, (add_zero a).symm⟩
  | some arg =>
    obtain ⟨src, param⟩ := arg
    obtain ⟨a1, a2, h1, h2, rfl⟩ := h.take src
    exact ⟨a2, a1, h2, .single h1 param, add_comm ..⟩

/-- A call: the frame is new, and a parameter may have come out of the caller's slots. -/
theorem call_sim (h : Inv code s threads g) (hr : Runs s threads g w t leaf th f a b)
    {tasks params : Fin n → Option Handle} {locals vals : Fin n → TaskVal n P V E}
    {a1 a2 : Multiset Handle} (hex : f.ex_ = none) (hl : Locals s.heap tasks locals a1)
    (hp : Locals s.heap params vals a2) (ha : a = a1 + a2) (dst : Fin n) (callee p : P) :
    ∃ g', Inv code
      ((({ s with next := s.next + 1 }.put s.next (newFrame callee params)).put leaf
        { f with tasks := update tasks dst (some s.next) }).goTo w [tasks dst] (.exec leaf p))
      (update threads t
        (some { th with ctl := .runs p, locals := update locals dst (.fresh callee vals) })) g' := by
  have hlt : ∀ {x}, s.live x → x ≠ s.next := fun {x} hx => Nat.ne_of_lt (h.old x hx)
  have hne := hlt (hr.live h (Multiset.mem_cons_self leaf _))
  set heap := update (update s.heap s.next (some (newFrame callee params))) leaf
    (some { f with tasks := update tasks dst (some s.next) }) with hheap
  -- the slots and the parameters are as they were
  have hkeep : ∀ x ∈ a1 + a2, heap x = s.heap x := by
    intro x hx
    have hab : x ∈ a + b := Multiset.mem_add.2 (.inl (ha ▸ hx))
    rw [hheap, update_of_ne, update_of_ne]
    · exact hlt (hr.live h (Multiset.mem_cons_of_mem hab))
    · rintro rfl
      exact hr.notMem h hab
  have hlive : ∀ x, heap x ≠ none ↔ x ∈ ({s.next} : Multiset Handle) ∨ s.live x := by
    intro x
    by_cases hxl : x = leaf
    · simp [hheap, hxl, hr.frame]
    · by_cases hxn : x = s.next
      · simp [hheap, hxn, update_of_ne hne.symm]
      · simp [hheap, update_of_ne hxl, hxn]
  obtain ⟨ids, hids, rfl⟩ := hp
  have hnew : TaskRep heap (some s.next) (.fresh callee vals) (s.next ::ₘ ∑ i, ids i) := by
    refine .fresh ((update_of_ne hne.symm ..).trans (update_self ..)) fun i => ?_
    refine (hids i).agree fun x hx => hkeep x (Multiset.mem_add.2 (.inr ?_))
    exact Multiset.mem_sum.2 ⟨i, Finset.mem_univ i, hx⟩
  have hl' := hl.agree fun x hx => hkeep x (Multiset.mem_add.2 (.inl hx))
  obtain ⟨a3, a4, h3, h4, rfl⟩ := hl'.put dst hnew
  refine hr.goOn h _ _ a3 {s.next} rfl rfl (update_self ..) hr.susp hex rfl ?_ ?_ ?_ hlive ?_ h4
    (.one h3) ?_
  · intro x hx hxl
    show update (update s.heap s.next _) leaf _ x = s.heap x
    rw [update_of_ne hxl, update_of_ne (hlt hx)]
  · exact Multiset.nodup_singleton _
  · intro x hx hl
    exact hlt hl (Multiset.mem_singleton.1 hx)
  · intro x hx
    show x < s.next + 1
    rcases (hlive x).1 hx with hx | hx
    · rw [Multiset.mem_singleton.1 hx]
      exact Nat.lt_succ_self _
    · exact Nat.lt_succ_of_lt (h.old x hx)
  · rw [ha, ← Multiset.singleton_add]
    ac_rfl

/-- A task that was to be destroyed is given to the scheduler instead. -/
theorem adopt_sim (h : Inv code s threads g) {c : Handle} {next : Next P} {q : P}
    {locals : Fin n → TaskVal n P V E} {m : Multiset Handle}
    (hj : s.job w = some ⟨[some c], next⟩) (hrep : TaskRep s.heap (some c) (.fresh q locals) m) :
    ∃ g', Inv code ({ s with ready := s.ready ++ [c] }.goTo w [] next)
      (update threads c (some { ctl := .runs q, locals, stack := [] })) g' := by
  have hm : g.ids (.inr w) = m := by
    have hd := h.doomed w
    rw [hj] at hd
    generalize g.ids (.inr w) = m' at hd ⊢
    obtain _ | ⟨ht, hts⟩ := hd
    cases hts
    rw [add_zero]
    exact (ht.functional hrep).2
  have hcw : c ∈ g.ids (.inr w) := by
    rw [hm]
    cases hrep
    exact Multiset.mem_cons_self c _
  have hne : (Sum.inl c : Handle ⊕ W) ≠ .inr w := fun he => by cases he
  have hfree : threads c = none := by
    apply h.name_free
    intro hc
    exact hne (h.owned.unique _ _ _ hc hcw)
  -- it was in nobody's hands
  have hout : c ∉ s.ready := by
    intro hc
    obtain ⟨t, th, ht, -, hl⟩ := h.ready c hc
    obtain ⟨f, hf, -⟩ := h.thread t th ht
    have := h.owned.unique _ _ _ hf.leaf_mem (hl ▸ hcw)
    cases this
  refine ⟨_, h.change c .ready (update (update g.ids (.inl c) m) (.inr w) 0) (· = w)
    ?_ ?_ ?_ ?_ h.old ?_ ?_ ?_ ?_ ?_ ?_ ?_ ?_⟩
  · intro t ht
    rw [update_of_ne (fun he => by cases he), update_of_ne (fun he => ht (Sum.inl_injective he))]
  · intro v hv
    rw [update_of_ne (fun he => hv (Sum.inr_injective he)), update_of_ne (fun he => by cases he)]
    exact ⟨rfl, update_of_ne hv ..⟩
  · exact fun _ _ _ _ _ => rfl
  · refine h.owned.move hne ?_ ?_ fun x => Iff.rfl
    · intro o ho ho'
      rw [update_of_ne ho', update_of_ne ho]
    · rw [update_of_ne hne, update_self, update_self, h.ended c hfree, hm, add_zero, zero_add]
  · rintro th hth
    cases hth
    rw [update_of_ne hne, update_self]
    cases hrep with
    | @fresh _ _ tasks _ ids hf hl =>
      refine ⟨newFrame q tasks, ⟨hf, _, 0, ⟨ids, hl, rfl⟩, .root, ?_⟩, ?_, rfl, q, rfl, .inl rfl⟩
      · rw [add_zero]
      · exact List.mem_append_right _ (List.mem_singleton_self c)
  · intro hth
    cases hth
  · rintro t th v - - - rfl ts next' hts
    rw [hj, Option.some.injEq, Job.mk.injEq] at hts
    exact ⟨[], by rw [goTo_job, update_self, hts.2]⟩
  · intro th v hth
    rw [hfree] at hth
    cases hth
  · rw [goTo_ready, List.nodup_append]
    refine ⟨h.nodup, List.nodup_singleton c, ?_⟩
    rintro x hx y hy rfl
    exact hout (List.mem_singleton.1 hy ▸ hx)
  · intro t th _ _ hx
    exact List.mem_append_left _ hx
  · intro x hx
    rcases List.mem_append.1 hx with hx | hx
    · refine .inr ⟨hx, fun th hth => ?_⟩
      rw [hfree] at hth
      cases hth
    · exact .inl ⟨List.mem_singleton.1 hx, rfl, rfl⟩
  · rintro v rfl
    rw [goTo_job, update_self, update_self]
    refine ⟨.nil, fun hb => .inr ?_⟩
    obtain ⟨t, th, ht, hp⟩ := h.busy v (by rw [hj]; exact hb)
    refine ⟨t, th, ?_, ht, hp⟩
    rintro rfl
    rw [hfree] at ht
    cases ht

/-- The body is left with result `r`; the final awaiter is next. -/
theorem leave_sim (h : Inv code s threads g) (hr : Runs s threads g w t leaf th f a b) {p : P}
    {r : Result V E} {f' : Frame n P V E} (hctl : th.ctl = .runs p)
    (hp : (code p).result = some r) (hres : f'.result = some r) (hs : f'.susp = .running)
    (htasks : f'.tasks = f.tasks) (hcaller : f'.caller_ = f.caller_) :
    ∃ g', Inv code ((s.put leaf f').goTo w [] (.finalSuspend leaf)) threads g' := by
  have hself : update threads t (some th) = threads := by
    rw [← hr.thread, update_eq_self]
  rw [← hself]
  have hkeep : ∀ x ∈ a + b, update s.heap leaf (some f') x = s.heap x := by
    intro x hx
    refine update_of_ne ?_ ..
    rintro rfl
    exact hr.notMem h hx
  refine hr.change h leaf (.running w) (leaf ::ₘ (a + b)) 0 0 (some ⟨[], .finalSuspend leaf⟩)
    rfl rfl ?_ Multiset.nodup_zero ?_ ?_ ?_ ?_ ?_ ?_ .nil ?_
  · intro x _ hx
    refine update_of_ne ?_ ..
    rintro rfl
    exact hx (Multiset.mem_cons_self _ _)
  · intro x hx
    exact absurd hx (Multiset.notMem_zero x)
  · exact fun x => (live_put hr.frame).trans (by simp)
  · exact fun x hx => h.old x ((live_put hr.frame).1 hx)
  · rw [add_zero, zero_add]
  · rintro th' h'
    cases h'
    refine ⟨f', ⟨update_self .., a, b, ?_, ?_, rfl⟩, hs, p, [], _, hctl, update_self ..,
      .inr ⟨rfl, r, hp, hres⟩⟩
    · rw [htasks]
      exact hr.locals.agree fun x hx => hkeep x (Multiset.mem_add.2 (.inl hx))
    · rw [hcaller]
      exact hr.callers.agree fun x hx => hkeep x (Multiset.mem_add.2 (.inr hx))
  · intro h'
    cases h'
  · exact fun _ => ⟨rfl, rfl⟩

/-- The coroutine waits for something that is not a task. -/
theorem suspend_sim (h : Inv code s threads g) (hr : Runs s threads g w t leaf th f a b)
    (hex : f.ex_ = none) (k : V → P) :
    ∃ g', Inv code ((s.put leaf { f with susp := .io k none }).idle w)
      (update threads t (some { th with ctl := .waits k })) g' := by
  have hkeep : ∀ x ∈ a + b, update s.heap leaf (some { f with susp := .io k none }) x = s.heap x := by
    intro x hx
    refine update_of_ne ?_ ..
    rintro rfl
    exact hr.notMem h hx
  refine hr.change h leaf .waiting (leaf ::ₘ (a + b)) 0 0 none rfl rfl ?_ Multiset.nodup_zero
    ?_ ?_ ?_ ?_ ?_ ?_ .nil ?_
  · intro x _ hx
    refine update_of_ne ?_ ..
    rintro rfl
    exact hx (Multiset.mem_cons_self _ _)
  · intro x hx
    exact absurd hx (Multiset.notMem_zero x)
  · exact fun x => (live_put hr.frame).trans (by simp)
  · exact fun x hx => h.old x ((live_put hr.frame).1 hx)
  · rw [add_zero, zero_add]
  · rintro th' h'
    cases h'
    refine ⟨_, ⟨update_self .., a, b, hr.locals.agree fun x hx => hkeep x ?_,
      hr.callers.agree fun x hx => hkeep x ?_, rfl⟩, hex, k, rfl, rfl⟩
    · exact Multiset.mem_add.2 (.inl hx)
    · exact Multiset.mem_add.2 (.inr hx)
  · intro h'
    cases h'
  · exact fun hb => hb.elim

omit [DecidableEq W] in
/-- Both go on. -/
theorem sim_ok {d' : Direct.State n P V E A} (hs : s'.status = .ok) (hd : d'.status = .ok)
    (htr : d'.trace = s'.trace) (hinv : ∃ g, Inv code s' d'.threads g) : Sim code s' d' :=
  .inr ⟨hd.trans hs.symm, htr, .inr ⟨hs, hinv⟩⟩

/-- **One instruction.** -/
theorem exec_sim (h : Inv code s d.threads g) (hr : Runs s d.threads g w t leaf th f a b) {p : P}
    (hctl : th.ctl = .runs p) (hex : f.ex_ = none) (hs : s.status = .ok) (hd : d.status = .ok)
    (htr : d.trace = s.trace) :
    ∃ as d', run (Direct.step code debug) d as = some d' ∧
      Sim code (stepExec code s w leaf p) d' := by
  have hrun : ∀ new, d.threads new = none →
      Sim code (stepExec code s w leaf p) (Direct.exec code debug d t new th p) →
      ∃ as d', run (Direct.step code debug) d as = some d' ∧
        Sim code (stepExec code s w leaf p) d' := by
    intro new hnew hsim
    exact ⟨[.work t new], _, by rw [run_one]; exact step_work hd hr.thread hctl hnew, hsim⟩
  have hnext := h.next_free
  cases hp : code p with
  | coReturn v =>
    refine ⟨[], d, rfl, ?_⟩
    simp only [stepExec, hr.frame, hp]
    refine sim_ok hs hd htr (leave_sim h hr (r := .ok v) hctl (by rw [hp]; rfl) ?_ hr.susp rfl rfl)
    simp only [Frame.result, hex, Option.map_some]
  | throw x =>
    refine ⟨[], d, rfl, ?_⟩
    simp only [stepExec, hr.frame, hp]
    exact sim_ok hs hd htr
      (leave_sim h hr (r := .error x) hctl (by rw [hp]; rfl) rfl hr.susp rfl rfl)
  | suspend k =>
    refine hrun _ hnext ?_
    simp only [stepExec, Direct.exec, hr.frame, hp]
    exact sim_ok hs hd htr (suspend_sim h hr hex k)
  | call dst callee arg k =>
    refine hrun _ hnext ?_
    simp only [stepExec, Direct.exec, hr.frame, hp]
    obtain ⟨a1, a2, h1, h2, ha⟩ := passArg_rep hr.locals arg
    exact sim_ok hs hd htr (call_sim h hr hex h1 h2 ha dst callee k)
  | coAwait src k =>
    refine hrun _ hnext ?_
    have := await_sim debug h hr hex hs hd htr hp s.next
    simpa only [stepExec, hr.frame, hp] using this
  | assign dst src k =>
    refine hrun _ hnext ?_
    simp only [stepExec, Direct.exec, hr.frame, hp]
    split
    · exact sim_ok hs hd htr (hr.goOn_same h hex k)
    · rename_i hne
      obtain ⟨a1, a2, h1, h2, rfl⟩ := hr.locals.take src
      obtain ⟨a3, a4, h3, h4, rfl⟩ := h2.put dst h1
      rw [update_of_ne hne, update_of_ne hne] at h3
      rw [update_comm (Ne.symm hne), update_comm (Ne.symm hne)] at h4
      refine sim_ok hs hd htr (hr.goOn_put h k hex h4 (.one h3) ?_)
      ac_rfl
  | reset dst k =>
    refine hrun _ hnext ?_
    simp only [stepExec, Direct.exec, hr.frame, hp]
    obtain ⟨a1, a2, h1, h2, rfl⟩ := hr.locals.take dst
    exact sim_ok hs hd htr (hr.goOn_put h k hex h2 (.one h1) (add_comm ..))
  | spawn src k =>
    obtain ⟨a1, a2, h1, h2, rfl⟩ := hr.locals.take src
    generalize htv : th.locals src = tv at h1
    generalize hc : f.tasks src = o at h1
    cases h1 with
    | null =>
      refine hrun _ hnext ?_
      simp only [stepExec, Direct.exec, hr.frame, hp, hc, htv]
      exact sim_ok hs hd htr (hr.goOn_same h hex _)
    | done =>
      refine hrun _ hnext ?_
      simp only [stepExec, Direct.exec, hr.frame, hp, hc, htv]
      exact .inl ⟨rfl, by rw [htr]; exact List.prefix_append _ _⟩
    | @fresh c q tasks locals ids hf hl =>
      -- as if the task were destroyed, and then adopted
      have hrep : TaskRep s.heap (some c) (.fresh q locals) (c ::ₘ ∑ i, ids i) := .fresh hf hl
      obtain ⟨g', hg'⟩ := hr.goOn_put h (k (.ok ())) hex h2 (.one hrep) (add_comm ..)
      have hkeep : ∀ x ∈ c ::ₘ ∑ i, ids i,
          update s.heap leaf (some { f with tasks := update f.tasks src none }) x = s.heap x := by
        intro x hx
        refine update_of_ne ?_ ..
        rintro rfl
        exact hr.notMem h (Multiset.mem_add.2 (.inl (Multiset.mem_add.2 (.inl hx))))
      obtain ⟨g'', hg''⟩ := adopt_sim hg' (update_self ..) (hrep.agree hkeep)
      have hfree := hr.name_free h (Multiset.mem_add.2 (.inl (Multiset.mem_cons_self c _)))
      refine hrun c hfree ?_
      simp only [stepExec, Direct.exec, hr.frame, hp, hc, htv]
      refine sim_ok hs hd (congrArg (· ++ _) htr) ⟨g'', ?_⟩
      simpa only [State.goTo, State.put, Direct.State.put, Direct.State.emit, update_idem] using
        hg''.withTrace (s.trace ++ [Event.started c])
  | effect x k =>
    refine hrun _ hnext ?_
    simp only [stepExec, Direct.exec, hr.frame, hp]
    obtain ⟨g', hg'⟩ := hr.goOn_same h hex k
    exact sim_ok hs hd (congrArg (· ++ _) htr) ⟨g', hg'.withTrace _⟩

/-! ## The end of a coroutine -/

theorem result_ex {r : Result V E} (h : f.result = some r) : f.ex_ = errorOf r := by
  unfold Frame.result at h
  split at h
  · rename_i x hx
    rw [hx]
    cases h
    rfl
  · rename_i hx
    rw [hx]
    cases hv : f.value_ with
    | none =>
      rw [hv] at h
      cases h
    | some v =>
      rw [hv] at h
      cases h
      rfl

theorem exec_returns {p : P} {r : Result V E} (hp : (code p).result = some r) (new : Handle) :
    Direct.exec code debug d t new th p = Direct.returns debug d t th r := by
  unfold Direct.exec
  cases hc : code p with
  | coReturn v =>
    rw [hc] at hp
    cases hp
    rfl
  | throw x =>
    rw [hc] at hp
    cases hp
    rfl
  | _ =>
    rw [hc] at hp
    cases hp

/-- **The final awaiter.**  The caller goes on with the result, or the thread ends. -/
theorem final_sim (h : Inv code s d.threads g) (hr : Runs s d.threads g w t leaf th f a b) {p : P}
    {r : Result V E} (hctl : th.ctl = .runs p) (hp : (code p).result = some r)
    (hres : f.result = some r) (hs : s.status = .ok) (hd : d.status = .ok)
    (htr : d.trace = s.trace) :
    ∃ as d', run (Direct.step code debug) d as = some d' ∧
      Sim code (stepFinal debug s w leaf) d' := by
  suffices hsim : Sim code (stepFinal debug s w leaf) (Direct.returns debug d t th r) by
    refine ⟨[.work t s.next], _, ?_, hsim⟩
    rw [run_one, step_work hd hr.thread hctl h.next_free, exec_returns hp]
  have hlocals := hr.locals
  have hcallers := hr.callers
  have hnd := h.owned.nodup (.inl t)
  rw [hr.ids] at hnd
  unfold stepFinal Direct.returns
  simp only [hr.frame, result_ex hres]
  generalize hcl : f.caller_ = caller at hcallers
  generalize hst : th.stack = stack at hcallers
  cases hcallers with
  | root =>
    dsimp only
    split
    · exact .inr ⟨rfl, congrArg (· ++ _) htr, .inl rfl⟩
    · refine sim_ok hs hd (congrArg (· ++ _) htr) ?_
      have hkeep : ∀ x ∈ a, update s.heap t (some f.finish) x = s.heap x := by
        intro x hx
        refine update_of_ne ?_ ..
        rintro rfl
        exact hr.notMem h (Multiset.mem_add.2 (.inl hx))
      obtain ⟨ids, hl, rfl⟩ := hlocals.agree hkeep
      refine hr.change h t .waiting 0 (t ::ₘ (∑ i, ids i + 0)) 0 (some ⟨[some t], .back⟩) rfl rfl
        ?_ Multiset.nodup_zero ?_ ?_ ?_ rfl ?_ ?_ ?_ ?_
      · intro x _ hx
        refine update_of_ne ?_ ..
        rintro rfl
        exact hx (Multiset.mem_cons_self _ _)
      · intro x hx
        exact absurd hx (Multiset.notMem_zero x)
      · exact fun x => (live_put hr.frame).trans (by simp)
      · exact fun x hx => h.old x ((live_put hr.frame).1 hx)
      · intro th' h'
        cases h'
      · exact fun _ => rfl
      · rw [add_zero]
        exact .one (.done (update_self ..) rfl hres hl)
      · exact fun hb => absurd rfl hb
  | @level c callee fc lv ls a' b' hg hsus hex hsrc hl hc =>
    simp only [Multiset.nodup_cons, Multiset.mem_add, Multiset.mem_cons, Multiset.add_cons,
      not_or] at hnd
    obtain ⟨⟨hne, hla, hla', hlb'⟩, ⟨hca, hca', hcb'⟩, -⟩ := hnd
    have hbind : (update s.heap leaf (some f.finish) leaf).bind Frame.result = some r := by
      rw [update_self]
      exact hres
    simp only [put_heap, update_of_ne (Ne.symm hne), hg, hsus, hbind]
    refine sim_ok hs hd htr ?_
    set heap := update (update s.heap leaf (some f.finish)) c (some { fc with susp := .running })
      with hheap
    have hkeep : ∀ x, x ≠ leaf → x ≠ c → heap x = s.heap x := by
      intro x h1 h2
      rw [hheap, update_of_ne h2, update_of_ne h1]
    have hleaf : heap leaf = some f.finish := by
      rw [hheap, update_of_ne hne, update_self]
    have hlive : ∀ x, heap x ≠ none ↔ s.live x := by
      intro x
      by_cases hxc : x = c
      · simp [hheap, hxc, hg]
      · by_cases hxl : x = leaf
        · simp [hxl, hleaf, hr.frame]
        · rw [hkeep x hxl hxc]
    -- the callee's frame is a task of the caller again
    have hdone : TaskRep heap (some leaf) (.done r) (leaf ::ₘ a) := by
      obtain ⟨ids, hids, rfl⟩ := hlocals
      refine .done hleaf rfl hres fun i => (hids i).agree fun x hx => hkeep x ?_ ?_
      · rintro rfl
        exact hla (Multiset.mem_sum.2 ⟨i, Finset.mem_univ i, hx⟩)
      · rintro rfl
        exact hca (Multiset.mem_sum.2 ⟨i, Finset.mem_univ i, hx⟩)
    have hl' := hl.agree (fun x hx => hkeep x (by rintro rfl; exact hla' hx)
      (by rintro rfl; exact hca' hx))
    obtain ⟨a3, a4, h3, h4, rfl⟩ := hl'.put lv.src hdone
    have h0 : a3 = 0 := by
      rw [update_self] at h3
      generalize lv.locals lv.src = tv at h3
      cases h3
      rfl
    rw [update_idem, ← hsrc, update_eq_self] at h4
    refine hr.change h c (.running w) (c ::ₘ ((leaf ::ₘ a + a4) + b')) 0 0
      (some ⟨[], .exec c (lv.next r)⟩) rfl rfl ?_ Multiset.nodup_zero ?_ ?_ ?_ ?_ ?_ ?_ .nil ?_
    · intro x _ hx
      simp only [Multiset.mem_cons, Multiset.mem_add, not_or] at hx
      exact hkeep x hx.1 hx.2.2.1
    · intro x hx
      exact absurd hx (Multiset.notMem_zero x)
    · exact fun x => (hlive x).trans (by simp)
    · exact fun x hx => h.old x ((hlive x).1 hx)
    · rw [h0]
      simp only [Multiset.add_cons, Multiset.cons_add, zero_add, add_zero, add_assoc]
      rw [Multiset.cons_swap]
    · rintro th' h'
      cases h'
      refine ⟨{ fc with susp := .running }, ⟨update_self .., _, b', h4, ?_, rfl⟩, rfl, _, [], _,
        rfl, update_self .., .inl ⟨rfl, hex⟩⟩
      refine hc.agree fun x hx => hkeep x ?_ ?_
      · rintro rfl
        exact hlb' hx
      · rintro rfl
        exact hcb' hx
    · intro h'
      cases h'
    · exact fun _ => ⟨rfl, rfl⟩

/-! ## Destructors, the scheduler and the outside -/

/-- A destroyed frame is destroyed once, and what it holds is next. -/
theorem destroy_sim (h : Inv code s threads g) {o : Option Handle} {rest : List (Option Handle)}
    {next : Next P} (hs : s.status = .ok) (hj : s.job w = some ⟨o :: rest, next⟩) :
    (stepDestroy s w o rest next).status = .ok ∧
      (stepDestroy s w o rest next).trace = s.trace ∧
      ∃ g', Inv code (stepDestroy s w o rest next) threads g' := by
  have hd := h.doomed w
  rw [hj] at hd
  generalize hm : g.ids (.inr w) = m at hd
  have hnext : ∀ ts', SameNext (s.job w) (some ⟨ts', next⟩) := by
    intro ts' ts next' hts
    rw [hj, Option.some.injEq, Job.mk.injEq] at hts
    exact ⟨ts', by rw [hts.2]⟩
  have hbusy : ∀ ts', Busy (some (Job.mk ts' next)) → Busy (s.job w) := by
    intro ts' hb
    rw [hj]
    exact hb
  obtain _ | ⟨ht, hts⟩ := hd
  rename_i tv a' b'
  -- the frame, which is not running, and the tasks in its slots
  have hfree : ∀ {c : Handle} {f : Frame n P V E} {locals : Fin n → TaskVal n P V E}
      {ids : Fin n → Multiset Handle}, s.heap c = some f → f.susp ≠ .running →
      (∀ k, f.susp ≠ .io k none) → (∀ i, TaskRep s.heap (f.tasks i) (locals i) (ids i)) → a' = c ::ₘ ∑ i, ids i →
      stepDestroy s w (some c) rest next =
          { s with heap := update s.heap c none }.goTo w (List.ofFn f.tasks ++ rest) next ∧
        ∃ g', Inv code ({ s with heap := update s.heap c none }.goTo w
          (List.ofFn f.tasks ++ rest) next) threads g' := by
    intro c f locals ids hf hrun hio hl ha
    rw [ha, Multiset.cons_add] at hm
    constructor
    · unfold stepDestroy
      simp only [hf]
    have hlive : ∀ x, update s.heap c none x ≠ none ↔ s.live x ∧ x ≠ c := by
      intro x
      by_cases hx : x = c
      · simp [hx]
      · simp [hx]
    have hnd := h.owned.nodup (.inr w)
    rw [hm, Multiset.nodup_cons] at hnd
    have hkeep : ∀ x ∈ ∑ i, ids i + b', update s.heap c none x = s.heap x := by
      intro x hx
      refine update_of_ne ?_ ..
      rintro rfl
      exact hnd.1 hx
    refine h.worker (m := ∑ i, ids i + b') rfl rfl ?_ ?_ ?_ ?_ (fun _ => hnext _) (hbusy _)
    · intro x _ hx
      refine update_of_ne ?_ ..
      rintro rfl
      exact hx (by rw [hm]; exact Multiset.mem_cons_self x _)
    · refine h.owned.free (o := .inr w) (c := c) ?_ ?_ hlive
      · intro p hp
        exact update_of_ne hp ..
      · rw [update_self, hm]
    · exact fun x hx => h.old x ((hlive x).1 hx).1
    · refine (Doomed.slots hl).append hts |>.agree hkeep
  cases ht with
  | null =>
    refine ⟨hs, rfl, h.worker (m := b') rfl rfl (fun _ _ _ => rfl) ?_ h.old hts (fun _ => hnext _)
      (hbusy _)⟩
    have : b' = g.ids (.inr w) := by rw [hm, zero_add]
    rw [this, update_eq_self]
    exact h.owned
  | @fresh c p tasks locals ids hf hl =>
    obtain ⟨he, hinv⟩ := hfree hf (fun he => by cases he) (fun _ he => by cases he) hl rfl
    rw [he]
    exact ⟨hs, rfl, hinv⟩
  | @done c f r locals ids hf hsus hr hl =>
    obtain ⟨he, hinv⟩ := hfree hf (fun he => by rw [hsus] at he; cases he)
      (fun _ he => by rw [hsus] at he; cases he) hl rfl
    rw [he]
    exact ⟨hs, rfl, hinv⟩

theorem back_sim (h : Inv code s threads g) (hj : s.job w = some ⟨[], .back⟩) :
    ∃ g', Inv code (s.idle w) threads g' := by
  have hd := h.doomed w
  rw [hj] at hd
  refine h.worker (m := g.ids (.inr w)) rfl rfl (fun _ _ _ => rfl) ?_ h.old hd ?_ ?_
  · rw [update_eq_self]
    exact h.owned
  · intro hb
    rw [hj] at hb
    exact absurd rfl hb
  · exact fun hb => hb.elim

/-- The worker resumes a coroutine the scheduler had. -/
theorem resume_sim (h : Inv code s threads g) (hs : s.status = .ok) (hj : s.job w = none)
    (hl : leaf ∈ s.ready) :
    (stepResume s w leaf).status = .ok ∧ (stepResume s w leaf).trace = s.trace ∧
      ∃ g', Inv code (stepResume s w leaf) threads g' := by
  obtain ⟨t, th, ht, hp, rfl⟩ := h.ready leaf hl
  obtain ⟨f, hrep, hat⟩ := h.thread t th ht
  rw [hp] at hat
  obtain ⟨-, hex, p, hctl, hsus⟩ := hat
  have he : stepResume s w (g.leaf t) =
      ({ s with ready := s.ready.erase (g.leaf t) }.put (g.leaf t)
        { f with susp := .running }).goTo w [] (.exec (g.leaf t) p) := by
    unfold stepResume
    simp only [hrep.1]
    rcases hsus with hsus | ⟨k, v, hsus, rfl⟩
    · simp only [hsus]
    · simp only [hsus]
  rw [he]
  refine ⟨hs, rfl, ?_⟩
  have hself : update threads t (some th) = threads := by
    rw [← ht, update_eq_self]
  rw [← hself]
  have hlive : ∀ x, update s.heap (g.leaf t) (some { f with susp := .running }) x ≠ none ↔
      s.live x := fun x => live_put hrep.1
  refine ⟨_, h.change (g.leaf t) (.running w) g.ids (· = w) (fun _ _ => rfl) ?_ ?_ ?_ ?_ ?_ ?_
    ?_ ?_ ?_ ?_ ?_ ?_⟩
  · intro v hv
    exact ⟨rfl, update_of_ne hv ..⟩
  · intro o ho _ x hx
    refine update_of_ne ?_ ..
    rintro rfl
    exact ho (h.owned.unique _ _ _ hx hrep.leaf_mem)
  · have hne : (Sum.inl t : Handle ⊕ W) ≠ .inr w := fun he => by cases he
    exact h.owned.move hne (fun _ _ _ => rfl) rfl hlive
  · exact fun x hx => h.old x ((hlive x).1 hx)
  · rintro th' h'
    cases h'
    obtain ⟨-, a, b, hloc, hc, hids⟩ := hrep
    have hnd := h.owned.nodup (.inl t)
    rw [hids, Multiset.nodup_cons] at hnd
    have hkeep : ∀ x ∈ a + b,
        update s.heap (g.leaf t) (some { f with susp := .running }) x = s.heap x := by
      intro x hx
      refine update_of_ne ?_ ..
      rintro rfl
      exact hnd.1 hx
    refine ⟨_, ⟨update_self .., a, b, hloc.agree fun x hx => hkeep x ?_,
      hc.agree fun x hx => hkeep x ?_, hids⟩, rfl, p, [], _, hctl, update_self .., .inl ⟨rfl, hex⟩⟩
    · exact Multiset.mem_add.2 (.inl hx)
    · exact Multiset.mem_add.2 (.inr hx)
  · intro h'
    cases h'
  · rintro t' th' v - ht' hp' rfl
    have := h.busy_of_running ht' hp'
    rw [hj] at this
    exact this.elim
  · intro th' v _ hp'
    rw [hp] at hp'
    cases hp'
  · exact h.nodup.erase _
  · intro t' th' htt ht' hx
    refine (List.mem_erase_of_ne fun he => ?_).2 hx
    exact htt (h.leaf_inj ht' ht he)
  · intro x hx
    refine .inr ⟨List.mem_of_mem_erase hx, fun _ _ he => ?_⟩
    rw [he] at hx
    exact h.nodup.not_mem_erase hx
  · rintro v rfl
    have hd := h.doomed v
    rw [hj] at hd
    rw [goTo_job, update_self]
    generalize g.ids (.inr v) = m at hd ⊢
    cases hd
    exact ⟨.nil, fun _ => .inl ⟨rfl, rfl⟩⟩

omit [DecidableEq W] in
/-- Only a thread's innermost coroutine waits for an event. -/
theorem Inv.waiting_leaf (h : Inv code s threads g) (hf : s.heap leaf = some f) {k : V → P}
    (hk : f.susp = .io k none) :
    ∃ t th, threads t = some th ∧ g.leaf t = leaf ∧ g.place t = .waiting ∧ th.ctl = .waits k ∧
      f.ex_ = none := by
  obtain ⟨o, ho⟩ := (h.owned.live_iff leaf).1 (by rw [State.live, hf]; exact Option.some_ne_none f)
  cases o with
  | inr w => exact absurd hk ((h.doomed w).not_io ho hf k none)
  | inl t =>
    cases hth : threads t with
    | none =>
      rw [h.ended t hth] at ho
      exact absurd ho (Multiset.notMem_zero leaf)
    | some th =>
      obtain ⟨f', ⟨hf', a, b, hl, hc, hids⟩, hat⟩ := h.thread t th hth
      rw [hids] at ho
      have hleaf : leaf = g.leaf t := by
        rcases Multiset.mem_cons.1 ho with ho | ho
        · exact ho
        · rcases Multiset.mem_add.1 ho with ho | ho
          · exact absurd hk (hl.not_io ho hf k none)
          · exact absurd hk (hc.not_io ho hf k none)
      rw [← hleaf, hf, Option.some.injEq] at hf'
      subst hf'
      refine ⟨t, th, hth, hleaf.symm, ?_⟩
      cases hp : g.place t with
      | ready =>
        rw [hp] at hat
        obtain ⟨-, -, p, -, hs | ⟨k', v, hs, -⟩⟩ := hat
        · rw [hk] at hs
          cases hs
        · rw [hk] at hs
          cases hs
      | running w =>
        rw [hp] at hat
        have hs := hat.1
        rw [hk] at hs
        cases hs
      | waiting =>
        rw [hp] at hat
        obtain ⟨hex, k', hctl, hs⟩ := hat
        rw [hk] at hs
        cases hs
        exact ⟨rfl, hctl, hex⟩

omit [DecidableEq W] in
/-- What the coroutine waits for is there, and it is scheduled. -/
theorem complete_sim (h : Inv code s threads g) {th : Thread n P V E} (ht : threads t = some th)
    (hp : g.place t = .waiting) (hf : s.heap (g.leaf t) = some f) (hex : f.ex_ = none)
    (k : V → P) (v : V) :
    ∃ g', Inv code
      { s.put (g.leaf t) { f with susp := .io k (some v) } with ready := s.ready ++ [g.leaf t] }
      (update threads t (some { th with ctl := .runs (k v) })) g' := by
  obtain ⟨f', hrep, hat⟩ := h.thread t th ht
  rw [hp] at hat
  have hff : f = f' := Option.some.inj (hf.symm.trans hrep.1)
  subst hff
  have hlive : ∀ x, update s.heap (g.leaf t) (some { f with susp := .io k (some v) }) x ≠ none ↔
      s.live x := fun x => live_put hf
  -- a thread that waits is not in the scheduler's hands
  have hout : g.leaf t ∉ s.ready := by
    intro hl
    obtain ⟨t', th', ht', hp', hl'⟩ := h.ready _ hl
    rw [h.leaf_inj ht' ht hl', hp] at hp'
    cases hp'
  refine ⟨_, h.change (g.leaf t) .ready g.ids (fun _ => False) (fun _ _ => rfl)
    (fun _ _ => ⟨rfl, rfl⟩) ?_ ?_ ?_ ?_ ?_ ?_ ?_ ?_ ?_ ?_ ?_⟩
  · intro o ho _ x hx
    refine update_of_ne ?_ ..
    rintro rfl
    exact ho (h.owned.unique _ _ _ hx hrep.leaf_mem)
  · have hne : (Sum.inl t : Handle ⊕ W) ≠ .inl (t + 1) :=
      fun he => Nat.succ_ne_self t (Sum.inl_injective he).symm
    exact h.owned.move hne (fun _ _ _ => rfl) rfl hlive
  · exact fun x hx => h.old x ((hlive x).1 hx)
  · rintro th' h'
    cases h'
    obtain ⟨-, a, b, hloc, hc, hids⟩ := hrep
    have hnd := h.owned.nodup (.inl t)
    rw [hids, Multiset.nodup_cons] at hnd
    have hkeep : ∀ x ∈ a + b,
        update s.heap (g.leaf t) (some { f with susp := .io k (some v) }) x = s.heap x := by
      intro x hx
      refine update_of_ne ?_ ..
      rintro rfl
      exact hnd.1 hx
    refine ⟨_, ⟨update_self .., a, b, hloc.agree fun x hx => hkeep x ?_,
      hc.agree fun x hx => hkeep x ?_, hids⟩, ?_, hex, k v, rfl, .inr ⟨k, v, rfl, rfl⟩⟩
    · exact Multiset.mem_add.2 (.inl hx)
    · exact Multiset.mem_add.2 (.inr hx)
    · exact List.mem_append_right _ (List.mem_singleton_self _)
  · intro h'
    cases h'
  · exact fun _ _ _ _ _ _ hK => hK.elim
  · intro th' v' _ hp'
    rw [hp] at hp'
    cases hp'
  · rw [List.nodup_append]
    refine ⟨h.nodup, List.nodup_singleton _, ?_⟩
    rintro x hx y hy rfl
    exact hout (List.mem_singleton.1 hy ▸ hx)
  · intro t' th' _ _ hx
    exact List.mem_append_left _ hx
  · intro x hx
    rcases List.mem_append.1 hx with hx | hx
    · exact .inr ⟨hx, fun _ _ he => hout (he ▸ hx)⟩
    · exact .inl ⟨List.mem_singleton.1 hx, rfl, rfl⟩
  · exact fun _ hK => hK.elim

/-- A new thread whose frames `t` and `a` are new. -/
theorem enter_sim (h : Inv code s threads g) {p : P} {heap : Heap n P V E} {next : Handle}
    {tasks : Fin n → Option Handle} {locals : Fin n → TaskVal n P V E}
    (hf : heap t = some (newFrame p tasks)) (hl : Locals heap tasks locals a)
    (hnd : (t ::ₘ a).Nodup) (hnew : ∀ x ∈ t ::ₘ a, s.next ≤ x ∧ x < next) (hnext : s.next ≤ next)
    (hkeep : ∀ x, s.live x → heap x = s.heap x)
    (hlive : ∀ x, heap x ≠ none ↔ x ∈ t ::ₘ a ∨ s.live x) :
    ∃ g', Inv code { s with heap, next, ready := s.ready ++ [t] }
      (update threads t (some { ctl := .runs p, locals, stack := [] })) g' := by
  have hmem : t ∈ t ::ₘ a := Multiset.mem_cons_self t a
  have hfree : threads t = none := h.free_of_le (hnew t hmem).1
  have hout : t ∉ s.ready := by
    intro ht
    obtain ⟨t', th', ht', -, rfl⟩ := h.ready t ht
    obtain ⟨f, hrep, -⟩ := h.thread t' th' ht'
    have := h.old _ (h.owned.live_of_mem hrep.leaf_mem)
    exact absurd (hnew _ hmem).1 (Nat.not_le.2 this)
  refine ⟨_, h.change t .ready (update g.ids (.inl t) (t ::ₘ a)) (fun _ => False) ?_ ?_ ?_ ?_ ?_ ?_
    ?_ ?_ ?_ ?_ ?_ ?_ ?_⟩
  · intro t' ht'
    exact update_of_ne (fun he => ht' (Sum.inl_injective he)) ..
  · exact fun w _ => ⟨update_of_ne (fun he => by cases he) .., rfl⟩
  · intro o _ _ x hx
    exact hkeep x (h.owned.live_of_mem hx)
  · have hne : (Sum.inl t : Handle ⊕ W) ≠ .inl (t + 1) :=
      fun he => Nat.succ_ne_self t (Sum.inl_injective he).symm
    refine h.owned.alloc hne ?_ hnd ?_ ?_ hlive
    · intro o ho _
      exact update_of_ne ho ..
    · intro x hx hl'
      exact absurd (hnew x hx).1 (Nat.not_le.2 (h.old x hl'))
    · rw [update_self, update_of_ne (Ne.symm hne), h.ended t hfree, zero_add]
  · intro x hx
    rcases (hlive x).1 hx with hx | hx
    · exact (hnew x hx).2
    · exact Nat.lt_of_lt_of_le (h.old x hx) hnext
  · rintro th' h'
    cases h'
    rw [update_self]
    refine ⟨_, ⟨hf, a, 0, hl, .root, by rw [add_zero]⟩, ?_, rfl, p, rfl, .inl rfl⟩
    exact List.mem_append_right _ (List.mem_singleton_self t)
  · intro h'
    cases h'
  · exact fun _ _ _ _ _ _ hK => hK.elim
  · intro th' v ht'
    rw [hfree] at ht'
    cases ht'
  · rw [List.nodup_append]
    refine ⟨h.nodup, List.nodup_singleton t, ?_⟩
    rintro x hx y hy rfl
    exact hout (List.mem_singleton.1 hy ▸ hx)
  · intro t' th' _ _ hx
    exact List.mem_append_left _ hx
  · intro x hx
    rcases List.mem_append.1 hx with hx | hx
    · refine .inr ⟨hx, fun th' ht' => ?_⟩
      rw [hfree] at ht'
      cases ht'
    · exact .inl ⟨List.mem_singleton.1 hx, rfl, rfl⟩
  · exact fun _ hK => hK.elim

/-- The name of the thread that `start` makes. -/
def rootOf (s : State n P V E A W) : Option (Fin n × P) → Handle
  | none => s.next
  | some _ => s.next + 1

theorem start_sim (h : Inv code s threads g) (p : P) (task : Option (Fin n × P)) :
    ∃ g', Inv code (stepStart s p task)
      (update threads (rootOf s task)
        (some { ctl := .runs p, locals := Direct.startLocals task, stack := [] })) g' := by
  have hold : ∀ {x}, s.live x → x ≠ s.next ∧ x ≠ s.next + 1 := by
    intro x hx
    have := h.old x hx
    exact ⟨Nat.ne_of_lt this, Nat.ne_of_lt (Nat.lt_succ_of_lt this)⟩
  have hne : s.next ≠ s.next + 1 := Nat.ne_of_lt (Nat.lt_succ_self _)
  cases task with
  | none =>
    suffices hinv : ∃ g', Inv code
        { s with heap := update s.heap s.next (some (newFrame p fun _ => none))
                 next := s.next + 1, ready := s.ready ++ [s.next] }
        (update threads s.next (some { ctl := .runs p, locals := fun _ => .null, stack := [] }))
        g' by
      obtain ⟨g', hg'⟩ := hinv
      exact ⟨g', hg'.withTrace _⟩
    refine enter_sim h (t := s.next) (a := 0) (update_self ..) .null (by simp) ?_
      (Nat.le_succ _) ?_ ?_
    · intro x hx
      rw [Multiset.mem_cons] at hx
      obtain rfl | hx := hx
      · exact ⟨Nat.le_refl _, Nat.lt_succ_self _⟩
      · exact absurd hx (Multiset.notMem_zero x)
    · exact fun x hx => update_of_ne (hold hx).1 ..
    · intro x
      by_cases hx : x = s.next
      · simp [hx]
      · simp [hx]
  | some task =>
    obtain ⟨param, q⟩ := task
    set heap := update (update s.heap s.next (some (newFrame q fun _ => none))) (s.next + 1)
      (some (newFrame p (update (fun _ => none) param (some s.next)))) with hheap
    have hq : TaskRep heap (some s.next) (.fresh q fun _ => .null)
        (s.next ::ₘ ∑ _ : Fin n, 0) := by
      refine .fresh ?_ fun _ => .null
      rw [hheap, update_of_ne hne, update_self]
    rw [Finset.sum_const_zero] at hq
    suffices hinv : ∃ g', Inv code
        { s with heap, next := s.next + 2, ready := s.ready ++ [s.next + 1] }
        (update threads (s.next + 1) (some
          { ctl := .runs p
            locals := update (fun _ => .null) param (.fresh q fun _ => .null), stack := [] })) g' by
      obtain ⟨g', hg'⟩ := hinv
      exact ⟨g', hg'.withTrace _⟩
    refine enter_sim h (t := s.next + 1) (a := s.next ::ₘ 0) (update_self ..) (.single hq param)
      (by simp) ?_ (Nat.le_add_right _ _) ?_ ?_
    · intro x hx
      simp only [Multiset.mem_cons, Multiset.notMem_zero, or_false] at hx
      rcases hx with rfl | rfl
      · exact ⟨Nat.le_succ _, Nat.lt_succ_self _⟩
      · exact ⟨Nat.le_refl _, Nat.lt_succ_of_lt (Nat.lt_succ_self _)⟩
    · intro x hx
      show heap x = s.heap x
      rw [hheap, update_of_ne (hold hx).2, update_of_ne (hold hx).1]
    · intro x
      by_cases h1 : x = s.next + 1
      · simp [hheap, h1]
      · by_cases h2 : x = s.next
        · simp [hheap, h2]
        · simp [hheap, h1, h2]

/-! ## Runs -/

theorem step_trace {act : Act n P V W} (hstep : step code debug s act = some s') :
    s.trace <+: s'.trace := by
  have hexec : ∀ w h p, s.trace <+: (stepExec code s w h p).trace := by
    intro w h p
    unfold stepExec stepAwait
    repeat' split
    all_goals first | exact List.prefix_refl _ | exact List.prefix_append _ _
  have hfinal : ∀ w h, s.trace <+: (stepFinal debug s w h).trace := by
    intro w h
    unfold stepFinal
    dsimp only
    repeat' split
    all_goals first | exact List.prefix_refl _ | exact List.prefix_append _ _
  have hdestroy : ∀ w o rest next, (stepDestroy s w o rest next).trace = s.trace := by
    intro w o rest next
    unfold stepDestroy
    repeat' split
    all_goals rfl
  have hresume : ∀ w h, (stepResume s w h).trace = s.trace := by
    intro w h
    unfold stepResume
    dsimp only
    repeat' split
    all_goals rfl
  unfold step at hstep
  split at hstep
  · cases act with
    | start p task =>
      cases hstep
      cases task with
      | none => exact List.prefix_append _ _
      | some task => exact List.prefix_append _ _
    | complete h v =>
      dsimp only at hstep
      split at hstep
      · cases hstep
      · split at hstep
        · cases hstep
          exact List.prefix_append _ _
        · cases hstep
    | resume w h =>
      dsimp only at hstep
      split at hstep
      · cases hstep
        rw [hresume]
      · cases hstep
    | work w =>
      simp only [stepWork] at hstep
      split at hstep
      · cases hstep
      · cases hstep
        rw [hdestroy]
      · cases hstep
        exact hexec ..
      · cases hstep
        exact hfinal ..
      · cases hstep
        exact List.prefix_refl _
  · cases hstep

theorem step_sim {act : Act n P V W} (hsim : Sim code s d)
    (hstep : step code debug s act = some s') :
    ∃ as d', run (Direct.step code debug) d as = some d' ∧ Sim code s' d' := by
  rcases hsim with ⟨hu, htr⟩ | ⟨hd, htr, hs | ⟨hs, g, h⟩⟩
  · exact ⟨[], d, rfl, .inl ⟨hu, htr.trans (step_trace hstep)⟩⟩
  · unfold step at hstep
    rw [if_neg (by rw [hs]; exact fun he => by cases he)] at hstep
    cases hstep
  · rw [hs] at hd
    unfold step at hstep
    rw [if_pos hs] at hstep
    -- steps that the direct semantics does not have
    have hstay : s'.status = .ok → s'.trace = s.trace → (∃ g, Inv code s' d.threads g) →
        ∃ as d', run (Direct.step code debug) d as = some d' ∧ Sim code s' d' :=
      fun h1 h2 h3 => ⟨[], d, rfl, sim_ok h1 hd (htr.trans h2.symm) h3⟩
    cases act with
    | start p task =>
      cases hstep
      have hfree : d.threads (rootOf s task) = none := by
        apply h.free_of_le
        cases task with
        | none => exact Nat.le_refl _
        | some task => exact Nat.le_succ _
      refine ⟨[.start (rootOf s task) p task],
        (d.put (rootOf s task)
          { ctl := .runs p, locals := Direct.startLocals task, stack := [] }).emit
          (.started (rootOf s task)), ?_, sim_ok ?_ hd ?_ (start_sim h p task)⟩
      · rw [run_one]
        simp [Direct.step, hd, hfree]
      · cases task with
        | none => exact hs
        | some task => exact hs
      · cases task with
        | none => exact congrArg (· ++ _) htr
        | some task => exact congrArg (· ++ _) htr
    | complete leaf v =>
      dsimp only at hstep
      split at hstep
      · cases hstep
      · rename_i f hf
        split at hstep
        · rename_i k hk
          cases hstep
          obtain ⟨t, th, ht, rfl, hp, hctl, hex⟩ := h.waiting_leaf hf hk
          obtain ⟨g', hg'⟩ := complete_sim h ht hp hf hex k v
          refine ⟨[.complete t v], (d.put t { th with ctl := .runs (k v) }).emit (.input v), ?_,
            sim_ok hs hd (congrArg (· ++ _) htr) ⟨g', hg'.withTrace _⟩⟩
          rw [run_one]
          obtain ⟨ctl, locals, stack⟩ := th
          cases hctl
          simp [Direct.step, hd, ht]
        · cases hstep
    | resume w leaf =>
      dsimp only at hstep
      split at hstep
      · rename_i hc
        cases hstep
        obtain ⟨h1, h2, h3⟩ := resume_sim h hs hc.1 hc.2
        exact hstay h1 h2 h3
      · cases hstep
    | work w =>
      simp only [stepWork] at hstep
      split at hstep
      · cases hstep
      · rename_i o rest next hj
        cases hstep
        obtain ⟨h1, h2, h3⟩ := destroy_sim h hs hj
        exact hstay h1 h2 h3
      · rename_i leaf p hj
        cases hstep
        obtain ⟨t, leaf', th, f, a, b, p', hr, hctl, ⟨he, hex⟩ | ⟨he, -⟩⟩ :=
          h.runs hj (fun he => by cases he)
        · cases he
          exact exec_sim h hr hctl hex hs hd htr
        · cases he
      · rename_i leaf hj
        cases hstep
        obtain ⟨t, leaf', th, f, a, b, p', hr, hctl, ⟨he, -⟩ | ⟨he, r, hp, hres⟩⟩ :=
          h.runs hj (fun he => by cases he)
        · cases he
        · cases he
          exact final_sim h hr hctl hp hres hs hd htr
      · rename_i hj
        cases hstep
        exact hstay hs rfl (back_sim h hj)

omit [DecidableEq W] in
theorem init_sim : Sim code (init : State n P V E A W) Direct.init := by
  refine sim_ok rfl rfl rfl ⟨⟨fun t => t, fun _ => .waiting, fun _ => 0⟩, ?_, ?_, ?_, ?_, ?_, ?_, ?_, ?_⟩
  · refine ⟨fun _ => Multiset.nodup_zero, fun x => ?_, fun o o' x hx => ?_⟩
    · simp [init]
    · exact absurd hx (Multiset.notMem_zero x)
  · exact fun x hx => absurd rfl hx
  · intro t th ht
    cases ht
  · exact fun _ _ => rfl
  · exact List.nodup_nil
  · intro x hx
    cases hx
  · exact fun _ => .nil
  · exact fun _ hb => hb.elim

theorem run_sim {acts : List (Act n P V W)} (hr : run (step code debug) init acts = some s) :
    ∃ as d, run (Direct.step code debug) Direct.init as = some d ∧ Sim code s d :=
  run_simulates (fun _ _ _ _ hsim hstep _ => step_sim hsim hstep) init_sim hr (eachStep_true _ _)

end Kosio.Async
