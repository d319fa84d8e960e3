import Mathlib.Data.List.Basic
import Mathlib.Algebra.Order.Group.Multiset
import Kosio.Lib.Run

/-!
# What a run puts out, and queues that are served in turns

`emitted step out s as` is what the steps of a run put out, in order.

* Conservation (`run_conserves`): where each step takes in, puts out and keeps the same
  things, so does a run.
* Bounded wait (`run_serves`): a queue from whose front a machine takes `batch` elements
  each time a number of turns, `due` of the state, has gone by, and at least once in
  `period` turns, is served `n` times within about `n * period` of them: what has left it
  is that much of the front, and what has joined is behind the rest.  Where the turns
  are counted by a word that wraps, the wrap only makes the next service earlier
  (`tick_mod`).
-/

namespace Steps

variable {σ α β : Type*} {step : σ → α → Option σ}

/-! ## Output -/

def emitted (step : σ → α → Option σ) (out : σ → α → List β) : σ → List α → List β
  | _, [] => []
  | s, a :: as => out s a ++ (step s a).elim [] fun t => emitted step out t as

@[simp] theorem emitted_nil (out : σ → α → List β) (s : σ) : emitted step out s [] = [] := rfl

theorem emitted_cons (out : σ → α → List β) {s t : σ} {a : α} (hs : step s a = some t)
    (as : List α) : emitted step out s (a :: as) = out s a ++ emitted step out t as := by
  rw [emitted, hs]
  rfl

theorem emitted_append (out : σ → α → List β) {s t : σ} {as : List α}
    (hr : run step s as = some t) (bs : List α) :
    emitted step out s (as ++ bs) = emitted step out s as ++ emitted step out t bs := by
  induction as generalizing s with
  | nil =>
    cases hr
    rfl
  | cons a as ih =>
    obtain ⟨u, h1, h2⟩ := (run_cons ..).1 hr
    rw [List.cons_append, emitted_cons out h1, emitted_cons out h1, ih h2, List.append_assoc]

/-- **Conservation rule.** -/
theorem run_conserves (Inv : σ → Prop) {ok : σ → α → σ → Prop} {taken out : σ → α → List β}
    {places : σ → Multiset β} (hkeep : ∀ s a t, Inv s → step s a = some t → ok s a t → Inv t)
    (hbal : ∀ s a t, Inv s → step s a = some t → ok s a t →
      (taken s a : Multiset β) + places s = (out s a : Multiset β) + places t)
    {s t : σ} {as : List α} (hi : Inv s) (hr : run step s as = some t) (hok : EachStep step ok s as) :
    (emitted step taken s as : Multiset β) + places s =
      (emitted step out s as : Multiset β) + places t := by
  induction as generalizing s with
  | nil =>
    cases hr
    rfl
  | cons a as ih =>
    obtain ⟨u, h1, h2⟩ := (run_cons ..).1 hr
    obtain ⟨ha, has⟩ := hok u h1
    rw [emitted_cons taken h1, emitted_cons out h1, ← Multiset.coe_add, ← Multiset.coe_add]
    calc (taken s a + emitted step taken u as + places s : Multiset β)
        = emitted step taken u as + (taken s a + places s) := by ac_rfl
      _ = emitted step taken u as + (out s a + places u) := by rw [hbal s a u hi h1 ha]
      _ = out s a + (emitted step taken u as + places u) := by ac_rfl
      _ = out s a + (emitted step out u as + places t) := by
        rw [ih (hkeep s a u hi h1 ha) h2 has]
      _ = out s a + emitted step out u as + places t := (add_assoc ..).symm

/-! ## Service -/

/-- From `q` to `q'` in `turns` turns: `new` have joined at the end, and services have taken
`gone` from the front, `batch` elements each as far as there were any.  `due` and `due'` are
the turns to the next service. -/
def Serves (batch period : Nat) (q new gone q' : List β) (turns due due' : Nat) : Prop :=
  q ++ new = gone ++ q' ∧
    ∃ n, min (n * batch) q.length ≤ gone.length ∧ turns + due' ≤ due + n * period

section Serves

variable {batch period turns turns' due due' due'' : Nat} {q q' q'' new new' gone gone' : List β}

/-- No service was due. -/
theorem Serves.early (hq : q ++ new = gone ++ q') (h : turns + due' ≤ due) :
    Serves batch period q new gone q' turns due due' := by
  refine ⟨hq, 0, ?_, ?_⟩
  · rw [Nat.zero_mul, Nat.zero_min]
    exact Nat.zero_le _
  · omega

theorem Serves.serve (hq : q ++ new = gone ++ q') (hgone : min batch q.length ≤ gone.length)
    (h : turns + due' ≤ due + period) : Serves batch period q new gone q' turns due due' := by
  refine ⟨hq, 1, ?_, ?_⟩
  · rwa [Nat.one_mul]
  · omega

theorem Serves.trans (h : Serves batch period q new gone q' turns due due')
    (h' : Serves batch period q' new' gone' q'' turns' due' due'') :
    Serves batch period q (new ++ new') (gone ++ gone') q'' (turns + turns') due due'' := by
  obtain ⟨hq, n, hn, hd⟩ := h
  obtain ⟨hq', m, hm, hd'⟩ := h'
  refine ⟨?_, n + m, ?_, ?_⟩
  · rw [← List.append_assoc, hq, List.append_assoc, hq', List.append_assoc]
  · have hlen := congrArg List.length hq
    rw [List.length_append, List.length_append] at hlen
    rw [List.length_append, Nat.add_mul]
    omega
  · rw [Nat.add_mul]
    omega

/-- After `n` periods there have been `n` services. -/
theorem Serves.taken (h : Serves batch period q new gone q' turns due due') {n : Nat}
    (hturns : n * period + due < turns + due' + period) :
    q ++ new = gone ++ q' ∧ min (n * batch) q.length ≤ gone.length := by
  obtain ⟨hq, m, hm, hd⟩ := h
  refine ⟨hq, Nat.le_trans ?_ hm⟩
  have hle : n ≤ m := by
    by_contra hlt
    have : (m + 1) * period ≤ n * period := Nat.mul_le_mul_right _ (by omega)
    rw [Nat.add_mul, Nat.one_mul] at this
    omega
  have : n * batch ≤ m * batch := Nat.mul_le_mul_right _ hle
  omega

/-- **Service rule.** -/
theorem run_serves {γ : Type*} (Inv : σ → Prop) {queue : σ → List β} {due : σ → Nat}
    {joined left : σ → α → List β} {out : σ → α → List γ}
    (hkeep : ∀ s a t, Inv s → step s a = some t → Inv t)
    (hserve : ∀ s a t, Inv s → step s a = some t →
      Serves batch period (queue s) (joined s a) (left s a) (queue t) (out s a).length (due s)
        (due t))
    {s t : σ} {as : List α} (hi : Inv s) (hr : run step s as = some t) :
    Serves batch period (queue s) (emitted step joined s as) (emitted step left s as) (queue t)
      (emitted step out s as).length (due s) (due t) := by
  induction as generalizing s with
  | nil =>
    cases hr
    exact .early (List.append_nil _) (Nat.le_of_eq (Nat.zero_add _))
  | cons a as ih =>
    obtain ⟨u, h1, h2⟩ := (run_cons ..).1 hr
    rw [emitted_cons joined h1, emitted_cons left h1, emitted_cons out h1, List.length_append]
    exact (hserve s a u hi h1).trans (ih (hkeep s a u hi h1) h2)

end Serves

/-- A word that counts turns is a multiple of `k` next, or one further from the last one;
0 is a multiple, so the wrap is no exception. -/
theorem tick_mod {w : Nat} (tick : BitVec w) {k : Nat} (hpos : 0 < k)
    (hne : (tick + 1).toNat % k ≠ 0) : (tick + 1).toNat % k = tick.toNat % k + 1 := by
  have htick : (tick + 1).toNat = (tick.toNat + 1) % 2 ^ w := by simp
  rw [htick] at hne ⊢
  rcases Nat.lt_or_ge (tick.toNat + 1) (2 ^ w) with hlt | hge
  · rw [Nat.mod_eq_of_lt hlt] at hne ⊢
    rw [← Nat.mod_add_mod] at hne ⊢
    rcases Nat.lt_or_eq_of_le (Nat.mod_lt tick.toNat hpos) with h | h
    · exact Nat.mod_eq_of_lt h
    · rw [show tick.toNat % k + 1 = k from h, Nat.mod_self] at hne
      exact absurd rfl hne
  · have hwrap : tick.toNat + 1 = 2 ^ w := Nat.le_antisymm tick.isLt hge
    rw [hwrap, Nat.mod_self, Nat.zero_mod] at hne
    exact absurd rfl hne

end Steps
