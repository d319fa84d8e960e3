import Mathlib.Data.List.Basic
import Kosio.Lib.Run

/-!
# Agendas

What a timer is for.  Entries `0, 1, 2, …` are added with a due time that has
not passed.  A call at some time takes the entries that are due then, in the
order of their due times and, among equal ones, of their adding.  Time does not
go back.

In every run each entry is taken once, by the first call at or after its due
time, and over the whole run entries are taken in order (`exact`).
-/

namespace Agenda

open Steps

/-! ## Algorithm -/

structure State where
  due : Nat → Nat
  /-- how many entries have been added -/
  made : Nat
  /-- how many calls there had been when the entry was added -/
  birth : Nat → Nat
  /-- when each call was, and what it took -/
  calls : List (Nat × List Nat)

def init (due birth : Nat → Nat) : State := ⟨due, 0, birth, []⟩

def Before (due : Nat → Nat) (i j : Nat) : Prop := due i < due j ∨ (due i = due j ∧ i < j)

namespace State

/-- What has been taken, in order. -/
def taken (s : State) : List Nat := s.calls.flatMap (·.2)

def add (s : State) (due : Nat) : State :=
  { due := Function.update s.due s.made due
    made := s.made + 1
    birth := Function.update s.birth s.made s.calls.length
    calls := s.calls }

def call (s : State) (now : Nat) (out : List Nat) : State :=
  { s with calls := s.calls ++ [(now, out)] }

/-- A call at `now` may take `out`. -/
structure Takes (s : State) (now : Nat) (out : List Nat) : Prop where
  monotone : ∀ c ∈ s.calls, c.1 ≤ now
  sorted : out.Pairwise (Before s.due)
  mem : ∀ i, i ∈ out ↔ i < s.made ∧ i ∉ s.taken ∧ s.due i ≤ now

end State

inductive Op where
  | add (due : Nat)
  | call (now : Nat) (out : List Nat)

open Classical in
noncomputable def step (s : State) : Op → Option State
  | .add due => if ∀ c ∈ s.calls, c.1 < due then some (s.add due) else none
  | .call now out => if s.Takes now out then some (s.call now out) else none

/-- Each entry is taken exactly once, by the first call at or after its due time
and by no earlier one, and entries are taken in order. -/
structure Exact (s : State) : Prop where
  first : ∀ i < s.made, ∀ k now out, s.calls[k]? = some (now, out) →
    (i ∈ out ↔ s.birth i ≤ k ∧ s.due i ≤ now ∧
      ∀ j < k, s.birth i ≤ j → ∀ c, s.calls[j]? = some c → c.1 < s.due i)
  once : s.taken.Nodup
  order : s.taken.Pairwise (Before s.due)

/-! ## Invariant -/

structure Inv (s : State) : Prop where
  exact : Exact s
  born : ∀ i < s.made, s.birth i ≤ s.calls.length
  bound : ∀ i ∈ s.taken, i < s.made
  past : ∀ i ∈ s.taken, ∃ c ∈ s.calls, s.due i ≤ c.1
  waiting : ∀ i < s.made, i ∉ s.taken → ∀ c ∈ s.calls, c.1 < s.due i

theorem inv_init (due birth : Nat → Nat) : Inv (init due birth) :=
  ⟨⟨nofun, List.nodup_nil, List.Pairwise.nil⟩, nofun, nofun, nofun, nofun⟩

/-! ## Lemmas -/

theorem Before.ne {due : Nat → Nat} {i j : Nat} (h : Before due i j) : i ≠ j := by
  unfold Before at h
  rintro rfl
  omega

theorem mem_taken {s : State} {i : Nat} :
    i ∈ s.taken ↔ ∃ (k now : Nat) (out : List Nat), s.calls[k]? = some (now, out) ∧ i ∈ out := by
  simp only [State.taken, List.mem_flatMap]
  constructor
  · rintro ⟨⟨now, out⟩, hc, hi⟩
    obtain ⟨k, hk⟩ := List.mem_iff_getElem?.1 hc
    exact ⟨k, now, out, hk, hi⟩
  · rintro ⟨k, now, out, hk, hi⟩
    exact ⟨(now, out), List.mem_of_getElem? hk, hi⟩

theorem Inv.add {s : State} (h : Inv s) {d : Nat} (hd : ∀ c ∈ s.calls, c.1 < d) :
    Inv (s.add d) := by
  obtain ⟨⟨first, once, order⟩, born, bound, past, waiting⟩ := h
  have hdue : ∀ i, i < s.made → (s.add d).due i = s.due i := fun i hi =>
    Function.update_of_ne (by omega) ..
  have hbirth : ∀ i, i < s.made → (s.add d).birth i = s.birth i := fun i hi =>
    Function.update_of_ne (by omega) ..
  have hnew : (s.add d).due s.made = d ∧ (s.add d).birth s.made = s.calls.length :=
    ⟨Function.update_self .., Function.update_self ..⟩
  have hlt : ∀ i, i < s.made + 1 → i < s.made ∨ i = s.made := fun i hi => by omega
  refine ⟨⟨?_, once, ?_⟩, ?_, fun i hi => Nat.lt_succ_of_lt (bound i hi), ?_, ?_⟩
  · intro i hi k now out hk
    rcases hlt i hi with hi | rfl
    · rw [hdue i hi, hbirth i hi]
      exact first i hi k now out hk
    · rw [hnew.1, hnew.2]
      have hk' : k < s.calls.length := (List.getElem?_eq_some_iff.1 hk).1
      constructor
      · intro hm
        have := bound _ (mem_taken.2 ⟨k, now, out, hk, hm⟩)
        omega
      · intro hb
        omega
  · refine order.imp_of_mem fun {i j} hi hj hb => ?_
    unfold Before
    rw [hdue i (bound i hi), hdue j (bound j hj)]
    exact hb
  · intro i hi
    rcases hlt i hi with hi | rfl
    · rw [hbirth i hi]
      exact born i hi
    · exact Nat.le_of_eq hnew.2
  · intro i hi
    rw [hdue i (bound i hi)]
    exact past i hi
  · intro i hi hn c hc
    rcases hlt i hi with hi | rfl
    · rw [hdue i hi]
      exact waiting i hi hn c hc
    · rw [hnew.1]
      exact hd c hc

theorem Inv.call {s : State} (h : Inv s) {now : Nat} {out : List Nat} (ht : s.Takes now out) :
    Inv (s.call now out) := by
  obtain ⟨⟨first, once, order⟩, born, bound, past, waiting⟩ := h
  obtain ⟨hmono, hsorted, hmem⟩ := ht
  have htaken : (s.call now out).taken = s.taken ++ out := by
    simp [State.taken, State.call]
  have hold : ∀ k, k < s.calls.length → (s.call now out).calls[k]? = s.calls[k]? := fun k hk =>
    List.getElem?_append_left hk
  refine ⟨⟨?_, ?_, ?_⟩, ?_, ?_, ?_, ?_⟩
  · intro i hi k now' out' hk
    have hlt : k < s.calls.length + 1 := by
      simpa [State.call] using (List.getElem?_eq_some_iff.1 hk).1
    have hbefore : k ≤ s.calls.length → ((∀ j < k, s.birth i ≤ j →
        ∀ c, (s.call now out).calls[j]? = some c → c.1 < s.due i) ↔
        ∀ j < k, s.birth i ≤ j → ∀ c, s.calls[j]? = some c → c.1 < s.due i) := by
      intro hkl
      refine forall₂_congr fun j hj => ?_
      rw [hold j (by omega)]
    show _ ↔ s.birth i ≤ k ∧ s.due i ≤ now' ∧ _
    rw [show (s.call now out).birth = s.birth from rfl, show (s.call now out).due = s.due from rfl,
      hbefore (by omega)]
    by_cases hkl : k < s.calls.length
    · rw [hold k hkl] at hk
      exact first i hi k now' out' hk
    · have hkl : k = s.calls.length := by omega
      subst hkl
      have hc : now' = now ∧ out' = out := by simpa [State.call, eq_comm] using hk
      obtain ⟨rfl, rfl⟩ := hc
      rw [hmem]
      constructor
      · rintro ⟨-, hn, hd⟩
        exact ⟨born i hi, hd, fun j _ _ c hc => waiting i hi hn c (List.mem_of_getElem? hc)⟩
      · rintro ⟨-, hd, hall⟩
        refine ⟨hi, fun hm => ?_, hd⟩
        obtain ⟨j, r, o, hj, hio⟩ := mem_taken.1 hm
        obtain ⟨h1, h2, -⟩ := (first i hi j r o hj).1 hio
        have := hall j (List.getElem?_eq_some_iff.1 hj).1 h1 _ hj
        exact absurd h2 (Nat.not_le.2 this)
  · rw [htaken, List.nodup_append]
    refine ⟨once, hsorted.imp Before.ne, fun i hi j hj he => ?_⟩
    exact ((hmem j).1 hj).2.1 (he ▸ hi)
  · rw [htaken, List.pairwise_append]
    refine ⟨order, hsorted, fun i hi j hj => Or.inl ?_⟩
    obtain ⟨c, hc, hdue⟩ := past i hi
    obtain ⟨hj1, hj2, -⟩ := (hmem j).1 hj
    exact Nat.lt_of_le_of_lt hdue (waiting j hj1 hj2 c hc)
  · intro i hi
    show s.birth i ≤ (s.calls ++ [(now, out)]).length
    have := born i hi
    simp
    omega
  · intro i hi
    rw [htaken, List.mem_append] at hi
    exact hi.elim (bound i) fun hi => ((hmem i).1 hi).1
  · intro i hi
    rw [htaken, List.mem_append] at hi
    rcases hi with hi | hi
    · obtain ⟨c, hc, hd⟩ := past i hi
      exact ⟨c, List.mem_append_left _ hc, hd⟩
    · exact ⟨(now, out), by simp [State.call], ((hmem i).1 hi).2.2⟩
  · intro i hi hn c hc
    rw [htaken, List.mem_append, not_or] at hn
    rcases List.mem_append.1 hc with hc | hc
    · exact waiting i hi hn.1 c hc
    · rw [List.mem_singleton.1 hc]
      by_contra hle
      exact hn.2 ((hmem i).2 ⟨hi, hn.1, Nat.le_of_not_lt hle⟩)

theorem inv_step (s : State) (a : Op) (t : State) (h : Inv s) (hs : step s a = some t)
    (_ : True) : Inv t := by
  cases a with
  | add d =>
    simp only [step, Option.ite_none_right_eq_some, Option.some.injEq] at hs
    obtain ⟨hd, rfl⟩ := hs
    exact h.add hd
  | call now out =>
    simp only [step, Option.ite_none_right_eq_some, Option.some.injEq] at hs
    obtain ⟨ht, rfl⟩ := hs
    exact h.call ht

/-! ## Top theorem -/

/-- **Agendas are exact.** -/
theorem exact {due birth : Nat → Nat} {as : List Op} {s : State}
    (h : run step (init due birth) as = some s) : Exact s :=
  (run_inv Inv inv_step (inv_init due birth) h (eachStep_true _ _)).exact

end Agenda
