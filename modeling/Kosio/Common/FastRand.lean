import Mathlib.Data.FinEnum
import Mathlib.Data.Int.CardIntervalMod
import Mathlib.Data.Nat.Periodic
import Mathlib.Data.Nat.Prime.Pow
import Mathlib.Logic.Function.Iterate
import Kosio.Lib.Rejection

/-!
# `FastRand`

Two words, and each new one is a xorshift of the two before it.  `fastrand_n` draws
until the raw value is not below a threshold.  The threshold is `2^32 mod n`, so
the raw values that are left are a multiple of `n`, and

    each result k < n comes from 2^32 / n of them               (card_accept)

The constructor takes both words from a `random_device`: they may be any words.
-/

namespace Kosio

/-! ## Algorithm -/

@[ext] structure FastRand where
  one : BitVec 32
  two : BitVec 32
deriving DecidableEq

namespace FastRand

instance : Zero FastRand := ⟨⟨0, 0⟩⟩

def fastrand (s : FastRand) : BitVec 32 × FastRand :=
  let s1 := s.one
  let s0 := s.two
  let s1 := s1 ^^^ (s1 <<< 17)
  let s1 := s1 ^^^ s0 ^^^ (s1 >>> 7) ^^^ (s0 >>> 16)
  (s0 + s1, ⟨s0, s1⟩)

def threshold (n : BitVec 32) : BitVec 32 := -n % n

/-- What the loop of `fastrand_n` does with a raw value. -/
def accept (n r : BitVec 32) : Option (BitVec 32) :=
  if r ≥ threshold n then some (r % n) else none

/-- The loop of `fastrand_n`, at most `fuel` times around. -/
def loop (n : BitVec 32) : Nat → FastRand → Option (BitVec 32 × FastRand)
  | 0, _ => none
  | fuel + 1, s =>
    let (r, s) := s.fastrand
    match accept n r with
    | some k => some (k, s)
    | none => loop n fuel s

def fastrandN (fuel : Nat) (n : BitVec 32) (s : FastRand) : Option (BitVec 32 × FastRand) :=
  if n = 0 then some (0, s) else loop n fuel s

/-- One call after the other. -/
def calls (fuel : Nat) : List (BitVec 32) → FastRand → Option (List (BitVec 32) × FastRand)
  | [], s => some ([], s)
  | n :: ns, s =>
    (fastrandN fuel n s).bind fun (k, s) => (calls fuel ns s).map fun (ks, s) => (k :: ks, s)

/-! ## Specification -/

/-- The calls return, one after the other. -/
def Returns (s : FastRand) (ns : List (BitVec 32)) : Prop := ∃ fuel, (calls fuel ns s).isSome

def next (s : FastRand) : FastRand := s.fastrand.2

def raw (s : FastRand) : BitVec 32 := s.fastrand.1

/-- What is promised of the results of `fastrand_n`. -/
structure Unbiased (n : BitVec 32) : Prop where
  accepted : ∀ r, (accept n r).isSome ↔ (2 ^ 32 - n.toNat) % 2 ^ 32 % n.toNat ≤ r.toNat
  result : ∀ r k, accept n r = some k → k.toNat = r.toNat % n.toNat
  uniform : ∀ k < n, (Finset.univ.filter fun r => accept n r = some k).card = 2 ^ 32 / n.toNat
  /-- the first raw value that is accepted gives the result -/
  first : ∀ fuel s, (fastrandN fuel n s).map Prod.fst =
    Rejection.result (accept n) fun i : Fin fuel => (next^[i] s).raw
  /-- if raw values are drawn at random, and up to `m` of them -/
  runs : ∀ m, ∀ k < n, ∀ k' < n, Rejection.draws (Rejection.result (accept n) (m := m)) (some k) =
    Rejection.draws (Rejection.result (accept n) (m := m)) (some k')

/-! ## The threshold -/

/-- `-n` is `2^32 - n`, which leaves the same remainder as `2^32`. -/
theorem neg_mod {n : BitVec 32} (hn : n ≠ 0) :
    (2 ^ 32 - n.toNat) % 2 ^ 32 % n.toNat = 2 ^ 32 % n.toNat := by
  have hpos : 0 < n.toNat := BitVec.toNat_pos_of_ne_zero hn
  have hlt := n.isLt
  rw [Nat.mod_eq_of_lt (show 2 ^ 32 - n.toNat < 2 ^ 32 by omega),
    ← Nat.mod_eq_sub_mod (Nat.le_of_lt hlt)]

theorem threshold_toNat {n : BitVec 32} (hn : n ≠ 0) :
    (threshold n).toNat = 2 ^ 32 % n.toNat := by
  rw [threshold, BitVec.toNat_umod, BitVec.toNat_neg, neg_mod hn]

/-- The upper half of the raw values is accepted. -/
theorem threshold_lt {n : BitVec 32} (hn : n ≠ 0) : (threshold n).toNat < 2 ^ 31 := by
  have hpos : 0 < n.toNat := BitVec.toNat_pos_of_ne_zero hn
  have hlt := n.isLt
  rw [threshold_toNat hn]
  by_cases hhalf : n.toNat ≤ 2 ^ 31
  · exact Nat.lt_of_lt_of_le (Nat.mod_lt _ hpos) hhalf
  · rw [Nat.mod_eq_sub_mod (Nat.le_of_lt hlt), Nat.mod_eq_of_lt (by omega)]
    omega

/-- Nothing is refused for the powers of two. -/
theorem threshold_eq_zero_iff {n : BitVec 32} (hn : n ≠ 0) :
    threshold n = 0 ↔ ∃ k, n.toNat = 2 ^ k := by
  have hdvd : threshold n = 0 ↔ n.toNat ∣ 2 ^ 32 := by
    rw [Nat.dvd_iff_mod_eq_zero, ← threshold_toNat hn]
    exact ⟨fun h => h ▸ rfl, fun h => BitVec.eq_of_toNat_eq h⟩
  rw [hdvd, Nat.dvd_prime_pow Nat.prime_two]
  constructor
  · rintro ⟨k, -, hk⟩
    exact ⟨k, hk⟩
  · rintro ⟨k, hk⟩
    refine ⟨k, ?_, hk⟩
    by_contra hgt
    have := Nat.pow_le_pow_right (show 0 < 2 by decide) (Nat.le_of_lt (Nat.not_le.1 hgt))
    have := n.isLt
    omega

/-! ## The counts -/

theorem accept_eq_some_iff {n r k : BitVec 32} (hn : n ≠ 0) :
    accept n r = some k ↔ 2 ^ 32 % n.toNat ≤ r.toNat ∧ r.toNat % n.toNat = k.toNat := by
  unfold accept
  rw [Option.ite_none_right_eq_some, Option.some.injEq, ge_iff_le, BitVec.le_def,
    threshold_toNat hn, ← BitVec.toNat_inj, BitVec.toNat_umod]

theorem accept_isSome {n : BitVec 32} (hn : n ≠ 0) (r : BitVec 32) :
    (accept n r).isSome ↔ (2 ^ 32 - n.toNat) % 2 ^ 32 % n.toNat ≤ r.toNat := by
  rw [neg_mod hn, ← threshold_toNat hn]
  unfold accept
  rw [Option.isSome_ite]
  exact BitVec.le_def

theorem accept_lt {n r k : BitVec 32} (hn : n ≠ 0) (h : accept n r = some k) :
    k.toNat < n.toNat := by
  have hpos : 0 < n.toNat := BitVec.toNat_pos_of_ne_zero hn
  rw [← ((accept_eq_some_iff hn).1 h).2]
  exact Nat.mod_lt _ hpos

/-- From `2^32 mod n` on, every residue is met as often as any other. -/
theorem card_residue {n k : Nat} (hk : k < n) :
    ((Finset.Ico (2 ^ 32 % n) (2 ^ 32)).filter fun r => r % n = k).card = 2 ^ 32 / n := by
  have hn : 0 < n := Nat.lt_of_le_of_lt (Nat.zero_le k) hk
  have hlen : 2 ^ 32 = 2 ^ 32 % n + n * (2 ^ 32 / n) := (Nat.mod_add_div _ _).symm
  generalize 2 ^ 32 / n = q at hlen ⊢
  generalize 2 ^ 32 % n = t at hlen ⊢
  have hperiodic : Function.Periodic (fun r => r % n = k) (n * q) := fun r => by
    show ((r + n * q) % n = k) = (r % n = k)
    rw [Nat.add_mul_mod_self_left]
  rw [hlen, Nat.filter_Ico_card_eq_of_periodic _ _ _ hperiodic]
  have hmod : ∀ r, r % n = k ↔ r ≡ k [MOD n] := fun r => by
    rw [Nat.ModEq, Nat.mod_eq_of_lt hk]
  simp only [hmod]
  rw [Nat.count_modEq_card _ hn, Nat.mul_mod_right, Nat.mul_div_cancel_left _ hn,
    if_neg (Nat.not_lt_zero _), Nat.add_zero]

/-- **No bias.** -/
theorem card_accept {n k : BitVec 32} (hn : n ≠ 0) (hk : k < n) :
    (Finset.univ.filter fun r => accept n r = some k).card = 2 ^ 32 / n.toNat := by
  rw [← card_residue (BitVec.lt_def.1 hk)]
  refine Finset.card_bij (fun r _ => r.toNat) ?_ ?_ ?_
  · intro r hr
    obtain ⟨ht, hmod⟩ := (accept_eq_some_iff hn).1 (Finset.mem_filter.1 hr).2
    exact Finset.mem_filter.2 ⟨Finset.mem_Ico.2 ⟨ht, r.isLt⟩, hmod⟩
  · intro r _ r' _ h
    exact BitVec.eq_of_toNat_eq h
  · intro r hr
    obtain ⟨hr, hmod⟩ := Finset.mem_filter.1 hr
    obtain ⟨ht, hlt⟩ := Finset.mem_Ico.1 hr
    have hnat : (BitVec.ofNat 32 r).toNat = r := by
      rw [BitVec.toNat_ofNat, Nat.mod_eq_of_lt hlt]
    refine ⟨BitVec.ofNat 32 r, Finset.mem_filter.2 ⟨Finset.mem_univ _, ?_⟩, hnat⟩
    rw [accept_eq_some_iff hn, hnat]
    exact ⟨ht, hmod⟩

/-! ## The loop -/

theorem loop_succ (n : BitVec 32) (fuel : Nat) (s : FastRand) :
    loop n (fuel + 1) s =
      (match accept n s.raw with | some k => some (k, s.next) | none => loop n fuel s.next) := rfl

theorem loop_mono {n : BitVec 32} {fuel fuel' : Nat} (hle : fuel ≤ fuel') {s t : FastRand}
    {k : BitVec 32} (h : loop n fuel s = some (k, t)) : loop n fuel' s = some (k, t) := by
  induction fuel generalizing fuel' s with
  | zero => cases h
  | succ fuel ih =>
    obtain ⟨fuel', rfl⟩ := Nat.exists_eq_add_of_lt hle
    rw [loop_succ] at h
    rw [loop_succ]
    cases ha : accept n s.raw with
    | some k => rwa [ha] at h
    | none =>
      rw [ha] at h
      exact ih (Nat.le_add_right ..) h

/-- The result is that of the first raw value that is accepted. -/
theorem loop_result (n : BitVec 32) (fuel : Nat) (s : FastRand) : (loop n fuel s).map Prod.fst =
    Rejection.result (accept n) fun i : Fin fuel => (next^[i] s).raw := by
  induction fuel generalizing s with
  | zero => rfl
  | succ fuel ih =>
    have hcons : (fun i : Fin (fuel + 1) => (next^[i] s).raw) =
        Fin.cons s.raw fun i : Fin fuel => (next^[i] s.next).raw := by
      funext i
      refine Fin.cases rfl (fun i => ?_) i
      rfl
    rw [loop_succ, hcons, Rejection.result_cons, ← ih]
    cases accept n s.raw <;> rfl

theorem loop_isSome (n : BitVec 32) (fuel : Nat) (s : FastRand) :
    (loop n fuel s).isSome ↔ ∃ j < fuel, (accept n (next^[j] s).raw).isSome := by
  rw [← Option.isSome_map (f := Prod.fst), loop_result, Rejection.result_isSome]
  exact Fin.exists_iff.trans ⟨fun ⟨j, hj, h⟩ => ⟨j, hj, h⟩, fun ⟨j, hj, h⟩ => ⟨j, hj, h⟩⟩

theorem loop_state {n : BitVec 32} {fuel : Nat} {s t : FastRand} {k : BitVec 32}
    (h : loop n fuel s = some (k, t)) : ∃ j, t = next^[j] s := by
  induction fuel generalizing s with
  | zero => cases h
  | succ fuel ih =>
    rw [loop_succ] at h
    cases ha : accept n s.raw with
    | some k' =>
      rw [ha] at h
      cases h
      exact ⟨1, rfl⟩
    | none =>
      rw [ha] at h
      obtain ⟨j, hj⟩ := ih h
      exact ⟨j + 1, hj⟩

/-! ## Calls -/

theorem fastrandN_mono {n : BitVec 32} {fuel fuel' : Nat} (hle : fuel ≤ fuel') {s t : FastRand}
    {k : BitVec 32} (h : fastrandN fuel n s = some (k, t)) : fastrandN fuel' n s = some (k, t) := by
  unfold fastrandN at h ⊢
  split at h
  · next hn => rwa [if_pos hn]
  · next hn =>
    rw [if_neg hn]
    exact loop_mono hle h

theorem fastrandN_state {n : BitVec 32} {fuel : Nat} {s t : FastRand} {k : BitVec 32}
    (h : fastrandN fuel n s = some (k, t)) : ∃ j, t = next^[j] s := by
  unfold fastrandN at h
  split at h
  · cases h
    exact ⟨0, rfl⟩
  · exact loop_state h

/-- A call returns if some raw value to come is accepted. -/
theorem fastrandN_returns {n : BitVec 32} {s : FastRand} :
    (∃ fuel, (fastrandN fuel n s).isSome) ↔
      n = 0 ∨ ∃ j, (accept n (next^[j] s).raw).isSome := by
  unfold fastrandN
  by_cases hn : n = 0
  · simp only [if_pos hn]
    exact ⟨fun _ => Or.inl hn, fun _ => ⟨0, rfl⟩⟩
  · simp only [if_neg hn, loop_isSome]
    constructor
    · rintro ⟨fuel, j, -, h⟩
      exact Or.inr ⟨j, h⟩
    · rintro (h | ⟨j, h⟩)
      · exact absurd h hn
      · exact ⟨j + 1, j, Nat.lt_succ_self j, h⟩

theorem calls_mono {fuel fuel' : Nat} (hle : fuel ≤ fuel') {ns : List (BitVec 32)} {s : FastRand}
    (h : (calls fuel ns s).isSome) : (calls fuel' ns s).isSome := by
  induction ns generalizing s with
  | nil => rfl
  | cons n ns ih =>
    unfold calls at h ⊢
    cases hn : fastrandN fuel n s with
    | none =>
      rw [hn] at h
      cases h
    | some out =>
      rw [hn, Option.bind_some, Option.isSome_map] at h
      rw [fastrandN_mono hle hn, Option.bind_some, Option.isSome_map]
      exact ih h

theorem returns_nil (s : FastRand) : Returns s [] := ⟨0, rfl⟩

theorem returns_cons {n : BitVec 32} {ns : List (BitVec 32)} {s : FastRand} :
    Returns s (n :: ns) ↔ ∃ fuel k t, fastrandN fuel n s = some (k, t) ∧ Returns t ns := by
  constructor
  · rintro ⟨fuel, h⟩
    unfold calls at h
    cases hn : fastrandN fuel n s with
    | none =>
      rw [hn] at h
      cases h
    | some out =>
      rw [hn, Option.bind_some, Option.isSome_map] at h
      exact ⟨fuel, out.1, out.2, hn, fuel, h⟩
  · rintro ⟨fuel, k, t, hn, fuel', h⟩
    -- enough for both
    refine ⟨max fuel fuel', ?_⟩
    unfold calls
    rw [fastrandN_mono (Nat.le_max_left ..) hn, Option.bind_some, Option.isSome_map]
    exact calls_mono (Nat.le_max_right ..) h

theorem unbiased {n : BitVec 32} (hn : n ≠ 0) : Unbiased n where
  accepted := accept_isSome hn
  result r k h := ((accept_eq_some_iff hn).1 h).2.symm
  uniform k hk := card_accept hn hk
  first fuel s := by
    rw [fastrandN, if_neg hn]
    exact loop_result n fuel s
  runs m k hk k' hk' := by
    apply Rejection.draws_result_congr
    exact (card_accept hn hk).trans (card_accept hn hk').symm

end FastRand

end Kosio
