import Mathlib.Data.Fintype.Prod
import Mathlib.Tactic.NormNum.Prime
import Kosio.Common.FastRand
import Kosio.Lib.Period
import Kosio.Lib.XorMap

/-!
# `FastRand`: the period

The two words are a linear function of the two before them.  Two zeros stay two
zeros.  Every other pair is on one cycle of `2^64 - 1` pairs: the pair `top` comes
back after that many steps, and not after a prime fraction of them, which is
computed modulo a polynomial of degree 64 (`XorMap.eval_powX`).

The raw value from `top` is in the upper half, which no threshold reaches.  So

    the calls return  ↔  the words are not both zero, or every n is
                         zero or a power of two                  (returns_iff)
-/

namespace Kosio.FastRand

open Function XorMap

/-! ## A linear map -/

instance : XorOp FastRand := ⟨fun s t => ⟨s.one ^^^ t.one, s.two ^^^ t.two⟩⟩

instance : LawfulXor FastRand where
  xor_assoc _ _ _ := FastRand.ext (BitVec.xor_assoc ..) (BitVec.xor_assoc ..)
  xor_self _ := FastRand.ext BitVec.xor_self BitVec.xor_self
  xor_zero _ := FastRand.ext BitVec.xor_zero BitVec.xor_zero
  xor_comm _ _ := FastRand.ext (BitVec.xor_comm ..) (BitVec.xor_comm ..)

/-- The new word. -/
def mix (s1 s0 : BitVec 32) : BitVec 32 :=
  s1 ^^^ (s1 <<< 17) ^^^ s0 ^^^ ((s1 ^^^ (s1 <<< 17)) >>> 7) ^^^ (s0 >>> 16)

theorem mix_xor (a b c d : BitVec 32) : mix (a ^^^ c) (b ^^^ d) = mix a b ^^^ mix c d := by
  have hleft : (a ^^^ c) ^^^ ((a ^^^ c) <<< 17) = (a ^^^ a <<< 17) ^^^ (c ^^^ c <<< 17) := by
    rw [BitVec.shiftLeft_xor_distrib, xor_xor_xor_comm]
  unfold mix
  rw [hleft]
  generalize a ^^^ a <<< 17 = a
  generalize c ^^^ c <<< 17 = c
  rw [BitVec.ushiftRight_xor_distrib, BitVec.ushiftRight_xor_distrib, xor_xor_xor_comm a c,
    xor_xor_xor_comm (a ^^^ b), xor_xor_xor_comm (a ^^^ b ^^^ a >>> 7)]

theorem next_linear : Linear next := by
  intro s t
  apply FastRand.ext
  · exact rfl
  · exact mix_xor s.one s.two t.one t.two

/-! ## The cycle -/

/-- A pair whose sum is in the upper half. -/
def top : FastRand := ⟨0x80000000, 0⟩

/-- The characteristic polynomial of `next`. -/
def poly : Nat := 0x100284be0e07ce3c9

theorem relation : Relation next top 64 poly :=
  ⟨next_linear, by decide, by decide, by decide, by decide +kernel⟩

theorem isPeriodicPt_top : IsPeriodicPt next (2 ^ 64 - 1) top := by
  have hpow : powX 64 poly 64 (2 ^ 64 - 1) = 1 := by decide +kernel
  show next^[2 ^ 64 - 1] top = top
  rw [← eval_powX relation (show 2 ^ 64 - 1 < 2 ^ 64 by decide), hpow]
  exact eval_one next_linear top (by decide)

def primes : List Nat := [3, 5, 17, 257, 641, 65537, 6700417]

theorem prime_of_mem {q : Nat} (hq : q ∈ primes) : q.Prime := by
  simp only [primes, List.mem_cons, List.not_mem_nil, or_false] at hq
  rcases hq with rfl | rfl | rfl | rfl | rfl | rfl | rfl <;> norm_num

theorem mem_primes {q : Nat} (hq : q.Prime) (h : q ∣ 2 ^ 64 - 1) : q ∈ primes := by
  rw [show 2 ^ 64 - 1 = primes.prod by decide] at h
  obtain ⟨p, hp, hdvd⟩ := (Nat.Prime.prime hq).dvd_prod_iff.1 h
  rwa [(Nat.prime_dvd_prime_iff_eq hq (prime_of_mem hp)).1 hdvd]

theorem not_isPeriodicPt_top {q : Nat} (hq : q ∈ primes) :
    ¬ IsPeriodicPt next ((2 ^ 64 - 1) / q) top := by
  have hne : ∀ q ∈ primes, eval next top 64 (powX 64 poly 64 ((2 ^ 64 - 1) / q)) ≠ top := by
    decide +kernel
  have hlt : (2 ^ 64 - 1) / q < 2 ^ 64 :=
    Nat.lt_of_le_of_lt (Nat.div_le_self ..) (by decide)
  intro h
  exact hne q hq ((eval_powX relation hlt).trans h)

/-- **The period.** -/
theorem minimalPeriod_top : minimalPeriod next top = 2 ^ 64 - 1 :=
  Period.minimalPeriod_eq_of_prime isPeriodicPt_top
    fun _ hq h => not_isPeriodicPt_top (mem_primes hq h)

instance : Fintype FastRand :=
  .ofEquiv (BitVec 32 × BitVec 32)
    ⟨fun p => ⟨p.1, p.2⟩, fun s => (s.one, s.two), fun _ => rfl, fun _ => rfl⟩

theorem card_fastRand : Fintype.card FastRand = 2 ^ 64 := by
  have hpairs : Fintype.card FastRand = Fintype.card (BitVec 32 × BitVec 32) :=
    Fintype.ofEquiv_card _
  rw [hpairs, Fintype.card_prod, ← FinEnum.card_eq_fintypeCard, FinEnum.card_bitVec, ← Nat.pow_add]

theorem next_zero : next 0 = 0 := by decide

/-- **One cycle.** -/
theorem reaches_top {s : FastRand} (hs : s ≠ 0) : ∃ k, next^[k + 1] s = top := by
  refine Period.reaches_of_maximal next_zero (by decide) ?_ hs
  rw [minimalPeriod_top, card_fastRand]
  exact Nat.sub_add_cancel (Nat.two_pow_pos 64)

theorem iterate_zero (j : Nat) : next^[j] 0 = 0 := iterate_fixed next_zero j

theorem iterate_ne_zero {s : FastRand} (hs : s ≠ 0) (j : Nat) : next^[j] s ≠ 0 := by
  intro h
  obtain ⟨k, hk⟩ := reaches_top hs
  -- the way to `top` is long enough if it goes around often enough
  have hround : next^[j * (2 ^ 64 - 1) + (k + 1)] s = top := by
    rw [iterate_add_apply, hk]
    exact isPeriodicPt_top.const_mul j
  obtain ⟨i, hi⟩ := Nat.exists_eq_add_of_le
    (show j ≤ j * (2 ^ 64 - 1) + (k + 1) from by omega)
  rw [hi, Nat.add_comm, iterate_add_apply, h, iterate_zero] at hround
  exact absurd hround (by decide)

/-! ## Termination -/

theorem raw_iterate (s : FastRand) (j : Nat) :
    (next^[j] s).raw = (next^[j + 1] s).one + (next^[j + 1] s).two := by
  rw [iterate_succ_apply']
  rfl

theorem accepts_of_ne_zero {s : FastRand} (hs : s ≠ 0) {n : BitVec 32} (hn : n ≠ 0) :
    ∃ j, (accept n (next^[j] s).raw).isSome := by
  obtain ⟨k, hk⟩ := reaches_top hs
  refine ⟨k, ?_⟩
  have hraw : (next^[k] s).raw = 0x80000000 := by
    rw [raw_iterate, hk]
    exact BitVec.add_zero _
  have hle : threshold n ≤ 0x80000000 := Nat.le_of_lt (threshold_lt hn)
  rw [hraw, accept, if_pos hle]
  rfl

/-- Two zeros give zero again and again. -/
theorem accepts_zero_iff {n : BitVec 32} (hn : n ≠ 0) :
    (∃ j, (accept n (next^[j] 0).raw).isSome) ↔ ∃ k, n.toNat = 2 ^ k := by
  rw [← threshold_eq_zero_iff hn]
  have hraw : ∀ j, (next^[j] 0).raw = 0 := fun j => by
    rw [iterate_zero]
    decide
  simp only [hraw, exists_const]
  unfold accept
  constructor
  · intro h
    split at h
    · next hle => exact BitVec.eq_of_toNat_eq (Nat.le_zero.1 hle)
    · cases h
  · intro h
    rw [h, if_pos (BitVec.le_refl _)]
    rfl

/-- **A call returns** if and only if not both words are zero, or `n` refuses nothing. -/
theorem fastrandN_returns_iff (s : FastRand) (n : BitVec 32) :
    (∃ fuel, (fastrandN fuel n s).isSome) ↔ s ≠ 0 ∨ n = 0 ∨ ∃ k, n.toNat = 2 ^ k := by
  rw [fastrandN_returns]
  by_cases hn : n = 0
  · exact ⟨fun _ => Or.inr (Or.inl hn), fun _ => Or.inl hn⟩
  by_cases hs : s = 0
  · subst hs
    rw [accepts_zero_iff hn]
    exact ⟨Or.inr, fun h => h.resolve_left fun h0 => h0 rfl⟩
  · exact ⟨fun _ => Or.inl hs, fun _ => Or.inr (accepts_of_ne_zero hs hn)⟩

theorem returns_iff (s : FastRand) (ns : List (BitVec 32)) :
    Returns s ns ↔ s ≠ 0 ∨ ∀ n ∈ ns, n = 0 ∨ ∃ k, n.toNat = 2 ^ k := by
  induction ns generalizing s with
  | nil => exact ⟨fun _ => Or.inr nofun, fun _ => returns_nil s⟩
  | cons n ns ih =>
    rw [returns_cons, List.forall_mem_cons]
    constructor
    · rintro ⟨fuel, k, t, hn, ht⟩
      by_cases hs : s = 0
      · subst hs
        obtain ⟨j, rfl⟩ := fastrandN_state hn
        rw [iterate_zero] at ht
        have hfirst := (fastrandN_returns_iff 0 n).1 ⟨fuel, by rw [hn]; rfl⟩
        exact Or.inr ⟨hfirst.resolve_left fun h0 => h0 rfl,
          ((ih 0).1 ht).resolve_left fun h0 => h0 rfl⟩
      · exact Or.inl hs
    · intro h
      have hfirst : s ≠ 0 ∨ n = 0 ∨ ∃ k, n.toNat = 2 ^ k := h.imp_right And.left
      obtain ⟨fuel, hsome⟩ := (fastrandN_returns_iff s n).2 hfirst
      obtain ⟨⟨k, t⟩, hn⟩ := Option.isSome_iff_exists.1 hsome
      refine ⟨fuel, k, t, hn, (ih t).2 ?_⟩
      obtain ⟨j, rfl⟩ := fastrandN_state hn
      rcases h with hs | ⟨-, hns⟩
      · exact Or.inl (iterate_ne_zero hs j)
      · exact Or.inr hns

end Kosio.FastRand
