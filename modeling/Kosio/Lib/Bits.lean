import Mathlib.Data.Nat.Bitwise

/-!
# `<bit>` on 64-bit words, and digits of a number

`rotr`, `countrZero` and `countlZero` are the C++ functions.  Two facts about
them carry the searches built on them.

* Rotating to position `n` and counting trailing zeros finds the first set bit
  at or after `n` in cyclic order (`countrZero_rotr`).
* The highest bit in which two numbers differ tells the highest digit, in a
  base `2^k`, in which they differ (`highest_digit`).
-/

namespace Bits

/-! ## Algorithm -/

/-- `static_cast<int>` of an unsigned number. -/
def toInt32 (n : Nat) : Int := (n : Int).bmod (2 ^ 32)

/-- `std::rotr`: the count is reduced with C++'s `%`, and a negative one rotates
to the left. -/
def rotr (x : BitVec 64) (s : Int) : BitVec 64 :=
  let r := s.tmod 64
  if 0 ≤ r then x.rotateRight r.toNat else x.rotateLeft (-r).toNat

/-- `std::countr_zero`. -/
def countrZero (x : BitVec 64) : Nat := x.ctz.toNat

/-- `std::countl_zero`. -/
def countlZero (x : BitVec 64) : Nat := x.clz.toNat

/-! ## Lemmas -/

theorem getLsbD_rotr (x : BitVec 64) (s : Int) (i : Nat) (hi : i < 64) :
    (rotr x s).getLsbD i = x.getLsbD ((i + s) % 64).toNat := by
  simp only [rotr]
  have h1 := Int.tmod_lt_of_pos s (show (0 : Int) < 64 by decide)
  have h2 := Int.lt_tmod_of_pos s (show (0 : Int) < 64 by decide)
  have h3 := Int.mul_tdiv_add_tmod s 64
  split
  · obtain ⟨r, hr⟩ := Int.eq_ofNat_of_zero_le ‹_›
    rw [hr, Int.toNat_natCast, BitVec.getLsbD_rotateRight]
    have hr64 : r % 64 = r := by omega
    rw [hr64]
    by_cases hir : i < 64 - r
    · rw [decide_eq_true hir, cond_true]
      congr 1
      omega
    · rw [decide_eq_false hir, cond_false]
      have : ((i + s) % 64).toNat = i - (64 - r) := by omega
      rw [this]
      simp [hi]
  · obtain ⟨r, hr⟩ := Int.eq_ofNat_of_zero_le (show 0 ≤ -s.tmod 64 by omega)
    rw [hr, Int.toNat_natCast, BitVec.getLsbD_rotateLeft]
    have hr64 : r % 64 = r := by omega
    rw [hr64]
    by_cases hir : i < r
    · rw [decide_eq_true hir, cond_true]
      congr 1
      omega
    · rw [decide_eq_false hir, cond_false]
      have : ((i + s) % 64).toNat = i - r := by omega
      rw [this]
      simp [hi]

/-- The cast to `int` does not matter: 64 divides `2^32`. -/
theorem getLsbD_rotr_toInt32 (x : BitVec 64) (n i : Nat) (hi : i < 64) :
    (rotr x (toInt32 n)).getLsbD i = x.getLsbD ((i + n) % 64) := by
  have hdvd : (64 : Int) ∣ ((2 ^ 32 : Nat) : Int) := ⟨2 ^ 26, by decide⟩
  have h : toInt32 n % 64 = n % 64 := by
    rw [← Int.emod_emod_of_dvd (n : Int) hdvd, ← Int.emod_emod_of_dvd (toInt32 n) hdvd]
    unfold toInt32
    rw [Int.bmod_emod]
  clear hdvd
  have hm : ((i + toInt32 n) % 64).toNat = (i + n) % 64 := by omega
  rw [getLsbD_rotr x _ i hi, hm]

theorem exists_bit {x : BitVec 64} (hx : x ≠ 0) : ∃ i < 64, x.getLsbD i = true := by
  by_contra h
  push Not at h
  apply hx
  apply BitVec.eq_of_getLsbD_eq
  intro i hi
  simpa using h i hi

/-- **First set bit.**  In cyclic order from position `n`. -/
theorem countrZero_rotr {x : BitVec 64} (hx : x ≠ 0) (n : Nat) :
    let k := countrZero (rotr x (toInt32 n))
    k < 64 ∧ x.getLsbD ((k + n) % 64) = true ∧ ∀ j < k, x.getLsbD ((j + n) % 64) = false := by
  have hr : rotr x (toInt32 n) ≠ 0 := by
    obtain ⟨i, hi, hb⟩ := exists_bit hx
    intro h0
    have h := getLsbD_rotr_toInt32 x n ((i + 63 * n) % 64) (Nat.mod_lt _ (by decide))
    have he : ((i + 63 * n) % 64 + n) % 64 = i := by omega
    rw [he, hb, h0] at h
    simp at h
  have hk : countrZero (rotr x (toInt32 n)) < 64 := by
    have h := BitVec.ctz_lt_iff_ne_zero.2 hr
    simpa [BitVec.lt_def, countrZero] using h
  refine ⟨hk, ?_, ?_⟩
  · rw [← getLsbD_rotr_toInt32 x n _ hk]
    exact BitVec.getLsbD_true_ctz_of_ne_zero hr
  · intro j hj
    rw [← getLsbD_rotr_toInt32 x n j (by omega)]
    exact BitVec.getLsbD_false_of_lt_ctz hj

/-- `63 - countl_zero` is the position of the highest set bit. -/
theorem countlZero_spec {n : Nat} (h0 : n ≠ 0) (hn : n < 2 ^ 64) :
    2 ^ (63 - countlZero (BitVec.ofNat 64 n)) ≤ n ∧
      n < 2 ^ (63 - countlZero (BitVec.ofNat 64 n) + 1) := by
  have hx : BitVec.ofNat 64 n ≠ 0#64 := by
    intro h
    have := congrArg BitVec.toNat h
    simp only [BitVec.toNat_ofNat] at this
    omega
  have hto : (BitVec.ofNat 64 n).toNat = n := by
    rw [BitVec.toNat_ofNat]
    omega
  have h1 := BitVec.two_pow_sub_clz_le_toNat_of_ne_zero (by decide) hx
  have h2 := BitVec.toNat_lt_two_pow_sub_clz (x := BitVec.ofNat 64 n)
  have hlt : (BitVec.ofNat 64 n).clz.toNat < 64 := by
    have h := BitVec.clz_lt_iff_ne_zero.2 hx
    simpa [BitVec.lt_def] using h
  rw [hto] at h1 h2
  refine ⟨h1, ?_⟩
  have he : 63 - countlZero (BitVec.ofNat 64 n) + 1 = 64 - (BitVec.ofNat 64 n).clz.toNat := by
    unfold countlZero
    omega
  rwa [he]

/-! ## Digits -/

/-- Below which power of two the numbers `a` and `b` differ, the low `k` bits apart. -/
theorem xor_or_lt (a b : Nat) {k n : Nat} (hkn : k ≤ n) :
    (a ^^^ b) ||| (2 ^ k - 1) < 2 ^ n ↔ a / 2 ^ n = b / 2 ^ n := by
  have hmask : (2 ^ k - 1) >>> n = 0 := by
    rw [Nat.shiftRight_eq_div_pow]
    apply Nat.div_eq_of_lt
    have := Nat.pow_le_pow_right (show 0 < 2 by decide) hkn
    have := Nat.two_pow_pos k
    omega
  rw [← Nat.div_eq_zero_iff_lt (Nat.two_pow_pos n), ← Nat.shiftRight_eq_div_pow,
    Nat.shiftRight_or_distrib, Nat.shiftRight_xor_distrib, hmask, Nat.or_zero,
    Nat.xor_eq_zero_iff, Nat.shiftRight_eq_div_pow, Nat.shiftRight_eq_div_pow]

/-- **Highest digit.**  If `s` is the highest bit of `(a ^^^ b) ||| (2^k - 1)`,
then in base `2^k` the numbers agree above digit `s / k` and, unless that is
digit 0, differ in it. -/
theorem highest_digit {a b k s : Nat} (hk : 0 < k)
    (h1 : 2 ^ s ≤ (a ^^^ b) ||| (2 ^ k - 1)) (h2 : (a ^^^ b) ||| (2 ^ k - 1) < 2 ^ (s + 1)) :
    a / (2 ^ k) ^ (s / k + 1) = b / (2 ^ k) ^ (s / k + 1) ∧
      (s / k ≠ 0 → a / (2 ^ k) ^ (s / k) ≠ b / (2 ^ k) ^ (s / k)) := by
  have hdm := Nat.div_add_mod s k
  have hml := Nat.mod_lt s hk
  constructor
  · have hs : s + 1 ≤ k * (s / k + 1) := by
      rw [Nat.mul_succ]
      omega
    have hks : k ≤ k * (s / k + 1) := Nat.le_mul_of_pos_right k (Nat.succ_pos _)
    rw [← Nat.pow_mul, ← xor_or_lt a b hks]
    exact lt_of_lt_of_le h2 (Nat.pow_le_pow_right (by decide) hs)
  · intro hs heq
    have hks : k ≤ k * (s / k) := Nat.le_mul_of_pos_right k (Nat.pos_of_ne_zero hs)
    rw [← Nat.pow_mul, ← xor_or_lt a b hks] at heq
    have hle : 2 ^ (k * (s / k)) ≤ 2 ^ s := Nat.pow_le_pow_right (by decide) (by omega)
    omega

/-- Numbers that agree above a digit agree above every higher one. -/
theorem div_pow_eq_of_le {a b B i j : Nat} (hij : i ≤ j) (h : a / B ^ i = b / B ^ i) :
    a / B ^ j = b / B ^ j := by
  obtain ⟨d, rfl⟩ := Nat.exists_eq_add_of_le hij
  rw [Nat.pow_add, ← Nat.div_div_eq_div_mul, ← Nat.div_div_eq_div_mul, h]

end Bits
