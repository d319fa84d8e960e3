import Mathlib.Data.LawfulXor.Basic
import Mathlib.Data.Nat.Bitwise
import Mathlib.Logic.Function.Iterate

/-!
# Iterates of a map that is linear over GF(2)

`f` is linear if it respects `^^^`.  A polynomial over GF(2) is a number, with its
bits as coefficients; `eval f x k a` is the polynomial `a` in `f` at `x`, of which
the first `k` coefficients are read.  Where a polynomial `p` of degree `w` gives

    eval f x (w + 1) p = 0

every iterate of `x` is a polynomial of degree below `w`, and squaring modulo `p`
finds the one of the `n`-th in about `log n` steps (`eval_powX`).
-/

namespace XorMap

open Function

/-! ## Polynomials modulo `p` -/

/-- The product with `X`. -/
def mulX (w p a : Nat) : Nat := bif (2 * a).testBit w then 2 * a ^^^ p else 2 * a

/-- The product of `b` with the first `k` terms of `a`. -/
def mul (w p b : Nat) : Nat → Nat → Nat
  | 0, _ => 0
  | k + 1, a => (bif a.testBit 0 then b else 0) ^^^ mulX w p (mul w p b k (a / 2))

def square (w p a : Nat) : Nat := mul w p a w a

/-- `X ^ n`, for `n` of `k` bits. -/
def powX (w p : Nat) : Nat → Nat → Nat
  | 0, _ => 1
  | k + 1, n =>
    let a := square w p (powX w p k (n / 2))
    bif n.testBit 0 then mulX w p a else a

section Bound

variable {w p : Nat} (hp : p < 2 ^ (w + 1)) (htop : p.testBit w)

include hp htop

theorem mulX_lt {a : Nat} (ha : a < 2 ^ w) : mulX w p a < 2 ^ w := by
  have h2 : 2 * a < 2 ^ (w + 1) := by
    rw [Nat.pow_succ]
    omega
  unfold mulX
  cases hbit : (2 * a).testBit w with
  | true =>
    -- the two highest terms cancel
    refine Nat.lt_pow_two_of_testBit _ fun i hi => ?_
    rw [cond_true, Nat.testBit_xor]
    rcases Nat.eq_or_lt_of_le hi with rfl | hlt
    · rw [hbit, htop]
      rfl
    · have hle : 2 ^ (w + 1) ≤ 2 ^ i := Nat.pow_le_pow_right (by decide) hlt
      rw [Nat.testBit_lt_two_pow (by omega), Nat.testBit_lt_two_pow (by omega)]
      rfl
  | false =>
    refine Nat.lt_pow_two_of_testBit _ fun i hi => ?_
    rw [cond_false]
    rcases Nat.eq_or_lt_of_le hi with rfl | hlt
    · exact hbit
    · have hle : 2 ^ (w + 1) ≤ 2 ^ i := Nat.pow_le_pow_right (by decide) hlt
      exact Nat.testBit_lt_two_pow (by omega)

theorem mul_lt {b : Nat} (hb : b < 2 ^ w) (k a : Nat) : mul w p b k a < 2 ^ w := by
  induction k generalizing a with
  | zero => exact Nat.two_pow_pos w
  | succ k ih =>
    refine Nat.xor_lt_two_pow ?_ (mulX_lt hp htop (ih (a / 2)))
    cases a.testBit 0 with
    | true => exact hb
    | false => exact Nat.two_pow_pos w

theorem powX_lt (hw : 0 < w) (k n : Nat) : powX w p k n < 2 ^ w := by
  induction k generalizing n with
  | zero => exact Nat.one_lt_two_pow hw.ne'
  | succ k ih =>
    have hs : square w p (powX w p k (n / 2)) < 2 ^ w := mul_lt hp htop (ih _) _ _
    show (bif n.testBit 0 then _ else _) < _
    cases n.testBit 0 with
    | true => exact mulX_lt hp htop hs
    | false => exact hs

end Bound

/-! ## Linear maps -/

variable {V : Type*} [XorOp V] [Zero V] [LawfulXor V] {f : V → V}

def Linear (f : V → V) : Prop := ∀ x y, f (x ^^^ y) = f x ^^^ f y

theorem Linear.map_zero (hf : Linear f) : f 0 = 0 := by
  have h := hf 0 0
  rw [xor_zero] at h
  calc f 0 = f 0 ^^^ f 0 ^^^ f 0 := (xor_cancel_right _ _).symm
    _ = 0 := by rw [← h, LawfulXor.xor_self]

omit [Zero V] [LawfulXor V] in
theorem Linear.iterate (hf : Linear f) (n : Nat) : Linear f^[n] := by
  induction n with
  | zero => exact fun _ _ => rfl
  | succ n ih =>
    intro x y
    rw [iterate_succ_apply', iterate_succ_apply', iterate_succ_apply', ih, hf]

/-- A coefficient times a point. -/
def scale (b : Bool) (x : V) : V := bif b then x else 0

theorem xor_xor_xor_comm (a b c d : V) : (a ^^^ b) ^^^ (c ^^^ d) = (a ^^^ c) ^^^ (b ^^^ d) := by
  rw [xor_assoc, ← xor_assoc b c d, xor_comm b c, xor_assoc c b d, ← xor_assoc]

theorem scale_xor (b c : Bool) (x : V) : scale (b ^^ c) x = scale b x ^^^ scale c x := by
  cases b <;> cases c <;> simp [scale]

/-- The first `k` terms of `a`, in `f`, at `x`. -/
def eval (f : V → V) (x : V) : Nat → Nat → V
  | 0, _ => 0
  | k + 1, a => scale (a.testBit 0) x ^^^ f (eval f x k (a / 2))

theorem eval_two_mul (x : V) (k a : Nat) : eval f x (k + 1) (2 * a) = f (eval f x k a) := by
  have hbit : (2 * a).testBit 0 = false := by simp
  rw [eval, hbit, Nat.mul_div_cancel_left a (by decide)]
  exact zero_xor _

section Eval

variable (hf : Linear f) (x : V)

include hf

theorem eval_zero (k : Nat) : eval f x k 0 = 0 := by
  induction k with
  | zero => rfl
  | succ k ih =>
    show (0 : V) ^^^ f (eval f x k 0) = 0
    rw [ih, hf.map_zero, zero_xor]

theorem eval_xor (k a b : Nat) : eval f x k (a ^^^ b) = eval f x k a ^^^ eval f x k b := by
  induction k generalizing a b with
  | zero => exact (xor_zero (0 : V)).symm
  | succ k ih =>
    have hdiv : (a ^^^ b) / 2 = a / 2 ^^^ b / 2 := Nat.xor_div_two
    rw [eval, eval, eval, hdiv, ih, hf, Nat.testBit_xor, scale_xor, xor_xor_xor_comm]

/-- The terms of `a` are enough. -/
theorem eval_of_lt {k a : Nat} (ha : a < 2 ^ k) : eval f x (k + 1) a = eval f x k a := by
  induction k generalizing a with
  | zero =>
    obtain rfl : a = 0 := Nat.lt_one_iff.1 ha
    exact eval_zero hf x 1
  | succ k ih =>
    rw [eval, ih (Nat.div_lt_of_lt_mul (by rwa [Nat.pow_succ, Nat.mul_comm] at ha)), eval]

theorem eval_one {k : Nat} (hk : 0 < k) : eval f x k 1 = x := by
  obtain ⟨k, rfl⟩ := Nat.exists_eq_add_of_lt hk
  rw [Nat.zero_add]
  show x ^^^ f (eval f x k 0) = x
  rw [eval_zero hf, hf.map_zero, xor_zero]

/-- A polynomial in `f` commutes with `f`. -/
theorem eval_iterate (n k a : Nat) : eval f (f^[n] x) k a = f^[n] (eval f x k a) := by
  have hn := hf.iterate n
  induction k generalizing a with
  | zero => exact hn.map_zero.symm
  | succ k ih =>
    have hscale : scale (a.testBit 0) (f^[n] x) = f^[n] (scale (a.testBit 0) x) := by
      cases a.testBit 0 with
      | true => rfl
      | false => exact hn.map_zero.symm
    rw [eval, eval, ih, hn, hscale, ← iterate_succ_apply' f n, iterate_succ_apply]

end Eval

/-! ## The relation -/

/-- `p` has degree `w`, and is a relation between the iterates of `x`. -/
structure Relation (f : V → V) (x : V) (w p : Nat) : Prop where
  linear : Linear f
  pos : 0 < w
  lt : p < 2 ^ (w + 1)
  top : p.testBit w
  zero : eval f x (w + 1) p = 0

section Relation

variable {x : V} {w p : Nat} (h : Relation f x w p)

include h

theorem eval_mulX {a : Nat} (ha : a < 2 ^ w) :
    eval f x w (mulX w p a) = f (eval f x w a) := by
  rw [← eval_of_lt h.linear x (mulX_lt h.lt h.top ha), ← eval_two_mul (f := f)]
  unfold mulX
  cases (2 * a).testBit w with
  | true => rw [cond_true, eval_xor h.linear, h.zero, xor_zero]
  | false => rfl

theorem eval_mul {b : Nat} (hb : b < 2 ^ w) (k a : Nat) :
    eval f x w (mul w p b k a) = eval f (eval f x w b) k a := by
  induction k generalizing a with
  | zero => exact eval_zero h.linear x w
  | succ k ih =>
    have hscale : eval f x w (bif a.testBit 0 then b else 0) =
        scale (a.testBit 0) (eval f x w b) := by
      cases a.testBit 0 with
      | true => rfl
      | false => exact eval_zero h.linear x w
    rw [mul, eval_xor h.linear, hscale, eval_mulX h (mul_lt h.lt h.top hb k _), ih, eval]

theorem eval_square {a n : Nat} (ha : a < 2 ^ w) (hn : eval f x w a = f^[n] x) :
    eval f x w (square w p a) = f^[n + n] x := by
  rw [square, eval_mul h ha, hn, eval_iterate h.linear, hn, iterate_add_apply]

/-- **Iterates by squaring.** -/
theorem eval_powX {k n : Nat} (hn : n < 2 ^ k) : eval f x w (powX w p k n) = f^[n] x := by
  induction k generalizing n with
  | zero =>
    obtain rfl : n = 0 := Nat.lt_one_iff.1 hn
    exact eval_one h.linear x h.pos
  | succ k ih =>
    have hlt := powX_lt h.lt h.top h.pos k (n / 2)
    have hsquare := eval_square h hlt
      (ih (Nat.div_lt_of_lt_mul (by rwa [Nat.pow_succ, Nat.mul_comm] at hn)))
    have hsq : square w p (powX w p k (n / 2)) < 2 ^ w := mul_lt h.lt h.top hlt _ _
    show eval f x w (bif n.testBit 0 then mulX w p (square w p (powX w p k (n / 2))) else _) = _
    cases hbit : n.testBit 0 with
    | true =>
      have hodd : n = n / 2 + n / 2 + 1 := by
        have := Nat.testBit_zero n ▸ hbit
        simp only [decide_eq_true_eq] at this
        omega
      rw [cond_true, eval_mulX h hsq, hsquare, ← iterate_succ_apply' f, Nat.succ_eq_add_one, ← hodd]
    | false =>
      have heven : n = n / 2 + n / 2 := by
        have := Nat.testBit_zero n ▸ hbit
        simp only [decide_eq_false_iff_not] at this
        omega
      rw [cond_false, hsquare, ← heven]

end Relation

end XorMap
