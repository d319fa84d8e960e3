import Mathlib.Data.Fin.Basic

/-!
# Bytes in memory

Memory is a function from addresses to bytes.  A field is a run of bytes
(`load`, `store`), and a number is stored with the low byte first (`word`,
`bytes`).  A store is read back where it was made (`load_store`) and is not seen
by fields that do not overlap it (`load_store_of_disjoint`).
-/

namespace Bytes

abbrev Byte := BitVec 8

/-! ## Algorithm -/

def load (m : Nat → Byte) (off : Nat) {n : Nat} : Fin n → Byte := fun i => m (off + i)

def store (m : Nat → Byte) (off : Nat) {n : Nat} (v : Fin n → Byte) : Nat → Byte := fun a =>
  if h : off ≤ a ∧ a - off < n then v ⟨a - off, h.2⟩ else m a

/-- The number with these bytes, the low one first. -/
def word : {n : Nat} → (Fin n → Byte) → BitVec (8 * n)
  | 0, _ => 0
  | _ + 1, v => word (fun i => v i.succ) ++ v 0

def bytes {n : Nat} (x : BitVec (8 * n)) : Fin n → Byte := fun i => x.extractLsb' (8 * i) 8

/-- `htons` and `ntohs` on a little-endian host. -/
def htons (x : BitVec 16) : BitVec 16 := x.extractLsb' 0 8 ++ x.extractLsb' 8 8

/-- `memcmp`: the sign of the first difference. -/
def memcmp {n : Nat} (a b : Fin n → Byte) : Int :=
  match (List.finRange n).find? fun i => a i ≠ b i with
  | none => 0
  | some i => if a i < b i then -1 else 1

/-! ## Lemmas -/

theorem load_store (m : Nat → Byte) (off : Nat) {n : Nat} (v : Fin n → Byte) :
    load (store m off v) off = v := by
  funext i
  have hi : off ≤ off + i.val ∧ off + i.val - off < n := by omega
  have hv : off + i.val - off = i.val := by omega
  show (if h : _ then _ else _) = v i
  rw [dif_pos hi]
  exact congrArg v (Fin.ext hv)

theorem load_store_of_disjoint (m : Nat → Byte) {off off' n n' : Nat} (v : Fin n → Byte)
    (h : off + n ≤ off' ∨ off' + n' ≤ off) :
    (load (store m off v) off' : Fin n' → Byte) = load m off' := by
  funext i
  have hi : ¬ (off ≤ off' + i.val ∧ off' + i.val - off < n) := by omega
  simp only [load, store, dif_neg hi]

theorem getLsbD_word {n : Nat} (v : Fin n → Byte) (i : Nat) (hi : i < 8 * n) :
    (word v).getLsbD i = (v ⟨i / 8, by omega⟩).getLsbD (i % 8) := by
  induction n generalizing i with
  | zero => omega
  | succ n ih =>
    unfold word
    rw [BitVec.getLsbD_append]
    by_cases h8 : i < 8
    · rw [if_pos h8]
      have h0 : i / 8 = 0 := by omega
      have hm : i % 8 = i := by omega
      simp only [h0, hm]
      rfl
    · rw [if_neg h8, ih _ (i - 8) (by omega)]
      have hm : (i - 8) % 8 = i % 8 := by omega
      have hd : (i - 8) / 8 + 1 = i / 8 := by omega
      rw [hm]
      congr 2
      apply Fin.ext
      exact hd

theorem word_bytes {n : Nat} (x : BitVec (8 * n)) : word (bytes x) = x := by
  apply BitVec.eq_of_getLsbD_eq
  intro i hi
  rw [getLsbD_word _ i hi]
  have hd : 8 * (i / 8) + i % 8 = i := Nat.div_add_mod i 8
  have hm : i % 8 < 8 := Nat.mod_lt i (by decide)
  simp [bytes, hm, hd]

theorem htons_htons (x : BitVec 16) : htons (htons x) = x := by
  apply BitVec.eq_of_getLsbD_eq
  intro i hi
  simp only [htons, BitVec.getLsbD_append, BitVec.getLsbD_extractLsb']
  by_cases h8 : i < 8
  · have h1 : 8 + i - 8 = i := by omega
    simp [h8, h1]
  · have h1 : 8 + (i - 8) = i := by omega
    have h2 : i - 8 < 8 := by omega
    simp [h8, h1, h2]

end Bytes
