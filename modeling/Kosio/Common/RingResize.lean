import Kosio.Common.RingFifo
import Kosio.Lib.Run

/-!
# `HeapRingBuffer::resize`

`resize` adds the spare slot to `new_size` and then compares with `size()`, so a
capacity one less than what is stored is taken for enough; it moves the elements
to the front, but leaves the indices of an empty buffer where they are; and
`new_size + 1` may wrap.  `Fits` says when none of this happens, and a resize is
right if and only if it does (`resize_iff`).
-/

namespace Kosio

namespace HeapRingBuffer

open Steps

variable {T : Type}

/-! ## Algorithm -/

/-- `std::copy` of the slots from `first` to `last`, to the slots from `off` on. -/
def copy (src : List T) (first last : Nat) (dst : List T) (off : Nat) : Option (List T) :=
  if first ≤ last ∧ last ≤ src.length ∧ off + (last - first) ≤ dst.length then
    some (dst.take off ++ (src.drop first).take (last - first) ++ dst.drop (off + (last - first)))
  else none

deriving instance DecidableEq for HeapRingBuffer

inductive Resized (T : Type) where
  | returned (ret : Bool) (b : HeapRingBuffer T)
  /-- `std::length_error` from the constructor of the new vector -/
  | lengthError
  | undefined
deriving DecidableEq

def resize [Inhabited T] (max : Nat) (b : HeapRingBuffer T) (newSize : Nat) : Resized T :=
  let newSize := (newSize + 1) % 2 ^ 64
  if newSize = b.data.length then .returned true b
  else
    match b.size with
    | none => .undefined
    | some size =>
      if newSize < size then .returned false b
      else if newSize > max then .lengthError
      else
        let data := List.replicate newSize default
        if b.start < b.end_ then
          (copy b.data b.start b.end_ data 0).elim .undefined fun data =>
            .returned true ⟨0, b.end_ - b.start, data⟩
        else if b.start > b.end_ then
          ((copy b.data b.start b.data.length data 0).bind fun data =>
            copy b.data 0 b.end_ data (b.data.length - b.start)).elim .undefined fun data =>
              .returned true ⟨0, b.end_ + (b.data.length - b.start), data⟩
        else .returned true { b with data }

/-! ## Runs -/

inductive Act (T : Type) where
  | call (call : Call T)
  | resize (newSize : BitVec 64)

/-- `safety_push` is called when there is room, `safety_pop` when there is an element. -/
def Allowed (b : HeapRingBuffer T) : Call T → Bool
  | .safetyPush _ => b.isFill = some false
  | .safetyPop => b.isEmpty = false
  | _ => true

/-- A `resize` that throws leaves the buffer as it was. -/
def step [Inhabited T] (max : Nat) (b : HeapRingBuffer T) : Act T → Option (HeapRingBuffer T)
  | .call call => if b.Allowed call then some (b.exec call).2 else none
  | .resize newSize =>
    match b.resize max newSize.toNat with
    | .returned _ b' => some b'
    | _ => some b

/-- What is asked of `resize` when `l` is stored. -/
def ResizesTo (b : HeapRingBuffer T) (l : List T) (newSize : Nat) (r : Resized T) : Prop :=
  (∃ b', r = .returned true b' ∧ l.length ≤ newSize ∧ Holds b' l ∧ b'.capacity = newSize ∧
    b'.start < b'.data.length ∧ b'.end_ < b'.data.length ∧ Simulates b' ⟨newSize, l⟩) ∨
  (newSize < l.length ∧ r = .returned false b)

def Preserved [Inhabited T] (max : Nat) (b : HeapRingBuffer T) (a : Act T)
    (_ : HeapRingBuffer T) : Prop :=
  ∀ newSize, a = .resize newSize → ∃ l, Holds b l ∧ b.size = some l.length ∧
    ResizesTo b l newSize.toNat (b.resize max newSize.toNat)

/-- The capacity stays, or two elements or more are too many, or all fit into a
vector that can be built and, if there are none, the indices are inside it. -/
def FitsIn (max : Nat) (b : HeapRingBuffer T) (newSize : Nat) : Prop :=
  newSize + 1 = b.data.length ∨ ∃ size, b.size = some size ∧
    (newSize + 1 < size ∨
      (size ≤ newSize ∧ newSize + 1 ≤ max ∧ (b.isEmpty = true → b.start ≤ newSize)))

def Fits (max : Nat) (b : HeapRingBuffer T) (a : Act T) (_ : HeapRingBuffer T) : Prop :=
  ∀ newSize, a = .resize newSize → b.FitsIn max newSize.toNat

/-! ## What is copied -/

/-- Behind what is already copied. -/
theorem copy_append (src pre : List T) (d : T) {first last off k : Nat} (hoff : off = pre.length)
    (h1 : first ≤ last) (h2 : last ≤ src.length) (h3 : last - first ≤ k) :
    copy src first last (pre ++ List.replicate k d) off =
      some (pre ++ (src.drop first).take (last - first) ++
        List.replicate (k - (last - first)) d) := by
  subst hoff
  rw [copy, if_pos ⟨h1, h2, by simpa using h3⟩, List.take_left,
    List.drop_length_add_append, List.drop_replicate]

variable {b : HeapRingBuffer T} {l : List T}

theorem Holds.slice (h : Holds b l) (hw : b.start + l.length ≤ b.data.length) :
    (b.data.drop b.start).take l.length = l := by
  apply List.ext_getElem?
  intro i
  by_cases hi : i < l.length
  · rw [List.getElem?_take_of_lt hi, List.getElem?_drop, ← h.get i hi,
      Nat.mod_eq_of_lt (by omega)]
  · rw [List.getElem?_eq_none (by simp; omega), List.getElem?_eq_none (by omega)]

theorem Holds.slices (h : Holds b l) (hw : b.data.length ≤ b.start + l.length) :
    b.data.drop b.start ++ b.data.take (b.start + l.length - b.data.length) = l := by
  have hs := h.start_lt
  have hl := h.length_lt
  apply List.ext_getElem?
  intro i
  by_cases hi : i < b.data.length - b.start
  · rw [List.getElem?_append_left (by simpa using hi), List.getElem?_drop, ← h.get i (by omega),
      Nat.mod_eq_of_lt (by omega)]
  · rw [List.getElem?_append_right (by simp; omega), List.length_drop]
    by_cases hil : i < l.length
    · rw [List.getElem?_take_of_lt (by omega), ← h.get i hil, round_eq hs (by omega),
        if_neg (by omega)]
      congr 1
      omega
    · rw [List.getElem?_eq_none (by simp; omega), List.getElem?_eq_none (by omega)]

/-- The elements at the front of a vector with room for them. -/
theorem holds_front {data : List T} {n : Nat} (hn : l.length < n) (hd : data.length = n)
    (hl : ∀ i, i < l.length → data[i]? = l[i]?) : Holds ⟨0, l.length, data⟩ l := by
  subst hd
  refine ⟨by show 0 < data.length; omega, hn, ?_, fun i hi => ?_⟩
  · show l.length = (0 + l.length) % data.length
    rw [Nat.zero_add, Nat.mod_eq_of_lt hn]
  · show data[(0 + i) % data.length]? = _
    rw [Nat.zero_add, Nat.mod_eq_of_lt (by omega)]
    exact hl i hi

/-! ## What a resize does -/

/-- The elements are in one piece. -/
theorem Holds.copy_straight (h : Holds b l) (hlt : b.start < b.end_) {n : Nat} {d : T}
    (hn : l.length ≤ n) :
    0 < l.length ∧ b.end_ - b.start = l.length ∧
      copy b.data b.start b.end_ (List.replicate n d) 0 =
        some (l ++ List.replicate (n - l.length) d) := by
  have hs := h.start_lt
  have hl := h.length_lt
  have hround := round_eq hs (Nat.le_of_lt hl)
  rw [← h.end_eq] at hround
  have hw : b.start + l.length < b.data.length ∧ b.end_ = b.start + l.length := by
    split at hround <;> omega
  have hend : b.end_ - b.start = l.length := by omega
  have hcopy := copy_append b.data [] d (show 0 = ([] : List T).length from rfl)
    (Nat.le_of_lt hlt) (show b.end_ ≤ b.data.length by omega) (show b.end_ - b.start ≤ n by omega)
  rw [hend, h.slice (Nat.le_of_lt hw.1)] at hcopy
  exact ⟨by omega, hend, hcopy⟩

/-- They go round the end of the vector. -/
theorem Holds.copy_round (h : Holds b l) (hlt : b.end_ < b.start) {n : Nat} {d : T}
    (hn : l.length ≤ n) :
    0 < l.length ∧ b.end_ + (b.data.length - b.start) = l.length ∧
      ((copy b.data b.start b.data.length (List.replicate n d) 0).bind fun data =>
        copy b.data 0 b.end_ data (b.data.length - b.start)) =
          some (l ++ List.replicate (n - l.length) d) := by
  have hs := h.start_lt
  have hl := h.length_lt
  have hround := round_eq hs (Nat.le_of_lt hl)
  rw [← h.end_eq] at hround
  have hw : b.data.length ≤ b.start + l.length ∧
      b.end_ = b.start + l.length - b.data.length := by
    split at hround <;> omega
  have hend : b.end_ + (b.data.length - b.start) = l.length := by omega
  have hlen : (b.data.drop b.start).length = b.data.length - b.start := List.length_drop
  have hcopy1 := copy_append b.data [] d (show 0 = ([] : List T).length from rfl)
    (Nat.le_of_lt hs) (Nat.le_refl _) (show b.data.length - b.start ≤ n by omega)
  rw [List.nil_append, List.nil_append, List.take_of_length_le (Nat.le_of_eq hlen)] at hcopy1
  have hcopy2 := copy_append b.data _ d hlen.symm (Nat.zero_le b.end_)
    (show b.end_ ≤ b.data.length by omega)
    (show b.end_ - 0 ≤ n - (b.data.length - b.start) by omega)
  have hslices := h.slices hw.1
  rw [← hw.2] at hslices
  rw [List.drop_zero, Nat.sub_zero, hslices] at hcopy2
  refine ⟨by omega, hend, ?_⟩
  rw [hcopy1, Option.bind_some, hcopy2]
  congr 3
  omega

/-- **Every case of `resize`**, where `n` is the new number of slots. -/
theorem Holds.resize_cases [Inhabited T] (h : Holds b l) (max : Nat) {newSize n : Nat}
    (hb : b.data.length < 2 ^ 63) (hn : (newSize + 1) % 2 ^ 64 = n) :
    (n = b.data.length ∧ b.resize max newSize = .returned true b) ∨
    (n ≠ b.data.length ∧ n < l.length ∧ b.resize max newSize = .returned false b) ∨
    (n ≠ b.data.length ∧ l.length ≤ n ∧ max < n ∧ b.resize max newSize = .lengthError) ∨
    (n ≠ b.data.length ∧ l.length ≤ n ∧ n ≤ max ∧ l ≠ [] ∧ b.resize max newSize =
      .returned true ⟨0, l.length, l ++ List.replicate (n - l.length) default⟩) ∨
    (n ≠ b.data.length ∧ n ≤ max ∧ l = [] ∧ b.resize max newSize =
      .returned true { b with data := List.replicate n default }) := by
  unfold resize
  simp only [hn, h.size_eq hb]
  by_cases h1 : n = b.data.length
  · rw [if_pos h1]
    exact Or.inl ⟨h1, rfl⟩
  rw [if_neg h1]
  right
  by_cases h2 : n < l.length
  · rw [if_pos h2]
    exact Or.inl ⟨h1, h2, rfl⟩
  rw [if_neg h2]
  right
  by_cases h3 : n > max
  · rw [if_pos h3]
    exact Or.inl ⟨h1, by omega, h3, rfl⟩
  rw [if_neg h3]
  right
  by_cases h4 : b.start < b.end_
  · rw [if_pos h4]
    obtain ⟨hlen, hend, hcopy⟩ := h.copy_straight (d := default) h4 (show l.length ≤ n by omega)
    rw [hcopy, hend]
    exact Or.inl ⟨h1, by omega, by omega, List.ne_nil_of_length_pos hlen, rfl⟩
  rw [if_neg h4]
  by_cases h5 : b.start > b.end_
  · rw [if_pos h5]
    obtain ⟨hlen, hend, hcopy⟩ := h.copy_round (d := default) h5 (show l.length ≤ n by omega)
    rw [hcopy, hend]
    exact Or.inl ⟨h1, by omega, by omega, List.ne_nil_of_length_pos hlen, rfl⟩
  · rw [if_neg h5]
    right
    refine ⟨h1, by omega, h.isEmpty_iff.1 (decide_eq_true ?_), rfl⟩
    omega

/-- A buffer of the new capacity that holds what was stored is as asked. -/
theorem Holds.resizesTo {b' : HeapRingBuffer T} {newSize : Nat} (h : Holds b' l)
    (hb : b'.data.length = newSize + 1) (hn : b'.data.length < 2 ^ 63) :
    ResizesTo b l newSize (.returned true b') := by
  have hl := h.length_lt
  refine Or.inl ⟨b', rfl, by omega, h, capacity_eq hb hn, h.start_lt, ?_, h.simulates hb hn⟩
  rw [h.end_eq]
  exact Nat.mod_lt _ (by omega)

/-- The elements are copied to the front of a vector with room for them. -/
theorem resizesTo_copied (d : T) {newSize : Nat} (hl : l.length ≤ newSize)
    (hn : newSize + 1 < 2 ^ 63) : ResizesTo b l newSize
      (.returned true ⟨0, l.length, l ++ List.replicate (newSize + 1 - l.length) d⟩) := by
  have hdata : (l ++ List.replicate (newSize + 1 - l.length) d).length = newSize + 1 := by
    rw [List.length_append, List.length_replicate]
    omega
  have hfront := holds_front (l := l) (show l.length < newSize + 1 by omega) hdata
    fun i hi => List.getElem?_append_left hi
  exact hfront.resizesTo hdata (Nat.lt_of_le_of_lt (Nat.le_of_eq hdata) hn)

/-- The indices stay, within the new vector. -/
theorem Holds.resizesTo_emptied (h : Holds b []) (d : T) {newSize : Nat}
    (hs : b.start ≤ newSize) (hn : newSize + 1 < 2 ^ 63) : ResizesTo b [] newSize
      (.returned true { b with data := List.replicate (newSize + 1) d }) := by
  have hend : b.start = b.end_ := of_decide_eq_true (h.isEmpty_iff.2 rfl)
  have hdata : (List.replicate (newSize + 1) d).length = newSize + 1 := List.length_replicate
  have hempty : Holds { b with data := List.replicate (newSize + 1) d } [] := by
    refine ⟨?_, ?_, ?_, fun i hi => absurd hi (Nat.not_lt_zero i)⟩
    · show b.start < List.length _
      rw [hdata]
      omega
    · show 0 < List.length _
      rw [hdata]
      omega
    show b.end_ = (b.start + 0) % List.length _
    rw [hdata, Nat.add_zero, Nat.mod_eq_of_lt (by omega), hend]
  exact hempty.resizesTo hdata (Nat.lt_of_le_of_lt (Nat.le_of_eq hdata) hn)

/-- **A resize is right if and only if it fits.** -/
theorem Holds.resize_iff [Inhabited T] {max newSize : Nat} (h : Holds b l)
    (hb : b.data.length ≤ max) (hmax : max < 2 ^ 63) (hnew : newSize < 2 ^ 64) :
    ResizesTo b l newSize (b.resize max newSize) ↔ b.FitsIn max newSize := by
  have hs := h.start_lt
  have hl := h.length_lt
  have hsize := h.size_eq (show b.data.length < 2 ^ 63 by omega)
  have hfits : b.FitsIn max newSize ↔ newSize + 1 = b.data.length ∨ newSize + 1 < l.length ∨
      (l.length ≤ newSize ∧ newSize + 1 ≤ max ∧ (l = [] → b.start ≤ newSize)) := by
    unfold FitsIn
    simp only [hsize, Option.some.injEq, exists_eq_left', h.isEmpty_iff]
  rw [hfits]
  rcases h.resize_cases max (show b.data.length < 2 ^ 63 by omega)
    (rfl : (newSize + 1) % 2 ^ 64 = _) with
    ⟨h1, hr⟩ | ⟨h1, h2, hr⟩ | ⟨h1, h2, h3, hr⟩ | ⟨h1, h2, h3, hne, hr⟩ | ⟨h1, h3, rfl, hr⟩
  · -- nothing to do
    have hlen : b.data.length = newSize + 1 := by omega
    rw [hr]
    exact ⟨fun _ => Or.inl hlen.symm, fun _ => h.resizesTo hlen (by omega)⟩
  · rw [hr]
    constructor
    · rintro (⟨_, hb', -⟩ | ⟨hlt, -⟩)
      · cases hb'
      · omega
    · rintro (he | hlt | ⟨hle, hm, -⟩)
      · omega
      · exact Or.inr ⟨by omega, rfl⟩
      · omega
  · rw [hr]
    constructor
    · rintro (⟨_, hb', -⟩ | ⟨-, hb'⟩) <;> cases hb'
    · rintro (he | hlt | ⟨hle, hm, -⟩) <;> omega
  · rw [hr]
    have hpos := List.length_pos_of_ne_nil hne
    constructor
    · rintro (⟨_, -, hle, -⟩ | ⟨-, hb'⟩)
      · exact Or.inr (Or.inr ⟨hle, by omega, fun he => absurd he hne⟩)
      · cases hb'
    · intro hf
      have hlen : (newSize + 1) % 2 ^ 64 = newSize + 1 := by omega
      rw [hlen] at h3 ⊢
      exact resizesTo_copied default (by omega) (by omega)
  · rw [hr]
    constructor
    · rintro (⟨_, hb', -, hheld, -⟩ | ⟨-, hb'⟩)
      · cases hb'
        have hlt : b.start < (List.replicate ((newSize + 1) % 2 ^ 64) (default : T)).length :=
          hheld.start_lt
        rw [List.length_replicate] at hlt
        exact Or.inr (Or.inr ⟨Nat.zero_le _, by omega, fun _ => by omega⟩)
      · cases hb'
    · intro hf
      simp only [List.length_nil, forall_const] at hf
      have hlen : (newSize + 1) % 2 ^ 64 = newSize + 1 := by omega
      rw [hlen] at h1 h3 ⊢
      exact h.resizesTo_emptied default (by omega) (by omega)

/-- The new vector could be built. -/
theorem Holds.resize_length [Inhabited T] {max newSize : Nat} {ret : Bool}
    {b' : HeapRingBuffer T} (h : Holds b l) (hb : b.data.length ≤ max) (hmax : max < 2 ^ 63)
    (hr : b.resize max newSize = .returned ret b') : b'.data.length ≤ max := by
  rcases h.resize_cases max (show b.data.length < 2 ^ 63 by omega)
    (rfl : (newSize + 1) % 2 ^ 64 = _) with
    ⟨-, he⟩ | ⟨-, -, he⟩ | ⟨-, -, -, he⟩ | ⟨-, h2, h3, -, he⟩ | ⟨-, h3, -, he⟩
  all_goals
    rw [hr] at he
    cases he
  · exact hb
  · exact hb
  · rw [List.length_append, List.length_replicate]
    omega
  · rwa [List.length_replicate]

/-! ## Invariant -/

/-- The buffer holds something, and the vector could be built. -/
def Kept (max : Nat) (b : HeapRingBuffer T) : Prop :=
  (∃ l, Contents b l) ∧ b.data.length ≤ max

theorem Holds.allowed {cap : Nat} {call : Call T} (h : Holds b l) (hb : b.data.length = cap + 1)
    (ha : b.Allowed call = true) : ∃ out q, (⟨cap, l⟩ : Fifo T).exec call = some (out, q) := by
  cases call with
  | safetyPush val =>
    have hf : (⟨cap, l⟩ : Fifo T).isFill = false := by
      have hf := of_decide_eq_true ha
      rwa [h.isFill_fifo hb, Option.some.injEq] at hf
    refine ⟨_, _, if_neg (fun ht => ?_)⟩
    rw [hf] at ht
    cases ht
  | safetyPop =>
    cases l with
    | nil =>
      have he := of_decide_eq_true ha
      rw [h.isEmpty_iff.2 rfl] at he
      cases he
    | cons val l => exact ⟨_, _, rfl⟩
  | pop => cases l <;> exact ⟨_, _, rfl⟩
  | _ => exact ⟨_, _, rfl⟩

/-- Without a slot no call changes anything. -/
theorem exec_of_no_slots {call : Call T} (hd : b.data = []) (he : b.isEmpty = true)
    (ha : b.Allowed call = true) : (b.exec call).2 = b := by
  have hfill : b.isFill = none := if_pos (by rw [hd]; rfl)
  cases call with
  | push val =>
    have hpush : b.push val = none := by rw [push, hfill, Option.bind_none]
    rw [exec, hpush, Option.elim_none]
  | pop =>
    have hpop : b.pop = some (none, b) := if_pos he
    rw [exec, hpop, Option.elim_some]
  | safetyPush val =>
    have hf := of_decide_eq_true ha
    rw [hfill] at hf
    cases hf
  | safetyPop =>
    have hf := of_decide_eq_true ha
    rw [he] at hf
    cases hf
  | _ => rfl

theorem kept_call {max : Nat} {call : Call T} (h : Kept max b) (hmax : max < 2 ^ 63)
    (ha : b.Allowed call = true) : Kept max (b.exec call).2 := by
  obtain ⟨⟨l, hl | ⟨hd, he, rfl⟩⟩, hb⟩ := h
  · have hpos := hl.start_lt
    have hlen : b.data.length = b.data.length - 1 + 1 := by omega
    obtain ⟨out, q, hq⟩ := hl.allowed hlen ha
    obtain ⟨-, -, h2, h3⟩ := hl.exec hlen (by omega) hq
    exact ⟨⟨_, Or.inl h2⟩, h3 ▸ hb⟩
  · rw [exec_of_no_slots hd he ha]
    exact ⟨⟨_, Or.inr ⟨hd, he, rfl⟩⟩, hb⟩

/-- Without a slot there is nothing a resize could keep. -/
theorem preserved_iff [Inhabited T] {max : Nat} (hmax : max < 2 ^ 63) (b : HeapRingBuffer T)
    (a : Act T) (b' : HeapRingBuffer T) (h : Kept max b) (_ : step max b a = some b') :
    Preserved max b a b' ↔ Fits max b a b' := by
  obtain ⟨⟨l, hl⟩, hb⟩ := h
  refine forall_congr' fun newSize => imp_congr_right fun _ => ?_
  have hnew : newSize.toNat < 2 ^ 64 := newSize.isLt
  rcases hl with hl | ⟨hd, -, -⟩
  · have hsize := hl.size_eq (show b.data.length < 2 ^ 63 by omega)
    constructor
    · rintro ⟨l', hl', -, hr⟩
      exact (hl'.resize_iff hb hmax hnew).1 hr
    · intro hf
      exact ⟨l, hl, hsize, (hl.resize_iff hb hmax hnew).2 hf⟩
  · have hsize : b.size = none := if_pos (by rw [hd]; rfl)
    constructor
    · rintro ⟨l', -, hs, -⟩
      rw [hsize] at hs
      cases hs
    · rintro (he | ⟨size, hs, -⟩)
      · rw [hd] at he
        cases he
      · rw [hsize] at hs
        cases hs

theorem kept_step [Inhabited T] {max : Nat} (hmax : max < 2 ^ 63) (b : HeapRingBuffer T)
    (a : Act T) (b' : HeapRingBuffer T) (h : Kept max b) (hs : step max b a = some b')
    (hf : Fits max b a b') : Kept max b' := by
  cases a with
  | call call =>
    obtain ⟨ha, heq⟩ := Option.ite_none_right_eq_some.1 hs
    cases heq
    exact kept_call h hmax ha
  | resize newSize =>
    obtain ⟨l, hl, -, hr⟩ := (preserved_iff hmax b _ b' h hs).2 hf newSize rfl
    have hb := h.2
    have hstep : (match b.resize max newSize.toNat with
      | .returned _ b' => some b'
      | _ => some b) = some b' := hs
    rcases hr with ⟨b'', hr, -, hheld, -⟩ | ⟨-, hr⟩
    · rw [hr] at hstep
      cases hstep
      exact ⟨⟨l, Or.inl hheld⟩, hl.resize_length hb hmax hr⟩
    · rw [hr] at hstep
      cases hstep
      exact ⟨⟨l, Or.inl hl⟩, hb⟩

/-! ## Top theorem -/

/-- **`resize` keeps the queue** in every run if and only if each resize fits:
from a new buffer of any capacity, with any calls before and between. -/
theorem ringBuffer_resize_iff [Inhabited T] (sizeofT : Nat) (size : BitVec 64)
    (b : HeapRingBuffer T) (hb : construct sizeofT size.toNat = some b) (as : List (Act T)) :
    EachStep (step (maxSize sizeofT)) (Preserved (maxSize sizeofT)) b as ↔
      EachStep (step (maxSize sizeofT)) (Fits (maxSize sizeofT)) b as := by
  have hmax := maxSize_lt sizeofT
  obtain ⟨hle, heq⟩ := Option.ite_none_right_eq_some.1 hb
  cases heq
  have hkept : Kept (maxSize sizeofT) (make size.toNat : HeapRingBuffer T) := by
    refine ⟨⟨[], make_contents size.toNat⟩, ?_⟩
    show (List.replicate _ (default : T)).length ≤ _
    rwa [List.length_replicate]
  exact eachStep_iff (Kept (maxSize sizeofT)) (kept_step hmax) (preserved_iff hmax) hkept

/-- Two elements round the end of the vector go into a buffer for three. -/
def grown : List (Act Nat) :=
  [.call (.push 7), .call .pop, .call (.push 8), .call (.push 9), .resize 3]

theorem ringBuffer_resize_grown :
    EachStep (step (maxSize 4)) (Preserved (maxSize 4)) (make 2) grown := by
  refine (ringBuffer_resize_iff 4 2 _ rfl grown).2 ?_
  iterate 4
    rintro t ⟨⟩
    refine ⟨nofun, ?_⟩
  rintro t ⟨⟩
  refine ⟨?_, trivial⟩
  rintro newSize ⟨⟩
  exact Or.inr ⟨2, rfl, Or.inr ⟨by decide, by decide, by decide⟩⟩

/-- Two elements in a buffer that is to hold one. -/
def oneShort : List (Act Nat) := [.call (.push 7), .call (.push 8), .resize 1]

/-- Nothing in a buffer of three slots whose indices are at the second. -/
def emptied : List (Act Nat) := [.call (.push 7), .call .pop, .resize 0]

/-- The first resize says true and leaves `end_` behind the two slots there are,
after the second a push writes outside the vector. -/
theorem resize_not_preserved :
    (∃ b, run (step (maxSize 4)) (make 2) oneShort = some b ∧ b.end_ = b.data.length) ∧
    ¬ EachStep (step (maxSize 4)) (Preserved (maxSize 4)) (make 2) oneShort ∧
    (∃ b, run (step (maxSize 4)) (make 2) emptied = some b ∧
      (b.exec (.push 9)).1 = .undefined) ∧
    ¬ EachStep (step (maxSize 4)) (Preserved (maxSize 4)) (make 2) emptied := by
  refine ⟨⟨_, rfl, by decide⟩, fun h => ?_, ⟨_, rfl, by decide⟩, fun h => ?_⟩
  · obtain ⟨-, h⟩ := h _ rfl
    obtain ⟨-, h⟩ := h _ rfl
    obtain ⟨l, -, hs, hr⟩ := (h _ rfl).1 _ rfl
    have hl : 2 = l.length := Option.some.inj hs
    have hresize : resize (maxSize 4) (⟨0, 2, [7, 8, 0]⟩ : HeapRingBuffer Nat) 1 =
        .returned true ⟨0, 2, [7, 8]⟩ := by decide +kernel
    have hr : ResizesTo ⟨0, 2, [7, 8, 0]⟩ l 1 (resize (maxSize 4) ⟨0, 2, [7, 8, 0]⟩ 1) := hr
    rw [hresize] at hr
    rcases hr with ⟨_, -, hle, -⟩ | ⟨-, hr⟩
    · omega
    · cases hr
  · obtain ⟨-, h⟩ := h _ rfl
    obtain ⟨-, h⟩ := h _ rfl
    obtain ⟨l, -, -, hr⟩ := (h _ rfl).1 _ rfl
    have hresize : resize (maxSize 4) (⟨1, 1, [7, 0, 0]⟩ : HeapRingBuffer Nat) 0 =
        .returned true ⟨1, 1, [0]⟩ := by decide +kernel
    have hr : ResizesTo ⟨1, 1, [7, 0, 0]⟩ l 0 (resize (maxSize 4) ⟨1, 1, [7, 0, 0]⟩ 0) := hr
    rw [hresize] at hr
    rcases hr with ⟨_, hr, -, -, -, hlt, -⟩ | ⟨-, hr⟩
    · cases hr
      exact absurd hlt (by decide)
    · cases hr

end HeapRingBuffer

end Kosio
