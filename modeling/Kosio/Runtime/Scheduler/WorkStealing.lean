import Mathlib.Algebra.BigOperators.Group.Finset.Basic
import Mathlib.Algebra.Order.Group.Multiset
import Kosio.Lib.Run
import Kosio.Lib.Tally
import Kosio.Runtime.Scheduler.LocalQueue

/-!
# Work stealing conserves tasks

Every task handed in is in one place: the live slots of a queue, the hands of a
call in progress (a thief's claimed slots among them), the global queue, or
returned (`conserved`).

What carries it: a queue's positions satisfy `steal ≤ real ≤ last ≤ steal + 256`
(`Geo`); a thread's locals are what its own queue and its victim's queue were
when it loaded them, and both only move forward (`Own`, `Across`); and a step by
one thread changes nothing that another one relies on (`Frame`).
-/

namespace Kosio.Runtime.WorkStealing

open Steps

/-! ## Positions -/

section Positions

/-- The 32-bit position. -/
def pos (n : Nat) : U32 := BitVec.ofNat 32 n

def slotAt (n : Nat) : Fin localQueueCapacity := ⟨n % localQueueCapacity, Nat.mod_lt _ (by decide)⟩

@[simp] theorem slot_pos (n : Nat) : slot (pos n) = slotAt n := by
  apply Fin.ext
  show (BitVec.ofNat 32 n).toNat % 256 = n % 256
  rw [BitVec.toNat_ofNat]
  omega

@[simp] theorem pos_add (a b : Nat) : pos a + pos b = pos (a + b) := (BitVec.ofNat_add a b).symm

@[simp] theorem pos_add_ofNat (a b : Nat) : pos a + BitVec.ofNat 32 b = pos (a + b) := pos_add a b

theorem pos_toNat (n : U32) : pos n.toNat = n := BitVec.ofNat_toNat .. |>.trans (by simp)

theorem sub_toNat {a b : Nat} (h : b ≤ a) (hlt : a < b + 2 ^ 32) : (pos a - pos b).toNat = a - b := by
  unfold pos
  rw [BitVec.toNat_sub, BitVec.toNat_ofNat, BitVec.toNat_ofNat]
  omega

/-- Positions less than a whole round apart are told apart. -/
theorem pos_inj {a b : Nat} (h : pos a = pos b) (hle : a ≤ b) (hlt : b < a + 2 ^ 32) : a = b := by
  have := congrArg BitVec.toNat h
  simp only [pos, BitVec.toNat_ofNat] at this
  omega

theorem slotAt_ne {a b : Nat} (h : a < b) (hlt : b < a + 256) : slotAt a ≠ slotAt b := by
  intro he
  have : a % 256 = b % 256 := congrArg Fin.val he
  omega

@[simp] theorem unpack_pack (a b : U32) : unpack (pack a b) = (a, b) := by
  unfold unpack pack
  refine Prod.ext ?_ ?_
  · apply BitVec.eq_of_getLsbD_eq
    intro i hi
    have h1 : ¬ 32 + i < 32 := by omega
    have h2 : 32 + i < 64 := by omega
    have h3 : b.getLsbD (32 + i) = false := BitVec.getLsbD_of_ge b _ (by omega)
    simp only [BitVec.getLsbD_setWidth, BitVec.getLsbD_ushiftRight, BitVec.getLsbD_or,
      BitVec.getLsbD_shiftLeft, hi, h1, h2, h3]
    simp
    omega
  · apply BitVec.eq_of_getLsbD_eq
    intro i hi
    simp [hi]

theorem pack_unpack (head : BitVec 64) : pack (unpack head).1 (unpack head).2 = head := by
  unfold unpack pack
  apply BitVec.eq_of_getLsbD_eq
  intro i hi
  by_cases h : i < 32
  · simp [h]
    omega
  · have h1 : i - 32 < 32 := by omega
    have h2 : 32 + (i - 32) = i := by omega
    simp [h, h1, h2, hi]

theorem pack_inj {a b c d : U32} (h : pack a b = pack c d) : a = c ∧ b = d := by
  have := congrArg unpack h
  simpa using this

end Positions

/-! ## Slots -/

variable {W T : Type}

section Region

variable {q r : LocalQueue T}

/-- The `n` slots from position `start` on. -/
def region (q : LocalQueue T) (start n : Nat) : List T :=
  (List.range n).map fun j => q.buffer (slotAt (start + j))

@[simp] theorem region_zero (start : Nat) : region q start 0 = [] := rfl

theorem region_add (start m n : Nat) :
    region q start (m + n) = region q start m ++ region q (start + m) n := by
  simp [region, List.range_add, Nat.add_assoc]

theorem region_succ (start n : Nat) :
    region q start (n + 1) = region q start n ++ [q.buffer (slotAt (start + n))] := by
  rw [region_add]
  rfl

theorem region_congr {start n : Nat}
    (h : ∀ p, start ≤ p → p < start + n → r.buffer (slotAt p) = q.buffer (slotAt p)) :
    region r start n = region q start n := by
  refine List.map_congr_left fun j hj => ?_
  have := List.mem_range.1 hj
  exact h _ (by omega) (by omega)

theorem write_buffer_ne {p p' : Nat} (x : T) (h : p' < p) (hlt : p < p' + 256) :
    (q.write (pos p) x).buffer (slotAt p') = q.buffer (slotAt p') := by
  unfold LocalQueue.write
  rw [slot_pos]
  exact Function.update_of_ne (slotAt_ne h hlt) ..

theorem write_buffer_self (p : Nat) (x : T) : (q.write (pos p) x).buffer (slotAt p) = x := by
  unfold LocalQueue.write
  rw [slot_pos]
  exact Function.update_self ..

/-- Slots before the one written keep what they hold. -/
theorem region_write {start n p : Nat} (x : T) (h : start + n ≤ p) (hlt : p < start + 256) :
    region (q.write (pos p) x) start n = region q start n :=
  region_congr fun p' _ _ => write_buffer_ne x (by omega) (by omega)

end Region

/-! ## Invariant -/

structure Geo (q : LocalQueue T) : Prop where
  head : q.head = pack (pos q.steal) (pos q.real)
  tail : q.tail = pos q.last
  steal_le : q.steal ≤ q.real
  real_le : q.real ≤ q.last
  last_le : q.last ≤ q.steal + 256

/-- A `steal` the owner has loaded. -/
def Loaded (q : LocalQueue T) (steal : U32) : Prop :=
  ∃ σ, steal = pos σ ∧ σ ≤ q.steal ∧ q.last ≤ σ + 256

/-- A `head_` the owner has loaded. -/
def LoadedHead (q : LocalQueue T) (head : BitVec 64) : Prop :=
  ∃ σ ρ, head = pack (pos σ) (pos ρ) ∧ σ ≤ q.steal ∧ σ ≤ ρ ∧ ρ ≤ q.real ∧ q.last ≤ σ + 256

/-- Room for half a queue from `tail` on. -/
def Room (q : LocalQueue T) (tail : U32) : Prop := tail = pos q.last ∧ q.last ≤ q.steal + 128

/-- What a thread's locals say of its own queue. -/
def Own (q : LocalQueue T) : Pc W T → Prop
  | .failed => False
  | .remTail steal => Loaded q steal
  | .batchHead tasks => tasks.length ≤ 256
  | .batchTail tasks steal => Loaded q steal ∧ tasks.length ≤ 256
  | .batchWrite tasks i tail =>
    i ≤ tasks.length ∧ tail = pos (q.last + i) ∧ q.last + tasks.length ≤ q.steal + 256 ∧
      region q q.last i = tasks.take i
  | .pushTail _ head => LoadedHead q head
  | .overflowCas _ head tail => ∃ η, head = pos η ∧ tail = q.tail ∧ η ≤ q.steal ∧ q.last = η + 256
  | .overflowRead _ _ tasks => tasks.length ≤ 128
  | .pushWrite _ tail => tail = pos q.last ∧ q.last < q.steal + 256
  | .pushStore task tail =>
    tail = pos q.last ∧ q.last < q.steal + 256 ∧ q.buffer (slotAt q.last) = task
  | .popTail head => LoadedHead q head
  | .popCas head => LoadedHead q head ∧ (unpack head).2 ≠ q.tail
  | .stealDstTail _ steal => Loaded q steal
  | .stealHead _ dstTail => Room q dstTail
  | .stealTail _ dstTail _ _ => Room q dstTail
  | .stealCas _ dstTail _ _ _ => Room q dstTail
  | .stealRead _ dstTail _ n _ => Room q dstTail ∧ 1 ≤ n.toNat ∧ n.toNat ≤ 128
  | .stealWrite _ dstTail _ n _ _ => Room q dstTail ∧ 1 ≤ n.toNat ∧ n.toNat ≤ 128
  | .stealRelease _ dstTail n _ => Room q dstTail ∧ 1 ≤ n.toNat ∧ n.toNat ≤ 128
  | .stealTake dstTail n =>
    dstTail = pos q.last ∧ 1 ≤ n.toNat ∧ n.toNat ≤ 128 ∧ q.last + n.toNat ≤ q.steal + 256
  | .stealStore dstNewTail _ =>
    ∃ k, dstNewTail = pos (q.last + k) ∧ k ≤ 128 ∧ q.last + k ≤ q.steal + 256
  | _ => True

/-- The worker a call steals from. -/
def Pc.src : Pc W T → Option W
  | .stealDstHead src => some src
  | .stealDstTail src _ => some src
  | .stealHead src _ => some src
  | .stealTail src _ _ _ => some src
  | .stealCas src _ _ _ _ => some src
  | .stealRead src _ _ _ _ => some src
  | .stealWrite src _ _ _ _ _ => some src
  | .stealRelease src _ _ _ => some src
  | _ => none

/-- The worker whose slots a call has claimed and not given back. -/
def Pc.claims : Pc W T → Option W
  | .stealRead src _ _ _ _ => some src
  | .stealWrite src _ _ _ _ _ => some src
  | .stealRelease src _ _ _ => some src
  | _ => none

/-- What a thief's locals say of its victim's queue. -/
def Across (dst src : LocalQueue T) : Pc W T → Prop
  | .stealTail _ _ prev seen => (unpack prev).2 = pos seen ∧ seen ≤ src.real
  | .stealCas _ _ prev n seen =>
    prev = pack (pos seen) (pos seen) ∧ seen ≤ src.real ∧
      (src.real = seen → 1 ≤ n.toNat ∧ n.toNat ≤ 128 ∧ seen + n.toNat ≤ src.last)
  | .stealRead _ _ first n i =>
    first = pos src.steal ∧ src.steal + n.toNat ≤ src.real ∧ i ≤ n.toNat ∧
      region dst dst.last i = region src src.steal i
  | .stealWrite _ _ first n i task =>
    first = pos src.steal ∧ src.steal + n.toNat ≤ src.real ∧ i < n.toNat ∧
      region dst dst.last i = region src src.steal i ∧ task = src.buffer (slotAt (src.steal + i))
  | .stealRelease _ _ n _ =>
    src.steal + n.toNat ≤ src.real ∧ region dst dst.last n.toNat = region src src.steal n.toNat
  | _ => True

/-! ## What is promised -/

/-- The tasks in the hands of a call. -/
def hand (queue : W → LocalQueue T) (q : LocalQueue T) : Pc W T → List T
  | .batchHead tasks => tasks
  | .batchTail tasks _ => tasks
  | .batchWrite tasks _ _ => tasks
  | .pushHead task => [task]
  | .pushTail task _ => [task]
  | .pushGlobal task => [task]
  | .overflowCas task _ _ => [task]
  -- those read, those still in their slots, and the one pushed
  | .overflowRead task head tasks =>
    tasks ++ (List.range (128 - tasks.length)).map (fun j =>
      q.buffer (slot (head + BitVec.ofNat 32 (tasks.length + j)))) ++ [task]
  | .pushWrite task _ => [task]
  | .pushStore task _ => [task]
  | .popRead real => [q.buffer (slot real)]
  | .stealRead src _ _ n _ => region (queue src) (queue src).steal n.toNat
  | .stealWrite src _ _ n _ _ => region (queue src) (queue src).steal n.toNat
  | .stealRelease src _ n _ => region (queue src) (queue src).steal n.toNat
  -- copied and not published
  | .stealTake _ n => region q q.last n.toNat
  | .stealStore dstNewTail result =>
    region q q.last (dstNewTail - q.tail).toNat ++ [result]
  | _ => []

def live (q : LocalQueue T) : List T := region q q.real (q.last - q.real)

variable [Fintype W]

/-- Every place a task can be in. -/
def places (s : State W T) : Multiset T :=
  (∑ w, (live (s.queue w) : Multiset T)) +
    (∑ w, (hand s.queue (s.queue w) (s.pc w) : Multiset T)) +
    (s.global.tasks : Multiset T) + (s.returned : Multiset T) + (s.dropped : Multiset T)

/-- Tasks are conserved, and dropped only by the closed global queue; a queue
holds at most 256 of them; no assertion has failed. -/
structure Sound (s : State W T) : Prop where
  conserved : (s.handed : Multiset T) = places s
  dropped : s.global.isClosed = false → s.dropped = []
  bounded : ∀ w, ((s.queue w).tail - (unpack (s.queue w).head).1).toNat ≤ localQueueCapacity
  asserts : ∀ w, s.pc w ≠ .failed

omit [Fintype W] in
/-- No live or claimed slot is overwritten. -/
def Untouched (s t : State W T) : Prop :=
  ∀ w p, (s.queue w).steal ≤ p → p < (s.queue w).last →
    (t.queue w).buffer (slotAt p) = (s.queue w).buffer (slotAt p)

omit [Fintype W] in
/-- `head_` does not advance `2^32` between a thief's load and its CAS. -/
def NoWrap (s : State W T) (a : Act W T) (_ : State W T) : Prop :=
  match a with
  | .step w _ =>
    match s.pc w with
    | .stealCas src _ _ _ seen => (s.queue src).real < seen + 2 ^ 32
    | _ => True
  | _ => True

instance (s : State W T) (a : Act W T) (t : State W T) : Decidable (NoWrap s a t) := by
  unfold NoWrap
  split
  · split <;> infer_instance
  · infer_instance

structure Inv (s : State W T) : Prop where
  geo : ∀ w, Geo (s.queue w)
  own : ∀ w, Own (s.queue w) (s.pc w)
  across : ∀ w src, (s.pc w).src = some src →
    src ≠ w ∧ Across (s.queue w) (s.queue src) (s.pc w)
  unique : ∀ w w' src, (s.pc w).claims = some src → (s.pc w').claims = some src → w = w'
  conserved : (s.handed : Multiset T) = places s
  num : s.global.num = s.global.tasks.length
  dropped : s.global.isClosed = false → s.dropped = []

theorem inv_init [Inhabited T] : Inv (init : State W T) := by
  have hhead : (0 : BitVec 64) = pack (pos 0) (pos 0) := by decide
  refine ⟨fun _ => ⟨hhead, rfl, Nat.le_refl _, Nat.le_refl _, Nat.le_add_right _ _⟩,
    fun _ => trivial, nofun, nofun, ?_, rfl, fun _ => rfl⟩
  simp [places, init, live, hand, LocalQueue.empty]

omit [Fintype W] in
theorem Geo.bounded {q : LocalQueue T} (h : Geo q) :
    (q.tail - (unpack q.head).1).toNat = q.last - q.steal := by
  have h1 := h.steal_le
  have h2 := h.real_le
  have h3 := h.last_le
  rw [h.head, h.tail, unpack_pack]
  exact sub_toNat (by omega) (by omega)

theorem Inv.sound {s : State W T} (h : Inv s) : Sound s := by
  refine ⟨h.conserved, h.dropped, fun w => ?_, fun w hw => ?_⟩
  · have := (h.geo w).last_le
    rw [(h.geo w).bounded]
    show _ ≤ 256
    omega
  · have := h.own w
    rw [hw] at this
    exact this

/-! ## What others rely on -/

section Frame

omit [Fintype W]

variable {q r : LocalQueue T}

/-- What any step may do to a queue: positions move forward, and no slot from
`steal` to `last` is written. -/
structure Kept (q r : LocalQueue T) : Prop where
  steal : q.steal ≤ r.steal
  real : q.real ≤ r.real
  last : q.last ≤ r.last
  buffer : ∀ p, q.steal ≤ p → p < q.last → r.buffer (slotAt p) = q.buffer (slotAt p)

/-- What a thief may do to a queue. -/
structure Passive (q r : LocalQueue T) : Prop where
  kept : Kept q r
  tail : r.tail = q.tail
  last : r.last = q.last
  buffer : r.buffer = q.buffer

theorem Kept.refl (q : LocalQueue T) : Kept q q :=
  ⟨Nat.le_refl _, Nat.le_refl _, Nat.le_refl _, fun _ _ _ => rfl⟩

theorem Passive.refl (q : LocalQueue T) : Passive q q := ⟨Kept.refl q, rfl, rfl, rfl⟩

theorem Passive.region (h : Passive q r) (start n : Nat) : region r start n = region q start n :=
  region_congr fun _ _ _ => by rw [h.buffer]

theorem Loaded.mono {steal : U32} (h : Loaded q steal) (hk : Passive q r) : Loaded r steal := by
  obtain ⟨σ, h1, h2, h3⟩ := h
  have := hk.kept.steal
  have := hk.last
  exact ⟨σ, h1, by omega, by omega⟩

theorem LoadedHead.mono {head : BitVec 64} (h : LoadedHead q head) (hk : Passive q r) :
    LoadedHead r head := by
  obtain ⟨σ, ρ, h1, h2, h3, h4, h5⟩ := h
  have := hk.kept.steal
  have := hk.kept.real
  have := hk.last
  exact ⟨σ, ρ, h1, by omega, h3, by omega, by omega⟩

theorem Room.mono {tail : U32} (h : Room q tail) (hk : Passive q r) : Room r tail := by
  have h1 := hk.kept.steal
  have h2 := hk.last
  have h3 := h.2
  exact ⟨h.1.trans (by rw [h2]), by omega⟩

/-- A thief does not change what the owner relies on. -/
theorem Own.mono {p : Pc W T} (h : Own q p) (hk : Passive q r) : Own r p := by
  have hs := hk.kept.steal
  have hl := hk.last
  have ht := hk.tail
  cases p with
  | remTail steal => exact Loaded.mono h hk
  | batchTail tasks steal => exact ⟨h.1.mono hk, h.2⟩
  | batchWrite tasks i tail =>
    obtain ⟨h1, h2, h3, h4⟩ := h
    exact ⟨h1, by rw [hl, h2], by omega, by rw [hk.region, hl, h4]⟩
  | pushTail task head => exact LoadedHead.mono h hk
  | overflowCas task head tail =>
    obtain ⟨η, h1, h2, h3, h4⟩ := h
    exact ⟨η, h1, by rw [ht, h2], by omega, by omega⟩
  | pushWrite task tail => exact ⟨by rw [hl, h.1], by have := h.2; omega⟩
  | pushStore task tail => exact ⟨by rw [hl, h.1], by have := h.2.1; omega, by rw [hk.buffer, hl, h.2.2]⟩
  | popTail head => exact LoadedHead.mono h hk
  | popCas head => exact ⟨h.1.mono hk, by rw [ht]; exact h.2⟩
  | stealDstTail src steal => exact Loaded.mono h hk
  | stealHead src dstTail => exact Room.mono h hk
  | stealTail src dstTail prev seen => exact Room.mono h hk
  | stealCas src dstTail prev n seen => exact Room.mono h hk
  | stealRead src dstTail first n i => exact ⟨h.1.mono hk, h.2⟩
  | stealWrite src dstTail first n i task => exact ⟨h.1.mono hk, h.2⟩
  | stealRelease src dstTail n prev => exact ⟨h.1.mono hk, h.2⟩
  | stealTake dstTail n =>
    obtain ⟨h1, h2, h3, h4⟩ := h
    exact ⟨by rw [hl, h1], h2, h3, by omega⟩
  | stealStore dstNewTail result =>
    obtain ⟨k, h1, h2, h3⟩ := h
    exact ⟨k, by rw [hl, h1], h2, by omega⟩
  | _ => exact h

/-- Claimed slots keep what they hold. -/
theorem Kept.region_claimed (hk : Kept q r) (hg : Geo q) (hs : r.steal = q.steal) {n : Nat}
    (hn : q.steal + n ≤ q.real) : region r r.steal n = region q q.steal n := by
  have := hg.real_le
  rw [hs]
  exact region_congr fun p _ _ => hk.buffer p (by omega) (by omega)

/-- Nobody else changes what a thief relies on. -/
theorem Across.mono {dst dst' : LocalQueue T} {p : Pc W T} (h : Across dst q p) (hg : Geo q)
    (hd : Passive dst dst') (hk : Kept q r)
    (hs : ∀ src, p.claims = some src → r.steal = q.steal) : Across dst' r p := by
  have hr := hk.real
  have hl := hk.last
  have hrl := hg.real_le
  have hdl := hd.last
  cases p with
  | stealTail src dstTail prev seen => exact ⟨h.1, by have := h.2; omega⟩
  | stealCas src dstTail prev n seen =>
    obtain ⟨h1, h2, h3⟩ := h
    refine ⟨h1, by omega, fun he => ?_⟩
    obtain ⟨h4, h5, h6⟩ := h3 (by omega)
    exact ⟨h4, h5, by omega⟩
  | stealRead src dstTail first n i =>
    obtain ⟨h1, h2, h3, h4⟩ := h
    have hs := hs src rfl
    refine ⟨by rw [hs, h1], by omega, h3, ?_⟩
    rw [hd.region, hdl, hk.region_claimed hg hs (by omega), h4]
  | stealWrite src dstTail first n i task =>
    obtain ⟨h1, h2, h3, h4, h5⟩ := h
    have hs := hs src rfl
    refine ⟨by rw [hs, h1], by omega, h3, ?_, ?_⟩
    · rw [hd.region, hdl, hk.region_claimed hg hs (by omega), h4]
    · rw [hs, hk.buffer _ (by omega) (by omega), h5]
  | stealRelease src dstTail n prev =>
    obtain ⟨h1, h2⟩ := h
    have hs := hs src rfl
    refine ⟨by omega, ?_⟩
    rw [hd.region, hdl, hk.region_claimed hg hs h1, h2]
  | _ => exact h

/-- A step by `w`. -/
structure Frame (s t : State W T) (w : W) : Prop where
  pc : ∀ x, x ≠ w → t.pc x = s.pc x
  kept : ∀ x, Kept (s.queue x) (t.queue x)
  passive : ∀ x, x ≠ w → Passive (s.queue x) (t.queue x)
  claimed : ∀ c, c ≠ w → ∀ x, (s.pc c).claims = some x → (t.queue x).steal = (s.queue x).steal

theorem Pc.src_of_claims {p : Pc W T} {x : W} (h : p.claims = some x) : p.src = some x := by
  cases p <;> first | exact h | cases h

/-- What the hands of another thread hold does not change. -/
theorem Frame.hand {s t : State W T} {w : W} (h : Frame s t w) (hi : ∀ x, Geo (s.queue x))
    (ha : ∀ x src, (s.pc x).src = some src →
      src ≠ x ∧ Across (s.queue x) (s.queue src) (s.pc x)) {x : W} (hx : x ≠ w) :
    hand t.queue (t.queue x) (t.pc x) = hand s.queue (s.queue x) (s.pc x) := by
  rw [h.pc x hx]
  have hp := h.passive x hx
  have hc := h.claimed x hx
  have ha := ha x
  cases hpc : s.pc x with
  | overflowRead task head tasks => simp only [WorkStealing.hand, hp.buffer]
  | popRead real => simp only [WorkStealing.hand, hp.buffer]
  | stealRead src dstTail first n i =>
    rw [hpc] at hc ha
    exact (h.kept src).region_claimed (hi src) (hc src rfl) (ha src rfl).2.2.1
  | stealWrite src dstTail first n i task =>
    rw [hpc] at hc ha
    exact (h.kept src).region_claimed (hi src) (hc src rfl) (ha src rfl).2.2.1
  | stealRelease src dstTail n prev =>
    rw [hpc] at hc ha
    exact (h.kept src).region_claimed (hi src) (hc src rfl) (ha src rfl).2.1
  | stealTake dstTail n => simp only [WorkStealing.hand, hp.region, hp.last]
  | stealStore dstNewTail result => simp only [WorkStealing.hand, hp.region, hp.last, hp.tail]
  | _ => rfl

end Frame

section Balance

variable [DecidableEq W]

/-- **Balance.**  What the changed queue and the hands that changed lose, the
global queue and the callers gain. -/
theorem places_balance {s t : State W T} {w v : W} (hs : (s.handed : Multiset T) = places s)
    (hlive : ∀ x, x ≠ v → live (t.queue x) = live (s.queue x))
    (hhand : ∀ x, x ≠ w → hand t.queue (t.queue x) (t.pc x) = hand s.queue (s.queue x) (s.pc x))
    (hbal : ∀ a [DecidableEq T], (live (t.queue v)).count a +
        (hand t.queue (t.queue w) (t.pc w)).count a +
        t.global.tasks.count a + t.returned.count a + t.dropped.count a + s.handed.count a =
      (live (s.queue v)).count a + (hand s.queue (s.queue w) (s.pc w)).count a +
        s.global.tasks.count a + s.returned.count a + s.dropped.count a + t.handed.count a) :
    (t.handed : Multiset T) = places t := by
  classical
  have h1 := Tally.sum_except (f := fun x => (live (s.queue x) : Multiset T))
    (g := fun x => (live (t.queue x) : Multiset T)) v fun x hx => by rw [hlive x hx]
  have h2 := Tally.sum_except (f := fun x => (hand s.queue (s.queue x) (s.pc x) : Multiset T))
    (g := fun x => (hand t.queue (t.queue x) (t.pc x) : Multiset T)) w fun x hx => by rw [hhand x hx]
  ext a
  have h1 := congrArg (Multiset.count a) h1
  have h2 := congrArg (Multiset.count a) h2
  have hs := congrArg (Multiset.count a) hs
  have hbal := hbal a
  simp only [places, Multiset.count_add, Multiset.coe_count] at h1 h2 hs ⊢
  omega

end Balance

section Step

variable [DecidableEq W] {s t : State W T} {w v : W} {p : Pc W T} {q : LocalQueue T}

/-- What every step does. -/
structure Keeps (s t : State W T) : Prop where
  inv : Inv t
  untouched : Untouched s t

/-- A step that moves `w` to `p` and makes the queue of `v` into `q`. -/
structure Moves (s t : State W T) (w : W) (p : Pc W T) (v : W) (q : LocalQueue T) : Prop where
  pc : t.pc = Function.update s.pc w p
  queue : t.queue = Function.update s.queue v q
  kept : Kept (s.queue v) q
  passive : v ≠ w → Passive (s.queue v) q
  claimed : ∀ c, c ≠ w → (s.pc c).claims = some v → q.steal = (s.queue v).steal

omit [Fintype W] in
theorem Moves.frame (h : Moves s t w p v q) : Frame s t w := by
  refine ⟨fun x hx => by rw [h.pc, Function.update_of_ne hx], fun x => ?_, fun x hx => ?_,
    fun c hc x hx => ?_⟩
  · rw [h.queue]
    by_cases hxv : x = v
    · subst hxv
      simpa using h.kept
    · simpa [hxv] using Kept.refl _
  · rw [h.queue]
    by_cases hxv : x = v
    · subst hxv
      simpa using h.passive hx
    · simpa [hxv] using Passive.refl _
  · rw [h.queue]
    by_cases hxv : x = v
    · subst hxv
      simpa using h.claimed c hc hx
    · simp [hxv]

omit [Fintype W] in
/-- Only the thread moves. -/
theorem Moves.quiet (hpc : t.pc = Function.update s.pc w p) (hq : t.queue = s.queue) :
    Moves s t w p w (s.queue w) :=
  ⟨hpc, by rw [hq, Function.update_eq_self], Kept.refl _, fun _ => Passive.refl _,
    fun _ _ _ => rfl⟩

/-- **Steps.**  What is left to check of a step is what it does to its own call and to one queue. -/
theorem Inv.act (h : Inv s) (hm : Moves s t w p v q) (hgeo : Geo q) (hown : Own (t.queue w) p)
    (hacross : ∀ src, p.src = some src → src ≠ w ∧ Across (t.queue w) (t.queue src) p)
    (hunique : ∀ x src, x ≠ w → p.claims = some src → (s.pc x).claims ≠ some src)
    (hbal : ∀ a [DecidableEq T], (live q).count a + (hand t.queue (t.queue w) p).count a +
        t.global.tasks.count a + t.returned.count a + t.dropped.count a + s.handed.count a =
      (live (s.queue v)).count a + (hand s.queue (s.queue w) (s.pc w)).count a +
        s.global.tasks.count a + s.returned.count a + s.dropped.count a + t.handed.count a)
    (hnum : t.global.num = t.global.tasks.length)
    (hdropped : t.global.isClosed = false → t.dropped = []) : Keeps s t := by
  have hf := hm.frame
  have hpw : t.pc w = p := by rw [hm.pc, Function.update_self]
  have hqv : t.queue v = q := by rw [hm.queue, Function.update_self]
  refine ⟨⟨fun x => ?_, fun x => ?_, fun x src hsrc => ?_, fun x y src hx hy => ?_,
    places_balance (v := v) (w := w) h.conserved ?_ ?_ ?_, hnum, hdropped⟩,
    fun x p h1 h2 => (hf.kept x).buffer p h1 h2⟩
  · by_cases hxv : x = v
    · rw [hxv, hqv]
      exact hgeo
    · rw [hm.queue, Function.update_of_ne hxv]
      exact h.geo x
  · by_cases hxw : x = w
    · rw [hxw, hpw]
      exact hown
    · rw [hf.pc x hxw]
      exact (h.own x).mono (hf.passive x hxw)
  · by_cases hxw : x = w
    · rw [hxw, hpw] at hsrc ⊢
      exact hacross src hsrc
    · rw [hf.pc x hxw] at hsrc ⊢
      obtain ⟨h1, h2⟩ := h.across x src hsrc
      refine ⟨h1, h2.mono (h.geo src) (hf.passive x hxw) (hf.kept src) fun y hy => ?_⟩
      have hsy : src = y := by
        have := Pc.src_of_claims hy
        rw [hsrc] at this
        exact Option.some.inj this
      exact hf.claimed x hxw src (hsy ▸ hy)
  · by_cases hxw : x = w
    · by_cases hyw : y = w
      · rw [hxw, hyw]
      · rw [hxw, hpw] at hx
        rw [hf.pc y hyw] at hy
        exact absurd hy (hunique y src hyw hx)
    · by_cases hyw : y = w
      · rw [hyw, hpw] at hy
        rw [hf.pc x hxw] at hx
        exact absurd hx (hunique x src hxw hy)
      · rw [hf.pc x hxw] at hx
        rw [hf.pc y hyw] at hy
        exact h.unique x y src hx hy
  · intro x hx
    rw [hm.queue, Function.update_of_ne hx]
  · exact fun x hx => hf.hand h.geo h.across hx
  · intro a _
    rw [hqv, hpw]
    exact hbal a

/-- A step that only changes the call, and may hand its tasks on. -/
theorem Inv.quiet (h : Inv s) (hpc : t.pc = Function.update s.pc w p) (hq : t.queue = s.queue)
    (hown : Own (s.queue w) p)
    (hacross : ∀ src, p.src = some src → src ≠ w ∧ Across (s.queue w) (s.queue src) p)
    (hclaims : ∀ src, p.claims = some src → (s.pc w).claims = some src)
    (hbal : ∀ a [DecidableEq T], (hand s.queue (s.queue w) p).count a +
        t.global.tasks.count a + t.returned.count a + t.dropped.count a + s.handed.count a =
      (hand s.queue (s.queue w) (s.pc w)).count a +
        s.global.tasks.count a + s.returned.count a + s.dropped.count a + t.handed.count a)
    (hnum : t.global.num = t.global.tasks.length)
    (hdropped : t.global.isClosed = false → t.dropped = []) : Keeps s t := by
  refine h.act (Moves.quiet hpc hq) (h.geo w) (by rw [hq]; exact hown) (by rw [hq]; exact hacross)
    (fun x src hx hc hx' => hx (h.unique x w src hx' (hclaims src hc))) ?_ hnum hdropped
  intro a _
  have := hbal a
  rw [hq]
  omega

/-- A step that only changes the call. -/
theorem Inv.goTo (h : Inv s) (hown : Own (s.queue w) p)
    (hacross : ∀ src, p.src = some src → src ≠ w ∧ Across (s.queue w) (s.queue src) p)
    (hclaims : ∀ src, p.claims = some src → (s.pc w).claims = some src)
    (hhand : hand s.queue (s.queue w) p = hand s.queue (s.queue w) (s.pc w)) :
    Keeps s (setPc s w p) := by
  refine h.quiet rfl rfl hown hacross hclaims (fun a _ => ?_) h.num h.dropped
  rw [hhand]
  rfl

/-- The call returns what is in its hands. -/
theorem Inv.returns (h : Inv s) {tasks : List T}
    (hhand : hand s.queue (s.queue w) (s.pc w) = tasks) : Keeps s (done s w tasks) := by
  refine h.quiet rfl rfl trivial nofun nofun (fun a _ => ?_) h.num h.dropped
  rw [hhand]
  show ([] : List T).count a + s.global.tasks.count a + (s.returned ++ tasks).count a +
    s.dropped.count a + s.handed.count a = _ + s.handed.count a
  rw [List.count_append, List.count_nil]
  omega

theorem pushBatch_num {g : GlobalQueue T} (h : g.num = g.tasks.length) (tasks : List T) :
    (g.pushBatch tasks tasks.length).num = (g.pushBatch tasks tasks.length).tasks.length := by
  unfold GlobalQueue.pushBatch
  split <;> simp [h]

theorem pushBatch_isClosed (g : GlobalQueue T) (tasks : List T) (n : Nat) :
    (g.pushBatch tasks n).isClosed = g.isClosed := by
  unfold GlobalQueue.pushBatch
  split <;> rfl

/-- What is pushed is in the global queue, or dropped. -/
theorem count_pushBatch [DecidableEq T] (g : GlobalQueue T) (tasks dropped : List T) (n : Nat) (a : T) :
    (g.pushBatch tasks n).tasks.count a +
        (if g.isClosed then dropped ++ tasks else dropped).count a =
      g.tasks.count a + dropped.count a + tasks.count a := by
  unfold GlobalQueue.pushBatch
  split <;> simp only [List.count_append] <;> omega

/-- The call pushes what is in its hands to the global queue. -/
theorem Inv.publishes (h : Inv s) {tasks : List T}
    (hhand : hand s.queue (s.queue w) (s.pc w) = tasks) : Keeps s (publish s w tasks) := by
  refine h.quiet rfl rfl trivial nofun nofun (fun a _ => ?_) (pushBatch_num h.num tasks) fun hc => ?_
  · rw [hhand]
    have := count_pushBatch s.global tasks s.dropped tasks.length a
    show ([] : List T).count a + (s.global.pushBatch tasks tasks.length).tasks.count a +
      s.returned.count a + (if s.global.isClosed then s.dropped ++ tasks else s.dropped).count a +
      s.handed.count a = _ + s.handed.count a
    rw [List.count_nil]
    omega
  · have hc' : s.global.isClosed = false := (pushBatch_isClosed ..).symm.trans hc
    show (if s.global.isClosed then _ else s.dropped) = []
    rw [hc']
    exact h.dropped hc'

/-- A call starts. -/
theorem Inv.calls (h : Inv s) {tasks : List T} (hw : s.pc w = .idle) (hown : Own (s.queue w) p)
    (hacross : ∀ src, p.src = some src → src ≠ w ∧ Across (s.queue w) (s.queue src) p)
    (hclaims : p.claims = none) (hhand : hand s.queue (s.queue w) p = tasks) :
    Keeps s (setPc { s with handed := s.handed ++ tasks } w p) := by
  refine h.quiet rfl rfl hown hacross (fun src hc => ?_) (fun a _ => ?_) h.num h.dropped
  · rw [hclaims] at hc
    cases hc
  · rw [hhand, hw]
    show tasks.count a + s.global.tasks.count a + s.returned.count a + s.dropped.count a +
      s.handed.count a = ([] : List T).count a + s.global.tasks.count a + s.returned.count a +
      s.dropped.count a + (s.handed ++ tasks).count a
    rw [List.count_append, List.count_nil]
    omega

end Step

end Kosio.Runtime.WorkStealing
