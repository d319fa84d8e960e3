import Mathlib.Algebra.Group.Nat.Defs
import Mathlib.Data.List.Count
import Kosio.Lib.Run

/-!
# `Sender` and `Receiver`: handles that count themselves

The two classes are one up to the side whose counter they adjust.  A handle is
`null` when it is closed or moved from; calling the channel through a null
`channel_` is recorded in `nullUse`, and a run ends there.  `destroy` shows here
only in `is_closed_`.

The copy constructor and both assignments call the channel without looking at
`channel_`, and the assignments decrement before they know their source: with a
null handle, with themselves as source, they go wrong, and nowhere else
(`counted_iff`).
-/

namespace Kosio.ChannelHandle

open Steps

/-! ## Algorithm -/

inductive Side where
  | sender
  | receiver
deriving DecidableEq, Repr

/-- `num_senders_`, `num_receivers_` and `is_closed_`. -/
structure Chan where
  num : Side → Nat
  isClosed : Bool

/-- `add_sender`, `add_receiver`.  No program has 2^64 handles. -/
def Chan.add (side : Side) (ch : Chan) : Chan :=
  { ch with num := Function.update ch.num side (ch.num side + 1) }

/-- `sub_sender`, `sub_receiver`: who takes the counter from 1 to 0 runs `destroy`. -/
def Chan.sub (side : Side) (ch : Chan) : Chan :=
  { num := Function.update ch.num side (if ch.num side = 0 then 2 ^ 64 - 1 else ch.num side - 1)
    isClosed := if ch.num side = 1 then true else ch.isClosed }

/-- A handle: its `channel_`, or that its life is over. -/
inductive Handle where
  | ref (channel : Nat)
  | null
  | destructed
deriving DecidableEq, Repr

structure State where
  numChannels : Nat
  channel : Nat → Chan
  handles : Side → List Handle
  /-- `channel_->` with a null `channel_` -/
  nullUse : Bool

def init : State := ⟨0, fun _ => ⟨fun _ => 0, false⟩, fun _ => [], false⟩

/-- `channel_->f()` through a handle. -/
def use (s : State) (f : Chan → Chan) : Handle → State
  | .ref c => { s with channel := Function.update s.channel c (f (s.channel c)) }
  | _ => { s with nullUse := true }

def setHandle (s : State) (side : Side) (i : Nat) (h : Handle) : State :=
  { s with handles := Function.update s.handles side ((s.handles side).set i h) }

def newHandle (s : State) (side : Side) (h : Handle) : State :=
  { s with handles := Function.update s.handles side (s.handles side ++ [h]) }

/-- A handle that lives. -/
def live (s : State) (side : Side) (i : Nat) : Option Handle :=
  (s.handles side)[i]?.filter (· ≠ .destructed)

/-- `Channel::make`: one handle of each side, on a channel that counts them. -/
def make (s : State) : State :=
  let c := s.numChannels
  let s := newHandle (newHandle s .sender (.ref c)) .receiver (.ref c)
  { s with numChannels := c + 1, channel := Function.update s.channel c ⟨fun _ => 1, false⟩ }

def copyConstruct (s : State) (side : Side) (other : Handle) : State :=
  use (newHandle s side other) (Chan.add side) other

/-- `operator=(const &)`. -/
def copyAssign (s : State) (side : Side) (i : Nat) (this other : Handle) : State :=
  use (setHandle (use s (Chan.sub side) this) side i other) (Chan.add side) other

def moveConstruct (s : State) (side : Side) (j : Nat) (other : Handle) : State :=
  setHandle (newHandle s side other) side j .null

/-- `operator=(&&)`: the `shared_ptr` is moved out of `other` and then into this handle. -/
def moveAssign (s : State) (side : Side) (i j : Nat) (this other : Handle) : State :=
  setHandle (setHandle (use s (Chan.sub side) this) side j .null) side i other

def close (s : State) (side : Side) (i : Nat) (this : Handle) : State :=
  match this with
  | .ref _ => setHandle (use s (Chan.sub side) this) side i .null
  | _ => s

def destruct (s : State) (side : Side) (i : Nat) (this : Handle) : State :=
  setHandle (close s side i this) side i .destructed

inductive Act where
  | make
  | copyConstruct (side : Side) (j : Nat)
  | copyAssign (side : Side) (i j : Nat)
  | moveConstruct (side : Side) (j : Nat)
  | moveAssign (side : Side) (i j : Nat)
  | close (side : Side) (i : Nat)
  | destruct (side : Side) (i : Nat)
deriving DecidableEq, Repr

def step (s : State) (a : Act) : Option State :=
  if s.nullUse then none
  else
    match a with
    | .make => some (make s)
    | .copyConstruct side j => (live s side j).map (copyConstruct s side)
    | .copyAssign side i j =>
      (live s side i).bind fun this => (live s side j).map (copyAssign s side i this)
    | .moveConstruct side j => (live s side j).map (moveConstruct s side j)
    | .moveAssign side i j =>
      (live s side i).bind fun this => (live s side j).map (moveAssign s side i j this)
    | .close side i => (live s side i).map (close s side i)
    | .destruct side i => (live s side i).map (destruct s side i)

/-! ## What is promised -/

/-- How many handles of a side refer to the channel. -/
def refs (s : State) (side : Side) (c : Nat) : Nat := (s.handles side).count (.ref c)

/-- A channel is closed exactly when one of its counters is zero. -/
def Chan.Agrees (ch : Chan) : Prop := ch.isClosed = true ↔ ∃ side, ch.num side = 0

structure Counted (s : State) : Prop where
  noNull : s.nullUse = false
  num : ∀ side, ∀ c < s.numChannels, (s.channel c).num side = refs s side c
  closed : ∀ c < s.numChannels, (s.channel c).Agrees

/-- The last handle of its side on a channel that is open. -/
def LastOpen (s : State) (side : Side) : Handle → Prop
  | .ref c => (s.channel c).num side = 1 ∧ (s.channel c).isClosed = false
  | _ => False

/-- Nobody copies or assigns from or to a null handle where that calls the
channel, and no handle is assigned to itself, unless by copy and harmlessly. -/
def Proper (s : State) (a : Act) (_ : State) : Prop :=
  match a with
  | .copyConstruct side j => live s side j ≠ some .null
  | .copyAssign side i j => live s side i ≠ some .null ∧ live s side j ≠ some .null ∧
      (i = j → ∀ h ∈ live s side i, ¬ LastOpen s side h)
  | .moveAssign side i j => live s side i ≠ some .null ∧ i ≠ j
  | _ => True

/-! ## Invariant -/

/-- Handles refer to channels that have been made. -/
def Made (s : State) : Prop := ∀ side c, .ref c ∈ s.handles side → c < s.numChannels

structure Inv (s : State) : Prop where
  counted : Counted s
  made : Made s

theorem inv_init : Inv init :=
  ⟨⟨rfl, fun _ _ hc => absurd hc (Nat.not_lt_zero _), fun _ hc => absurd hc (Nat.not_lt_zero _)⟩,
    fun _ _ h => absurd h List.not_mem_nil⟩

/-! ## Counting handles -/

section
variable {s : State} {side side' : Side} {i j c : Nat} {h h' this other : Handle}

/-- One, if the handle refers to the channel. -/
def Handle.at (h : Handle) (c : Nat) : Nat := if h = .ref c then 1 else 0

@[simp] theorem null_at (c : Nat) : Handle.null.at c = 0 := rfl

theorem ref_at (b c : Nat) : (Handle.ref b).at c = if c = b then 1 else 0 := by
  unfold Handle.at
  by_cases hbc : c = b
  · rw [if_pos (by rw [hbc]), if_pos hbc]
  · rw [if_neg (by simpa using Ne.symm hbc), if_neg hbc]

theorem live_iff : live s side i = some h ↔ (s.handles side)[i]? = some h ∧ h ≠ .destructed := by
  simp [live, Option.filter_eq_some_iff]

theorem setHandle_self (i : Nat) (h' : Handle) :
    (setHandle s side i h').handles side = (s.handles side).set i h' := Function.update_self ..

theorem setHandle_ne (hne : side' ≠ side) (i : Nat) (h' : Handle) :
    (setHandle s side i h').handles side' = s.handles side' := Function.update_of_ne hne ..

theorem newHandle_self (h : Handle) : (newHandle s side h).handles side = s.handles side ++ [h] :=
  Function.update_self ..

theorem newHandle_ne (hne : side' ≠ side) (h : Handle) :
    (newHandle s side h).handles side' = s.handles side' := Function.update_of_ne hne ..

theorem refs_set (hi : (s.handles side)[i]? = some h) (h' : Handle) (c : Nat) :
    refs (setHandle s side i h') side c + h.at c = refs s side c + h'.at c := by
  obtain ⟨hlt, hget⟩ := List.getElem?_eq_some_iff.1 hi
  have hpos : h = .ref c → 0 < (s.handles side).count (.ref c) := by
    rintro rfl
    exact List.count_pos_iff.2 (hget ▸ List.getElem_mem hlt)
  unfold refs Handle.at
  rw [setHandle_self, List.count_set hlt, hget]
  simp only [beq_iff_eq]
  split
  · next hr =>
    have := hpos hr
    omega
  · omega

theorem refs_set_ne (hne : side' ≠ side) (h' : Handle) (c : Nat) :
    refs (setHandle s side i h') side' c = refs s side' c := by
  rw [refs, setHandle_ne hne, refs]

theorem refs_push (h : Handle) (c : Nat) :
    refs (newHandle s side h) side c = refs s side c + h.at c := by
  unfold refs Handle.at
  rw [newHandle_self, List.count_append, List.count_singleton]
  simp only [beq_iff_eq]

theorem refs_push_ne (hne : side' ≠ side) (h : Handle) (c : Nat) :
    refs (newHandle s side h) side' c = refs s side' c := by
  rw [refs, newHandle_ne hne, refs]

theorem get_set_ne (hne : i ≠ j) (h' : Handle) :
    ((setHandle s side j h').handles side)[i]? = (s.handles side)[i]? := by
  rw [setHandle_self, List.getElem?_set_ne (Ne.symm hne)]

theorem get_set_self (hi : (s.handles side)[i]? = some h) (h' : Handle) :
    ((setHandle s side i h').handles side)[i]? = some h' := by
  rw [setHandle_self, List.getElem?_set_self (List.getElem?_eq_some_iff.1 hi).1]

theorem use_handles (f : Chan → Chan) (h : Handle) :
    (use s f h).handles = s.handles ∧ (use s f h).numChannels = s.numChannels := by
  cases h <;> exact ⟨rfl, rfl⟩

theorem Made.set (hm : Made s) (i : Nat) (hc : ∀ c, h' = .ref c → c < s.numChannels) :
    Made (setHandle s side i h') := by
  intro side' c hmem
  by_cases hs : side' = side
  · subst hs
    rw [setHandle_self] at hmem
    rcases List.mem_or_eq_of_mem_set hmem with h1 | h1
    · exact hm side' c h1
    · exact hc c h1.symm
  · rw [setHandle_ne hs] at hmem
    exact hm side' c hmem

theorem Made.push (hm : Made s) (hc : ∀ c, h = .ref c → c < s.numChannels) :
    Made (newHandle s side h) := by
  intro side' c hmem
  by_cases hs : side' = side
  · subst hs
    rw [newHandle_self, List.mem_append, List.mem_singleton] at hmem
    rcases hmem with h1 | h1
    · exact hm side' c h1
    · exact hc c h1.symm
  · rw [newHandle_ne hs] at hmem
    exact hm side' c hmem

theorem Made.use (hm : Made s) (f : Chan → Chan) (h : Handle) : Made (use s f h) := by
  cases h <;> exact hm

/-- A handle that is there refers to a channel that is there. -/
theorem Made.handle (hm : Made s) (hi : (s.handles side)[i]? = some h) :
    ∀ c, h = .ref c → c < s.numChannels := by
  rintro c rfl
  exact hm side c (List.mem_of_getElem? hi)

theorem Counted.num_pos (hc : Counted s) (hm : Made s) (hi : (s.handles side)[i]? = some (.ref c)) :
    0 < (s.channel c).num side := by
  rw [hc.num side c (hm.handle hi c rfl)]
  exact List.count_pos_iff.2 (List.mem_of_getElem? hi)

end

/-! ## Counters -/

section
variable {ch : Chan} {side side' : Side}

theorem Chan.sub_num (side : Side) (h : 0 < ch.num side) :
    (ch.sub side).num side + 1 = ch.num side := by
  show Function.update ch.num side _ side + 1 = _
  rw [Function.update_self, if_neg (by omega)]
  omega

theorem Chan.sub_num_ne (hne : side' ≠ side) : (ch.sub side).num side' = ch.num side' :=
  Function.update_of_ne hne ..

theorem Chan.add_num (side : Side) : (ch.add side).num side = ch.num side + 1 :=
  Function.update_self ..

theorem Chan.add_num_ne (hne : side' ≠ side) : (ch.add side).num side' = ch.num side' :=
  Function.update_of_ne hne ..

/-- The counter that reaches zero closes the channel. -/
theorem Chan.Agrees.sub (h : ch.Agrees) (side : Side) (hpos : 0 < ch.num side) :
    (ch.sub side).Agrees := by
  have hnum := Chan.sub_num side hpos
  show (if ch.num side = 1 then true else ch.isClosed) = true ↔ _
  split
  · next hone => exact ⟨fun _ => ⟨side, by omega⟩, fun _ => rfl⟩
  · next hone =>
    rw [show ch.isClosed = true ↔ _ from h]
    constructor
    · rintro ⟨x, hx⟩
      have hne : x ≠ side := by
        rintro rfl
        omega
      exact ⟨x, (Chan.sub_num_ne hne).trans hx⟩
    · rintro ⟨x, hx⟩
      have hne : x ≠ side := by
        rintro rfl
        omega
      exact ⟨x, (Chan.sub_num_ne hne).symm.trans hx⟩

theorem Chan.Agrees.add (h : ch.Agrees) (side : Side) (hpos : 0 < ch.num side) :
    (ch.add side).Agrees := by
  have hnum := ch.add_num side
  show ch.isClosed = true ↔ _
  rw [show ch.isClosed = true ↔ _ from h]
  constructor
  · rintro ⟨x, hx⟩
    have hne : x ≠ side := by
      rintro rfl
      omega
    exact ⟨x, (Chan.add_num_ne hne).trans hx⟩
  · rintro ⟨x, hx⟩
    have hne : x ≠ side := by
      rintro rfl
      omega
    exact ⟨x, (Chan.add_num_ne hne).symm.trans hx⟩

/-- Down and up again: the channel is closed if the counter was at its last. -/
theorem Chan.sub_add (h : ch.Agrees) (side : Side) (hpos : 0 < ch.num side) :
    ((ch.sub side).add side).num = ch.num ∧
      (((ch.sub side).add side).Agrees ↔ ¬ (ch.num side = 1 ∧ ch.isClosed = false)) := by
  have hnum : ((ch.sub side).add side).num = ch.num := by
    funext x
    by_cases hx : x = side
    · subst hx
      have := Chan.sub_num x hpos
      rw [Chan.add_num]
      omega
    · rw [Chan.add_num_ne hx, Chan.sub_num_ne hx]
  refine ⟨hnum, ?_⟩
  unfold Chan.Agrees at h ⊢
  rw [hnum, ← h]
  show ((if ch.num side = 1 then true else ch.isClosed) = true ↔ _) ↔ _
  by_cases hone : ch.num side = 1 <;> cases hcl : ch.isClosed <;> simp [hone]

end

/-! ## The operations -/

section
variable {s t : State} {side : Side} {i j b : Nat} {h this other : Handle}

/-- The channel `b` becomes `ch`, and handles to it come or go. -/
theorem Counted.change (hc : Counted s) (hnull : t.nullUse = false)
    (hn : t.numChannels = s.numChannels) {ch : Chan}
    (hch : t.channel = Function.update s.channel b ch)
    (hnum : b < s.numChannels → ∀ side, ch.num side = refs t side b)
    (hclosed : (s.channel b).Agrees → ch.Agrees)
    (hrefs : ∀ side c, c ≠ b → refs t side c = refs s side c) : Counted t := by
  refine ⟨hnull, fun side c hlt => ?_, fun c hlt => ?_⟩
  · rw [hn] at hlt
    rw [hch]
    by_cases hcb : c = b
    · subst hcb
      rw [Function.update_self]
      exact hnum hlt side
    · rw [Function.update_of_ne hcb, hrefs side c hcb]
      exact hc.num side c hlt
  · rw [hn] at hlt
    rw [hch]
    by_cases hcb : c = b
    · subst hcb
      rw [Function.update_self]
      exact hclosed (hc.closed c hlt)
    · rw [Function.update_of_ne hcb]
      exact hc.closed c hlt

/-- One handle fewer, and its counter one down. -/
theorem Counted.drop (hc : Counted s) (hnull : t.nullUse = false)
    (hn : t.numChannels = s.numChannels) (hpos : 0 < (s.channel b).num side)
    (hch : t.channel = Function.update s.channel b ((s.channel b).sub side))
    (hrefs : ∀ c, refs t side c + (Handle.ref b).at c = refs s side c)
    (hrefs' : ∀ side' c, side' ≠ side → refs t side' c = refs s side' c) : Counted t := by
  refine hc.change hnull hn hch (fun hlt side' => ?_) (fun h => h.sub side hpos) fun side' c hcb => ?_
  · by_cases hside : side' = side
    · subst hside
      have hold := hc.num side' b hlt
      have hnum := Chan.sub_num side' hpos
      have hr := hrefs b
      rw [ref_at, if_pos rfl] at hr
      omega
    · rw [Chan.sub_num_ne hside, hrefs' side' b hside]
      exact hc.num side' b hlt
  · by_cases hside : side' = side
    · subst hside
      have hr := hrefs c
      rw [ref_at, if_neg hcb] at hr
      omega
    · exact hrefs' side' c hside

/-- One handle more, and its counter one up. -/
theorem Counted.grow (hc : Counted s) (hnull : t.nullUse = false)
    (hn : t.numChannels = s.numChannels) (hpos : 0 < (s.channel b).num side)
    (hch : t.channel = Function.update s.channel b ((s.channel b).add side))
    (hrefs : ∀ c, refs t side c = refs s side c + (Handle.ref b).at c)
    (hrefs' : ∀ side' c, side' ≠ side → refs t side' c = refs s side' c) : Counted t := by
  refine hc.change hnull hn hch (fun hlt side' => ?_) (fun h => h.add side hpos) fun side' c hcb => ?_
  · by_cases hside : side' = side
    · subst hside
      rw [Chan.add_num, hrefs, ref_at, if_pos rfl, hc.num side' b hlt]
    · rw [Chan.add_num_ne hside, hrefs' side' b hside]
      exact hc.num side' b hlt
  · by_cases hside : side' = side
    · subst hside
      have hr := hrefs c
      rw [ref_at, if_neg hcb] at hr
      omega
    · exact hrefs' side' c hside

/-- As many handles, and the counters as they are. -/
theorem Counted.same (hc : Counted s) (hnull : t.nullUse = false)
    (hn : t.numChannels = s.numChannels) (hch : t.channel = s.channel)
    (hrefs : ∀ side c, refs t side c = refs s side c) : Counted t := by
  refine ⟨hnull, fun side' c hlt => ?_, fun c hlt => ?_⟩
  · rw [hch, hrefs]
    exact hc.num side' c (hn ▸ hlt)
  · rw [hch]
    exact hc.closed c (hn ▸ hlt)

/-- A handle that lives and is not null refers to a channel. -/
theorem exists_ref (hl : live s side i = some h) (hne : h ≠ .null) : ∃ c, h = .ref c := by
  cases h with
  | ref c => exact ⟨c, rfl⟩
  | null => exact absurd rfl hne
  | destructed => exact absurd rfl (live_iff.1 hl).2

/-- A call through a null handle is noticed. -/
theorem use_null (s : State) (f : Chan → Chan) : (use s f .null).nullUse = true := rfl

theorem Inv.make (h : Inv s) : Inv (make s) := by
  obtain ⟨hc, hm⟩ := h
  have hmade : Made (ChannelHandle.make s) := by
    intro side c hmem
    have hold : ∀ side', .ref c ∈ s.handles side' → c < s.numChannels + 1 := fun side' hx =>
      Nat.lt_succ_of_lt (hm side' c hx)
    cases side <;>
    · simp only [ChannelHandle.make, newHandle, Function.update_apply, reduceCtorEq, if_true,
        if_false, List.mem_append, List.mem_singleton, Handle.ref.injEq] at hmem
      show c < s.numChannels + 1
      rcases hmem with hx | hx
      · exact hold _ hx
      · omega
  have hrefs : ∀ side c, refs (ChannelHandle.make s) side c =
      refs s side c + (Handle.ref s.numChannels).at c := by
    intro side c
    cases side
    · show refs (newHandle (newHandle s .sender (.ref s.numChannels)) .receiver
        (.ref s.numChannels)) .sender c = _
      rw [refs_push_ne (by simp), refs_push]
    · show refs (newHandle (newHandle s .sender (.ref s.numChannels)) .receiver
        (.ref s.numChannels)) .receiver c = _
      rw [refs_push, refs_push_ne (by simp)]
  refine ⟨⟨hc.noNull, fun side c hlt => ?_, fun c hlt => ?_⟩, hmade⟩
  · show (Function.update s.channel s.numChannels _ c).num side = _
    rw [hrefs, ref_at]
    by_cases hcn : c = s.numChannels
    · subst hcn
      -- nobody refers to a channel before it is made
      have hzero : refs s side s.numChannels = 0 :=
        List.count_eq_zero.2 fun hx => absurd (hm side _ hx) (Nat.lt_irrefl _)
      rw [Function.update_self, if_pos rfl, hzero]
    · have hlt' : c < s.numChannels + 1 := hlt
      rw [Function.update_of_ne hcn, if_neg hcn]
      exact hc.num side c (by omega)
  · show (Function.update s.channel s.numChannels _ c).Agrees
    by_cases hcn : c = s.numChannels
    · subst hcn
      rw [Function.update_self]
      constructor
      · exact fun hx => by cases hx
      · rintro ⟨x, hx⟩
        cases hx
    · have hlt' : c < s.numChannels + 1 := hlt
      rw [Function.update_of_ne hcn]
      exact hc.closed c (by omega)

theorem Inv.copyConstruct (hi : Inv s) (hj : live s side j = some other) :
    Made (copyConstruct s side other) ∧
      (Counted (copyConstruct s side other) ↔ other ≠ .null) := by
  obtain ⟨hc, hm⟩ := hi
  have hget := (live_iff.1 hj).1
  refine ⟨(hm.push (hm.handle hget)).use _ _, fun ht hnull => ?_, fun hne => ?_⟩
  · subst hnull
    have hno := ht.noNull
    rw [ChannelHandle.copyConstruct, use_null] at hno
    cases hno
  · obtain ⟨b, rfl⟩ := exists_ref hj hne
    exact hc.grow hc.noNull rfl (hc.num_pos hm hget) rfl (fun c => refs_push _ c)
      fun side' c hs => refs_push_ne hs _ c

/-- Dropping a handle, whatever takes its place refers to no channel. -/
theorem Inv.subNull (hi : Inv s) (hget : (s.handles side)[i]? = some (.ref b)) (hh : ∀ c, h.at c = 0) :
    Counted (setHandle (use s (Chan.sub side) (.ref b)) side i h) := by
  obtain ⟨hc, hm⟩ := hi
  refine hc.drop hc.noNull rfl (hc.num_pos hm hget) rfl (fun c => ?_) fun side' c hs =>
    refs_set_ne hs _ c
  have hset := refs_set (s := use s (Chan.sub side) (.ref b)) hget h c
  rw [hh] at hset
  exact hset

theorem Inv.close (hi : Inv s) (hl : live s side i = some this) : Inv (close s side i this) := by
  have hget := (live_iff.1 hl).1
  cases this with
  | ref b =>
    exact ⟨hi.subNull hget fun _ => rfl, (hi.made.use _ _).set i fun c hx => by cases hx⟩
  | null => exact hi
  | destructed => exact hi

theorem close_get (hget : (s.handles side)[i]? = some this) :
    ((close s side i this).handles side)[i]? = some .null ∨
      ((close s side i this).handles side)[i]? = some this ∧ ∀ c, this.at c = 0 := by
  cases this with
  | ref b =>
    exact Or.inl (get_set_self (s := use s (Chan.sub side) (.ref b)) hget .null)
  | null => exact Or.inl hget
  | destructed => exact Or.inr ⟨hget, fun _ => rfl⟩

theorem Inv.destruct (hi : Inv s) (hl : live s side i = some this) :
    Inv (destruct s side i this) := by
  have hclose := hi.close hl
  have hget := (live_iff.1 hl).1
  refine ⟨hclose.counted.same hclose.counted.noNull rfl rfl fun side' c => ?_,
    hclose.made.set i fun c hx => by cases hx⟩
  by_cases hs : side' = side
  · subst hs
    rcases close_get hget with hn | ⟨hn, hz⟩
    · exact refs_set hn .destructed c
    · have hset := refs_set hn .destructed c
      rw [hz] at hset
      exact hset
  · exact refs_set_ne hs _ c

theorem Inv.moveConstruct (hi : Inv s) (hj : live s side j = some other) :
    Inv (moveConstruct s side j other) := by
  obtain ⟨hc, hm⟩ := hi
  have hget := (live_iff.1 hj).1
  have hlt := (List.getElem?_eq_some_iff.1 hget).1
  have hget' : ((newHandle s side other).handles side)[j]? = some other := by
    rw [newHandle_self, List.getElem?_append_left hlt]
    exact hget
  refine ⟨hc.same hc.noNull rfl rfl fun side' c => ?_,
    (hm.push (hm.handle hget)).set j fun c hx => by cases hx⟩
  by_cases hs : side' = side
  · subst hs
    have hset := refs_set hget' .null c
    rw [refs_push, null_at] at hset
    show refs (setHandle (newHandle s side' other) side' j .null) side' c = _
    omega
  · exact (refs_set_ne hs _ c).trans (refs_push_ne hs _ c)

theorem Inv.copyAssign (hi : Inv s) (hl : live s side i = some this)
    (hj : live s side j = some other) :
    Made (copyAssign s side i this other) ∧
      (Counted (copyAssign s side i this other) ↔
        this ≠ .null ∧ other ≠ .null ∧ (i = j → ¬ LastOpen s side this)) := by
  have hthis := (live_iff.1 hl).1
  have hother := (live_iff.1 hj).1
  have huse := use_handles (s := s) (Chan.sub side) this
  refine ⟨((hi.made.use _ _).set i ?_).use _ _, fun ht => ?_, fun ⟨hne, hne', hlast⟩ => ?_⟩
  · rw [huse.2]
    exact hi.made.handle hother
  · have hno := ht.noNull
    have hne : this ≠ .null := by
      rintro rfl
      cases other <;> cases hno
    have hne' : other ≠ .null := by
      rintro rfl
      cases hno
    refine ⟨hne, hne', ?_⟩
    rintro rfl
    obtain rfl : this = other := Option.some.inj (hthis.symm.trans hother)
    obtain ⟨b, rfl⟩ := exists_ref hl hne
    have hb := hi.made.handle hthis b rfl
    have hagrees := ht.closed b hb
    have hchan : (ChannelHandle.copyAssign s side i (.ref b) (.ref b)).channel b =
        ((s.channel b).sub side).add side := by
      simp [ChannelHandle.copyAssign, use, setHandle]
    rw [hchan, (Chan.sub_add (hi.counted.closed b hb) side (hi.counted.num_pos hi.made hthis)).2]
      at hagrees
    exact hagrees
  · obtain ⟨b, rfl⟩ := exists_ref hl hne
    obtain ⟨b', rfl⟩ := exists_ref hj hne'
    by_cases hij : i = j
    · subst hij
      obtain rfl : b = b' := by simpa using hthis.symm.trans hother
      -- the counter is back where it was, and `destroy` has not run
      have hb := hi.made.handle hthis b rfl
      obtain ⟨hnum, hagrees⟩ :=
        Chan.sub_add (hi.counted.closed b hb) side (hi.counted.num_pos hi.made hthis)
      have hchan : (ChannelHandle.copyAssign s side i (.ref b) (.ref b)).channel =
          Function.update s.channel b (((s.channel b).sub side).add side) := by
        simp [ChannelHandle.copyAssign, use, setHandle]
      have hrefs : ∀ side' c, refs (ChannelHandle.copyAssign s side i (.ref b) (.ref b)) side' c =
          refs s side' c := by
        intro side' c
        by_cases hs : side' = side
        · subst hs
          exact Nat.add_right_cancel (refs_set (s := use s (Chan.sub side') (.ref b)) hthis (.ref b) c)
        · exact refs_set_ne hs _ c
      refine ⟨hi.counted.noNull, fun side' c hlt => ?_, fun c hlt => ?_⟩
      · rw [hchan, hrefs, ← hi.counted.num side' c hlt]
        by_cases hcb : c = b
        · subst hcb
          rw [Function.update_self, hnum]
        · rw [Function.update_of_ne hcb]
      · rw [hchan]
        by_cases hcb : c = b
        · subst hcb
          rw [Function.update_self]
          exact hagrees.2 (hlast rfl)
        · rw [Function.update_of_ne hcb]
          exact hi.counted.closed c hlt
    · -- first as if the handle were closed, then as if it were copied anew
      have hmid := hi.close hl
      have hget' : ((ChannelHandle.close s side i (.ref b)).handles side)[j]? = some (.ref b') :=
        (get_set_ne (s := use s (Chan.sub side) (.ref b)) (Ne.symm hij) .null).trans hother
      have hpos := hmid.counted.num_pos hmid.made hget'
      have hclosed : ((ChannelHandle.close s side i (.ref b)).handles side)[i]? = some .null :=
        get_set_self (s := use s (Chan.sub side) (.ref b)) hthis .null
      refine hmid.counted.grow hmid.counted.noNull rfl hpos rfl (fun c => ?_) fun side' c hs => ?_
      · have h1 := refs_set (s := use s (Chan.sub side) (.ref b)) hthis .null c
        have h2 := refs_set (s := use s (Chan.sub side) (.ref b)) hthis (.ref b') c
        rw [null_at] at h1
        show refs (setHandle (use s (Chan.sub side) (.ref b)) side i (.ref b')) side c =
          refs (setHandle (use s (Chan.sub side) (.ref b)) side i .null) side c + _
        omega
      · exact (refs_set_ne hs _ c).trans (refs_set_ne hs _ c).symm

theorem Inv.moveAssign (hi : Inv s) (hl : live s side i = some this)
    (hj : live s side j = some other) :
    Made (moveAssign s side i j this other) ∧
      (Counted (moveAssign s side i j this other) ↔ this ≠ .null ∧ i ≠ j) := by
  have hthis := (live_iff.1 hl).1
  have hother := (live_iff.1 hj).1
  have huse := use_handles (s := s) (Chan.sub side) this
  refine ⟨(((hi.made.use _ _).set j fun c hx => by cases hx).set i ?_), fun ht => ?_,
    fun ⟨hne, hij⟩ => ?_⟩
  · intro c hx
    show c < (use s (Chan.sub side) this).numChannels
    rw [huse.2]
    exact hi.made.handle hother c hx
  · have hno := ht.noNull
    have hne : this ≠ .null := by
      rintro rfl
      cases hno
    refine ⟨hne, ?_⟩
    rintro rfl
    -- moved to itself the handle stays, but its counter goes down
    obtain rfl : this = other := Option.some.inj (hthis.symm.trans hother)
    obtain ⟨b, rfl⟩ := exists_ref hl hne
    have hb := hi.made.handle hthis b rfl
    have hpos := hi.counted.num_pos hi.made hthis
    have h1 := refs_set (s := use s (Chan.sub side) (.ref b)) hthis .null b
    have h2 := refs_set (get_set_self (s := use s (Chan.sub side) (.ref b)) hthis .null) (.ref b) b
    have hnum := ht.num side b hb
    have hchan : (ChannelHandle.moveAssign s side i i (.ref b) (.ref b)).channel b =
        (s.channel b).sub side := by
      simp [ChannelHandle.moveAssign, use, setHandle]
    have hold := hi.counted.num side b hb
    have hsub := Chan.sub_num side hpos
    rw [hchan] at hnum
    have h0 : refs (use s (Chan.sub side) (.ref b)) side b = refs s side b := rfl
    have h3 : refs (ChannelHandle.moveAssign s side i i (.ref b) (.ref b)) side b =
      refs (setHandle (setHandle (use s (Chan.sub side) (.ref b)) side i .null) side i (.ref b))
        side b := rfl
    rw [null_at] at h1 h2
    omega
  · obtain ⟨b, rfl⟩ := exists_ref hl hne
    have hget : ((setHandle (use s (Chan.sub side) (.ref b)) side j .null).handles side)[i]? =
        some (.ref b) :=
      (get_set_ne (s := use s (Chan.sub side) (.ref b)) hij .null).trans hthis
    refine hi.counted.drop hi.counted.noNull rfl (hi.counted.num_pos hi.made hthis) rfl
      (fun c => ?_) fun side' c hs => (refs_set_ne hs _ c).trans (refs_set_ne hs _ c)
    have h1 := refs_set (s := use s (Chan.sub side) (.ref b)) hother .null c
    have h2 := refs_set hget other c
    have h0 : refs (use s (Chan.sub side) (.ref b)) side c = refs s side c := rfl
    rw [null_at] at h1
    show refs (setHandle (setHandle (use s (Chan.sub side) (.ref b)) side j .null) side i other)
      side c + _ = _
    omega

end

/-! ## Top theorems -/

/-- From a state whose counters are right, a step leads to one exactly if it is proper. -/
theorem step_iff (s : State) (a : Act) (t : State) (hi : Inv s) (hs : step s a = some t) :
    Made t ∧ (Counted t ↔ Proper s a t) := by
  have hno := hi.counted.noNull
  unfold step at hs
  rw [if_neg (by rw [hno]; simp)] at hs
  have keep : ∀ {u : State}, Inv u → some u = some t → Made t ∧ (Counted t ↔ True) := by
    rintro u hu ⟨⟩
    exact ⟨hu.made, fun _ => trivial, fun _ => hu.counted⟩
  cases a with
  | make => exact keep hi.make hs
  | copyConstruct side j =>
    obtain ⟨other, hj, rfl⟩ := Option.map_eq_some_iff.1 hs
    obtain ⟨hm, hiff⟩ := hi.copyConstruct hj
    refine ⟨hm, hiff.trans ?_⟩
    show _ ↔ live s side j ≠ some .null
    rw [hj]
    simp
  | copyAssign side i j =>
    obtain ⟨this, hl, hs⟩ := Option.bind_eq_some_iff.1 hs
    obtain ⟨other, hj, rfl⟩ := Option.map_eq_some_iff.1 hs
    obtain ⟨hm, hiff⟩ := hi.copyAssign hl hj
    refine ⟨hm, hiff.trans ?_⟩
    show _ ↔ live s side i ≠ some .null ∧ live s side j ≠ some .null ∧
      (i = j → ∀ h ∈ live s side i, ¬ LastOpen s side h)
    rw [hl, hj]
    simp
  | moveConstruct side j =>
    obtain ⟨other, hj, rfl⟩ := Option.map_eq_some_iff.1 hs
    exact keep (hi.moveConstruct hj) rfl
  | moveAssign side i j =>
    obtain ⟨this, hl, hs⟩ := Option.bind_eq_some_iff.1 hs
    obtain ⟨other, hj, rfl⟩ := Option.map_eq_some_iff.1 hs
    obtain ⟨hm, hiff⟩ := hi.moveAssign hl hj
    refine ⟨hm, hiff.trans ?_⟩
    show _ ↔ live s side i ≠ some .null ∧ i ≠ j
    rw [hl]
    simp
  | close side i =>
    obtain ⟨this, hl, rfl⟩ := Option.map_eq_some_iff.1 hs
    exact keep (hi.close hl) rfl
  | destruct side i =>
    obtain ⟨this, hl, rfl⟩ := Option.map_eq_some_iff.1 hs
    exact keep (hi.destruct hl) rfl

/-- **Handle counting, exactly.**  For every sequence of operations on any number
of handles of any number of channels: no null `channel_` is used, the counters
are the numbers of handles and the channels are closed when they should be,
after each operation, if and only if each operation is proper. -/
theorem counted_iff (as : List Act) :
    EachStep step (fun _ _ t => Counted t) init as ↔ EachStep step Proper init as := by
  refine eachStep_iff Inv ?_ (fun s a t hi hs => (step_iff s a t hi hs).2) inv_init
  intro s a t hi hs hok
  obtain ⟨hm, hiff⟩ := step_iff s a t hi hs
  exact ⟨hiff.2 hok, hm⟩

/-- A closed sender is copied: the new handle calls the channel through a null `channel_`. -/
theorem copy_of_closed : ∃ s, run step init [.make, .close .sender 0, .copyConstruct .sender 0] =
    some s ∧ s.nullUse = true ∧ ¬ Counted s := by
  refine ⟨_, rfl, rfl, fun h => ?_⟩
  have hno := h.noNull
  cases hno

/-- The only sender is assigned to itself: the channel is closed under it. -/
example : (run step init [.make, .copyAssign .sender 0 0]).map
    (fun s => ((s.channel 0).num .sender, (s.channel 0).num .receiver, (s.channel 0).isClosed)) =
    some (1, 1, true) := rfl

end Kosio.ChannelHandle
