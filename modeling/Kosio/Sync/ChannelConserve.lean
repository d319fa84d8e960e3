import Mathlib.Data.List.Nodup
import Kosio.Lib.Tally
import Kosio.Sync.Channel

/-!
# `Channel`: no value is lost, and who waits for what

On the machine of `Channel`, with nothing assumed about the order of the calls:
the messages whose `send` succeeded are those that `recv` calls returned and
those in the buffer, a receiver waits only while there is nothing to receive, a
sender only while the buffer is full, and no ring operation fails its assertion
(`conservation`).
-/

namespace Kosio.Channel

open Steps

variable {V : Type}

/-! ## What is promised -/

/-- The message a `recv` has returned. -/
def okMsg : Option (Result (Msg V)) → Option (Msg V)
  | some (.ok m) => some m
  | _ => none

/-- What the `recv` calls have returned, by number. -/
def returned (s : State V) : List (Msg V) :=
  (List.range s.numRecvs).filterMap fun r => okMsg (s.recvResult r)

/-- No message is lost or duplicated, and the waiting lists have their shape. -/
structure Conserves (s : State V) : Prop where
  moved : ∃ l, Holds s.buf l ∧ (succeeded s).Perm (returned s ++ l)
  /-- the message of a `send` that failed is not received -/
  failed : ∀ m e, s.sendResult m.call = some (.error e) → m ∉ returned s
  receivers : s.waitingReceivers ≠ [] → s.buf.isEmpty = true ∧ s.waitingSenders = []
  senders : s.waitingSenders ≠ [] → s.buf.isFill = some true ∧ s.waitingReceivers = []

/-- Where `send` and `recv` call them, `safety_push` and `safety_pop` find room and an element. -/
structure Asserts (s : State V) : Prop where
  push : ∀ m, s.waitingReceivers = [] → s.buf.isFill = some false → (s.buf.safetyPush m).isSome
  pop : s.waitingSenders = [] → s.buf.isEmpty = false → s.buf.safetyPop.isSome

/-- What a call has returned stays returned. -/
structure Final (s t : State V) : Prop where
  send : ∀ k r, s.sendResult k = some r → t.sendResult k = some r
  recv : ∀ k r, s.recvResult k = some r → t.recvResult k = some r

structure Sound (s : State V) (a : Act V) (t : State V) : Prop where
  asserts : Asserts s
  conserves : Conserves t
  final : Final s t

/-! ## Invariant -/

/-- The `send` calls: numbered as they came, and a parked one has no result. -/
structure Sends (s : State V) : Prop where
  bound : ∀ m ∈ s.sends, m.call < s.sends.length
  distinct : s.sends.Pairwise fun a b => a.call ≠ b.call
  fresh : ∀ k, s.sends.length ≤ k → s.sendResult k = none
  parked : ∀ w ∈ s.waitingSenders, w ∈ s.sends ∧ s.sendResult w.call = none
  parkedDistinct : s.waitingSenders.Pairwise fun a b => a.call ≠ b.call

/-- The `recv` calls, likewise. -/
structure Recvs (s : State V) : Prop where
  fresh : ∀ k, s.numRecvs ≤ k → s.recvResult k = none
  parked : ∀ r ∈ s.waitingReceivers, r < s.numRecvs ∧ s.recvResult r = none
  nodup : s.waitingReceivers.Nodup

structure Moves (s : State V) (l : List (Msg V)) : Prop where
  buf : Holds s.buf l
  sends : Sends s
  recvs : Recvs s
  moved : (succeeded s).Perm (returned s ++ l)
  full : s.waitingSenders ≠ [] → l.length + 1 = s.buf.data.length
  receivers : s.waitingReceivers ≠ [] → l = [] ∧ s.waitingSenders = []

theorem moves_init [Inhabited V] (cap : Nat) : Moves (init cap : State V) [] :=
  ⟨(inv_init cap).buf, ⟨by simp [init], List.Pairwise.nil, fun _ _ => rfl, by simp [init],
    List.Pairwise.nil⟩, ⟨fun _ _ => rfl, by simp [init], List.nodup_nil⟩, List.Perm.refl _,
    by simp [init], by simp [init]⟩

theorem Moves.asserts {s : State V} {l : List (Msg V)} (h : Moves s l) : Asserts s := by
  constructor
  · intro m _ hfill
    obtain ⟨hb, hroom⟩ := h.buf.contents.room hfill
    obtain ⟨b, hpush, -⟩ := hb.safetyPush hroom m
    rw [hpush]
    rfl
  · intro _ he
    obtain ⟨m, l', -, hb⟩ := h.buf.contents.nonempty he
    obtain ⟨b, hpop, -⟩ := hb.safetyPop
    rw [hpop]
    rfl

theorem Moves.conserves {s : State V} {l : List (Msg V)} (h : Moves s l) : Conserves s := by
  refine ⟨⟨l, h.buf, h.moved⟩, ?_, ?_, ?_⟩
  · intro m e he hm
    have hmem : m ∈ succeeded s := h.moved.mem_iff.2 (List.mem_append_left _ hm)
    have hok := (List.mem_filter.1 hmem).2
    rw [he] at hok
    exact absurd hok (by simp [isOk])
  · intro hne
    obtain ⟨rfl, hw⟩ := h.receivers hne
    exact ⟨h.buf.contents.isEmpty_iff.2 rfl, hw⟩
  · intro hne
    refine ⟨h.buf.contents.isFill_iff.2 (h.full hne), ?_⟩
    by_contra hr
    exact hne (h.receivers hr).2

/-! ## The calls -/

section
variable {s t : State V} {m : Msg V} {k : Nat}

theorem final_update {ρ : Type} {f : Nat → Option ρ} (hk : f k = none) (x : Option ρ) :
    ∀ j r, f j = some r → Function.update f k x j = some r := by
  intro j r hj
  have hne : j ≠ k := by
    rintro rfl
    rw [hk] at hj
    cases hj
  rw [Function.update_of_ne hne, hj]

/-- A new `send`. -/
theorem Sends.enter (h : Sends s) {r : Option (Result Unit)} (hm : m.call = s.sends.length)
    (hsends : t.sends = s.sends ++ [m])
    (hres : t.sendResult = Function.update s.sendResult m.call r)
    (hwait : t.waitingSenders = s.waitingSenders ∨
      r = none ∧ t.waitingSenders = s.waitingSenders ++ [m]) : Sends t := by
  have hold := update_bound h.bound hm r
  have hlen : t.sends.length = s.sends.length + 1 := by rw [hsends, List.length_append]; rfl
  refine ⟨?_, ?_, ?_, ?_, ?_⟩
  · intro x hx
    rw [hsends, List.mem_append, List.mem_singleton] at hx
    rcases hx with hx | rfl
    · have := h.bound x hx
      omega
    · omega
  · rw [hsends, List.pairwise_append]
    refine ⟨h.distinct, List.pairwise_singleton _ _, fun a ha b hb => ?_⟩
    have := h.bound a ha
    rw [List.mem_singleton.1 hb]
    omega
  · intro k hk
    rw [hres, Function.update_of_ne (by omega)]
    exact h.fresh k (by omega)
  · have hin : ∀ w ∈ s.waitingSenders, w ∈ t.sends ∧ t.sendResult w.call = none := by
      intro w hw
      obtain ⟨h1, h2⟩ := h.parked w hw
      rw [hsends, hres, hold w h1]
      exact ⟨List.mem_append_left _ h1, h2⟩
    rcases hwait with hw | ⟨rfl, hw⟩
    · rw [hw]
      exact hin
    · intro w hmem
      rw [hw, List.mem_append, List.mem_singleton] at hmem
      rcases hmem with hmem | rfl
      · exact hin w hmem
      · rw [hsends, hres, Function.update_self]
        exact ⟨by simp, rfl⟩
  · rcases hwait with hw | ⟨-, hw⟩
    · rw [hw]
      exact h.parkedDistinct
    · rw [hw, List.pairwise_append]
      refine ⟨h.parkedDistinct, List.pairwise_singleton _ _, fun a ha b hb => ?_⟩
      have := h.bound a (h.parked a ha).1
      rw [List.mem_singleton.1 hb]
      omega

/-- The front sender is taken. -/
theorem Sends.settle (h : Sends s) {w : Msg V} {rest : List (Msg V)}
    (hw : s.waitingSenders = w :: rest) {r : Option (Result Unit)} (hsends : t.sends = s.sends)
    (hres : t.sendResult = Function.update s.sendResult w.call r)
    (hwait : t.waitingSenders = rest) : Sends t := by
  have hpd := h.parkedDistinct
  rw [hw, List.pairwise_cons] at hpd
  have hwm := h.parked w (hw ▸ List.mem_cons_self)
  have hwb := h.bound w hwm.1
  refine ⟨hsends ▸ h.bound, hsends ▸ h.distinct, ?_, ?_, hwait ▸ hpd.2⟩
  · intro k hk
    rw [hsends] at hk
    rw [hres, Function.update_of_ne (by omega)]
    exact h.fresh k hk
  · intro x hx
    rw [hwait] at hx
    rw [hsends, hres, Function.update_of_ne (Ne.symm (hpd.1 x hx))]
    exact h.parked x (hw ▸ List.mem_cons_of_mem _ hx)

theorem Sends.succeeded_settle (h : Sends s) {w : Msg V} (hw : w ∈ s.waitingSenders)
    (hsends : t.sends = s.sends)
    (hres : t.sendResult = Function.update s.sendResult w.call (some (.ok ()))) :
    (succeeded t).Perm (w :: succeeded s) := by
  obtain ⟨hmem, hnone⟩ := h.parked w hw
  unfold succeeded
  rw [hsends, hres]
  refine Tally.filter_flip (h.distinct.imp fun hne heq => hne (by rw [heq])) hmem (by rw [hnone]; rfl)
    (by rw [Function.update_self]; rfl) fun a ha hne => ?_
  have hcall : a.call ≠ w.call := fun heq =>
    hne (List.inj_on_of_nodup_map (List.pairwise_map.2 h.distinct) ha hmem heq)
  rw [Function.update_of_ne hcall]

/-- A new `recv`. -/
theorem Recvs.enter (h : Recvs s) {r : Option (Result (Msg V))} (hnum : t.numRecvs = s.numRecvs + 1)
    (hres : t.recvResult = Function.update s.recvResult s.numRecvs r)
    (hwait : t.waitingReceivers = s.waitingReceivers ∨
      r = none ∧ t.waitingReceivers = s.waitingReceivers ++ [s.numRecvs]) : Recvs t := by
  have hin : ∀ x ∈ s.waitingReceivers, x < t.numRecvs ∧ t.recvResult x = none := by
    intro x hx
    obtain ⟨h1, h2⟩ := h.parked x hx
    rw [hres, Function.update_of_ne (by omega)]
    exact ⟨by omega, h2⟩
  refine ⟨?_, ?_, ?_⟩
  · intro k hk
    rw [hres, Function.update_of_ne (by omega)]
    exact h.fresh k (by omega)
  · rcases hwait with hw | ⟨rfl, hw⟩
    · rw [hw]
      exact hin
    · intro x hx
      rw [hw, List.mem_append, List.mem_singleton] at hx
      rcases hx with hx | rfl
      · exact hin x hx
      · rw [hres, Function.update_self]
        exact ⟨by omega, rfl⟩
  · rcases hwait with hw | ⟨-, hw⟩
    · rw [hw]
      exact h.nodup
    · rw [hw, List.nodup_append]
      refine ⟨h.nodup, List.nodup_singleton _, fun a ha b hb => ?_⟩
      have := (h.parked a ha).1
      rw [List.mem_singleton.1 hb]
      omega

/-- The front receiver is served. -/
theorem Recvs.settle (h : Recvs s) {c : Nat} {rest : List Nat} (hc : s.waitingReceivers = c :: rest)
    {r : Option (Result (Msg V))} (hnum : t.numRecvs = s.numRecvs)
    (hres : t.recvResult = Function.update s.recvResult c r)
    (hwait : t.waitingReceivers = rest) : Recvs t := by
  have hnd := h.nodup
  rw [hc, List.nodup_cons] at hnd
  have hcb := h.parked c (hc ▸ List.mem_cons_self)
  refine ⟨?_, ?_, hwait ▸ hnd.2⟩
  · intro k hk
    rw [hres, Function.update_of_ne (by omega)]
    exact h.fresh k (by omega)
  · intro x hx
    rw [hwait] at hx
    have hne : x ≠ c := fun he => hnd.1 (he ▸ hx)
    rw [hnum, hres, Function.update_of_ne hne]
    exact h.parked x (hc ▸ List.mem_cons_of_mem _ hx)

theorem returned_enter {r : Option (Result (Msg V))} (hnum : t.numRecvs = s.numRecvs + 1)
    (hres : t.recvResult = Function.update s.recvResult s.numRecvs r) :
    returned t = returned s ++ (okMsg r).toList := by
  unfold returned
  rw [hnum, hres, List.range_succ, List.filterMap_append]
  congr 1
  · apply List.filterMap_congr
    intro k hk
    rw [List.mem_range] at hk
    rw [Function.update_of_ne (by omega)]
  · cases hr : okMsg r <;> simp [hr]

theorem returned_settle {c : Nat} (hc : c < s.numRecvs) (hnone : s.recvResult c = none)
    (hnum : t.numRecvs = s.numRecvs)
    (hres : t.recvResult = Function.update s.recvResult c (some (.ok m))) :
    (returned t).Perm (m :: returned s) := by
  unfold returned
  rw [hnum, hres]
  refine Tally.filterMap_flip List.nodup_range (List.mem_range.2 hc) (by rw [hnone]; rfl)
    (by rw [Function.update_self]; rfl) fun a _ hne => ?_
  rw [Function.update_of_ne hne]

end

/-! ## The steps -/

section
variable {s t : State V} {l x : List (Msg V)} {m : Msg V}

/-- A new `send` counts if it has succeeded. -/
theorem Moves.sent (h : Moves s l) (r : Option (Result Unit)) (hm : m.call = s.sends.length)
    (hsends : t.sends = s.sends ++ [m])
    (hres : t.sendResult = Function.update s.sendResult m.call r)
    (hx : (returned s ++ l ++ if isOk r then [m] else []).Perm x) : (succeeded t).Perm x := by
  rw [succeeded_enter h.sends.bound hm hsends hres]
  exact (h.moved.append_right _).trans hx

/-- A new `recv` counts if it has succeeded. -/
theorem Moves.got (h : Moves s l) (r : Option (Result (Msg V))) (hsucc : succeeded t = succeeded s)
    (hnum : t.numRecvs = s.numRecvs + 1)
    (hres : t.recvResult = Function.update s.recvResult s.numRecvs r)
    (hx : l = (okMsg r).toList ++ x) : (succeeded t).Perm (returned t ++ x) := by
  rw [hsucc, returned_enter hnum hres, List.append_assoc, ← hx]
  exact h.moved

end

theorem Moves.send {s t : State V} {l : List (Msg V)} {v : V} (h : Moves s l)
    (hs : step s (.send v) = some t) : (∃ l', Moves t l') ∧ Final s t := by
  have hfresh : s.sendResult s.sends.length = none := h.sends.fresh _ (Nat.le_refl _)
  have hsame : s.sendResult = Function.update s.sendResult s.sends.length none := by
    rw [← hfresh, Function.update_eq_self]
  obtain ⟨l', hsent⟩ := send_cases h.buf h.full h.receivers hs
  cases hsent with
  | @handed c rest hr hw =>
    obtain ⟨hc, hnone⟩ := h.recvs.parked c (hr ▸ List.mem_cons_self)
    refine ⟨⟨[], h.buf, h.sends.enter rfl rfl rfl (Or.inl rfl), h.recvs.settle hr rfl rfl rfl, ?_,
      fun hne => absurd hw hne, fun _ => ⟨rfl, hw⟩⟩,
      ⟨final_update hfresh _, final_update hnone _⟩⟩
    refine h.sent (some (.ok ())) rfl rfl rfl ?_
    rw [List.append_nil, List.append_nil]
    exact (List.perm_append_singleton _ _).trans
      (List.Perm.symm (returned_settle (s := s) hc hnone rfl rfl))
  | refused hfull =>
    refine ⟨⟨l, h.buf, h.sends.enter rfl rfl rfl (Or.inl rfl),
      ⟨h.recvs.fresh, h.recvs.parked, h.recvs.nodup⟩, ?_, fun _ => hfull, h.receivers⟩,
      ⟨final_update hfresh _, fun _ _ h => h⟩⟩
    refine h.sent (some (.error .kClosedChannel)) rfl rfl rfl (List.Perm.of_eq ?_)
    exact List.append_nil _
  | parked hr hfull =>
    refine ⟨⟨l, h.buf, h.sends.enter rfl rfl hsame (Or.inr ⟨rfl, rfl⟩),
      ⟨h.recvs.fresh, h.recvs.parked, h.recvs.nodup⟩, ?_, fun _ => hfull,
      fun hne => absurd hr hne⟩, ⟨fun _ _ h => h, fun _ _ h => h⟩⟩
    refine h.sent none rfl rfl hsame (List.Perm.of_eq ?_)
    exact List.append_nil _
  | buffered hr hw hb =>
    refine ⟨⟨l ++ [(⟨s.sends.length, v⟩ : Msg V)], Or.inl hb,
      h.sends.enter rfl rfl rfl (Or.inl rfl),
      ⟨h.recvs.fresh, h.recvs.parked, h.recvs.nodup⟩, ?_, fun hne => absurd hw hne,
      fun hne => absurd hr hne⟩, ⟨final_update hfresh _, fun _ _ h => h⟩⟩
    exact h.sent (some (.ok ())) rfl rfl rfl (List.Perm.of_eq (List.append_assoc _ _ _))

theorem Moves.recv {s t : State V} {l : List (Msg V)} (h : Moves s l)
    (hs : step s .recv = some t) : (∃ l', Moves t l') ∧ Final s t := by
  have hfresh : s.recvResult s.numRecvs = none := h.recvs.fresh _ (Nat.le_refl _)
  have hsame : s.recvResult = Function.update s.recvResult s.numRecvs none := by
    rw [← hfresh, Function.update_eq_self]
  have hsends : ∀ u : State V, u.sends = s.sends → u.sendResult = s.sendResult →
      u.waitingSenders = s.waitingSenders → Sends u := by
    intro u h1 h2 h3
    obtain ⟨hb, hd, hf, hp, hpd⟩ := h.sends
    exact ⟨h1 ▸ hb, h1 ▸ hd, h1 ▸ h2 ▸ hf, h1 ▸ h2 ▸ h3 ▸ hp, h3 ▸ hpd⟩
  obtain ⟨l', hrecv⟩ := recv_cases h.buf hs
  cases hrecv with
  | @taken _ w rest hw =>
    have hwm : w ∈ s.waitingSenders := hw ▸ List.mem_cons_self
    have hnone := (h.sends.parked w hwm).2
    have hr : s.waitingReceivers = [] := by
      by_contra hne
      rw [(h.receivers hne).2] at hwm
      cases hwm
    refine ⟨⟨l, h.buf, h.sends.settle hw rfl rfl rfl, h.recvs.enter rfl rfl (Or.inl rfl), ?_,
      fun _ => h.full (by rw [hw]; simp), fun hne => absurd hr hne⟩,
      ⟨final_update hnone _, final_update hfresh _⟩⟩
    rw [returned_enter (s := s) (r := some (.ok w)) rfl rfl]
    have hsucc := h.sends.succeeded_settle hwm (t := deliver (setSend { s with
      numRecvs := s.numRecvs + 1, waitingSenders := rest } w.call (.ok ())) s.numRecvs w) rfl rfl
    refine hsucc.trans ((h.moved.cons w).trans ?_)
    rw [List.append_assoc]
    exact List.perm_middle.symm
  | refused =>
    exact ⟨⟨[], h.buf, hsends _ rfl rfl rfl, h.recvs.enter rfl rfl (Or.inl rfl),
      h.got (some (.error .kClosedChannel)) rfl rfl rfl rfl, h.full, h.receivers⟩,
      ⟨fun _ _ h => h, final_update hfresh _⟩⟩
  | parked hw =>
    exact ⟨⟨[], h.buf, hsends _ rfl rfl rfl, h.recvs.enter rfl hsame (Or.inr ⟨rfl, rfl⟩),
      h.got none rfl rfl hsame rfl, h.full, fun _ => ⟨rfl, hw⟩⟩,
      ⟨fun _ _ h => h, fun _ _ h => h⟩⟩
  | @popped m _ _ hw hb =>
    exact ⟨⟨l', Or.inl hb, hsends _ rfl rfl rfl, h.recvs.enter rfl rfl (Or.inl rfl),
      h.got (some (.ok m)) rfl rfl rfl rfl, fun hne => absurd hw hne,
      fun hne => absurd (h.receivers hne).1 (List.cons_ne_nil _ _)⟩,
      ⟨fun _ _ h => h, final_update hfresh _⟩⟩

theorem Moves.destroy {s : State V} {l : List (Msg V)} (h : Moves s l) :
    Moves (destroy s) l ∧ Final s (destroy s) := by
  unfold Channel.destroy
  split
  · exact ⟨h, fun _ _ h => h, fun _ _ h => h⟩
  · -- the parked calls had no result, and the error they get now is no success
    have hsend : ∀ k, k ∈ s.waitingSenders.map Msg.call → k < s.sends.length ∧
        s.sendResult k = none := by
      intro k hk
      obtain ⟨w, hw, rfl⟩ := List.mem_map.1 hk
      obtain ⟨h1, h2⟩ := h.sends.parked w hw
      exact ⟨h.sends.bound w h1, h2⟩
    refine ⟨⟨h.buf, ⟨h.sends.bound, h.sends.distinct, fun k hk => ?_, List.forall_mem_nil _,
      List.Pairwise.nil⟩, ⟨fun k hk => ?_, List.forall_mem_nil _, List.nodup_nil⟩, ?_,
      fun hne => absurd rfl hne, fun hne => absurd rfl hne⟩, fun k r hk => ?_, fun k r hk => ?_⟩
    · have hk' : s.sends.length ≤ k := hk
      refine (if_neg fun hm => ?_).trans (h.sends.fresh k hk)
      have := (hsend k hm).1
      omega
    · have hk' : s.numRecvs ≤ k := hk
      refine (if_neg fun hm => ?_).trans (h.recvs.fresh k hk)
      have := (h.recvs.parked k hm).1
      omega
    · refine (List.Perm.of_eq ?_).trans (h.moved.trans (List.Perm.of_eq ?_))
      · apply List.filter_congr
        intro m _
        show isOk (if _ then _ else _) = _
        split
        · next hm => rw [(hsend _ hm).2]; rfl
        · rfl
      · congr 1
        apply List.filterMap_congr
        intro k _
        show _ = okMsg (if _ then _ else _)
        split
        · next hm => rw [(h.recvs.parked k hm).2]; rfl
        · rfl
    · refine (if_neg fun hm => ?_).trans hk
      rw [(hsend k hm).2] at hk
      cases hk
    · refine (if_neg fun hm => ?_).trans hk
      rw [(h.recvs.parked k hm).2] at hk
      cases hk

theorem moves_step (s : State V) (a : Act V) (t : State V) (h : ∃ l, Moves s l)
    (hs : step s a = some t) : (∃ l, Moves t l) ∧ Final s t := by
  obtain ⟨l, h⟩ := h
  cases a with
  | send v => exact h.send hs
  | recv => exact h.recv hs
  | destroy =>
    cases hs
    obtain ⟨hm, hf⟩ := h.destroy
    exact ⟨⟨l, hm⟩, hf⟩

/-- **Conservation and shape.**  For every capacity and every run, in every step:
the assertions hold where it starts, the messages sent are those returned and
those in the buffer, a failed `send` is never received, and the waiting lists
have their shape. -/
theorem conservation [Inhabited V] (cap : Nat) (as : List (Act V)) :
    EachStep step Sound (init cap) as := by
  have hinv : ∀ (s : State V) (a : Act V) (t : State V), (∃ l, Moves s l) → step s a = some t →
      True → ∃ l, Moves t l := fun s a t h hs _ => (moves_step s a t h hs).1
  refine eachStep_of_inv _ hinv ?_ ⟨[], moves_init cap⟩ (eachStep_true _ _)
  intro s a t h hs _
  obtain ⟨⟨l', h'⟩, hf⟩ := moves_step s a t h hs
  obtain ⟨l, h⟩ := h
  exact ⟨h.asserts, h'.conserves, hf⟩

end Kosio.Channel
