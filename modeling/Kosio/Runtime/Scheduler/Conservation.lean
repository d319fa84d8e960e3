import Kosio.Runtime.Scheduler.WorkStealing

/-!
# Work stealing: the steps

One lemma for each kind of step, and the theorem: whatever the interleaving,
no task is lost or returned twice, no live or claimed slot is overwritten, and
no assertion fails.
-/

namespace Kosio.Runtime.WorkStealing

open Steps

variable {W T : Type} [DecidableEq W] [Fintype W] {s : State W T} {w : W}

section Geo

omit [DecidableEq W] [Fintype W]

variable {q : LocalQueue T}

/-! ## Loads -/

theorem Geo.loaded (h : Geo q) : Loaded q (unpack q.head).1 := by
  refine ⟨q.steal, ?_, Nat.le_refl _, h.last_le⟩
  rw [h.head, unpack_pack]

theorem Geo.loadedHead (h : Geo q) : LoadedHead q q.head :=
  ⟨q.steal, q.real, h.head, Nat.le_refl _, h.steal_le, Nat.le_refl _, h.last_le⟩

/-- The owner sees how far its tail is from a `steal` it has loaded. -/
theorem Loaded.sub (hg : Geo q) {steal : U32} (h : Loaded q steal) :
    ∃ σ, σ ≤ q.steal ∧ q.last ≤ σ + 256 ∧ (q.tail - steal).toNat = q.last - σ := by
  obtain ⟨σ, rfl, h1, h2⟩ := h
  have := hg.steal_le
  have := hg.real_le
  refine ⟨σ, h1, h2, ?_⟩
  rw [hg.tail]
  exact sub_toNat (by omega) (by omega)

theorem pos_succ (n : Nat) : pos n + 1 = pos (n + 1) := pos_add n 1

/-! ## Stores -/

/-- A slot past the tail may be written. -/
theorem Geo.write (hg : Geo q) {p : Nat} (x : T) (h : q.last ≤ p) (hlt : p < q.steal + 256) :
    Kept q (q.write (pos p) x) ∧ Geo (q.write (pos p) x) ∧ live (q.write (pos p) x) = live q := by
  have h1 := hg.steal_le
  have h2 := hg.real_le
  refine ⟨⟨Nat.le_refl _, Nat.le_refl _, Nat.le_refl _, fun p' _ _ => ?_⟩,
    ⟨hg.head, hg.tail, hg.steal_le, hg.real_le, hg.last_le⟩, ?_⟩
  · exact write_buffer_ne x (by omega) (by omega)
  · have hp : q.real + (q.last - q.real) ≤ p := by omega
    have hp' : p < q.real + 256 := by omega
    exact region_write x hp hp'

/-- The tail takes in the slots that have been written. -/
theorem Geo.storeTail (hg : Geo q) {tail : U32} {n : Nat} (ht : tail = pos (q.last + n))
    (hn : q.last + n ≤ q.steal + 256) :
    Kept q (q.storeTail tail n) ∧ Geo (q.storeTail tail n) ∧
      live (q.storeTail tail n) = live q ++ region q q.last n := by
  have h2 := hg.real_le
  refine ⟨⟨Nat.le_refl _, Nat.le_refl _, Nat.le_add_right _ _, fun _ _ _ => rfl⟩,
    ⟨hg.head, ht, hg.steal_le, Nat.le_add_right_of_le h2, hn⟩, ?_⟩
  show region q q.real (q.last + n - q.real) = region q q.real (q.last - q.real) ++ _
  have h3 : q.last + n - q.real = q.last - q.real + n := by omega
  have h4 : q.real + (q.last - q.real) = q.last := by omega
  rw [h3, region_add, h4]

/-- What a move of `real` takes out of the live slots. -/
theorem live_split {n : Nat} (hn : q.real + n ≤ q.last) :
    live q = region q q.real n ++ region q (q.real + n) (q.last - (q.real + n)) := by
  have h : q.last - q.real = n + (q.last - (q.real + n)) := by omega
  rw [live, h, region_add]

theorem Geo.storeHead (hg : Geo q) {n : Nat} (he : q.steal = q.real) (hn : q.real + n ≤ q.last) :
    let r := q.storeHead (pack (pos (q.real + n)) (pos (q.real + n))) n
    Kept q r ∧ Geo r ∧ live q = region q q.real n ++ live r := by
  have h3 := hg.last_le
  refine ⟨⟨Nat.le_add_right _ _, Nat.le_add_right _ _, Nat.le_refl _, fun _ _ _ => rfl⟩,
    ⟨?_, hg.tail, ?_, hn, ?_⟩, live_split hn⟩
  · show pack _ _ = pack (pos (q.steal + n)) _
    rw [he]
    rfl
  · exact Nat.add_le_add_right hg.steal_le n
  · show q.last ≤ q.steal + n + 256
    omega

theorem Geo.storeReal (hg : Geo q) {n : Nat} (hn : q.real + n ≤ q.last) :
    let r := q.storeReal (pack (pos q.steal) (pos (q.real + n))) n
    Kept q r ∧ Geo r ∧ live q = region q q.real n ++ live r :=
  ⟨⟨Nat.le_refl _, Nat.le_add_right _ _, Nat.le_refl _, fun _ _ _ => rfl⟩,
    ⟨rfl, hg.tail, Nat.le_add_right_of_le hg.steal_le, hn, hg.last_le⟩, live_split hn⟩

theorem Geo.release (hg : Geo q) :
    let r := q.release (pack (pos q.real) (pos q.real))
    Kept q r ∧ Geo r ∧ live q = live r := by
  have h1 := hg.steal_le
  have h3 := hg.last_le
  refine ⟨⟨h1, Nat.le_refl _, Nat.le_refl _, fun _ _ _ => rfl⟩,
    ⟨rfl, hg.tail, Nat.le_refl _, hg.real_le, ?_⟩, rfl⟩
  show q.last ≤ q.real + 256
  omega

end Geo

omit [DecidableEq W] in
/-- Where no thief is copying, no slot is claimed. -/
theorem Inv.unclaimed (h : Inv s) {x : W} (he : (s.queue x).steal = (s.queue x).real) (c : W) :
    (s.pc c).claims ≠ some x := by
  intro hc
  have ha := (h.across c x (Pc.src_of_claims hc)).2
  have ho := h.own c
  cases hpc : s.pc c <;> rw [hpc] at hc ha ho <;> cases hc
  · have h1 := ho.2.1
    have h2 := ha.2.1
    omega
  · have h1 := ho.2.1
    have h2 := ha.2.1
    omega
  · have h1 := ho.2.1
    have h2 := ha.1
    omega

/-! ## Steps of the owner -/

/-- A write past the tail, into a slot that only the call knows of. -/
theorem Inv.writes (h : Inv s) {p : Pc W T} {k : Nat} {x : T} (hk : (s.queue w).last ≤ k)
    (hlt : k < (s.queue w).steal + 256) (hown : Own ((s.queue w).write (pos k) x) p)
    (hacross : ∀ src, p.src = some src → src ≠ w ∧
      Across ((s.queue w).write (pos k) x) (s.queue src) p)
    (hclaims : ∀ src, p.claims = some src → (s.pc w).claims = some src)
    (hhand : hand (Function.update s.queue w ((s.queue w).write (pos k) x))
      ((s.queue w).write (pos k) x) p = hand s.queue (s.queue w) (s.pc w)) :
    Keeps s (setPc (setQueue s w ((s.queue w).write (pos k) x)) w p) := by
  obtain ⟨hkept, hgeo, hlive⟩ := (h.geo w).write x hk hlt
  have hqw : (setPc (setQueue s w ((s.queue w).write (pos k) x)) w p).queue w =
      (s.queue w).write (pos k) x := Function.update_self ..
  refine h.act (v := w) ⟨rfl, rfl, hkept, fun he => absurd rfl he, fun _ _ _ => rfl⟩ hgeo
    (by rw [hqw]; exact hown) (fun src hsrc => ?_)
    (fun y src hy hc hy' => hy (h.unique y w src hy' (hclaims src hc))) (fun a _ => ?_)
    h.num h.dropped
  · obtain ⟨h1, h2⟩ := hacross src hsrc
    refine ⟨h1, ?_⟩
    rw [hqw]
    have : (setPc (setQueue s w ((s.queue w).write (pos k) x)) w p).queue src = s.queue src :=
      Function.update_of_ne h1 ..
    rw [this]
    exact h2
  · rw [hqw, hlive]
    have : hand (setPc (setQueue s w ((s.queue w).write (pos k) x)) w p).queue
      ((s.queue w).write (pos k) x) p = _ := hhand
    rw [this]
    rfl

/-- The tail is stored: `kept` stays in the hands, `out` is returned. -/
theorem Inv.stores (h : Inv s) {tail : U32} {n : Nat} {out : List T}
    (ht : tail = pos ((s.queue w).last + n))
    (hn : (s.queue w).last + n ≤ (s.queue w).steal + 256)
    (hhand : hand s.queue (s.queue w) (s.pc w) = region (s.queue w) (s.queue w).last n ++ out) :
    Keeps s (done (setQueue s w ((s.queue w).storeTail tail n)) w out) := by
  obtain ⟨hkept, hgeo, hlive⟩ := (h.geo w).storeTail ht hn
  refine h.act (v := w) (p := .idle) ⟨rfl, rfl, hkept, fun he => absurd rfl he, fun _ _ _ => rfl⟩
    hgeo trivial nofun nofun (fun a _ => ?_) h.num h.dropped
  rw [hlive, hhand]
  show (live (s.queue w) ++ _).count a + ([] : List T).count a + s.global.tasks.count a +
    (s.returned ++ out).count a + s.dropped.count a + s.handed.count a = _ + s.handed.count a
  simp only [List.count_append, List.count_nil]
  omega

omit [Fintype W] in
theorem done_nil (s : State W T) (w : W) : done s w [] = setPc s w .idle := by
  unfold done setPc
  simp

/-- The owner's CAS takes `n` live slots into its hands. -/
theorem Inv.takes (h : Inv s) {p : Pc W T} {r : LocalQueue T} {n : Nat}
    (hr : Kept (s.queue w) r ∧ Geo r ∧
      live (s.queue w) = region (s.queue w) (s.queue w).real n ++ live r)
    (hsteal : r.steal = (s.queue w).steal ∨ (s.queue w).steal = (s.queue w).real)
    (hown : Own r p) (hsrc : p.src = none)
    (hhand : ∀ a [DecidableEq T], (hand (Function.update s.queue w r) r p).count a =
      (region (s.queue w) (s.queue w).real n).count a +
        (hand s.queue (s.queue w) (s.pc w)).count a) :
    Keeps s (setPc (setQueue s w r) w p) := by
  obtain ⟨hkept, hgeo, hlive⟩ := hr
  have hqw : (setPc (setQueue s w r) w p).queue w = r := Function.update_self ..
  have hclaims : ∀ src, p.claims ≠ some src := fun src hc => by
    have := Pc.src_of_claims hc
    rw [hsrc] at this
    cases this
  refine h.act (v := w) ⟨rfl, rfl, hkept, fun he => absurd rfl he, fun c _ hc => ?_⟩ hgeo
    (by rw [hqw]; exact hown) (fun src hs => ?_) (fun _ src _ hc => absurd hc (hclaims src))
    (fun a _ => ?_) h.num h.dropped
  · exact hsteal.resolve_right fun he => h.unclaimed he c hc
  · rw [hsrc] at hs
    cases hs
  · have h1 := hhand a
    rw [hqw, hlive, List.count_append]
    show (live r).count a + (hand (Function.update s.queue w r) r p).count a +
      s.global.tasks.count a + s.returned.count a + s.dropped.count a + s.handed.count a = _ +
      s.handed.count a
    omega

/-! ## Steps of a thief -/

/-- The thief's first CAS: `n` live slots of `src` are claimed. -/
theorem Inv.claimsSlots (h : Inv s) {src : W} (dstTail n : U32) (hsrc : src ≠ w)
    (hroom : Room (s.queue w) dstTail) (he : (s.queue src).steal = (s.queue src).real)
    (hn1 : 1 ≤ n.toNat) (hn : n.toNat ≤ 128)
    (hlast : (s.queue src).real + n.toNat ≤ (s.queue src).last)
    (hhand : hand s.queue (s.queue w) (s.pc w) = []) :
    Keeps s (setPc (setQueue s src ((s.queue src).storeReal
      (pack (pos (s.queue src).steal) (pos ((s.queue src).real + n.toNat))) n.toNat)) w
      (.stealRead src dstTail (pos (s.queue src).steal) n 0)) := by
  obtain ⟨hkept, hgeo, hlive⟩ := (h.geo src).storeReal hlast
  generalize hr : (s.queue src).storeReal
    (pack (pos (s.queue src).steal) (pos ((s.queue src).real + n.toNat))) n.toNat = r at hkept hgeo hlive ⊢
  have hsteal : r.steal = (s.queue src).steal := by rw [← hr]; rfl
  have hreal : r.real = (s.queue src).real + n.toNat := by rw [← hr]; rfl
  have hlast' : r.last = (s.queue src).last := by rw [← hr]; rfl
  have htail : r.tail = (s.queue src).tail := by rw [← hr]; rfl
  have hbuf : r.buffer = (s.queue src).buffer := by rw [← hr]; rfl
  have hqs : (Function.update s.queue src r) src = r := Function.update_self ..
  have hqw : (Function.update s.queue src r) w = s.queue w := Function.update_of_ne hsrc.symm ..
  refine h.act (v := src) (q := r) ⟨rfl, rfl, hkept, fun _ => ⟨hkept, htail, hlast', hbuf⟩, fun _ _ _ => hsteal⟩ hgeo
    ?_ ?_ ?_ (fun a _ => ?_) h.num h.dropped
  · show Own ((Function.update s.queue src r) w) _
    rw [hqw]
    exact ⟨hroom, hn1, hn⟩
  · rintro x ⟨⟩
    refine ⟨hsrc, ?_⟩
    show Across ((Function.update s.queue src r) w) ((Function.update s.queue src r) src) _
    rw [hqs, hqw]
    exact ⟨by rw [hsteal], by omega, Nat.zero_le _, rfl⟩
  · rintro x src' _ ⟨⟩
    exact h.unclaimed he x
  · have hreg : region r r.steal n.toNat = region (s.queue src) (s.queue src).real n.toNat := by
      rw [hsteal, he]
      exact region_congr fun _ _ _ => by rw [hbuf]
    have hh : hand (Function.update s.queue src r) ((Function.update s.queue src r) w)
        (.stealRead src dstTail (pos (s.queue src).steal) n 0) =
        region (s.queue src) (s.queue src).real n.toNat := by
      show region ((Function.update s.queue src r) src) ((Function.update s.queue src r) src).steal _ = _
      rw [hqs, hreg]
    rw [hlive, hhand, List.count_append, List.count_nil]
    show (live r).count a + (hand (Function.update s.queue src r)
      ((Function.update s.queue src r) w) _).count a + _ + _ + _ + _ = _
    rw [hh]
    show _ + s.global.tasks.count a + s.returned.count a + s.dropped.count a + s.handed.count a = _ +
      s.handed.count a
    omega

/-- The thief's last CAS: the slots are given back, and hold copies. -/
theorem Inv.gives (h : Inv s) {src : W} {dstTail n : U32} {prev : BitVec 64}
    (hpc : s.pc w = .stealRelease src dstTail n prev) :
    Keeps s (setPc (setQueue s src ((s.queue src).release
      (pack (pos (s.queue src).real) (pos (s.queue src).real)))) w (.stealTake dstTail n)) := by
  have ho := h.own w
  have ha := h.across w src (by rw [hpc]; rfl)
  rw [hpc] at ho ha
  obtain ⟨⟨hdt, hroom⟩, hn1, hn⟩ := ho
  obtain ⟨hsrc, hreal, hcopy⟩ := ha
  obtain ⟨hkept, hgeo, hlive⟩ := (h.geo src).release
  generalize hr : (s.queue src).release
    (pack (pos (s.queue src).real) (pos (s.queue src).real)) = r at hkept hgeo hlive ⊢
  have hqw : (Function.update s.queue src r) w = s.queue w := Function.update_of_ne hsrc.symm ..
  have hpassive : Passive (s.queue src) r := by
    rw [← hr] at hkept ⊢
    exact ⟨hkept, rfl, rfl, rfl⟩
  refine h.act (v := src) (q := r) ⟨rfl, rfl, hkept, fun _ => hpassive, fun c hc hcl => ?_⟩ hgeo ?_ nofun nofun
    (fun a _ => ?_) h.num h.dropped
  · -- nobody else has claimed slots of `src`
    refine absurd (h.unique c w src hcl ?_) hc
    rw [hpc]
    rfl
  · show Own ((Function.update s.queue src r) w) _
    rw [hqw]
    exact ⟨hdt, hn1, hn, by omega⟩
  · rw [hlive, hpc]
    show (live r).count a + (region ((Function.update s.queue src r) w)
      ((Function.update s.queue src r) w).last n.toNat).count a + s.global.tasks.count a +
      s.returned.count a + s.dropped.count a + s.handed.count a = (live r).count a +
      (region (s.queue src) (s.queue src).steal n.toNat).count a + s.global.tasks.count a +
      s.returned.count a + s.dropped.count a + s.handed.count a
    rw [hqw, hcopy]

/-! ## Calls -/

/-- `remaining_slots` -/
theorem Inv.remainingSlots (h : Inv s) {b : Bool} {t : State W T}
    (hpc : s.pc w = .remHead ∨ ∃ steal, s.pc w = .remTail steal) (hs : stepPc s w b = some t) : Keeps s t := by
  have ho := h.own w
  rcases hpc with hpc | ⟨steal, hpc⟩ <;> simp only [stepPc, hpc] at hs <;> cases hs <;> rw [hpc] at ho
  · exact h.goTo (h.geo w).loaded nofun nofun (by rw [hpc]; rfl)
  · obtain ⟨σ, -, hσ, hsub⟩ := Loaded.sub (h.geo w) ho
    rw [hsub, if_pos (show 256 ≥ (s.queue w).last - σ by omega)]
    exact h.goTo trivial nofun nofun (by rw [hpc]; rfl)

/-- `push_batch` -/
theorem Inv.pushBatch (h : Inv s) {b : Bool} {t : State W T} {tasks : List T}
    (hpc : s.pc w = .batchHead tasks ∨ (∃ steal, s.pc w = .batchTail tasks steal) ∨
      ∃ i tail, s.pc w = .batchWrite tasks i tail) (hs : stepPc s w b = some t) : Keeps s t := by
  have ho := h.own w
  rcases hpc with hpc | ⟨steal, hpc⟩ | ⟨i, tail, hpc⟩ <;> rw [hpc] at ho <;>
    simp only [stepPc, hpc] at hs
  · cases hs
    exact h.goTo ⟨(h.geo w).loaded, ho⟩ nofun nofun (by rw [hpc]; rfl)
  · obtain ⟨hl, hlen⟩ := ho
    obtain ⟨σ, hσ, hσ', hsub⟩ := Loaded.sub (h.geo w) hl
    rw [hsub] at hs
    split at hs
    · cases hs
      exact h.returns (by rw [hpc]; rfl)
    · next hfit =>
      cases hs
      have hfit' : ¬ (s.queue w).last - σ > 256 - tasks.length := hfit
      refine h.goTo ⟨Nat.zero_le _, (h.geo w).tail, ?_, rfl⟩ nofun nofun (by rw [hpc]; rfl)
      have := (h.geo w).real_le
      have := (h.geo w).steal_le
      omega
  · obtain ⟨hi, rfl, hroom, hreg⟩ := ho
    have := (h.geo w).real_le
    have := (h.geo w).steal_le
    cases hget : tasks[i]? with
    | some task =>
      simp only [hget] at hs
      cases hs
      have hlt : i < tasks.length := (List.getElem?_eq_some_iff.1 hget).1
      refine h.writes (by omega) (by omega) ⟨hlt, ?_, hroom, ?_⟩ nofun nofun (by rw [hpc]; rfl)
      · rw [pos_succ]
        rfl
      · -- the slots written so far, and one more
        rw [region_succ]
        show region ((s.queue w).write _ task) (s.queue w).last i ++
          [((s.queue w).write _ task).buffer (slotAt ((s.queue w).last + i))] = _
        rw [region_write task (Nat.le_refl _) (by omega), write_buffer_self, hreg,
          List.take_add_one, hget]
        rfl
    | none =>
      simp only [hget] at hs
      cases hs
      have hlen : tasks.length = i := by
        have := List.getElem?_eq_none_iff.1 hget
        omega
      rw [← done_nil]
      refine h.stores (by rw [hlen]) hroom ?_
      rw [hpc, hlen, hreg, List.append_nil, ← hlen, List.take_length]
      rfl

/-- `push_back_or_overflow`, without the overflow. -/
theorem Inv.push (h : Inv s) {b : Bool} {t : State W T} {task : T}
    (hpc : s.pc w = .pushHead task ∨ (∃ head, s.pc w = .pushTail task head) ∨
      s.pc w = .pushGlobal task ∨ (∃ tail, s.pc w = .pushWrite task tail) ∨
      ∃ tail, s.pc w = .pushStore task tail) (hs : stepPc s w b = some t) : Keeps s t := by
  have ho := h.own w
  have hg := h.geo w
  rcases hpc with hpc | ⟨head, hpc⟩ | hpc | ⟨tail, hpc⟩ | ⟨tail, hpc⟩ <;> rw [hpc] at ho <;>
    simp only [stepPc, hpc] at hs
  · cases hs
    exact h.goTo hg.loadedHead nofun nofun (by rw [hpc]; rfl)
  · obtain ⟨σ, ρ, rfl, hσ, hσρ, hρ, hl⟩ := ho
    have h1 := hg.steal_le
    have h2 := hg.real_le
    have hsub : ((s.queue w).tail - pos σ).toNat = (s.queue w).last - σ := by
      rw [hg.tail]
      exact sub_toNat (by omega) (by omega)
    simp only [unpack_pack, hsub] at hs
    split at hs
    · next hroom =>
      cases hs
      have hroom' : (s.queue w).last - σ < 256 := hroom
      exact h.goTo ⟨hg.tail, by omega⟩ nofun nofun (by rw [hpc]; rfl)
    · next hfull =>
      have hfull' : ¬ (s.queue w).last - σ < 256 := hfull
      split at hs
      · cases hs
        exact h.goTo trivial nofun nofun (by rw [hpc]; rfl)
      · next heq =>
        cases hs
        -- full and nobody copying: `real` is where `steal` is
        have hσρ' : σ = ρ := pos_inj (not_not.1 heq) hσρ (by omega)
        exact h.goTo ⟨ρ, rfl, rfl, by omega, by omega⟩ nofun nofun (by rw [hpc]; rfl)
  · cases hs
    exact h.publishes (by rw [hpc]; rfl)
  · cases hs
    obtain ⟨rfl, hroom⟩ := ho
    exact h.writes (Nat.le_refl _) hroom ⟨rfl, hroom, write_buffer_self _ _⟩ nofun nofun
      (by rw [hpc]; rfl)
  · cases hs
    obtain ⟨rfl, hroom, hbuf⟩ := ho
    rw [← done_nil]
    refine h.stores (pos_succ _) (by omega) ?_
    rw [hpc, ← hbuf]
    rfl

/-- `push_overflow` -/
theorem Inv.pushOverflow (h : Inv s) {b : Bool} {t : State W T} {task : T}
    (hpc : (∃ head tail, s.pc w = .overflowCas task head tail) ∨
      ∃ head tasks, s.pc w = .overflowRead task head tasks) (hs : stepPc s w b = some t) : Keeps s t := by
  have ho := h.own w
  have hg := h.geo w
  have h1 := hg.steal_le
  have h2 := hg.real_le
  rcases hpc with ⟨head, tail, hpc⟩ | ⟨head, tasks, hpc⟩ <;> rw [hpc] at ho <;>
    simp only [stepPc, hpc] at hs
  · obtain ⟨η, rfl, rfl, hη, hl⟩ := ho
    have hsub : ((s.queue w).tail - pos η).toNat = 256 := by
      rw [hg.tail, sub_toNat (by omega) (by omega)]
      omega
    rw [hsub, if_neg (by decide)] at hs
    split at hs
    · cases hs
      exact h.goTo trivial nofun nofun (by rw [hpc]; rfl)
    · next hcas =>
      rw [not_or, not_not] at hcas
      cases hs
      obtain ⟨hst, hre⟩ := pack_inj (hg.head.symm.trans hcas.2)
      have he1 : η = (s.queue w).steal := pos_inj hst.symm hη (by omega)
      have he2 : η = (s.queue w).real := pos_inj hre.symm (by omega) (by omega)
      have he : (s.queue w).steal = (s.queue w).real := he1.symm.trans he2
      have hnext : pos η + 128 = pos ((s.queue w).real + 128) := by
        rw [← he2]
        exact pos_add η 128
      rw [hnext]
      refine h.takes (n := 128) (hg.storeHead he (by omega)) (Or.inr he) (Nat.zero_le _) rfl
        fun a _ => ?_
      -- in the hands: 128 slots to be read, and the task that was pushed
      have hmap : (List.range 128).map (fun j => (s.queue w).buffer
          (slot (pos η + BitVec.ofNat 32 (0 + j)))) =
          region (s.queue w) (s.queue w).real 128 := by
        refine List.map_congr_left fun j _ => ?_
        rw [pos_add_ofNat, slot_pos, Nat.zero_add, ← he2]
      rw [hpc]
      show ([] ++ (List.range 128).map (fun j => (s.queue w).buffer
          (slot (pos η + BitVec.ofNat 32 (0 + j)))) ++ [task]).count a = _ + [task].count a
      rw [hmap, List.nil_append, List.count_append]
  · have ho' : tasks.length ≤ 128 := ho
    split at hs
    · next hlt =>
      have hlt' : tasks.length < 128 := hlt
      cases hs
      refine h.goTo (by show (tasks ++ [_]).length ≤ 128; rw [List.length_append]; exact hlt')
        nofun nofun ?_
      rw [hpc]
      have hn : 128 - tasks.length = 1 + (128 - (tasks.length + 1)) := by omega
      simp only [hand, List.length_append, List.length_singleton, hn, List.range_add,
        List.map_append, List.map_map, List.append_assoc]
      congr 1
      simp [Function.comp_def, Nat.add_assoc]
    · next hge =>
      have hge' : ¬ tasks.length < 128 := hge
      cases hs
      refine h.publishes ?_
      have hn : 128 - tasks.length = 0 := by omega
      rw [hpc]
      simp [hand, hn]

/-- `pop` -/
theorem Inv.pop (h : Inv s) {b : Bool} {t : State W T}
    (hpc : s.pc w = .popHead ∨ (∃ head, s.pc w = .popTail head) ∨ (∃ head, s.pc w = .popCas head) ∨
      ∃ real, s.pc w = .popRead real) (hs : stepPc s w b = some t) : Keeps s t := by
  have ho := h.own w
  have hg := h.geo w
  rcases hpc with hpc | ⟨head, hpc⟩ | ⟨head, hpc⟩ | ⟨real, hpc⟩ <;> rw [hpc] at ho <;>
    simp only [stepPc, hpc] at hs
  · cases hs
    exact h.goTo hg.loadedHead nofun nofun (by rw [hpc]; rfl)
  · cases hs
    split
    · exact h.goTo trivial nofun nofun (by rw [hpc]; rfl)
    · next hne => exact h.goTo ⟨ho, hne⟩ nofun nofun (by rw [hpc]; rfl)
  · split at hs
    · cases hs
      exact h.goTo hg.loadedHead nofun nofun (by rw [hpc]; rfl)
    · next hcas =>
      rw [not_or, not_not] at hcas
      have hhead : head = pack (pos (s.queue w).steal) (pos (s.queue w).real) :=
        hcas.2.symm.trans hg.head
      have hne := ho.2
      rw [hhead, unpack_pack, hg.tail] at hne
      simp only [hhead, unpack_pack] at hs
      have h1 := hg.steal_le
      have h2 := hg.real_le
      have h3 := hg.last_le
      have hlt : (s.queue w).real + 1 ≤ (s.queue w).last := by
        by_contra hle
        exact hne (congrArg pos (by omega))
      have hhand : ∀ (r : LocalQueue T) (a : T) [DecidableEq T], r.buffer = (s.queue w).buffer →
          (hand (Function.update s.queue w r) r (.popRead (pos (s.queue w).real) : Pc W T)).count a =
            (region (s.queue w) (s.queue w).real 1).count a +
              (hand s.queue (s.queue w) (s.pc w)).count a := by
        intro r a _ hr
        rw [hpc]
        simp [hand, hr, region]
      rw [pos_succ] at hs
      split at hs
      · next heq =>
        cases hs
        have he : (s.queue w).steal = (s.queue w).real := pos_inj heq h1 (by omega)
        exact h.takes (n := 1) (hg.storeHead he hlt) (Or.inr he) trivial rfl
          fun a _ => hhand _ a rfl
      · cases hs
        exact h.takes (n := 1) (hg.storeReal hlt) (Or.inl rfl) trivial rfl fun a _ => hhand _ a rfl
  · cases hs
    exact h.returns (by rw [hpc]; rfl)

/-- `steal_into`, up to the claim. -/
theorem Inv.stealClaim (h : Inv s) {b : Bool} {t : State W T} {src : W}
    (hpc : s.pc w = .stealDstHead src ∨ (∃ steal, s.pc w = .stealDstTail src steal) ∨
      (∃ dstTail, s.pc w = .stealHead src dstTail) ∨
      (∃ dstTail prev seen, s.pc w = .stealTail src dstTail prev seen) ∨
      ∃ dstTail prev n seen, s.pc w = .stealCas src dstTail prev n seen)
    (hs : stepPc s w b = some t) (hok : NoWrap s (.step w b) t) : Keeps s t := by
  have ho := h.own w
  have ha := h.across w src (by
    rcases hpc with hpc | ⟨_, hpc⟩ | ⟨_, hpc⟩ | ⟨_, _, _, hpc⟩ | ⟨_, _, _, _, hpc⟩ <;> rw [hpc] <;> rfl)
  have hg := h.geo w
  have hgs := h.geo src
  have h1 := hgs.steal_le
  have h2 := hgs.real_le
  have h3 := hgs.last_le
  obtain ⟨hsrc, ha⟩ := ha
  -- the thief loads `head_` of its victim
  have hload : ∀ dstTail, Room (s.queue w) dstTail → hand s.queue (s.queue w) (s.pc w) = [] →
      Keeps s (setPc s w (.stealTail src dstTail (s.queue src).head (s.queue src).real)) := by
    intro dstTail hr hh
    refine h.goTo hr ?_ nofun hh.symm
    rintro x ⟨⟩
    refine ⟨hsrc, ?_, Nat.le_refl _⟩
    rw [hgs.head, unpack_pack]
  rcases hpc with hpc | ⟨steal, hpc⟩ | ⟨dstTail, hpc⟩ | ⟨dstTail, prev, seen, hpc⟩ |
    ⟨dstTail, prev, n, seen, hpc⟩ <;> rw [hpc] at ho ha <;> simp only [stepPc, hpc] at hs
  · cases hs
    exact h.goTo hg.loaded (by rintro x ⟨⟩; exact ⟨hsrc, trivial⟩) nofun (by rw [hpc]; rfl)
  · obtain ⟨σ, hσ, hσ', hsub⟩ := Loaded.sub hg ho
    cases hs
    rw [hsub]
    split
    · exact h.goTo trivial nofun nofun (by rw [hpc]; rfl)
    · next hroom =>
      have hroom' : ¬ (s.queue w).last - σ > 128 := hroom
      exact h.goTo ⟨hg.tail, by omega⟩ (by rintro x ⟨⟩; exact ⟨hsrc, trivial⟩) nofun (by rw [hpc]; rfl)
  · cases hs
    exact hload dstTail ho (by rw [hpc]; rfl)
  · obtain ⟨hprev, hseen⟩ := ha
    split at hs
    · cases hs
      exact h.goTo trivial nofun nofun (by rw [hpc]; rfl)
    · next heq =>
      rw [not_not] at heq
      generalize hd : ((s.queue src).tail - (unpack prev).2) = d at hs
      have hdlt : d.toNat < 2 ^ 32 := d.isLt
      have hhalf : (d - BitVec.ofNat 32 (d.toNat / 2)).toNat = d.toNat - d.toNat / 2 := by
        rw [BitVec.toNat_sub, BitVec.toNat_ofNat]
        omega
      split at hs
      · cases hs
        exact h.goTo trivial nofun nofun (by rw [hpc]; rfl)
      · next hn0 =>
        have hpos : 1 ≤ (d - BitVec.ofNat 32 (d.toNat / 2)).toNat := by
          by_contra hle
          exact hn0 (BitVec.eq_of_toNat_eq (show _ = 0 by omega))
        split at hs
        · -- `src_steal != next_src_real`
          next hfail =>
          exfalso
          rw [heq] at hfail
          have := congrArg BitVec.toNat hfail
          rw [BitVec.toNat_add] at this
          have := (unpack prev).2.isLt
          omega
        · cases hs
          refine h.goTo ho ?_ nofun (by rw [hpc]; rfl)
          rintro x ⟨⟩
          refine ⟨hsrc, ?_, hseen, fun he => ?_⟩
          · rw [← hprev, ← pack_unpack prev, heq, unpack_pack]
          · -- `head_` is still what was loaded, so the tail was read for it
            have hsub : d.toNat = (s.queue src).last - seen := by
              rw [← hd, hprev, hgs.tail]
              exact sub_toNat (by omega) (by omega)
            rw [hhalf]
            omega
  · obtain ⟨hprev, hseen, hfresh⟩ := ha
    split at hs
    · cases hs
      exact hload dstTail ho (by rw [hpc]; rfl)
    · next hcas =>
      rw [not_or, not_not] at hcas
      have hwrap : (s.queue src).real < seen + 2 ^ 32 := by
        simp only [NoWrap, hpc] at hok
        exact hok
      obtain ⟨hst, hre⟩ := pack_inj ((hgs.head.symm.trans hcas.2).trans hprev)
      have he1 : seen = (s.queue src).real := pos_inj hre.symm hseen hwrap
      have he : (s.queue src).steal = (s.queue src).real :=
        pos_inj (hst.trans hre.symm) h1 (by omega)
      obtain ⟨hn1, hn, hlast⟩ := hfresh he1.symm
      cases hs
      have hnext : pos seen + n = pos ((s.queue src).real + n.toNat) := by
        rw [← he1, ← pos_add, pos_toNat]
      simp only [hprev, unpack_pack, hnext]
      rw [he1, ← he]
      have := h.claimsSlots dstTail n hsrc ho he hn1 hn (by omega) (by rw [hpc]; rfl)
      rwa [← he] at this

/-- `steal_into` from the claim on. -/
theorem Inv.stealCopy (h : Inv s) {b : Bool} {t : State W T} {src : W} {dstTail n : U32}
    (hpc : (∃ first i, s.pc w = .stealRead src dstTail first n i) ∨
      (∃ first i task, s.pc w = .stealWrite src dstTail first n i task) ∨
      ∃ prev, s.pc w = .stealRelease src dstTail n prev)
    (hs : stepPc s w b = some t) : Keeps s t := by
  have ho := h.own w
  have ha := h.across w src (by
    rcases hpc with ⟨_, _, hpc⟩ | ⟨_, _, _, hpc⟩ | ⟨_, hpc⟩ <;> rw [hpc] <;> rfl)
  have hgs := h.geo src
  obtain ⟨hsrc, ha⟩ := ha
  rcases hpc with ⟨first, i, hpc⟩ | ⟨first, i, task, hpc⟩ | ⟨prev, hpc⟩ <;> rw [hpc] at ho ha <;>
    simp only [stepPc, hpc] at hs
  · obtain ⟨rfl, hreal, hi, hcopy⟩ := ha
    split at hs
    · next hlt =>
      cases hs
      refine h.goTo ho ?_ (by rw [hpc]; exact fun _ hc => hc) (by rw [hpc]; rfl)
      rintro x ⟨⟩
      refine ⟨hsrc, rfl, hreal, hlt, hcopy, ?_⟩
      rw [pos_add_ofNat, slot_pos]
    · next hge =>
      cases hs
      refine h.goTo ho ?_ (by rw [hpc]; exact fun _ hc => hc) (by rw [hpc]; rfl)
      rintro x ⟨⟩
      have hin : i = n.toNat := by omega
      exact ⟨hsrc, hreal, hin ▸ hcopy⟩
  · obtain ⟨rfl, hreal, hi, hcopy, rfl⟩ := ha
    obtain ⟨⟨rfl, hroom⟩, hn1, hn⟩ := ho
    have hg := h.geo w
    have h1 := hg.steal_le
    have h2 := hg.real_le
    cases hs
    rw [pos_add_ofNat]
    have hsame : (Function.update s.queue w ((s.queue w).write (pos ((s.queue w).last + i))
        ((s.queue src).buffer (slotAt ((s.queue src).steal + i))))) src = s.queue src :=
      Function.update_of_ne hsrc ..
    refine h.writes (by omega) (by omega) ⟨⟨rfl, hroom⟩, hn1, hn⟩ ?_ (by rw [hpc]; exact fun _ hc => hc) ?_
    · rintro x ⟨⟩
      refine ⟨hsrc, rfl, hreal, hi, ?_⟩
      rw [region_succ, region_succ]
      show region ((s.queue w).write _ _) (s.queue w).last i ++
        [((s.queue w).write _ _).buffer (slotAt ((s.queue w).last + i))] = _
      rw [region_write _ (Nat.le_refl _) (by omega), write_buffer_self, hcopy]
    · rw [hpc]
      simp only [hand, hsame]
  · split at hs
    · cases hs
      refine h.goTo ho ?_ (by rw [hpc]; exact fun _ hc => hc) (by rw [hpc]; rfl)
      rintro x ⟨⟩
      exact ⟨hsrc, ha⟩
    · next hcas =>
      rw [not_or, not_not] at hcas
      cases hs
      rw [← hcas.2, hgs.head, unpack_pack]
      exact h.gives hpc

/-- The end of `steal_into`: the last task is returned, the others published. -/
theorem Inv.stealPublish (h : Inv s) {b : Bool} {t : State W T}
    (hpc : (∃ dstTail n, s.pc w = .stealTake dstTail n) ∨
      ∃ dstNewTail result, s.pc w = .stealStore dstNewTail result)
    (hs : stepPc s w b = some t) : Keeps s t := by
  have ho := h.own w
  have hg := h.geo w
  rcases hpc with ⟨dstTail, n, hpc⟩ | ⟨dstNewTail, result, hpc⟩ <;> rw [hpc] at ho <;>
    simp only [stepPc, hpc] at hs
  · obtain ⟨rfl, hn1, hn, hroom⟩ := ho
    have hsub : (n - 1).toNat = n.toNat - 1 := by
      rw [BitVec.toNat_sub]
      show (2 ^ 32 - 1 + n.toNat) % 2 ^ 32 = _
      omega
    have hnew : pos (s.queue w).last + (n - 1) = pos ((s.queue w).last + (n.toNat - 1)) := by
      rw [← pos_add, ← hsub, pos_toNat]
    have hlast : region (s.queue w) (s.queue w).last n.toNat =
        region (s.queue w) (s.queue w).last (n.toNat - 1) ++
          [(s.queue w).buffer (slotAt ((s.queue w).last + (n.toNat - 1)))] := by
      rw [← region_succ]
      congr 1
      omega
    rw [hnew, slot_pos] at hs
    split at hs
    · next h0 =>
      cases hs
      refine h.returns ?_
      have hn0 : n.toNat - 1 = 0 := by
        rw [← hsub, h0]
        rfl
      rw [hpc]
      show region (s.queue w) (s.queue w).last n.toNat = _
      rw [hlast, hn0]
      rfl
    · cases hs
      refine h.goTo ⟨n.toNat - 1, rfl, by omega, by omega⟩ nofun nofun ?_
      rw [hpc]
      show region (s.queue w) (s.queue w).last
        (pos ((s.queue w).last + (n.toNat - 1)) - (s.queue w).tail).toNat ++ _ = _
      rw [hg.tail, sub_toNat (by omega) (by omega), Nat.add_sub_cancel_left, ← hlast]
      rfl
  · obtain ⟨k, rfl, hk, hroom⟩ := ho
    cases hs
    have hsub : (pos ((s.queue w).last + k) - (s.queue w).tail).toNat = k := by
      rw [hg.tail, sub_toNat (by omega) (by omega)]
      omega
    rw [hsub]
    refine h.stores rfl hroom ?_
    rw [hpc]
    show region _ _ (pos ((s.queue w).last + k) - (s.queue w).tail).toNat ++ _ = _
    rw [hsub]

theorem Inv.stepPc (h : Inv s) {b : Bool} {t : State W T} (hs : stepPc s w b = some t)
    (hok : NoWrap s (.step w b) t) : Keeps s t := by
  cases hpc : s.pc w with
  | idle => simp [WorkStealing.stepPc, hpc] at hs
  | failed => simp [WorkStealing.stepPc, hpc] at hs
  | remHead => exact h.remainingSlots (Or.inl hpc) hs
  | remTail steal => exact h.remainingSlots (Or.inr ⟨_, hpc⟩) hs
  | batchHead tasks => exact h.pushBatch (Or.inl hpc) hs
  | batchTail tasks steal => exact h.pushBatch (Or.inr (Or.inl ⟨_, hpc⟩)) hs
  | batchWrite tasks i tail => exact h.pushBatch (Or.inr (Or.inr ⟨_, _, hpc⟩)) hs
  | pushHead task => exact h.push (Or.inl hpc) hs
  | pushTail task head => exact h.push (Or.inr (Or.inl ⟨_, hpc⟩)) hs
  | pushGlobal task => exact h.push (Or.inr (Or.inr (Or.inl hpc))) hs
  | pushWrite task tail => exact h.push (Or.inr (Or.inr (Or.inr (Or.inl ⟨_, hpc⟩)))) hs
  | pushStore task tail => exact h.push (Or.inr (Or.inr (Or.inr (Or.inr ⟨_, hpc⟩)))) hs
  | overflowCas task head tail => exact h.pushOverflow (Or.inl ⟨_, _, hpc⟩) hs
  | overflowRead task head tasks => exact h.pushOverflow (Or.inr ⟨_, _, hpc⟩) hs
  | popHead => exact h.pop (Or.inl hpc) hs
  | popTail head => exact h.pop (Or.inr (Or.inl ⟨_, hpc⟩)) hs
  | popCas head => exact h.pop (Or.inr (Or.inr (Or.inl ⟨_, hpc⟩))) hs
  | popRead real => exact h.pop (Or.inr (Or.inr (Or.inr ⟨_, hpc⟩))) hs
  | stealDstHead src => exact h.stealClaim (Or.inl hpc) hs hok
  | stealDstTail src steal => exact h.stealClaim (Or.inr (Or.inl ⟨_, hpc⟩)) hs hok
  | stealHead src dstTail => exact h.stealClaim (Or.inr (Or.inr (Or.inl ⟨_, hpc⟩))) hs hok
  | stealTail src dstTail prev seen =>
    exact h.stealClaim (Or.inr (Or.inr (Or.inr (Or.inl ⟨_, _, _, hpc⟩)))) hs hok
  | stealCas src dstTail prev n seen =>
    exact h.stealClaim (Or.inr (Or.inr (Or.inr (Or.inr ⟨_, _, _, _, hpc⟩)))) hs hok
  | stealRead src dstTail first n i => exact h.stealCopy (Or.inl ⟨_, _, hpc⟩) hs
  | stealWrite src dstTail first n i task => exact h.stealCopy (Or.inr (Or.inl ⟨_, _, _, hpc⟩)) hs
  | stealRelease src dstTail n prev => exact h.stealCopy (Or.inr (Or.inr ⟨_, hpc⟩)) hs
  | stealTake dstTail n => exact h.stealPublish (Or.inl ⟨_, _, hpc⟩) hs
  | stealStore dstNewTail result => exact h.stealPublish (Or.inr ⟨_, _, hpc⟩) hs

omit [DecidableEq W] in
/-- Calls on the global queue. -/
theorem Inv.atGlobal (h : Inv s) {global : GlobalQueue T} {handed returned dropped : List T}
    (hbal : ∀ a [DecidableEq T], global.tasks.count a + returned.count a + dropped.count a +
        s.handed.count a = s.global.tasks.count a + s.returned.count a + s.dropped.count a +
        handed.count a)
    (hnum : global.num = global.tasks.length)
    (hdropped : global.isClosed = false → dropped = []) :
    Keeps s { s with global, handed, returned, dropped } := by
  classical
  refine ⟨⟨h.geo, h.own, h.across, h.unique, ?_, hnum, hdropped⟩, fun _ _ _ _ => rfl⟩
  ext a
  have h1 := congrArg (Multiset.count a) h.conserved
  have h2 := hbal a
  simp only [places, Multiset.count_add, Multiset.coe_count] at h1 ⊢
  omega

omit [DecidableEq W] in
theorem Inv.handsIn (h : Inv s) (tasks : List T) :
    Keeps s { s with
      handed := s.handed ++ tasks
      global := s.global.pushBatch tasks tasks.length
      dropped := if s.global.isClosed then s.dropped ++ tasks else s.dropped } := by
  refine h.atGlobal (fun a _ => ?_) (pushBatch_num h.num tasks) fun hc => ?_
  · have := count_pushBatch s.global tasks s.dropped tasks.length a
    rw [List.count_append]
    omega
  · have hc' : s.global.isClosed = false := (pushBatch_isClosed ..).symm.trans hc
    rw [hc']
    exact h.dropped hc'

theorem Inv.startCall (h : Inv s) {p : Pc W T} {tasks : List T} {t : State W T}
    (hs : call { s with handed := s.handed ++ tasks } w p = some t) (hown : Own (s.queue w) p)
    (hacross : ∀ src, p.src = some src → src ≠ w ∧ Across (s.queue w) (s.queue src) p)
    (hclaims : p.claims = none) (hhand : hand s.queue (s.queue w) p = tasks) : Keeps s t := by
  unfold call at hs
  split at hs
  · next hw =>
    cases hs
    exact h.calls hw hown hacross hclaims hhand
  · cases hs

/-- **Every step.** -/
theorem keeps_step (s : State W T) (a : Act W T) (t : State W T) (h : Inv s)
    (hs : step s a = some t) (hok : NoWrap s a t) : Keeps s t := by
  have hnil : ∀ w p, call s w p = call { s with handed := s.handed ++ [] } w p := by
    intro w p
    rw [List.append_nil]
  cases a with
  | remainingSlots w =>
    simp only [step, hnil] at hs
    exact h.startCall hs trivial nofun rfl rfl
  | pushBatch w tasks =>
    simp only [step, Option.ite_none_right_eq_some] at hs
    obtain ⟨⟨-, hlen⟩, hs⟩ := hs
    exact h.startCall hs hlen nofun rfl rfl
  | pushBackOrOverflow w task => exact h.startCall hs trivial nofun rfl rfl
  | pop w =>
    simp only [step, hnil] at hs
    exact h.startCall hs trivial nofun rfl rfl
  | stealInto src w =>
    simp only [step, Option.ite_none_left_eq_some, hnil] at hs
    obtain ⟨hsrc, hs⟩ := hs
    exact h.startCall hs trivial (by rintro x ⟨⟩; exact ⟨hsrc, trivial⟩) rfl rfl
  | step w b => exact h.stepPc hs hok
  | globalPush task =>
    cases hs
    exact h.handsIn [task]
  | globalPushBatch tasks =>
    cases hs
    exact h.handsIn tasks
  | globalPop =>
    cases hs
    have hn := h.num
    cases hg : s.global.tasks with
    | nil =>
      refine h.atGlobal (fun a _ => ?_) ?_ ?_
      · simp [hg]
      · simpa [GlobalQueue.pop, hg] using hn
      · simpa [GlobalQueue.pop, hg] using h.dropped
    | cons task rest =>
      refine h.atGlobal (fun a _ => ?_) ?_ ?_
      · simp only [hg, List.count_append, Option.toList_some, List.count_cons, List.count_nil]
        omega
      · simp [hg, hn]
      · simpa [GlobalQueue.pop, hg] using h.dropped
  | globalPopN n =>
    cases hs
    have hn := h.num
    refine h.atGlobal (fun a _ => ?_) ?_ h.dropped
    · have := congrArg (List.count a) (List.take_append_drop (min s.global.num n) s.global.tasks)
      simp only [List.count_append] at this ⊢
      omega
    · simp [hn]
  | globalClose =>
    cases hs
    exact h.atGlobal (fun _ _ => rfl) h.num nofun

/-! ## Top theorem -/

/-- **Conservation.**  For any number of workers and every interleaving of any
length in which `head_` does not advance `2^32` between a thief's load and its
CAS, no step overwrites a live or claimed slot, and after it every task is in
one place, every queue holds at most 256 and no assertion has failed. -/
theorem tasks_conserved [Inhabited T] (as : List (Act W T)) (h : EachStep step NoWrap init as) :
    EachStep step (fun s _ t => Untouched s t ∧ Sound t) init as := by
  refine eachStep_of_inv Inv (fun s a t hi hs hok => (keeps_step s a t hi hs hok).inv) ?_ inv_init h
  intro s a t hi hs hok
  have hk := keeps_step s a t hi hs hok
  exact ⟨hk.untouched, hk.inv.sound⟩

/-- Two pushes; a thief takes one task while the owner pops the other, and the
owner's CAS fails once because of the thief's. -/
def stealRun : List (Act Bool Nat) :=
  [.pushBackOrOverflow true 7, .step true false, .step true false, .step true false,
   .step true false, .pushBackOrOverflow true 8, .step true false, .step true false,
   .step true false, .step true false, .stealInto true false, .step false false,
   .step false false, .step false false, .step false false, .pop true, .step true false,
   .step true false, .step false false, .step true false, .step false false, .step true false,
   .step true false, .step true false, .step false false, .step false false, .step false true,
   .step false false, .step false false]

theorem stealRun_conserved :
    ((run step init stealRun).map (·.returned) = some [8, 7]) ∧
      EachStep step (fun s _ t => Untouched s t ∧ Sound t) (init : State Bool Nat) stealRun :=
  ⟨by decide +kernel, tasks_conserved stealRun (by decide +kernel)⟩

end Kosio.Runtime.WorkStealing
