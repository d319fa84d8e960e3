import Kosio.Io.Descriptor
import Mathlib.Algebra.Order.Group.Multiset

/-!
# `FD`: every open descriptor has one owner

What `Descriptor` promises, over any run.  A step lets descriptors change hands
between two owners, or opens one, or closes one; `Moves` is the first, and does not
ask what is open.  So a `::close` that is not the owner's leaves the owner with a
number that is not open: the two exceptions are exact (`oneOwner_step`,
`not_oneOwner_step`).

Two facts about the objects carry this: the `other` of an assignment is left alone
until `do_close` is done (`Lent`), and a half keeps its stream alive (`Kept`).
-/

namespace Kosio.Descriptor

open Function Ownership Steps

/-! ## What the parts of a step do -/

theorem valid_append (l m : List Int) : valid (l ++ m) = valid l + valid m := by
  rw [valid, ← Multiset.coe_add, Multiset.filter_add]
  rfl

theorem valid_erase {l : List Int} {fd : Int} (h : fd ∈ l) :
    valid [fd] + valid (l.erase fd) = valid l := by
  rw [← valid_append, List.singleton_append, valid, valid,
    Multiset.coe_eq_coe.2 (List.perm_cons_erase h).symm]

@[simp] theorem valid_nil : valid [] = 0 := rfl

theorem valid_singleton {fd : Int} (h : 0 ≤ fd) : valid [fd] = {fd} := by
  simp [valid, h]

theorem valid_neg {fd : Int} (h : fd < 0) : valid [fd] = 0 := by
  simp [valid, h]

@[simp] theorem valid_minus_one : valid [-1] = 0 := valid_neg (by omega)

theorem nonneg_of_mem_valid {l : List Int} {fd : Int} (h : fd ∈ valid l) : 0 ≤ fd :=
  (Multiset.mem_filter.1 h).2

section Parts

variable (s : State) {x y c : Nat} {o : Obj} {p : Owner}

@[simp] theorem put_objs_self : (s.put x o).objs x = some o := update_self ..

theorem put_objs_of_ne (h : y ≠ x) : (s.put x o).objs y = s.objs y := update_of_ne h ..

@[simp] theorem erase_objs_self : (s.erase x).objs x = none := update_self ..

theorem erase_objs_of_ne (h : y ≠ x) : (s.erase x).objs y = s.objs y := update_of_ne h ..

@[simp] theorem holds_put : (s.put x o).holds (.obj x) = valid o.fds := by
  simp [State.holds, State.fds, State.put]

@[simp] theorem holds_erase : (s.erase x).holds (.obj x) = 0 := by
  simp [State.holds, State.fds, State.erase]

theorem holds_put_minus_one : (s.put x { fd := -1 }).holds (.obj x) = 0 :=
  (holds_put s).trans valid_minus_one

theorem holds_put_of_ne (h : p ≠ .obj x) : (s.put x o).holds p = s.holds p := by
  cases p with
  | obj y =>
    have hy : y ≠ x := fun hy => h (by rw [hy])
    simp [State.holds, State.fds, State.put, update_of_ne hy]
  | _ => rfl

theorem holds_erase_of_ne (h : p ≠ .obj x) : (s.erase x).holds p = s.holds p := by
  cases p with
  | obj y =>
    have hy : y ≠ x := fun hy => h (by rw [hy])
    simp [State.holds, State.fds, State.erase, update_of_ne hy]
  | _ => rfl

@[simp] theorem holds_setConn (k : Option Connect) :
    (s.setConn c k).holds (.conn c) = valid ((k.map Connect.fds).getD []) := by
  simp [State.holds, State.fds, State.setConn]

theorem holds_setConn_of_ne (k : Option Connect) (h : p ≠ .conn c) :
    (s.setConn c k).holds p = s.holds p := by
  cases p with
  | conn d =>
    have hd : d ≠ c := fun hd => h (by rw [hd])
    simp [State.holds, State.fds, State.setConn, update_of_ne hd]
  | _ => rfl

@[simp] theorem holds_kernelClose (fd : Int) : (s.kernelClose fd).holds = s.holds := rfl

theorem holds_obj (h : s.objs x = some o) : s.holds (.obj x) = valid o.fds := by
  simp [State.holds, State.fds, h]

theorem holds_obj_none (h : s.objs x = none) : s.holds (.obj x) = 0 := by
  simp [State.holds, State.fds, h]

theorem holds_conn {k : Connect} (h : s.conns c = some k) : s.holds (.conn c) = valid k.fds := by
  simp [State.holds, State.fds, h]

end Parts

/-! ## Invariant -/

/-- Descriptors change hands at most. -/
structure Moves (s t : State) : Prop where
  isOpen : t.isOpen = s.isOpen
  owned : ∀ {live : Int → Prop}, Owned live s.holds → Owned live t.holds

/-- The other object of an `operator=` is left alone. -/
def Lent (s : State) : Prop :=
  ∀ x y o i, s.objs x = some o → o.phase = .closing i (.assigned y) → y ≠ x →
    ∃ fd, s.objs y = some { fd, phase := .lent x }

/-- `fd_` of what `k` takes from is what it holds. -/
def Whole (s : State) (x : Nat) : After → Prop
  | .destroyed => True
  | .assigned y => y ≠ x → ∀ o, s.objs y = some o → o.fds = [o.fd]

/-- A half that has a stream keeps it alive. -/
def Kept (s : State) : Prop :=
  ∀ stream, Half.owns stream ∈ s.halves → ∃ fd, s.objs stream = some { fd, shared := true }

structure Inv (s : State) : Prop where
  lent : Lent s
  kept : Kept s

section Moves

variable {s t u : State} {x y : Nat} {o : Obj} {k : After}

theorem Moves.trans (h : Moves s t) (h' : Moves t u) : Moves s u :=
  ⟨h'.isOpen.trans h.isOpen, fun ho => h'.owned (h.owned ho)⟩

theorem Moves.of_eq (hopen : t.isOpen = s.isOpen) (h : ∀ p, t.holds p = s.holds p) :
    Moves s t := by
  refine ⟨hopen, fun {live} ho => ?_⟩
  rwa [show t.holds = s.holds from funext h]

/-- What two owners have is divided anew. -/
theorem Moves.of_pair (p q : Owner) (hpq : p ≠ q) (hopen : t.isOpen = s.isOpen)
    (hother : ∀ r, r ≠ p → r ≠ q → t.holds r = s.holds r)
    (h : t.holds p + t.holds q = s.holds p + s.holds q) : Moves s t :=
  ⟨hopen, fun ho => ho.move hpq hother h fun _ => Iff.rfl⟩

theorem Moves.oneOwner (h : Moves s t) (hs : OneOwner s) : OneOwner t := by
  have ht := h.owned hs
  rwa [← h.isOpen] at ht

theorem obj_ne (h : x ≠ y) : Owner.obj x ≠ .obj y := fun he => h (Owner.obj.inj he)

/-- A new state for the object, with the same descriptor. -/
theorem moves_put (h : s.holds (.obj x) = valid o.fds) : Moves s (s.put x o) := by
  refine .of_eq rfl fun p => ?_
  by_cases hp : p = .obj x
  · rw [hp, holds_put, h]
  · exact holds_put_of_ne s hp

theorem moves_erase (h : s.holds (.obj x) = 0) : Moves s (s.erase x) := by
  refine .of_eq rfl fun p => ?_
  by_cases hp : p = .obj x
  · rw [hp, holds_erase, h]
  · exact holds_erase_of_ne s hp

theorem moves_setConn {c : Nat} {k : Option Connect}
    (h : s.holds (.conn c) = valid ((k.map Connect.fds).getD [])) : Moves s (s.setConn c k) := by
  refine .of_eq rfl fun p => ?_
  by_cases hp : p = .conn c
  · rw [hp, holds_setConn, h]
  · exact holds_setConn_of_ne s k hp

/-- An object that has no descriptor takes over `y`'s. -/
theorem moves_pass {fd : Int} {shared shared' : Bool} (hx : s.holds (.obj x) = 0)
    (hy : s.holds (.obj y) = valid [fd]) (hne : x ≠ y) :
    Moves s ((s.put x { fd, shared }).put y { fd := -1, shared := shared' }) := by
  refine .of_pair (.obj x) (.obj y) (obj_ne hne) rfl (fun r hr hr' => ?_) ?_
  · rw [holds_put_of_ne _ hr', holds_put_of_ne _ hr]
  · rw [holds_put, holds_put_of_ne _ (obj_ne hne), holds_put, hx, hy]
    show valid [fd] + valid [-1] = 0 + valid [fd]
    rw [valid_minus_one, add_comm]

/-- An object gives up its number to a list. -/
theorem moves_give {fd : Int} (q : Owner) (hx : s.holds (.obj x) = valid [fd])
    (hq : Owner.obj x ≠ q) (hopen : t.isOpen = s.isOpen)
    (hother : ∀ r, r ≠ .obj x → r ≠ q → t.holds r = s.holds r) (htx : t.holds (.obj x) = 0)
    (htq : t.holds q = s.holds q + valid [fd]) : Moves s t := by
  refine .of_pair (.obj x) q hq hopen hother ?_
  rw [htx, htq, hx, zero_add, add_comm]

theorem moves_giveUp {fd : Int} (hx : s.objs x = some { fd }) (request : Request) :
    Moves s (s.giveUp x fd request) := by
  have hgive : ∀ {t : State} (q : Owner), Owner.obj x ≠ q → t.isOpen = s.isOpen →
      (∀ r, r ≠ .obj x → r ≠ q → t.holds r = (s.put x { fd := -1 }).holds r) →
      t.holds (.obj x) = (s.put x { fd := -1 }).holds (.obj x) →
      t.holds q = s.holds q + valid [fd] → Moves s t := by
    intro t q hq hopen hother htx htq
    refine moves_give q (holds_obj s hx) hq hopen (fun r hr hr' => ?_) ?_ htq
    · rw [hother r hr hr', holds_put_of_ne s hr]
    · rw [htx, holds_put_minus_one]
  cases request with
  | plain =>
    refine hgive .pending (fun he => by cases he) rfl (fun r _ hr => ?_) rfl (valid_append _ _)
    cases r with
    | pending => exact absurd rfl hr
    | _ => rfl
  | timed =>
    refine hgive .timed (fun he => by cases he) rfl (fun r _ hr => ?_) rfl (valid_append _ _)
    cases r with
    | timed => exact absurd rfl hr
    | _ => rfl
  | none =>
    refine hgive .lost (fun he => by cases he) rfl (fun r _ hr => ?_) rfl (valid_append _ _)
    cases r with
    | lost => exact absurd rfl hr
    | _ => rfl

theorem moves_take (hx : s.holds (.obj x) = 0)
    (hy : y ≠ x → ∀ o, s.objs y = some o → o.fds = [o.fd]) : Moves s (s.take x y) := by
  unfold State.take
  split
  · exact .of_eq rfl fun _ => rfl
  · rename_i o ho
    by_cases hne : y = x
    · subst hne
      have hput : ∀ r, r ≠ .obj y →
          ((s.put y { fd := o.fd }).put y { fd := -1 }).holds r = s.holds r := by
        intro r hr
        rw [holds_put_of_ne _ hr, holds_put_of_ne _ hr]
      refine .of_eq rfl fun p => ?_
      by_cases hp : p = .obj y
      · rw [hp, holds_put, hx]
        exact valid_minus_one
      · exact hput p hp
    · apply moves_pass hx _ (Ne.symm hne)
      rw [holds_obj s ho, hy hne o ho]

/-- The object has nothing any more, and goes on after `do_close`. -/
theorem moves_afterClose (hx : s.holds (.obj x) = 0) (hk : Whole s x k) :
    Moves s (s.afterClose x k) := by
  cases k with
  | destroyed => exact moves_erase hx
  | assigned y =>
    have hput : Moves s (s.put x { fd := -1 }) := moves_put (hx.trans valid_minus_one.symm)
    refine hput.trans (moves_take ?_ fun hne o ho => ?_)
    · rw [holds_put]
      exact valid_minus_one
    · rw [put_objs_of_ne s hne] at ho
      exact hk hne o ho

/-- What the object was does not matter. -/
theorem afterClose_put : (s.put x o).afterClose x k = s.afterClose x k := by
  cases k <;> simp [State.afterClose, State.erase, State.put, update_idem]

theorem whole_put (h : Whole s x k) : Whole (s.put x o) x k := by
  cases k with
  | destroyed => trivial
  | assigned y =>
    intro hne o' ho
    rw [put_objs_of_ne s hne] at ho
    exact h hne o' ho

theorem moves_doClose (hx : s.objs x = some o) (ho : o.fds = [o.fd]) (sqe : Bool)
    (hk : Whole s x k) : Moves s (s.doClose x o sqe k) := by
  unfold State.doClose
  cases sqe with
  | false =>
    apply moves_put
    rw [holds_obj s hx, ho]
    rfl
  | true =>
    -- the number goes to the kernel, with the object left at `-1`
    have hpend : Moves s { s.put x { fd := -1 } with pending := s.pending ++ [o.fd] } := by
      refine moves_give .pending ?_ (fun he => by cases he) rfl (fun r hr hr' => ?_)
        (holds_put_minus_one s) (valid_append _ _)
      · rw [holds_obj s hx, ho]
      · cases r with
        | obj z => exact holds_put_of_ne s hr
        | pending => exact absurd rfl hr'
        | _ => rfl
    refine hpend.trans ?_
    have hback : ({ s with pending := s.pending ++ [o.fd] }.afterClose x k) =
        { s.put x { fd := -1 } with pending := s.pending ++ [o.fd] }.afterClose x k :=
      (afterClose_put (s := { s with pending := s.pending ++ [o.fd] })).symm
    rw [if_pos rfl, hback]
    apply moves_afterClose
    · show (s.put x { fd := -1 }).holds (.obj x) = 0
      rw [holds_put]
      exact valid_minus_one
    · exact whole_put (s := { s with pending := s.pending ++ [o.fd] }) (by cases k <;> exact hk)

end Moves

/-! ## Who owns what -/

section OneOwner

variable {s t : State} {x y c : Nat} {o : Obj} {k : After} {fd : Int}

theorem update_true_iff {f : Int → Bool} {z : Int} :
    update f fd true z = true ↔ z ∈ ({fd} : Multiset Int) ∨ f z = true := by
  by_cases hz : z = fd <;> simp [hz]

theorem update_false_iff {f : Int → Bool} {z : Int} :
    update f fd false z = true ↔ f z = true ∧ z ≠ fd := by
  by_cases hz : z = fd <;> simp [hz]

theorem OneOwner.not_open_of_neg (h : OneOwner s) (hfd : fd < 0) : s.isOpen fd = false := by
  rw [Bool.eq_false_iff]
  intro hopen
  obtain ⟨p, hp⟩ := (h.live_iff fd).1 hopen
  have := nonneg_of_mem_valid hp
  omega

/-- Owner `p` gets the descriptor that the kernel opens. -/
theorem OneOwner.opens (h : OneOwner s) (p : Owner) (hp : p ≠ .lost) (h0 : 0 ≤ fd)
    (hfd : s.isOpen fd = false) (hopen : t.isOpen = update s.isOpen fd true)
    (hother : ∀ r, r ≠ p → t.holds r = s.holds r)
    (hholds : t.holds p = valid [fd] + s.holds p) : OneOwner t := by
  refine h.alloc (c := {fd}) hp (fun r hr _ => hother r hr) (Multiset.nodup_singleton _) ?_ ?_ ?_
  · intro z hz
    rw [Multiset.mem_singleton.1 hz, hfd]
    exact Bool.false_ne_true
  · rw [hholds, hother _ (Ne.symm hp), valid_singleton h0, add_assoc]
  · intro z
    rw [hopen]
    exact update_true_iff

/-- The kernel closes the number, and `p` does not hold it any more. -/
theorem OneOwner.closes (h : OneOwner s) (p : Owner)
    (hopen : t.isOpen = update s.isOpen fd false) (hother : ∀ r, r ≠ p → t.holds r = s.holds r)
    (hholds : s.holds p = valid [fd] + t.holds p) : OneOwner t := by
  rcases lt_or_ge fd 0 with hneg | h0
  · have hsame : Moves s t := by
      refine .of_eq ?_ fun r => ?_
      · rw [hopen, update_eq_self_iff, h.not_open_of_neg hneg]
      · by_cases hr : r = p
        · rw [hr, hholds, valid_neg hneg, zero_add]
        · exact hother r hr
    exact hsame.oneOwner h
  · refine Owned.free (c := fd) h hother ?_ fun z => ?_
    · rw [hholds, valid_singleton h0]
      rfl
    · rw [hopen]
      exact update_false_iff

/-- Closing what is somebody's leaves them with a number that is not open. -/
theorem OneOwner.broken (h : Owned (fun z => s.isOpen z = true) t.holds)
    (hopen : t.isOpen = update s.isOpen fd false) (hfd : s.isOpen fd = true) : ¬ OneOwner t := by
  intro ht
  obtain ⟨p, hp⟩ := (h.live_iff fd).1 hfd
  have hlive := ht.live_of_mem hp
  rw [hopen, update_self] at hlive
  cases hlive

/-! ### `do_close` -/

theorem moves_destroy (hx : s.objs x = some o) (ho : o.fds = [o.fd]) (sqe : Bool) :
    Moves s (s.destroy x o sqe) := by
  unfold State.destroy
  split
  · exact moves_doClose hx ho sqe trivial
  · apply moves_erase
    rw [holds_obj s hx, ho]
    exact valid_neg (by omega)

/-- The state in which the number has been closed for object `x`. -/
def spent (s : State) (x : Nat) (o : Obj) (i : Nat) (k : After) : State :=
  (s.kernelClose o.fd).put x { o with phase := .closing (i + 1) k }

theorem attempt_eq (i : Nat) (fails : Bool) :
    attempt s x o i k fails = spent s x o i k ∨
      attempt s x o i k fails = (spent s x o i k).afterClose x k := by
  unfold attempt spent
  rw [afterClose_put]
  split
  · exact .inr rfl
  · exact .inl rfl

theorem moves_spent (hk : Whole s x k) (i : Nat) (fails : Bool) :
    Moves (spent s x o i k) (attempt s x o i k fails) := by
  rcases attempt_eq (s := s) (x := x) (o := o) (k := k) i fails with h | h
  · rw [h]
    exact .of_eq rfl fun _ => rfl
  · rw [h]
    apply moves_afterClose
    · exact holds_put (s := s.kernelClose o.fd)
    · exact whole_put (s := s.kernelClose o.fd) (by cases k <;> exact hk)

theorem holds_spent_of_ne {p : Owner} (i : Nat) (hp : p ≠ .obj x) :
    (spent s x o i k).holds p = s.holds p :=
  holds_put_of_ne (s.kernelClose o.fd) hp

theorem holds_spent (i : Nat) : (spent s x o i k).holds (.obj x) = 0 :=
  holds_put (s.kernelClose o.fd)

/-- The first `::close` of a loop is by the owner. -/
theorem OneOwner.first (h : OneOwner s) (hx : s.objs x = some o)
    (ho : o.phase = .closing 0 k) : OneOwner (spent s x o 0 k) := by
  refine h.closes (.obj x) rfl (fun r hr => holds_spent_of_ne 0 hr) ?_
  rw [holds_obj s hx, holds_spent, add_zero, Obj.fds, ho]

/-- Any other is by nobody's. -/
theorem holds_spent_again (hx : s.objs x = some o) {i : Nat} (ho : o.phase = .closing (i + 1) k) :
    ∀ p, (spent s x o (i + 1) k).holds p = s.holds p := by
  intro p
  by_cases hp : p = .obj x
  · rw [hp, holds_spent, holds_obj s hx, Obj.fds, ho]
    rfl
  · exact holds_spent_of_ne _ hp

/-! ### Halves -/

theorem moves_halves (l : List Half) : Moves s { s with halves := l } :=
  .of_eq rfl fun p => by cases p <;> rfl

theorem moves_faulty : Moves s s.faulty := .of_eq rfl fun p => by cases p <;> rfl

theorem moves_dropHalf {a stream : Nat} (hs : s.objs stream = some { fd, shared := true })
    (sqe : Bool) : Moves s (dropHalf s a stream sqe) := by
  unfold dropHalf
  have hhalves := moves_halves (s := s) (s.halves.set a .gone)
  rw [hs]
  dsimp only
  split
  · exact hhalves
  · exact hhalves.trans (moves_destroy (s := { s with halves := s.halves.set a .gone }) hs rfl sqe)

theorem moves_reunite {a b stream : Nat} (hs : s.objs stream = some { fd, shared := true })
    (hx : s.objs x = none) : Moves s (reunite s a b stream x) := by
  unfold reunite
  rw [hs]
  have hne : x ≠ stream := by
    rintro rfl
    rw [hx] at hs
    cases hs
  have hpass : Moves s ({ s with halves := (s.halves.set b .null).set a .null }.put x { fd } |>.put
      stream { fd := -1, shared := true }) :=
    (moves_halves _).trans (moves_pass (holds_obj_none _ hx) (holds_obj _ hs) hne)
  dsimp only
  split
  · exact hpass
  · refine hpass.trans (moves_erase ?_)
    rw [holds_put]
    exact valid_minus_one

/-! ### `Connect` -/

theorem OneOwner.resumed {result : Int} (h : OneOwner s) (hx : s.objs x = none)
    (hc : s.conns c = some (.done fd result)) : OneOwner (resume s c x fd result) := by
  have hconn : s.holds (.conn c) = valid [fd] := holds_conn s hc
  unfold resume
  dsimp only
  split
  · have hmoves : Moves s ((s.setConn c none).put x { fd }) := by
      refine .of_pair (.conn c) (.obj x) (fun he => by cases he) rfl ?_ ?_
      · intro r hr hr'
        rw [holds_put_of_ne _ hr', holds_setConn_of_ne _ _ hr]
      · rw [holds_put, holds_put_of_ne _ (fun he => by cases he), holds_setConn, hconn,
          holds_obj_none s hx, add_comm]
        rfl
    exact hmoves.oneOwner h
  · split
    · refine h.closes (.conn c) rfl (fun r hr => holds_setConn_of_ne s none hr) ?_
      rw [hconn, holds_kernelClose, holds_setConn]
      exact (add_zero _).symm
    · refine (moves_setConn ?_).oneOwner h
      rw [hconn]
      exact valid_neg (by omega)

theorem OneOwner.connects (h : OneOwner s) {k : Connect} (hc : s.conns c = some k)
    (hk : k.fds = []) (h0 : 0 ≤ fd) (hfd : s.isOpen fd = false) :
    OneOwner ({ s with isOpen := update s.isOpen fd true }.setConn c (some (.waiting fd))) := by
  refine h.opens (.conn c) (fun he => by cases he) h0 hfd rfl (fun r hr => ?_) ?_
  · exact holds_setConn_of_ne { s with isOpen := update s.isOpen fd true } _ hr
  · rw [holds_setConn, holds_conn s hc, hk]
    exact (add_zero _).symm

/-- What a `Connect` has in `fd_` before `await_suspend` is not its own. -/
theorem holds_resumed {k : Connect} {result : Int} (hc : s.conns c = some k) (hk : k.fds = [])
    (hr : result < 0) : ∀ p, (resume s c x fd result).holds p = s.holds p := by
  intro p
  have hsame : ∀ p, (s.setConn c none).holds p = s.holds p := by
    intro p
    by_cases hp : p = .conn c
    · rw [hp, holds_setConn, holds_conn s hc, hk]
      rfl
    · exact holds_setConn_of_ne s none hp
  unfold resume
  rw [if_neg (by omega)]
  split <;> exact hsame p

theorem moves_resumed {k : Connect} {result : Int} (hc : s.conns c = some k) (hk : k.fds = [])
    (hr : result < 0) (hfd : 0 ≤ fd → s.isOpen fd = false) :
    Moves s (resume s c x fd result) := by
  refine .of_eq ?_ (holds_resumed hc hk hr)
  unfold resume
  rw [if_neg (by omega)]
  split
  · rename_i h0
    show update s.isOpen fd false = s.isOpen
    rw [← hfd h0]
    exact update_eq_self ..
  · rfl

theorem OneOwner.robbed {k : Connect} {result : Int} (h : OneOwner s) (hc : s.conns c = some k)
    (hk : k.fds = []) (hr : result < 0) (h0 : 0 ≤ fd) (hopen : s.isOpen fd = true) :
    ¬ OneOwner (resume s c x fd result) := by
  refine OneOwner.broken ?_ ?_ hopen
  · rw [show State.holds (resume ..) = s.holds from funext (holds_resumed hc hk hr)]
    exact h
  · unfold resume
    rw [if_neg (by omega), if_pos h0]
    rfl

end OneOwner

/-! ### A step -/

theorem doClose_put {s : State} {x : Nat} {o o' : Obj} {sqe : Bool} {k : After} :
    (s.put x o').doClose x o sqe k = s.doClose x o sqe k := by
  cases sqe with
  | false => simp [State.doClose, State.put, update_idem]
  | true => exact afterClose_put (s := { s with pending := s.pending ++ [o.fd] })

theorem Lent.whole {s : State} {x i : Nat} {o : Obj} {k : After} (h : Lent s)
    (hx : s.objs x = some o) (ho : o.phase = .closing i k) : Whole s x k := by
  cases k with
  | destroyed => trivial
  | assigned y =>
    intro hne o' ho'
    obtain ⟨fd, hfd⟩ := h x y o i hx ho hne
    rw [hfd] at ho'
    cases ho'
    rfl

theorem oneOwner_step {s t : State} {a : Act} (hinv : Inv s) (h : OneOwner s) (hd : Does s a t)
    (hok : ¬ Foreign s a) : OneOwner t := by
  cases hd with
  | @opened x fd h0 hfd hx =>
    refine h.opens (.obj x) (fun he => by cases he) h0 hfd rfl (fun r hr => ?_) ?_
    · exact holds_put_of_ne { s with isOpen := update s.isOpen fd true } hr
    · rw [holds_put, holds_obj_none s hx, add_zero]
      rfl
  | @openRaw fd h0 hfd =>
    refine h.opens .raw (fun he => by cases he) h0 hfd rfl (fun r hr => ?_) ?_
    · cases r with
      | raw => exact absurd rfl hr
      | _ => rfl
    · exact (valid_append _ _).trans (add_comm _ _)
  | closeRaw hmem =>
    refine h.closes .raw rfl (fun r hr => ?_) (valid_erase hmem).symm
    cases r with
    | raw => exact absurd rfl hr
    | _ => rfl
  | @wrap x fd hmem hx =>
    have hwrap : Moves s ({ s with raw := s.raw.erase fd }.put x { fd }) := by
      refine .of_pair .raw (.obj x) (fun he => by cases he) rfl ?_ ?_
      · intro r hr hr'
        rw [holds_put_of_ne _ hr']
        cases r with
        | raw => exact absurd rfl hr
        | _ => rfl
      · rw [holds_put, holds_obj_none s hx, holds_put_of_ne _ (fun he => by cases he), add_zero,
          add_comm]
        exact valid_erase hmem
    exact hwrap.oneOwner h
  | @construct x other fd ho hx =>
    refine (moves_pass (holds_obj_none s hx) (holds_obj s ho) ?_).oneOwner h
    rintro rfl
    rw [hx] at ho
    cases ho
  | @assign x other sqe fd fd' hx ho h0 =>
    have hlend : Moves s (s.put other { fd := fd', phase := .lent x }) :=
      moves_put ((holds_obj s ho).trans rfl)
    by_cases hne : other = x
    · subst hne
      rw [doClose_put]
      exact (moves_doClose hx rfl sqe (k := .assigned other) fun hne => absurd rfl hne).oneOwner h
    · have hwhole : Whole (s.put other { fd := fd', phase := .lent x }) x (.assigned other) := by
        intro _ o ho'
        rw [put_objs_self] at ho'
        cases ho'
        rfl
      have hx' : (s.put other { fd := fd', phase := .lent x }).objs x = some { fd } := by
        rw [put_objs_of_ne s (Ne.symm hne), hx]
      exact (hlend.trans (moves_doClose hx' rfl sqe hwhole)).oneOwner h
  | assignEmpty hx ho h0 =>
    refine (moves_take ?_ fun _ o ho' => ?_).oneOwner h
    · rw [holds_obj s hx]
      exact valid_neg h0
    · rw [ho] at ho'
      cases ho'
      rfl
  | destroy hx => exact (moves_destroy hx rfl _).oneOwner h
  | @attempt x fails fd i k shared hx =>
    have hwhole : Whole s x k := hinv.lent.whole hx rfl
    cases i with
    | zero => exact (moves_spent hwhole 0 fails).oneOwner (h.first hx rfl)
    | succ i =>
      have hclosed : s.isOpen fd = false := by
        simpa [Foreign, hx] using hok
      have hsame : update s.isOpen fd false = s.isOpen := by
        rw [← hclosed]
        exact update_eq_self ..
      have hspent : Moves s (spent s x { fd, phase := .closing (i + 1) k, shared } (i + 1) k) :=
        .of_eq hsame (holds_spent_again hx rfl)
      exact (hspent.trans (moves_spent hwhole (i + 1) fails)).oneOwner h
  | close hx => exact (moves_giveUp hx _).oneOwner h
  | closeTimed hx => exact (moves_giveUp hx _).oneOwner h
  | @release x fd hx =>
    have hgive : Moves s { s.put x { fd := -1 } with raw := s.raw ++ [fd] } := by
      refine moves_give .raw (holds_obj s hx) (fun he => by cases he) rfl (fun r hr hr' => ?_)
        (holds_put_minus_one s) (valid_append _ _)
      cases r with
      | obj z => exact holds_put_of_ne s hr
      | raw => exact absurd rfl hr'
      | _ => rfl
    exact hgive.oneOwner h
  | @intoSplit x stream fd hx hs =>
    have hhalves := moves_halves (s := s) (s.halves ++ [Half.owns stream, .owns stream])
    refine (hhalves.trans (moves_pass (holds_obj_none _ hs) (holds_obj _ hx) ?_)).oneOwner h
    rintro rfl
    rw [hs] at hx
    cases hx
  | copyHalf _ _ => exact (moves_halves _).oneOwner h
  | moveHalf _ _ => exact (moves_halves _).oneOwner h
  | dropNull _ => exact (moves_halves _).oneOwner h
  | dropHalf ha =>
    obtain ⟨fd, hfd⟩ := hinv.kept _ (List.mem_of_getElem? ha)
    exact (moves_dropHalf hfd _).oneOwner h
  | useNull _ => exact moves_faulty.oneOwner h
  | useHalf _ =>
    split
    · exact moves_faulty.oneOwner h
    · exact h
  | reuniteFailed _ => exact h
  | reuniteNull _ _ _ _ => exact moves_faulty.oneOwner h
  | reunite hx _ ha _ =>
    obtain ⟨fd, hfd⟩ := hinv.kept _ (List.mem_of_getElem? ha)
    exact (moves_reunite hfd hx).oneOwner h
  | @connect c sqe junk hc =>
    refine (moves_setConn ?_).oneOwner h
    simp only [State.holds, State.fds, hc]
    cases sqe <;> rfl
  | noSocket hc h0 =>
    refine (moves_setConn ?_).oneOwner h
    rw [holds_conn s hc]
    exact (valid_neg h0).symm
  | socket hc h0 hfd => exact h.connects hc rfl h0 hfd
  | socketTimed hc h0 hfd => exact h.connects hc rfl h0 hfd
  | connected hc | setTimeout hc | refused hc | hung hc _ =>
    refine (moves_setConn ?_).oneOwner h
    rw [holds_conn s hc]
    rfl
  | resumeFull hx hc =>
    exact (moves_resumed hc rfl (by decide) (by simpa [Foreign, hc] using hok)).oneOwner h
  | resumeRefused hx hc =>
    exact (moves_resumed hc rfl (by decide) (by simpa [Foreign, hc] using hok)).oneOwner h
  | resumeDone hx hc => exact h.resumed hx hc
  | complete hmem =>
    refine h.closes .pending rfl (fun r hr => ?_) (valid_erase hmem).symm
    cases r with
    | pending => exact absurd rfl hr
    | _ => rfl
  | completeTimed hmem =>
    refine h.closes .timed rfl (fun r hr => ?_) (valid_erase hmem).symm
    cases r with
    | timed => exact absurd rfl hr
    | _ => rfl
  | @cancelled fd hmem =>
    have hdrop : Moves s { s with timed := s.timed.erase fd, lost := s.lost ++ [fd] } := by
      refine .of_pair .timed .lost (fun he => by cases he) rfl (fun r hr hr' => ?_) ?_
      · cases r with
        | timed => exact absurd rfl hr
        | lost => exact absurd rfl hr'
        | _ => rfl
      · show valid (s.timed.erase fd) + valid (s.lost ++ [fd]) = valid s.timed + valid s.lost
        rw [valid_append, ← valid_erase hmem, add_comm (valid s.lost), ← add_assoc,
          add_comm (valid (s.timed.erase fd))]
    exact hdrop.oneOwner h

/-- A foreign close breaks the ownership. -/
theorem not_oneOwner_step {s t : State} {a : Act} (hinv : Inv s) (h : OneOwner s)
    (hd : Does s a t) (hforeign : Foreign s a) : ¬ OneOwner t := by
  cases hd with
  | @attempt x fails fd i k shared hx =>
    cases i with
    | zero => simp [Foreign, hx] at hforeign
    | succ i =>
      have hopen : s.isOpen fd = true := by simpa [Foreign, hx] using hforeign
      have hmoves := moves_spent (o := { fd, phase := .closing (i + 1) k, shared })
        (hinv.lent.whole hx rfl) (i + 1) fails
      refine OneOwner.broken (hmoves.owned ?_) hmoves.isOpen hopen
      rw [show State.holds (spent ..) = s.holds from funext (holds_spent_again hx rfl)]
      exact h
  | @resumeFull c x fd hx hc =>
    obtain ⟨h0, hopen⟩ : 0 ≤ fd ∧ s.isOpen fd = true := by simpa [Foreign, hc] using hforeign
    exact h.robbed hc rfl (by decide) h0 hopen
  | @resumeRefused c x fd hx hc =>
    obtain ⟨h0, hopen⟩ : 0 ≤ fd ∧ s.isOpen fd = true := by simpa [Foreign, hc] using hforeign
    exact h.robbed hc rfl (by decide) h0 hopen
  | resumeDone hx hc => simp [Foreign, hc] at hforeign
  | _ => exact hforeign.elim

/-! ## Who may touch what -/

section Inv

variable {s t : State} {x y z : Nat} {o : Obj} {k : After}

/-- No `operator=` of another object waits to take from `z`. -/
def NotTarget (s : State) (z : Nat) : Prop :=
  ∀ x o i, s.objs x = some o → o.phase = .closing i (.assigned z) → x = z

theorem Lent.notTarget (h : Lent s) (hz : ∀ fd x, s.objs z ≠ some { fd, phase := .lent x }) :
    NotTarget s z := by
  intro x o i hx ho
  by_contra hne
  obtain ⟨fd, hfd⟩ := h x z o i hx ho (Ne.symm hne)
  exact hz fd x hfd

theorem Kept.notMem (h : Kept s) (hz : ∀ fd, s.objs z ≠ some { fd, shared := true }) :
    Half.owns z ∉ s.halves := by
  intro hmem
  obtain ⟨fd, hfd⟩ := h z hmem
  exact hz fd hfd

theorem Lent.put (h : Lent s) (hz : NotTarget s z)
    (ho : ∀ i y, o.phase = .closing i (.assigned y) → y ≠ z →
      ∃ fd, s.objs y = some { fd, phase := .lent z }) : Lent (s.put z o) := by
  intro x y o' i hx hph hne
  by_cases hxz : x = z
  · subst hxz
    rw [put_objs_self] at hx
    cases hx
    rw [put_objs_of_ne s hne]
    exact ho i y hph hne
  · rw [put_objs_of_ne s hxz] at hx
    have hyz : y ≠ z := by
      rintro rfl
      exact hxz (hz x o' i hx hph)
    rw [put_objs_of_ne s hyz]
    exact h x y o' i hx hph hne

theorem Lent.erase (h : Lent s) (hz : NotTarget s z) : Lent (s.erase z) := by
  intro x y o' i hx hph hne
  by_cases hxz : x = z
  · rw [hxz, erase_objs_self] at hx
    cases hx
  · rw [erase_objs_of_ne s hxz] at hx
    have hyz : y ≠ z := by
      rintro rfl
      exact hxz (hz x o' i hx hph)
    rw [erase_objs_of_ne s hyz]
    exact h x y o' i hx hph hne

theorem Kept.put (h : Kept s) (ho : Half.owns z ∈ s.halves → ∃ fd, o = { fd, shared := true }) :
    Kept (s.put z o) := by
  intro stream hmem
  by_cases hz : stream = z
  · subst hz
    rw [put_objs_self]
    obtain ⟨fd, rfl⟩ := ho hmem
    exact ⟨fd, rfl⟩
  · rw [put_objs_of_ne s hz]
    exact h stream hmem

theorem Kept.erase (h : Kept s) (hz : Half.owns z ∉ s.halves) : Kept (s.erase z) := by
  intro stream hmem
  have hne : stream ≠ z := by
    rintro rfl
    exact hz hmem
  rw [erase_objs_of_ne s hne]
  exact h stream hmem

theorem Inv.congr (h : Inv s) (hobjs : t.objs = s.objs) (hhalves : t.halves = s.halves) :
    Inv t := by
  refine ⟨?_, ?_⟩
  · unfold Lent
    rw [hobjs]
    exact h.lent
  · unfold Kept
    rw [hobjs, hhalves]
    exact h.kept

theorem Inv.setHalves (h : Inv s) {l : List Half}
    (hl : ∀ stream, Half.owns stream ∈ l → Half.owns stream ∈ s.halves ∨
      ∃ fd, s.objs stream = some { fd, shared := true }) : Inv { s with halves := l } := by
  refine ⟨h.lent, fun stream hmem => ?_⟩
  rcases hl stream hmem with hmem | hobj
  · exact h.kept stream hmem
  · exact hobj

/-- An object that one thread has to itself, or a place for a new one. -/
def Local (s : State) (z : Nat) : Prop := s.objs z = none ∨ ∃ fd, s.objs z = some { fd }

theorem Local.notTarget (hz : Local s z) (h : Inv s) : NotTarget s z := by
  refine h.lent.notTarget fun fd x hx => ?_
  rcases hz with hz | ⟨fd', hz⟩ <;> rw [hz] at hx <;> cases hx

theorem Local.notMem (hz : Local s z) (h : Inv s) : Half.owns z ∉ s.halves := by
  refine h.kept.notMem fun fd hx => ?_
  rcases hz with hz | ⟨fd', hz⟩ <;> rw [hz] at hx <;> cases hx

theorem Local.put (hz : Local s z) (fd : Int) : Local (s.put x { fd }) z := by
  by_cases hzx : z = x
  · subst hzx
    exact .inr ⟨fd, put_objs_self s⟩
  · rw [Local, put_objs_of_ne s hzx]
    exact hz

/-- A new state for an object that nobody waits for and no half leads to. -/
theorem Inv.putFree (h : Inv s) (ht : NotTarget s z) (hm : Half.owns z ∉ s.halves)
    (ho : ∀ i y, o.phase ≠ .closing i (.assigned y)) : Inv (s.put z o) :=
  ⟨h.lent.put ht fun i y hph => absurd hph (ho i y), h.kept.put fun hmem => absurd hmem hm⟩

theorem Inv.putLocal (h : Inv s) (hz : Local s z) (ho : ∀ i y, o.phase ≠ .closing i (.assigned y)) :
    Inv (s.put z o) :=
  h.putFree (hz.notTarget h) (hz.notMem h) ho

theorem Inv.put (h : Inv s) (hz : Local s z) (fd : Int) : Inv (s.put z { fd }) :=
  h.putLocal hz fun i y ho => by cases ho

theorem Inv.erase (h : Inv s) (ht : NotTarget s z) (hm : Half.owns z ∉ s.halves) :
    Inv (s.erase z) :=
  ⟨h.lent.erase ht, h.kept.erase hm⟩

/-- The source of the assignment is lent to `x`, or `x`'s thread has it to itself. -/
theorem Inv.take (h : Inv s) (hx : Local s x)
    (hy : y = x ∨ Local s y ∨ ∃ fd, s.objs y = some { fd, phase := .lent x }) :
    Inv (s.take x y) := by
  unfold State.take
  split
  · exact h
  · rename_i o ho
    have hput : Inv (s.put x { fd := o.fd }) := h.put hx o.fd
    rcases hy with rfl | hy | ⟨fd, hy⟩
    · exact hput.put (.inr ⟨o.fd, put_objs_self s⟩) _
    · exact hput.put (hy.put o.fd) _
    · by_cases hne : y = x
      · subst hne
        exact hput.put (.inr ⟨o.fd, put_objs_self s⟩) _
      have hy' : (s.put x { fd := o.fd }).objs y = some { fd, phase := .lent x } := by
        rw [put_objs_of_ne s hne, hy]
      refine hput.putFree (fun z o' i hz hph => ?_) (fun hmem => ?_) fun i y ho => by cases ho
      · -- it is lent to `x`, which has left `do_close`
        by_contra hzy
        obtain ⟨fd', hfd'⟩ := hput.lent z y o' i hz hph (Ne.symm hzy)
        rw [hy'] at hfd'
        cases hfd'
        rw [put_objs_self] at hz
        cases hz
        cases hph
      · obtain ⟨fd', hfd'⟩ := hput.kept y hmem
        rw [hy'] at hfd'
        cases hfd'

/-- What `k` takes from, if anything. -/
def Taken (s : State) (x : Nat) : After → Prop
  | .destroyed => True
  | .assigned y => y = x ∨ ∃ fd, s.objs y = some { fd, phase := .lent x }

theorem Inv.afterClose (h : Inv s) (ht : NotTarget s x) (hm : Half.owns x ∉ s.halves)
    (hk : Taken s x k) : Inv (s.afterClose x k) := by
  cases k with
  | destroyed => exact h.erase ht hm
  | assigned y =>
    have hput : Inv (s.put x { fd := -1 }) := h.putFree ht hm fun i y ho => by cases ho
    refine hput.take (.inr ⟨-1, put_objs_self s⟩) ?_
    by_cases hne : y = x
    · exact .inl hne
    · rw [put_objs_of_ne s hne]
      exact .inr (.inr (hk.resolve_left hne))

/-- The object is in `do_close`. -/
theorem Inv.closing (h : Inv s) (ht : NotTarget s x) (hm : Half.owns x ∉ s.halves)
    (hk : Taken s x k) (fd : Int) (i : Nat) (shared : Bool) :
    Inv (s.put x { fd, phase := .closing i k, shared }) := by
  refine ⟨h.lent.put ht fun j y ho hne => ?_, h.kept.put fun hmem => absurd hmem hm⟩
  cases ho
  exact hk.resolve_left hne

theorem Inv.doClose (h : Inv s) (ht : NotTarget s x) (hm : Half.owns x ∉ s.halves)
    (hk : Taken s x k) (o : Obj) (sqe : Bool) : Inv (s.doClose x o sqe k) := by
  unfold State.doClose
  split
  · exact (h.congr (t := { s with pending := s.pending ++ [o.fd] }) rfl rfl).afterClose ht hm
      (by cases k <;> exact hk)
  · exact h.closing ht hm hk o.fd 0 o.shared

theorem Inv.destroy (h : Inv s) (ht : NotTarget s x) (hm : Half.owns x ∉ s.halves) (o : Obj)
    (sqe : Bool) : Inv (s.destroy x o sqe) := by
  unfold State.destroy
  split
  · exact h.doClose ht hm (k := .destroyed) trivial o sqe
  · exact h.erase ht hm

theorem mem_of_mem_set {l : List Half} {a stream : Nat} {h : Half} (hh : h ≠ .owns stream)
    (hmem : Half.owns stream ∈ l.set a h) : Half.owns stream ∈ l :=
  (List.mem_or_eq_of_mem_set hmem).resolve_right (Ne.symm hh)

theorem Inv.dropHalf (h : Inv s) {a stream : Nat} {fd : Int}
    (hs : s.objs stream = some { fd, shared := true }) (sqe : Bool) :
    Inv (dropHalf s a stream sqe) := by
  unfold Descriptor.dropHalf
  rw [hs]
  dsimp only
  have hset : Inv { s with halves := s.halves.set a .gone } :=
    h.setHalves fun _ hmem => .inl (mem_of_mem_set (fun he => by cases he) hmem)
  split
  · exact hset
  · rename_i hm
    refine hset.destroy (hset.lent.notTarget fun fd' x hx => ?_) hm _ sqe
    rw [hs] at hx
    cases hx

theorem Inv.reunite (h : Inv s) {a b stream : Nat} {fd : Int}
    (hs : s.objs stream = some { fd, shared := true }) (hx : s.objs x = none) :
    Inv (reunite s a b stream x) := by
  unfold Descriptor.reunite
  rw [hs]
  dsimp only
  have hne : stream ≠ x := by
    rintro rfl
    rw [hs] at hx
    cases hx
  have hset : Inv { s with halves := (s.halves.set b .null).set a .null } := by
    refine h.setHalves fun _ hmem => .inl ?_
    exact mem_of_mem_set (fun he => by cases he) (mem_of_mem_set (fun he => by cases he) hmem)
  have hput := hset.put (z := x) (.inl hx) fd
  have hput' : Inv ({ s with halves := (s.halves.set b .null).set a .null }.put x { fd } |>.put
      stream { fd := -1, shared := true }) := by
    refine ⟨hput.lent.put (hput.lent.notTarget fun fd' y hy => ?_) (fun i y ho => by cases ho),
      hput.kept.put fun _ => ⟨-1, rfl⟩⟩
    rw [put_objs_of_ne _ hne, hs] at hy
    cases hy
  split
  · exact hput'
  · rename_i hm
    refine hput'.erase (hput'.lent.notTarget fun fd' y hy => ?_) hm
    rw [put_objs_self] at hy
    cases hy

theorem Inv.resume (h : Inv s) (hx : s.objs x = none) (c : Nat) (fd result : Int) :
    Inv (resume s c x fd result) := by
  unfold Descriptor.resume
  dsimp only
  split
  · exact (h.congr (t := s.setConn c none) rfl rfl).put (.inl hx) fd
  · split <;> exact h.congr rfl rfl

theorem Inv.giveUp (h : Inv s) (hx : Local s x) (fd : Int) (request : Request) :
    Inv (s.giveUp x fd request) := by
  cases request <;> exact (h.put hx (-1)).congr rfl rfl

theorem inv_init : Inv init := by
  refine ⟨fun x y o i hx => ?_, fun stream hmem => ?_⟩
  · cases hx
  · cases hmem

theorem inv_step {a : Act} (h : Inv s) (hd : Does s a t) : Inv t := by
  cases hd with
  | @opened x fd h0 hfd hx =>
    exact (h.congr (t := { s with isOpen := update s.isOpen fd true }) rfl rfl).put (.inl hx) fd
  | @wrap x fd hmem hx =>
    exact (h.congr (t := { s with raw := s.raw.erase fd }) rfl rfl).put (.inl hx) fd
  | @construct x other fd ho hx =>
    exact (h.put (.inl hx) fd).put (Local.put (.inr ⟨fd, ho⟩) fd) _
  | @assign x other sqe fd fd' hx ho h0 =>
    have hlx : Local s x := .inr ⟨fd, hx⟩
    by_cases hne : other = x
    · subst hne
      rw [doClose_put]
      exact h.doClose (hlx.notTarget h) (hlx.notMem h) (k := .assigned other) (Or.inl rfl) _ sqe
    have hlend : Inv (s.put other { fd := fd', phase := .lent x }) :=
      h.putLocal (.inr ⟨fd', ho⟩) fun i y ho => by cases ho
    have hlx' : Local (s.put other { fd := fd', phase := .lent x }) x := by
      rw [Local, put_objs_of_ne s (Ne.symm hne)]
      exact hlx
    exact hlend.doClose (hlx'.notTarget hlend) (hlx'.notMem hlend) (k := .assigned other)
      (Or.inr ⟨fd', put_objs_self s⟩) _ sqe
  | @assignEmpty x other sqe fd fd' hx ho h0 =>
    exact h.take (.inr ⟨fd, hx⟩) (.inr (.inl (.inr ⟨fd', ho⟩)))
  | @destroy x sqe fd hx =>
    have hlx : Local s x := .inr ⟨fd, hx⟩
    exact h.destroy (hlx.notTarget h) (hlx.notMem h) _ sqe
  | @attempt x fails fd i k shared hx =>
    have ht : NotTarget s x := h.lent.notTarget fun fd' y hy => by
      rw [hx] at hy
      cases hy
    have hm : Half.owns x ∉ s.halves := h.kept.notMem fun fd' hy => by
      rw [hx] at hy
      cases hy
    have hk : Taken s x k := by
      cases k with
      | destroyed => trivial
      | assigned y => exact or_iff_not_imp_left.2 fun hne => h.lent x y _ i hx rfl hne
    have hclose : Inv (s.kernelClose fd) := h.congr rfl rfl
    unfold Descriptor.attempt
    dsimp only
    split
    · exact hclose.afterClose ht hm (by cases k <;> exact hk)
    · exact hclose.closing ht hm (by cases k <;> exact hk) fd (i + 1) shared
  | @close x sqe fd hx => exact h.giveUp (.inr ⟨fd, hx⟩) fd _
  | @closeTimed x passed fd hx => exact h.giveUp (.inr ⟨fd, hx⟩) fd _
  | @release x fd hx => exact (h.put (.inr ⟨fd, hx⟩) (-1)).congr rfl rfl
  | @intoSplit x stream fd hx hs =>
    have hput : Inv (s.put stream { fd, shared := true }) :=
      h.putLocal (.inl hs) fun i y ho => by cases ho
    have hhalves : Inv { s.put stream { fd, shared := true } with
        halves := s.halves ++ [.owns stream, .owns stream] } := by
      refine hput.setHalves fun stream' hmem => ?_
      rcases List.mem_append.1 hmem with hmem | hmem
      · exact .inl hmem
      · have heq : stream' = stream := by simpa using hmem
        subst heq
        exact .inr ⟨fd, put_objs_self s⟩
    refine hhalves.put (z := x) (.inr ⟨fd, ?_⟩) (-1)
    have hne : x ≠ stream := by
      rintro rfl
      rw [hs] at hx
      cases hx
    exact (put_objs_of_ne s hne).trans hx
  | @copyHalf a half ha hg =>
    refine h.setHalves fun stream hmem => .inl ?_
    rcases List.mem_append.1 hmem with hmem | hmem
    · exact hmem
    · rw [List.mem_singleton.1 hmem]
      exact List.mem_of_getElem? ha
  | @moveHalf a half ha hg =>
    refine h.setHalves fun stream hmem => .inl ?_
    rcases List.mem_append.1 hmem with hmem | hmem
    · exact mem_of_mem_set (fun he => by cases he) hmem
    · rw [List.mem_singleton.1 hmem]
      exact List.mem_of_getElem? ha
  | dropNull ha =>
    exact h.setHalves fun _ hmem => .inl (mem_of_mem_set (fun he => by cases he) hmem)
  | dropHalf ha =>
    obtain ⟨fd, hfd⟩ := h.kept _ (List.mem_of_getElem? ha)
    exact h.dropHalf hfd _
  | useHalf ha =>
    split
    · exact h.congr rfl rfl
    · exact h
  | reuniteFailed _ => exact h
  | reunite hx _ ha _ =>
    obtain ⟨fd, hfd⟩ := h.kept _ (List.mem_of_getElem? ha)
    exact h.reunite hfd hx
  | resumeFull hx _ | resumeRefused hx _ | resumeDone hx _ => exact h.resume hx _ _ _
  | _ => exact h.congr rfl rfl

end Inv

/-! ## What is lost, and what goes wrong -/

section Rest

variable {s t : State} {a : Act}

/-- What most steps leave as it was. -/
structure SameRest (s t : State) : Prop where
  lost : t.lost = s.lost
  fault : t.fault = s.fault

theorem sameRest_take (s : State) (x y : Nat) : SameRest s (s.take x y) := by
  unfold State.take
  split <;> exact ⟨rfl, rfl⟩

theorem sameRest_afterClose (s : State) (x : Nat) (k : After) : SameRest s (s.afterClose x k) := by
  cases k with
  | destroyed => exact ⟨rfl, rfl⟩
  | assigned y =>
    obtain ⟨h1, h2⟩ := sameRest_take (s.put x { fd := -1 }) x y
    exact ⟨h1, h2⟩

theorem sameRest_doClose (s : State) (x : Nat) (o : Obj) (sqe : Bool) (k : After) :
    SameRest s (s.doClose x o sqe k) := by
  unfold State.doClose
  split
  · obtain ⟨h1, h2⟩ := sameRest_afterClose { s with pending := s.pending ++ [o.fd] } x k
    exact ⟨h1, h2⟩
  · exact ⟨rfl, rfl⟩

theorem sameRest_destroy (s : State) (x : Nat) (o : Obj) (sqe : Bool) :
    SameRest s (s.destroy x o sqe) := by
  unfold State.destroy
  split
  · exact sameRest_doClose s x o sqe .destroyed
  · exact ⟨rfl, rfl⟩

theorem sameRest_attempt (s : State) (x : Nat) (o : Obj) (i : Nat) (k : After) (fails : Bool) :
    SameRest s (attempt s x o i k fails) := by
  unfold attempt
  dsimp only
  split
  · obtain ⟨h1, h2⟩ := sameRest_afterClose (s.kernelClose o.fd) x k
    exact ⟨h1, h2⟩
  · exact ⟨rfl, rfl⟩

theorem sameRest_dropHalf {half stream : Nat} {fd : Int}
    (hs : s.objs stream = some { fd, shared := true }) (sqe : Bool) :
    SameRest s (dropHalf s half stream sqe) := by
  unfold dropHalf
  rw [hs]
  dsimp only
  split
  · exact ⟨rfl, rfl⟩
  · obtain ⟨h1, h2⟩ := sameRest_destroy { s with halves := s.halves.set half .gone } stream
      { fd, shared := true } sqe
    exact ⟨h1, h2⟩

theorem sameRest_reunite {half half' stream x : Nat} {fd : Int}
    (hs : s.objs stream = some { fd, shared := true }) :
    SameRest s (reunite s half half' stream x) := by
  unfold reunite
  rw [hs]
  dsimp only
  split <;> exact ⟨rfl, rfl⟩

theorem sameRest_resume (s : State) (c x : Nat) (fd result : Int) :
    SameRest s (resume s c x fd result) := by
  unfold resume
  dsimp only
  split
  · exact ⟨rfl, rfl⟩
  · split <;> exact ⟨rfl, rfl⟩

theorem SameRest.rest (h : SameRest s t) (hl : ¬ Leaks s a) (hn : ¬ NullUse s a) :
    (t.holds .lost = 0 ↔ s.holds .lost = 0 ∧ ¬ Leaks s a) ∧
      (t.fault = false ↔ s.fault = false ∧ ¬ NullUse s a) := by
  have hlost : t.holds .lost = s.holds .lost := congrArg valid h.lost
  rw [hlost, h.fault]
  exact ⟨(and_iff_left hl).symm, (and_iff_left hn).symm⟩

theorem usable_of_objs {x : Nat} {fd : Int} (h : s.objs x = some { fd }) :
    s.usable x = some fd := by
  unfold State.usable
  rw [h]

theorem valid_append_eq_zero {l : List Int} {fd : Int} :
    valid (l ++ [fd]) = 0 ↔ valid l = 0 ∧ ¬ 0 ≤ fd := by
  by_cases h0 : 0 ≤ fd
  · rw [valid_append, valid_singleton h0, add_comm, Multiset.singleton_add]
    simp [h0, Multiset.cons_ne_zero]
  · simp [valid_append, valid_neg (Int.lt_of_not_ge h0), h0]

/-- `close()` loses the number that the kernel is not asked to close. -/
theorem rest_giveUp {x : Nat} {fd : Int} {request : Request}
    (hl : Leaks s a ↔ request = .none ∧ 0 ≤ fd) (hn : ¬ NullUse s a) :
    ((s.giveUp x fd request).holds .lost = 0 ↔ s.holds .lost = 0 ∧ ¬ Leaks s a) ∧
      ((s.giveUp x fd request).fault = false ↔ s.fault = false ∧ ¬ NullUse s a) := by
  rw [hl]
  cases request with
  | plain => exact ⟨(and_iff_left fun h => by cases h.1).symm, (and_iff_left hn).symm⟩
  | timed => exact ⟨(and_iff_left fun h => by cases h.1).symm, (and_iff_left hn).symm⟩
  | none =>
    refine ⟨?_, (and_iff_left hn).symm⟩
    show valid (s.lost ++ [fd]) = 0 ↔ valid s.lost = 0 ∧ ¬ (Request.none = .none ∧ 0 ≤ fd)
    rw [valid_append_eq_zero, and_iff_right rfl]

/-- A step loses a descriptor, or goes through a null half, exactly when it is one of the two. -/
theorem rest_step (h : Inv s) (hd : Does s a t) :
    (t.holds .lost = 0 ↔ s.holds .lost = 0 ∧ ¬ Leaks s a) ∧
      (t.fault = false ↔ s.fault = false ∧ ¬ NullUse s a) := by
  cases hd with
  | close hx => exact rest_giveUp (by simp [Leaks, usable_of_objs hx]) id
  | closeTimed hx => exact rest_giveUp (by simp [Leaks, usable_of_objs hx]) id
  | @cancelled fd hmem =>
    refine ⟨?_, (and_iff_left id).symm⟩
    show valid (s.lost ++ [fd]) = 0 ↔ _ ∧ ¬ (fd ∈ s.timed ∧ 0 ≤ fd)
    rw [valid_append_eq_zero, and_iff_right hmem]
    rfl
  | useNull ha =>
    refine ⟨(and_iff_left id).symm, ?_⟩
    show true = false ↔ _ ∧ ¬ (s.halves[_]? = some Half.null)
    simp [ha]
  | useHalf ha =>
    obtain ⟨fd, hfd⟩ := h.kept _ (List.mem_of_getElem? ha)
    rw [if_neg (by rw [hfd]; exact Option.some_ne_none _)]
    refine SameRest.rest ⟨rfl, rfl⟩ id ?_
    show ¬ (s.halves[_]? = some Half.null)
    rw [ha]
    exact fun he => by cases he
  | reuniteFailed hne =>
    refine SameRest.rest ⟨rfl, rfl⟩ id ?_
    rintro ⟨-, hab, ha, hb⟩
    rcases hne with heq | hne
    · exact hab heq
    · exact hne (ha.trans hb.symm)
  | reuniteNull hx hab ha hb =>
    refine ⟨(and_iff_left id).symm, ?_⟩
    show true = false ↔ _ ∧ ¬ (s.objs _ = none ∧ _ ≠ _ ∧ _ ∧ _)
    simp [hx, hab, ha, hb]
  | reunite hx hab ha hb =>
    obtain ⟨fd, hfd⟩ := h.kept _ (List.mem_of_getElem? ha)
    refine (sameRest_reunite hfd).rest id ?_
    rintro ⟨-, -, ha', -⟩
    rw [ha] at ha'
    cases ha'
  | assign hx ho h0 =>
    obtain ⟨h1, h2⟩ := sameRest_doClose (s.put _ _) _ _ _ _
    exact SameRest.rest ⟨h1, h2⟩ id id
  | assignEmpty _ _ _ => exact (sameRest_take ..).rest id id
  | destroy _ => exact (sameRest_destroy ..).rest id id
  | attempt _ => exact (sameRest_attempt ..).rest id id
  | dropHalf ha =>
    obtain ⟨fd, hfd⟩ := h.kept _ (List.mem_of_getElem? ha)
    exact (sameRest_dropHalf hfd _).rest id id
  | resumeFull _ _ | resumeRefused _ _ | resumeDone _ _ => exact (sameRest_resume ..).rest id id
  | _ => exact SameRest.rest ⟨rfl, rfl⟩ id id

end Rest

/-! ## Top theorems -/

theorem oneOwner_init : OneOwner init := by
  refine ⟨fun p => ?_, fun fd => ?_, fun p q fd hp => ?_⟩
  · cases p <;> exact Multiset.nodup_zero
  · constructor
    · intro hfd
      cases hfd
    · rintro ⟨p, hp⟩
      cases p <;> cases hp
  · cases p <;> cases hp

/-- **Ownership.**  In the states that a run goes through every open descriptor has one
owner, exactly if no `::close` is called again on a number that has become someone
else's and no `Connect` whose `await_suspend` never ran finds one in `fd_`. -/
theorem owned_iff (as : List Act) :
    EachStep step (fun _ _ t => OneOwner t) init as ↔
      EachStep step (fun s a _ => ¬ Foreign s a) init as := by
  apply eachStep_iff (fun s => Inv s ∧ OneOwner s)
  · rintro s a t ⟨hinv, ho⟩ hs hok
    have hd := does_of_step hs
    exact ⟨inv_step hinv hd, oneOwner_step hinv ho hd hok⟩
  · rintro s a t ⟨hinv, ho⟩ hs
    have hd := does_of_step hs
    constructor
    · intro ht hforeign
      exact not_oneOwner_step hinv ho hd hforeign ht
    · exact oneOwner_step hinv ho hd
  · exact ⟨inv_init, oneOwner_init⟩

/-- A close that fails and is tried again: the descriptor is by then object 1's. -/
def retryRun : List Act :=
  [.opened 0 3, .destroy 0 false, .attempt 0 true, .opened 1 3, .attempt 0 false]

example : ¬ EachStep step (fun s a _ => ¬ Foreign s a) init retryRun := by decide

/-- The deadline of the `Connect` has passed, and object 0's number is in its `fd_`. -/
example : ¬ EachStep step (fun s a _ => ¬ Foreign s a) init
    [.opened 0 3, .connect 0 true 3, .setTimeout 0, .suspendTimed 0 true 4, .resume 0 1] := by
  decide

/-- **No leak.**  When the program has let go of everything, all descriptors are closed,
exactly if no `close()` of a descriptor found the queue full or came after its deadline
and none was cancelled. -/
theorem no_leak_iff {as : List Act} {t : State} (hr : run step init as = some t)
    (hok : EachStep step (fun s a _ => ¬ Foreign s a) init as) (hq : Quiet t) :
    (∀ fd, t.isOpen fd = false) ↔ EachStep step (fun s a _ => ¬ Leaks s a) init as := by
  have ho : OneOwner t := by
    refine (run_inv (fun s => Inv s ∧ OneOwner s) ?_ ⟨inv_init, oneOwner_init⟩ hr hok).2
    rintro s a t ⟨hinv, ho⟩ hs hok
    have hd := does_of_step hs
    exact ⟨inv_step hinv hd, oneOwner_step hinv ho hd hok⟩
  have hlost : t.holds .lost = 0 ↔ EachStep step (fun s a _ => ¬ Leaks s a) init as := by
    have h := @run_iff _ _ step Inv (fun s a _ => ¬ Leaks s a) (fun s => s.holds .lost = 0)
      (fun s a t hinv hs => (rest_step hinv (does_of_step hs)).1)
      (fun s a t hinv hs => inv_step hinv (does_of_step hs)) _ _ _ inv_init hr
    exact h.trans (and_iff_right rfl)
  rw [← hlost, Multiset.eq_zero_iff_forall_notMem]
  refine forall_congr' fun fd => ?_
  rw [Bool.eq_false_iff, not_iff_not, ho.live_iff]
  constructor
  · rintro ⟨p, hp⟩
    cases p with
    | obj x =>
      rw [holds_obj_none t (hq.objs x)] at hp
      cases hp
    | conn c =>
      rw [State.holds, State.fds, hq.conns c] at hp
      cases hp
    | pending =>
      rw [State.holds, State.fds, hq.pending] at hp
      cases hp
    | timed =>
      rw [State.holds, State.fds, hq.timed] at hp
      cases hp
    | raw =>
      rw [State.holds, State.fds, hq.raw] at hp
      cases hp
    | lost => exact hp
  · exact fun hp => ⟨.lost, hp⟩

/-- A stream that is split, reunited and destroyed, one that is closed when the queue is full,
and one whose `close()` comes too late. -/
def leakRun : List Act :=
  [.opened 0 3, .opened 1 4, .intoSplit 1 2, .copyHalf 0, .reunite 0 1 5, .dropHalf 2 true,
    .destroy 5 true, .complete 4, .destroy 1 true, .close 0 false, .opened 1 4,
    .closeTimed 1 true, .destroy 0 true, .destroy 1 true]

theorem no_leak_leakRun : ∃ t, run step init leakRun = some t ∧ Quiet t ∧
    ¬ ∀ fd, t.isOpen fd = false := by
  obtain ⟨t, ht⟩ : ∃ t, run step init leakRun = some t := ⟨_, rfl⟩
  have hq : Quiet t := by
    cases ht
    refine ⟨fun x => ?_, fun c => rfl, rfl, rfl, rfl⟩
    match x with
    | 0 | 1 | 2 | 3 | 4 | 5 => rfl
    | x + 6 => rfl
  refine ⟨t, ht, hq, ?_⟩
  rw [no_leak_iff ht (by decide) hq]
  decide

/-- **Halves.**  No half leads to a stream that is gone, and a null pointer is used exactly
when a half is that has been moved from or reunited. -/
theorem fault_iff {as : List Act} {t : State} (hr : run step init as = some t) :
    t.fault = false ↔ EachStep step (fun s a _ => ¬ NullUse s a) init as := by
  have h := @run_iff _ _ step Inv (fun s a _ => ¬ NullUse s a) (fun s => s.fault = false)
    (fun s a t hinv hs => (rest_step hinv (does_of_step hs)).2)
    (fun s a t hinv hs => inv_step hinv (does_of_step hs)) _ _ _ inv_init hr
  exact h.trans (and_iff_right rfl)

/-- `reunite` of the same two halves again. -/
theorem fault_iff_reunite : ∃ t, run step init
    [.opened 0 3, .intoSplit 0 1, .reunite 0 1 2, .reunite 0 1 4] = some t ∧ t.fault = true := by
  obtain ⟨t, ht⟩ : ∃ t, run step init
    [.opened 0 3, .intoSplit 0 1, .reunite 0 1 2, .reunite 0 1 4] = some t := ⟨_, rfl⟩
  refine ⟨t, ht, ?_⟩
  rw [← Bool.not_eq_false, fault_iff ht]
  decide

end Kosio.Descriptor
