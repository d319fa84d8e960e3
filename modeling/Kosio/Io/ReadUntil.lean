import Kosio.Io.BufRead
import Kosio.Lib.Occurrence

/-!
# `read_until` and the pieces the stream comes in

The stream still to be read is the buffered bytes and then what the io hands
over; it comes in pieces: the buffer, and one piece for each io read.
`read_until` searches piece by piece and moves a piece without the delimiter
out of the buffer before it reads the next one, so what it appends is `scan`
(`readUntil_scan`).  Against the delimiter's first occurrence in the whole stream:

    read_until stops behind it  ↔  it lies in one piece, or ends the stream     (readUntil_exact_iff)

A one-byte delimiter always lies in one piece (`readUntil_byte`).
-/

namespace Kosio.BufRead

open Occurrence StreamBuffer

/-! ## Specification -/

/-- The pieces the io hands over, one for each read. -/
def pieces : List IoOut → List (List UInt8)
  | [] => []
  | .ok bs :: io => bs :: pieces io
  | .err _ :: io => pieces io

/-- Once the io has reported the end of the file it hands over no more bytes. -/
def EofFinal : List IoOut → Prop
  | [] => True
  | .ok bs :: io => (bs = [] → ioBytes io = []) ∧ EofFinal io
  | .err _ :: io => EofFinal io

/-- `more` is the stream `all` up to and including the first `flag`, or to its
end, and `rest` is what follows. -/
def UpToFirst (flag all more rest : List UInt8) : Prop :=
  match find flag all with
  | some p => more = all.take (p + flag.length) ∧ rest = all.drop (p + flag.length)
  | none => more = all ∧ rest = []

instance (flag all more rest : List UInt8) : Decidable (UpToFirst flag all more rest) := by
  unfold UpToFirst
  split <;> infer_instance

/-- The first `flag` of the stream, if there is one, is inside a piece or ends the stream. -/
def FirstInPiece (flag : List UInt8) (cs : List (List UInt8)) : Prop :=
  ∀ p ∈ find flag cs.flatten,
    Within flag.length p cs ∨ p + flag.length = cs.flatten.length

instance (flag : List UInt8) (cs : List (List UInt8)) : Decidable (FirstInPiece flag cs) :=
  inferInstanceAs (Decidable (∀ p ∈ find flag cs.flatten, _))

/-- What a search piece by piece takes. -/
def scan (flag : List UInt8) : List (List UInt8) → List UInt8
  | [] => []
  | c :: cs =>
    match find flag c with
    | some p => c.take (p + flag.length)
    | none => c ++ scan flag cs

/-! ## `find` -/

theorem find_firstAt {flag : List UInt8} (hflag : flag ≠ []) :
    ∀ {l : List UInt8} {p : Nat}, find flag l = some p → FirstAt flag l p := by
  intro l
  induction l with
  | nil =>
    intro p h
    rw [find, if_neg hflag] at h
    cases h
  | cons b l ih =>
    intro p h
    rw [find] at h
    split at h
    · next hpre =>
      cases h
      exact ⟨List.isPrefixOf_iff_prefix.1 hpre, fun q hq => absurd hq (Nat.not_lt_zero q)⟩
    · next hpre =>
      obtain ⟨q, hq, rfl⟩ := Option.map_eq_some_iff.1 h
      obtain ⟨hocc, hfirst⟩ := ih hq
      refine ⟨hocc, fun r hr => ?_⟩
      cases r with
      | zero => exact fun h0 => hpre (List.isPrefixOf_iff_prefix.2 h0)
      | succ r => exact hfirst r (by omega)

theorem find_none {flag : List UInt8} (hflag : flag ≠ []) :
    ∀ {l : List UInt8}, find flag l = none → ∀ p, ¬ OccursAt flag l p := by
  intro l
  induction l with
  | nil =>
    intro _ p h
    rw [OccursAt, List.drop_nil, List.prefix_nil] at h
    exact hflag h
  | cons b l ih =>
    intro h p hocc
    rw [find] at h
    split at h
    · cases h
    · next hpre =>
      cases p with
      | zero => exact hpre (List.isPrefixOf_iff_prefix.2 hocc)
      | succ p => exact ih (Option.map_eq_none_iff.1 h) p hocc

theorem find_eq_some_iff {flag l : List UInt8} {p : Nat} (hflag : flag ≠ []) :
    find flag l = some p ↔ FirstAt flag l p := by
  constructor
  · exact find_firstAt hflag
  · intro h
    cases hf : find flag l with
    | none => exact absurd h.1 (find_none hflag hf p)
    | some q => rw [(find_firstAt hflag hf).unique h]

/-- The search goes on behind a piece without the flag, unless an occurrence
straddles its end. -/
theorem find_append_right {flag c l : List UInt8} {p : Nat} (hflag : flag ≠ [])
    (hp : find flag (c ++ l) = some p) (hc : c.length ≤ p) :
    find flag l = some (p - c.length) := by
  obtain ⟨hocc, hfirst⟩ := find_firstAt hflag hp
  rw [find_eq_some_iff hflag]
  constructor
  · rw [← occursAt_append_right (l := c), Nat.add_sub_cancel' hc]
    exact hocc
  · intro q hq hq'
    exact hfirst (c.length + q) (by omega) (occursAt_append_right.2 hq')

/-! ## `scan` -/

section
variable {flag : List UInt8} (hflag : flag ≠ [])
include hflag

/-- What is taken is the whole stream, or ends with an occurrence inside a piece. -/
theorem scan_cases : ∀ cs : List (List UInt8), scan flag cs = cs.flatten ∨
    ∃ q, OccursAt flag cs.flatten q ∧ Within flag.length q cs ∧
      scan flag cs = cs.flatten.take (q + flag.length) := by
  intro cs
  induction cs with
  | nil => exact Or.inl rfl
  | cons c cs ih =>
    rw [scan, List.flatten_cons]
    split
    · next p hp =>
      right
      have hfirst := find_firstAt hflag hp
      have hle := hfirst.1.le hflag
      exact ⟨p, (hfirst.append hflag).1, Or.inl hle, (List.take_append_of_le_length hle).symm⟩
    · rcases ih with h | ⟨q, hocc, hin, htake⟩
      · left
        rw [h]
      · right
        refine ⟨c.length + q, occursAt_append_right.2 hocc, Or.inr ⟨by omega, ?_⟩, ?_⟩
        · rw [Nat.add_sub_cancel_left]
          exact hin
        · rw [htake, Nat.add_assoc, List.take_length_add_append]

theorem scan_prefix (cs : List (List UInt8)) : scan flag cs <+: cs.flatten := by
  rcases scan_cases hflag cs with h | ⟨q, -, -, h⟩
  · exact h ▸ List.prefix_rfl
  · rw [h]
    exact List.take_prefix _ _

/-- A first occurrence inside a piece is where the search stops. -/
theorem scan_within : ∀ (cs : List (List UInt8)) (p : Nat), find flag cs.flatten = some p →
    Within flag.length p cs → scan flag cs = cs.flatten.take (p + flag.length) := by
  intro cs
  induction cs with
  | nil => intro p _ hin; exact absurd hin (by simp [Within])
  | cons c cs ih =>
    intro p hp hin
    rw [List.flatten_cons] at hp ⊢
    have hfirst := find_firstAt hflag hp
    have hpos : 0 < flag.length := List.length_pos_iff.2 hflag
    rw [scan]
    rcases hin with hle | ⟨hle, hin⟩
    · have hc : find flag c = some p := by
        rw [find_eq_some_iff hflag]
        refine ⟨(occursAt_append_left hle).1 hfirst.1, fun q hq hocc => hfirst.2 q hq ?_⟩
        exact (occursAt_append_left (by omega)).2 hocc
      rw [hc, List.take_append_of_le_length hle]
    · have hc : find flag c = none := by
        cases hc : find flag c with
        | none => rfl
        | some q =>
          have hq := find_firstAt hflag hc
          have hqp : q = p := (hq.append hflag).unique hfirst
          have := hq.1.le hflag
          omega
      rw [hc, ih _ (find_append_right hflag hp hle) hin,
        show p + flag.length = c.length + (p - c.length + flag.length) by omega,
        List.take_length_add_append]

/-- Piece by piece the search ends behind the first occurrence exactly when that
lies inside a piece or ends the stream. -/
theorem scan_iff (cs : List (List UInt8)) (rest : List UInt8)
    (hrest : scan flag cs ++ rest = cs.flatten) :
    UpToFirst flag cs.flatten (scan flag cs) rest ↔ FirstInPiece flag cs := by
  unfold UpToFirst FirstInPiece
  cases hp : find flag cs.flatten with
  | none =>
    have hall : scan flag cs = cs.flatten := by
      rcases scan_cases hflag cs with h | ⟨q, hocc, -, -⟩
      · exact h
      · exact absurd hocc (find_none hflag hp q)
    have hnil : rest = [] := by
      rw [hall] at hrest
      exact List.append_right_eq_self.1 hrest
    simp [hall, hnil]
  | some p =>
    have hfirst := find_firstAt hflag hp
    have hple := hfirst.1.le hflag
    -- what follows is settled by what is taken
    have hdrop : scan flag cs = cs.flatten.take (p + flag.length) →
        rest = cs.flatten.drop (p + flag.length) := by
      intro htake
      rw [htake] at hrest
      exact List.append_cancel_left (hrest.trans (List.take_append_drop _ _).symm)
    have hlen : (cs.flatten.take (p + flag.length)).length = p + flag.length := by
      rw [List.length_take]
      omega
    simp only [Option.mem_some_iff, forall_eq']
    constructor
    · rintro ⟨htake, -⟩
      rcases scan_cases hflag cs with h | ⟨q, hocc, hin, h⟩
      · right
        rw [← hlen, ← htake, h]
      · left
        have hq := hocc.le hflag
        have hlenq : (cs.flatten.take (q + flag.length)).length = q + flag.length := by
          rw [List.length_take]
          omega
        have hqp : q = p := by
          rw [← h, htake, hlen] at hlenq
          omega
        rw [← hqp]
        exact hin
    · intro h
      have htake : scan flag cs = cs.flatten.take (p + flag.length) := by
        rcases h with hin | hend
        · exact scan_within hflag cs p hp hin
        · rcases scan_cases hflag cs with h | ⟨q, hocc, -, h⟩
          · rw [h, hend, List.take_length]
          · -- an occurrence not before `p` ends the stream too
            have hq := hocc.le hflag
            have hpq : ¬ q < p := fun hlt => hfirst.2 q hlt hocc
            rw [h, show q = p by omega]
      exact ⟨htake, hdrop htake⟩

end

/-! ## `read_until` -/

theorem pieces_flatten : ∀ io : List IoOut, (pieces io).flatten = ioBytes io := by
  intro io
  induction io with
  | nil => rfl
  | cons o io ih =>
    cases o with
    | ok bs => rw [pieces, List.flatten_cons, ih, ioBytes]
    | err e => exact ih

theorem findFlagAndReturnSlice_find {flag : List UInt8} (hflag : flag ≠ []) (s : StreamBuffer) :
    (s.findFlagAndReturnSlice flag = [] ∧ find flag s.rSlice = none) ∨
      ∃ p, find flag s.rSlice = some p ∧ s.findFlagAndReturnSlice flag ≠ [] ∧
        s.findFlagAndReturnSlice flag = s.rSlice.take (p + flag.length) := by
  unfold findFlagAndReturnSlice
  cases hf : find flag s.rSlice with
  | none => exact Or.inl ⟨rfl, rfl⟩
  | some p =>
    have hle := (find_firstAt hflag hf).1.le hflag
    have hpos : 0 < flag.length := List.length_pos_iff.2 hflag
    refine Or.inr ⟨p, rfl, List.length_pos_iff.1 ?_, rfl⟩
    rw [List.length_take]
    omega

/-- A successful `read_until` appends what the search piece by piece takes. -/
theorem readUntil_scan {flag : List UInt8} (hflag : flag ≠ []) :
    ∀ (io : List IoOut) (s : StreamBuffer) (out : List UInt8) (n : Nat) (out' : List UInt8)
      (s' : StreamBuffer) (io' : List IoOut), s.Wf → EofFinal io →
      readUntil flag s out io = some (.ok n, out', s', io') →
      out' = out ++ scan flag (s.rSlice :: pieces io) := by
  intro io
  induction io with
  | nil =>
    intro s out n out' s' io' _ _ hr
    unfold readUntil at hr
    rcases findFlagAndReturnSlice_find hflag s with ⟨hnil, -⟩ | ⟨p, hp, hne, htake⟩
    · rw [hnil] at hr
      simp only [ne_eq, not_true_eq_false, if_false] at hr
      cases hr
    · simp only [hne, ne_eq, not_false_eq_true, if_true] at hr
      cases hr
      rw [scan, hp, htake]
  | cons o io ih =>
    intro s out n out' s' io' h heof hr
    unfold readUntil at hr
    rcases findFlagAndReturnSlice_find hflag s with ⟨hnil, hnone⟩ | ⟨p, hp, hne, htake⟩
    · simp only [hnil, ne_eq, not_true_eq_false, if_false] at hr
      rw [scan, hnone]
      have h0 := StreamBuffer.resetPos_wf s
      cases o with
      | err e => cases hr
      | ok bs =>
        simp only at hr
        split at hr
        · next hb =>
          split at hr
          · next hz =>
            -- end of file: nothing follows, so nothing is left to search
            cases hr
            have hbs : bs = [] := List.length_eq_zero_iff.1 hz
            have hrest : scan flag (pieces (.ok bs :: io)) = [] := by
              rw [← List.prefix_nil, ← show (pieces (.ok bs :: io)).flatten = [] from by
                rw [pieces_flatten, ioBytes, hbs, List.nil_append, heof.1 hbs]]
              exact scan_prefix hflag _
            rw [hrest, List.append_nil]
          · obtain ⟨hwf, hslice, -⟩ := h0.wFill_wIncrease hb
            rw [resetPos_rSlice, List.nil_append] at hslice
            rw [ih _ _ _ _ _ _ hwf heof.2 hr, hslice, pieces, List.append_assoc]
        · cases hr
    · simp only [hne, ne_eq, not_false_eq_true, if_true] at hr
      cases hr
      rw [scan, hp, htake]

section
variable (flag : List UInt8) (hflag : flag ≠ []) (s : StreamBuffer) (hs : s.Wf) (io : List IoOut)
  (heof : EofFinal io) (out : List UInt8) (n : Nat) (out' : List UInt8) (s' : StreamBuffer)
  (io' : List IoOut) (hr : readUntil flag s out io = some (.ok n, out', s', io'))

include hflag hs heof hr

/-- What a successful `read_until` appends and what it leaves to be read are the stream. -/
theorem readUntil_splits : out' = out ++ scan flag (s.rSlice :: pieces io) ∧
    scan flag (s.rSlice :: pieces io) ++ (s'.rSlice ++ ioBytes io') =
      (s.rSlice :: pieces io).flatten := by
  have hscan := readUntil_scan hflag io s out n out' s' io' hs heof hr
  obtain ⟨-, more, hmore, hsplit⟩ := readUntil_spec flag io s out _ out' s' io' hs hr
  rw [hmore] at hscan
  rw [← List.append_cancel_left hscan, hsplit, List.flatten_cons, pieces_flatten]
  exact ⟨hmore, rfl⟩

/-- **Independence of the pieces, exactly.**  For every delimiter, stream, split
into reads, capacity and buffered content, a successful `read_until` stops behind
the first delimiter if and only if that lies in one piece or ends the stream. -/
theorem readUntil_exact_iff : (∃ more, out' = out ++ more ∧
      UpToFirst flag (s.rSlice ++ ioBytes io) more (s'.rSlice ++ ioBytes io')) ↔
    FirstInPiece flag (s.rSlice :: pieces io) := by
  obtain ⟨hscan, hsplit⟩ := readUntil_splits flag hflag s hs io heof out n out' s' io' hr
  rw [← scan_iff hflag _ _ hsplit, List.flatten_cons, pieces_flatten]
  constructor
  · rintro ⟨more, hmore, h⟩
    rw [List.append_cancel_left (hscan.symm.trans hmore)]
    exact h
  · exact fun h => ⟨_, hscan, h⟩

end

/-- Four bytes in two pieces, the delimiter inside the first. -/
theorem readUntil_inside_a_piece :
    ∃ more, [98, 99] = [] ++ more ∧ UpToFirst [98, 99] [98, 99, 100, 101] more [100, 101] :=
  (readUntil_exact_iff [98, 99] (by decide) (.make 3) (StreamBuffer.make_wf 3)
    [.ok [98, 99, 100], .ok [101]] (by simp [EofFinal]) [] 2 [98, 99]
    ⟨[98, 99, 100], 2, 3⟩ [.ok [101]] rfl).2 (by decide)

/-- The stream `xabc` read as `xa` and `bc`: `read_until` for `ab` runs past it to the end. -/
theorem readUntil_misses_straddling_flag :
    EofFinal [.ok [120, 97], .ok [98, 99], .ok []] ∧
      ∃ s', readUntil [97, 98] (.make 2) [] [.ok [120, 97], .ok [98, 99], .ok []] =
          some (.ok 4, [120, 97, 98, 99], s', []) ∧
        ∀ more rest, [120, 97, 98, 99] = [] ++ more →
          ¬ UpToFirst [97, 98] [120, 97, 98, 99] more rest := by
  refine ⟨by simp [EofFinal, ioBytes], _, rfl, ?_⟩
  intro more rest hmore h
  rw [List.nil_append] at hmore
  rw [← hmore] at h
  exact absurd h.1 (by decide)

/-- `read_until` with a single byte, and so `read_line`, does not depend on the pieces. -/
theorem readUntil_byte (b : UInt8) (s : StreamBuffer) (hs : s.Wf) (io : List IoOut)
    (heof : EofFinal io) (out : List UInt8) (n : Nat) (out' : List UInt8) (s' : StreamBuffer)
    (io' : List IoOut) (hr : readUntil [b] s out io = some (.ok n, out', s', io')) :
    ∃ more, out' = out ++ more ∧
      UpToFirst [b] (s.rSlice ++ ioBytes io) more (s'.rSlice ++ ioBytes io') := by
  have hb : [b] ≠ [] := List.cons_ne_nil b []
  obtain ⟨hscan, hsplit⟩ := readUntil_splits [b] hb s hs io heof out n out' s' io' hr
  refine ⟨_, hscan, ?_⟩
  rw [← pieces_flatten, ← List.flatten_cons, scan_iff hb _ _ hsplit]
  intro p hp
  have hle := (find_firstAt hb hp).1.le hb
  exact Or.inl (within_one _ p hle)

end Kosio.BufRead
