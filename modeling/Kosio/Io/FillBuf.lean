import Kosio.Io.BufRead

/-!
# `fill_buf` and `consume`: when an empty buffer fills

A session is a reader on a stream with bytes `left`.  The io takes them from
the front, and a `fill_buf` that hands it room gets at least one while there
are any.

    every fill_buf of a run makes progress  ↔  none finds the buffer empty, bytes left
                                               on the stream and no room behind `w_pos_`   (progress_iff)

`fill_buf` never rewinds.  A drained buffer is left standing at its end by
`consume`, or by a `read_until` that finds its delimiter there; `read` and
`read_until` that go to the io rewind (`atEnd_step`).
-/

namespace Kosio.BufRead

open Steps StreamBuffer

/-! ## Algorithm -/

structure Session where
  reader : Reader
  left : List UInt8
deriving DecidableEq, Repr

/-- The io outcomes a call uses up. -/
def Call.io : Call → List IoOut
  | .read _ io => io
  | .readUntil _ _ io => io
  | .fillBuf o => [o]
  | .consume _ => []

/-- Nothing comes into a non-empty span only when nothing is left. -/
def Prompt (s : Session) : Call → Prop
  | .fillBuf (.ok []) => s.reader.stream.wRemaining = 0 ∨ s.left = []
  | _ => True

instance (s : Session) : (c : Call) → Decidable (Prompt s c)
  | .fillBuf (.ok []) => inferInstanceAs (Decidable (_ ∨ _))
  | .fillBuf (.ok (_ :: _)) => isTrue trivial
  | .fillBuf (.err _) => isTrue trivial
  | .read _ _ => isTrue trivial
  | .readUntil _ _ _ => isTrue trivial
  | .consume _ => isTrue trivial

/-- One call against the stream. -/
def sessionStep (s : Session) (c : Call) : Option Session :=
  if (ioBytes c.io).isPrefixOf s.left ∧ Prompt s c then
    (step s.reader c).map fun r => ⟨r, s.left.drop (ioBytes c.io).length⟩
  else none

/-- A `fill_buf` that succeeds on an empty buffer, with bytes left, leaves a byte
in `buffer()`; so one that leaves `buffer()` empty is at the end of the file. -/
def Progress (s : Session) (c : Call) (s' : Session) : Prop :=
  ∀ bs, c = .fillBuf (.ok bs) →
    (s.reader.stream.rSlice = [] → s.left ≠ [] → s'.reader.stream.rSlice ≠ []) ∧
      (s'.reader.stream.rSlice = [] → s.left = [])

/-- A `fill_buf` that finds the buffer empty and bytes left finds room behind `w_pos_`. -/
def FindsRoom (s : Session) (c : Call) (_ : Session) : Prop :=
  ∀ bs, c = .fillBuf (.ok bs) → s.reader.stream.rSlice = [] → s.left ≠ [] →
    s.reader.stream.wPos < s.reader.stream.capacity

/-- Drained, with the positions at the end of the buffer. -/
def AtEnd (s : StreamBuffer) : Prop := s.rPos = s.wPos ∧ s.wPos = s.capacity

/-! ## Lemmas -/

theorem step_wf {r r' : Reader} {c : Call} (h : r.stream.Wf) (hstep : step r c = some r') :
    r'.stream.Wf := by
  cases c with
  | read span io =>
    simp only [step] at hstep
    split at hstep
    · next ret span' s heq =>
      cases hstep
      exact (read_spec h span io _ heq rfl).1
    · cases hstep
  | readUntil flag out io =>
    simp only [step] at hstep
    split at hstep
    · next ret out' s heq =>
      cases hstep
      exact (readUntil_spec flag io _ _ _ _ _ _ h heq).1
    · cases hstep
  | fillBuf o =>
    obtain ⟨⟨ret, s⟩, hs, rfl⟩ := Option.map_eq_some_iff.1 hstep
    cases o with
    | err e =>
      cases hs
      exact h
    | ok bs =>
      simp only [fillBuf] at hs
      split at hs
      · next hb =>
        cases hs
        exact (h.wFill_wIncrease hb).1
      · cases hs
  | consume n =>
    cases hstep
    exact h.rIncrease (Nat.min_le_right _ _)

theorem sessionStep_spec {s s' : Session} {c : Call} (h : sessionStep s c = some s') :
    Prompt s c ∧ step s.reader c = some s'.reader := by
  unfold sessionStep at h
  split at h
  · next hc =>
    obtain ⟨r, hr, rfl⟩ := Option.map_eq_some_iff.1 h
    exact ⟨hc.2, hr⟩
  · cases h

/-- What a successful `fill_buf` does to the readable bytes. -/
theorem fillBuf_spec {r r' : Reader} {bs : List UInt8} (h : r.stream.Wf)
    (hstep : step r (.fillBuf (.ok bs)) = some r') :
    bs.length ≤ r.stream.wRemaining ∧ r'.stream.rSlice = r.stream.rSlice ++ bs := by
  obtain ⟨⟨ret, s⟩, hs, rfl⟩ := Option.map_eq_some_iff.1 hstep
  simp only [fillBuf] at hs
  split at hs
  · next hb =>
    cases hs
    exact ⟨hb, (h.wFill_wIncrease hb).2.1⟩
  · cases hs

/-- One `fill_buf` makes progress exactly when it finds room. -/
theorem step_progress_iff (s : Session) (c : Call) (s' : Session) (h : s.reader.stream.Wf)
    (hstep : sessionStep s c = some s') : Progress s c s' ↔ FindsRoom s c s' := by
  obtain ⟨hprompt, hread⟩ := sessionStep_spec hstep
  have hw := h.w_le
  constructor
  · intro hp bs hc hempty hleft
    subst hc
    obtain ⟨hroom, hslice⟩ := fillBuf_spec h hread
    have hne := (hp bs rfl).1 hempty hleft
    rw [hslice, hempty, List.nil_append] at hne
    have := List.length_pos_iff.2 hne
    simp only [wRemaining] at hroom
    show _ < s.reader.stream.buf.length
    omega
  · intro hr bs hc
    subst hc
    obtain ⟨hroom, hslice⟩ := fillBuf_spec h hread
    -- with nothing read, either there was no room or nothing was left
    have hfill : s.reader.stream.rSlice = [] → s.left ≠ [] → bs ≠ [] := by
      rintro hempty hleft rfl
      have hlt : _ < s.reader.stream.buf.length := hr [] rfl hempty hleft
      rcases hprompt with hfull | hnone
      · simp only [wRemaining] at hfull
        omega
      · exact hleft hnone
    refine ⟨fun hempty hleft hnil => ?_, fun hnil => ?_⟩
    · rw [hslice, List.append_eq_nil_iff] at hnil
      exact hfill hempty hleft hnil.2
    · rw [hslice, List.append_eq_nil_iff] at hnil
      apply Classical.byContradiction
      intro hleft
      exact hfill hnil.1 hleft hnil.2

/-! ## Where the room goes -/

/-- `write_to` rewinds a buffer it drains. -/
theorem not_atEnd_writeTo {s : StreamBuffer} (hcap : 0 < s.capacity) (dst : List UInt8) :
    ¬ AtEnd (s.writeTo dst).2.2 := by
  rintro ⟨hrw, hend⟩
  simp only [writeTo] at hrw hend
  split at hend
  · simp only [resetPos, rIncrease, capacity] at hend hcap
    omega
  · next hne =>
    rw [if_neg hne] at hrw
    exact hne hrw

theorem readLoop_atEnd (span : List UInt8) (io : List IoOut) :
    ∀ (s : StreamBuffer) (r : ReadOut), s.Wf → 0 < s.capacity →
      realReadLoop false (fun s => !s.empty) span s io = some r → AtEnd r.stream → AtEnd s := by
  induction io with
  | nil =>
    intro s r h hcap hr
    cases hr
  | cons o io ih =>
    intro s r h hcap hr hend
    simp only [realReadLoop] at hr
    generalize hs1 : (if s.wRemaining < span.length then s.resetData else s) = s1 at hr
    have h1 : s1.Wf ∧ s1.capacity = s.capacity ∧ (AtEnd s1 → AtEnd s) := by
      subst hs1
      split
      · refine ⟨h.resetData, h.resetData_capacity, fun hat => ?_⟩
        -- rewound and still at the end: drained means no bytes, full means all of them
        have hrw : 0 = s.rRemaining := hat.1
        have hcap' : s.rRemaining = s.resetData.capacity := hat.2
        rw [h.resetData_capacity] at hcap'
        omega
      · exact ⟨h, rfl, id⟩
    cases o with
    | err e =>
      cases hr
      exact h1.2.2 hend
    | ok bs =>
      simp only [Bool.false_eq_true, if_false] at hr
      split at hr
      · next hb =>
        obtain ⟨hwf, hslice, hcap1⟩ := h1.1.wFill_wIncrease hb
        have hcap2 : 0 < ((s1.wFill bs).wIncrease bs.length).capacity := by
          rw [hcap1, h1.2.1]
          exact hcap
        split at hr
        · cases hr
          exact absurd hend (not_atEnd_writeTo hcap2 span)
        · next hgo =>
          obtain ⟨hrw, -⟩ := ih _ r hwf hcap2 hr hend
          exfalso
          apply hgo
          have : ((s1.wFill bs).wIncrease bs.length).empty = true := by simp [empty, hrw]
          rw [hwf.empty_iff, hslice, List.append_eq_nil_iff] at this
          simp [this.2]
      · cases hr

theorem read_atEnd {s : StreamBuffer} (h : s.Wf) (hcap : 0 < s.capacity) {span : List UInt8}
    {io : List IoOut} {r : ReadOut} (hr : read s span io = some r) (hend : AtEnd r.stream) :
    AtEnd s := by
  unfold read realRead at hr
  split at hr
  · simp only [Bool.false_eq_true, if_false] at hr
    split at hr
    · cases hr
    · cases hr
      exact absurd hend (not_atEnd_writeTo hcap span)
    · cases hr
      exact absurd hend (not_atEnd_writeTo hcap span)
  · unfold realReadTail at hr
    split at hr
    · cases hr
      exact absurd hend (not_atEnd_writeTo hcap span)
    · exact readLoop_atEnd span io s r h hcap hr hend

/-- Only `consume` and `read_until` leave a drained buffer standing at its end. -/
theorem atEnd_step {r r' : Reader} {c : Call} (h : r.stream.Wf) (hcap : 0 < r.stream.capacity)
    (hstep : step r c = some r') (hend : AtEnd r'.stream) :
    AtEnd r.stream ∨ (∃ n, c = .consume n) ∨ ∃ flag out io, c = .readUntil flag out io := by
  cases c with
  | consume n => exact Or.inr (Or.inl ⟨n, rfl⟩)
  | readUntil flag out io => exact Or.inr (Or.inr ⟨flag, out, io, rfl⟩)
  | read span io =>
    left
    simp only [step] at hstep
    split at hstep
    · next ret span' s heq =>
      cases hstep
      exact read_atEnd h hcap heq hend
    · cases hstep
  | fillBuf o =>
    left
    cases o with
    | err e =>
      cases hstep
      exact hend
    | ok bs =>
      obtain ⟨hroom, hslice⟩ := fillBuf_spec h hstep
      have hnil : r'.stream.rSlice = [] :=
        (step_wf h hstep).empty_iff.1 (by simpa [empty] using hend.1)
      rw [hslice, List.append_eq_nil_iff] at hnil
      obtain ⟨hempty, rfl⟩ := hnil
      simp only [step, fillBuf, List.length_nil, Nat.zero_le, if_true, Option.map_some] at hstep
      cases hstep
      obtain ⟨hrw, hfull⟩ := hend
      refine ⟨hrw, ?_⟩
      simpa [capacity, wFill, wIncrease, overwrite] using hfull

/-! ## Top theorem -/

/-- **Progress, exactly.**  For every capacity, every stream and every sequence of
calls: every `fill_buf` makes progress if and only if each that finds the buffer
empty and bytes left finds room. -/
theorem progress_iff (size : Nat) (left : List UInt8) (calls : List Call) :
    EachStep sessionStep Progress ⟨Reader.make size, left⟩ calls ↔
      EachStep sessionStep FindsRoom ⟨Reader.make size, left⟩ calls := by
  refine eachStep_iff (fun s => s.reader.stream.Wf) ?_ ?_ (make_wf size)
  · intro s c s' h hstep _
    exact step_wf h (sessionStep_spec hstep).2
  · intro s c s' h hstep
    exact step_progress_iff s c s' h hstep

/-- A one-byte buffer is filled and consumed; the next `fill_buf` reads into no
room at all and leaves `buffer()` empty, with a byte left on the stream. -/
theorem fillBuf_stuck_at_end :
    ∃ s s', run sessionStep ⟨Reader.make 1, [7, 8]⟩ [.fillBuf (.ok [7]), .consume 1] = some s ∧
      sessionStep s (.fillBuf (.ok [])) = some s' ∧ s'.left = [8] ∧
      s'.reader.stream.rSlice = [] ∧ ¬ Progress s (.fillBuf (.ok [])) s' := by
  refine ⟨_, _, rfl, rfl, rfl, rfl, fun h => ?_⟩
  exact (h [] rfl).1 rfl (by decide) rfl

end Kosio.BufRead
