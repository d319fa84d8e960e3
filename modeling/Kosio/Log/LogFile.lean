import Kosio.Log.FileLogger
import Mathlib.Data.List.Flatten
import Mathlib.Data.List.Nodup
import Mathlib.Logic.Function.Basic

/-!
# `LogFile`: nothing is lost when the file rolls

A file that has grown beyond its size is closed, and another is opened under the name
that the clock gives, once the second has changed.  `open` truncates: where the local
time comes round again (the hour is set back) the name may be that of an earlier file,
and what was in it is gone.  Nor is there a file before the first one has been opened.

A file can always be opened (else `roll` throws), and the disk takes what is written.

`loss` says how many bytes a step loses.  What is in the files, in the order in which
they were opened, is what was written, exactly if no step loses a byte (`kept_iff`);
and with the `FileLogger` above it, what is on disk in the end is what the calls of
`log` have accepted (`logged_iff`).
-/

namespace Kosio.LogFile

open Function Steps

/-! ## Algorithm -/

structure State (N B : Type) where
  /-- the file system -/
  files : N → List B
  ofs : Option N
  maxFileSize : Int
  curFileSize : Int
  lastRollSecond : Int
  /-- the files, in the order in which they were opened last -/
  opened : List N
  /-- what `write` has been called with -/
  written : List B

variable {N B M : Type} [DecidableEq N] (name : Int → N)

/-- `name` is `localtime_r` and `strftime`; `open` truncates the file. -/
def roll (s : State N B) (now : Int) : State N B :=
  if s.lastRollSecond < now then
    { s with
      files := update s.files (name now) [], ofs := some (name now), curFileSize := 0
      lastRollSecond := now, opened := s.opened.erase (name now) ++ [name now] }
  else s

/-- The constructor, with whatever is in the directory. -/
def make (files : N → List B) (now : Int) : State N B :=
  roll name
    { files, ofs := none, maxFileSize := 10 * 1024 * 1024, curFileSize := 0, lastRollSecond := 0
      opened := [], written := [] } now

/-- `ofs_.write`, which does nothing without a file. -/
def append (s : State N B) (data : List B) : State N B :=
  { s with
    files := match s.ofs with
      | some n => update s.files n (s.files n ++ data)
      | none => s.files
    curFileSize := s.curFileSize + data.length, written := s.written ++ data }

def write (s : State N B) (data : List B) (now : Int) : State N B :=
  let t := append s data
  if t.curFileSize > t.maxFileSize then roll name t now else t

inductive Act (B : Type) where
  | write (data : List B) (now : Int)
  | setMaxFileSize (maxFileSize : Int)

def step (s : State N B) : Act B → Option (State N B)
  | .write data now => some (write name s data now)
  | .setMaxFileSize maxFileSize => some { s with maxFileSize }

/-! ### Under the logger -/

structure Logger (M N B : Type) where
  logger : FileLogger.State M
  file : State N B

inductive LogAct (M : Type) where
  /-- a step of the logger; `now` is what `::time` says if the file rolls -/
  | logger (a : FileLogger.Act M) (now : Int)
  | setMaxFileSize (maxFileSize : Int)

/-- The buffer that the step hands to `file_.write`. -/
def handed (s : FileLogger.State M) : FileLogger.Act M → Option (FileLogger.LogBuffer M)
  | .work =>
    match s.pc with
    | .write i | .drain i => s.full[i]?
    | _ => none
  | _ => none

variable (bytes : M → List B) (cap : Nat)

def Logger.step (s : Logger M N B) : LogAct M → Option (Logger M N B)
  | .logger a now =>
    (FileLogger.step cap (fun m => (bytes m).length) s.logger a).map fun logger =>
      { logger
        file := match handed s.logger a with
          | some buffer => write name s.file (buffer.flatMap bytes) now
          | none => s.file }
  | .setMaxFileSize maxFileSize => some { s with file := { s.file with maxFileSize } }

/-- `file_` is constructed before the worker is started. -/
def Logger.init (files : N → List B) (now : Int) (garbage : Bool) : Logger M N B :=
  { logger := FileLogger.init garbage, file := make name files now }

/-! ## Specification -/

/-- What is in the files, one after the other. -/
def kept (s : State N B) : List B := s.opened.flatMap s.files

/-- The bytes in the file that `roll` opens. -/
def overwritten (s : State N B) (now : Int) : Nat :=
  if s.lastRollSecond < now ∧ name now ∈ s.opened then (s.files (name now)).length else 0

def writeLoss (s : State N B) (data : List B) (now : Int) : Nat :=
  let t := append s data
  (if s.ofs = none then data.length else 0) +
    if t.curFileSize > t.maxFileSize then overwritten name t now else 0

/-- How many bytes the step loses. -/
def loss (s : State N B) : Act B → Nat
  | .write data now => writeLoss name s data now
  | .setMaxFileSize _ => 0

def Logger.loss (s : Logger M N B) : LogAct M → Nat
  | .logger a now =>
    match handed s.logger a with
    | some buffer => writeLoss name s.file (buffer.flatMap bytes) now
    | none => 0
  | .setMaxFileSize _ => 0

/-- The step of the logger does what it needs to write in order. -/
def Logger.Allowed (s : Logger M N B) (a : LogAct M) (t : Logger M N B) : Prop :=
  match a with
  | .logger a _ => FileLogger.Allowed cap (fun m => (bytes m).length) s.logger a t.logger
  | .setMaxFileSize _ => True

instance (s t : Logger M N B) : (a : LogAct M) → Decidable (Logger.Allowed bytes cap s a t)
  | .logger a _ => inferInstanceAs
      (Decidable (FileLogger.Allowed cap (fun m => (bytes m).length) s.logger a t.logger))
  | .setMaxFileSize _ => isTrue trivial

/-! ## Invariant -/

structure Inv (s : State N B) : Prop where
  nodup : s.opened.Nodup
  none : s.ofs = none → s.opened = []
  last : ∀ n, s.ofs = some n → ∃ l, s.opened = l ++ [n]
  sublist : (kept s).Sublist s.written

variable {name bytes cap} {s t : State N B}

theorem flatMap_update {l : List N} {f : N → List B} {n : N} {x : List B} (h : n ∉ l) :
    l.flatMap (update f n x) = l.flatMap f := by
  refine List.flatMap_congr fun m hm => ?_
  have hne : m ≠ n := by
    rintro rfl
    exact h hm
  exact update_of_ne hne ..

/-- A write goes behind everything else, if there is a file. -/
theorem kept_append (h : Inv s) (data : List B) :
    kept (append s data) = if s.ofs = none then kept s else kept s ++ data := by
  unfold kept append
  cases hofs : s.ofs with
  | none => rfl
  | some n =>
    obtain ⟨l, hl⟩ := h.last n hofs
    have hn : n ∉ l := by
      have hnd := h.nodup
      rw [hl, List.nodup_append] at hnd
      exact fun hmem => hnd.2.2 n hmem n (List.mem_singleton_self n) rfl
    simp [hl, flatMap_update hn]

theorem Inv.append (h : Inv s) (data : List B) : Inv (append s data) := by
  refine ⟨h.nodup, h.none, h.last, ?_⟩
  rw [kept_append h]
  show List.Sublist _ (s.written ++ data)
  split
  · exact h.sublist.trans (List.sublist_append_left ..)
  · exact h.sublist.append (List.Sublist.refl data)

/-- The file is opened anew, and is the last one. -/
theorem kept_roll (h : Inv s) {now : Int} (hnow : s.lastRollSecond < now) :
    kept (roll name s now) = (s.opened.erase (name now)).flatMap s.files := by
  have hn : name now ∉ s.opened.erase (name now) := h.nodup.not_mem_erase
  unfold kept roll
  rw [if_pos hnow]
  simp [flatMap_update hn]

theorem Inv.roll (h : Inv s) (now : Int) : Inv (roll name s now) := by
  by_cases hnow : s.lastRollSecond < now
  · have hkept : kept (LogFile.roll name s now) = _ := kept_roll h hnow
    unfold LogFile.roll at hkept ⊢
    rw [if_pos hnow] at hkept ⊢
    refine ⟨?_, (fun he => by cases he), fun n hn => ?_, ?_⟩
    · refine List.nodup_append.2 ⟨h.nodup.erase _, List.nodup_singleton _, fun m hm n hn hmn => ?_⟩
      rw [hmn, List.mem_singleton.1 hn] at hm
      exact h.nodup.not_mem_erase hm
    · cases hn
      exact ⟨_, rfl⟩
    · rw [hkept]
      refine List.Sublist.trans ?_ h.sublist
      exact (List.erase_sublist.map s.files).flatten
  · unfold LogFile.roll
    rw [if_neg hnow]
    exact h

theorem Inv.write (h : Inv s) (data : List B) (now : Int) : Inv (write name s data now) := by
  unfold LogFile.write
  dsimp only
  split
  · exact (h.append data).roll now
  · exact h.append data

/-- What `roll` overwrites is missing. -/
theorem length_roll (h : Inv s) (now : Int) :
    (kept s).length = (kept (roll name s now)).length + overwritten name s now := by
  unfold overwritten
  by_cases hnow : s.lastRollSecond < now
  · rw [kept_roll h hnow]
    by_cases hmem : name now ∈ s.opened
    · rw [if_pos ⟨hnow, hmem⟩, kept, ((List.perm_cons_erase hmem).flatMap_right s.files).length_eq,
        List.flatMap_cons, List.length_append, Nat.add_comm]
    · rw [if_neg fun hc => hmem hc.2, List.erase_of_not_mem hmem]
      rfl
  · rw [if_neg fun hc => hnow hc.1, roll, if_neg hnow]
    rfl

/-- What is missing after a write was missing before, or is lost by it. -/
theorem length_write (h : Inv s) (data : List B) (now : Int) :
    (write name s data now).written.length + (kept s).length =
      s.written.length + (kept (write name s data now)).length + writeLoss name s data now := by
  have happ : (kept (append s data)).length + (if s.ofs = none then data.length else 0) =
      (kept s).length + data.length := by
    rw [kept_append h]
    split
    · rfl
    · rw [List.length_append]
      rfl
  have hroll : _ = _ + overwritten name (append s data) now := length_roll (h.append data) now
  have hwritten : (append s data).written.length = s.written.length + data.length :=
    List.length_append
  unfold LogFile.write writeLoss
  dsimp only
  split
  · have hsame : (roll name (append s data) now).written = (append s data).written := by
      unfold LogFile.roll
      split <;> rfl
    rw [hsame]
    omega
  · omega

omit [DecidableEq N] in
theorem kept_eq_iff (h : Inv s) : kept s = s.written ↔ (kept s).length = s.written.length :=
  ⟨fun he => by rw [he], h.sublist.eq_of_length⟩

theorem kept_write_iff (h : Inv s) (data : List B) (now : Int) :
    kept (write name s data now) = (write name s data now).written ↔
      kept s = s.written ∧ writeLoss name s data now = 0 := by
  have hlen : _ = _ + writeLoss name s data now := length_write h data now
  have hinv : Inv (write name s data now) := h.write data now
  have hle := h.sublist.length_le
  have hle' := hinv.sublist.length_le
  rw [kept_eq_iff hinv, kept_eq_iff h]
  omega

omit [DecidableEq N] in
theorem Inv.setMaxFileSize (h : Inv s) (maxFileSize : Int) : Inv { s with maxFileSize } :=
  ⟨h.nodup, h.none, h.last, h.sublist⟩

theorem inv_make (files : N → List B) (now : Int) : Inv (make name files now) := by
  refine Inv.roll ⟨List.nodup_nil, fun _ => rfl, fun n hn => ?_, List.Sublist.refl _⟩ now
  cases hn

theorem kept_make (files : N → List B) (now : Int) :
    kept (make name files now) = (make name files now).written := by
  unfold make roll kept
  split
  · simp
  · rfl

theorem inv_step {a : Act B} (h : Inv s) (hs : step name s a = some t) : Inv t := by
  cases a with
  | write data now =>
    cases hs
    exact h.write data now
  | setMaxFileSize maxFileSize =>
    cases hs
    exact h.setMaxFileSize maxFileSize

theorem kept_step {a : Act B} (h : Inv s) (hs : step name s a = some t) :
    kept t = t.written ↔ kept s = s.written ∧ loss name s a = 0 := by
  cases a with
  | write data now =>
    cases hs
    exact kept_write_iff h data now
  | setMaxFileSize maxFileSize =>
    cases hs
    exact (and_iff_left rfl).symm

/-! ## Under the logger -/

variable {u v : Logger M N B}

/-- What the file is handed is what the logger has written. -/
theorem file_handed {cap : Nat} {len : M → Nat} {l l' : FileLogger.State M} {a : FileLogger.Act M}
    (hs : FileLogger.step cap len l a = some l') :
    l'.file = l.file ++ (handed l a).getD [] := by
  cases a with
  | construct =>
    simp only [FileLogger.step, FileLogger.construct] at hs
    repeat' split at hs
    all_goals
      cases hs
      try exact (List.append_nil _).symm
  | log msg =>
    simp only [FileLogger.step, Option.ite_none_right_eq_some] at hs
    obtain ⟨current, -, ⟨-, rfl⟩ | ⟨-, rfl⟩⟩ := FileLogger.log_cases hs.2
    · exact (List.append_nil _).symm
    · exact (List.append_nil _).symm
  | stop =>
    simp only [FileLogger.step, Option.ite_none_right_eq_some, Option.some.injEq] at hs
    obtain ⟨-, rfl⟩ := hs
    exact (List.append_nil _).symm
  | work =>
    unfold FileLogger.step FileLogger.work at hs
    unfold handed
    cases hpc : l.pc with
    | write i =>
      simp only [hpc] at hs ⊢
      obtain ⟨buffer, hb, rfl⟩ := Option.map_eq_some_iff.1 hs
      rw [hb]
      rfl
    | drain i =>
      simp only [hpc] at hs ⊢
      cases hb : l.full[i]? with
      | none =>
        simp only [hb] at hs
        cases hs
        exact (List.append_nil _).symm
      | some buffer =>
        simp only [hb] at hs
        cases hs
        rfl
    | swap =>
      simp only [hpc] at hs
      obtain ⟨current, -, rfl⟩ := Option.map_eq_some_iff.1 hs
      exact (List.append_nil _).symm
    | last =>
      simp only [hpc] at hs
      obtain ⟨current, -, rfl⟩ := Option.map_eq_some_iff.1 hs
      split
      · exact (List.append_nil _).symm
      · exact (List.append_nil _).symm
    | done =>
      simp only [hpc] at hs
      cases hs
    | _ =>
      simp only [hpc] at hs
      first
        | (cases hs; exact (List.append_nil _).symm)
        | (split at hs <;> cases hs <;> exact (List.append_nil _).symm)

theorem write_written (s : State N B) (data : List B) (now : Int) :
    (write name s data now).written = s.written ++ data := by
  unfold LogFile.write roll
  dsimp only
  split
  · split <;> rfl
  · rfl

theorem Logger.file_step {a : LogAct M} (h : LogFile.Inv u.file)
    (hs : u.step name bytes cap a = some v) : LogFile.Inv v.file := by
  cases a with
  | setMaxFileSize maxFileSize =>
    cases hs
    exact h.setMaxFileSize maxFileSize
  | logger a now =>
    obtain ⟨l, hl, rfl⟩ := Option.map_eq_some_iff.1 hs
    dsimp only
    split
    · exact h.write _ now
    · exact h

theorem Logger.kept_step {a : LogAct M} (h : LogFile.Inv u.file)
    (hs : u.step name bytes cap a = some v) :
    kept v.file = v.file.written ↔
      kept u.file = u.file.written ∧ u.loss name bytes a = 0 := by
  cases a with
  | setMaxFileSize maxFileSize =>
    cases hs
    exact (and_iff_left rfl).symm
  | logger a now =>
    obtain ⟨l, hl, rfl⟩ := Option.map_eq_some_iff.1 hs
    unfold Logger.loss
    dsimp only
    split
    · exact kept_write_iff h _ now
    · exact (and_iff_left rfl).symm

/-- What is in the files is what the logger says it has written. -/
structure Logger.Inv (bytes : M → List B) (u : Logger M N B) : Prop where
  logger : FileLogger.Inv u.logger
  written : u.file.written = u.logger.file.flatMap bytes

theorem Logger.inv_step {a : LogAct M} (h : u.Inv bytes) (hs : u.step name bytes cap a = some v)
    (hok : u.Allowed bytes cap a v) : v.Inv bytes := by
  cases a with
  | setMaxFileSize maxFileSize =>
    cases hs
    exact ⟨h.logger, h.written⟩
  | logger a now =>
    obtain ⟨l, hl, rfl⟩ := Option.map_eq_some_iff.1 hs
    have hfile := file_handed hl
    refine ⟨h.logger.step hl hok, ?_⟩
    dsimp only
    rw [hfile, List.flatMap_append, ← h.written]
    split
    · rename_i buffer hb
      rw [write_written, hb]
      rfl
    · rename_i hb
      rw [hb]
      exact (List.append_nil _).symm

theorem accepted_of_done {l : FileLogger.State M} (h : FileLogger.Inv l) (hpc : l.pc = .done) :
    l.file = l.accepted := by
  have horder := h.order
  have hunw : FileLogger.unwritten l = [] := by
    unfold FileLogger.unwritten
    rw [hpc]
  rw [hunw, h.drained (by rw [hpc]; rfl)] at horder
  simpa using horder

/-! ## Top theorems -/

/-- The files have what was written, in order, exactly if no step loses a byte. -/
theorem kept_iff {files : N → List B} {now : Int} {as : List (Act B)}
    (hr : run (step name) (make name files now) as = some t) :
    kept t = t.written ↔ EachStep (step name) (fun s a _ => loss name s a = 0)
      (make name files now) as := by
  have h := @run_iff _ _ (step name) Inv (fun s a _ => loss name s a = 0)
    (fun s => kept s = s.written) (fun s a t hinv hs => kept_step hinv hs)
    (fun s a t hinv hs => inv_step hinv hs) _ _ _ (inv_make files now) hr
  exact h.trans (and_iff_right (kept_make files now))

/-- Two seconds apart the local time is the same: `"a"` is overwritten. -/
def sameName : List (Act Char) :=
  [.setMaxFileSize 0, .write ['a'] 2, .write ['b'] 3, .write ['c'] 3]

theorem kept_iff_sameName : ∃ t, run (step fun now => now % 2) (make (fun now => now % 2)
    (fun _ => []) 1) sameName = some t ∧ kept t = ['b', 'c'] ∧ kept t ≠ t.written := by
  obtain ⟨t, ht, hk⟩ := run_eval (step fun now => now % 2)
    (make (fun now => now % 2) (fun _ => []) 1) sameName (fun t => kept t = ['b', 'c'])
    (by decide +kernel)
  refine ⟨t, ht, hk, ?_⟩
  rw [Ne, kept_iff ht]
  decide +kernel

/-- **From `log` to the disk.**  When the logger is done, the files have the lines that were
accepted, in order, exactly if no step loses a byte of them. -/
theorem logged_iff {files : N → List B} {now : Int} {garbage : Bool} {as : List (LogAct M)}
    (hr : run (Logger.step name bytes cap) (Logger.init name files now garbage) as = some v)
    (hok : EachStep (Logger.step name bytes cap) (Logger.Allowed bytes cap)
      (Logger.init name files now garbage) as) (hdone : v.logger.pc = .done) :
    kept v.file = v.logger.accepted.flatMap bytes ↔
      EachStep (Logger.step name bytes cap) (fun u a _ => u.loss name bytes a = 0)
        (Logger.init name files now garbage) as := by
  have hinv : v.Inv bytes := by
    refine run_inv (Logger.Inv bytes) (fun u a v h hs hok => Logger.inv_step h hs hok)
      ⟨FileLogger.inv_init garbage, ?_⟩ hr hok
    show (make name files now).written = []
    unfold make roll
    split <;> rfl
  rw [← accepted_of_done hinv.logger hdone, ← hinv.written]
  have h := @run_iff _ _ (Logger.step name bytes cap) (fun u => LogFile.Inv u.file)
    (fun u a _ => u.loss name bytes a = 0) (fun u => kept u.file = u.file.written)
    (fun u a v hinv hs => Logger.kept_step hinv hs) (fun u a v hinv hs => Logger.file_step hinv hs)
    _ _ _ (inv_make files now) hr
  exact h.trans (and_iff_right (kept_make files now))

/-- Two lines, with a roll after each. -/
def twoLines : List (LogAct Char) :=
  List.replicate 4 (.logger .construct 1) ++ [.setMaxFileSize 0, .logger (.log 'a') 1] ++
    List.replicate 10 (.logger .work 2) ++
    [.logger (.log 'b') 3, .logger .stop 3] ++ List.replicate 4 (.logger .work 3)

theorem logged_iff_twoLines : ∃ v, run (Logger.step id (fun c : Char => [c]) 2)
    (Logger.init id (fun _ => []) 1 false) twoLines = some v ∧ v.logger.accepted = ['a', 'b'] ∧
    v.file.opened = [1, 2, 3] ∧ kept v.file = v.logger.accepted.flatMap fun c => [c] := by
  obtain ⟨v, hv, hdone, hacc, hopened⟩ := run_eval (Logger.step id (fun c : Char => [c]) 2)
    (Logger.init id (fun _ => []) 1 false) twoLines
    (fun v => v.logger.pc = .done ∧ v.logger.accepted = ['a', 'b'] ∧ v.file.opened = [1, 2, 3])
    (by decide +kernel)
  refine ⟨v, hv, hacc, hopened, ?_⟩
  rw [logged_iff hv (by decide +kernel) hdone]
  decide +kernel

end Kosio.LogFile
