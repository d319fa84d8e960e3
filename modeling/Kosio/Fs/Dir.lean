import Mathlib.Data.Nat.Init
import Mathlib.Logic.Function.Basic
import Kosio.Common.Error

/-!
# `Dir::create_dir_all`

A view of a path is a pointer and a length, and `mkdir` is handed the pointer:
it makes the directory of the C string that starts there, of whatever part of it
the view is.  A shorter view of the same path is the same C string, so the climb
to the root and the way back down ask for the same directory again and again;
and the climb starts when that directory exists, not when its parent is missing.
What is left is the first `mkdir` (`createDirAll_eq`), and all missing parents
are there after it if and only if there was one directory to make
(`createDirAll_iff`).

A node is named by the names on the way to it, the innermost first.
-/

namespace Kosio.Fs

/-! ## File systems -/

abbrev Name := List Char

abbrev Node := List Name

inductive Kind where
  | dir
  | other
deriving DecidableEq

structure FileSystem where
  kind : Node → Option Kind
  /-- `AT_FDCWD` -/
  cwd : Node
  root : kind [] = some .dir
  parent : ∀ n node, kind (n :: node) ≠ none → kind node = some .dir
  cwd_dir : kind cwd = some .dir

def components (path : List Char) : List Name := (path.splitOn '/').filter (· ≠ [])

/-- The node a name stands for in a directory. -/
def enter (node : Node) (n : Name) : Node :=
  if n = ['.'] then node else if n = ['.', '.'] then node.tail else n :: node

namespace FileSystem

/-- The node names lead to from `node`; all but the last lead to directories. -/
def locateFrom (fs : FileSystem) (node : Node) : List Name → Option Node
  | [] => some node
  | n :: ns => if fs.kind node = some .dir then fs.locateFrom (enter node n) ns else none

def start (fs : FileSystem) (path : List Char) : Node :=
  if path.head? = some '/' then [] else fs.cwd

def locate (fs : FileSystem) (path : List Char) : Option Node :=
  if path = [] then none else fs.locateFrom (fs.start path) (components path)

def lookup (fs : FileSystem) (path : List Char) : Option Kind := (fs.locate path).bind fs.kind

/-! ### A new directory -/

theorem kind_tail (fs : FileSystem) {node : Node} (h : fs.kind node = some .dir) :
    fs.kind node.tail = some .dir := by
  cases node with
  | nil => exact h
  | cons n node =>
    refine fs.parent n node ?_
    rw [h]
    exact Option.some_ne_none _

theorem locateFrom_tail (fs : FileSystem) {ns : List Name} {node t : Node}
    (h : fs.kind node.tail = some .dir) (ht : fs.locateFrom node ns = some t) :
    fs.kind t.tail = some .dir := by
  induction ns generalizing node with
  | nil =>
    cases ht
    exact h
  | cons n ns ih =>
    obtain ⟨hdir, ht⟩ := Option.ite_none_right_eq_some.1 ht
    apply ih _ ht
    unfold enter
    split
    · exact h
    · split
      · exact fs.kind_tail h
      · exact hdir

theorem start_dir (fs : FileSystem) (path : List Char) : fs.kind (fs.start path) = some .dir := by
  unfold start
  split
  · exact fs.root
  · exact fs.cwd_dir

theorem locate_tail (fs : FileSystem) {path : List Char} {t : Node} (h : fs.locate path = some t) :
    fs.kind t.tail = some .dir :=
  fs.locateFrom_tail (fs.kind_tail (fs.start_dir path)) (Option.ite_none_left_eq_some.1 h).2

/-- `fs` with a directory `t`. -/
def add (fs : FileSystem) (t : Node) (h : fs.kind t.tail = some .dir) : FileSystem where
  kind := Function.update fs.kind t (some .dir)
  cwd := fs.cwd
  root := by
    rw [Function.update_apply]
    split
    · rfl
    · exact fs.root
  parent n node hn := by
    rw [Function.update_apply] at hn ⊢
    split
    · rfl
    · split at hn
      · next he =>
        rw [← he] at h
        exact h
      · exact fs.parent n node hn
  cwd_dir := by
    rw [Function.update_apply]
    split
    · rfl
    · exact fs.cwd_dir

end FileSystem

/-! ## Algorithm -/

def enoent : Error := ⟨2⟩

def eexist : Error := ⟨17⟩

/-- What `mkdir` does with the C string `path`. -/
def FileSystem.mkdir (fs : FileSystem) (path : List Char) : Result FileSystem :=
  match h : fs.locate path with
  | none => .error enoent
  | some t => if fs.kind t = none then .ok (fs.add t (fs.locate_tail h)) else .error eexist

/-- A `std::string_view`: its characters, none of them NUL, and those behind them, up to
the NUL. -/
structure View where
  chars : List Char
  behind : List Char

/-- The C string at `data()`. -/
def View.cString (v : View) : List Char := v.chars ++ v.behind

/-- `substr(0, pos)` -/
def View.substr (v : View) (pos : Nat) : View := ⟨v.chars.take pos, v.chars.drop pos ++ v.behind⟩

/-- `rfind('/')` -/
def rfind (chars : List Char) : Option Nat :=
  ((List.range chars.length).filter fun i => chars[i]? = some '/').getLast?

theorem rfind_lt {chars : List Char} {pos : Nat} (h : rfind chars = some pos) :
    pos < chars.length := by
  have := List.mem_of_getLast? h
  rw [List.mem_filter, List.mem_range] at this
  exact this.1

def createDir (fs : FileSystem) (dirPath : View) : Result FileSystem := fs.mkdir dirPath.cString

/-- How the first loop ends. -/
inductive Climbed where
  | failed (e : Error)
  | stopped (fs : FileSystem) (dirStack : List View)

/-- The first loop. -/
def climb (fs : FileSystem) (dirStack : List View) (currentPath : View) : Climbed :=
  match _h : rfind currentPath.chars with
  | none => .stopped fs (currentPath :: dirStack)
  | some pos =>
    match createDir fs (currentPath.substr pos) with
    | .ok fs' => .stopped fs' (currentPath :: dirStack)
    | .error e =>
      if e ≠ eexist then .failed e
      else climb fs (currentPath :: dirStack) (currentPath.substr pos)
termination_by currentPath.chars.length
decreasing_by
  have := rfind_lt ‹_›
  show (currentPath.chars.take pos).length < _
  rw [List.length_take]
  omega

/-- The second loop. -/
def descend (fs : FileSystem) : List View → Result Unit × FileSystem
  | [] => (.ok (), fs)
  | top :: dirStack =>
    match createDir fs top with
    | .error e => (.error e, fs)
    | .ok fs' => descend fs' dirStack

def createDirAll (fs : FileSystem) (dirPath : View) : Result Unit × FileSystem :=
  match createDir fs dirPath with
  | .ok fs' => (.ok (), fs')
  | .error e =>
    if e ≠ eexist then (.error e, fs)
    else
      match climb fs [] dirPath with
      | .failed e => (.error e, fs)
      | .stopped fs' dirStack => descend fs' dirStack

/-! ## Specification -/

/-- `p` is a non-empty prefix of the path, up to one of its `/` or the whole. -/
def IsPrefix (p path : List Char) : Prop := p ≠ [] ∧ (p = path ∨ ∃ q, path = p ++ '/' :: q)

/-- No prefix of the path is something other than a directory. -/
def Open (fs : FileSystem) (path : List Char) : Prop :=
  ∀ p, IsPrefix p path → fs.lookup p ≠ some .other

/-- Where the path is open its prefixes become directories, and nothing else is
made; where it is not, the call fails. -/
structure MakesAll (fs : FileSystem) (path : View) : Prop where
  ok : Open fs path.chars → (createDirAll fs path).1 = .ok ()
  made : Open fs path.chars → ∀ p, IsPrefix p path.chars →
    (createDirAll fs path).2.lookup p = some .dir
  only : Open fs path.chars → ∀ node, (createDirAll fs path).2.kind node = fs.kind node ∨
    (fs.kind node = none ∧ ∃ p, IsPrefix p path.chars ∧
      (createDirAll fs path).2.locate p = some node)
  refused : ¬ Open fs path.chars → ∃ e, (createDirAll fs path).1 = .error e

/-- The directory does not exist and its parent does. -/
def Makeable (fs : FileSystem) (path : List Char) : Prop :=
  ∃ t, fs.locate path = some t ∧ fs.kind t = none

/-- Where the path is open there is one directory to make, the one the C string
names and the path too; where it is not, the C string names none. -/
structure OneMissing (fs : FileSystem) (path : View) : Prop where
  makeable : Open fs path.chars → Makeable fs path.cString
  same : Open fs path.chars → fs.locate path.chars = fs.locate path.cString
  refused : ¬ Open fs path.chars → ¬ Makeable fs path.cString

/-! ## Paths -/

theorem components_append (u w : List Char) :
    components (u ++ '/' :: w) = components u ++ components w := by
  rw [components, List.splitOn_append_cons_self, List.filter_append]
  rfl

theorem components_of_not_mem {w : List Char} (h : '/' ∉ w) :
    components w = if w = [] then [] else [w] := by
  rw [components, List.splitOn_eq_singleton h]
  by_cases hw : w = [] <;> simp [hw]

/-- A path without a name in it is slashes only. -/
theorem components_eq_nil {q r : List Char} (h : components (q ++ r) = []) :
    components q = [] := by
  induction q with
  | nil => rfl
  | cons x q ih =>
    by_cases hx : x = '/'
    · subst hx
      have hcons : ∀ w, components ('/' :: w) = components w := fun w => components_append [] w
      rw [List.cons_append, hcons] at h
      rw [hcons]
      exact ih h
    · exfalso
      obtain ⟨hd, tl, hs⟩ := List.exists_cons_of_ne_nil (List.splitOn_ne_nil '/' (q ++ r))
      rw [components, List.cons_append, List.splitOn_cons_eq_if_modifyHead,
        if_neg (by simpa using hx), hs] at h
      simp at h

/-- The last `/`. -/
theorem exists_last_slash {path : List Char} (h : '/' ∈ path) :
    ∃ u w, path = u ++ '/' :: w ∧ '/' ∉ w := by
  obtain ⟨w, u, he, hw⟩ := List.eq_append_cons_of_mem (List.mem_reverse.2 h)
  refine ⟨u.reverse, w.reverse, ?_, by simpa using hw⟩
  have := congrArg List.reverse he
  simpa using this

namespace FileSystem

variable {fs fs' : FileSystem}

theorem locateFrom_append (fs : FileSystem) (node : Node) (xs ys : List Name) :
    fs.locateFrom node (xs ++ ys) = (fs.locateFrom node xs).bind fun d => fs.locateFrom d ys := by
  induction xs generalizing node with
  | nil => rfl
  | cons x xs ih =>
    rw [List.cons_append, locateFrom, locateFrom]
    split
    · exact ih _
    · rfl

/-- More directories lead to the same nodes. -/
theorem locateFrom_mono (h : ∀ node, fs.kind node = some .dir → fs'.kind node = some .dir)
    {ns : List Name} {node t : Node} (ht : fs.locateFrom node ns = some t) :
    fs'.locateFrom node ns = some t := by
  induction ns generalizing node with
  | nil => exact ht
  | cons n ns ih =>
    obtain ⟨hdir, ht⟩ := Option.ite_none_right_eq_some.1 ht
    rw [locateFrom, if_pos (h node hdir)]
    exact ih ht

theorem start_append {p r : List Char} (hp : p ≠ []) : fs.start (p ++ r) = fs.start p := by
  cases p with
  | nil => exact absurd rfl hp
  | cons x p => rfl

theorem locate_eq {path : List Char} (h : path ≠ []) :
    fs.locate path = fs.locateFrom (fs.start path) (components path) := if_neg h

theorem locate_slash {p w : List Char} (hp : p ≠ []) :
    fs.locate (p ++ '/' :: w) = (fs.locate p).bind fun d => fs.locateFrom d (components w) := by
  rw [locate_eq (by simp), locate_eq hp, start_append hp, components_append, locateFrom_append]

theorem locate_mono (hcwd : fs'.cwd = fs.cwd)
    (h : ∀ node, fs.kind node = some .dir → fs'.kind node = some .dir)
    {path : List Char} {t : Node} (ht : fs.locate path = some t) : fs'.locate path = some t := by
  obtain ⟨hne, ht⟩ := Option.ite_none_left_eq_some.1 ht
  have hstart : fs'.start path = fs.start path := by
    unfold start
    rw [hcwd]
  rw [locate_eq hne, hstart]
  exact locateFrom_mono h ht

/-- The way to a node of the path is on the way to what the C string names. -/
theorem locate_chars {path behind : List Char} {t : Node} (hp : path ≠ [])
    (ht : fs.locate (path ++ behind) = some t) : ∃ t', fs.locate path = some t' := by
  by_cases hs : '/' ∈ path
  · obtain ⟨u, w, rfl, hw⟩ := exists_last_slash hs
    by_cases hu : u = []
    · subst hu
      rw [locate_eq hp, List.nil_append, show '/' :: w = [] ++ '/' :: w from rfl,
        components_append, components_of_not_mem hw]
      have hroot := fs.start_dir ([] ++ '/' :: w)
      split
      · exact ⟨_, rfl⟩
      · exact ⟨_, if_pos hroot⟩
    · rw [List.append_assoc, List.cons_append, locate_slash hu, Option.bind_eq_some_iff] at ht
      obtain ⟨d, hd, ht⟩ := ht
      rw [locate_slash hu, hd, Option.bind_some, components_of_not_mem hw]
      split
      · exact ⟨_, rfl⟩
      · next hne =>
        -- there is a name left, so `d` is a directory
        cases hc : components (w ++ behind) with
        | nil =>
          have := components_eq_nil hc
          rw [components_of_not_mem hw, if_neg hne] at this
          cases this
        | cons n ns =>
          rw [hc] at ht
          exact ⟨_, if_pos (Option.ite_none_right_eq_some.1 ht).1⟩
  · rw [locate_eq hp, components_of_not_mem hs, if_neg hp]
    exact ⟨_, if_pos (fs.start_dir path)⟩

end FileSystem

/-! ## What a call does -/

open FileSystem

theorem mkdir_of_makeable {fs : FileSystem} {path : List Char} {t : Node}
    (ht : fs.locate path = some t) (hk : fs.kind t = none) :
    fs.mkdir path = .ok (fs.add t (fs.locate_tail ht)) := by
  unfold FileSystem.mkdir
  split
  · next h =>
    rw [ht] at h
    cases h
  · next t' h =>
    rw [ht] at h
    cases h
    rw [if_pos hk]

theorem mkdir_of_missing {fs : FileSystem} {path : List Char} (h : fs.locate path = none) :
    fs.mkdir path = .error enoent := by
  unfold FileSystem.mkdir
  split
  · rfl
  · next t' ht =>
    rw [h] at ht
    cases ht

theorem mkdir_of_exists {fs : FileSystem} {path : List Char} {t : Node}
    (ht : fs.locate path = some t) (hk : fs.kind t ≠ none) : fs.mkdir path = .error eexist := by
  unfold FileSystem.mkdir
  split
  · next h =>
    rw [ht] at h
    cases h
  · next t' h =>
    rw [ht] at h
    cases h
    rw [if_neg hk]

theorem mkdir_error {fs : FileSystem} {path : List Char} (h : ¬ Makeable fs path) :
    ∃ e, fs.mkdir path = .error e := by
  cases hl : fs.locate path with
  | none => exact ⟨_, mkdir_of_missing hl⟩
  | some t => exact ⟨_, mkdir_of_exists hl fun hk => h ⟨t, hl, hk⟩⟩

theorem cString_substr (v : View) (pos : Nat) : (v.substr pos).cString = v.cString := by
  unfold View.cString View.substr
  rw [← List.append_assoc, List.take_append_drop]

/-- **The climb.**  Every view on the way is the same C string, which still exists. -/
theorem climb_eq {fs : FileSystem} {v : View} (h : createDir fs v = .error eexist)
    (dirStack : List View) :
    ∃ top rest, climb fs dirStack v = .stopped fs (top :: rest) ∧ top.cString = v.cString := by
  induction hn : v.chars.length using Nat.strong_induction_on generalizing v dirStack with
  | _ n ih =>
    rw [climb]
    split
    · exact ⟨v, dirStack, rfl, rfl⟩
    · next pos hpos =>
      have hsub : createDir fs (v.substr pos) = .error eexist := by
        rw [createDir, cString_substr]
        exact h
      have hlen : (v.substr pos).chars.length < n := by
        have := rfind_lt hpos
        show (v.chars.take pos).length < n
        rw [List.length_take]
        omega
      obtain ⟨top, rest, hc, ht⟩ := ih _ hlen hsub (v :: dirStack) rfl
      refine ⟨top, rest, ?_, ht.trans (cString_substr v pos)⟩
      rw [hsub]
      dsimp only
      rw [if_neg (fun hne => hne rfl), hc]

/-- **A call is its first `mkdir`.** -/
theorem createDirAll_eq (fs : FileSystem) (path : View) : createDirAll fs path =
    match fs.mkdir path.cString with
    | .ok fs' => (.ok (), fs')
    | .error e => (.error e, fs) := by
  unfold createDirAll
  cases hm : createDir fs path with
  | ok fs' =>
    have hm : fs.mkdir path.cString = .ok fs' := hm
    rw [hm]
  | error e =>
    have hm' : fs.mkdir path.cString = .error e := hm
    rw [hm']
    dsimp only
    split
    · rfl
    · next he =>
      have he : e = eexist := not_not.1 he
      subst he
      obtain ⟨top, rest, hc, ht⟩ := climb_eq hm []
      have htop : createDir fs top = .error eexist := by
        rw [createDir, ht]
        exact hm
      rw [hc]
      dsimp only
      rw [descend, htop]

section Result

variable {fs : FileSystem} {path : View} {t : Node}

theorem createDirAll_of_makeable (ht : fs.locate path.cString = some t)
    (hk : fs.kind t = none) :
    createDirAll fs path = (.ok (), fs.add t (fs.locate_tail ht)) := by
  rw [createDirAll_eq, mkdir_of_makeable ht hk]

theorem createDirAll_error (h : ¬ Makeable fs path.cString) :
    ∃ e, createDirAll fs path = (.error e, fs) := by
  obtain ⟨e, he⟩ := mkdir_error h
  exact ⟨e, by rw [createDirAll_eq, he]⟩

theorem add_kind_dir (h : fs.kind t.tail = some .dir) {node : Node}
    (hd : fs.kind node = some .dir) : (fs.add t h).kind node = some .dir := by
  show Function.update fs.kind t (some .dir) node = _
  rw [Function.update_apply]
  split
  · rfl
  · exact hd

theorem add_locate (h : fs.kind t.tail = some .dir) {p : List Char} {node : Node}
    (hp : fs.locate p = some node) : (fs.add t h).locate p = some node :=
  locate_mono (show (fs.add t h).cwd = fs.cwd from rfl) (fun _ hd => add_kind_dir h hd) hp

/-- A prefix names a directory, or what the path names. -/
theorem locate_prefix {p : List Char} (hpre : IsPrefix p path.chars)
    (ht : fs.locate path.chars = some t) :
    fs.locate p = some t ∨ ∃ d, fs.locate p = some d ∧ fs.kind d = some .dir := by
  obtain ⟨hp, rfl | ⟨q, hq⟩⟩ := hpre
  · exact Or.inl ht
  · rw [hq, locate_slash hp, Option.bind_eq_some_iff] at ht
    obtain ⟨d, hd, ht⟩ := ht
    cases hc : components q with
    | nil =>
      rw [hc] at ht
      cases ht
      exact Or.inl hd
    | cons n ns =>
      rw [hc] at ht
      exact Or.inr ⟨d, hd, (Option.ite_none_right_eq_some.1 ht).1⟩

/-- If a prefix names the directory that was made, the path does. -/
theorem locate_of_prefix (h : fs.kind t.tail = some .dir) {p : List Char}
    (hpre : IsPrefix p path.chars) (ht : fs.locate path.cString = some t) (hk : fs.kind t = none)
    (hp : (fs.add t h).locate p = some t) : fs.locate path.chars = some t := by
  obtain ⟨hne, rfl | ⟨q, hq⟩⟩ := hpre
  · obtain ⟨t', ht'⟩ := locate_chars hne ht
    rw [add_locate h ht'] at hp
    cases hp
    exact ht'
  · rw [View.cString, hq, List.append_assoc, List.cons_append, locate_slash hne,
      Option.bind_eq_some_iff] at ht
    obtain ⟨d, hd, ht⟩ := ht
    rw [add_locate h hd] at hp
    cases hp
    cases hc : components (q ++ path.behind) with
    | nil =>
      rw [hq, locate_slash hne, hd, Option.bind_some, components_eq_nil hc]
      rfl
    | cons n ns =>
      rw [hc] at ht
      rw [(Option.ite_none_right_eq_some.1 ht).1] at hk
      cases hk

theorem add_kind_self (h : fs.kind t.tail = some .dir) : (fs.add t h).kind t = some .dir :=
  Function.update_self ..

theorem add_kind_other (h : fs.kind t.tail = some .dir) {node : Node} (hne : node ≠ t) :
    (fs.add t h).kind node = fs.kind node :=
  Function.update_of_ne hne ..

end Result

/-! ## Top theorem -/

section Top

variable {fs : FileSystem} {path : View}

/-- Where a call does what it should, there was one directory to make. -/
theorem MakesAll.oneMissing (h : MakesAll fs path) : OneMissing fs path := by
  have makeable : Open fs path.chars → Makeable fs path.cString := by
    intro ho
    by_contra hm
    obtain ⟨e, he⟩ := createDirAll_error hm
    have hok := h.ok ho
    rw [he] at hok
    cases hok
  refine ⟨makeable, ?_, ?_⟩
  · intro ho
    obtain ⟨t, ht, hk⟩ := makeable ho
    have honly := h.only ho t
    rw [createDirAll_of_makeable ht hk] at honly
    obtain hsame | ⟨-, p, hpre, hp⟩ := honly
    · rw [add_kind_self (fs.locate_tail ht), hk] at hsame
      cases hsame
    · rw [ht]
      exact locate_of_prefix (fs.locate_tail ht) hpre ht hk hp
  · intro ho hm
    obtain ⟨t, ht, hk⟩ := hm
    obtain ⟨e, he⟩ := h.refused ho
    rw [createDirAll_of_makeable ht hk] at he
    cases he

/-- Where there was one directory to make, a call does what it should. -/
theorem OneMissing.makesAll (h : OneMissing fs path) : MakesAll fs path := by
  -- what an open path leaves to make
  have hone : Open fs path.chars → ∃ t, ∃ ht : fs.locate path.cString = some t,
      fs.locate path.chars = some t ∧
        createDirAll fs path = (.ok (), fs.add t (fs.locate_tail ht)) := by
    intro ho
    obtain ⟨t, ht, hk⟩ := h.makeable ho
    exact ⟨t, ht, (h.same ho).trans ht, createDirAll_of_makeable ht hk⟩
  refine ⟨?_, ?_, ?_, ?_⟩
  · intro ho
    obtain ⟨t, ht, -, hc⟩ := hone ho
    rw [hc]
  · intro ho p hpre
    obtain ⟨t, ht, hpath, hc⟩ := hone ho
    rw [hc]
    show ((fs.add t (fs.locate_tail ht)).locate p).bind (fs.add t (fs.locate_tail ht)).kind =
      some .dir
    obtain hp | ⟨d, hp, hd⟩ := locate_prefix hpre hpath
    · rw [add_locate (fs.locate_tail ht) hp]
      exact add_kind_self (fs.locate_tail ht)
    · rw [add_locate (fs.locate_tail ht) hp]
      exact add_kind_dir (fs.locate_tail ht) hd
  · intro ho node
    obtain ⟨t, ht, hpath, hc⟩ := hone ho
    obtain ⟨t', ht', hk⟩ := h.makeable ho
    rw [ht] at ht'
    cases ht'
    rw [hc]
    by_cases hn : node = t
    · subst hn
      have hne : path.chars ≠ [] := fun he => by
        rw [he] at hpath
        cases hpath
      exact Or.inr ⟨hk, path.chars, ⟨hne, Or.inl rfl⟩,
        add_locate (fs.locate_tail ht) hpath⟩
    · exact Or.inl (add_kind_other (fs.locate_tail ht) hn)
  · intro ho
    obtain ⟨e, he⟩ := createDirAll_error (h.refused ho)
    exact ⟨e, by rw [he]⟩

/-- **All parents are made if and only if one is missing**: for every file system
and every view of a path. -/
theorem createDirAll_iff (fs : FileSystem) (path : View) :
    MakesAll fs path ↔ OneMissing fs path :=
  ⟨MakesAll.oneMissing, OneMissing.makesAll⟩

end Top

/-! ### Two missing directories, and none -/

/-- Nothing but the root. -/
def bare : FileSystem where
  kind node := if node = [] then some .dir else none
  cwd := []
  root := rfl
  parent n node h := by
    rw [if_neg (List.cons_ne_nil n node)] at h
    exact absurd rfl h
  cwd_dir := rfl

/-- The root and `/a`. -/
def bareA : FileSystem := bare.add [['a']] rfl

theorem open_of_dirs {fs : FileSystem} (h : ∀ node, fs.kind node ≠ some .other)
    (path : List Char) : Open fs path := by
  intro p _ hp
  obtain ⟨node, -, hk⟩ := Option.bind_eq_some_iff.1 hp
  exact h node hk

theorem bare_dirs (node : Node) : bare.kind node ≠ some .other := by
  show (if node = [] then some Kind.dir else none) ≠ some .other
  split <;> decide

theorem bareA_dirs (node : Node) : bareA.kind node ≠ some .other := by
  by_cases hn : node = [['a']]
  · subst hn
    decide
  · rw [show bareA.kind node = bare.kind node from add_kind_other _ hn]
    exact bare_dirs node

theorem not_makesAll {fs : FileSystem} {path : View} {e : Error} (ho : Open fs path.chars)
    (he : (createDirAll fs path).1 = .error e) : ¬ MakesAll fs path := by
  intro h
  rw [h.ok ho] at he
  cases he

/-- `a/b` is refused where neither exists, and `a` where it exists. -/
theorem createDirAll_not_all :
    ((createDirAll bare ⟨['a', '/', 'b'], []⟩).1 = .error enoent ∧
      ¬ MakesAll bare ⟨['a', '/', 'b'], []⟩) ∧
    ((createDirAll bareA ⟨['a'], []⟩).1 = .error eexist ∧ ¬ MakesAll bareA ⟨['a'], []⟩) := by
  have hmissing : (createDirAll bare ⟨['a', '/', 'b'], []⟩).1 = .error enoent := by
    rw [createDirAll_eq, mkdir_of_missing (by decide)]
  have hexists : (createDirAll bareA ⟨['a'], []⟩).1 = .error eexist := by
    rw [createDirAll_eq, mkdir_of_exists (t := [['a']]) (by decide) (by decide)]
  exact ⟨⟨hmissing, not_makesAll (open_of_dirs bare_dirs _) hmissing⟩,
    hexists, not_makesAll (open_of_dirs bareA_dirs _) hexists⟩

end Kosio.Fs
