import Cacher.Lib.CString
import Cacher.Lib.Prog
import Mathlib.Data.List.Infix

/-!
# `Cacher.Lib.Files`: a file system, and programs over it

`FileSystem` maps paths to file contents and records which directories exist. `FileOp`
lists the file calls of APR, one constructor a call, and `FileProg` is a program over
them. `World.answer` says what a call does: the environment decides through
`World.script` whether the call fails, which suffix `apr_file_mktemp` picks and what the
clock reads, so a statement about every script covers every outcome of every call.
`World.log` records the calls made and whether each succeeded.

An open file for reading is its contents at the time of the open. This is what a reader
sees as long as a file is only ever replaced by a rename and never written in place
after it has reached its final name. Writes append to the file under the given name.
A write to a name that is gone succeeds and has no effect, like a write to an unlinked
file.
-/

set_option autoImplicit false

namespace Files

open CText

/-- A path name. -/
abbrev Path := CString

/-- The contents of a file. -/
abbrev Bytes := List UInt8

/-- Files with their contents, and the directories that exist. -/
structure FileSystem where
  files : List (Path × Bytes)
  dirs : List Path

namespace FileSystem

/-- The file system without any file. -/
def empty : FileSystem := ⟨[], []⟩

/-- The contents of the file at `p`. -/
def read (fs : FileSystem) (p : Path) : Option Bytes := fs.files.lookup p

/-- Removes the file at `p`. -/
def erase (fs : FileSystem) (p : Path) : FileSystem :=
  { fs with files := fs.files.filter (·.1 != p) }

/-- Creates or replaces the file at `p`. -/
def put (fs : FileSystem) (p : Path) (b : Bytes) : FileSystem :=
  { fs with files := (p, b) :: (fs.erase p).files }

/-- Appends to the file at `p`, if there is one. -/
def append (fs : FileSystem) (p : Path) (b : Bytes) : FileSystem :=
  match fs.read p with
  | some old => fs.put p (old ++ b)
  | none => fs

/-- Moves the file at `src` over `dst`. -/
def move (fs : FileSystem) (src dst : Path) : FileSystem :=
  match fs.read src with
  | some b => (fs.erase src).put dst b
  | none => fs

theorem lookup_filter_ne (l : List (Path × Bytes)) (p q : Path) :
    (l.filter (·.1 != p)).lookup q = if q = p then none else l.lookup q := by
  induction l with
  | nil => simp
  | cons e l ih =>
      obtain ⟨k, b⟩ := e
      by_cases hk : k = p
      · -- The entry is dropped, which matters to a lookup of `p` only.
        subst hk
        rw [List.filter_cons_of_neg (by simp), ih, List.lookup_cons]
        by_cases hq : q = k
        · simp [hq]
        · rw [if_neg hq, if_neg hq, beq_false_of_ne hq]
      · rw [List.filter_cons_of_pos (by simpa using hk), List.lookup_cons, List.lookup_cons, ih]
        by_cases hq : q = p
        · subst hq
          rw [if_pos rfl, if_pos rfl, beq_false_of_ne (Ne.symm hk)]
        · simp [hq]

theorem read_erase (fs : FileSystem) (p q : Path) :
    (fs.erase p).read q = if q = p then none else fs.read q :=
  lookup_filter_ne fs.files p q

theorem read_put (fs : FileSystem) (p q : Path) (b : Bytes) :
    (fs.put p b).read q = if q = p then some b else fs.read q := by
  show List.lookup q ((p, b) :: (fs.erase p).files) = _
  rw [List.lookup_cons]
  by_cases hq : q = p
  · simp [hq]
  · have : (q == p) = false := by simpa using hq
    rw [this]
    show (fs.erase p).read q = _
    rw [read_erase, if_neg hq, if_neg hq]

theorem read_append (fs : FileSystem) (p q : Path) (b : Bytes) :
    (fs.append p b).read q = if q = p then (fs.read p).map (· ++ b) else fs.read q := by
  unfold append
  cases hp : fs.read p with
  | none =>
      by_cases hq : q = p
      · simp [hq, hp]
      · simp [hq]
  | some old => simp [read_put]

/-- A file that is made and then written holds what has been written. -/
theorem read_append_put (fs : FileSystem) (p q : Path) (b : Bytes) :
    ((fs.put p []).append p b).read q = if q = p then some b else fs.read q := by
  rw [read_append, read_put, read_put, if_pos rfl]
  by_cases hq : q = p
  · rw [if_pos hq, if_pos hq]
    rfl
  · rw [if_neg hq, if_neg hq, if_neg hq]

/-- A move takes the contents along and leaves nothing behind. -/
theorem read_move {fs : FileSystem} {src : Path} {b : Bytes} (h : fs.read src = some b)
    (dst q : Path) :
    (fs.move src dst).read q
      = if q = dst then some b else if q = src then none else fs.read q := by
  unfold move
  rw [h]
  show ((fs.erase src).put dst b).read q = _
  rw [read_put, read_erase]

/-- The directory part of a path. -/
def dirname (p : Path) : Path := ((p.reverse.dropWhile (· != chr '/')).drop 1).reverse

/-- The directories above a path: its proper prefixes that end before a slash. -/
def parents (p : Path) : List Path :=
  p.inits.filter fun q => q != [] && (q ++ [chr '/']).isPrefixOf p

/-- Creates a directory with its parents, where they are missing. -/
def makeDir (fs : FileSystem) (p : Path) : FileSystem :=
  { fs with dirs := (p :: parents p).union fs.dirs }

/-- The last component of a path. -/
def basename (p : Path) : CString := (p.reverse.takeWhile (· != chr '/')).reverse

/-- What reading a directory yields: the name and whether it is a directory. -/
def entries (fs : FileSystem) (dir : Path) : List (CString × Bool) :=
  (fs.files.filter (dirname ·.1 == dir)).map (fun e => (basename e.1, false))
    ++ (fs.dirs.filter (dirname · == dir)).map (fun d => (basename d, true))

theorem dirname_append (dir : Path) {name : CString} (h : chr '/' ∉ name) :
    dirname (dir ++ chr '/' :: name) = dir := by
  have hne : ∀ c ∈ name.reverse, (c != chr '/') = true := by
    intro c hc
    simp only [bne_iff_ne]
    rintro rfl
    exact h (List.mem_reverse.mp hc)
  rw [dirname, List.reverse_append, List.reverse_cons, List.append_assoc,
    List.dropWhile_append_of_pos hne]
  simp

theorem basename_append (dir : Path) {name : CString} (h : chr '/' ∉ name) :
    basename (dir ++ chr '/' :: name) = name := by
  have hne : ∀ c ∈ name.reverse, (c != chr '/') = true := by
    intro c hc
    simp only [bne_iff_ne]
    rintro rfl
    exact h (List.mem_reverse.mp hc)
  rw [basename, List.reverse_append, List.reverse_cons, List.append_assoc,
    List.takeWhile_append_of_pos hne]
  simp

/-- The last component is one component. -/
theorem slash_notMem_basename (p : Path) : chr '/' ∉ basename p := by
  intro h
  have hne := List.mem_takeWhile_imp (List.mem_reverse.mp h)
  simp at hne

theorem mem_files_of_read {fs : FileSystem} {q : Path} {b : Bytes} (h : fs.read q = some b) :
    (q, b) ∈ fs.files := by
  obtain ⟨l₁, l₂, hfiles, -⟩ := List.lookup_eq_some_iff.mp h
  rw [hfiles]
  simp

theorem exists_read_of_mem_files {fs : FileSystem} {q : Path} {b : Bytes} (h : (q, b) ∈ fs.files) :
    ∃ b', fs.read q = some b' :=
  Option.isSome_iff_exists.mp (List.lookup_isSome_iff.mpr ⟨(q, b), h, BEq.rfl⟩)

/-- A directory lists the files in it. -/
theorem mem_entries_file {fs : FileSystem} {dir : Path} {name : CString} :
    (name, false) ∈ fs.entries dir
      ↔ ∃ q b, fs.read q = some b ∧ dirname q = dir ∧ basename q = name := by
  simp only [entries, List.mem_append, List.mem_map, List.mem_filter, beq_iff_eq, Prod.mk.injEq]
  constructor
  · rintro (⟨⟨q, b⟩, ⟨hmem, hdir⟩, hname, -⟩ | ⟨d, -, -, hno⟩)
    · obtain ⟨b', hb'⟩ := exists_read_of_mem_files hmem
      exact ⟨q, b', hb', hdir, hname⟩
    · cases hno
  · rintro ⟨q, b, hb, hdir, hname⟩
    exact Or.inl ⟨(q, b), ⟨mem_files_of_read hb, hdir⟩, hname, trivial⟩

/-- A directory lists the directories in it. -/
theorem mem_entries_dir {fs : FileSystem} {dir : Path} {name : CString} :
    (name, true) ∈ fs.entries dir ↔ ∃ d ∈ fs.dirs, dirname d = dir ∧ basename d = name := by
  simp [entries, and_assoc]

end FileSystem

/-! ### The calls -/

/-- The six characters `apr_file_mktemp` puts in place of the `X`s. -/
structure TempSuffix where
  chars : CString
  length_eq : chars.length = 6
  alnum : ∀ c ∈ chars, isAlnum c = true
  deriving DecidableEq

instance : Inhabited TempSuffix := ⟨⟨lit "aaaaaa", by decide, List.all_eq_true.mp (by decide)⟩⟩

/-- The name a template yields: its trailing `XXXXXX` replaced by the suffix. -/
def tempName (template : Path) (suffix : TempSuffix) : Option Path :=
  if lit "XXXXXX" <:+ template then
    some (template.take (template.length - 6) ++ suffix.chars)
  else none

@[simp] theorem tempName_append (p : Path) (suffix : TempSuffix) :
    tempName (p ++ lit "XXXXXX") suffix = some (p ++ suffix.chars) := by
  have hlen : (lit "XXXXXX").length = 6 := rfl
  simp [tempName, List.suffix_append, hlen]

/-- The file calls of APR. -/
inductive FileOp where
  /-- `apr_time_sec(apr_time_now())`. -/
  | timeNow
  /-- `apr_file_open` for reading. -/
  | openRead (path : Path)
  /-- `apr_file_info_get` of the size of an open file. -/
  | infoSize (file : Bytes)
  /-- `apr_file_read_full` of `nbytes` bytes. -/
  | readFull (file : Bytes) (nbytes : Nat)
  /-- `apr_file_mktemp` with `APR_FOPEN_CREATE | APR_FOPEN_EXCL`. -/
  | mktemp (template : Path)
  /-- `apr_file_write_full` at the end of a file this program created. -/
  | writeFull (path : Path) (data : Bytes)
  /-- `apr_file_rename`. -/
  | rename (src dst : Path)
  /-- `apr_file_remove`. -/
  | remove (path : Path)
  /-- `apr_stat` of the size of a file. -/
  | stat (path : Path)
  /-- `apr_dir_make_recursive`. -/
  | dirMakeRecursive (path : Path)
  /-- `apr_dir_open` and the `apr_dir_read` loop over it. -/
  | dirRead (path : Path)
  deriving DecidableEq

/-- The calls that change no file and no directory. -/
def FileOp.ReadOnly : FileOp → Prop
  | .timeNow | .openRead _ | .infoSize _ | .readFull _ _ | .stat _ | .dirRead _ => True
  | .mktemp _ | .writeFull _ _ | .rename _ _ | .remove _ | .dirMakeRecursive _ => False

/-- The calls that change files at most by removing one. -/
def FileOp.OnlyRemoves : FileOp → Prop
  | .timeNow | .openRead _ | .infoSize _ | .readFull _ _ | .remove _ | .stat _ | .dirRead _ => True
  | .mktemp _ | .writeFull _ _ | .rename _ _ | .dirMakeRecursive _ => False

/-- The calls that fetch the contents of files, and the clock. -/
def FileOp.Fetches : FileOp → Prop
  | .timeNow | .openRead _ | .infoSize _ | .readFull _ _ => True
  | .mktemp _ | .writeFull _ _ | .rename _ _ | .remove _ | .stat _ | .dirMakeRecursive _
  | .dirRead _ => False

/-- The answer of each call. `none` and `false` stand for an error status. A template is
completed in place, so `mktemp` answers with the characters it has put there. -/
abbrev Ans : FileOp → Type
  | .timeNow => Int64
  | .openRead _ => Option Bytes
  | .infoSize _ => Option Nat
  | .readFull _ _ => Option Bytes
  | .mktemp _ => Option TempSuffix
  | .writeFull _ _ => Bool
  | .rename _ _ => Bool
  | .remove _ => Bool
  | .stat _ => Option Nat
  | .dirMakeRecursive _ => Bool
  | .dirRead _ => Option (List (CString × Bool))

/-- A program over the file calls. -/
abbrev FileProg : Type → Type := Prog FileOp Ans

/-- What the environment decides about one call: whether it may succeed, the clock
reading, the suffix of a temporary name, and how much a failing write gets out. -/
structure Outcome where
  ok : Bool
  clock : Int64
  suffix : TempSuffix
  written : Nat

/-- The outcome of every call, by the number of calls made before it. -/
abbrev Script : Type := Nat → FileOp → Outcome

/-- The file system, the outcomes still to come and the calls made so far. -/
structure World where
  fs : FileSystem
  script : Script
  log : List (FileOp × Bool)

namespace World

/-- The outcome of `op`, were it called now. -/
def outcome (w : World) (op : FileOp) : Outcome := w.script w.log.length op

/-- The clock reading of `timeNow`, were it called after `n` other calls. -/
def clockAt (w : World) (n : Nat) : Int64 := (w.script (w.log.length + n) .timeNow).clock

/-- The environment lets `op` succeed, were it called after `n` other calls. -/
def allowsAt (w : World) (n : Nat) (op : FileOp) : Bool := (w.script (w.log.length + n) op).ok

/-- The world after `op`, with the file system `fs`. -/
def record (w : World) (op : FileOp) (ok : Bool) (fs : FileSystem) : World :=
  { w with fs := fs, log := w.log ++ [(op, ok)] }

/-- A call that only reads: `a` is its answer if the environment lets it succeed. -/
def query {β : Type} (w : World) (op : FileOp) (a : Option β) : Option β × World :=
  let a := if (w.outcome op).ok then a else none
  (a, w.record op a.isSome w.fs)

/-- What each call does. -/
def answer (w : World) : (op : FileOp) → Ans op × World
  | .timeNow => ((w.outcome .timeNow).clock, w.record .timeNow true w.fs)
  | .openRead p => w.query (.openRead p) (w.fs.read p)
  | .infoSize file => w.query (.infoSize file) (some file.length)
  | .readFull file n =>
    w.query (.readFull file n) (if n ≤ file.length then some (file.take n) else none)
  | .mktemp template =>
    let op := FileOp.mktemp template
    match tempName template (w.outcome op).suffix with
    | some p =>
      -- `APR_FOPEN_EXCL`: a name in use is refused.
      if (w.outcome op).ok ∧ w.fs.read p = none then
        (some (w.outcome op).suffix, w.record op true (w.fs.put p []))
      else (none, w.record op false w.fs)
    | none => (none, w.record op false w.fs)
  | .writeFull p data =>
    let op := FileOp.writeFull p data
    if (w.outcome op).ok then (true, w.record op true (w.fs.append p data))
    -- A failing write may get a part of the data out.
    else (false, w.record op false (w.fs.append p (data.take (w.outcome op).written)))
  | .rename src dst =>
    let op := FileOp.rename src dst
    if (w.outcome op).ok ∧ (w.fs.read src).isSome then
      (true, w.record op true (w.fs.move src dst))
    else (false, w.record op false w.fs)
  | .remove p =>
    let op := FileOp.remove p
    if (w.outcome op).ok ∧ (w.fs.read p).isSome then (true, w.record op true (w.fs.erase p))
    else (false, w.record op false w.fs)
  | .stat p => w.query (.stat p) ((w.fs.read p).map (·.length))
  | .dirMakeRecursive p =>
    let op := FileOp.dirMakeRecursive p
    if (w.outcome op).ok then (true, w.record op true (w.fs.makeDir p))
    else (false, w.record op false w.fs)
  | .dirRead p =>
    w.query (.dirRead p) (if p ∈ w.fs.dirs then some (w.fs.entries p) else none)

end World

/-- Every call succeeds, where it can. -/
def Script.AllOk (s : Script) : Prop := ∀ n op, (s n op).ok = true

/-- No removal of an existing file fails. -/
def Script.RemovesOk (s : Script) : Prop := ∀ n p, (s n (.remove p)).ok = true

/-- No call that reads or removes fails, where it can succeed. -/
def Script.ReadsAndRemovesOk (s : Script) : Prop := ∀ n op, op.OnlyRemoves → (s n op).ok = true

/-- The clock does not go backwards. -/
def Script.ClockForward (s : Script) : Prop :=
  ∀ m n, m ≤ n → (s m .timeNow).clock ≤ (s n .timeNow).clock

/-- The script in which every call succeeds and the clock stands still. -/
def Script.steady (clock : Int64) : Script := fun _ _ =>
  { ok := true, clock := clock, suffix := default, written := 0 }

theorem Script.allOk_steady (clock : Int64) : (Script.steady clock).AllOk := fun _ _ => rfl

theorem Script.AllOk.removesOk {s : Script} (h : s.AllOk) : s.RemovesOk := fun n p => h n (.remove p)

/-- Runs a file program to its end. -/
abbrev run {α : Type} (p : FileProg α) (w : World) : α × World := Prog.exec World.answer p w

/-! Each call as a program of its own. -/

def timeNow : FileProg Int64 := Prog.perform FileOp.timeNow
def openRead (path : Path) : FileProg (Option Bytes) := Prog.perform (FileOp.openRead path)
def infoSize (file : Bytes) : FileProg (Option Nat) := Prog.perform (FileOp.infoSize file)
def readFull (file : Bytes) (nbytes : Nat) : FileProg (Option Bytes) :=
  Prog.perform (FileOp.readFull file nbytes)
def mktemp (template : Path) : FileProg (Option TempSuffix) :=
  Prog.perform (FileOp.mktemp template)
def writeFull (path : Path) (data : Bytes) : FileProg Bool :=
  Prog.perform (FileOp.writeFull path data)
def rename (src dst : Path) : FileProg Bool := Prog.perform (FileOp.rename src dst)
def remove (path : Path) : FileProg Bool := Prog.perform (FileOp.remove path)
def stat (path : Path) : FileProg (Option Nat) := Prog.perform (FileOp.stat path)
def dirMakeRecursive (path : Path) : FileProg Bool := Prog.perform (FileOp.dirMakeRecursive path)
def dirRead (path : Path) : FileProg (Option (List (CString × Bool))) :=
  Prog.perform (FileOp.dirRead path)

/-! ### What every call keeps -/

/-- The calls that can change what is at `q`. -/
def FileOp.Touches (q : Path) : FileOp → Prop
  | .mktemp template => ∃ suffix, tempName template suffix = some q
  | .writeFull p _ => p = q
  | .rename src dst => src = q ∨ dst = q
  | .remove p => p = q
  | .timeNow | .openRead _ | .infoSize _ | .readFull _ _ | .stat _ | .dirMakeRecursive _
  | .dirRead _ => False

@[simp] theorem World.fs_record (w : World) (op : FileOp) (ok : Bool) (fs : FileSystem) :
    (w.record op ok fs).fs = fs := rfl

@[simp] theorem World.script_record (w : World) (op : FileOp) (ok : Bool) (fs : FileSystem) :
    (w.record op ok fs).script = w.script := rfl

/-- A call adds one entry to the log and leaves the outcomes to come alone. -/
theorem World.answer_record (w : World) (op : FileOp) :
    ∃ ok fs, (w.answer op).2 = w.record op ok fs := by
  cases op <;> simp only [World.answer, World.query]
  -- The one call with two tests.
  case mktemp template =>
    split
    · split <;> exact ⟨_, _, rfl⟩
    · exact ⟨_, _, rfl⟩
  all_goals first
    | exact ⟨_, _, rfl⟩
    | (split <;> exact ⟨_, _, rfl⟩)

@[simp] theorem World.answer_script (w : World) (op : FileOp) :
    (w.answer op).2.script = w.script := by
  obtain ⟨ok, fs, h⟩ := w.answer_record op
  rw [h, World.script_record]

/-- A call adds to the log. -/
theorem World.log_prefix_answer (w : World) (op : FileOp) : w.log <+: (w.answer op).2.log := by
  obtain ⟨ok, fs, h⟩ := w.answer_record op
  rw [h]
  exact List.prefix_append _ _

theorem World.length_log_le_answer (w : World) (op : FileOp) :
    w.log.length ≤ (w.answer op).2.log.length := (w.log_prefix_answer op).length_le

/-- A program leaves the outcomes to come alone. -/
@[simp] theorem run_script {α : Type} (p : FileProg α) (w : World) :
    (run p w).2.script = w.script := by
  induction p generalizing w with
  | done a => rfl
  | call op next ih =>
      show (run (next (w.answer op).1) (w.answer op).2).2.script = w.script
      rw [ih, World.answer_script]

/-- A program adds to the log. -/
theorem length_log_le_run {α : Type} (p : FileProg α) (w : World) :
    w.log.length ≤ (run p w).2.log.length := by
  induction p generalizing w with
  | done a => exact Nat.le_refl _
  | call op next ih => exact (w.length_log_le_answer op).trans (ih (w.answer op).1 (w.answer op).2)

theorem World.answer_fs_of_readOnly (w : World) {op : FileOp} (h : op.ReadOnly) :
    (w.answer op).2.fs = w.fs := by
  cases op with
  | timeNow | openRead _ | infoSize _ | readFull _ _ | stat _ | dirRead _ => rfl
  | mktemp _ | writeFull _ _ | rename _ _ | remove _ | dirMakeRecursive _ => exact h.elim

/-- A call leaves alone what it does not touch. -/
theorem World.read_answer_of_not_touches (w : World) {op : FileOp} {q : Path}
    (h : ¬ op.Touches q) : (w.answer op).2.fs.read q = w.fs.read q := by
  cases op with
  | timeNow | openRead _ | infoSize _ | readFull _ _ | stat _ | dirRead _ => rfl
  | mktemp template =>
      simp only [World.answer]
      split
      · rename_i p hname
        split
        · rw [World.fs_record, FileSystem.read_put, if_neg]
          rintro rfl
          exact h ⟨_, hname⟩
        · rfl
      · rfl
  | writeFull p data =>
      have hq : q ≠ p := fun heq => h heq.symm
      simp only [World.answer]
      split
      · rw [World.fs_record, FileSystem.read_append, if_neg hq]
      · rw [World.fs_record, FileSystem.read_append, if_neg hq]
  | rename src dst =>
      obtain ⟨hsrc, hdst⟩ := not_or.mp h
      simp only [World.answer]
      split
      · rename_i hok
        obtain ⟨b, hb⟩ := Option.isSome_iff_exists.mp hok.2
        rw [World.fs_record, FileSystem.read_move hb, if_neg (Ne.symm hdst), if_neg (Ne.symm hsrc)]
      · rfl
  | remove p =>
      simp only [World.answer]
      split
      · rw [World.fs_record, FileSystem.read_erase, if_neg fun heq => h heq.symm]
      · rfl
  | dirMakeRecursive p =>
      simp only [World.answer]
      split <;> rfl

/-- Directories stay. -/
theorem World.dirs_subset_answer (w : World) (op : FileOp) :
    w.fs.dirs ⊆ (w.answer op).2.fs.dirs := by
  have hput : ∀ (fs : FileSystem) p b, (fs.put p b).dirs = fs.dirs := fun _ _ _ => rfl
  have happend : ∀ (fs : FileSystem) p b, (fs.append p b).dirs = fs.dirs := by
    intro fs p b
    unfold FileSystem.append
    split <;> rfl
  have hmove : ∀ (fs : FileSystem) src dst, (fs.move src dst).dirs = fs.dirs := by
    intro fs src dst
    unfold FileSystem.move
    split <;> rfl
  intro d hd
  cases op with
  | timeNow | openRead _ | infoSize _ | readFull _ _ | stat _ | dirRead _ => exact hd
  | mktemp template =>
      simp only [World.answer]
      split
      · split <;> exact hd
      · exact hd
  | writeFull p data =>
      simp only [World.answer]
      split
      · rw [World.fs_record, happend]
        exact hd
      · rw [World.fs_record, happend]
        exact hd
  | rename src dst =>
      simp only [World.answer]
      split
      · rw [World.fs_record, hmove]
        exact hd
      · exact hd
  | remove p =>
      simp only [World.answer]
      split <;> exact hd
  | dirMakeRecursive p =>
      simp only [World.answer]
      split
      · exact List.mem_union_iff.mpr (Or.inr hd)
      · exact hd

/-- A call that only removes leaves every file as it was, or removes it. -/
theorem World.answer_read_of_onlyRemoves (w : World) {op : FileOp} (h : op.OnlyRemoves)
    (q : Path) :
    (w.answer op).2.fs.read q = w.fs.read q ∨ (w.answer op).2.fs.read q = none := by
  cases op with
  | remove p =>
      simp only [World.answer]
      split
      · rw [World.fs_record, FileSystem.read_erase]
        by_cases hq : q = p
        · exact Or.inr (if_pos hq)
        · exact Or.inl (if_neg hq)
      · exact Or.inl rfl
  | timeNow | openRead _ | infoSize _ | readFull _ _ | stat _ | dirRead _ => exact Or.inl rfl
  | mktemp _ | writeFull _ _ | rename _ _ | dirMakeRecursive _ => exact h.elim

/-- A removal leaves the file as it was, or removes it. -/
theorem World.answer_read_of_remove (w : World) (p : Path) :
    (w.answer (.remove p)).2.fs.read p = w.fs.read p ∨ (w.answer (.remove p)).2.fs.read p = none :=
  w.answer_read_of_onlyRemoves (show FileOp.OnlyRemoves (.remove p) from trivial) p

/-- A program of such calls leaves every file as it was, or removes it. -/
theorem run_read_of_onlyRemoves {α : Type} {p : FileProg α}
    (hp : Prog.Uses FileOp.OnlyRemoves p) (w : World) (q : Path) :
    (run p w).2.fs.read q = w.fs.read q ∨ (run p w).2.fs.read q = none := by
  refine Prog.exec_inv (I := fun w' : World => w'.fs.read q = w.fs.read q ∨ w'.fs.read q = none)
    (fun w' op hop h => ?_) hp (Or.inl rfl)
  rcases w'.answer_read_of_onlyRemoves hop q with hsame | hgone
  · rw [hsame]
    exact h
  · exact Or.inr hgone

/-- A program that only reads leaves the files alone. -/
theorem run_fs_of_readOnly {α : Type} {p : FileProg α} (hp : Prog.Uses FileOp.ReadOnly p)
    (w : World) : (run p w).2.fs = w.fs :=
  Prog.exec_inv (I := fun w' : World => w'.fs = w.fs)
    (fun w' _ hop h => (w'.answer_fs_of_readOnly hop).trans h) hp rfl

/-- Directories stay. -/
theorem dirs_subset_run {α : Type} (p : FileProg α) (w : World) :
    w.fs.dirs ⊆ (run p w).2.fs.dirs :=
  Prog.exec_inv (A := fun _ => True) (I := fun w' : World => w.fs.dirs ⊆ w'.fs.dirs)
    (fun w' op _ h => List.Subset.trans h (w'.dirs_subset_answer op)) (Prog.uses_of_forall (fun _ => trivial) p)
    (List.Subset.refl _)

/-- A program that opens only files that two worlds agree on ends with the same result in both. -/
theorem run_congr_of_fetches {S : Path → Prop} {α : Type} {p : FileProg α}
    (hp : Prog.Uses (fun op => op.Fetches ∧ ∀ q, op = .openRead q → S q) p) {w w' : World}
    (hscript : w'.script = w.script) (hlog : w'.log.length = w.log.length)
    (hread : ∀ q, S q → w'.fs.read q = w.fs.read q) : (run p w').1 = (run p w).1 := by
  induction p generalizing w w' with
  | done a => rfl
  | call op next ih =>
      obtain ⟨hfetches, hopen⟩ := hp.1
      have hreadOnly : op.ReadOnly := by
        cases op with
        | timeNow | openRead _ | infoSize _ | readFull _ _ => trivial
        | mktemp _ | writeFull _ _ | rename _ _ | remove _ | stat _ | dirMakeRecursive _
        | dirRead _ => exact hfetches.elim
      have houtcome : w'.outcome op = w.outcome op := by
        rw [World.outcome, World.outcome, hscript, hlog]
      have hanswer : (w'.answer op).1 = (w.answer op).1 := by
        cases op with
        | timeNow => exact congrArg Outcome.clock houtcome
        | openRead q => simp only [World.answer, World.query, houtcome, hread q (hopen q rfl)]
        | infoSize _ | readFull _ _ => simp only [World.answer, World.query, houtcome]
        | mktemp _ | writeFull _ _ | rename _ _ | remove _ | stat _ | dirMakeRecursive _
        | dirRead _ => exact hfetches.elim
      show (run (next (w'.answer op).1) (w'.answer op).2).1 = _
      rw [hanswer]
      refine ih _ (hp.2 _) (by simp [hscript]) ?_ fun q hq => ?_
      · obtain ⟨ok, fs, h⟩ := w.answer_record op
        obtain ⟨ok', fs', h'⟩ := w'.answer_record op
        rw [h, h']
        simp [World.record, hlog]
      · rw [World.answer_fs_of_readOnly _ hreadOnly, World.answer_fs_of_readOnly _ hreadOnly,
          hread q hq]

/-! ### Rules for each call

A rule states what to show so that `Q` holds after the call, once for each way the call
can go. Where a call fails although the environment let it succeed, the rule says why. -/

/-- `Q` holds of the result of the program and of the world it ends in. -/
abbrev After {α : Type} (p : FileProg α) (w : World) (Q : α → World → Prop) : Prop :=
  Prog.After World.answer p w Q

/-- `w'` is `w` after the call `op`, which left the files `fs`. -/
structure World.Called (w : World) (op : FileOp) (ok : Bool) (fs : FileSystem)
    (w' : World) : Prop where
  fs_eq : w'.fs = fs
  script_eq : w'.script = w.script
  log_eq : w'.log = w.log ++ [(op, ok)]

/-- After a call, one call fewer lies ahead. -/
theorem World.Called.allowsAt_eq {w w' : World} {op : FileOp} {ok : Bool} {fs : FileSystem}
    (h : w.Called op ok fs w') (n : Nat) (op' : FileOp) :
    w'.allowsAt n op' = w.allowsAt (n + 1) op' := by
  have hlen : w.log.length + 1 + n = w.log.length + (n + 1) := by omega
  simp only [World.allowsAt, h.script_eq, h.log_eq, List.length_append, List.length_singleton, hlen]

/-- The suffix that the environment picks for the template of `p`, were `mktemp` called after
`n` other calls. -/
def World.suffixAt (w : World) (n : Nat) (p : Path) : TempSuffix :=
  (w.script (w.log.length + n) (.mktemp (p ++ lit ".XXXXXX"))).suffix

/-- What that `mktemp` answers, if the other calls leave the files alone. -/
def World.tempAt (w : World) (n : Nat) (p : Path) : Option TempSuffix :=
  if w.allowsAt n (.mktemp (p ++ lit ".XXXXXX"))
      ∧ w.fs.read (p ++ chr '.' :: (w.suffixAt n p).chars) = none then some (w.suffixAt n p)
  else none

theorem World.Called.tempAt_eq {w w' : World} {op : FileOp} {ok : Bool}
    (h : w.Called op ok w.fs w') (n : Nat) (p : Path) : w'.tempAt n p = w.tempAt (n + 1) p := by
  have hlen : w.log.length + 1 + n = w.log.length + (n + 1) := by omega
  have hsuffix : w'.suffixAt n p = w.suffixAt (n + 1) p := by
    simp only [World.suffixAt, h.script_eq, h.log_eq, List.length_append, List.length_singleton, hlen]
  unfold World.tempAt
  rw [h.allowsAt_eq, hsuffix, h.fs_eq]

theorem Script.AllOk.allowsAt {w : World} (h : w.script.AllOk) (n : Nat) (op : FileOp) :
    w.allowsAt n op = true := h _ _

theorem World.called_record (w : World) (op : FileOp) (ok : Bool) (fs : FileSystem) :
    w.Called op ok fs (w.record op ok fs) := ⟨rfl, rfl, rfl⟩

/-- Between `w` and `w'` no write has failed. -/
def NoFailedWrite (w w' : World) : Prop :=
  ∀ p data, (FileOp.writeFull p data, false) ∈ w'.log → (FileOp.writeFull p data, false) ∈ w.log

/-- What a removal of `p` can do to the files: `p` is gone or, where removals may fail,
as it was. No other file changes. -/
structure Removed (s : Script) (before : FileSystem) (p : Path) (after : FileSystem) : Prop where
  other : ∀ q, q ≠ p → after.read q = before.read q
  same : after.read p = none ∨ after.read p = before.read p
  gone : s.RemovesOk → after.read p = none

/-- A removal that cannot fail. -/
theorem Removed.read_eq {s : Script} {fs fs' : FileSystem} {p : Path} (h : Removed s fs p fs')
    (hrem : s.RemovesOk) (q : Path) : fs'.read q = if q = p then none else fs.read q := by
  by_cases hq : q = p
  · rw [if_pos hq, hq, h.gone hrem]
  · rw [if_neg hq, h.other q hq]

/-- A file that is not there stays away. -/
theorem Removed.read_none {s : Script} {fs fs' : FileSystem} {p q : Path}
    (h : Removed s fs p fs') (hq : fs.read q = none) : fs'.read q = none := by
  by_cases hqp : q = p
  · subst hqp
    rcases h.same with hsame | hsame
    · exact hsame
    · rw [hsame, hq]
  · rw [h.other q hqp, hq]

@[simp] theorem FileSystem.read_makeDir (fs : FileSystem) (p q : Path) :
    (fs.makeDir p).read q = fs.read q := rfl

/-- The name a template ending in `.XXXXXX` yields. -/
theorem tempName_template (p : Path) (suffix : TempSuffix) :
    tempName (p ++ lit ".XXXXXX") suffix = some (p ++ chr '.' :: suffix.chars) := by
  have h := tempName_append (p ++ [chr '.']) suffix
  rw [List.append_assoc, List.append_assoc] at h
  exact h

section Rules

variable {w : World}

theorem after_timeNow {Q : Int64 → World → Prop}
    (h : ∀ w', w.Called .timeNow true w.fs w' → Q (w.clockAt 0) w') : After timeNow w Q :=
  h _ (w.called_record _ _ _)

/-- A call that only reads answers `a` if it is let through. -/
theorem after_query {op : FileOp} {β : Type} {a : Option β} {Q : Option β → World → Prop}
    (hok : ∀ w', w.allowsAt 0 op = true → w.Called op a.isSome w.fs w' → Q a w')
    (hfail : ∀ w', w.allowsAt 0 op = false → w.Called op false w.fs w' → Q none w') :
    Q (w.query op a).1 (w.query op a).2 := by
  have hallows : w.allowsAt 0 op = (w.outcome op).ok := rfl
  unfold World.query
  cases h : (w.outcome op).ok with
  | true =>
      rw [if_pos rfl]
      exact hok _ (hallows.trans h) (w.called_record _ _ _)
  | false =>
      rw [if_neg Bool.false_ne_true]
      exact hfail _ (hallows.trans h) (w.called_record _ _ _)

/-- What a call that only reads answers, if it answers. -/
theorem World.eq_of_query {β : Type} {op : FileOp} {a : Option β} {b : β}
    (h : (w.query op a).1 = some b) : a = some b := by
  have hrule : (w.query op a).1 = some b → a = some b :=
    after_query (Q := fun a' _ => a' = some b → a = some b) (fun _ _ _ h => h)
      (fun _ _ _ h => by cases h)
  exact hrule h

theorem after_openRead {p : Path} {Q : Option Bytes → World → Prop}
    (hok : ∀ w', w.allowsAt 0 (.openRead p) = true →
      w.Called (.openRead p) (w.fs.read p).isSome w.fs w' → Q (w.fs.read p) w')
    (hfail : ∀ w', w.allowsAt 0 (.openRead p) = false →
      w.Called (.openRead p) false w.fs w' → Q none w') :
    After (openRead p) w Q := after_query hok hfail

theorem after_infoSize {file : Bytes} {Q : Option Nat → World → Prop}
    (hok : ∀ w', w.allowsAt 0 (.infoSize file) = true →
      w.Called (.infoSize file) true w.fs w' → Q (some file.length) w')
    (hfail : ∀ w', w.allowsAt 0 (.infoSize file) = false →
      w.Called (.infoSize file) false w.fs w' → Q none w') :
    After (infoSize file) w Q := after_query (a := some file.length) hok hfail

theorem after_stat {p : Path} {Q : Option Nat → World → Prop}
    (hok : ∀ w', w.allowsAt 0 (.stat p) = true →
      w.Called (.stat p) ((w.fs.read p).map (·.length)).isSome w.fs w' →
        Q ((w.fs.read p).map (·.length)) w')
    (hfail : ∀ w', w.allowsAt 0 (.stat p) = false → w.Called (.stat p) false w.fs w' → Q none w') :
    After (stat p) w Q := after_query hok hfail

/-- Reading a whole file. -/
theorem after_readFull {file : Bytes} {Q : Option Bytes → World → Prop}
    (hok : ∀ w', w.allowsAt 0 (.readFull file file.length) = true →
      w.Called (.readFull file file.length) true w.fs w' → Q (some file) w')
    (hfail : ∀ w', w.allowsAt 0 (.readFull file file.length) = false →
      w.Called (.readFull file file.length) false w.fs w' → Q none w') :
    After (readFull file file.length) w Q := by
  have hread : (if file.length ≤ file.length then some (file.take file.length) else none)
      = some file := by simp
  show Q (w.query _ _).1 (w.query _ _).2
  rw [hread]
  exact after_query hok hfail

/-- `mktemp` makes an empty file under the name that `tempAt` foresees. -/
theorem after_mktemp_at {p : Path} {Q : Option TempSuffix → World → Prop}
    (hok : ∀ (suffix : TempSuffix) w', w.tempAt 0 p = some suffix →
      w.Called (.mktemp (p ++ lit ".XXXXXX")) true (w.fs.put (p ++ chr '.' :: suffix.chars) []) w' →
      Q (some suffix) w')
    (hfail : ∀ w', w.tempAt 0 p = none →
      w.Called (.mktemp (p ++ lit ".XXXXXX")) false w.fs w' → Q none w') :
    After (mktemp (p ++ lit ".XXXXXX")) w Q := by
  show Q (w.answer (.mktemp (p ++ lit ".XXXXXX"))).1
    (w.answer (.mktemp (p ++ lit ".XXXXXX"))).2
  simp only [World.answer, tempName_template]
  split
  · rename_i h
    exact hok _ _ (if_pos h) (w.called_record _ _ _)
  · rename_i h
    exact hfail _ (if_neg h) (w.called_record _ _ _)

/-- The name that `tempAt` foresees is free. -/
theorem World.read_of_tempAt {n : Nat} {p : Path} {suffix : TempSuffix}
    (h : w.tempAt n p = some suffix) : w.fs.read (p ++ chr '.' :: suffix.chars) = none := by
  unfold World.tempAt at h
  split at h
  · rename_i hfree
    cases h
    exact hfree.2
  · cases h

/-- `mktemp` makes an empty file under a name that was free. -/
theorem after_mktemp {p : Path} {Q : Option TempSuffix → World → Prop}
    (hok : ∀ (suffix : TempSuffix) w', w.fs.read (p ++ chr '.' :: suffix.chars) = none →
      w.Called (.mktemp (p ++ lit ".XXXXXX")) true (w.fs.put (p ++ chr '.' :: suffix.chars) []) w' →
      Q (some suffix) w')
    (hfail : ∀ w', (w.script.AllOk →
        ∃ suffix : TempSuffix, w.fs.read (p ++ chr '.' :: suffix.chars) ≠ none) →
      w.Called (.mktemp (p ++ lit ".XXXXXX")) false w.fs w' → Q none w') :
    After (mktemp (p ++ lit ".XXXXXX")) w Q := by
  refine after_mktemp_at (fun suffix w' htemp h => hok suffix w' (World.read_of_tempAt htemp) h)
    fun w' htemp h => hfail w' (fun hall => ⟨w.suffixAt 0 p, fun hfree => ?_⟩) h
  rw [World.tempAt, if_pos ⟨hall.allowsAt 0 _, hfree⟩] at htemp
  cases htemp

/-- The name that `mktemp` answers with was free, and is now an empty file. -/
theorem World.answer_mktemp_eq_some {p : Path} {suffix : TempSuffix}
    (h : (w.answer (.mktemp (p ++ lit ".XXXXXX"))).1 = some suffix) :
    w.fs.read (p ++ chr '.' :: suffix.chars) = none
      ∧ (w.answer (.mktemp (p ++ lit ".XXXXXX"))).2.fs
        = w.fs.put (p ++ chr '.' :: suffix.chars) [] := by
  have hrule : After (mktemp (p ++ lit ".XXXXXX")) w fun a w' => a = some suffix →
      w.fs.read (p ++ chr '.' :: suffix.chars) = none
        ∧ w'.fs = w.fs.put (p ++ chr '.' :: suffix.chars) [] := by
    refine after_mktemp (fun suffix' w' hfree h' ha => ?_) (fun w' _ _ ha => by cases ha)
    cases ha
    exact ⟨hfree, h'.fs_eq⟩
  exact hrule h

/-- A `mktemp` that fails leaves no file. -/
theorem World.answer_mktemp_eq_none {p : Path}
    (h : (w.answer (.mktemp (p ++ lit ".XXXXXX"))).1 = none) :
    (w.answer (.mktemp (p ++ lit ".XXXXXX"))).2.fs = w.fs := by
  have hrule : After (mktemp (p ++ lit ".XXXXXX")) w fun a w' => a = none → w'.fs = w.fs :=
    after_mktemp (fun _ _ _ _ ha => by cases ha) (fun _ _ h' _ => h'.fs_eq)
  exact hrule h

/-- `writeFull` appends all of the data, or fails and may have appended a part of it. -/
theorem after_writeFull_at {p : Path} {data : Bytes} {Q : Bool → World → Prop}
    (hok : ∀ w', w.allowsAt 0 (.writeFull p data) = true →
      w.Called (.writeFull p data) true (w.fs.append p data) w' → Q true w')
    (hfail : ∀ part w', w.allowsAt 0 (.writeFull p data) = false →
      w.Called (.writeFull p data) false (w.fs.append p part) w' → Q false w') :
    After (writeFull p data) w Q := by
  show Q (w.answer (.writeFull p data)).1 (w.answer (.writeFull p data)).2
  simp only [World.answer]
  split
  · rename_i h
    exact hok _ h (w.called_record _ _ _)
  · rename_i h
    exact hfail _ _ (Bool.eq_false_iff.mpr h) (w.called_record _ _ _)

/-- A write fails only where some call may. -/
theorem after_writeFull {p : Path} {data : Bytes} {Q : Bool → World → Prop}
    (hok : ∀ w', w.Called (.writeFull p data) true (w.fs.append p data) w' → Q true w')
    (hfail : ∀ part w', ¬ w.script.AllOk →
      w.Called (.writeFull p data) false (w.fs.append p part) w' → Q false w') :
    After (writeFull p data) w Q := by
  refine after_writeFull_at (fun w' _ h => hok w' h) fun part w' hno h =>
    hfail part w' (fun hall => ?_) h
  rw [hall.allowsAt] at hno
  cases hno

/-- `rename` moves an existing file. -/
theorem after_rename_at {src dst : Path} {Q : Bool → World → Prop}
    (hok : ∀ b w', w.allowsAt 0 (.rename src dst) = true → w.fs.read src = some b →
      w.Called (.rename src dst) true (w.fs.move src dst) w' → Q true w')
    (hfail : ∀ w', (w.allowsAt 0 (.rename src dst) = true → w.fs.read src = none) →
      w.Called (.rename src dst) false w.fs w' → Q false w') :
    After (rename src dst) w Q := by
  show Q (w.answer (.rename src dst)).1 (w.answer (.rename src dst)).2
  simp only [World.answer]
  split
  · rename_i h
    obtain ⟨b, hb⟩ := Option.isSome_iff_exists.mp h.2
    exact hok b _ h.1 hb (w.called_record _ _ _)
  · rename_i h
    refine hfail _ (fun hallowed => ?_) (w.called_record _ _ _)
    have hok : (w.outcome (.rename src dst)).ok = true := hallowed
    simpa [hok] using h

/-- Where no call fails, a rename fails only without a source. -/
theorem after_rename {src dst : Path} {Q : Bool → World → Prop}
    (hok : ∀ b w', w.fs.read src = some b →
      w.Called (.rename src dst) true (w.fs.move src dst) w' → Q true w')
    (hfail : ∀ w', (w.script.AllOk → w.fs.read src = none) →
      w.Called (.rename src dst) false w.fs w' → Q false w') :
    After (rename src dst) w Q :=
  after_rename_at (fun b w' _ hb h => hok b w' hb h)
    fun w' hno h => hfail w' (fun hall => hno (hall.allowsAt 0 _)) h

/-- Where no call fails, all data is written. -/
theorem World.answer_writeFull (hok : w.script.AllOk) (p : Path) (data : Bytes) :
    w.answer (.writeFull p data) = (true, w.record (.writeFull p data) true (w.fs.append p data)) :=
  if_pos (hok _ _)

/-- Where no call fails, an existing file is moved. -/
theorem World.answer_rename (hok : w.script.AllOk) {src : Path} {b : Bytes}
    (h : w.fs.read src = some b) (dst : Path) :
    w.answer (.rename src dst) = (true, w.record (.rename src dst) true (w.fs.move src dst)) :=
  if_pos ⟨hok _ _, by rw [h]; rfl⟩

/-- A rename that fails leaves the files. -/
theorem World.fs_answer_rename_eq_false {src dst : Path}
    (h : (w.answer (.rename src dst)).1 = false) : (w.answer (.rename src dst)).2.fs = w.fs := by
  have hrule : After (rename src dst) w fun a w' => a = false → w'.fs = w.fs :=
    after_rename (fun _ _ _ _ ha => by cases ha) (fun _ _ h' _ => h'.fs_eq)
  exact hrule h

/-- A rename touches two names only. -/
theorem World.read_answer_rename {src dst q : Path} (hsrc : q ≠ src) (hdst : q ≠ dst) :
    (w.answer (.rename src dst)).2.fs.read q = w.fs.read q :=
  w.read_answer_of_not_touches (not_or.mpr ⟨hsrc.symm, hdst.symm⟩)

/-- `remove` deletes a file, and says nothing about a file that is not there. -/
theorem after_remove {p : Path} {Q : Bool → World → Prop}
    (h : ∀ ok fs w', Removed w.script w.fs p fs → w.Called (.remove p) ok fs w' → Q ok w') :
    After (remove p) w Q := by
  show Q (w.answer (.remove p)).1 (w.answer (.remove p)).2
  simp only [World.answer]
  split
  · refine h _ _ _ ⟨fun q hq => ?_, Or.inl ?_, fun _ => ?_⟩ (w.called_record _ _ _)
    · rw [FileSystem.read_erase, if_neg hq]
    · rw [FileSystem.read_erase, if_pos rfl]
    · rw [FileSystem.read_erase, if_pos rfl]
  · rename_i hno
    refine h _ _ _ ⟨fun _ _ => rfl, Or.inr rfl, fun hrem => ?_⟩ (w.called_record _ _ _)
    have hok := hrem w.log.length p
    simpa [World.outcome, hok] using hno

/-- A removal touches one name only. -/
theorem World.read_answer_remove {p q : Path} (hq : q ≠ p) :
    (w.answer (.remove p)).2.fs.read q = w.fs.read q :=
  w.read_answer_of_not_touches hq.symm

/-- `dirMakeRecursive` makes directories and touches no file. -/
theorem after_dirMakeRecursive {p : Path} {Q : Bool → World → Prop}
    (hok : ∀ w', w.Called (.dirMakeRecursive p) true (w.fs.makeDir p) w' → Q true w')
    (hfail : ∀ w', ¬ w.script.AllOk → w.Called (.dirMakeRecursive p) false w.fs w' → Q false w') :
    After (dirMakeRecursive p) w Q := by
  show Q (w.answer (.dirMakeRecursive p)).1 (w.answer (.dirMakeRecursive p)).2
  simp only [World.answer]
  split
  · exact hok _ (w.called_record _ _ _)
  · rename_i h
    exact hfail _ (fun hall => h (hall _ _)) (w.called_record _ _ _)

/-- `dirRead` lists a directory that exists. -/
theorem after_dirRead {p : Path} {Q : Option (List (CString × Bool)) → World → Prop}
    (hok : ∀ w', p ∈ w.fs.dirs → w.Called (.dirRead p) true w.fs w' →
      Q (some (w.fs.entries p)) w')
    (hfail : ∀ w', w.Called (.dirRead p) false w.fs w' → Q none w') : After (dirRead p) w Q := by
  refine after_query (fun w' _ h => ?_) fun w' _ h => hfail w' h
  split at h
  · rename_i hdir
    rw [if_pos hdir]
    exact hok w' hdir h
  · rename_i hdir
    rw [if_neg hdir]
    exact hfail w' h

end Rules

end Files
