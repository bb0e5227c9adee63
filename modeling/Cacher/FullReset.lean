import Cacher.Lib.Tree
import Cacher.Python
import Cacher.Walk

/-!
# `Cacher.FullReset`: emptying the cache from the command line

`cacher full-reset` deletes the entries that it can load, and then sweeps the tree from the
bottom: it unlinks the files whose names it knows for leftovers and removes the directories that
are empty. The names are `.body`, `.XXXXXX` and `.tmp`, and a file that `apr_file_mktemp` has
named is seldom among them. `nothingBelow_iff` says which trees the command empties.

Here no file call fails and nobody else writes, so both passes are functions on the file system.
`run_load` and `run_delete` tie them to the calls of `Entry.load` and `Entry.delete`.
-/

set_option autoImplicit false

namespace Cacher

namespace Tool

open CText Files FileSystem

/-- `Entry.load`. -/
def loadIn (py : Python) (fs : FileSystem) (headerPath : Path) : Loaded :=
  match fs.read headerPath with
  | none => .notLoaded
  | some b => loadText py ((py.decode b).take 4096)

/-- `Entry.delete`. -/
def deleteIn (fs : FileSystem) (headerPath : Path) : Bool × FileSystem :=
  let body := (fs.read (bodyPathOf headerPath)).isSome
  let fs := fs.erase (bodyPathOf headerPath)
  (body || (fs.read headerPath).isSome, fs.erase headerPath)

/-- How far the loop over the entries has come. -/
structure ResetState where
  fs : FileSystem
  removed : Nat
  /-- An exception has left the loop. -/
  raised : Bool

/-- The test of `iter_selected`. An empty `--host` is no host. -/
def selectsHost (py : Python) (host : Option PyStr) (entry : Entry) : Bool :=
  match host with
  | none => true
  | some host => host = [] || py.lower entry.host = py.lower host

/-- What the loop does with one header file. -/
def resetEntry (py : Python) (host : Option PyStr) (st : ResetState) (headerPath : Path) :
    ResetState :=
  match loadIn py st.fs headerPath with
  | .notLoaded => st
  | .raised => { st with raised := true }
  | .entry entry =>
    if selectsHost py host entry then
      let (deleted, fs) := deleteIn st.fs headerPath
      { st with fs := fs, removed := if deleted then st.removed + 1 else st.removed }
    else st

/-- One file name of `os.walk` in `iter_entries`. -/
def resetName (py : Python) (host : Option PyStr) (dir : Path) (st : ResetState) (name : CString) :
    ResetState :=
  if st.raised then st
  else if lit ".header" <:+ name then resetEntry py host st (dir ++ chr '/' :: name)
  else st

/-- The names of the files in a directory. -/
def fileNames (fs : FileSystem) (dir : Path) : List CString :=
  ((fs.entries dir).filter (!·.2)).map (·.1)

/-- The names of the directories in a directory. -/
def dirNames (fs : FileSystem) (dir : Path) : List CString :=
  ((fs.entries dir).filter (·.2)).map (·.1)

/-- `os.walk`, with what the loop does with the files of each directory. -/
def resetWalk (py : Python) (host : Option PyStr) : Nat → ResetState → Path → ResetState
  | 0, st, _ => st
  | depth + 1, st, dir =>
    if st.raised then st
    else
      let dirs := dirNames st.fs dir
      let st := (fileNames st.fs dir).foldl (resetName py host dir) st
      dirs.foldl (fun st name => resetWalk py host depth st (dir ++ chr '/' :: name)) st

/-- The names that the sweep unlinks. -/
def isLeftover (name : CString) : Bool :=
  decide (lit ".body" <:+ name) || decide (lit ".XXXXXX" <:+: name)
    || decide (lit ".tmp" <:+: name)

/-- One file name of the sweep. -/
def sweepName (dir : Path) (fs : FileSystem) (name : CString) : FileSystem :=
  if isLeftover name then fs.erase (dir ++ chr '/' :: name) else fs

/-- The sweep: `os.walk` with `topdown=False`. -/
def sweep (root : Path) : Nat → Path → FileSystem → FileSystem
  | 0, _, fs => fs
  | depth + 1, dir, fs =>
    let files := fileNames fs dir
    let fs := (dirNames fs dir).foldl
      (fun fs name => sweep root depth (dir ++ chr '/' :: name) fs) fs
    let fs := files.foldl (sweepName dir) fs
    if dir ≠ root ∧ fs.entries dir = [] then fs.removeDir dir else fs

/-- How `cacher full-reset` ends. -/
structure ResetEnding where
  /-- An exception has ended it. -/
  raised : Bool
  exitCode : Nat
  /-- The number that it prints. -/
  removed : Nat
  fs : FileSystem

/-- `cmd_full_reset`. -/
def cmdFullReset (py : Python) (depth : Nat) (root : Path) (host : Option PyStr) (fs : FileSystem) :
    ResetEnding :=
  if !fs.dirs.contains root then ⟨false, 2, 0, fs⟩
  else
    let st := resetWalk py host depth ⟨fs, 0, false⟩ root
    if st.raised then ⟨true, 1, 0, st.fs⟩
    -- Of an orphan nobody knows the host, so there is no sweep for a single host.
    else if host.getD [] ≠ [] then ⟨false, 0, st.removed, st.fs⟩
    else ⟨false, 0, st.removed, sweep root depth root st.fs⟩

/-! ### The calls behind it -/

section Calls

variable {w : World}

/-- Where no call fails, `load` is `loadIn`. -/
theorem load_spec (py : Python) (hok : w.script.AllOk) (headerPath : Path) :
    After (load py headerPath) w fun loaded w' =>
      loaded = loadIn py w.fs headerPath ∧ w'.fs = w.fs := by
  have hnever : ∀ {w' : World} {op : FileOp}, w'.script = w.script → w'.allowsAt 0 op = false →
      False := by
    intro w' op hscript hno
    have hall : w'.script.AllOk := hscript ▸ hok
    rw [hall.allowsAt] at hno
    cases hno
  refine Prog.after_bind.mpr (after_openRead (fun w₁ _ h₁ => ?_) fun w₁ hno _ =>
    (hnever rfl hno).elim)
  cases hread : w.fs.read headerPath with
  | none => exact Prog.after_pure.mpr ⟨by rw [loadIn, hread], h₁.fs_eq⟩
  | some b =>
      refine Prog.after_bind.mpr (after_readFull (fun w₂ _ h₂ => ?_) fun w₂ hno _ =>
        (hnever h₁.script_eq hno).elim)
      exact Prog.after_pure.mpr ⟨by rw [loadIn, hread], by rw [h₂.fs_eq, h₁.fs_eq]⟩

/-- Where no call fails, a file that is removed is gone, and it is known whether it was there. -/
theorem remove_spec (hok : w.script.AllOk) (p : Path) :
    After (remove p) w fun removed w' => removed = (w.fs.read p).isSome
      ∧ (∀ q, w'.fs.read q = (w.fs.erase p).read q) ∧ w'.script = w.script := by
  show (w.answer (.remove p)).1 = _ ∧ (∀ q, (w.answer (.remove p)).2.fs.read q = _)
    ∧ (w.answer (.remove p)).2.script = _
  simp only [World.answer]
  cases hread : (w.fs.read p).isSome with
  | true =>
      rw [if_pos ⟨hok _ _, rfl⟩]
      exact ⟨rfl, fun _ => rfl, rfl⟩
  | false =>
      rw [if_neg (by simp)]
      refine ⟨rfl, fun q => ?_, rfl⟩
      show w.fs.read q = _
      rw [read_erase]
      split
      · rename_i hq
        rw [hq]
        exact Option.not_isSome_iff_eq_none.mp (by simp [hread])
      · rfl

/-- Where no call fails, `delete` is `deleteIn`. -/
theorem delete_spec (hok : w.script.AllOk) (headerPath : Path) :
    After (delete headerPath) w fun deleted w' => deleted = (deleteIn w.fs headerPath).1
      ∧ ∀ q, w'.fs.read q = (deleteIn w.fs headerPath).2.read q := by
  refine Prog.after_bind.mpr ((remove_spec hok _).mono fun body w₁ h₁ => ?_)
  obtain ⟨rfl, hfs₁, hscript₁⟩ := h₁
  refine Prog.after_bind.mpr ((remove_spec (hscript₁ ▸ hok) _).mono fun header w₂ h₂ => ?_)
  obtain ⟨rfl, hfs₂, -⟩ := h₂
  refine Prog.after_pure.mpr ⟨by rw [hfs₁]; rfl, fun q => ?_⟩
  rw [hfs₂, deleteIn, read_erase, read_erase, hfs₁]

end Calls

/-! ### What the command can clear away -/

/-- `Entry.load` takes the contents for an entry. -/
def Loads (py : Python) (b : Bytes) : Prop :=
  ∃ entry, loadText py ((py.decode b).take 4096) = .entry entry

/-- One of the two passes deletes the file. -/
def Clearable (py : Python) (q : Path) (b : Bytes) : Prop :=
  (lit ".header" <:+ q ∧ Loads py b) ∨ isLeftover (basename q) = true

/-- What a path ends with is in its last component. -/
theorem suffix_basename {s q : Path} (h : s <:+ q) (hslash : chr '/' ∉ s) : s <:+ basename q := by
  obtain ⟨front, rfl⟩ := h
  have hall : ∀ c ∈ s.reverse, (c != chr '/') = true := fun c hc =>
    bne_iff_ne.mpr fun heq => hslash (heq ▸ List.mem_reverse.mp hc)
  rw [basename, List.reverse_append, List.takeWhile_append_of_pos hall, List.reverse_append,
    List.reverse_reverse]
  exact List.suffix_append _ _

theorem isLeftover_bodyPathOf (p : Path) : isLeftover (basename (bodyPathOf p)) = true := by
  have hbody : lit ".body" <:+ basename (bodyPathOf p) :=
    suffix_basename (List.suffix_append _ _) (by decide)
  simp [isLeftover, hbody]

theorem mem_fileNames {fs : FileSystem} {dir : Path} {name : CString} :
    name ∈ fileNames fs dir ↔ (name, false) ∈ fs.entries dir := by
  simp [fileNames]

theorem mem_dirNames {fs : FileSystem} {dir : Path} {name : CString} :
    name ∈ dirNames fs dir ↔ (name, true) ∈ fs.entries dir := by
  simp [dirNames]

theorem mem_fileNames_of_read {fs : FileSystem} {dir : Path} (hdir : dir ≠ []) {name : CString}
    (hname : chr '/' ∉ name) {b : Bytes} (hread : fs.read (dir ++ chr '/' :: name) = some b) :
    name ∈ fileNames fs dir := by
  rw [mem_fileNames, mem_entries_iff hdir, if_neg Bool.false_ne_true, hread]
  exact ⟨hname, rfl⟩

theorem mem_dirNames_of_mem {fs : FileSystem} {dir : Path} (hdir : dir ≠ []) {name : CString}
    (hname : chr '/' ∉ name) (hmem : dir ++ chr '/' :: name ∈ fs.dirs) : name ∈ dirNames fs dir := by
  rw [mem_dirNames, mem_entries_iff hdir, if_pos rfl]
  exact ⟨hname, hmem⟩

theorem ne_nil_of_under {root dir : Path} (hroot : root ≠ []) (hdir : dir = root ∨ Under root dir) :
    dir ≠ [] := by
  rcases hdir with rfl | hdir
  · exact hroot
  · exact List.ne_nil_of_length_pos (Nat.zero_lt_of_lt hdir.length_lt)

/-! ### The loop over the entries -/

section Entries

variable {py : Python} {host : Option PyStr} {st : ResetState} {p q : Path} {b : Bytes}

/-- A header file is left alone, or it loads and goes with its body. -/
theorem resetEntry_fs (py : Python) (host : Option PyStr) (st : ResetState) (p : Path) :
    (resetEntry py host st p).fs = st.fs
      ∨ (∃ b, st.fs.read p = some b ∧ Loads py b)
        ∧ (resetEntry py host st p).fs = (st.fs.erase (bodyPathOf p)).erase p := by
  unfold resetEntry
  split
  · exact Or.inl rfl
  · exact Or.inl rfl
  · rename_i entry hload
    split
    · refine Or.inr ⟨?_, rfl⟩
      rw [loadIn] at hload
      split at hload
      · cases hload
      · rename_i b hread
        exact ⟨b, hread, entry, hload⟩
    · exact Or.inl rfl

theorem shrinks_resetEntry (py : Python) (host : Option PyStr) (st : ResetState) (p : Path) :
    Shrinks st.fs (resetEntry py host st p).fs := by
  rcases resetEntry_fs py host st p with hsame | ⟨-, hgone⟩
  · rw [hsame]
    exact Shrinks.refl _
  · rw [hgone]
    exact (shrinks_erase _ _).trans (shrinks_erase _ _)

theorem dirs_resetEntry (py : Python) (host : Option PyStr) (st : ResetState) (p : Path) :
    (resetEntry py host st p).fs.dirs = st.fs.dirs := by
  rcases resetEntry_fs py host st p with hsame | ⟨-, hgone⟩
  · rw [hsame]
  · rw [hgone]
    rfl

/-- What cannot be cleared away stays. -/
theorem resetEntry_keeps (hp : lit ".header" <:+ p) (hno : ¬ Clearable py q b)
    (hread : st.fs.read q = some b) : (resetEntry py host st p).fs.read q = some b := by
  rcases resetEntry_fs py host st p with hsame | ⟨⟨b', hread', hloads⟩, hgone⟩
  · rw [hsame, hread]
  · have hheader : q ≠ p := by
      rintro rfl
      rw [hread] at hread'
      cases hread'
      exact hno (Or.inl ⟨hp, hloads⟩)
    have hbody : q ≠ bodyPathOf p := by
      rintro rfl
      exact hno (Or.inr (isLeftover_bodyPathOf p))
    rw [hgone, read_erase, if_neg hheader, read_erase, if_neg hbody, hread]

/-- What loads goes. -/
theorem resetEntry_of_loads (hread : st.fs.read p = some b) (hloads : Loads py b) :
    (resetEntry py none st p).raised = st.raised
      ∧ (resetEntry py none st p).fs.read p = none := by
  obtain ⟨entry, hload⟩ := hloads
  have hloadIn : loadIn py st.fs p = .entry entry := by
    rw [loadIn, hread]
    exact hload
  have heq : resetEntry py none st p = { st with
      fs := (deleteIn st.fs p).2
      removed := if (deleteIn st.fs p).1 then st.removed + 1 else st.removed } := by
    rw [resetEntry, hloadIn]
    rfl
  rw [heq]
  refine ⟨rfl, ?_⟩
  show ((st.fs.erase (bodyPathOf p)).erase p).read p = none
  rw [read_erase, if_pos rfl]

theorem resetEntry_of_absent (hread : st.fs.read p = none) : resetEntry py host st p = st := by
  rw [resetEntry, loadIn, hread]

/-- What holds before and after every header file below the root, holds before and after every
name in a directory there. -/
theorem resetName_inv {P : ResetState → Prop} {root : Path}
    (hstep : ∀ st p, P st → lit ".header" <:+ p → Under root p → P (resetEntry py host st p))
    {dir : Path} (hdir : dir = root ∨ Under root dir) (name : CString) (h : P st) :
    P (resetName py host dir st name) := by
  unfold resetName
  split
  · exact h
  split
  · rename_i hname
    exact hstep st _ h (hname.trans ⟨dir ++ [chr '/'], by simp⟩) (under_entry hdir name)
  · exact h

/-- And before and after a whole walk. -/
theorem resetWalk_inv {P : ResetState → Prop} {root : Path}
    (hstep : ∀ st p, P st → lit ".header" <:+ p → Under root p → P (resetEntry py host st p))
    (depth : Nat) {dir : Path} (hdir : dir = root ∨ Under root dir) (h : P st) :
    P (resetWalk py host depth st dir) := by
  induction depth generalizing st dir with
  | zero => exact h
  | succ depth ih =>
      rw [resetWalk]
      split
      · exact h
      · exact List.foldlRecOn _ _
          (List.foldlRecOn _ _ h fun st hst name _ => resetName_inv hstep hdir name hst)
          fun st hst name _ => ih (Or.inr (under_entry hdir name)) hst

/-- A directory: first its files, then the directories that are listed in it. -/
theorem resetWalk_succ (h : st.raised = false) (depth : Nat) (dir : Path) :
    resetWalk py host (depth + 1) st dir
      = (dirNames st.fs dir).foldl
          (fun st name => resetWalk py host depth st (dir ++ chr '/' :: name))
          ((fileNames st.fs dir).foldl (resetName py host dir) st) := by
  rw [resetWalk, h, if_neg Bool.false_ne_true]

/-- The walk comes to the directory `d`. -/
inductive Visited (fs : FileSystem) : Nat → Path → Path → Prop where
  | here (depth : Nat) (dir : Path) : Visited fs (depth + 1) dir dir
  | inner {depth : Nat} {dir d : Path} (name : CString) (hname : chr '/' ∉ name)
      (hdir : dir ++ chr '/' :: name ∈ fs.dirs) (h : Visited fs depth (dir ++ chr '/' :: name) d) :
      Visited fs (depth + 1) dir d

theorem Visited.under {fs : FileSystem} {root : Path} {depth : Nat} {dir d : Path}
    (h : Visited fs depth dir d) (hdir : dir = root ∨ Under root dir) : d = root ∨ Under root d := by
  induction h with
  | here depth dir => exact hdir
  | inner name _ _ _ ih => exact ih (Or.inr (under_entry hdir name))

/-- A walk comes to every header file of a directory that it comes to, unless an exception ends it:
what each turn keeps, and what the turn of the file brings about, holds in the end. -/
theorem resetWalk_reaches {P Q : ResetState → Prop} {fs : FileSystem} {root : Path}
    (hroot : root ≠ []) {depth : Nat} {dir d : Path} (hdir : dir = root ∨ Under root dir)
    (hvisited : Visited fs depth dir d) {name : CString} (hname : chr '/' ∉ name)
    (hheader : lit ".header" <:+ name)
    (hP : ∀ st p, P st → lit ".header" <:+ p → Under root p → P (resetEntry py host st p))
    (hQ : ∀ st p, Q st → lit ".header" <:+ p → Under root p → Q (resetEntry py host st p))
    (hdirs : ∀ st, P st → st.fs.dirs = fs.dirs) (hstop : ∀ st, P st → st.raised = true → Q st)
    (habsent : ∀ st, P st → st.fs.read (d ++ chr '/' :: name) = none → Q st)
    (hturn : ∀ st, P st → Q (resetEntry py host st (d ++ chr '/' :: name))) (h : P st) :
    Q (resetWalk py host depth st dir) := by
  -- By induction on the way to the directory. `P` carries on to the turn, and `Q` from there.
  induction hvisited generalizing st with
  | here depth dir =>
      by_cases hraised : st.raised = true
      · rw [resetWalk, if_pos hraised]
        exact hstop st h hraised
      rw [resetWalk_succ (by simpa using hraised)]
      refine List.foldlRecOn _ _ (motive := Q) ?_
        fun st hst sub _ => resetWalk_inv hQ depth (Or.inr (under_entry hdir sub)) hst
      cases hread : st.fs.read (dir ++ chr '/' :: name) with
      | none =>
          exact List.foldlRecOn _ _ (motive := Q) (habsent st h hread)
            fun st hst sub _ => resetName_inv hQ hdir sub hst
      | some b =>
          refine foldl_reaches (mem_fileNames_of_read (ne_nil_of_under hroot hdir) hname hread)
            (P := P) (Q := Q) (fun st hst sub _ => resetName_inv hP hdir sub hst)
            (fun st hst => ?_) (fun st _ hst sub _ => resetName_inv hQ hdir sub hst) h
          -- The turn of the file itself.
          by_cases hraised : st.raised = true
          · rw [resetName, if_pos hraised]
            exact hstop st hst hraised
          · rw [resetName, if_neg hraised, if_pos hheader]
            exact hturn st hst
  | @inner depth dir d sub hsub hmem _ ih =>
      by_cases hraised : st.raised = true
      · rw [resetWalk, if_pos hraised]
        exact hstop st h hraised
      rw [resetWalk_succ (by simpa using hraised)]
      have hlisted : sub ∈ dirNames st.fs dir :=
        mem_dirNames_of_mem (ne_nil_of_under hroot hdir) hsub ((hdirs st h).symm ▸ hmem)
      exact foldl_reaches hlisted (P := P) (Q := Q)
        (fun st hst sub _ => resetWalk_inv hP depth (Or.inr (under_entry hdir sub)) hst)
        (fun st hst => ih (Or.inr (under_entry hdir sub)) habsent hturn hst)
        (fun st _ hst sub _ => resetWalk_inv hQ depth (Or.inr (under_entry hdir sub)) hst)
        (List.foldlRecOn _ _ h fun st hst sub _ => resetName_inv hP hdir sub hst)

/-- Every header file below the root loads. -/
def LoadsAll (py : Python) (root : Path) (fs : FileSystem) : Prop :=
  ∀ q b, fs.read q = some b → Under root q → lit ".header" <:+ q → Loads py b

/-- The loop has raised nothing, and has only removed files. -/
structure OnTrack (fs : FileSystem) (st : ResetState) : Prop where
  notRaised : st.raised = false
  shrinks : Shrinks fs st.fs
  dirs : st.fs.dirs = fs.dirs

section Track

variable {fs : FileSystem} {root : Path}

theorem OnTrack.resetEntry (hload : LoadsAll py root fs) (st : ResetState) (p : Path)
    (h : OnTrack fs st) (hp : lit ".header" <:+ p) (hunder : Under root p) :
    OnTrack fs (resetEntry py none st p) := by
  refine ⟨?_, h.shrinks.trans (shrinks_resetEntry py none st p), by rw [dirs_resetEntry, h.dirs]⟩
  cases hread : st.fs.read p with
  | none => rw [resetEntry_of_absent hread, h.notRaised]
  | some b =>
      have hloads := hload p b (h.shrinks.read_eq_some hread) hunder hp
      rw [(resetEntry_of_loads hread hloads).1, h.notRaised]

/-- A header file is gone after its turn. -/
theorem OnTrack.resetEntry_clears (hload : LoadsAll py root fs) (h : OnTrack fs st) {p : Path}
    (hunder : Under root p) (hheader : lit ".header" <:+ p) :
    (Tool.resetEntry py none st p).fs.read p = none := by
  cases hread : st.fs.read p with
  | none => rw [resetEntry_of_absent hread, hread]
  | some b =>
      exact (resetEntry_of_loads hread
        (hload p b (h.shrinks.read_eq_some hread) hunder hheader)).2

/-- The file is gone. -/
def Gone (q : Path) (st : ResetState) : Prop := st.fs.read q = none

/-- A walk takes the header files away from every directory that it comes to. -/
theorem resetWalk_clears (hroot : root ≠ []) (hload : LoadsAll py root fs) {depth : Nat}
    {dir d : Path} (hdir : dir = root ∨ Under root dir) (hvisited : Visited fs depth dir d)
    {name : CString} (hname : chr '/' ∉ name) (hheader : lit ".header" <:+ name)
    (h : OnTrack fs st) :
    Gone (d ++ chr '/' :: name) (resetWalk py none depth st dir) := by
  have hunder : Under root (d ++ chr '/' :: name) := under_entry (hvisited.under hdir) name
  refine resetWalk_reaches hroot hdir hvisited hname hheader (OnTrack.resetEntry hload)
    (fun st p hst _ _ => (shrinks_resetEntry py none st p).read_eq_none hst) (fun st hst => hst.dirs)
    (fun st hst hraised => ?_) (fun st _ hread => hread)
    (fun st hst => hst.resetEntry_clears hload hunder (hheader.trans ⟨d ++ [chr '/'], by simp⟩)) h
  rw [hst.notRaised] at hraised
  cases hraised

end Track

end Entries

/-! ### The sweep -/

section Sweep

variable {root : Path} {fs : FileSystem}

/-- Every file below the root has a name that the sweep unlinks. -/
def AllLeftover (root : Path) (fs : FileSystem) : Prop :=
  ∀ q b, fs.read q = some b → Under root q → isLeftover (basename q) = true

/-- The directories go no deeper than this. -/
def Bounded (fs : FileSystem) : Nat → Path → Prop
  | 0, _ => False
  | depth + 1, dir => ∀ name, chr '/' ∉ name → dir ++ chr '/' :: name ∈ fs.dirs →
    Bounded fs depth (dir ++ chr '/' :: name)

theorem AllLeftover.shrinks {fs' : FileSystem} (h : AllLeftover root fs) (hfs : Shrinks fs fs') :
    AllLeftover root fs' := fun q b hread => h q b (hfs.read_eq_some hread)

theorem Bounded.shrinks {fs' : FileSystem} {depth : Nat} {dir : Path} (h : Bounded fs depth dir)
    (hfs : Shrinks fs fs') : Bounded fs' depth dir := by
  induction depth generalizing dir with
  | zero => exact h
  | succ depth ih => exact fun name hname hdir => ih (h name hname (hfs.dirs _ hdir))

theorem shrinks_sweepName (dir : Path) (fs : FileSystem) (name : CString) :
    Shrinks fs (sweepName dir fs name) := by
  unfold sweepName
  split
  · exact shrinks_erase _ _
  · exact Shrinks.refl _

/-- What holds through every removal of the sweep holds through the sweep. -/
theorem sweep_inv {P : FileSystem → Prop}
    (hfile : ∀ fs dir name, P fs → chr '/' ∉ name → P (sweepName dir fs name))
    (hdir : ∀ fs dir, P fs → fs.entries dir = [] → P (fs.removeDir dir)) (depth : Nat) (dir : Path)
    (h : P fs) : P (sweep root depth dir fs) := by
  induction depth generalizing dir fs with
  | zero => exact h
  | succ depth ih =>
      have hfiles : P ((fileNames fs dir).foldl (sweepName dir) ((dirNames fs dir).foldl
          (fun fs name => sweep root depth (dir ++ chr '/' :: name) fs) fs)) := by
        refine List.foldlRecOn _ _ (List.foldlRecOn _ _ h fun fs hfs name _ => ih _ hfs)
          fun fs' hfs' name hname => hfile fs' dir name hfs' ?_
        obtain ⟨q, b, -, -, rfl⟩ := mem_entries_file.mp (mem_fileNames.mp hname)
        exact slash_notMem_basename q
      rw [sweep]
      split
      · rename_i hempty
        exact hdir _ dir hfiles hempty.2
      · exact hfiles

theorem shrinks_sweep (root : Path) (depth : Nat) (dir : Path) (fs : FileSystem) :
    Shrinks fs (sweep root depth dir fs) :=
  sweep_inv (P := Shrinks fs) (fun fs' dir name h _ => h.trans (shrinks_sweepName dir fs' name))
    (fun fs' dir h _ => h.trans (shrinks_removeDir fs' dir)) depth dir (Shrinks.refl fs)

/-- A file with another name stays. -/
theorem sweep_keeps {q : Path} (hno : isLeftover (basename q) = false) (depth : Nat) (dir : Path) :
    (sweep root depth dir fs).read q = fs.read q := by
  refine sweep_inv (P := fun fs' => fs'.read q = fs.read q) (fun fs' dir name h hname => ?_)
    (fun fs' dir h _ => h) depth dir rfl
  unfold sweepName
  split
  · rename_i hleft
    have hq : q ≠ dir ++ chr '/' :: name := by
      rintro rfl
      rw [basename_append dir hname, hleft] at hno
      cases hno
    rw [read_erase, if_neg hq, h]
  · exact h

theorem closed_sweep (h : Closed root fs) (depth : Nat) (dir : Path) :
    Closed root (sweep root depth dir fs) := by
  refine sweep_inv (P := Closed root) (fun fs' dir name h _ => ?_)
    (fun fs' dir h hempty => h.removeDir hempty) depth dir h
  unfold sweepName
  split
  · exact h.erase _
  · exact h

theorem shrinks_sweepFiles (names : List CString) (dir : Path) (fs : FileSystem) :
    Shrinks fs (names.foldl (sweepName dir) fs) :=
  List.foldlRecOn _ _ (Shrinks.refl fs) fun fs' h name _ => h.trans (shrinks_sweepName dir fs' name)

theorem shrinks_sweepDirs (names : List CString) (depth : Nat) (dir : Path) (fs : FileSystem) :
    Shrinks fs (names.foldl (fun fs name => sweep root depth (dir ++ chr '/' :: name) fs) fs) :=
  List.foldlRecOn _ _ (Shrinks.refl fs) fun fs' h _ _ => h.trans (shrinks_sweep root depth _ fs')

/-- The leftovers among the files of a directory are gone after their turn. -/
theorem sweepFiles_clears {dir : Path} (hne : dir ≠ []) {name : CString} (hname : chr '/' ∉ name)
    (hleft : ∀ b, fs.read (dir ++ chr '/' :: name) = some b → isLeftover name = true)
    {fs₁ : FileSystem} (hfs : Shrinks fs fs₁) :
    ((fileNames fs dir).foldl (sweepName dir) fs₁).read (dir ++ chr '/' :: name) = none := by
  cases hread : fs.read (dir ++ chr '/' :: name) with
  | none => exact (hfs.trans (shrinks_sweepFiles _ dir fs₁)).read_eq_none hread
  | some b =>
      refine foldl_reaches (mem_fileNames_of_read hne hname hread) (P := fun _ => True)
        (Q := fun fs' => fs'.read (dir ++ chr '/' :: name) = none) (fun _ _ _ _ => trivial)
        (fun fs' _ => ?_)
        (fun fs' _ h other _ => (shrinks_sweepName dir fs' other).read_eq_none h) trivial
      rw [sweepName, if_pos (hleft b hread), read_erase, if_pos rfl]

/-- A directory is gone after its turn, when its turn removes it. -/
theorem sweepDirs_clears {depth : Nat} {dir : Path} (hne : dir ≠ []) {name : CString}
    (hname : chr '/' ∉ name)
    (hturn : dir ++ chr '/' :: name ∈ fs.dirs → ∀ fs', Shrinks fs fs' →
      dir ++ chr '/' :: name ∉ (sweep root depth (dir ++ chr '/' :: name) fs').dirs) :
    dir ++ chr '/' :: name ∉ ((dirNames fs dir).foldl
      (fun fs name => sweep root depth (dir ++ chr '/' :: name) fs) fs).dirs := by
  intro hmem
  have hthere : dir ++ chr '/' :: name ∈ fs.dirs := (shrinks_sweepDirs _ depth dir fs).dirs _ hmem
  exact foldl_reaches (mem_dirNames_of_mem hne hname hthere) (P := Shrinks fs)
    (f := fun fs name => sweep root depth (dir ++ chr '/' :: name) fs)
    (Q := fun fs' => dir ++ chr '/' :: name ∉ fs'.dirs)
    (fun fs' h other _ => h.trans (shrinks_sweep root depth _ fs'))
    (fun fs' h => hturn hthere fs' h)
    (fun fs' _ h other _ hmem => h ((shrinks_sweep root depth _ fs').dirs _ hmem))
    (Shrinks.refl fs) hmem

/-- A directory that holds only leftovers is empty after the sweep, and gone below the root. -/
theorem sweep_clears (hroot : root ≠ []) (hleft : AllLeftover root fs) {depth : Nat} {dir : Path}
    (hdir : dir = root ∨ Under root dir) (hdepth : Bounded fs depth dir) :
    (sweep root depth dir fs).entries dir = []
      ∧ (dir ≠ root → dir ∉ (sweep root depth dir fs).dirs) := by
  induction depth generalizing dir fs with
  | zero => exact hdepth.elim
  | succ depth ih =>
      have hne := ne_nil_of_under hroot hdir
      -- First the directories in it, then its files.
      generalize hfs₁ : (dirNames fs dir).foldl
        (fun fs name => sweep root depth (dir ++ chr '/' :: name) fs) fs = fs₁
      have hshrinks₁ : Shrinks fs fs₁ := hfs₁ ▸ shrinks_sweepDirs _ depth dir fs
      have hnodir : ∀ name, chr '/' ∉ name → dir ++ chr '/' :: name ∉ fs₁.dirs := by
        intro name hname
        have hsub : dir ++ chr '/' :: name ≠ root := by
          intro heq
          have hlt := (under_entry hdir name).length_lt
          rw [heq] at hlt
          omega
        rw [← hfs₁]
        exact sweepDirs_clears hne hname fun hthere fs' h =>
          (ih (hleft.shrinks h) (Or.inr (under_entry hdir name))
            ((hdepth name hname hthere).shrinks h)).2 hsub
      generalize hfs₂ : (fileNames fs dir).foldl (sweepName dir) fs₁ = fs₂
      have hshrinks₂ : Shrinks fs₁ fs₂ := hfs₂ ▸ shrinks_sweepFiles _ dir fs₁
      have hempty : fs₂.entries dir = [] := by
        refine entries_eq_nil hne (fun name hname => ?_)
          fun name hname hmem => hnodir name hname (hshrinks₂.dirs _ hmem)
        rw [← hfs₂]
        refine sweepFiles_clears hne hname (fun b hread => ?_) hshrinks₁
        have h := hleft _ b hread (under_entry hdir name)
        rwa [basename_append dir hname] at h
      have heq : sweep root (depth + 1) dir fs
          = if dir ≠ root ∧ fs₂.entries dir = [] then fs₂.removeDir dir else fs₂ := by
        rw [← hfs₂, ← hfs₁]
        rfl
      rw [heq]
      split
      · refine ⟨List.eq_nil_iff_forall_not_mem.mpr fun x hx => ?_, fun _ hmem => ?_⟩
        · have hold := (shrinks_removeDir fs₂ dir).entries hne hx
          rw [hempty] at hold
          cases hold
        · simpa using (List.mem_filter.mp hmem).2
      · rename_i hno
        exact ⟨hempty, fun hne => (hno ⟨hne, hempty⟩).elim⟩

end Sweep

/-! ### What is left of a tree -/

section Tree

variable {py : Python} {root : Path} {fs : FileSystem} {depth : Nat}

/-- What neither pass can clear away stays. -/
theorem cmdFullReset_keeps {q : Path} {b : Bytes} (hno : ¬ Clearable py q b)
    (hread : fs.read q = some b) (host : Option PyStr) :
    (cmdFullReset py depth root host fs).fs.read q = some b := by
  have hname : isLeftover (basename q) = false := by
    rw [← Bool.not_eq_true]
    exact fun h => hno (Or.inr h)
  have hwalk : (resetWalk py host depth ⟨fs, 0, false⟩ root).fs.read q = some b :=
    resetWalk_inv (P := fun st => st.fs.read q = some b)
      (fun st p hst hp _ => resetEntry_keeps hp hno hst) depth (Or.inl rfl) hread
  unfold cmdFullReset
  split
  · exact hread
  dsimp only
  split
  · exact hwalk
  split
  · exact hwalk
  · exact (sweep_keeps hname depth root).trans hwalk

/-- A tree of entries that load and of leftovers is cleared away. -/
theorem cmdFullReset_clears (hroot : root ≠ []) (hdir : root ∈ fs.dirs)
    (hload : LoadsAll py root fs)
    (hleft : ∀ q b, fs.read q = some b → Under root q →
      lit ".header" <:+ q ∨ isLeftover (basename q) = true)
    (hclosed : Closed root fs) (hbounded : Bounded fs depth root)
    (hvisited : ∀ q b, fs.read q = some b → Under root q → Visited fs depth root (dirname q)) :
    NothingBelow root (cmdFullReset py depth root none fs).fs := by
  have hstart : OnTrack fs ⟨fs, 0, false⟩ := ⟨rfl, Shrinks.refl fs, rfl⟩
  have htrack : OnTrack fs (resetWalk py none depth ⟨fs, 0, false⟩ root) :=
    resetWalk_inv (OnTrack.resetEntry hload) depth (Or.inl rfl) hstart
  have hend : (cmdFullReset py depth root none fs).fs
      = sweep root depth root (resetWalk py none depth ⟨fs, 0, false⟩ root).fs := by
    rw [cmdFullReset, if_neg (by simpa using hdir)]
    dsimp only
    rw [htrack.notRaised, if_neg Bool.false_ne_true, if_neg (fun h => h rfl)]
  -- The header files are gone before the sweep.
  have hleft' : AllLeftover root (resetWalk py none depth ⟨fs, 0, false⟩ root).fs := by
    intro q b hread hunder
    have hold := htrack.shrinks.read_eq_some hread
    refine (hleft q b hold hunder).resolve_left fun hheader => ?_
    have hgone := resetWalk_clears hroot hload (Or.inl rfl) (hvisited q b hold hunder)
      (slash_notMem_basename q) (suffix_basename hheader (by decide)) hstart
    rw [Gone, ← eq_dirname_append_basename hunder.slash_mem, hread] at hgone
    cases hgone
  have hclosed' : Closed root (resetWalk py none depth ⟨fs, 0, false⟩ root).fs := by
    intro q hq hunder
    rw [htrack.dirs]
    refine hclosed q ?_ hunder
    rcases hq with hfile | hdir
    · obtain ⟨b, hb⟩ := Option.isSome_iff_exists.mp hfile
      exact Or.inl (by rw [htrack.shrinks.read_eq_some hb]; rfl)
    · exact Or.inr (htrack.shrinks.dirs q hdir)
  rw [hend]
  exact (closed_sweep hclosed' depth root).nothing_below
    (sweep_clears hroot hleft' (Or.inl rfl) (hbounded.shrinks htrack.shrinks)).1

end Tree

/-! ### The trees of the module -/

/-- The files that a capture makes. -/
inductive FileOf (e : EntryPaths) : Path → Prop where
  | header : FileOf e e.headerPath
  | body : FileOf e e.bodyPath
  | tmpHeader (suffix : TempSuffix) : FileOf e (e.tmpHeaderPath suffix)
  | tmpBody (suffix : TempSuffix) : FileOf e (e.tmpBodyPath suffix)

/-- A cache root, with what the module leaves below it. The contents of the files are open. -/
structure CacheTree (root : Path) (fs : FileSystem) : Prop where
  ne_nil : root ≠ []
  isDir : root ∈ fs.dirs
  file : ∀ q b, fs.read q = some b → Under root q →
    ∃ e : EntryPaths, e.cacheRoot = root ∧ e.shard ∈ fs.dirs ∧ FileOf e q
  dir : ∀ d ∈ fs.dirs, Under root d →
    ∃ e : EntryPaths, e.cacheRoot = root ∧ e.outerShard ∈ fs.dirs ∧ (d = e.outerShard ∨ d = e.shard)

section Names

variable (e : EntryPaths) (suffix : TempSuffix)

theorem length_outerShard : e.outerShard.length = e.cacheRoot.length + 3 := by
  simp [EntryPaths.outerShard, EntryPaths.length_hexEncodeMd5]

theorem length_shard : e.shard.length = e.cacheRoot.length + 6 := by
  simp [EntryPaths.shard, length_outerShard, EntryPaths.length_hexEncodeMd5]

theorem under_outerShard : Under e.cacheRoot e.outerShard := under_append _ _

theorem under_shard : Under e.cacheRoot e.shard := (under_outerShard e).append _

/-- A walk of three levels comes to a shard that is there. -/
theorem visited_shard {fs : FileSystem} {e : EntryPaths} (houter : e.outerShard ∈ fs.dirs)
    (hshard : e.shard ∈ fs.dirs) (depth : Nat) : Visited fs (depth + 3) e.cacheRoot e.shard := by
  refine .inner ((hexEncodeMd5 e.digest).take 2) (fun h => ?_) houter
    (.inner (((hexEncodeMd5 e.digest).drop 2).take 2) (fun h => ?_) hshard (.here _ _))
  · exact EntryPaths.slash_notMem_hexEncodeMd5 _ (List.mem_of_mem_take h)
  · exact EntryPaths.slash_notMem_hexEncodeMd5 _ (List.mem_of_mem_drop (List.mem_of_mem_take h))

/-- Every file of an entry is below the cache root. -/
theorem FileOf.under {e : EntryPaths} {q : Path} (h : FileOf e q) : Under e.cacheRoot q := by
  have hstem : ∀ ext : CString, Under e.cacheRoot (e.stem ++ ext) := by
    intro ext
    rw [e.stem_eq, List.append_assoc, List.cons_append]
    exact (under_shard e).append _
  cases h with
  | header => exact hstem _
  | body => exact hstem _
  | tmpHeader suffix => exact e.tmpHeaderPath_eq suffix ▸ hstem _
  | tmpBody suffix => exact e.tmpBodyPath_eq suffix ▸ hstem _

/-- It is in its shard. -/
theorem FileOf.dirname {e : EntryPaths} {q : Path} (h : FileOf e q) :
    FileSystem.dirname q = e.shard := by
  cases h with
  | header => exact e.dirname_headerPath
  | body => exact e.dirname_bodyPath
  | tmpHeader suffix => exact e.dirname_tmpHeaderPath suffix
  | tmpBody suffix => exact e.dirname_tmpBodyPath suffix

/-- What a file's last component ends with. -/
theorem header_suffix_iff {ext : CString} (hext : chr '/' ∉ ext) :
    lit ".header" <:+ e.stem ++ ext ↔ lit ".header" <:+ ext := by
  have hname := e.basename_stem_append hext
  constructor
  · intro h
    have hend := suffix_basename h (by decide)
    rw [hname] at hend
    exact (suffix_append_of_notMem (dot_notMem_hexEncodeMd5 e.digest) _ ext).mp hend
  · intro h
    exact h.trans (List.suffix_append _ _)

/-- A temporary name ends in `.header` when its six characters are `header`. -/
theorem header_suffix_tmp_iff (word : CString) :
    lit ".header" <:+ word ++ chr '.' :: suffix.chars ↔ suffix.chars = lit "header" := by
  constructor
  · intro h
    have hlen : (lit ".header").length ≤ (chr '.' :: suffix.chars).length := by
      rw [List.length_cons, suffix.length_eq]
      decide
    have hend := List.suffix_of_suffix_length_le h (List.suffix_append _ _) hlen
    have heq := hend.eq_of_length (by rw [List.length_cons, suffix.length_eq]; rfl)
    exact (List.cons.inj heq).2.symm
  · intro h
    rw [h]
    exact List.suffix_append _ _

/-- The temporary names that the sweep unlinks. -/
theorem isLeftover_tmp_iff (word : CString) (hword : chr '.' ∉ word)
    (htmp : ¬ lit "tmp" <+: word ++ chr '.' :: suffix.chars)
    (htemplate : ¬ lit "XXXXXX" <+: word ++ chr '.' :: suffix.chars) :
    isLeftover (hexEncodeMd5 e.digest ++ ((chr '.' :: word) ++ chr '.' :: suffix.chars)) = true
      ↔ lit "tmp" <+: suffix.chars ∨ suffix.chars = lit "XXXXXX" := by
  have hbody : ¬ lit ".body"
      <:+ hexEncodeMd5 e.digest ++ ((chr '.' :: word) ++ chr '.' :: suffix.chars) := by
    intro h
    have hend : lit ".body" <:+ suffix.chars := by
      refine List.suffix_of_suffix_length_le h ?_ (by rw [suffix.length_eq]; decide)
      exact ⟨hexEncodeMd5 e.digest ++ ((chr '.' :: word) ++ [chr '.']), by simp⟩
    exact dot_notMem_suffix suffix (hend.subset List.mem_cons_self)
  have hinfix : lit ".tmp"
      <:+: hexEncodeMd5 e.digest ++ ((chr '.' :: word) ++ chr '.' :: suffix.chars)
        ↔ lit "tmp" <+: suffix.chars := by
    show (chr '.' :: lit "tmp") <:+: _ ↔ _
    rw [dot_infix_name, List.cons_append, List.infix_cons_iff, List.cons_prefix_cons,
      infix_append_of_notMem hword, List.infix_cons_iff, List.cons_prefix_cons]
    have hno : ¬ (chr '.' :: lit "tmp") <:+: suffix.chars :=
      fun h => dot_notMem_suffix suffix (h.subset List.mem_cons_self)
    simp only [true_and, htmp, false_or, hno, or_false]
  have hexact : lit ".XXXXXX"
      <:+: hexEncodeMd5 e.digest ++ ((chr '.' :: word) ++ chr '.' :: suffix.chars)
        ↔ suffix.chars = lit "XXXXXX" := by
    show (chr '.' :: lit "XXXXXX") <:+: _ ↔ _
    rw [dot_infix_name, dot_infix_tmpName word hword rfl suffix, or_iff_right htemplate, eq_comm]
  rw [isLeftover, Bool.or_eq_true, Bool.or_eq_true, decide_eq_true_iff, decide_eq_true_iff,
    decide_eq_true_iff, hinfix, hexact, or_iff_right hbody, or_comm]

end Names

/-- The command recognises the temporary file: its six characters begin with `tmp`, or they are
those of the template, or they make it a header, and the contents agree. -/
def RecognisedTemp (py : Python) (suffix : TempSuffix) (b : Bytes) : Prop :=
  lit "tmp" <+: suffix.chars ∨ suffix.chars = lit "XXXXXX"
    ∨ suffix.chars = lit "header" ∧ Loads py b

/-- Every header loads, and the command recognises every temporary file. -/
structure ResetCovers (py : Python) (root : Path) (fs : FileSystem) : Prop where
  header : ∀ (e : EntryPaths) b, e.cacheRoot = root → fs.read e.headerPath = some b → Loads py b
  tmpHeader : ∀ (e : EntryPaths) suffix b, e.cacheRoot = root →
    fs.read (e.tmpHeaderPath suffix) = some b → RecognisedTemp py suffix b
  tmpBody : ∀ (e : EntryPaths) suffix b, e.cacheRoot = root →
    fs.read (e.tmpBodyPath suffix) = some b → RecognisedTemp py suffix b

section Covers

variable {py : Python} (e : EntryPaths) (suffix : TempSuffix) (b : Bytes)

theorem clearable_headerPath_iff : Clearable py e.headerPath b ↔ Loads py b := by
  have hleft : isLeftover (FileSystem.basename e.headerPath) = false := by
    rw [e.basename_headerPath, ← Bool.not_eq_true, isLeftover, Bool.or_eq_true, Bool.or_eq_true,
      decide_eq_true_iff, decide_eq_true_iff, decide_eq_true_iff]
    rintro ((h | h) | h)
    · have hend := (suffix_append_of_notMem (dot_notMem_hexEncodeMd5 e.digest) _ _).mp h
      exact absurd hend (by decide)
    · exact absurd ((dot_infix_name _ _ _).mp h) (by decide)
    · exact absurd ((dot_infix_name _ _ _).mp h) (by decide)
  rw [Clearable, hleft]
  simp only [Bool.false_eq_true, or_false, and_iff_right_iff_imp]
  exact fun _ => List.suffix_append _ _

theorem isLeftover_bodyPath : isLeftover (FileSystem.basename e.bodyPath) = true := by
  have hleft := isLeftover_bodyPathOf e.headerPath
  rwa [bodyPathOf_headerPath] at hleft

theorem clearable_tmp_iff {q ext : CString} (hq : q = e.stem ++ (ext ++ chr '.' :: suffix.chars))
    (hext : ext = lit ".header" ∨ ext = lit ".body") :
    Clearable py q b ↔ RecognisedTemp py suffix b := by
  have hslash : chr '/' ∉ ext ++ chr '.' :: suffix.chars := by
    refine EntryPaths.slash_notMem_tmp suffix ?_
    rcases hext with rfl | rfl <;> decide
  have hheader : lit ".header" <:+ q ↔ suffix.chars = lit "header" := by
    rw [hq, header_suffix_iff e hslash, header_suffix_tmp_iff]
  have hleft : isLeftover (FileSystem.basename q) = true
      ↔ lit "tmp" <+: suffix.chars ∨ suffix.chars = lit "XXXXXX" := by
    rw [hq, e.basename_stem_append hslash]
    rcases hext with rfl | rfl
    · exact isLeftover_tmp_iff e suffix (lit "header") (by decide)
        (fun h => absurd (List.cons_prefix_cons.mp h).1 (by decide))
        (fun h => absurd (List.cons_prefix_cons.mp h).1 (by decide))
    · exact isLeftover_tmp_iff e suffix (lit "body") (by decide)
        (fun h => absurd (List.cons_prefix_cons.mp h).1 (by decide))
        (fun h => absurd (List.cons_prefix_cons.mp h).1 (by decide))
  rw [Clearable, hheader, hleft, RecognisedTemp, or_comm, or_assoc]

end Covers

/-! ### Which trees are emptied -/

namespace CacheTree

variable {root : Path} {fs : FileSystem} {e e' : EntryPaths}

/-- The directory of an entry has its parent. -/
theorem outerShard_mem (htree : CacheTree root fs) (hroot : e.cacheRoot = root)
    (hshard : e.shard ∈ fs.dirs) : e.outerShard ∈ fs.dirs := by
  obtain ⟨e', hroot', houter, heq | heq⟩ := htree.dir _ hshard (hroot ▸ under_shard e)
  · have hlen := congrArg List.length heq
    rw [length_shard, length_outerShard, hroot, hroot'] at hlen
    omega
  · have hparent := congrArg FileSystem.dirname heq
    rw [e.dirname_shard, e'.dirname_shard] at hparent
    rwa [hparent]

theorem closed (htree : CacheTree root fs) : Closed root fs := by
  intro q hq hunder
  rcases hq with hfile | hdir
  · obtain ⟨b, hb⟩ := Option.isSome_iff_exists.mp hfile
    obtain ⟨e, -, hshard, hof⟩ := htree.file q b hb hunder
    exact Or.inr (hof.dirname ▸ hshard)
  · obtain ⟨e, hroot, houter, rfl | rfl⟩ := htree.dir q hdir hunder
    · exact Or.inl (e.dirname_outerShard.trans hroot)
    · exact Or.inr (e.dirname_shard ▸ houter)

/-- A walk of three levels comes to every entry. -/
theorem visited (htree : CacheTree root fs) (hroot : e.cacheRoot = root)
    (hshard : e.shard ∈ fs.dirs) (depth : Nat) : Visited fs (depth + 3) root e.shard := by
  have houter := htree.outerShard_mem hroot hshard
  subst hroot
  exact visited_shard houter hshard depth

/-- There are no more than three levels. -/
theorem bounded (htree : CacheTree root fs) (depth : Nat) : Bounded fs (depth + 3) root := by
  -- The length of a directory tells its level.
  have hlevel : ∀ d ∈ fs.dirs, Under root d →
      (d.length = root.length + 3 ∧ (FileSystem.dirname d).length = root.length)
        ∨ d.length = root.length + 6 ∧ (FileSystem.dirname d).length = root.length + 3 := by
    intro d hd hunder
    obtain ⟨e, rfl, -, rfl | rfl⟩ := htree.dir d hd hunder
    · exact Or.inl ⟨length_outerShard e, by rw [e.dirname_outerShard]⟩
    · exact Or.inr ⟨length_shard e, by rw [e.dirname_shard, length_outerShard]⟩
  intro outer houter hmem₁ inner hinner hmem₂ name hname hmem₃
  have hunder₁ : Under root (root ++ chr '/' :: outer) := under_append _ _
  have hunder₂ := hunder₁.append inner
  have hlevel₁ := hlevel _ hmem₁ hunder₁
  have hlevel₂ := hlevel _ hmem₂ hunder₂
  have hlevel₃ := hlevel _ hmem₃ (hunder₂.append name)
  rw [dirname_append _ houter] at hlevel₁
  rw [dirname_append _ hinner] at hlevel₂
  rw [dirname_append _ hname] at hlevel₃
  omega

end CacheTree

/-- The full reset empties exactly the trees in which it recognises everything. -/
theorem nothingBelow_iff (py : Python) (depth : Nat) (root : Path) (fs : FileSystem)
    (hdepth : 3 ≤ depth) (htree : CacheTree root fs) :
    NothingBelow root (cmdFullReset py depth root none fs).fs ↔ ResetCovers py root fs := by
  have hstays : ∀ {q : Path} {b : Bytes},
      NothingBelow root (cmdFullReset py depth root none fs).fs → Under root q → fs.read q = some b → Clearable py q b := by
    intro q b h hunder hread
    by_contra hno
    exact h q hunder (Or.inl (by rw [cmdFullReset_keeps hno hread none]; rfl))
  have hunder : ∀ (e : EntryPaths) {q : Path}, e.cacheRoot = root → FileOf e q → Under root q :=
    fun e q hroot hof => hroot ▸ hof.under
  constructor
  · intro h
    refine ⟨fun e b hroot hread => ?_, fun e suffix b hroot hread => ?_,
      fun e suffix b hroot hread => ?_⟩
    · exact (clearable_headerPath_iff e b).mp (hstays h (hunder e hroot .header) hread)
    · exact (clearable_tmp_iff e suffix b (e.tmpHeaderPath_eq suffix) (Or.inl rfl)).mp
        (hstays h (hunder e hroot (.tmpHeader suffix)) hread)
    · exact (clearable_tmp_iff e suffix b (e.tmpBodyPath_eq suffix) (Or.inr rfl)).mp
        (hstays h (hunder e hroot (.tmpBody suffix)) hread)
  · intro h
    obtain ⟨levels, rfl⟩ := Nat.exists_eq_add_of_le' hdepth
    have hheader : ∀ {suffix : TempSuffix} {b : Bytes}, suffix.chars = lit "header" →
        RecognisedTemp py suffix b → Loads py b := by
      intro suffix b hsuffix hrecognised
      rw [RecognisedTemp, hsuffix] at hrecognised
      rcases hrecognised with htmp | htemplate | ⟨-, hloads⟩
      · exact absurd htmp (by decide)
      · exact absurd htemplate (by decide)
      · exact hloads
    refine cmdFullReset_clears htree.ne_nil htree.isDir (fun q b hread hunder hend => ?_)
      (fun q b hread hunder => ?_) htree.closed (htree.bounded levels) fun q b hread hunder => ?_
    · obtain ⟨e, hroot, -, hof⟩ := htree.file q b hread hunder
      cases hof with
      | header => exact h.header e b hroot hread
      | body =>
          have hext := (header_suffix_iff e (by decide)).mp hend
          exact absurd hext (by decide)
      | tmpHeader suffix =>
          rw [e.tmpHeaderPath_eq, header_suffix_iff e (EntryPaths.slash_notMem_tmp suffix (by decide)),
            header_suffix_tmp_iff] at hend
          exact hheader hend (h.tmpHeader e suffix b hroot hread)
      | tmpBody suffix =>
          rw [e.tmpBodyPath_eq, header_suffix_iff e (EntryPaths.slash_notMem_tmp suffix (by decide)),
            header_suffix_tmp_iff] at hend
          exact hheader hend (h.tmpBody e suffix b hroot hread)
    · obtain ⟨e, hroot, -, hof⟩ := htree.file q b hread hunder
      have hclear : ∀ {q : Path}, Clearable py q b →
          lit ".header" <:+ q ∨ isLeftover (FileSystem.basename q) = true := Or.imp_left And.left
      cases hof with
      | header => exact Or.inl (List.suffix_append _ _)
      | body => exact Or.inr (isLeftover_bodyPath e)
      | tmpHeader suffix =>
          exact hclear ((clearable_tmp_iff e suffix b (e.tmpHeaderPath_eq suffix) (Or.inl rfl)).mpr
            (h.tmpHeader e suffix b hroot hread))
      | tmpBody suffix =>
          exact hclear ((clearable_tmp_iff e suffix b (e.tmpBodyPath_eq suffix) (Or.inr rfl)).mpr
            (h.tmpBody e suffix b hroot hread))
    · obtain ⟨e, hroot, hshard, hof⟩ := htree.file q b hread hunder
      rw [hof.dirname]
      exact htree.visited hroot hshard levels

/-- The files of one entry are a tree, with the two directories above them. -/
theorem CacheTree.ofEntry {e : EntryPaths} (hroot : e.cacheRoot ≠ []) {files : List (Path × Bytes)}
    (hfiles : ∀ f ∈ files, FileOf e f.1) :
    CacheTree e.cacheRoot ⟨files, [e.cacheRoot, e.outerShard, e.shard]⟩ where
  ne_nil := hroot
  isDir := List.mem_cons_self
  file q b hread _ := ⟨e, rfl, by simp, hfiles (q, b) (mem_files_of_read hread)⟩
  dir d hd hunder := by
    refine ⟨e, rfl, by simp, ?_⟩
    rcases List.mem_cons.mp hd with rfl | hd
    · exact absurd hunder.length_lt (Nat.lt_irrefl _)
    · simpa using hd

/-- A page, and the temporary body of a capture of it that was interrupted. -/
def treeOfGetA (suffix : TempSuffix) : FileSystem where
  files := [(pathsOfGetA.headerPath,
              toBytes (headerFileText ⟨100, 160, 200, lit "GET", lit "h", lit "/a"⟩ [])),
            (pathsOfGetA.bodyPath, [1]),
            (pathsOfGetA.tmpBodyPath suffix, [2])]
  dirs := [pathsOfGetA.cacheRoot, pathsOfGetA.outerShard, pathsOfGetA.shard]

theorem cacheTree_treeOfGetA (suffix : TempSuffix) : CacheTree (lit "/c") (treeOfGetA suffix) := by
  refine CacheTree.ofEntry (e := pathsOfGetA) (by decide) fun f hf => ?_
  simp only [List.mem_cons, List.not_mem_nil, or_false] at hf
  rcases hf with rfl | rfl | rfl
  · exact .header
  · exact .body
  · exact .tmpBody suffix

/-- The command does not find the temporary body, and so the directories stay as well. -/
theorem not_nothingBelow_interrupted :
    ¬ (CacheTree (lit "/c") (treeOfGetA default) → NothingBelow (lit "/c")
        (cmdFullReset Python.ascii 3 (lit "/c") none (treeOfGetA default)).fs) := by
  intro h
  have hno : ¬ Clearable Python.ascii (pathsOfGetA.tmpBodyPath default) [2] := by
    rw [clearable_tmp_iff pathsOfGetA default [2] (pathsOfGetA.tmpBodyPath_eq default) (Or.inr rfl)]
    rintro (htmp | htemplate | ⟨hheader, -⟩)
    · exact absurd htmp (by decide)
    · exact absurd htemplate (by decide)
    · exact absurd hheader (by decide)
  have hread : (treeOfGetA default).read (pathsOfGetA.tmpBodyPath default) = some [2] := by
    decide +kernel
  have hkept : (cmdFullReset Python.ascii 3 (lit "/c") none (treeOfGetA default)).fs.read
      (pathsOfGetA.tmpBodyPath default) = some [2] := cmdFullReset_keeps hno hread none
  have hunder : Under (lit "/c") (pathsOfGetA.tmpBodyPath default) :=
    (FileOf.tmpBody (e := pathsOfGetA) default).under
  exact h (cacheTree_treeOfGetA default) _ hunder (Or.inl (by rw [hkept]; rfl))

/-- A suffix that begins with `tmp`. -/
def tempSuffixTmp : TempSuffix := ⟨lit "tmpaaa", by decide, List.all_eq_true.mp (by decide)⟩

/-- With a temporary body whose suffix happens to begin with `tmp`, the tree is emptied. -/
theorem nothingBelow_tmp :
    NothingBelow (lit "/c")
      (cmdFullReset Python.ascii 3 (lit "/c") none (treeOfGetA tempSuffixTmp)).fs := by
  refine (nothingBelow_iff Python.ascii 3 _ _ (Nat.le_refl 3)
    (cacheTree_treeOfGetA tempSuffixTmp)).mpr ⟨fun e b _ hread => ?_, fun e suffix b _ hread => ?_,
      fun e suffix b _ hread => ?_⟩
  all_goals
    have hfile := mem_files_of_read hread
    simp only [treeOfGetA, List.mem_cons, List.not_mem_nil, or_false, Prod.mk.injEq] at hfile
  · rcases hfile with ⟨-, rfl⟩ | ⟨heq, -⟩ | ⟨heq, -⟩
    · exact ⟨⟨160, 200, "GET".toList, ['h'], "/a".toList⟩, by decide +kernel⟩
    · exact absurd heq (EntryPaths.headerPath_ne_bodyPath _ _)
    · exact absurd heq.symm (EntryPaths.tmpBodyPath_ne_headerPath _ _ _)
  · rcases hfile with ⟨heq, -⟩ | ⟨heq, -⟩ | ⟨heq, -⟩
    · exact absurd heq (EntryPaths.tmpHeaderPath_ne_headerPath _ _ _)
    · exact absurd heq (EntryPaths.tmpHeaderPath_ne_bodyPath _ _ _)
    · exact absurd heq.symm (EntryPaths.tmpBodyPath_ne_tmpHeaderPath _ _ _ _)
  · rcases hfile with ⟨heq, -⟩ | ⟨heq, -⟩ | ⟨heq, -⟩
    · exact absurd heq (EntryPaths.tmpBodyPath_ne_headerPath _ _ _)
    · exact absurd heq (EntryPaths.tmpBodyPath_ne_bodyPath _ _ _)
    · have hlen : (chr '.' :: suffix.chars).length = (chr '.' :: tempSuffixTmp.chars).length := by
        rw [List.length_cons, List.length_cons, suffix.length_eq, tempSuffixTmp.length_eq]
      have htail := (List.cons.inj (List.append_inj' heq hlen).2).2
      exact Or.inl (htail ▸ by decide)

end Tool

end Cacher
