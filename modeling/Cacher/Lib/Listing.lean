import Cacher.Lib.Tree
import Mathlib.Data.List.Lattice
import Mathlib.Data.List.Nodup

/-!
# `Cacher.Lib.Listing`: the files below a directory

`filesBelow` lists the files that a recursive walk comes to, in the order in which it takes the
entries of a directory. In a file system without two files or two directories of one name
(`Tidy`), which every call keeps, the walk comes to no file twice (`nodup_filesBelow`), and to each
file it has a way to (`mem_filesBelow_file`, `mem_filesBelow_dir`).
-/

set_option autoImplicit false

namespace Files

open CText

namespace FileSystem

/-! ### File systems without doubles -/

/-- No two files have the same path, and no two directories. -/
structure Tidy (fs : FileSystem) : Prop where
  files : (fs.files.map (·.1)).Nodup
  dirs : fs.dirs.Nodup

theorem tidy_empty : Tidy empty := ⟨List.nodup_nil, List.nodup_nil⟩

variable {fs : FileSystem}

theorem Tidy.erase (h : fs.Tidy) (p : Path) : (fs.erase p).Tidy :=
  ⟨h.files.sublist ((List.filter_sublist (l := fs.files)).map _), h.dirs⟩

theorem Tidy.put (h : fs.Tidy) (p : Path) (b : Bytes) : (fs.put p b).Tidy := by
  refine ⟨?_, h.dirs⟩
  show (p :: (fs.erase p).files.map (·.1)).Nodup
  refine List.nodup_cons.mpr ⟨fun hmem => ?_, (h.erase p).files⟩
  obtain ⟨e, he, rfl⟩ := List.mem_map.mp hmem
  have hne := (List.mem_filter.mp he).2
  simp at hne

theorem Tidy.append (h : fs.Tidy) (p : Path) (b : Bytes) : (fs.append p b).Tidy := by
  unfold FileSystem.append
  split
  · exact h.put p _
  · exact h

theorem Tidy.move (h : fs.Tidy) (src dst : Path) : (fs.move src dst).Tidy := by
  unfold FileSystem.move
  split
  · exact (h.erase src).put dst _
  · exact h

theorem Tidy.makeDir (h : fs.Tidy) (p : Path) : (fs.makeDir p).Tidy :=
  ⟨h.files, h.dirs.union _⟩

/-- Every call keeps a file system tidy. -/
theorem Tidy.answer {w : World} (h : w.fs.Tidy) (op : FileOp) : (w.answer op).2.fs.Tidy := by
  cases op with
  | timeNow => exact h
  | openRead _ => exact h
  | infoSize _ => exact h
  | readFull _ _ => exact h
  | stat _ => exact h
  | dirRead _ => exact h
  | mktemp template =>
      simp only [World.answer]
      split
      · split
        · exact h.put _ _
        · exact h
      · exact h
  | writeFull p data =>
      simp only [World.answer]
      split
      · exact h.append p data
      · exact h.append p _
  | rename src dst =>
      simp only [World.answer]
      split
      · exact h.move src dst
      · exact h
  | remove p =>
      simp only [World.answer]
      split
      · exact h.erase p
      · exact h
  | dirMakeRecursive p =>
      simp only [World.answer]
      split
      · exact h.makeDir p
      · exact h

/-- So does a program. -/
theorem tidy_run {α : Type} (p : FileProg α) {w : World} (h : w.fs.Tidy) :
    (run p w).2.fs.Tidy := by
  induction p generalizing w with
  | done a => exact h
  | call op next ih => exact ih (w.answer op).1 (h.answer op)

/-- A directory lists nothing twice. -/
theorem Tidy.nodup_entries (h : fs.Tidy) {dir : Path} (hdir : dir ≠ []) :
    (fs.entries dir).Nodup := by
  have hpath : ∀ {p q : Path}, dirname p = dir → dirname q = dir → basename p = basename q →
      p = q := by
    intro p q hp hq hname
    rw [eq_of_dirname hdir hp, eq_of_dirname hdir hq, hname]
  refine List.nodup_append.mpr ⟨?_, ?_, ?_⟩
  · refine (h.files.of_map _).filter _ |>.map_on fun e he e' he' heq => ?_
    have hdirs := (List.mem_filter.mp he).2
    have hdirs' := (List.mem_filter.mp he').2
    have hfst : e.1 = e'.1 :=
      hpath (by simpa using hdirs) (by simpa using hdirs') (Prod.mk.inj heq).1
    exact List.inj_on_of_nodup_map h.files (List.mem_filter.mp he).1 (List.mem_filter.mp he').1 hfst
  · refine (h.dirs.filter _).map_on fun d hd d' hd' heq => ?_
    have hdirs := (List.mem_filter.mp hd).2
    have hdirs' := (List.mem_filter.mp hd').2
    exact hpath (by simpa using hdirs) (by simpa using hdirs') (Prod.mk.inj heq).1
  · -- What is a file in one list is a directory in the other.
    intro x hx y hy heq
    obtain ⟨e, -, rfl⟩ := List.mem_map.mp hx
    obtain ⟨d, -, rfl⟩ := List.mem_map.mp hy
    cases (Prod.mk.inj heq).2

/-! ### What a walk comes to -/

/-- The files of one entry of a directory, where `below` are those of a directory. -/
def filesOf (skips visits : CString → Bool) (below : Path → List Path) (dir : Path)
    (entry : CString × Bool) : List Path :=
  if skips entry.1 then []
  else if entry.2 then below (dir ++ chr '/' :: entry.1)
  else if visits entry.1 then [dir ++ chr '/' :: entry.1] else []

/-- A walk: the order in which it takes the entries of a directory, the names that it skips, and the
names of the files that it visits. -/
structure Walking where
  order : List (CString × Bool) → List (CString × Bool)
  skips : CString → Bool
  visits : CString → Bool
  perm_order : ∀ l, (order l).Perm l

/-- The files that a walk comes to. `depth` bounds the levels that it goes down. -/
def filesBelow (k : Walking) (fs : FileSystem) : Nat → Path → List Path
  | 0, _ => []
  | depth + 1, dir =>
    if dir ∈ fs.dirs then
      (k.order (fs.entries dir)).flatMap (filesOf k.skips k.visits (filesBelow k fs depth) dir)
    else []

variable {k : Walking} {depth : Nat} {dir p : Path} {name : CString}

theorem filesBelow_of_mem (h : dir ∈ fs.dirs) :
    filesBelow k fs (depth + 1) dir
      = (k.order (fs.entries dir)).flatMap
        (filesOf k.skips k.visits (filesBelow k fs depth) dir) := if_pos h

theorem filesBelow_of_notMem (h : dir ∉ fs.dirs) : filesBelow k fs (depth + 1) dir = [] := if_neg h

theorem mem_order {l : List (CString × Bool)} {x : CString × Bool} : x ∈ k.order l ↔ x ∈ l :=
  (k.perm_order l).mem_iff

/-- The files are below the directory, and there. -/
theorem of_mem_filesBelow (hdir : dir ≠ []) (h : p ∈ filesBelow k fs depth dir) :
    Under dir p ∧ (fs.read p).isSome = true ∧ k.visits (basename p) = true := by
  induction depth generalizing dir p with
  | zero => cases h
  | succ depth ih =>
      by_cases hmem : dir ∈ fs.dirs
      · rw [filesBelow_of_mem hmem] at h
        obtain ⟨⟨name, isDir⟩, hentry, hp⟩ := List.mem_flatMap.mp h
        obtain ⟨hslash, hthere⟩ := (mem_entries_iff hdir).mp (mem_order.mp hentry)
        unfold filesOf at hp
        split at hp
        · cases hp
        split at hp
        · obtain ⟨hunder, hfile⟩ := ih (by simp) hp
          refine ⟨?_, hfile⟩
          obtain ⟨rest, rfl⟩ := hunder
          exact (under_append dir name).append rest
        split at hp
        · rename_i hfile hvisits
          obtain rfl := List.mem_singleton.mp hp
          obtain rfl : isDir = false := by simpa using hfile
          refine ⟨under_append dir name, hthere, ?_⟩
          rw [basename_append dir hslash]
          exact hvisits
        · cases hp
      · rw [filesBelow_of_notMem hmem] at h
        cases h

/-- The file of a directory that is not skipped. -/
theorem mem_filesBelow_file (hmem : dir ∈ fs.dirs) (hslash : chr '/' ∉ name)
    (hskips : k.skips name = false) (hvisits : k.visits name = true) {b : Bytes}
    (hread : fs.read (dir ++ chr '/' :: name) = some b) :
    dir ++ chr '/' :: name ∈ filesBelow k fs (depth + 1) dir := by
  rw [filesBelow_of_mem hmem]
  refine List.mem_flatMap.mpr ⟨(name, false), mem_order.mpr ?_, ?_⟩
  · exact mem_entries_file.mpr ⟨_, b, hread, dirname_append dir hslash, basename_append dir hslash⟩
  · simp [filesOf, hskips, hvisits]

/-- What is below a directory of the directory. -/
theorem mem_filesBelow_dir (hmem : dir ∈ fs.dirs) (hslash : chr '/' ∉ name)
    (hskips : k.skips name = false) (hsub : dir ++ chr '/' :: name ∈ fs.dirs)
    (h : p ∈ filesBelow k fs depth (dir ++ chr '/' :: name)) :
    p ∈ filesBelow k fs (depth + 1) dir := by
  rw [filesBelow_of_mem hmem]
  refine List.mem_flatMap.mpr ⟨(name, true), mem_order.mpr ?_, ?_⟩
  · exact mem_entries_dir.mpr ⟨_, hsub, dirname_append dir hslash, basename_append dir hslash⟩
  · simpa [filesOf, hskips] using h

/-- The entry of a directory that a path belongs to: its first component below the directory, and
whether there is more. -/
def entryOf (dir p : Path) : CString × Bool :=
  let rest := p.drop (dir.length + 1)
  (rest.takeWhile (· != chr '/'), decide (chr '/' ∈ rest))

theorem takeWhile_ne_slash (hslash : chr '/' ∉ name) (rest : CString) :
    (name ++ chr '/' :: rest).takeWhile (· != chr '/') = name := by
  rw [List.takeWhile_append_of_pos]
  · simp
  · intro c hc
    exact bne_iff_ne.mpr fun heq => hslash (heq ▸ hc)

theorem entryOf_of_mem (hslash : chr '/' ∉ name) {isDir : Bool}
    (h : p ∈ filesOf k.skips k.visits (filesBelow k fs depth) dir (name, isDir)) :
    entryOf dir p = (name, isDir) := by
  have hdrop : ∀ rest : CString, (dir ++ chr '/' :: rest).drop (dir.length + 1) = rest := by
    intro rest
    rw [show dir ++ chr '/' :: rest = (dir ++ [chr '/']) ++ rest by simp]
    exact List.drop_left' (by simp)
  unfold filesOf at h
  split at h
  · cases h
  split at h
  · rename_i hisDir
    obtain ⟨⟨rest, rfl⟩, -⟩ := of_mem_filesBelow (by simp) h
    obtain rfl : isDir = true := hisDir
    rw [entryOf, List.append_assoc, List.cons_append, hdrop]
    simp [takeWhile_ne_slash hslash]
  split at h
  · rename_i hisDir _
    obtain rfl := List.mem_singleton.mp h
    obtain rfl : isDir = false := by simpa using hisDir
    have hall : ∀ c ∈ name, (c != chr '/') = true := fun c hc =>
      bne_iff_ne.mpr fun heq => hslash (heq ▸ hc)
    simp only [entryOf, hdrop, List.takeWhile_eq_self_iff.mpr hall, hslash, decide_false]
  · cases h

/-- A walk comes to no file twice. -/
theorem Tidy.nodup_filesBelow (h : fs.Tidy) (hdir : dir ≠ []) :
    (filesBelow k fs depth dir).Nodup := by
  induction depth generalizing dir with
  | zero => exact List.nodup_nil
  | succ depth ih =>
      by_cases hmem : dir ∈ fs.dirs
      · rw [filesBelow_of_mem hmem]
        refine List.nodup_flatMap.mpr ⟨fun entry _ => ?_, ?_⟩
        · unfold filesOf
          split
          · exact List.nodup_nil
          split
          · exact ih (by simp)
          split
          · exact List.nodup_singleton _
          · exact List.nodup_nil
        · -- A path tells the entry that it belongs to.
          have hnodup := (k.perm_order (fs.entries dir)).nodup_iff.mpr (h.nodup_entries hdir)
          refine hnodup.imp_of_mem fun hx hy hne p hp hp' => ?_
          have hx := entryOf_of_mem ((mem_entries_iff hdir).mp (mem_order.mp hx)).1 hp
          have hy := entryOf_of_mem ((mem_entries_iff hdir).mp (mem_order.mp hy)).1 hp'
          exact hne (hx.symm.trans hy)
      · rw [filesBelow_of_notMem hmem]
        exact List.nodup_nil

end FileSystem

end Files
