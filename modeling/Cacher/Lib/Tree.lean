import Cacher.Lib.Files

/-!
# `Cacher.Lib.Tree`: directory trees, and taking them down

Which paths lie below a directory, what is left of a file system from which things are only
removed, and what it takes to know that nothing is left below a root: every file and every
directory there is in a directory that exists (`Closed`), and the root itself is empty
(`Closed.nothing_below`).
-/

set_option autoImplicit false

namespace Files

open CText

/-! ### Loops -/

section Loops

variable {σ α : Type} {f : σ → α → σ} {l : List α} {P Q : σ → Prop}

/-- A loop reaches what one of its turns reaches, when the other turns keep it. -/
theorem foldl_reaches {x : α} (hx : x ∈ l) (hP : ∀ s, P s → ∀ y ∈ l, P (f s y))
    (hturn : ∀ s, P s → Q (f s x)) (hQ : ∀ s, P s → Q s → ∀ y ∈ l, Q (f s y)) {s : σ} (h : P s) :
    Q (l.foldl f s) := by
  obtain ⟨before, after, rfl⟩ := List.mem_iff_append.mp hx
  rw [List.foldl_append, List.foldl_cons]
  have hbefore : P (before.foldl f s) :=
    List.foldlRecOn before f h fun s hs y hy => hP s hs y (List.mem_append_left _ hy)
  have hmem : ∀ y ∈ after, y ∈ before ++ x :: after := fun y hy =>
    List.mem_append_right _ (List.mem_cons_of_mem _ hy)
  exact (List.foldlRecOn after f (motive := fun s => P s ∧ Q s)
    ⟨hP _ hbefore x hx, hturn _ hbefore⟩ fun s hs y hy =>
      ⟨hP s hs.1 y (hmem y hy), hQ s hs.1 hs.2 y (hmem y hy)⟩).2

end Loops

namespace FileSystem

/-- Removes the directory `p`. -/
def removeDir (fs : FileSystem) (p : Path) : FileSystem :=
  { fs with dirs := fs.dirs.filter (· != p) }

/-! ### Below a directory -/

/-- The path lies below the directory. -/
def Under (dir p : Path) : Prop := ∃ rest, p = dir ++ chr '/' :: rest

theorem eq_dirname_append_basename {p : Path} (h : chr '/' ∈ p) :
    p = dirname p ++ chr '/' :: basename p := by
  have hsplit := List.takeWhile_append_dropWhile (p := (· != chr '/')) (l := p.reverse)
  have hne : p.reverse.dropWhile (· != chr '/') ≠ [] := by
    intro hnil
    have hall := List.dropWhile_eq_nil_iff.mp hnil _ (List.mem_reverse.mpr h)
    simp at hall
  have hhead : (p.reverse.dropWhile (· != chr '/')).head hne = chr '/' := by
    simpa using List.head_dropWhile_not (· != chr '/') hne
  rw [← List.cons_head_tail hne, hhead] at hsplit
  have hp := congrArg List.reverse hsplit
  rw [List.reverse_reverse, List.reverse_append, List.reverse_cons, List.append_assoc] at hp
  rw [dirname, basename, List.drop_one]
  exact hp.symm

theorem Under.slash_mem {dir p : Path} (h : Under dir p) : chr '/' ∈ p := by
  obtain ⟨rest, rfl⟩ := h
  simp

theorem Under.length_lt {dir p : Path} (h : Under dir p) : dir.length < p.length := by
  obtain ⟨rest, rfl⟩ := h
  simp

theorem under_append (dir name : Path) : Under dir (dir ++ chr '/' :: name) := ⟨name, rfl⟩

theorem Under.append {dir p : Path} (h : Under dir p) (name : Path) :
    Under dir (p ++ chr '/' :: name) := by
  obtain ⟨rest, rfl⟩ := h
  exact ⟨rest ++ chr '/' :: name, by simp⟩

/-- What is in a directory that is `dir` or below it is below `dir`. -/
theorem under_entry {dir sub : Path} (h : sub = dir ∨ Under dir sub) (name : Path) :
    Under dir (sub ++ chr '/' :: name) := by
  rcases h with rfl | h
  · exact under_append sub name
  · exact h.append name

/-- What lies below a directory is in it, or in a directory below it. -/
theorem Under.dirname {dir p : Path} (h : Under dir p) :
    FileSystem.dirname p = dir ∨ Under dir (FileSystem.dirname p) := by
  obtain ⟨rest, rfl⟩ := h
  by_cases hslash : chr '/' ∈ rest
  · right
    rw [eq_dirname_append_basename hslash, ← List.cons_append, ← List.append_assoc,
      dirname_append _ (slash_notMem_basename rest)]
    exact ⟨_, rfl⟩
  · exact Or.inl (dirname_append dir hslash)

theorem length_dirname_lt {p : Path} (h : chr '/' ∈ p) : (dirname p).length < p.length := by
  conv_rhs => rw [eq_dirname_append_basename h]
  simp

/-- A path with a directory part is that part and its last component. -/
theorem eq_of_dirname {dir p : Path} (hdir : dir ≠ []) (h : dirname p = dir) :
    p = dir ++ chr '/' :: basename p := by
  by_cases hslash : chr '/' ∈ p
  · rw [← h]
    exact eq_dirname_append_basename hslash
  · -- A path without a slash has no directory part.
    have hall : ∀ c ∈ p.reverse, (c != chr '/') = true := fun c hc =>
      bne_iff_ne.mpr fun heq => hslash (heq ▸ List.mem_reverse.mp hc)
    rw [dirname, List.dropWhile_eq_nil_iff.mpr hall] at h
    exact absurd h.symm hdir

/-- A directory lists what is in it under its last component. -/
theorem mem_entries_iff {fs : FileSystem} {dir : Path} (hdir : dir ≠ []) {name : CString}
    {isDir : Bool} : (name, isDir) ∈ fs.entries dir ↔ chr '/' ∉ name
      ∧ if isDir then dir ++ chr '/' :: name ∈ fs.dirs
        else (fs.read (dir ++ chr '/' :: name)).isSome = true := by
  have hpath : ∀ q, dirname q = dir → q = dir ++ chr '/' :: basename q := fun q =>
    eq_of_dirname hdir
  cases isDir with
  | true =>
      rw [mem_entries_dir, if_pos rfl]
      constructor
      · rintro ⟨d, hd, hdirname, rfl⟩
        exact ⟨slash_notMem_basename d, hpath d hdirname ▸ hd⟩
      · rintro ⟨hname, hd⟩
        exact ⟨_, hd, dirname_append dir hname, basename_append dir hname⟩
  | false =>
      rw [mem_entries_file, if_neg Bool.false_ne_true]
      constructor
      · rintro ⟨q, b, hq, hdirname, rfl⟩
        refine ⟨slash_notMem_basename q, ?_⟩
        rw [← hpath q hdirname, hq]
        rfl
      · rintro ⟨hname, hread⟩
        obtain ⟨b, hb⟩ := Option.isSome_iff_exists.mp hread
        exact ⟨_, b, hb, dirname_append dir hname, basename_append dir hname⟩

/-- A directory without files and without directories is empty. -/
theorem entries_eq_nil {fs : FileSystem} {dir : Path} (hdir : dir ≠ [])
    (hfile : ∀ name, chr '/' ∉ name → fs.read (dir ++ chr '/' :: name) = none)
    (hsub : ∀ name, chr '/' ∉ name → dir ++ chr '/' :: name ∉ fs.dirs) : fs.entries dir = [] := by
  refine List.eq_nil_iff_forall_not_mem.mpr fun ⟨name, isDir⟩ hmem => ?_
  obtain ⟨hname, hthere⟩ := (mem_entries_iff hdir).mp hmem
  cases isDir with
  | true => exact hsub name hname hthere
  | false =>
      rw [if_neg Bool.false_ne_true, hfile name hname] at hthere
      cases hthere

/-! ### Removing -/

/-- Nothing has come and nothing has changed, at most something is gone. -/
structure Shrinks (fs fs' : FileSystem) : Prop where
  read : ∀ q, fs'.read q = fs.read q ∨ fs'.read q = none
  dirs : ∀ d ∈ fs'.dirs, d ∈ fs.dirs

theorem Shrinks.refl (fs : FileSystem) : Shrinks fs fs := ⟨fun _ => Or.inl rfl, fun _ h => h⟩

theorem Shrinks.trans {fs fs' fs'' : FileSystem} (h : Shrinks fs fs') (h' : Shrinks fs' fs'') :
    Shrinks fs fs'' where
  read q := by
    rcases h'.read q with hsame | hgone
    · rw [hsame]
      exact h.read q
    · exact Or.inr hgone
  dirs d hd := h.dirs d (h'.dirs d hd)

theorem shrinks_erase (fs : FileSystem) (p : Path) : Shrinks fs (fs.erase p) where
  read q := by
    rw [read_erase]
    split
    · exact Or.inr rfl
    · exact Or.inl rfl
  dirs _ h := h

theorem shrinks_removeDir (fs : FileSystem) (p : Path) : Shrinks fs (fs.removeDir p) where
  read _ := Or.inl rfl
  dirs _ h := List.mem_of_mem_filter h

theorem Shrinks.read_eq_none {fs fs' : FileSystem} (h : Shrinks fs fs') {q : Path}
    (hnone : fs.read q = none) : fs'.read q = none :=
  (h.read q).elim (fun hsame => hsame.trans hnone) id

theorem Shrinks.read_eq_some {fs fs' : FileSystem} (h : Shrinks fs fs') {q : Path} {b : Bytes}
    (hsome : fs'.read q = some b) : fs.read q = some b := by
  rcases h.read q with hsame | hgone
  · rw [← hsame, hsome]
  · rw [hgone] at hsome
    cases hsome

/-- A directory lists no more than before. -/
theorem Shrinks.entries {fs fs' : FileSystem} (h : Shrinks fs fs') {dir : Path} (hdir : dir ≠ [])
    {x : CString × Bool} (hx : x ∈ fs'.entries dir) : x ∈ fs.entries dir := by
  obtain ⟨name, isDir⟩ := x
  obtain ⟨hname, hthere⟩ := (mem_entries_iff hdir).mp hx
  refine (mem_entries_iff hdir).mpr ⟨hname, ?_⟩
  cases isDir with
  | true => exact h.dirs _ hthere
  | false =>
      obtain ⟨b, hb⟩ := Option.isSome_iff_exists.mp hthere
      rw [if_neg Bool.false_ne_true, h.read_eq_some hb]
      rfl

/-! ### Trees -/

/-- There is something under this name. -/
def Has (fs : FileSystem) (p : Path) : Prop := (fs.read p).isSome = true ∨ p ∈ fs.dirs

/-- Whatever is below the root is in the root or in a directory that exists. -/
def Closed (root : Path) (fs : FileSystem) : Prop :=
  ∀ p, fs.Has p → Under root p → dirname p = root ∨ dirname p ∈ fs.dirs

/-- Nothing is below the root. -/
def NothingBelow (root : Path) (fs : FileSystem) : Prop := ∀ p, Under root p → ¬ fs.Has p

theorem Has.mem_entries {fs : FileSystem} {p : Path} (h : fs.Has p) (hslash : chr '/' ∈ p) :
    ∃ x, x ∈ fs.entries (dirname p) := by
  have hp := eq_dirname_append_basename hslash
  rcases h with hfile | hdir
  · obtain ⟨b, hb⟩ := Option.isSome_iff_exists.mp hfile
    exact ⟨_, mem_entries_file.mpr ⟨p, b, hb, rfl, rfl⟩⟩
  · exact ⟨_, mem_entries_dir.mpr ⟨p, hdir, rfl, rfl⟩⟩

theorem Closed.erase {root : Path} {fs : FileSystem} (h : Closed root fs) (p : Path) :
    Closed root (fs.erase p) := by
  intro q hq
  refine h q (hq.imp_left fun hfile => ?_)
  obtain ⟨b, hb⟩ := Option.isSome_iff_exists.mp hfile
  rw [(shrinks_erase fs p).read_eq_some hb]
  rfl

/-- An empty directory can go. -/
theorem Closed.removeDir {root : Path} {fs : FileSystem} (h : Closed root fs) {d : Path}
    (hempty : fs.entries d = []) : Closed root (fs.removeDir d) := by
  intro q hq hunder
  have hold : fs.Has q := hq.imp_right fun hdir => (shrinks_removeDir fs d).dirs q hdir
  refine (h q hold hunder).imp_right fun hparent => List.mem_filter.mpr ⟨hparent, ?_⟩
  refine bne_iff_ne.mpr fun heq => ?_
  obtain ⟨x, hx⟩ := hold.mem_entries hunder.slash_mem
  rw [heq, hempty] at hx
  cases hx

/-- A tree is empty when its root is. -/
theorem Closed.nothing_below {root : Path} {fs : FileSystem} (h : Closed root fs)
    (hempty : fs.entries root = []) : NothingBelow root fs := by
  intro p
  -- Otherwise one of the directories above the path is in the root.
  induction hlen : p.length using Nat.strong_induction_on generalizing p with
  | _ n ih =>
      intro hunder hhas
      have hin : dirname p = root → False := by
        intro hdir
        obtain ⟨x, hx⟩ := hhas.mem_entries hunder.slash_mem
        rw [hdir, hempty] at hx
        cases hx
      rcases h p hhas hunder with hdir | hdir
      · exact hin hdir
      · rcases hunder.dirname with hroot | hbelow
        · exact hin hroot
        · have hlt := length_dirname_lt hunder.slash_mem
          exact ih _ (hlen ▸ hlt) _ rfl hbelow (Or.inr hdir)

end FileSystem

end Files
