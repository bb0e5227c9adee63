import Cacher.Admin

/-!
# `Cacher.Tool`: purging from the command line

`tools/cacher` reads the header files without the module: `cmdPurge` walks the cache root,
loads every file whose name ends in `.header`, and deletes the body and the header of the
entries whose url matches. What it needs from Python's own library (decoding a file, `strip`,
`isdigit`, `int`, `lower`, `fnmatch`) enters as a parameter, and so does the number of levels
of directories that `os.walk` goes down.

A path joined by `os.path.join` has the slash that the module writes too. The two differ in
repeated slashes only, which name the same file.
-/

set_option autoImplicit false

namespace Cacher

namespace Tool

open CText Files

/-- A `str` of Python. -/
abbrev PyStr := List Char

/-- What the tool takes from Python. -/
structure Python where
  /-- The text of a file that is opened with `encoding="utf-8", errors="replace"`. -/
  decode : Bytes → PyStr
  strip : PyStr → PyStr
  isdigit : PyStr → Bool
  /-- `int`. `none` is a `ValueError`. -/
  int : PyStr → Option Int
  lower : PyStr → PyStr
  fnmatch : (name pattern : PyStr) → Bool

/-- What `Entry` keeps of a header file. -/
structure Entry where
  expires : Int
  status : Int
  method : PyStr
  host : PyStr
  url : PyStr
  deriving DecidableEq

/-- What `Entry.__init__` starts from. -/
def Entry.unset : Entry := ⟨0, 0, ['-'], ['-'], ['-']⟩

/-- How `load` ends. -/
inductive Loaded where
  | entry (entry : Entry)
  /-- It returns `False`. -/
  | notLoaded
  /-- `int` has raised a `ValueError`, which nothing catches. -/
  | raised
  deriving DecidableEq

/-- `int(value) if value.strip().isdigit() else 0`. -/
def number (py : Python) (value : PyStr) : Option Int :=
  if py.isdigit (py.strip value) then py.int value else some 0

/-- One turn of the loop of `load`. `none` is the `ValueError`. -/
def loadLine (py : Python) (entry : Entry) (line : PyStr) : Option Entry :=
  let (key, value) := (cutAt [' '] line).getD (line, [])
  if key = "expires".toList then
    (number py value).map fun n => { entry with expires := n }
  else if key = "status".toList then
    (number py value).map fun n => { entry with status := n }
  else if key = "url".toList then
    -- `value.split(" ", 2)` has three parts behind two blanks.
    match cutAt [' '] value with
    | none => some entry
    | some (method, rest) =>
      match cutAt [' '] rest with
      | none => some entry
      | some (host, url) => some { entry with method := method, host := host, url := url }
  else some entry

/-- What `load` makes of the 4096 characters it has read. -/
def loadText (py : Python) (text : PyStr) : Loaded :=
  match (((cutAt ['\n', '\n'] text).map (·.1)).getD text).splitOn '\n' with
  | [] => .notLoaded
  | first :: lines =>
    if py.strip first ≠ "CACHER/2".toList then .notLoaded
    else
      match lines.foldlM (loadLine py) Entry.unset with
      | none => .raised
      | some entry => .entry entry

/-- `Entry.load`. -/
def load (py : Python) (headerPath : Path) : FileProg Loaded := do
  match ← openRead headerPath with
  | none => pure .notLoaded
  | some fh =>
    match ← readFull fh fh.length with
    | none => pure .notLoaded
    | some text => pure (loadText py ((py.decode text).take 4096))

/-- `Entry.delete`: whether one of the two files has been removed. -/
def delete (headerPath : Path) : FileProg Bool := do
  let body ← remove (bodyPathOf headerPath)
  let header ← remove headerPath
  pure (body || header)

/-- The arguments of `cacher purge`. -/
structure PurgeArgs where
  root : Path
  host : Option PyStr
  pattern : PyStr
  dryRun : Bool

/-- How far `cmd_purge` has come. -/
structure PurgeState where
  matched : Nat
  /-- What has been printed to the standard output. -/
  printed : List PyStr
  /-- An exception has left the loop. -/
  raised : Bool

/-- The tests of `iter_selected` and `cmd_purge`. -/
def selects (py : Python) (args : PurgeArgs) (entry : Entry) : Bool :=
  -- An empty `--host` is no host.
  (match args.host with
    | none => true
    | some host => host = [] || py.lower entry.host = py.lower host)
    && (py.fnmatch entry.url args.pattern || py.fnmatch (entry.host ++ entry.url) args.pattern)

/-- What the loops over the entries do with one header file. -/
def purgeEntry (py : Python) (args : PurgeArgs) (st : PurgeState) (headerPath : Path) :
    FileProg PurgeState := do
  match ← load py headerPath with
  | .notLoaded => pure st
  | .raised => pure { st with raised := true }
  | .entry entry =>
    if selects py args entry then
      if args.dryRun then
        pure { st with
          matched := st.matched + 1
          printed := st.printed ++ ["would purge ".toList ++ entry.host ++ entry.url] }
      else if ← delete headerPath then
        pure { st with
          matched := st.matched + 1
          printed := st.printed ++ ["purged ".toList ++ entry.host ++ entry.url] }
      else pure st
    else pure st

/-- One file name of `os.walk` in `iter_entries`. -/
def purgeName (py : Python) (args : PurgeArgs) (dir : Path) (st : PurgeState) (name : CString) :
    FileProg PurgeState :=
  if st.raised then pure st
  else if lit ".header" <:+ name then purgeEntry py args st (dir ++ chr '/' :: name)
  else pure st

/-- `os.walk`, with what `cmd_purge` does with the files of each directory. -/
def walk (py : Python) (args : PurgeArgs) : Nat → PurgeState → Path → FileProg PurgeState
  | 0, st, _ => pure st
  | depth + 1, st, dir =>
    if st.raised then pure st
    else do
      -- A directory that cannot be read is passed over.
      match ← dirRead dir with
      | none => pure st
      | some entries =>
        let files := (entries.filter (!·.2)).map (·.1)
        let dirs := (entries.filter (·.2)).map (·.1)
        let st ← files.foldlM (purgeName py args dir) st
        dirs.foldlM (fun st name => walk py args depth st (dir ++ chr '/' :: name)) st

/-- How the tool ends. -/
structure Ending where
  /-- An exception has ended it. -/
  raised : Bool
  exitCode : Nat
  printed : List PyStr

/-- `cmd_purge`. -/
def cmdPurge (py : Python) (depth : Nat) (args : PurgeArgs) : FileProg Ending := do
  -- `os.path.isdir` asks less than a listing does, and is told the same.
  match ← dirRead args.root with
  | none => pure ⟨false, 2, []⟩
  | some _ =>
    let st ← walk py args depth ⟨0, [], false⟩ args.root
    if st.raised then pure ⟨true, 1, st.printed⟩
    else if st.matched = 0 then pure ⟨false, 1, st.printed⟩
    else
      let summary := "\n".toList ++ (toString st.matched).toList ++ " entr".toList
        ++ (if st.matched = 1 then "y" else "ies").toList ++ " ".toList
        ++ (if args.dryRun then "would be purged" else "purged").toList
      pure ⟨false, 0, st.printed ++ [summary]⟩

/-! ### The tool only reads and removes -/

theorem onlyRemoves_purgeEntry (py : Python) (args : PurgeArgs) (st : PurgeState)
    (headerPath : Path) : OnlyRemoves (purgeEntry py args st headerPath) := by
  have hload : OnlyRemoves (load py headerPath) := by
    refine Prog.uses_bind (Prog.uses_perform trivial) fun fh => ?_
    cases fh with
    | none => exact Prog.uses_pure _ _
    | some fh =>
        refine Prog.uses_bind (Prog.uses_perform trivial) fun text => ?_
        cases text with
        | none => exact Prog.uses_pure _ _
        | some text => exact Prog.uses_pure _ _
  refine Prog.uses_bind hload fun loaded => ?_
  cases loaded with
  | notLoaded => exact Prog.uses_pure _ _
  | raised => exact Prog.uses_pure _ _
  | entry entry =>
      show OnlyRemoves (if _ then _ else _)
      split
      · show OnlyRemoves (if _ then _ else _)
        split
        · exact Prog.uses_pure _ _
        · refine Prog.uses_bind (Prog.uses_bind (Prog.uses_perform trivial) fun _ =>
            Prog.uses_bind (Prog.uses_perform trivial) fun _ => Prog.uses_pure _ _) fun removed => ?_
          cases removed with
          | true => exact Prog.uses_pure _ _
          | false => exact Prog.uses_pure _ _
      · exact Prog.uses_pure _ _

theorem onlyRemoves_walk (py : Python) (args : PurgeArgs) (depth : Nat) (st : PurgeState)
    (dir : Path) : OnlyRemoves (walk py args depth st dir) := by
  induction depth generalizing st dir with
  | zero => exact Prog.uses_pure _ _
  | succ depth ih =>
      rw [walk]
      split
      · exact Prog.uses_pure _ _
      refine Prog.uses_bind (Prog.uses_perform trivial) fun entries => ?_
      cases entries with
      | none => exact Prog.uses_pure _ _
      | some entries =>
          refine Prog.uses_bind (Prog.uses_foldlM (fun st name => ?_) _ _) fun st =>
            Prog.uses_foldlM (fun st name => ih st _) _ _
          unfold purgeName
          split
          · exact Prog.uses_pure _ _
          split
          · exact onlyRemoves_purgeEntry py args st _
          · exact Prog.uses_pure _ _

theorem onlyRemoves_cmdPurge (py : Python) (depth : Nat) (args : PurgeArgs) :
    OnlyRemoves (cmdPurge py depth args) := by
  refine Prog.uses_bind (Prog.uses_perform trivial) fun entries => ?_
  cases entries with
  | none => exact Prog.uses_pure _ _
  | some entries =>
      refine Prog.uses_bind (onlyRemoves_walk py args depth _ _) fun st => ?_
      show OnlyRemoves (if _ then _ else _)
      split
      · exact Prog.uses_pure _ _
      · show OnlyRemoves (if _ then _ else _)
        split
        · exact Prog.uses_pure _ _
        · exact Prog.uses_pure _ _

end Tool

end Cacher
