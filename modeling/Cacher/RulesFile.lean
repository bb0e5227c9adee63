import Cacher.Config
import Cacher.Lib.Files

/-!
# `Cacher.RulesFile`: reading the rules file of a directory

`getRulesetFromFile` resolves the `CacherRulesFile` of a directory, looks at the file's
modification time and size, and takes the rules from the process-wide cache or reads and
parses the file. It is a program over `RulesOp`: the calls on the file, and the two sections
of the source that hold the mutex of the cache.

Value and base directory of a rules file are merged one by one. `readsSetFile_iff` says
exactly when the file read is still the one that the level which set it means.
-/

set_option autoImplicit false

namespace Cacher

open CText Files

/-- An entry of the cache of parsed rules files (`cacher_rules_cache_entry`). -/
structure CacherRulesCacheEntry where
  path : Path
  mtime : Int64
  size : Nat
  ruleset : Option CacherRuleset

/-- The fields of `apr_finfo_t` that are asked for. -/
structure FInfo where
  mtime : Int64
  size : Nat
  deriving DecidableEq

/-- A rules file, as one edit has left it. -/
structure RulesVersion where
  mtime : Int64
  contents : Bytes

/-- The calls of `get_ruleset_from_file`, and the edits of the operators. -/
inductive RulesOp where
  /-- `apr_stat` of modification time and size. -/
  | stat (path : Path)
  /-- The first loop over the cache, under the mutex. -/
  | find (path : Path)
  /-- `apr_file_open` for reading. -/
  | openRead (path : Path)
  /-- `apr_file_read_full` of `nbytes` bytes. -/
  | readFull (path : Path) (file : Bytes) (nbytes : Nat)
  /-- The second loop over the cache and the assignments behind it, under the mutex. -/
  | store (path : Path) (mtime : Int64) (size : Nat) (ruleset : Option CacherRuleset)
  /-- An operator replaces the file, or removes it. -/
  | edit (path : Path) (version : Option RulesVersion)

/-- The answer of each call. `none` stands for an error status. -/
abbrev RulesAns : RulesOp → Type
  | .stat _ => Option FInfo
  | .find _ => Option CacherRulesCacheEntry
  | .openRead _ => Option Bytes
  | .readFull _ _ _ => Option Bytes
  | .store _ _ _ _ => Unit
  | .edit _ _ => Unit

/-- A program over these calls. -/
abbrev RulesProg : Type → Type := Prog RulesOp RulesAns

/-- What `get_ruleset_from_file` takes from outside this model. -/
structure RulesEnv where
  /-- The mutex could be created. -/
  mutex : Bool
  /-- `apr_filepath_merge`. `none` is an error status. -/
  filepathMerge : CString → CString → Option Path
  /-- `cacher_ruleset_parse`. -/
  rulesetParse : CString → Option CacherRuleset

/-- `resolve_rules_file_path`. The caller has seen that there is a rules file. -/
def resolveRulesFilePath (filepathMerge : CString → CString → Option Path) (dconf : CacherDirConf) :
    Option Path :=
  dconf.configDir.bind fun dir => dconf.rulesFile.bind (filepathMerge dir)

/-- `get_ruleset_from_file` behind the first loop over the cache. -/
def loadRuleset (env : RulesEnv) (path : Path) (finfo : FInfo) :
    RulesProg (Option (Option CacherRuleset)) := do
  match ← Prog.perform (RulesOp.openRead path) with
  | none => pure none
  | some f =>
    match ← Prog.perform (RulesOp.readFull path f finfo.size) with
    | none => pure none
    | some buf =>
      let fresh := env.rulesetParse (ofBytes buf)
      let _ ← Prog.perform (RulesOp.store path finfo.mtime finfo.size fresh)
      pure (some fresh)

/-- `get_ruleset_from_file` behind `resolve_rules_file_path`. -/
def getRulesetAt (env : RulesEnv) (path : Path) : RulesProg (Option (Option CacherRuleset)) := do
  match ← Prog.perform (RulesOp.stat path) with
  | none => pure none
  | some finfo =>
    match ← Prog.perform (RulesOp.find path) with
    | none => loadRuleset env path finfo
    | some entry =>
      if entry.mtime = finfo.mtime ∧ entry.size = finfo.size then pure (some entry.ruleset)
      else loadRuleset env path finfo

/-- `get_ruleset_from_file`. Where the source returns NULL, `none` marks a call that failed
and `some none` a file that does not parse. -/
def getRulesetFromFile (env : RulesEnv) (dconf : CacherDirConf) :
    RulesProg (Option (Option CacherRuleset)) :=
  if !env.mutex then pure none
  else
    match resolveRulesFilePath env.filepathMerge dconf with
    | none => pure none
    | some path => getRulesetAt env path

/-! ### Which file is read -/

/-- The program can open the file at `path`. -/
def MayOpen (path : Path) {α : Type} (p : RulesProg α) : Prop :=
  ¬ Prog.Uses (fun op => op ≠ RulesOp.openRead path) p

/-- The only file opened is the one that the configuration resolves to. -/
theorem opens_getRulesetFromFile {env : RulesEnv} (hmutex : env.mutex = true)
    (dconf : CacherDirConf) (path : Path) :
    MayOpen path (getRulesetFromFile env dconf)
      ↔ resolveRulesFilePath env.filepathMerge dconf = some path := by
  unfold MayOpen getRulesetFromFile
  rw [hmutex]
  cases hresolve : resolveRulesFilePath env.filepathMerge dconf with
  | none =>
      constructor
      · intro h
        exact absurd (Prog.uses_pure _ _) h
      · intro h
        cases h
  | some path' =>
      constructor
      · intro h
        by_contra hne
        have hne : path' ≠ path := fun heq => hne (by rw [heq])
        apply h
        -- Every call is about `path'`.
        have hload : ∀ finfo, Prog.Uses (fun op => op ≠ RulesOp.openRead path)
            (loadRuleset env path' finfo) := by
          intro finfo
          refine Prog.uses_bind (Prog.uses_perform fun heq => ?_) fun f => ?_
          · exact hne (RulesOp.openRead.inj heq)
          cases f with
          | none => exact Prog.uses_pure _ _
          | some f =>
              refine Prog.uses_bind (Prog.uses_perform fun heq => by cases heq) fun buf => ?_
              cases buf with
              | none => exact Prog.uses_pure _ _
              | some buf =>
                  exact Prog.uses_bind (Prog.uses_perform fun heq => by cases heq) fun _ =>
                    Prog.uses_pure _ _
        refine Prog.uses_bind (Prog.uses_perform fun heq => by cases heq) fun finfo => ?_
        cases finfo with
        | none => exact Prog.uses_pure _ _
        | some finfo =>
            refine Prog.uses_bind (Prog.uses_perform fun heq => by cases heq) fun entry => ?_
            cases entry with
            | none => exact hload finfo
            | some entry =>
                show Prog.Uses _ (if _ then _ else _)
                split
                · exact Prog.uses_pure _ _
                · exact hload finfo
      · intro h huses
        cases h
        -- The file is there, and the cache does not know it.
        have hstat := huses.2 (some ⟨0, 0⟩)
        have hfind := hstat.2 none
        exact hfind.1 rfl

/-- The last level that sets `CacherRulesFile`. -/
def lastSetter (levels : List CacherDirConf) : Option CacherDirConf :=
  lastSet (fun level => level.rulesFile.map fun _ => level) levels

/-- The file that may be opened is the one that the last level to set `CacherRulesFile`
names, resolved against the directory of that very level. -/
def ReadsSetFile (env : RulesEnv) (top : CacherDirConf) (below : List CacherDirConf) : Prop :=
  ∀ path, MayOpen path (getRulesetFromFile env (mergeLevels top below))
    ↔ (lastSetter (top :: below)).bind (resolveRulesFilePath env.filepathMerge) = some path

/-- The name set for the rules file means another file in the last directory of the chain than
in the directory of the level that set it. -/
def ReadsElsewhere (env : RulesEnv) (levels : List CacherDirConf) : Prop :=
  ∃ setter file dir, lastSetter levels = some setter ∧ setter.rulesFile = some file
    ∧ lastSet (·.configDir) levels = some dir
    ∧ env.filepathMerge dir file ≠ setter.configDir.bind (env.filepathMerge · file)

section Resolve

variable {levels : List CacherDirConf} {setter : CacherDirConf}

theorem lastSetter_eq_some_iff :
    lastSetter levels = some setter ↔ ∃ above below, levels = above ++ setter :: below
      ∧ setter.rulesFile ≠ none ∧ ∀ level ∈ below, level.rulesFile = none := by
  unfold lastSetter
  rw [lastSet_eq_some_iff]
  constructor
  · rintro ⟨above, level, below, hlevels, hset, hunset⟩
    obtain ⟨file, hfile, rfl⟩ := Option.map_eq_some_iff.mp hset
    exact ⟨above, below, hlevels, by rw [hfile]; exact Option.some_ne_none _,
      fun l hl => by simpa using hunset l hl⟩
  · rintro ⟨above, below, hlevels, hset, hunset⟩
    obtain ⟨file, hfile⟩ := Option.ne_none_iff_exists'.mp hset
    exact ⟨above, setter, below, hlevels, by rw [hfile]; rfl, fun l hl => by rw [hunset l hl]; rfl⟩

/-- The rules file of a chain is the one of its last setter. -/
theorem lastSet_rulesFile (levels : List CacherDirConf) :
    lastSet (·.rulesFile) levels = (lastSetter levels).bind (·.rulesFile) := by
  cases hsetter : lastSetter levels with
  | none =>
      rw [Option.bind_none, lastSet_eq_none_iff]
      intro level hlevel
      simpa using lastSet_eq_none_iff.mp hsetter level hlevel
  | some setter =>
      obtain ⟨above, below, rfl, hset, hunset⟩ := lastSetter_eq_some_iff.mp hsetter
      obtain ⟨file, hfile⟩ := Option.ne_none_iff_exists'.mp hset
      rw [Option.bind_some, hfile]
      exact lastSet_eq_some_iff.mpr ⟨above, setter, below, rfl, hfile, hunset⟩

/-- A chain without any directory has a setter without one. -/
theorem configDir_lastSetter (h : lastSetter levels = some setter)
    (hdir : lastSet (·.configDir) levels = none) : setter.configDir = none := by
  obtain ⟨above, below, rfl, -, -⟩ := lastSetter_eq_some_iff.mp h
  exact lastSet_eq_none_iff.mp hdir setter (by simp)

end Resolve

/-- The rules file is resolved against the directory that set it, except exactly when its name
means another file in the last directory of the chain. -/
theorem readsSetFile_iff (env : RulesEnv) (hmutex : env.mutex = true) (top : CacherDirConf)
    (below : List CacherDirConf) :
    ReadsSetFile env top below ↔ ¬ ReadsElsewhere env (top :: below) := by
  obtain ⟨-, -, -, -, hfile, hdir⟩ := mergeLevels_eq top below
  -- Both sides compare two ways to resolve the name.
  have hreads : ReadsSetFile env top below
      ↔ resolveRulesFilePath env.filepathMerge (mergeLevels top below)
        = (lastSetter (top :: below)).bind (resolveRulesFilePath env.filepathMerge) := by
    unfold ReadsSetFile
    rw [Option.ext_iff]
    exact forall_congr' fun path => by rw [opens_getRulesetFromFile hmutex]
  rw [hreads, resolveRulesFilePath, hfile, hdir, lastSet_rulesFile]
  unfold ReadsElsewhere
  cases hsetter : lastSetter (top :: below) with
  | none => simp
  | some setter =>
      obtain ⟨above, rest, -, hset, -⟩ := lastSetter_eq_some_iff.mp hsetter
      obtain ⟨file, hname⟩ := Option.ne_none_iff_exists'.mp hset
      simp only [Option.bind_some, resolveRulesFilePath, hname]
      cases hlast : lastSet (·.configDir) (top :: below) with
      | none =>
          rw [configDir_lastSetter hsetter hlast]
          simp
      | some dir =>
          constructor
          · rintro hsame ⟨setter', file', dir', hsetter', hname', hdir', hne⟩
            cases hsetter'
            cases hdir'
            rw [hname] at hname'
            cases hname'
            exact hne hsame
          · intro hno
            by_contra hne
            exact hno ⟨setter, file, dir, rfl, hname, rfl, hne⟩

/-- `apr_filepath_merge` on plain names: an absolute name stands for itself. -/
def joinPath (root add : CString) : Option Path :=
  if add.head? = some (chr '/') then some add
  else if root.getLast? = some (chr '/') then some (root ++ add)
  else some (root ++ chr '/' :: add)

/-- An environment in which no rules file parses. -/
def RulesEnv.sample : RulesEnv := ⟨true, joinPath, fun _ => none⟩

/-- `/www/` sets its rules file. -/
def CacherDirConf.rulesTop : CacherDirConf :=
  { cacherCreateDirConfig (some (lit "/www/")) with rulesFile := some (lit "rules.json") }

/-- `/www/blog/` only turns caching on. -/
def CacherDirConf.enableBelow : CacherDirConf :=
  { cacherCreateDirConfig (some (lit "/www/blog/")) with enabled := some true }

/-- Below `/www/blog/` the rules are read from another file. -/
theorem not_readsSetFile_enableBelow :
    ¬ ReadsSetFile RulesEnv.sample CacherDirConf.rulesTop [CacherDirConf.enableBelow] := by
  intro h
  have hset := (h (lit "/www/blog/rules.json")).mp
    ((opens_getRulesetFromFile rfl _ _).mpr (by decide))
  revert hset
  decide

/-- In `/www/` itself they are read from the right one. -/
theorem readsSetFile_rulesTop : ReadsSetFile RulesEnv.sample CacherDirConf.rulesTop [] := by
  refine (readsSetFile_iff RulesEnv.sample rfl CacherDirConf.rulesTop []).mpr ?_
  rintro ⟨setter, file, dir, hsetter, hfile, hdir, hne⟩
  cases hsetter
  cases hfile
  cases hdir
  exact hne rfl

end Cacher
