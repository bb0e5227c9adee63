import Mathlib.Data.List.Induction
import Cacher.Request

/-!
# `Cacher.Config`: configuration levels and how they merge

httpd makes one `CacherDirConf` for each directory level that configures the module, with
`cacherCreateDirConfig` and the directives found there, and merges them from the top of the
chain down. A directive that no level sets stays `none`.

A merged chain keeps, for each directive by itself, the value of the last level that sets
it (`mergeLevels_eq`). The directory of a level counts as such a value too.
-/

set_option autoImplicit false

namespace Cacher

open CText

/-- `cacher_create_dir_config`. -/
def cacherCreateDirConfig (dir : Option CString) : CacherDirConf where
  enabled := none
  adminPath := none
  adminRequireUser := none
  statusHeader := none
  rulesJson := none
  rulesFile := none
  configDir := dir

/-- `cacher_merge_dir_config`. -/
def cacherMergeDirConfig (base add : CacherDirConf) : CacherDirConf :=
  let rulesFile := add.rulesFile.or base.rulesFile
  { enabled := add.enabled.or base.enabled
    adminPath := add.adminPath.or base.adminPath
    adminRequireUser := add.adminRequireUser.or base.adminRequireUser
    statusHeader := add.statusHeader.or base.statusHeader
    -- A rules file wins over inline rules, whichever level sets it.
    rulesJson := if rulesFile.isSome then none else add.rulesJson.or base.rulesJson
    rulesFile := rulesFile
    configDir := add.configDir.or base.configDir }

/-- The configuration of a directory: its levels, merged from `top` down. -/
def mergeLevels (top : CacherDirConf) (below : List CacherDirConf) : CacherDirConf :=
  below.foldl cacherMergeDirConfig top

/-- What the last level that sets the field `f` sets it to. -/
def lastSet {α β : Type} (f : α → Option β) (levels : List α) : Option β :=
  levels.reverse.findSome? f

section LastSet

variable {α β : Type} {f : α → Option β}

@[simp] theorem lastSet_singleton (level : α) : lastSet f [level] = f level := by
  simp [lastSet]

/-- Levels further down come first. -/
theorem lastSet_append (above below : List α) :
    lastSet f (above ++ below) = (lastSet f below).or (lastSet f above) := by
  rw [lastSet, List.reverse_append, List.findSome?_append]
  rfl

theorem lastSet_eq_none_iff {levels : List α} :
    lastSet f levels = none ↔ ∀ level ∈ levels, f level = none := by
  simp [lastSet]

/-- The field is set by some level and by none further down. -/
theorem lastSet_eq_some_iff {levels : List α} {b : β} :
    lastSet f levels = some b ↔ ∃ above level below, levels = above ++ level :: below
      ∧ f level = some b ∧ ∀ level ∈ below, f level = none := by
  constructor
  · intro h
    obtain ⟨below, level, above, hrev, hset, hunset⟩ := List.findSome?_eq_some_iff.mp h
    have hsplit : levels = above.reverse ++ level :: below.reverse := by
      rw [← List.reverse_reverse levels, hrev]
      simp
    exact ⟨above.reverse, level, below.reverse, hsplit, hset,
      fun l hl => hunset l (List.mem_reverse.mp hl)⟩
  · rintro ⟨above, level, below, rfl, hset, hunset⟩
    rw [lastSet_append, ← List.singleton_append, lastSet_append, lastSet_eq_none_iff.mpr hunset,
      lastSet_singleton, hset]
    rfl

/-- A field that every merge takes from the lower level, or else from the upper one, ends up
as the last level sets it. -/
theorem foldl_eq_lastSet {merge : α → α → α} (h : ∀ base add, f (merge base add) = (f add).or (f base))
    (top : α) (below : List α) : f (below.foldl merge top) = lastSet f (top :: below) := by
  induction below using List.reverseRecOn with
  | nil => simp
  | append_singleton below level ih =>
      rw [List.foldl_append, List.foldl_cons, List.foldl_nil, h, ih, ← List.cons_append,
        lastSet_append, lastSet_singleton]

end LastSet

section Levels

variable (top : CacherDirConf) (below : List CacherDirConf)

/-- Each directive of a merged chain, except the inline rules, is the one of the last level
that sets it. -/
theorem mergeLevels_eq :
    (mergeLevels top below).enabled = lastSet (·.enabled) (top :: below)
      ∧ (mergeLevels top below).adminPath = lastSet (·.adminPath) (top :: below)
      ∧ (mergeLevels top below).adminRequireUser = lastSet (·.adminRequireUser) (top :: below)
      ∧ (mergeLevels top below).statusHeader = lastSet (·.statusHeader) (top :: below)
      ∧ (mergeLevels top below).rulesFile = lastSet (·.rulesFile) (top :: below)
      ∧ (mergeLevels top below).configDir = lastSet (·.configDir) (top :: below) :=
  ⟨foldl_eq_lastSet (f := CacherDirConf.enabled) (fun _ _ => rfl) top below,
    foldl_eq_lastSet (f := CacherDirConf.adminPath) (fun _ _ => rfl) top below,
    foldl_eq_lastSet (f := CacherDirConf.adminRequireUser) (fun _ _ => rfl) top below,
    foldl_eq_lastSet (f := CacherDirConf.statusHeader) (fun _ _ => rfl) top below,
    foldl_eq_lastSet (f := CacherDirConf.rulesFile) (fun _ _ => rfl) top below,
    foldl_eq_lastSet (f := CacherDirConf.configDir) (fun _ _ => rfl) top below⟩

end Levels

end Cacher
