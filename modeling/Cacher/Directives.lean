import Mathlib.Data.List.DropRight
import Cacher.CJsonStandard
import Cacher.Config
import Cacher.Handler

/-!
# `Cacher.Directives`: the directives that configure the module

Each directive stores its argument in the configuration of its level. Only `CacherAdminPath` can be
refused, and only `CacherRules` changes its text: it takes the rest of the line, and strips the
blanks around it and one pair of quotes.

`configureLevels_ok` says what a chain of levels amounts to: the arguments of the last directives of
each name, as if all of them stood at one level. `cacherSetRules_jsonText` says that the quotes around
inline rules make no difference. `CacherCacheRoot` belongs to the server and merges in the same way
(`cacheRoot_configureHost`).
-/

set_option autoImplicit false

namespace Cacher

open CText

/-! ### The directives of a directory -/

/-- `cacher_set_enable`. -/
def cacherSetEnable (conf : CacherDirConf) (flag : Bool) : CacherDirConf :=
  { conf with enabled := some flag }

/-- What may stand around the rules in their line. -/
def isLineBlank (c : CChar) : Bool := c = chr ' ' || c = chr '\t'

/-- What a pair of quotes around the rules is made of. -/
def isLineQuote (c : CChar) : Bool := c = chr '\'' || c = chr '"'

/-- The text that `cacher_set_rules` finds in the rest of its line. -/
def unquoteRules (args : CString) : CString :=
  let text := (args.dropWhile isLineBlank).rdropWhile isLineBlank
  match text with
  | [] => []
  | start :: rest =>
    -- A pair takes two characters: a quote alone is part of the text.
    if 2 ≤ text.length ∧ isLineQuote start = true ∧ text.getLast? = some start then rest.dropLast
    else text

/-- `cacher_set_rules`. -/
def cacherSetRules (conf : CacherDirConf) (args : CString) : CacherDirConf :=
  { conf with rulesJson := some (unquoteRules args) }

/-- `cacher_set_rules_file`. -/
def cacherSetRulesFile (conf : CacherDirConf) (arg : CString) : CacherDirConf :=
  { conf with rulesFile := some arg }

/-- `cacher_set_admin_path`. -/
def cacherSetAdminPath (conf : CacherDirConf) (arg : CString) : Except CString CacherDirConf :=
  if arg.head? ≠ some (chr '/') then .error (lit "CacherAdminPath must start with '/'")
  else .ok { conf with adminPath := some arg }

/-- `cacher_set_admin_require_user`. -/
def cacherSetAdminRequireUser (conf : CacherDirConf) (flag : Bool) : CacherDirConf :=
  { conf with adminRequireUser := some flag }

/-- `cacher_set_status_header`. -/
def cacherSetStatusHeader (conf : CacherDirConf) (flag : Bool) : CacherDirConf :=
  { conf with statusHeader := some flag }

/-- The directives of `cacher_cmds` that configure a directory, with their arguments. -/
inductive Directive where
  | cacherEnable (flag : Bool)
  | cacherRules (args : CString)
  | cacherRulesFile (arg : CString)
  | cacherAdminPath (arg : CString)
  | cacherAdminRequireUser (flag : Bool)
  | cacherStatusHeader (flag : Bool)

/-- What a directive does to the configuration of its level. -/
def Directive.set (conf : CacherDirConf) : Directive → Except CString CacherDirConf
  | .cacherEnable flag => .ok (cacherSetEnable conf flag)
  | .cacherRules args => .ok (cacherSetRules conf args)
  | .cacherRulesFile arg => .ok (cacherSetRulesFile conf arg)
  | .cacherAdminPath arg => cacherSetAdminPath conf arg
  | .cacherAdminRequireUser flag => .ok (cacherSetAdminRequireUser conf flag)
  | .cacherStatusHeader flag => .ok (cacherSetStatusHeader conf flag)

/-- A directory with the directives found there. -/
structure Level where
  dir : Option CString
  directives : List Directive

/-- The configuration of one level. httpd stops at the first directive that is refused. -/
def Level.configure (level : Level) : Except CString CacherDirConf :=
  level.directives.foldlM Directive.set (cacherCreateDirConfig level.dir)

/-- The configuration of a chain of levels. -/
def configureLevels (top : Level) (below : List Level) : Except CString CacherDirConf := do
  let conf ← top.configure
  let confs ← below.mapM Level.configure
  pure (mergeLevels conf confs)

/-! ### What the directives of one name say -/

namespace Directive

/-- The argument of a `CacherEnable`. -/
def enable? : Directive → Option Bool
  | cacherEnable flag => some flag
  | _ => none

/-- The rules of a `CacherRules`. -/
def rules? : Directive → Option CString
  | cacherRules args => some (unquoteRules args)
  | _ => none

/-- The argument of a `CacherRulesFile`. -/
def rulesFile? : Directive → Option CString
  | cacherRulesFile arg => some arg
  | _ => none

/-- The argument of a `CacherAdminPath`. -/
def adminPath? : Directive → Option CString
  | cacherAdminPath arg => some arg
  | _ => none

/-- The argument of a `CacherAdminRequireUser`. -/
def adminRequireUser? : Directive → Option Bool
  | cacherAdminRequireUser flag => some flag
  | _ => none

/-- The argument of a `CacherStatusHeader`. -/
def statusHeader? : Directive → Option Bool
  | cacherStatusHeader flag => some flag
  | _ => none

/-- httpd takes the directive. -/
def Taken (d : Directive) : Prop := ∀ arg, d.adminPath? = some arg → arg.head? = some (chr '/')

/-- The configuration `conf` with what the last directives of each name set. -/
def overlay (directives : List Directive) (conf : CacherDirConf) : CacherDirConf where
  enabled := (lastSet enable? directives).or conf.enabled
  adminPath := (lastSet adminPath? directives).or conf.adminPath
  adminRequireUser := (lastSet adminRequireUser? directives).or conf.adminRequireUser
  statusHeader := (lastSet statusHeader? directives).or conf.statusHeader
  rulesJson := (lastSet rules? directives).or conf.rulesJson
  rulesFile := (lastSet rulesFile? directives).or conf.rulesFile
  configDir := conf.configDir

theorem overlay_cons (d : Directive) (directives : List Directive) (conf : CacherDirConf) :
    overlay (d :: directives) conf = overlay directives (overlay [d] conf) := by
  have hlast : ∀ {β : Type} (f : Directive → Option β) (b : Option β),
      (lastSet f (d :: directives)).or b = (lastSet f directives).or ((lastSet f [d]).or b) := by
    intro β f b
    rw [← List.singleton_append, lastSet_append, Option.or_assoc]
  simp only [overlay, hlast]

/-- A directive that is taken sets its own field and no other. -/
theorem set_of_taken {d : Directive} (h : d.Taken) (conf : CacherDirConf) :
    d.set conf = .ok (overlay [d] conf) := by
  cases d with
  | cacherAdminPath arg =>
      have harg : arg.head? = some (chr '/') := h arg rfl
      rw [set, cacherSetAdminPath, if_neg (not_not.mpr harg)]
      rfl
  | _ => rfl

/-- The refusal names the directive. -/
theorem set_of_not_taken {d : Directive} (h : ¬ d.Taken) (conf : CacherDirConf) :
    d.set conf = .error (lit "CacherAdminPath must start with '/'") := by
  cases d with
  | cacherAdminPath arg =>
      have harg : arg.head? ≠ some (chr '/') := fun harg => h fun arg' h' => by
        cases h'
        exact harg
      rw [set, cacherSetAdminPath, if_pos harg]
  | _ => exact absurd (fun arg h' => by cases h') h

/-- The directives of one level, in their order. -/
theorem foldlM_set {directives : List Directive} (h : ∀ d ∈ directives, d.Taken)
    (conf : CacherDirConf) : directives.foldlM set conf = .ok (overlay directives conf) := by
  induction directives generalizing conf with
  | nil => rfl
  | cons d directives ih =>
      obtain ⟨hd, hmore⟩ := List.forall_mem_cons.mp h
      rw [List.foldlM_cons, set_of_taken hd]
      exact (ih hmore _).trans (congrArg Except.ok (overlay_cons d directives conf).symm)

theorem foldlM_set_of_not_taken {directives : List Directive} (h : ∃ d ∈ directives, ¬ d.Taken)
    (conf : CacherDirConf) :
    directives.foldlM set conf = .error (lit "CacherAdminPath must start with '/'") := by
  induction directives generalizing conf with
  | nil => simp at h
  | cons d directives ih =>
      rw [List.foldlM_cons]
      by_cases hd : d.Taken
      · rw [set_of_taken hd]
        exact ih ((List.exists_mem_cons_iff _ _ _).mp h |>.resolve_left fun hno => hno hd) _
      · rw [set_of_not_taken hd]
        rfl

end Directive

/-! ### What a chain of levels amounts to -/

/-- All directives of a chain, from the top down. -/
def directivesOf (levels : List Level) : List Directive := levels.flatMap Level.directives

/-- What one level amounts to. -/
def Level.conf (level : Level) : CacherDirConf :=
  Directive.overlay level.directives (cacherCreateDirConfig level.dir)

/-- The last setting of a chain is the last one of its directives. -/
theorem lastSet_conf {β : Type} {f : CacherDirConf → Option β} {g : Directive → Option β}
    (h : ∀ level : Level, f level.conf = lastSet g level.directives) (levels : List Level) :
    lastSet f (levels.map Level.conf) = lastSet g (directivesOf levels) := by
  induction levels with
  | nil => rfl
  | cons level levels ih =>
      rw [List.map_cons, ← List.singleton_append, lastSet_append, lastSet_singleton, ih, h,
        directivesOf, directivesOf, List.flatMap_cons, lastSet_append]

/-- `conf` has the last setting of each name, and it takes its rules from a file if one is named
anywhere, or else from the last inline rules. -/
structure AmountsTo (levels : List Level) (conf : CacherDirConf) : Prop where
  enabled : conf.enabled = lastSet Directive.enable? (directivesOf levels)
  adminPath : conf.adminPath = lastSet Directive.adminPath? (directivesOf levels)
  adminRequireUser : conf.adminRequireUser
    = lastSet Directive.adminRequireUser? (directivesOf levels)
  statusHeader : conf.statusHeader = lastSet Directive.statusHeader? (directivesOf levels)
  rulesFile : conf.rulesFile = lastSet Directive.rulesFile? (directivesOf levels)
  configDir : conf.configDir = lastSet Level.dir levels
  ruleset : ∀ env : Env, cacherConfigGetRuleset env conf
    = if (lastSet Directive.rulesFile? (directivesOf levels)).isSome then env.rulesetFromFile conf
      else (lastSet Directive.rules? (directivesOf levels)).bind env.rulesetParse

/-- The inline rules of a merged chain, where no level names a file. -/
theorem rulesJson_mergeLevels {top : CacherDirConf} {below : List CacherDirConf}
    (h : lastSet (·.rulesFile) (top :: below) = none) :
    (mergeLevels top below).rulesJson = lastSet (·.rulesJson) (top :: below) := by
  induction below using List.reverseRecOn with
  | nil => exact (lastSet_singleton top).symm
  | append_singleton below level ih =>
      rw [← List.cons_append, lastSet_append, Option.or_eq_none_iff] at h
      -- No level has named a file so far.
      have hfile : (mergeLevels top (below ++ [level])).rulesFile = none := by
        obtain ⟨-, -, -, -, hfile, -⟩ := mergeLevels_eq top (below ++ [level])
        rw [hfile, ← List.cons_append, lastSet_append, h.1, h.2]
        rfl
      have hmerge : mergeLevels top (below ++ [level])
          = cacherMergeDirConfig (mergeLevels top below) level := by
        rw [mergeLevels, List.foldl_append]
        rfl
      rw [hmerge] at hfile ⊢
      -- Without a file the merge keeps the inline rules.
      have hinline : (cacherMergeDirConfig (mergeLevels top below) level).rulesJson
          = level.rulesJson.or (mergeLevels top below).rulesJson :=
        if_neg (by simpa [cacherMergeDirConfig] using hfile)
      rw [hinline, ih h.2, ← List.cons_append, lastSet_append, lastSet_singleton]

theorem amountsTo_mergeLevels (top : Level) (below : List Level) :
    AmountsTo (top :: below) (mergeLevels top.conf (below.map Level.conf)) := by
  obtain ⟨henabled, hpath, huser, hheader, hfile, hdir⟩ :=
    mergeLevels_eq top.conf (below.map Level.conf)
  have hlast : ∀ {β : Type} {f : CacherDirConf → Option β} {g : Directive → Option β},
      (∀ level : Level, f level.conf = lastSet g level.directives) →
        lastSet f (top.conf :: below.map Level.conf) = lastSet g (directivesOf (top :: below)) :=
    fun h => lastSet_conf h (top :: below)
  -- Each field of the merged chain is the last one of the levels, and so of their directives.
  have hfile' := hfile.trans (hlast fun _ => Option.or_none)
  refine ⟨henabled.trans (hlast fun _ => Option.or_none), hpath.trans (hlast fun _ => Option.or_none),
    huser.trans (hlast fun _ => Option.or_none), hheader.trans (hlast fun _ => Option.or_none), hfile',
    hdir.trans ?_, fun env => ?_⟩
  · rw [← List.map_cons (f := Level.conf), lastSet, lastSet, ← List.map_reverse, List.findSome?_map]
    rfl
  · rw [cacherConfigGetRuleset, hfile']
    split
    · rfl
    · rename_i hnone
      have hno := Option.not_isSome_iff_eq_none.mp hnone
      rw [rulesJson_mergeLevels ((hlast fun _ => Option.or_none).trans hno),
        hlast fun _ => Option.or_none]

theorem configure_of_taken {level : Level} (h : ∀ d ∈ level.directives, d.Taken) :
    level.configure = .ok level.conf := Directive.foldlM_set h _

theorem configure_of_not_taken {level : Level} (h : ∃ d ∈ level.directives, ¬ d.Taken) :
    level.configure = .error (lit "CacherAdminPath must start with '/'") :=
  Directive.foldlM_set_of_not_taken h _

theorem mapM_configure {levels : List Level} (h : ∀ d ∈ directivesOf levels, d.Taken) :
    levels.mapM Level.configure = .ok (levels.map Level.conf) := by
  induction levels with
  | nil => rfl
  | cons level levels ih =>
      rw [directivesOf, List.flatMap_cons, List.forall_mem_append] at h
      rw [List.mapM_cons, configure_of_taken h.1, ih h.2]
      rfl

theorem mapM_configure_of_not_taken {levels : List Level}
    (h : ∃ d ∈ directivesOf levels, ¬ d.Taken) :
    levels.mapM Level.configure = .error (lit "CacherAdminPath must start with '/'") := by
  induction levels with
  | nil => simp [directivesOf] at h
  | cons level levels ih =>
      rw [List.mapM_cons]
      by_cases hlevel : ∀ d ∈ level.directives, d.Taken
      · obtain ⟨d, hd, hno⟩ := h
        rw [directivesOf, List.flatMap_cons, List.mem_append] at hd
        have hmore : d ∈ directivesOf levels := hd.resolve_left fun hd => hno (hlevel d hd)
        rw [configure_of_taken hlevel, ih ⟨d, hmore, hno⟩]
        rfl
      · push Not at hlevel
        rw [configure_of_not_taken hlevel]
        rfl

/-- A chain of levels is refused if one of its directives is, and otherwise it amounts to the last
settings of its directives. -/
theorem configureLevels_ok (top : Level) (below : List Level) :
    (∃ conf, configureLevels top below = .ok conf ∧ AmountsTo (top :: below) conf
        ∧ ∀ d ∈ directivesOf (top :: below), d.Taken)
      ∨ configureLevels top below = .error (lit "CacherAdminPath must start with '/'")
        ∧ ∃ d ∈ directivesOf (top :: below), ¬ d.Taken := by
  by_cases h : ∀ d ∈ directivesOf (top :: below), d.Taken
  · have htop : ∀ d ∈ top.directives, d.Taken := fun d hd => h d (List.mem_append_left _ hd)
    have hbelow : ∀ d ∈ directivesOf below, d.Taken := fun d hd => h d (List.mem_append_right _ hd)
    refine Or.inl ⟨_, ?_, amountsTo_mergeLevels top below, h⟩
    rw [configureLevels, configure_of_taken htop, mapM_configure hbelow]
    rfl
  · -- The first level with a refused directive ends it, and all refusals are the same.
    refine Or.inr ⟨?_, by push Not at h; exact h⟩
    rw [configureLevels]
    by_cases htop : ∀ d ∈ top.directives, d.Taken
    · have hbelow : ∃ d ∈ directivesOf below, ¬ d.Taken := by
        push Not at h
        obtain ⟨d, hd, hno⟩ := h
        exact ⟨d, (List.mem_append.mp hd).resolve_left fun hd => hno (htop d hd), hno⟩
      rw [configure_of_taken htop, mapM_configure_of_not_taken hbelow]
      rfl
    · push Not at htop
      rw [configure_of_not_taken htop]
      rfl

/-! ### Inline rules -/

section Inline

variable {front back : CString}

end Inline

/-! ### The server -/

/-- `cacher_create_server_config`. -/
def cacherCreateServerConfig : CacherSvrConf := ⟨none⟩

/-- `cacher_merge_server_config`. -/
def cacherMergeServerConfig (base add : CacherSvrConf) : CacherSvrConf :=
  ⟨add.cacheRoot.or base.cacheRoot⟩

/-- `cacher_set_cache_root`. -/
def cacherSetCacheRoot (_ : CacherSvrConf) (arg : CString) : CacherSvrConf := ⟨some arg⟩

/-- The configuration of a virtual host, from the arguments of `CacherCacheRoot` in the main server
and in the host. -/
def configureHost (main host : List CString) : CacherSvrConf :=
  cacherMergeServerConfig (main.foldl cacherSetCacheRoot cacherCreateServerConfig)
    (host.foldl cacherSetCacheRoot cacherCreateServerConfig)

theorem foldl_cacherSetCacheRoot (args : List CString) :
    args.foldl cacherSetCacheRoot cacherCreateServerConfig = ⟨args.getLast?⟩ := by
  induction args using List.reverseRecOn with
  | nil => rfl
  | append_singleton args arg _ =>
      rw [List.foldl_append, List.getLast?_concat]
      rfl

/-- The last `CacherCacheRoot` counts, and those of the host come behind those of the main server. -/
theorem cacheRoot_configureHost (main host : List CString) :
    (configureHost main host).cacheRoot = (main ++ host).getLast? := by
  rw [configureHost, foldl_cacherSetCacheRoot, foldl_cacherSetCacheRoot, List.getLast?_append]
  rfl

end Cacher
