import Cacher.Handler
import Cacher.Replay

/-!
# `Cacher.Isolation`: which requests the cache can answer

A request that the rules turn away is isolated from the cache (`cacherHandler_uncacheable`):
the handler declines it in the same way whatever the cache holds, and leaves the cache
alone.

A request that access control has refused is not isolated. httpd answers it with an internal
redirect to the error document, the handler runs on the redirected request, and it takes
the rule and the key from the original one. `keepsRefusal_iff` says exactly when the
refused page stays out of reach: the redirected request may not use the cache.
-/

set_option autoImplicit false

namespace Cacher

open CText Files

variable {env : Env} {r : RequestRec}

/-! ### Requests that are turned away -/

/-- `rs` is the ruleset of the request's directory. -/
def RulesFor (env : Env) (r : RequestRec) (rs : CacherRuleset) : Prop :=
  ∃ dconf, r.dirConf = some dconf ∧ cacherConfigGetRuleset env dconf = some rs

/-- `rule` is the first rule of `rs` that accepts the request, whatever rules follow it. -/
structure FirstMatch (r : RequestRec) (rs : CacherRuleset) (rule : CacherRule) : Prop where
  split : ∃ before after, rs.rules = before ++ rule :: after
    ∧ ∀ earlier ∈ before, r.accepts earlier = false
  accepts : r.accepts rule = true

/-- The reasons for which a request may not use the cache. -/
inductive Uncacheable (env : Env) (r : RequestRec) : Prop where
  | subrequest (h : r.main = true)
  /-- No `CacherEnable On` in its directory. -/
  | notEnabled (h : ∀ dconf, r.dirConf = some dconf → dconf.enabled ≠ some true)
  | noRuleset (h : ∀ dconf, r.dirConf = some dconf → cacherConfigGetRuleset env dconf = none)
  | noRule {rs : CacherRuleset} (hrs : RulesFor env r rs)
      (h : ∀ rule ∈ rs.rules, r.accepts rule = false)
  | excluded {rs : CacherRuleset} {rule : CacherRule} (hrs : RulesFor env r rs)
      (hfirst : FirstMatch r rs rule) (h : rule.enabled = false)
  | bypass {rs : CacherRuleset} {rule : CacherRule} (hrs : RulesFor env r rs)
      (hfirst : FirstMatch r rs rule) {cookie : CString × CString} (hmem : cookie ∈ forEachCookie r)
      (h : cacherRuleBypassesCookie rule cookie.1 = true)

theorem FirstMatch.find? {rs : CacherRuleset} {rule : CacherRule} (h : FirstMatch r rs rule) :
    rs.rules.find? r.accepts = some rule := by
  obtain ⟨before, after, hrules, hbefore⟩ := h.split
  have hnone : before.find? r.accepts = none := by
    rw [List.find?_eq_none]
    intro earlier hmem
    simp [hbefore earlier hmem]
  rw [hrules, List.find?_append, hnone, Option.none_or, List.find?_cons, h.accepts]

/-- The rule that a request may use the cache with is found in its own ruleset. -/
theorem MayUseCache.find? {dconf : CacherDirConf} {rule : CacherRule} {rs : CacherRuleset}
    (h : MayUseCache env r dconf rule) (hrs : RulesFor env r rs) :
    rs.rules.find? r.accepts = some rule := by
  obtain ⟨dconf', hconf, hrs⟩ := hrs
  rw [h.conf_eq] at hconf
  cases hconf
  obtain ⟨rs', hrs', hfind⟩ := h.matched
  rw [hrs] at hrs'
  cases hrs'
  exact hfind

theorem Uncacheable.not_mayUseCache (h : Uncacheable env r) (dconf : CacherDirConf)
    (rule : CacherRule) : ¬ MayUseCache env r dconf rule := by
  intro hmay
  cases h with
  | subrequest h =>
      have hsub := hmay.notSub
      rw [h] at hsub
      cases hsub
  | notEnabled h => exact h dconf hmay.conf_eq hmay.enabled
  | noRuleset h =>
      obtain ⟨rs, hrs, -⟩ := hmay.matched
      rw [h dconf hmay.conf_eq] at hrs
      cases hrs
  | noRule hrs h =>
      have hfind := hmay.find? hrs
      have haccepts := List.find?_some hfind
      rw [h rule (List.mem_of_find?_eq_some hfind)] at haccepts
      cases haccepts
  | excluded hrs hfirst h =>
      have hfind := hmay.find? hrs
      rw [hfirst.find?] at hfind
      cases hfind
      have hon := hmay.rule_enabled
      rw [h] at hon
      cases hon
  | bypass hrs hfirst hmem h =>
      have hfind := hmay.find? hrs
      rw [hfirst.find?] at hfind
      cases hfind
      have hno := hmay.noBypass
      rw [(cacherRequestBypasses_eq_true r rule).mpr ⟨_, hmem, h⟩] at hno
      cases hno

/-- A request that may not use the cache is declined in every cache alike: at most its
`X-Cacher` header changes, no filter is added, and the cache stays as it is. -/
theorem cacherHandler_uncacheable (hadmin : ∀ dconf action, ¬ UnderAdminPath r dconf action)
    (h : Uncacheable env r) :
    ∃ r', StatusHeaderOnly r r'
      ∧ ∀ w, run (cacherHandler env r) w = (⟨.declined, r', none, [], none⟩, w) := by
  have hdoes := cacherHandler_does env r
  generalize cacherHandler env r = p at hdoes
  cases hdoes with
  | admin hsub hunder => exact absurd hunder (hadmin _ _)
  | cache hmay => exact absurd hmay (h.not_mayUseCache _ _)
  | @decline r' hno _ hstatus => exact ⟨r', hstatus, fun w => rfl⟩

/-- A directory with caching switched on and a rules file. -/
def CacherDirConf.sample : CacherDirConf where
  enabled := some true
  adminPath := none
  adminRequireUser := none
  statusHeader := none
  rulesJson := none
  rulesFile := some (lit "rules.json")
  configDir := none

/-- An environment in which every rules file holds `rules`. -/
def Env.ofRules (rules : List CacherRule) : Env where
  md5 := md5OfGetA
  rulesetParse _ := none
  rulesetFromFile _ := some ⟨rules⟩
  walkDepth := 3

/-- An exclusion in front of a rule that accepts everything: `GET /a` is isolated. -/
theorem cacherHandler_uncacheable_excluded :
    ∃ r', StatusHeaderOnly
        { RequestRec.get (lit "/a") none with dirConf := some CacherDirConf.sample } r'
      ∧ ∀ w, run (cacherHandler
          (Env.ofRules [{ CacherRule.ofTtl 60 with enabled := false }, CacherRule.ofTtl 60])
          { RequestRec.get (lit "/a") none with dirConf := some CacherDirConf.sample }) w
        = (⟨.declined, r', none, [], none⟩, w) := by
  have hrs : RulesFor
      (Env.ofRules [{ CacherRule.ofTtl 60 with enabled := false }, CacherRule.ofTtl 60])
      { RequestRec.get (lit "/a") none with dirConf := some CacherDirConf.sample }
      ⟨[{ CacherRule.ofTtl 60 with enabled := false }, CacherRule.ofTtl 60]⟩ := ⟨_, rfl, rfl⟩
  refine cacherHandler_uncacheable (fun dconf action h => ?_)
    (.excluded hrs ⟨⟨[], _, rfl, fun _ hmem => by cases hmem⟩, rfl⟩ rfl)
  obtain ⟨hconf, haction⟩ := h
  cases hconf
  cases haction

/-! ### Requests that access control has refused -/

/-- httpd has refused the original request and redirected to the error document. -/
structure RefusedRedirect (r : RequestRec) : Prop where
  redirected : r.prev ≠ []
  refused : (cacherOriginalRequest r).status = 401 ∨ (cacherOriginalRequest r).status = 403

/-- Some rule could store the request's answer under the name `q`. -/
def EntryFile (env : Env) (r : RequestRec) (q : Path) : Prop :=
  ∃ rule paths, cacheKeyPaths env.md5 r r.cacheRoot rule = some paths
    ∧ (q = paths.headerPath ∨ q = paths.bodyPath)

/-- Two worlds that differ at most in what the cache holds for the request. -/
structure SameButEntry (env : Env) (r : RequestRec) (w w' : World) : Prop where
  files : ∀ q, ¬ EntryFile env r q → w.fs.read q = w'.fs.read q
  dirs : w.fs.dirs = w'.fs.dirs
  script : w.script = w'.script
  log : w.log = w'.log

/-- The handler keeps the cached page from a refused request. -/
structure KeepsRefusal (env : Env) (r : RequestRec) : Prop where
  /-- No cache makes it answer with a stored body. -/
  noPage : ∀ w, (run (cacherHandler env r) w).1.body = none
  /-- The answer does not depend on what the cache holds for the request. The listing of
  the administration does, which is about the cache. -/
  sameAnswer : (∀ dconf action, ¬ UnderAdminPath r dconf action) → ∀ w w', SameButEntry env r w w' →
    (run (cacherHandler env r) w).1 = (run (cacherHandler env r) w').1

/-- A request uses the cache with one directory configuration and one rule. -/
theorem MayUseCache.unique {dconf dconf' : CacherDirConf} {rule rule' : CacherRule}
    (h : MayUseCache env r dconf rule) (h' : MayUseCache env r dconf' rule') :
    dconf' = dconf ∧ rule' = rule := by
  have hconf := h'.conf_eq
  rw [h.conf_eq] at hconf
  cases hconf
  obtain ⟨rs, hrs, hfind⟩ := h.matched
  have hfind' := h'.find? ⟨dconf, h.conf_eq, hrs⟩
  rw [hfind] at hfind'
  cases hfind'
  exact ⟨rfl, rfl⟩

/-- A request that may use the cache is answered by it or captured. -/
theorem MayUseCache.cacherHandler_eq {dconf : CacherDirConf} {rule : CacherRule}
    (h : MayUseCache env r dconf rule) : cacherHandler env r = handleCacheable env r dconf rule := by
  have hdoes := cacherHandler_does env r
  generalize cacherHandler env r = p at hdoes
  cases hdoes with
  | admin _ hunder =>
      obtain ⟨hconf, haction⟩ := hunder
      rw [h.conf_eq] at hconf
      cases hconf
      rw [h.notAdmin] at haction
      cases haction
  | cache hmay =>
      obtain ⟨rfl, rfl⟩ := h.unique hmay
      rfl
  | decline hno _ _ => exact absurd h (hno _ _)

/-- The administration sends no brigade. -/
theorem body_handleAdmin (dconf : CacherDirConf) (action : CString) (w : World) :
    (run (handleAdmin env r dconf action) w).1.body = none := by
  unfold handleAdmin
  split
  · rfl
  · rw [run, Prog.exec_bind]
    rfl

/-- The handler sends a body exactly when the lookup hits. -/
theorem body_handleCacheable (dconf : CacherDirConf) (rule : CacherRule) (w : World) :
    (run (handleCacheable env r dconf rule) w).1.body = none
      ↔ (run (cacherCacheLookup env.md5 r r.cacheRoot rule) w).1.2 = none := by
  cases hlookup : (run (cacherCacheLookup env.md5 r r.cacheRoot rule) w).1 with
  | mk r' hit =>
      cases hit with
      | none =>
          rw [run_handleCacheable_miss dconf hlookup]
          exact iff_of_true rfl rfl
      | some hit =>
          rw [run_handleCacheable_hit dconf hlookup]
          refine iff_of_false ?_ (by simp)
          show some (hit.body.take hit.length) ≠ none
          simp

/-- Metadata that stay fresh. -/
def CacherEntryMeta.lasting : CacherEntryMeta :=
  ⟨0, Int64.maxValue, 200, lit "GET", lit "-", lit "/a"⟩

/-- A cache that holds a fresh entry at `paths`. -/
def World.serving (paths : EntryPaths) (body : Bytes) : World where
  fs := { files := [(paths.headerPath, toBytes (headerFileText CacherEntryMeta.lasting [])),
                    (paths.bodyPath, body)]
          dirs := [] }
  script := Script.steady 0
  log := []

theorem hit_serving {md5 : CString → Digest} {cacheRoot : Option CString} {rule : CacherRule}
    {paths : EntryPaths} (hpaths : cacheKeyPaths md5 r cacheRoot rule = some paths)
    (body : Bytes) :
    (run (cacherCacheLookup md5 r cacheRoot rule) (World.serving paths body)).1.2 ≠ none := by
  have hheader : (World.serving paths body).fs.read paths.headerPath
      = some (toBytes (headerFileText CacherEntryMeta.lasting [])) := by
    simp [World.serving, FileSystem.read]
  have hmeta : readMetaText (headerFileText CacherEntryMeta.lasting [])
      = some (CacherEntryMeta.lasting, []) :=
    (readMetaText_eq_iff isWord_get isWord_dash (by decide) []).mpr ⟨by decide, by decide⟩
  have hfresh : FreshEntry md5 r cacheRoot rule (World.serving paths body) paths
      CacherEntryMeta.lasting [] := by
    have hclock : ¬ Int64.maxValue ≤ 0 := by decide
    refine ⟨hpaths, ?_, hclock⟩
    rw [headerReads_iff_of_allOk (Script.allOk_steady 0) hheader, ofBytes_toBytes]
    exact hmeta
  have hopens : BodyOpens (World.serving paths body) paths.bodyPath body := by
    refine ⟨?_, rfl, rfl⟩
    have hne : (paths.bodyPath == paths.headerPath) = false :=
      beq_false_of_ne (paths.headerPath_ne_bodyPath paths).symm
    simp [World.serving, FileSystem.read, List.lookup_cons, hne]
  obtain ⟨-, hends⟩ := cacherCacheLookup_spec md5 r cacheRoot rule (World.serving paths body)
  generalize (run (cacherCacheLookup md5 r cacheRoot rule) (World.serving paths body)).1 = out at hends
  cases hends with
  | early hno => exact absurd hfresh (hno _ _ _)
  | late hfresh' hno =>
      obtain ⟨rfl, -, -⟩ := hfresh.unique hfresh'
      exact absurd hopens (hno _)
  | hit _ _ _ => exact Option.some_ne_none _

/-- Without a cache root the cache is not asked. -/
theorem handleCacheable_of_no_root (dconf : CacherDirConf) (rule : CacherRule)
    (hroot : r.cacheRoot = none) :
    handleCacheable env r dconf rule
      = pure (HandlerResult.decline (setStatus r dconf (lit "MISS"))) := by
  unfold handleCacheable
  rw [hroot]
  rfl

/-- A refused request is redirected to a request that may use a cache. -/
def LeaksRefused (env : Env) (r : RequestRec) : Prop :=
  RefusedRedirect r ∧ r.cacheRoot ≠ none ∧ ∃ dconf rule, MayUseCache env r dconf rule

/-- A request that may not use a cache gets no page out of it. -/
theorem keepsRefusal_of_not_mayUseCache
    (hno : r.cacheRoot ≠ none → ∀ dconf rule, ¬ MayUseCache env r dconf rule) :
    KeepsRefusal env r := by
  have hdoes := cacherHandler_does env r
  constructor
  · intro w
    generalize cacherHandler env r = p at hdoes
    cases hdoes with
    | admin _ _ => exact body_handleAdmin _ _ w
    | cache hmay =>
        by_cases hroot : r.cacheRoot = none
        · rw [handleCacheable_of_no_root _ _ hroot]
          rfl
        · exact absurd hmay (hno hroot _ _)
    | decline _ _ _ => rfl
  · intro hadmin w w' _
    generalize cacherHandler env r = p at hdoes
    cases hdoes with
    | admin _ hunder => exact absurd hunder (hadmin _ _)
    | cache hmay =>
        by_cases hroot : r.cacheRoot = none
        · rw [handleCacheable_of_no_root _ _ hroot]
          rfl
        · exact absurd hmay (hno hroot _ _)
    | decline _ _ _ => rfl

/-- A refused page stays out of reach, except exactly when the request that the refusal is
redirected to may use a cache. -/
theorem keepsRefusal_iff (env : Env) (r : RequestRec) :
    (RefusedRedirect r → KeepsRefusal env r) ↔ ¬ LeaksRefused env r := by
  constructor
  · intro hkeeps hleaks
    obtain ⟨hrefused, hroot, dconf, rule, hmay⟩ := hleaks
    obtain ⟨root, hroot⟩ := Option.ne_none_iff_exists'.mp hroot
    have hpaths : ∃ paths, cacheKeyPaths env.md5 r r.cacheRoot rule = some paths := by
      rw [hroot]
      exact ⟨_, rfl⟩
    obtain ⟨paths, hpaths⟩ := hpaths
    have hnone := (hkeeps hrefused).noPage (World.serving paths [])
    rw [hmay.cacherHandler_eq, body_handleCacheable] at hnone
    exact hit_serving hpaths [] hnone
  · intro hno hrefused
    refine keepsRefusal_of_not_mayUseCache fun hroot dconf rule hmay => ?_
    exact hno ⟨hrefused, hroot, dconf, rule, hmay⟩

/-- The request that follows when httpd refuses `GET /a` and `/401.html` is the error
document. -/
def RequestRec.unauthorized : RequestRec :=
  { RequestRec.get (lit "/401.html") none with
    prev := [⟨lit "/a", none, none, 401⟩]
    dirConf := some CacherDirConf.sample
    svrConf := some ⟨some (lit "/c")⟩ }

/-- The stored page of `/a` is the answer to it. -/
theorem not_keepsRefusal_unauthorized :
    ¬ (RefusedRedirect RequestRec.unauthorized →
        KeepsRefusal (Env.ofRules [CacherRule.ofTtl 60]) RequestRec.unauthorized) := by
  intro h
  have hnone := (h ⟨by decide, Or.inl rfl⟩).noPage (World.serving pathsOfGetA [1, 2, 3])
  have hpage : (run (cacherHandler (Env.ofRules [CacherRule.ofTtl 60]) RequestRec.unauthorized)
      (World.serving pathsOfGetA [1, 2, 3])).1.body = some [1, 2, 3] := by
    decide +kernel
  rw [hpage] at hnone
  cases hnone

end Cacher
