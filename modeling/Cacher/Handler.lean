import Cacher.Admin
import Cacher.Lookup

/-!
# `Cacher.Handler`: the content handler

`cacherHandler` is the handler that httpd runs first for every request. It turns away
subrequests, serves the admin endpoints, decides by the rules whether the request may use
the cache, and then answers from the cache or adds the capture filter and declines.

`cacherHandler_does` sums the handler up: it serves the administration (`UnderAdminPath`),
uses the cache (`MayUseCache`), or declines without a file call. Which of the three it is
depends on the request alone.
-/

set_option autoImplicit false

namespace Cacher

open CText Files

/-- What the handler takes from outside this model. -/
structure Env where
  /-- `apr_md5`. -/
  md5 : CString → Digest
  /-- `cacher_ruleset_parse` of an inline snippet. `none` when it does not parse. -/
  rulesetParse : CString → Option CacherRuleset
  /-- `get_ruleset_from_file` for the rules file that a directory configures. -/
  rulesetFromFile : CacherDirConf → Option CacherRuleset
  /-- How many levels of directories an admin request follows. -/
  walkDepth : Nat

/-- `cacher_config_get_ruleset`. -/
def cacherConfigGetRuleset (env : Env) (dconf : CacherDirConf) : Option CacherRuleset :=
  if dconf.rulesFile.isSome then env.rulesetFromFile dconf
  else dconf.rulesJson.bind env.rulesetParse

/-- How the handler leaves a request. -/
structure HandlerResult where
  status : HandlerStatus
  request : RequestRec
  /-- The bytes of the brigade passed to the output filters. -/
  body : Option Bytes
  /-- The text an admin request has sent. -/
  output : CString
  /-- The context of the capture filter added to the request. -/
  filter : Option CacherOutCtx

/-- Leaving the request to the next handler. -/
def HandlerResult.decline (r : RequestRec) : HandlerResult := ⟨.declined, r, none, [], none⟩

/-- `set_status`. -/
def setStatus (r : RequestRec) (dconf : CacherDirConf) (status : CString) : RequestRec :=
  if dconf.statusHeader ≠ some false then
    { r with headersOut := r.headersOut.setn (lit "X-Cacher") status }
  else r

/-- The test for the admin path: the uri is the path or continues it with a slash. The
result is `r->uri + admin_len`. -/
def adminAction (adminPath uri : CString) : Option CString :=
  match stripPrefix adminPath uri with
  | some [] => some []
  | some (c :: rest) => if c = chr '/' then some (c :: rest) else none
  | none => none

/-- `sconf ? sconf->cache_root : NULL`. -/
def RequestRec.cacheRoot (r : RequestRec) : Option CString := r.svrConf.bind (·.cacheRoot)

/-- What the handler does under the admin path. -/
def handleAdmin (env : Env) (r : RequestRec) (dconf : CacherDirConf) (action : CString) :
    FileProg HandlerResult := do
  if dconf.adminRequireUser ≠ some false ∧ r.user = none then
    pure { HandlerResult.decline r with status := .forbidden }
  else
    let answer ← cacherAdminHandle env.walkDepth r r.cacheRoot action
    pure
      { HandlerResult.decline r with
        status := answer.status
        request := { r with contentType := some (lit "text/plain; charset=utf-8") }
        output := answer.output }

/-- What the handler makes of a hit, on the request as the lookup left it. -/
def serveHit (r : RequestRec) (dconf : CacherDirConf) (hit : Hit) : HandlerResult :=
  let r := { r with
    status := hit.status
    headersOut := r.headersOut.setn (lit "Content-Length") (decimal hit.length) }
  let r := setStatus r dconf (lit "HIT")
  let r :=
    if 0 ≤ hit.age then
      { r with headersOut := r.headersOut.setn (lit "Age") (decimal hit.age.toInt) }
    else r
  { HandlerResult.decline r with status := .ok, body := some (hit.body.take hit.length) }

/-- What the handler does for a request that may use the cache. -/
def handleCacheable (env : Env) (r : RequestRec) (dconf : CacherDirConf) (rule : CacherRule) :
    FileProg HandlerResult := do
  let cacheRoot := r.cacheRoot
  match ← cacherCacheLookup env.md5 r cacheRoot rule with
  | (r, some hit) => pure (serveHit r dconf hit)
  | (r, none) =>
    -- A miss goes on with the request as the lookup has left it.
    let r := setStatus r dconf (lit "MISS")
    pure { HandlerResult.decline r with
      filter := cacherCacheInsertFilter env.md5 r cacheRoot rule }

/-- `cacher_handler`. -/
def cacherHandler (env : Env) (r : RequestRec) : FileProg HandlerResult :=
  let orig := cacherOriginalRequest r
  if r.main then pure (HandlerResult.decline r)
  else
    match r.dirConf with
    | none => pure (HandlerResult.decline r)
    | some dconf =>
      match dconf.adminPath.bind (adminAction · r.uri) with
      | some action => handleAdmin env r dconf action
      | none =>
        -- A rewrite has hidden that the client asked for the admin path.
        if !r.prev.isEmpty ∧ (dconf.adminPath.bind (adminAction · orig.uri)).isSome then
          pure (HandlerResult.decline r)
        else if dconf.enabled ≠ some true then pure (HandlerResult.decline r)
        else
          match cacherConfigGetRuleset env dconf with
          | none => pure (HandlerResult.decline r)
          | some rs =>
            -- Path and query are those of the client's request, the method is that of `r`.
            match cacherRulesetMatch rs (some orig.matchPath) orig.args (some r.method) with
            | none => pure (HandlerResult.decline (setStatus r dconf (lit "DYNAMIC")))
            | some rule =>
              if !rule.enabled then
                pure (HandlerResult.decline (setStatus r dconf (lit "EXCLUDED")))
              else if cacherRequestBypasses r rule then
                pure (HandlerResult.decline (setStatus r dconf (lit "BYPASS")))
              else handleCacheable env r dconf rule

/-! ### What the handler does with a request -/

/-- The request is for the admin path of its directory, and `action` is what follows it. -/
def UnderAdminPath (r : RequestRec) (dconf : CacherDirConf) (action : CString) : Prop :=
  r.dirConf = some dconf ∧ dconf.adminPath.bind (adminAction · r.uri) = some action

/-- The request's original path, query and method pass the match clause of `rule`. -/
def RequestRec.accepts (r : RequestRec) (rule : CacherRule) : Bool :=
  ruleAccepts rule (some (cacherOriginalRequest r).matchPath) (cacherOriginalRequest r).args
    (some r.method)

/-- The handler gets as far as `cacher_cache_lookup` for the request, with `rule`. -/
structure MayUseCache (env : Env) (r : RequestRec) (dconf : CacherDirConf)
    (rule : CacherRule) : Prop where
  notSub : r.main = false
  conf_eq : r.dirConf = some dconf
  notAdmin : dconf.adminPath.bind (adminAction · r.uri) = none
  /-- Nor has a redirect hidden that the client asked for the admin path. -/
  notHidden : r.prev = [] ∨
    dconf.adminPath.bind (adminAction · (cacherOriginalRequest r).uri) = none
  enabled : dconf.enabled = some true
  /-- `rule` is the first one that accepts the request. -/
  matched : ∃ rs, cacherConfigGetRuleset env dconf = some rs ∧ rs.rules.find? r.accepts = some rule
  rule_enabled : rule.enabled = true
  noBypass : cacherRequestBypasses r rule = false

/-- `r'` is `r` up to response headers named `X-Cacher`. -/
def StatusHeaderOnly (r r' : RequestRec) : Prop :=
  ∃ t : Table, r' = { r with headersOut := t }
    ∧ t.filter (!Table.named (lit "X-Cacher") ·)
      = r.headersOut.filter (!Table.named (lit "X-Cacher") ·)

theorem statusHeaderOnly_refl (r : RequestRec) : StatusHeaderOnly r r := ⟨r.headersOut, rfl, rfl⟩

theorem statusHeaderOnly_setStatus (r : RequestRec) (dconf : CacherDirConf) (status : CString) :
    StatusHeaderOnly r (setStatus r dconf status) := by
  unfold setStatus
  split
  · exact ⟨_, rfl, Table.filter_not_named_setn _ _ _⟩
  · exact statusHeaderOnly_refl r

/-- The three things the handler does. -/
inductive HandlerDoes (env : Env) (r : RequestRec) : FileProg HandlerResult → Prop where
  /-- It serves the administration. -/
  | admin {dconf : CacherDirConf} {action : CString} (hsub : r.main = false)
      (hadmin : UnderAdminPath r dconf action) :
      HandlerDoes env r (handleAdmin env r dconf action)
  /-- It uses the cache. -/
  | cache {dconf : CacherDirConf} {rule : CacherRule} (hmay : MayUseCache env r dconf rule) :
      HandlerDoes env r (handleCacheable env r dconf rule)
  /-- It declines, without a file call. -/
  | decline {r' : RequestRec} (hno : ∀ dconf rule, ¬ MayUseCache env r dconf rule)
      (hadmin : r.main = true ∨ ∀ dconf action, ¬ UnderAdminPath r dconf action)
      (hstatus : StatusHeaderOnly r r') :
      HandlerDoes env r (pure (HandlerResult.decline r'))

/-- The cases follow the tests of the handler, in their order. -/
theorem cacherHandler_does (env : Env) (r : RequestRec) :
    HandlerDoes env r (cacherHandler env r) := by
  simp only [cacherHandler]
  split
  · rename_i hsub
    refine .decline (fun dconf rule h => ?_) (Or.inl hsub) (statusHeaderOnly_refl r)
    have hno := h.notSub
    rw [hsub] at hno
    cases hno
  rename_i hsub
  have hsub : r.main = false := by simpa using hsub
  cases hconf : r.dirConf with
  | none =>
      refine .decline (fun dconf rule h => ?_) (Or.inr fun dconf action h => ?_)
        (statusHeaderOnly_refl r)
      · have hsome := h.conf_eq
        rw [hconf] at hsome
        cases hsome
      · have hsome := h.1
        rw [hconf] at hsome
        cases hsome
  | some dconf =>
      -- Any directory configuration that the request has is this one.
      have hsame : ∀ {dconf'}, r.dirConf = some dconf' → dconf' = dconf := by
        intro dconf' h
        rw [hconf] at h
        exact (Option.some.inj h).symm
      dsimp only
      cases haction : dconf.adminPath.bind (adminAction · r.uri) with
      | some action => exact .admin hsub ⟨hconf, haction⟩
      | none =>
          have hadmin : ∀ dconf' action, ¬ UnderAdminPath r dconf' action := by
            intro dconf' action h
            have hsome := h.2
            rw [hsame h.1, haction] at hsome
            cases hsome
          show HandlerDoes env r (if _ then _ else _)
          split
          · rename_i hhidden
            refine .decline (fun dconf' rule h => ?_) (Or.inr hadmin) (statusHeaderOnly_refl r)
            have hno := h.notHidden
            rw [hsame h.conf_eq] at hno
            rcases hno with hno | hno
            · simp [hno] at hhidden
            · simp [hno] at hhidden
          rename_i hhidden
          split
          · rename_i henabled
            refine .decline (fun dconf' rule h => ?_) (Or.inr hadmin) (statusHeaderOnly_refl r)
            have hon := h.enabled
            rw [hsame h.conf_eq] at hon
            exact henabled hon
          rename_i henabled
          cases hrs : cacherConfigGetRuleset env dconf with
          | none =>
              refine .decline (fun dconf' rule h => ?_) (Or.inr hadmin) (statusHeaderOnly_refl r)
              obtain ⟨rs, hsome, -⟩ := h.matched
              rw [hsame h.conf_eq, hrs] at hsome
              cases hsome
          | some rs =>
              dsimp only
              rw [cacherRulesetMatch_eq_find?]
              -- Any rule that the request matches is the one found here.
              have hfind : ∀ {dconf' rule}, MayUseCache env r dconf' rule →
                  rs.rules.find? r.accepts = some rule := by
                intro dconf' rule h
                obtain ⟨rs', hsome, hrule⟩ := h.matched
                rw [hsame h.conf_eq, hrs] at hsome
                cases hsome
                exact hrule
              change HandlerDoes env r (match rs.rules.find? r.accepts with
                | none => _
                | some rule => _)
              cases hmatch : rs.rules.find? r.accepts with
              | none =>
                  refine .decline (fun dconf' rule h => ?_) (Or.inr hadmin)
                    (statusHeaderOnly_setStatus _ _ _)
                  have hsome := hfind h
                  rw [hmatch] at hsome
                  cases hsome
              | some rule =>
                  have hrule : ∀ {dconf' rule'}, MayUseCache env r dconf' rule' → rule' = rule := by
                    intro dconf' rule' h
                    have hsome := hfind h
                    rw [hmatch] at hsome
                    exact (Option.some.inj hsome).symm
                  show HandlerDoes env r (if _ then _ else _)
                  split
                  · rename_i hoff
                    refine .decline (fun dconf' rule' h => ?_) (Or.inr hadmin)
                      (statusHeaderOnly_setStatus _ _ _)
                    have hon := h.rule_enabled
                    rw [hrule h] at hon
                    simp [hon] at hoff
                  rename_i hon
                  split
                  · rename_i hbypass
                    refine .decline (fun dconf' rule' h => ?_) (Or.inr hadmin)
                      (statusHeaderOnly_setStatus _ _ _)
                    have hno := h.noBypass
                    rw [hrule h, hbypass] at hno
                    cases hno
                  rename_i hbypass
                  -- Every test has let the request through.
                  refine .cache ⟨hsub, hconf, haction, ?_, by simpa using henabled,
                    ⟨rs, hrs, hmatch⟩, by simpa using hon, by simpa using hbypass⟩
                  by_cases hprev : r.prev = []
                  · exact Or.inl hprev
                  · refine Or.inr ?_
                    simpa [hprev] using hhidden

/-! ### What the handler does to the cache -/

/-- The lookup has hit. -/
theorem run_handleCacheable_hit {env : Env} {r r' : RequestRec} {rule : CacherRule} {w : World}
    {hit : Hit} (dconf : CacherDirConf)
    (h : (run (cacherCacheLookup env.md5 r r.cacheRoot rule) w).1 = (r', some hit)) :
    (run (handleCacheable env r dconf rule) w).1 = serveHit r' dconf hit := by
  unfold run at h
  unfold handleCacheable run
  rw [Prog.exec_bind, h]
  rfl

/-- The lookup has missed. -/
theorem run_handleCacheable_miss {env : Env} {r r' : RequestRec} {rule : CacherRule} {w : World}
    (dconf : CacherDirConf)
    (h : (run (cacherCacheLookup env.md5 r r.cacheRoot rule) w).1 = (r', none)) :
    (run (handleCacheable env r dconf rule) w).1
      = { HandlerResult.decline (setStatus r' dconf (lit "MISS")) with
          filter := cacherCacheInsertFilter env.md5 (setStatus r' dconf (lit "MISS"))
            r.cacheRoot rule } := by
  unfold run at h
  unfold handleCacheable run
  rw [Prog.exec_bind, h]
  rfl

/-- The request as a lookup and `set_status` leave it gets the filter that it would have got
before. -/
theorem filter_handleCacheable {env : Env} {r : RequestRec} {dconf : CacherDirConf}
    {rule : CacherRule} {w : World} {ctx : CacherOutCtx}
    (h : (run (handleCacheable env r dconf rule) w).1.filter = some ctx) :
    cacherCacheInsertFilter env.md5 r r.cacheRoot rule = some ctx := by
  -- A lookup changes only response fields.
  obtain ⟨-, hends⟩ := cacherCacheLookup_spec env.md5 r r.cacheRoot rule w
  have hout : ∃ t ctype, (run (cacherCacheLookup env.md5 r r.cacheRoot rule) w).1.1
      = { r with headersOut := t, contentType := ctype } := by
    generalize (run (cacherCacheLookup env.md5 r r.cacheRoot rule) w).1 = out at hends
    cases hends with
    | early _ => exact ⟨r.headersOut, r.contentType, rfl⟩
    | late _ _ => exact ⟨_, _, replayHeaders_eq r _⟩
    | hit _ _ _ => exact ⟨_, _, replayHeaders_eq r _⟩
  cases hlookup : (run (cacherCacheLookup env.md5 r r.cacheRoot rule) w).1 with
  | mk r' hit =>
      rw [hlookup] at hout
      obtain ⟨t, ctype, rfl⟩ := hout
      cases hit with
      | some hit =>
          rw [run_handleCacheable_hit dconf hlookup] at h
          cases h
      | none =>
          rw [run_handleCacheable_miss dconf hlookup] at h
          obtain ⟨t', ht', -⟩ := statusHeaderOnly_setStatus
            { r with headersOut := t, contentType := ctype } dconf (lit "MISS")
          rw [ht'] at h
          exact h

/-- The handler inserts a filter for requests that may use a cache, under a rule with a
lifetime. -/
theorem cacherHandler_filter {env : Env} {r : RequestRec} {w : World} {ctx : CacherOutCtx}
    (h : (run (cacherHandler env r) w).1.filter = some ctx) :
    ∃ dconf rule, MayUseCache env r dconf rule
      ∧ cacherCacheInsertFilter env.md5 r r.cacheRoot rule = some ctx := by
  have hdoes := cacherHandler_does env r
  generalize cacherHandler env r = p at hdoes h
  cases hdoes with
  | @admin dconf action _ _ =>
      unfold handleAdmin at h
      split at h
      · cases h
      · unfold run at h
        rw [Prog.exec_bind] at h
        cases h
  | cache hmay => exact ⟨_, _, hmay, filter_handleCacheable h⟩
  | decline _ _ _ => cases h

/-- The handler only reads and removes. -/
theorem onlyRemoves_cacherHandler (env : Env) (r : RequestRec) :
    OnlyRemoves (cacherHandler env r) := by
  have hdoes := cacherHandler_does env r
  generalize cacherHandler env r = p at hdoes
  cases hdoes with
  | @admin dconf action _ _ =>
      unfold handleAdmin
      split
      · exact Prog.uses_pure _ _
      · exact Prog.uses_bind (onlyRemoves_cacherAdminHandle _ r _ action) fun _ =>
          Prog.uses_pure _ _
  | cache _ =>
      refine Prog.uses_bind (uses_cacherCacheLookup (fun _ _ => ⟨trivial, trivial⟩) trivial
        (fun _ => trivial) fun _ _ => trivial) fun out => ?_
      obtain ⟨r', hit⟩ := out
      cases hit with
      | some hit => exact Prog.uses_pure _ _
      | none => exact Prog.uses_pure _ _
  | decline _ _ _ => exact Prog.uses_pure _ _

/-- The handler leaves every file as it was, or removes it. -/
theorem cacherHandler_removes (env : Env) (r : RequestRec) (w : World) (q : Path) :
    (run (cacherHandler env r) w).2.fs.read q = w.fs.read q
      ∨ (run (cacherHandler env r) w).2.fs.read q = none :=
  run_read_of_onlyRemoves (onlyRemoves_cacherHandler env r) w q

end Cacher
