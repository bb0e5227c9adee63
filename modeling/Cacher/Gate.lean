import Cacher.Config
import Cacher.Isolation

/-!
# `Cacher.Gate`: who may use the administration

The admin endpoints list and delete what the cache holds. `GateOpen` collects the conditions
under which the handler may serve them, in terms of the configuration levels of the
directory: the last admin path set, and the last `CacherAdminRequireUser` set.

A closed gate means that the handler reads no directory, removes no file and sends no text
(`cacherHandler_closed`). A request that a redirect has moved away from the admin path is
declined (`cacherHandler_hidden`).
-/

set_option autoImplicit false

namespace Cacher

open CText Files

/-- The calls that list or delete entries. -/
def Administers : FileOp → Prop
  | .remove _ | .stat _ | .dirRead _ => True
  | .timeNow | .openRead _ | .infoSize _ | .readFull _ _ | .mktemp _ | .writeFull _ _
  | .rename _ _ | .dirMakeRecursive _ => False

/-- The uri is the admin path, or continues it with a slash. -/
def UnderPath (adminPath uri : CString) : Prop :=
  uri = adminPath ∨ ∃ rest, uri = adminPath ++ chr '/' :: rest

/-- The prefix test of the handler passes exactly under the admin path. -/
theorem isSome_adminAction (adminPath uri : CString) :
    (adminAction adminPath uri).isSome ↔ UnderPath adminPath uri := by
  unfold adminAction UnderPath
  cases hstrip : stripPrefix adminPath uri with
  | none =>
      -- No rest makes the uri start with the path.
      have hno : ∀ rest, uri ≠ adminPath ++ rest := by
        intro rest heq
        rw [stripPrefix_eq_some.mpr heq] at hstrip
        cases hstrip
      constructor
      · intro h
        cases h
      · rintro (rfl | ⟨rest, rfl⟩)
        · exact absurd (List.append_nil _).symm (hno [])
        · exact absurd rfl (hno _)
  | some rest =>
      obtain rfl := stripPrefix_eq_some.mp hstrip
      cases rest with
      | nil => simp
      | cons c rest =>
          by_cases hc : c = chr '/'
          · simp [hc]
          · simp [hc]

/-- What the configuration levels and the request must say for the administration to be
served. -/
structure GateOpen (levels : List CacherDirConf) (r : RequestRec) : Prop where
  notSub : r.main = false
  /-- The handled request's own uri is under the last admin path set. -/
  under : ∃ adminPath, lastSet (·.adminPath) levels = some adminPath ∧ UnderPath adminPath r.uri
  /-- Somebody has been authenticated, or the last level to say so does without. -/
  user : r.user ≠ none ∨ lastSet (·.adminRequireUser) levels = some false

/-- The handler may list or delete entries, or answer as the administration does. -/
def MayAdminister (env : Env) (r : RequestRec) : Prop :=
  ¬ Prog.Uses (fun op => ¬ Administers op) (cacherHandler env r)
    ∨ ∃ w, (run (cacherHandler env r) w).1.output ≠ []

section Gate

variable {r : RequestRec} {top : CacherDirConf} {below : List CacherDirConf}

/-- The use of the cache is not administration. -/
theorem notAdministers_handleCacheable (env : Env) (r : RequestRec) (dconf : CacherDirConf)
    (rule : CacherRule) :
    Prog.Uses (fun op => ¬ Administers op) (handleCacheable env r dconf rule) := by
  refine Prog.uses_bind ((fetches_cacherCacheLookup env.md5 r r.cacheRoot rule).mono
    fun op hop => ?_) fun out => ?_
  · cases op with
    | timeNow | openRead _ | infoSize _ | readFull _ _ => exact id
    | mktemp _ | writeFull _ _ | rename _ _ | remove _ | stat _ | dirMakeRecursive _
    | dirRead _ => exact hop.elim
  · obtain ⟨r', hit⟩ := out
    cases hit with
    | some hit => exact Prog.uses_pure _ _
    | none => exact Prog.uses_pure _ _

theorem output_handleCacheable (env : Env) (r : RequestRec) (dconf : CacherDirConf)
    (rule : CacherRule) (w : World) :
    (run (handleCacheable env r dconf rule) w).1.output = [] := by
  cases hlookup : (run (cacherCacheLookup env.md5 r r.cacheRoot rule) w).1 with
  | mk r' hit =>
      cases hit with
      | some hit =>
          rw [run_handleCacheable_hit dconf hlookup]
          rfl
      | none =>
          rw [run_handleCacheable_miss dconf hlookup]
          rfl

/-- Behind a closed gate nothing is administered. -/
theorem cacherHandler_closed (env : Env) (hconf : r.dirConf = some (mergeLevels top below))
    (hclosed : ¬ GateOpen (top :: below) r) :
    Prog.Uses (fun op => ¬ Administers op) (cacherHandler env r)
      ∧ ∀ w, (run (cacherHandler env r) w).1.output = [] := by
  obtain ⟨-, hpath, huser, -⟩ := mergeLevels_eq top below
  have hdoes := cacherHandler_does env r
  generalize cacherHandler env r = p at hdoes
  cases hdoes with
  | @admin dconf action hsub hadmin =>
      obtain ⟨hdconf, haction⟩ := hadmin
      rw [hconf] at hdconf
      obtain rfl := Option.some.inj hdconf
      obtain ⟨adminPath, hset, hrest⟩ := Option.bind_eq_some_iff.mp haction
      -- The uri is right, so it must be the user that is missing.
      have hno : (mergeLevels top below).adminRequireUser ≠ some false ∧ r.user = none := by
        refine ⟨fun hoff => hclosed ⟨hsub, ⟨adminPath, ?_, ?_⟩, Or.inr ?_⟩, ?_⟩
        · rw [← hpath, hset]
        · rw [← isSome_adminAction, hrest]
          rfl
        · rw [← huser, hoff]
        · by_contra hsome
          refine hclosed ⟨hsub, ⟨adminPath, ?_, ?_⟩, Or.inl hsome⟩
          · rw [← hpath, hset]
          · rw [← isSome_adminAction, hrest]
            rfl
      unfold handleAdmin
      rw [if_pos hno]
      exact ⟨Prog.uses_pure _ _, fun _ => rfl⟩
  | cache hmay =>
      exact ⟨notAdministers_handleCacheable _ _ _ _, output_handleCacheable _ _ _ _⟩
  | decline _ _ _ => exact ⟨Prog.uses_pure _ _, fun _ => rfl⟩

/-- A request that has left the admin path in a redirect is declined. -/
theorem cacherHandler_hidden (env : Env) {adminPath : CString}
    (hconf : r.dirConf = some (mergeLevels top below))
    (hset : lastSet (·.adminPath) (top :: below) = some adminPath)
    (horig : UnderPath adminPath (cacherOriginalRequest r).uri)
    (hown : ¬ UnderPath adminPath r.uri) :
    cacherHandler env r = pure (HandlerResult.decline r) := by
  obtain ⟨-, hpath, -⟩ := mergeLevels_eq top below
  rw [← isSome_adminAction] at horig hown
  -- Without a redirect the two uris are the same one.
  have hprev : r.prev ≠ [] := by
    intro hnil
    apply hown
    rw [cacherOriginalRequest, hnil] at horig
    exact horig
  have hnone : adminAction adminPath r.uri = none := by simpa using hown
  have hredirected : (!r.prev.isEmpty) = true
      ∧ ((some adminPath).bind (adminAction · (cacherOriginalRequest r).uri)).isSome = true :=
    ⟨by simpa using hprev, horig⟩
  unfold cacherHandler
  rw [hconf]
  dsimp only
  rw [hpath, hset, Option.bind_some, hnone]
  dsimp only
  rw [if_pos hredirected]
  split <;> rfl

end Gate

/-- The administration is behind its gate: it is served only where the levels of the directory
and the request itself open it, and a request whose admin uri occurs only on the original of
its redirect chain is declined. -/
theorem cacherHandler_gated (env : Env) (r : RequestRec) (top : CacherDirConf)
    (below : List CacherDirConf) (hconf : r.dirConf = some (mergeLevels top below)) :
    (MayAdminister env r → GateOpen (top :: below) r)
      ∧ ∀ adminPath, lastSet (·.adminPath) (top :: below) = some adminPath →
        UnderPath adminPath (cacherOriginalRequest r).uri → ¬ UnderPath adminPath r.uri →
        cacherHandler env r = pure (HandlerResult.decline r) := by
  refine ⟨fun hmay => ?_, fun adminPath hset horig hown =>
    cacherHandler_hidden env hconf hset horig hown⟩
  by_contra hclosed
  obtain ⟨huses, houtput⟩ := cacherHandler_closed env hconf hclosed
  rcases hmay with hmay | ⟨w, hmay⟩
  · exact hmay huses
  · exact hmay (houtput w)

/-- A level that sets the admin path. -/
def CacherDirConf.adminTop : CacherDirConf :=
  { cacherCreateDirConfig none with adminPath := some (lit "/cacher") }

/-- Levels below it. The last one does without a user. -/
def CacherDirConf.adminBelow : List CacherDirConf :=
  [{ cacherCreateDirConfig (some (lit "/www/")) with adminRequireUser := some true },
    { cacherCreateDirConfig (some (lit "/www/a/")) with adminRequireUser := some false }]

/-- `/cacher/full-reset`, rewritten to the front controller. -/
def RequestRec.rewrittenReset : RequestRec :=
  { RequestRec.get (lit "/index.php") none with
    prev := [⟨lit "/cacher/full-reset", none, none, 200⟩]
    dirConf := some (mergeLevels CacherDirConf.adminTop CacherDirConf.adminBelow) }

theorem cacherHandler_gated_rewrittenReset :
    ¬ MayAdminister (Env.ofRules []) RequestRec.rewrittenReset
      ∧ cacherHandler (Env.ofRules []) RequestRec.rewrittenReset
        = pure (HandlerResult.decline RequestRec.rewrittenReset) := by
  obtain ⟨hgate, hhidden⟩ := cacherHandler_gated (Env.ofRules []) RequestRec.rewrittenReset
    CacherDirConf.adminTop CacherDirConf.adminBelow rfl
  have hset : lastSet (·.adminPath) (CacherDirConf.adminTop :: CacherDirConf.adminBelow)
      = some (lit "/cacher") := rfl
  have hown : ¬ UnderPath (lit "/cacher") RequestRec.rewrittenReset.uri := by
    rw [← isSome_adminAction]
    decide
  refine ⟨fun hmay => ?_, hhidden _ hset (Or.inr ⟨lit "full-reset", rfl⟩) hown⟩
  obtain ⟨adminPath, hset', hunder⟩ := (hgate hmay).under
  rw [hset] at hset'
  cases hset'
  exact hown hunder

end Cacher
