import Cacher.Isolation

/-!
# `Cacher.Provenance`: what the cache can hold

A `CacheState` is the file system together with every capture that the handler has begun. A
run is any sequence of handler calls, filter calls and removals of files, each with any
outcome of its file operations, and the rules may change from request to request. Between
the calls for one request other modules may change the fields of `Answer`.

`AllCacheable` is the invariant of every run: each header file was written by a capture of
a request that may be cached, and so was each body file. `FilterCall` says what one call
of the filter leaves behind, and `Capture.Grew` how a capture changes in it.
-/

set_option autoImplicit false

namespace Cacher

open CText Files

/-! ### One call of the filter -/

/-- The ways a file `b` at `q` can come from a capture with `rule` and `paths`, when `r` is
the request at the time of the call. -/
inductive Left (r : RequestRec) (rule : CacherRule) (paths : EntryPaths) (published : Bool)
    (q : Path) (b : Bytes) : Prop where
  | header (hpub : published = true) (hq : q = paths.headerPath) (created now : Int64)
      (hb : b = toBytes (headerFileText (entryMeta r rule created now) (dumpHeaders r.headersOut)))
  | body (hq : q = paths.bodyPath)
  | tmpBody (suffix : TempSuffix) (hq : q = paths.tmpBodyPath suffix)
  | tmpHeader (suffix : TempSuffix) (hq : q = paths.tmpHeaderPath suffix)

/-- The filter writes files only in a capture that is open, or that this call opens. -/
def Opens (r : RequestRec) (ctx : CacherOutCtx) : Prop :=
  ctx.tmpBody ≠ none ∨ ctx.started = false ∧ filterAccepts r ctx.rule = true

/-- What a call of the filter, or a part of one, does with a capture. -/
structure FilterCall (r : RequestRec) (ctx : CacherOutCtx) (w : World) (ctx' : CacherOutCtx)
    (w' : World) : Prop where
  rule_eq : ctx'.rule = ctx.rule
  paths_eq : ctx'.paths = ctx.paths
  started : ctx'.started = true
  published : ctx.published = true → ctx'.published = true
  opens : ctx'.tmpBody ≠ none → Opens r ctx
  files : ∀ q b, w'.fs.read q = some b →
    w.fs.read q = some b ∨ Opens r ctx ∧ Left r ctx.rule ctx.paths ctx'.published q b

section FilterCall

variable {r : RequestRec} {ctx ctx₁ ctx₂ : CacherOutCtx} {w w₁ w₂ : World}

theorem Left.mono {rule : CacherRule} {paths : EntryPaths} {published published' : Bool} {q : Path}
    {b : Bytes} (h : Left r rule paths published q b)
    (hpub : published = true → published' = true) : Left r rule paths published' q b := by
  cases h with
  | header h hq created now hb => exact .header (hpub h) hq created now hb
  | body hq => exact .body hq
  | tmpBody suffix hq => exact .tmpBody suffix hq
  | tmpHeader suffix hq => exact .tmpHeader suffix hq

theorem FilterCall.refl (hstarted : ctx.started = true) (hfiles : w₁.fs = w.fs) :
    FilterCall r ctx w ctx w₁ where
  rule_eq := rfl
  paths_eq := rfl
  started := hstarted
  published := id
  opens := Or.inl
  files q b h := Or.inl (by rw [← hfiles]; exact h)

theorem FilterCall.trans (h₁ : FilterCall r ctx w ctx₁ w₁) (h₂ : FilterCall r ctx₁ w₁ ctx₂ w₂) :
    FilterCall r ctx w ctx₂ w₂ := by
  -- The second part has started, so it is open only if the first part left it open.
  have hopens : Opens r ctx₁ → Opens r ctx := by
    intro h
    rcases h with h | ⟨h, -⟩
    · exact h₁.opens h
    · rw [h₁.started] at h
      cases h
  refine ⟨h₂.rule_eq.trans h₁.rule_eq, h₂.paths_eq.trans h₁.paths_eq, h₂.started,
    fun h => h₂.published (h₁.published h), fun h => hopens (h₂.opens h), fun q b h => ?_⟩
  rcases h₂.files q b h with h | ⟨hopen, hleft⟩
  · rcases h₁.files q b h with h | ⟨hopen, hleft⟩
    · exact Or.inl h
    · exact Or.inr ⟨hopen, hleft.mono h₂.published⟩
  · rw [h₁.rule_eq, h₁.paths_eq] at hleft
    exact Or.inr ⟨hopens hopen, hleft⟩

theorem startCapture_call (r : RequestRec) (ctx : CacherOutCtx) (w : World) :
    After (startCapture r ctx) w (FilterCall r ctx w) := by
  unfold startCapture
  split
  · rename_i hstarted
    exact Prog.after_pure.mpr (.refl hstarted rfl)
  rename_i hstarted
  have hstarted : ctx.started = false := by simpa using hstarted
  -- Nothing is opened, and no file changes.
  have hclosed : ∀ w₁ : World, w₁.fs.files = w.fs.files →
      FilterCall r ctx w { ctx with started := true, tmpBody := none } w₁ := by
    intro w₁ hfiles
    refine ⟨rfl, rfl, rfl, id, fun h => absurd rfl h, fun q b h => Or.inl ?_⟩
    unfold FileSystem.read at h ⊢
    rw [← hfiles]
    exact h
  split
  · rename_i haccepts
    refine Prog.after_bind.mpr (after_dirMakeRecursive (fun w₁ h₁ => ?_) (fun w₁ _ h₁ => ?_))
    · rw [if_pos rfl]
      refine Prog.after_bind.mpr (after_mktemp (fun suffix w₂ _ h₂ => ?_) (fun w₂ _ h₂ => ?_))
      · have hopens : Opens r ctx := Or.inr ⟨hstarted, haccepts⟩
        refine Prog.after_pure.mpr ⟨rfl, rfl, rfl, id, fun _ => hopens, fun q b h => ?_⟩
        rw [h₂.fs_eq, FileSystem.read_put, h₁.fs_eq] at h
        split at h
        · rename_i hq
          exact Or.inr ⟨hopens, .tmpBody suffix hq⟩
        · exact Or.inl h
      · exact Prog.after_pure.mpr (hclosed w₂ (by rw [h₂.fs_eq, h₁.fs_eq]; rfl))
    · rw [if_neg Bool.false_ne_true]
      exact Prog.after_pure.mpr (hclosed w₁ (by rw [h₁.fs_eq]))
  · exact Prog.after_pure.mpr (hclosed w rfl)

theorem captureData_call {suffix : TempSuffix} (hstarted : ctx.started = true)
    (hopen : ctx.tmpBody = some suffix) (content : Bytes) (failure : Option Nat) (w : World) :
    After (captureData ctx suffix content failure) w (FilterCall r ctx w) := by
  have hopens : Opens r ctx := Or.inl (by rw [hopen]; exact Option.some_ne_none _)
  -- A call that may change the temporary file and nothing else.
  have htemp : ∀ (w₁ : World) (ctx₁ : CacherOutCtx), ctx₁.rule = ctx.rule → ctx₁.paths = ctx.paths →
      ctx₁.started = true → (ctx.published = true → ctx₁.published = true) →
      (∀ q, q ≠ ctx.paths.tmpBodyPath suffix → w₁.fs.read q = w.fs.read q) →
      FilterCall r ctx w ctx₁ w₁ := by
    intro w₁ ctx₁ hrule hpaths hstarted₁ hpub hother
    refine ⟨hrule, hpaths, hstarted₁, hpub, fun _ => hopens, fun q b h => ?_⟩
    by_cases hq : q = ctx.paths.tmpBodyPath suffix
    · exact Or.inr ⟨hopens, .tmpBody suffix hq⟩
    · rw [hother q hq] at h
      exact Or.inl h
  -- What follows a write that left the other files alone.
  have hend : ∀ (stored : Bool) (w₁ : World),
      (∀ q, q ≠ ctx.paths.tmpBodyPath suffix → w₁.fs.read q = w.fs.read q) →
      After (if stored then pure { ctx with bodyLen := ctx.bodyLen + failure.getD content.length }
        else if 0 < failure.getD content.length then do
          let _ ← remove (ctx.paths.tmpBodyPath suffix)
          pure { ctx with tmpBody := none }
        else pure ctx : FileProg CacherOutCtx) w₁ (FilterCall r ctx w) := by
    intro stored w₁ hother
    split
    · exact Prog.after_pure.mpr (htemp w₁ _ rfl rfl hstarted id hother)
    split
    · refine Prog.after_bind.mpr (after_remove fun ok fs w₂ hrem h₂ => Prog.after_pure.mpr ?_)
      refine htemp w₂ _ rfl rfl hstarted id fun q hq => ?_
      rw [h₂.fs_eq, hrem.other q hq, hother q hq]
    · exact Prog.after_pure.mpr (htemp w₁ _ rfl rfl hstarted id hother)
  have happend : ∀ (data : Bytes) (q : Path), q ≠ ctx.paths.tmpBodyPath suffix →
      (w.fs.append (ctx.paths.tmpBodyPath suffix) data).read q = w.fs.read q := by
    intro data q hq
    rw [FileSystem.read_append, if_neg hq]
  show After (if failure = none ∧ 0 < failure.getD content.length then _ else _) w _
  split
  · refine Prog.after_bind.mpr (after_writeFull (fun w₁ h₁ => hend true w₁ fun q hq => ?_)
      (fun part w₁ _ h₁ => hend false w₁ fun q hq => ?_))
    · rw [h₁.fs_eq, happend _ q hq]
    · rw [h₁.fs_eq, happend _ q hq]
  · exact Prog.after_bind.mpr (Prog.after_pure.mpr (hend false w fun q _ => rfl))

theorem captureBucket_call (r : RequestRec) (hstarted : ctx.started = true) (e : Bucket)
    (w : World) : After (captureBucket r ctx e) w (FilterCall r ctx w) := by
  unfold captureBucket
  cases hopen : ctx.tmpBody with
  | none => exact Prog.after_pure.mpr (.refl hstarted rfl)
  | some suffix =>
      have hopens : Opens r ctx := Or.inl (by rw [hopen]; exact Option.some_ne_none _)
      cases e with
      | metadata => exact Prog.after_pure.mpr (.refl hstarted rfl)
      | data content failure => exact captureData_call hstarted hopen content failure w
      | eos =>
          -- The end of a capture writes under the four names of its entry only.
          refine Prog.after_bind.mpr ((finalizeCacheEntry_spec r ctx suffix w).mono
            fun published w₁ h => Prog.after_pure.mpr ?_)
          refine ⟨rfl, rfl, hstarted, fun hpub => by simp [hpub], fun _ => hopens, fun q b hread => ?_⟩
          by_cases hbody : q = ctx.paths.bodyPath
          · exact Or.inr ⟨hopens, .body hbody⟩
          by_cases htmp : q = ctx.paths.tmpBodyPath suffix
          · exact Or.inr ⟨hopens, .tmpBody suffix htmp⟩
          cases published with
          | true =>
              rw [if_pos rfl] at h
              by_cases hheader : q = ctx.paths.headerPath
              · rw [hheader, h.header] at hread
                cases hread
                exact Or.inr ⟨hopens, .header (by simp) hheader _ _ rfl⟩
              · rw [h.other q hheader hbody htmp] at hread
                exact Or.inl hread
          | false =>
              rw [if_neg Bool.false_ne_true] at h
              by_cases htmpHeader : ∃ s, q = ctx.paths.tmpHeaderPath s
              · obtain ⟨s, hs⟩ := htmpHeader
                exact Or.inr ⟨hopens, .tmpHeader s hs⟩
              · rw [h.kept.other q hbody htmp fun s hs => htmpHeader ⟨s, hs⟩] at hread
                exact Or.inl hread

/-- Every call of the filter is a `FilterCall`. -/
theorem cacherOutputFilter_call (r : RequestRec) (ctx : CacherOutCtx) (bb : List Bucket)
    (w : World) : After (cacherOutputFilter r ctx bb) w (FilterCall r ctx w) := by
  unfold cacherOutputFilter
  refine Prog.after_bind.mpr ((startCapture_call r ctx w).mono fun ctx₁ w₁ h₁ => ?_)
  refine Prog.after_foldlM (I := fun _ => FilterCall r ctx w) h₁ fun _ e ctx₂ w₂ h₂ _ => ?_
  exact (captureBucket_call r h₂.started e w₂).mono fun ctx₃ w₃ h₃ => h₂.trans h₃

end FilterCall

/-! ### Runs -/

/-- What other modules may change in a request while it is answered. -/
structure Answer where
  status : Int32
  headersOut : Table
  contentType : Option CString
  aborted : Bool

/-- The request with another answer under way. -/
def RequestRec.withAnswer (r : RequestRec) (a : Answer) : RequestRec :=
  { r with
    status := a.status
    headersOut := a.headersOut
    contentType := a.contentType
    aborted := a.aborted }

/-- A capture that the handler has begun. -/
structure Capture where
  /-- The rules in force when the handler ran. -/
  env : Env
  request : RequestRec
  /-- The request at the first call of the filter. -/
  first : Option RequestRec
  ctx : CacherOutCtx

/-- The files, and every capture so far. -/
structure CacheState where
  world : World
  captures : List Capture

/-- One thing that can happen to the cache. -/
inductive Event where
  /-- `cacher_handler` runs. HTTP purges are among its calls. -/
  | request (env : Env) (r : RequestRec)
  /-- A brigade reaches the filter of a capture. -/
  | brigade (i : Nat) (a : Answer) (bb : List Bucket)
  /-- Files are removed, as a purge of the command line tool does. -/
  | purge (paths : List Path)

/-- The capture and the files after a call of its filter. -/
def Capture.brigade (c : Capture) (a : Answer) (bb : List Bucket) (w : World) : Capture × World :=
  let r := c.request.withAnswer a
  let result := run (cacherOutputFilter r c.ctx bb) w
  ({ c with first := if c.ctx.started then c.first else some r, ctx := result.1 }, result.2)

/-- The state after an event. -/
def CacheState.step (s : CacheState) : Event → CacheState
  | .request env r =>
    let result := run (cacherHandler env r) s.world
    -- The filter that the handler adds begins a capture.
    { world := result.2
      captures := s.captures ++ (result.1.filter.map fun ctx => ⟨env, r, none, ctx⟩).toList }
  | .brigade i a bb =>
    match s.captures[i]? with
    | none => s
    | some c =>
      let result := c.brigade a bb s.world
      { world := result.2, captures := s.captures.set i result.1 }
  | .purge paths =>
    { s with world := { s.world with fs := paths.foldl FileSystem.erase s.world.fs } }

/-- The state after a run. -/
def CacheState.run (s : CacheState) (events : List Event) : CacheState := events.foldl step s

/-! ### Where the files come from -/

/-- The request of a capture, and the first answer that its filter saw, may be cached. -/
structure CapturedFor (c : Capture) (first : RequestRec) : Prop where
  first_eq : c.first = some first
  answers : ∃ a, first = c.request.withAnswer a
  notSub : c.request.main = false
  notHead : c.request.headerOnly = false
  /-- Caching is on, and the rule is the first one to accept the request. -/
  enabled : ∃ dconf rs, c.request.dirConf = some dconf ∧ dconf.enabled = some true
    ∧ cacherConfigGetRuleset c.env dconf = some rs ∧ FirstMatch c.request rs c.ctx.rule
  hasRoot : c.request.cacheRoot ≠ none
  paths_eq : cacheKeyPaths c.env.md5 c.request c.request.cacheRoot c.ctx.rule = some c.ctx.paths
  rule_enabled : c.ctx.rule.enabled = true
  ttl_pos : 0 < c.ctx.rule.ttlSeconds
  noBypass : ∀ cookie ∈ forEachCookie c.request,
    cacherRuleBypassesCookie c.ctx.rule cookie.1 = false
  noAuthorization : c.request.headersIn.get (lit "Authorization") = none
  status_mem : ∃ codes, c.ctx.rule.statusCodes = some codes ∧ first.status ∈ codes
  typeAllowed : cacherRuleAllowsContentType c.ctx.rule (filterContentType first) = true

/-- The header file `b` was written by a capture that has published its entry. -/
structure HeaderFrom (c : Capture) (q : Path) (b : Bytes) : Prop where
  captured : ∃ first, CapturedFor c first
  published : c.ctx.published = true
  path_eq : c.ctx.paths.headerPath = q
  text_eq : ∃ a created now, b = toBytes (headerFileText
    (entryMeta (c.request.withAnswer a) c.ctx.rule created now) (dumpHeaders a.headersOut))

/-- A body file was written by a capture. -/
structure BodyFrom (c : Capture) (q : Path) : Prop where
  captured : ∃ first, CapturedFor c first
  path_eq : c.ctx.paths.bodyPath = q

/-- Every entry was captured for a request and a response that may be cached. -/
structure AllCacheable (s : CacheState) : Prop where
  headers : ∀ (e : EntryPaths) b, s.world.fs.read e.headerPath = some b →
    ∃ c ∈ s.captures, HeaderFrom c e.headerPath b
  bodies : ∀ (e : EntryPaths) b, s.world.fs.read e.bodyPath = some b →
    ∃ c ∈ s.captures, BodyFrom c e.bodyPath

/-- What holds of every capture: it belongs to a request that the handler let through, and
its temporary file is open only when its first answer was accepted. -/
structure Capture.Sound (c : Capture) : Prop where
  may : ∃ dconf, MayUseCache c.env c.request dconf c.ctx.rule
  hasRoot : c.request.cacheRoot ≠ none
  notHead : c.request.headerOnly = false
  ttl_pos : 0 < c.ctx.rule.ttlSeconds
  paths_eq : cacheKeyPaths c.env.md5 c.request c.request.cacheRoot c.ctx.rule = some c.ctx.paths
  first_eq : c.ctx.started = true → ∃ a, c.first = some (c.request.withAnswer a)
  closed : c.ctx.started = false → c.ctx.tmpBody = none ∧ c.first = none
  accepted : c.ctx.tmpBody ≠ none →
    ∃ first, c.first = some first ∧ filterAccepts first c.ctx.rule = true

/-- A capture after some more calls of its filter. -/
structure Capture.Grew (c c' : Capture) : Prop where
  env_eq : c'.env = c.env
  request_eq : c'.request = c.request
  rule_eq : c'.ctx.rule = c.ctx.rule
  paths_eq : c'.ctx.paths = c.ctx.paths
  first_eq : ∀ first, c.first = some first → c'.first = some first
  published : c.ctx.published = true → c'.ctx.published = true

section Provenance

variable {c c' : Capture} {q : Path} {b : Bytes} {s : CacheState}

theorem CapturedFor.grew {first : RequestRec} (h : CapturedFor c first) (hgrew : c.Grew c') :
    CapturedFor c' first where
  first_eq := hgrew.first_eq first h.first_eq
  answers := by rw [hgrew.request_eq]; exact h.answers
  notSub := by rw [hgrew.request_eq]; exact h.notSub
  notHead := by rw [hgrew.request_eq]; exact h.notHead
  enabled := by rw [hgrew.request_eq, hgrew.env_eq, hgrew.rule_eq]; exact h.enabled
  hasRoot := by rw [hgrew.request_eq]; exact h.hasRoot
  paths_eq := by rw [hgrew.request_eq, hgrew.env_eq, hgrew.rule_eq, hgrew.paths_eq]; exact h.paths_eq
  rule_enabled := by rw [hgrew.rule_eq]; exact h.rule_enabled
  ttl_pos := by rw [hgrew.rule_eq]; exact h.ttl_pos
  noBypass := by rw [hgrew.request_eq, hgrew.rule_eq]; exact h.noBypass
  noAuthorization := by rw [hgrew.request_eq]; exact h.noAuthorization
  status_mem := by rw [hgrew.rule_eq]; exact h.status_mem
  typeAllowed := by rw [hgrew.rule_eq]; exact h.typeAllowed

theorem HeaderFrom.grew (h : HeaderFrom c q b) (hgrew : c.Grew c') : HeaderFrom c' q b := by
  obtain ⟨first, hcaptured⟩ := h.captured
  refine ⟨⟨first, hcaptured.grew hgrew⟩, hgrew.published h.published, ?_, ?_⟩
  · rw [hgrew.paths_eq]
    exact h.path_eq
  · rw [hgrew.request_eq, hgrew.rule_eq]
    exact h.text_eq

theorem BodyFrom.grew (h : BodyFrom c q) (hgrew : c.Grew c') : BodyFrom c' q := by
  obtain ⟨first, hcaptured⟩ := h.captured
  refine ⟨⟨first, hcaptured.grew hgrew⟩, ?_⟩
  rw [hgrew.paths_eq]
  exact h.path_eq

/-- A status that the rule allows is one of its codes. -/
theorem mem_of_statusLoop {status : Int32} {codes : List Int32} (h : statusLoop status codes = true) :
    status ∈ codes := by
  induction codes with
  | nil => cases h
  | cons code codes ih =>
      rw [statusLoop] at h
      split at h
      · cases h
      split at h
      · rename_i heq
        rw [heq]
        exact List.mem_cons_self
      · exact List.mem_cons_of_mem _ (ih h)

/-- A sound capture whose first answer was accepted is one that may be cached. -/
theorem Capture.Sound.capturedFor (h : c.Sound) {a : Answer}
    (hfirst : c.first = some (c.request.withAnswer a))
    (haccepts : filterAccepts (c.request.withAnswer a) c.ctx.rule = true) :
    CapturedFor c (c.request.withAnswer a) := by
  obtain ⟨dconf, hmay⟩ := h.may
  obtain ⟨rs, hrs, hfind⟩ := hmay.matched
  simp only [filterAccepts, Bool.and_eq_true] at haccepts
  obtain ⟨⟨⟨hstatus, htype⟩, -⟩, hauth⟩ := haccepts
  have hauth : c.request.headersIn.get (lit "Authorization") = none :=
    Option.isNone_iff_eq_none.mp hauth
  have hmatch : FirstMatch c.request rs c.ctx.rule := by
    obtain ⟨haccepts, before, after, hrules, hbefore⟩ := List.find?_eq_some_iff_append.mp hfind
    exact ⟨⟨before, after, hrules, fun e he => by simpa using hbefore e he⟩, haccepts⟩
  have hcookies : ∀ cookie ∈ forEachCookie c.request,
      cacherRuleBypassesCookie c.ctx.rule cookie.1 = false := by
    intro cookie hmem
    by_contra hbypass
    have hyes := (cacherRequestBypasses_eq_true c.request c.ctx.rule).mpr
      ⟨cookie, hmem, by simpa using hbypass⟩
    rw [hmay.noBypass] at hyes
    cases hyes
  refine ⟨hfirst, ⟨a, rfl⟩, hmay.notSub, h.notHead,
    ⟨dconf, rs, hmay.conf_eq, hmay.enabled, hrs, hmatch⟩,
    h.hasRoot, h.paths_eq, hmay.rule_enabled, h.ttl_pos, hcookies, hauth, ?_, htype⟩
  unfold cacherRuleAllowsStatus at hstatus
  split at hstatus
  · cases hstatus
  · exact ⟨_, by assumption, mem_of_statusLoop hstatus⟩

/-- The first answer of a capture, after a call of its filter. -/
theorem Capture.first_brigade (c : Capture) (a : Answer) (bb : List Bucket) (w : World) :
    (c.brigade a bb w).1.first
      = if c.ctx.started then c.first else some (c.request.withAnswer a) := rfl

/-- A call of the filter keeps a capture sound, and writes only files of a capture whose
first answer was accepted. -/
theorem Capture.Sound.brigade (h : c.Sound) (a : Answer) (bb : List Bucket) (w : World) :
    (c.brigade a bb w).1.Sound ∧ c.Grew (c.brigade a bb w).1
      ∧ ∀ q b, (c.brigade a bb w).2.fs.read q = some b →
        w.fs.read q = some b ∨ (∃ first, CapturedFor (c.brigade a bb w).1 first)
          ∧ Left (c.request.withAnswer a) c.ctx.rule c.ctx.paths (c.brigade a bb w).1.ctx.published
            q b := by
  have hcall : FilterCall (c.request.withAnswer a) c.ctx w (c.brigade a bb w).1.ctx
      (c.brigade a bb w).2 := cacherOutputFilter_call (c.request.withAnswer a) c.ctx bb w
  have hfirst : ∃ a', (c.brigade a bb w).1.first = some (c.request.withAnswer a')
      ∧ (c.ctx.started = false → a' = a) := by
    rw [Capture.first_brigade]
    cases hstarted : c.ctx.started with
    | true =>
        obtain ⟨a', ha'⟩ := h.first_eq hstarted
        exact ⟨a', ha', fun hno => by cases hno⟩
    | false => exact ⟨a, rfl, fun _ => rfl⟩
  obtain ⟨a', ha', hsame⟩ := hfirst
  -- An open capture has accepted its first answer.
  have haccepted : Opens (c.request.withAnswer a) c.ctx →
      filterAccepts (c.request.withAnswer a') c.ctx.rule = true := by
    intro hopens
    cases hstarted : c.ctx.started with
    | false =>
        rw [hsame hstarted]
        rcases hopens with hopen | ⟨-, haccepts⟩
        · exact absurd (h.closed hstarted).1 hopen
        · exact haccepts
    | true =>
        rcases hopens with hopen | ⟨hno, -⟩
        · obtain ⟨first, hfirst, haccepts⟩ := h.accepted hopen
          rw [Capture.first_brigade, hstarted, if_pos rfl, hfirst] at ha'
          rw [← Option.some.inj ha']
          exact haccepts
        · rw [hstarted] at hno
          cases hno
  have hsound : (c.brigade a bb w).1.Sound := by
    refine ⟨?_, h.hasRoot, h.notHead, ?_, ?_, fun _ => ⟨a', ha'⟩, fun hno => ?_, fun hopen => ?_⟩
    · rw [hcall.rule_eq]
      exact h.may
    · rw [hcall.rule_eq]
      exact h.ttl_pos
    · rw [hcall.rule_eq, hcall.paths_eq]
      exact h.paths_eq
    · rw [hcall.started] at hno
      cases hno
    · rw [hcall.rule_eq]
      exact ⟨_, ha', haccepted (hcall.opens hopen)⟩
  have hgrew : c.Grew (c.brigade a bb w).1 := by
    refine ⟨rfl, rfl, hcall.rule_eq, hcall.paths_eq, fun first hsome => ?_, hcall.published⟩
    rw [Capture.first_brigade]
    split
    · exact hsome
    · rename_i hstarted
      rw [(h.closed (by simpa using hstarted)).2] at hsome
      cases hsome
  refine ⟨hsound, hgrew, fun q b hread => ?_⟩
  rcases hcall.files q b hread with hold | ⟨hopens, hleft⟩
  · exact Or.inl hold
  · refine Or.inr ⟨⟨_, hsound.capturedFor ha' ?_⟩, hleft⟩
    rw [hcall.rule_eq]
    exact haccepted hopens

/-- What holds in every state of a run. -/
structure CacheState.Inv (s : CacheState) : Prop where
  sound : ∀ c ∈ s.captures, c.Sound
  cacheable : AllCacheable s

/-- A capture that the handler begins is sound. -/
theorem sound_of_filter {env : Env} {r : RequestRec} {w : World} {ctx : CacherOutCtx}
    (h : (run (cacherHandler env r) w).1.filter = some ctx) : Capture.Sound ⟨env, r, none, ctx⟩ := by
  obtain ⟨dconf, rule, hmay, hinsert⟩ := cacherHandler_filter h
  unfold cacherCacheInsertFilter at hinsert
  split at hinsert
  · cases hinsert
  rename_i hroot
  rw [not_or] at hroot
  split at hinsert
  · cases hinsert
  rename_i hhead
  obtain ⟨paths, hpaths, rfl⟩ := Option.map_eq_some_iff.mp hinsert
  refine ⟨⟨dconf, hmay⟩, hroot.1, by simpa using hhead, Int64.not_le.mp hroot.2, hpaths,
    fun hno => ?_, fun _ => ⟨rfl, rfl⟩, fun hno => absurd rfl hno⟩
  cases hno

/-- Where no file appears, entries still come from where they came from. -/
theorem AllCacheable.of_removed (h : AllCacheable s) {s' : CacheState}
    (hcaptures : ∀ c ∈ s.captures, c ∈ s'.captures)
    (hfiles : ∀ q b, s'.world.fs.read q = some b → s.world.fs.read q = some b) :
    AllCacheable s' := by
  refine ⟨fun e b hread => ?_, fun e b hread => ?_⟩
  · obtain ⟨c, hc, hfrom⟩ := h.headers e b (hfiles _ b hread)
    exact ⟨c, hcaptures c hc, hfrom⟩
  · obtain ⟨c, hc, hfrom⟩ := h.bodies e b (hfiles _ b hread)
    exact ⟨c, hcaptures c hc, hfrom⟩

/-- A call of the filter keeps the invariant. -/
theorem CacheState.Inv.brigade (h : s.Inv) {i : Nat} (hc : s.captures[i]? = some c) (a : Answer)
    (bb : List Bucket) :
    CacheState.Inv { world := (c.brigade a bb s.world).2
                     captures := s.captures.set i (c.brigade a bb s.world).1 } := by
  obtain ⟨hsound, hgrew, hfiles⟩ := (h.sound c (List.mem_of_getElem? hc)).brigade a bb s.world
  generalize c.brigade a bb s.world = result at hsound hgrew hfiles
  obtain ⟨c', w'⟩ := result
  have hmem : c' ∈ s.captures.set i c' :=
    List.mem_set (List.getElem?_eq_some_iff.mp hc).1 c'
  -- Every capture is still there, though `c` may have grown.
  have hkept : ∀ d ∈ s.captures, ∃ d' ∈ s.captures.set i c', d.Grew d' := by
    intro d hd
    obtain ⟨j, hj⟩ := List.getElem?_of_mem hd
    by_cases hij : i = j
    · subst hij
      rw [hc] at hj
      cases hj
      exact ⟨c', hmem, hgrew⟩
    · refine ⟨d, List.mem_of_getElem? (i := j) ?_, ⟨rfl, rfl, rfl, rfl, fun _ => id, id⟩⟩
      rw [List.getElem?_set_ne hij]
      exact hj
  refine ⟨fun d hd => ?_, fun e b hread => ?_, fun e b hread => ?_⟩
  · rcases List.mem_or_eq_of_mem_set hd with hd | rfl
    · exact h.sound d hd
    · exact hsound
  · rcases hfiles _ b hread with hold | ⟨hcaptured, hleft⟩
    · obtain ⟨d, hd, hfrom⟩ := h.cacheable.headers e b hold
      obtain ⟨d', hd', hgrew'⟩ := hkept d hd
      exact ⟨d', hd', hfrom.grew hgrew'⟩
    · cases hleft with
      | header hpub hq created now hb =>
          refine ⟨c', hmem, hcaptured, hpub, by rw [hgrew.paths_eq, hq], a, created, now, ?_⟩
          rw [hgrew.request_eq, hgrew.rule_eq, hb]
          rfl
      | body hq => exact absurd hq (e.headerPath_ne_bodyPath _)
      | tmpBody suffix hq => exact absurd hq.symm (EntryPaths.tmpBodyPath_ne_headerPath _ e _)
      | tmpHeader suffix hq => exact absurd hq.symm (EntryPaths.tmpHeaderPath_ne_headerPath _ e _)
  · rcases hfiles _ b hread with hold | ⟨hcaptured, hleft⟩
    · obtain ⟨d, hd, hfrom⟩ := h.cacheable.bodies e b hold
      obtain ⟨d', hd', hgrew'⟩ := hkept d hd
      exact ⟨d', hd', hfrom.grew hgrew'⟩
    · cases hleft with
      | header _ hq _ _ _ => exact absurd hq.symm (EntryPaths.headerPath_ne_bodyPath _ e)
      | body hq => exact ⟨c', hmem, hcaptured, by rw [hgrew.paths_eq, hq]⟩
      | tmpBody suffix hq => exact absurd hq.symm (EntryPaths.tmpBodyPath_ne_bodyPath _ e _)
      | tmpHeader suffix hq => exact absurd hq.symm (EntryPaths.tmpHeaderPath_ne_bodyPath _ e _)

/-- Removing files makes none appear. -/
theorem read_foldl_erase {fs : FileSystem} {paths : List Path}
    (h : (paths.foldl FileSystem.erase fs).read q = some b) : fs.read q = some b := by
  induction paths generalizing fs with
  | nil => exact h
  | cons p paths ih =>
      have hread := ih h
      rw [FileSystem.read_erase] at hread
      split at hread
      · cases hread
      · exact hread

theorem CacheState.Inv.step (h : s.Inv) (event : Event) : (s.step event).Inv := by
  cases event with
  | request env r =>
      refine ⟨fun c hc => ?_, h.cacheable.of_removed (fun c hc => List.mem_append_left _ hc)
        fun q b hread => ?_⟩
      · rcases List.mem_append.mp hc with hc | hc
        · exact h.sound c hc
        · obtain ⟨ctx, hctx, rfl⟩ := Option.map_eq_some_iff.mp (Option.mem_toList.mp hc)
          exact sound_of_filter hctx
      · rcases cacherHandler_removes env r s.world q with hsame | hgone
        · rw [← hsame]
          exact hread
        · change (Files.run (cacherHandler env r) s.world).2.fs.read q = some b at hread
          rw [hgone] at hread
          cases hread
  | brigade i a bb =>
      cases hc : s.captures[i]? with
      | none =>
          have hstep : s.step (.brigade i a bb) = s := by simp only [CacheState.step, hc]
          rw [hstep]
          exact h
      | some c =>
          have hinv := h.brigade hc a bb
          simp only [CacheState.step, hc]
          exact hinv
  | purge paths =>
      exact ⟨h.sound, h.cacheable.of_removed (fun _ hc => hc) fun q b hread => read_foldl_erase hread⟩

/-- The cache holds no entry, and nothing is being captured. -/
structure CacheState.Cold (s : CacheState) : Prop where
  noHeader : ∀ e : EntryPaths, s.world.fs.read e.headerPath = none
  noBody : ∀ e : EntryPaths, s.world.fs.read e.bodyPath = none
  noCapture : s.captures = []

theorem CacheState.Inv.run (h : s.Inv) (events : List Event) : (s.run events).Inv := by
  induction events generalizing s with
  | nil => exact h
  | cons event events ih => exact ih (h.step event)

/-- The invariant holds of a cold cache. -/
theorem CacheState.Cold.inv (hcold : s.Cold) : s.Inv := by
  refine ⟨fun c hc => ?_, fun e b hread => ?_, fun e b hread => ?_⟩
  · rw [hcold.noCapture] at hc
    cases hc
  · rw [hcold.noHeader] at hread
    cases hread
  · rw [hcold.noBody] at hread
    cases hread

/-- The cache before the first request. -/
def CacheState.cold : CacheState := ⟨World.cold, []⟩

/-- `GET /a` in a directory with caching on. -/
def RequestRec.cacheable : RequestRec :=
  { RequestRec.get (lit "/a") none with
    dirConf := some CacherDirConf.sample
    svrConf := some ⟨some (lit "/c")⟩ }

/-- `GET /a` misses, and its page is captured in one brigade. -/
def Event.onePage : List Event :=
  [.request (Env.ofRules [CacherRule.ofTtl 60]) RequestRec.cacheable,
   .brigade 0 ⟨200, [], none, false⟩ [.data [104, 105] none, .eos]]

end Provenance

end Cacher
