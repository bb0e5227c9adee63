import Cacher.Provenance

/-!
# `Cacher.Freshness`: how old a served entry can be

A lookup compares the clock with the `expires` stamp of the entry and never with the rule
that the request matches. The stamp was computed when the entry was stored, from the ttl of
the rule in force then.

Every entry bears the clock reading of its creation (`CreatedAt`), which in every run is no
later than the present (`CacheState.Stamped`). `eachRequest_servedWithinTtl` is about whole
runs: as long as the stamps that requests meet lie within the ttl of the requests' own rules,
no entry is served for longer than the rule allows.
-/

set_option autoImplicit false

namespace Cacher

open CText Files

/-- The text of the header file `b` gives `c` as its time of creation. -/
def CreatedAt (b : Bytes) (c : Int64) : Prop :=
  ∃ info block, b = toBytes (headerFileText info block) ∧ info.created = c

/-- A header file has one time of creation. -/
theorem CreatedAt.unique {b : Bytes} {c c' : Int64} (h : CreatedAt b c) (h' : CreatedAt b c') :
    c = c' := by
  obtain ⟨info, block, rfl, rfl⟩ := h
  obtain ⟨info', block', heq, rfl⟩ := h'
  have htext := congrArg ofBytes heq
  rw [ofBytes_toBytes, ofBytes_toBytes] at htext
  -- Behind the first line, the second ends at the next newline.
  unfold headerFileText at htext
  have hline := List.append_cancel_left htext
  rw [List.cons.injEq] at hline
  have hcut := congrArg (cutAt [chr '\n']) hline.2
  rw [cutAt_singleton_append (notMem_keyword_decimal (by decide) _),
    cutAt_singleton_append (notMem_keyword_decimal (by decide) _)] at hcut
  have hdecimal := List.append_cancel_left (Prod.mk.inj (Option.some.inj hcut)).1
  rw [← atoi64_decimal info.created, hdecimal, atoi64_decimal]

/-! ### The time of creation, over a run -/

/-- What a part of a run does with header files: it takes them away, or stores them with the
clock reading of an earlier call. -/
structure Stamps (w w' : World) : Prop where
  script_eq : w'.script = w.script
  log_le : w.log.length ≤ w'.log.length
  headers : ∀ (e : EntryPaths) b, w'.fs.read e.headerPath = some b →
    w.fs.read e.headerPath = some b
      ∨ ∃ k, k ≤ w'.log.length ∧ CreatedAt b (w.script k .timeNow).clock

/-- The call makes no header file. -/
def MakesNoHeader (op : FileOp) : Prop :=
  ∀ (w : World) (e : EntryPaths) b, (w.answer op).2.fs.read e.headerPath = some b →
    w.fs.read e.headerPath = some b

section Stamps

variable {w w₁ w₂ : World} {α : Type}

theorem Stamps.trans (h₁ : Stamps w w₁) (h₂ : Stamps w₁ w₂) : Stamps w w₂ := by
  refine ⟨h₂.script_eq.trans h₁.script_eq, h₁.log_le.trans h₂.log_le, fun e b hread => ?_⟩
  rcases h₂.headers e b hread with hold | ⟨k, hk, hcreated⟩
  · rcases h₁.headers e b hold with hold | ⟨k, hk, hcreated⟩
    · exact Or.inl hold
    · exact Or.inr ⟨k, hk.trans h₂.log_le, hcreated⟩
  · rw [h₁.script_eq] at hcreated
    exact Or.inr ⟨k, hk, hcreated⟩

/-- A program that makes no header file. -/
theorem stamps_of_makesNoHeader {p : FileProg α} (hp : Prog.Uses MakesNoHeader p) (w : World) :
    After p w fun _ w' => Stamps w w' := by
  refine ⟨run_script p w, length_log_le_run p w, fun e b hread => Or.inl ?_⟩
  refine Prog.exec_inv (I := fun w' : World =>
    ∀ b, w'.fs.read e.headerPath = some b → w.fs.read e.headerPath = some b)
    (fun w' op hop hI b hb => hI b (hop w' e b hb)) hp (fun b hb => hb) b hread

theorem makesNoHeader_of_onlyRemoves {op : FileOp} (h : op.OnlyRemoves) : MakesNoHeader op := by
  intro w e b hread
  rcases w.answer_read_of_onlyRemoves h e.headerPath with hsame | hgone
  · rw [← hsame]
    exact hread
  · rw [hgone] at hread
    cases hread

theorem makesNoHeader_dirMakeRecursive (p : Path) : MakesNoHeader (.dirMakeRecursive p) := by
  intro w e b
  have hrule : After (dirMakeRecursive p) w fun _ w' => w'.fs.read e.headerPath = some b →
      w.fs.read e.headerPath = some b :=
    after_dirMakeRecursive (fun w' h hread => by rw [h.fs_eq] at hread; exact hread)
      fun w' _ h hread => by rw [h.fs_eq] at hread; exact hread
  exact hrule

/-- Temporary bodies are not header files. -/
theorem makesNoHeader_mktemp_body (e : EntryPaths) :
    MakesNoHeader (.mktemp (e.bodyPath ++ lit ".XXXXXX")) := by
  intro w e' b
  have hrule : After (mktemp (e.bodyPath ++ lit ".XXXXXX")) w fun _ w' =>
      w'.fs.read e'.headerPath = some b → w.fs.read e'.headerPath = some b := by
    refine after_mktemp (fun suffix w' _ h hread => ?_) fun w' _ h hread => ?_
    · have hne : e'.headerPath ≠ e.bodyPath ++ chr '.' :: suffix.chars :=
        (EntryPaths.tmpBodyPath_ne_headerPath e e' suffix).symm
      rw [h.fs_eq, FileSystem.read_put, if_neg hne] at hread
      exact hread
    · rw [h.fs_eq] at hread
      exact hread
  exact hrule

theorem makesNoHeader_writeFull_body (e : EntryPaths) (suffix : TempSuffix) (data : Bytes) :
    MakesNoHeader (.writeFull (e.tmpBodyPath suffix) data) := by
  intro w e' b
  have hne := (EntryPaths.tmpBodyPath_ne_headerPath e e' suffix).symm
  have hrule : After (writeFull (e.tmpBodyPath suffix) data) w fun _ w' =>
      w'.fs.read e'.headerPath = some b → w.fs.read e'.headerPath = some b := by
    refine after_writeFull (fun w' h hread => ?_) fun part w' _ h hread => ?_
    · rw [h.fs_eq, FileSystem.read_append, if_neg hne] at hread
      exact hread
    · rw [h.fs_eq, FileSystem.read_append, if_neg hne] at hread
      exact hread
  exact hrule

theorem makesNoHeader_startCapture (r : RequestRec) (ctx : CacherOutCtx) :
    Prog.Uses MakesNoHeader (startCapture r ctx) := by
  unfold startCapture
  split
  · exact Prog.uses_pure _ _
  split
  · refine Prog.uses_bind (Prog.uses_perform (makesNoHeader_dirMakeRecursive _)) fun ok => ?_
    cases ok with
    | true =>
        exact Prog.uses_bind (Prog.uses_perform (makesNoHeader_mktemp_body _)) fun _ =>
          Prog.uses_pure _ _
    | false => exact Prog.uses_pure _ _
  · exact Prog.uses_pure _ _

theorem makesNoHeader_captureData (ctx : CacherOutCtx) (tmpBody : TempSuffix) (content : Bytes)
    (failure : Option Nat) : Prog.Uses MakesNoHeader (captureData ctx tmpBody content failure) := by
  have hend : ∀ stored : Bool, Prog.Uses MakesNoHeader
      (if stored then pure { ctx with bodyLen := ctx.bodyLen + failure.getD content.length }
        else if 0 < failure.getD content.length then do
          let _ ← remove (ctx.paths.tmpBodyPath tmpBody)
          pure { ctx with tmpBody := none }
        else pure ctx : FileProg CacherOutCtx) := by
    intro stored
    split
    · exact Prog.uses_pure _ _
    split
    · exact Prog.uses_bind (Prog.uses_perform (makesNoHeader_of_onlyRemoves trivial)) fun _ =>
        Prog.uses_pure _ _
    · exact Prog.uses_pure _ _
  show Prog.Uses MakesNoHeader (if failure = none ∧ 0 < failure.getD content.length then _ else _)
  split
  · exact Prog.uses_bind (Prog.uses_perform (makesNoHeader_writeFull_body _ _ _)) hend
  · exact Prog.uses_bind (Prog.uses_pure _ _) hend

/-- The header that a capture publishes bears the first clock reading of its end. -/
theorem finalizeCacheEntry_stamps (r : RequestRec) (ctx : CacherOutCtx) (tmpBody : TempSuffix)
    (w : World) : After (finalizeCacheEntry r ctx tmpBody) w fun _ w' => Stamps w w' := by
  have hlog := length_log_le_run (finalizeCacheEntry r ctx tmpBody) w
  have hscript := run_script (finalizeCacheEntry r ctx tmpBody) w
  have hspec := finalizeCacheEntry_spec r ctx tmpBody w
  unfold run at hlog hscript
  unfold After Prog.After at hspec ⊢
  generalize Prog.exec World.answer (finalizeCacheEntry r ctx tmpBody) w = out
    at hlog hscript hspec ⊢
  obtain ⟨published, w'⟩ := out
  refine ⟨hscript, hlog, fun e b hread => ?_⟩
  cases published with
  | true =>
      have hspec : Published r ctx tmpBody w w' := hspec
      by_cases he : e.headerPath = ctx.paths.headerPath
      · rw [he, hspec.header] at hread
        cases hread
        exact Or.inr ⟨w.log.length, hlog, _, _, rfl, rfl⟩
      · rw [hspec.other _ he (EntryPaths.headerPath_ne_bodyPath _ _)
          (EntryPaths.tmpBodyPath_ne_headerPath _ _ _).symm] at hread
        exact Or.inl hread
  | false =>
      have hspec : Unpublished r ctx tmpBody w w' := hspec
      rw [hspec.kept.other _ (EntryPaths.headerPath_ne_bodyPath _ _)
        (EntryPaths.tmpBodyPath_ne_headerPath _ _ _).symm
        fun suffix => (EntryPaths.tmpHeaderPath_ne_headerPath _ _ _).symm] at hread
      exact Or.inl hread

theorem cacherOutputFilter_stamps (r : RequestRec) (ctx : CacherOutCtx) (bb : List Bucket)
    (w : World) : After (cacherOutputFilter r ctx bb) w fun _ w' => Stamps w w' := by
  have hrefl : ∀ (ctx' : CacherOutCtx) (w : World),
      After (pure ctx' : FileProg CacherOutCtx) w fun _ w' => Stamps w w' :=
    fun ctx' w => stamps_of_makesNoHeader (Prog.uses_pure _ ctx') w
  unfold cacherOutputFilter
  refine Prog.after_bind.mpr ((stamps_of_makesNoHeader (makesNoHeader_startCapture r ctx) w).mono
    fun ctx₁ w₁ h₁ => ?_)
  refine Prog.after_foldlM (I := fun _ _ w' => Stamps w w') h₁ fun _ e ctx₂ w₂ h₂ _ => ?_
  refine Prog.After.mono (Q := fun _ w' => Stamps w₂ w') ?_ fun _ w₃ h₃ => h₂.trans h₃
  unfold captureBucket
  cases ctx₂.tmpBody with
  | none => exact hrefl _ _
  | some tmpBody =>
      cases e with
      | metadata => exact hrefl _ _
      | data content failure =>
          exact stamps_of_makesNoHeader (makesNoHeader_captureData _ _ _ _) w₂
      | eos =>
          exact Prog.after_bind.mpr ((finalizeCacheEntry_stamps r ctx₂ tmpBody w₂).mono
            fun _ _ h => Prog.after_pure.mpr h)

/-- The handler makes no header file. -/
theorem cacherHandler_stamps (env : Env) (r : RequestRec) (w : World) :
    Stamps w (run (cacherHandler env r) w).2 := by
  refine ⟨run_script _ w, length_log_le_run _ w, fun e b hread => Or.inl ?_⟩
  rcases cacherHandler_removes env r w e.headerPath with hsame | hgone
  · rw [← hsame]
    exact hread
  · rw [hgone] at hread
    cases hread

end Stamps

/-- Every entry in the cache was created at the reading of some earlier call. -/
def CacheState.Stamped (s : CacheState) : Prop :=
  ∀ (e : EntryPaths) b, s.world.fs.read e.headerPath = some b →
    ∃ k, k ≤ s.world.log.length ∧ CreatedAt b (s.world.script k .timeNow).clock

section Run

variable {s : CacheState}

theorem CacheState.Stamped.stamps (h : s.Stamped) {s' : CacheState}
    (hstamps : Stamps s.world s'.world) : s'.Stamped := by
  intro e b hread
  rw [hstamps.script_eq]
  rcases hstamps.headers e b hread with hold | hnew
  · obtain ⟨k, hk, hcreated⟩ := h e b hold
    exact ⟨k, hk.trans hstamps.log_le, hcreated⟩
  · exact hnew

theorem CacheState.Stamped.step (h : s.Stamped) (event : Event) :
    (s.step event).Stamped ∧ (s.step event).world.script = s.world.script := by
  cases event with
  | request env r =>
      have hstamps := cacherHandler_stamps env r s.world
      exact ⟨h.stamps hstamps, hstamps.script_eq⟩
  | brigade i a bb =>
      cases hc : s.captures[i]? with
      | none =>
          have hstep : s.step (.brigade i a bb) = s := by simp only [CacheState.step, hc]
          rw [hstep]
          exact ⟨h, rfl⟩
      | some c =>
          have hstamps := cacherOutputFilter_stamps (c.request.withAnswer a) c.ctx bb s.world
          simp only [CacheState.step, hc]
          exact ⟨h.stamps hstamps, hstamps.script_eq⟩
  | purge paths => exact ⟨fun e b hread => h e b (read_foldl_erase hread), rfl⟩

theorem CacheState.Stamped.run (h : s.Stamped) (events : List Event) :
    (s.run events).Stamped ∧ (s.run events).world.script = s.world.script := by
  induction events generalizing s with
  | nil => exact ⟨h, rfl⟩
  | cons event events ih =>
      obtain ⟨hstep, hscript⟩ := h.step event
      obtain ⟨hrun, hscript'⟩ := ih hstep
      exact ⟨hrun, hscript'.trans hscript⟩

end Run

/-! ### What is served -/

/-- If the handler serves an entry to the request, then the matched rule has a lifetime, and
the entry is younger than that when its expiry is tested. -/
def ServedWithinTtl (w : World) (env : Env) (r : RequestRec) : Prop :=
  ∀ dconf rule paths, MayUseCache env r dconf rule →
    cacheKeyPaths env.md5 r r.cacheRoot rule = some paths →
    (Files.run (cacherHandler env r) w).1.body ≠ none →
    ∃ b c, w.fs.read paths.headerPath = some b ∧ CreatedAt b c
      ∧ 0 < rule.ttlSeconds ∧ (w.clockAt 3).toInt - c.toInt < rule.ttlSeconds.toInt

/-- The `expires` stamp that the request reads from its entry is no later than its own rule
would put it, counted from the creation of the entry. -/
def StampWithinTtl (w : World) (env : Env) (r : RequestRec) : Prop :=
  ∀ dconf rule paths b c info block, MayUseCache env r dconf rule →
    cacheKeyPaths env.md5 r r.cacheRoot rule = some paths →
    w.fs.read paths.headerPath = some b → CreatedAt b c →
    readMetaText (ofBytes b) = some (info, block) →
    info.expires.toInt ≤ max c.toInt (c.toInt + rule.ttlSeconds.toInt)

/-- Each handler call of the run has `P` in the state that it finds. -/
def EachRequest (P : World → Env → RequestRec → Prop) (s : CacheState) (events : List Event) : Prop :=
  ∀ before env r after, events = before ++ .request env r :: after → P (s.run before).world env r

/-- An expiry is within a lifetime exactly when every reading of the clock that it lets pass
is, from the creation on. -/
theorem le_max_iff_forall_fresh (created expires ttl : Int) :
    expires ≤ max created (created + ttl)
      ↔ ∀ now, created ≤ now → now < expires → 0 < ttl ∧ now - created < ttl := by
  constructor
  · intro h now hcreated hnow
    omega
  · intro h
    by_contra hlate
    have hbad := h (max created (created + ttl)) (by omega) (by omega)
    omega

/-- One request. -/
theorem servedWithinTtl_of_stampWithinTtl {s : CacheState} (hstamped : s.Stamped)
    (hclock : s.world.script.ClockForward) {env : Env} {r : RequestRec}
    (h : StampWithinTtl s.world env r) : ServedWithinTtl s.world env r := by
  intro dconf rule paths hmay hpaths hbody
  rw [hmay.cacherHandler_eq, ne_eq, body_handleCacheable] at hbody
  obtain ⟨-, hends⟩ := cacherCacheLookup_spec env.md5 r r.cacheRoot rule s.world
  generalize (Files.run (cacherCacheLookup env.md5 r r.cacheRoot rule) s.world).1 = out
    at hends hbody
  cases hends with
  | early _ => exact absurd rfl hbody
  | late _ _ => exact absurd rfl hbody
  | hit hfresh _ _ =>
      have heq := hfresh.paths_eq
      rw [hpaths] at heq
      obtain rfl := Option.some.inj heq
      obtain ⟨b, hread, -, -, -, hmeta⟩ := hfresh.reads
      obtain ⟨k, hk, hcreated⟩ := hstamped paths b hread
      -- The entry was created before, and has not expired.
      have hpast := Int64.le_iff_toInt_le.mp (hclock k (s.world.log.length + 3) (by omega))
      have hnow := Int64.lt_iff_toInt_lt.mp (Int64.not_le.mp hfresh.fresh)
      obtain ⟨hpos, hage⟩ := (le_max_iff_forall_fresh _ _ _).mp
        (h dconf rule paths b _ _ _ hmay hpaths hread hcreated hmeta) _ hpast hnow
      exact ⟨b, _, hread, hcreated, Int64.lt_iff_toInt_lt.mpr hpos, hage⟩

/-- The ttl of the matched rule bounds what is served: in every run in which no request meets
a stamp later than its rule allows, every entry served is within the ttl. -/
theorem eachRequest_servedWithinTtl (s : CacheState) (hcold : s.Cold)
    (hclock : s.world.script.ClockForward) (events : List Event)
    (hstamps : EachRequest StampWithinTtl s events) : EachRequest ServedWithinTtl s events := by
  intro before env r after hevents
  have hcoldStamped : s.Stamped := by
    intro e b hread
    rw [hcold.noHeader] at hread
    cases hread
  obtain ⟨hstamped, hscript⟩ := hcoldStamped.run before
  refine servedWithinTtl_of_stampWithinTtl hstamped ?_ (hstamps before env r after hevents)
  rw [hscript]
  exact hclock

/-- An entry that was stored within one second, under a rule that allows no more than the
rule of the request, bears such a stamp. -/
theorem expires_le_of_capture {r : RequestRec} {rule rule' : CacherRule} {created : Int64}
    (hmethod : IsWord r.method) (hhostname : ∀ host, r.hostname = some host → IsWord host)
    (hurl : (cacherOriginalRequest r).urlText ≠ [] ∧ chr '\n' ∉ (cacherOriginalRequest r).urlText)
    (hrange : (created + rule.ttlSeconds).toInt = created.toInt + rule.ttlSeconds.toInt)
    (httl : rule.ttlSeconds ≤ rule'.ttlSeconds) {table : Table} {info : CacherEntryMeta}
    {block : CString}
    (hread : readMetaText (headerFileText (entryMeta r rule created created) (dumpHeaders table))
      = some (info, block)) :
    info.expires.toInt ≤ max created.toInt (created.toInt + rule'.ttlSeconds.toInt) := by
  have hhost : IsWord (entryMeta r rule created created).host := isWord_getD hhostname
  rw [readMetaText_headerFileText hmethod.noNewline hhost.noNewline,
    metaLines_metaPart_of_notMem hmethod hhost hurl.1 hurl.2] at hread
  have hle := Int64.le_iff_toInt_le.mp httl
  split at hread
  · cases hread
  · cases hread
    show (created + rule.ttlSeconds).toInt ≤ _
    omega

/-- The page of `/a` is asked for again, under the rules in force by then. -/
def Event.askedAgain (rules : List CacherRule) : List Event :=
  Event.onePage ++ [.request (Env.ofRules rules) RequestRec.cacheable]

/-- A rule without a lifetime serves the page that a rule with one has stored. -/
theorem not_eachRequest_servedWithinTtl :
    ¬ EachRequest ServedWithinTtl CacheState.cold (Event.askedAgain [CacherRule.ofTtl 0]) := by
  intro h
  have hmay : MayUseCache (Env.ofRules [CacherRule.ofTtl 0]) RequestRec.cacheable
      CacherDirConf.sample (CacherRule.ofTtl 0) :=
    ⟨rfl, rfl, rfl, Or.inl rfl, rfl, ⟨_, rfl, by decide⟩, rfl, rfl⟩
  have hserved : (Files.run (cacherHandler (Env.ofRules [CacherRule.ofTtl 0]) RequestRec.cacheable)
      (CacheState.cold.run Event.onePage).world).1.body ≠ none := by
    decide +kernel
  obtain ⟨b, c, -, -, hpos, -⟩ := h Event.onePage _ _ [] rfl _ _ _ hmay rfl hserved
  exact absurd hpos (by decide)

/-- Under the old rules it is served within the ttl. -/
theorem eachRequest_servedWithinTtl_askedAgain :
    EachRequest ServedWithinTtl CacheState.cold (Event.askedAgain [CacherRule.ofTtl 60]) := by
  refine eachRequest_servedWithinTtl CacheState.cold ⟨fun _ => rfl, fun _ => rfl, rfl⟩
    (fun _ _ _ => Int64.le_refl _) (Event.askedAgain [CacherRule.ofTtl 60]) ?_
  have hmay : MayUseCache (Env.ofRules [CacherRule.ofTtl 60]) RequestRec.cacheable
      CacherDirConf.sample (CacherRule.ofTtl 60) :=
    ⟨rfl, rfl, rfl, Or.inl rfl, rfl, ⟨_, rfl, by decide⟩, rfl, rfl⟩
  have hheader : (CacheState.cold.run Event.onePage).world.fs.read pathsOfGetA.headerPath
      = some (toBytes (headerFileText ⟨100, 160, 200, lit "GET", lit "-", lit "/a"⟩ [])) := by
    decide +kernel
  intro before env r after hevents dconf rule paths b c info block hmay' hpaths hread hcreated hmeta
  rcases before with _ | ⟨e₁, _ | ⟨e₂, _ | ⟨e₃, before⟩⟩⟩
  · -- The first request finds nothing.
    cases hread
  · cases hevents
  · cases hevents
    obtain ⟨rfl, rfl⟩ := hmay'.unique hmay
    cases hpaths
    obtain rfl := Option.some.inj (hheader.symm.trans hread)
    obtain rfl := hcreated.unique ⟨_, _, rfl, rfl⟩
    rw [ofBytes_toBytes] at hmeta
    have htext : readMetaText (headerFileText ⟨100, 160, 200, lit "GET", lit "-", lit "/a"⟩ [])
        = some (⟨100, 160, 200, lit "GET", lit "-", lit "/a"⟩, []) := by
      decide +kernel
    cases htext.symm.trans hmeta
    decide
  · cases before <;> cases hevents

end Cacher
