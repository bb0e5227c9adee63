import Cacher.HeaderFile

/-!
# `Cacher.Capture`: the output filter that stores a response

`cacherOutputFilter` is one call of the filter `CACHER_OUT`, and `captureResponse` is the
calls of a whole response. `RequestRec` may differ from call to call, because other
filters change the response headers in between. The first call decides whether the
response is stored and opens a temporary file, the data buckets are appended to that
file, and the EOS bucket ends in `finalizeCacheEntry`, which publishes the entry by two
renames.

The context keeps the suffix of the temporary file only while `cacheable` is set, so a
capture without an open file cannot be built. Closing files, pools and log messages have
no part in the model, and neither has the brigade that the filter passes on unchanged.
-/

set_option autoImplicit false

namespace Cacher

open CText Files

/-- The state of the filter (`cacher_out_ctx`). -/
structure CacherOutCtx where
  rule : CacherRule
  paths : EntryPaths
  /-- The suffix of `tmp_body_path` while `cacheable` is set, and `none` otherwise. -/
  tmpBody : Option TempSuffix
  bodyLen : Nat
  started : Bool
  /-- Not in the source: `finalize_cache_entry` has reached its end. -/
  published : Bool
  deriving DecidableEq

/-- One bucket of a brigade. -/
inductive Bucket where
  | eos
  /-- Any other metadata bucket. -/
  | metadata
  /-- A data bucket. Reading it succeeds, or it fails and reports the length in `failure`. -/
  | data (content : Bytes) (failure : Option Nat)
  deriving DecidableEq

/-- The metadata `finalize_cache_entry` writes, at the two clock readings it takes. -/
def entryMeta (r : RequestRec) (rule : CacherRule) (created now : Int64) : CacherEntryMeta where
  created := created
  expires := now + rule.ttlSeconds
  status := r.status
  method := r.method
  host := r.hostname.getD (lit "-")
  url := (cacherOriginalRequest r).urlText

/-- The response declares a `Content-Length` other than the number of captured bytes. -/
def lengthMismatch (headersOut : Table) (bodyLen : Nat) : Bool :=
  match headersOut.get (lit "Content-Length") with
  | some declared => (atoi64 declared).toInt != bodyLen
  | none => false

/-- The two renames that publish an entry, body first. -/
def publishEntry (paths : EntryPaths) (tmpBody tmpHeader : TempSuffix) : FileProg Bool := do
  if ← rename (paths.tmpBodyPath tmpBody) paths.bodyPath then
    rename (paths.tmpHeaderPath tmpHeader) paths.headerPath
  else pure false

/-- `finalize_cache_entry`. It is called with an open temporary file only, whose suffix is
`tmpBody`. The source returns nothing: `true` marks the return behind both renames. -/
def finalizeCacheEntry (r : RequestRec) (ctx : CacherOutCtx) (tmpBody : TempSuffix) :
    FileProg Bool := do
  if r.aborted then
    let _ ← remove (ctx.paths.tmpBodyPath tmpBody)
    pure false
  else if lengthMismatch r.headersOut ctx.bodyLen then
    let _ ← remove (ctx.paths.tmpBodyPath tmpBody)
    pure false
  else
    -- The clock is read once for `created` and once more for `expires`.
    let created ← timeNow
    let now ← timeNow
    let fileText := headerFileText (entryMeta r ctx.rule created now) (dumpHeaders r.headersOut)
    match ← mktemp (ctx.paths.headerPath ++ lit ".XXXXXX") with
    | none =>
      let _ ← remove (ctx.paths.tmpBodyPath tmpBody)
      pure false
    | some tmpHeader =>
      if ← writeFull (ctx.paths.tmpHeaderPath tmpHeader) (toBytes fileText) then
        if ← publishEntry ctx.paths tmpBody tmpHeader then pure true
        else
          let _ ← remove (ctx.paths.tmpBodyPath tmpBody)
          let _ ← remove (ctx.paths.tmpHeaderPath tmpHeader)
          let _ ← remove ctx.paths.bodyPath
          pure false
      else
        let _ ← remove (ctx.paths.tmpHeaderPath tmpHeader)
        let _ ← remove (ctx.paths.tmpBodyPath tmpBody)
        pure false

/-- The `ctype` of the filter: `r->content_type`, or the response header when that is NULL. -/
def filterContentType (r : RequestRec) : Option CString :=
  match r.contentType with
  | some ctype => some ctype
  | none => r.headersOut.get (lit "Content-Type")

/-- What the first call of the filter assigns to `cacheable`. -/
def filterAccepts (r : RequestRec) (rule : CacherRule) : Bool :=
  cacherRuleAllowsStatus rule r.status
    && cacherRuleAllowsContentType rule (filterContentType r)
    && !r.main
    && (r.headersIn.get (lit "Authorization")).isNone

/-- The block under `if (!ctx->started)`, with its condition. -/
def startCapture (r : RequestRec) (ctx : CacherOutCtx) : FileProg CacherOutCtx := do
  if ctx.started then pure ctx
  else if filterAccepts r ctx.rule then
    if ← dirMakeRecursive (FileSystem.dirname ctx.paths.bodyPath) then
      let tmpBody ← mktemp (ctx.paths.bodyPath ++ lit ".XXXXXX")
      pure { ctx with started := true, tmpBody := tmpBody }
    else pure { ctx with started := true, tmpBody := none }
  else pure { ctx with started := true, tmpBody := none }

/-- What the loop does with a data bucket: a bucket that was read and written counts, a
failure with a positive length abandons the entry. -/
def captureData (ctx : CacherOutCtx) (tmpBody : TempSuffix) (content : Bytes)
    (failure : Option Nat) : FileProg CacherOutCtx := do
  let len := failure.getD content.length
  -- Read and write outcome are one condition in the source.
  let stored ←
    if failure = none ∧ 0 < len then writeFull (ctx.paths.tmpBodyPath tmpBody) content
    else pure false
  if stored then pure { ctx with bodyLen := ctx.bodyLen + len }
  else if 0 < len then
    let _ ← remove (ctx.paths.tmpBodyPath tmpBody)
    pure { ctx with tmpBody := none }
  -- An empty bucket, or a failed read that reports length 0.
  else pure ctx

/-- One turn of the loop over the brigade. -/
def captureBucket (r : RequestRec) (ctx : CacherOutCtx) (e : Bucket) : FileProg CacherOutCtx :=
  match ctx.tmpBody, e with
  | none, _ => pure ctx
  | some tmpBody, .eos => do
    let published ← finalizeCacheEntry r ctx tmpBody
    pure { ctx with published := ctx.published || published }
  | some _, .metadata => pure ctx
  | some tmpBody, .data content failure => captureData ctx tmpBody content failure

/-- `cacher_output_filter`. -/
def cacherOutputFilter (r : RequestRec) (ctx : CacherOutCtx) (bb : List Bucket) :
    FileProg CacherOutCtx := do
  let ctx ← startCapture r ctx
  bb.foldlM (captureBucket r) ctx

/-- The context `cacher_cache_insert_filter` allocates. -/
def CacherOutCtx.fresh (rule : CacherRule) (paths : EntryPaths) : CacherOutCtx where
  rule := rule
  paths := paths
  tmpBody := none
  bodyLen := 0
  started := false
  published := false

/-- `cacher_cache_insert_filter`: the context of the filter it adds, if it adds one. -/
def cacherCacheInsertFilter (md5 : CString → Digest) (r : RequestRec)
    (cacheRoot : Option CString) (rule : CacherRule) : Option CacherOutCtx :=
  if cacheRoot = none ∨ rule.ttlSeconds ≤ 0 then none
  else if r.headerOnly then none
  else (cacheKeyPaths md5 r cacheRoot rule).map (CacherOutCtx.fresh rule)

/-- The calls of the filter for one response, each with the request as it is at that time. -/
def captureResponse (ctx : CacherOutCtx) (calls : List (RequestRec × List Bucket)) :
    FileProg CacherOutCtx :=
  calls.foldlM (fun ctx call => cacherOutputFilter call.1 ctx call.2) ctx

/-! ### What publishing does -/

/-- The two renames move both temporary files into place, or leave the header alone. -/
theorem publishEntry_spec (e : EntryPaths) (tmpBody tmpHeader : TempSuffix) (w : World) :
    After (publishEntry e tmpBody tmpHeader) w fun ok w' =>
      w'.script = w.script ∧ NoFailedWrite w w' ∧
      if ok then
        (w.fs.read (e.tmpBodyPath tmpBody)).isSome ∧ ∀ q, w'.fs.read q
          = if q = e.headerPath then w.fs.read (e.tmpHeaderPath tmpHeader)
            else if q = e.tmpHeaderPath tmpHeader then none
            else if q = e.bodyPath then w.fs.read (e.tmpBodyPath tmpBody)
            else if q = e.tmpBodyPath tmpBody then none
            else w.fs.read q
      else
        (w.script.AllOk → w.fs.read (e.tmpBodyPath tmpBody) = none
          ∨ w.fs.read (e.tmpHeaderPath tmpHeader) = none)
        ∧ (w'.fs.read e.bodyPath = w.fs.read e.bodyPath
          ∨ w'.fs.read e.bodyPath = w.fs.read (e.tmpBodyPath tmpBody))
        ∧ ∀ q, q ≠ e.bodyPath → q ≠ e.tmpBodyPath tmpBody → w'.fs.read q = w.fs.read q := by
  unfold publishEntry
  refine Prog.after_bind.mpr (after_rename (fun b w₁ hb h₁ => ?_) (fun w₁ hno h₁ => ?_))
  · -- The body is in place.
    have hmove₁ : ∀ q, w₁.fs.read q = if q = e.bodyPath then some b
        else if q = e.tmpBodyPath tmpBody then none else w.fs.read q := by
      intro q
      rw [h₁.fs_eq, FileSystem.read_move hb]
    have htmp : w₁.fs.read (e.tmpHeaderPath tmpHeader) = w.fs.read (e.tmpHeaderPath tmpHeader) := by
      rw [hmove₁, if_neg (e.tmpHeaderPath_ne_bodyPath e _),
        if_neg (e.tmpBodyPath_ne_tmpHeaderPath e _ _).symm]
    show After (rename _ _) w₁ _
    refine after_rename (fun b₂ w₂ hb₂ h₂ => ?_) (fun w₂ hno h₂ => ?_)
    · refine ⟨by rw [h₂.script_eq, h₁.script_eq], ?_, ?_⟩
      · intro p data hmem
        rw [h₂.log_eq, h₁.log_eq] at hmem
        simpa using hmem
      rw [if_pos rfl]
      refine ⟨by simp [hb], fun q => ?_⟩
      rw [h₂.fs_eq, FileSystem.read_move hb₂, hmove₁ q, ← htmp, hb₂, hb]
    · refine ⟨by rw [h₂.script_eq, h₁.script_eq], ?_, ?_⟩
      · intro p data hmem
        rw [h₂.log_eq, h₁.log_eq] at hmem
        simpa using hmem
      rw [if_neg Bool.false_ne_true]
      refine ⟨fun hall => Or.inr ?_, Or.inr ?_, fun q hq hq' => ?_⟩
      · rw [← htmp]
        exact hno (by rw [h₁.script_eq]; exact hall)
      · rw [h₂.fs_eq, hmove₁, if_pos rfl, hb]
      · rw [h₂.fs_eq, hmove₁, if_neg hq, if_neg hq']
  · show After (pure false) w₁ _
    refine Prog.after_pure.mpr ?_
    refine ⟨h₁.script_eq, ?_, ?_⟩
    · intro p data hmem
      rw [h₁.log_eq] at hmem
      simpa using hmem
    rw [if_neg Bool.false_ne_true]
    exact ⟨fun hall => Or.inl (hno hall), Or.inl (by rw [h₁.fs_eq]), fun q _ _ => by rw [h₁.fs_eq]⟩

/-- The metadata that `finalizeCacheEntry` writes when it runs from `w`. -/
def finalMeta (r : RequestRec) (ctx : CacherOutCtx) (w : World) : CacherEntryMeta :=
  entryMeta r ctx.rule (w.clockAt 0) (w.clockAt 1)

/-- What publishing an entry does. -/
structure Published (r : RequestRec) (ctx : CacherOutCtx) (tmpBody : TempSuffix)
    (w w' : World) : Prop where
  notAborted : r.aborted = false
  lengthOk : lengthMismatch r.headersOut ctx.bodyLen = false
  tmpIsSome : (w.fs.read (ctx.paths.tmpBodyPath tmpBody)).isSome
  header : w'.fs.read ctx.paths.headerPath
    = some (toBytes (headerFileText (finalMeta r ctx w) (dumpHeaders r.headersOut)))
  body : w'.fs.read ctx.paths.bodyPath = w.fs.read (ctx.paths.tmpBodyPath tmpBody)
  tmpGone : w'.fs.read (ctx.paths.tmpBodyPath tmpBody) = none
  other : ∀ q, q ≠ ctx.paths.headerPath → q ≠ ctx.paths.bodyPath →
    q ≠ ctx.paths.tmpBodyPath tmpBody → w'.fs.read q = w.fs.read q
  writes : NoFailedWrite w w'

/-- The files that a capture may touch before it publishes. -/
structure Kept (e : EntryPaths) (tmpBody : TempSuffix) (fs fs' : FileSystem) : Prop where
  body : fs'.read e.bodyPath = fs.read e.bodyPath
    ∨ fs'.read e.bodyPath = fs.read (e.tmpBodyPath tmpBody) ∨ fs'.read e.bodyPath = none
  other : ∀ q, q ≠ e.bodyPath → q ≠ e.tmpBodyPath tmpBody →
    (∀ suffix, q ≠ e.tmpHeaderPath suffix) → fs'.read q = fs.read q

theorem Kept.removed {e : EntryPaths} {tmpBody : TempSuffix} {s : Script} {fs fs₁ fs₂ : FileSystem}
    {p : Path} (h : Kept e tmpBody fs fs₁) (hrem : Removed s fs₁ p fs₂)
    (hp : p = e.bodyPath ∨ p = e.tmpBodyPath tmpBody ∨ ∃ suffix, p = e.tmpHeaderPath suffix) :
    Kept e tmpBody fs fs₂ where
  body := by
    by_cases hb : e.bodyPath = p
    · -- The body itself is removed, or its removal fails.
      rw [← hb] at hrem
      rcases hrem.same with hsame | hsame
      · exact Or.inr (Or.inr hsame)
      · rw [hsame]
        exact h.body
    · rw [hrem.other _ hb]
      exact h.body
  other q hq hq' hq'' := by
    rw [hrem.other q ?_, h.other q hq hq' hq'']
    rintro rfl
    rcases hp with hp | hp | ⟨suffix, hp⟩
    · exact hq hp
    · exact hq' hp
    · exact hq'' suffix hp

/-- What a capture leaves behind that publishes nothing. -/
structure Unpublished (r : RequestRec) (ctx : CacherOutCtx) (tmpBody : TempSuffix)
    (w w' : World) : Prop where
  kept : Kept ctx.paths tmpBody w.fs w'.fs
  tmpGone : w.script.RemovesOk → w'.fs.read (ctx.paths.tmpBodyPath tmpBody) = none
  why : w.script.AllOk → r.aborted = true ∨ lengthMismatch r.headersOut ctx.bodyLen = true
    ∨ w.fs.read (ctx.paths.tmpBodyPath tmpBody) = none
    ∨ ∃ suffix, w.fs.read (ctx.paths.tmpHeaderPath suffix) ≠ none

section Finalize

variable {r : RequestRec} {ctx : CacherOutCtx} {tmpBody : TempSuffix} {w : World}

/-- A capture gives up: it removes its body and publishes nothing. -/
theorem giveUp_spec {w₁ : World} (hkept : Kept ctx.paths tmpBody w.fs w₁.fs)
    (hscript : w₁.script = w.script)
    (hwhy : w.script.AllOk → r.aborted = true ∨ lengthMismatch r.headersOut ctx.bodyLen = true
      ∨ w.fs.read (ctx.paths.tmpBodyPath tmpBody) = none
      ∨ ∃ suffix, w.fs.read (ctx.paths.tmpHeaderPath suffix) ≠ none) :
    After (remove (ctx.paths.tmpBodyPath tmpBody) >>= fun _ => pure false : FileProg Bool) w₁
      fun published w' =>
        if published then Published r ctx tmpBody w w' else Unpublished r ctx tmpBody w w' := by
  refine Prog.after_bind.mpr (after_remove fun ok fs w₂ hrem h₂ => Prog.after_pure.mpr ?_)
  rw [hscript] at hrem
  rw [if_neg Bool.false_ne_true]
  refine ⟨?_, fun h => ?_, hwhy⟩
  · rw [h₂.fs_eq]
    exact hkept.removed hrem (Or.inr (Or.inl rfl))
  · rw [h₂.fs_eq]
    exact hrem.gone h

/-- A temporary header makes no difference to the rest. -/
theorem kept_of_tmpHeader {fs : FileSystem} {tmpHeader : TempSuffix} {text : Bytes}
    (hread : ∀ q, fs.read q
      = if q = ctx.paths.tmpHeaderPath tmpHeader then some text else w.fs.read q) :
    Kept ctx.paths tmpBody w.fs fs where
  body := Or.inl (by rw [hread, if_neg (EntryPaths.tmpHeaderPath_ne_bodyPath _ _ _).symm])
  other q _ _ hq := by rw [hread, if_neg (hq tmpHeader)]

/-- Where a rename has failed, three removals take back what was done. -/
theorem removeAll_spec {w₁ : World} {tmpHeader : TempSuffix}
    (hkept : Kept ctx.paths tmpBody w.fs w₁.fs) (hscript : w₁.script = w.script)
    (hwhy : w.script.AllOk → r.aborted = true ∨ lengthMismatch r.headersOut ctx.bodyLen = true
      ∨ w.fs.read (ctx.paths.tmpBodyPath tmpBody) = none
      ∨ ∃ suffix, w.fs.read (ctx.paths.tmpHeaderPath suffix) ≠ none) :
    After (do
        let _ ← remove (ctx.paths.tmpBodyPath tmpBody)
        let _ ← remove (ctx.paths.tmpHeaderPath tmpHeader)
        let _ ← remove ctx.paths.bodyPath
        pure false : FileProg Bool) w₁
      fun published w' =>
        if published then Published r ctx tmpBody w w' else Unpublished r ctx tmpBody w w' := by
  refine Prog.after_bind.mpr (after_remove fun ok₂ fs₂ w₂ hrem₂ h₂ => ?_)
  refine Prog.after_bind.mpr (after_remove fun ok₃ fs₃ w₃ hrem₃ h₃ => ?_)
  refine Prog.after_bind.mpr (after_remove fun ok₄ fs₄ w₄ hrem₄ h₄ => Prog.after_pure.mpr ?_)
  rw [hscript] at hrem₂
  rw [h₂.fs_eq] at hrem₃
  rw [h₃.fs_eq] at hrem₄
  rw [if_neg Bool.false_ne_true]
  refine ⟨?_, fun hrem => ?_, hwhy⟩
  · rw [h₄.fs_eq]
    exact ((hkept.removed hrem₂ (Or.inr (Or.inl rfl))).removed hrem₃
      (Or.inr (Or.inr ⟨_, rfl⟩))).removed hrem₄ (Or.inl rfl)
  · rw [h₄.fs_eq]
    exact Removed.read_none hrem₄ (Removed.read_none hrem₃ (hrem₂.gone hrem))

/-- Behind the temporary header, the capture publishes or takes back what it has done. -/
theorem publishOrGiveUp_spec {w₁ : World} {tmpHeader : TempSuffix} (haborted : r.aborted = false)
    (hlen : lengthMismatch r.headersOut ctx.bodyLen = false)
    (hfree : w.fs.read (ctx.paths.tmpHeaderPath tmpHeader) = none)
    (hread : ∀ q, w₁.fs.read q = if q = ctx.paths.tmpHeaderPath tmpHeader
      then some (toBytes (headerFileText (finalMeta r ctx w) (dumpHeaders r.headersOut)))
      else w.fs.read q)
    (hscript : w₁.script = w.script) (hwrites : NoFailedWrite w w₁) :
    After (do
        if ← publishEntry ctx.paths tmpBody tmpHeader then pure true
        else
          let _ ← remove (ctx.paths.tmpBodyPath tmpBody)
          let _ ← remove (ctx.paths.tmpHeaderPath tmpHeader)
          let _ ← remove ctx.paths.bodyPath
          pure false : FileProg Bool) w₁
      fun published w' =>
        if published then Published r ctx tmpBody w w' else Unpublished r ctx tmpBody w w' := by
  have htmp : w₁.fs.read (ctx.paths.tmpBodyPath tmpBody)
      = w.fs.read (ctx.paths.tmpBodyPath tmpBody) := by
    rw [hread, if_neg (EntryPaths.tmpBodyPath_ne_tmpHeaderPath _ _ _ _)]
  refine Prog.after_bind.mpr ((publishEntry_spec _ _ _ w₁).mono fun ok w₂ h => ?_)
  rw [htmp, hscript] at h
  obtain ⟨hscript₂, hwrites₂, h⟩ := h
  cases ok with
  | true =>
      refine Prog.after_pure.mpr ?_
      -- Both renames have succeeded.
      rw [if_pos rfl] at h ⊢
      obtain ⟨hsome, hread₂⟩ := h
      refine ⟨haborted, hlen, hsome, ?_, ?_, ?_, ?_, ?_⟩
      · rw [hread₂, if_pos rfl, hread, if_pos rfl]
      · rw [hread₂, if_neg (EntryPaths.headerPath_ne_bodyPath _ _).symm,
          if_neg (EntryPaths.tmpHeaderPath_ne_bodyPath _ _ _).symm, if_pos rfl]
      · rw [hread₂, if_neg (EntryPaths.tmpBodyPath_ne_headerPath _ _ _),
          if_neg (EntryPaths.tmpBodyPath_ne_tmpHeaderPath _ _ _ _),
          if_neg (EntryPaths.tmpBodyPath_ne_bodyPath _ _ _), if_pos rfl]
      · intro q hq hq' hq''
        rw [hread₂, if_neg hq, if_neg hq', if_neg hq'', hread]
        by_cases hqt : q = ctx.paths.tmpHeaderPath tmpHeader
        · rw [if_pos hqt, hqt]
          exact hfree.symm
        · rw [if_neg hqt, if_neg hqt]
      · exact fun p data hmem => hwrites p data (hwrites₂ p data hmem)
  | false =>
      -- A rename has failed.
      rw [if_neg Bool.false_ne_true] at h
      obtain ⟨hwhy, hbody, hother⟩ := h
      have hkept : Kept ctx.paths tmpBody w.fs w₁.fs := kept_of_tmpHeader hread
      have hkept₂ : Kept ctx.paths tmpBody w.fs w₂.fs := by
        refine ⟨?_, fun q hq hq' hq'' => ?_⟩
        · rcases hbody with hbody | hbody
          · rw [hbody]
            exact hkept.body
          · exact Or.inr (Or.inl hbody)
        · rw [hother q hq hq']
          exact hkept.other q hq hq' hq''
      refine removeAll_spec hkept₂ hscript₂ fun hall => ?_
      rcases hwhy hall with h | h
      · exact Or.inr (Or.inr (Or.inl h))
      · rw [hread, if_pos rfl] at h
        cases h

theorem finalizeCacheEntry_spec (r : RequestRec) (ctx : CacherOutCtx) (tmpBody : TempSuffix)
    (w : World) :
    After (finalizeCacheEntry r ctx tmpBody) w fun published w' =>
      if published then Published r ctx tmpBody w w' else Unpublished r ctx tmpBody w w' := by
  have hrefl : Kept ctx.paths tmpBody w.fs w.fs := ⟨Or.inl rfl, fun _ _ _ _ => rfl⟩
  unfold finalizeCacheEntry
  split
  · rename_i haborted
    exact giveUp_spec hrefl rfl fun _ => Or.inl haborted
  rename_i haborted
  split
  · rename_i hlen
    exact giveUp_spec hrefl rfl fun _ => Or.inr (Or.inl hlen)
  rename_i hlen
  refine Prog.after_bind.mpr (after_timeNow fun w₁ h₁ => ?_)
  refine Prog.after_bind.mpr (after_timeNow fun w₂ h₂ => ?_)
  have hclock : w₁.clockAt 0 = w.clockAt 1 := by
    simp [World.clockAt, h₁.script_eq, h₁.log_eq]
  have hfs₂ : w₂.fs = w.fs := by rw [h₂.fs_eq, h₁.fs_eq]
  have hscript₂ : w₂.script = w.script := by rw [h₂.script_eq, h₁.script_eq]
  rw [hclock]
  refine Prog.after_bind.mpr (after_mktemp (fun tmpHeader w₃ hfree h₃ => ?_) (fun w₃ hno h₃ => ?_))
  · -- Whatever part of the text is written, the other files are those of `w`.
    have happend : ∀ data q, (w₃.fs.append (ctx.paths.tmpHeaderPath tmpHeader) data).read q
        = if q = ctx.paths.tmpHeaderPath tmpHeader then some data else w.fs.read q := by
      intro data q
      rw [h₃.fs_eq, hfs₂]
      exact FileSystem.read_append_put w.fs _ q data
    have hscript₃ : w₃.script = w.script := by rw [h₃.script_eq, hscript₂]
    refine Prog.after_bind.mpr (after_writeFull (fun w₄ h₄ => ?_) (fun part w₄ hno h₄ => ?_))
    · rw [hfs₂] at hfree
      refine publishOrGiveUp_spec (by simpa using haborted) (by simpa using hlen) hfree
        (fun q => ?_) (by rw [h₄.script_eq, hscript₃]) fun p data hmem => ?_
      · rw [h₄.fs_eq, happend]
        rfl
      · rw [h₄.log_eq, h₃.log_eq, h₂.log_eq, h₁.log_eq] at hmem
        simpa using hmem
    · -- The header text could not be written.
      refine Prog.after_bind.mpr (after_remove fun ok₅ fs₅ w₅ hrem₅ h₅ => ?_)
      rw [h₄.fs_eq] at hrem₅
      refine giveUp_spec ?_ (by rw [h₅.script_eq, h₄.script_eq, hscript₃]) fun hall => absurd ?_ hno
      · rw [h₅.fs_eq]
        exact (kept_of_tmpHeader (happend part)).removed hrem₅ (Or.inr (Or.inr ⟨_, rfl⟩))
      · rw [hscript₃]
        exact hall
  · -- No temporary header.
    refine giveUp_spec ?_ (by rw [h₃.script_eq, hscript₂]) fun hall => ?_
    · rw [h₃.fs_eq, hfs₂]
      exact hrefl
    · rw [hfs₂, hscript₂] at hno
      exact Or.inr (Or.inr (Or.inr (hno hall)))

end Finalize

/-! ### Reading a published entry back -/

/-- A published entry reads back exactly as it was written, except exactly when the path
and query of the client's request are empty or hold a newline. -/
theorem cacherCacheReadMeta_finalizeCacheEntry_iff {r : RequestRec} {ctx : CacherOutCtx}
    {tmpBody : TempSuffix} {w w' : World} (hmethod : IsWord r.method)
    (hhostname : ∀ host, r.hostname = some host → IsWord host) (hstatus : 0 < r.status)
    (hpub : (run (finalizeCacheEntry r ctx tmpBody) w).1 = true)
    (hfs : w'.fs = (run (finalizeCacheEntry r ctx tmpBody) w).2.fs) (hok : w'.script.AllOk) :
    (run (cacherCacheReadMeta ctx.paths.headerPath) w').1
        = some (finalMeta r ctx w, dumpHeaders r.headersOut)
      ↔ (cacherOriginalRequest r).urlText ≠ [] ∧ chr '\n' ∉ (cacherOriginalRequest r).urlText := by
  have hspec := finalizeCacheEntry_spec r ctx tmpBody w
  unfold After Prog.After at hspec
  rw [hpub, if_pos rfl] at hspec
  have hhost : IsWord (finalMeta r ctx w).host := isWord_getD hhostname
  have hne : (finalMeta r ctx w).status ≠ 0 := by
    show r.status ≠ 0
    intro h
    rw [h] at hstatus
    exact absurd hstatus (by decide)
  obtain ⟨-, -, -, hfound⟩ := cacherCacheReadMeta_spec ctx.paths.headerPath w'
  have hheader := hspec.header
  rw [← hfs] at hheader
  rw [hfound, headerReads_iff_of_allOk hok hheader, ofBytes_toBytes]
  exact readMetaText_eq_iff hmethod hhost hne _

/-- A capture that has opened its temporary file, for the samples below. -/
def CacherOutCtx.sample : CacherOutCtx where
  rule := CacherRule.ofTtl 60
  paths := { cacheRoot := lit "/c", digest := Vector.replicate 16 0 }
  tmpBody := some default
  bodyLen := 0
  started := true
  published := false

/-- The cache while that capture is under way. -/
def World.sample : World where
  fs := { files := [(CacherOutCtx.sample.paths.tmpBodyPath default, [])], dirs := [] }
  script := Script.steady 100
  log := []

/-- The entry of `/%0A%0AX:%20y` is published, and its path ends the metadata early. -/
theorem cacherCacheReadMeta_finalizeCacheEntry_newline :
    ¬ ((run (finalizeCacheEntry (RequestRec.get (lit "/\n\nX: y") none) CacherOutCtx.sample default)
          World.sample).1 = true →
        (run (cacherCacheReadMeta CacherOutCtx.sample.paths.headerPath)
          (run (finalizeCacheEntry (RequestRec.get (lit "/\n\nX: y") none) CacherOutCtx.sample
            default) World.sample).2).1
          = some (finalMeta (RequestRec.get (lit "/\n\nX: y") none) CacherOutCtx.sample World.sample,
              dumpHeaders [])) := by
  decide +kernel

/-- The round trip at work on `/a?b`. -/
theorem cacherCacheReadMeta_finalizeCacheEntry_query :
    (run (cacherCacheReadMeta CacherOutCtx.sample.paths.headerPath)
        (run (finalizeCacheEntry (RequestRec.get (lit "/a") (some (lit "b"))) CacherOutCtx.sample
          default) World.sample).2).1
      = some (finalMeta (RequestRec.get (lit "/a") (some (lit "b"))) CacherOutCtx.sample
          World.sample, dumpHeaders []) := by
  refine (cacherCacheReadMeta_finalizeCacheEntry_iff
    (r := RequestRec.get (lit "/a") (some (lit "b")))
    isWord_get (fun _ h => by cases h) (by decide) (by decide +kernel) rfl
    ?_).mpr ⟨by decide, by decide⟩
  rw [run_script]
  exact Script.allOk_steady 100

end Cacher
