import Cacher.Actions
import Cacher.Expiry
import Cacher.Lib.Store
import Cacher.Lib.Tree
import Cacher.Publication
import Cacher.Rollback

/-!
# `Cacher.Refinement`: the cache as a store of pages

Where requests come one after another and no file call fails, the cache under a root is a store
of pages. `Holds` says that the files are those of a store, and `Visit.Does` what one request does
to the store and what it answers: it is served the page under its key, it stores its own page, it
is an admin request that discards pages, or it leaves the store alone.

`follows_serve` is the simulation for a whole run. `served_iff` follows for the client: a request
is served a page exactly when an earlier request has stored it under the same key, no later one
has replaced or deleted it, and it has not expired.
-/

set_option autoImplicit false

namespace Cacher

open CText Files

/-! ### Pages -/

/-- What a capture stores. -/
structure Page where
  info : CacherEntryMeta
  headersOut : Table
  body : Bytes

/-- The header file of the page. -/
def Page.header (page : Page) : Bytes :=
  toBytes (headerFileText page.info (dumpHeaders page.headersOut))

/-- What a reader finds in the header file. -/
def Page.found (page : Page) : Option (CacherEntryMeta × CString) :=
  readMetaText (headerFileText page.info (dumpHeaders page.headersOut))

/-- A reader finds that the page has not expired. -/
def Page.FreshAt (page : Page) (now : Int64) : Prop :=
  ∃ info block, page.found = some (info, block) ∧ ¬ info.expires ≤ now

/-- The switches of an admin request select the page. -/
def Page.SelectedBy (page : Page) (ctx : AdminCtx) (hostname : Option CString) : Prop :=
  ∃ info block, page.found = some (info, block) ∧ selectsEntry ctx hostname info = true

/-- The pages of a cache, by the digests of their keys. -/
abbrev Pages := Store Digest Page

/-- The files below `root` are those of the pages. -/
structure Holds (root : CString) (pages : Pages) (fs : FileSystem) : Prop where
  header : ∀ d, fs.read (EntryPaths.mk root d).headerPath = (pages d).map Page.header
  body : ∀ d, fs.read (EntryPaths.mk root d).bodyPath = (pages d).map Page.body
  only : ∀ q b, fs.read q = some b → FileSystem.Under root q →
    ∃ d, q = (EntryPaths.mk root d).headerPath ∨ q = (EntryPaths.mk root d).bodyPath
  sharded : EntriesInShards fs

/-! ### Requests -/

/-- A complete answer as the filter receives it. EOS comes once, at the end of the last call. -/
structure Reply where
  /-- The calls in front of the last one. -/
  earlier : List (Answer × List Bucket)
  /-- The answer at the last call. -/
  last : Answer
  /-- The buckets of the last call in front of EOS. -/
  lastBuckets : List Bucket
  noEos_earlier : ∀ call ∈ earlier, .eos ∉ call.2
  noEos_last : .eos ∉ lastBuckets

/-- A reply of one call has none in front of it. -/
theorem Reply.noEos_nil : ∀ call ∈ ([] : List (Answer × List Bucket)), .eos ∉ call.2 :=
  List.forall_mem_nil _

/-- The calls of the filter. -/
def Reply.calls (x : Reply) : List (Answer × List Bucket) :=
  x.earlier ++ [(x.last, x.lastBuckets ++ [.eos])]

/-- The calls of the filter with the request that they belong to. -/
def Reply.response (x : Reply) (r : RequestRec) : Response where
  earlier := x.earlier.map fun call => (r.withAnswer call.1, call.2)
  last := r.withAnswer x.last
  lastBuckets := x.lastBuckets
  noEos_earlier call hcall := by
    obtain ⟨call, hmem, rfl⟩ := List.mem_map.mp hcall
    exact x.noEos_earlier call hmem
  noEos_last := x.noEos_last

/-- A capture for `rule` stores the response. -/
structure Storable (rule : CacherRule) (x : Response) : Prop where
  accepted : filterAccepts x.first rule = true
  /-- No read fails with a positive length. -/
  quiet : ∀ bucket ∈ x.buckets, bucket.readFailsLoudly = false
  notAborted : x.last.aborted = false
  lengthOk : lengthMismatch x.last.headersOut x.stored.length = false

/-- The two actions that delete, and the context of their walks. -/
inductive DeletesFor : CString → AdminCtx → Prop where
  | fullReset : DeletesFor (lit "/full-reset") AdminCtx.reset
  | purge {pattern : CString} (hne : pattern ≠ []) (hslash : pattern ≠ lit "/") :
      DeletesFor (lit "/purge" ++ pattern) (AdminCtx.purge pattern)

/-- A request, and the answer of the other modules should it not be served from the cache. -/
structure Visit where
  env : Env
  request : RequestRec
  reply : Reply

namespace Visit

/-- The request is served from the first call of the handler to the last one of the filter. -/
def serve (v : Visit) (w : World) : HandlerResult × World :=
  run (serveRequest v.env v.request v.reply.calls) w

/-- The digest of the request's key. -/
def digest (v : Visit) (rule : CacherRule) : Digest :=
  v.env.md5 (buildCacheKeyString v.request rule)

/-- The response that the filter receives, should the request not be served from the cache. -/
def response (v : Visit) : Response := v.reply.response v.request

/-- It is stored, for `rule`. -/
structure Stores (v : Visit) (rule : CacherRule) : Prop where
  notHead : v.request.headerOnly = false
  ttl_pos : 0 < rule.ttlSeconds
  storable : Storable rule v.response

/-- The page that it makes. -/
def page (v : Visit) (rule : CacherRule) (created now : Int64) : Page where
  info := entryMeta v.response.last rule created now
  headersOut := v.reply.last.headersOut
  body := v.response.stored

/-- What the handler makes of a miss. -/
def missed (v : Visit) (dconf : CacherDirConf) (rule : CacherRule) : HandlerResult :=
  let r := setStatus v.request dconf (lit "MISS")
  { HandlerResult.decline r with
    filter := cacherCacheInsertFilter v.env.md5 r v.request.cacheRoot rule }

/-- The request walks the cache as an admin request, and deletes what `ctx` selects. -/
def Deletes (v : Visit) (ctx : AdminCtx) : Prop :=
  v.request.main = false ∧ ∃ dconf action, UnderAdminPath v.request dconf action
    -- The gate is open.
    ∧ ¬ (dconf.adminRequireUser ≠ some false ∧ v.request.user = none)
    ∧ DeletesFor action ctx

end Visit

/-- A request that has been served. -/
abbrev Served := Record Visit World HandlerResult

namespace Served

/-- The clock reading of a call that is one of the last `n` calls of the request. -/
def clockBack (record : Served) (n : Nat) : Int64 :=
  (record.before.script (record.after.log.length - n) .timeNow).clock

/-- The page that the request stores, if it stores one. The clock is read for `created` and for
`expires`, and four more calls publish the page. -/
def page (record : Served) (rule : CacherRule) : Page :=
  record.event.page rule (record.clockBack 6) (record.clockBack 5)

end Served

/-- What a request does to the pages, and what it answers. -/
inductive Served.Does (record : Served) (pages : Pages) : Store.Change Digest Page → Prop where
  /-- A page that is fresh at the lookup is served. -/
  | hit {dconf : CacherDirConf} {rule : CacherRule} {page : Page} {info : CacherEntryMeta}
      {block : CString} {age : Int64}
      (hmay : MayUseCache record.event.env record.event.request dconf rule)
      (hpage : pages (record.event.digest rule) = some page)
      (hfound : page.found = some (info, block))
      (hfresh : ¬ info.expires ≤ record.before.clockAt 3)
      (hanswer : record.answer = serveHit (replayHeaders record.event.request block) dconf
        ⟨page.body, info.status, page.body.length, age⟩) :
      Does record pages .keep
  /-- Without one, the reply is stored. -/
  | stored {dconf : CacherDirConf} {rule : CacherRule}
      (hmay : MayUseCache record.event.env record.event.request dconf rule)
      (hmiss : ∀ page, pages (record.event.digest rule) = some page →
        ¬ page.FreshAt (record.before.clockAt 3))
      (hstores : record.event.Stores rule)
      (hanswer : record.answer = record.event.missed dconf rule) :
      Does record pages (.put (record.event.digest rule) (record.page rule))
  /-- Or it passes the filter and is not stored. -/
  | passed {dconf : CacherDirConf} {rule : CacherRule}
      (hmay : MayUseCache record.event.env record.event.request dconf rule)
      (hmiss : ∀ page, pages (record.event.digest rule) = some page →
        ¬ page.FreshAt (record.before.clockAt 3))
      (hno : ¬ record.event.Stores rule)
      (hanswer : record.answer = record.event.missed dconf rule) :
      Does record pages .keep
  /-- An admin request deletes what it selects. -/
  | deleted {ctx : AdminCtx} (hdeletes : record.event.Deletes ctx)
      (hanswer : record.answer.body = none) :
      Does record pages (.discard fun _ page => page.SelectedBy ctx record.event.request.hostname)
  /-- Any other request leaves the cache alone. -/
  | declined (hno : ∀ dconf rule, ¬ MayUseCache record.event.env record.event.request dconf rule)
      (hkeeps : ∀ ctx, ¬ record.event.Deletes ctx) (hanswer : record.answer.body = none) :
      Does record pages .keep

/-! ### A lookup -/

section Holds

variable {root : CString} {pages : Pages} {w : World}

theorem under_root (e : EntryPaths) (ext : CString) :
    FileSystem.Under e.cacheRoot (e.stem ++ ext) := ⟨_, List.append_assoc _ _ _⟩

/-- No capture is under way. -/
theorem Holds.tmpHeader (h : Holds root pages w.fs) (d : Digest) (suffix : TempSuffix) :
    w.fs.read ((EntryPaths.mk root d).tmpHeaderPath suffix) = none := by
  by_contra hsome
  obtain ⟨b, hb⟩ := Option.ne_none_iff_exists'.mp hsome
  obtain ⟨d', hq | hq⟩ := h.only _ b hb (by
    rw [EntryPaths.tmpHeaderPath_eq]
    exact under_root _ _)
  · exact EntryPaths.tmpHeaderPath_ne_headerPath _ _ suffix hq
  · exact EntryPaths.tmpHeaderPath_ne_bodyPath _ _ suffix hq

theorem Holds.tmpBody (h : Holds root pages w.fs) (d : Digest) (suffix : TempSuffix) :
    w.fs.read ((EntryPaths.mk root d).tmpBodyPath suffix) = none := by
  by_contra hsome
  obtain ⟨b, hb⟩ := Option.ne_none_iff_exists'.mp hsome
  obtain ⟨d', hq | hq⟩ := h.only _ b hb (by
    rw [EntryPaths.tmpBodyPath_eq]
    exact under_root _ _)
  · exact EntryPaths.tmpBodyPath_ne_headerPath _ _ suffix hq
  · exact EntryPaths.tmpBodyPath_ne_bodyPath _ _ suffix hq

theorem ofBytes_header (page : Page) :
    ofBytes page.header = headerFileText page.info (dumpHeaders page.headersOut) :=
  ofBytes_toBytes _

/-- A lookup serves the fresh page, if there is one. -/
theorem Holds.lookup (h : Holds root pages w.fs) (hok : w.script.AllOk) (md5 : CString → Digest)
    (r : RequestRec) (rule : CacherRule) :
    After (cacherCacheLookup md5 r (some root) rule) w fun out w' =>
      w'.fs = w.fs ∧ w'.script = w.script
      ∧ ((∃ page info block age, pages (md5 (buildCacheKeyString r rule)) = some page
          ∧ page.found = some (info, block) ∧ ¬ info.expires ≤ w.clockAt 3
          ∧ out = (replayHeaders r block, some ⟨page.body, info.status, page.body.length, age⟩))
        ∨ (∀ page, pages (md5 (buildCacheKeyString r rule)) = some page →
            ¬ page.FreshAt (w.clockAt 3)) ∧ out = (r, none)) := by
  obtain ⟨hfs, hends⟩ := cacherCacheLookup_spec md5 r (some root) rule w
  refine ⟨hfs, run_script _ w, ?_⟩
  generalize (Prog.exec World.answer (cacherCacheLookup md5 r (some root) rule) w).1 = out at hends ⊢
  have hheader := h.header (md5 (buildCacheKeyString r rule))
  have hbody := h.body (md5 (buildCacheKeyString r rule))
  -- What a reader finds is what the page says.
  have hreads : ∀ {info block}, HeaderReads w
      (EntryPaths.mk root (md5 (buildCacheKeyString r rule))).headerPath (info, block) →
      ∃ page, pages (md5 (buildCacheKeyString r rule)) = some page
        ∧ page.found = some (info, block) := by
    rintro info block ⟨text, htext, -, -, -, hmeta⟩
    rw [hheader] at htext
    obtain ⟨page, hpage, rfl⟩ := Option.map_eq_some_iff.mp htext
    rw [ofBytes_header] at hmeta
    exact ⟨page, hpage, hmeta⟩
  cases hends with
  | early hno =>
      refine Or.inr ⟨fun page hpage hfresh => ?_, rfl⟩
      obtain ⟨info, block, hfound, hnow⟩ := hfresh
      rw [hpage] at hheader
      refine hno _ info block ⟨rfl, (headerReads_iff_of_allOk hok hheader _).mpr ?_, hnow⟩
      rw [ofBytes_header]
      exact hfound
  | late hfresh hno =>
      obtain ⟨hpaths, hread, -⟩ := hfresh
      cases hpaths
      obtain ⟨page, hpage, -⟩ := hreads hread
      rw [hpage] at hbody
      exact absurd ⟨hbody, hok.allowsAt _ _, hok.allowsAt _ _⟩ (hno page.body)
  | @hit paths info block body hfresh hopens age =>
      obtain ⟨hpaths, hread, hnow⟩ := hfresh
      cases hpaths
      obtain ⟨page, hpage, hfound⟩ := hreads hread
      have hsame := hopens.read_eq
      rw [hbody, hpage] at hsame
      cases hsame
      exact Or.inl ⟨page, info, block, age, hpage, hfound, hnow, rfl⟩

/-! ### A capture -/

variable {rule : CacherRule} {paths : EntryPaths}

/-- The calls of the filter in front of EOS. -/
theorem captureResponse_open (w : World) (call : RequestRec × List Bucket)
    {calls : List (RequestRec × List Bucket)} (hcalls : ∀ c ∈ call :: calls, .eos ∉ c.2) :
    After (captureResponse (CacherOutCtx.fresh rule paths) (call :: calls)) w
      (Capturing rule paths (filterAccepts call.1 rule) w ((call :: calls).flatMap (·.2))) := by
  obtain ⟨hcall, hcalls⟩ := List.forall_mem_cons.mp hcalls
  unfold captureResponse
  rw [List.foldlM_cons]
  refine Prog.after_bind.mpr ((cacherOutputFilter_spec call.1 (startCapture_spec rule paths call.1 w)
    hcall).mono fun ctx₁ w₁ h₁ => ?_)
  refine (captureResponse_earlier_spec h₁ hcalls).mono fun ctx₂ w₂ h₂ => ?_
  rw [List.flatMap_cons]
  exact h₂

/-- A whole response is its buckets, and then EOS. -/
theorem captureResponse_calls (ctx : CacherOutCtx) (x : Response) :
    captureResponse ctx x.calls
      = captureResponse ctx (x.earlier ++ [(x.last, x.lastBuckets)])
          >>= fun ctx => captureBucket x.last ctx .eos := by
  unfold captureResponse Response.calls cacherOutputFilter
  simp only [List.foldlM_append, List.foldlM_cons, List.foldlM_nil, bind_assoc, bind_pure]

/-- An entry is published in six calls, of which the first two read the clock. -/
theorem length_log_finalizeCacheEntry (r : RequestRec) (ctx : CacherOutCtx) (tmpBody : TempSuffix)
    (w : World) :
    After (finalizeCacheEntry r ctx tmpBody) w fun published w' =>
      published = true → w'.log.length = w.log.length + 6 := by
  have hgiveUp : ∀ (p : Path) (w₁ : World),
      After (remove p >>= fun _ => pure false : FileProg Bool) w₁ fun published w' =>
        published = true → w'.log.length = w.log.length + 6 := by
    intro p w₁
    refine Prog.after_bind.mpr (after_remove fun _ _ _ _ _ => Prog.after_pure.mpr fun h => ?_)
    cases h
  unfold finalizeCacheEntry
  split
  · exact hgiveUp _ w
  split
  · exact hgiveUp _ w
  refine Prog.after_bind.mpr (after_timeNow fun w₁ h₁ => ?_)
  refine Prog.after_bind.mpr (after_timeNow fun w₂ h₂ => ?_)
  refine Prog.after_bind.mpr (after_mktemp_at (fun tmpHeader w₃ _ h₃ => ?_)
    fun w₃ _ _ => hgiveUp _ w₃)
  refine Prog.after_bind.mpr (after_writeFull_at (fun w₄ _ h₄ => ?_) fun part w₄ _ _ => ?_)
  · have hfour : w₄.log.length = w.log.length + 4 := by
      rw [h₄.log_eq, h₃.log_eq, h₂.log_eq, h₁.log_eq]
      simp
    -- What the three removals return.
    have hback : ∀ w₅ : World, After (do
        let _ ← remove (ctx.paths.tmpBodyPath tmpBody)
        let _ ← remove (ctx.paths.tmpHeaderPath tmpHeader)
        let _ ← remove ctx.paths.bodyPath
        pure false : FileProg Bool) w₅ fun published w' =>
          published = true → w'.log.length = w.log.length + 6 := by
      intro w₅
      exact Prog.after_bind.mpr (after_remove fun _ _ _ _ _ =>
        Prog.after_bind.mpr (after_remove fun _ _ w₇ _ _ => hgiveUp _ w₇))
    rw [if_pos rfl]
    unfold publishEntry
    simp only [bind_assoc]
    refine Prog.after_bind.mpr (after_rename_at (fun _ w₅ _ _ h₅ => ?_) fun w₅ _ _ => hback w₅)
    rw [if_pos rfl]
    refine Prog.after_bind.mpr (after_rename_at (fun _ w₆ _ _ h₆ => ?_) fun w₆ _ _ => hback w₆)
    refine Prog.after_pure.mpr fun _ => ?_
    rw [h₆.log_eq, h₅.log_eq]
    simp [hfour]
  · rw [if_neg Bool.false_ne_true]
    exact Prog.after_bind.mpr (after_remove fun _ _ w₅ _ _ => hgiveUp _ w₅)

/-- Where no call fails, the end of a capture publishes the entry or leaves no trace. -/
theorem finalizeCacheEntry_stores (r : RequestRec) (ctx : CacherOutCtx) {tmpBody : TempSuffix}
    (hok : w.script.AllOk) (hbody : w.fs.read (ctx.paths.tmpBodyPath tmpBody) ≠ none)
    (hfree : ∀ suffix, w.fs.read (ctx.paths.tmpHeaderPath suffix) = none) :
    After (finalizeCacheEntry r ctx tmpBody) w fun _ w' =>
      if r.aborted = false ∧ lengthMismatch r.headersOut ctx.bodyLen = false then
        Published r ctx tmpBody w w' ∧ w'.log.length = w.log.length + 6
      else Undone ctx tmpBody w.fs w'.fs := by
  have hspec := finalizeCacheEntry_spec r ctx tmpBody w
  have hends := finalizeCacheEntry_ends r ctx tmpBody hok.removesOk
  have hlog := length_log_finalizeCacheEntry r ctx tmpBody w
  have hpub : r.aborted = false → lengthMismatch r.headersOut ctx.bodyLen = false →
      (Prog.exec World.answer (finalizeCacheEntry r ctx tmpBody) w).1 = true :=
    fun haborted hlen => finalizeCacheEntry_publishes haborted hlen hbody hfree hok
  unfold After Prog.After at *
  generalize Prog.exec World.answer (finalizeCacheEntry r ctx tmpBody) w = out at *
  split
  · rename_i h
    have htrue := hpub h.1 h.2
    rw [htrue, if_pos rfl] at hspec
    exact ⟨hspec, hlog htrue⟩
  · rename_i h
    -- Whoever gets as far as the renames has passed both tests.
    have hno : ∀ t, ¬ ReachesRenames r ctx w t := fun t hreach =>
      h ⟨hreach.notAborted, hreach.lengthOk⟩
    generalize out.1 = published at *
    cases hends with
    | published hreach _ => exact absurd hreach (hno _)
    | early _ hundone => exact hundone
    | late hfails _ _ _ =>
        obtain ⟨t, hreach, -⟩ := hfails
        exact absurd hreach (hno t)

/-- A capture for `rule` that ran from `w` has stored its entry under `paths`. -/
structure Stored (rule : CacherRule) (paths : EntryPaths) (x : Response) (w w' : World) : Prop where
  header : w'.fs.read paths.headerPath = some (toBytes (headerFileText
    (entryMeta x.last rule (w.script (w'.log.length - 6) .timeNow).clock
      (w.script (w'.log.length - 5) .timeNow).clock) (dumpHeaders x.last.headersOut)))
  body : w'.fs.read paths.bodyPath = some x.stored
  other : ∀ q, q ≠ paths.headerPath → q ≠ paths.bodyPath → w'.fs.read q = w.fs.read q

/-- A capture that no failing call hinders stores what is storable, and else leaves no trace. -/
theorem captureResponse_stores (hok : w.script.AllOk) (x : Response)
    (htmpHeader : ∀ suffix, w.fs.read (paths.tmpHeaderPath suffix) = none)
    (htmpBody : ∀ suffix, w.fs.read (paths.tmpBodyPath suffix) = none) :
    After (captureResponse (CacherOutCtx.fresh rule paths) x.calls) w fun _ w' =>
      (Storable rule x ∧ Stored rule paths x w w')
      ∨ ¬ Storable rule x ∧ ∀ q, w'.fs.read q = w.fs.read q := by
  rw [captureResponse_calls]
  -- In front of EOS, the capture is open or has left no trace.
  have hopen : After (captureResponse (CacherOutCtx.fresh rule paths)
      (x.earlier ++ [(x.last, x.lastBuckets)])) w fun ctx w' =>
      Capturing rule paths (filterAccepts x.first rule) w x.buckets ctx w' := by
    have hbuckets : (x.earlier ++ [(x.last, x.lastBuckets)]).flatMap (·.2) = x.buckets := by
      simp [Response.buckets]
    rw [← hbuckets]
    unfold Response.first
    have hcalls : ∀ c ∈ x.earlier ++ [(x.last, x.lastBuckets)], .eos ∉ c.2 := by
      intro c hc
      rcases List.mem_append.mp hc with hc | hc
      · exact x.noEos_earlier c hc
      · rw [List.mem_singleton.mp hc]
        exact x.noEos_last
    generalize x.earlier = earlier at hcalls ⊢
    cases earlier with
    | nil => exact captureResponse_open w _ hcalls
    | cons call earlier => exact captureResponse_open w call hcalls
  refine Prog.after_bind.mpr (hopen.mono fun ctx w₁ hcap => ?_)
  unfold captureBucket
  cases htmp : ctx.tmpBody with
  | none =>
      obtain ⟨hsame, hwhy⟩ := hcap.isClosed htmp
      refine Prog.after_pure.mpr (Or.inr ⟨fun hst => ?_, hsame hok.removesOk⟩)
      rcases hwhy hok with hacc | ⟨suffix, hsuffix⟩ | ⟨bucket, hmem, hloud⟩
      · rw [hst.accepted] at hacc
        cases hacc
      · exact hsuffix (htmpBody suffix)
      · rw [hst.quiet bucket hmem] at hloud
        cases hloud
  | some suffix =>
      obtain ⟨hacc, hfree, hread, hlen, hloud, -⟩ := hcap.isOpen suffix htmp
      obtain rfl := hcap.paths_eq
      obtain rfl := hcap.rule_eq
      have hok₁ : w₁.script.AllOk := by
        rw [hcap.script_eq]
        exact hok
      have htmpRead : w₁.fs.read (ctx.paths.tmpBodyPath suffix) = some x.stored := by
        rw [hread, if_pos rfl]
        rfl
      have hotherTmp : ∀ q, q ≠ ctx.paths.tmpBodyPath suffix → w₁.fs.read q = w.fs.read q :=
        fun q hq => by rw [hread, if_neg hq]
      refine Prog.after_bind.mpr ((finalizeCacheEntry_stores x.last ctx hok₁
        (by rw [htmpRead]; exact Option.some_ne_none _) fun s => ?_).mono
        fun published w₂ h₂ => Prog.after_pure.mpr ?_)
      · rw [hotherTmp _ (EntryPaths.tmpBodyPath_ne_tmpHeaderPath _ _ _ _).symm, htmpHeader]
      change ctx.bodyLen = x.stored.length at hlen
      rw [hlen] at h₂
      split at h₂
      · rename_i htests
        obtain ⟨hpub, hlog⟩ := h₂
        refine Or.inl ⟨⟨hacc, hloud, htests.1, htests.2⟩, ?_, ?_, fun q hq hq' => ?_⟩
        · rw [hpub.header, finalMeta, hlog]
          simp only [World.clockAt, hcap.script_eq, Nat.add_zero]
          rfl
        · rw [hpub.body, htmpRead]
        · by_cases hqt : q = ctx.paths.tmpBodyPath suffix
          · rw [hqt, hpub.tmpGone, htmpBody]
          · rw [hpub.other q hq hq' hqt, hotherTmp q hqt]
      · rename_i htests
        refine Or.inr ⟨fun hst => htests ⟨hst.notAborted, hst.lengthOk⟩, fun q => ?_⟩
        by_cases hqt : q = ctx.paths.tmpBodyPath suffix
        · rw [hqt, h₂.tmpGone, htmpBody]
        · rw [h₂.other q hqt, hotherTmp q hqt]

/-! ### A walk -/

theorem selectsHeader_page (page : Page) (ctx : AdminCtx) (hostname : Option CString) :
    SelectsHeader ctx hostname page.header ↔ page.SelectedBy ctx hostname := by
  rw [SelectsHeader, ofBytes_header]
  rfl

/-- A walk from the cache root deletes the pages that it selects. -/
theorem Holds.walk (h : Holds root pages w.fs) (hroot : root ≠ []) (hok : w.script.AllOk)
    (r : RequestRec) {depth : Nat} (hdepth : 3 ≤ depth) {ctx : AdminCtx}
    (hdelete : ctx.deleteMatches = true) :
    Holds root (Store.Change.apply pages (.discard fun _ page => page.SelectedBy ctx r.hostname))
      (run (walkCache r depth ctx root) w).2.fs := by
  have hscript : w.script.ReadsAndRemovesOk := fun n op _ => hok n op
  have hremoves := onlyRemoves_walkCache r depth ctx root
  have hswept : ∀ d, Swept ctx r.hostname (EntryPaths.mk root d) w.fs
      (run (walkCache r depth ctx root) w).2.fs :=
    fun d => walkCache_swept r depth ctx root hok.removesOk
  -- Whatever was not there is not there now.
  have hnone : ∀ q, w.fs.read q = none → (run (walkCache r depth ctx root) w).2.fs.read q = none := by
    intro q hq
    rcases run_read_of_onlyRemoves hremoves w q with hsame | hgone
    · rw [hsame, hq]
    · exact hgone
  have hboth : ∀ d, (run (walkCache r depth ctx root) w).2.fs.read (EntryPaths.mk root d).headerPath
        = (Store.Change.apply pages (.discard fun _ page => page.SelectedBy ctx r.hostname) d).map
            Page.header
      ∧ (run (walkCache r depth ctx root) w).2.fs.read (EntryPaths.mk root d).bodyPath
        = (Store.Change.apply pages (.discard fun _ page => page.SelectedBy ctx r.hostname) d).map
            Page.body := by
    intro d
    have hheader := h.header d
    have hbody := h.body d
    cases hpage : pages d with
    | none =>
        rw [hpage] at hheader hbody
        rw [Store.apply_discard_of_none hpage]
        exact ⟨hnone _ hheader, hnone _ hbody⟩
    | some page =>
        rw [hpage] at hheader hbody
        by_cases hselect : page.SelectedBy ctx r.hostname
        · rw [Store.apply_discard_of_selects hpage hselect]
          have hin := h.sharded (EntryPaths.mk root d) _ hheader
          have hreaches := (hunt_alone (EntryPaths.mk root d)).walkCache_reaches hdelete
            ((selectsHeader_page page ctx r.hostname).mpr hselect) hdepth
            ⟨Nat.zero_le _, hscript, hin.root hroot, hin, Or.inr hheader⟩
          have hgone := (hreaches.after (by intro w; rfl)).2
          cases hswept d with
          | deleted _ _ hgone => exact ⟨hgone.header, hgone.body⟩
          | kept hkept =>
              have hsame := hkept.header
              rw [hheader] at hsame
              exact absurd (hsame.symm.trans hgone) (Option.some_ne_none _)
        · rw [Store.apply_discard_of_not hpage hselect]
          cases hswept d with
          | kept hkept => exact ⟨hkept.header.trans hheader, hkept.body.trans hbody⟩
          | deleted hread hno _ =>
              rw [hheader] at hread
              cases hread
              exact absurd ((selectsHeader_page page ctx r.hostname).mp hno) hselect
  refine ⟨fun d => (hboth d).1, fun d => (hboth d).2, fun q b hb hunder => ?_,
    entriesInShards_run_of_onlyRemoves hremoves h.sharded⟩
  obtain ⟨b', hb'⟩ := Option.ne_none_iff_exists'.mp fun hq =>
    Option.some_ne_none b (hb.symm.trans (hnone q hq))
  exact h.only q b' hb' hunder

/-! ### A request -/

/-- The page is stored, and the rest is as it was. -/
theorem Holds.stored (h : Holds root pages w.fs) {x : Response} {d : Digest} {w' : World}
    (hstored : Stored rule ⟨root, d⟩ x w w') {page : Page}
    (hheader : page.header = toBytes (headerFileText
      (entryMeta x.last rule (w.script (w'.log.length - 6) .timeNow).clock
        (w.script (w'.log.length - 5) .timeNow).clock) (dumpHeaders x.last.headersOut)))
    (hbody : page.body = x.stored) (hsharded : EntriesInShards w'.fs) :
    Holds root (Store.Change.apply pages (.put d page)) w'.fs := by
  refine ⟨fun d' => ?_, fun d' => ?_, fun q b hb hunder => ?_, hsharded⟩
  · by_cases hd : d = d'
    · subst hd
      rw [hstored.header, Store.apply_put_self, Option.map_some, hheader]
    · rw [hstored.other _ (fun hq => hd (EntryPaths.digest_eq_of_headerPath hq).symm)
        (EntryPaths.headerPath_ne_bodyPath _ _), Store.apply_put_of_ne hd, h.header]
  · by_cases hd : d = d'
    · subst hd
      rw [hstored.body, Store.apply_put_self, Option.map_some, hbody]
    · rw [hstored.other _ (EntryPaths.headerPath_ne_bodyPath _ _).symm
        fun hq => hd (EntryPaths.digest_eq_of_bodyPath hq).symm, Store.apply_put_of_ne hd, h.body]
  · by_cases hheader : q = (EntryPaths.mk root d).headerPath
    · exact ⟨d, Or.inl hheader⟩
    by_cases hbody : q = (EntryPaths.mk root d).bodyPath
    · exact ⟨d, Or.inr hbody⟩
    rw [hstored.other q hheader hbody] at hb
    exact h.only q b hb hunder

/-- Where every file is as it was, so are the pages. -/
theorem Holds.same (h : Holds root pages w.fs) {fs : FileSystem} (hread : ∀ q, fs.read q = w.fs.read q)
    (hsharded : EntriesInShards fs) : Holds root pages fs :=
  ⟨fun d => (hread _).trans (h.header d), fun d => (hread _).trans (h.body d),
    fun q b hb => h.only q b ((hread q).symm.trans hb), hsharded⟩

theorem Reply.calls_response (x : Reply) (r : RequestRec) :
    x.calls.map (fun call => (r.withAnswer call.1, call.2)) = (x.response r).calls := by
  simp [Reply.calls, Reply.response, Response.calls]

/-- The filter is added for the responses that a rule with a lifetime may store. -/
theorem missed_filter {v : Visit} (hroot : v.request.cacheRoot = some root) (dconf : CacherDirConf)
    (rule : CacherRule) :
    ((v.missed dconf rule).filter = none ∧ ¬ v.Stores rule)
      ∨ (v.missed dconf rule).filter = some (CacherOutCtx.fresh rule ⟨root, v.digest rule⟩)
        ∧ v.request.headerOnly = false ∧ 0 < rule.ttlSeconds := by
  have hfilter : (v.missed dconf rule).filter
      = cacherCacheInsertFilter v.env.md5 v.request (some root) rule := by
    obtain ⟨t, ht, -⟩ := statusHeaderOnly_setStatus v.request dconf (lit "MISS")
    show cacherCacheInsertFilter v.env.md5 (setStatus v.request dconf (lit "MISS"))
      v.request.cacheRoot rule = _
    rw [ht, hroot]
    rfl
  rw [hfilter, cacherCacheInsertFilter]
  split
  · rename_i hno
    refine Or.inl ⟨rfl, fun hstores => ?_⟩
    rcases hno with hno | hno
    · cases hno
    · exact absurd hstores.ttl_pos (Int64.not_lt.mpr hno)
  rename_i hyes
  split
  · rename_i hhead
    refine Or.inl ⟨rfl, fun hstores => ?_⟩
    rw [hstores.notHead] at hhead
    cases hhead
  · rename_i hhead
    refine Or.inr ⟨rfl, by simpa using hhead, ?_⟩
    exact Int64.not_le.mp fun hle => hyes (Or.inr hle)

/-- A request that may use the cache is served the fresh page, or its reply passes the filter. -/
theorem Holds.serve_cache (h : Holds root pages w.fs) (hok : w.script.AllOk) {v : Visit}
    (hroot : v.request.cacheRoot = some root) {dconf : CacherDirConf}
    (hmay : MayUseCache v.env v.request dconf rule) :
    After (serveRequest v.env v.request v.reply.calls) w fun answer w' =>
      EntriesInShards w'.fs → ∃ change, Served.Does ⟨v, w, answer, w'⟩ pages change
        ∧ Holds root (change.apply pages) w'.fs := by
  unfold serveRequest
  rw [hmay.cacherHandler_eq]
  unfold handleCacheable
  rw [bind_assoc]
  have hlookup := h.lookup hok v.env.md5 v.request rule
  rw [← hroot] at hlookup
  refine Prog.after_bind.mpr (hlookup.mono fun out w₁ h₁ => ?_)
  obtain ⟨hfs, hscript, ⟨page, info, block, age, hpage, hfound, hfresh, rfl⟩ | ⟨hmiss, rfl⟩⟩ := h₁
  · refine Prog.after_pure.mpr fun hsharded => ⟨_, .hit hmay hpage hfound hfresh rfl, ?_⟩
    exact h.same (fun q => by rw [hfs]) hsharded
  · -- The filter works on the files that the lookup has seen.
    have h₁ : Holds root pages w₁.fs := by
      rw [hfs]
      exact h
    show After ((pure (v.missed dconf rule) : FileProg HandlerResult) >>= _) w₁ _
    rw [pure_bind]
    rcases missed_filter hroot dconf rule with ⟨hfilter, hno⟩ | ⟨hfilter, hhead, httl⟩
    · rw [hfilter]
      refine Prog.after_pure.mpr fun hsharded => ⟨_, .passed hmay hmiss hno rfl, ?_⟩
      exact h₁.same (fun q => rfl) hsharded
    · rw [hfilter]
      dsimp only
      rw [v.reply.calls_response]
      refine Prog.after_bind.mpr ((captureResponse_stores (by rw [hscript]; exact hok) v.response
        (h₁.tmpHeader _) (h₁.tmpBody _)).mono fun _ w₂ h₂ => Prog.after_pure.mpr fun hsharded => ?_)
      rcases h₂ with ⟨hstorable, hstored⟩ | ⟨hno, hread⟩
      · refine ⟨_, .stored hmay hmiss ⟨hhead, httl, hstorable⟩ rfl, ?_⟩
        refine h₁.stored hstored ?_ rfl hsharded
        rw [hscript]
        rfl
      · exact ⟨_, .passed hmay hmiss (fun hstores => hno hstores.storable) rfl,
          h₁.same hread hsharded⟩

/-! ### An admin request -/

/-- The first line of the listing. -/
def listHead : CString :=
  padRight 6 (lit "METHOD") ++ lit " " ++ padLeft 3 (lit "ST") ++ lit " " ++ padLeft 10 (lit "SIZE")
    ++ lit "  " ++ padLeft 8 (lit "EXPIRES") ++ lit "  URL\n"

/-- The context that the listing starts with. -/
def AdminCtx.list : AdminCtx := { AdminCtx.zero with printRows := true, output := listHead }

/-- What `/list` answers behind its walk. -/
def listAnswer (ctx : AdminCtx) : AdminAnswer :=
  ⟨.ok, ctx.output ++ lit "\n" ++ entriesText ctx.matched ++ lit ", " ++ decimal ctx.bytes
    ++ lit " bytes\n"⟩

/-- What is answered when a walk for `pattern` has removed `n` entries. -/
def removedAnswer (pattern : Option CString) (n : Nat) : AdminAnswer :=
  match pattern with
  | none => ⟨.ok, lit "full-reset: removed " ++ entriesText n ++ lit "\n"⟩
  | some pattern =>
    ⟨if n = 0 then .notFound else .ok,
      lit "purge " ++ pattern ++ lit ": removed " ++ entriesText n ++ lit "\n"⟩

/-- What `cacher_admin_handle` runs. -/
inductive AdminRuns (depth : Nat) (r : RequestRec) (root action : CString) :
    FileProg AdminAnswer → Prop where
  | deletes {ctx : AdminCtx} (hdeletes : DeletesFor action ctx) :
      AdminRuns depth r root action
        (walkCache r depth ctx root >>= fun ctx' => pure (removedAnswer ctx.pattern ctx'.matched))
  | lists (hlist : action = lit "/list") (hno : ∀ ctx, ¬ DeletesFor action ctx) :
      AdminRuns depth r root action
        (walkCache r depth AdminCtx.list root >>= fun ctx => pure (listAnswer ctx))
  | answers (hlist : action ≠ lit "/list") (hno : ∀ ctx, ¬ DeletesFor action ctx)
      (answer : AdminAnswer) :
      AdminRuns depth r root action (pure answer)

theorem cacherAdminHandle_runs (depth : Nat) (r : RequestRec) (root action : CString) :
    AdminRuns depth r root action (cacherAdminHandle depth r (some root) action) := by
  unfold cacherAdminHandle
  dsimp only
  split
  · rename_i hempty
    refine .answers (by rintro rfl; rcases hempty with h | h <;> cases h) (fun ctx h => ?_) _
    cases h with
    | fullReset => rcases hempty with h | h <;> cases h
    | purge _ _ =>
        rcases hempty with h | h
        · cases h
        · cases (List.cons.inj h).2
  split
  · rename_i hlist
    refine .lists hlist fun ctx h => ?_
    subst hlist
    generalize haction : lit "/list" = action at h
    cases h with
    | fullReset => cases haction
    | purge _ _ => cases haction
  rename_i hlist
  split
  · rename_i hreset
    subst hreset
    exact .deletes .fullReset
  rename_i hreset
  cases hstrip : stripPrefix (lit "/purge") action with
  | none =>
      refine .answers hlist (fun ctx h => ?_) _
      cases h with
      | fullReset => exact hreset rfl
      | purge _ _ =>
          rw [stripPrefix_append] at hstrip
          cases hstrip
  | some pattern =>
      obtain rfl := stripPrefix_eq_some.mp hstrip
      dsimp only
      split
      · rename_i hnone
        refine .answers hlist (fun ctx h => ?_) _
        generalize haction : lit "/purge" ++ pattern = action at h
        cases h with
        | fullReset => cases haction
        | purge hne hslash =>
            obtain rfl := List.append_cancel_left haction
            exact hnone.elim hne hslash
      · rename_i hsome
        obtain ⟨hne, hslash⟩ := not_or.mp hsome
        exact .deletes (.purge hne hslash)

theorem DeletesFor.unique {action : CString} {ctx ctx' : AdminCtx} (h : DeletesFor action ctx)
    (h' : DeletesFor action ctx') : ctx = ctx' := by
  cases h with
  | fullReset =>
      generalize haction : lit "/full-reset" = action at h'
      cases h' with
      | fullReset => rfl
      | purge _ _ => cases haction
  | @purge pattern _ _ =>
      generalize haction : lit "/purge" ++ pattern = action at h'
      cases h' with
      | fullReset => cases haction
      | purge _ _ => rw [List.append_cancel_left haction]

theorem UnderAdminPath.unique {r : RequestRec} {dconf dconf' : CacherDirConf}
    {action action' : CString} (h : UnderAdminPath r dconf action)
    (h' : UnderAdminPath r dconf' action') : dconf' = dconf ∧ action' = action := by
  obtain rfl : dconf' = dconf := Option.some.inj (h'.1.symm.trans h.1)
  exact ⟨rfl, Option.some.inj (h'.2.symm.trans h.2)⟩

theorem Visit.Deletes.unique {v : Visit} {ctx ctx' : AdminCtx} (h : v.Deletes ctx)
    (h' : v.Deletes ctx') : ctx = ctx' := by
  obtain ⟨-, dconf, action, hunder, -, hdeletes⟩ := h
  obtain ⟨-, dconf', action', hunder', -, hdeletes'⟩ := h'
  obtain ⟨rfl, rfl⟩ := hunder.unique hunder'
  exact hdeletes.unique hdeletes'

/-- An admin request does not use the cache. -/
theorem UnderAdminPath.not_mayUseCache {env : Env} {r : RequestRec} {dconf : CacherDirConf}
    {action : CString} (h : UnderAdminPath r dconf action) (dconf' : CacherDirConf)
    (rule : CacherRule) : ¬ MayUseCache env r dconf' rule := by
  intro hmay
  obtain rfl : dconf' = dconf := Option.some.inj (hmay.conf_eq.symm.trans h.1)
  have haction := h.2
  rw [hmay.notAdmin] at haction
  cases haction

theorem Visit.Deletes.not_mayUseCache {v : Visit} {ctx : AdminCtx} (h : v.Deletes ctx)
    (dconf : CacherDirConf) (rule : CacherRule) : ¬ MayUseCache v.env v.request dconf rule := by
  obtain ⟨-, dconf', action, hunder, -⟩ := h
  exact hunder.not_mayUseCache dconf rule

/-- An admin request behind an open gate deletes for its action. -/
theorem Visit.deletes_iff {v : Visit} (hsub : v.request.main = false) {dconf : CacherDirConf}
    {action : CString} (hunder : UnderAdminPath v.request dconf action)
    (hopen : ¬ (dconf.adminRequireUser ≠ some false ∧ v.request.user = none)) (ctx : AdminCtx) :
    v.Deletes ctx ↔ DeletesFor action ctx := by
  constructor
  · rintro ⟨-, dconf', action', hunder', -, hdeletes⟩
    obtain ⟨rfl, rfl⟩ := hunder.unique hunder'
    exact hdeletes
  · exact fun hdeletes => ⟨hsub, dconf, action, hunder, hopen, hdeletes⟩

/-- An admin request deletes the pages that its action selects, or none. -/
theorem Holds.serve_admin (h : Holds root pages w.fs) (hne : root ≠ []) (hok : w.script.AllOk)
    {v : Visit} (hroot : v.request.cacheRoot = some root) (hdepth : 3 ≤ v.env.walkDepth)
    (hsub : v.request.main = false) {dconf : CacherDirConf} {action : CString}
    (hunder : UnderAdminPath v.request dconf action) :
    After (serveRequest v.env v.request v.reply.calls) w fun answer w' =>
      ∃ change, Served.Does ⟨v, w, answer, w'⟩ pages change
        ∧ Holds root (change.apply pages) w'.fs := by
  have hno : ∀ dconf rule, ¬ MayUseCache v.env v.request dconf rule := hunder.not_mayUseCache
  unfold serveRequest
  rw [cacherHandler_of_underAdminPath v.env hsub hunder, handleAdmin]
  split
  · rename_i hclosed
    refine Prog.after_pure.mpr ⟨_, .declined hno (fun ctx hdeletes => ?_) rfl, h⟩
    obtain ⟨-, dconf', action', hunder', hopen, -⟩ := hdeletes
    obtain ⟨rfl, rfl⟩ := hunder.unique hunder'
    exact hopen hclosed
  · rename_i hopen
    have hdeletes_iff := Visit.deletes_iff hsub hunder hopen
    rw [hroot, bind_assoc]
    have hruns := cacherAdminHandle_runs v.env.walkDepth v.request root action
    generalize cacherAdminHandle v.env.walkDepth v.request (some root) action = p at hruns ⊢
    cases hruns with
    | deletes hdeletes =>
        have hswitch : ∀ {ctx}, DeletesFor action ctx → ctx.deleteMatches = true := by
          rintro ctx (_ | _) <;> rfl
        have hwalk : After (walkCache v.request v.env.walkDepth _ root) w fun _ w' =>
            Holds root (Store.Change.apply pages _) w'.fs :=
          h.walk hne hok v.request hdepth (hswitch hdeletes)
        rw [bind_assoc]
        refine Prog.after_bind.mpr (hwalk.mono fun ctx w₁ h₁ => Prog.after_pure.mpr ?_)
        exact ⟨_, .deleted ((hdeletes_iff _).mpr hdeletes) rfl, h₁⟩
    | lists _ hlists =>
        have hwalk : After (walkCache v.request v.env.walkDepth AdminCtx.list root) w fun _ w' =>
            w'.fs = w.fs := walkCache_idle (Or.inl rfl) _ root w
        rw [bind_assoc]
        refine Prog.after_bind.mpr (hwalk.mono fun ctx w₁ h₁ => Prog.after_pure.mpr ?_)
        refine ⟨_, .declined hno (fun ctx h => hlists ctx ((hdeletes_iff ctx).mp h)) rfl, ?_⟩
        rw [h₁]
        exact h
    | answers _ hanswers answer =>
        exact Prog.after_pure.mpr ⟨_, .declined hno
          (fun ctx h => hanswers ctx ((hdeletes_iff ctx).mp h)) rfl, h⟩

/-- The request belongs to the cache below `root`, and its walks reach every entry. -/
structure Visit.At (v : Visit) (root : CString) : Prop where
  root_eq : v.request.cacheRoot = some root
  depth_le : 3 ≤ v.env.walkDepth

/-- What one request does to the pages. -/
theorem Holds.serve (h : Holds root pages w.fs) (hne : root ≠ []) (hok : w.script.AllOk) {v : Visit}
    (hv : v.At root) :
    ∃ change, Served.Does ⟨v, w, (v.serve w).1, (v.serve w).2⟩ pages change
      ∧ Holds root (change.apply pages) (v.serve w).2.fs := by
  by_cases hadmin : v.request.main = false ∧ ∃ dconf action, UnderAdminPath v.request dconf action
  · obtain ⟨hsub, dconf, action, hunder⟩ := hadmin
    exact h.serve_admin hne hok hv.root_eq hv.depth_le hsub hunder
  · have hnot : v.request.main = true
        ∨ ∀ dconf action, ¬ UnderAdminPath v.request dconf action := by
      by_contra hno
      obtain ⟨hmain, hunder⟩ := not_or.mp hno
      push Not at hunder
      exact hadmin ⟨by simpa using hmain, hunder⟩
    have hsharded : EntriesInShards (v.serve w).2.fs :=
      ((inOrder_serveRequest v.env hnot v.reply.calls).entriesInShards
        (fun e hmade => absurd hmade List.not_mem_nil) h.sharded).1
    by_cases hmay : ∃ dconf rule, MayUseCache v.env v.request dconf rule
    · obtain ⟨dconf, rule, hmay⟩ := hmay
      exact h.serve_cache hok hv.root_eq hmay hsharded
    · push Not at hmay
      -- What is left is declined without a file call.
      have hdoes := cacherHandler_does v.env v.request
      have hserve : ∃ r, v.serve w = (HandlerResult.decline r, w) := by
        unfold Visit.serve serveRequest
        generalize cacherHandler v.env v.request = p at hdoes
        cases hdoes with
        | admin hsub hunder => exact absurd ⟨hsub, _, _, hunder⟩ hadmin
        | cache hyes => exact absurd hyes (hmay _ _)
        | decline _ _ _ => exact ⟨_, rfl⟩
      obtain ⟨r, hserve⟩ := hserve
      rw [hserve]
      refine ⟨_, .declined hmay (fun ctx hdeletes => ?_) rfl, h⟩
      obtain ⟨hsub, dconf, action, hunder, -⟩ := hdeletes
      exact hadmin ⟨hsub, dconf, action, hunder⟩

/-! ### Whole runs -/

/-- One request of a run without failures. -/
theorem serve_step (hne : root ≠ []) (pages : Pages) (w : World) (v : Visit) (hv : v.At root)
    (h : Holds root pages w.fs ∧ w.script.AllOk) :
    ∃ change, Served.Does ⟨v, w, (v.serve w).1, (v.serve w).2⟩ pages change
      ∧ Holds root (change.apply pages) (v.serve w).2.fs ∧ (v.serve w).2.script.AllOk := by
  obtain ⟨change, hdoes, h'⟩ := h.1.serve hne h.2 hv
  refine ⟨change, hdoes, h', ?_⟩
  rw [Visit.serve, run_script]
  exact h.2

/-- In every sequential run in which no file call fails, the cache behaves like a store of pages:
each request makes one change, and is answered from the pages that are stored by then. -/
theorem follows_serve (hne : root ≠ []) {visits : List Visit} (hvisits : ∀ v ∈ visits, v.At root)
    (hok : w.script.AllOk) (h : Holds root pages w.fs) :
    ∃ changes, Record.Follows Served.Does pages (Record.records Visit.serve visits w) changes
      ∧ Holds root (pages.run changes) (Record.lastState Visit.serve visits w).fs := by
  obtain ⟨changes, hfollows, hend, -⟩ := Record.exists_follows (serve_step hne) hvisits ⟨h, hok⟩
  exact ⟨changes, hfollows, hend⟩

namespace Served

/-- The request has missed, and its reply has been stored as `page` under the digest `d`. -/
def Puts (record : Served) (d : Digest) (page : Page) : Prop :=
  ∃ dconf rule, MayUseCache record.event.env record.event.request dconf rule
    ∧ record.answer.body = none ∧ record.event.Stores rule
    ∧ d = record.event.digest rule ∧ page = record.page rule

/-- The request neither replaces the page under `d` nor deletes it. -/
def Spares (record : Served) (d : Digest) (page : Page) : Prop :=
  (∀ other, ¬ record.Puts d other)
    ∧ ∀ ctx, record.event.Deletes ctx → ¬ page.SelectedBy ctx record.event.request.hostname

variable {record : Served} {change : Store.Change Digest Page}

theorem Does.put_iff (h : record.Does pages change) (d : Digest) (page : Page) :
    change = .put d page ↔ record.Puts d page := by
  constructor
  · intro hput
    cases h with
    | stored hmay _ hstores hanswer =>
        cases hput
        exact ⟨_, _, hmay, by rw [hanswer]; rfl, hstores, rfl, rfl⟩
    | hit _ _ _ _ _ | passed _ _ _ _ | deleted _ _ | declined _ _ _ => cases hput
  · rintro ⟨dconf, rule, hmay, hbody, hstores, rfl, rfl⟩
    cases h with
    | hit _ _ _ _ hanswer =>
        rw [hanswer] at hbody
        cases hbody
    | stored hmay' _ _ _ =>
        obtain ⟨-, rfl⟩ := hmay.unique hmay'
        rfl
    | passed hmay' _ hno _ =>
        obtain ⟨-, rfl⟩ := hmay.unique hmay'
        exact absurd hstores hno
    | deleted hdeletes _ => exact absurd hmay (hdeletes.not_mayUseCache _ _)
    | declined hno _ _ => exact absurd hmay (hno _ _)

theorem Does.spares_iff (h : record.Does pages change) (d : Digest) (page : Page) :
    change.Spares d page ↔ record.Spares d page := by
  have hputs := h.put_iff d
  have hkeeps : change = .keep → (∀ ctx, ¬ record.event.Deletes ctx) →
      (change.Spares d page ↔ record.Spares d page) := by
    rintro rfl hno
    refine iff_of_true trivial ⟨fun other hput => ?_, fun ctx hdeletes => absurd hdeletes (hno ctx)⟩
    cases (hputs other).mpr hput
  cases h with
  | hit hmay _ _ _ _ =>
      exact hkeeps rfl fun ctx hdeletes => hdeletes.not_mayUseCache _ _ hmay
  | passed hmay _ _ _ =>
      exact hkeeps rfl fun ctx hdeletes => hdeletes.not_mayUseCache _ _ hmay
  | declined _ hno _ => exact hkeeps rfl hno
  | stored hmay _ _ _ =>
      constructor
      · refine fun hother => ⟨fun other hput => ?_, fun ctx hdeletes =>
          absurd hmay (hdeletes.not_mayUseCache _ _)⟩
        cases (hputs other).mpr hput
        exact hother rfl
      · rintro ⟨hno, -⟩ rfl
        exact hno _ ((hputs _).mp rfl)
  | deleted hdeletes _ =>
      constructor
      · refine fun hspared => ⟨fun other hput => ?_, fun ctx hdeletes' => ?_⟩
        · cases (hputs other).mpr hput
        · rw [← hdeletes.unique hdeletes']
          exact hspared
      · exact fun hspared => hspared.2 _ hdeletes

/-- A request that may use the cache is served from it exactly when there is a fresh page under its
key, and then it is served that page. -/
theorem Does.answer_iff (h : record.Does pages change) {dconf : CacherDirConf}
    (hmay : MayUseCache record.event.env record.event.request dconf rule) :
    (record.answer.body ≠ none ↔ ∃ page, pages (record.event.digest rule) = some page
        ∧ page.FreshAt (record.before.clockAt 3))
      ∧ ∀ page, pages (record.event.digest rule) = some page →
        page.FreshAt (record.before.clockAt 3) →
        ∃ info block age, page.found = some (info, block)
          ∧ record.answer = serveHit (replayHeaders record.event.request block) dconf
            ⟨page.body, info.status, page.body.length, age⟩ := by
  have hmissed : ∀ dconf, (∀ page, pages (record.event.digest rule) = some page →
        ¬ page.FreshAt (record.before.clockAt 3)) → record.answer = record.event.missed dconf rule →
      (record.answer.body ≠ none ↔ ∃ page, pages (record.event.digest rule) = some page
        ∧ page.FreshAt (record.before.clockAt 3)) := by
    intro dconf hmiss hanswer
    rw [hanswer]
    exact iff_of_false (fun hbody => hbody rfl) fun ⟨page, hpage, hfresh⟩ => hmiss page hpage hfresh
  cases h with
  | hit hmay' hpage hfound hfresh hanswer =>
      obtain ⟨rfl, rfl⟩ := hmay.unique hmay'
      refine ⟨iff_of_true ?_ ⟨_, hpage, _, _, hfound, hfresh⟩, fun page hpage' _ => ?_⟩
      · rw [hanswer]
        exact Option.some_ne_none _
      · obtain rfl := Option.some.inj (hpage.symm.trans hpage')
        exact ⟨_, _, _, hfound, hanswer⟩
  | stored hmay' hmiss _ hanswer =>
      obtain ⟨rfl, rfl⟩ := hmay.unique hmay'
      exact ⟨hmissed _ hmiss hanswer, fun page hpage hfresh => absurd hfresh (hmiss page hpage)⟩
  | passed hmay' hmiss _ hanswer =>
      obtain ⟨rfl, rfl⟩ := hmay.unique hmay'
      exact ⟨hmissed _ hmiss hanswer, fun page hpage hfresh => absurd hfresh (hmiss page hpage)⟩
  | deleted hdeletes _ => exact absurd hmay (hdeletes.not_mayUseCache _ _)
  | declined hno _ _ => exact absurd hmay (hno _ _)

end Served

/-! ### A page and its purge -/

/-- A cache without a file holds no page. -/
theorem holds_of_no_files {fs : FileSystem} (h : fs.files = []) (root : CString) :
    Holds root Store.empty fs := by
  have hread : ∀ q, fs.read q = none := fun q => by rw [FileSystem.read, h]; rfl
  refine ⟨fun d => hread _, fun d => hread _, fun q b hb _ => ?_, fun e b hb => ?_⟩
  · rw [hread] at hb
    cases hb
  · rw [hread] at hb
    cases hb

theorem holds_cold (root : CString) : Holds root Store.empty World.cold.fs :=
  holds_of_no_files rfl root

/-- `GET /a`, and its page should it be generated. -/
def Visit.ofPage (body : Bytes) : Visit where
  env := Env.ofRules [CacherRule.ofTtl 60]
  request := RequestRec.page
  reply := ⟨[], ⟨200, [], none, false⟩, [.data body none], Reply.noEos_nil, by simp⟩

/-- `GET /cacher/purge/a`. -/
def Visit.ofPurge : Visit where
  env := Env.ofRules []
  request := RequestRec.admin (lit "/purge/a")
  reply := ⟨[], ⟨200, [], none, false⟩, [], Reply.noEos_nil, List.not_mem_nil⟩

theorem at_ofPage (body : Bytes) : (Visit.ofPage body).At (lit "/c") := ⟨rfl, Nat.le_refl 3⟩

theorem at_ofPurge : Visit.ofPurge.At (lit "/c") := ⟨rfl, Nat.le_refl 3⟩

/-- The page is stored and served, purged, and generated anew. -/
def Visit.pageThenPurge : List Visit :=
  [Visit.ofPage [104, 105], Visit.ofPage [106], Visit.ofPurge, Visit.ofPage [107]]

theorem at_pageThenPurge : ∀ v ∈ Visit.pageThenPurge, v.At (lit "/c") := by
  intro v hv
  simp only [Visit.pageThenPurge, List.mem_cons, List.not_mem_nil, or_false] at hv
  rcases hv with rfl | rfl | rfl | rfl
  · exact at_ofPage _
  · exact at_ofPage _
  · exact at_ofPurge
  · exact at_ofPage _

theorem follows_serve_pageThenPurge :
    ∃ changes, Record.Follows Served.Does Store.empty
        (Record.records Visit.serve Visit.pageThenPurge World.cold) changes
      ∧ Holds (lit "/c") (Store.empty.run changes)
        (Record.lastState Visit.serve Visit.pageThenPurge World.cold).fs :=
  follows_serve (by decide) at_pageThenPurge (fun _ _ => rfl) (holds_cold _)

/-- The request `record` of the run has stored `page` under the digest `d`, and no request since
has replaced or deleted it. -/
def LastStored (records : List Served) (d : Digest) (page : Page) : Prop :=
  ∃ front record back, records = front ++ record :: back ∧ record.Puts d page
    ∧ ∀ later ∈ back, later.Spares d page

/-- What a run from a cold cache leaves are the pages that were last stored. -/
theorem exists_holds_lastStored (hne : root ≠ []) {visits : List Visit}
    (hvisits : ∀ v ∈ visits, v.At root) (hok : w.script.AllOk)
    (hcold : Holds root Store.empty w.fs) :
    ∃ pages, Holds root pages (Record.lastState Visit.serve visits w).fs
      ∧ (Record.lastState Visit.serve visits w).script.AllOk
      ∧ ∀ d page, pages d = some page
        ↔ LastStored (Record.records Visit.serve visits w) d page := by
  obtain ⟨changes, hfollows, hend, hok'⟩ :=
    Record.exists_follows (serve_step hne) hvisits ⟨hcold, hok⟩
  refine ⟨_, hend, hok', fun d page => ?_⟩
  rw [hfollows.run_eq_some_iff (fun record s change d page h => h.put_iff d page)
    fun record s change d page h _ => h.spares_iff d page]
  refine or_iff_left ?_
  rintro ⟨hno, -⟩
  cases hno

/-- From a cold cache, a request is served from the cache exactly when the page that was last
stored under its key has neither been deleted nor expired. Then it is served that page. -/
theorem served_iff (hne : root ≠ []) {visits : List Visit} (hvisits : ∀ v ∈ visits, v.At root)
    (hok : w.script.AllOk) (hcold : Holds root Store.empty w.fs) {v : Visit} (hv : v.At root)
    {dconf : CacherDirConf} (hmay : MayUseCache v.env v.request dconf rule) :
    ((v.serve (Record.lastState Visit.serve visits w)).1.body ≠ none
        ↔ ∃ page, LastStored (Record.records Visit.serve visits w) (v.digest rule) page
          ∧ page.FreshAt ((Record.lastState Visit.serve visits w).clockAt 3))
      ∧ ∀ page, LastStored (Record.records Visit.serve visits w) (v.digest rule) page →
        page.FreshAt ((Record.lastState Visit.serve visits w).clockAt 3) →
        ∃ info block age, page.found = some (info, block)
          ∧ (v.serve (Record.lastState Visit.serve visits w)).1
            = serveHit (replayHeaders v.request block) dconf
              ⟨page.body, info.status, page.body.length, age⟩ := by
  obtain ⟨pages, hend, hok', hstored⟩ := exists_holds_lastStored hne hvisits hok hcold
  obtain ⟨change, hdoes, -⟩ := hend.serve hne hok' hv
  obtain ⟨hiff, hanswer⟩ := hdoes.answer_iff hmay
  simp only [hstored] at hiff hanswer
  exact ⟨hiff, hanswer⟩

/-- The page that is served behind the purge has been stored behind it. -/
theorem served_iff_pageThenPurge :
    ∃ page, LastStored (Record.records Visit.serve Visit.pageThenPurge World.cold)
        ((Visit.ofPage []).digest (CacherRule.ofTtl 60)) page
      ∧ page.FreshAt
        ((Record.lastState Visit.serve Visit.pageThenPurge World.cold).clockAt 3) := by
  have hmay : MayUseCache (Visit.ofPage []).env (Visit.ofPage []).request CacherDirConf.sample
      (CacherRule.ofTtl 60) :=
    ⟨rfl, rfl, rfl, Or.inl rfl, rfl, ⟨⟨[CacherRule.ofTtl 60]⟩, rfl, by decide⟩, rfl, rfl⟩
  exact (served_iff (by decide) at_pageThenPurge (fun _ _ => rfl) (holds_cold _) (at_ofPage [])
    hmay).1.mp (by decide +kernel)

end Holds

end Cacher
