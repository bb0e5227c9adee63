import Cacher.Provenance
import Cacher.Tool

/-!
# `Cacher.Traffic`: everything that works on the cache at the same time

A `Client` is a request with everything the module does for it, from the handler to the last
call of the capture filter, or a run of the command line tool. The clients of a server run
interleaved, one file call at a time. Administration requests are requests like any other.

The order in which a request makes its calls does not depend on what it is answered.
`Orderly` says what must lie behind each call: an entry's body is opened behind its header, a
header is put in place behind the body of the same entry, and behind the directory that both
are in, and nothing is looked up any more once a file has been put in place.
-/

set_option autoImplicit false

namespace Cacher

open CText Files

/-! ### The clients -/

/-- One request: the handler, and the calls of the filter that it has added. Each call comes
with the answer of the other modules as it is at that time. -/
def serveRequest (env : Env) (r : RequestRec) (calls : List (Answer × List Bucket)) :
    FileProg HandlerResult := do
  let result ← cacherHandler env r
  match result.filter with
  | none => pure result
  | some ctx =>
    let _ ← captureResponse ctx (calls.map fun call => (r.withAnswer call.1, call.2))
    pure result

/-- One of the programs that work on the cache. -/
inductive Client where
  | http (env : Env) (r : RequestRec) (calls : List (Answer × List Bucket))
  | tool (py : Tool.Python) (depth : Nat) (args : Tool.PurgeArgs)

/-- What a client ends with. -/
inductive Ended where
  | served (result : HandlerResult)
  | purged (ending : Tool.Ending)

/-- What the client runs. -/
def Client.prog : Client → FileProg Ended
  | .http env r calls => do
    let result ← serveRequest env r calls
    pure (.served result)
  | .tool py depth args => do
    let ending ← Tool.cmdPurge py depth args
    pure (.purged ending)

/-- The clients of a server, and how far each of them is. -/
abbrev Serving : Type := Prog.Pool World FileOp Ans Ended

/-- All clients before their first call. -/
def Serving.start (clients : List Client) (w : World) : Serving := ⟨clients.map Client.prog, w⟩

/-- The state after an interleaving. -/
abbrev Serving.after (c : Serving) (schedule : List Nat) : Serving :=
  Prog.Pool.run World.answer c schedule

/-- The next call of client `i`. -/
def Serving.nextOp (c : Serving) (i : Nat) : Option FileOp := c.threads[i]?.bind Prog.nextOp?

/-- The client is a request that the handler takes for administration. -/
def Client.Administers : Client → Prop
  | .http _ r _ => r.main = false ∧ ∃ dconf action, UnderAdminPath r dconf action
  | .tool _ _ _ => False

/-! ### The names of the files -/

/-- The names that the module gives to its files. -/
inductive CacheName : Path → Prop where
  | header (e : EntryPaths) : CacheName e.headerPath
  | body (e : EntryPaths) : CacheName e.bodyPath
  | tmpHeader (e : EntryPaths) (suffix : TempSuffix) : CacheName (e.tmpHeaderPath suffix)
  | tmpBody (e : EntryPaths) (suffix : TempSuffix) : CacheName (e.tmpBodyPath suffix)

/-- Files are made under temporary names, written there, and moved to the names of the entry. -/
def KeepsNames : FileOp → Prop
  | .mktemp template => ∃ e : EntryPaths, template = e.headerPath ++ lit ".XXXXXX"
      ∨ template = e.bodyPath ++ lit ".XXXXXX"
  | .writeFull p _ => ∃ (e : EntryPaths) (suffix : TempSuffix),
      p = e.tmpHeaderPath suffix ∨ p = e.tmpBodyPath suffix
  | .rename src dst => ∃ (e : EntryPaths) (suffix : TempSuffix),
      src = e.tmpHeaderPath suffix ∧ dst = e.headerPath
        ∨ src = e.tmpBodyPath suffix ∧ dst = e.bodyPath
  | .timeNow | .openRead _ | .infoSize _ | .readFull _ _ | .remove _ | .stat _
  | .dirMakeRecursive _ | .dirRead _ => True

theorem keepsNames_of_onlyRemoves {op : FileOp} (h : op.OnlyRemoves) : KeepsNames op := by
  cases op with
  | timeNow | openRead _ | infoSize _ | readFull _ _ | remove _ | stat _ | dirRead _ => trivial
  | mktemp _ | writeFull _ _ | rename _ _ | dirMakeRecursive _ => exact h.elim

/-- How such a call can touch what is at `q`. -/
inductive TouchesName (q : Path) : FileOp → Prop where
  | remove : TouchesName q (.remove q)
  | tmpHeader {op : FileOp} (e : EntryPaths) (suffix : TempSuffix) (hq : q = e.tmpHeaderPath suffix) :
      TouchesName q op
  | tmpBody {op : FileOp} (e : EntryPaths) (suffix : TempSuffix) (hq : q = e.tmpBodyPath suffix) :
      TouchesName q op
  | header (e : EntryPaths) (suffix : TempSuffix) (hq : q = e.headerPath) :
      TouchesName q (.rename (e.tmpHeaderPath suffix) e.headerPath)
  | body (e : EntryPaths) (suffix : TempSuffix) (hq : q = e.bodyPath) :
      TouchesName q (.rename (e.tmpBodyPath suffix) e.bodyPath)

theorem KeepsNames.touchesName {op : FileOp} {q : Path} (h : KeepsNames op) (hq : op.Touches q) :
    TouchesName q op := by
  cases op with
  | timeNow | openRead _ | infoSize _ | readFull _ _ | stat _ | dirMakeRecursive _ | dirRead _ =>
      exact hq.elim
  | remove p =>
      obtain rfl := hq
      exact .remove
  | mktemp template =>
      obtain ⟨suffix, hname⟩ := hq
      obtain ⟨e, rfl | rfl⟩ := h
      · rw [tempName_template] at hname
        exact .tmpHeader e suffix (Option.some.inj hname).symm
      · rw [tempName_template] at hname
        exact .tmpBody e suffix (Option.some.inj hname).symm
  | writeFull p data =>
      obtain rfl := hq
      obtain ⟨e, suffix, hname | hname⟩ := h
      · exact .tmpHeader e suffix hname
      · exact .tmpBody e suffix hname
  | rename src dst =>
      obtain ⟨e, suffix, ⟨rfl, rfl⟩ | ⟨rfl, rfl⟩⟩ := h
      · rcases hq with hq | hq
        · exact .tmpHeader e suffix hq.symm
        · exact .header e suffix hq.symm
      · rcases hq with hq | hq
        · exact .tmpBody e suffix hq.symm
        · exact .body e suffix hq.symm

/-- The header of an entry changes only in a rename onto it or in its removal. -/
theorem KeepsNames.header {op : FileOp} {e : EntryPaths} (h : KeepsNames op)
    (hq : op.Touches e.headerPath) :
    (∃ src, op = .rename src e.headerPath) ∨ op = .remove e.headerPath := by
  cases h.touchesName hq with
  | remove => exact Or.inr rfl
  | tmpHeader e' suffix hname => exact absurd hname.symm (e'.tmpHeaderPath_ne_headerPath e suffix)
  | tmpBody e' suffix hname => exact absurd hname.symm (e'.tmpBodyPath_ne_headerPath e suffix)
  | header e' suffix hname => exact Or.inl ⟨_, by rw [hname]⟩
  | body e' suffix hname => exact absurd hname (e.headerPath_ne_bodyPath e')

/-- The body of an entry changes only in a rename onto it or in its removal. -/
theorem KeepsNames.body {op : FileOp} {e : EntryPaths} (h : KeepsNames op)
    (hq : op.Touches e.bodyPath) :
    (∃ src, op = .rename src e.bodyPath) ∨ op = .remove e.bodyPath := by
  cases h.touchesName hq with
  | remove => exact Or.inr rfl
  | tmpHeader e' suffix hname => exact absurd hname.symm (e'.tmpHeaderPath_ne_bodyPath e suffix)
  | tmpBody e' suffix hname => exact absurd hname.symm (e'.tmpBodyPath_ne_bodyPath e suffix)
  | header e' suffix hname => exact absurd hname.symm (e'.headerPath_ne_bodyPath e)
  | body e' suffix hname => exact Or.inl ⟨_, by rw [hname]⟩

/-! ### The order of the calls of a request -/

/-- The calls that a client has made. -/
abbrev Calls : Type := Prog.History FileOp Ans

/-- No file has been put in place. -/
def NoRename (l : Calls) : Prop := ∀ call ∈ l, ∀ src dst, call.1 ≠ .rename src dst

/-- The directory of the entry has been made. -/
def MadeShard (e : EntryPaths) (l : Calls) : Prop :=
  ⟨.dirMakeRecursive (FileSystem.dirname e.bodyPath), true⟩ ∈ l

/-- The header of the entry has been opened. -/
def FoundHeader (e : EntryPaths) (l : Calls) : Prop :=
  ∃ b : Bytes, ⟨.openRead e.headerPath, some b⟩ ∈ l

/-- The body of the entry has been put in place. -/
def PlacedBody (e : EntryPaths) (l : Calls) : Prop :=
  ∃ src, ⟨.rename src e.bodyPath, true⟩ ∈ l

/-- What lies behind each call of a request. -/
def Orderly (l : Calls) : FileOp → Prop
  | .openRead p => NoRename l ∧ ∀ e : EntryPaths, p = e.bodyPath → FoundHeader e l
  | .infoSize _ | .readFull _ _ => NoRename l
  | .mktemp template => ∃ e : EntryPaths, template = e.headerPath ++ lit ".XXXXXX"
      ∨ template = e.bodyPath ++ lit ".XXXXXX"
  | .writeFull p _ => ∃ (e : EntryPaths) (suffix : TempSuffix),
      p = e.tmpHeaderPath suffix ∨ p = e.tmpBodyPath suffix
  | .rename src dst => ∃ (e : EntryPaths) (suffix : TempSuffix),
      src = e.tmpHeaderPath suffix ∧ dst = e.headerPath ∧ MadeShard e l ∧ PlacedBody e l
        ∨ src = e.tmpBodyPath suffix ∧ dst = e.bodyPath
  | .timeNow | .remove _ | .stat _ | .dirMakeRecursive _ | .dirRead _ => True

theorem Orderly.keepsNames {l : Calls} {op : FileOp} (h : Orderly l op) : KeepsNames op := by
  cases op with
  | mktemp _ => exact h
  | writeFull _ _ => exact h
  | rename src dst =>
      obtain ⟨e, suffix, ⟨hsrc, hdst, -, -⟩ | ⟨hsrc, hdst⟩⟩ := h
      · exact ⟨e, suffix, Or.inl ⟨hsrc, hdst⟩⟩
      · exact ⟨e, suffix, Or.inr ⟨hsrc, hdst⟩⟩
  | timeNow | openRead _ | infoSize _ | readFull _ _ | remove _ | stat _ | dirMakeRecursive _
  | dirRead _ => trivial

/-- The program is in order, behind the calls `l`, and returns with `Q`. -/
abbrev InOrder {α : Type} (p : FileProg α) (l : Calls) (Q : α → Calls → Prop) : Prop :=
  Prog.Always Orderly Prog.Recording p l Q

section InOrder

variable {l : Calls}

theorem NoRename.snoc (h : NoRename l) (op : FileOp) (hop : ∀ src dst, op ≠ .rename src dst)
    (x : Ans op) : NoRename (l ++ [⟨op, x⟩]) := by
  intro call hcall
  rcases List.mem_append.mp hcall with hcall | hcall
  · exact h call hcall
  · rw [List.mem_singleton.mp hcall]
    exact hop

/-- Reading an entry's metadata finds it only in a header that has been opened. -/
theorem inOrder_cacherCacheReadMeta (e : EntryPaths) (hl : NoRename l) :
    InOrder (cacherCacheReadMeta e.headerPath) l fun found l' =>
      NoRename l' ∧ (found ≠ none → FoundHeader e l') := by
  refine Prog.always_bind.mpr ⟨⟨hl, fun e' h => absurd h (e.headerPath_ne_bodyPath e')⟩, ?_⟩
  rintro hf _ rfl
  have hl₁ := hl.snoc (.openRead e.headerPath) (by simp) hf
  cases hf with
  | none => exact ⟨hl₁, fun h => absurd rfl h⟩
  | some hf =>
      refine Prog.always_bind.mpr ⟨hl₁, ?_⟩
      rintro size _ rfl
      have hl₂ := hl₁.snoc (.infoSize hf) (by simp) size
      cases size with
      | none => exact ⟨hl₂, fun h => absurd rfl h⟩
      | some size =>
          show InOrder (if size = 0 then _ else _) _ _
          split
          · exact ⟨hl₂, fun h => absurd rfl h⟩
          refine Prog.always_bind.mpr ⟨hl₂, ?_⟩
          rintro buf _ rfl
          have hl₃ := hl₂.snoc (.readFull hf size) (by simp) buf
          cases buf with
          | none => exact ⟨hl₃, fun h => absurd rfl h⟩
          | some buf => exact ⟨hl₃, fun _ => ⟨hf, by simp⟩⟩

theorem inOrder_serveFresh (r : RequestRec) (e : EntryPaths) (info : CacherEntryMeta)
    (block : CString) (hl : NoRename l) (hfound : FoundHeader e l) :
    InOrder (serveFresh r e info block) l fun _ l' => NoRename l' := by
  refine Prog.always_bind.mpr ⟨⟨hl, fun e' h => ?_⟩, ?_⟩
  · -- The two entries have one stem.
    have hstem : e.stem = e'.stem := List.append_cancel_right h
    rw [FoundHeader, EntryPaths.headerPath, ← hstem]
    exact hfound
  rintro bf _ rfl
  have hl₁ := hl.snoc (.openRead e.bodyPath) (by simp) bf
  cases bf with
  | none => exact hl₁
  | some bf =>
      refine Prog.always_bind.mpr ⟨hl₁, ?_⟩
      rintro length _ rfl
      have hl₂ := hl₁.snoc (.infoSize bf) (by simp) length
      cases length with
      | none => exact hl₂
      | some length =>
          show InOrder (if 0 < info.created then _ else _) _ _
          split
          · refine Prog.always_bind.mpr ⟨trivial, ?_⟩
            rintro now _ rfl
            exact hl₂.snoc .timeNow (by simp) now
          · exact hl₂

theorem inOrder_cacherCacheLookup (md5 : CString → Digest) (r : RequestRec)
    (cacheRoot : Option CString) (rule : CacherRule) (hl : NoRename l) :
    InOrder (cacherCacheLookup md5 r cacheRoot rule) l fun _ l' => NoRename l' := by
  unfold cacherCacheLookup
  cases cacheKeyPaths md5 r cacheRoot rule with
  | none => exact hl
  | some e =>
      refine Prog.always_bind.mpr ((inOrder_cacherCacheReadMeta e hl).mono fun found l₁ h₁ => ?_)
      obtain ⟨hl₁, hfound⟩ := h₁
      cases found with
      | none => exact hl₁
      | some found =>
          refine Prog.always_bind.mpr ⟨trivial, ?_⟩
          rintro now _ rfl
          have hl₂ := hl₁.snoc .timeNow (by simp) now
          show InOrder (if found.1.expires ≤ now then _ else _) _ _
          split
          · exact hl₂
          · obtain ⟨b, hb⟩ := hfound (Option.some_ne_none _)
            exact inOrder_serveFresh r e _ _ hl₂ ⟨b, List.mem_append_left _ hb⟩

/-! A capture opens its temporary file behind the directory of its entry. -/

/-- What is behind a capture for the entry `e`. -/
structure InShard (e : EntryPaths) (l : Calls) (ctx : CacherOutCtx) : Prop where
  paths_eq : ctx.paths = e
  made : ctx.tmpBody ≠ none → MadeShard e l

variable {e : EntryPaths}

theorem MadeShard.snoc (h : MadeShard e l) (op : FileOp) (x : Ans op) :
    MadeShard e (l ++ [⟨op, x⟩]) := List.mem_append_left _ h

theorem inOrder_publishEntry (hmade : MadeShard e l) (tmpBody tmpHeader : TempSuffix) :
    InOrder (publishEntry e tmpBody tmpHeader) l fun _ l' => MadeShard e l' := by
  refine Prog.always_bind.mpr ⟨⟨e, tmpBody, Or.inr ⟨rfl, rfl⟩⟩, ?_⟩
  rintro moved _ rfl
  have hmade₁ := hmade.snoc (.rename (e.tmpBodyPath tmpBody) e.bodyPath) moved
  cases moved with
  | false => exact hmade₁
  | true =>
      refine ⟨⟨e, tmpHeader, Or.inl ⟨rfl, rfl, hmade₁, e.tmpBodyPath tmpBody, by simp⟩⟩, ?_⟩
      rintro moved _ rfl
      exact hmade₁.snoc _ moved

theorem inOrder_finalizeCacheEntry (r : RequestRec) {ctx : CacherOutCtx} (hpaths : ctx.paths = e)
    (tmpBody : TempSuffix) (hmade : MadeShard e l) :
    InOrder (finalizeCacheEntry r ctx tmpBody) l fun _ l' => MadeShard e l' := by
  subst hpaths
  -- One removal and the end.
  have hgiveUp : ∀ l, MadeShard ctx.paths l →
      InOrder (remove (ctx.paths.tmpBodyPath tmpBody) >>= fun _ => pure false : FileProg Bool) l
        fun _ l' => MadeShard ctx.paths l' := by
    intro l hmade
    refine Prog.always_bind.mpr ⟨trivial, ?_⟩
    rintro removed _ rfl
    exact hmade.snoc _ removed
  unfold finalizeCacheEntry
  split
  · exact hgiveUp l hmade
  split
  · exact hgiveUp l hmade
  refine Prog.always_bind.mpr ⟨trivial, ?_⟩
  rintro created _ rfl
  refine Prog.always_bind.mpr ⟨trivial, ?_⟩
  rintro now _ rfl
  have hmade₂ := (hmade.snoc .timeNow created).snoc .timeNow now
  refine Prog.always_bind.mpr ⟨⟨ctx.paths, Or.inl rfl⟩, ?_⟩
  rintro tmpHeader _ rfl
  have hmade₃ := hmade₂.snoc (.mktemp (ctx.paths.headerPath ++ lit ".XXXXXX")) tmpHeader
  cases tmpHeader with
  | none => exact hgiveUp _ hmade₃
  | some tmpHeader =>
      refine Prog.always_bind.mpr ⟨⟨ctx.paths, tmpHeader, Or.inl rfl⟩, ?_⟩
      rintro written _ rfl
      have hmade₄ := hmade₃.snoc (.writeFull (ctx.paths.tmpHeaderPath tmpHeader) _) written
      cases written with
      | false =>
          refine Prog.always_bind.mpr ⟨trivial, ?_⟩
          rintro removed _ rfl
          exact hgiveUp _ (hmade₄.snoc _ removed)
      | true =>
          refine Prog.always_bind.mpr ((inOrder_publishEntry hmade₄ _ _).mono fun moved l₅ hmade₅ => ?_)
          cases moved with
          | true => exact hmade₅
          | false =>
              refine Prog.always_bind.mpr ⟨trivial, ?_⟩
              rintro removed _ rfl
              refine Prog.always_bind.mpr ⟨trivial, ?_⟩
              rintro removed' _ rfl
              refine Prog.always_bind.mpr ⟨trivial, ?_⟩
              rintro removed'' _ rfl
              exact ((hmade₅.snoc _ removed).snoc _ removed').snoc _ removed''

theorem inOrder_startCapture (r : RequestRec) {ctx : CacherOutCtx} (h : InShard e l ctx) :
    InOrder (startCapture r ctx) l fun ctx' l' => InShard e l' ctx' := by
  obtain ⟨rfl, hmade⟩ := h
  have hclosed : ∀ l', InShard ctx.paths l' { ctx with started := true, tmpBody := none } :=
    fun l' => ⟨rfl, fun h => absurd rfl h⟩
  unfold startCapture
  split
  · exact ⟨rfl, hmade⟩
  split
  · refine Prog.always_bind.mpr ⟨trivial, ?_⟩
    rintro made _ rfl
    cases made with
    | false => exact hclosed _
    | true =>
        refine Prog.always_bind.mpr ⟨⟨ctx.paths, Or.inr rfl⟩, ?_⟩
        rintro tmpBody _ rfl
        exact ⟨rfl, fun _ => by simp [MadeShard]⟩
  · exact hclosed l

theorem inOrder_captureBucket (r : RequestRec) {ctx : CacherOutCtx} (h : InShard e l ctx)
    (bucket : Bucket) :
    InOrder (captureBucket r ctx bucket) l fun ctx' l' => InShard e l' ctx' := by
  unfold captureBucket
  cases htmp : ctx.tmpBody with
  | none => exact h
  | some tmpBody =>
      have hmade : MadeShard e l := h.made (by rw [htmp]; exact Option.some_ne_none _)
      cases bucket with
      | metadata => exact h
      | eos =>
          exact Prog.always_bind.mpr ((inOrder_finalizeCacheEntry r h.paths_eq tmpBody hmade).mono
            fun published l' hmade' => ⟨h.paths_eq, fun _ => hmade'⟩)
      | data content failure =>
          -- What follows a write that has or has not been made.
          have hend : ∀ (stored : Bool) (l : Calls), MadeShard e l →
              InOrder (if stored then
                  pure { ctx with bodyLen := ctx.bodyLen + failure.getD content.length }
                else if 0 < failure.getD content.length then do
                  let _ ← remove (ctx.paths.tmpBodyPath tmpBody)
                  pure { ctx with tmpBody := none }
                else pure ctx : FileProg CacherOutCtx) l fun ctx' l' => InShard e l' ctx' := by
            intro stored l hmade
            split
            · exact ⟨h.paths_eq, fun _ => hmade⟩
            split
            · refine Prog.always_bind.mpr ⟨trivial, ?_⟩
              rintro removed _ rfl
              exact ⟨h.paths_eq, fun hno => absurd rfl hno⟩
            · exact ⟨h.paths_eq, fun _ => hmade⟩
          show InOrder (if failure = none ∧ 0 < failure.getD content.length then _ else _) _ _
          split
          · refine Prog.always_bind.mpr ⟨⟨ctx.paths, tmpBody, Or.inr rfl⟩, ?_⟩
            rintro stored _ rfl
            exact hend stored _ (hmade.snoc _ stored)
          · exact hend false l hmade

theorem inOrder_cacherOutputFilter (r : RequestRec) {ctx : CacherOutCtx} (h : InShard e l ctx)
    (bb : List Bucket) :
    InOrder (cacherOutputFilter r ctx bb) l fun ctx' l' => InShard e l' ctx' :=
  Prog.always_bind.mpr ((inOrder_startCapture r h).mono fun _ _ h₁ =>
    Prog.always_foldlM (I := fun _ ctx' l' => InShard e l' ctx') h₁ fun _ bucket _ _ h₂ _ =>
      inOrder_captureBucket r h₂ bucket)

end InOrder

/-- Whatever has been called before it, a fresh context makes its calls in order. -/
theorem inOrder_captureResponse {ctx : CacherOutCtx} (hclosed : ctx.tmpBody = none)
    (calls : List (RequestRec × List Bucket)) (l : Calls) :
    InOrder (captureResponse ctx calls) l fun _ _ => True := by
  have hctx : InShard ctx.paths l ctx := ⟨rfl, fun h => absurd hclosed h⟩
  exact (Prog.always_foldlM (I := fun _ ctx' l' => InShard ctx.paths l' ctx') hctx
    fun _ call _ _ h _ => inOrder_cacherOutputFilter call.1 h call.2).mono fun _ _ _ => trivial

/-- A request that is not for the administration makes its calls in order. -/
theorem inOrder_serveRequest (env : Env) {r : RequestRec}
    (hadmin : r.main = true ∨ ∀ dconf action, ¬ UnderAdminPath r dconf action)
    (calls : List (Answer × List Bucket)) :
    InOrder (serveRequest env r calls) [] fun _ _ => True := by
  have hnil : NoRename [] := fun call hcall => absurd hcall List.not_mem_nil
  -- What follows the handler.
  have hcapture : ∀ (result : HandlerResult) (l : Calls),
      (∀ ctx, result.filter = some ctx → ctx.tmpBody = none) →
      InOrder (match result.filter with
        | none => pure result
        | some ctx => do
          let _ ← captureResponse ctx (calls.map fun call => (r.withAnswer call.1, call.2))
          pure result : FileProg HandlerResult) l fun _ _ => True := by
    intro result l hclosed
    cases hfilter : result.filter with
    | none => trivial
    | some ctx =>
        exact Prog.always_bind.mpr ((inOrder_captureResponse (hclosed ctx hfilter) _ l).mono
          fun _ _ _ => trivial)
  unfold serveRequest
  have hdoes := cacherHandler_does env r
  generalize cacherHandler env r = p at hdoes
  cases hdoes with
  | admin hsub hunder =>
      rcases hadmin with hmain | hadmin
      · rw [hsub] at hmain
        cases hmain
      · exact absurd hunder (hadmin _ _)
  | @cache dconf rule hmay =>
      unfold handleCacheable
      rw [bind_assoc]
      refine Prog.always_bind.mpr ((inOrder_cacherCacheLookup _ _ _ _ hnil).mono fun out l _ => ?_)
      obtain ⟨r', hit⟩ := out
      cases hit with
      | some hit => exact hcapture (serveHit r' dconf hit) l fun ctx h => by cases h
      | none =>
          refine hcapture _ l fun ctx h => ?_
          -- The filter starts from a fresh context.
          simp only [cacherCacheInsertFilter] at h
          split at h
          · cases h
          split at h
          · cases h
          obtain ⟨paths, -, rfl⟩ := Option.map_eq_some_iff.mp h
          rfl
  | @decline r' _ _ _ => exact hcapture (HandlerResult.decline r') [] fun ctx h => by cases h

/-- The handler serves an admin request as `handleAdmin` says. -/
theorem cacherHandler_of_underAdminPath (env : Env) {r : RequestRec} {dconf : CacherDirConf}
    {action : CString} (hsub : r.main = false) (hadmin : UnderAdminPath r dconf action) :
    cacherHandler env r = handleAdmin env r dconf action := by
  unfold cacherHandler
  rw [hsub, hadmin.1]
  dsimp only
  rw [hadmin.2]
  rfl

/-- Behind an open gate, an admin request runs `cacher_admin_handle`. -/
theorem prog_of_open (env : Env) {r : RequestRec} (calls : List (Answer × List Bucket))
    {dconf : CacherDirConf} {action : CString} (hsub : r.main = false)
    (hadmin : UnderAdminPath r dconf action)
    (hopen : ¬ (dconf.adminRequireUser ≠ some false ∧ r.user = none)) :
    ∃ result : AdminAnswer → HandlerResult, (Client.http env r calls).prog
      = cacherAdminHandle env.walkDepth r r.cacheRoot action >>= fun answer =>
        pure (.served (result answer)) := by
  rw [Client.prog, serveRequest, cacherHandler_of_underAdminPath env hsub hadmin, handleAdmin,
    if_neg hopen, bind_assoc, bind_assoc]
  exact ⟨_, rfl⟩

/-- What an admin request runs: nothing behind a closed gate, and else `cacher_admin_handle`. -/
theorem prog_of_administers (env : Env) {r : RequestRec} (calls : List (Answer × List Bucket))
    {dconf : CacherDirConf} {action : CString} (hsub : r.main = false)
    (hadmin : UnderAdminPath r dconf action) :
    (∃ ended, (Client.http env r calls).prog = pure ended)
      ∨ ∃ ended : AdminAnswer → Ended, (Client.http env r calls).prog
        = cacherAdminHandle env.walkDepth r r.cacheRoot action >>= fun answer => pure (ended answer) := by
  by_cases hclosed : dconf.adminRequireUser ≠ some false ∧ r.user = none
  · rw [Client.prog, serveRequest, cacherHandler_of_underAdminPath env hsub hadmin, handleAdmin,
      if_pos hclosed]
    exact Or.inl ⟨_, rfl⟩
  · obtain ⟨result, h⟩ := prog_of_open env calls hsub hadmin hclosed
    exact Or.inr ⟨_, h⟩

/-- The administration and the command line tool only read and remove. -/
theorem onlyRemoves_prog {client : Client}
    (h : client.Administers ∨ ∃ py depth args, client = .tool py depth args) :
    OnlyRemoves client.prog := by
  rcases h with h | ⟨py, depth, args, rfl⟩
  · cases client with
    | tool py depth args => exact h.elim
    | http env r calls =>
        obtain ⟨hsub, dconf, action, hadmin⟩ := h
        rcases prog_of_administers env calls hsub hadmin with ⟨_, h⟩ | ⟨_, h⟩
        · rw [h]
          exact Prog.uses_pure _ _
        · rw [h]
          exact Prog.uses_bind (onlyRemoves_cacherAdminHandle _ r _ action) fun _ =>
            Prog.uses_pure _ _
  · exact Prog.uses_bind (Tool.onlyRemoves_cmdPurge py depth args) fun _ => Prog.uses_pure _ _

/-- The client is a request that is not for the administration. -/
def Client.Visits : Client → Prop
  | .http env r calls => ¬ (Client.http env r calls).Administers
  | .tool _ _ _ => False

theorem inOrder_prog {client : Client} (h : client.Visits) :
    InOrder client.prog [] fun _ _ => True := by
  cases client with
  | tool py depth args => exact h.elim
  | http env r calls =>
      refine Prog.always_bind.mpr ((inOrder_serveRequest env ?_ calls).mono fun _ _ _ => trivial)
      by_contra hadmin
      obtain ⟨hmain, hadmin⟩ := not_or.mp hadmin
      push Not at hadmin
      obtain ⟨dconf, action, hunder⟩ := hadmin
      exact h ⟨by simpa using hmain, dconf, action, hunder⟩

/-- A client only reads and removes, or it makes its calls in order. -/
theorem onlyRemoves_or_inOrder (client : Client) :
    OnlyRemoves client.prog ∨ InOrder client.prog [] fun _ _ => True := by
  cases client with
  | tool py depth args => exact Or.inl (onlyRemoves_prog (Or.inr ⟨py, depth, args, rfl⟩))
  | http env r calls =>
      by_cases h : (Client.http env r calls).Administers
      · exact Or.inl (onlyRemoves_prog (Or.inl h))
      · exact Or.inr (inOrder_prog h)

/-- Every client keeps to the names of the cache. -/
theorem keepsNames_prog (client : Client) : Prog.Uses KeepsNames client.prog := by
  rcases onlyRemoves_or_inOrder client with h | h
  · exact h.mono fun _ => keepsNames_of_onlyRemoves
  · exact h.uses fun _ _ => Orderly.keepsNames

/-! ### Entries and their directories -/

/-- The directories that an entry is under exist. -/
structure ShardIn (fs : FileSystem) (e : EntryPaths) : Prop where
  root : e.cacheRoot ≠ [] → e.cacheRoot ∈ fs.dirs
  outer : e.outerShard ∈ fs.dirs
  inner : e.shard ∈ fs.dirs

/-- Every entry is in its directory. -/
def EntriesInShards (fs : FileSystem) : Prop :=
  ∀ (e : EntryPaths) b, fs.read e.headerPath = some b → ShardIn fs e

/-- The directories that the calls have made exist. -/
def ShardsMade (l : Calls) (fs : FileSystem) : Prop := ∀ e, MadeShard e l → ShardIn fs e

section Shards

variable {w : World} {op : FileOp} {e : EntryPaths}

theorem ShardIn.mono {fs fs' : FileSystem} (h : ShardIn fs e) (hdirs : fs.dirs ⊆ fs'.dirs) :
    ShardIn fs' e := ⟨fun hroot => hdirs (h.root hroot), hdirs h.outer, hdirs h.inner⟩

theorem ShardIn.answer (h : ShardIn w.fs e) (op : FileOp) : ShardIn (w.answer op).2.fs e :=
  h.mono (w.dirs_subset_answer op)

/-- Entries in the same directory are under the same directories. -/
theorem ShardIn.of_shard {fs : FileSystem} {e' : EntryPaths} (h : ShardIn fs e)
    (hinner : e.shard = e'.shard) : ShardIn fs e' := by
  have houter := congrArg FileSystem.dirname hinner
  rw [e.dirname_shard, e'.dirname_shard] at houter
  have hroot := congrArg FileSystem.dirname houter
  rw [e.dirname_outerShard, e'.dirname_outerShard] at hroot
  exact ⟨hroot ▸ h.root, houter ▸ h.outer, hinner ▸ h.inner⟩

/-- Entries with the same header are in the same directory. -/
theorem EntryPaths.shard_eq_of_headerPath {e e' : EntryPaths} (h : e.headerPath = e'.headerPath) :
    e.shard = e'.shard := by
  rw [← e.dirname_headerPath, ← e'.dirname_headerPath, h]

/-- Making the directory of an entry makes the ones above it. -/
theorem shardIn_makeDir (fs : FileSystem) (e : EntryPaths) : ShardIn (fs.makeDir e.shard) e := by
  have hparent : ∀ p q : Path, p ≠ [] → p ++ chr '/' :: q = e.shard →
      p ∈ (fs.makeDir e.shard).dirs := by
    intro p q hp hpq
    refine List.mem_union_iff.mpr (Or.inl (List.mem_cons_of_mem _ ?_))
    rw [FileSystem.parents, List.mem_filter, List.mem_inits]
    refine ⟨⟨_, hpq⟩, ?_⟩
    simp [hp, ← hpq]
  have hshard : e.shard = e.cacheRoot ++ chr '/' :: ((hexEncodeMd5 e.digest).take 2
      ++ chr '/' :: ((hexEncodeMd5 e.digest).drop 2).take 2) := by
    rw [EntryPaths.shard, EntryPaths.outerShard, List.append_assoc, List.cons_append]
  refine ⟨fun hroot => hparent _ _ hroot hshard.symm, hparent e.outerShard _ ?_ rfl,
    List.mem_union_iff.mpr (Or.inl List.mem_cons_self)⟩
  simp [EntryPaths.outerShard]

/-- Entries stay in their directories, where a header is put in place in a directory that
exists. -/
theorem EntriesInShards.answer (h : EntriesInShards w.fs) (hop : KeepsNames op)
    (hrename : ∀ src (e : EntryPaths), op = .rename src e.headerPath → ShardIn w.fs e) :
    EntriesInShards (w.answer op).2.fs := by
  intro e b hread
  by_cases htouches : op.Touches e.headerPath
  · rcases hop.header htouches with ⟨src, rfl⟩ | rfl
    · exact (hrename src e rfl).answer _
    · -- What a removal leaves was there.
      rcases w.answer_read_of_remove e.headerPath with
        hsame | hgone
      · rw [hsame] at hread
        exact (h e b hread).answer _
      · rw [hgone] at hread
        cases hread
  · rw [w.read_answer_of_not_touches htouches] at hread
    exact (h e b hread).answer op

theorem EntriesInShards.answer_of_onlyRemoves (h : EntriesInShards w.fs) (hop : op.OnlyRemoves) :
    EntriesInShards (w.answer op).2.fs := by
  refine h.answer (keepsNames_of_onlyRemoves hop) fun src e heq => ?_
  rw [heq] at hop
  exact hop.elim

/-- A call in order keeps the entries in the directories that have been made. -/
theorem EntriesInShards.answer_of_orderly {l : Calls} (h : EntriesInShards w.fs)
    (hop : Orderly l op) (hmade : ShardsMade l w.fs) : EntriesInShards (w.answer op).2.fs := by
  refine h.answer hop.keepsNames fun src e heq => ?_
  rw [heq] at hop
  obtain ⟨e', suffix, ⟨-, hdst, hshard, -⟩ | ⟨-, hdst⟩⟩ := hop
  · exact (hmade e' hshard).of_shard (EntryPaths.shard_eq_of_headerPath hdst.symm)
  · exact absurd hdst (e.headerPath_ne_bodyPath e')

theorem ShardsMade.answer {l : Calls} (h : ShardsMade l w.fs) (op : FileOp) :
    ShardsMade (l ++ [⟨op, (w.answer op).1⟩]) (w.answer op).2.fs := by
  intro e hmade
  rcases List.mem_append.mp hmade with hold | hnew
  · exact (h e hold).answer op
  · -- This call has made the directory.
    obtain ⟨rfl, hok⟩ := Sigma.mk.inj_iff.mp (List.mem_singleton.mp hnew)
    have hrule : After (dirMakeRecursive (FileSystem.dirname e.bodyPath)) w fun ok w' =>
        true = ok → ShardIn w'.fs e := by
      refine after_dirMakeRecursive (fun w' h' _ => ?_) (fun w' _ _ hno => by cases hno)
      rw [h'.fs_eq, e.dirname_bodyPath]
      exact shardIn_makeDir w.fs e
    exact hrule (eq_of_heq hok)

/-- A program in order keeps the entries in their directories. -/
theorem InOrder.entriesInShards {α : Type} {p : FileProg α} {l : Calls} {Q : α → Calls → Prop}
    (hp : InOrder p l Q) (hmade : ShardsMade l w.fs) (hin : EntriesInShards w.fs) :
    EntriesInShards (run p w).2.fs
      ∧ ∃ l', ShardsMade l' (run p w).2.fs ∧ Q (run p w).1 l' := by
  induction p generalizing l w with
  | done a => exact ⟨hin, l, hmade, hp⟩
  | call op next ih =>
      exact ih _ (hp.2 _ _ rfl) (hmade.answer op) (hin.answer_of_orderly hp.1 hmade)

end Shards

end Cacher
