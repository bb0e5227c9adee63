import Cacher.Lib.Private
import Cacher.Walk

/-!
# `Cacher.Publication`: the cache under its traffic

Every capture of a server writes its files under temporary names of its own and renames them when
they are whole. `Stores` says which response a client's capture stores and under which entry, and
`Client.Publishes` what the two files of the entry then hold.

`publishes_run` is the safety of the whole server: in every interleaving of requests,
administration and purges, with every failure of every file call, what is outside the temporary
names was there at the start or is one whole file of one capture. `served_run` is what a client
sees of that, and `noTemporary_run` says that the captures leave nothing behind.
-/

set_option autoImplicit false

namespace Cacher

open CText Files

/-! ### What a capture stores -/

/-- The temporary names of the module. -/
inductive Temporary : Path → Prop where
  | header (e : EntryPaths) (suffix : TempSuffix) : Temporary (e.tmpHeaderPath suffix)
  | body (e : EntryPaths) (suffix : TempSuffix) : Temporary (e.tmpBodyPath suffix)

/-- All buckets that reach the filter. -/
def allBuckets (calls : List (Answer × List Bucket)) : List Bucket := calls.flatMap (·.2)

/-- The bytes that the filter reads. -/
def storedBody (calls : List (Answer × List Bucket)) : Bytes :=
  (allBuckets calls).flatMap Bucket.stored

/-- Nothing reaches the filter behind EOS. -/
def EosLast (calls : List (Answer × List Bucket)) : Prop :=
  ∀ front back, allBuckets calls = front ++ .eos :: back → back = []

/-- The capture of the request stores its response under `e`, for the rule `rule`. `last` is the
answer when EOS reaches the filter. -/
structure Stores (env : Env) (r : RequestRec) (calls : List (Answer × List Bucket))
    (rule : CacherRule) (e : EntryPaths) (last : Answer) : Prop where
  may : ∃ dconf, MayUseCache env r dconf rule
  notHead : r.headerOnly = false
  ttl_pos : 0 < rule.ttlSeconds
  paths_eq : cacheKeyPaths env.md5 r r.cacheRoot rule = some e
  accepted : ∃ call, calls.head? = some call
    ∧ filterAccepts (r.withAnswer call.1) rule = true
  last_mem : ∃ bb, (last, bb) ∈ calls ∧ .eos ∈ bb
  notAborted : last.aborted = false
  lengthOk : lengthMismatch last.headersOut (storedBody calls).length = false

/-- The header text that the capture writes. -/
def storedHeader (r : RequestRec) (rule : CacherRule) (last : Answer) (created now : Int64) : Bytes :=
  toBytes (headerFileText (entryMeta (r.withAnswer last) rule created now)
    (dumpHeaders last.headersOut))

/-- The whole files that a client puts in place. -/
inductive Client.Publishes : Client → Path → Bytes → Prop where
  | header {env : Env} {r : RequestRec} {calls : List (Answer × List Bucket)} {rule : CacherRule}
      {e : EntryPaths} {last : Answer} (h : Stores env r calls rule e last) (created now : Int64) :
      Publishes (.http env r calls) e.headerPath (storedHeader r rule last created now)
  | body {env : Env} {r : RequestRec} {calls : List (Answer × List Bucket)} {rule : CacherRule}
      {e : EntryPaths} {last : Answer} (h : Stores env r calls rule e last) :
      Publishes (.http env r calls) e.bodyPath (storedBody calls)

/-- The file was there at the start, or a client has put it in place. -/
def FromClients (clients : List Client) (start : FileSystem) (p : Path) (b : Bytes) : Prop :=
  start.read p = some b ∨ ∃ client ∈ clients, client.Publishes p b

/-- A response that has begun to pass the filter ends with EOS. -/
def EosReached (calls : List (Answer × List Bucket)) : Prop := calls ≠ [] → .eos ∈ allBuckets calls

/-- In the response of the client, EOS comes last, if it comes. -/
def Client.EosLast : Client → Prop
  | .http _ _ calls => Cacher.EosLast calls
  | .tool _ _ _ => True

/-- The response of the client is complete. -/
def Client.Complete : Client → Prop
  | .http _ _ calls => EosReached calls
  | .tool _ _ _ => True

/-- EOS once, as the last bucket. -/
theorem eosLast_of_eq {calls : List (Answer × List Bucket)} {l : List Bucket}
    (h : allBuckets calls = l ++ [.eos]) (hl : .eos ∉ l) : EosLast calls := by
  intro front back hsplit
  rw [h] at hsplit
  cases back using List.reverseRecOn with
  | nil => rfl
  | append_singleton back x =>
      -- Else there would be one more.
      rw [← List.cons_append, ← List.append_assoc] at hsplit
      obtain ⟨hfront, -⟩ := List.append_inj' hsplit rfl
      rw [hfront] at hl
      exact absurd (List.mem_append_right _ List.mem_cons_self) hl

theorem not_temporary_headerPath (e : EntryPaths) : ¬ Temporary e.headerPath := by
  intro h
  generalize hp : e.headerPath = p at h
  cases h with
  | header e' suffix => exact e'.tmpHeaderPath_ne_headerPath e suffix hp.symm
  | body e' suffix => exact e'.tmpBodyPath_ne_headerPath e suffix hp.symm

theorem not_temporary_bodyPath (e : EntryPaths) : ¬ Temporary e.bodyPath := by
  intro h
  generalize hp : e.bodyPath = p at h
  cases h with
  | header e' suffix => exact e'.tmpHeaderPath_ne_bodyPath e suffix hp.symm
  | body e' suffix => exact e'.tmpBodyPath_ne_bodyPath e suffix hp.symm

/-- What a template of the module yields is temporary. -/
theorem temporary_of_tempName {e : EntryPaths} {template p : Path} {suffix : TempSuffix}
    (htemplate : template = e.headerPath ++ lit ".XXXXXX" ∨ template = e.bodyPath ++ lit ".XXXXXX")
    (h : tempName template suffix = some p) : Temporary p := by
  rcases htemplate with rfl | rfl
  · rw [tempName_template] at h
    cases h
    exact .header e suffix
  · rw [tempName_template] at h
    cases h
    exact .body e suffix

/-! ### A request and its files -/

/-- The program minds the temporary names, puts only `Good` files in place, sees `Public` ones, and
returns with `Q`. -/
abbrev Minds {α : Type} (Public Good : Path → Bytes → Prop) (p : FileProg α) (own : Owned)
    (Q : α → Owned → Prop) : Prop :=
  Prog.Always (Owned.Permits Temporary Good) (Learns Temporary Public) p own Q

/-- The hit comes from a whole header and a whole body. -/
structure HitFrom (Public : Path → Bytes → Prop) (r : RequestRec) (e : EntryPaths) (r' : RequestRec)
    (hit : Hit) : Prop where
  header : ∃ b info block, Public e.headerPath b ∧ readMetaText (ofBytes b) = some (info, block)
    ∧ r' = replayHeaders r block ∧ hit.status = info.status
  body : Public e.bodyPath hit.body
  length_eq : hit.length = hit.body.length

section Minds

variable {Public Good : Path → Bytes → Prop} {own : Owned}

/-- The metadata are those of a whole header. -/
theorem minds_cacherCacheReadMeta (e : EntryPaths) :
    Minds Public Good (cacherCacheReadMeta e.headerPath) own fun found own' => own' = own
      ∧ ∀ info block, found = some (info, block) →
        ∃ b, Public e.headerPath b ∧ readMetaText (ofBytes b) = some (info, block) := by
  refine Prog.always_bind.mpr ⟨trivial, ?_⟩
  rintro hf _ ⟨rfl, hsaw⟩
  cases hf with
  | none => exact ⟨rfl, fun _ _ h => by cases h⟩
  | some hf =>
      have hpub : Public e.headerPath hf := hsaw (not_temporary_headerPath e)
      refine Prog.always_bind.mpr ⟨trivial, ?_⟩
      rintro size _ ⟨rfl, hsize⟩
      cases size with
      | none => exact ⟨rfl, fun _ _ h => by cases h⟩
      | some size =>
          show Minds Public Good (if size = 0 then _ else _) _ _
          split
          · exact ⟨rfl, fun _ _ h => by cases h⟩
          refine Prog.always_bind.mpr ⟨trivial, ?_⟩
          rintro buf _ ⟨rfl, hbuf⟩
          cases buf with
          | none => exact ⟨rfl, fun _ _ h => by cases h⟩
          | some buf =>
              obtain ⟨-, rfl⟩ := hbuf
              refine ⟨rfl, fun info block h => ⟨hf, hpub, ?_⟩⟩
              have hsize : size = hf.length := hsize
              rw [hsize, List.take_length] at h
              exact h

theorem minds_serveFresh (r : RequestRec) (e : EntryPaths) (info : CacherEntryMeta)
    (block : CString) :
    Minds Public Good (serveFresh r e info block) own fun out own' => own' = own
      ∧ out.1 = replayHeaders r block
      ∧ ∀ hit, out.2 = some hit → Public e.bodyPath hit.body ∧ hit.length = hit.body.length
        ∧ hit.status = info.status := by
  refine Prog.always_bind.mpr ⟨trivial, ?_⟩
  rintro bf _ ⟨rfl, hsaw⟩
  cases bf with
  | none => exact ⟨rfl, rfl, fun _ h => by cases h⟩
  | some bf =>
      have hpub : Public e.bodyPath bf := hsaw (not_temporary_bodyPath e)
      refine Prog.always_bind.mpr ⟨trivial, ?_⟩
      rintro length _ ⟨rfl, hlength⟩
      cases length with
      | none => exact ⟨rfl, rfl, fun _ h => by cases h⟩
      | some length =>
          have hlength : length = bf.length := hlength
          show Minds Public Good (if 0 < info.created then _ else _) _ _
          split
          · refine Prog.always_bind.mpr ⟨trivial, ?_⟩
            rintro now _ ⟨rfl, -⟩
            refine ⟨rfl, rfl, fun hit h => ?_⟩
            cases h
            exact ⟨hpub, hlength, rfl⟩
          · refine ⟨rfl, rfl, fun hit h => ?_⟩
            cases h
            exact ⟨hpub, hlength, rfl⟩

/-- A lookup changes only response fields, and a hit is made of two whole files. -/
theorem minds_cacherCacheLookup (md5 : CString → Digest) (r : RequestRec)
    (cacheRoot : Option CString) (rule : CacherRule) :
    Minds Public Good (cacherCacheLookup md5 r cacheRoot rule) own fun out own' => own' = own
      ∧ (∃ t ctype, out.1 = { r with headersOut := t, contentType := ctype })
      ∧ ∀ hit, out.2 = some hit →
        ∃ e, cacheKeyPaths md5 r cacheRoot rule = some e ∧ HitFrom Public r e out.1 hit := by
  have hmiss : ∀ own' : Owned, own' = own →
      Minds Public Good (pure (r, none) : FileProg (RequestRec × Option Hit)) own' fun out own' =>
        own' = own ∧ (∃ t ctype, out.1 = { r with headersOut := t, contentType := ctype })
        ∧ ∀ hit, out.2 = some hit →
          ∃ e, cacheKeyPaths md5 r cacheRoot rule = some e ∧ HitFrom Public r e out.1 hit :=
    fun own' h => ⟨h, ⟨_, _, rfl⟩, fun _ h => by cases h⟩
  unfold cacherCacheLookup
  cases hpaths : cacheKeyPaths md5 r cacheRoot rule with
  | none =>
      rw [hpaths] at hmiss
      exact hmiss own rfl
  | some e =>
      rw [hpaths] at hmiss
      refine Prog.always_bind.mpr ((minds_cacherCacheReadMeta e).mono fun found own₁ h₁ => ?_)
      obtain ⟨rfl, hfound⟩ := h₁
      cases found with
      | none => exact hmiss _ rfl
      | some found =>
          obtain ⟨b, hpub, hread⟩ := hfound found.1 found.2 rfl
          refine Prog.always_bind.mpr ⟨trivial, ?_⟩
          rintro now _ ⟨rfl, -⟩
          show Minds Public Good (if found.1.expires ≤ now then _ else _) _ _
          split
          · exact hmiss _ rfl
          · refine (minds_serveFresh r e found.1 found.2).mono fun out own₂ h₂ => ?_
            obtain ⟨rfl, hreplay, hhit⟩ := h₂
            refine ⟨rfl, ⟨_, _, hreplay.trans (replayHeaders_eq r found.2)⟩, fun hit h => ?_⟩
            obtain ⟨hbody, hlength, hstatus⟩ := hhit hit h
            exact ⟨e, rfl, ⟨b, found.1, found.2, hpub, hread, hreplay, hstatus⟩, hbody, hlength⟩

/-! A capture has one temporary body, and at its end one temporary header. -/

/-- A removal, and then the rest. -/
theorem minds_remove {α : Type} {p : Path} {rest : FileProg α} {Q : α → Owned → Prop}
    (h : Minds Public Good rest (own.change p fun _ => .gone) Q) :
    Minds Public Good (remove p >>= fun _ => rest) own Q := by
  refine Prog.always_bind.mpr ⟨trivial, ?_⟩
  rintro removed _ ⟨rfl, -⟩
  exact h

/-- Whatever is removed last, the capture has no file. -/
theorem minds_giveUp {p : Path} (hown : own.Within [p]) :
    Minds Public Good (remove p >>= fun _ => pure false : FileProg Bool) own
      fun _ own' => own'.Within [] :=
  minds_remove (hown.drop fun _ hq hne => absurd (List.mem_singleton.mp hq) hne)

/-- Where a rename has failed, three removals take back what was done. -/
theorem minds_takeBack {e : EntryPaths} {tmpBody tmpHeader : TempSuffix}
    (hown : own.Within [e.tmpBodyPath tmpBody, e.tmpHeaderPath tmpHeader]) :
    Minds Public Good (do
        let _ ← remove (e.tmpBodyPath tmpBody)
        let _ ← remove (e.tmpHeaderPath tmpHeader)
        let _ ← remove e.bodyPath
        pure false : FileProg Bool) own fun _ own' => own'.Within [] := by
  refine minds_remove (minds_remove (minds_remove ?_))
  have hbody : (own.change (e.tmpBodyPath tmpBody) fun _ => .gone).Within
      [e.tmpHeaderPath tmpHeader] := hown.drop fun q hq hne => by simpa [hne] using hq
  have hheader : ((own.change (e.tmpBodyPath tmpBody) fun _ => .gone).change
      (e.tmpHeaderPath tmpHeader) fun _ => .gone).Within [] :=
    hbody.drop fun q hq hne => absurd (List.mem_singleton.mp hq) hne
  exact hheader.drop fun _ hq _ => hq

/-- The two renames put two whole files in place, or leave what can be taken back. -/
theorem minds_publishEntry {e : EntryPaths} {tmpBody tmpHeader : TempSuffix} {body text : Bytes}
    (hown : own.Within [e.tmpBodyPath tmpBody, e.tmpHeaderPath tmpHeader])
    (hbody : own (e.tmpBodyPath tmpBody) = some (.exactly body))
    (htext : own (e.tmpHeaderPath tmpHeader) = some (.exactly text))
    (hgoodBody : Good e.bodyPath body) (hgoodHeader : Good e.headerPath text) :
    Minds Public Good (publishEntry e tmpBody tmpHeader) own fun ok own' =>
      own'.Within (if ok then [] else [e.tmpBodyPath tmpBody, e.tmpHeaderPath tmpHeader]) := by
  refine Prog.always_bind.mpr ⟨⟨not_temporary_bodyPath e, body, hbody, hgoodBody⟩, ?_⟩
  rintro moved _ ⟨rfl, -⟩
  cases moved with
  | false => exact hown
  | true =>
      have htext' : (own.change (e.tmpBodyPath tmpBody) fun _ => .gone) (e.tmpHeaderPath tmpHeader)
          = some (.exactly text) := by
        rw [Owned.change_of_ne (e.tmpBodyPath_ne_tmpHeaderPath e _ _).symm, htext]
      refine ⟨⟨not_temporary_headerPath e, text, htext', hgoodHeader⟩, ?_⟩
      rintro moved _ ⟨rfl, -⟩
      have hwithin : (own.change (e.tmpBodyPath tmpBody) fun _ => .gone).Within
          [e.tmpHeaderPath tmpHeader] := hown.drop fun q hq hne => by simpa [hne] using hq
      cases moved with
      | false =>
          intro q o ho hgone
          exact List.mem_cons_of_mem _ (hwithin q o ho hgone)
      | true => exact hwithin.drop fun _ hq hne => absurd (List.mem_singleton.mp hq) hne

/-- The end of a capture puts a whole entry in place, or nothing, and leaves no temporary file. -/
theorem minds_finalizeCacheEntry (r : RequestRec) (ctx : CacherOutCtx) {tmpBody : TempSuffix}
    {body : Bytes} (hown : own.Within [ctx.paths.tmpBodyPath tmpBody])
    (hbody : own (ctx.paths.tmpBodyPath tmpBody) = some (.exactly body))
    (hgood : r.aborted = false → lengthMismatch r.headersOut ctx.bodyLen = false →
      Good ctx.paths.bodyPath body ∧ ∀ created now, Good ctx.paths.headerPath
        (toBytes (headerFileText (entryMeta r ctx.rule created now) (dumpHeaders r.headersOut)))) :
    Minds Public Good (finalizeCacheEntry r ctx tmpBody) own fun _ own' => own'.Within [] := by
  unfold finalizeCacheEntry
  split
  · exact minds_giveUp hown
  rename_i haborted
  split
  · exact minds_giveUp hown
  rename_i hlength
  obtain ⟨hgoodBody, hgoodHeader⟩ := hgood (by simpa using haborted) (by simpa using hlength)
  refine Prog.always_bind.mpr ⟨trivial, ?_⟩
  rintro created own₁ ⟨hsame₁, -⟩
  refine Prog.always_bind.mpr ⟨trivial, ?_⟩
  rintro now own₂ ⟨hsame₂, -⟩
  obtain rfl : own = own₂ := (hsame₂.trans hsame₁).symm
  refine Prog.always_bind.mpr
    ⟨fun suffix p hname => temporary_of_tempName (Or.inl rfl) hname, ?_⟩
  rintro tmpHeader own₃ ⟨hown₃, -⟩
  cases tmpHeader with
  | none =>
      rw [hown₃]
      exact minds_giveUp hown
  | some tmpHeader =>
      -- Now there are two temporary files.
      have hafter : own₃
          = Function.update own (ctx.paths.tmpHeaderPath tmpHeader) (some (.exactly [])) := by
        rw [hown₃]
        simp only [Owned.after, tempName_template]
        rfl
      have hne : ctx.paths.tmpBodyPath tmpBody ≠ ctx.paths.tmpHeaderPath tmpHeader :=
        ctx.paths.tmpBodyPath_ne_tmpHeaderPath ctx.paths _ _
      have hself : own₃ (ctx.paths.tmpHeaderPath tmpHeader) = some (.exactly []) := by
        rw [hafter, Function.update_self]
      have hwithin : own₃.Within
          [ctx.paths.tmpBodyPath tmpBody, ctx.paths.tmpHeaderPath tmpHeader] := by
        intro q o ho hgone
        rw [hafter] at ho
        have hq := hown.make _ _ q o ho hgone
        simp only [List.mem_cons, List.not_mem_nil, or_false] at hq ⊢
        exact hq.symm
      have hbody' : own₃ (ctx.paths.tmpBodyPath tmpBody) = some (.exactly body) := by
        rw [hafter, Function.update_of_ne hne, hbody]
      refine Prog.always_bind.mpr ⟨by rw [Owned.Permits, hself]; exact Option.some_ne_none _, ?_⟩
      rintro written _ ⟨rfl, -⟩
      have hmem : ctx.paths.tmpHeaderPath tmpHeader
          ∈ [ctx.paths.tmpBodyPath tmpBody, ctx.paths.tmpHeaderPath tmpHeader] := by simp
      cases written with
      | false =>
          refine minds_remove (minds_giveUp ?_)
          refine (hwithin.change hmem _).drop fun q hq hne => ?_
          simpa [hne] using hq
      | true =>
          refine Prog.always_bind.mpr ((minds_publishEntry (hwithin.change hmem _) ?_ ?_ hgoodBody
            (hgoodHeader created now)).mono fun ok own₄ h₄ => ?_)
          · rw [Owned.change_of_ne hne, hbody']
          · rw [Owned.change_self, hself]
            rfl
          · cases ok with
            | true => exact h₄
            | false => exact minds_takeBack h₄

/-- A capture under way has seen the buckets `seen`. Its only file is its temporary body, which
holds what was read of them, until the capture is given up or EOS has ended it. -/
structure Tracks (rule : CacherRule) (e : EntryPaths) (accepted : Prop) (seen : List Bucket)
    (ctx : CacherOutCtx) (own : Owned) : Prop where
  rule_eq : ctx.rule = rule
  paths_eq : ctx.paths = e
  started : ctx.started = true
  isOpen : ∀ suffix, ctx.tmpBody = some suffix → .eos ∉ seen →
    accepted ∧ own.Within [e.tmpBodyPath suffix]
      ∧ own (e.tmpBodyPath suffix) = some (.exactly (seen.flatMap Bucket.stored))
      ∧ ctx.bodyLen = (seen.flatMap Bucket.stored).length
  isOver : ctx.tmpBody = none ∨ .eos ∈ seen → own.Within []

variable {rule : CacherRule} {e : EntryPaths} {accepted : Prop} {seen : List Bucket}
  {ctx : CacherOutCtx}

/-- Without a file, the capture ignores every bucket. -/
theorem Tracks.skip (h : Tracks rule e accepted seen ctx own) (hclosed : ctx.tmpBody = none)
    (bucket : Bucket) : Tracks rule e accepted (seen ++ [bucket]) ctx own where
  rule_eq := h.rule_eq
  paths_eq := h.paths_eq
  started := h.started
  isOpen suffix hopen := by
    rw [hclosed] at hopen
    cases hopen
  isOver _ := h.isOver (Or.inl hclosed)

/-- The capture goes on behind a bucket other than EOS. -/
theorem Tracks.goOn (h : Tracks rule e accepted seen ctx own) {suffix : TempSuffix}
    (hopen : ctx.tmpBody = some suffix) (hseen : .eos ∉ seen) {bucket : Bucket}
    (hbucket : bucket ≠ .eos) {own' : Owned} (len : Nat) (hlen : len = bucket.stored.length)
    (hown : own' = own.change (e.tmpBodyPath suffix) (Own.append bucket.stored)) :
    Tracks rule e accepted (seen ++ [bucket]) { ctx with bodyLen := ctx.bodyLen + len } own' := by
  obtain ⟨hacc, hwithin, hbody, hbodyLen⟩ := h.isOpen suffix hopen hseen
  have hstored : (seen ++ [bucket]).flatMap Bucket.stored
      = seen.flatMap Bucket.stored ++ bucket.stored := by simp
  refine ⟨h.rule_eq, h.paths_eq, h.started, fun suffix' hopen' _ => ?_, fun hover => ?_⟩
  · obtain rfl : suffix = suffix' := Option.some.inj (hopen.symm.trans hopen')
    rw [hown, hstored]
    refine ⟨hacc, hwithin.change List.mem_cons_self _, ?_, ?_⟩
    · rw [Owned.change_self, hbody]
      rfl
    · rw [List.length_append, ← hbodyLen, hlen]
  · rcases hover with hover | hover
    · rw [hopen] at hover
      cases hover
    · simp only [List.mem_append, List.mem_singleton] at hover
      rcases hover with hover | hover
      · exact absurd hover hseen
      · exact absurd hover.symm hbucket

/-- Nothing is appended. -/
theorem change_append_nil (own : Owned) (p : Path) : own.change p (Own.append []) = own := by
  have happend : Own.append [] = id := by
    funext o
    cases o with
    | exactly b => exact congrArg Own.exactly (List.append_nil b)
    | unknown => rfl
    | gone => rfl
  rw [happend, Owned.change, Option.map_id, id, Function.update_eq_self]

/-- The first call opens a temporary body, where the response is accepted. -/
theorem minds_startCapture (r : RequestRec) (rule : CacherRule) (e : EntryPaths)
    (hown : own.Within []) :
    Minds Public Good (startCapture r (CacherOutCtx.fresh rule e)) own
      (Tracks rule e (filterAccepts r rule = true) []) := by
  have hclosed : ∀ own' : Owned, own' = own → Tracks rule e (filterAccepts r rule = true) []
      { CacherOutCtx.fresh rule e with started := true, tmpBody := none } own' := by
    rintro own' rfl
    exact ⟨rfl, rfl, rfl, fun _ hno => (by cases hno), fun _ => hown⟩
  unfold startCapture
  rw [if_neg (by exact Bool.false_ne_true)]
  split
  · rename_i haccepts
    refine Prog.always_bind.mpr ⟨trivial, ?_⟩
    rintro made own₁ ⟨h₁, -⟩
    cases made with
    | false => exact hclosed own₁ h₁
    | true =>
        obtain rfl : own = own₁ := h₁.symm
        refine Prog.always_bind.mpr
          ⟨fun suffix p hname => temporary_of_tempName (Or.inr rfl) hname, ?_⟩
        rintro tmpBody own₂ ⟨h₂, -⟩
        cases tmpBody with
        | none => exact hclosed own₂ h₂
        | some suffix =>
            have hafter : own₂
                = Function.update own (e.tmpBodyPath suffix) (some (.exactly [])) := by
              rw [h₂]
              simp only [Owned.after, CacherOutCtx.fresh, tempName_template]
              rfl
            refine ⟨rfl, rfl, rfl, fun suffix' hopen _ => ?_, fun hover => ?_⟩
            · obtain rfl : suffix = suffix' := Option.some.inj hopen
              rw [hafter]
              exact ⟨haccepts, hown.make _ _, Function.update_self _ _ _, rfl⟩
            · rcases hover with hover | hover
              · cases hover
              · cases hover
  · exact hclosed own rfl

/-- One data bucket is appended to the body, or it ends the capture. -/
theorem minds_captureData (h : Tracks rule e accepted seen ctx own) {suffix : TempSuffix}
    (hopen : ctx.tmpBody = some suffix) (hseen : .eos ∉ seen) (content : Bytes)
    (failure : Option Nat) :
    Minds Public Good (captureData ctx suffix content failure) own
      (Tracks rule e accepted (seen ++ [.data content failure])) := by
  obtain rfl := h.paths_eq
  obtain ⟨-, hwithin, hbody, -⟩ := h.isOpen suffix hopen hseen
  -- The capture is given up.
  have hgiveUp : ∀ own' : Owned, own'.Within [ctx.paths.tmpBodyPath suffix] →
      Minds Public Good (remove (ctx.paths.tmpBodyPath suffix) >>= fun _ =>
        pure { ctx with tmpBody := none }) own'
        (Tracks rule ctx.paths accepted (seen ++ [.data content failure])) := fun own' hown' =>
    minds_remove ⟨h.rule_eq, rfl, h.started, fun _ hno => (by cases hno),
      fun _ => hown'.drop fun _ hq hne => absurd (List.mem_singleton.mp hq) hne⟩
  -- The capture goes on, without a byte of the bucket.
  have hnothing : (Bucket.data content failure).stored = [] →
      Tracks rule ctx.paths accepted (seen ++ [.data content failure]) ctx own := fun hstored =>
    h.goOn hopen hseen (fun hno => by cases hno) 0 (by rw [hstored]; rfl)
      (by rw [hstored, change_append_nil])
  unfold captureData
  cases failure with
  | some len =>
      rw [if_neg (by simp)]
      refine Prog.always_bind.mpr (Prog.always_pure.mpr ?_)
      simp only [Bool.false_eq_true, if_false, Option.getD_some]
      split
      · exact hgiveUp own hwithin
      · exact hnothing rfl
  | none =>
      rw [Option.getD_none]
      by_cases hpos : 0 < content.length
      · rw [if_pos ⟨rfl, hpos⟩]
        refine Prog.always_bind.mpr ⟨by rw [Owned.Permits, hbody]; exact Option.some_ne_none _, ?_⟩
        rintro stored own₁ ⟨h₁, -⟩
        cases stored with
        | true => exact h.goOn hopen hseen (fun hno => by cases hno) _ rfl h₁
        | false =>
            show Minds Public Good (if 0 < content.length then _ else _) own₁ _
            rw [if_pos hpos, h₁]
            exact hgiveUp _ (hwithin.change List.mem_cons_self _)
      · rw [if_neg (by simp [hpos])]
        refine Prog.always_bind.mpr (Prog.always_pure.mpr ?_)
        simp only [Bool.false_eq_true, if_false, if_neg hpos]
        exact hnothing (List.length_eq_zero_iff.mp (Nat.eq_zero_of_not_pos hpos))

/-- A call of the filter goes on with the capture. With EOS it ends it, and puts in place what the
response may leave. -/
theorem minds_cacherOutputFilter (r : RequestRec) {bb : List Bucket}
    (hstart : Minds Public Good (startCapture r ctx) own (Tracks rule e accepted seen))
    (hlast : ∀ front back, seen ++ bb = front ++ .eos :: back → back = [])
    (hgood : .eos ∈ bb → accepted → r.aborted = false →
      lengthMismatch r.headersOut ((seen ++ bb).flatMap Bucket.stored).length = false →
      Good e.bodyPath ((seen ++ bb).flatMap Bucket.stored) ∧ ∀ created now, Good e.headerPath
        (toBytes (headerFileText (entryMeta r rule created now) (dumpHeaders r.headersOut)))) :
    Minds Public Good (cacherOutputFilter r ctx bb) own
      (Tracks rule e accepted (seen ++ bb)) := by
  unfold cacherOutputFilter
  refine Prog.always_bind.mpr (hstart.mono fun ctx₁ own₁ h₁ => ?_)
  refine Prog.always_foldlM_at (I := fun done => Tracks rule e accepted (seen ++ done))
    (by rw [List.append_nil]; exact h₁) fun done bucket rest ctx₂ own₂ hbb h₂ => ?_
  have hseen : .eos ∉ seen ++ done := by
    intro hmem
    obtain ⟨front, back, hsplit⟩ := List.append_of_mem hmem
    have hno := hlast front (back ++ bucket :: rest) (by
      rw [hbb, ← List.append_assoc, hsplit, List.append_assoc]
      rfl)
    simp at hno
  rw [← List.append_assoc]
  unfold captureBucket
  cases hopen : ctx₂.tmpBody with
  | none => exact h₂.skip hopen bucket
  | some suffix =>
      cases bucket with
      | metadata =>
          exact h₂.goOn hopen hseen (fun hno => by cases hno) 0 rfl
            (change_append_nil own₂ _).symm
      | data content failure => exact minds_captureData h₂ hopen hseen content failure
      | eos =>
          obtain ⟨hacc, hwithin, hbody, hbodyLen⟩ := h₂.isOpen suffix hopen hseen
          -- What has been read is the whole response.
          have hrest : rest = [] := hlast (seen ++ done) rest (by rw [hbb, List.append_assoc])
          have hwhole : (seen ++ bb).flatMap Bucket.stored
              = (seen ++ done).flatMap Bucket.stored := by
            rw [hbb, hrest, ← List.append_assoc, List.flatMap_append]
            exact List.append_nil _
          rw [hwhole] at hgood
          obtain rfl := h₂.paths_eq
          obtain rfl := h₂.rule_eq
          refine Prog.always_bind.mpr ((minds_finalizeCacheEntry r ctx₂ hwithin hbody
            fun haborted hlength => ?_).mono fun published own₃ h₃ => ?_)
          · rw [hbodyLen] at hlength
            refine hgood ?_ hacc haborted hlength
            rw [hbb]
            exact List.mem_append_right _ List.mem_cons_self
          · refine ⟨rfl, rfl, h₂.started, fun _ _ hno => ?_, fun _ => h₃⟩
            exact absurd (List.mem_append_right _ (List.mem_singleton_self _)) hno

/-- A whole response, call by call. -/
theorem minds_captureResponse {env : Env} {r : RequestRec} {calls : List (Answer × List Bucket)}
    {dconf : CacherDirConf} (hmay : MayUseCache env r dconf rule) (hhead : r.headerOnly = false)
    (httl : 0 < rule.ttlSeconds) (hpaths : cacheKeyPaths env.md5 r r.cacheRoot rule = some e)
    (hlast : EosLast calls) (hown : own.Within []) :
    Minds Public (Client.http env r calls).Publishes
      (captureResponse (CacherOutCtx.fresh rule e)
        (calls.map fun call => (r.withAnswer call.1, call.2))) own
      fun _ own' => EosReached calls → own'.Within [] := by
  unfold captureResponse
  rw [List.foldlM_map]
  -- Behind the first call, its answer has decided whether the response is stored.
  have hrun : Minds Public (Client.http env r calls).Publishes
      (calls.foldlM (fun ctx call => cacherOutputFilter (r.withAnswer call.1) ctx call.2)
        (CacherOutCtx.fresh rule e)) own fun ctx own' =>
      calls = [] ∧ ctx = CacherOutCtx.fresh rule e ∧ own'.Within []
        ∨ calls ≠ [] ∧ Tracks rule e (∃ call, calls.head? = some call
            ∧ filterAccepts (r.withAnswer call.1) rule = true) (allBuckets calls) ctx own' := by
    refine Prog.always_foldlM_at (I := fun done ctx own' =>
      done = [] ∧ ctx = CacherOutCtx.fresh rule e ∧ own'.Within []
        ∨ done ≠ [] ∧ Tracks rule e (∃ call, calls.head? = some call
            ∧ filterAccepts (r.withAnswer call.1) rule = true) (allBuckets done) ctx own')
      (Or.inl ⟨rfl, rfl, hown⟩) fun done call rest ctx₁ own₁ hcalls h₁ => ?_
    have hall : allBuckets (done ++ [call]) = allBuckets done ++ call.2 := by
      simp [allBuckets]
    have hsplit : allBuckets calls = allBuckets done ++ call.2 ++ allBuckets rest := by
      simp [hcalls, allBuckets]
    have hstart : Minds Public (Client.http env r calls).Publishes
        (startCapture (r.withAnswer call.1) ctx₁) own₁
        (Tracks rule e (∃ call, calls.head? = some call
          ∧ filterAccepts (r.withAnswer call.1) rule = true) (allBuckets done)) := by
      rcases h₁ with ⟨rfl, rfl, hown₁⟩ | ⟨-, h₁⟩
      · refine (minds_startCapture _ rule e hown₁).mono fun ctx₂ own₂ h₂ => ?_
        refine ⟨h₂.rule_eq, h₂.paths_eq, h₂.started, fun suffix hopen hseen => ?_, h₂.isOver⟩
        obtain ⟨hacc, hrest⟩ := h₂.isOpen suffix hopen hseen
        exact ⟨⟨call, by rw [hcalls]; rfl, hacc⟩, hrest⟩
      · rw [startCapture_of_started h₁.started]
        exact Prog.always_pure.mpr h₁
    rw [hall]
    refine (minds_cacherOutputFilter (r.withAnswer call.1) hstart (fun front back hfront => ?_)
      fun heos hacc haborted hlength => ?_).mono fun ctx₂ own₂ h₂ => Or.inr ⟨by simp, h₂⟩
    · have hback := hlast front (back ++ allBuckets rest) (by
        rw [hsplit, hfront, List.append_assoc]
        rfl)
      exact (List.append_eq_nil_iff.mp hback).1
    · -- EOS is the end of the whole response.
      obtain ⟨front, back, hfront⟩ := List.append_of_mem heos
      have hback := hlast (allBuckets done ++ front) (back ++ allBuckets rest) (by
        rw [hsplit, hfront]
        simp)
      have hbody : storedBody calls = (allBuckets done ++ call.2).flatMap Bucket.stored := by
        rw [storedBody, hsplit, (List.append_eq_nil_iff.mp hback).2, List.append_nil]
      have hstores : Stores env r calls rule e call.1 := by
        refine ⟨⟨dconf, hmay⟩, hhead, httl, hpaths, hacc, ⟨call.2, ?_, heos⟩, haborted, ?_⟩
        · rw [hcalls]
          exact List.mem_append_right _ List.mem_cons_self
        · rw [hbody]
          exact hlength
      rw [← hbody]
      exact ⟨.body hstores, fun created now => .header hstores created now⟩
  refine hrun.mono fun ctx₁ own₁ h₁ hcomplete => ?_
  rcases h₁ with ⟨-, -, hown₁⟩ | ⟨hne, h₁⟩
  · exact hown₁
  · exact h₁.isOver (Or.inr (hcomplete hne))

end Minds

/-- What the request is served from the cache comes from two whole files under its own key. -/
def ServedFrom (Public : Path → Bytes → Prop) (env : Env) (r : RequestRec) (result : HandlerResult) :
    Prop :=
  ∀ body, result.body = some body → ∃ dconf rule e r' hit, MayUseCache env r dconf rule
    ∧ cacheKeyPaths env.md5 r r.cacheRoot rule = some e ∧ HitFrom Public r e r' hit
    ∧ body = hit.body ∧ result = serveHit r' dconf hit

section Clients

variable {Public : Path → Bytes → Prop}

/-- The filter that a miss adds belongs to the request as it was before the lookup. -/
theorem fresh_of_cacherCacheInsertFilter {env : Env} {r : RequestRec} {dconf : CacherDirConf}
    {rule : CacherRule} {t : Table} {ctype : Option CString} {ctx : CacherOutCtx}
    (h : cacherCacheInsertFilter env.md5
      (setStatus { r with headersOut := t, contentType := ctype } dconf (lit "MISS")) r.cacheRoot rule
      = some ctx) :
    ∃ e, cacheKeyPaths env.md5 r r.cacheRoot rule = some e ∧ r.headerOnly = false
      ∧ 0 < rule.ttlSeconds ∧ ctx = CacherOutCtx.fresh rule e := by
  obtain ⟨t', ht', -⟩ := statusHeaderOnly_setStatus
    { r with headersOut := t, contentType := ctype } dconf (lit "MISS")
  rw [ht'] at h
  have hsame : cacherCacheInsertFilter env.md5 r r.cacheRoot rule = some ctx := h
  unfold cacherCacheInsertFilter at hsame
  split at hsame
  · cases hsame
  rename_i hroot
  rw [not_or] at hroot
  split at hsame
  · cases hsame
  rename_i hhead
  obtain ⟨e, he, rfl⟩ := Option.map_eq_some_iff.mp hsame
  exact ⟨e, he, by simpa using hhead, Int64.not_le.mp hroot.2, rfl⟩

/-- A request that is not for the administration minds the temporary names, and what it is served
comes from whole files. -/
theorem minds_serveRequest (env : Env) {r : RequestRec}
    (hadmin : r.main = true ∨ ∀ dconf action, ¬ UnderAdminPath r dconf action)
    {calls : List (Answer × List Bucket)} (hlast : EosLast calls) :
    Minds Public (Client.http env r calls).Publishes (serveRequest env r calls) Owned.nothing
      fun result own => ServedFrom Public env r result
        ∧ (EosReached calls → own.Within []) := by
  unfold serveRequest
  have hdoes := cacherHandler_does env r
  generalize cacherHandler env r = p at hdoes
  cases hdoes with
  | admin hsub hunder =>
      rcases hadmin with hmain | hadmin
      · rw [hsub] at hmain
        cases hmain
      · exact absurd hunder (hadmin _ _)
  | decline _ _ _ => exact ⟨fun _ h => (by cases h), fun _ => Owned.within_nothing⟩
  | @cache dconf rule hmay =>
      unfold handleCacheable
      rw [bind_assoc]
      refine Prog.always_bind.mpr
        ((minds_cacherCacheLookup _ r _ _).mono fun out own₁ h₁ => ?_)
      obtain ⟨r', hit⟩ := out
      obtain ⟨rfl, ⟨t, ctype, hout⟩, hhit⟩ := h₁
      cases hit with
      | some hit =>
          obtain ⟨e, hpaths, hfrom⟩ := hhit hit rfl
          refine ⟨fun body hbody => ⟨dconf, rule, e, r', hit, hmay, hpaths, hfrom, ?_, rfl⟩,
            fun _ => Owned.within_nothing⟩
          have htake : hit.body.take hit.length = body := Option.some.inj hbody
          rw [← htake, hfrom.length_eq, List.take_length]
      | none =>
          obtain rfl : r' = _ := hout
          cases hfilter : cacherCacheInsertFilter env.md5
              (setStatus { r with headersOut := t, contentType := ctype } dconf (lit "MISS"))
              r.cacheRoot rule with
          | none =>
              simp only [pure_bind, hfilter]
              exact ⟨fun _ h => (by cases h), fun _ => Owned.within_nothing⟩
          | some ctx =>
              simp only [pure_bind, hfilter]
              obtain ⟨e, hpaths, hhead, httl, rfl⟩ := fresh_of_cacherCacheInsertFilter hfilter
              exact Prog.always_bind.mpr ((minds_captureResponse hmay hhead httl hpaths hlast
                Owned.within_nothing).mono fun _ _ h => ⟨fun _ hno => (by cases hno), h⟩)

/-- What a client ends with. -/
def Client.Ends (Public : Path → Bytes → Prop) : Client → Ended → Owned → Prop
  | .http env r calls, .served result, own => ServedFrom Public env r result
      ∧ (EosReached calls → own.Within [])
  | .http _ _ _, .purged _, _ => False
  | .tool _ _ _, _, own => own.Within []

/-- The administration serves no entry. -/
theorem served_of_administers {env : Env} {r : RequestRec} {calls : List (Answer × List Bucket)}
    (h : (Client.http env r calls).Administers) :
    Prog.Returns (Client.http env r calls).prog fun ended =>
      ∃ result, ended = .served result ∧ result.body = none := by
  obtain ⟨hsub, dconf, action, hadmin⟩ := h
  rw [Client.prog, serveRequest, cacherHandler_of_underAdminPath env hsub hadmin, handleAdmin]
  split
  · exact ⟨_, rfl, rfl⟩
  · rw [bind_assoc, bind_assoc]
    refine Prog.always_bind.mpr (Prog.Always.mono (Q := fun _ _ => True) ?_ fun answer _ _ => ?_)
    · exact (Prog.uses_of_forall (fun _ => trivial) _).always ()
    · exact ⟨_, rfl, rfl⟩

/-- Every client minds the temporary names. -/
theorem minds_prog {client : Client} (hlast : client.EosLast) :
    Minds Public client.Publishes client.prog Owned.nothing (client.Ends Public) := by
  cases client with
  | tool py depth args => exact always_of_onlyRemoves (onlyRemoves_prog (Or.inr ⟨_, _, _, rfl⟩))
  | http env r calls =>
      by_cases hadmin : (Client.http env r calls).Administers
      · refine ((always_of_onlyRemoves (onlyRemoves_prog (Or.inl hadmin))).and_returns
          (served_of_administers hadmin)).mono fun ended own h => ?_
        obtain ⟨⟨result, rfl, hbody⟩, hwithin⟩ := h
        refine ⟨fun body hno => ?_, fun _ => hwithin⟩
        rw [hbody] at hno
        cases hno
      · refine Prog.always_bind.mpr ((minds_serveRequest env ?_ hlast).mono fun _ _ h => h)
        by_contra hno
        obtain ⟨hmain, hno⟩ := not_or.mp hno
        push Not at hno
        obtain ⟨dconf, action, hunder⟩ := hno
        exact hadmin ⟨by simpa using hmain, dconf, action, hunder⟩

end Clients

/-! ### The whole server -/

section Server

variable {clients : List Client} {w : World} {schedule : List Nat}

/-- What client `i` puts in place. -/
def publishesAt (clients : List Client) (i : Nat) : Path → Bytes → Prop :=
  (clients[i]?).elim (fun _ _ => False) Client.Publishes

/-- What client `i` ends with. -/
def endsAt (Public : Path → Bytes → Prop) (clients : List Client) (i : Nat) :
    Ended → Owned → Prop :=
  (clients[i]?).elim (fun _ _ => False) (Client.Ends Public)

/-- In every interleaving, the clients mind the temporary names. -/
theorem pooled_serving (hlast : ∀ client ∈ clients, client.EosLast)
    (hfresh : Prog.Pool.Guarded World.answer PicksFresh (Serving.start clients w) schedule) :
    Pooled Temporary (FromClients clients w.fs) w.fs (publishesAt clients)
      (endsAt (FromClients clients w.fs) clients)
      ((Serving.start clients w).after schedule) := by
  refine pooled_run (fun i p b hgood => Or.inr ?_) (fun p b _ hb => Or.inl hb)
    (fun i p hi => ?_) hfresh
  · cases hi : clients[i]? with
    | none =>
        rw [publishesAt, hi] at hgood
        exact hgood.elim
    | some client =>
        rw [publishesAt, hi] at hgood
        exact ⟨client, List.mem_of_getElem? hi, hgood⟩
  · obtain ⟨client, hclient, rfl⟩ := Option.map_eq_some_iff.mp (List.getElem?_map ▸ hi)
    rw [publishesAt, endsAt, hclient]
    exact minds_prog (hlast client (List.mem_of_getElem? hclient))

/-- In every interleaving of the clients of a server, whatever fails, every file under a name that
is not temporary was there at the start or is one whole file of one capture. -/
theorem publishes_run (hlast : ∀ client ∈ clients, client.EosLast)
    (hfresh : Prog.Pool.Guarded World.answer PicksFresh (Serving.start clients w) schedule)
    {p : Path} {b : Bytes} (hp : ¬ Temporary p)
    (hb : ((Serving.start clients w).after schedule).shared.fs.read p = some b) :
    FromClients clients w.fs p b := by
  obtain ⟨_, hkeeps, -⟩ := pooled_serving hlast hfresh
  exact hkeeps.whole p b hp hb

/-- `GET /a` is stored while a full reset runs, and is asked for again. -/
def Client.pageResetPage : List Client :=
  Client.pageAndReset ++ [.http (Env.ofRules [CacherRule.ofTtl 60]) RequestRec.page []]

theorem eosLast_pageResetPage : ∀ client ∈ Client.pageResetPage, client.EosLast := by
  have hnil : EosLast [] := fun front back h => by simp [allBuckets] at h
  intro client hclient
  simp only [Client.pageResetPage, Client.pageAndReset, List.cons_append, List.nil_append,
    List.mem_cons, List.not_mem_nil, or_false] at hclient
  rcases hclient with rfl | rfl | rfl
  · exact eosLast_of_eq (l := [.data [104, 105] none]) rfl (by decide)
  · exact hnil
  · exact hnil

/-- The page is stored, the reset begins, and the page is found. -/
def Schedule.foundMidReset : List Nat :=
  List.replicate 10 0 ++ List.replicate 3 1 ++ List.replicate 8 2

theorem publishes_run_foundMidReset :
    FromClients Client.pageResetPage World.cold.fs pathsOfGetA.bodyPath [104, 105] :=
  @publishes_run Client.pageResetPage World.cold Schedule.foundMidReset eosLast_pageResetPage
    (by decide +kernel) _ _ (not_temporary_bodyPath _) (by decide +kernel)

/-- In every interleaving, what a request is served from the cache comes from a whole header and a
whole body under its own key. -/
theorem served_run (hlast : ∀ client ∈ clients, client.EosLast)
    (hfresh : Prog.Pool.Guarded World.answer PicksFresh (Serving.start clients w) schedule)
    {i : Nat} {env : Env} {r : RequestRec} {calls : List (Answer × List Bucket)}
    (hi : clients[i]? = some (.http env r calls)) {result : HandlerResult}
    (hdone : ((Serving.start clients w).after schedule).threads[i]? = some (.done (.served result))) :
    ServedFrom (FromClients clients w.fs) env r result := by
  obtain ⟨own, hends⟩ := (pooled_serving hlast hfresh).ended hdone
  rw [endsAt, hi] at hends
  exact hends.1

/-- The body that a client is served from the cache. -/
def Ended.body : Ended → Option Bytes
  | .served result => result.body
  | .purged _ => none

/-- The second request is served what the first one has stored, while the reset runs. -/
theorem served_run_foundMidReset :
    (((Serving.start Client.pageResetPage World.cold).after Schedule.foundMidReset).threads[2]?.bind
      Prog.result?).bind Ended.body = some [104, 105]
    ∧ ∀ result, ((Serving.start Client.pageResetPage World.cold).after
        Schedule.foundMidReset).threads[2]? = some (.done (.served result)) →
      ServedFrom (FromClients Client.pageResetPage World.cold.fs) (Env.ofRules [CacherRule.ofTtl 60])
        RequestRec.page result :=
  ⟨by decide +kernel, fun _ hdone => @served_run Client.pageResetPage World.cold
    Schedule.foundMidReset eosLast_pageResetPage (by decide +kernel) 2 _ _ [] rfl _ hdone⟩

/-- When all clients are done and no removal has failed, no temporary file is left that was not
there at the start. -/
theorem noTemporary_run (hlast : ∀ client ∈ clients, client.EosLast)
    (hcomplete : ∀ client ∈ clients, client.Complete)
    (hrem : w.script.RemovesOk)
    (hfresh : Prog.Pool.Guarded World.answer PicksFresh (Serving.start clients w) schedule)
    (hdone : ∀ p ∈ ((Serving.start clients w).after schedule).threads, p.result? ≠ none)
    {p : Path} {b : Bytes} (hp : Temporary p)
    (hb : ((Serving.start clients w).after schedule).shared.fs.read p = some b) :
    w.fs.read p ≠ none := by
  refine (pooled_serving hlast hfresh).noneLeft (fun i ended own hends => ?_) ?_ hdone hp hb
  · cases hi : clients[i]? with
    | none =>
        rw [endsAt, hi] at hends
        exact hends.elim
    | some client =>
        rw [endsAt, hi] at hends
        cases client with
        | tool py depth args => exact hends
        | http env r calls =>
            cases ended with
            | served result => exact hends.2 (hcomplete _ (List.mem_of_getElem? hi))
            | purged ending => exact hends.elim
  · rw [script_poolRun]
    exact hrem

/-- The reset catches the page between the write of its header and the renames, and nothing is left
of its header. -/
theorem noTemporary_run_midPublish :
    ((Serving.start Client.pageAndReset World.cold).after
      Schedule.resetMidPublish).shared.fs.read (pathsOfGetA.tmpHeaderPath default) = none := by
  by_contra hsome
  obtain ⟨b, hb⟩ := Option.ne_none_iff_exists'.mp hsome
  refine @noTemporary_run Client.pageAndReset World.cold Schedule.resetMidPublish
    (fun client h => eosLast_pageResetPage client (List.mem_append_left _ h)) (fun client h => ?_)
    (fun _ _ => rfl) (by decide +kernel) (by decide +kernel) _ b (.header pathsOfGetA default) hb rfl
  simp only [Client.pageAndReset, List.mem_cons, List.not_mem_nil, or_false] at h
  rcases h with rfl | rfl
  · exact fun _ => by decide
  · exact fun hno => absurd rfl hno

end Server

end Cacher
