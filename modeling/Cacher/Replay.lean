import Cacher.Lookup

/-!
# `Cacher.Replay`: from a captured response to a later hit

A hit on a published entry replays what `dumpHeaders` printed, behind whatever header
lines the path of the captured request smuggled into the file. `storedFields` is the list
of fields that a reader finds. `lookup_of_hitOn` is the spec of a hit in these terms, and
the two results say what it means for the table of response headers
(`headersSurvive_iff`) and for the content type (`contentTypeSurvives_iff`).
-/

set_option autoImplicit false

namespace Cacher

open CText Files

/-! ### The fields of a published block -/

/-- An end of line is a separator of the replay loop. -/
theorem blockFields_append {a : CString} (ha : a = [] ∨ ∃ text, a = text ++ [chr '\n'])
    (b : CString) : blockFields (a ++ b) = blockFields a ++ blockFields b := by
  unfold blockFields
  rw [tokens_append, List.filterMap_append]
  rcases ha with ha | ⟨text, ha⟩
  · exact Or.inl ha
  · exact Or.inr ⟨text, _, ha, by decide⟩

theorem headerLine_ends_line (e : CString × CString) :
    ∃ text, headerLine e = text ++ [chr '\n'] :=
  ⟨e.1 ++ lit ": " ++ e.2 ++ [chr '\r'], by rw [List.append_assoc]; rfl⟩

/-- A printed block is read line by line. -/
theorem blockFields_dumpHeaders (headersOut : Table) :
    blockFields (dumpHeaders headersOut)
      = (storable headersOut).flatMap fun e => blockFields (headerLine e) := by
  rw [dumpHeaders_eq]
  generalize storable headersOut = t
  induction t with
  | nil => rfl
  | cons e t ih =>
      rw [List.flatMap_cons, List.flatMap_cons,
        blockFields_append (Or.inr (headerLine_ends_line e)), ih]

/-- The name of a field is a token and its value fits on a line and starts with no blank. -/
structure IsField (e : CString × CString) : Prop where
  noColon : chr ':' ∉ e.1
  nameNoCr : chr '\r' ∉ e.1
  nameNoLf : chr '\n' ∉ e.1
  valueNoCr : chr '\r' ∉ e.2
  valueNoLf : chr '\n' ∉ e.2
  noLeadingBlank : e.2.head? ≠ some (chr ' ')

/-- The printed line of a field reads back as that field. -/
theorem blockFields_headerLine {e : CString × CString} (h : IsField e) :
    blockFields (headerLine e) = [e] := by
  have hline : ∀ c ∈ e.1 ++ lit ": " ++ e.2, (c == chr '\r' || c == chr '\n') = false := by
    intro c hc
    simp only [Bool.or_eq_false_iff, beq_eq_false_iff_ne, ne_eq]
    have hsep : chr '\r' ∉ lit ": " ∧ chr '\n' ∉ lit ": " := by decide
    rcases List.mem_append.mp hc with hc | hc
    · rcases List.mem_append.mp hc with hc | hc
      · exact ⟨fun h' => h.nameNoCr (h' ▸ hc), fun h' => h.nameNoLf (h' ▸ hc)⟩
      · exact ⟨fun h' => hsep.1 (h' ▸ hc), fun h' => hsep.2 (h' ▸ hc)⟩
    · exact ⟨fun h' => h.valueNoCr (h' ▸ hc), fun h' => h.valueNoLf (h' ▸ hc)⟩
  have htokens : tokens (fun c => c == chr '\r' || c == chr '\n') (headerLine e)
      = [e.1 ++ lit ": " ++ e.2] := by
    show tokens _ ((e.1 ++ lit ": " ++ e.2) ++ chr '\r' :: [chr '\n']) = _
    rw [tokens_append_cons _ _ _ (by decide), tokens_of_forall _ hline (by simp [lit]),
      tokens_cons_sep _ (by decide), tokens_nil, List.append_nil]
  have hvalue : (chr ' ' :: e.2).dropWhile (· == chr ' ') = e.2 := by
    rw [List.dropWhile_cons_of_pos (by simp)]
    cases hv : e.2 with
    | nil => rfl
    | cons c value =>
        have hc : (c == chr ' ') = false := by
          rw [beq_eq_false_iff_ne]
          rintro rfl
          exact h.noLeadingBlank (by rw [hv]; rfl)
        exact List.dropWhile_cons_of_neg (by rw [hc]; exact Bool.false_ne_true)
  have hfield : replayField (e.1 ++ lit ": " ++ e.2) = some e := by
    rw [replayField, List.append_assoc]
    show (cutAt [chr ':'] (e.1 ++ chr ':' :: (chr ' ' :: e.2))).map _ = _
    rw [cutAt_singleton_append h.noColon, Option.map_some, hvalue]
  rw [blockFields, htokens, List.filterMap_cons_some hfield, List.filterMap_nil]

/-- The fields a reader finds in an entry, for the path and query `url` and the response
headers `headersOut` it was written with. -/
def storedFields (url : CString) (headersOut : Table) : Table :=
  blockFields (smuggled url) ++ (storable headersOut).flatMap fun e => blockFields (headerLine e)

theorem blockFields_stored (url : CString) (headersOut : Table) :
    blockFields (smuggled url ++ dumpHeaders headersOut) = storedFields url headersOut := by
  rw [blockFields_append (smuggled_ends_line url), blockFields_dumpHeaders]
  rfl

/-- Well-formed response headers are stored as they are. -/
theorem storedFields_of_isField {url : CString} {headersOut : Table}
    (h : ∀ e ∈ headersOut, IsField e) :
    storedFields url headersOut = blockFields (smuggled url) ++ storable headersOut := by
  have hall : ∀ t : Table, (∀ e ∈ t, IsField e) →
      (t.flatMap fun e => blockFields (headerLine e)) = t := by
    intro t
    induction t with
    | nil => intro _; rfl
    | cons e t ih =>
        intro ht
        rw [List.flatMap_cons, blockFields_headerLine (ht e List.mem_cons_self),
          ih fun x hx => ht x (List.mem_cons_of_mem _ hx), List.singleton_append]
  rw [storedFields, hall (storable headersOut) fun e he => h e (List.mem_filter.mp he).1]

/-! ### A hit on an entry -/

/-- A call of `cacherCacheLookup` that hits the entry under `paths` while its header file
has the contents `file`. -/
structure HitOn (paths : EntryPaths) (file : Option Bytes) (md5 : CString → Digest)
    (r : RequestRec) (cacheRoot : Option CString) (rule : CacherRule) (w : World) : Prop where
  paths_eq : cacheKeyPaths md5 r cacheRoot rule = some paths
  header_eq : w.fs.read paths.headerPath = file
  hit : (run (cacherCacheLookup md5 r cacheRoot rule) w).1.2 ≠ none

/-- A hit replays the block of the header file into the request. -/
theorem lookup_of_hitOn {paths : EntryPaths} {text : CString} {md5 : CString → Digest}
    {r : RequestRec} {cacheRoot : Option CString} {rule : CacherRule} {w : World}
    (h : HitOn paths (some (toBytes text)) md5 r cacheRoot rule w) :
    ∃ info block, readMetaText text = some (info, block)
      ∧ (run (cacherCacheLookup md5 r cacheRoot rule) w).1.1 = replayHeaders r block := by
  obtain ⟨-, hends⟩ := cacherCacheLookup_spec md5 r cacheRoot rule w
  have hhit := h.hit
  generalize (run (cacherCacheLookup md5 r cacheRoot rule) w).1 = out at hends hhit
  cases hends with
  | early _ => exact absurd rfl hhit
  | late _ _ => exact absurd rfl hhit
  | @hit paths' info block body hfresh hbody age =>
      have hpaths := hfresh.paths_eq
      rw [h.paths_eq] at hpaths
      obtain rfl := Option.some.inj hpaths
      obtain ⟨bytes, hbytes, -, -, -, hmeta⟩ := hfresh.reads
      rw [h.header_eq] at hbytes
      cases hbytes
      rw [ofBytes_toBytes] at hmeta
      exact ⟨info, block, hmeta, rfl⟩

/-- Whether a call hits does not depend on the response headers or the content type that
the request has by then. -/
theorem HitOn.of_response {paths : EntryPaths} {file : Option Bytes} {md5 : CString → Digest}
    {r : RequestRec} {cacheRoot : Option CString} {rule : CacherRule} {w : World}
    (h : HitOn paths file md5 r cacheRoot rule w) (t : Table) (ctype : Option CString) :
    HitOn paths file md5 { r with headersOut := t, contentType := ctype } cacheRoot rule w := by
  refine ⟨h.paths_eq, h.header_eq, fun hmiss => ?_⟩
  obtain ⟨-, hends⟩ := cacherCacheLookup_spec md5 r cacheRoot rule w
  have hhit := h.hit
  generalize (run (cacherCacheLookup md5 r cacheRoot rule) w).1 = out at hends hhit
  obtain ⟨-, hends'⟩ := cacherCacheLookup_spec md5
    { r with headersOut := t, contentType := ctype } cacheRoot rule w
  generalize (run (cacherCacheLookup md5 { r with headersOut := t, contentType := ctype } cacheRoot
    rule) w).1 = out' at hends' hmiss
  cases hends with
  | early _ => exact hhit rfl
  | late _ _ => exact hhit rfl
  | @hit paths' info block body hfresh hbody age =>
      have hfresh' : FreshEntry md5 { r with headersOut := t, contentType := ctype } cacheRoot rule
          w paths' info block := ⟨hfresh.paths_eq, hfresh.reads, hfresh.fresh⟩
      cases hends' with
      | early hno => exact hno _ _ _ hfresh'
      | late hfresh'' hno =>
          obtain ⟨rfl, -, -⟩ := hfresh'.unique hfresh''
          exact hno _ hbody
      | hit _ _ _ => cases hmiss

/-- A hit on a file that `headerFileText` wrote sets the stored fields. -/
theorem lookup_of_hitOn_published {paths : EntryPaths} {info : CacherEntryMeta}
    {headersOut : Table} {md5 : CString → Digest} {r : RequestRec} {cacheRoot : Option CString}
    {rule : CacherRule} {w : World} (hmethod : chr '\n' ∉ info.method)
    (hhost : chr '\n' ∉ info.host)
    (h : HitOn paths (some (toBytes (headerFileText info (dumpHeaders headersOut)))) md5 r cacheRoot
      rule w) :
    (run (cacherCacheLookup md5 r cacheRoot rule) w).1.1
      = { r with
          headersOut := r.headersOut.setAll (replayed (storedFields info.url headersOut))
          contentType := (replayedType (storedFields info.url headersOut)).or r.contentType } := by
  obtain ⟨info', block, hmeta, hout⟩ := lookup_of_hitOn h
  rw [readMetaText_headerFileText hmethod hhost] at hmeta
  split at hmeta
  · cases hmeta
  · simp only [Option.some.injEq, Prod.mk.injEq] at hmeta
    rw [hout, replayHeaders_eq, ← hmeta.2, blockFields_stored]

/-! ### Response headers -/

section Survive

variable {r : RequestRec} {md5 : CString → Digest} {r₂ : RequestRec} {cacheRoot : Option CString}
  {rule₂ : CacherRule} {w₂ : World}

/-- The replayable ones of the storable entries are the replayable ones. -/
theorem replayed_storable (t : Table) : replayed (storable t) = replayed t := by
  rw [replayed, storable, List.filter_filter]
  refine List.filter_congr fun e _ => ?_
  cases isUncacheableHeader e.1 <;> simp

/-- The host that a capture writes holds no newline. -/
theorem notMem_host_finalMeta (hhost : ∀ host, r.hostname = some host → chr '\n' ∉ host)
    (ctx : CacherOutCtx) (w : World) : chr '\n' ∉ (finalMeta r ctx w).host := by
  show chr '\n' ∉ r.hostname.getD (lit "-")
  cases h : r.hostname with
  | none => decide
  | some host => exact hhost host h

/-- A hit on a published entry appends exactly the kept response headers of the captured
response, to whatever other headers are there, if and only if no kept name is repeated and
the names that the captured path smuggled are the first of the kept names. -/
theorem headersSurvive_iff {ctx : CacherOutCtx} {tmpBody : TempSuffix} {w : World}
    (hmethod : chr '\n' ∉ r.method) (hhost : ∀ host, r.hostname = some host → chr '\n' ∉ host)
    (hfields : ∀ e ∈ r.headersOut, IsField e)
    (hpub : (run (finalizeCacheEntry r ctx tmpBody) w).1 = true)
    (hhit : HitOn ctx.paths
      ((run (finalizeCacheEntry r ctx tmpBody) w).2.fs.read ctx.paths.headerPath)
      md5 r₂ cacheRoot rule₂ w₂) :
    (∀ t, Table.Avoids t r.headersOut →
        (run (cacherCacheLookup md5 { r₂ with headersOut := t } cacheRoot rule₂) w₂).1.1.headersOut
          = t ++ replayed r.headersOut)
      ↔ Table.Distinct (replayed r.headersOut)
        ∧ (Table.setAll [] (replayed (blockFields (smuggled
            (cacherOriginalRequest r).urlText)))).map (·.1)
          <+: (replayed r.headersOut).map (·.1) := by
  have hspec := finalizeCacheEntry_spec r ctx tmpBody w
  unfold After Prog.After at hspec
  rw [hpub, if_pos rfl] at hspec
  have hhost' := notMem_host_finalMeta hhost ctx w
  rw [hspec.header] at hhit
  have hrun : ∀ t, (run (cacherCacheLookup md5 { r₂ with headersOut := t } cacheRoot rule₂)
      w₂).1.1.headersOut = t.setAll (replayed (blockFields (smuggled
        (cacherOriginalRequest r).urlText)) ++ replayed r.headersOut) := by
    intro t
    rw [lookup_of_hitOn_published hmethod hhost' (hhit.of_response t r₂.contentType),
      storedFields_of_isField hfields, replayed, List.filter_append]
    show t.setAll (replayed _ ++ replayed (storable r.headersOut)) = _
    rw [replayed_storable]
    rfl
  constructor
  · -- The empty table is one of those that lack the names.
    intro h
    have hempty := h [] fun _ _ e he => (by cases he)
    rw [hrun, List.nil_append] at hempty
    exact Table.prefix_of_setAll_append hempty
  · rintro ⟨hdistinct, hpre⟩ t ht
    rw [hrun]
    exact Table.setAll_append_of_prefix hdistinct hpre
      fun p hp e he => ht p (List.mem_filter.mp hp).1 e he

/-- A capture of `GET /a` with the response headers `headersOut`. -/
def RequestRec.ofHeaders (headersOut : Table) : RequestRec :=
  { RequestRec.get (lit "/a") none with headersOut := headersOut }

/-- The open capture of `GET /a`. -/
def CacherOutCtx.ofGetA : CacherOutCtx := { CacherOutCtx.sample with paths := pathsOfGetA }

/-- The cache while that capture is under way. -/
def World.ofGetA : World where
  fs := { files := [(pathsOfGetA.tmpBodyPath default, [])], dirs := [] }
  script := Script.steady 100
  log := []

/-- A response with two `Link` headers is published and hit, and one of them is gone. -/
theorem headersSurvive_repeated :
    ¬ ((run (finalizeCacheEntry (RequestRec.ofHeaders [(lit "Link", lit "a"), (lit "Link", lit "b")])
          CacherOutCtx.ofGetA default) World.ofGetA).1 = true →
        (run (cacherCacheLookup md5OfGetA (RequestRec.ofHeaders []) (some (lit "/c"))
          (CacherRule.ofTtl 60)) (run (finalizeCacheEntry
            (RequestRec.ofHeaders [(lit "Link", lit "a"), (lit "Link", lit "b")])
            CacherOutCtx.ofGetA default) World.ofGetA).2).1.2 ≠ none →
        (run (cacherCacheLookup md5OfGetA (RequestRec.ofHeaders []) (some (lit "/c"))
          (CacherRule.ofTtl 60)) (run (finalizeCacheEntry
            (RequestRec.ofHeaders [(lit "Link", lit "a"), (lit "Link", lit "b")])
            CacherOutCtx.ofGetA default) World.ofGetA).2).1.1.headersOut
          = [(lit "Link", lit "a"), (lit "Link", lit "b")]) := by
  decide +kernel

/-- The replay at work on one `Link` header. -/
theorem headersSurvive_single :
    (∀ t, Table.Avoids t [(lit "Link", lit "a")] →
        (run (cacherCacheLookup md5OfGetA { RequestRec.ofHeaders [] with headersOut := t }
          (some (lit "/c")) (CacherRule.ofTtl 60)) (run (finalizeCacheEntry
            (RequestRec.ofHeaders [(lit "Link", lit "a")]) CacherOutCtx.ofGetA default)
            World.ofGetA).2).1.1.headersOut = t ++ replayed [(lit "Link", lit "a")])
      ↔ Table.Distinct (replayed [(lit "Link", lit "a")])
        ∧ (Table.setAll [] (replayed (blockFields (smuggled
            (cacherOriginalRequest (RequestRec.ofHeaders [(lit "Link", lit "a")])).urlText)))).map
            (·.1) <+: (replayed [(lit "Link", lit "a")]).map (·.1) := by
  refine headersSurvive_iff (r := RequestRec.ofHeaders [(lit "Link", lit "a")])
    (by decide) (fun _ h => by cases h) ?_ (by decide +kernel) ⟨rfl, rfl, by decide +kernel⟩
  intro e he
  rw [List.mem_singleton.mp he]
  exact ⟨by decide, by decide, by decide, by decide, by decide, by decide⟩

/-- A hit on a published entry has the content type that the filter saw, whatever the
request had before, if and only if that is the last one among the stored fields. -/
theorem contentTypeSurvives_iff {rule : CacherRule} {paths : EntryPaths} {x : Response} {w : World}
    (hmethod : chr '\n' ∉ x.last.method)
    (hhost : ∀ host, x.last.hostname = some host → chr '\n' ∉ host)
    (hctype : filterContentType x.first ≠ none)
    (hpub : (run (captureResponse (CacherOutCtx.fresh rule paths) x.calls) w).1.published = true)
    (hhit : HitOn paths ((run (captureResponse (CacherOutCtx.fresh rule paths) x.calls) w).2.fs.read
      paths.headerPath) md5 r₂ cacheRoot rule₂ w₂) :
    (∀ before, (run (cacherCacheLookup md5 { r₂ with contentType := before } cacheRoot rule₂)
        w₂).1.1.contentType = filterContentType x.first)
      ↔ replayedType (storedFields (cacherOriginalRequest x.last).urlText x.last.headersOut)
        = filterContentType x.first := by
  obtain ⟨ctx, suffix, w₁, hcap, -, hpublished⟩ :=
    (captureResponse_spec rule paths x w).published hpub
  have hhost' := notMem_host_finalMeta hhost ctx w₁
  have hheader := hpublished.header
  rw [hcap.paths_eq] at hheader
  unfold run at hhit
  rw [hheader] at hhit
  have hrun : ∀ before, (run (cacherCacheLookup md5 { r₂ with contentType := before } cacheRoot
      rule₂) w₂).1.1.contentType = (replayedType (storedFields
        (cacherOriginalRequest x.last).urlText x.last.headersOut)).or before := by
    intro before
    rw [lookup_of_hitOn_published hmethod hhost' (hhit.of_response r₂.headersOut before)]
    rfl
  constructor
  · intro h
    have hnone := h none
    rwa [hrun, Option.or_none] at hnone
  · intro h before
    obtain ⟨ctype, hctype⟩ := Option.ne_none_iff_exists'.mp hctype
    rw [hrun, h, hctype, Option.some_or]

/-- A page of one brigade whose type is known from `r->content_type` alone. -/
def Response.onePage (headersOut : Table) : Response :=
  Response.ofBucket { RequestRec.ofHeaders headersOut with contentType := some (lit "text/html") }
    [104, 105] none

/-- The cache before anything is stored. -/
def World.cold : World := ⟨FileSystem.empty, Script.steady 100, []⟩

/-- The page is published and hit, and the hit has no content type. -/
theorem contentTypeSurvives_onePage :
    ¬ ((run (captureResponse (CacherOutCtx.fresh (CacherRule.ofTtl 60) pathsOfGetA)
          (Response.onePage []).calls) World.cold).1.published = true →
        (run (cacherCacheLookup md5OfGetA (RequestRec.ofHeaders []) (some (lit "/c"))
          (CacherRule.ofTtl 60)) (run (captureResponse (CacherOutCtx.fresh (CacherRule.ofTtl 60)
            pathsOfGetA) (Response.onePage []).calls) World.cold).2).1.2 ≠ none →
        (run (cacherCacheLookup md5OfGetA (RequestRec.ofHeaders []) (some (lit "/c"))
          (CacherRule.ofTtl 60)) (run (captureResponse (CacherOutCtx.fresh (CacherRule.ofTtl 60)
            pathsOfGetA) (Response.onePage []).calls) World.cold).2).1.1.contentType
          = some (lit "text/html")) := by
  decide +kernel

/-- The content type at work on the same page with the type in its headers. -/
theorem contentTypeSurvives_header :
    (∀ before, (run (cacherCacheLookup md5OfGetA { RequestRec.ofHeaders [] with contentType := before }
        (some (lit "/c")) (CacherRule.ofTtl 60)) (run (captureResponse (CacherOutCtx.fresh
          (CacherRule.ofTtl 60) pathsOfGetA) (Response.onePage [(lit "Content-Type",
            lit "text/html")]).calls) World.cold).2).1.1.contentType
        = filterContentType (Response.onePage [(lit "Content-Type", lit "text/html")]).first)
      ↔ replayedType (storedFields (cacherOriginalRequest (Response.onePage [(lit "Content-Type",
          lit "text/html")]).last).urlText [(lit "Content-Type", lit "text/html")])
        = filterContentType (Response.onePage [(lit "Content-Type", lit "text/html")]).first :=
  contentTypeSurvives_iff (x := Response.onePage [(lit "Content-Type", lit "text/html")])
    (by decide) (fun _ h => by cases h) (by decide) (by decide +kernel)
    ⟨rfl, rfl, by decide +kernel⟩

end Survive

end Cacher
