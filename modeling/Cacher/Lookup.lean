import Cacher.Response

/-!
# `Cacher.Lookup`: serving an entry

`cacherCacheLookup` reads the header of the request's entry, replays the stored headers
into the request, and opens the body. `replayHeaders_eq` says what the replay does: one
`apr_table_setn` for each stored field and the last `Content-Type`.

The headers are replayed before the body is opened. `cacherCacheLookup_spec` lists the
ways a call can end, and `cacherCacheLookup_miss_iff` says exactly when a miss leaves the
request as it was.
-/

set_option autoImplicit false

namespace Cacher

open CText Files

/-- One line of the stored block: the name in front of the first colon and the value
behind it, without leading blanks. A line without a colon is skipped. -/
def replayField (line : CString) : Option (CString × CString) :=
  (cutAt [chr ':'] line).map fun cut => (cut.1, cut.2.dropWhile (· == chr ' '))

/-- One turn of the loop over the stored block. -/
def replayLine (r : RequestRec) (line : CString) : RequestRec :=
  match replayField line with
  | none => r
  | some (name, value) =>
    if cacherStreqCi name (lit "Content-Type") then { r with contentType := some value }
    else if !isUncacheableHeader name then { r with headersOut := r.headersOut.setn name value }
    else r

/-- The loop of `cacher_cache_lookup` over the stored block. -/
def replayHeaders (r : RequestRec) (block : CString) : RequestRec :=
  (tokens (fun c => c == chr '\r' || c == chr '\n') block).foldl replayLine r

/-- What a hit returns: the open body file and the three out-parameters. -/
structure Hit where
  body : Bytes
  status : Int32
  length : Nat
  age : Int64
  deriving DecidableEq

/-- `cacher_cache_lookup` behind the test of `expires`: the headers are replayed, then the
body is opened. -/
def serveFresh (r : RequestRec) (paths : EntryPaths) (info : CacherEntryMeta)
    (headersAt : CString) : FileProg (RequestRec × Option Hit) := do
  -- From here on every return leaves the replayed headers in the request.
  let r := replayHeaders r headersAt
  match ← openRead paths.bodyPath with
  | none => pure (r, none)
  | some bf =>
    match ← infoSize bf with
    | none => pure (r, none)
    | some length =>
      if 0 < info.created then
        let now ← timeNow
        pure (r, some ⟨bf, info.status, length, now - info.created⟩)
      else pure (r, some ⟨bf, info.status, length, -1⟩)

/-- `cacher_cache_lookup` behind `cacher_cache_read_meta`. -/
def serveFound (r : RequestRec) (paths : EntryPaths) :
    Option (CacherEntryMeta × CString) → FileProg (RequestRec × Option Hit)
  | none => pure (r, none)
  | some (info, headersAt) => do
    let now ← timeNow
    if info.expires ≤ now then pure (r, none) else serveFresh r paths info headersAt

/-- `cacher_cache_lookup`. The request comes back as the call leaves it, on a miss too. -/
def cacherCacheLookup (md5 : CString → Digest) (r : RequestRec) (cacheRoot : Option CString)
    (rule : CacherRule) : FileProg (RequestRec × Option Hit) := do
  match cacheKeyPaths md5 r cacheRoot rule with
  | none => pure (r, none)
  | some paths =>
    let found ← cacherCacheReadMeta paths.headerPath
    serveFound r paths found

/-! ### What the replay does -/

/-- The fields of a stored block, in order. -/
def blockFields (block : CString) : Table :=
  (tokens (fun c => c == chr '\r' || c == chr '\n') block).filterMap replayField

/-- The fields that go into the response header table. -/
def replayed (fields : Table) : Table :=
  fields.filter fun e => !eqCi e.1 (lit "Content-Type") && !isUncacheableHeader e.1

/-- The content type that the fields set, if they set one. -/
def replayedType (fields : Table) : Option CString := fields.lastValue (lit "Content-Type")

/-- The replay sets the replayable fields one by one, and the last content type. -/
theorem replayHeaders_eq (r : RequestRec) (block : CString) :
    replayHeaders r block
      = { r with
          headersOut := r.headersOut.setAll (replayed (blockFields block))
          contentType := (replayedType (blockFields block)).or r.contentType } := by
  unfold replayHeaders blockFields
  generalize tokens (fun c => c == chr '\r' || c == chr '\n') block = lines
  induction lines generalizing r with
  | nil => rfl
  | cons line lines ih =>
      rw [List.foldl_cons, ih, replayLine]
      cases hfield : replayField line with
      -- A line without a colon is no field on either side.
      | none => simp [hfield]
      | some e =>
          obtain ⟨name, value⟩ := e
          rw [List.filterMap_cons_some hfield]
          simp only [cacherStreqCi_eq_eqCi]
          have hlast : replayedType ((name, value) :: lines.filterMap replayField)
              = (replayedType (lines.filterMap replayField)).or
                  (if eqCi name (lit "Content-Type") then some value else none) := by
            rw [replayedType, Table.lastValue_cons, Table.named, eqCi_symm]
            rfl
          rw [hlast]
          cases htype : eqCi name (lit "Content-Type") with
          | true => simp [replayed, htype]
          | false =>
              cases hun : isUncacheableHeader name with
              | true => simp [replayed, htype, hun]
              | false => simp [replayed, htype, hun]

/-! ### How a call can end -/

/-- The entry under `paths` is the entry of the request, and its header can be read and is
fresh when the clock is read. -/
structure FreshEntry (md5 : CString → Digest) (r : RequestRec) (cacheRoot : Option CString)
    (rule : CacherRule) (w : World) (paths : EntryPaths) (info : CacherEntryMeta)
    (block : CString) : Prop where
  paths_eq : cacheKeyPaths md5 r cacheRoot rule = some paths
  reads : HeaderReads w paths.headerPath (info, block)
  fresh : ¬ info.expires ≤ w.clockAt 3

/-- Behind a fresh header, the body at `p` can be opened and its size can be taken. -/
structure BodyOpens (w : World) (p : Path) (body : Bytes) : Prop where
  read_eq : w.fs.read p = some body
  opens : w.allowsAt 4 (.openRead p) = true
  stats : w.allowsAt 5 (.infoSize body) = true

/-- There is at most one fresh entry. -/
theorem FreshEntry.unique {md5 : CString → Digest} {r : RequestRec} {cacheRoot : Option CString}
    {rule : CacherRule} {w : World} {p₁ p₂ : EntryPaths} {i₁ i₂ : CacherEntryMeta}
    {b₁ b₂ : CString} (h₁ : FreshEntry md5 r cacheRoot rule w p₁ i₁ b₁)
    (h₂ : FreshEntry md5 r cacheRoot rule w p₂ i₂ b₂) : p₁ = p₂ ∧ i₁ = i₂ ∧ b₁ = b₂ := by
  have hpaths := h₁.paths_eq
  rw [h₂.paths_eq] at hpaths
  obtain rfl := Option.some.inj hpaths
  -- The paths are the same, so both headers come from one text.
  obtain ⟨t₁, ht₁, -, -, -, hm₁⟩ := h₁.reads
  obtain ⟨t₂, ht₂, -, -, -, hm₂⟩ := h₂.reads
  rw [ht₁] at ht₂
  cases ht₂
  rw [hm₁] at hm₂
  cases hm₂
  exact ⟨rfl, rfl, rfl⟩

/-- The three ways a lookup can end. -/
inductive LookupEnds (md5 : CString → Digest) (r : RequestRec) (cacheRoot : Option CString)
    (rule : CacherRule) (w : World) : RequestRec × Option Hit → Prop where
  /-- No fresh header. -/
  | early (hno : ∀ paths info block, ¬ FreshEntry md5 r cacheRoot rule w paths info block) :
      LookupEnds md5 r cacheRoot rule w (r, none)
  /-- A fresh header, but no body. -/
  | late {paths : EntryPaths} {info : CacherEntryMeta} {block : CString}
      (hfresh : FreshEntry md5 r cacheRoot rule w paths info block)
      (hno : ∀ body, ¬ BodyOpens w paths.bodyPath body) :
      LookupEnds md5 r cacheRoot rule w (replayHeaders r block, none)
  /-- A hit. -/
  | hit {paths : EntryPaths} {info : CacherEntryMeta} {block : CString} {body : Bytes}
      (hfresh : FreshEntry md5 r cacheRoot rule w paths info block)
      (hbody : BodyOpens w paths.bodyPath body) (age : Int64) :
      LookupEnds md5 r cacheRoot rule w
        (replayHeaders r block, some ⟨body, info.status, body.length, age⟩)

section Ends

variable {md5 : CString → Digest} {r : RequestRec} {cacheRoot : Option CString} {rule : CacherRule}
  {w : World} {paths : EntryPaths}

/-- Behind a fresh header, the call ends late or in a hit. -/
theorem lookupEnds_serveFresh {info : CacherEntryMeta} {block : CString} {w₂ : World}
    (hentry : FreshEntry md5 r cacheRoot rule w paths info block) (hfs₂ : w₂.fs = w.fs)
    (hallows : ∀ n op, w₂.allowsAt n op = w.allowsAt (n + 4) op) :
    After (serveFresh r paths info block) w₂ fun out w' =>
      w'.fs = w.fs ∧ LookupEnds md5 r cacheRoot rule w out := by
  refine Prog.after_bind.mpr (after_openRead (fun w₃ hopen h₃ => ?_) (fun w₃ hopen h₃ => ?_))
  · rw [hallows] at hopen
    rw [hfs₂]
    cases hbody : w.fs.read paths.bodyPath with
    | none =>
        refine Prog.after_pure.mpr ⟨by rw [h₃.fs_eq, hfs₂], .late hentry fun body h => ?_⟩
        have hread := h.read_eq
        rw [hbody] at hread
        cases hread
    | some bf =>
        refine Prog.after_bind.mpr (after_infoSize (fun w₄ hstat h₄ => ?_) (fun w₄ hstat h₄ => ?_))
        · rw [h₃.allowsAt_eq, hallows] at hstat
          have hend : w₄.fs = w.fs := by rw [h₄.fs_eq, h₃.fs_eq, hfs₂]
          -- The age is only computed from a creation time.
          show After (if 0 < info.created then _ else _) w₄ _
          split
          · refine Prog.after_bind.mpr (after_timeNow fun w₅ h₅ =>
              Prog.after_pure.mpr ⟨by rw [h₅.fs_eq, hend], ?_⟩)
            exact .hit hentry ⟨hbody, hopen, hstat⟩ _
          · exact Prog.after_pure.mpr ⟨hend, .hit hentry ⟨hbody, hopen, hstat⟩ _⟩
        · rw [h₃.allowsAt_eq, hallows] at hstat
          refine Prog.after_pure.mpr ⟨by rw [h₄.fs_eq, h₃.fs_eq, hfs₂],
            .late hentry fun body h => ?_⟩
          have hread := h.read_eq
          rw [hbody] at hread
          cases hread
          have hstats := h.stats
          rw [hstat] at hstats
          cases hstats
  · rw [hallows] at hopen
    refine Prog.after_pure.mpr ⟨by rw [h₃.fs_eq, hfs₂], .late hentry fun body h => ?_⟩
    have hopens := h.opens
    rw [hopen] at hopens
    cases hopens

/-- Behind the three calls that read the header. -/
theorem lookupEnds_serveFound (hpaths : cacheKeyPaths md5 r cacheRoot rule = some paths)
    {result : Option (CacherEntryMeta × CString)} {w₁ : World} (hfs₁ : w₁.fs = w.fs)
    (hscript₁ : w₁.script = w.script) (hlog₁ : result ≠ none → w₁.log.length = w.log.length + 3)
    (hfound : ∀ out, result = some out ↔ HeaderReads w paths.headerPath out) :
    After (serveFound r paths result) w₁ fun out w' =>
      w'.fs = w.fs ∧ LookupEnds md5 r cacheRoot rule w out := by
  -- A fresh entry is the one just read.
  have honly : ∀ {paths' info block}, FreshEntry md5 r cacheRoot rule w paths' info block →
      result = some (info, block) ∧ ¬ info.expires ≤ w.clockAt 3 := by
    intro paths' info block h
    have heq := h.paths_eq
    rw [hpaths] at heq
    obtain rfl := Option.some.inj heq
    exact ⟨(hfound _).mpr h.reads, h.fresh⟩
  cases result with
  | none =>
      refine Prog.after_pure.mpr ⟨hfs₁, .early fun paths' info block h => ?_⟩
      cases (honly h).1
  | some found =>
      obtain ⟨info, block⟩ := found
      have hlen := hlog₁ (Option.some_ne_none _)
      have hclock : w₁.clockAt 0 = w.clockAt 3 := by
        simp [World.clockAt, hscript₁, hlen]
      refine Prog.after_bind.mpr (after_timeNow fun w₂ h₂ => ?_)
      rw [hclock]
      split
      · rename_i hexpired
        refine Prog.after_pure.mpr ⟨by rw [h₂.fs_eq, hfs₁], .early fun paths' info' block' h => ?_⟩
        obtain ⟨hsame, hfresh⟩ := honly h
        cases hsame
        exact hfresh hexpired
      · rename_i hfresh
        refine lookupEnds_serveFresh ⟨hpaths, (hfound _).mp rfl, hfresh⟩ (by rw [h₂.fs_eq, hfs₁])
          fun n op => ?_
        have hn : w.log.length + 3 + (n + 1) = w.log.length + (n + 4) := by omega
        rw [h₂.allowsAt_eq]
        simp only [World.allowsAt, hscript₁, hlen, hn]

end Ends

theorem cacherCacheLookup_spec (md5 : CString → Digest) (r : RequestRec)
    (cacheRoot : Option CString) (rule : CacherRule) (w : World) :
    After (cacherCacheLookup md5 r cacheRoot rule) w fun out w' =>
      w'.fs = w.fs ∧ LookupEnds md5 r cacheRoot rule w out := by
  unfold cacherCacheLookup
  cases hpaths : cacheKeyPaths md5 r cacheRoot rule with
  | none =>
      refine Prog.after_pure.mpr ⟨rfl, .early fun paths info block h => ?_⟩
      rw [h.paths_eq] at hpaths
      cases hpaths
  | some paths =>
      refine Prog.after_bind.mpr ((cacherCacheReadMeta_spec paths.headerPath w).mono
        fun result w₁ h₁ => ?_)
      obtain ⟨hfs₁, hscript₁, hlog₁, hfound⟩ := h₁
      exact lookupEnds_serveFound hpaths hfs₁ hscript₁ hlog₁ hfound

/-- A lookup opens the two files of its entry and reads them and the clock. -/
theorem uses_cacherCacheLookup {A : FileOp → Prop} {md5 : CString → Digest} {r : RequestRec}
    {cacheRoot : Option CString} {rule : CacherRule}
    (hopen : ∀ paths, cacheKeyPaths md5 r cacheRoot rule = some paths →
      A (.openRead paths.headerPath) ∧ A (.openRead paths.bodyPath))
    (hnow : A .timeNow) (hinfo : ∀ hf, A (.infoSize hf)) (hread : ∀ hf n, A (.readFull hf n)) :
    Prog.Uses A (cacherCacheLookup md5 r cacheRoot rule) := by
  unfold cacherCacheLookup
  cases hpaths : cacheKeyPaths md5 r cacheRoot rule with
  | none => exact Prog.uses_pure _ _
  | some paths =>
      obtain ⟨hheader, hbody⟩ := hopen paths hpaths
      refine Prog.uses_bind (uses_cacherCacheReadMeta hheader hinfo hread) fun found => ?_
      cases found with
      | none => exact Prog.uses_pure _ _
      | some found =>
          refine Prog.uses_bind (Prog.uses_perform hnow) fun now => ?_
          show Prog.Uses _ (if _ then _ else _)
          split
          · exact Prog.uses_pure _ _
          refine Prog.uses_bind (Prog.uses_perform hbody) fun bf => ?_
          cases bf with
          | none => exact Prog.uses_pure _ _
          | some bf =>
              refine Prog.uses_bind (Prog.uses_perform (hinfo bf)) fun length => ?_
              cases length with
              | none => exact Prog.uses_pure _ _
              | some length =>
                  show Prog.Uses _ (if _ then _ else _)
                  split
                  · exact Prog.uses_bind (Prog.uses_perform hnow) fun _ => Prog.uses_pure _ _
                  · exact Prog.uses_pure _ _

theorem fetches_cacherCacheLookup (md5 : CString → Digest) (r : RequestRec)
    (cacheRoot : Option CString) (rule : CacherRule) :
    Prog.Uses FileOp.Fetches (cacherCacheLookup md5 r cacheRoot rule) :=
  uses_cacherCacheLookup (fun _ _ => ⟨trivial, trivial⟩) trivial (fun _ => trivial) fun _ _ => trivial

/-! ### When a miss leaves the request alone -/

/-- Replaying `block` changes neither the response headers nor the content type: every name
it sets is already there with its last value as the only one. -/
structure ReplayNeutral (r : RequestRec) (block : CString) : Prop where
  headersOut : ∀ e ∈ replayed (blockFields block), ∃ v,
    (replayed (blockFields block)).lastValue e.1 = some v ∧ r.headersOut.valuesOf e.1 = [v]
  contentType : ∀ v, replayedType (blockFields block) = some v → r.contentType = some v

theorem replayNeutral_iff (r : RequestRec) (block : CString) :
    ReplayNeutral r block ↔ (replayHeaders r block).headersOut = r.headersOut
      ∧ (replayHeaders r block).contentType = r.contentType := by
  have htype : (∀ v, replayedType (blockFields block) = some v → r.contentType = some v)
      ↔ (replayHeaders r block).contentType = r.contentType := by
    rw [replayHeaders_eq]
    show _ ↔ (replayedType (blockFields block)).or r.contentType = r.contentType
    cases replayedType (blockFields block) with
    | none => simp
    | some v =>
        rw [Option.some_or]
        constructor
        · intro h
          exact (h v rfl).symm
        · intro h v' hv'
          rw [← hv', h]
  rw [← htype, replayHeaders_eq]
  show _ ↔ r.headersOut.setAll (replayed (blockFields block)) = r.headersOut ∧ _
  rw [Table.setAll_eq_self_iff]
  constructor
  · intro h
    exact ⟨h.headersOut, h.contentType⟩
  · intro h
    exact ⟨h.1, h.2⟩

/-- The header of the request's entry is readable and fresh, its body cannot be opened or
statted, and the stored headers are not all there already. -/
def LateMiss (md5 : CString → Digest) (r : RequestRec) (cacheRoot : Option CString)
    (rule : CacherRule) (w : World) : Prop :=
  ∃ paths info block, FreshEntry md5 r cacheRoot rule w paths info block
    ∧ (∀ body, ¬ BodyOpens w paths.bodyPath body) ∧ ¬ ReplayNeutral r block

/-- A miss leaves the response headers and the content type alone, except exactly when the
header was fresh and only the body was missing. -/
theorem cacherCacheLookup_miss_iff (md5 : CString → Digest) (r : RequestRec)
    (cacheRoot : Option CString) (rule : CacherRule) (w : World) :
    ((run (cacherCacheLookup md5 r cacheRoot rule) w).1.2 = none →
        (run (cacherCacheLookup md5 r cacheRoot rule) w).1.1.headersOut = r.headersOut
        ∧ (run (cacherCacheLookup md5 r cacheRoot rule) w).1.1.contentType = r.contentType)
      ↔ ¬ LateMiss md5 r cacheRoot rule w := by
  obtain ⟨-, hends⟩ := cacherCacheLookup_spec md5 r cacheRoot rule w
  generalize (run (cacherCacheLookup md5 r cacheRoot rule) w).1 = out at hends
  cases hends with
  | early hno =>
      constructor
      · intro _ h
        obtain ⟨paths, info, block, hfresh, -, -⟩ := h
        exact hno paths info block hfresh
      · intro _ _
        exact ⟨rfl, rfl⟩
  | late hfresh hno =>
      rw [← replayNeutral_iff]
      constructor
      · intro h hlate
        obtain ⟨paths', info', block', hfresh', -, hneutral⟩ := hlate
        obtain ⟨-, -, rfl⟩ := hfresh.unique hfresh'
        exact hneutral (h rfl)
      · intro h _
        by_contra hneutral
        exact h ⟨_, _, _, hfresh, hno, hneutral⟩
  | hit hfresh hbody age =>
      constructor
      · intro _ h
        obtain ⟨paths', info', block', hfresh', hno', -⟩ := h
        obtain ⟨rfl, -, -⟩ := hfresh.unique hfresh'
        exact hno' _ hbody
      · intro _ h
        cases h

/-- The MD5 digest of the key of `GET /a`, given for every text. -/
def md5OfGetA : CString → Digest := fun _ =>
  #v[0x59, 0xf9, 0xa9, 0x36, 0x24, 0xbc, 0xcb, 0x2e, 0xa4, 0x4a, 0x0c, 0xcb, 0x08, 0x50, 0xbb, 0xd8]

/-- The paths of the entry of `GET /a` under `/c`. -/
def pathsOfGetA : EntryPaths := { cacheRoot := lit "/c", digest := md5OfGetA [] }

theorem isWord_h : IsWord (lit "h") := ⟨by decide, by decide, by decide⟩

/-- A cache that holds a fresh header for `GET /a` and no body. -/
def World.headerOnly : World where
  fs := { files := [(pathsOfGetA.headerPath, toBytes (headerFileText
            ⟨100, 160, 200, lit "GET", lit "-", lit "/a"⟩ (lit "X-A: 1\r\n")))], dirs := [] }
  script := Script.steady 100
  log := []

/-- The miss on that cache leaves `X-A` in the response headers. -/
theorem cacherCacheLookup_headerOnly :
    ¬ ((run (cacherCacheLookup md5OfGetA (RequestRec.get (lit "/a") none) (some (lit "/c"))
            (CacherRule.ofTtl 60)) World.headerOnly).1.2 = none →
        (run (cacherCacheLookup md5OfGetA (RequestRec.get (lit "/a") none) (some (lit "/c"))
            (CacherRule.ofTtl 60)) World.headerOnly).1.1.headersOut = []
        ∧ (run (cacherCacheLookup md5OfGetA (RequestRec.get (lit "/a") none) (some (lit "/c"))
            (CacherRule.ofTtl 60)) World.headerOnly).1.1.contentType = none) := by
  decide +kernel

end Cacher
