import Cacher.Lookup

/-!
# `Cacher.Noninterference`: headers that never cross requests

Some response headers belong to one transfer or to one visitor. `isPerTransfer` names
those that a stored entry must not depend on. `Content-Length` is not among them, because
the length check reads it.

Writing and reading are treated apart. A capture does not see the per-transfer headers at
all: two captures that differ in nothing else run the same program
(`captureResponse_congr`), so whatever happens to one happens to the other. A lookup may
meet any header file, and sets no header with an excluded name
(`headersOut_cacherCacheLookup`).
-/

set_option autoImplicit false

namespace Cacher

open CText Files

/-- A header that says nothing about the stored page: it describes the connection, the
visitor or the cache itself. -/
def isPerTransfer (name : CString) : Bool :=
  eqCi name (lit "Set-Cookie") || eqCi name (lit "Connection") || eqCi name (lit "Keep-Alive")
    || eqCi name (lit "Transfer-Encoding") || eqCi name (lit "X-Cacher") || eqCi name (lit "Age")

/-- The entries that a stored page may depend on. -/
def lasting (headersOut : Table) : Table := headersOut.filter (!isPerTransfer ·.1)

/-- Two requests that differ at most in per-transfer response headers. -/
def SameLasting (r r' : RequestRec) : Prop :=
  ∃ t, r' = { r with headersOut := t } ∧ lasting r.headersOut = lasting t

/-- Two calls of the filter with the same buckets, for such requests. -/
def SameCall (call call' : RequestRec × List Bucket) : Prop :=
  SameLasting call.1 call'.1 ∧ call.2 = call'.2

/-! ### Writing -/

/-- A per-transfer header is not stored. -/
theorem isUncacheableHeader_of_isPerTransfer {name : CString} (h : isPerTransfer name = true) :
    isUncacheableHeader name = true := by
  simp only [isPerTransfer, Bool.or_eq_true] at h
  rw [isUncacheableHeader_eq]
  rcases h with ((((h | h) | h) | h) | h) | h <;> simp [h]

/-- The storable entries are among the lasting ones. -/
theorem storable_lasting (t : Table) : storable (lasting t) = storable t := by
  rw [storable, lasting, List.filter_filter]
  refine List.filter_congr fun e _ => ?_
  cases hper : isPerTransfer e.1 with
  | false => simp
  | true => simp [isUncacheableHeader_of_isPerTransfer hper]

/-- A name that is not per-transfer is looked up among the lasting entries. -/
theorem get_lasting {name : CString} (h : isPerTransfer name = false) (t : Table) :
    (lasting t).get name = t.get name := by
  unfold Table.get lasting
  rw [List.find?_filter]
  congr 2
  funext e
  cases hname : Table.named name e with
  | false => simp
  | true =>
      -- An entry under this name is no per-transfer header either.
      have hsame : isPerTransfer e.1 = isPerTransfer name := by
        simp only [isPerTransfer, eqCi_congr_left hname]
      simp [hsame, h]

section Congr

variable {r r' : RequestRec}

/-- Such requests answer alike to every question of a capture. -/
theorem SameLasting.get_eq (h : SameLasting r r') {name : CString}
    (hname : isPerTransfer name = false) : r'.headersOut.get name = r.headersOut.get name := by
  obtain ⟨t, rfl, hlasting⟩ := h
  show t.get name = r.headersOut.get name
  rw [← get_lasting hname t, ← hlasting, get_lasting hname]

theorem SameLasting.dumpHeaders_eq (h : SameLasting r r') :
    dumpHeaders r'.headersOut = dumpHeaders r.headersOut := by
  obtain ⟨t, rfl, hlasting⟩ := h
  show dumpHeaders t = dumpHeaders r.headersOut
  rw [Cacher.dumpHeaders_eq, Cacher.dumpHeaders_eq, ← storable_lasting t, ← hlasting,
    storable_lasting]

theorem SameLasting.lengthMismatch_eq (h : SameLasting r r') (bodyLen : Nat) :
    lengthMismatch r'.headersOut bodyLen = lengthMismatch r.headersOut bodyLen := by
  unfold lengthMismatch
  rw [h.get_eq (by decide)]

theorem SameLasting.filterAccepts_eq (h : SameLasting r r') (rule : CacherRule) :
    filterAccepts r' rule = filterAccepts r rule := by
  have htype : filterContentType r' = filterContentType r := by
    have hget := h.get_eq (show isPerTransfer (lit "Content-Type") = false by decide)
    obtain ⟨t, rfl, -⟩ := h
    unfold filterContentType
    rw [hget]
  obtain ⟨t, rfl, -⟩ := h
  unfold filterAccepts
  rw [htype]

theorem finalizeCacheEntry_congr (h : SameLasting r r') (ctx : CacherOutCtx)
    (tmpBody : TempSuffix) : finalizeCacheEntry r' ctx tmpBody = finalizeCacheEntry r ctx tmpBody := by
  have hdump := h.dumpHeaders_eq
  have hlength := h.lengthMismatch_eq ctx.bodyLen
  obtain ⟨t, rfl, -⟩ := h
  unfold finalizeCacheEntry
  rw [hlength, hdump]
  rfl

theorem captureBucket_congr (h : SameLasting r r') (ctx : CacherOutCtx) (e : Bucket) :
    captureBucket r' ctx e = captureBucket r ctx e := by
  unfold captureBucket
  simp only [finalizeCacheEntry_congr h]

/-- One call of the filter is the same program. -/
theorem cacherOutputFilter_congr (h : SameLasting r r') (ctx : CacherOutCtx) (bb : List Bucket) :
    cacherOutputFilter r' ctx bb = cacherOutputFilter r ctx bb := by
  have hbucket : captureBucket r' = captureBucket r :=
    funext fun ctx => funext fun e => captureBucket_congr h ctx e
  unfold cacherOutputFilter startCapture
  rw [h.filterAccepts_eq, hbucket]

end Congr

/-- A capture is the same program whatever per-transfer headers come with the response. -/
theorem captureResponse_congr {calls calls' : List (RequestRec × List Bucket)}
    (h : List.Forall₂ SameCall calls calls') (ctx : CacherOutCtx) :
    captureResponse ctx calls' = captureResponse ctx calls := by
  unfold captureResponse
  induction h generalizing ctx with
  | nil => rfl
  | @cons call call' calls calls' hcall _ ih =>
      rw [List.foldlM_cons, List.foldlM_cons, cacherOutputFilter_congr hcall.1, hcall.2]
      exact congrArg _ (funext ih)

/-! ### Reading -/

/-- Setting a header with another name leaves the entries with excluded names alone. -/
theorem filter_isUncacheableHeader_setn {name : CString} (h : isUncacheableHeader name = false)
    (t : Table) (value : CString) :
    (t.setn name value).filter (isUncacheableHeader ·.1) = t.filter (isUncacheableHeader ·.1) := by
  -- No excluded entry has this name, so each filter may drop that name first.
  have hdrop : ∀ u : Table, u.filter (isUncacheableHeader ·.1)
      = (u.filter (!Table.named name ·)).filter (isUncacheableHeader ·.1) := by
    intro u
    rw [List.filter_filter]
    refine List.filter_congr fun e _ => ?_
    cases hname : Table.named name e with
    | false => simp
    | true =>
        have hsame : isUncacheableHeader e.1 = isUncacheableHeader name := by
          simp only [isUncacheableHeader_eq, eqCi_congr_left hname]
        simp [hsame, h]
  rw [hdrop, Table.filter_not_named_setn, ← hdrop]

/-- A replay adds no entry with an excluded name and takes none away. -/
theorem filter_replayHeaders (r : RequestRec) (block : CString) :
    (replayHeaders r block).headersOut.filter (isUncacheableHeader ·.1)
      = r.headersOut.filter (isUncacheableHeader ·.1) := by
  rw [replayHeaders_eq]
  show (r.headersOut.setAll (replayed (blockFields block))).filter _ = _
  have hreplayed : ∀ e ∈ replayed (blockFields block), isUncacheableHeader e.1 = false := by
    intro e he
    have hkept := (List.mem_filter.mp he).2
    simp only [Bool.and_eq_true] at hkept
    simpa using hkept.2
  generalize replayed (blockFields block) = fields at hreplayed
  generalize r.headersOut = t
  induction fields generalizing t with
  | nil => rfl
  | cons e fields ih =>
      rw [Table.setAll_cons, ih (fun x hx => hreplayed x (List.mem_cons_of_mem _ hx)),
        filter_isUncacheableHeader_setn (hreplayed e List.mem_cons_self)]

/-- Whatever the files hold, a lookup leaves the entries with excluded names as they were. -/
theorem headersOut_cacherCacheLookup (md5 : CString → Digest) (r : RequestRec)
    (cacheRoot : Option CString) (rule : CacherRule) (w : World) :
    (run (cacherCacheLookup md5 r cacheRoot rule) w).1.1.headersOut.filter (isUncacheableHeader ·.1)
      = r.headersOut.filter (isUncacheableHeader ·.1) := by
  obtain ⟨-, hends⟩ := cacherCacheLookup_spec md5 r cacheRoot rule w
  generalize (run (cacherCacheLookup md5 r cacheRoot rule) w).1 = out at hends
  cases hends with
  | early _ => rfl
  | late _ _ => exact filter_replayHeaders r _
  | hit _ _ _ => exact filter_replayHeaders r _

/-! ### Both ways -/

/-- Two captures that differ only in per-transfer headers publish both or neither, with the
same header file, and no lookup sets a header with an excluded name. -/
theorem perTransfer_headers_stay :
    (∀ (ctx : CacherOutCtx) (calls calls' : List (RequestRec × List Bucket)) (w : World),
        List.Forall₂ SameCall calls calls' →
        (run (captureResponse ctx calls') w).1.published
            = (run (captureResponse ctx calls) w).1.published
        ∧ ∀ q, (run (captureResponse ctx calls') w).2.fs.read q
            = (run (captureResponse ctx calls) w).2.fs.read q)
      ∧ ∀ (md5 : CString → Digest) (r : RequestRec) (cacheRoot : Option CString)
          (rule : CacherRule) (w : World) (e : CString × CString), isUncacheableHeader e.1 = true →
        (run (cacherCacheLookup md5 r cacheRoot rule) w).1.1.headersOut.count e
          = r.headersOut.count e := by
  constructor
  · intro ctx calls calls' w h
    rw [captureResponse_congr h]
    exact ⟨rfl, fun _ => rfl⟩
  · intro md5 r cacheRoot rule w e he
    have hsame := headersOut_cacherCacheLookup md5 r cacheRoot rule w
    have hcount := congrArg (List.count e) hsame
    have hkeep : ∀ t : Table, (t.filter (isUncacheableHeader ·.1)).count e = t.count e :=
      fun t => List.count_filter he
    rwa [hkeep, hkeep] at hcount

/-- `GET /a`, answered with a session cookie. -/
def RequestRec.withSession : RequestRec :=
  { RequestRec.get (lit "/a") none with headersOut := [(lit "set-cookie", lit "s=1")] }

/-- The cookie makes no difference to what is published, nor does a lookup bring one in. -/
theorem perTransfer_headers_stay_withSession :
    ((run (captureResponse CacherOutCtx.sample [(RequestRec.withSession, [.eos])])
            World.sample).1.published
        = (run (captureResponse CacherOutCtx.sample [(RequestRec.get (lit "/a") none, [.eos])])
            World.sample).1.published
      ∧ ∀ q, (run (captureResponse CacherOutCtx.sample [(RequestRec.withSession, [.eos])])
            World.sample).2.fs.read q
        = (run (captureResponse CacherOutCtx.sample [(RequestRec.get (lit "/a") none, [.eos])])
            World.sample).2.fs.read q)
      ∧ (run (cacherCacheLookup md5OfGetA RequestRec.withSession (some (lit "/c"))
            (CacherRule.ofTtl 60)) World.headerOnly).1.1.headersOut.count
              (lit "set-cookie", lit "s=1")
        = RequestRec.withSession.headersOut.count (lit "set-cookie", lit "s=1") :=
  ⟨perTransfer_headers_stay.1 _ _ _ _ (.cons ⟨⟨_, rfl, by decide⟩, rfl⟩ .nil),
    perTransfer_headers_stay.2 _ _ _ _ _ _ (by decide)⟩

end Cacher
