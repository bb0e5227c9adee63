import Cacher.Capture

/-!
# `Cacher.Response`: a whole response passes the filter

A `Response` is the list of calls of the filter for one response, with EOS once and last.
`captureResponse_spec` is the run lemma. Its invariant `Capturing` says that the temporary
file holds exactly the bytes that were read so far, or that the capture was abandoned and
has left nothing behind. `captureBucket_spec` is the step that keeps it.

A failed read that reports length 0 adds nothing to the file and does not abandon the
capture. `wholeBody_iff` states when this matters.
-/

set_option autoImplicit false

namespace Cacher

open CText Files

/-- The bytes of a data bucket. -/
def Bucket.content : Bucket → Bytes
  | .data content _ => content
  | .eos | .metadata => []

/-- The bytes of a data bucket that the filter reads. -/
def Bucket.stored : Bucket → Bytes
  | .data content none => content
  | .data _ (some _) | .eos | .metadata => []

/-- Reading the bucket fails. -/
def Bucket.readFails : Bucket → Bool
  | .data _ (some _) => true
  | .data _ none | .eos | .metadata => false

/-- Reading the bucket fails, and the failure reports a positive length. -/
def Bucket.readFailsLoudly : Bucket → Bool
  | .data _ (some len) => 0 < len
  | .data _ none | .eos | .metadata => false

/-- A response as the filter receives it: EOS comes once, at the end of the last call. -/
structure Response where
  /-- The calls in front of the last one. -/
  earlier : List (RequestRec × List Bucket)
  /-- The request at the last call. -/
  last : RequestRec
  /-- The buckets of the last call in front of EOS. -/
  lastBuckets : List Bucket
  noEos_earlier : ∀ call ∈ earlier, .eos ∉ call.2
  noEos_last : .eos ∉ lastBuckets

namespace Response

/-- The calls of the filter. -/
def calls (x : Response) : List (RequestRec × List Bucket) :=
  x.earlier ++ [(x.last, x.lastBuckets ++ [.eos])]

/-- The request at the first call. -/
def first (x : Response) : RequestRec := (x.earlier.map (·.1)).headD x.last

/-- All buckets in front of EOS. -/
def buckets (x : Response) : List Bucket := x.earlier.flatMap (·.2) ++ x.lastBuckets

/-- The bytes of the response. -/
def body (x : Response) : Bytes := x.buckets.flatMap Bucket.content

/-- The bytes of the response that the filter reads. -/
def stored (x : Response) : Bytes := x.buckets.flatMap Bucket.stored

end Response

/-- A capture that began with the files `start` has seen the buckets `seen`. Either it is
open and its temporary file holds what was read, or it has left no trace. -/
structure Capturing (rule : CacherRule) (paths : EntryPaths) (accepted : Bool) (start : World)
    (seen : List Bucket) (ctx : CacherOutCtx) (w : World) : Prop where
  rule_eq : ctx.rule = rule
  paths_eq : ctx.paths = paths
  started : ctx.started = true
  notPublished : ctx.published = false
  script_eq : w.script = start.script
  isOpen : ∀ suffix, ctx.tmpBody = some suffix →
    accepted = true
    ∧ start.fs.read (paths.tmpBodyPath suffix) = none
    ∧ (∀ q, w.fs.read q = if q = paths.tmpBodyPath suffix then some (seen.flatMap Bucket.stored)
        else start.fs.read q)
    ∧ ctx.bodyLen = (seen.flatMap Bucket.stored).length
    ∧ (∀ e ∈ seen, e.readFailsLoudly = false)
    ∧ NoFailedWrite start w
  isClosed : ctx.tmpBody = none →
    (start.script.RemovesOk → ∀ q, w.fs.read q = start.fs.read q)
    ∧ (start.script.AllOk → accepted = false
        ∨ (∃ suffix, start.fs.read (paths.tmpBodyPath suffix) ≠ none)
        ∨ ∃ e ∈ seen, e.readFailsLoudly = true)

section Steps

variable {rule : CacherRule} {paths : EntryPaths} {accepted : Bool} {start : World}
  {seen : List Bucket} {ctx : CacherOutCtx} {w : World}

/-- A bucket that adds no bytes and is no loud failure leaves an open capture as it is. A
closed one ignores every bucket. -/
theorem Capturing.skip (h : Capturing rule paths accepted start seen ctx w) {e : Bucket}
    (hskip : ctx.tmpBody ≠ none → e.stored = [] ∧ e.readFailsLoudly = false) :
    Capturing rule paths accepted start (seen ++ [e]) ctx w := by
  refine ⟨h.rule_eq, h.paths_eq, h.started, h.notPublished, h.script_eq, ?_, ?_⟩
  · intro suffix hopen
    obtain ⟨hacc, hfree, hread, hlen, hloud, hwrites⟩ := h.isOpen suffix hopen
    have he := hskip (by rw [hopen]; exact Option.some_ne_none _)
    have hbytes : (seen ++ [e]).flatMap Bucket.stored = seen.flatMap Bucket.stored := by
      simp [he.1]
    rw [hbytes]
    refine ⟨hacc, hfree, hread, hlen, fun x hx => ?_, hwrites⟩
    rcases List.mem_append.mp hx with hx | hx
    · exact hloud x hx
    · rw [List.mem_singleton.mp hx]
      exact he.2
  · intro hclosed
    obtain ⟨hread, hwhy⟩ := h.isClosed hclosed
    refine ⟨hread, fun hall => ?_⟩
    rcases hwhy hall with hacc | htmp | ⟨x, hx, hx'⟩
    · exact Or.inl hacc
    · exact Or.inr (Or.inl htmp)
    · exact Or.inr (Or.inr ⟨x, List.mem_append_left _ hx, hx'⟩)

/-- Bytes that were read and written make an open capture grow. -/
theorem Capturing.grow (h : Capturing rule paths accepted start seen ctx w) {suffix : TempSuffix}
    (hopen : ctx.tmpBody = some suffix) {content : Bytes} {w₁ : World}
    (h₁ : w.Called (.writeFull (paths.tmpBodyPath suffix) content) true
      (w.fs.append (paths.tmpBodyPath suffix) content) w₁) :
    Capturing rule paths accepted start (seen ++ [.data content none])
      { ctx with bodyLen := ctx.bodyLen + content.length } w₁ := by
  obtain ⟨hacc, hfree, hread, hlen, hloud, hwrites⟩ := h.isOpen suffix hopen
  refine ⟨h.rule_eq, h.paths_eq, h.started, h.notPublished, ?_, ?_, ?_⟩
  · rw [h₁.script_eq, h.script_eq]
  · intro s hs
    obtain rfl : s = suffix := by
      have hs' : ctx.tmpBody = some s := hs
      rw [hopen] at hs'
      exact (Option.some.inj hs').symm
    have hbytes : (seen ++ [Bucket.data content none]).flatMap Bucket.stored
        = seen.flatMap Bucket.stored ++ content := by
      simp [Bucket.stored]
    rw [hbytes]
    refine ⟨hacc, hfree, fun q => ?_, ?_, fun x hx => ?_, fun p data hmem => ?_⟩
    · rw [h₁.fs_eq, FileSystem.read_append, hread, if_pos rfl]
      by_cases hq : q = paths.tmpBodyPath s
      · rw [if_pos hq, if_pos hq]
        rfl
      · rw [if_neg hq, if_neg hq, hread, if_neg hq]
    · show ctx.bodyLen + content.length = _
      rw [hlen, List.length_append]
    · rcases List.mem_append.mp hx with hx | hx
      · exact hloud x hx
      · rw [List.mem_singleton.mp hx]
        rfl
    · rw [h₁.log_eq] at hmem
      exact hwrites p data (by simpa using hmem)
  · intro hclosed
    have hclosed' : ctx.tmpBody = none := hclosed
    rw [hopen] at hclosed'
    cases hclosed'

/-- Removing the temporary file closes the capture without a trace. -/
theorem Capturing.abandon (h : Capturing rule paths accepted start seen ctx w) {suffix : TempSuffix}
    (hopen : ctx.tmpBody = some suffix) {e : Bucket} {w₁ w₂ : World} {fs : FileSystem} {ok : Bool}
    (hread : ∀ q, q ≠ paths.tmpBodyPath suffix → w₁.fs.read q = w.fs.read q)
    (hscript : w₁.script = w.script)
    (hremoved : Removed w₁.script w₁.fs (paths.tmpBodyPath suffix) fs)
    (hcalled : w₁.Called (.remove (paths.tmpBodyPath suffix)) ok fs w₂)
    (hwhy : start.script.AllOk → e.readFailsLoudly = true) :
    Capturing rule paths accepted start (seen ++ [e]) { ctx with tmpBody := none } w₂ := by
  obtain ⟨-, hfree, hread', -, -, -⟩ := h.isOpen suffix hopen
  refine ⟨h.rule_eq, h.paths_eq, h.started, h.notPublished, ?_, ?_, ?_⟩
  · rw [hcalled.script_eq, hscript, h.script_eq]
  · intro s hs
    cases hs
  · intro _
    refine ⟨fun hrem q => ?_, fun hall => ?_⟩
    · rw [hcalled.fs_eq]
      by_cases hq : q = paths.tmpBodyPath suffix
      · rw [hq, hremoved.gone (by rw [hscript, h.script_eq]; exact hrem), hfree]
      · rw [hremoved.other q hq, hread q hq, hread', if_neg hq]
    · exact Or.inr (Or.inr ⟨e, by simp, hwhy hall⟩)

/-- One data bucket keeps the invariant of the capture. -/
theorem captureData_spec (h : Capturing rule paths accepted start seen ctx w) {suffix : TempSuffix}
    (hopen : ctx.tmpBody = some suffix) (content : Bytes) (failure : Option Nat) :
    After (captureData ctx suffix content failure) w
      (Capturing rule paths accepted start (seen ++ [.data content failure])) := by
  obtain rfl := h.paths_eq
  unfold captureData
  cases failure with
  | some len =>
      -- A failed read: nothing is written, and a positive length abandons the entry.
      rw [if_neg (by simp)]
      refine Prog.after_bind.mpr (Prog.after_pure.mpr ?_)
      simp only [Bool.false_eq_true, if_false, Option.getD_some]
      split
      · rename_i hpos
        refine Prog.after_bind.mpr (after_remove fun ok fs w₁ hremoved h₁ => Prog.after_pure.mpr ?_)
        exact h.abandon hopen (fun _ _ => rfl) rfl hremoved h₁
          (fun _ => by simpa [Bucket.readFailsLoudly] using hpos)
      · rename_i hpos
        exact Prog.after_pure.mpr (h.skip fun _ => ⟨rfl, by
          simpa [Bucket.readFailsLoudly] using hpos⟩)
  | none =>
      rw [Option.getD_none]
      by_cases hpos : 0 < content.length
      · rw [if_pos ⟨rfl, hpos⟩]
        refine Prog.after_bind.mpr (after_writeFull (fun w₁ h₁ => ?_) (fun part w₁ hno h₁ => ?_))
        · simp only [if_true]
          exact Prog.after_pure.mpr (h.grow hopen h₁)
        · simp only [Bool.false_eq_true, if_false, if_pos hpos]
          refine Prog.after_bind.mpr (after_remove fun ok fs w₂ hremoved h₂ =>
            Prog.after_pure.mpr ?_)
          refine h.abandon hopen (fun q hq => ?_) h₁.script_eq hremoved h₂ fun hall => ?_
          · rw [h₁.fs_eq, FileSystem.read_append, if_neg hq]
          · rw [← h.script_eq] at hall
            exact absurd hall hno
      · rw [if_neg (by simp [hpos])]
        refine Prog.after_bind.mpr (Prog.after_pure.mpr ?_)
        simp only [Bool.false_eq_true, if_false, if_neg hpos]
        have hnil : content = [] := List.length_eq_zero_iff.mp (Nat.eq_zero_of_not_pos hpos)
        exact Prog.after_pure.mpr (h.skip fun _ => ⟨hnil, rfl⟩)

/-- One bucket in front of EOS keeps the invariant of the capture. -/
theorem captureBucket_spec (h : Capturing rule paths accepted start seen ctx w) (r : RequestRec)
    {e : Bucket} (he : e ≠ .eos) :
    After (captureBucket r ctx e) w (Capturing rule paths accepted start (seen ++ [e])) := by
  unfold captureBucket
  cases hopen : ctx.tmpBody with
  | none => exact Prog.after_pure.mpr (h.skip fun hopen' => absurd hopen hopen')
  | some suffix =>
      cases e with
      | eos => exact absurd rfl he
      | metadata => exact Prog.after_pure.mpr (h.skip fun _ => ⟨rfl, rfl⟩)
      | data content failure => exact captureData_spec h hopen content failure

/-- The first call opens a temporary file when the response is accepted. -/
theorem startCapture_spec (rule : CacherRule) (paths : EntryPaths) (r : RequestRec) (w : World) :
    After (startCapture r (CacherOutCtx.fresh rule paths)) w
      (Capturing rule paths (filterAccepts r rule) w []) := by
  -- A capture that has opened nothing.
  have hclosed : ∀ w₁ : World, w₁.script = w.script → (∀ q, w₁.fs.read q = w.fs.read q) →
      (w.script.AllOk → filterAccepts r rule = false
        ∨ ∃ suffix, w.fs.read (paths.tmpBodyPath suffix) ≠ none) →
      Capturing rule paths (filterAccepts r rule) w []
        { CacherOutCtx.fresh rule paths with started := true, tmpBody := none } w₁ := by
    intro w₁ hscript hread hwhy
    refine ⟨rfl, rfl, rfl, rfl, hscript, fun s hs => (by cases hs),
      fun _ => ⟨fun _ => hread, fun hall => ?_⟩⟩
    rcases hwhy hall with h | h
    · exact Or.inl h
    · exact Or.inr (Or.inl h)
  unfold startCapture
  rw [if_neg (by exact Bool.false_ne_true)]
  split
  · rename_i hacc
    refine Prog.after_bind.mpr (after_dirMakeRecursive (fun w₁ h₁ => ?_) (fun w₁ hno h₁ => ?_))
    · rw [if_pos rfl]
      refine Prog.after_bind.mpr (after_mktemp (fun suffix w₂ hfree h₂ => ?_)
        (fun w₂ hno h₂ => ?_))
      · rw [h₁.fs_eq, FileSystem.read_makeDir] at hfree
        refine Prog.after_pure.mpr ⟨rfl, rfl, rfl, rfl, ?_, ?_, fun hs => (by cases hs)⟩
        · rw [h₂.script_eq, h₁.script_eq]
        · intro s hs
          cases hs
          refine ⟨hacc, hfree, fun q => ?_, rfl, fun e he => (by cases he), fun p data hmem => ?_⟩
          · rw [h₂.fs_eq, FileSystem.read_put, h₁.fs_eq, FileSystem.read_makeDir]
            rfl
          · rw [h₂.log_eq, h₁.log_eq] at hmem
            simpa using hmem
      · rw [h₁.fs_eq, h₁.script_eq] at hno
        refine Prog.after_pure.mpr (hclosed w₂ (by rw [h₂.script_eq, h₁.script_eq]) (fun q => ?_)
          fun hall => Or.inr (hno hall))
        rw [h₂.fs_eq, h₁.fs_eq, FileSystem.read_makeDir]
    · rw [if_neg Bool.false_ne_true]
      exact Prog.after_pure.mpr (hclosed w₁ h₁.script_eq (fun q => by rw [h₁.fs_eq])
        fun hall => absurd hall hno)
  · rename_i hacc
    exact Prog.after_pure.mpr (hclosed w rfl (fun _ => rfl)
      fun _ => Or.inl (Bool.eq_false_iff.mpr hacc))

/-- Later calls do not start again. -/
theorem startCapture_of_started {r : RequestRec} (h : ctx.started = true) :
    startCapture r ctx = pure ctx := if_pos h

/-- A call of the filter without EOS keeps the invariant of the capture. -/
theorem cacherOutputFilter_spec (r : RequestRec)
    (hstart : After (startCapture r ctx) w
      (Capturing rule paths accepted start seen)) {bb : List Bucket} (hbb : .eos ∉ bb) :
    After (cacherOutputFilter r ctx bb) w
      (Capturing rule paths accepted start (seen ++ bb)) := by
  unfold cacherOutputFilter
  refine Prog.after_bind.mpr (hstart.mono fun ctx₁ w₁ h₁ => ?_)
  refine Prog.after_foldlM (I := fun done => Capturing rule paths accepted start (seen ++ done))
    (by rw [List.append_nil]; exact h₁) fun done e ctx₂ w₂ h₂ he => ?_
  rw [← List.append_assoc]
  refine captureBucket_spec h₂ r ?_
  rintro rfl
  exact hbb he

/-- So do the calls of the filter in front of the one with EOS. -/
theorem captureResponse_earlier_spec
    (h : Capturing rule paths accepted start seen ctx w) {calls : List (RequestRec × List Bucket)}
    (hcalls : ∀ call ∈ calls, .eos ∉ call.2) :
    After (captureResponse ctx calls) w
      (Capturing rule paths accepted start (seen ++ calls.flatMap (·.2))) := by
  unfold captureResponse
  refine Prog.after_foldlM
    (I := fun done => Capturing rule paths accepted start
      (seen ++ done.flatMap fun call : RequestRec × List Bucket => call.2))
    (by rw [List.flatMap_nil, List.append_nil]; exact h) fun done call ctx₁ w₁ h₁ hcall => ?_
  rw [List.flatMap_append, List.flatMap_singleton, ← List.append_assoc]
  refine cacherOutputFilter_spec call.1 ?_ (hcalls call hcall)
  rw [startCapture_of_started h₁.started]
  exact Prog.after_pure.mpr h₁

/-- What a whole response leaves behind: an entry, published from an open capture, or what
the capture or its end removed. -/
structure Captured (rule : CacherRule) (paths : EntryPaths) (x : Response) (start : World)
    (ctx' : CacherOutCtx) (w' : World) : Prop where
  published : ctx'.published = true → ∃ ctx suffix w,
    Capturing rule paths (filterAccepts x.first rule) start x.buckets ctx w
    ∧ ctx.tmpBody = some suffix ∧ Published x.last ctx suffix w w'
  unpublished : ctx'.published = false → ∃ ctx w,
    Capturing rule paths (filterAccepts x.first rule) start x.buckets ctx w
    ∧ ((ctx.tmpBody = none ∧ w' = w)
      ∨ ∃ suffix, ctx.tmpBody = some suffix ∧ Unpublished x.last ctx suffix w w')

/-- The call with EOS ends the capture. -/
theorem cacherOutputFilter_last_spec {x : Response}
    (hseen : x.buckets = seen ++ x.lastBuckets) (hacc : accepted = filterAccepts x.first rule)
    (hstart : After (startCapture x.last ctx) w
      (Capturing rule paths accepted start seen)) :
    After (cacherOutputFilter x.last ctx (x.lastBuckets ++ [.eos])) w
      (Captured rule paths x start) := by
  have hprog : cacherOutputFilter x.last ctx (x.lastBuckets ++ [.eos])
      = cacherOutputFilter x.last ctx x.lastBuckets >>= fun ctx => captureBucket x.last ctx .eos := by
    unfold cacherOutputFilter
    simp only [List.foldlM_append, List.foldlM_cons, List.foldlM_nil, bind_assoc, bind_pure]
  rw [hprog]
  refine Prog.after_bind.mpr
    ((cacherOutputFilter_spec x.last hstart x.noEos_last).mono fun ctx₁ w₁ h₁ => ?_)
  rw [← hseen, hacc] at h₁
  unfold captureBucket
  cases hopen : ctx₁.tmpBody with
  | none =>
      refine Prog.after_pure.mpr ⟨fun h => ?_, fun _ => ⟨ctx₁, w₁, h₁, Or.inl ⟨hopen, rfl⟩⟩⟩
      rw [h₁.notPublished] at h
      cases h
  | some suffix =>
      refine Prog.after_bind.mpr ((finalizeCacheEntry_spec x.last ctx₁ suffix w₁).mono
        fun published w₂ h₂ => Prog.after_pure.mpr ?_)
      cases published with
      | true =>
          refine ⟨fun _ => ⟨ctx₁, suffix, w₁, h₁, hopen, h₂⟩, fun h => ?_⟩
          simp at h
      | false =>
          refine ⟨fun h => ?_, fun _ => ⟨ctx₁, w₁, h₁, Or.inr ⟨suffix, hopen, h₂⟩⟩⟩
          simp [h₁.notPublished] at h

end Steps

/-- What a whole response leaves behind, for every outcome of every call. -/
theorem captureResponse_spec (rule : CacherRule) (paths : EntryPaths) (x : Response) (w : World) :
    After (captureResponse (CacherOutCtx.fresh rule paths) x.calls) w
      (Captured rule paths x w) := by
  have hstart := fun r => startCapture_spec rule paths r w
  obtain ⟨earlier, last, lastBuckets, hearlier, hlast⟩ := x
  cases earlier with
  | nil =>
      -- The only call opens the capture and ends it.
      show After (captureResponse _ [(last, lastBuckets ++ [.eos])]) w _
      unfold captureResponse
      simp only [List.foldlM_cons, List.foldlM_nil, bind_pure]
      exact cacherOutputFilter_last_spec (x := ⟨[], last, lastBuckets, hearlier, hlast⟩) rfl rfl
        (hstart last)
  | cons call earlier =>
      show After (captureResponse _ (call :: (earlier ++ [(last, lastBuckets ++ [.eos])]))) w _
      unfold captureResponse
      simp only [List.foldlM_cons, List.foldlM_append, List.foldlM_nil, bind_pure]
      refine Prog.after_bind.mpr ((cacherOutputFilter_spec call.1 (hstart call.1)
        (hearlier call List.mem_cons_self)).mono fun ctx₁ w₁ h₁ => ?_)
      refine Prog.after_bind.mpr ((captureResponse_earlier_spec h₁
        fun c hc => hearlier c (List.mem_cons_of_mem _ hc)).mono fun ctx₂ w₂ h₂ => ?_)
      have hseen : (Response.mk (call :: earlier) last lastBuckets hearlier hlast).buckets
          = ([] ++ call.2 ++ earlier.flatMap (·.2)) ++ lastBuckets := rfl
      refine cacherOutputFilter_last_spec hseen rfl ?_
      show After (startCapture last ctx₂) w₂ _
      rw [startCapture_of_started h₂.started]
      exact Prog.after_pure.mpr h₂

/-! ### When the published body is the whole body -/

/-- Whatever the calls come to, apart from removals: a published body is the whole body and
has the declared length, and after a failed read or write nothing is published and no
temporary body remains. -/
def WholeBody (rule : CacherRule) (paths : EntryPaths) (x : Response) : Prop :=
  ∀ (fs : FileSystem) (script : Script), script.RemovesOk →
    After (captureResponse (CacherOutCtx.fresh rule paths) x.calls) ⟨fs, script, []⟩ fun ctx w =>
      (ctx.published = true →
        w.fs.read paths.bodyPath = some x.body
        ∧ lengthMismatch x.last.headersOut x.body.length = false)
      ∧ ((∃ e ∈ x.buckets, e.readFails = true) ∨ (∃ p data, (.writeFull p data, false) ∈ w.log) →
        ctx.published = false
        ∧ ∀ suffix, fs.read (paths.tmpBodyPath suffix) = none →
          w.fs.read (paths.tmpBodyPath suffix) = none)

/-- A read fails with length 0 in a response that nothing else keeps from being published. -/
structure SilentHole (rule : CacherRule) (x : Response) : Prop where
  accepted : filterAccepts x.first rule = true
  fails : ∃ e ∈ x.buckets, e.readFails = true
  silent : ∀ e ∈ x.buckets, e.readFailsLoudly = false
  notAborted : x.last.aborted = false
  lengthOk : lengthMismatch x.last.headersOut x.stored.length = false

/-- Where no read fails, the bytes read are the bytes of the response. -/
theorem Response.stored_eq_body {x : Response} (h : ∀ e ∈ x.buckets, e.readFails = false) :
    x.stored = x.body := by
  unfold stored body
  have hall : ∀ l : List Bucket, (∀ e ∈ l, e.readFails = false) →
      l.flatMap Bucket.stored = l.flatMap Bucket.content := by
    intro l
    induction l with
    | nil => intro _; rfl
    | cons e l ih =>
        intro hl
        rw [List.flatMap_cons, List.flatMap_cons, ih fun x hx => hl x (List.mem_cons_of_mem _ hx)]
        have he := hl e List.mem_cons_self
        cases e with
        | eos => rfl
        | metadata => rfl
        | data content failure =>
            cases failure with
            | none => rfl
            | some len => cases he
  exact hall x.buckets h

/-- A response with a silent hole is published when every call succeeds. -/
theorem SilentHole.published {rule : CacherRule} {x : Response} (h : SilentHole rule x)
    (paths : EntryPaths) :
    (run (captureResponse (CacherOutCtx.fresh rule paths) x.calls)
      ⟨FileSystem.empty, Script.steady 0, []⟩).1.published = true := by
  have hall := Script.allOk_steady 0
  have hspec := captureResponse_spec rule paths x ⟨FileSystem.empty, Script.steady 0, []⟩
  unfold After Prog.After at hspec
  by_contra hno
  -- Each reason for not publishing is excluded.
  obtain ⟨ctx, w, hcap, hend⟩ := hspec.unpublished (by simpa using hno)
  rcases hend with ⟨hclosed, -⟩ | ⟨suffix, hopen, hun⟩
  · obtain ⟨-, hwhy⟩ := hcap.isClosed hclosed
    rcases hwhy hall with hacc | ⟨s, hs⟩ | ⟨e, he, hloud⟩
    · rw [h.accepted] at hacc
      cases hacc
    · exact hs rfl
    · rw [h.silent e he] at hloud
      cases hloud
  · obtain ⟨-, -, hread, hlen, -, -⟩ := hcap.isOpen suffix hopen
    rcases hun.why (by rw [hcap.script_eq]; exact hall) with hab | hmis | htmp | ⟨s, hs⟩
    · rw [h.notAborted] at hab
      cases hab
    · rw [hlen] at hmis
      have hok := h.lengthOk
      unfold Response.stored at hok
      rw [hok] at hmis
      cases hmis
    · rw [hcap.paths_eq, hread, if_pos rfl] at htmp
      cases htmp
    · rw [hcap.paths_eq, hread, if_neg (EntryPaths.tmpBodyPath_ne_tmpHeaderPath _ _ _ _).symm] at hs
      exact hs rfl

theorem SilentHole.not_wholeBody {rule : CacherRule} {x : Response} (h : SilentHole rule x)
    (paths : EntryPaths) : ¬ WholeBody rule paths x := by
  intro hwhole
  have hafter := hwhole FileSystem.empty (Script.steady 0) (Script.allOk_steady 0).removesOk
  have hno := (hafter.2 (Or.inl h.fails)).1
  rw [h.published paths] at hno
  cases hno

/-- The body is whole exactly when no read fails silently in a response that is otherwise
published. -/
theorem wholeBody_iff (rule : CacherRule) (paths : EntryPaths) (x : Response) :
    WholeBody rule paths x ↔ ¬ SilentHole rule x := by
  constructor
  · intro h hole
    exact hole.not_wholeBody paths h
  · intro hole fs script hrem
    refine (captureResponse_spec rule paths x ⟨fs, script, []⟩).mono fun ctx' w' hcap => ?_
    cases hpub : ctx'.published with
    | true =>
        obtain ⟨ctx, suffix, w, hcap, hopen, hpub'⟩ := hcap.published hpub
        obtain ⟨hacc, hfree, hread, hlen, hloud, hwrites⟩ := hcap.isOpen suffix hopen
        have hstored : x.buckets.flatMap Bucket.stored = x.stored := rfl
        have hlength := hpub'.lengthOk
        rw [hlen, hstored] at hlength
        -- What was published lacks nothing but a failed read, and that is the hole.
        have hreads : ∀ e ∈ x.buckets, e.readFails = false := by
          intro e he
          by_contra hfails
          exact hole ⟨hacc, ⟨e, he, by simpa using hfails⟩, hloud, hpub'.notAborted, hlength⟩
        rw [Response.stored_eq_body hreads] at hlength hstored
        refine ⟨fun _ => ⟨?_, hlength⟩, fun hfail => ?_⟩
        · rw [← hcap.paths_eq, hpub'.body, hcap.paths_eq, hread, if_pos rfl, hstored]
        · rcases hfail with ⟨e, he, hfails⟩ | ⟨p, data, hmem⟩
          · rw [hreads e he] at hfails
            cases hfails
          · have hold := hwrites p data (hpub'.writes p data hmem)
            cases hold
    | false =>
        refine ⟨fun h => (by cases h), fun _ => ⟨rfl, fun s hs => ?_⟩⟩
        -- A temporary body was never made, or is removed.
        obtain ⟨ctx, w, hcap, hend⟩ := hcap.unpublished hpub
        rcases hend with ⟨hclosed, rfl⟩ | ⟨suffix, hopen, hun⟩
        · rw [(hcap.isClosed hclosed).1 hrem]
          exact hs
        · obtain ⟨-, hfree, hread, -, -, -⟩ := hcap.isOpen suffix hopen
          have hpaths := hcap.paths_eq
          by_cases hq : paths.tmpBodyPath s = paths.tmpBodyPath suffix
          · rw [hq, ← hpaths]
            exact hun.tmpGone (by rw [hcap.script_eq]; exact hrem)
          · rw [hun.kept.other _ (EntryPaths.tmpBodyPath_ne_bodyPath _ _ _)
              (by rw [hpaths]; exact hq)
              fun _ => EntryPaths.tmpBodyPath_ne_tmpHeaderPath _ _ _ _, hread, if_neg hq]
            exact hs

/-- A response of one brigade with one data bucket. -/
def Response.ofBucket (last : RequestRec) (content : Bytes) (failure : Option Nat) : Response where
  earlier := []
  last := last
  lastBuckets := [.data content failure]
  noEos_earlier _ h := by cases h
  noEos_last h := nomatch List.mem_singleton.mp h

/-- A response of one bucket whose read fails with length 0. -/
def Response.silent : Response :=
  Response.ofBucket (RequestRec.get (lit "/a") none) [104, 105] (some 0)

/-- It is published with an empty body. -/
theorem not_wholeBody_silent :
    ¬ WholeBody (CacherRule.ofTtl 60) CacherOutCtx.sample.paths Response.silent := by
  refine SilentHole.not_wholeBody ⟨by decide, ?_, ?_, rfl, rfl⟩ _
  · exact ⟨.data [104, 105] (some 0), List.mem_singleton.mpr rfl, rfl⟩
  · intro e he
    rw [List.mem_singleton.mp he]
    rfl

end Cacher
