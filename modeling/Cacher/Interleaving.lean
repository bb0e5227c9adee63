import Cacher.Admin
import Cacher.Replay

/-!
# `Cacher.Interleaving`: captures, deletions and lookups of one key at the same time

An entry is two files, and nothing links them. The programs of this module run interleaved,
one file call at a time: captures that have reached EOS, deletions, and lookups, any number
of each, all on the key with the paths `e`.

A hit is pure when its header and its body come from one response (`OneResponse`). This
does not hold of every run (`not_pureHits_overtaken`): a capture puts its body in place
while the header of the entry before is still there. `pureHits_of_careful` says which steps
are to blame: a body that goes in place while a lookup is between the two files, a header
that goes in place next to the body of another capture and stays there, and a lookup that
starts while a capture is between its two renames. In every run without such a step, every
hit is pure.
-/

set_option autoImplicit false

namespace Cacher

open CText Files

/-! ### The programs -/

/-- What one of the programs returns. -/
inductive Ending where
  | captured (published : Bool)
  | deleted
  | looked (r : RequestRec) (hit : Option Hit)

/-- One of the programs. -/
inductive Job where
  /-- A capture that has reached EOS, with its temporary body file. -/
  | capture (r : RequestRec) (ctx : CacherOutCtx) (tmpBody : TempSuffix)
  | delete (headerPath : Path)
  | lookup (r : RequestRec) (rule : CacherRule)

/-- What the job runs. -/
def Job.prog (md5 : CString → Digest) (cacheRoot : Option CString) : Job → FileProg Ending
  | .capture r ctx tmpBody => do
    let published ← finalizeCacheEntry r ctx tmpBody
    pure (.captured published)
  | .delete headerPath => do
    deleteEntry headerPath
    pure .deleted
  | .lookup r rule => do
    let found ← cacherCacheLookup md5 r cacheRoot rule
    pure (.looked found.1 found.2)

/-- The job works on the entry with the paths `e`. -/
def Job.OnKey (md5 : CString → Digest) (cacheRoot : Option CString) (e : EntryPaths) : Job → Prop
  | .capture _ ctx _ => ctx.paths = e
  | .delete headerPath => headerPath = e.headerPath
  | .lookup r rule => cacheKeyPaths md5 r cacheRoot rule = some e

/-- `text` is a header file that the job writes. -/
def Job.Header : Job → Bytes → Prop
  | .capture r ctx _, text => ∃ created now,
      text = toBytes (headerFileText (entryMeta r ctx.rule created now) (dumpHeaders r.headersOut))
  | .delete _, _ => False
  | .lookup _ _, _ => False

/-- The body that the job has captured. -/
def Job.body (start : FileSystem) : Job → Option Bytes
  | .capture _ ctx tmpBody => start.read (ctx.paths.tmpBodyPath tmpBody)
  | .delete _ => none
  | .lookup _ _ => none

/-- The header and the body are those of one response: a captured one, or the one stored at
the start. -/
inductive OneResponse (e : EntryPaths) (jobs : List Job) (start : FileSystem)
    (text body : Bytes) : Prop where
  | stored (hheader : start.read e.headerPath = some text)
      (hbody : start.read e.bodyPath = some body)
  | captured {j : Job} (hj : j ∈ jobs) (hheader : j.Header text) (hbody : j.body start = some body)

/-- The request `r` was answered by a hit out of one response. -/
def PureHit (e : EntryPaths) (jobs : List Job) (start : FileSystem) (r r' : RequestRec)
    (hit : Hit) : Prop :=
  ∃ text info block, OneResponse e jobs start text hit.body
    ∧ readMetaText (ofBytes text) = some (info, block)
    ∧ hit.status = info.status ∧ r' = replayHeaders r block

/-- What has been started, and how far it is. -/
abbrev Running : Type := Prog.Pool World FileOp Ans Ending

/-- All jobs before their first call. -/
def Running.start (md5 : CString → Digest) (cacheRoot : Option CString) (jobs : List Job)
    (w : World) : Running := ⟨jobs.map (Job.prog md5 cacheRoot), w⟩

/-- Every hit that a job has returned is pure. -/
def PureHits (e : EntryPaths) (jobs : List Job) (start : FileSystem) (c : Running) : Prop :=
  ∀ (i : Nat) r rule r' hit, jobs[i]? = some (.lookup r rule) →
    c.threads[i]? = some (.done (.looked r' (some hit))) → PureHit e jobs start r r' hit

/-! ### Which steps are to blame -/

/-- The next call of thread `i`. -/
def Running.nextOp (c : Running) (i : Nat) : Option FileOp := c.threads[i]?.bind Prog.nextOp?

/-- What is left of a lookup that has opened the header and can still open the body. -/
def BetweenFiles (e : EntryPaths) (p : FileProg Ending) : Prop :=
  Prog.Uses (· ≠ FileOp.openRead e.headerPath) p ∧ ¬ Prog.Uses (· ≠ FileOp.openRead e.bodyPath) p

/-- What is left of a capture that has put its body in place and not yet its header. -/
def BetweenRenames (e : EntryPaths) (p : FileProg Ending) : Prop :=
  ∃ src, p.nextOp? = some (.rename src e.headerPath)

/-- Job `i` may make its next call. -/
structure Careful (e : EntryPaths) (jobs : List Job) (start : FileSystem) (c : Running)
    (i : Nat) : Prop where
  /-- No lookup is between the files when a body goes in place. -/
  body : ∀ src, c.nextOp i = some (.rename src e.bodyPath) → ∀ p ∈ c.threads, ¬ BetweenFiles e p
  /-- A header goes in place next to no body or its own, or another capture is about to put
  its header in place too. -/
  header : ∀ src, c.nextOp i = some (.rename src e.headerPath) →
    c.shared.fs.read e.bodyPath = none
      ∨ (∃ j, jobs[i]? = some j ∧ c.shared.fs.read e.bodyPath = j.body start)
      ∨ ∃ k p, k ≠ i ∧ c.threads[k]? = some p ∧ BetweenRenames e p
  /-- No capture is between its renames when a lookup finds both files. -/
  look : c.nextOp i = some (.openRead e.headerPath) →
    c.shared.fs.read e.headerPath = none ∨ c.shared.fs.read e.bodyPath = none
      ∨ ∀ p ∈ c.threads, ¬ BetweenRenames e p

/-! ### What one program does -/

section Jobs

variable (e : EntryPaths) (jobs : List Job) (start : FileSystem)

/-- The files in place belong together. -/
def Unmixed (fs : FileSystem) : Prop :=
  ∀ text body, fs.read e.headerPath = some text → fs.read e.bodyPath = some body →
    OneResponse e jobs start text body

/-- What a program finds when it makes its next call: a lookup that opens the header finds
files that belong together. -/
structure Ready (p : FileProg Ending) (w : World) : Prop where
  allOk : w.script.AllOk
  unmixed : p.nextOp? = some (.openRead e.headerPath) → Unmixed e jobs start w.fs

/-- What a program relies on between its calls. `own` is the temporary header that it has
made and not yet moved. -/
structure Rely (p : FileProg Ending) (own : Option TempSuffix) (w w' : World) : Prop where
  own_eq : ∀ t, own = some t → w'.fs.read (e.tmpHeaderPath t) = w.fs.read (e.tmpHeaderPath t)
  body : BetweenFiles e p →
    w'.fs.read e.bodyPath = none ∨ w'.fs.read e.bodyPath = w.fs.read e.bodyPath

/-- The calls that job `i` makes, and what follows on them. -/
inductive Allows (i : Nat) :
    Option TempSuffix → World → FileProg Ending → Option TempSuffix → Prop where
  | reads {own : Option TempSuffix} {w : World} {op : FileOp} {next : Ans op → FileProg Ending}
      (h : op.ReadOnly) : Allows i own w (.call op next) own
  | noTemp {own : Option TempSuffix} {w : World} {next : Option TempSuffix → FileProg Ending}
      (h : (w.answer (.mktemp (e.headerPath ++ lit ".XXXXXX"))).1 = none) :
      Allows i own w (.call (.mktemp (e.headerPath ++ lit ".XXXXXX")) next) own
  | temp {w : World} {t : TempSuffix} {next : Option TempSuffix → FileProg Ending}
      (h : (w.answer (.mktemp (e.headerPath ++ lit ".XXXXXX"))).1 = some t) :
      Allows i none w (.call (.mktemp (e.headerPath ++ lit ".XXXXXX")) next) (some t)
  | write {w : World} {t : TempSuffix} {data : Bytes} {next : Bool → FileProg Ending} :
      Allows i (some t) w (.call (.writeFull (e.tmpHeaderPath t) data) next) (some t)
  | renameBody {own : Option TempSuffix} {w : World} {t : TempSuffix} {next : Bool → FileProg Ending}
      (h : BetweenRenames e (next true)) :
      Allows i own w (.call (.rename (e.tmpBodyPath t) e.bodyPath) next) own
  | renameHeader {w : World} {t : TempSuffix} {text : Bytes} {j : Job} {next : Bool → FileProg Ending}
      (hread : w.fs.read (e.tmpHeaderPath t) = some text) (hj : jobs[i]? = some j)
      (htext : j.Header text) :
      Allows i (some t) w (.call (.rename (e.tmpHeaderPath t) e.headerPath) next) none
  | remove {own : Option TempSuffix} {w : World} {q : Path} {next : Bool → FileProg Ending}
      (h : ∀ t, q ≠ e.tmpHeaderPath t) : Allows i own w (.call (.remove q) next) own
  | removeOwn {w : World} {t : TempSuffix} {next : Bool → FileProg Ending} :
      Allows i (some t) w (.call (.remove (e.tmpHeaderPath t)) next) none

/-- What job `i` promises about what it returns. -/
def Promise (i : Nat) (ending : Ending) : Prop :=
  ∀ r rule r' hit, jobs[i]? = some (.lookup r rule) → ending = .looked r' (some hit) →
    PureHit e jobs start r r' hit

/-- The program does its part as job `i`. -/
abbrev DoesItsPart (i : Nat) : FileProg Ending → Option TempSuffix → World → Prop :=
  Prog.Among World.answer (Ready e jobs start) (Rely e) (Allows e jobs i)
    (Promise e jobs start i)

variable {e jobs start} {i : Nat}

theorem doesItsPart_capture {r : RequestRec} {ctx : CacherOutCtx} {tmpBody : TempSuffix}
    (hj : jobs[i]? = some (.capture r ctx tmpBody)) (he : ctx.paths = e) (md5 : CString → Digest)
    (cacheRoot : Option CString) (w : World) :
    DoesItsPart e jobs start i (Job.prog md5 cacheRoot (.capture r ctx tmpBody)) none w := by
  subst he
  have hpromise : ∀ published, Promise ctx.paths jobs start i (.captured published) := by
    intro published r' rule r'' hit hj' _
    rw [hj] at hj'
    cases hj'
  have hbodyTemp : ∀ t, ctx.paths.tmpBodyPath tmpBody ≠ ctx.paths.tmpHeaderPath t :=
    fun t => EntryPaths.tmpBodyPath_ne_tmpHeaderPath _ _ _ _
  have hbody : ∀ t, ctx.paths.bodyPath ≠ ctx.paths.tmpHeaderPath t :=
    fun t => (EntryPaths.tmpHeaderPath_ne_bodyPath _ _ _).symm
  show DoesItsPart ctx.paths jobs start i
    (finalizeCacheEntry r ctx tmpBody >>= fun published => pure (.captured published)) none w
  -- A program that removes its temporary body and gives up.
  have hgiveUp : ∀ (own : Option TempSuffix) (w : World), DoesItsPart ctx.paths jobs start i
      ((do let _ ← remove (ctx.paths.tmpBodyPath tmpBody); pure false)
        >>= fun published => pure (.captured published)) own w :=
    fun own w w' _ _ => ⟨own, .remove hbodyTemp, hpromise false⟩
  unfold finalizeCacheEntry
  split
  · exact hgiveUp none w
  split
  · exact hgiveUp none w
  -- The two readings of the clock.
  intro w₁ _ _
  refine ⟨none, .reads trivial, ?_⟩
  intro w₂ _ _
  refine ⟨none, .reads trivial, ?_⟩
  generalize (w₁.answer FileOp.timeNow).1 = created
  generalize (w₂.answer FileOp.timeNow).1 = now
  -- The temporary header.
  intro w₃ _ _
  cases htemp : (w₃.answer (.mktemp (ctx.paths.headerPath ++ lit ".XXXXXX"))).1 with
  | none => exact ⟨none, .noTemp htemp, hgiveUp none _⟩
  | some t =>
      refine ⟨some t, .temp htemp, ?_⟩
      intro w₄ h₄ hready₄
      have hempty : w₄.fs.read (ctx.paths.tmpHeaderPath t) = some [] := by
        rw [h₄.own_eq t rfl, (World.answer_mktemp_eq_some htemp).2]
        exact FileSystem.read_put _ _ _ _ |>.trans (if_pos rfl)
      refine ⟨some t, .write, ?_⟩
      rw [World.answer_writeFull hready₄.allOk]
      -- The two renames.
      intro w₅ h₅ _
      have htext : w₅.fs.read (ctx.paths.tmpHeaderPath t) = some (toBytes (headerFileText
          (entryMeta r ctx.rule created now) (dumpHeaders r.headersOut))) := by
        rw [h₅.own_eq t rfl, World.fs_record, FileSystem.read_append, if_pos rfl, hempty]
        rfl
      refine ⟨some t, .renameBody ⟨_, rfl⟩, ?_⟩
      cases hmoved : (w₅.answer (.rename (ctx.paths.tmpBodyPath tmpBody) ctx.paths.bodyPath)).1 with
      | false =>
          exact fun w₆ _ _ => ⟨some t, .remove hbodyTemp, fun w₇ _ _ => ⟨none, .removeOwn,
            fun w₈ _ _ => ⟨none, .remove hbody, hpromise false⟩⟩⟩
      | true =>
          intro w₆ h₆ hready₆
          rw [← World.read_answer_rename (hbodyTemp t).symm (hbody t).symm, ← h₆.own_eq t rfl] at htext
          refine ⟨none, .renameHeader htext hj ⟨created, now, rfl⟩, ?_⟩
          rw [World.answer_rename hready₆.allOk htext]
          exact hpromise true

theorem doesItsPart_delete {headerPath : Path} (hj : jobs[i]? = some (.delete headerPath))
    (he : headerPath = e.headerPath) (md5 : CString → Digest) (cacheRoot : Option CString)
    (w : World) : DoesItsPart e jobs start i (Job.prog md5 cacheRoot (.delete headerPath)) none w := by
  have hpromise : Promise e jobs start i .deleted := by
    intro r rule r' hit hj' _
    rw [hj] at hj'
    cases hj'
  have hbody : ∀ t, bodyPathOf headerPath ≠ e.tmpHeaderPath t := by
    intro t
    rw [he, bodyPathOf_headerPath]
    exact (EntryPaths.tmpHeaderPath_ne_bodyPath _ _ _).symm
  have hheader : ∀ t, headerPath ≠ e.tmpHeaderPath t := by
    intro t
    rw [he]
    exact (EntryPaths.tmpHeaderPath_ne_headerPath _ _ _).symm
  exact fun w₁ _ _ => ⟨none, .remove hbody, fun w₂ _ _ => ⟨none, .remove hheader, hpromise⟩⟩

/-- A lookup that has read the header `text` and may still open the body finds the body of
the same response, if it finds one. -/
def Holding (e : EntryPaths) (jobs : List Job) (start : FileSystem) (text : Bytes)
    (p : FileProg Ending) (w : World) : Prop :=
  BetweenFiles e p → ∀ body, w.fs.read e.bodyPath = some body → OneResponse e jobs start text body

/-- The body that the lookup will find does not change before the lookup opens it. -/
theorem Holding.step {text : Bytes} {op : FileOp} {next : Ans op → FileProg Ending} {w w' : World}
    {own : Option TempSuffix} (h : Holding e jobs start text (.call op next) w)
    (hrely : Rely e (.call op next) own w w') (hop : op.ReadOnly)
    (huses : Prog.Uses (· ≠ FileOp.openRead e.headerPath) (.call op next)) (x : Ans op) :
    Holding e jobs start text (next x) (w'.answer op).2 := by
  intro hbetween body hread
  have hbefore : BetweenFiles e (.call op next) := ⟨huses, fun hall => hbetween.2 (hall.2 x)⟩
  rw [World.answer_fs_of_readOnly _ hop] at hread
  rcases hrely.body hbefore with hnone | hsame
  · rw [hnone] at hread
    cases hread
  · rw [hsame] at hread
    exact h hbefore body hread

/-! The header is opened once, as the first call of a lookup. -/

theorem uses_readMetaFile (hf : Bytes) (p : Path) :
    Prog.Uses (· ≠ FileOp.openRead p) (readMetaFile hf) := by
  refine Prog.uses_bind (Prog.uses_perform (by simp)) fun size => ?_
  cases size with
  | none => exact Prog.uses_pure _ _
  | some size =>
      show Prog.Uses _ (if size = 0 then _ else _)
      split
      · exact Prog.uses_pure _ _
      · refine Prog.uses_bind (Prog.uses_perform (by simp)) fun buf => ?_
        cases buf with
        | none => exact Prog.uses_pure _ _
        | some buf => exact Prog.uses_pure _ _

theorem uses_serveFresh (r : RequestRec) (e : EntryPaths) (info : CacherEntryMeta)
    (block : CString) : Prog.Uses (· ≠ FileOp.openRead e.headerPath) (serveFresh r e info block) := by
  have hne : e.bodyPath ≠ e.headerPath := (e.headerPath_ne_bodyPath e).symm
  refine Prog.uses_bind (Prog.uses_perform (by simpa using hne)) fun bf => ?_
  cases bf with
  | none => exact Prog.uses_pure _ _
  | some bf =>
      refine Prog.uses_bind (Prog.uses_perform (by simp)) fun length => ?_
      cases length with
      | none => exact Prog.uses_pure _ _
      | some length =>
          show Prog.Uses _ (if 0 < info.created then _ else _)
          split
          · exact Prog.uses_bind (Prog.uses_perform (by simp)) fun _ => Prog.uses_pure _ _
          · exact Prog.uses_pure _ _

theorem uses_serveFound (r : RequestRec) (e : EntryPaths)
    (found : Option (CacherEntryMeta × CString)) :
    Prog.Uses (· ≠ FileOp.openRead e.headerPath) (serveFound r e found) := by
  cases found with
  | none => exact Prog.uses_pure _ _
  | some found =>
      refine Prog.uses_bind (Prog.uses_perform (by simp)) fun now => ?_
      show Prog.Uses _ (if found.1.expires ≤ now then _ else _)
      split
      · exact Prog.uses_pure _ _
      · exact uses_serveFresh r e found.1 found.2

section Lookup

variable {r : RequestRec} {rule : CacherRule} {w : World} {text : Bytes}

/-- A lookup that returns no hit keeps its promise. -/
theorem promise_miss (r' : RequestRec) : Promise e jobs start i (.looked r' none) := by
  intro r rule r'' hit _ hending
  cases hending

/-- The last part of a lookup: every body that it can find is the right one. -/
theorem doesItsPart_serveFresh (hj : jobs[i]? = some (.lookup r rule)) {info : CacherEntryMeta}
    {block : CString} (hmeta : readMetaText (ofBytes text) = some (info, block))
    (hbody : ∀ body, w.fs.read e.bodyPath = some body → OneResponse e jobs start text body) :
    DoesItsPart e jobs start i
      (serveFresh r e info block >>= fun found => pure (.looked found.1 found.2)) none w := by
  intro w₁ h₁ _
  refine ⟨none, .reads trivial, ?_⟩
  cases hopen : (w₁.answer (.openRead e.bodyPath)).1 with
  | none => exact promise_miss _
  | some body =>
      have hone : OneResponse e jobs start text body := by
        have hread : w₁.fs.read e.bodyPath = some body := World.eq_of_query hopen
        have hbetween := h₁.body ⟨Prog.uses_bind (uses_serveFresh r e info block)
          fun _ => Prog.uses_pure _ _, fun hall => hall.1 rfl⟩
        rcases hbetween with hnone | hsame
        · rw [hnone] at hread
          cases hread
        · rw [hsame] at hread
          exact hbody body hread
      have hpromise : ∀ length age, Promise e jobs start i
          (.looked (replayHeaders r block) (some ⟨body, info.status, length, age⟩)) := by
        intro length age r' rule' r'' hit hj' hending
        rw [hj] at hj'
        cases hj'
        cases hending
        exact ⟨text, info, block, hone, hmeta, rfl, rfl⟩
      intro w₂ _ _
      refine ⟨none, .reads trivial, ?_⟩
      cases (w₂.answer (.infoSize body)).1 with
      | none => exact promise_miss _
      | some length =>
          show DoesItsPart e jobs start i ((if 0 < info.created then _ else _) >>= _) none _
          split
          · exact fun w₃ _ _ => ⟨none, .reads trivial, hpromise length _⟩
          · exact hpromise length (-1)

/-- A lookup that has read the header. -/
theorem doesItsPart_serveFound (hj : jobs[i]? = some (.lookup r rule))
    (hhold : Holding e jobs start text
      (serveFound r e (readMetaText (ofBytes text))
        >>= fun found => pure (.looked found.1 found.2)) w) :
    DoesItsPart e jobs start i (serveFound r e (readMetaText (ofBytes text))
      >>= fun found => pure (.looked found.1 found.2)) none w := by
  cases hmeta : readMetaText (ofBytes text) with
  | none => exact promise_miss _
  | some found =>
      obtain ⟨info, block⟩ := found
      rw [hmeta] at hhold
      intro w₁ h₁ _
      refine ⟨none, .reads trivial, ?_⟩
      have huses := Prog.uses_bind (uses_serveFound r e (some (info, block)))
        (f := fun found => (pure (.looked found.1 found.2) : FileProg Ending))
        fun _ => Prog.uses_pure _ _
      have hhold₁ := hhold.step h₁ trivial huses (w₁.answer .timeNow).1
      generalize (w₁.answer FileOp.timeNow).1 = now at hhold₁
      change Holding e jobs start text
        ((if info.expires ≤ now then pure (r, none) else serveFresh r e info block)
          >>= fun found => pure (.looked found.1 found.2)) _ at hhold₁
      show DoesItsPart e jobs start i
        ((if info.expires ≤ now then pure (r, none) else serveFresh r e info block)
          >>= fun found => pure (.looked found.1 found.2)) none _
      split
      · exact promise_miss _
      · rename_i hfresh
        rw [if_neg hfresh] at hhold₁
        exact doesItsPart_serveFresh hj hmeta (hhold₁ ⟨Prog.uses_bind (uses_serveFresh r e info block)
          fun _ => Prog.uses_pure _ _, fun hall => hall.1 rfl⟩)

theorem doesItsPart_lookup (hj : jobs[i]? = some (.lookup r rule)) {md5 : CString → Digest}
    {cacheRoot : Option CString} (hkey : cacheKeyPaths md5 r cacheRoot rule = some e) (w : World) :
    DoesItsPart e jobs start i (Job.prog md5 cacheRoot (.lookup r rule)) none w := by
  show DoesItsPart e jobs start i (cacherCacheLookup md5 r cacheRoot rule
    >>= fun found => pure (.looked found.1 found.2)) none w
  unfold cacherCacheLookup cacherCacheReadMeta
  rw [hkey]
  -- The header is opened.
  intro w₁ _ hready₁
  refine ⟨none, .reads trivial, ?_⟩
  cases hopen : (w₁.answer (.openRead e.headerPath)).1 with
  | none => exact promise_miss r
  | some text =>
      have hheader : w₁.fs.read e.headerPath = some text := World.eq_of_query hopen
      have hhold₁ : ∀ p, Holding e jobs start text p (w₁.answer (.openRead e.headerPath)).2 :=
        fun p _ body hread => hready₁.unmixed rfl text body hheader hread
      generalize (w₁.answer (.openRead e.headerPath)).2 = w₁' at hhold₁
      -- The header is read, in two calls.
      intro w₂ h₂ _
      refine ⟨none, .reads trivial, ?_⟩
      have huses := Prog.uses_bind (Prog.uses_bind (uses_readMetaFile text e.headerPath)
        fun found => uses_serveFound r e found)
        (f := fun found => (pure (.looked found.1 found.2) : FileProg Ending))
        fun _ => Prog.uses_pure _ _
      have hhold₂ := (hhold₁ _).step h₂ trivial huses (w₂.answer (.infoSize text)).1
      have huses₂ := huses.2 (w₂.answer (.infoSize text)).1
      cases hsize : (w₂.answer (.infoSize text)).1 with
      | none => exact promise_miss r
      | some size =>
          rw [hsize] at hhold₂ huses₂
          have hlen : text.length = size := Option.some.inj (World.eq_of_query hsize)
          cases size with
          | zero => exact promise_miss r
          | succ n =>
              intro w₃ h₃ _
              refine ⟨none, .reads trivial, ?_⟩
              have hhold₃ := hhold₂.step h₃ trivial huses₂ (w₃.answer (.readFull text (n + 1))).1
              cases hbuf : (w₃.answer (.readFull text (n + 1))).1 with
              | none => exact promise_miss r
              | some buf =>
                  rw [hbuf] at hhold₃
                  have hfull : buf = text := by
                    have htake := World.eq_of_query hbuf
                    rw [if_pos hlen.ge, ← hlen, List.take_length] at htake
                    exact (Option.some.inj htake).symm
                  subst hfull
                  exact doesItsPart_serveFound hj hhold₃

end Lookup

/-! ### What the programs do together -/

/-- What is known about the files, and which temporary header belongs to whom. -/
structure Shared (e : EntryPaths) (jobs : List Job) (start : FileSystem) (c : Running)
    (own : Nat → Option TempSuffix) : Prop where
  allOk : c.shared.script.AllOk
  unmixed : (∀ p ∈ c.threads, ¬ BetweenRenames e p) → Unmixed e jobs start c.shared.fs
  own_isSome : ∀ i t, own i = some t → (c.shared.fs.read (e.tmpHeaderPath t)).isSome
  own_inj : ∀ i k t, own i = some t → own k = some t → i = k

section Allows

variable {own own' : Option TempSuffix} {w : World} {op : FileOp} {next : Ans op → FileProg Ending}

/-- A call leaves the temporary headers of the others alone. -/
theorem Allows.frame (h : Allows e jobs i own w (.call op next) own') (hok : w.script.AllOk)
    {t : TempSuffix} (ht : own ≠ some t) (hread : (w.fs.read (e.tmpHeaderPath t)).isSome) :
    (w.answer op).2.fs.read (e.tmpHeaderPath t) = w.fs.read (e.tmpHeaderPath t) := by
  have hother : ∀ t', own = some t' → e.tmpHeaderPath t ≠ e.tmpHeaderPath t' :=
    fun t' hown hpath => ht (by rw [hown, EntryPaths.tmpHeaderPath_inj hpath])
  cases h with
  | reads hop => rw [World.answer_fs_of_readOnly _ hop]
  | noTemp hnone => rw [World.answer_mktemp_eq_none hnone]
  | @temp _ t' _ hsome =>
      obtain ⟨hfree, hfs⟩ := World.answer_mktemp_eq_some hsome
      rw [hfs, FileSystem.read_put, if_neg]
      intro hpath
      rw [hpath, hfree] at hread
      cases hread
  | @write _ t' data _ =>
      rw [World.answer_writeFull hok, World.fs_record, FileSystem.read_append, if_neg (hother t' rfl)]
  | renameBody =>
      exact World.read_answer_rename (EntryPaths.tmpBodyPath_ne_tmpHeaderPath _ _ _ _).symm
        (EntryPaths.tmpHeaderPath_ne_bodyPath _ _ _)
  | @renameHeader _ t' _ _ _ _ _ _ =>
      exact World.read_answer_rename (hother t' rfl) (EntryPaths.tmpHeaderPath_ne_headerPath _ _ _)
  | remove hq => exact World.read_answer_remove (hq t).symm
  | @removeOwn _ t' _ => exact World.read_answer_remove (hother t' rfl)

/-- A temporary header that a job has after a call is there, and either the job had it
before or the name was free. -/
theorem Allows.own_isSome (h : Allows e jobs i own w (.call op next) own') (hok : w.script.AllOk)
    (hown : ∀ t, own = some t → (w.fs.read (e.tmpHeaderPath t)).isSome) {t : TempSuffix}
    (ht : own' = some t) :
    ((w.answer op).2.fs.read (e.tmpHeaderPath t)).isSome
      ∧ (own = some t ∨ w.fs.read (e.tmpHeaderPath t) = none) := by
  cases h with
  | reads hop =>
      rw [World.answer_fs_of_readOnly _ hop]
      exact ⟨hown t ht, Or.inl ht⟩
  | noTemp hnone =>
      rw [World.answer_mktemp_eq_none hnone]
      exact ⟨hown t ht, Or.inl ht⟩
  | temp hsome =>
      cases ht
      obtain ⟨hfree, hfs⟩ := World.answer_mktemp_eq_some hsome
      refine ⟨?_, Or.inr hfree⟩
      rw [hfs, FileSystem.read_put]
      exact Option.isSome_iff_exists.mpr ⟨[], if_pos rfl⟩
  | write =>
      refine ⟨?_, Or.inl ht⟩
      have hsome := hown t ht
      rw [World.answer_writeFull hok, World.fs_record, FileSystem.read_append]
      cases ht
      rw [if_pos rfl, Option.isSome_map]
      exact hsome
  | renameBody =>
      rw [World.read_answer_rename (EntryPaths.tmpBodyPath_ne_tmpHeaderPath _ _ _ _).symm
        (EntryPaths.tmpHeaderPath_ne_bodyPath _ _ _)]
      exact ⟨hown t ht, Or.inl ht⟩
  | renameHeader _ _ _ => cases ht
  | remove hq =>
      rw [World.read_answer_remove (hq t).symm]
      exact ⟨hown t ht, Or.inl ht⟩
  | removeOwn => cases ht

/-- What a call does to the two files of the entry: it puts one in place, or removes at
most one. -/
theorem Allows.entry (h : Allows e jobs i own w (.call op next) own') (hok : w.script.AllOk) :
    (∃ t next', Prog.call op next = .call (.rename (e.tmpBodyPath t) e.bodyPath) next'
        ∧ BetweenRenames e (next' true))
      ∨ (∃ t text j, op = .rename (e.tmpHeaderPath t) e.headerPath
        ∧ w.fs.read (e.tmpHeaderPath t) = some text ∧ jobs[i]? = some j ∧ j.Header text)
      ∨ (¬ BetweenRenames e (.call op next) ∧ ∀ q, q = e.headerPath ∨ q = e.bodyPath →
        (w.answer op).2.fs.read q = w.fs.read q ∨ (w.answer op).2.fs.read q = none) := by
  have hne : ∀ q t, q = e.headerPath ∨ q = e.bodyPath → q ≠ e.tmpHeaderPath t := by
    rintro q t (rfl | rfl)
    · exact (EntryPaths.tmpHeaderPath_ne_headerPath _ _ _).symm
    · exact (EntryPaths.tmpHeaderPath_ne_bodyPath _ _ _).symm
  have hquiet : ∀ {op' : FileOp} {next' : Ans op' → FileProg Ending},
      (∀ src, op' ≠ .rename src e.headerPath) → ¬ BetweenRenames e (.call op' next') :=
    fun hop ⟨src, hsrc⟩ => hop src (Option.some.inj hsrc)
  cases h with
  | reads hop =>
      refine Or.inr (Or.inr ⟨hquiet fun src hsrc => ?_, fun q _ => Or.inl ?_⟩)
      · rw [hsrc] at hop
        exact hop
      · rw [World.answer_fs_of_readOnly _ hop]
  | noTemp hnone =>
      refine Or.inr (Or.inr ⟨hquiet (by simp), fun q _ => Or.inl ?_⟩)
      rw [World.answer_mktemp_eq_none hnone]
  | @temp _ t _ hsome =>
      refine Or.inr (Or.inr ⟨hquiet (by simp), fun q hq => Or.inl ?_⟩)
      rw [(World.answer_mktemp_eq_some hsome).2, FileSystem.read_put]
      exact if_neg (hne q t hq)
  | @write _ t data _ =>
      refine Or.inr (Or.inr ⟨hquiet (by simp), fun q hq => Or.inl ?_⟩)
      rw [World.answer_writeFull hok, World.fs_record, FileSystem.read_append, if_neg (hne q t hq)]
  | @renameBody _ _ t _ hnext => exact Or.inl ⟨t, _, rfl, hnext⟩
  | @renameHeader _ t text j _ hread hj htext =>
      exact Or.inr (Or.inl ⟨t, text, j, rfl, hread, hj, htext⟩)
  | @remove _ _ p _ _ =>
      exact Or.inr (Or.inr ⟨hquiet (by simp),
        fun q _ => @World.answer_read_of_onlyRemoves w (.remove p) trivial q⟩)
  | @removeOwn _ t =>
      exact Or.inr (Or.inr ⟨hquiet (by simp),
        fun q _ => @World.answer_read_of_onlyRemoves w (.remove (e.tmpHeaderPath t)) trivial q⟩)

end Allows

theorem Running.nextOp_of_call {c : Running} {op : FileOp} {next : Ans op → FileProg Ending}
    (hnext : c.threads[i]? = some (.call op next)) : c.nextOp i = some op := by
  unfold Running.nextOp
  rw [hnext]
  rfl

/-- A thread that was between its renames still is, unless it has just made its call. -/
theorem quiet_of_quiet_stepAt {c : Running} {p : FileProg Ending} (hi : c.threads[i]? = some p)
    (hp : ¬ BetweenRenames e p)
    (hquiet : ∀ q ∈ (Prog.Pool.stepAt World.answer c i).threads, ¬ BetweenRenames e q) :
    ∀ q ∈ c.threads, ¬ BetweenRenames e q := by
  intro q hq hbetween
  obtain ⟨k, hk⟩ := List.mem_iff_getElem?.mp hq
  by_cases hki : k = i
  · subst hki
    rw [hi] at hk
    cases hk
    exact hp hbetween
  · rw [← Prog.Pool.threads_stepAt_of_ne (h := World.answer) hki] at hk
    exact hquiet q (List.mem_of_getElem? hk) hbetween

/-- A careful call that leaves no capture between its renames leaves files that belong
together, and no lookup loses the body that it is about to open to another one. -/
theorem Allows.careful {c : Running} {own : Option TempSuffix} {op : FileOp}
    {next : Ans op → FileProg Ending} {own' : Option TempSuffix}
    (h : Allows e jobs i own c.shared (.call op next) own') (hok : c.shared.script.AllOk)
    (hunmixed : (∀ p ∈ c.threads, ¬ BetweenRenames e p) → Unmixed e jobs start c.shared.fs)
    (hcareful : Careful e jobs start c i) (hnext : c.threads[i]? = some (.call op next)) :
    ((∀ p ∈ (Prog.Pool.stepAt World.answer c i).threads, ¬ BetweenRenames e p) →
        Unmixed e jobs start (c.shared.answer op).2.fs)
      ∧ ∀ p ∈ c.threads, BetweenFiles e p →
        (c.shared.answer op).2.fs.read e.bodyPath = none
          ∨ (c.shared.answer op).2.fs.read e.bodyPath = c.shared.fs.read e.bodyPath := by
  have hop := Running.nextOp_of_call hnext
  rcases h.entry hok with ⟨t, next', hcall, hbetween⟩ | ⟨t, text, j, rfl, hread, hj, htext⟩
    | ⟨hother, hfiles⟩
  · -- A body goes in place, and the header is next.
    cases hcall
    refine ⟨fun hquiet => ?_, fun p hp hp' => absurd hp' (hcareful.body _ hop p hp)⟩
    cases hmoved : (c.shared.answer (.rename (e.tmpBodyPath t) e.bodyPath)).1 with
    | false =>
        rw [World.fs_answer_rename_eq_false hmoved]
        refine hunmixed (quiet_of_quiet_stepAt hnext ?_ hquiet)
        rintro ⟨src, hsrc⟩
        simp only [Prog.nextOp?, Option.some.injEq, FileOp.rename.injEq] at hsrc
        exact e.headerPath_ne_bodyPath e hsrc.2.symm
    | true =>
        have hi : (Prog.Pool.stepAt World.answer c i).threads[i]? = some (next' true) := by
          rw [Prog.Pool.stepAt_call hnext, hmoved]
          exact List.getElem?_set_self (List.getElem?_eq_some_iff.mp hnext).1
        exact absurd hbetween (hquiet _ (List.mem_of_getElem? hi))
  · -- A header goes in place, next to no body or its own, or another header is next.
    have hbody : (c.shared.answer (.rename (e.tmpHeaderPath t) e.headerPath)).2.fs.read e.bodyPath
        = c.shared.fs.read e.bodyPath :=
      World.read_answer_rename (EntryPaths.tmpHeaderPath_ne_bodyPath _ e _).symm
        (e.headerPath_ne_bodyPath e).symm
    refine ⟨fun hquiet text' body hheader hbody' => ?_, fun _ _ _ => Or.inr hbody⟩
    rw [World.answer_rename hok hread, World.fs_record, FileSystem.read_move hread, if_pos rfl]
      at hheader
    cases hheader
    rw [hbody] at hbody'
    rcases hcareful.header _ hop with hnone | ⟨j', hj', hown⟩ | ⟨k, p, hki, hk, hp⟩
    · rw [hnone] at hbody'
      cases hbody'
    · rw [hj] at hj'
      cases hj'
      rw [hown] at hbody'
      exact .captured (List.mem_of_getElem? hj) htext hbody'
    · rw [← Prog.Pool.threads_stepAt_of_ne (h := World.answer) hki] at hk
      exact absurd hp (hquiet p (List.mem_of_getElem? hk))
  · -- At most a removal.
    refine ⟨fun hquiet text body hheader hbody => ?_, fun _ _ _ => (hfiles _ (Or.inr rfl)).symm⟩
    have hbefore := hunmixed (quiet_of_quiet_stepAt hnext hother hquiet)
    rcases hfiles _ (Or.inl rfl) with hsame | hnone
    · rcases hfiles _ (Or.inr rfl) with hsame' | hnone
      · rw [hsame] at hheader
        rw [hsame'] at hbody
        exact hbefore text body hheader hbody
      · rw [hnone] at hbody
        cases hbody
    · rw [hnone] at hheader
      cases hheader

/-- The next call of a thread is ready. -/
theorem Shared.ready {c : Running} {own : Nat → Option TempSuffix} {p : FileProg Ending}
    (hshared : Shared e jobs start c own) (hcareful : Careful e jobs start c i)
    (hi : c.threads[i]? = some p) : Ready e jobs start p c.shared := by
  refine ⟨hshared.allOk, fun hp => ?_⟩
  have hop : c.nextOp i = some (.openRead e.headerPath) := by
    unfold Running.nextOp
    rw [hi]
    exact hp
  rcases hcareful.look hop with hnone | hnone | hquiet
  · intro text body hheader _
    rw [hnone] at hheader
    cases hheader
  · intro text body _ hbody
    rw [hnone] at hbody
    cases hbody
  · exact hshared.unmixed hquiet

/-- A careful step keeps what is known, and the others can rely on it. -/
theorem Shared.step {c : Running} {own : Nat → Option TempSuffix} {op : FileOp}
    {next : Ans op → FileProg Ending} {own' : Option TempSuffix}
    (hshared : Shared e jobs start c own) (hcareful : Careful e jobs start c i)
    (hnext : c.threads[i]? = some (.call op next))
    (h : Allows e jobs i (own i) c.shared (.call op next) own') :
    Shared e jobs start (Prog.Pool.stepAt World.answer c i) (Function.update own i own')
      ∧ ∀ k p, k ≠ i → c.threads[k]? = some p →
        Rely e p (own k) c.shared (c.shared.answer op).2 := by
  obtain ⟨hunmixed, hbody⟩ := h.careful hshared.allOk hshared.unmixed hcareful hnext
  have hafter : (Prog.Pool.stepAt World.answer c i).shared = (c.shared.answer op).2 := by
    rw [Prog.Pool.stepAt_call hnext]
  have hok : (c.shared.answer op).2.script.AllOk := by
    rw [World.answer_script]
    exact hshared.allOk
  have hframe : ∀ k t, k ≠ i → own k = some t →
      (c.shared.answer op).2.fs.read (e.tmpHeaderPath t) = c.shared.fs.read (e.tmpHeaderPath t) :=
    fun k t hki hk => h.frame hshared.allOk (fun hi => hki (hshared.own_inj k i t hk hi))
      (hshared.own_isSome k t hk)
  have hnew : ∀ t, own' = some t → _ := fun t => h.own_isSome hshared.allOk (hshared.own_isSome i)
  -- A header that job `i` has now is nobody else's.
  have hmine : ∀ k t, k ≠ i → own' = some t → own k ≠ some t := by
    intro k t hki ht hk
    rcases (hnew t ht).2 with hi | hfree
    · exact hki (hshared.own_inj k i t hk hi)
    · have hsome := hshared.own_isSome k t hk
      rw [hfree] at hsome
      cases hsome
  refine ⟨⟨by rw [hafter]; exact hok, by rw [hafter]; exact hunmixed, fun k t hk => ?_,
    fun k l t hk hl => ?_⟩, fun k p hki hk =>
      ⟨fun t ht => hframe k t hki ht, hbody p (List.mem_of_getElem? hk)⟩⟩
  · rw [hafter]
    by_cases hki : k = i
    · rw [hki, Function.update_self] at hk
      exact (hnew t hk).1
    · rw [Function.update_of_ne hki] at hk
      rw [hframe k t hki hk]
      exact hshared.own_isSome k t hk
  · by_cases hki : k = i
    · by_cases hli : l = i
      · rw [hki, hli]
      · rw [hki, Function.update_self] at hk
        rw [Function.update_of_ne hli] at hl
        exact absurd hl (hmine l t hli hk)
    · rw [Function.update_of_ne hki] at hk
      by_cases hli : l = i
      · rw [hli, Function.update_self] at hl
        exact absurd hk (hmine k t hki hl)
      · rw [Function.update_of_ne hli] at hl
        exact hshared.own_inj k l t hk hl

end Jobs

/-- In every interleaving whose steps are careful, every hit is pure. -/
theorem pureHits_of_careful {md5 : CString → Digest} {cacheRoot : Option CString} {e : EntryPaths}
    {jobs : List Job} {w : World} {schedule : List Nat}
    (hkey : ∀ j ∈ jobs, j.OnKey md5 cacheRoot e) (hok : w.script.AllOk)
    (hcareful : Prog.Pool.Guarded World.answer (Careful e jobs w.fs)
      (Running.start md5 cacheRoot jobs w) schedule) :
    PureHits e jobs w.fs
      (Prog.Pool.run World.answer (Running.start md5 cacheRoot jobs w) schedule) := by
  intro i r rule r' hit hj hending
  have hshared : Shared e jobs w.fs (Running.start md5 cacheRoot jobs w) fun _ => none :=
    ⟨hok, fun _ text body => .stored, fun _ _ h => (by cases h), fun _ _ _ h => (by cases h)⟩
  have hparts : ∀ i p, (Running.start md5 cacheRoot jobs w).threads[i]? = some p →
      DoesItsPart e jobs w.fs i p none w := by
    intro i p hp
    obtain ⟨j, hj, rfl⟩ := Option.map_eq_some_iff.mp (by rwa [← List.getElem?_map])
    have hon := hkey j (List.mem_of_getElem? hj)
    cases j with
    | capture r ctx tmpBody => exact doesItsPart_capture hj hon md5 cacheRoot w
    | delete headerPath => exact doesItsPart_delete hj hon md5 cacheRoot w
    | lookup r rule => exact doesItsPart_lookup hj hon w
  have htrans : ∀ p own w₁ w₂ w₃, Rely e p own w₁ w₂ → Rely e p own w₂ w₃ → Rely e p own w₁ w₃ := by
    intro p own w₁ w₂ w₃ h h'
    refine ⟨fun t ht => (h'.own_eq t ht).trans (h.own_eq t ht), fun hp => ?_⟩
    rcases h'.body hp with hnone | hsame
    · exact Or.inl hnone
    · rw [hsame]
      exact h.body hp
  have hpromise : Promise e jobs w.fs i (.looked r' (some hit)) :=
    Prog.Pool.among_run (J := Shared e jobs w.fs)
      (fun p own w => ⟨fun _ _ => rfl, fun _ => Or.inr rfl⟩) htrans
      (fun c own i p hcareful hshared hi => hshared.ready hcareful hi)
      (fun c own i op next own' hcareful hshared hnext hallows =>
        hshared.step hcareful hnext hallows)
      hcareful hshared hparts hending
  exact hpromise r rule r' hit hj rfl

/-! ### Which programs can stand between the files -/

/-- A capture opens no file for reading. -/
theorem uses_finalizeCacheEntry (r : RequestRec) (ctx : CacherOutCtx) (tmpBody : TempSuffix)
    (p : Path) : Prog.Uses (· ≠ FileOp.openRead p) (finalizeCacheEntry r ctx tmpBody) := by
  have hremove : ∀ q, Prog.Uses (· ≠ FileOp.openRead p) (remove q) :=
    fun q => Prog.uses_perform (by simp)
  have hgiveUp : ∀ q, Prog.Uses (· ≠ FileOp.openRead p)
      (do let _ ← remove q; pure false : FileProg Bool) :=
    fun q => Prog.uses_bind (hremove q) fun _ => Prog.uses_pure _ _
  have hrename : ∀ src dst, Prog.Uses (· ≠ FileOp.openRead p) (rename src dst) :=
    fun src dst => Prog.uses_perform (by simp)
  unfold finalizeCacheEntry
  split
  · exact hgiveUp _
  split
  · exact hgiveUp _
  refine Prog.uses_bind (Prog.uses_perform (by simp)) fun created => ?_
  refine Prog.uses_bind (Prog.uses_perform (by simp)) fun now => ?_
  refine Prog.uses_bind (Prog.uses_perform (by simp)) fun temp => ?_
  cases temp with
  | none => exact hgiveUp _
  | some tmpHeader =>
      refine Prog.uses_bind (Prog.uses_perform (by simp)) fun written => ?_
      cases written with
      | false => exact Prog.uses_bind (hremove _) fun _ => hgiveUp _
      | true =>
          refine Prog.uses_bind (Prog.uses_bind (hrename _ _) fun moved => ?_) fun published => ?_
          · cases moved with
            | false => exact Prog.uses_pure _ _
            | true => exact hrename _ _
          · cases published with
            | false =>
                exact Prog.uses_bind (hremove _) fun _ => Prog.uses_bind (hremove _) fun _ => hgiveUp _
            | true => exact Prog.uses_pure _ _

/-- In every run, only a lookup is ever between the files. -/
theorem isLookup_of_betweenFiles {md5 : CString → Digest} {cacheRoot : Option CString}
    {e : EntryPaths} {jobs : List Job} {w : World} (schedule : List Nat) {i : Nat}
    {p : FileProg Ending}
    (hp : (Prog.Pool.run World.answer (Running.start md5 cacheRoot jobs w) schedule).threads[i]?
      = some p) (hbetween : BetweenFiles e p) :
    ∃ r rule, jobs[i]? = some (.lookup r rule) := by
  have huses := Prog.Pool.uses_run (h := World.answer)
    (A := fun op => (∃ r rule, jobs[i]? = some (.lookup r rule)) ∨ op ≠ .openRead e.bodyPath)
    (fun q hq => ?_) schedule hp
  · by_contra hno
    exact hbetween.2 (by simpa only [hno, false_or] using huses)
  obtain ⟨j, hj, rfl⟩ := Option.map_eq_some_iff.mp (by rwa [← List.getElem?_map])
  rw [hj]
  cases j with
  | capture r ctx tmpBody =>
      simp only [Option.some.injEq, reduceCtorEq, exists_false, false_or]
      exact Prog.uses_bind (uses_finalizeCacheEntry r ctx tmpBody e.bodyPath)
        fun _ => Prog.uses_pure _ _
  | delete headerPath =>
      simp only [Option.some.injEq, reduceCtorEq, exists_false, false_or]
      exact ⟨by simp, fun _ => ⟨by simp, fun _ => trivial⟩⟩
  | lookup r rule => exact Prog.uses_of_forall (fun op => Or.inl ⟨r, rule, rfl⟩) _

/-! ### Two runs -/

/-- What a client sees of a hit. -/
def Ending.page : Ending → Option (Int32 × Bytes)
  | .looked _ (some hit) => some (hit.status, hit.body)
  | .looked _ none => none
  | .captured _ => none
  | .deleted => none

/-- The page that thread `i` has returned. -/
def Running.page (c : Running) (i : Nat) : Option (Int32 × Bytes) :=
  (c.threads[i]?.bind Prog.result?).bind Ending.page

theorem Running.hit_of_page {c : Running} {i : Nat} {status : Int32} {body : Bytes}
    (h : c.page i = some (status, body)) :
    ∃ r hit, c.threads[i]? = some (.done (.looked r (some hit))) ∧ hit.status = status
      ∧ hit.body = body := by
  obtain ⟨ending, hending, hpage⟩ := Option.bind_eq_some_iff.mp h
  obtain ⟨p, hp, hresult⟩ := Option.bind_eq_some_iff.mp hending
  cases p with
  | call op next => cases hresult
  | done ending =>
      cases hresult
      cases ending with
      | captured published => cases hpage
      | deleted => cases hpage
      | looked r hit =>
          cases hit with
          | none => cases hpage
          | some hit =>
              cases hpage
              exact ⟨r, hit, hp, rfl, rfl⟩

/-- A second suffix for a temporary name. -/
def TempSuffix.second : TempSuffix := ⟨lit "bbbbbb", by decide, List.all_eq_true.mp (by decide)⟩

/-- Two captures of `GET /a`, answered with 200 and with 203, and a lookup. -/
def Job.overtaking : List Job :=
  [.capture (RequestRec.get (lit "/a") none) CacherOutCtx.ofGetA default,
   .capture { RequestRec.get (lit "/a") none with status := 203 } CacherOutCtx.ofGetA
     TempSuffix.second,
   .lookup (RequestRec.get (lit "/a") none) (CacherRule.ofTtl 60)]

/-- Both captures have their body in a temporary file. -/
def World.overtaking : World where
  fs := { files := [(pathsOfGetA.tmpBodyPath default, [1]),
                    (pathsOfGetA.tmpBodyPath TempSuffix.second, [2])]
          dirs := [] }
  script := Script.steady 100
  log := []

/-- The first capture publishes, the second one puts its body in place, and the lookup
comes before its header. -/
def Running.overtaken : Running :=
  Prog.Pool.run World.answer
    (Running.start md5OfGetA (some (lit "/c")) Job.overtaking World.overtaking)
    (List.replicate 6 0 ++ List.replicate 5 1 ++ List.replicate 7 2)

/-- The lookup returns the status of the first response with the body of the second. -/
theorem not_pureHits_overtaken :
    ¬ PureHits pathsOfGetA Job.overtaking World.overtaking.fs Running.overtaken := by
  intro hpure
  have hpage : Running.overtaken.page 2 = some (200, [2]) := by decide +kernel
  obtain ⟨r, hit, hthread, hstatus, hbody⟩ := Running.hit_of_page hpage
  obtain ⟨text, info, block, hone, hmeta, hinfo, -⟩ := hpure 2 _ _ r hit rfl hthread
  rw [hbody] at hone
  rw [hstatus] at hinfo
  cases hone with
  | stored hheader _ =>
      have hnone : World.overtaking.fs.read pathsOfGetA.headerPath = none := by decide +kernel
      rw [hnone] at hheader
      cases hheader
  | @captured j hj hheader hbody =>
      simp only [Job.overtaking, List.mem_cons, List.not_mem_nil, or_false] at hj
      rcases hj with rfl | rfl | rfl
      · have hfirst : World.overtaking.fs.read (pathsOfGetA.tmpBodyPath default) = some [1] := by
          decide +kernel
        change World.overtaking.fs.read (pathsOfGetA.tmpBodyPath default) = some [2] at hbody
        rw [hfirst] at hbody
        cases hbody
      · obtain ⟨created, now, rfl⟩ := hheader
        have hurl : (RequestRec.get (lit "/a") none).urlText ≠ []
            ∧ chr '\n' ∉ (RequestRec.get (lit "/a") none).urlText := by decide
        have hcode : (203 : Int32) ≠ 0 := by decide
        rw [ofBytes_toBytes, (readMetaText_eq_iff isWord_get isWord_dash hcode _).mpr hurl] at hmeta
        cases hmeta
        cases hinfo
      · exact hheader

/-- The name that a call takes by a rename. -/
def FileOp.newName? : FileOp → Option Path
  | .rename _ dst => some dst
  | _ => none

/-- The name that thread `i` is about to take. -/
def Running.takes (c : Running) (i : Nat) : Option Path := (c.nextOp i).bind FileOp.newName?

theorem Running.takes_of_nextOp {c : Running} {i : Nat} {src dst : Path}
    (h : c.nextOp i = some (.rename src dst)) : c.takes i = some dst := by
  unfold Running.takes
  rw [h]
  rfl

/-- The same jobs, but the lookup comes when both captures have returned. -/
def Running.turns : List Nat := List.replicate 6 0 ++ List.replicate 6 1 ++ List.replicate 7 2

/-- That run, before step `k`. -/
def Running.inTurn (k : Nat) : Running :=
  Prog.Pool.run World.answer
    (Running.start md5OfGetA (some (lit "/c")) Job.overtaking World.overtaking)
    (Running.turns.take k)

/-- Every step of that run is careful. -/
theorem careful_inTurn {k i : Nat} (hk : Running.turns[k]? = some i) :
    Careful pathsOfGetA Job.overtaking World.overtaking.fs (Running.inTurn k) i := by
  have hlt : k < 19 := (List.getElem?_eq_some_iff.mp hk).1
  have hi : Running.turns.getD k 0 = i := by rw [List.getD_eq_getElem?_getD, hk, Option.getD_some]
  subst hi
  -- Every header goes in place behind the body of its capture.
  have hown : ∀ k < 19,
      (Running.inTurn k).takes (Running.turns.getD k 0) = some pathsOfGetA.headerPath →
      (Job.overtaking[Running.turns.getD k 0]?).map (Job.body World.overtaking.fs)
        = some ((Running.inTurn k).shared.fs.read pathsOfGetA.bodyPath) := by
    decide +kernel
  -- The lookup starts when no capture is left.
  have hlate : ∀ k < 19, 12 < k → (Running.inTurn k).takes (Running.turns.getD k 0) = none := by
    decide +kernel
  have hopens : ∀ k < 19,
      (Running.inTurn k).nextOp (Running.turns.getD k 0) = some (.openRead pathsOfGetA.headerPath) →
        k = 12 := by
    decide +kernel
  have hthreads : (Running.inTurn 12).threads.length = 3 := by decide +kernel
  have hdone : ∀ l < 3, (Running.inTurn 12).takes l ≠ some pathsOfGetA.headerPath := by
    decide +kernel
  refine ⟨fun src hop p hp hbetween => ?_, fun src hop => ?_, fun hop => ?_⟩
  · have hnot : 2 ∉ Running.turns.take 12 := by decide
    have hearly : ¬ 12 < k := by
      intro hk'
      have hnone := hlate k hlt hk'
      rw [Running.takes_of_nextOp hop] at hnone
      cases hnone
    obtain ⟨l, hl⟩ := List.mem_iff_getElem?.mp hp
    obtain ⟨r, rule, hlookup⟩ := isLookup_of_betweenFiles _ hl hbetween
    -- The lookup has not opened the header.
    match l, hlookup with
    | 2, _ =>
        have hstart : (Running.inTurn k).threads[2]? = (Running.inTurn 0).threads[2]? :=
          Prog.Pool.run_of_notMem fun hmem => hnot (List.take_subset_take_left _ (by omega) hmem)
        rw [hstart] at hl
        cases hl
        exact hbetween.1.1 rfl
  · obtain ⟨j, hj, hbody⟩ := Option.map_eq_some_iff.mp (hown k hlt (Running.takes_of_nextOp hop))
    exact Or.inr (Or.inl ⟨j, hj, hbody.symm⟩)
  · obtain rfl := hopens k hlt hop
    refine Or.inr (Or.inr fun p hp => ?_)
    rintro ⟨src, hsrc⟩
    obtain ⟨l, hl⟩ := List.mem_iff_getElem?.mp hp
    have hnext : (Running.inTurn 12).nextOp l = some (.rename src pathsOfGetA.headerPath) := by
      unfold Running.nextOp
      rw [hl]
      exact hsrc
    have hl3 : l < 3 := by
      rw [← hthreads]
      exact (List.getElem?_eq_some_iff.mp hl).1
    exact hdone l hl3 (Running.takes_of_nextOp hnext)

/-- Pure hits at work on a lookup behind two captures. -/
theorem pureHits_of_careful_inTurn :
    PureHits pathsOfGetA Job.overtaking World.overtaking.fs (Running.inTurn 19)
      ∧ (Running.inTurn 19).page 2 = some (203, [2]) := by
  refine ⟨pureHits_of_careful (fun j hj => ?_) (Script.allOk_steady 100)
    (Prog.Pool.guarded_iff.mpr fun k i hk => careful_inTurn hk), by decide +kernel⟩
  simp only [Job.overtaking, List.mem_cons, List.not_mem_nil, or_false] at hj
  rcases hj with rfl | rfl | rfl
  · rfl
  · rfl
  · rfl

end Cacher
