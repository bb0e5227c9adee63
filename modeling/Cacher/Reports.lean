import Cacher.Counting

/-!
# `Cacher.Reports`: what the administration reports

A walk counts the entries that it selects, adds up their sizes, and prints a row for each. Where no
file call fails and nothing else runs, it counts every page that it selects once, whether it
deletes on its way (`Holds.walk_deletes`) or only lists (`Holds.walk_lists`).

So the administration can be trusted about the pages that the requests before it have left:
`reports_list` for `/list`, `reports_deletion` for `/full-reset` and `/purge`.
-/

set_option autoImplicit false

namespace Cacher

open CText Files

/-! ### Counting -/

/-- The row that is printed for a page, with the reading of the clock for it. -/
def Counted.row (c : Counted Int64) : CString :=
  match c.page.found with
  | some (info, _) => listRow info c.page.body.length (info.expires - c.note)
  | none => []

/-- The context after one more page. -/
def AdminCtx.count (ctx : AdminCtx) (c : Counted Int64) : AdminCtx :=
  { ctx with
    matched := ctx.matched + 1
    bytes := ctx.bytes + c.page.body.length
    output := ctx.output ++ if ctx.printRows then c.row else [] }

theorem count_of_printRows {ctx : AdminCtx} (h : ctx.printRows = true) {d : Digest} {page : Page}
    {info : CacherEntryMeta} {block : CString} (hfound : page.found = some (info, block))
    (now : Int64) :
    ctx.count ⟨d, page, now⟩ = { ctx with
      matched := ctx.matched + 1
      bytes := ctx.bytes + page.body.length
      output := ctx.output ++ listRow info page.body.length (info.expires - now) } := by
  unfold AdminCtx.count Counted.row
  rw [if_pos h, hfound]

theorem count_of_not_printRows {ctx : AdminCtx} (h : ¬ ctx.printRows = true) (c : Counted Int64) :
    ctx.count c = { ctx with
      matched := ctx.matched + 1
      bytes := ctx.bytes + c.page.body.length
      output := ctx.output ++ [] } := by
  unfold AdminCtx.count
  rw [if_neg h]

theorem sameSwitches_foldl_count (counted : List (Counted Int64)) (ctx : AdminCtx) :
    ctx.SameSwitches (counted.foldl AdminCtx.count ctx) := by
  induction counted generalizing ctx with
  | nil => exact ⟨rfl, rfl⟩
  | cons c counted ih =>
      have hone : ctx.SameSwitches (ctx.count c) := ⟨rfl, rfl⟩
      exact hone.trans (ih (ctx.count c))

theorem matched_foldl_count (counted : List (Counted Int64)) (ctx : AdminCtx) :
    (counted.foldl AdminCtx.count ctx).matched = ctx.matched + counted.length := by
  induction counted generalizing ctx with
  | nil => rfl
  | cons c counted ih =>
      rw [List.foldl_cons, ih, List.length_cons]
      show ctx.matched + 1 + _ = _
      omega

theorem bytes_foldl_count (counted : List (Counted Int64)) (ctx : AdminCtx) :
    (counted.foldl AdminCtx.count ctx).bytes
      = ctx.bytes + (counted.map (·.page.body.length)).sum := by
  induction counted generalizing ctx with
  | nil => rfl
  | cons c counted ih =>
      rw [List.foldl_cons, ih, List.map_cons, List.sum_cons]
      show ctx.bytes + c.page.body.length + _ = _
      omega

theorem output_foldl_count (counted : List (Counted Int64)) {ctx : AdminCtx} (h : ctx.printRows = true) :
    (counted.foldl AdminCtx.count ctx).output = ctx.output ++ counted.flatMap (·.row) := by
  induction counted generalizing ctx with
  | nil => simp
  | cons c counted ih =>
      have hprint : (ctx.count c).printRows = true := h
      rw [List.foldl_cons, ih hprint]
      simp [AdminCtx.count, h]

/-- `now` is a reading of the clock between the two worlds. -/
def ReadBetween (w w' : World) (now : Int64) : Prop :=
  ∃ n, w.log.length ≤ n ∧ n < w'.log.length ∧ now = (w.script n .timeNow).clock

theorem ReadBetween.mono {w₁ w₂ w₃ w₄ : World} {now : Int64} (h : ReadBetween w₂ w₃ now)
    (hscript : w₂.script = w₁.script) (hbefore : w₁.log.length ≤ w₂.log.length)
    (hafter : w₃.log.length ≤ w₄.log.length) : ReadBetween w₁ w₄ now := by
  obtain ⟨n, hle, hlt, hnow⟩ := h
  exact ⟨n, hbefore.trans hle, hlt.trans_le hafter, by rw [← hscript]; exact hnow⟩

/-! ### A visit -/

section Walks

variable {root : CString} {pages : Pages} {w : World} {r : RequestRec} {ctx : AdminCtx} {d : Digest}
  {page : Page}

theorem Page.SelectedBy.same {ctx' : AdminCtx} {hostname : Option CString}
    (hctx : ctx.SameSwitches ctx') : page.SelectedBy ctx' hostname ↔ page.SelectedBy ctx hostname := by
  unfold Page.SelectedBy selectsEntry
  rw [hctx.pattern]

theorem bodySize_page {e : EntryPaths} {b : Bytes} (hok : w.script.AllOk)
    (hread : w.fs.read e.bodyPath = some b) :
    After (bodySize e.headerPath) w fun size w' =>
      size = b.length ∧ w'.fs = w.fs ∧ w'.script = w.script := by
  unfold bodySize
  rw [bodyPathOf_headerPath]
  have hstat : After (stat e.bodyPath) w fun size w' =>
      size = some b.length ∧ w'.fs = w.fs ∧ w'.script = w.script := by
    refine after_stat (fun w' _ h => ⟨?_, h.fs_eq, h.script_eq⟩) fun w' hfail _ => ?_
    · rw [hread]
      rfl
    · rw [hok.allowsAt] at hfail
      cases hfail
  refine Prog.after_bind.mpr (hstat.mono fun size w' h => Prog.after_pure.mpr ?_)
  obtain ⟨rfl, hfs, hscript⟩ := h
  exact ⟨rfl, hfs, hscript⟩

theorem deleteEntry_goneIf {e : EntryPaths} (hrem : w.script.RemovesOk) :
    After (deleteEntry e.headerPath) w fun _ w' => GoneIf true e w.fs w'.fs := by
  unfold deleteEntry
  rw [bodyPathOf_headerPath]
  refine Prog.after_bind.mpr (after_remove fun _ fs₁ w₁ h₁ hw₁ => ?_)
  refine Prog.after_bind.mpr (after_remove fun _ fs₂ w₂ h₂ hw₂ =>
    Prog.after_pure.mpr (goneIf_true fun q => ?_))
  rw [hw₁.script_eq, hw₁.fs_eq] at h₂
  rw [hw₂.fs_eq, h₂.read_eq hrem, h₁.read_eq hrem]

/-- A name that is not in use is passed. -/
theorem visitEntry_absent {p : Path} (hread : w.fs.read p = none) :
    After (visitEntry r ctx p) w fun ctx' w' => ctx' = ctx ∧ w'.fs = w.fs := by
  unfold visitEntry
  refine Prog.after_bind.mpr ((cacherCacheReadMeta_spec p w).mono fun result w₁ h₁ => ?_)
  obtain ⟨hfs, -, -, hfound⟩ := h₁
  cases result with
  | none => exact Prog.after_pure.mpr ⟨rfl, hfs⟩
  | some found =>
      obtain ⟨text, htext, -⟩ := (hfound found).mp rfl
      rw [hread] at htext
      cases htext

/-- The last lines of a visit. -/
theorem after_deleteMatches {e : EntryPaths} (ctx : AdminCtx) {ctx' : AdminCtx}
    (hrem : w.script.RemovesOk) :
    After (do
      if ctx.deleteMatches then deleteEntry e.headerPath
      pure ctx') w fun ctx'' w' => ctx'' = ctx' ∧ GoneIf ctx.deleteMatches e w.fs w'.fs := by
  show After (if _ then _ else _) _ _
  cases ctx.deleteMatches with
  | false =>
      rw [if_neg Bool.false_ne_true]
      exact Prog.after_pure.mpr ⟨rfl, goneIf_false rfl⟩
  | true =>
      rw [if_pos rfl]
      exact Prog.after_bind.mpr ((deleteEntry_goneIf hrem).mono fun _ w' h =>
        Prog.after_pure.mpr ⟨rfl, h⟩)

theorem Page.selectedBy_iff_of_found {info : CacherEntryMeta} {block : CString}
    (h : page.found = some (info, block)) {hostname : Option CString} :
    page.SelectedBy ctx hostname ↔ selectsEntry ctx hostname info = true := by
  constructor
  · rintro ⟨info', block', hsome, hselect⟩
    rw [h] at hsome
    cases hsome
    exact hselect
  · exact fun hselect => ⟨info, block, h, hselect⟩

/-- A visit counts the page if it is selected, and then it may delete it. -/
theorem visitEntry_page (r : RequestRec) (ctx : AdminCtx) (hok : w.script.AllOk)
    (hheader : w.fs.read (EntryPaths.mk root d).headerPath = some page.header)
    (hbody : w.fs.read (EntryPaths.mk root d).bodyPath = some page.body) :
    After (visitEntry r ctx (EntryPaths.mk root d).headerPath) w fun ctx' w' =>
      (¬ page.SelectedBy ctx r.hostname ∧ ctx' = ctx ∧ w'.fs = w.fs)
        ∨ page.SelectedBy ctx r.hostname
          ∧ ∃ now, (ctx.printRows = true → ReadBetween w w' now) ∧ ctx' = ctx.count ⟨d, page, now⟩
            ∧ GoneIf ctx.deleteMatches ⟨root, d⟩ w.fs w'.fs := by
  unfold visitEntry
  refine Prog.after_bind.mpr (after_mono_run (cacherCacheReadMeta_spec _ w)
    fun result w₁ hscript₁ hlog₁ h₁ => ?_)
  obtain ⟨hfs₁, -, -, hfound⟩ := h₁
  -- What is read is what the page says.
  have hresult : result = page.found := by
    refine Option.ext fun found => ?_
    rw [hfound, headerReads_iff_of_allOk hok hheader, ofBytes_header]
    rfl
  rw [hresult]
  cases hpage : page.found with
  | none =>
      refine Prog.after_pure.mpr (Or.inl ⟨?_, rfl, hfs₁⟩)
      rintro ⟨info, block, hsome, -⟩
      rw [hpage] at hsome
      cases hsome
  | some found =>
      obtain ⟨info, block⟩ := found
      have hselected : page.SelectedBy ctx r.hostname ↔ selectsEntry ctx r.hostname info = true :=
        Page.selectedBy_iff_of_found hpage
      show After (if selectsEntry ctx r.hostname info then _ else _) _ _
      split
      · rename_i hselect
        -- What follows the row.
        have hend : ∀ (ctx' : AdminCtx) w₂, w₂.fs = w.fs → w₂.script = w.script → After (do
            if ctx.deleteMatches then deleteEntry (EntryPaths.mk root d).headerPath
            pure ctx') w₂ fun ctx'' w' => ctx'' = ctx'
              ∧ GoneIf ctx.deleteMatches ⟨root, d⟩ w.fs w'.fs := by
          intro ctx' w₂ hfs₂ hscript₂
          rw [← hfs₂]
          exact after_deleteMatches ctx (by rw [hscript₂]; exact hok.removesOk)
        have hsize : ∀ w₂, w₂.fs = w.fs → w₂.script = w.script →
            After (bodySize (EntryPaths.mk root d).headerPath) w₂ fun size w' =>
              size = page.body.length ∧ w'.fs = w.fs ∧ w'.script = w.script := by
          intro w₂ hfs₂ hscript₂
          rw [← hfs₂, ← hscript₂]
          exact bodySize_page (by rw [hscript₂]; exact hok) (by rw [hfs₂]; exact hbody)
        refine Prog.after_bind.mpr (after_mono_run (hsize w₁ hfs₁ hscript₁)
          fun size w₂ _ hlog₂ h₂ => ?_)
        obtain ⟨rfl, hfs₂, hscript₂⟩ := h₂
        show After (if ctx.printRows then _ else _) _ _
        -- Only a row asks for the time, and it asks for the size once more.
        split
        · rename_i hprint
          refine Prog.after_bind.mpr (after_timeNow fun w₃ h₃ => ?_)
          have hfs₃ : w₃.fs = w.fs := by rw [h₃.fs_eq, hfs₂]
          have hscript₃ : w₃.script = w.script := by rw [h₃.script_eq, hscript₂]
          refine Prog.after_bind.mpr (after_mono_run (hsize w₃ hfs₃ hscript₃)
            fun size w₄ _ hlog₄ h₄ => ?_)
          obtain ⟨rfl, hfs₄, hscript₄⟩ := h₄
          refine after_mono_run (hend _ w₄ hfs₄ hscript₄) fun ctx' w₅ _ hlog₅ h₅ => ?_
          obtain ⟨rfl, hgone⟩ := h₅
          have hread : ReadBetween w w₅ (w₂.clockAt 0) := by
            have hlen := congrArg List.length h₃.log_eq
            rw [List.length_append, List.length_singleton] at hlen
            refine ⟨w₂.log.length, hlog₁.trans hlog₂, by omega, ?_⟩
            rw [← hscript₂]
            rfl
          exact Or.inr ⟨hselected.mpr hselect, _, fun _ => hread,
            (count_of_printRows hprint hpage _).symm, hgone⟩
        · rename_i hprint
          refine (hend _ w₂ hfs₂ hscript₂).mono fun ctx' w₃ h₃ => ?_
          obtain ⟨rfl, hgone⟩ := h₃
          exact Or.inr ⟨hselected.mpr hselect, 0, fun h => absurd h hprint,
            (count_of_not_printRows hprint ⟨d, page, 0⟩).symm, hgone⟩
      · rename_i hno
        exact Prog.after_pure.mpr (Or.inl ⟨fun h => hno (hselected.mp h), rfl, hfs₁⟩)

/-! ### Walks -/

/-- A walk keeps what each of its visits keeps. -/
theorem after_walkCache {I : AdminCtx → World → Prop}
    (hread : ∀ ctx w w', I ctx w → w'.fs = w.fs → w'.script = w.script → I ctx w')
    (hvisit : ∀ ctx w p, FileSystem.Under root p → isHeaderName (FileSystem.basename p) = true →
      I ctx w → After (visitEntry r ctx p) w I)
    (depth : Nat) {dir : Path} (hdir : dir = root ∨ FileSystem.Under root dir) (h : I ctx w) :
    After (walkCache r depth ctx dir) w I := by
  induction depth generalizing ctx w dir with
  | zero => exact Prog.after_pure.mpr h
  | succ depth ih =>
      refine Prog.after_bind.mpr (after_dirRead (fun w₁ _ h₁ => ?_) fun w₁ h₁ =>
        Prog.after_pure.mpr (hread _ _ _ h h₁.fs_eq h₁.script_eq))
      refine Prog.after_foldlM (I := fun _ => I) (hread _ _ _ h h₁.fs_eq h₁.script_eq)
        fun _ entry ctx₂ w₂ h₂ hmem => ?_
      obtain ⟨name, isDir⟩ := entry
      have hunder : FileSystem.Under root (dir ++ chr '/' :: name) :=
        FileSystem.under_entry hdir name
      split
      · exact Prog.after_pure.mpr h₂
      split
      · exact ih (Or.inr hunder) h₂
      split
      · rename_i hfile hname
        obtain rfl : isDir = false := by simpa using hfile
        obtain ⟨q, -, -, -, rfl⟩ := FileSystem.mem_entries_file.mp hmem
        refine hvisit _ _ _ hunder ?_ h₂
        rw [FileSystem.basename_append dir (FileSystem.slash_notMem_basename q)]
        exact hname
      · exact Prog.after_pure.mpr h₂

/-- A header is no body. -/
theorem ne_bodyPath_of_isHeaderName {p : Path}
    (hname : isHeaderName (FileSystem.basename p) = true) (d : Digest) :
    p ≠ (EntryPaths.mk root d).bodyPath := by
  rintro rfl
  rw [isHeaderName_bodyPath] at hname
  cases hname

/-- One visit of a walk that deletes. -/
theorem Deleting.visit (h : Holds root pages w.fs) (hdelete : ctx.deleteMatches = true)
    {counted : List (Counted Int64)} {w' : World} (hok : w'.script.AllOk)
    (hdel : Deleting root pages (·.SelectedBy ctx r.hostname) w.fs counted w'.fs) {p : Path}
    (hunder : FileSystem.Under root p) (hname : isHeaderName (FileSystem.basename p) = true) :
    After (visitEntry r (counted.foldl AdminCtx.count ctx) p) w' fun ctx' w'' =>
      ∃ counted, Deleting root pages (·.SelectedBy ctx r.hostname) w.fs counted w''.fs
        ∧ ctx' = counted.foldl AdminCtx.count ctx := by
  cases hread : w'.fs.read p with
  | none =>
      refine (visitEntry_absent hread).mono fun ctx' w'' h' => ?_
      obtain ⟨rfl, hfs⟩ := h'
      rw [hfs]
      exact ⟨counted, hdel, rfl⟩
  | some b =>
      obtain ⟨d, page, rfl, hpage, hnew⟩ :=
        hdel.of_header h hunder (ne_bodyPath_of_isHeaderName hname) hread
      obtain ⟨hheader, hbody⟩ := hdel.read h hpage hnew
      have hsame := sameSwitches_foldl_count counted ctx
      refine (visitEntry_page r _ hok hheader hbody).mono fun ctx' w'' h' => ?_
      rcases h' with ⟨-, rfl, hfs⟩ | ⟨hselect, now, -, rfl, hgone⟩
      · rw [hfs]
        exact ⟨counted, hdel, rfl⟩
      · rw [hsame.deleteMatches.trans hdelete] at hgone
        refine ⟨_, hdel.take hpage ((Page.SelectedBy.same hsame).mp hselect) hnew hgone now, ?_⟩
        rw [List.foldl_append]
        rfl

/-- A deleting walk counts each page that it selects once. -/
theorem Holds.walk_deletes (h : Holds root pages w.fs) (hroot : root ≠ []) (hok : w.script.AllOk)
    (r : RequestRec) {depth : Nat} (hdepth : 3 ≤ depth) (hdelete : ctx.deleteMatches = true) :
    After (walkCache r depth ctx root) w fun ctx' _ =>
      ∃ counted, CountsSelected (pages · = some ·) (·.SelectedBy ctx r.hostname) counted
        ∧ ctx' = counted.foldl AdminCtx.count ctx := by
  -- Selected pages only, and none of them twice.
  have hdeletes : After (walkCache r depth ctx root) w fun ctx' w' => w'.script = w.script
      ∧ ∃ counted, Deleting root pages (·.SelectedBy ctx r.hostname) w.fs counted w'.fs
        ∧ ctx' = counted.foldl AdminCtx.count ctx := by
    refine after_walkCache (I := fun ctx' w' => w'.script = w.script
        ∧ ∃ counted, Deleting root pages (·.SelectedBy ctx r.hostname) w.fs counted w'.fs
          ∧ ctx' = counted.foldl AdminCtx.count ctx)
      (fun ctx' w₁ w₂ h' hfs hscript => ?_) (fun ctx' w₁ p hunder hname h' => ?_) depth
      (Or.inl rfl) ⟨rfl, [], .start, rfl⟩
    · rw [hfs, hscript]
      exact h'
    · obtain ⟨hscript, counted, hdel, rfl⟩ := h'
      have hok₁ : w₁.script.AllOk := by
        rw [hscript]
        exact hok
      exact ⟨(run_script _ w₁).trans hscript, hdel.visit h hdelete hok₁ hunder hname⟩
  have hwalk := h.walk hroot hok r hdepth hdelete
  obtain ⟨-, counted, hdel, hctx⟩ := hdeletes
  refine ⟨counted, hdel.countsSelected h fun d page hpage hselect => ?_, hctx⟩
  -- A page that is selected is gone in the end.
  have hgone := hwalk.header d
  rwa [Store.apply_discard_of_selects hpage hselect] at hgone

/-! ### A walk that lists -/

/-- A name that a walk skips. -/
def isHidden (name : CString) : Bool := decide (name.head? = some (chr '.'))

/-- The walk of `walk_cache`. -/
def httpWalking : FileSystem.Walking where
  order l := l
  skips := isHidden
  visits := isHeaderName
  perm_order _ := List.Perm.refl _

/-- The headers that a walk visits. -/
abbrev headersBelow (fs : FileSystem) : Nat → Path → List Path := FileSystem.filesBelow httpWalking fs

/-- What a walk makes of the headers below a directory is what its visits make of them, one after
another. -/
theorem after_walkCache_headersBelow {fs : FileSystem} {I : List Path → AdminCtx → World → Prop}
    (hI : ∀ {done ctx w}, I done ctx w → w.fs = fs ∧ w.script.AllOk)
    (hread : ∀ done ctx w w', I done ctx w → w'.fs = w.fs → w'.script = w.script →
      w.log.length ≤ w'.log.length → I done ctx w')
    (hvisit : ∀ done ctx w p, FileSystem.Under root p →
      isHeaderName (FileSystem.basename p) = true → I done ctx w →
      After (visitEntry r ctx p) w (I (done ++ [p])))
    (depth : Nat) {dir : Path} (hdir : dir = root ∨ FileSystem.Under root dir) (done : List Path)
    (h : I done ctx w) :
    After (walkCache r depth ctx dir) w (I (done ++ headersBelow fs depth dir)) := by
  -- `done` grows by what is below each directory that the walk has left.
  induction depth generalizing ctx w dir done with
  | zero =>
      refine Prog.after_pure.mpr ?_
      show I (done ++ []) ctx w
      rw [List.append_nil]
      exact h
  | succ depth ih =>
      obtain ⟨rfl, hok⟩ := hI h
      have hlog : ∀ {w' op ok}, w.Called op ok w.fs w' → w.log.length ≤ w'.log.length := by
        intro w' op ok h'
        rw [h'.log_eq, List.length_append]
        exact Nat.le_add_right _ _
      refine Prog.after_bind.mpr (after_dirRead_ok hok (fun w₁ hmem h₁ => ?_) fun w₁ hmem h₁ => ?_)
      · rw [headersBelow, FileSystem.filesBelow_of_mem hmem]
        have hstart := hread _ _ _ w₁ h h₁.fs_eq h₁.script_eq (hlog h₁)
        refine Prog.after_foldlM (I := fun turns => I (done ++ turns.flatMap
          (FileSystem.filesOf isHidden isHeaderName (headersBelow w.fs depth) dir)))
          (by simpa using hstart) fun turns entry ctx₂ w₂ h₂ hentry => ?_
        obtain ⟨name, isDir⟩ := entry
        have hunder : FileSystem.Under root (dir ++ chr '/' :: name) :=
          FileSystem.under_entry hdir name
        rw [List.flatMap_append, List.flatMap_singleton, ← List.append_assoc]
        -- The tests of the loop are those of the listing.
        split
        · rename_i hhidden
          simpa [FileSystem.filesOf, isHidden, show name.head? = some (chr '.') from hhidden] using h₂
        rename_i hhidden
        have hvisible : isHidden name = false := decide_eq_false hhidden
        split
        · rename_i hisDir
          obtain rfl : isDir = true := hisDir
          have hsub := ih (Or.inr hunder) _ h₂
          simpa [FileSystem.filesOf, hvisible] using hsub
        rename_i hfile
        obtain rfl : isDir = false := by simpa using hfile
        split
        · rename_i hname
          have hname : isHeaderName name = true := hname
          obtain ⟨q, -, -, -, rfl⟩ := FileSystem.mem_entries_file.mp hentry
          have hheader : isHeaderName
              (FileSystem.basename (dir ++ chr '/' :: FileSystem.basename q)) = true := by
            rw [FileSystem.basename_append dir (FileSystem.slash_notMem_basename q)]
            exact hname
          simpa [FileSystem.filesOf, hvisible, hname] using hvisit _ _ _ _ hunder hheader h₂
        · rename_i hname
          have hname : isHeaderName name = false := by simpa using hname
          simpa [FileSystem.filesOf, hvisible, hname] using h₂
      · rw [headersBelow, FileSystem.filesBelow_of_notMem hmem, List.append_nil]
        exact Prog.after_pure.mpr (hread _ _ _ _ h h₁.fs_eq h₁.script_eq (hlog h₁))

theorem printRows_foldl_count (counted : List (Counted Int64)) (ctx : AdminCtx) :
    (counted.foldl AdminCtx.count ctx).printRows = ctx.printRows := by
  induction counted generalizing ctx with
  | nil => rfl
  | cons c counted ih => exact ih (ctx.count c)

/-- How far a walk has come that lists. -/
structure Lists (root : CString) (pages : Pages) (ctx : AdminCtx) (hostname : Option CString)
    (w : World) (done : List Path) (ctx' : AdminCtx) (w' : World) (counted : List (Counted Int64)) :
    Prop where
  listing : Listing root pages (·.SelectedBy ctx hostname) done counted
  clock : ctx.printRows = true → ∀ c ∈ counted, ReadBetween w w' c.note
  ctx_eq : ctx' = counted.foldl AdminCtx.count ctx
  fs_eq : w'.fs = w.fs
  script_eq : w'.script = w.script
  log_le : w.log.length ≤ w'.log.length

/-- What only reads leaves it there. -/
theorem Lists.idle {hostname : Option CString} {done done' : List Path} {ctx' : AdminCtx}
    {w' w'' : World} {counted : List (Counted Int64)}
    (h : Lists root pages ctx hostname w done ctx' w' counted)
    (hlisting : Listing root pages (·.SelectedBy ctx hostname) done' counted)
    (hfs : w''.fs = w'.fs) (hscript : w''.script = w'.script)
    (hlog : w'.log.length ≤ w''.log.length) :
    Lists root pages ctx hostname w done' ctx' w'' counted :=
  ⟨hlisting, fun hp c hc => (h.clock hp c hc).mono rfl (Nat.le_refl _) hlog, h.ctx_eq,
    hfs.trans h.fs_eq, hscript.trans h.script_eq, h.log_le.trans hlog⟩

/-- One visit of a walk that lists. -/
theorem Lists.visit (h : Holds root pages w.fs) (hkeeps : ctx.deleteMatches = false)
    (hok : w.script.AllOk) {done : List Path} {ctx' : AdminCtx} {w' : World}
    {counted : List (Counted Int64)} (hlist : Lists root pages ctx r.hostname w done ctx' w' counted)
    {p : Path} (hunder : FileSystem.Under root p)
    (hname : isHeaderName (FileSystem.basename p) = true) :
    After (visitEntry r ctx' p) w' fun ctx'' w'' =>
      ∃ counted, Lists root pages ctx r.hostname w (done ++ [p]) ctx'' w'' counted := by
  obtain rfl := hlist.ctx_eq
  have hsame := sameSwitches_foldl_count counted ctx
  have hprint := printRows_foldl_count counted ctx
  cases hread : w'.fs.read p with
  | none =>
      refine after_mono_run (visitEntry_absent hread) fun ctx'' w'' hscript hlog h' => ?_
      obtain ⟨rfl, hfs⟩ := h'
      refine ⟨counted, hlist.idle (hlist.listing.skip fun d page hp hpage => ?_) hfs hscript hlog⟩
      rw [← hp, hlist.fs_eq, h.header, hpage] at hread
      cases hread
  | some b =>
      rw [hlist.fs_eq] at hread
      obtain ⟨d, page, rfl, hpage⟩ := h.of_header hunder (ne_bodyPath_of_isHeaderName hname) hread
      have hheader : w'.fs.read (EntryPaths.mk root d).headerPath = some page.header := by
        rw [hlist.fs_eq, h.header, hpage]
        rfl
      have hbody : w'.fs.read (EntryPaths.mk root d).bodyPath = some page.body := by
        rw [hlist.fs_eq, h.body, hpage]
        rfl
      have hok' : w'.script.AllOk := by
        rw [hlist.script_eq]
        exact hok
      have hvisit := visitEntry_page r (counted.foldl AdminCtx.count ctx) hok' hheader hbody
      have hidle := visitEntry_idle (Or.inl (hsame.deleteMatches.trans hkeeps) :
        AdminCtx.Idle _ r.hostname) (EntryPaths.mk root d).headerPath w'
      refine after_mono_run (after_and hidle hvisit) fun ctx'' w'' hscript hlog h' => ?_
      obtain ⟨hfs, ⟨hno, rfl, -⟩ | ⟨hselect, now, hclock, rfl, -⟩⟩ := h'
      · refine ⟨counted, hlist.idle (hlist.listing.skip fun d' page' hp hpage' hselect => ?_)
          hfs hscript hlog⟩
        obtain rfl := EntryPaths.digest_eq_of_headerPath hp
        obtain rfl := Option.some.inj (hpage.symm.trans hpage')
        exact hno ((Page.SelectedBy.same hsame).mpr hselect)
      · refine ⟨_, hlist.listing.take hpage ((Page.SelectedBy.same hsame).mp hselect) now,
          fun hp c hc => ?_, ?_, hfs.trans hlist.fs_eq, hscript.trans hlist.script_eq,
          hlist.log_le.trans hlog⟩
        · rcases List.mem_append.mp hc with hc | hc
          · exact (hlist.clock hp c hc).mono rfl (Nat.le_refl _) hlog
          · obtain rfl := List.mem_singleton.mp hc
            exact (hclock (hprint.trans hp)).mono hlist.script_eq hlist.log_le (Nat.le_refl _)
        · rw [List.foldl_append]
          rfl

/-- A walk that lists counts each page that it selects once. -/
theorem Holds.walk_lists (h : Holds root pages w.fs) (htidy : w.fs.Tidy) (hroot : root ≠ [])
    (hok : w.script.AllOk) (r : RequestRec) {depth : Nat} (hdepth : 3 ≤ depth) (ctx : AdminCtx)
    (hkeeps : ctx.deleteMatches = false) :
    After (walkCache r depth ctx root) w fun ctx' w' => w'.fs = w.fs
      ∧ ∃ counted, CountsSelected (pages · = some ·) (·.SelectedBy ctx r.hostname) counted
        ∧ (ctx.printRows = true → ∀ c ∈ counted, ReadBetween w w' c.note)
        ∧ ctx' = counted.foldl AdminCtx.count ctx := by
  have hlists : After (walkCache r depth ctx root) w fun ctx' w' =>
      ∃ counted, Lists root pages ctx r.hostname w (headersBelow w.fs depth root) ctx' w' counted := by
    refine after_walkCache_headersBelow
      (I := fun done ctx' w' => ∃ counted, Lists root pages ctx r.hostname w done ctx' w' counted)
      (fun h' => ?_) (fun done ctx' w₁ w₂ h' hfs hscript hlog => ?_)
      (fun done ctx' w₁ p hunder hname h' => ?_) depth (Or.inl rfl) [] ⟨[], ?_⟩
    · obtain ⟨counted, hlist⟩ := h'
      rw [hlist.script_eq]
      exact ⟨hlist.fs_eq, hok⟩
    · obtain ⟨counted, hlist⟩ := h'
      exact ⟨counted, hlist.idle hlist.listing hfs hscript hlog⟩
    · obtain ⟨counted, hlist⟩ := h'
      exact hlist.visit h hkeeps hok hunder hname
    · exact ⟨.start, fun _ c hc => absurd hc List.not_mem_nil, rfl, rfl, rfl, Nat.le_refl _⟩
  refine hlists.mono fun ctx' w' h' => ?_
  obtain ⟨counted, hlist⟩ := h'
  have hcounts := hlist.listing.countsSelected h htidy hroot
    (fun name hname => decide_eq_false (head?_ne_dot hname)) (fun d => isHeaderName_headerPath _) hdepth
  exact ⟨hlist.fs_eq, counted, hcounts, hlist.clock, hlist.ctx_eq⟩

/-! ### What the administration answers -/

/-- Behind an open gate, an admin request sends what its walk has counted. -/
theorem serveRequest_of_walk {v : Visit} {dconf : CacherDirConf} {action : CString}
    (hsub : v.request.main = false) (hunder : UnderAdminPath v.request dconf action)
    (hopen : ¬ (dconf.adminRequireUser ≠ some false ∧ v.request.user = none))
    {answer : AdminCtx → AdminAnswer}
    (hwalk : cacherAdminHandle v.env.walkDepth v.request v.request.cacheRoot action
      = walkCache v.request v.env.walkDepth ctx root >>= fun ctx => pure (answer ctx))
    {Q : AdminCtx → World → Prop} (h : After (walkCache v.request v.env.walkDepth ctx root) w Q) :
    After (serveRequest v.env v.request v.reply.calls) w fun result w' =>
      ∃ ctx', Q ctx' w' ∧ result.status = (answer ctx').status
        ∧ result.output = (answer ctx').output := by
  unfold serveRequest
  rw [cacherHandler_of_underAdminPath v.env hsub hunder, handleAdmin, if_neg hopen, hwalk, bind_assoc,
    bind_assoc]
  refine Prog.after_bind.mpr (h.mono fun ctx' w' hQ => ?_)
  exact Prog.after_pure.mpr ⟨ctx', hQ, rfl, rfl⟩

/-- The text of a listing. -/
def listing (counted : List (Counted Int64)) : CString :=
  listHead ++ counted.flatMap (·.row) ++ lit "\n" ++ entriesText counted.length ++ lit ", "
    ++ decimal ((counted.map (·.page.body.length)).sum : Nat) ++ lit " bytes\n"

theorem listAnswer_foldl_count (counted : List (Counted Int64)) :
    listAnswer (counted.foldl AdminCtx.count AdminCtx.list) = ⟨.ok, listing counted⟩ := by
  unfold listAnswer listing
  rw [output_foldl_count counted rfl, matched_foldl_count, bytes_foldl_count]
  show AdminAnswer.mk _ (listHead ++ _ ++ _ ++ entriesText (0 + _) ++ _ ++ decimal ((0 + _ : Nat) : Int)
    ++ _) = _
  rw [Nat.zero_add, Nat.zero_add]

/-- The listing shows every page that the requests before it have left for its host, expired or
not, in one row each, with the number of the pages and the sum of their lengths, and it changes
nothing. -/
theorem reports_list (hne : root ≠ []) {visits : List Visit} (hvisits : ∀ v ∈ visits, v.At root)
    (hok : w.script.AllOk) (hcold : Holds root Store.empty w.fs) (htidy : w.fs.Tidy) {v : Visit}
    (hv : v.At root) (hsub : v.request.main = false) {dconf : CacherDirConf}
    (hunder : UnderAdminPath v.request dconf (lit "/list"))
    (hopen : ¬ (dconf.adminRequireUser ≠ some false ∧ v.request.user = none)) :
    ∃ counted, CountsSelected (LastStored (Record.records Visit.serve visits w))
        (·.SelectedBy AdminCtx.list v.request.hostname) counted
      ∧ (∀ c ∈ counted, ReadBetween (Record.lastState Visit.serve visits w)
          (v.serve (Record.lastState Visit.serve visits w)).2 c.note)
      ∧ (v.serve (Record.lastState Visit.serve visits w)).1.status = .ok
      ∧ (v.serve (Record.lastState Visit.serve visits w)).1.output = listing counted
      ∧ (v.serve (Record.lastState Visit.serve visits w)).2.fs
        = (Record.lastState Visit.serve visits w).fs := by
  obtain ⟨pages, hend, hok', hstored⟩ := exists_holds_lastStored hne hvisits hok hcold
  have hwalk := hend.walk_lists (tidy_lastState htidy) hne hok' v.request hv.depth_le
    AdminCtx.list rfl
  have hhandle : cacherAdminHandle v.env.walkDepth v.request v.request.cacheRoot (lit "/list")
      = walkCache v.request v.env.walkDepth AdminCtx.list root
        >>= fun ctx => pure (listAnswer ctx) := by
    rw [hv.root_eq]
    rfl
  obtain ⟨ctx', ⟨hfs, counted, hcounts, hclock, hctx⟩, hstatus, houtput⟩ :=
    serveRequest_of_walk hsub hunder hopen hhandle hwalk
  rw [hctx, listAnswer_foldl_count] at hstatus houtput
  exact ⟨counted, hcounts.congr hstored, hclock rfl, hstatus, houtput, hfs⟩

/-- `GET /cacher/list`. -/
def Visit.ofList : Visit where
  env := Env.ofRules []
  request := RequestRec.admin (lit "/list")
  reply := ⟨[], ⟨200, [], none, false⟩, [], Reply.noEos_nil, List.not_mem_nil⟩

/-- The page that is stored behind the purge is listed. -/
theorem reports_list_pageThenPurge :
    ∃ counted, CountsSelected
        (LastStored (Record.records Visit.serve Visit.pageThenPurge World.cold))
        (·.SelectedBy AdminCtx.list Visit.ofList.request.hostname) counted
      ∧ listing counted = lit "METHOD  ST       SIZE   EXPIRES  URL\n"
        ++ lit "GET    200          1       60s  h/a\n" ++ lit "\n1 entry, 1 bytes\n" := by
  obtain ⟨dconf, hunder, hopen⟩ : ∃ dconf, UnderAdminPath Visit.ofList.request dconf (lit "/list")
      ∧ ¬ (dconf.adminRequireUser ≠ some false ∧ Visit.ofList.request.user = none) :=
    ⟨_, ⟨rfl, rfl⟩, by decide⟩
  obtain ⟨counted, hcounts, -, -, houtput, -⟩ := reports_list (by decide) at_pageThenPurge
    (fun _ _ => rfl) (holds_cold _) FileSystem.tidy_empty ⟨rfl, Nat.le_refl 3⟩ rfl hunder hopen
  refine ⟨counted, hcounts, houtput.symm.trans ?_⟩
  decide +kernel

/-- A full reset or a purge reports the number of the pages that the requests before it have left
and that it selects. A purge that selects none answers `404`. -/
theorem reports_deletion (hne : root ≠ []) {visits : List Visit}
    (hvisits : ∀ v ∈ visits, v.At root) (hok : w.script.AllOk)
    (hcold : Holds root Store.empty w.fs) {v : Visit} (hv : v.At root)
    (hdeletes : v.Deletes ctx) :
    ∃ digests : List Digest, digests.Nodup
      ∧ (∀ d, d ∈ digests ↔ ∃ page, LastStored (Record.records Visit.serve visits w) d page
        ∧ page.SelectedBy ctx v.request.hostname)
      ∧ (v.serve (Record.lastState Visit.serve visits w)).1.status
        = (removedAnswer ctx.pattern digests.length).status
      ∧ (v.serve (Record.lastState Visit.serve visits w)).1.output
        = (removedAnswer ctx.pattern digests.length).output := by
  obtain ⟨pages, hend, hok', hstored⟩ := exists_holds_lastStored hne hvisits hok hcold
  obtain ⟨hsub, dconf, action, hunder, hopen, hfor⟩ := hdeletes
  have hswitches : ctx.deleteMatches = true ∧ ctx.matched = 0 := by cases hfor <;> exact ⟨rfl, rfl⟩
  have hwalk := hend.walk_deletes hne hok' v.request hv.depth_le hswitches.1
  have hhandle : cacherAdminHandle v.env.walkDepth v.request v.request.cacheRoot action
      = walkCache v.request v.env.walkDepth ctx root
        >>= fun ctx' => pure (removedAnswer ctx.pattern ctx'.matched) := by
    rw [hv.root_eq]
    have hruns := cacherAdminHandle_runs v.env.walkDepth v.request root action
    generalize cacherAdminHandle v.env.walkDepth v.request (some root) action = p at hruns
    cases hruns with
    | deletes hfor' =>
        rw [hfor.unique hfor']
    | lists _ hno => exact absurd hfor (hno ctx)
    | answers _ hno _ => exact absurd hfor (hno ctx)
  obtain ⟨ctx', ⟨counted, hcounts, hctx⟩, hstatus, houtput⟩ :=
    serveRequest_of_walk hsub hunder hopen hhandle hwalk
  rw [hctx, matched_foldl_count, hswitches.2, Nat.zero_add] at hstatus houtput
  refine ⟨counted.map (·.digest), hcounts.nodup, fun d => ?_, ?_, ?_⟩
  · rw [hcounts.mem_digests]
    simp only [hstored]
  · rw [List.length_map]
    exact hstatus
  · rw [List.length_map]
    exact houtput

theorem deletes_ofPurge : Visit.ofPurge.Deletes (AdminCtx.purge (lit "/a")) :=
  ⟨rfl, _, _, ⟨rfl, rfl⟩, by decide, .purge (by decide) (by decide)⟩

/-- A second purge deletes the page that is stored behind the first. -/
theorem reports_deletion_pageThenPurge :
    ∃ digests : List Digest, digests.Nodup
      ∧ (∀ d, d ∈ digests ↔ ∃ page,
        LastStored (Record.records Visit.serve Visit.pageThenPurge World.cold) d page
          ∧ page.SelectedBy (AdminCtx.purge (lit "/a")) Visit.ofPurge.request.hostname)
      ∧ (removedAnswer (some (lit "/a")) digests.length).output
        = lit "purge /a: removed 1 entry\n" := by
  obtain ⟨digests, hnodup, hmem, -, houtput⟩ := reports_deletion (by decide) at_pageThenPurge
    (fun _ _ => rfl) (holds_cold _) at_ofPurge deletes_ofPurge
  refine ⟨digests, hnodup, hmem, houtput.symm.trans ?_⟩
  decide +kernel

end Walks

end Cacher
