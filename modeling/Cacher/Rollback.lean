import Cacher.Capture

/-!
# `Cacher.Rollback`: what a failed publish leaves behind

`finalizeCacheEntry` has five exits without an entry. `finalizeCacheEntry_ends` says what
the files are after each of them, in terms of the outcomes that the environment has in
store for the calls ahead. Removals are assumed to succeed.

Four exits undo what the capture has done. The last one, behind the two renames, removes the
body under its final name. `finalizeCacheEntry_undone_iff` says when that is a loss: a
rename fails and the key had a body before.
-/

set_option autoImplicit false

namespace Cacher

open CText Files

/-- The header file that the capture writes when it runs from `w`. -/
def finalText (r : RequestRec) (ctx : CacherOutCtx) (w : World) : Bytes :=
  toBytes (headerFileText (finalMeta r ctx w) (dumpHeaders r.headersOut))

/-- The capture gets as far as its renames, with the temporary header `tmpHeader`. -/
structure ReachesRenames (r : RequestRec) (ctx : CacherOutCtx) (w : World)
    (tmpHeader : TempSuffix) : Prop where
  notAborted : r.aborted = false
  lengthOk : lengthMismatch r.headersOut ctx.bodyLen = false
  /-- The third call makes the temporary header. -/
  temp : w.tempAt 2 ctx.paths.headerPath = some tmpHeader
  written : w.allowsAt 3
    (.writeFull (ctx.paths.tmpHeaderPath tmpHeader) (finalText r ctx w)) = true

/-- Both renames succeed. -/
structure RenamesWork (ctx : CacherOutCtx) (tmpBody : TempSuffix) (w : World)
    (tmpHeader : TempSuffix) : Prop where
  tmpIsSome : (w.fs.read (ctx.paths.tmpBodyPath tmpBody)).isSome
  body : w.allowsAt 4 (.rename (ctx.paths.tmpBodyPath tmpBody) ctx.paths.bodyPath) = true
  header : w.allowsAt 5 (.rename (ctx.paths.tmpHeaderPath tmpHeader) ctx.paths.headerPath) = true

/-- The capture gets as far as its renames, and one of them fails. -/
def RenameFails (r : RequestRec) (ctx : CacherOutCtx) (tmpBody : TempSuffix) (w : World) : Prop :=
  ∃ tmpHeader, ReachesRenames r ctx w tmpHeader ∧ ¬ RenamesWork ctx tmpBody w tmpHeader

/-- The temporary body is gone, and every other file is as it was. -/
structure Undone (ctx : CacherOutCtx) (tmpBody : TempSuffix) (fs fs' : FileSystem) : Prop where
  tmpGone : fs'.read (ctx.paths.tmpBodyPath tmpBody) = none
  other : ∀ q, q ≠ ctx.paths.tmpBodyPath tmpBody → fs'.read q = fs.read q

/-- How the end of a capture can go. -/
inductive FinalizeEnds (r : RequestRec) (ctx : CacherOutCtx) (tmpBody : TempSuffix) (w : World) :
    Bool → FileSystem → Prop where
  | published {tmpHeader : TempSuffix} {fs : FileSystem} (hreach : ReachesRenames r ctx w tmpHeader)
      (hwork : RenamesWork ctx tmpBody w tmpHeader) : FinalizeEnds r ctx tmpBody w true fs
  /-- One of the first four exits. -/
  | early {fs : FileSystem} (hno : ∀ tmpHeader, ¬ ReachesRenames r ctx w tmpHeader)
      (hundone : Undone ctx tmpBody w.fs fs) : FinalizeEnds r ctx tmpBody w false fs
  /-- The exit behind the renames. -/
  | late {fs : FileSystem} (hfails : RenameFails r ctx tmpBody w)
      (hbody : fs.read ctx.paths.bodyPath = none)
      (htmp : fs.read (ctx.paths.tmpBodyPath tmpBody) = none)
      (hother : ∀ q, q ≠ ctx.paths.bodyPath → q ≠ ctx.paths.tmpBodyPath tmpBody →
        fs.read q = w.fs.read q) : FinalizeEnds r ctx tmpBody w false fs

section Finalize

variable {r : RequestRec} {ctx : CacherOutCtx} {tmpBody : TempSuffix} {w : World}

/-- The temporary header is the one that the environment picks. -/
theorem ReachesRenames.unique {t t' : TempSuffix} (h : ReachesRenames r ctx w t)
    (h' : ReachesRenames r ctx w t') : t = t' := by
  have htemp := h.temp
  rw [h'.temp] at htemp
  exact (Option.some.inj htemp).symm

/-- One of the first four exits, from a world with the files of `w`. -/
theorem ends_giveUp (hrem : w.script.RemovesOk)
    (hno : ∀ tmpHeader, ¬ ReachesRenames r ctx w tmpHeader) {w₁ : World}
    (hscript : w₁.script = w.script) (hfs : ∀ q, w₁.fs.read q = w.fs.read q) :
    After (remove (ctx.paths.tmpBodyPath tmpBody) >>= fun _ => pure false : FileProg Bool) w₁
      fun published w' => FinalizeEnds r ctx tmpBody w published w'.fs := by
  refine Prog.after_bind.mpr (after_remove fun ok fs w₂ hremoved h₂ => Prog.after_pure.mpr ?_)
  rw [hscript] at hremoved
  refine .early hno ⟨?_, fun q hq => ?_⟩
  · rw [h₂.fs_eq, hremoved.read_eq hrem, if_pos rfl]
  · rw [h₂.fs_eq, hremoved.read_eq hrem, if_neg hq, hfs]

/-- Where a rename has failed, the three removals take the body away with the two temporary
files. -/
theorem ends_removeAll {tmpHeader : TempSuffix} (hrem : w.script.RemovesOk)
    (hfails : RenameFails r ctx tmpBody w)
    (hfree : w.fs.read (ctx.paths.tmpHeaderPath tmpHeader) = none) {w₁ : World}
    (hscript : w₁.script = w.script)
    (hfs : ∀ q, q ≠ ctx.paths.bodyPath → q ≠ ctx.paths.tmpBodyPath tmpBody →
      q ≠ ctx.paths.tmpHeaderPath tmpHeader → w₁.fs.read q = w.fs.read q) :
    After (do
        let _ ← remove (ctx.paths.tmpBodyPath tmpBody)
        let _ ← remove (ctx.paths.tmpHeaderPath tmpHeader)
        let _ ← remove ctx.paths.bodyPath
        pure false : FileProg Bool) w₁
      fun published w' => FinalizeEnds r ctx tmpBody w published w'.fs := by
  refine Prog.after_bind.mpr (after_remove fun ok₂ fs₂ w₂ hrem₂ h₂ => ?_)
  refine Prog.after_bind.mpr (after_remove fun ok₃ fs₃ w₃ hrem₃ h₃ => ?_)
  refine Prog.after_bind.mpr (after_remove fun ok₄ fs₄ w₄ hrem₄ h₄ => Prog.after_pure.mpr ?_)
  rw [hscript] at hrem₂
  rw [h₂.script_eq, hscript, h₂.fs_eq] at hrem₃
  rw [h₃.script_eq, h₂.script_eq, hscript, h₃.fs_eq] at hrem₄
  have hread : ∀ q, w₄.fs.read q = if q = ctx.paths.bodyPath then none
      else if q = ctx.paths.tmpHeaderPath tmpHeader then none
      else if q = ctx.paths.tmpBodyPath tmpBody then none else w₁.fs.read q := by
    intro q
    rw [h₄.fs_eq, hrem₄.read_eq hrem, hrem₃.read_eq hrem, hrem₂.read_eq hrem]
  refine .late hfails (by rw [hread, if_pos rfl]) ?_ fun q hq hq' => ?_
  · rw [hread, if_neg (EntryPaths.tmpBodyPath_ne_bodyPath _ _ _),
      if_neg (EntryPaths.tmpBodyPath_ne_tmpHeaderPath _ _ _ _), if_pos rfl]
  · rw [hread, if_neg hq]
    by_cases htmp : q = ctx.paths.tmpHeaderPath tmpHeader
    · rw [if_pos htmp, htmp, hfree]
    · rw [if_neg htmp, if_neg hq', hfs q hq hq' htmp]

/-- The renames, from a world whose only new file is the temporary header. -/
theorem ends_publish {tmpHeader : TempSuffix} (hrem : w.script.RemovesOk)
    (hreach : ReachesRenames r ctx w tmpHeader) {w₁ : World} (hscript : w₁.script = w.script)
    (hallows : ∀ n op, w₁.allowsAt n op = w.allowsAt (n + 4) op)
    (hfs : ∀ q, w₁.fs.read q = if q = ctx.paths.tmpHeaderPath tmpHeader
      then some (finalText r ctx w) else w.fs.read q) :
    After (do
        if ← publishEntry ctx.paths tmpBody tmpHeader then pure true
        else
          let _ ← remove (ctx.paths.tmpBodyPath tmpBody)
          let _ ← remove (ctx.paths.tmpHeaderPath tmpHeader)
          let _ ← remove ctx.paths.bodyPath
          pure false : FileProg Bool) w₁
      fun published w' => FinalizeEnds r ctx tmpBody w published w'.fs := by
  have hfree := World.read_of_tempAt hreach.temp
  have htmp : w₁.fs.read (ctx.paths.tmpBodyPath tmpBody)
      = w.fs.read (ctx.paths.tmpBodyPath tmpBody) := by
    rw [hfs, if_neg (EntryPaths.tmpBodyPath_ne_tmpHeaderPath _ _ _ _)]
  -- The files after a failed rename differ from `w` in the names that are removed.
  have hback : ∀ w₂ : World, ¬ RenamesWork ctx tmpBody w tmpHeader → w₂.script = w.script →
      (∀ q, q ≠ ctx.paths.bodyPath → q ≠ ctx.paths.tmpBodyPath tmpBody →
        w₂.fs.read q = w₁.fs.read q) →
      After (do
          let _ ← remove (ctx.paths.tmpBodyPath tmpBody)
          let _ ← remove (ctx.paths.tmpHeaderPath tmpHeader)
          let _ ← remove ctx.paths.bodyPath
          pure false : FileProg Bool) w₂
        fun published w' => FinalizeEnds r ctx tmpBody w published w'.fs := by
    intro w₂ hno hscript₂ hread₂
    refine ends_removeAll hrem ⟨_, hreach, hno⟩ hfree hscript₂ fun q hq hq' hq'' => ?_
    rw [hread₂ q hq hq', hfs, if_neg hq'']
  unfold publishEntry
  simp only [bind_assoc]
  refine Prog.after_bind.mpr (after_rename_at (fun b w₂ hok hb h₂ => ?_) (fun w₂ hno h₂ => ?_))
  · rw [hallows] at hok
    rw [htmp] at hb
    have hread₂ : ∀ q, w₂.fs.read q = if q = ctx.paths.bodyPath then some b
        else if q = ctx.paths.tmpBodyPath tmpBody then none else w₁.fs.read q := by
      intro q
      rw [h₂.fs_eq, FileSystem.read_move (by rw [htmp, hb])]
    rw [if_pos rfl]
    refine Prog.after_bind.mpr (after_rename_at (fun b' w₃ hok' hb' h₃ => ?_)
      (fun w₃ hno h₃ => ?_))
    · rw [h₂.allowsAt_eq, hallows] at hok'
      rw [if_pos rfl]
      exact Prog.after_pure.mpr (.published hreach ⟨by rw [hb]; rfl, hok, hok'⟩)
    · -- The header could not be moved.
      rw [if_neg Bool.false_ne_true]
      refine hback w₃ (fun hwork => ?_) (by rw [h₃.script_eq, h₂.script_eq, hscript])
        fun q hq hq' => by rw [h₃.fs_eq, hread₂, if_neg hq, if_neg hq']
      have hgone := hno (by rw [h₂.allowsAt_eq, hallows]; exact hwork.header)
      rw [hread₂, if_neg (EntryPaths.tmpHeaderPath_ne_bodyPath _ _ _),
        if_neg (EntryPaths.tmpBodyPath_ne_tmpHeaderPath _ _ _ _).symm, hfs, if_pos rfl] at hgone
      cases hgone
  · -- The body could not be moved.
    rw [if_neg Bool.false_ne_true]
    refine Prog.after_bind.mpr (Prog.after_pure.mpr ?_)
    rw [if_neg Bool.false_ne_true]
    refine hback w₂ (fun hwork => ?_) (by rw [h₂.script_eq, hscript])
      fun q _ _ => by rw [h₂.fs_eq]
    have hgone := hno (by rw [hallows]; exact hwork.body)
    have hsome := hwork.tmpIsSome
    rw [← htmp, hgone] at hsome
    cases hsome

/-- Every exit of `finalizeCacheEntry`, with the reason for it. -/
theorem finalizeCacheEntry_ends (r : RequestRec) (ctx : CacherOutCtx) (tmpBody : TempSuffix)
    {w : World} (hrem : w.script.RemovesOk) :
    After (finalizeCacheEntry r ctx tmpBody) w fun published w' =>
      FinalizeEnds r ctx tmpBody w published w'.fs := by
  unfold finalizeCacheEntry
  split
  · rename_i haborted
    refine ends_giveUp hrem (fun t hreach => ?_) rfl fun _ => rfl
    rw [hreach.notAborted] at haborted
    cases haborted
  rename_i haborted
  split
  · rename_i hlength
    refine ends_giveUp hrem (fun t hreach => ?_) rfl fun _ => rfl
    rw [hreach.lengthOk] at hlength
    cases hlength
  rename_i hlength
  refine Prog.after_bind.mpr (after_timeNow fun w₁ h₁ => ?_)
  refine Prog.after_bind.mpr (after_timeNow fun w₂ h₂ => ?_)
  have hclock : w₁.clockAt 0 = w.clockAt 1 := by
    simp [World.clockAt, h₁.script_eq, h₁.log_eq]
  have hfs₂ : w₂.fs = w.fs := by rw [h₂.fs_eq, h₁.fs_eq]
  have hscript₂ : w₂.script = w.script := by rw [h₂.script_eq, h₁.script_eq]
  have htemp₂ : w₂.tempAt 0 ctx.paths.headerPath = w.tempAt 2 ctx.paths.headerPath := by
    rw [h₂.tempAt_eq, h₁.tempAt_eq]
  rw [hclock]
  refine Prog.after_bind.mpr (after_mktemp_at (fun tmpHeader w₃ htemp h₃ => ?_)
    (fun w₃ htemp h₃ => ?_))
  · rw [htemp₂] at htemp
    have hallows₃ : ∀ n op, w₃.allowsAt n op = w.allowsAt (n + 3) op := by
      intro n op
      rw [h₃.allowsAt_eq, h₂.allowsAt_eq, h₁.allowsAt_eq]
    -- Whatever is written so far, the other files are those of `w`.
    have happend : ∀ data q, (w₃.fs.append (ctx.paths.tmpHeaderPath tmpHeader) data).read q
        = if q = ctx.paths.tmpHeaderPath tmpHeader then some data else w.fs.read q := by
      intro data q
      rw [h₃.fs_eq, hfs₂]
      exact FileSystem.read_append_put w.fs _ q data
    have hscript₃ : w₃.script = w.script := by rw [h₃.script_eq, hscript₂]
    refine Prog.after_bind.mpr (after_writeFull_at (fun w₄ hok h₄ => ?_)
      (fun part w₄ hno h₄ => ?_))
    · rw [hallows₃] at hok
      rw [if_pos rfl]
      refine ends_publish hrem ⟨by simpa using haborted, by simpa using hlength, htemp, hok⟩
        (by rw [h₄.script_eq, hscript₃]) (fun n op => by rw [h₄.allowsAt_eq, hallows₃])
        fun q => by rw [h₄.fs_eq, happend]; rfl
    · -- The header text could not be written.
      rw [hallows₃] at hno
      rw [if_neg Bool.false_ne_true]
      refine Prog.after_bind.mpr (after_remove fun ok fs₅ w₅ hrem₅ h₅ => ?_)
      rw [h₄.script_eq, hscript₃, h₄.fs_eq] at hrem₅
      refine ends_giveUp hrem (fun t hreach => ?_)
        (by rw [h₅.script_eq, h₄.script_eq, hscript₃]) fun q => ?_
      · have hwritten := hreach.written
        have hsame := hreach.temp
        rw [htemp] at hsame
        cases hsame
        change w.allowsAt 3 (.writeFull _ (finalText r ctx w)) = false at hno
        rw [hno] at hwritten
        cases hwritten
      · rw [h₅.fs_eq, hrem₅.read_eq hrem, happend]
        by_cases hq : q = ctx.paths.tmpHeaderPath tmpHeader
        · rw [if_pos hq, hq]
          exact (World.read_of_tempAt htemp).symm
        · rw [if_neg hq, if_neg hq]
  · -- No temporary header.
    rw [htemp₂] at htemp
    refine ends_giveUp hrem (fun t hreach => ?_) (by rw [h₃.script_eq, hscript₂])
      fun q => by rw [h₃.fs_eq, hfs₂]
    have hmade := hreach.temp
    rw [htemp] at hmade
    cases hmade

/-- A capture that publishes nothing leaves the files as they were and takes its temporary
files away, except exactly when one of its renames fails and its key had a body. -/
theorem finalizeCacheEntry_undone_iff (r : RequestRec) (ctx : CacherOutCtx) (tmpBody : TempSuffix)
    {w : World} (hrem : w.script.RemovesOk) :
    ((run (finalizeCacheEntry r ctx tmpBody) w).1 = false →
        Undone ctx tmpBody w.fs (run (finalizeCacheEntry r ctx tmpBody) w).2.fs)
      ↔ ¬ (RenameFails r ctx tmpBody w ∧ (w.fs.read ctx.paths.bodyPath).isSome) := by
  have hends := finalizeCacheEntry_ends r ctx tmpBody hrem
  unfold After Prog.After at hends
  unfold run
  generalize Prog.exec World.answer (finalizeCacheEntry r ctx tmpBody) w = out at hends
  obtain ⟨published, w'⟩ := out
  have hbody : ctx.paths.bodyPath ≠ ctx.paths.tmpBodyPath tmpBody :=
    (EntryPaths.tmpBodyPath_ne_bodyPath _ _ _).symm
  constructor
  · rintro hundone ⟨⟨t, hreach, hno⟩, hsome⟩
    cases hends with
    | published hreach' hwork =>
        obtain rfl := hreach.unique hreach'
        exact hno hwork
    | early hno _ => exact hno t hreach
    | late _ hgone _ _ =>
        rw [← (hundone rfl).other _ hbody, hgone] at hsome
        cases hsome
  · intro hno hfalse
    cases hends with
    | published _ _ => cases hfalse
    | early _ hundone => exact hundone
    | late hfails hgone htmp hother =>
        refine ⟨htmp, fun q hq => ?_⟩
        by_cases hq' : q = ctx.paths.bodyPath
        · -- There was no body to lose.
          have hnone : w.fs.read ctx.paths.bodyPath = none := by
            rw [← Option.not_isSome_iff_eq_none]
            exact fun hsome => hno ⟨hfails, hsome⟩
          rw [hq', hgone, hnone]
        · exact hother q hq' hq

/-- A cache with an entry for the key of the sample capture. Every rename in it fails. -/
def World.noRenames : World where
  fs := { files := [(CacherOutCtx.sample.paths.tmpBodyPath default, [2]),
                    (CacherOutCtx.sample.paths.headerPath, toBytes (headerFileText
                      ⟨90, 150, 200, lit "GET", lit "-", lit "/a"⟩ [])),
                    (CacherOutCtx.sample.paths.bodyPath, [1])]
          dirs := [] }
  script _ op :=
    { ok := match op with | .rename _ _ => false | _ => true
      clock := 100
      suffix := default
      written := 0 }
  log := []

/-- The capture takes the body of the entry away. -/
theorem not_undone_noRenames :
    ¬ ((run (finalizeCacheEntry (RequestRec.get (lit "/a") none) CacherOutCtx.sample default)
          World.noRenames).1 = false →
        Undone CacherOutCtx.sample default World.noRenames.fs
          (run (finalizeCacheEntry (RequestRec.get (lit "/a") none) CacherOutCtx.sample default)
            World.noRenames).2.fs) := by
  intro h
  have hbody := (h (by decide +kernel)).other CacherOutCtx.sample.paths.bodyPath
    (EntryPaths.tmpBodyPath_ne_bodyPath _ _ _).symm
  revert hbody
  decide +kernel

/-- The sample capture, where nothing fails. -/
theorem finalizeCacheEntry_undone_sample :
    ((run (finalizeCacheEntry (RequestRec.get (lit "/a") none) CacherOutCtx.sample default)
          World.sample).1 = false →
        Undone CacherOutCtx.sample default World.sample.fs
          (run (finalizeCacheEntry (RequestRec.get (lit "/a") none) CacherOutCtx.sample default)
            World.sample).2.fs)
      ↔ ¬ (RenameFails (RequestRec.get (lit "/a") none) CacherOutCtx.sample default World.sample
          ∧ (World.sample.fs.read CacherOutCtx.sample.paths.bodyPath).isSome) :=
  finalizeCacheEntry_undone_iff _ _ _ (Script.allOk_steady 100).removesOk

end Finalize

end Cacher
