import Cacher.Deletion

/-!
# `Cacher.Reset`: what a full reset removes

A full reset walks the whole cache root and deletes the entries that its own host finds in the
header files. Whatever the walk does, it leaves each entry as it was or removes both of its
files (`Swept`), and it removes an entry exactly when it finds its host in the header
(`read_headerPath_fullReset`).

The host in a header is not always the host of the captured request. A request without a host
is written as `-`, which a reset without a host does not look for, and a url may put a url line
of its own into the header. `resetExact_iff` says that the reset is exact when and only when
the header of every entry names the host it was captured for.
-/

set_option autoImplicit false

namespace Cacher

open CText Files

/-! ### What a walk leaves of an entry -/

/-- Both files of the entry are as they were. -/
structure EntryKept (e : EntryPaths) (fs fs' : FileSystem) : Prop where
  header : fs'.read e.headerPath = fs.read e.headerPath
  body : fs'.read e.bodyPath = fs.read e.bodyPath

/-- Neither file of the entry is there. -/
structure EntryGone (e : EntryPaths) (fs : FileSystem) : Prop where
  header : fs.read e.headerPath = none
  body : fs.read e.bodyPath = none

/-- The entry is as it was, or the switches have selected it and it is gone. -/
inductive Swept (ctx : AdminCtx) (hostname : Option CString) (e : EntryPaths)
    (fs fs' : FileSystem) : Prop where
  | kept (h : EntryKept e fs fs')
  | deleted {b : Bytes} (hread : fs.read e.headerPath = some b)
      (hselect : SelectsHeader ctx hostname b) (hgone : EntryGone e fs')

section Swept

variable {ctx : AdminCtx} {hostname : Option CString} {e : EntryPaths} {fs fs₁ fs₂ : FileSystem}

theorem Swept.refl : Swept ctx hostname e fs fs := .kept ⟨rfl, rfl⟩

theorem Swept.trans (h₁ : Swept ctx hostname e fs fs₁) (h₂ : Swept ctx hostname e fs₁ fs₂) :
    Swept ctx hostname e fs fs₂ := by
  cases h₁ with
  | kept h₁ =>
      cases h₂ with
      | kept h₂ => exact .kept ⟨h₂.header.trans h₁.header, h₂.body.trans h₁.body⟩
      | deleted hread hselect hgone => exact .deleted (h₁.header.symm.trans hread) hselect hgone
  | deleted hread hselect hgone =>
      cases h₂ with
      | kept h₂ =>
          exact .deleted hread hselect ⟨h₂.header.trans hgone.header, h₂.body.trans hgone.body⟩
      | deleted hread' _ _ =>
          -- What is gone is not deleted again.
          rw [hgone.header] at hread'
          cases hread'

/-- A file that passes for a header has the body of an entry only if it is the header of that
entry. -/
theorem eq_headerPath_of_bodyPathOf {dir : Path} {name : CString} (hslash : chr '/' ∉ name)
    (hname : isHeaderName name = true) (h : bodyPathOf (dir ++ chr '/' :: name) = e.bodyPath) :
    dir ++ chr '/' :: name = e.headerPath := by
  have hlen7 : (lit ".header").length = 7 := rfl
  have hinfix := ((isHeaderName_iff name).mp hname).1
  have hname7 : 7 ≤ name.length := hlen7 ▸ hinfix.length_le
  -- The path is the stem of the entry and seven more characters.
  generalize hp : dir ++ chr '/' :: name = p at h ⊢
  have hstem : p.take (p.length - 7) = e.stem := List.append_cancel_right h
  have hsplit : e.stem ++ p.drop (p.length - 7) = p := by
    rw [← hstem, List.take_append_drop]
  have hplen : name.length ≤ p.length := by
    rw [← hp]
    simp only [List.length_append, List.length_cons]
    omega
  have htail : (p.drop (p.length - 7)).length = 7 := by
    rw [List.length_drop]
    omega
  -- They are the last characters of the name.
  have hsuffix : p.drop (p.length - 7) <:+ name := by
    refine List.suffix_of_suffix_length_le (List.drop_suffix _ p) ?_ (by omega)
    rw [← hp]
    exact (List.suffix_cons _ name).trans (List.suffix_append _ _)
  have hbase : name = hexEncodeMd5 e.digest ++ p.drop (p.length - 7) := by
    rw [← e.basename_stem_append fun hmem => hslash (hsuffix.subset hmem), hsplit, ← hp,
      FileSystem.basename_append dir hslash]
  rw [hbase] at hinfix
  have heq := ((dot_infix_name _ (lit "header") _).mp hinfix).eq_of_length (by rw [htail]; rfl)
  rw [← hsplit, ← heq]
  rfl

/-- A walk that visits another file leaves both files of the entry alone. -/
theorem swept_of_visit_other {r : RequestRec} {dir : Path} {name : CString} {w : World}
    (hslash : chr '/' ∉ name) (hname : isHeaderName name = true)
    (hother : dir ++ chr '/' :: name ≠ e.headerPath) :
    After (visitEntry r ctx (dir ++ chr '/' :: name)) w fun _ w' =>
      Swept ctx hostname e w.fs w'.fs := by
  have hbase := FileSystem.basename_append dir hslash
  have hnotBody : dir ++ chr '/' :: name ≠ e.bodyPath := by
    intro h
    rw [h] at hbase
    rw [← hbase, isHeaderName_bodyPath] at hname
    cases hname
  have hnotHeader : bodyPathOf (dir ++ chr '/' :: name) ≠ e.headerPath := by
    intro h
    have hlast := congrArg List.getLast? h
    rw [e.getLast?_headerPath, bodyPathOf, List.getLast?_append] at hlast
    exact absurd (Option.some.inj hlast) (by decide)
  have huses : Prog.Uses (fun op => ¬ op.Touches e.headerPath ∧ ¬ op.Touches e.bodyPath)
      (visitEntry r ctx (dir ++ chr '/' :: name)) :=
    uses_visitEntry (uses_cacherCacheReadMeta ⟨id, id⟩ (fun _ => ⟨id, id⟩) fun _ _ => ⟨id, id⟩)
      ⟨id, id⟩ ⟨id, id⟩
      ⟨hnotHeader, fun h => hother (eq_headerPath_of_bodyPathOf hslash hname h)⟩
      ⟨hother, hnotBody⟩
  refine .kept (Prog.exec_inv (I := fun w' : World => EntryKept e w.fs w'.fs)
    (fun w' op hop h => ?_) huses ⟨rfl, rfl⟩)
  exact ⟨(w'.read_answer_of_not_touches hop.1).trans h.header,
    (w'.read_answer_of_not_touches hop.2).trans h.body⟩

/-- A program that only reads leaves the files alone. -/
theorem after_readOnly {α : Type} {p : FileProg α} (hp : Prog.Uses FileOp.ReadOnly p) {w : World}
    {Q : α → World → Prop} (h : ∀ a w', w'.fs = w.fs → w'.script = w.script → Q a w') :
    After p w Q := h _ _ (run_fs_of_readOnly hp w) (run_script p w)

/-- Deleting the entry removes both files. -/
theorem deleteEntry_gone {w : World} (hrem : w.script.RemovesOk) :
    After (deleteEntry e.headerPath) w fun _ w' => EntryGone e w'.fs := by
  unfold deleteEntry
  rw [bodyPathOf_headerPath]
  refine Prog.after_bind.mpr (after_remove fun _ fs₁ w₁ h₁ hw₁ => ?_)
  refine Prog.after_bind.mpr (after_remove fun _ fs₂ w₂ h₂ hw₂ => Prog.after_pure.mpr ?_)
  rw [hw₁.script_eq, hw₁.fs_eq] at h₂
  constructor
  · rw [hw₂.fs_eq, h₂.read_eq hrem, if_pos rfl]
  · rw [hw₂.fs_eq, h₂.read_eq hrem, if_neg (e.headerPath_ne_bodyPath e).symm, h₁.read_eq hrem,
      if_pos rfl]

/-- A walk that visits the header of the entry deletes it only if it has selected it. -/
theorem swept_of_visit_header {r : RequestRec} {w : World} (hrem : w.script.RemovesOk) :
    After (visitEntry r ctx e.headerPath) w fun _ w' => Swept ctx r.hostname e w.fs w'.fs := by
  have hsize : Prog.Uses FileOp.ReadOnly (bodySize e.headerPath) :=
    Prog.uses_bind (Prog.uses_perform trivial) fun _ => Prog.uses_pure _ _
  refine Prog.after_bind.mpr ((cacherCacheReadMeta_spec e.headerPath w).mono
    fun result w₁ h₁ => ?_)
  obtain ⟨hfs₁, hscript₁, -, hfound⟩ := h₁
  have hkept : ∀ w' : World, w'.fs = w.fs → Swept ctx r.hostname e w.fs w'.fs := by
    intro w' h
    rw [h]
    exact .refl
  cases result with
  | none => exact Prog.after_pure.mpr (hkept w₁ hfs₁)
  | some found =>
      obtain ⟨info, block⟩ := found
      obtain ⟨b, hread, -, -, -, hmeta⟩ := (hfound _).mp rfl
      show After (if selectsEntry ctx r.hostname info then _ else _) _ _
      split
      · rename_i hselect
        -- What follows the row.
        have hend : ∀ (ctx' : AdminCtx) w', w'.fs = w.fs → w'.script = w.script → After (do
            if ctx.deleteMatches then deleteEntry e.headerPath
            pure ctx') w' fun _ w' => Swept ctx r.hostname e w.fs w'.fs := by
          intro ctx' w' hfs hscript
          show After (if _ then _ else _) _ _
          split
          · refine Prog.after_bind.mpr ((deleteEntry_gone (by rw [hscript]; exact hrem)).mono
              fun _ w'' hgone => Prog.after_pure.mpr ?_)
            exact .deleted hread ⟨info, block, hmeta, hselect⟩ hgone
          · exact Prog.after_pure.mpr (hkept w' hfs)
        refine Prog.after_bind.mpr (after_readOnly hsize fun size w₂ hfs₂ hscript₂ => ?_)
        show After (if ctx.printRows then _ else _) _ _
        split
        · refine Prog.after_bind.mpr (after_timeNow fun w₃ h₃ => ?_)
          refine Prog.after_bind.mpr (after_readOnly hsize fun size w₄ hfs₄ hscript₄ => ?_)
          exact hend _ w₄ (by rw [hfs₄, h₃.fs_eq, hfs₂, hfs₁])
            (by rw [hscript₄, h₃.script_eq, hscript₂, hscript₁])
        · exact hend _ w₂ (by rw [hfs₂, hfs₁]) (by rw [hscript₂, hscript₁])
      · exact Prog.after_pure.mpr (hkept w₁ hfs₁)

theorem Swept.same {ctx' : AdminCtx} (h : Swept ctx' hostname e fs fs₁)
    (hctx : ctx.SameSwitches ctx') : Swept ctx hostname e fs fs₁ := by
  cases h with
  | kept h => exact .kept h
  | deleted hread hselect hgone => exact .deleted hread (hselect.same ⟨hctx.pattern.symm, hctx.deleteMatches.symm⟩) hgone

/-- A walk leaves the entry alone, or deletes it. -/
theorem walkCache_swept (r : RequestRec) (depth : Nat) (ctx : AdminCtx) (dir : Path) {w : World}
    (hrem : w.script.RemovesOk) :
    After (walkCache r depth ctx dir) w fun _ w' => Swept ctx r.hostname e w.fs w'.fs := by
  induction depth generalizing ctx dir w with
  | zero => exact .refl
  | succ depth ih =>
      refine Prog.after_bind.mpr (after_dirRead (fun w₁ _ h₁ => ?_) fun w₁ h₁ => ?_)
      · have hrem₁ : w₁.script.RemovesOk := by
          rw [h₁.script_eq]
          exact hrem
        refine (Prog.after_foldlM (I := fun _ ctx' w' => ctx.SameSwitches ctx'
          ∧ w'.script.RemovesOk ∧ Swept ctx r.hostname e w.fs w'.fs)
          ⟨⟨rfl, rfl⟩, hrem₁, by rw [h₁.fs_eq]; exact .refl⟩
          fun _ entry ctx₂ w₂ h₂ hmem => ?_).mono fun _ _ h => h.2.2
        obtain ⟨hctx, hrem₂, hswept⟩ := h₂
        -- What a turn adds to the turns before it.
        have hturn : ∀ {p : FileProg AdminCtx}, Prog.Returns p ctx₂.SameSwitches →
            After p w₂ (fun _ w' => Swept ctx₂ r.hostname e w₂.fs w'.fs) → After p w₂ fun ctx' w' =>
              ctx.SameSwitches ctx' ∧ w'.script.RemovesOk ∧ Swept ctx r.hostname e w.fs w'.fs := by
          intro p hreturns hp
          refine ⟨hctx.trans (hreturns.exec_result w₂), ?_, hswept.trans (hp.same hctx)⟩
          rw [run_script]
          exact hrem₂
        split
        · exact Prog.after_pure.mpr ⟨hctx, hrem₂, hswept⟩
        split
        · exact hturn (returns_walkCache r depth ctx₂ _) (ih ctx₂ _ hrem₂)
        split
        · rename_i hfile hname
          refine hturn (returns_visitEntry r ctx₂ _) ?_
          obtain ⟨name, isDir⟩ := entry
          obtain rfl : isDir = false := by simpa using hfile
          obtain ⟨q, -, -, -, rfl⟩ := FileSystem.mem_entries_file.mp hmem
          by_cases hpath : dir ++ chr '/' :: FileSystem.basename q = e.headerPath
          · rw [hpath]
            exact swept_of_visit_header hrem₂
          · exact swept_of_visit_other (FileSystem.slash_notMem_basename q) hname hpath
        · exact Prog.after_pure.mpr ⟨hctx, hrem₂, hswept⟩
      · refine Prog.after_pure.mpr ?_
        rw [h₁.fs_eq]
        exact .refl

end Swept

/-! ### What a full reset leaves of an entry -/

/-- The world after `cacher_admin_handle` with `/full-reset`. -/
def fullReset (depth : Nat) (r : RequestRec) (root : CString) (w : World) : World :=
  (run (cacherAdminHandle depth r (some root) (lit "/full-reset")) w).2

/-- The context of a full reset. -/
def AdminCtx.reset : AdminCtx := { AdminCtx.zero with deleteMatches := true }

theorem fullReset_eq (depth : Nat) (r : RequestRec) (root : CString) (w : World) :
    fullReset depth r root w = (run (walkCache r depth AdminCtx.reset root) w).2 := by
  show (run (walkCache r depth AdminCtx.reset root >>= fun ctx => pure _) w).2 = _
  rw [run, Prog.exec_bind]
  rfl

/-- Someone who looks for the host `hostname` finds it in the header file `b`. -/
def NamesHost (b : Bytes) (hostname : Option CString) : Prop :=
  ∃ info block, readMetaText (ofBytes b) = some (info, block)
    ∧ eqCi info.host (hostname.getD []) = true

/-- A full reset selects what names its host. -/
theorem selectsHeader_reset (b : Bytes) (hostname : Option CString) :
    SelectsHeader AdminCtx.reset hostname b ↔ NamesHost b hostname := by
  simp [SelectsHeader, NamesHost, selectsEntry, AdminCtx.reset, AdminCtx.zero,
    cacherStreqCi_eq_eqCi]

section Reset

variable {depth : Nat} {r : RequestRec} {root : CString} {w : World} {e : EntryPaths} {b : Bytes}

/-- Alone, a walk that is after a header relies on nothing but itself. -/
theorem hunt_alone (e : EntryPaths) :
    Hunt (fun w w' => w' = w) (fun w => w.fs.read e.headerPath = none) e 0 where
  log w w' h := by rw [h]
  script w w' h := by rw [h]
  dirs w w' h := by rw [h]; exact List.Subset.refl _
  header w w' h := Or.inr (by rw [h])
  goal w w' h hgone := by rw [h]; exact hgone
  call w op hop hgone := by
    rcases w.answer_read_of_onlyRemoves hop e.headerPath with h | h
    · rw [h, hgone]
    · exact h
  gone w b _ hscript _ := by
    have hrem : w.script.RemovesOk := fun n p =>
      hscript n (.remove p) (show FileOp.OnlyRemoves (.remove p) from trivial)
    have hrule : After (remove e.headerPath) w fun _ w' => w'.fs.read e.headerPath = none :=
      after_remove fun ok fs w' h hw' => by rw [hw'.fs_eq]; exact h.gone hrem
    exact hrule

/-- A full reset removes both files of an entry that names its host, and leaves any other entry
as it was. -/
theorem fullReset_swept (hscript : w.script.ReadsAndRemovesOk) :
    Swept AdminCtx.reset r.hostname e w.fs (fullReset depth r root w).fs := by
  rw [fullReset_eq]
  exact walkCache_swept r depth AdminCtx.reset root fun n p =>
    hscript n (.remove p) (show FileOp.OnlyRemoves (.remove p) from trivial)

theorem fullReset_gone (hdepth : 3 ≤ depth) (hscript : w.script.ReadsAndRemovesOk)
    (hroot : e.cacheRoot ∈ w.fs.dirs) (hshard : ShardIn w.fs e)
    (hread : w.fs.read e.headerPath = some b) (hnames : NamesHost b r.hostname) :
    EntryGone e (fullReset depth r e.cacheRoot w).fs := by
  have hheader : (fullReset depth r e.cacheRoot w).fs.read e.headerPath = none := by
    have hreaches := (hunt_alone e).walkCache_reaches rfl
      ((selectsHeader_reset b r.hostname).mpr hnames) hdepth ⟨Nat.zero_le _, hscript, hroot, hshard, Or.inr hread⟩
    rw [fullReset_eq]
    exact (hreaches.after (by intro w; rfl)).2
  have hswept : Swept AdminCtx.reset r.hostname e w.fs (fullReset depth r e.cacheRoot w).fs :=
    fullReset_swept hscript
  cases hswept with
  | kept h =>
      rw [h.header, hread] at hheader
      cases hheader
  | deleted _ _ hgone => exact hgone

/-- Without a cache root there is nothing to walk. -/
theorem fullReset_of_no_root (hroot : root ∉ w.fs.dirs) : (fullReset depth r root w).fs = w.fs := by
  rw [fullReset_eq]
  cases depth with
  | zero => rfl
  | succ depth =>
      have hrule : After (walkCache r (depth + 1) AdminCtx.reset root) w fun _ w' => w'.fs = w.fs :=
        Prog.after_bind.mpr (after_dirRead (fun _ hdir _ => absurd hdir hroot) fun w' h => h.fs_eq)
      exact hrule

end Reset

/-! ### Entries are where the walk looks -/

/-- Entries are in their directories, and so is what open captures write. -/
structure CacheState.Sharded (s : CacheState) : Prop where
  entries : EntriesInShards s.world.fs
  captures : ∀ c ∈ s.captures, c.ctx.tmpBody ≠ none → ShardIn s.world.fs c.ctx.paths

theorem entriesInShards_run_of_onlyRemoves {α : Type} {p : FileProg α} (hp : OnlyRemoves p)
    {w : World} (h : EntriesInShards w.fs) : EntriesInShards (run p w).2.fs := by
  refine Prog.exec_inv (I := fun w' : World => EntriesInShards w'.fs) (fun w' op hop hin => ?_) hp h
  exact hin.answer_of_onlyRemoves hop

/-- A call of the filter opens its files in the directory that it has made. -/
theorem Capture.sharded_brigade (c : Capture) (a : Answer) (bb : List Bucket) {w : World}
    (hin : EntriesInShards w.fs) (hopen : c.ctx.tmpBody ≠ none → ShardIn w.fs c.ctx.paths) :
    EntriesInShards (c.brigade a bb w).2.fs
      ∧ ((c.brigade a bb w).1.ctx.tmpBody ≠ none →
        ShardIn (c.brigade a bb w).2.fs (c.brigade a bb w).1.ctx.paths) := by
  -- An open capture comes with the call that has made its directory.
  have hstart : ∃ l, ShardsMade l w.fs ∧ InShard c.ctx.paths l c.ctx := by
    by_cases htmp : c.ctx.tmpBody = none
    · exact ⟨[], fun e h => absurd h List.not_mem_nil, rfl, fun h => absurd htmp h⟩
    · refine ⟨[⟨.dirMakeRecursive (FileSystem.dirname c.ctx.paths.bodyPath), true⟩],
        fun e h => ?_, rfl, fun _ => List.mem_singleton.mpr rfl⟩
      obtain ⟨hop, -⟩ := Sigma.mk.inj_iff.mp (List.mem_singleton.mp h)
      refine (hopen htmp).of_shard ?_
      rw [← c.ctx.paths.dirname_bodyPath, ← e.dirname_bodyPath]
      exact (FileOp.dirMakeRecursive.inj hop).symm
  obtain ⟨l, hmade, hctx⟩ := hstart
  obtain ⟨hin', l', hmade', hctx'⟩ :=
    (inOrder_cacherOutputFilter (c.request.withAnswer a) hctx bb).entriesInShards hmade hin
  refine ⟨hin', fun htmp => ?_⟩
  have hpaths : (c.brigade a bb w).1.ctx.paths = c.ctx.paths := hctx'.paths_eq
  rw [hpaths]
  exact hmade' _ (hctx'.made htmp)

theorem CacheState.Sharded.step {s : CacheState} (h : s.Sharded) (event : Event) :
    (s.step event).Sharded := by
  cases event with
  | request env r =>
      refine ⟨entriesInShards_run_of_onlyRemoves (onlyRemoves_cacherHandler env r) h.entries,
        fun c hc htmp => ?_⟩
      rcases List.mem_append.mp hc with hc | hc
      · exact (h.captures c hc htmp).mono (dirs_subset_run _ _)
      · -- A new capture has opened nothing.
        obtain ⟨ctx, hctx, rfl⟩ := Option.map_eq_some_iff.mp (Option.mem_toList.mp hc)
        obtain ⟨first, hfirst, -⟩ := (sound_of_filter hctx).accepted htmp
        cases hfirst
  | brigade i a bb =>
      cases hc : s.captures[i]? with
      | none =>
          have hstep : s.step (.brigade i a bb) = s := by simp only [CacheState.step, hc]
          rw [hstep]
          exact h
      | some c =>
          have hmem := List.mem_of_getElem? hc
          obtain ⟨hin, hopen⟩ := c.sharded_brigade a bb h.entries (h.captures c hmem)
          simp only [CacheState.step, hc]
          refine ⟨hin, fun d hd htmp => ?_⟩
          rcases List.mem_or_eq_of_mem_set hd with hd | rfl
          · exact (h.captures d hd htmp).mono (dirs_subset_run _ _)
          · exact hopen htmp
  | purge paths =>
      have hdirs : (paths.foldl FileSystem.erase s.world.fs).dirs = s.world.fs.dirs := by
        generalize s.world.fs = fs
        induction paths generalizing fs with
        | nil => rfl
        | cons p paths ih => exact ih (fs.erase p)
      have hmono : ∀ e, ShardIn s.world.fs e → ShardIn (paths.foldl FileSystem.erase s.world.fs) e :=
        fun e hin => hin.mono (by rw [hdirs]; exact List.Subset.refl _)
      exact ⟨fun e b hread => hmono e (h.entries e b (read_foldl_erase hread)),
        fun c hc htmp => hmono _ (h.captures c hc htmp)⟩

/-- In every run from a cold cache, every entry is in its directory. -/
theorem entriesInShards_run {s : CacheState} (hcold : s.Cold) (events : List Event) :
    EntriesInShards (s.run events).world.fs := by
  have hrun : ∀ (events : List Event) {s : CacheState}, s.Sharded → (s.run events).Sharded := by
    intro events
    induction events with
    | nil => exact fun h => h
    | cons event events ih => exact fun h => ih (h.step event)
  refine (hrun events ⟨fun e b hread => ?_, fun c hc => ?_⟩).entries
  · rw [hcold.noHeader] at hread
    cases hread
  · rw [hcold.noCapture] at hc
    cases hc

/-! ### When a full reset is exact -/

/-- Two requests have the same host up to case. No host counts as an empty one. -/
def SameHost (r r' : RequestRec) : Prop := eqCi (r.hostname.getD []) (r'.hostname.getD []) = true

theorem SameHost.symm {r r' : RequestRec} (h : SameHost r r') : SameHost r' r := by
  rw [SameHost, eqCi_symm]
  exact h

theorem SameHost.trans {r₁ r₂ r₃ : RequestRec} (h₁ : SameHost r₁ r₂) (h₂ : SameHost r₂ r₃) :
    SameHost r₁ r₃ := eqCi_trans h₁ h₂

/-- The entry is in the cache below `root`, and the capture has written its header. -/
structure InPlace (s : CacheState) (root : CString) (e : EntryPaths) (b : Bytes)
    (c : Capture) : Prop where
  root_eq : e.cacheRoot = root
  read_eq : s.world.fs.read e.headerPath = some b
  captured : c ∈ s.captures
  wrote : HeaderFrom c e.headerPath b

/-- A later request, whose key has its digest in common with no other key. -/
structure Asks (s : CacheState) (md5 : CString → Digest) (root : CString) (r : RequestRec)
    (rule : CacherRule) : Prop where
  lines : r.LineFields
  noCollision : ∀ c ∈ s.captures, ∀ e, cacheKeyPaths md5 r (some root) rule = some e →
    c.ctx.paths.headerPath = e.headerPath →
    buildCacheKeyString r rule = buildCacheKeyString c.request c.ctx.rule

/-- What a lookup among the files `fs` returns, whatever the outcomes of its calls. -/
def lookupIn (fs : FileSystem) (script : Script) (log : List (FileOp × Bool))
    (md5 : CString → Digest) (root : CString) (r : RequestRec) (rule : CacherRule) :
    RequestRec × Option Hit :=
  (run (cacherCacheLookup md5 r (some root) rule) ⟨fs, script, log⟩).1

/-- The files `fs'` are those of `s` without the entries of the host of `r`. -/
structure ResetExact (s : CacheState) (root : CString) (r : RequestRec) (fs' : FileSystem) :
    Prop where
  removes : ∀ e b c, InPlace s root e b c → SameHost c.request r → EntryGone e fs'
  keeps : ∀ e b c, InPlace s root e b c → ¬ SameHost c.request r → EntryKept e s.world.fs fs'
  misses : ∀ md5 r' rule, Asks s md5 root r' rule → SameHost r' r → ∀ script log,
    (lookupIn fs' script log md5 root r' rule).2 = none
  others : ∀ md5 r' rule, Asks s md5 root r' rule → ¬ SameHost r' r → ∀ script log,
    lookupIn fs' script log md5 root r' rule = lookupIn s.world.fs script log md5 root r' rule

/-- A lookup misses where there is no header. -/
theorem lookupIn_of_no_header {fs : FileSystem} {md5 : CString → Digest} {root : CString}
    {r : RequestRec} {rule : CacherRule}
    (hno : ∀ e, cacheKeyPaths md5 r (some root) rule = some e → fs.read e.headerPath = none)
    (script : Script) (log : List (FileOp × Bool)) :
    (lookupIn fs script log md5 root r rule).2 = none := by
  have hends := (cacherCacheLookup_spec md5 r (some root) rule ⟨fs, script, log⟩).2
  unfold lookupIn
  generalize (run (cacherCacheLookup md5 r (some root) rule) ⟨fs, script, log⟩).1 = out at hends
  cases hends with
  | early _ => rfl
  | late _ _ => rfl
  | hit hfresh _ _ =>
      obtain ⟨text, htext, -⟩ := hfresh.reads
      rw [hno _ hfresh.paths_eq] at htext
      cases htext

/-- A lookup depends on the two files of its entry. -/
theorem lookupIn_congr {fs fs' : FileSystem} {md5 : CString → Digest} {root : CString}
    {r : RequestRec} {rule : CacherRule}
    (hkept : ∀ e, cacheKeyPaths md5 r (some root) rule = some e → EntryKept e fs fs')
    (script : Script) (log : List (FileOp × Bool)) :
    lookupIn fs' script log md5 root r rule = lookupIn fs script log md5 root r rule := by
  refine run_congr_of_fetches (S := fun q => fs'.read q = fs.read q) ?_ rfl rfl fun q hq => hq
  have hnot : ∀ {op : FileOp} {S : Path → Prop}, op.Fetches → (∀ q, op ≠ .openRead q) →
      op.Fetches ∧ ∀ q, op = .openRead q → S q :=
    fun hop hno => ⟨hop, fun q h => absurd h (hno q)⟩
  refine uses_cacherCacheLookup (fun e he => ?_) (hnot trivial (by simp))
    (fun _ => hnot trivial (by simp)) fun _ _ => hnot trivial (by simp)
  refine ⟨⟨trivial, fun q hq => ?_⟩, trivial, fun q hq => ?_⟩
  · cases hq
    exact (hkept e he).header
  · cases hq
    exact (hkept e he).body

/-- Whoever asks for an entry asks for the host that it was captured for. -/
theorem Asks.sameHost {s : CacheState} {md5 : CString → Digest} {root : CString} {r : RequestRec}
    {rule : CacherRule} (h : Asks s md5 root r rule) {e : EntryPaths} {b : Bytes} {c : Capture}
    (hpaths : cacheKeyPaths md5 r (some root) rule = some e) (hin : InPlace s root e b c)
    (hlines : c.request.LineFields) : SameHost r c.request := by
  have hkey := h.noCollision c hin.captured e hpaths hin.wrote.path_eq
  rw [buildCacheKeyString_eq, buildCacheKeyString_eq] at hkey
  obtain ⟨-, hrest⟩ := append_newline_inj h.lines.notMem_keyMethod hlines.notMem_keyMethod hkey
  obtain ⟨hhost, -⟩ := append_newline_inj h.lines.notMem_hostname hlines.notMem_hostname hrest
  rw [SameHost, hhost]
  exact eqCi_refl _

/-- Every header below the cache root names the host that its entry was captured for, as far as
a request for the host of `r` can tell. -/
def NamesRight (s : CacheState) (root : CString) (r : RequestRec) : Prop :=
  ∀ e b c, InPlace s root e b c →
    (root ∈ s.world.fs.dirs ∧ NamesHost b r.hostname ↔ SameHost c.request r)

/-- In every run from a cold cache, a full reset removes exactly the entries of its host if and
only if the headers name the hosts that the entries were captured for. -/
theorem resetExact_iff {s : CacheState} (hcold : s.Cold) (events : List Event) (root : CString)
    (r : RequestRec) {depth : Nat} (hdepth : 3 ≤ depth)
    (hlines : ∀ c ∈ (s.run events).captures, c.request.LineFields) {w : World}
    (hfs : w.fs = (s.run events).world.fs) (hscript : w.script.ReadsAndRemovesOk) :
    ResetExact (s.run events) root r (fullReset depth r root w).fs
      ↔ NamesRight (s.run events) root r := by
  have hshards := entriesInShards_run hcold events
  have hfrom := (hcold.inv.run events).cacheable.headers
  generalize s.run events = s' at hlines hfs hshards hfrom ⊢
  have hswept : ∀ e, Swept AdminCtx.reset r.hostname e s'.world.fs (fullReset depth r root w).fs := by
    intro e
    rw [← hfs]
    exact fullReset_swept hscript
  have hgone : ∀ e b c, InPlace s' root e b c → root ∈ s'.world.fs.dirs → NamesHost b r.hostname →
      EntryGone e (fullReset depth r root w).fs := by
    rintro e b c ⟨rfl, hread, -, -⟩ hroot hnames
    exact fullReset_gone hdepth hscript (by rw [hfs]; exact hroot)
      (by rw [hfs]; exact hshards e b hread) (by rw [hfs]; exact hread) hnames
  have hkept : ∀ e b c, InPlace s' root e b c → ¬ (root ∈ s'.world.fs.dirs ∧ NamesHost b r.hostname) →
      EntryKept e s'.world.fs (fullReset depth r root w).fs := by
    intro e b c hin hno
    cases hswept e with
    | kept h => exact h
    | deleted hread hselect hgone =>
        rw [hin.read_eq] at hread
        cases hread
        refine absurd ⟨?_, (selectsHeader_reset b r.hostname).mp hselect⟩ hno
        by_contra hroot
        have hsame : (fullReset depth r root w).fs = w.fs :=
          fullReset_of_no_root (by rw [hfs]; exact hroot)
        have hheader := hgone.header
        rw [hsame, hfs, hin.read_eq] at hheader
        cases hheader
  have hnot : ∀ e b c, InPlace s' root e b c → EntryGone e (fullReset depth r root w).fs →
      ¬ EntryKept e s'.world.fs (fullReset depth r root w).fs := by
    intro e b c hin hgone hkept
    have hheader := hkept.header
    rw [hgone.header, hin.read_eq] at hheader
    cases hheader
  constructor
  · intro h e b c hin
    constructor
    · rintro ⟨hroot, hnames⟩
      by_contra hother
      exact hnot e b c hin (hgone e b c hin hroot hnames) (h.keeps e b c hin hother)
    · intro hsame
      by_contra hno
      exact hnot e b c hin (h.removes e b c hin hsame) (hkept e b c hin hno)
  · intro h
    have hremoves : ∀ e b c, InPlace s' root e b c → SameHost c.request r →
        EntryGone e (fullReset depth r root w).fs := fun e b c hin hsame =>
      hgone e b c hin ((h e b c hin).mpr hsame).1 ((h e b c hin).mpr hsame).2
    have hkeeps : ∀ e b c, InPlace s' root e b c → ¬ SameHost c.request r →
        EntryKept e s'.world.fs (fullReset depth r root w).fs := fun e b c hin hother =>
      hkept e b c hin fun hyes => hother ((h e b c hin).mp hyes)
    -- Whoever finds a header asks for the host that it was captured for.
    have hplace : ∀ {md5 r' rule e b}, cacheKeyPaths md5 r' (some root) rule = some e →
        s'.world.fs.read e.headerPath = some b → ∃ c, InPlace s' root e b c := by
      intro md5 r' rule e b hpaths hread
      obtain ⟨c, hc, hwrote⟩ := hfrom e b hread
      refine ⟨c, ?_, hread, hc, hwrote⟩
      cases hpaths
      rfl
    refine ⟨hremoves, hkeeps, fun md5 r' rule hasks hsame => ?_, fun md5 r' rule hasks hother => ?_⟩
    · refine lookupIn_of_no_header fun e hpaths => ?_
      cases hswept e with
      | deleted _ _ hgone => exact hgone.header
      | kept hsame' =>
          rw [hsame'.header]
          by_contra hsome
          obtain ⟨b, hread⟩ := Option.ne_none_iff_exists'.mp hsome
          obtain ⟨c, hin⟩ := hplace hpaths hread
          have hhost := (hasks.sameHost hpaths hin (hlines c hin.captured)).symm.trans hsame
          exact hnot e b c hin (hremoves e b c hin hhost) hsame'
    · refine lookupIn_congr fun e hpaths => ?_
      cases hswept e with
      | kept h => exact h
      | deleted hread _ _ =>
          obtain ⟨c, hin⟩ := hplace hpaths hread
          have hhost := hasks.sameHost hpaths hin (hlines c hin.captured)
          exact hkeeps e _ c hin fun hc => hother (hhost.trans hc)

/-- A header whose url keeps to its line names the host that is written there. -/
theorem namesHost_headerFileText {info : CacherEntryMeta} (hm : IsWord info.method)
    (hh : IsWord info.host) (hstatus : info.status ≠ 0) (hne : info.url ≠ [])
    (hurl : chr '\n' ∉ info.url) (block : CString) (hostname : Option CString) :
    NamesHost (toBytes (headerFileText info block)) hostname
      ↔ eqCi info.host (hostname.getD []) = true := by
  have hread := (readMetaText_eq_iff hm hh hstatus block).mpr ⟨hne, hurl⟩
  rw [NamesHost, ofBytes_toBytes, hread]
  simp

/-! ### A site without a host -/

/-- A page of `r` is captured in one brigade. -/
def Event.pageOf (r : RequestRec) : List Event :=
  [.request (Env.ofRules [CacherRule.ofTtl 60]) r,
   .brigade 0 ⟨200, [], none, false⟩ [.data [104, 105] none, .eos]]

/-- A full reset without a `Host`. -/
def RequestRec.resetNoHost : RequestRec :=
  { RequestRec.admin (lit "/full-reset") with hostname := none }

theorem cold_cold : CacheState.cold.Cold := ⟨fun _ => rfl, fun _ => rfl, rfl⟩

theorem not_resetExact_noHost :
    ¬ ResetExact (CacheState.cold.run (Event.pageOf RequestRec.cacheable)) (lit "/c")
      RequestRec.resetNoHost (fullReset 3 RequestRec.resetNoHost (lit "/c")
        (CacheState.cold.run (Event.pageOf RequestRec.cacheable)).world).fs := by
  intro h
  -- The page is in the cache, before and after.
  obtain ⟨b, hread⟩ := Option.isSome_iff_exists.mp
    (show ((CacheState.cold.run (Event.pageOf RequestRec.cacheable)).world.fs.read
      pathsOfGetA.headerPath).isSome = true by decide +kernel)
  have hafter : ((fullReset 3 RequestRec.resetNoHost (lit "/c")
      (CacheState.cold.run (Event.pageOf RequestRec.cacheable)).world).fs.read
        pathsOfGetA.headerPath).isSome = true := by decide +kernel
  obtain ⟨c, hc, hwrote⟩ := (cold_cold.inv.run (Event.pageOf RequestRec.cacheable)).cacheable.headers
    _ b hread
  have hhost : ∀ c ∈ (CacheState.cold.run (Event.pageOf RequestRec.cacheable)).captures,
      c.request.hostname = none := by decide +kernel
  have hgone := h.removes pathsOfGetA b c ⟨rfl, hread, hc, hwrote⟩ (by
    rw [SameHost, hhost c hc]
    rfl)
  rw [hgone.header] at hafter
  cases hafter

/-- A page of the host `h` is removed by a reset of the host `h`. -/
theorem resetExact_pageOfHost :
    ResetExact (CacheState.cold.run (Event.pageOf RequestRec.page)) (lit "/c")
      (RequestRec.admin (lit "/full-reset")) (fullReset 3 (RequestRec.admin (lit "/full-reset"))
        (lit "/c") (CacheState.cold.run (Event.pageOf RequestRec.page)).world).fs := by
  have hrequests : (CacheState.cold.run (Event.pageOf RequestRec.page)).captures.map (·.request)
      = [RequestRec.page] := rfl
  have hrequest : ∀ c ∈ (CacheState.cold.run (Event.pageOf RequestRec.page)).captures,
      c.request = RequestRec.page := by
    intro c hc
    have hmem := List.mem_map_of_mem (f := (·.request)) hc
    rw [hrequests] at hmem
    exact List.mem_singleton.mp hmem
  refine (resetExact_iff cold_cold _ (lit "/c") _ (Nat.le_refl 3) (fun c hc => ?_) rfl
    fun _ _ _ => rfl).mpr fun e b c hin => ?_
  · rw [hrequest c hc]
    exact ⟨by decide, fun host h => by cases h; decide, fun _ h => by cases h⟩
  · refine iff_of_true ⟨by decide +kernel, ?_⟩ (by rw [SameHost, hrequest c hin.captured]; rfl)
    -- Its header is the only one.
    have hheaders : (CacheState.cold.run (Event.pageOf RequestRec.page)).world.fs.files
        = [(pathsOfGetA.headerPath, toBytes (headerFileText
            ⟨100, 160, 200, lit "GET", lit "h", lit "/a"⟩ [])), (pathsOfGetA.bodyPath, [104, 105])] := by
      decide +kernel
    have hmem := FileSystem.mem_files_of_read hin.read_eq
    rw [hheaders] at hmem
    simp only [List.mem_cons, Prod.mk.injEq, List.not_mem_nil, or_false] at hmem
    rcases hmem with ⟨-, rfl⟩ | ⟨hpath, -⟩
    · exact (namesHost_headerFileText isWord_get isWord_h (by decide) (by decide) (by decide) [] _).mpr (by decide)
    · exact absurd hpath (e.headerPath_ne_bodyPath pathsOfGetA)

end Cacher
