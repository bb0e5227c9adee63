import Cacher.Traffic

/-!
# `Cacher.Walk`: what the administration touches while entries are published

The walk of an administration request goes by file names: it visits a name that contains
`.header` and not `.XXXXXX`. The second test is meant for the temporary names, but a file
never has the name that `apr_file_mktemp` gets as its template. What replaces the six `X`
makes a temporary header pass both tests (`isHeaderName_tmpHeaderPath`), so a walk that reads
a directory between the two steps of a publish visits the temporary header and may delete it.

`leavesUnpublished_of_quiet` is what remains: where no such file is in a directory when a walk
reads it, the administration touches only entries under their final names.
-/

set_option autoImplicit false

namespace Cacher

open CText Files

/-! ### Which names pass for a header -/

/-- 32 lower case hexadecimal digits. -/
structure IsHex32 (s : CString) : Prop where
  length_eq : s.length = 32
  digits : ∀ c ∈ s, c ∈ lit "0123456789abcdef"

theorem isHex32_hexEncodeMd5 (digest : Digest) : IsHex32 (hexEncodeMd5 digest) :=
  ⟨EntryPaths.length_hexEncodeMd5 digest, fun _ => EntryPaths.mem_hexEncodeMd5⟩

/-- The file has the name of the header of some entry. -/
def IsEntryHeader (p : Path) : Prop :=
  ∃ hex, IsHex32 hex ∧ FileSystem.basename p = hex ++ lit ".header"

/-- The file has the name of the body of some entry. -/
def IsEntryBody (p : Path) : Prop :=
  ∃ hex, IsHex32 hex ∧ FileSystem.basename p = hex ++ lit ".body"

theorem dot_notMem_hexEncodeMd5 (digest : Digest) : chr '.' ∉ hexEncodeMd5 digest :=
  fun h => absurd (EntryPaths.mem_hexEncodeMd5 h) (by decide)

theorem dot_notMem_suffix (suffix : TempSuffix) : chr '.' ∉ suffix.chars := by
  intro h
  have hno : isAlnum (chr '.') = false := by decide
  rw [suffix.alnum _ h] at hno
  cases hno

theorem isHeaderName_iff (name : CString) :
    isHeaderName name = true ↔ lit ".header" <:+: name ∧ ¬ lit ".XXXXXX" <:+: name := by
  rw [isHeaderName, Bool.and_eq_true, isSome_cutAt, Option.isNone_iff_eq_none,
    ← Option.not_isSome_iff_eq_none, isSome_cutAt]

/-- A pattern that starts with a dot occurs in the name of a file where it occurs behind the
digest. -/
theorem dot_infix_name (digest : Digest) (p ext : CString) :
    (chr '.' :: p) <:+: hexEncodeMd5 digest ++ ext ↔ (chr '.' :: p) <:+: ext :=
  infix_append_of_notMem (dot_notMem_hexEncodeMd5 digest) p ext

/-- A header passes for one. -/
theorem isHeaderName_headerPath (e : EntryPaths) :
    isHeaderName (FileSystem.basename e.headerPath) = true := by
  rw [isHeaderName_iff, e.basename_headerPath]
  refine ⟨(List.suffix_append _ _).isInfix, fun h => ?_⟩
  exact absurd ((dot_infix_name _ _ _).mp h) (by decide)

/-- A body does not pass for a header. -/
theorem isHeaderName_bodyPath (e : EntryPaths) :
    isHeaderName (FileSystem.basename e.bodyPath) = false := by
  rw [← Bool.not_eq_true, isHeaderName_iff, e.basename_bodyPath]
  intro h
  exact absurd ((dot_infix_name _ _ _).mp h.1) (by decide)

/-- A six-letter pattern behind a dot occurs in a temporary name in front of its suffix or as
its suffix. -/
theorem dot_infix_tmpName {p : CString} (word : CString) (hword : chr '.' ∉ word) (hlen : p.length = 6)
    (suffix : TempSuffix) :
    (chr '.' :: p) <:+: (chr '.' :: word) ++ chr '.' :: suffix.chars
      ↔ p <+: word ++ chr '.' :: suffix.chars ∨ p = suffix.chars := by
  rw [List.cons_append, List.infix_cons_iff, List.cons_prefix_cons, infix_append_of_notMem hword,
    infix_cons_iff_eq (dot_notMem_suffix suffix) (hlen.trans suffix.length_eq.symm)]
  simp

/-- A temporary header passes for a header, whatever has replaced its six `X`. -/
theorem isHeaderName_tmpHeaderPath (e : EntryPaths) (suffix : TempSuffix) :
    isHeaderName (FileSystem.basename (e.tmpHeaderPath suffix)) = true
      ↔ suffix.chars ≠ lit "XXXXXX" := by
  have hheader : lit ".header" <:+: lit ".header" ++ chr '.' :: suffix.chars :=
    (List.prefix_append _ _).isInfix
  have htemplate : lit ".XXXXXX" <:+: lit ".header" ++ chr '.' :: suffix.chars
      ↔ lit "XXXXXX" = suffix.chars := by
    refine (dot_infix_tmpName (lit "header") (by decide) rfl suffix).trans
      (or_iff_right fun h => ?_)
    exact absurd (List.cons_prefix_cons.mp h).1 (by decide)
  have hname : ∀ p, (chr '.' :: p) <:+: FileSystem.basename (e.tmpHeaderPath suffix)
      ↔ (chr '.' :: p) <:+: lit ".header" ++ chr '.' :: suffix.chars := by
    intro p
    rw [e.basename_tmpHeaderPath]
    exact dot_infix_name _ _ _
  rw [isHeaderName_iff]
  show (chr '.' :: lit "header") <:+: _ ∧ ¬ (chr '.' :: lit "XXXXXX") <:+: _ ↔ _
  rw [hname, hname]
  show lit ".header" <:+: _ ∧ ¬ lit ".XXXXXX" <:+: _ ↔ _
  rw [htemplate]
  exact ⟨fun h heq => h.2 heq.symm, fun h => ⟨hheader, fun heq => h heq.symm⟩⟩

/-- So does the temporary body that is called `header`. -/
theorem isHeaderName_tmpBodyPath (e : EntryPaths) (suffix : TempSuffix) :
    isHeaderName (FileSystem.basename (e.tmpBodyPath suffix)) = true
      ↔ suffix.chars = lit "header" := by
  have hno : ∀ p, p.length = 6 → ¬ p <+: lit "body" ++ chr '.' :: suffix.chars →
      ((chr '.' :: p) <:+: FileSystem.basename (e.tmpBodyPath suffix) ↔ p = suffix.chars) := by
    intro p hlen hp
    rw [e.basename_tmpBodyPath]
    exact (dot_infix_name _ _ _).trans
      ((dot_infix_tmpName (lit "body") (by decide) hlen suffix).trans (or_iff_right hp))
  rw [isHeaderName_iff]
  show (chr '.' :: lit "header") <:+: _ ∧ ¬ (chr '.' :: lit "XXXXXX") <:+: _ ↔ _
  rw [hno (lit "header") rfl (fun h => absurd (List.cons_prefix_cons.mp h).1 (by decide)),
    hno (lit "XXXXXX") rfl (fun h => absurd (List.cons_prefix_cons.mp h).1 (by decide))]
  constructor
  · intro h
    exact h.1.symm
  · intro h
    rw [h]
    exact ⟨rfl, by decide⟩

/-! ### Only files with the names of the cache -/

/-- Every file has one of the names that the module gives. -/
def CacheFiles (fs : FileSystem) : Prop := ∀ q b, fs.read q = some b → CacheName q

/-- A file that appears has a name of the cache. -/
theorem CacheFiles.answer {w : World} (h : CacheFiles w.fs) {op : FileOp} (hop : KeepsNames op) :
    CacheFiles (w.answer op).2.fs := by
  intro q b hread
  by_cases htouches : op.Touches q
  · cases hop.touchesName htouches with
    | tmpHeader e suffix hname => exact hname ▸ .tmpHeader e suffix
    | tmpBody e suffix hname => exact hname ▸ .tmpBody e suffix
    | header e suffix hname => exact hname ▸ .header e
    | body e suffix hname => exact hname ▸ .body e
    | remove =>
        -- What a removal leaves was there.
        rcases w.answer_read_of_remove q with hsame | hgone
        · rw [hsame] at hread
          exact h q b hread
        · rw [hgone] at hread
          cases hread
  · rw [w.read_answer_of_not_touches htouches] at hread
    exact h q b hread

/-! ### What a walk touches -/

/-- The calls that read or delete entries under their final names. -/
def TouchesEntries : FileOp → Prop
  | .openRead p => IsEntryHeader p
  | .stat p => IsEntryBody p
  | .remove p => IsEntryHeader p ∨ IsEntryBody p
  | .timeNow | .infoSize _ | .readFull _ _ | .dirRead _ => True
  | .mktemp _ | .writeFull _ _ | .rename _ _ | .dirMakeRecursive _ => False

/-- Whatever a listing names like a header is the header of an entry. -/
def ListsEntries (op : FileOp) (x : Ans op) : Prop :=
  ∀ dir entries, (⟨op, x⟩ : Σ op, Ans op) = ⟨.dirRead dir, some entries⟩ →
    ∀ name, (name, false) ∈ entries → isHeaderName name = true →
      ∃ hex, IsHex32 hex ∧ name = hex ++ lit ".header"

/-- The program touches only entries, as long as it is shown only entries. -/
abbrev KeepsToEntries {α : Type} (p : FileProg α) : Prop :=
  Prog.Always (fun _ : Unit => TouchesEntries) (fun _ op x _ => ListsEntries op x) p () fun _ _ => True

/-- The header and the body of an entry in a directory. -/
theorem isEntry_of_hex (dir : Path) {hex : CString} (h : IsHex32 hex) :
    IsEntryHeader (dir ++ chr '/' :: (hex ++ lit ".header"))
      ∧ IsEntryBody (bodyPathOf (dir ++ chr '/' :: (hex ++ lit ".header"))) := by
  have hslash : ∀ ext : CString, chr '/' ∉ ext → chr '/' ∉ hex ++ ext := by
    intro ext hext hmem
    rcases List.mem_append.mp hmem with hmem | hmem
    · exact absurd (h.digits _ hmem) (by decide)
    · exact hext hmem
  have hbody : bodyPathOf (dir ++ chr '/' :: (hex ++ lit ".header"))
      = dir ++ chr '/' :: (hex ++ lit ".body") := by
    have h := bodyPathOf_append (dir ++ chr '/' :: hex)
    rwa [List.append_assoc, List.append_assoc] at h
  constructor
  · exact ⟨hex, h, FileSystem.basename_append dir (hslash _ (by decide))⟩
  · rw [hbody]
    exact ⟨hex, h, FileSystem.basename_append dir (hslash _ (by decide))⟩

theorem keepsToEntries_walkCache (r : RequestRec) (depth : Nat) (ctx : AdminCtx) (dir : Path) :
    KeepsToEntries (walkCache r depth ctx dir) := by
  induction depth generalizing ctx dir with
  | zero => trivial
  | succ depth ih =>
      refine Prog.always_bind.mpr ⟨trivial, fun entries _ hlists => ?_⟩
      cases entries with
      | none => trivial
      | some entries =>
          refine Prog.always_foldlM (I := fun _ _ _ => True) trivial fun _ entry ctx _ _ hmem => ?_
          split
          · trivial
          split
          · exact ih ctx _
          split
          · rename_i hfile hname
            obtain ⟨name, isDir⟩ := entry
            obtain rfl : isDir = false := by simpa using hfile
            obtain ⟨hex, hhex, rfl⟩ := hlists dir entries rfl name hmem hname
            obtain ⟨hheader, hbody⟩ := isEntry_of_hex dir hhex
            exact (uses_visitEntry
              (uses_cacherCacheReadMeta hheader (fun _ => trivial) fun _ _ => trivial)
              trivial hbody (Or.inr hbody) (Or.inl hheader)).always ()
          · trivial

theorem keepsToEntries_prog {client : Client} (h : client.Administers) :
    KeepsToEntries client.prog := by
  cases client with
  | tool py depth args => exact h.elim
  | http env r calls =>
      obtain ⟨hsub, dconf, action, hadmin⟩ := h
      rcases prog_of_administers env calls hsub hadmin with ⟨_, h⟩ | ⟨_, h⟩
      · rw [h]
        trivial
      rw [h]
      rcases cacherAdminHandle_walks env.walkDepth r r.cacheRoot action with ⟨_, h⟩ | ⟨root, ctx, _, h⟩
      · rw [h]
        trivial
      · rw [h, bind_assoc]
        exact Prog.always_bind.mpr ((keepsToEntries_walkCache r _ ctx root).mono fun _ _ _ => trivial)

/-! ### Interleaved with captures -/

/-- No temporary file that passes for a header is in the directory. -/
structure Quiet (fs : FileSystem) (dir : Path) : Prop where
  tmpHeader : ∀ (e : EntryPaths) (suffix : TempSuffix), e.shard = dir →
    suffix.chars ≠ lit "XXXXXX" → fs.read (e.tmpHeaderPath suffix) = none
  tmpBody : ∀ (e : EntryPaths) (suffix : TempSuffix), e.shard = dir →
    suffix.chars = lit "header" → fs.read (e.tmpBodyPath suffix) = none

/-- Client `i` is an admin request. -/
def Administering (clients : List Client) (i : Nat) : Prop :=
  ∃ client, clients[i]? = some client ∧ client.Administers

/-- A walk reads a directory only while it is quiet. -/
def ReadsQuiet (clients : List Client) (c : Serving) (i : Nat) : Prop :=
  Administering clients i → ∀ dir, c.nextOp i = some (.dirRead dir) → Quiet c.shared.fs dir

/-- Client `i` does not touch anything that is not published. -/
structure LeavesUnpublished (c : Serving) (i : Nat) : Prop where
  /-- A visit opens the header first. -/
  visits : ∀ p, c.nextOp i = some (.openRead p) → IsEntryHeader p
  counts : ∀ p, c.nextOp i = some (.stat p) → IsEntryBody p
  deletes : ∀ p, c.nextOp i = some (.remove p) → IsEntryHeader p ∨ IsEntryBody p
  /-- No capture that is about to publish loses a file. -/
  keeps : ∀ (e : EntryPaths) (suffix : TempSuffix),
    (c.after [i]).shared.fs.read (e.tmpHeaderPath suffix) = c.shared.fs.read (e.tmpHeaderPath suffix)
    ∧ (c.after [i]).shared.fs.read (e.tmpBodyPath suffix) = c.shared.fs.read (e.tmpBodyPath suffix)

/-- A temporary file has a longer name than any file of an entry. -/
theorem keeps_of_touchesEntries {w : World} {op : FileOp} (h : TouchesEntries op) (e : EntryPaths)
    (suffix : TempSuffix) :
    (w.answer op).2.fs.read (e.tmpHeaderPath suffix) = w.fs.read (e.tmpHeaderPath suffix)
    ∧ (w.answer op).2.fs.read (e.tmpBodyPath suffix) = w.fs.read (e.tmpBodyPath suffix) := by
  cases op with
  | timeNow | openRead _ | infoSize _ | readFull _ _ | stat _ | dirRead _ => exact ⟨rfl, rfl⟩
  | mktemp _ | writeFull _ _ | rename _ _ | dirMakeRecursive _ => exact h.elim
  | remove p =>
      -- The names of a file that is removed have 39 or 37 characters.
      have hlen : (FileSystem.basename p).length = 39 ∨ (FileSystem.basename p).length = 37 := by
        rcases h with ⟨hex, hhex, hname⟩ | ⟨hex, hhex, hname⟩
        · exact Or.inl (by rw [hname, List.length_append, hhex.length_eq]; rfl)
        · exact Or.inr (by rw [hname, List.length_append, hhex.length_eq]; rfl)
      have hheader : (FileSystem.basename (e.tmpHeaderPath suffix)).length = 46 := by
        rw [e.basename_tmpHeaderPath, List.length_append, EntryPaths.length_hexEncodeMd5,
          List.length_append, List.length_cons, suffix.length_eq]
        rfl
      have hbody : (FileSystem.basename (e.tmpBodyPath suffix)).length = 44 := by
        rw [e.basename_tmpBodyPath, List.length_append, EntryPaths.length_hexEncodeMd5,
          List.length_append, List.length_cons, suffix.length_eq]
        rfl
      refine ⟨World.read_answer_remove ?_, World.read_answer_remove ?_⟩
      · rintro rfl
        omega
      · rintro rfl
        omega

/-- A quiet directory shows nothing but entries. -/
theorem listsEntries_of_quiet {w : World} (hfiles : CacheFiles w.fs) {op : FileOp}
    (hquiet : ∀ dir, op = .dirRead dir → Quiet w.fs dir) : ListsEntries op (w.answer op).1 := by
  intro dir entries h name hmem hname
  obtain ⟨rfl, hentries⟩ := Sigma.mk.inj_iff.mp h
  have hquiet := hquiet dir rfl
  have hlisted := World.eq_of_query (eq_of_heq hentries)
  split at hlisted
  · cases hlisted
    obtain ⟨q, b, hread, hdir, rfl⟩ := FileSystem.mem_entries_file.mp hmem
    -- Of the four kinds of files, only a header is left.
    cases hfiles q b hread with
    | header e => exact ⟨_, isHex32_hexEncodeMd5 e.digest, e.basename_headerPath⟩
    | body e =>
        rw [isHeaderName_bodyPath] at hname
        cases hname
    | tmpHeader e suffix =>
        rw [e.dirname_tmpHeaderPath] at hdir
        rw [hquiet.tmpHeader e suffix hdir ((isHeaderName_tmpHeaderPath e suffix).mp hname)] at hread
        cases hread
    | tmpBody e suffix =>
        rw [e.dirname_tmpBodyPath] at hdir
        rw [hquiet.tmpBody e suffix hdir ((isHeaderName_tmpBodyPath e suffix).mp hname)] at hread
        cases hread
  · cases hlisted

/-- What holds in every state of a run whose walks read quiet directories. -/
structure WalkInv (clients : List Client) (c : Serving) : Prop where
  files : CacheFiles c.shared.fs
  names : ∀ (i : Nat) p, c.threads[i]? = some p → Prog.Uses KeepsNames p
  admin : ∀ (i : Nat) p, Administering clients i → c.threads[i]? = some p → KeepsToEntries p

section Run

variable {clients : List Client} {c : Serving} {i : Nat}

theorem WalkInv.step (h : WalkInv clients c) (hquiet : ReadsQuiet clients c i) :
    WalkInv clients (Prog.Pool.stepAt World.answer c i) := by
  cases hi : c.threads[i]? with
  | none =>
      rw [Prog.Pool.stepAt_none hi]
      exact h
  | some p =>
      cases p with
      | done ended =>
          rw [Prog.Pool.stepAt_done hi]
          exact h
      | call op next =>
          rw [Prog.Pool.stepAt_call hi]
          have hself := (List.getElem?_eq_some_iff.mp hi).1
          have hop := h.names i _ hi
          refine ⟨h.files.answer hop.1, fun k p hk => ?_, fun k p hadmin hk => ?_⟩
          · by_cases hki : k = i
            · subst hki
              rw [List.getElem?_set_self hself] at hk
              cases hk
              exact hop.2 _
            · rw [List.getElem?_set_ne (Ne.symm hki)] at hk
              exact h.names k p hk
          · by_cases hki : k = i
            · subst hki
              rw [List.getElem?_set_self hself] at hk
              cases hk
              -- What the walk has just been shown are entries.
              refine (h.admin k _ hadmin hi).2 _ () (listsEntries_of_quiet h.files fun dir hdir => ?_)
              refine hquiet hadmin dir ?_
              rw [Serving.nextOp, hi, ← hdir]
              rfl
            · rw [List.getElem?_set_ne (Ne.symm hki)] at hk
              exact h.admin k p hadmin hk

/-- An admin request whose next call touches an entry leaves the temporary files alone. -/
theorem leavesUnpublished_of_inv (h : WalkInv clients c) (hadmin : Administering clients i) :
    LeavesUnpublished c i := by
  -- Nothing but its next call counts.
  cases hi : c.threads[i]? with
  | none =>
      have hno : c.nextOp i = none := by rw [Serving.nextOp, hi]; rfl
      have hsame : c.after [i] = c := Prog.Pool.stepAt_none hi
      refine ⟨?_, ?_, ?_, fun e suffix => by rw [hsame]; exact ⟨rfl, rfl⟩⟩
      all_goals
        intro p hp
        rw [hno] at hp
        cases hp
  | some p =>
      cases p with
      | done ended =>
          have hno : c.nextOp i = none := by rw [Serving.nextOp, hi]; rfl
          have hsame : c.after [i] = c := Prog.Pool.stepAt_done hi
          refine ⟨?_, ?_, ?_, fun e suffix => by rw [hsame]; exact ⟨rfl, rfl⟩⟩
          all_goals
            intro p hp
            rw [hno] at hp
            cases hp
      | call op next =>
          have hop : TouchesEntries op := (h.admin i _ hadmin hi).1
          have hnext : c.nextOp i = some op := by rw [Serving.nextOp, hi]; rfl
          have hafter : (c.after [i]).shared = (c.shared.answer op).2 := by
            show (Prog.Pool.stepAt World.answer c i).shared = _
            rw [Prog.Pool.stepAt_call hi]
          refine ⟨fun p hp => ?_, fun p hp => ?_, fun p hp => ?_, fun e suffix => ?_⟩
          · rw [hnext] at hp
            cases hp
            exact hop
          · rw [hnext] at hp
            cases hp
            exact hop
          · rw [hnext] at hp
            cases hp
            exact hop
          · rw [hafter]
            exact keeps_of_touchesEntries hop e suffix

/-- The start of a run, with nothing but files of the cache. -/
theorem walkInv_start {w : World} (hfiles : CacheFiles w.fs) :
    WalkInv clients (Serving.start clients w) := by
  refine ⟨hfiles, fun k p hk => ?_, fun k p hadmin hk => ?_⟩
  · obtain ⟨client, -, rfl⟩ := Option.map_eq_some_iff.mp (List.getElem?_map.symm.trans hk)
    exact keepsNames_prog client
  · obtain ⟨client, hclient, rfl⟩ := Option.map_eq_some_iff.mp (List.getElem?_map.symm.trans hk)
    obtain ⟨client', hclient', hadmin⟩ := hadmin
    rw [hclient] at hclient'
    cases hclient'
    exact keepsToEntries_prog hadmin

end Run

/-- In every step of the run, the administration leaves alone what is not published. -/
def AdminLeavesUnpublished (clients : List Client) (w : World) (schedule : List Nat) : Prop :=
  Prog.Pool.Guarded World.answer (fun c i => Administering clients i → LeavesUnpublished c i)
    (Serving.start clients w) schedule

/-- In every run over the files of a cache in which no walk reads a directory that holds a
temporary file with a header's name, the administration touches only entries under their final
names, and no capture loses a file to it. -/
theorem adminLeavesUnpublished_of_quiet (clients : List Client) (w : World) (schedule : List Nat)
    (hfiles : CacheFiles w.fs)
    (hquiet : Prog.Pool.Guarded World.answer (ReadsQuiet clients) (Serving.start clients w)
      schedule) : AdminLeavesUnpublished clients w schedule :=
  Prog.Pool.guarded_of_inv (I := WalkInv clients) (fun _ _ hG hI => hI.step hG)
    (fun _ i _ hI (hadmin : Administering clients i) => leavesUnpublished_of_inv hI hadmin) hquiet
    (walkInv_start hfiles)

/-! ### A reset in the middle of a publish -/

/-- `GET /a` on the host `h`, in a directory with caching on. -/
def RequestRec.page : RequestRec := { RequestRec.cacheable with hostname := some (lit "h") }

/-- A request for the administration of the same host. -/
def RequestRec.admin (action : CString) : RequestRec :=
  { RequestRec.page with
    uri := lit "/cacher" ++ action
    dirConf := some { CacherDirConf.sample with
      adminPath := some (lit "/cacher")
      adminRequireUser := some false } }

/-- A page that is generated and stored, and a full reset. -/
def Client.pageAndReset : List Client :=
  [.http (Env.ofRules [CacherRule.ofTtl 60]) RequestRec.page
    [(⟨200, [], none, false⟩, [.data [104, 105] none, .eos])],
   .http (Env.ofRules []) (RequestRec.admin (lit "/full-reset")) []]

/-- The reset runs between the write of the temporary header and the two renames. -/
def Schedule.resetMidPublish : List Nat :=
  List.replicate 8 0 ++ List.replicate 9 1 ++ List.replicate 5 0

/-- The page is stored before the reset begins. -/
def Schedule.resetAfterPublish : List Nat := List.replicate 10 0 ++ List.replicate 9 1

theorem not_adminLeavesUnpublished_midPublish :
    ¬ AdminLeavesUnpublished Client.pageAndReset World.cold Schedule.resetMidPublish := by
  intro h
  -- Its fourth call opens the temporary header.
  have hstep := Prog.Pool.guarded_iff.mp h 11 1 (by decide) ⟨_, rfl, rfl, _, _, rfl, rfl⟩
  obtain ⟨hex, hhex, hname⟩ := hstep.visits (pathsOfGetA.tmpHeaderPath default) (by decide +kernel)
  have hlen := congrArg List.length hname
  rw [EntryPaths.basename_tmpHeaderPath, List.length_append, EntryPaths.length_hexEncodeMd5,
    List.length_append, List.length_append, hhex.length_eq] at hlen
  revert hlen
  decide

/-- The page is not stored: its header could not be put in place. -/
example : ((Serving.start Client.pageAndReset World.cold).after
    Schedule.resetMidPublish).shared.fs.files = [] := by decide +kernel

/-- Nothing but entries is quiet. -/
theorem quiet_of_published {fs : FileSystem}
    (h : ∀ q b, fs.read q = some b → ∃ e : EntryPaths, q = e.headerPath ∨ q = e.bodyPath)
    (dir : Path) : Quiet fs dir := by
  have hnone : ∀ q, (∀ e : EntryPaths, q ≠ e.headerPath) → (∀ e : EntryPaths, q ≠ e.bodyPath) →
      fs.read q = none := by
    intro q hheader hbody
    by_contra hno
    obtain ⟨b, hb⟩ := Option.ne_none_iff_exists'.mp hno
    obtain ⟨e, hq | hq⟩ := h q b hb
    · exact hheader e hq
    · exact hbody e hq
  constructor
  · intro e suffix _ _
    exact hnone _ (fun e' => e.tmpHeaderPath_ne_headerPath e' suffix)
      fun e' => e.tmpHeaderPath_ne_bodyPath e' suffix
  · intro e suffix _ _
    exact hnone _ (fun e' => e.tmpBodyPath_ne_headerPath e' suffix)
      fun e' => e.tmpBodyPath_ne_bodyPath e' suffix

/-- While everything that is left of the clients only reads and removes, it stays quiet. -/
theorem guarded_readsQuiet (clients : List Client) {c : Serving}
    (hquiet : ∀ dir, Quiet c.shared.fs dir) (schedule : List Nat)
    (honly : ∀ (i : Nat) p, i ∈ schedule → c.threads[i]? = some p → OnlyRemoves p) :
    Prog.Pool.Guarded World.answer (ReadsQuiet clients) c schedule := by
  induction schedule generalizing c with
  | nil => trivial
  | cons i schedule ih =>
      refine ⟨fun _ dir _ => hquiet dir, ?_⟩
      cases hi : c.threads[i]? with
      | none =>
          rw [Prog.Pool.stepAt_none hi]
          exact ih hquiet fun k p hk => honly k p (List.mem_cons_of_mem _ hk)
      | some p =>
          cases p with
          | done ended =>
              rw [Prog.Pool.stepAt_done hi]
              exact ih hquiet fun k p hk => honly k p (List.mem_cons_of_mem _ hk)
          | call op next =>
              rw [Prog.Pool.stepAt_call hi]
              have huses := honly i _ List.mem_cons_self hi
              have hgone : ∀ q, c.shared.fs.read q = none → (c.shared.answer op).2.fs.read q = none := by
                intro q hq
                rcases c.shared.answer_read_of_onlyRemoves huses.1 q with h | h
                · rw [h, hq]
                · exact h
              refine ih (fun dir => ⟨fun e suffix hdir hs => hgone _ ((hquiet dir).tmpHeader e suffix hdir hs),
                fun e suffix hdir hs => hgone _ ((hquiet dir).tmpBody e suffix hdir hs)⟩)
                fun k p hk hp => ?_
              by_cases hki : k = i
              · subst hki
                rw [List.getElem?_set_self (List.getElem?_eq_some_iff.mp hi).1] at hp
                cases hp
                exact huses.2 _
              · rw [List.getElem?_set_ne (Ne.symm hki)] at hp
                exact honly k p (List.mem_cons_of_mem _ hk) hp

theorem adminLeavesUnpublished_afterPublish :
    AdminLeavesUnpublished Client.pageAndReset World.cold Schedule.resetAfterPublish := by
  refine adminLeavesUnpublished_of_quiet _ _ _ (fun q b h => by cases h)
    (Prog.Pool.guarded_append.mpr ⟨?_, ?_⟩)
  · -- The page is no admin request.
    refine Prog.Pool.guarded_iff.mpr fun k i hk hadmin => ?_
    obtain rfl : i = 0 := List.eq_of_mem_replicate (List.mem_of_getElem? hk)
    obtain ⟨client, hclient, hadmin⟩ := hadmin
    cases hclient
    obtain ⟨-, dconf, action, hconf, haction⟩ := hadmin
    cases hconf
    cases haction
  · -- Only the header and the body are there when the reset begins.
    have hfiles : ((Serving.start Client.pageAndReset World.cold).after
        (List.replicate 10 0)).shared.fs.files.map (·.1)
        = [pathsOfGetA.headerPath, pathsOfGetA.bodyPath] := by decide +kernel
    refine guarded_readsQuiet _ (quiet_of_published fun q b h => ?_) _ fun i p hi hp => ?_
    · have hmem := List.mem_map_of_mem (f := (·.1)) (FileSystem.mem_files_of_read h)
      rw [hfiles] at hmem
      simp only [List.mem_cons, List.not_mem_nil, or_false] at hmem
      exact ⟨pathsOfGetA, hmem⟩
    · obtain rfl : i = 1 := List.eq_of_mem_replicate hi
      rw [Prog.Pool.run_of_notMem (by decide)] at hp
      cases hp
      exact onlyRemoves_prog (Or.inl ⟨rfl, _, _, rfl, rfl⟩)

end Cacher
