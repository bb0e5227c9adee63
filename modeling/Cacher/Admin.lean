import Cacher.HeaderFile

/-!
# `Cacher.Admin`: listing and purging over HTTP

`cacher_admin.c`. The walk over the cache tree visits every file whose name contains
`.header`, reads its metadata, and counts, prints or deletes the entries of the requesting
host whose url matches the pattern. The text sent to the client is collected in
`AdminCtx.output`.

The recursion of `walk_cache` follows the directories of the cache root. `depth` bounds how
many levels below it the model follows.

Whatever an admin request does, each of its file calls reads or removes
(`onlyRemoves_cacherAdminHandle`).
-/

set_option autoImplicit false

namespace Cacher

open CText Files

/-- What a handler returns to httpd. -/
inductive HandlerStatus where
  | declined
  | ok
  | badRequest
  | forbidden
  | notFound
  deriving DecidableEq

/-- The counters and switches of one admin request (`admin_ctx`). -/
structure AdminCtx where
  /-- `none` for list and full-reset. -/
  pattern : Option CString
  matched : Nat
  bytes : Nat
  deleteMatches : Bool
  printRows : Bool
  /-- What `ap_rprintf` has sent. -/
  output : CString

/-- What `memset` leaves in the context. -/
def AdminCtx.zero : AdminCtx := ⟨none, 0, 0, false, false, []⟩

/-- `%Ns`. -/
def padLeft (n : Nat) (s : CString) : CString := List.replicate (n - s.length) (chr ' ') ++ s

/-- `%-Ns`. -/
def padRight (n : Nat) (s : CString) : CString := s ++ List.replicate (n - s.length) (chr ' ')

/-- The body path that belongs to a header path: its last seven characters replaced. -/
def bodyPathOf (headerPath : Path) : Path :=
  headerPath.take (headerPath.length - (lit ".header").length) ++ lit ".body"

/-- `delete_entry`. -/
def deleteEntry (headerPath : Path) : FileProg Unit := do
  let _ ← remove (bodyPathOf headerPath)
  let _ ← remove headerPath
  pure ()

/-- `body_size`. -/
def bodySize (headerPath : Path) : FileProg Nat := do
  let size ← stat (bodyPathOf headerPath)
  pure (size.getD 0)

/-- One row of the listing. -/
def listRow (info : CacherEntryMeta) (size : Nat) (left : Int64) : CString :=
  padRight 6 info.method ++ lit " " ++ padLeft 3 (decimal info.status.toInt) ++ lit " "
    ++ padLeft 10 (decimal size) ++ lit "  "
    ++ padLeft 8 (if 0 < left then decimal left.toInt ++ lit "s" else lit "STALE") ++ lit "  "
    ++ info.host ++ info.url ++ lit "\n"

/-- The host and pattern checks of `visit_entry`. -/
def selectsEntry (ctx : AdminCtx) (hostname : Option CString) (info : CacherEntryMeta) : Bool :=
  cacherStreqCi info.host (hostname.getD [])
    && match ctx.pattern with
      | none => true
      | some pattern =>
        cacherGlobMatch pattern info.url false
          || cacherGlobMatch pattern (info.host ++ info.url) false

/-- `visit_entry`. -/
def visitEntry (r : RequestRec) (ctx : AdminCtx) (headerPath : Path) : FileProg AdminCtx := do
  match ← cacherCacheReadMeta headerPath with
  | none => pure ctx
  | some (info, _) =>
    if selectsEntry ctx r.hostname info then
      let size ← bodySize headerPath
      let ctx := { ctx with matched := ctx.matched + 1, bytes := ctx.bytes + size }
      let row ←
        if ctx.printRows then do
          -- The row takes the size a second time.
          let now ← timeNow
          let size ← bodySize headerPath
          pure (listRow info size (info.expires - now))
        else pure []
      if ctx.deleteMatches then deleteEntry headerPath
      pure { ctx with output := ctx.output ++ row }
    else pure ctx

/-- The name of a file that `walk_cache` visits: it contains `.header` and no `.XXXXXX`. -/
def isHeaderName (name : CString) : Bool :=
  (cutAt (lit ".header") name).isSome && (cutAt (lit ".XXXXXX") name).isNone

/-- `walk_cache`. -/
def walkCache (r : RequestRec) : Nat → AdminCtx → Path → FileProg AdminCtx
  | 0, ctx, _ => pure ctx
  | depth + 1, ctx, dir => do
    match ← dirRead dir with
    | none => pure ctx
    | some entries =>
      entries.foldlM (fun ctx entry =>
        -- Hidden names are skipped, `.` and `..` among them.
        if entry.1.head? = some (chr '.') then pure ctx
        else if entry.2 then walkCache r depth ctx (dir ++ chr '/' :: entry.1)
        else if isHeaderName entry.1 then visitEntry r ctx (dir ++ chr '/' :: entry.1)
        else pure ctx) ctx

/-- What an admin request answers. All answers are plain text. -/
structure AdminAnswer where
  status : HandlerStatus
  output : CString
  deriving DecidableEq

/-- `usage`. -/
def usage (base : CString) : AdminAnswer where
  status := .ok
  output := lit "Cacher admin\n\n"
    ++ lit "  GET " ++ base ++ lit "/list                 list every cached entry\n"
    ++ lit "  GET " ++ base ++ lit "/purge/<path-glob>    purge entries matching a glob\n"
    ++ lit "  GET " ++ base ++ lit "/full-reset           purge everything\n\n"
    ++ lit "Examples:\n"
    ++ lit "  " ++ base ++ lit "/purge/blog/*\n"
    ++ lit "  " ++ base ++ lit "/purge/about/\n"

/-- `%d entr%s`. -/
def entriesText (matched : Nat) : CString :=
  decimal matched ++ lit " entr" ++ if matched = 1 then lit "y" else lit "ies"

/-- `cacher_admin_handle`. The source returns the status and sends the text. -/
def cacherAdminHandle (depth : Nat) (r : RequestRec) (cacheRoot : Option CString)
    (action : CString) : FileProg AdminAnswer := do
  match cacheRoot with
  | none => pure ⟨.ok, lit "CacherCacheRoot is not configured - nothing to manage.\n"⟩
  | some root =>
    if action = [] ∨ action = lit "/" then pure (usage r.uri)
    else if action = lit "/list" then
      let header := padRight 6 (lit "METHOD") ++ lit " " ++ padLeft 3 (lit "ST") ++ lit " "
        ++ padLeft 10 (lit "SIZE") ++ lit "  " ++ padLeft 8 (lit "EXPIRES") ++ lit "  URL\n"
      let ctx ← walkCache r depth { AdminCtx.zero with printRows := true, output := header } root
      pure ⟨.ok, ctx.output ++ lit "\n" ++ entriesText ctx.matched ++ lit ", "
        ++ decimal ctx.bytes ++ lit " bytes\n"⟩
    else if action = lit "/full-reset" then
      let ctx ← walkCache r depth { AdminCtx.zero with deleteMatches := true } root
      pure ⟨.ok, lit "full-reset: removed " ++ entriesText ctx.matched ++ lit "\n"⟩
    else
      match stripPrefix (lit "/purge") action with
      | none => pure (usage r.uri)
      | some pattern =>
        if pattern = [] ∨ pattern = lit "/" then
          pure ⟨.badRequest, lit "purge: no pattern given, e.g. /purge/blog/*\n"⟩
        else
          let ctx ← walkCache r depth
            { AdminCtx.zero with pattern := some pattern, deleteMatches := true } root
          pure ⟨if ctx.matched = 0 then .notFound else .ok,
            lit "purge " ++ pattern ++ lit ": removed " ++ entriesText ctx.matched ++ lit "\n"⟩

theorem bodyPathOf_append (p : Path) : bodyPathOf (p ++ lit ".header") = p ++ lit ".body" := by
  have hlen : (p ++ lit ".header").length - (lit ".header").length = p.length := by simp
  rw [bodyPathOf, hlen, List.take_left]

theorem bodyPathOf_headerPath (e : EntryPaths) : bodyPathOf e.headerPath = e.bodyPath :=
  bodyPathOf_append e.stem

/-! ### The administration only reads and removes -/

/-- Every call of the program reads or removes a file. -/
abbrev OnlyRemoves {α : Type} (p : FileProg α) : Prop := Prog.Uses FileOp.OnlyRemoves p

/-- Visiting an entry reads its header, stats its body, and removes the two. -/
theorem uses_visitEntry {A : FileOp → Prop} {r : RequestRec} {ctx : AdminCtx} {headerPath : Path}
    (hmeta : Prog.Uses A (cacherCacheReadMeta headerPath)) (hnow : A .timeNow)
    (hstat : A (.stat (bodyPathOf headerPath))) (hbody : A (.remove (bodyPathOf headerPath)))
    (hheader : A (.remove headerPath)) : Prog.Uses A (visitEntry r ctx headerPath) := by
  have hsize : Prog.Uses A (bodySize headerPath) :=
    Prog.uses_bind (Prog.uses_perform hstat) fun _ => Prog.uses_pure _ _
  have hdelete : Prog.Uses A (deleteEntry headerPath) :=
    Prog.uses_bind (Prog.uses_perform hbody) fun _ =>
      Prog.uses_bind (Prog.uses_perform hheader) fun _ => Prog.uses_pure _ _
  refine Prog.uses_bind hmeta fun found => ?_
  cases found with
  | none => exact Prog.uses_pure _ _
  | some found =>
      show Prog.Uses A (if _ then _ else _)
      split
      · refine Prog.uses_bind hsize fun size => ?_
        -- What follows the row.
        have hend : ∀ ctx' : AdminCtx, Prog.Uses A (do
            if ctx.deleteMatches then deleteEntry headerPath
            pure ctx') := by
          intro ctx'
          show Prog.Uses A (if _ then _ else _)
          split
          · exact Prog.uses_bind hdelete fun _ => Prog.uses_pure _ _
          · exact Prog.uses_pure _ _
        show Prog.Uses A (if _ then _ else _)
        split
        · exact Prog.uses_bind (Prog.uses_perform hnow) fun now =>
            Prog.uses_bind hsize fun size => Prog.uses_bind (Prog.uses_pure _ _) fun row => hend _
        · exact Prog.uses_bind (Prog.uses_pure _ _) fun row => hend _
      · exact Prog.uses_pure _ _

theorem onlyRemoves_visitEntry (r : RequestRec) (ctx : AdminCtx) (headerPath : Path) :
    OnlyRemoves (visitEntry r ctx headerPath) :=
  uses_visitEntry (uses_cacherCacheReadMeta trivial (fun _ => trivial) fun _ _ => trivial) trivial
    trivial trivial trivial

theorem onlyRemoves_walkCache (r : RequestRec) (depth : Nat) (ctx : AdminCtx) (dir : Path) :
    OnlyRemoves (walkCache r depth ctx dir) := by
  induction depth generalizing ctx dir with
  | zero => exact Prog.uses_pure _ _
  | succ depth ih =>
      refine Prog.uses_bind (Prog.uses_perform trivial) fun entries => ?_
      cases entries with
      | none => exact Prog.uses_pure _ _
      | some entries =>
          refine Prog.uses_foldlM (fun ctx entry => ?_) entries ctx
          split
          · exact Prog.uses_pure _ _
          split
          · exact ih ctx _
          split
          · exact onlyRemoves_visitEntry r ctx _
          · exact Prog.uses_pure _ _

/-- An admin request answers at once, or walks the cache root first. -/
theorem cacherAdminHandle_walks (depth : Nat) (r : RequestRec) (cacheRoot : Option CString)
    (action : CString) :
    (∃ answer, cacherAdminHandle depth r cacheRoot action = pure answer)
      ∨ ∃ root ctx, ∃ answer : AdminCtx → AdminAnswer, cacherAdminHandle depth r cacheRoot action
        = walkCache r depth ctx root >>= fun ctx => pure (answer ctx) := by
  cases cacheRoot with
  | none => exact Or.inl ⟨_, rfl⟩
  | some root =>
      unfold cacherAdminHandle
      dsimp only
      split
      · exact Or.inl ⟨_, rfl⟩
      split
      · exact Or.inr ⟨root, _, _, rfl⟩
      split
      · exact Or.inr ⟨root, _, _, rfl⟩
      cases stripPrefix (lit "/purge") action with
      | none => exact Or.inl ⟨_, rfl⟩
      | some pattern =>
          dsimp only
          split
          · exact Or.inl ⟨_, rfl⟩
          · exact Or.inr ⟨root, _, _, rfl⟩

theorem onlyRemoves_cacherAdminHandle (depth : Nat) (r : RequestRec) (cacheRoot : Option CString)
    (action : CString) : OnlyRemoves (cacherAdminHandle depth r cacheRoot action) := by
  rcases cacherAdminHandle_walks depth r cacheRoot action with ⟨_, h⟩ | ⟨root, ctx, _, h⟩
  · rw [h]
    exact Prog.uses_pure _ _
  · rw [h]
    exact Prog.uses_bind (onlyRemoves_walkCache r depth ctx root) fun _ => Prog.uses_pure _ _

end Cacher
