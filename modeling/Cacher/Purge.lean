import Cacher.Reset

/-!
# `Cacher.Purge`: what a purge invalidates

A purge sees the entries that are in place while it walks. A capture whose miss was decided
before the purge began may still be waiting for its page, and puts it in place when the page is
complete, whatever has been purged in between. `not_purgeInvalidates_inFlight` is such a run.

`purgeInvalidates_of_noLatePublish` is what remains: in every interleaving in which no such
capture puts a file of the entry in place once the purge has begun, whoever asks after the end of
the purge is served files that were put in place later, by requests whose miss was not yet
decided when it began.

`Traced` records for each file which client has put it in place. What the purge achieves is
`Displaced`: the header of the entry has been removed or replaced.
-/

set_option autoImplicit false

namespace Cacher

open CText Files

/-! ### The header is removed or replaced -/

/-- The call has removed the file `q` or put another one in its place. -/
def Displaces (q : Path) : FileOp × Bool → Prop
  | (.remove p, ok) => p = q ∧ ok = true
  | (.rename _ dst, ok) => dst = q ∧ ok = true
  | _ => False

/-- Behind the first `n` calls, the file `q` has been removed or replaced. -/
def Displaced (q : Path) (n : Nat) (w : World) : Prop := ∃ entry ∈ w.log.drop n, Displaces q entry

section Displaced

variable {e : EntryPaths} {q : Path} {n : Nat} {w w' : World} {op : FileOp}

theorem Displaced.mono (h : Displaced q n w) (hlog : w.log <+: w'.log) : Displaced q n w' := by
  obtain ⟨entry, hmem, hdisplaces⟩ := h
  exact ⟨entry, (hlog.drop n).subset hmem, hdisplaces⟩

/-- A call displaces what it displaces, and nothing else. -/
theorem displaced_record (hn : n ≤ w.log.length) (ok : Bool) (fs : FileSystem) :
    Displaced q n (w.record op ok fs) ↔ Displaced q n w ∨ Displaces q (op, ok) := by
  rw [Displaced, World.record, List.drop_append_of_le_length hn]
  simp [Displaced, or_and_right, exists_or]

/-- A call that displaces a file has removed it or put another one in its place. -/
theorem displaced_answer (hn : n ≤ w.log.length) (h : Displaced q n (w.answer op).2) :
    Displaced q n w ∨ (op = .remove q ∧ (w.answer (.remove q)).2.fs.read q = none)
      ∨ ∃ src, op = .rename src q ∧ (w.answer (.rename src q)).1 = true := by
  obtain ⟨ok, fs, hrecord⟩ := w.answer_record op
  rw [hrecord, displaced_record hn] at h
  refine h.imp_right fun hdisplaces => ?_
  have hlog := congrArg World.log hrecord
  cases op with
  | remove p =>
      obtain ⟨rfl, rfl⟩ := hdisplaces
      refine Or.inl ⟨rfl, ?_⟩
      simp only [World.answer] at hlog ⊢
      split at hlog
      · rename_i hok
        rw [if_pos hok, World.fs_record, FileSystem.read_erase, if_pos rfl]
      · simp [World.record] at hlog
  | rename src dst =>
      obtain ⟨rfl, rfl⟩ := hdisplaces
      refine Or.inr ⟨src, rfl, ?_⟩
      simp only [World.answer] at hlog ⊢
      split at hlog
      · rename_i hok
        rw [if_pos hok]
      · simp [World.record] at hlog
  | timeNow | openRead _ | infoSize _ | readFull _ _ | mktemp _ | writeFull _ _ | stat _
  | dirMakeRecursive _ | dirRead _ => exact hdisplaces.elim

/-- The header changes only when it is displaced. -/
theorem read_or_displaced (hn : n ≤ w.log.length) (hop : KeepsNames op) :
    (w.answer op).2.fs.read e.headerPath = w.fs.read e.headerPath
      ∨ Displaced e.headerPath n (w.answer op).2 := by
  by_cases htouches : op.Touches e.headerPath
  · rcases hop.header htouches with ⟨src, rfl⟩ | rfl
    · simp only [World.answer]
      split
      · exact Or.inr ((displaced_record hn _ _).mpr (Or.inr ⟨rfl, rfl⟩))
      · exact Or.inl rfl
    · simp only [World.answer]
      split
      · exact Or.inr ((displaced_record hn _ _).mpr (Or.inr ⟨rfl, rfl⟩))
      · exact Or.inl rfl
  · exact Or.inl (w.read_answer_of_not_touches htouches)

/-- What a purge relies on: files are changed by calls, and the header is displaced when it
changes. -/
structure GoesOn (q : Path) (n : Nat) (w w' : World) : Prop where
  log : w.log <+: w'.log
  script : w'.script = w.script
  dirs : w.fs.dirs ⊆ w'.fs.dirs
  read : Displaced q n w' ∨ w'.fs.read q = w.fs.read q

theorem GoesOn.refl (q : Path) (n : Nat) (w : World) : GoesOn q n w w :=
  ⟨List.prefix_refl _, rfl, List.Subset.refl _, Or.inr rfl⟩

theorem GoesOn.trans {w₁ w₂ w₃ : World} (h₁ : GoesOn q n w₁ w₂) (h₂ : GoesOn q n w₂ w₃) :
    GoesOn q n w₁ w₃ := by
  refine ⟨h₁.log.trans h₂.log, h₂.script.trans h₁.script, fun _ hd => h₂.dirs (h₁.dirs hd), ?_⟩
  rcases h₂.read with h | h
  · exact Or.inl h
  · rcases h₁.read with h' | h'
    · exact Or.inl (h'.mono h₂.log)
    · exact Or.inr (h.trans h')

theorem goesOn_answer (hn : n ≤ w.log.length) (hop : KeepsNames op) :
    GoesOn e.headerPath n w (w.answer op).2 :=
  ⟨w.log_prefix_answer op, w.answer_script op, w.dirs_subset_answer op, (read_or_displaced hn hop).symm⟩

/-- Whatever the other clients do, a walk can rely on it. -/
theorem hunt_displaced (e : EntryPaths) (n : Nat) :
    Hunt (GoesOn e.headerPath n) (Displaced e.headerPath n) e n where
  log w w' h := h.log.length_le
  script w w' h := h.script
  dirs w w' h := h.dirs
  header w w' h := h.read
  goal w w' h hgoal := hgoal.mono h.log
  call w op _ hgoal := hgoal.mono (w.log_prefix_answer op)
  gone w b hn hscript hread := by
    have hok : (w.outcome (.remove e.headerPath)).ok = true :=
      hscript _ (.remove e.headerPath) (show FileOp.OnlyRemoves (.remove e.headerPath) from trivial)
    have hanswer : (w.answer (.remove e.headerPath)).2
        = w.record (.remove e.headerPath) true (w.fs.erase e.headerPath) := by
      simp only [World.answer, hok, hread, Option.isSome_some, and_self, if_true]
    rw [hanswer]
    exact (displaced_record hn _ _).mpr (Or.inr ⟨rfl, rfl⟩)

end Displaced

/-! ### The clients that purge -/

/-- The context of a purge. -/
def AdminCtx.purge (pattern : CString) : AdminCtx :=
  { AdminCtx.zero with pattern := some pattern, deleteMatches := true }

/-- The client purges the cache below `root`. -/
def Client.Purges (root : CString) : Client → Prop
  | .http env r _ => r.main = false ∧ r.cacheRoot = some root ∧ 3 ≤ env.walkDepth
      ∧ ∃ dconf pattern, UnderAdminPath r dconf (lit "/purge" ++ pattern)
        -- The gate is open, and a pattern is given.
        ∧ ¬ (dconf.adminRequireUser ≠ some false ∧ r.user = none)
        ∧ pattern ≠ [] ∧ pattern ≠ lit "/"
  | .tool _ depth args => args.root = root ∧ args.dryRun = false ∧ 3 ≤ depth

/-- The pattern of the purge matches what the header `b` says. -/
def Client.Matches (b : Bytes) : Client → Prop
  | .http _ r _ => ∃ dconf pattern, UnderAdminPath r dconf (lit "/purge" ++ pattern)
      ∧ SelectsHeader (AdminCtx.purge pattern) r.hostname b
  | .tool py _ args => Tool.SelectsHeader py args b

/-- An exception has ended the tool. -/
def Ended.raised : Ended → Bool
  | .served _ => false
  | .purged ending => ending.raised

/-- `/purge` with a pattern is no other action. -/
theorem cacherAdminHandle_purge {pattern : CString} (hne : pattern ≠ []) (hslash : pattern ≠ lit "/")
    (depth : Nat) (r : RequestRec) (root : CString) :
    ∃ answer : AdminCtx → AdminAnswer,
      cacherAdminHandle depth r (some root) (lit "/purge" ++ pattern)
        = walkCache r depth (AdminCtx.purge pattern) root >>= fun ctx => pure (answer ctx) := by
  have hother : ∀ {s : CString} {c : CChar}, s[1]? = some c → c ≠ chr 'p' → lit "/purge" ++ pattern ≠ s := by
    intro s c hs hc h
    have hp : (lit "/purge" ++ pattern)[1]? = some (chr 'p') := rfl
    rw [h, hs] at hp
    exact hc (Option.some.inj hp)
  have hlong : ¬ (lit "/purge" ++ pattern = [] ∨ lit "/purge" ++ pattern = lit "/") := by
    rintro (h | h)
    · cases h
    · have hlen := congrArg List.length h
      rw [List.length_append] at hlen
      revert hlen
      show 6 + _ = 1 → _
      omega
  unfold cacherAdminHandle
  dsimp only
  rw [if_neg hlong, if_neg (hother (c := chr 'l') rfl (by decide)),
    if_neg (hother (c := chr 'f') rfl (by decide)), stripPrefix_append]
  dsimp only
  rw [if_neg (not_or.mpr ⟨hne, hslash⟩)]
  exact ⟨_, rfl⟩

/-- Among other clients, a purge displaces the header that its pattern matches. -/
theorem Client.Purges.reaches {client : Client} {e : EntryPaths} (h : client.Purges e.cacheRoot)
    {b : Bytes} (hmatch : client.Matches b) {n : Nat} {w : World}
    (hw : Pending (Displaced e.headerPath n) e b n w) :
    AmongOthers (GoesOn e.headerPath n) client.prog w fun ended w' =>
      ended.raised = true ∨ Displaced e.headerPath n w' := by
  cases client with
  | http env r calls =>
      obtain ⟨hsub, hroot, hdepth, dconf, pattern, hunder, hopen, hne, hslash⟩ := h
      obtain ⟨dconf', pattern', hunder', hselect⟩ := hmatch
      obtain rfl : pattern' = pattern := by
        obtain rfl : dconf' = dconf := Option.some.inj (hunder'.1.symm.trans hunder.1)
        exact List.append_cancel_left (Option.some.inj (hunder'.2.symm.trans hunder.2))
      obtain ⟨result, hprog⟩ := prog_of_open env calls hsub hunder hopen
      obtain ⟨answer, hhandle⟩ := cacherAdminHandle_purge hne hslash env.walkDepth r e.cacheRoot
      rw [hprog, hroot, hhandle, bind_assoc]
      exact Prog.always_bind.mpr (((hunt_displaced e n).walkCache_reaches rfl hselect hdepth hw).mono
        fun _ _ h => Or.inr h.2)
  | tool py depth args =>
      obtain ⟨hroot, hwet, hdepth⟩ := h
      exact Prog.always_bind.mpr ((Tool.cmdPurge_reaches (hunt_displaced e n) hroot hwet hmatch
        hdepth hw).mono fun _ _ h => h)

/-! ### Who has put a file in place -/

/-- The calls of a lookup. -/
def FileOp.LooksUp : FileOp → Prop
  | .openRead _ | .infoSize _ | .readFull _ _ => True
  | .timeNow | .mktemp _ | .writeFull _ _ | .rename _ _ | .remove _ | .stat _
  | .dirMakeRecursive _ | .dirRead _ => False

/-- What is left of the client looks nothing up: its hit or miss is decided. -/
def Settled (p : FileProg Ended) : Prop := Prog.Uses (fun op => ¬ FileOp.LooksUp op) p

/-- The hit or miss of client `i` is decided. -/
def Serving.SettledAt (c : Serving) (i : Nat) : Prop := ∀ p, c.threads[i]? = some p → Settled p

/-- A request that has put a file in place looks nothing up any more. -/
theorem settled_of_rename {p : FileProg Ended} {l : Calls} {Q : Ended → Calls → Prop}
    (hp : InOrder p l Q) (hl : ¬ NoRename l) : Settled p := by
  induction p generalizing l with
  | done a => trivial
  | call op next ih =>
      refine ⟨fun hlooks => hl ?_, fun x => ih x (hp.2 x _ rfl) fun h => hl fun call hcall =>
        h call (List.mem_append_left _ hcall)⟩
      have hop := hp.1
      cases op with
      | openRead q => exact hop.1
      | infoSize file => exact hop
      | readFull file nbytes => exact hop
      | timeNow | mktemp _ | writeFull _ _ | rename _ _ | remove _ | stat _ | dirMakeRecursive _
      | dirRead _ => exact hlooks.elim

/-- A page that is being generated looks nothing up any more. -/
theorem settled_captureResponse {ctx : CacherOutCtx} (hclosed : ctx.tmpBody = none)
    (calls : List (RequestRec × List Bucket)) (result : HandlerResult) :
    Settled ((captureResponse ctx calls >>= fun _ => (pure result : FileProg HandlerResult))
      >>= fun result => pure (.served result)) := by
  refine settled_of_rename (l := [⟨.rename [] [], true⟩]) (Q := fun _ _ => True) ?_
    fun hno => hno _ List.mem_cons_self [] [] rfl
  rw [bind_assoc]
  exact Prog.always_bind.mpr ((inOrder_captureResponse hclosed calls _).mono fun _ _ _ => trivial)

/-- The clients of a server, and who has put which file in place since the tracing began. -/
structure Traced where
  serving : Serving
  placedBy : Path → Option Nat

/-- The tracing begins. -/
def Serving.traced (c : Serving) : Traced := ⟨c, fun _ => none⟩

/-- A step of client `i`. A rename that succeeds puts a file in place. -/
def Traced.step (t : Traced) (i : Nat) : Traced where
  serving := Prog.Pool.stepAt World.answer t.serving i
  placedBy :=
    match t.serving.nextOp i with
    | some (.rename src dst) =>
      if (t.serving.shared.answer (.rename src dst)).1 then Function.update t.placedBy dst (some i)
      else t.placedBy
    | _ => t.placedBy

/-- The state after an interleaving. -/
def Traced.run (t : Traced) (schedule : List Nat) : Traced := schedule.foldl step t

theorem serving_run (t : Traced) (schedule : List Nat) :
    (t.run schedule).serving = t.serving.after schedule := by
  induction schedule generalizing t with
  | nil => rfl
  | cons i schedule ih => exact ih (t.step i)

theorem Serving.nextOp_of_call {c : Serving} {i : Nat} {op : FileOp} {next : Ans op → FileProg Ended}
    (hi : c.threads[i]? = some (.call op next)) : c.nextOp i = some op := by
  rw [Serving.nextOp, hi]
  rfl

/-- A step does nothing, or it is the next call of its client. -/
theorem Traced.step_cases (t : Traced) (i : Nat) :
    t.step i = t ∨ ∃ op next, t.serving.threads[i]? = some (.call op next) := by
  -- Without a next call nothing happens.
  have hidle : Prog.Pool.stepAt World.answer t.serving i = t.serving → t.serving.nextOp i = none →
      t.step i = t := by
    intro hsame hno
    unfold Traced.step
    rw [hsame, hno]
  cases hi : t.serving.threads[i]? with
  | none => exact Or.inl (hidle (Prog.Pool.stepAt_none hi) (by rw [Serving.nextOp, hi]; rfl))
  | some p =>
      cases p with
      | done ended => exact Or.inl (hidle (Prog.Pool.stepAt_done hi) (by rw [Serving.nextOp, hi]; rfl))
      | call op next => exact Or.inr ⟨op, next, rfl⟩

theorem shared_step {t : Traced} {i : Nat} {op : FileOp} {next : Ans op → FileProg Ended}
    (hi : t.serving.threads[i]? = some (.call op next)) :
    (t.step i).serving.shared = (t.serving.shared.answer op).2 := by
  show (Prog.Pool.stepAt World.answer t.serving i).shared = _
  rw [Prog.Pool.stepAt_call hi]

/-- A step without a rename puts nothing in place. -/
theorem placedBy_step {t : Traced} {i : Nat} {op : FileOp} (hop : t.serving.nextOp i = some op)
    (hno : ∀ src dst, op ≠ .rename src dst) : (t.step i).placedBy = t.placedBy := by
  unfold Traced.step
  dsimp only
  rw [hop]
  cases op with
  | rename src dst => exact absurd rfl (hno src dst)
  | timeNow | openRead _ | infoSize _ | readFull _ _ | mktemp _ | writeFull _ _ | remove _ | stat _
  | dirMakeRecursive _ | dirRead _ => rfl

theorem placedBy_step_rename {t : Traced} {i : Nat} {src dst : Path}
    (hop : t.serving.nextOp i = some (.rename src dst)) :
    (t.step i).placedBy = if (t.serving.shared.answer (.rename src dst)).1
      then Function.update t.placedBy dst (some i) else t.placedBy := by
  unfold Traced.step
  dsimp only
  rw [hop]

/-- Whatever is at `q` was put there since by a client whose hit or miss was open when the
tracing began. -/
def Fresh (begin : Serving) (q : Path) (t : Traced) : Prop :=
  ∀ b, t.serving.shared.fs.read q = some b → ∃ i, t.placedBy q = some i ∧ ¬ begin.SettledAt i

/-- Client `i` is about to put a file at `q`. -/
def Serving.Places (c : Serving) (i : Nat) (q : Path) : Prop := ∃ src, c.nextOp i = some (.rename src q)

theorem Serving.not_places_of_onlyRemoves {c : Serving} {i : Nat}
    (h : ∀ p, c.threads[i]? = some p → OnlyRemoves p) (q : Path) : ¬ c.Places i q := by
  rintro ⟨src, hop⟩
  obtain ⟨p, hp, hnext⟩ := Option.bind_eq_some_iff.mp hop
  cases p with
  | done ended => cases hnext
  | call op next =>
      cases hnext
      exact (h _ hp).1

section Fresh

variable {begin : Serving} {q : Path} {t : Traced} {i : Nat}

/-- A file at one of the two names of an entry stays fresh, if no settled client puts one there. -/
theorem Fresh.step (h : Fresh begin q t) (hplaces : t.serving.Places i q → ¬ begin.SettledAt i)
    (htouch : ∀ op, t.serving.nextOp i = some op → op.Touches q →
      (∃ src, op = .rename src q) ∨ op = .remove q) : Fresh begin q (t.step i) := by
  rcases t.step_cases i with hsame | ⟨op, next, hi⟩
  · rw [hsame]
    exact h
  have hop := Serving.nextOp_of_call hi
  intro b hread
  rw [shared_step hi] at hread
  by_cases htouches : op.Touches q
  · rcases htouch op hop htouches with ⟨src, rfl⟩ | rfl
    · rw [placedBy_step_rename hop]
      split
      · exact ⟨i, Function.update_self _ _ _, hplaces ⟨src, hop⟩⟩
      · -- A rename that fails changes nothing.
        rename_i hfails
        rw [World.fs_answer_rename_eq_false (by simpa using hfails)] at hread
        exact h b hread
    · rw [placedBy_step hop (by simp)]
      rcases t.serving.shared.answer_read_of_remove q with hsame | hgone
      · rw [hsame] at hread
        exact h b hread
      · rw [hgone] at hread
        cases hread
  · rw [World.read_answer_of_not_touches _ htouches] at hread
    obtain ⟨k, hk, hopen⟩ := h b hread
    refine ⟨k, ?_, hopen⟩
    cases op with
    | rename src dst =>
        have hdst : q ≠ dst := fun heq => htouches (Or.inr heq.symm)
        rw [placedBy_step_rename hop]
        split
        · rw [Function.update_of_ne hdst, hk]
        · exact hk
    | timeNow | openRead _ | infoSize _ | readFull _ _ | mktemp _ | writeFull _ _ | remove _ | stat _
    | dirMakeRecursive _ | dirRead _ => rw [placedBy_step hop (by simp), hk]

/-- What an open client puts in place is fresh. -/
theorem fresh_of_rename {src : Path} (hop : t.serving.nextOp i = some (.rename src q))
    (hok : (t.serving.shared.answer (.rename src q)).1 = true) (hopen : ¬ begin.SettledAt i) :
    Fresh begin q (t.step i) := by
  intro b _
  rw [placedBy_step_rename hop, if_pos hok]
  exact ⟨i, Function.update_self _ _ _, hopen⟩

variable {e : EntryPaths} {n : Nat}

/-- No client whose miss is decided puts a file of the entry in place. -/
def NoLatePublish (begin : Serving) (e : EntryPaths) (c : Serving) (i : Nat) : Prop :=
  c.Places i e.headerPath ∨ c.Places i e.bodyPath → ¬ begin.SettledAt i

/-- What holds once the purge has begun, behind `n` calls. -/
structure Invalidating (begin : Serving) (e : EntryPaths) (n : Nat) (t : Traced) : Prop where
  log : n ≤ t.serving.shared.log.length
  names : ∀ (i : Nat) p, t.serving.threads[i]? = some p → Prog.Uses KeepsNames p
  displaced : Displaced e.headerPath n t.serving.shared → Fresh begin e.headerPath t
  /-- A header is put in place behind the body. -/
  header : t.placedBy e.headerPath ≠ none → Fresh begin e.bodyPath t
  behind : t.serving.Behind Orderly FileOp.OnlyRemoves fun i l =>
    ¬ begin.SettledAt i → PlacedBody e l → Fresh begin e.bodyPath t

/-- The two files of the entry are touched by renames onto them and removals only. -/
theorem Invalidating.touches (h : Invalidating begin e n t) {op : FileOp}
    (hop : t.serving.nextOp i = some op) : KeepsNames op := by
  obtain ⟨p, hp, hnext⟩ := Option.bind_eq_some_iff.mp hop
  cases p with
  | done ended => cases hnext
  | call op' next =>
      cases hnext
      exact (h.names i _ hp).1

theorem Invalidating.fresh_header (h : Invalidating begin e n t)
    (hlate : NoLatePublish begin e t.serving i) (hfresh : Fresh begin e.headerPath t) :
    Fresh begin e.headerPath (t.step i) :=
  hfresh.step (fun hplaces => hlate (Or.inl hplaces)) fun _ hop => (h.touches hop).header

theorem Invalidating.fresh_body (h : Invalidating begin e n t)
    (hlate : NoLatePublish begin e t.serving i) (hfresh : Fresh begin e.bodyPath t) :
    Fresh begin e.bodyPath (t.step i) :=
  hfresh.step (fun hplaces => hlate (Or.inr hplaces)) fun _ hop => (h.touches hop).body

/-- A client that puts the header in place has put the body in place. -/
theorem Invalidating.fresh_body_of_places (h : Invalidating begin e n t)
    (hlate : NoLatePublish begin e t.serving i) (hplaces : t.serving.Places i e.headerPath) :
    Fresh begin e.bodyPath t := by
  obtain ⟨src, hop⟩ := hplaces
  obtain ⟨p, hp, hnext⟩ := Option.bind_eq_some_iff.mp hop
  cases p with
  | done ended => cases hnext
  | call op next =>
      cases hnext
      rcases h.behind i _ hp with hremoves | ⟨l, hinOrder, hl⟩
      · exact hremoves.1.elim
      · obtain ⟨e', suffix, ⟨-, hdst, -, hplaced⟩ | ⟨-, hdst⟩⟩ := hinOrder.1
        · have hstem : e.stem = e'.stem := List.append_cancel_right hdst
          refine hl (hlate (Or.inl ⟨src, hop⟩)) ?_
          rw [PlacedBody, EntryPaths.bodyPath, hstem]
          exact hplaced
        · exact absurd hdst (e.headerPath_ne_bodyPath e')

theorem Invalidating.step (h : Invalidating begin e n t)
    (hlate : NoLatePublish begin e t.serving i) : Invalidating begin e n (t.step i) := by
  rcases t.step_cases i with hsame | ⟨op, next, hi⟩
  · rw [hsame]
    exact h
  have hop := Serving.nextOp_of_call hi
  have hshared := shared_step hi
  constructor
  case log =>
    rw [hshared]
    exact h.log.trans (World.length_log_le_answer _ op)
  case names =>
    intro k p hk
    rcases Prog.Pool.threads_stepAt hi hk with ⟨rfl, rfl⟩ | ⟨-, hk⟩
    · exact (h.names k _ hi).2 _
    · exact h.names k p hk
  case displaced =>
    intro hdisplaced
    rw [hshared] at hdisplaced
    rcases displaced_answer h.log hdisplaced with hold | ⟨rfl, hgone⟩ | ⟨src, rfl, hok⟩
    · exact h.fresh_header hlate (h.displaced hold)
    · intro b hread
      rw [hshared, hgone] at hread
      cases hread
    · exact fresh_of_rename hop hok (hlate (Or.inl ⟨src, hop⟩))
  case header =>
    intro hplaced
    by_cases hold : t.placedBy e.headerPath = none
    · -- This step has put it there.
      refine h.fresh_body hlate (h.fresh_body_of_places hlate ?_)
      by_contra hno
      refine hplaced ?_
      cases op with
      | rename src dst =>
          have hdst : e.headerPath ≠ dst := fun heq => hno ⟨src, by rw [hop, heq]⟩
          rw [placedBy_step_rename hop]
          split
          · rw [Function.update_of_ne hdst, hold]
          · exact hold
      | timeNow | openRead _ | infoSize _ | readFull _ _ | mktemp _ | writeFull _ _ | remove _
      | stat _ | dirMakeRecursive _ | dirRead _ => rw [placedBy_step hop (by simp), hold]
    · exact h.fresh_body hlate (h.header hold)
  case behind =>
    refine h.behind.step (fun k l hl hopen hplaced => h.fresh_body hlate (hl hopen hplaced)) ?_
    intro op' next' l hi' _ hl hopen hplaced
    obtain ⟨src, hmem⟩ := hplaced
    rcases List.mem_append.mp hmem with hmem | hmem
    · exact h.fresh_body hlate (hl hopen ⟨src, hmem⟩)
    · obtain ⟨rfl, hok⟩ := Sigma.mk.inj_iff.mp (List.mem_singleton.mp hmem)
      exact fresh_of_rename (Serving.nextOp_of_call hi') (eq_of_heq hok).symm hopen

/-- What each step keeps, if no late file is put in place, holds after the interleaving. -/
theorem traced_run_inv {I : Traced → Prop}
    (hstep : ∀ t i, NoLatePublish begin e t.serving i → I t → I (t.step i)) {schedule : List Nat}
    {t : Traced} (hlate : Prog.Pool.Guarded World.answer (NoLatePublish begin e) t.serving schedule)
    (ht : I t) : I (t.run schedule) := by
  induction schedule generalizing t with
  | nil => exact ht
  | cons i schedule ih => exact ih hlate.2 (hstep t i hlate.1 ht)

/-! ### A request that comes after the purge -/

/-- What holds once the purge has ended, of a request `k` that comes later. -/
structure Watching (begin : Serving) (e : EntryPaths) (n k : Nat) (t : Traced) : Prop
    extends Invalidating begin e n t where
  fresh : Fresh begin e.headerPath t
  own : ∃ p l, t.serving.threads[k]? = some p ∧ InOrder p l (fun _ _ => True)
    ∧ (FoundHeader e l → Fresh begin e.bodyPath t)

/-- A header that is found is fresh, and so is the body behind it. -/
theorem Watching.fresh_of_found {k : Nat} (h : Watching begin e n k t) {b : Bytes}
    (hfound : (t.serving.shared.answer (.openRead e.headerPath)).1 = some b) :
    Fresh begin e.bodyPath t := by
  obtain ⟨j, hj, -⟩ := h.fresh b (World.eq_of_query hfound)
  exact h.header (by rw [hj]; exact Option.some_ne_none j)

theorem Watching.step {k : Nat} (h : Watching begin e n k t)
    (hlate : NoLatePublish begin e t.serving i) : Watching begin e n k (t.step i) := by
  refine ⟨h.toInvalidating.step hlate, h.fresh_header hlate h.fresh, ?_⟩
  obtain ⟨p, l, hk, hp, hl⟩ := h.own
  rcases t.step_cases i with hsame | ⟨op, next, hi⟩
  · rw [hsame]
    exact ⟨p, l, hk, hp, hl⟩
  by_cases hik : k = i
  · subst hik
    rw [hk] at hi
    cases hi
    refine ⟨_, _, ?_, hp.2 (t.serving.shared.answer op).1 _ rfl, fun hfound => h.fresh_body hlate ?_⟩
    · show (Prog.Pool.stepAt World.answer t.serving k).threads[k]? = _
      rw [Prog.Pool.stepAt_call hk]
      exact List.getElem?_set_self (List.getElem?_eq_some_iff.mp hk).1
    · obtain ⟨b, hmem⟩ := hfound
      rcases List.mem_append.mp hmem with hmem | hmem
      · exact hl ⟨b, hmem⟩
      · obtain ⟨rfl, hanswer⟩ := Sigma.mk.inj_iff.mp (List.mem_singleton.mp hmem)
        exact h.fresh_of_found (eq_of_heq hanswer).symm
  · exact ⟨p, l, (Prog.Pool.threads_stepAt_of_ne hik).trans hk, hp, fun hfound =>
      h.fresh_body hlate (hl hfound)⟩

/-- The file of the entry that client `k` is about to open is fresh. -/
def ServesFresh (begin : Serving) (e : EntryPaths) (t : Traced) (k : Nat) : Prop :=
  ∀ q, q = e.headerPath ∨ q = e.bodyPath → t.serving.nextOp k = some (.openRead q) → Fresh begin q t

theorem Watching.servesFresh {k : Nat} (h : Watching begin e n k t) : ServesFresh begin e t k := by
  rintro q (rfl | rfl) hop
  · exact h.fresh
  · obtain ⟨p, l, hk, hp, hl⟩ := h.own
    rw [Serving.nextOp, hk] at hop
    cases p with
    | done ended => cases hop
    | call op next =>
        cases hop
        exact hl (hp.1.2 e rfl)

end Fresh

/-! ### The start and the purge itself -/

/-- What holds in every state of a run over a cache. -/
structure Serving.Sharded (c : Serving) : Prop where
  script : c.shared.script.ReadsAndRemovesOk
  entries : EntriesInShards c.shared.fs
  names : ∀ (i : Nat) p, c.threads[i]? = some p → Prog.Uses KeepsNames p
  behind : c.Behind Orderly FileOp.OnlyRemoves fun _ l => ShardsMade l c.shared.fs

section Purge

variable {c : Serving} {clients : List Client} {client : Client} {w : World} {i n : Nat}
  {e : EntryPaths} {schedule : List Nat}

theorem thread_start {p : FileProg Ended} (hp : (Serving.start clients w).threads[i]? = some p) :
    ∃ client, clients[i]? = some client ∧ p = client.prog := by
  obtain ⟨client, hclient, hprog⟩ := Option.map_eq_some_iff.mp (List.getElem?_map.symm.trans hp)
  exact ⟨client, hclient, hprog.symm⟩

theorem sharded_start (hscript : w.script.ReadsAndRemovesOk) (hin : EntriesInShards w.fs) :
    (Serving.start clients w).Sharded := by
  refine ⟨hscript, hin, fun i p hp => ?_, fun i p hp => ?_⟩
  · obtain ⟨client, -, rfl⟩ := thread_start hp
    exact keepsNames_prog client
  · obtain ⟨client, -, rfl⟩ := thread_start hp
    exact (onlyRemoves_or_inOrder client).imp_right fun h =>
      ⟨[], h, fun e hmade => absurd hmade List.not_mem_nil⟩

theorem Serving.Sharded.step (h : c.Sharded) (i : Nat) :
    Serving.Sharded (Prog.Pool.stepAt World.answer c i) := by
  rcases Prog.Pool.stepAt_cases World.answer c i with hsame | ⟨op, next, hi⟩
  · rw [hsame]
    exact h
  have hshared : (Prog.Pool.stepAt World.answer c i).shared = (c.shared.answer op).2 := by
    rw [Prog.Pool.stepAt_call hi]
  constructor
  case script =>
    rw [hshared, World.answer_script]
    exact h.script
  case entries =>
    rw [hshared]
    rcases h.behind i _ hi with hremoves | ⟨l, hp, hl⟩
    · exact h.entries.answer_of_onlyRemoves hremoves.1
    · exact h.entries.answer_of_orderly hp.1 hl
  case names =>
    intro k p hk
    rcases Prog.Pool.threads_stepAt hi hk with ⟨rfl, rfl⟩ | ⟨-, hk⟩
    · exact (h.names k _ hi).2 _
    · exact h.names k p hk
  case behind =>
    refine h.behind.step (fun k l hl e hmade => ?_) fun op' next' l hi' _ hl => ?_
    · rw [hshared]
      exact (hl e hmade).answer op
    · rw [hi] at hi'
      cases hi'
      rw [hshared]
      exact hl.answer op

theorem Serving.Sharded.after (h : c.Sharded) (schedule : List Nat) : (c.after schedule).Sharded :=
  Prog.Pool.run_inv_of_guarded (G := fun _ _ => True) (fun _ i _ h => h.step i)
    (Prog.Pool.guarded_iff.mpr fun _ _ _ => trivial) h

/-- When the purge begins, whoever has put a file in place has decided its miss. -/
theorem Serving.Sharded.invalidating (h : c.Sharded) (e : EntryPaths) :
    Invalidating c e c.shared.log.length c.traced := by
  refine ⟨Nat.le_refl _, h.names, fun hdisplaced => ?_, fun hplaced => absurd rfl hplaced,
    fun i p hp => ?_⟩
  · obtain ⟨entry, hmem, -⟩ := hdisplaced
    change entry ∈ c.shared.log.drop c.shared.log.length at hmem
    rw [List.drop_length] at hmem
    cases hmem
  · refine (h.behind i p hp).imp_right fun ⟨l, hinOrder, _⟩ => ⟨l, hinOrder, fun hopen hplaced => ?_⟩
    refine absurd (fun p' hp' => ?_) hopen
    obtain rfl : p = p' := Option.some.inj (hp.symm.trans hp')
    obtain ⟨src, hmem⟩ := hplaced
    exact settled_of_rename hinOrder fun hno => hno _ hmem src e.bodyPath rfl

/-- Client `i` has ended, and no exception has ended it. -/
def Serving.Completed (c : Serving) (i : Nat) : Prop :=
  (c.threads[i]?.bind Prog.result?).map Ended.raised = some false

instance (c : Serving) (i : Nat) : Decidable (c.Completed i) :=
  inferInstanceAs (Decidable (_ = some false))

/-- A purge that has completed has displaced the header that it matches. -/
theorem displaced_of_completed (h : c.Sharded) (hi : c.threads[i]? = some client.prog)
    (hpurges : client.Purges e.cacheRoot) (hroot : e.cacheRoot ≠ []) {b : Bytes}
    (hread : c.shared.fs.read e.headerPath = some b) (hmatch : client.Matches b)
    (hends : (c.after schedule).Completed i) :
    Displaced e.headerPath c.shared.log.length (c.after schedule).shared := by
  have hshard := h.entries e b hread
  have hpending : Pending (Displaced e.headerPath c.shared.log.length) e b c.shared.log.length
      c.shared := ⟨Nat.le_refl _, h.script, hshard.root hroot, hshard, Or.inr hread⟩
  -- Every step of another client goes on from where the purge was.
  have hguard : Prog.Pool.Guarded World.answer
      (fun c' k => GoesOn e.headerPath c.shared.log.length c'.shared
        (Prog.Pool.stepAt World.answer c' k).shared) c schedule := by
    refine Prog.Pool.guarded_of_inv (G := fun _ _ => True)
      (I := fun c' : Serving => c.shared.log.length ≤ c'.shared.log.length ∧ c'.Sharded)
      (fun c' k _ hI => ⟨?_, hI.2.step k⟩) (fun c' k _ hI => ?_)
      (Prog.Pool.guarded_iff.mpr fun _ _ _ => trivial) ⟨Nat.le_refl _, h⟩
    · rcases Prog.Pool.stepAt_cases World.answer c' k with hsame | ⟨op, next, hk⟩
      · rw [hsame]
        exact hI.1
      · rw [Prog.Pool.stepAt_call hk]
        exact hI.1.trans (World.length_log_le_answer _ op)
    · rcases Prog.Pool.stepAt_cases World.answer c' k with hsame | ⟨op, next, hk⟩
      · rw [hsame]
        exact .refl _ _ _
      · rw [Prog.Pool.stepAt_call hk]
        exact goesOn_answer hI.1 (hI.2.names k _ hk).1
  obtain ⟨p, hp, hreaches⟩ := Prog.Pool.always_run (i := i) (fun _ _ _ h₁ h₂ => h₁.trans h₂)
    (fun w => GoesOn.refl _ _ w) (fun _ _ _ _ h => h)
    (fun _ _ _ hgoes h => h.imp_right fun hdisplaced => hdisplaced.mono hgoes.log)
    (fun _ _ hgoes _ => hgoes) hguard hi (hpurges.reaches hmatch hpending)
  rw [Serving.Completed, Serving.after, hp] at hends
  cases p with
  | call op next => cases hends
  | done ended =>
      have hraised : ended.raised = false := Option.some.inj hends
      rcases hreaches with hraised' | hdisplaced
      · rw [hraised] at hraised'
        cases hraised'
      · exact hdisplaced

end Purge

/-- Once the purge has completed, every request that comes then and opens a file of the entry
finds one that was put in place since the purge began, by a client whose miss was still open
then. `during` are the steps from the first one of the purge. -/
def PurgeInvalidates (clients : List Client) (w : World) (before during after : List Nat)
    (e : EntryPaths) : Prop :=
  ∀ m k, after[m]? = some k → k ∉ before ++ during →
    (∃ client, clients[k]? = some client ∧ client.Visits) →
    ServesFresh ((Serving.start clients w).after before) e
      (((Serving.start clients w).after before).traced.run (during ++ after.take m)) k

/-- In every interleaving in which no client whose miss was decided when the purge began puts a
file of the entry in place from then on, the purge invalidates the entry. -/
theorem purgeInvalidates_of_noLatePublish (clients : List Client) (w : World)
    (before during after : List Nat) (e : EntryPaths) (i : Nat) (client : Client)
    (hscript : w.script.ReadsAndRemovesOk) (hin : EntriesInShards w.fs) (hroot : e.cacheRoot ≠ [])
    (hi : clients[i]? = some client) (hpurges : client.Purges e.cacheRoot) (hbegins : i ∉ before)
    (hmatch : ∀ b, ((Serving.start clients w).after before).shared.fs.read e.headerPath = some b →
      client.Matches b)
    (hends : ((Serving.start clients w).after (before ++ during)).Completed i)
    (hlate : Prog.Pool.Guarded World.answer
      (NoLatePublish ((Serving.start clients w).after before) e)
      ((Serving.start clients w).after before) (during ++ after)) :
    PurgeInvalidates clients w before during after e := by
  intro m k hk hlater hvisits
  have hsharded : ((Serving.start clients w).after before).Sharded :=
    (sharded_start hscript hin).after before
  have hthread : ∀ {j : Nat} {client : Client}, clients[j]? = some client →
      (Serving.start clients w).threads[j]? = some client.prog := by
    intro j client hj
    show (clients.map Client.prog)[j]? = _
    rw [List.getElem?_map, hj]
    rfl
  have hpurger : ((Serving.start clients w).after before).threads[i]? = some client.prog := by
    rw [Serving.after, Prog.Pool.run_of_notMem hbegins, hthread hi]
  have hsplit : (Serving.start clients w).after (before ++ during)
      = ((Serving.start clients w).after before).after during := Prog.Pool.run_append _ _ _ _
  rw [hsplit] at hends
  generalize hbegin : (Serving.start clients w).after before = begin at *
  rw [Prog.Pool.guarded_append] at hlate
  obtain ⟨hlate₁, hlate₂⟩ := hlate
  -- The purge displaces the header, if there is one.
  have hinv := hsharded.invalidating e
  have hend : Invalidating begin e begin.shared.log.length (begin.traced.run during)
      ∧ Fresh begin e.headerPath (begin.traced.run during) := by
    cases hread : begin.shared.fs.read e.headerPath with
    | none =>
        refine traced_run_inv (I := fun t => Invalidating begin e begin.shared.log.length t
            ∧ Fresh begin e.headerPath t)
          (fun t j hlate h => ⟨h.1.step hlate, h.1.fresh_header hlate h.2⟩) hlate₁ ⟨hinv, ?_⟩
        intro b hb
        change begin.shared.fs.read e.headerPath = some b at hb
        rw [hread] at hb
        cases hb
    | some b =>
        have hrun := traced_run_inv (fun t j hlate h => h.step hlate) hlate₁ hinv
        refine ⟨hrun, hrun.displaced ?_⟩
        rw [serving_run]
        exact displaced_of_completed hsharded hpurger hpurges hroot hread (hmatch b hread) hends
  -- The later request is still at its start.
  obtain ⟨later, hlaterClient, hvisits⟩ := hvisits
  have hown : (begin.traced.run during).serving.threads[k]? = some later.prog := by
    rw [serving_run]
    show (begin.after during).threads[k]? = _
    rw [← hsplit, Serving.after, Prog.Pool.run_of_notMem hlater, hthread hlaterClient]
  have hwatch : Watching begin e begin.shared.log.length k (begin.traced.run during) :=
    ⟨hend.1, hend.2, later.prog, [], hown, inOrder_prog hvisits, fun ⟨b, hmem⟩ => by cases hmem⟩
  rw [show begin.traced.run (during ++ after.take m)
    = (begin.traced.run during).run (after.take m) from List.foldl_append]
  refine (traced_run_inv (fun t j hlate h => h.step hlate) ?_ hwatch).servesFresh
  rw [serving_run]
  have htake := hlate₂
  rw [← List.take_append_drop m after, Prog.Pool.guarded_append] at htake
  exact htake.1

/-! ### A purge while a page is generated -/

/-- A page that is generated and stored, a purge of its url, and two more requests for it. -/
def Client.pageAndPurge : List Client :=
  [.http (Env.ofRules [CacherRule.ofTtl 60]) RequestRec.page
    [(⟨200, [], none, false⟩, [.data [104, 105] none, .eos])],
   .http (Env.ofRules []) (RequestRec.admin (lit "/purge/a")) [],
   .http (Env.ofRules [CacherRule.ofTtl 60]) RequestRec.page
    [(⟨200, [], none, false⟩, [.data [106, 107] none, .eos])],
   .http (Env.ofRules [CacherRule.ofTtl 60]) RequestRec.page []]

theorem visits_pageAndPurge {k : Nat} (hk : k ≠ 1) (hlt : k < 4) :
    ∃ client, Client.pageAndPurge[k]? = some client ∧ client.Visits := by
  have hpage : ∀ calls, (Client.http (Env.ofRules [CacherRule.ofTtl 60]) RequestRec.page calls).Visits := by
    rintro calls ⟨-, dconf, action, hconf, haction⟩
    cases hconf
    cases haction
  match k, hk with
  | 0, _ | 2, _ | 3, _ => exact ⟨_, rfl, hpage _⟩

/-- The miss is decided, then the whole purge runs, then the page is stored and served. -/
theorem not_purgeInvalidates_inFlight :
    ((Serving.start Client.pageAndPurge World.cold).after ([0] ++ [1])).Completed 1
      ∧ ¬ PurgeInvalidates Client.pageAndPurge World.cold [0] [1] (List.replicate 9 0 ++ [2])
        pathsOfGetA := by
  refine ⟨by decide +kernel, fun h => ?_⟩
  obtain ⟨b, hread⟩ := Option.isSome_iff_exists.mp
    (show ((((Serving.start Client.pageAndPurge World.cold).after [0]).traced.run
      ([1] ++ (List.replicate 9 0 ++ [2]).take 9)).serving.shared.fs.read
        pathsOfGetA.headerPath).isSome = true by decide +kernel)
  obtain ⟨i, hplaced, hopen⟩ := h 9 2 rfl (by decide) (visits_pageAndPurge (by decide) (by decide))
    pathsOfGetA.headerPath (Or.inl rfl) (by decide +kernel) b hread
  have hfirst : (((Serving.start Client.pageAndPurge World.cold).after [0]).traced.run
      ([1] ++ (List.replicate 9 0 ++ [2]).take 9)).placedBy pathsOfGetA.headerPath = some 0 := by
    decide +kernel
  rw [hfirst] at hplaced
  cases hplaced
  refine hopen fun p hp => ?_
  cases hp
  exact settled_captureResponse rfl _ _

/-- The page is stored, then it is purged; a new one is generated, and served. -/
theorem purgeInvalidates_betweenPages :
    PurgeInvalidates Client.pageAndPurge World.cold (List.replicate 10 0) (List.replicate 9 1)
      (List.replicate 10 2 ++ List.replicate 2 3) pathsOfGetA := by
  refine purgeInvalidates_of_noLatePublish _ _ _ _ _ _ 1 _ (fun _ _ _ => rfl) (fun e b h => by cases h)
    (by decide) rfl ⟨rfl, rfl, Nat.le_refl 3, _, lit "/a", ⟨rfl, rfl⟩, by decide, by decide, by decide⟩
    (by decide) (fun b hread => ?_) (by decide +kernel)
    (Prog.Pool.guarded_iff.mpr fun k i hk hplaces hsettled => ?_)
  · have hheader : ((Serving.start Client.pageAndPurge World.cold).after
        (List.replicate 10 0)).shared.fs.read pathsOfGetA.headerPath = some (toBytes
          (headerFileText ⟨100, 160, 200, lit "GET", lit "h", lit "/a"⟩ [])) := by decide +kernel
    rw [hheader] at hread
    cases hread
    refine ⟨_, lit "/a", ⟨rfl, rfl⟩, ⟨100, 160, 200, lit "GET", lit "h", lit "/a"⟩, [], ?_, by decide⟩
    rw [ofBytes_toBytes]
    exact (readMetaText_eq_iff isWord_get isWord_h (by decide) _).mpr ⟨by decide, by decide⟩
  · -- Who is not the purge has its miss still open.
    have hopen : ∀ (p : Path) (next : Ans (.openRead p) → FileProg Ended),
        (Serving.start Client.pageAndPurge World.cold).threads[i]? = some (.call (.openRead p) next) →
        i ∉ List.replicate 10 0 → False := by
      intro p next hi hnot
      have hp : ((Serving.start Client.pageAndPurge World.cold).after (List.replicate 10 0)).threads[i]?
          = some (.call (.openRead p) next) := by rw [Serving.after, Prog.Pool.run_of_notMem hnot, hi]
      exact (show ¬ FileOp.LooksUp (.openRead p) from (hsettled _ hp).1) trivial
    have hmem := List.mem_of_getElem? hk
    simp only [List.mem_append, List.mem_replicate] at hmem
    rcases hmem with ⟨-, rfl⟩ | ⟨-, rfl⟩ | ⟨-, rfl⟩
    · have honly : ∀ p, ((Serving.start Client.pageAndPurge World.cold).after
          (List.replicate 10 0)).threads[1]? = some p → OnlyRemoves p := by
        intro p hp
        rw [Serving.after, Prog.Pool.run_of_notMem (by decide)] at hp
        cases hp
        exact onlyRemoves_prog (Or.inl ⟨rfl, _, _, rfl, rfl⟩)
      have hremoves := fun p => Prog.Pool.uses_run (h := World.answer) (p := p) honly
        ((List.replicate 9 1 ++ (List.replicate 10 2 ++ List.replicate 2 3)).take k)
      exact hplaces.elim (Serving.not_places_of_onlyRemoves hremoves _)
        (Serving.not_places_of_onlyRemoves hremoves _)
    · exact hopen _ _ rfl (by decide)
    · exact hopen _ _ rfl (by decide)

end Cacher
