import Cacher.Walk

/-!
# `Cacher.Deletion`: a walk deletes the entry it is after

A walk over the cache root reaches an entry through three listings: of the root, of the
directory below it and of the directory of the entry. Others may work on the cache in between.
`Hunt` collects what the walk must be able to rely on. `Goal` is what deleting the entry is
for: whoever removes or replaces the header reaches it, and nothing leads back.

Under a `Hunt`, both walks reach `Goal`, that of an admin request (`walkCache_reaches`) and that
of the command line tool (`Tool.walk_reaches`), provided that they select the header they find.
-/

set_option autoImplicit false

namespace Cacher

open CText Files

/-- What a walk that is after the entry `e` relies on between its calls. It begins behind `n`
other calls. -/
structure Hunt (Rely : World → World → Prop) (Goal : World → Prop) (e : EntryPaths)
    (n : Nat) : Prop where
  log : ∀ (w w' : World), Rely w w' → w.log.length ≤ w'.log.length
  script : ∀ (w w' : World), Rely w w' → w'.script = w.script
  dirs : ∀ (w w' : World), Rely w w' → w.fs.dirs ⊆ w'.fs.dirs
  /-- The others leave the header alone, or reach `Goal`. -/
  header : ∀ (w w' : World), Rely w w' → Goal w' ∨ w'.fs.read e.headerPath = w.fs.read e.headerPath
  goal : ∀ w w', Rely w w' → Goal w → Goal w'
  /-- Reading and removing does not lead back. -/
  call : ∀ (w : World) (op : FileOp), op.OnlyRemoves → Goal w → Goal (w.answer op).2
  /-- Removing the header reaches `Goal`. -/
  gone : ∀ (w : World) b, n ≤ w.log.length → w.script.ReadsAndRemovesOk →
    w.fs.read e.headerPath = some b → Goal (w.answer (.remove e.headerPath)).2

/-- The walk can find the entry with the header `b`, or `Goal` is reached. -/
structure Pending (Goal : World → Prop) (e : EntryPaths) (b : Bytes) (n : Nat)
    (w : World) : Prop where
  log : n ≤ w.log.length
  script : w.script.ReadsAndRemovesOk
  root : e.cacheRoot ∈ w.fs.dirs
  shards : ShardIn w.fs e
  header : Goal w ∨ w.fs.read e.headerPath = some b

/-- What the program does while others do as `Rely` says. -/
abbrev AmongOthers {α : Type} (Rely : World → World → Prop) (p : FileProg α) (w : World)
    (Q : α → World → Prop) : Prop :=
  Prog.Always (fun _ _ => True) (Prog.Relying World.answer Rely) p w Q

section Hunt

variable {Rely : World → World → Prop} {Goal : World → Prop} {e : EntryPaths} {b : Bytes}
  {n : Nat} {w w' : World} {α β : Type}

theorem Pending.rely (h : Pending Goal e b n w) (hunt : Hunt Rely Goal e n) (hrely : Rely w w') :
    Pending Goal e b n w' := by
  refine ⟨h.log.trans (hunt.log w w' hrely), ?_, hunt.dirs w w' hrely h.root, h.shards.mono (hunt.dirs w w' hrely), ?_⟩
  · rw [hunt.script w w' hrely]
    exact h.script
  · rcases hunt.header w w' hrely with hgoal | hsame
    · exact Or.inl hgoal
    · rw [hsame]
      exact h.header.imp_left (hunt.goal w w' hrely)

theorem Pending.call (h : Pending Goal e b n w) (hunt : Hunt Rely Goal e n) {op : FileOp}
    (hop : op.OnlyRemoves) : Pending Goal e b n (w.answer op).2 := by
  refine ⟨h.log.trans (w.length_log_le_answer op), by rw [World.answer_script]; exact h.script,
    w.dirs_subset_answer op h.root, h.shards.answer op, ?_⟩
  rcases h.header with hgoal | hread
  · exact Or.inl (hunt.call w op hop hgoal)
  by_cases htouches : op.Touches e.headerPath
  · -- Only a removal touches the header.
    rcases (keepsNames_of_onlyRemoves hop).header htouches with ⟨src, rfl⟩ | rfl
    · exact hop.elim
    · exact Or.inl (hunt.gone w b h.log h.script hread)
  · rw [w.read_answer_of_not_touches htouches]
    exact Or.inr hread

/-- A program that only reads and removes does not get in the way of the walk. -/
theorem Hunt.keeps (hunt : Hunt Rely Goal e n) {p : FileProg α} (hp : OnlyRemoves p)
    (hw : Pending Goal e b n w) :
    AmongOthers Rely p w fun _ w' => Pending Goal e b n w' ∧ (Goal w → Goal w') := by
  induction p generalizing w with
  | done a => exact ⟨hw, id⟩
  | call op next ih =>
      refine ⟨trivial, ?_⟩
      rintro x w₂ ⟨w₁, hrely, hcall⟩
      have hw₁ := hw.rely hunt hrely
      have hw₂ : w₂ = (w₁.answer op).2 := by rw [hcall]
      subst hw₂
      refine (ih x (hp.2 x) (hw₁.call hunt hp.1)).mono fun _ w' h => ⟨h.1, fun hgoal => h.2 ?_⟩
      exact hunt.call w₁ op hp.1 (hunt.goal w w₁ hrely hgoal)

/-- It stays where `Goal` is. -/
theorem Hunt.stays (hunt : Hunt Rely Goal e n) {p : FileProg α} (hp : OnlyRemoves p)
    (hw : Pending Goal e b n w) (hgoal : Goal w) :
    AmongOthers Rely p w fun _ w' => Pending Goal e b n w' ∧ Goal w' :=
  (hunt.keeps hp hw).mono fun _ _ h => ⟨h.1, h.2 hgoal⟩

/-- The next call finds the header as it was, or `Goal` is reached. -/
theorem Hunt.call_cases (hunt : Hunt Rely Goal e n) {op : FileOp} {next : Ans op → FileProg β}
    {Q : β → World → Prop} (hp : OnlyRemoves (.call op next)) (hw : Pending Goal e b n w)
    (hgoal : ∀ a w', Pending Goal e b n w' → Goal w' → Q a w')
    (hfound : ∀ w₁, Pending Goal e b n w₁ → w₁.fs.read e.headerPath = some b →
      AmongOthers Rely (next (w₁.answer op).1) (w₁.answer op).2 Q) :
    AmongOthers Rely (.call op next) w Q := by
  refine ⟨trivial, ?_⟩
  rintro x w₂ ⟨w₁, hrely, hcall⟩
  have hw₁ := hw.rely hunt hrely
  rcases hw₁.header with hreached | hread
  · have hw₂ : w₂ = (w₁.answer op).2 := by rw [hcall]
    subst hw₂
    exact (hunt.stays (hp.2 x) (hw₁.call hunt hp.1) (hunt.call w₁ op hp.1 hreached)).mono
      fun a w' h => hgoal a w' h.1 h.2
  · have h := hfound w₁ hw₁ hread
    rw [hcall] at h
    exact h

theorem Hunt.call_reaches (hunt : Hunt Rely Goal e n) {op : FileOp} {next : Ans op → FileProg β}
    (hp : OnlyRemoves (.call op next)) (hw : Pending Goal e b n w)
    (hfound : ∀ w₁, Pending Goal e b n w₁ → w₁.fs.read e.headerPath = some b →
      AmongOthers Rely (next (w₁.answer op).1) (w₁.answer op).2
        fun _ w' => Pending Goal e b n w' ∧ Goal w') :
    AmongOthers Rely (.call op next) w fun _ w' => Pending Goal e b n w' ∧ Goal w' :=
  hunt.call_cases hp hw (fun _ _ hpending hgoal => ⟨hpending, hgoal⟩) hfound

/-- What comes first may not get in the way. -/
theorem Hunt.bind_reaches (hunt : Hunt Rely Goal e n) {p : FileProg α} {f : α → FileProg β}
    (hp : OnlyRemoves p) (hw : Pending Goal e b n w)
    (hf : ∀ a w', Pending Goal e b n w' →
      AmongOthers Rely (f a) w' fun _ w'' => Pending Goal e b n w'' ∧ Goal w'') :
    AmongOthers Rely (p >>= f) w fun _ w' => Pending Goal e b n w' ∧ Goal w' :=
  Prog.always_bind.mpr ((hunt.keeps hp hw).mono fun a w' h => hf a w' h.1)

/-- Removing the body and then the header reaches `Goal`, whatever follows. -/
theorem Hunt.delete_reaches (hunt : Hunt Rely Goal e n) {f : Bool → Bool → FileProg β}
    (hf : ∀ x y, OnlyRemoves (f x y)) (hw : Pending Goal e b n w) :
    AmongOthers Rely (remove (bodyPathOf e.headerPath) >>= fun x =>
      remove e.headerPath >>= fun y => f x y) w fun _ w' => Pending Goal e b n w' ∧ Goal w' := by
  refine hunt.bind_reaches (Prog.uses_perform trivial) hw fun x w₁ hw₁ => ?_
  refine hunt.call_reaches ⟨trivial, hf x⟩ hw₁ fun w₂ hw₂ hread => ?_
  exact hunt.stays (hf x _) (hw₂.call hunt trivial) (hunt.gone w₂ b hw₂.log hw₂.script hread)

/-! ### Reading the header that is still there -/

theorem Pending.answer_query (h : Pending Goal e b n w) (op : FileOp) (hop : op.OnlyRemoves)
    {γ : Type} (a : Option γ) : (w.query op a).1 = a := by
  unfold World.query World.outcome
  rw [h.script _ op hop]
  rfl

/-- A call whose answer the header decides. -/
theorem Hunt.query_reaches (hunt : Hunt Rely Goal e n) {op : FileOp} {next : Ans op → FileProg β}
    {x : Ans op} (huses : OnlyRemoves (.call op next)) (hw : Pending Goal e b n w)
    (hanswer : ∀ w₁, Pending Goal e b n w₁ → w₁.fs.read e.headerPath = some b →
      (w₁.answer op).1 = x)
    (hnext : OnlyRemoves (next x) → ∀ w₁, Pending Goal e b n w₁ →
      AmongOthers Rely (next x) w₁ fun _ w' => Pending Goal e b n w' ∧ Goal w') :
    AmongOthers Rely (.call op next) w fun _ w' => Pending Goal e b n w' ∧ Goal w' := by
  refine hunt.call_reaches huses hw fun w₁ hw₁ hread => ?_
  rw [hanswer w₁ hw₁ hread]
  exact hnext (huses.2 x) _ (hw₁.call hunt huses.1)

/-- Reading the metadata finds what the header says. -/
theorem Hunt.readMeta_reaches (hunt : Hunt Rely Goal e n) {found : CacherEntryMeta × CString}
    (hmeta : readMetaText (ofBytes b) = some found)
    {f : Option (CacherEntryMeta × CString) → FileProg β}
    (huses : OnlyRemoves (cacherCacheReadMeta e.headerPath >>= f)) (hw : Pending Goal e b n w)
    (hfound : ∀ w', Pending Goal e b n w' →
      AmongOthers Rely (f (some found)) w' fun _ w'' => Pending Goal e b n w'' ∧ Goal w'') :
    AmongOthers Rely (cacherCacheReadMeta e.headerPath >>= f) w
      fun _ w' => Pending Goal e b n w' ∧ Goal w' := by
  have hnonempty : b.length ≠ 0 := by
    intro hlen
    rw [List.length_eq_zero_iff.mp hlen] at hmeta
    cases hmeta
  -- Each of the three calls is answered with what is in the header.
  refine hunt.query_reaches (x := some b) huses hw (fun w₁ hw₁ hread =>
    (hw₁.answer_query (.openRead e.headerPath) trivial _).trans hread) fun huses₁ w₁ hw₁ => ?_
  refine hunt.query_reaches (x := some b.length) huses₁ hw₁ (fun w₂ hw₂ _ =>
    hw₂.answer_query (.infoSize b) trivial _) fun huses₂ w₂ hw₂ => ?_
  have hif : ∀ p q : FileProg (Option (CacherEntryMeta × CString)),
      (if b.length = 0 then p else q) = q := fun p q => if_neg hnonempty
  change AmongOthers Rely ((if b.length = 0 then _ else _) >>= f) _ _
  change OnlyRemoves ((if b.length = 0 then _ else _) >>= f) at huses₂
  rw [hif] at huses₂ ⊢
  refine hunt.query_reaches (x := some b) huses₂ hw₂ (fun w₃ hw₃ _ =>
    (hw₃.answer_query (.readFull b b.length) trivial _).trans (by simp)) fun _ w₃ hw₃ => ?_
  have h := hfound w₃ hw₃
  rw [← hmeta] at h
  exact h

/-! ### The walk of an admin request -/

/-- The request's switches select an entry with this header. -/
def SelectsHeader (ctx : AdminCtx) (hostname : Option CString) (b : Bytes) : Prop :=
  ∃ info block, readMetaText (ofBytes b) = some (info, block)
    ∧ selectsEntry ctx hostname info = true

/-- What stays of the context while it counts. -/
structure AdminCtx.SameSwitches (ctx ctx' : AdminCtx) : Prop where
  pattern : ctx'.pattern = ctx.pattern
  deleteMatches : ctx'.deleteMatches = ctx.deleteMatches

theorem returns_visitEntry (r : RequestRec) (ctx : AdminCtx) (headerPath : Path) :
    Prog.Returns (visitEntry r ctx headerPath) ctx.SameSwitches := by
  have hany : ∀ {γ δ : Type} (p : FileProg γ) {f : γ → FileProg δ} {Q : δ → Prop},
      (∀ x, Prog.Returns (f x) Q) → Prog.Returns (p >>= f) Q := by
    intro γ δ p f Q hf
    refine Prog.always_bind.mpr ((Prog.Uses.always ?_ ()).mono fun a s _ => hf a)
    exact Prog.uses_of_forall (fun _ => trivial) p
  refine hany _ fun found => ?_
  cases found with
  | none => exact ⟨rfl, rfl⟩
  | some found =>
      show Prog.Returns (if _ then _ else _) _
      split
      · refine hany _ fun size => ?_
        have hend : ∀ row : CString, Prog.Returns (do
            if ctx.deleteMatches then deleteEntry headerPath
            pure { ctx with
              matched := ctx.matched + 1
              bytes := ctx.bytes + size
              output := ctx.output ++ row } : FileProg AdminCtx) ctx.SameSwitches := by
          intro row
          show Prog.Returns (if _ then _ else _) _
          split
          · exact hany _ fun _ => ⟨rfl, rfl⟩
          · exact ⟨rfl, rfl⟩
        show Prog.Returns (if _ then _ else _) _
        split
        · exact hany _ fun _ => hany _ fun _ => hend _
        · exact hend []
      · exact ⟨rfl, rfl⟩

/-- A visit deletes the entry that it selects. -/
theorem Hunt.visitEntry_reaches (hunt : Hunt Rely Goal e n) {r : RequestRec} {ctx : AdminCtx}
    (hdelete : ctx.deleteMatches = true) (hselect : SelectsHeader ctx r.hostname b)
    (hw : Pending Goal e b n w) :
    AmongOthers Rely (visitEntry r ctx e.headerPath) w fun _ w' => Pending Goal e b n w' ∧ Goal w' := by
  obtain ⟨info, block, hmeta, hselect⟩ := hselect
  have hsize : OnlyRemoves (bodySize e.headerPath) :=
    Prog.uses_bind (Prog.uses_perform trivial) fun _ => Prog.uses_pure _ _
  -- What follows the row.
  have hend : ∀ (ctx' : AdminCtx) w, Pending Goal e b n w →
      AmongOthers Rely (do
        if ctx.deleteMatches then deleteEntry e.headerPath
        pure ctx') w fun _ w' => Pending Goal e b n w' ∧ Goal w' := by
    intro ctx' w hw
    show AmongOthers Rely (if _ then _ else _) _ _
    rw [if_pos hdelete, deleteEntry, bind_assoc]
    exact hunt.delete_reaches (fun _ _ => Prog.uses_pure _ _) hw
  refine hunt.readMeta_reaches hmeta (onlyRemoves_visitEntry r ctx e.headerPath) hw fun w₁ hw₁ => ?_
  show AmongOthers Rely (if selectsEntry ctx r.hostname info then _ else _) _ _
  rw [if_pos hselect]
  refine hunt.bind_reaches hsize hw₁ fun size w₂ hw₂ => ?_
  show AmongOthers Rely (if ctx.printRows then _ else _) _ _
  cases ctx.printRows with
  | true =>
      exact hunt.bind_reaches (Prog.uses_perform trivial) hw₂ fun now w₃ hw₃ =>
        hunt.bind_reaches hsize hw₃ fun size w₄ hw₄ => hend _ w₄ hw₄
  | false => exact hend _ w₂ hw₂

/-- One turn of the loop of `walk_cache`. -/
def walkEntry (r : RequestRec) (depth : Nat) (dir : Path) (ctx : AdminCtx)
    (entry : CString × Bool) : FileProg AdminCtx :=
  if entry.1.head? = some (chr '.') then pure ctx
  else if entry.2 then walkCache r depth ctx (dir ++ chr '/' :: entry.1)
  else if isHeaderName entry.1 then visitEntry r ctx (dir ++ chr '/' :: entry.1)
  else pure ctx

theorem onlyRemoves_walkEntry (r : RequestRec) (depth : Nat) (dir : Path) (ctx : AdminCtx)
    (entry : CString × Bool) : OnlyRemoves (walkEntry r depth dir ctx entry) := by
  unfold walkEntry
  split
  · exact Prog.uses_pure _ _
  split
  · exact onlyRemoves_walkCache r depth ctx _
  split
  · exact onlyRemoves_visitEntry r ctx _
  · exact Prog.uses_pure _ _

theorem AdminCtx.SameSwitches.trans {c₁ c₂ c₃ : AdminCtx} (h₁ : c₁.SameSwitches c₂)
    (h₂ : c₂.SameSwitches c₃) : c₁.SameSwitches c₃ :=
  ⟨h₂.pattern.trans h₁.pattern, h₂.deleteMatches.trans h₁.deleteMatches⟩

theorem returns_walkCache (r : RequestRec) (depth : Nat) (ctx : AdminCtx) (dir : Path) :
    Prog.Returns (walkCache r depth ctx dir) ctx.SameSwitches := by
  induction depth generalizing ctx dir with
  | zero => exact ⟨rfl, rfl⟩
  | succ depth ih =>
      refine Prog.always_bind.mpr ⟨trivial, fun entries _ _ => ?_⟩
      cases entries with
      | none => exact ⟨rfl, rfl⟩
      | some entries =>
          refine Prog.always_foldlM (I := fun _ ctx' _ => ctx.SameSwitches ctx') ⟨rfl, rfl⟩
            fun _ entry ctx' _ hctx _ => ?_
          split
          · exact hctx
          split
          · exact (ih ctx' _).mono fun _ _ h => hctx.trans h
          split
          · exact (returns_visitEntry r ctx' _).mono fun _ _ h => hctx.trans h
          · exact hctx

theorem returns_walkEntry (r : RequestRec) (depth : Nat) (dir : Path) (ctx : AdminCtx)
    (entry : CString × Bool) : Prog.Returns (walkEntry r depth dir ctx entry) ctx.SameSwitches := by
  unfold walkEntry
  split
  · exact ⟨rfl, rfl⟩
  split
  · exact returns_walkCache r depth ctx _
  split
  · exact returns_visitEntry r ctx _
  · exact ⟨rfl, rfl⟩

/-- A directory in which one turn of the walk reaches `Goal`. -/
theorem Hunt.walkDir_reaches (hunt : Hunt Rely Goal e n) {r : RequestRec} {depth : Nat}
    {ctx : AdminCtx} {dir : Path} {x : CString × Bool}
    (hdir : ∀ w, Pending Goal e b n w → dir ∈ w.fs.dirs)
    (hx : ∀ w, Pending Goal e b n w → w.fs.read e.headerPath = some b → x ∈ w.fs.entries dir)
    (hturn : ∀ ctx' w, ctx.SameSwitches ctx' → Pending Goal e b n w →
      AmongOthers Rely (walkEntry r depth dir ctx' x) w fun _ w' => Pending Goal e b n w' ∧ Goal w')
    (hw : Pending Goal e b n w) :
    AmongOthers Rely (walkCache r (depth + 1) ctx dir) w
      fun _ w' => Pending Goal e b n w' ∧ Goal w' := by
  refine hunt.call_reaches (onlyRemoves_walkCache r (depth + 1) ctx dir) hw fun w₁ hw₁ hread => ?_
  have hlist : (w₁.answer (.dirRead dir)).1 = some (w₁.fs.entries dir) :=
    (hw₁.answer_query (.dirRead dir) trivial _).trans (if_pos (hdir w₁ hw₁))
  rw [hlist]
  refine (Prog.always_foldlM_reaches (R := fun _ w' => Goal w')
    (I := fun ctx' w' => ctx.SameSwitches ctx' ∧ Pending Goal e b n w') (hx w₁ hw₁ hread)
    ⟨⟨rfl, rfl⟩, hw₁.call hunt (show FileOp.OnlyRemoves (.dirRead dir) from trivial)⟩
    (fun ctx' w' hpre => ?_) fun y _ ctx' w' hpre => ?_).mono
      fun _ _ h => ⟨h.1.2, h.2⟩
  · exact ((hturn ctx' w' hpre.1 hpre.2).and_returns (returns_walkEntry r depth dir ctx' x)).mono
      fun _ _ h => ⟨⟨hpre.1.trans h.1, h.2.1⟩, h.2.2⟩
  · exact ((hunt.keeps (onlyRemoves_walkEntry r depth dir ctx' y) hpre.2).and_returns
      (returns_walkEntry r depth dir ctx' y)).mono fun _ _ h => ⟨⟨hpre.1.trans h.1, h.2.1⟩, h.2.2⟩

theorem SelectsHeader.same {ctx ctx' : AdminCtx} {hostname : Option CString}
    (h : SelectsHeader ctx hostname b) (hctx : ctx.SameSwitches ctx') :
    SelectsHeader ctx' hostname b := by
  obtain ⟨info, block, hmeta, hselect⟩ := h
  refine ⟨info, block, hmeta, ?_⟩
  rw [← hselect]
  unfold selectsEntry
  rw [hctx.pattern]

/-- A name that starts with a digit is not hidden. -/
theorem head?_ne_dot {name : CString} (h : ∀ c ∈ name.head?, c ∈ lit "0123456789abcdef") :
    name.head? ≠ some (chr '.') := by
  intro hdot
  exact absurd (h (chr '.') (by rw [hdot]; rfl)) (by decide)

/-- A walk from the cache root deletes the entry that it selects. -/
theorem Hunt.walkCache_reaches (hunt : Hunt Rely Goal e n) {r : RequestRec} {ctx : AdminCtx}
    (hdelete : ctx.deleteMatches = true) (hselect : SelectsHeader ctx r.hostname b)
    {depth : Nat} (hdepth : 3 ≤ depth) (hw : Pending Goal e b n w) :
    AmongOthers Rely (walkCache r depth ctx e.cacheRoot) w
      fun _ w' => Pending Goal e b n w' ∧ Goal w' := by
  obtain ⟨m, rfl⟩ : ∃ m, depth = m + 3 := ⟨depth - 3, by omega⟩
  have hhex : ∀ {l : CString}, l <:+: hexEncodeMd5 e.digest → l.head? ≠ some (chr '.') :=
    fun hl => head?_ne_dot fun c hc =>
      EntryPaths.mem_hexEncodeMd5 (hl.subset (List.mem_of_mem_head? hc))
  have hlen := EntryPaths.length_hexEncodeMd5 e.digest
  have houter : (hexEncodeMd5 e.digest).take 2 <:+: hexEncodeMd5 e.digest :=
    (List.take_prefix _ _).isInfix
  have hinner : ((hexEncodeMd5 e.digest).drop 2).take 2 <:+: hexEncodeMd5 e.digest :=
    (List.take_prefix _ _).isInfix.trans (List.drop_suffix _ _).isInfix
  -- The header, in the directory of the entry.
  have hshard : ∀ ctx' w, ctx.SameSwitches ctx' → Pending Goal e b n w →
      AmongOthers Rely (walkCache r (m + 1) ctx' e.shard) w
        fun _ w' => Pending Goal e b n w' ∧ Goal w' := by
    intro ctx' w hctx hw
    refine hunt.walkDir_reaches (x := (FileSystem.basename e.headerPath, false))
      (fun w hw => hw.shards.inner) (fun w hw hread => ?_) (fun ctx'' w hctx' hw => ?_) hw
    · exact FileSystem.mem_entries_file.mpr ⟨_, b, hread, e.dirname_headerPath, rfl⟩
    · have hhidden : (FileSystem.basename e.headerPath).head? ≠ some (chr '.') := by
        rw [e.basename_headerPath, List.head?_append_of_ne_nil]
        · exact hhex List.infix_rfl
        · exact List.ne_nil_of_length_pos (by omega)
      unfold walkEntry
      rw [if_neg hhidden, if_neg Bool.false_ne_true, if_pos (isHeaderName_headerPath e),
        e.shard_append_basename]
      exact hunt.visitEntry_reaches ((hctx.trans hctx').deleteMatches.trans hdelete)
        (hselect.same (hctx.trans hctx')) hw
  -- The two directories above it.
  have hlevel : ∀ {dir : Path} {name : CString} {m : Nat}, chr '/' ∉ name →
      name.head? ≠ some (chr '.') → (∀ w, Pending Goal e b n w → dir ∈ w.fs.dirs) →
      (∀ w, Pending Goal e b n w → dir ++ chr '/' :: name ∈ w.fs.dirs) →
      (∀ ctx' w, ctx.SameSwitches ctx' → Pending Goal e b n w →
        AmongOthers Rely (walkCache r m ctx' (dir ++ chr '/' :: name)) w
          fun _ w' => Pending Goal e b n w' ∧ Goal w') →
      ∀ ctx' w, ctx.SameSwitches ctx' → Pending Goal e b n w →
        AmongOthers Rely (walkCache r (m + 1) ctx' dir) w
          fun _ w' => Pending Goal e b n w' ∧ Goal w' := by
    intro dir name m hslash hhidden hdir hsub hreaches ctx' w hctx hw
    refine hunt.walkDir_reaches (x := (name, true)) hdir (fun w hw _ => ?_)
      (fun ctx'' w hctx' hw => ?_) hw
    · exact FileSystem.mem_entries_dir.mpr ⟨_, hsub w hw, FileSystem.dirname_append dir hslash,
        FileSystem.basename_append dir hslash⟩
    · unfold walkEntry
      rw [if_neg hhidden, if_pos rfl]
      exact hreaches ctx'' w (hctx.trans hctx') hw
  exact hlevel e.slash_notMem_outerName (hhex houter) (fun w hw => hw.root) (fun w hw => hw.shards.outer)
    (hlevel e.slash_notMem_innerName (hhex hinner) (fun w hw => hw.shards.outer)
      (fun w hw => hw.shards.inner) hshard) ctx w ⟨rfl, rfl⟩ hw

/-! ### The walk of the command line tool -/

namespace Tool

variable {py : Python} {args : PurgeArgs}

/-- `cacher purge` selects an entry with this header. -/
def SelectsHeader (py : Python) (args : PurgeArgs) (b : Bytes) : Prop :=
  ∃ entry, loadText py ((py.decode b).take 4096) = .entry entry ∧ selects py args entry = true

/-- The tool has failed, or `Goal` is reached. -/
def Through (Goal : World → Prop) (st : PurgeState) (w : World) : Prop :=
  st.raised = true ∨ Goal w

theorem purgeEntry_reaches (hunt : Hunt Rely Goal e n) (hwet : args.dryRun = false)
    (hselect : SelectsHeader py args b) (st : PurgeState) (hw : Pending Goal e b n w) :
    AmongOthers Rely (purgeEntry py args st e.headerPath) w
      fun _ w' => Pending Goal e b n w' ∧ Goal w' := by
  obtain ⟨entry, hload, hselect⟩ := hselect
  have huses := onlyRemoves_purgeEntry py args st e.headerPath
  refine hunt.query_reaches (x := some b) huses hw (fun w₁ hw₁ hread =>
    (hw₁.answer_query (.openRead e.headerPath) trivial _).trans hread) fun huses₁ w₁ hw₁ => ?_
  refine hunt.query_reaches (x := some b) huses₁ hw₁ (fun w₂ hw₂ _ =>
    (hw₂.answer_query (.readFull b b.length) trivial _).trans (by simp)) fun _ w₃ hw₂ => ?_
  simp only [Prog.bind, hload]
  change AmongOthers Rely ((pure (Loaded.entry entry) : FileProg Loaded) >>= _) w₃ _
  rw [pure_bind]
  dsimp only
  rw [if_pos hselect, hwet, if_neg Bool.false_ne_true, delete, bind_assoc]
  simp only [bind_assoc]
  refine hunt.delete_reaches (fun x y => ?_) hw₂
  rw [pure_bind]
  split
  · exact Prog.uses_pure _ _
  · exact Prog.uses_pure _ _

/-! A tool that has failed does nothing any more. -/

/-- The loops leave out what comes after a failure. -/
def StopsRaised {γ : Type} (f : PurgeState → γ → FileProg PurgeState) : Prop :=
  ∀ st x, st.raised = true → f st x = pure st

theorem StopsRaised.returns {γ : Type} {f : PurgeState → γ → FileProg PurgeState}
    (hf : StopsRaised f) (st : PurgeState) (x : γ) :
    Prog.Returns (f st x) fun st' => st.raised = true → st'.raised = true := by
  cases hraised : st.raised with
  | true =>
      rw [hf st x hraised]
      exact fun _ => hraised
  | false =>
      refine (Prog.Uses.always (Prog.uses_of_forall (fun _ => trivial) _) ()).mono fun _ _ _ h => ?_
      cases h

theorem stopsRaised_purgeName (py : Python) (args : PurgeArgs) (dir : Path) :
    StopsRaised (purgeName py args dir) := by
  intro st name hraised
  rw [purgeName, if_pos hraised]

theorem stopsRaised_walk (py : Python) (args : PurgeArgs) (depth : Nat) :
    StopsRaised (walk py args depth) := by
  intro st dir hraised
  cases depth with
  | zero => rfl
  | succ depth => rw [walk, if_pos hraised]

section Loops

variable {γ : Type} {f : PurgeState → γ → FileProg PurgeState}

/-- A turn stays through. -/
theorem turn_keeps (hunt : Hunt Rely Goal e n) (hf : StopsRaised f) {st : PurgeState} {x : γ}
    (hremoves : OnlyRemoves (f st x)) (hw : Pending Goal e b n w) :
    AmongOthers Rely (f st x) w fun st' w' =>
      Pending Goal e b n w' ∧ (Through Goal st w → Through Goal st' w') :=
  ((hunt.keeps hremoves hw).and_returns (hf.returns st x)).mono fun _ _ h =>
    ⟨h.2.1, Or.imp h.1 h.2.2⟩

theorem loop_keeps (hunt : Hunt Rely Goal e n) (hf : StopsRaised f)
    (hremoves : ∀ st x, OnlyRemoves (f st x)) {l : List γ} {st : PurgeState}
    (hw : Pending Goal e b n w) :
    AmongOthers Rely (l.foldlM f st) w fun st' w' =>
      Pending Goal e b n w' ∧ (Through Goal st w → Through Goal st' w') :=
  Prog.always_foldlM (I := fun _ st' w' =>
      Pending Goal e b n w' ∧ (Through Goal st w → Through Goal st' w')) ⟨hw, id⟩
    fun _ x st' _ h _ => (turn_keeps hunt hf (hremoves st' x) h.1).mono fun _ _ h' =>
      ⟨h'.1, fun hthrough => h'.2 (h.2 hthrough)⟩

theorem loop_reaches (hunt : Hunt Rely Goal e n) (hf : StopsRaised f)
    (hremoves : ∀ st x, OnlyRemoves (f st x)) {l : List γ} {x : γ} (hx : x ∈ l)
    (hturn : ∀ st w, Pending Goal e b n w →
      AmongOthers Rely (f st x) w fun st' w' => Pending Goal e b n w' ∧ Through Goal st' w')
    {st : PurgeState} (hw : Pending Goal e b n w) :
    AmongOthers Rely (l.foldlM f st) w fun st' w' => Pending Goal e b n w' ∧ Through Goal st' w' :=
  Prog.always_foldlM_reaches (I := fun _ w' => Pending Goal e b n w') (R := Through Goal) hx hw
    hturn fun y _ st' _ hw' => turn_keeps hunt hf (hremoves st' y) hw'

end Loops

theorem onlyRemoves_purgeName (py : Python) (args : PurgeArgs) (dir : Path) (st : PurgeState)
    (name : CString) : OnlyRemoves (purgeName py args dir st name) := by
  unfold purgeName
  split
  · exact Prog.uses_pure _ _
  split
  · exact onlyRemoves_purgeEntry py args st _
  · exact Prog.uses_pure _ _

/-- A directory in which one turn of one of the two loops comes through. -/
theorem walkDir_reaches (hunt : Hunt Rely Goal e n) {depth : Nat} {dir : Path} {x : CString × Bool}
    (hdir : ∀ w, Pending Goal e b n w → dir ∈ w.fs.dirs)
    (hx : ∀ w, Pending Goal e b n w → w.fs.read e.headerPath = some b → x ∈ w.fs.entries dir)
    (hturn : ∀ st w, Pending Goal e b n w →
      AmongOthers Rely (if x.2 then walk py args depth st (dir ++ chr '/' :: x.1)
        else purgeName py args dir st x.1) w
        fun st' w' => Pending Goal e b n w' ∧ Through Goal st' w')
    (st : PurgeState) (hw : Pending Goal e b n w) :
    AmongOthers Rely (walk py args (depth + 1) st dir) w
      fun st' w' => Pending Goal e b n w' ∧ Through Goal st' w' := by
  have huses := onlyRemoves_walk py args (depth + 1) st dir
  rw [walk] at huses ⊢
  by_cases hraised : st.raised = true
  · rw [if_pos hraised]
    exact ⟨hw, Or.inl hraised⟩
  rw [if_neg hraised] at huses ⊢
  refine hunt.call_cases huses hw (fun _ _ hpending hgoal => ⟨hpending, Or.inr hgoal⟩)
    fun w₁ hw₁ hread => ?_
  rw [show (w₁.answer (.dirRead dir)).1 = some (w₁.fs.entries dir) from
    (hw₁.answer_query (.dirRead dir) trivial _).trans (if_pos (hdir w₁ hw₁))]
  have hlisted := hx w₁ hw₁ hread
  replace hw₁ := hw₁.call hunt (show FileOp.OnlyRemoves (.dirRead dir) from trivial)
  generalize (w₁.answer (.dirRead dir)).2 = w₂ at hw₁ ⊢
  show AmongOthers Rely (List.foldlM (purgeName py args dir) st _ >>= _) w₂ _
  refine Prog.always_bind.mpr ?_
  have hsubs : StopsRaised fun st name => walk py args depth st (dir ++ chr '/' :: name) :=
    fun st name => stopsRaised_walk py args depth st _
  obtain ⟨name, isDir⟩ := x
  cases isDir with
  | false =>
      -- The header is among the files, and the directories come after them.
      refine (loop_reaches hunt (stopsRaised_purgeName py args dir)
        (onlyRemoves_purgeName py args dir) ?_ hturn hw₁).mono fun st' w' h => ?_
      · exact List.mem_map.mpr ⟨_, List.mem_filter.mpr ⟨hlisted, rfl⟩, rfl⟩
      · exact (loop_keeps hunt hsubs (fun st name => onlyRemoves_walk py args depth st _) h.1).mono
          fun _ _ h' => ⟨h'.1, h'.2 h.2⟩
  | true =>
      refine (loop_keeps hunt (stopsRaised_purgeName py args dir)
        (onlyRemoves_purgeName py args dir) hw₁).mono fun st' w' h => ?_
      exact loop_reaches hunt hsubs (fun st name => onlyRemoves_walk py args depth st _)
        (List.mem_map.mpr ⟨_, List.mem_filter.mpr ⟨hlisted, rfl⟩, rfl⟩) hturn h.1

/-- A walk from the cache root deletes the entry that it selects, or fails on the way. -/
theorem walk_reaches (hunt : Hunt Rely Goal e n) (hwet : args.dryRun = false)
    (hselect : SelectsHeader py args b) {depth : Nat} (hdepth : 3 ≤ depth) (st : PurgeState)
    (hw : Pending Goal e b n w) :
    AmongOthers Rely (walk py args depth st e.cacheRoot) w
      fun st' w' => Pending Goal e b n w' ∧ Through Goal st' w' := by
  obtain ⟨m, rfl⟩ : ∃ m, depth = m + 3 := ⟨depth - 3, by omega⟩
  -- The header, in the directory of the entry.
  have hshard : ∀ st w, Pending Goal e b n w → AmongOthers Rely (walk py args (m + 1) st e.shard) w
      fun st' w' => Pending Goal e b n w' ∧ Through Goal st' w' := by
    intro st w hw
    refine walkDir_reaches hunt (x := (FileSystem.basename e.headerPath, false))
      (fun w hw => hw.shards.inner) (fun w hw hread => ?_) (fun st w hw => ?_) st hw
    · exact FileSystem.mem_entries_file.mpr ⟨_, b, hread, e.dirname_headerPath, rfl⟩
    · have hsuffix : lit ".header" <:+ FileSystem.basename e.headerPath := by
        rw [e.basename_headerPath]
        exact List.suffix_append _ _
      rw [if_neg Bool.false_ne_true, purgeName]
      by_cases hraised : st.raised = true
      · rw [if_pos hraised]
        exact ⟨hw, Or.inl hraised⟩
      · rw [if_neg hraised, if_pos hsuffix, e.shard_append_basename]
        exact (purgeEntry_reaches hunt hwet hselect st hw).mono fun _ _ h => ⟨h.1, Or.inr h.2⟩
  -- The two directories above it.
  have hlevel : ∀ {dir : Path} {name : CString} {m : Nat}, chr '/' ∉ name →
      (∀ w, Pending Goal e b n w → dir ∈ w.fs.dirs) →
      (∀ w, Pending Goal e b n w → dir ++ chr '/' :: name ∈ w.fs.dirs) →
      (∀ st w, Pending Goal e b n w →
        AmongOthers Rely (walk py args m st (dir ++ chr '/' :: name)) w
          fun st' w' => Pending Goal e b n w' ∧ Through Goal st' w') →
      ∀ st w, Pending Goal e b n w → AmongOthers Rely (walk py args (m + 1) st dir) w
        fun st' w' => Pending Goal e b n w' ∧ Through Goal st' w' := by
    intro dir name m hname hdir hsub hreaches st w hw
    refine walkDir_reaches hunt (x := (name, true)) hdir (fun w hw _ => ?_) hreaches st hw
    exact FileSystem.mem_entries_dir.mpr ⟨_, hsub w hw, FileSystem.dirname_append dir hname,
      FileSystem.basename_append dir hname⟩
  exact hlevel e.slash_notMem_outerName (fun w hw => hw.root) (fun w hw => hw.shards.outer)
    (hlevel e.slash_notMem_innerName (fun w hw => hw.shards.outer) (fun w hw => hw.shards.inner)
      hshard) st w hw

/-- The tool deletes the entry that it selects, or an exception ends it. -/
theorem cmdPurge_reaches (hunt : Hunt Rely Goal e n) (hroot : args.root = e.cacheRoot)
    (hwet : args.dryRun = false) (hselect : SelectsHeader py args b) {depth : Nat}
    (hdepth : 3 ≤ depth) (hw : Pending Goal e b n w) :
    AmongOthers Rely (cmdPurge py depth args) w
      fun ending w' => ending.raised = true ∨ Goal w' := by
  refine hunt.call_cases (onlyRemoves_cmdPurge py depth args) hw
    (fun _ _ _ hgoal => Or.inr hgoal) fun w₁ hw₁ _ => ?_
  rw [show (w₁.answer (.dirRead args.root)).1 = some (w₁.fs.entries args.root) from
    (hw₁.answer_query (.dirRead args.root) trivial _).trans (if_pos (by rw [hroot]; exact hw₁.root))]
  replace hw₁ := hw₁.call hunt (show FileOp.OnlyRemoves (.dirRead args.root) from trivial)
  show AmongOthers Rely (walk py args depth _ args.root >>= _) _ _
  refine Prog.always_bind.mpr ?_
  rw [hroot] at hw₁ ⊢
  refine (walk_reaches hunt hwet hselect hdepth _ hw₁).mono fun st w' h => ?_
  show AmongOthers Rely (if _ then _ else _) _ _
  split
  · exact Or.inl rfl
  · rename_i hraised
    have hgoal : Goal w' := h.2.resolve_left hraised
    split
    · exact Or.inr hgoal
    · exact Or.inr hgoal

end Tool

end Hunt

end Cacher
