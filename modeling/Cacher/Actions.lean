import Cacher.Glob
import Cacher.Purge

/-!
# `Cacher.Actions`: which admin actions remove files

The usage text documents two actions that remove files, `/full-reset` and `/purge/` with a glob.
`cacher_admin_handle` recognises `/purge` by its first six characters and hands whatever follows
to the matcher, so `/purge*` purges too. `deletesOnlyDocumented_iff` says which actions are like
that. All others leave the cache as it is, because their walk deletes nothing or selects nothing
(`walkCache_idle`).
-/

set_option autoImplicit false

namespace Cacher

open CText Files

/-- The actions that the usage text offers for removing entries. -/
def DocumentedDeletion (action : CString) : Prop :=
  action = lit "/full-reset" ∨ ∃ glob, glob ≠ [] ∧ action = lit "/purge/" ++ glob

/-- The program removes a file. -/
def RemovesAFile {α : Type} (p : FileProg α) (w : World) : Prop :=
  ∃ q, (w.fs.read q).isSome = true ∧ (run p w).2.fs.read q = none

/-- Over every cache and for every requesting host, the action removes files only if it is
documented to. -/
def DeletesOnlyDocumented (action : CString) : Prop :=
  ∀ depth r cacheRoot w, RemovesAFile (cacherAdminHandle depth r cacheRoot action) w →
    DocumentedDeletion action

/-- The action continues `/purge` with something other than a `/`, and without a newline. -/
def LoosePurge (action : CString) : Prop :=
  ∃ pattern, action = lit "/purge" ++ pattern ∧ pattern ≠ [] ∧ pattern.head? ≠ some (chr '/')
    ∧ chr '\n' ∉ pattern

/-! ### Walks that leave everything as it is -/

section Idle

variable {ctx : AdminCtx} {r : RequestRec}

/-- The switches of the walk delete nothing, or select nothing. -/
def AdminCtx.Idle (ctx : AdminCtx) (hostname : Option CString) : Prop :=
  ctx.deleteMatches = false ∨ ∀ b, ¬ SelectsHeader ctx hostname b

theorem AdminCtx.Idle.same {ctx' : AdminCtx} {hostname : Option CString} (h : ctx.Idle hostname)
    (hctx : ctx.SameSwitches ctx') : ctx'.Idle hostname :=
  h.imp hctx.deleteMatches.trans fun hno b hselect =>
    hno b (hselect.same ⟨hctx.pattern.symm, hctx.deleteMatches.symm⟩)

theorem visitEntry_idle (h : ctx.Idle r.hostname) (headerPath : Path) (w : World) :
    After (visitEntry r ctx headerPath) w fun _ w' => w'.fs = w.fs := by
  have hsize : Prog.Uses FileOp.ReadOnly (bodySize headerPath) :=
    Prog.uses_bind (Prog.uses_perform trivial) fun _ => Prog.uses_pure _ _
  refine Prog.after_bind.mpr ((cacherCacheReadMeta_spec headerPath w).mono fun result w₁ h₁ => ?_)
  obtain ⟨hfs₁, -, -, hfound⟩ := h₁
  cases result with
  | none => exact Prog.after_pure.mpr hfs₁
  | some found =>
      obtain ⟨info, block⟩ := found
      obtain ⟨b, -, -, -, -, hmeta⟩ := (hfound _).mp rfl
      show After (if selectsEntry ctx r.hostname info then _ else _) _ _
      split
      · rename_i hselect
        -- It is selected, so nothing is deleted.
        have hkeep : ctx.deleteMatches = false :=
          h.resolve_right fun hno => hno b ⟨info, block, hmeta, hselect⟩
        rw [hkeep]
        refine Prog.after_bind.mpr (after_readOnly hsize fun size w₂ hfs₂ _ => ?_)
        show After (if ctx.printRows then _ else _) _ _
        split
        · refine Prog.after_bind.mpr (after_timeNow fun w₃ h₃ => ?_)
          refine Prog.after_bind.mpr (after_readOnly hsize fun size w₄ hfs₄ _ => ?_)
          refine Prog.after_pure.mpr ?_
          rw [hfs₄, h₃.fs_eq, hfs₂, hfs₁]
        · refine Prog.after_pure.mpr ?_
          rw [hfs₂, hfs₁]
      · exact Prog.after_pure.mpr hfs₁

/-- A walk that deletes nothing or selects nothing leaves the files as they are. -/
theorem walkCache_idle (h : ctx.Idle r.hostname) (depth : Nat) (dir : Path) (w : World) :
    After (walkCache r depth ctx dir) w fun _ w' => w'.fs = w.fs := by
  induction depth generalizing ctx dir w with
  | zero => exact Prog.after_pure.mpr rfl
  | succ depth ih =>
      refine Prog.after_bind.mpr (after_dirRead (fun w₁ _ h₁ => ?_) fun w₁ h₁ =>
        Prog.after_pure.mpr h₁.fs_eq)
      refine (Prog.after_foldlM (I := fun _ ctx' w' => ctx.SameSwitches ctx' ∧ w'.fs = w.fs)
        ⟨⟨rfl, rfl⟩, h₁.fs_eq⟩ fun _ entry ctx₂ w₂ h₂ _ => ?_).mono fun _ _ h => h.2
      obtain ⟨hctx, hfs⟩ := h₂
      have hidle := h.same hctx
      -- What a turn adds to the turns before it.
      have hturn : ∀ {p : FileProg AdminCtx}, Prog.Returns p ctx₂.SameSwitches →
          After p w₂ (fun _ w' => w'.fs = w₂.fs) →
          After p w₂ fun ctx' w' => ctx.SameSwitches ctx' ∧ w'.fs = w.fs := by
        intro p hreturns hp
        exact ⟨hctx.trans (hreturns.exec_result w₂), (show _ = w₂.fs from hp).trans hfs⟩
      split
      · exact Prog.after_pure.mpr ⟨hctx, hfs⟩
      split
      · exact hturn (returns_walkCache r depth ctx₂ _) (ih hidle _ w₂)
      split
      · exact hturn (returns_visitEntry r ctx₂ _) (visitEntry_idle hidle _ w₂)
      · exact Prog.after_pure.mpr ⟨hctx, hfs⟩

/-- No header has a newline in its url or its host. -/
theorem idle_of_newline {pattern : CString} (hpattern : chr '\n' ∈ pattern)
    (hostname : Option CString) : (AdminCtx.purge pattern).Idle hostname := by
  refine Or.inr fun b hselect => ?_
  obtain ⟨info, block, hmeta, hselect⟩ := hselect
  have hline := onOneLine_readMetaText hmeta
  obtain ⟨-, hmatch⟩ := Bool.and_eq_true_iff.mp hselect
  have hmem : ∀ {value : CString}, cacherGlobMatch pattern value false = true → chr '\n' ∈ value :=
    mem_of_cacherGlobMatch (by decide) (by decide) hpattern
  rcases Bool.or_eq_true_iff.mp hmatch with hurl | hhost
  · exact hline.newline_notMem_url (hmem hurl)
  · exact (List.mem_append.mp (hmem hhost)).elim hline.newline_notMem_host hline.newline_notMem_url

end Idle

/-! ### Which actions walk with which switches -/

/-- What an action does to the files. -/
inductive ActionDoes (depth : Nat) (r : RequestRec) : CString → FileProg AdminAnswer → Prop
  | answer {action : CString} (answer : AdminAnswer) : ActionDoes depth r action (pure answer)
  /-- The listing. -/
  | list {action : CString} (root : CString) {ctx : AdminCtx} (hkeep : ctx.deleteMatches = false)
      (answer : AdminCtx → AdminAnswer) :
      ActionDoes depth r action (walkCache r depth ctx root >>= fun ctx => pure (answer ctx))
  | reset (root : CString) (answer : AdminCtx → AdminAnswer) :
      ActionDoes depth r (lit "/full-reset")
        (walkCache r depth AdminCtx.reset root >>= fun ctx => pure (answer ctx))
  | purge (root : CString) {pattern : CString} (hne : pattern ≠ []) (hslash : pattern ≠ lit "/")
      (answer : AdminCtx → AdminAnswer) :
      ActionDoes depth r (lit "/purge" ++ pattern)
        (walkCache r depth (AdminCtx.purge pattern) root >>= fun ctx => pure (answer ctx))

theorem cacherAdminHandle_does (depth : Nat) (r : RequestRec) (cacheRoot : Option CString)
    (action : CString) : ActionDoes depth r action (cacherAdminHandle depth r cacheRoot action) := by
  cases cacheRoot with
  | none => exact .answer _
  | some root =>
      unfold cacherAdminHandle
      dsimp only
      split
      · exact .answer _
      split
      · exact .list root rfl _
      split
      · rename_i hreset
        rw [hreset]
        exact .reset root _
      cases hprefix : stripPrefix (lit "/purge") action with
      | none => exact .answer _
      | some pattern =>
          dsimp only
          split
          · exact .answer _
          · rename_i hpattern
            obtain ⟨hne, hslash⟩ := not_or.mp hpattern
            rw [stripPrefix_eq_some.mp hprefix]
            exact .purge root hne hslash _

theorem removesAFile_of_after {α : Type} {p : FileProg α} {w : World} {q : Path}
    (hsome : (w.fs.read q).isSome = true) (hnone : After p w fun _ w' => w'.fs.read q = none) :
    RemovesAFile p w :=
  ⟨q, hsome, hnone⟩

theorem removesAFile_bind_pure {α β : Type} (p : FileProg α) (f : α → β) (w : World) :
    RemovesAFile (p >>= fun a => pure (f a)) w ↔ RemovesAFile p w := by
  have hworld : (run (p >>= fun a => pure (f a)) w).2 = (run p w).2 := by
    rw [run, Prog.exec_bind]
    rfl
  rw [RemovesAFile, RemovesAFile, hworld]

/-- A walk that is idle removes no file. -/
theorem not_removesAFile_of_idle {r : RequestRec} {ctx : AdminCtx} (h : ctx.Idle r.hostname)
    (depth : Nat) (root : CString) (answer : AdminCtx → AdminAnswer) (w : World) :
    ¬ RemovesAFile (walkCache r depth ctx root >>= fun ctx => pure (answer ctx)) w := by
  rw [removesAFile_bind_pure]
  rintro ⟨q, hsome, hnone⟩
  have hfs : (run (walkCache r depth ctx root) w).2.fs = w.fs := walkCache_idle h depth root w
  rw [hfs] at hnone
  rw [hnone] at hsome
  cases hsome

/-! ### A purge by what follows -/

/-- A cache with one entry: the page `url` of the host `h`. -/
def World.ofUrl (url : CString) : World where
  fs := { files := [(pathsOfGetA.headerPath, toBytes (headerFileText
            ⟨100, 160, 200, lit "GET", lit "h", url⟩ []))]
          dirs := [lit "/c", pathsOfGetA.outerShard, pathsOfGetA.shard] }
  script := Script.steady 100
  log := []

/-- Every text is matched by itself, so the purge of a text removes the page of this name. -/
theorem removesAFile_purge {pattern : CString} (hne : pattern ≠ []) (hslash : pattern ≠ lit "/")
    (hline : chr '\n' ∉ pattern) :
    RemovesAFile (cacherAdminHandle 3 (RequestRec.admin (lit "/purge"))
      (some pathsOfGetA.cacheRoot) (lit "/purge" ++ pattern)) (World.ofUrl pattern) := by
  have hread : (World.ofUrl pattern).fs.read pathsOfGetA.headerPath = some (toBytes (headerFileText
      ⟨100, 160, 200, lit "GET", lit "h", pattern⟩ [])) := rfl
  have hstatus : (200 : Int32) ≠ 0 := by decide
  have hselect : SelectsHeader (AdminCtx.purge pattern) (RequestRec.admin (lit "/purge")).hostname
      (toBytes (headerFileText ⟨100, 160, 200, lit "GET", lit "h", pattern⟩ [])) := by
    refine ⟨⟨100, 160, 200, lit "GET", lit "h", pattern⟩, [], ?_, ?_⟩
    · rw [ofBytes_toBytes]
      exact (readMetaText_eq_iff isWord_get isWord_h hstatus _).mpr ⟨hne, hline⟩
    · refine Bool.and_eq_true_iff.mpr ⟨rfl, Bool.or_eq_true_iff.mpr (Or.inl ?_)⟩
      exact cacherGlobMatch_self pattern false
  have hreaches := (hunt_alone pathsOfGetA).walkCache_reaches rfl hselect (Nat.le_refl 3)
    ⟨Nat.zero_le _, fun _ _ _ => rfl, List.mem_cons_self, ⟨fun _ => List.mem_cons_self,
      by simp [World.ofUrl], by simp [World.ofUrl]⟩, Or.inr hread⟩
  obtain ⟨answer, hhandle⟩ := cacherAdminHandle_purge hne hslash 3
    (RequestRec.admin (lit "/purge")) pathsOfGetA.cacheRoot
  rw [hhandle, removesAFile_bind_pure]
  refine removesAFile_of_after (by rw [hread]; rfl)
    ((hreaches.after (by intro w; rfl)).mono fun _ _ h => h.2)

/-- An action removes files without being documented to, exactly when it is a loose purge. -/
theorem deletesOnlyDocumented_iff (action : CString) :
    DeletesOnlyDocumented action ↔ ¬ LoosePurge action := by
  constructor
  · rintro h ⟨pattern, rfl, hne, hhead, hline⟩
    have hslash : pattern ≠ lit "/" := fun hslash => hhead (by rw [hslash]; rfl)
    rcases h _ _ _ _ (removesAFile_purge hne hslash hline) with hreset | ⟨glob, -, hpurge⟩
    · have hp : (lit "/purge" ++ pattern)[1]? = some (chr 'p') := rfl
      rw [hreset] at hp
      exact absurd (Option.some.inj hp) (by decide)
    · refine hhead ?_
      have happend : lit "/purge" ++ pattern = lit "/purge" ++ chr '/' :: glob := hpurge
      rw [List.append_cancel_left happend]
      rfl
  · intro hloose depth r cacheRoot w hremoves
    have hdoes := cacherAdminHandle_does depth r cacheRoot action
    generalize cacherAdminHandle depth r cacheRoot action = p at hdoes hremoves
    cases hdoes with
    | answer =>
        obtain ⟨q, hsome, hnone⟩ := hremoves
        change w.fs.read q = none at hnone
        rw [hnone] at hsome
        cases hsome
    | list root hkeep answer =>
        exact absurd hremoves (not_removesAFile_of_idle (Or.inl hkeep) depth root answer w)
    | reset => exact Or.inl rfl
    | @purge root pattern hne hslash answer =>
        by_cases hline : chr '\n' ∈ pattern
        · exact absurd hremoves
            (not_removesAFile_of_idle (idle_of_newline hline _) depth root answer w)
        · -- What is no loose purge has its slash.
          have hhead : pattern.head? = some (chr '/') :=
            by_contra fun hhead => hloose ⟨pattern, rfl, hne, hhead, hline⟩
          obtain ⟨glob, rfl⟩ : ∃ glob, pattern = chr '/' :: glob := List.head?_eq_some_iff.mp hhead
          exact Or.inr ⟨glob, fun hnil => hslash (by rw [hnil]; rfl), rfl⟩

/-- `/purge*` wipes the cache. -/
theorem not_deletesOnlyDocumented_star : ¬ DeletesOnlyDocumented (lit "/purge*") := by
  intro h
  have hremoves : RemovesAFile (cacherAdminHandle 3 (RequestRec.admin (lit "/purge*"))
      (some (lit "/c")) (lit "/purge*")) (World.ofUrl (lit "/a")) :=
    ⟨pathsOfGetA.headerPath, by decide +kernel, by decide +kernel⟩
  rcases h _ _ _ _ hremoves with hreset | ⟨glob, -, hpurge⟩
  · exact absurd hreset (by decide)
  · have hchar : (lit "/purge/" ++ glob)[6]? = some (chr '/') := rfl
    rw [← hpurge] at hchar
    exact absurd (Option.some.inj hchar) (by decide)

end Cacher
