import Cacher.Counting
import Cacher.FullReset

/-!
# `Cacher.ToolReports`: what the command line tool reports

`cacher purge` works on the files of the cache without the module. Behind any requests, and unless
an exception ends it, it finds every page that its own tests select and no other
(`reports_cmdPurge`): it prints a line for each, and it deletes them, or nothing with `--dry-run`.
So a dry run tells what the purge will do (`cmdPurge_dryRun`). `cacher full-reset` of one host walks
in the same way, and deletes the pages of the host and no other (`reports_cmdFullReset`).
-/

set_option autoImplicit false

namespace Cacher

namespace Tool

open CText Files

/-- What `load` makes of the header of a page. -/
def pageLoaded (py : Python) (page : Page) : Loaded :=
  loadText py ((py.decode page.header).take 4096)

/-- `cacher purge` selects the page. -/
def SelectsPage (py : Python) (args : PurgeArgs) (page : Page) : Prop :=
  SelectsHeader py args page.header

/-- The line that it prints for the page. -/
def pageLine (py : Python) (args : PurgeArgs) (page : Page) : PyStr :=
  match pageLoaded py page with
  | .entry entry =>
    (if args.dryRun then "would purge " else "purged ").toList ++ entry.host ++ entry.url
  | .notLoaded | .raised => []

/-- The state after one more page. -/
def PurgeState.count (py : Python) (args : PurgeArgs) (st : PurgeState) (c : Counted Unit) :
    PurgeState :=
  { st with matched := st.matched + 1, printed := st.printed ++ [pageLine py args c.page] }

variable {py : Python} {args : PurgeArgs}

theorem foldl_count (counted : List (Counted Unit)) (st : PurgeState) :
    counted.foldl (PurgeState.count py args) st
      = ⟨st.matched + counted.length, st.printed ++ counted.map fun c => pageLine py args c.page,
        st.raised⟩ := by
  induction counted generalizing st with
  | nil => simp
  | cons c counted ih =>
      rw [List.foldl_cons, ih]
      simp only [PurgeState.count, List.length_cons, List.map_cons, List.append_assoc,
        List.singleton_append, PurgeState.mk.injEq, and_true]
      omega

section Walks

variable {root : CString} {pages : Pages} {w : World} {d : Digest} {page : Page} {st : PurgeState}

/-! ### A visit -/

theorem purgeEntry_absent (hok : w.script.AllOk) {p : Path} (hread : w.fs.read p = none) :
    After (purgeEntry py args st p) w fun st' w' => st' = st ∧ w'.fs = w.fs := by
  unfold purgeEntry
  refine Prog.after_bind.mpr ((load_spec py hok p).mono fun loaded w₁ h₁ => ?_)
  obtain ⟨rfl, hfs⟩ := h₁
  rw [loadIn, hread]
  exact Prog.after_pure.mpr ⟨rfl, hfs⟩

theorem delete_goneIf {e : EntryPaths} (hok : w.script.AllOk)
    (hbody : (w.fs.read e.bodyPath).isSome = true) :
    After (delete e.headerPath) w fun deleted w' => deleted = true
      ∧ GoneIf true e w.fs w'.fs := by
  refine (delete_spec hok e.headerPath).mono fun deleted w' h => ?_
  obtain ⟨rfl, hread⟩ := h
  rw [deleteIn, bodyPathOf_headerPath] at hread ⊢
  refine ⟨by simp [hbody], goneIf_true fun q => ?_⟩
  rw [hread, FileSystem.read_erase, FileSystem.read_erase]

/-- A visit counts the page if it is selected, and then it may delete it. -/
theorem purgeEntry_page (py : Python) (args : PurgeArgs) (st : PurgeState) (hok : w.script.AllOk)
    (hheader : w.fs.read (EntryPaths.mk root d).headerPath = some page.header)
    (hbody : w.fs.read (EntryPaths.mk root d).bodyPath = some page.body) :
    After (purgeEntry py args st (EntryPaths.mk root d).headerPath) w fun st' w' =>
      st'.raised = true
        ∨ (¬ SelectsPage py args page ∧ st' = st ∧ w'.fs = w.fs)
        ∨ SelectsPage py args page ∧ st' = st.count py args ⟨d, page, ()⟩
          ∧ GoneIf (!args.dryRun) ⟨root, d⟩ w.fs w'.fs
          ∧ (args.dryRun = true → w'.fs = w.fs) := by
  unfold purgeEntry
  refine Prog.after_bind.mpr (after_mono_run (load_spec py hok _) fun loaded w₁ hscript₁ _ h₁ => ?_)
  obtain ⟨hloaded, hfs⟩ := h₁
  have hpage : loaded = pageLoaded py page := by
    rw [hloaded, loadIn, hheader]
    rfl
  rw [hpage]
  -- Without an entry there is nothing to select.
  have hno : (∀ entry, pageLoaded py page ≠ .entry entry) → ¬ SelectsPage py args page := by
    rintro hnot ⟨entry, hentry, -⟩
    exact hnot entry hentry
  cases hentry : pageLoaded py page with
  | notLoaded =>
      refine Prog.after_pure.mpr (Or.inr (Or.inl ⟨hno fun entry h => ?_, rfl, hfs⟩))
      rw [hentry] at h
      cases h
  | raised => exact Prog.after_pure.mpr (Or.inl rfl)
  | entry entry =>
      have hline : pageLine py args page
          = (if args.dryRun then "would purge " else "purged ").toList ++ entry.host ++ entry.url := by
        rw [pageLine, hentry]
      dsimp only
      split
      · rename_i hselect
        have hselects : SelectsPage py args page := ⟨entry, hentry, hselect⟩
        cases hdry : args.dryRun with
        | true =>
            rw [if_pos rfl]
            refine Prog.after_pure.mpr (Or.inr (Or.inr ⟨hselects, ?_, goneIf_false hfs,
              fun _ => hfs⟩))
            rw [PurgeState.count, hline, hdry, if_pos rfl]
        | false =>
            -- The body is there, so `delete` says that it has removed something.
            rw [if_neg Bool.false_ne_true]
            have hok₁ : w₁.script.AllOk := by
              rw [hscript₁]
              exact hok
            rw [← hfs] at hbody ⊢
            refine Prog.after_bind.mpr ((delete_goneIf hok₁ (by rw [hbody]; rfl)).mono
              fun deleted w₂ h₂ => ?_)
            obtain ⟨rfl, hgone⟩ := h₂
            refine Prog.after_pure.mpr (Or.inr (Or.inr ⟨hselects, ?_, hgone, fun h => by cases h⟩))
            rw [PurgeState.count, hline, hdry, if_neg Bool.false_ne_true]
      · rename_i hselect
        refine Prog.after_pure.mpr (Or.inr (Or.inl ⟨?_, rfl, hfs⟩))
        rintro ⟨entry', hentry', hselect'⟩
        cases hentry.symm.trans hentry'
        exact hselect hselect'

/-! ### Walks -/

/-- A name is passed over, or it ends as a header does and is visited. -/
theorem after_purgeName {Q : PurgeState → World → Prop} {dir : Path} {name : CString}
    (hstop : st.raised = true → Q st w) (hskip : ¬ lit ".header" <:+ name → Q st w)
    (hvisit : st.raised = false → lit ".header" <:+ name →
      lit ".header" <:+ dir ++ chr '/' :: name →
        After (purgeEntry py args st (dir ++ chr '/' :: name)) w Q) :
    After (purgeName py args dir st name) w Q := by
  unfold purgeName
  split
  · rename_i hraised
    exact Prog.after_pure.mpr (hstop hraised)
  rename_i hraised
  split
  · rename_i hname
    exact hvisit (by simpa using hraised) hname
      (hname.trans ((List.suffix_cons _ _).trans (List.suffix_append _ _)))
  · rename_i hname
    exact Prog.after_pure.mpr (hskip hname)

/-- A walk keeps what each of its visits keeps. -/
theorem after_walk {I : PurgeState → World → Prop}
    (hread : ∀ st w w', I st w → w'.fs = w.fs → w'.script = w.script → I st w')
    (hvisit : ∀ st w p, FileSystem.Under root p → lit ".header" <:+ p → st.raised = false →
      I st w → After (purgeEntry py args st p) w I)
    (depth : Nat) {dir : Path} (hdir : dir = root ∨ FileSystem.Under root dir) (h : I st w) :
    After (walk py args depth st dir) w I := by
  induction depth generalizing st w dir with
  | zero => exact Prog.after_pure.mpr h
  | succ depth ih =>
      rw [walk]
      split
      · exact Prog.after_pure.mpr h
      refine Prog.after_bind.mpr (after_dirRead (fun w₁ _ h₁ => ?_) fun w₁ h₁ =>
        Prog.after_pure.mpr (hread _ _ _ h h₁.fs_eq h₁.script_eq))
      have hstart := hread _ _ _ h h₁.fs_eq h₁.script_eq
      refine Prog.after_bind.mpr ((Prog.after_foldlM (I := fun _ => I) hstart
        fun _ name st₂ w₂ h₂ _ => ?_).mono fun st₃ w₃ h₃ => ?_)
      · exact after_purgeName (fun _ => h₂) (fun _ => h₂) fun hraised _ hname =>
          hvisit _ _ _ (FileSystem.under_entry hdir name) hname hraised h₂
      · exact Prog.after_foldlM (I := fun _ => I) h₃ fun _ name st₄ w₄ h₄ _ =>
          ih (Or.inr (FileSystem.under_entry hdir name)) h₄

/-- The walk of the tool: `os.walk` yields the files of a directory and then its directories. -/
def toolWalking : FileSystem.Walking where
  order l := l.filter (!·.2) ++ l.filter (·.2)
  skips _ := false
  visits name := decide (lit ".header" <:+ name)
  perm_order l := by simpa using List.filter_append_perm (!·.2) l

theorem flatMap_names {b : Bool} {l : List (CString × Bool)} (hl : ∀ x ∈ l, x.2 = b)
    (f : CString × Bool → List Path) :
    (l.map (·.1)).flatMap (fun name => f (name, b)) = l.flatMap f := by
  induction l with
  | nil => rfl
  | cons x l ih =>
      obtain ⟨rfl, hl⟩ := List.forall_mem_cons.mp hl
      rw [List.map_cons, List.flatMap_cons, List.flatMap_cons, ih hl]

/-- What a loop over the files of a directory makes of its headers is what its visits make of them,
one after another, unless an exception ends it. -/
theorem after_purgeNames {I : List Path → PurgeState → World → Prop} {dir : Path}
    (hvisit : ∀ done st w name, lit ".header" <:+ dir ++ chr '/' :: name → st.raised = false →
      I done st w → After (purgeEntry py args st (dir ++ chr '/' :: name)) w fun st' w' =>
        st'.raised = true ∨ I (done ++ [dir ++ chr '/' :: name]) st' w')
    (below : Path → List Path) (names : List CString) {done : List Path} (h : I done st w) :
    After (names.foldlM (purgeName py args dir) st) w fun st' w' => st'.raised = true
      ∨ I (done ++ names.flatMap fun name => FileSystem.filesOf toolWalking.skips
          toolWalking.visits below dir (name, false)) st' w' := by
  refine Prog.after_foldlM (I := fun turns st' w' => st'.raised = true
    ∨ I (done ++ turns.flatMap fun name => FileSystem.filesOf toolWalking.skips toolWalking.visits
      below dir (name, false)) st' w') (Or.inr (by simpa using h)) fun turns name st₁ w₁ h₁ _ => ?_
  rw [List.flatMap_append, List.flatMap_singleton, ← List.append_assoc]
  refine after_purgeName (fun hraised => Or.inl hraised) (fun hname => h₁.imp id fun h₁ => ?_)
    fun hraised hname hpath => ?_
  · simpa [FileSystem.filesOf, toolWalking, hname] using h₁
  · have hvisited := hvisit _ _ _ name hpath hraised (h₁.resolve_left (by simp [hraised]))
    simpa [FileSystem.filesOf, toolWalking, hname] using hvisited

/-- What a walk makes of the headers below a directory is what its visits make of them, one after
another, unless an exception ends it. -/
theorem after_walk_filesBelow {fs : FileSystem} {I : List Path → PurgeState → World → Prop}
    (hI : ∀ {done st w}, I done st w → w.fs = fs ∧ w.script.AllOk)
    (hread : ∀ done st w w', I done st w → w'.fs = w.fs → w'.script = w.script → I done st w')
    (hvisit : ∀ done st w p, FileSystem.Under root p → lit ".header" <:+ p →
      st.raised = false → I done st w →
      After (purgeEntry py args st p) w fun st' w' => st'.raised = true ∨ I (done ++ [p]) st' w')
    (depth : Nat) {dir : Path} (hdir : dir = root ∨ FileSystem.Under root dir) (done : List Path)
    (h : I done st w) :
    After (walk py args depth st dir) w fun st' w' =>
      st'.raised = true ∨ I (done ++ FileSystem.filesBelow toolWalking fs depth dir) st' w' := by
  -- The directories of a directory are one level down, and `done` grows by what is below each.
  induction depth generalizing st w dir done with
  | zero =>
      refine Prog.after_pure.mpr (Or.inr ?_)
      show I (done ++ []) st w
      rw [List.append_nil]
      exact h
  | succ depth ih =>
      obtain ⟨rfl, hok⟩ := hI h
      rw [walk]
      split
      · rename_i hraised
        exact Prog.after_pure.mpr (Or.inl hraised)
      refine Prog.after_bind.mpr (after_dirRead_ok hok (fun w₁ hmem h₁ => ?_) fun w₁ hmem h₁ => ?_)
      · rw [FileSystem.filesBelow_of_mem hmem]
        have hstart := hread _ _ _ w₁ h h₁.fs_eq h₁.script_eq
        show After (_ >>= _) w₁ fun st' w' => st'.raised = true ∨ I (done ++
          ((w.fs.entries dir).filter (!·.2) ++ (w.fs.entries dir).filter (·.2)).flatMap _) st' w'
        rw [List.flatMap_append, ← List.append_assoc,
          ← flatMap_names (b := false) (fun x hx => by simpa using (List.mem_filter.mp hx).2),
          ← flatMap_names (b := true) (fun x hx => (List.mem_filter.mp hx).2)]
        -- The files come first, and then the directories.
        refine Prog.after_bind.mpr ((after_purgeNames (fun done st w name hpath hraised h =>
          hvisit done st w _ (FileSystem.under_entry hdir name) hpath hraised h)
          (FileSystem.filesBelow toolWalking w.fs depth) _ hstart).mono fun st₃ w₃ h₃ => ?_)
        refine Prog.after_foldlM (I := fun turns st' w' => st'.raised = true ∨ I (done ++ _
          ++ turns.flatMap fun name => FileSystem.filesOf toolWalking.skips toolWalking.visits
            (FileSystem.filesBelow toolWalking w.fs depth) dir (name, true)) st' w')
          (by simpa using h₃) fun turns name st₄ w₄ h₄ _ => ?_
        rw [List.flatMap_append, List.flatMap_singleton, ← List.append_assoc]
        by_cases hraised : st₄.raised = true
        · rw [stopsRaised_walk py args depth st₄ _ hraised]
          exact Prog.after_pure.mpr (Or.inl hraised)
        · exact ih (Or.inr (FileSystem.under_entry hdir name)) _ (h₄.resolve_left hraised)
      · rw [FileSystem.filesBelow_of_notMem hmem, List.append_nil]
        exact Prog.after_pure.mpr (Or.inr (hread _ _ _ _ h h₁.fs_eq h₁.script_eq))

/-- A header is no body. -/
theorem ne_bodyPath_of_suffix {p : Path} (hname : lit ".header" <:+ p) (d : Digest) :
    p ≠ (EntryPaths.mk root d).bodyPath := by
  rintro rfl
  exact absurd ((header_suffix_iff (e := EntryPaths.mk root d) (by decide)).mp hname) (by decide)

/-- One visit of a purge. -/
theorem purge_visit (h : Holds root pages w.fs) (hwet : args.dryRun = false)
    {counted : List (Counted Unit)} {st₀ : PurgeState} {w' : World} (hok : w'.script.AllOk)
    (hdel : Deleting root pages (SelectsPage py args) w.fs counted w'.fs) {p : Path}
    (hunder : FileSystem.Under root p) (hname : lit ".header" <:+ p) :
    After (purgeEntry py args (counted.foldl (PurgeState.count py args) st₀) p) w' fun st' w'' =>
      st'.raised = true
        ∨ ∃ counted, Deleting root pages (SelectsPage py args) w.fs counted w''.fs
          ∧ st' = counted.foldl (PurgeState.count py args) st₀ := by
  cases hread : w'.fs.read p with
  | none =>
      refine (purgeEntry_absent hok hread).mono fun st' w'' h' => Or.inr ?_
      obtain ⟨rfl, hfs⟩ := h'
      rw [hfs]
      exact ⟨counted, hdel, rfl⟩
  | some b =>
      obtain ⟨d, page, rfl, hpage, hnew⟩ :=
        hdel.of_header h hunder (ne_bodyPath_of_suffix hname) hread
      obtain ⟨hheader, hbody⟩ := hdel.read h hpage hnew
      refine (purgeEntry_page py args _ hok hheader hbody).mono fun st' w'' h' => ?_
      rcases h' with hraised | ⟨-, rfl, hfs⟩ | ⟨hselect, rfl, hgone, -⟩
      · exact Or.inl hraised
      · rw [hfs]
        exact Or.inr ⟨counted, hdel, rfl⟩
      · rw [hwet] at hgone
        refine Or.inr ⟨_, hdel.take hpage hselect hnew hgone (), ?_⟩
        rw [List.foldl_append]
        rfl

/-- Unless an exception ends it, a purge counts each page that it selects once, and deletes it. -/
theorem walk_deletes (h : Holds root pages w.fs) (hroot : root ≠ []) (hok : w.script.AllOk)
    (hwet : args.dryRun = false) {depth : Nat} (hdepth : 3 ≤ depth) :
    After (walk py args depth st root) w fun st' w' => st'.raised = true
      ∨ ∃ counted, CountsSelected (pages · = some ·) (SelectsPage py args) counted
        ∧ st' = counted.foldl (PurgeState.count py args) st
        ∧ Holds root (Store.Change.apply pages (.discard fun _ page => SelectsPage py args page))
          w'.fs := by
  -- Selected pages only, and none of them twice.
  have hdeletes : After (walk py args depth st root) w fun st' w' => w'.script = w.script
      ∧ (st'.raised = true ∨ ∃ counted, Deleting root pages (SelectsPage py args) w.fs counted w'.fs
        ∧ st' = counted.foldl (PurgeState.count py args) st) := by
    refine after_walk (I := fun st' w' => w'.script = w.script ∧ (st'.raised = true
        ∨ ∃ counted, Deleting root pages (SelectsPage py args) w.fs counted w'.fs
          ∧ st' = counted.foldl (PurgeState.count py args) st))
      (fun st' w₁ w₂ h' hfs hscript => ?_) (fun st' w₁ p hunder hname hraised h' => ?_) depth
      (Or.inl rfl) ⟨rfl, Or.inr ⟨[], .start, rfl⟩⟩
    · rw [hfs, hscript]
      exact h'
    · obtain ⟨hscript, h'⟩ := h'
      obtain ⟨counted, hdel, rfl⟩ := h'.resolve_left (by simp [hraised])
      have hok₁ : w₁.script.AllOk := by
        rw [hscript]
        exact hok
      exact ⟨(run_script _ w₁).trans hscript, purge_visit h hwet hok₁ hdel hunder hname⟩
  -- No header of a selected page is left.
  have hgone : ∀ d page, pages d = some page → SelectsPage py args page →
      After (walk py args depth st root) w fun st' w' => st'.raised = true
        ∨ w'.fs.read (EntryPaths.mk root d).headerPath = none := by
    intro d page hpage hselect
    have hheader := h.header d
    rw [hpage] at hheader
    have hin := h.sharded (EntryPaths.mk root d) _ hheader
    have hreaches := walk_reaches (hunt_alone (EntryPaths.mk root d)) hwet hselect hdepth st
      ⟨Nat.zero_le _, fun n op _ => hok n op, hin.root hroot, hin, Or.inr hheader⟩
    exact (hreaches.after (by intro w; rfl)).2
  obtain ⟨-, hraised | ⟨counted, hdel, hst⟩⟩ := hdeletes
  · exact Or.inl hraised
  refine (Decidable.em _).imp id fun hraised => ?_
  have hcounts := hdel.countsSelected h fun d page hpage hselect =>
    (hgone d page hpage hselect).resolve_left hraised
  exact ⟨counted, hcounts, hst, hdel.holds h hcounts
    (entriesInShards_run_of_onlyRemoves (onlyRemoves_walk py args depth st root) h.sharded)⟩

/-- One visit of a dry run. -/
theorem dryRun_visit (h : Holds root pages w.fs) (hdry : args.dryRun = true) {done : List Path}
    {counted : List (Counted Unit)} {st₀ : PurgeState} {w' : World} (hok : w'.script.AllOk)
    (hfs : w'.fs = w.fs) (hlist : Listing root pages (SelectsPage py args) done counted) {p : Path}
    (hunder : FileSystem.Under root p) (hname : lit ".header" <:+ p) :
    After (purgeEntry py args (counted.foldl (PurgeState.count py args) st₀) p) w' fun st' w'' =>
      st'.raised = true
        ∨ w''.fs = w.fs ∧ ∃ counted, Listing root pages (SelectsPage py args) (done ++ [p]) counted
          ∧ st' = counted.foldl (PurgeState.count py args) st₀ := by
  cases hread : w'.fs.read p with
  | none =>
      refine (purgeEntry_absent hok hread).mono fun st' w'' h' => Or.inr ?_
      obtain ⟨rfl, hfs'⟩ := h'
      refine ⟨hfs'.trans hfs, counted, hlist.skip fun d page hp hpage => ?_, rfl⟩
      rw [← hp, hfs, h.header, hpage] at hread
      cases hread
  | some b =>
      rw [hfs] at hread
      obtain ⟨d, page, rfl, hpage⟩ := h.of_header hunder (ne_bodyPath_of_suffix hname) hread
      have hheader : w'.fs.read (EntryPaths.mk root d).headerPath = some page.header := by
        rw [hfs, h.header, hpage]
        rfl
      have hbody : w'.fs.read (EntryPaths.mk root d).bodyPath = some page.body := by
        rw [hfs, h.body, hpage]
        rfl
      refine (purgeEntry_page py args _ hok hheader hbody).mono fun st' w'' h' => ?_
      rcases h' with hraised | ⟨hno, rfl, hfs'⟩ | ⟨hselect, rfl, -, hfs'⟩
      · exact Or.inl hraised
      · refine Or.inr ⟨hfs'.trans hfs, counted, hlist.skip fun d' page' hp hpage' hselect => ?_, rfl⟩
        obtain rfl := EntryPaths.digest_eq_of_headerPath hp
        obtain rfl := Option.some.inj (hpage.symm.trans hpage')
        exact hno hselect
      · refine Or.inr ⟨(hfs' hdry).trans hfs, _, hlist.take hpage hselect (), ?_⟩
        rw [List.foldl_append]
        rfl

/-- Unless an exception ends it, a dry run counts each page that it selects once. -/
theorem walk_lists (h : Holds root pages w.fs) (htidy : w.fs.Tidy) (hroot : root ≠ [])
    (hok : w.script.AllOk) (hdry : args.dryRun = true) {depth : Nat} (hdepth : 3 ≤ depth) :
    After (walk py args depth st root) w fun st' w' => st'.raised = true
      ∨ w'.fs = w.fs ∧ ∃ counted, CountsSelected (pages · = some ·) (SelectsPage py args) counted
        ∧ st' = counted.foldl (PurgeState.count py args) st := by
  -- The walk has counted what is selected of the headers that it has come to.
  have hlists : After (walk py args depth st root) w fun st' w' => st'.raised = true
      ∨ (w'.fs = w.fs ∧ w'.script = w.script) ∧ ∃ counted, Listing root pages (SelectsPage py args)
          (FileSystem.filesBelow toolWalking w.fs depth root) counted
        ∧ st' = counted.foldl (PurgeState.count py args) st := by
    refine after_walk_filesBelow (I := fun done st' w' => (w'.fs = w.fs ∧ w'.script = w.script)
        ∧ ∃ counted, Listing root pages (SelectsPage py args) done counted
          ∧ st' = counted.foldl (PurgeState.count py args) st)
      (fun h' => ⟨h'.1.1, ?_⟩) (fun done st' w₁ w₂ h' hfs hscript => ?_)
      (fun done st' w₁ p hunder hname _ h' => ?_) depth (Or.inl rfl) [] ⟨⟨rfl, rfl⟩, [], .start, rfl⟩
    · rw [h'.1.2]
      exact hok
    · rw [hfs, hscript]
      exact h'
    · obtain ⟨⟨hfs, hscript⟩, counted, hlist, rfl⟩ := h'
      have hok₁ : w₁.script.AllOk := by
        rw [hscript]
        exact hok
      refine after_mono_run (dryRun_visit h hdry hok₁ hfs hlist hunder hname)
        fun st' w₂ hscript₂ _ h₂ => h₂.imp id fun h₂ => ?_
      exact ⟨⟨h₂.1, hscript₂.trans hscript⟩, h₂.2⟩
  refine hlists.mono fun st' w' h' => h'.imp id fun h' => ?_
  obtain ⟨⟨hfs, -⟩, counted, hlist, hst⟩ := h'
  refine ⟨hfs, counted, hlist.countsSelected h htidy hroot (fun _ _ => rfl) (fun d => ?_) hdepth, hst⟩
  rw [EntryPaths.basename_headerPath]
  exact decide_eq_true (List.suffix_append _ _)

/-- Unless an exception ends it, a walk counts each page that it selects once. It deletes these
pages, or it is a dry run and changes nothing. -/
theorem walk_counts (h : Holds root pages w.fs) (htidy : w.fs.Tidy) (hroot : root ≠ [])
    (hok : w.script.AllOk) {depth : Nat} (hdepth : 3 ≤ depth) :
    After (walk py args depth st root) w fun st' w' => st'.raised = true
      ∨ (∃ counted, CountsSelected (pages · = some ·) (SelectsPage py args) counted
          ∧ st' = counted.foldl (PurgeState.count py args) st)
        ∧ if args.dryRun then w'.fs = w.fs
          else Holds root (Store.Change.apply pages
            (.discard fun _ page => SelectsPage py args page)) w'.fs := by
  cases hdry : args.dryRun with
  | true =>
      refine (walk_lists h htidy hroot hok hdry hdepth).mono fun st' w' h' =>
        h'.imp id fun h' => ?_
      rw [if_pos rfl]
      exact ⟨h'.2, h'.1⟩
  | false =>
      refine (walk_deletes h hroot hok hdry hdepth).mono fun st' w' h' => h'.imp id fun h' => ?_
      rw [if_neg Bool.false_ne_true]
      obtain ⟨counted, hcounts, hst, hpages⟩ := h'
      exact ⟨⟨counted, hcounts, hst⟩, hpages⟩

/-! ### The command -/

/-- What `cmd_purge` prints in the end. -/
def summary (args : PurgeArgs) (n : Nat) : PyStr :=
  "\n".toList ++ (toString n).toList ++ " entr".toList ++ (if n = 1 then "y" else "ies").toList
    ++ " ".toList ++ (if args.dryRun then "would be purged" else "purged").toList

/-- How a purge ends that has counted `counted`. -/
def purgeEnding (py : Python) (args : PurgeArgs) (counted : List (Counted Unit)) : Ending where
  raised := false
  exitCode := if counted = [] then 1 else 0
  printed := counted.map (fun c => pageLine py args c.page) ++
    if counted = [] then [] else [summary args counted.length]

/-- The command ends with an exception, or it has counted each page that it selects once. Then it
has deleted them, or it was a dry run and has changed nothing. -/
theorem cmdPurge_counts (py : Python) (args : PurgeArgs) (h : Holds root pages w.fs)
    (htidy : w.fs.Tidy) (hroot : root ≠ []) (hok : w.script.AllOk)
    (hdir : root ∈ w.fs.dirs) (hargs : args.root = root) {depth : Nat} (hdepth : 3 ≤ depth) :
    After (cmdPurge py depth args) w fun ending w' => ending.raised = true
      ∨ (∃ counted, CountsSelected (pages · = some ·) (SelectsPage py args) counted
          ∧ ending = purgeEnding py args counted)
        ∧ if args.dryRun then w'.fs = w.fs
          else Holds root (Store.Change.apply pages
            (.discard fun _ page => SelectsPage py args page)) w'.fs := by
  subst hargs
  unfold cmdPurge
  refine Prog.after_bind.mpr (after_dirRead_ok hok (fun w₁ _ h₁ => ?_) fun w₁ hno _ =>
    absurd hdir hno)
  have hwalk : After (walk py args depth ⟨0, [], false⟩ args.root) w₁ fun st' w' =>
      st'.raised = true
        ∨ (∃ counted, CountsSelected (pages · = some ·) (SelectsPage py args) counted
            ∧ st' = counted.foldl (PurgeState.count py args) ⟨0, [], false⟩)
          ∧ if args.dryRun then w'.fs = w.fs
            else Holds args.root (Store.Change.apply pages
              (.discard fun _ page => SelectsPage py args page)) w'.fs := by
    rw [← h₁.fs_eq] at h htidy ⊢
    rw [← h₁.script_eq] at hok
    exact walk_counts h htidy hroot hok hdepth
  refine Prog.after_bind.mpr (hwalk.mono fun st' w' h' => ?_)
  rcases h' with hraised | ⟨⟨counted, hcounts, hst⟩, hfs⟩
  · rw [if_pos hraised]
    exact Prog.after_pure.mpr (Or.inl rfl)
  · -- What has been counted decides how the command ends.
    rw [foldl_count] at hst
    subst hst
    rw [if_neg Bool.false_ne_true]
    dsimp only
    split
    · rename_i hzero
      obtain rfl : counted = [] := List.eq_nil_of_length_eq_zero (by simpa using hzero)
      exact Prog.after_pure.mpr (Or.inr ⟨⟨[], hcounts, rfl⟩, hfs⟩)
    · rename_i hsome
      have hne : counted ≠ [] := by
        rintro rfl
        exact hsome rfl
      refine Prog.after_pure.mpr (Or.inr ⟨⟨counted, hcounts, ?_⟩, hfs⟩)
      simp [purgeEnding, summary, hne]

/-- After any requests, `cacher purge` ends with an exception, or it prints one line for each page
that they have left and that it selects, exits with 0 if there is one and with 1 if there is none,
and has deleted exactly these pages. With `--dry-run` it has changed nothing. -/
theorem reports_cmdPurge (py : Python) (args : PurgeArgs) (hne : root ≠ []) {visits : List Visit}
    (hvisits : ∀ v ∈ visits, v.At root) (hok : w.script.AllOk)
    (hcold : Holds root Store.empty w.fs) (htidy : w.fs.Tidy) (hdir : root ∈ w.fs.dirs)
    (hargs : args.root = root) {depth : Nat} (hdepth : 3 ≤ depth) :
    After (cmdPurge py depth args) (Record.lastState Visit.serve visits w) fun ending w' =>
      ending.raised = true
        ∨ (∃ counted, CountsSelected (LastStored (Record.records Visit.serve visits w))
              (SelectsPage py args) counted
            ∧ ending = purgeEnding py args counted)
          ∧ ∃ pages, Holds root pages w'.fs
            ∧ ∀ d page, pages d = some page
              ↔ LastStored (Record.records Visit.serve visits w) d page
                ∧ ¬ (args.dryRun = false ∧ SelectsPage py args page) := by
  obtain ⟨pages, hend, hok', hstored⟩ := exists_holds_lastStored hne hvisits hok hcold
  have hdir' : root ∈ (Record.lastState Visit.serve visits w).fs.dirs :=
    dirs_subset_lastState hdir
  refine (cmdPurge_counts py args hend (tidy_lastState htidy) hne hok' hdir' hargs hdepth).mono
    fun ending w' h' => h'.imp id fun h' => ?_
  obtain ⟨⟨counted, hcounts, rfl⟩, hfs⟩ := h'
  refine ⟨⟨counted, hcounts.congr hstored, rfl⟩, ?_⟩
  cases hdry : args.dryRun with
  | true =>
      rw [hdry, if_pos rfl] at hfs
      refine ⟨pages, by rw [hfs]; exact hend, fun d page => ?_⟩
      rw [hstored]
      simp
  | false =>
      rw [hdry, if_neg Bool.false_ne_true] at hfs
      refine ⟨_, hfs, fun d page => ?_⟩
      rw [Store.apply_eq_some_iff, hstored]
      simp [Store.Change.Spares]

/-- `cacher purge '/a'`. -/
def PurgeArgs.ofA : PurgeArgs := ⟨lit "/c", none, "/a".toList, false⟩

/-- A cache root without a file. -/
def World.emptyRoot : World := ⟨⟨[], [lit "/c"]⟩, Script.steady 100, []⟩

/-- The page that is stored behind the purge is purged from the command line. -/
theorem reports_cmdPurge_pageThenPurge :
    ∃ counted, CountsSelected
        (LastStored (Record.records Visit.serve Visit.pageThenPurge World.emptyRoot))
        (SelectsPage Python.ascii PurgeArgs.ofA) counted
      ∧ (purgeEnding Python.ascii PurgeArgs.ofA counted).printed
        = ["purged h/a".toList, "\n1 entry purged".toList] := by
  have hends : (run (cmdPurge Python.ascii 3 PurgeArgs.ofA)
      (Record.lastState Visit.serve Visit.pageThenPurge World.emptyRoot)).1.raised = false
      ∧ (run (cmdPurge Python.ascii 3 PurgeArgs.ofA)
        (Record.lastState Visit.serve Visit.pageThenPurge World.emptyRoot)).1.printed
        = ["purged h/a".toList, "\n1 entry purged".toList] := by decide +kernel
  have htidy : World.emptyRoot.fs.Tidy := ⟨List.nodup_nil, List.nodup_singleton _⟩
  have hdir : lit "/c" ∈ World.emptyRoot.fs.dirs := List.mem_singleton_self _
  have hreports := after_out (reports_cmdPurge Python.ascii PurgeArgs.ofA (by decide)
    at_pageThenPurge (fun _ _ => rfl) (holds_of_no_files rfl _) htidy hdir rfl (Nat.le_refl 3))
  rcases hreports with hraised | ⟨⟨counted, hcounts, hending⟩, -⟩
  · exact absurd hraised (by rw [hends.1]; decide)
  · refine ⟨counted, hcounts, ?_⟩
    rw [← hending]
    exact hends.2

/-- The same purge with `--dry-run`. -/
def PurgeArgs.dry (args : PurgeArgs) : PurgeArgs := { args with dryRun := true }

@[simp] theorem PurgeArgs.dry_dryRun (args : PurgeArgs) : args.dry.dryRun = true := rfl

/-- What the dry run prints about a page, without its first words. -/
def pageText (py : Python) (page : Page) : PyStr :=
  match pageLoaded py page with
  | .entry entry => entry.host ++ entry.url
  | .notLoaded | .raised => []

theorem pageLine_of_selects (h : SelectsPage py args page) :
    pageLine py args page
      = (if args.dryRun then "would purge " else "purged ").toList ++ pageText py page := by
  obtain ⟨entry, hentry, -⟩ := h
  have hloaded : pageLoaded py page = .entry entry := hentry
  rw [pageLine, pageText, hloaded]
  exact List.append_assoc _ _ _

/-- What a purge prints that has counted selected pages. -/
theorem printed_purgeEnding {counted : List (Counted Unit)}
    (h : ∀ c ∈ counted, SelectsPage py args c.page) :
    (purgeEnding py args counted).printed
      = (counted.map fun c => pageText py c.page).map
          ((if args.dryRun then "would purge " else "purged ").toList ++ ·)
        ++ if counted.map (fun c => pageText py c.page) = [] then []
          else [summary args (counted.map fun c => pageText py c.page).length] := by
  have hlines : counted.map (fun c => pageLine py args c.page)
      = (counted.map fun c => pageText py c.page).map
        ((if args.dryRun then "would purge " else "purged ").toList ++ ·) := by
    rw [List.map_map]
    exact List.map_congr_left fun c hc => pageLine_of_selects (h c hc)
  rw [purgeEnding, hlines, List.length_map]
  simp only [List.map_eq_nil_iff]

/-- A dry run and the purge behind it, unless an exception ends one of them, exit with the same code
and print the same pages, in some order. -/
theorem cmdPurge_dryRun (py : Python) (args : PurgeArgs) (hne : root ≠ []) {visits : List Visit}
    (hvisits : ∀ v ∈ visits, v.At root) (hok : w.script.AllOk)
    (hcold : Holds root Store.empty w.fs) (htidy : w.fs.Tidy) (hdir : root ∈ w.fs.dirs)
    (hargs : args.root = root) (hreal : args.dryRun = false) {depth : Nat} (hdepth : 3 ≤ depth) :
    After (cmdPurge py depth args.dry)
      (Record.lastState Visit.serve visits w) fun dry w' =>
        After (cmdPurge py depth args) w' fun wet _ =>
          dry.raised = true ∨ wet.raised = true ∨ dry.exitCode = wet.exitCode
            ∧ ∃ shown purged : List PyStr, shown.Perm purged
              ∧ dry.printed = shown.map ("would purge ".toList ++ ·)
                ++ (if shown = [] then [] else [summary args.dry shown.length])
              ∧ wet.printed = purged.map ("purged ".toList ++ ·)
                ++ (if purged = [] then [] else [summary args purged.length]) := by
  obtain ⟨pages, hend, hok', -⟩ := exists_holds_lastStored hne hvisits hok hcold
  have hdir' : root ∈ (Record.lastState Visit.serve visits w).fs.dirs := dirs_subset_lastState hdir
  have htidy' : (Record.lastState Visit.serve visits w).fs.Tidy := tidy_lastState htidy
  have hdry := cmdPurge_counts py args.dry hend htidy' hne hok' hdir' hargs hdepth
  refine after_mono_run hdry fun dry w₁ hscript _ h₁ => ?_
  rcases h₁ with hraised | ⟨⟨shown, hshown, rfl⟩, hfs⟩
  · exact Prog.After.mono (Q := fun _ _ => True) trivial fun _ _ _ => Or.inl hraised
  rw [PurgeArgs.dry_dryRun, if_pos rfl] at hfs
  -- The dry run has left everything as it was.
  rw [← hfs] at hend htidy' hdir'
  rw [← hscript] at hok'
  -- So the purge finds the same pages.
  have hwet := cmdPurge_counts py args hend htidy' hne hok' hdir' hargs hdepth
  refine hwet.mono fun wet w₂ h₂ => Or.inr ?_
  rcases h₂ with hraised | ⟨⟨purged, hpurged, rfl⟩, -⟩
  · exact Or.inl hraised
  have hperm : shown.Perm purged := hshown.perm hpurged
  have hselects : ∀ {args : PurgeArgs} {counted : List (Counted Unit)},
      CountsSelected (pages · = some ·) (SelectsPage py args) counted →
        ∀ c ∈ counted, SelectsPage py args c.page := fun hcounts c hc =>
    ((hcounts.mem_iff c.digest c.page).mp ⟨c.note, hc⟩).2
  have hdryLines := printed_purgeEnding (hselects hshown)
  have hwetLines := printed_purgeEnding (hselects hpurged)
  rw [PurgeArgs.dry_dryRun, if_pos rfl] at hdryLines
  rw [hreal, if_neg Bool.false_ne_true] at hwetLines
  have hnil : shown = [] ↔ purged = [] :=
    ⟨fun h => (h ▸ hperm).nil_eq.symm, fun h => (h ▸ hperm).eq_nil⟩
  have hcode : (purgeEnding py args.dry shown).exitCode
      = (purgeEnding py args purged).exitCode := by
    simp only [purgeEnding, hnil]
  have htexts := hperm.map fun c => pageText py c.page
  refine Or.inr ⟨hcode, _, _, htexts, ?_, ?_⟩
  · exact hdryLines
  · exact hwetLines

/-- The dry run shows the page, and the purge behind it finds it. -/
theorem cmdPurge_dryRun_pageThenPurge :
    (run (cmdPurge Python.ascii 3 PurgeArgs.ofA.dry)
        (Record.lastState Visit.serve Visit.pageThenPurge World.emptyRoot)).1.exitCode
      = (run (cmdPurge Python.ascii 3 PurgeArgs.ofA)
        (run (cmdPurge Python.ascii 3 PurgeArgs.ofA.dry)
          (Record.lastState Visit.serve Visit.pageThenPurge World.emptyRoot)).2).1.exitCode := by
  have hdry : (run (cmdPurge Python.ascii 3 PurgeArgs.ofA.dry)
      (Record.lastState Visit.serve Visit.pageThenPurge World.emptyRoot)).1.raised = false := by
    decide +kernel
  have hwet : (run (cmdPurge Python.ascii 3 PurgeArgs.ofA)
      (run (cmdPurge Python.ascii 3 PurgeArgs.ofA.dry)
        (Record.lastState Visit.serve Visit.pageThenPurge World.emptyRoot)).2).1.raised = false := by
    decide +kernel
  have htidy : World.emptyRoot.fs.Tidy := ⟨List.nodup_nil, List.nodup_singleton _⟩
  have hdir : lit "/c" ∈ World.emptyRoot.fs.dirs := List.mem_singleton_self _
  have hpreview := after_after_out (cmdPurge_dryRun Python.ascii PurgeArgs.ofA (by decide)
    at_pageThenPurge (fun _ _ => rfl) (holds_of_no_files rfl _) htidy hdir rfl rfl (Nat.le_refl 3))
  have hcode := hpreview.resolve_left (Bool.eq_false_iff.mp hdry)
  exact (hcode.resolve_left (Bool.eq_false_iff.mp hwet)).1

end Walks

/-! ### A full reset of one host -/

section Reset

variable {root : CString} {pages : Pages} {fs : FileSystem} {w : World} {d : Digest} {page : Page}
  {host : Option PyStr} {st : ResetState}

/-- `cacher full-reset` selects the page. -/
def InHost (py : Python) (host : Option PyStr) (page : Page) : Prop :=
  ∃ entry, pageLoaded py page = .entry entry ∧ selectsHost py host entry = true

theorem raised_resetEntry (h : st.raised = true) (p : Path) :
    (resetEntry py host st p).raised = true := by
  unfold resetEntry
  split
  · exact h
  · rfl
  · split
    · exact h
    · exact h

/-- A turn deletes and counts the page if it is of the host. -/
theorem resetEntry_page (py : Python) (host : Option PyStr) (st : ResetState)
    (hheader : st.fs.read (EntryPaths.mk root d).headerPath = some page.header)
    (hbody : st.fs.read (EntryPaths.mk root d).bodyPath = some page.body) :
    (resetEntry py host st (EntryPaths.mk root d).headerPath).raised = true
      ∨ (¬ InHost py host page
        ∧ resetEntry py host st (EntryPaths.mk root d).headerPath = st)
      ∨ InHost py host page
        ∧ (resetEntry py host st (EntryPaths.mk root d).headerPath).removed = st.removed + 1
        ∧ GoneIf true ⟨root, d⟩ st.fs
          (resetEntry py host st (EntryPaths.mk root d).headerPath).fs := by
  have hload : loadIn py st.fs (EntryPaths.mk root d).headerPath = pageLoaded py page := by
    rw [loadIn, hheader]
    rfl
  rw [resetEntry, hload]
  cases hentry : pageLoaded py page with
  | notLoaded =>
      refine Or.inr (Or.inl ⟨?_, rfl⟩)
      rintro ⟨entry, h, -⟩
      rw [hentry] at h
      cases h
  | raised => exact Or.inl rfl
  | entry entry =>
      dsimp only
      split
      · rename_i hselect
        refine Or.inr (Or.inr ⟨⟨entry, hentry, hselect⟩, ?_, goneIf_true fun q => ?_⟩)
        · rw [deleteIn, bodyPathOf_headerPath, hbody]
          rfl
        · show ((st.fs.erase (bodyPathOf (EntryPaths.mk root d).headerPath)).erase _).read q = _
          rw [bodyPathOf_headerPath, FileSystem.read_erase, FileSystem.read_erase]
      · rename_i hselect
        refine Or.inr (Or.inl ⟨?_, rfl⟩)
        rintro ⟨entry', hentry', hselect'⟩
        cases hentry.symm.trans hentry'
        exact hselect hselect'

/-- The directories are all there, and of the pages those are gone that have been counted, unless an
exception has ended the loop. -/
def Resetting (py : Python) (host : Option PyStr) (root : CString) (pages : Pages) (fs : FileSystem)
    (st : ResetState) : Prop :=
  st.fs.dirs = fs.dirs ∧ (st.raised = true
    ∨ ∃ counted : List (Counted Unit), Deleting root pages (InHost py host) fs counted st.fs
      ∧ st.removed = counted.length)

/-- One turn of a reset. -/
theorem Resetting.turn (h : Holds root pages fs) (st : ResetState) (p : Path)
    (hst : Resetting py host root pages fs st) (hname : lit ".header" <:+ p)
    (hunder : FileSystem.Under root p) :
    Resetting py host root pages fs (resetEntry py host st p) := by
  obtain ⟨hdirs, hraised | ⟨counted, hdel, hremoved⟩⟩ := hst
  · exact ⟨(dirs_resetEntry py host st p).trans hdirs, Or.inl (raised_resetEntry hraised p)⟩
  refine ⟨(dirs_resetEntry py host st p).trans hdirs, ?_⟩
  cases hread : st.fs.read p with
  | none =>
      rw [resetEntry_of_absent hread]
      exact Or.inr ⟨counted, hdel, hremoved⟩
  | some b =>
      obtain ⟨d, page, rfl, hpage, hnew⟩ :=
        hdel.of_header h hunder (ne_bodyPath_of_suffix hname) hread
      obtain ⟨hheader, hbody⟩ := hdel.read h hpage hnew
      rcases resetEntry_page py host st hheader hbody with hraised | ⟨-, hsame⟩ | ⟨hin, hone, hgone⟩
      · exact Or.inl hraised
      · rw [hsame]
        exact Or.inr ⟨counted, hdel, hremoved⟩
      · refine Or.inr ⟨_, hdel.take hpage hin hnew hgone (), ?_⟩
        rw [hone, hremoved, List.length_append, List.length_singleton]

/-- After a reset the header of a page of the host is gone, unless an exception has ended it. -/
theorem resetWalk_gone (h : Holds root pages fs) (hroot : root ≠ []) {depth : Nat}
    (hdepth : 3 ≤ depth) (hpage : pages d = some page) (hin : InHost py host page) {st : ResetState}
    (hst : Resetting py host root pages fs st) :
    (resetWalk py host depth st root).raised = true
      ∨ (resetWalk py host depth st root).fs.read (EntryPaths.mk root d).headerPath = none := by
  have hheader := h.header d
  rw [hpage] at hheader
  have hshard := h.sharded _ _ hheader
  obtain ⟨more, rfl⟩ := Nat.exists_eq_add_of_le' hdepth
  have hvisited := visited_shard hshard.outer hshard.inner more
  have hpath : (EntryPaths.mk root d).headerPath
      = (EntryPaths.mk root d).shard ++ chr '/' :: (hexEncodeMd5 d ++ lit ".header") := by
    rw [EntryPaths.headerPath, EntryPaths.stem_eq, List.append_assoc, List.cons_append]
  have hname : chr '/' ∉ hexEncodeMd5 d ++ lit ".header" := by
    rw [List.mem_append, not_or]
    exact ⟨EntryPaths.slash_notMem_hexEncodeMd5 d, by decide⟩
  rw [hpath]
  refine resetWalk_reaches (P := Resetting py host root pages fs) (Q := fun st => st.raised = true
      ∨ st.fs.read ((EntryPaths.mk root d).shard ++ chr '/' :: (hexEncodeMd5 d ++ lit ".header"))
        = none) hroot (Or.inl rfl) hvisited hname (List.suffix_append _ _) (Resetting.turn h)
    (fun st p hgone _ _ => ?_) (fun st hst => hst.1) (fun st _ hraised => Or.inl hraised)
    (fun st _ hread => Or.inr hread) (fun st hst => ?_) hst
  · exact hgone.imp (raised_resetEntry · p) (shrinks_resetEntry py host st p).read_eq_none
  · -- The turn of the header itself.
    rw [← hpath]
    obtain ⟨-, hraised | ⟨counted, hdel, -⟩⟩ := hst
    · exact Or.inl (raised_resetEntry hraised _)
    by_cases hnew : ∀ c ∈ counted, c.digest ≠ d
    · obtain ⟨hheader, hbody⟩ := hdel.read h hpage hnew
      rcases resetEntry_page py host st hheader hbody with hraised | ⟨hno, -⟩ | ⟨-, -, hgone⟩
      · exact Or.inl hraised
      · exact absurd hin hno
      · exact Or.inr ((hgone _).1 ⟨rfl, Or.inl rfl⟩)
    · push Not at hnew
      obtain ⟨c, hc, rfl⟩ := hnew
      exact Or.inr ((shrinks_resetEntry py host st _).read_eq_none (hdel.gone c hc).1)

/-- A full reset of one host ends with an exception, or it has deleted the pages of the host and
counted each of them once. -/
theorem cmdFullReset_counts (py : Python) (h : Holds root pages fs) (hroot : root ≠ [])
    (hdir : root ∈ fs.dirs) (hhost : host.getD [] ≠ []) {depth : Nat} (hdepth : 3 ≤ depth) :
    (cmdFullReset py depth root host fs).raised = true
      ∨ (cmdFullReset py depth root host fs).exitCode = 0
        ∧ (∃ counted : List (Counted Unit),
            CountsSelected (pages · = some ·) (InHost py host) counted
              ∧ (cmdFullReset py depth root host fs).removed = counted.length)
        ∧ Holds root (Store.Change.apply pages (.discard fun _ page => InHost py host page))
          (cmdFullReset py depth root host fs).fs := by
  have hstart : Resetting py host root pages fs ⟨fs, 0, false⟩ :=
    ⟨rfl, Or.inr ⟨[], .start, rfl⟩⟩
  have hend := resetWalk_inv (Resetting.turn h) depth (Or.inl rfl) hstart
  rw [cmdFullReset, List.contains_iff_mem.mpr hdir, Bool.not_true, if_neg Bool.false_ne_true]
  dsimp only
  by_cases hraised : (resetWalk py host depth ⟨fs, 0, false⟩ root).raised = true
  · rw [if_pos hraised]
    exact Or.inl rfl
  rw [if_neg hraised, if_pos hhost]
  refine Or.inr ⟨rfl, ?_⟩
  obtain ⟨hdirs, hdel⟩ := hend
  obtain ⟨counted, hdel, hremoved⟩ := hdel.resolve_left hraised
  have hcounts := hdel.countsSelected h fun d page hpage hin =>
    (resetWalk_gone h hroot hdepth hpage hin hstart).resolve_left hraised
  refine ⟨⟨counted, hcounts, hremoved⟩, hdel.holds h hcounts fun e b hread => ?_⟩
  -- The files that are left are in their directories as before.
  have hold : fs.read e.headerPath = some b := by
    rcases hdel.shrunk e.headerPath with hsame | hgone
    · rw [← hsame, hread]
    · rw [hread] at hgone
      cases hgone
  have hin := h.sharded e b hold
  exact ⟨fun hne => hdirs ▸ hin.root hne, hdirs ▸ hin.outer, hdirs ▸ hin.inner⟩

/-- After any requests, `cacher full-reset` of a host ends with an exception, or it exits with 0,
prints the number of the pages that they have left and that are of the host, and has deleted exactly
these. -/
theorem reports_cmdFullReset (py : Python) (hne : root ≠ []) {visits : List Visit}
    (hvisits : ∀ v ∈ visits, v.At root) (hok : w.script.AllOk)
    (hcold : Holds root Store.empty w.fs) (hdir : root ∈ w.fs.dirs) (hhost : host.getD [] ≠ [])
    {depth : Nat} (hdepth : 3 ≤ depth) {ending : ResetEnding}
    (hending : cmdFullReset py depth root host (Record.lastState Visit.serve visits w).fs = ending) :
    ending.raised = true
      ∨ ending.exitCode = 0
        ∧ (∃ counted : List (Counted Unit),
            CountsSelected (LastStored (Record.records Visit.serve visits w)) (InHost py host) counted
              ∧ ending.removed = counted.length)
        ∧ ∃ pages, Holds root pages ending.fs ∧ ∀ d page, pages d = some page
            ↔ LastStored (Record.records Visit.serve visits w) d page ∧ ¬ InHost py host page := by
  obtain ⟨pages, hend, -, hstored⟩ := exists_holds_lastStored hne hvisits hok hcold
  have hdir' : root ∈ (Record.lastState Visit.serve visits w).fs.dirs := dirs_subset_lastState hdir
  subst hending
  refine (cmdFullReset_counts py hend hne hdir' hhost hdepth).imp id fun h => ?_
  obtain ⟨hexit, ⟨counted, hcounts, hremoved⟩, hleft⟩ := h
  refine ⟨hexit, ⟨counted, hcounts.congr hstored, hremoved⟩, _, hleft, fun d page => ?_⟩
  rw [Store.apply_eq_some_iff, hstored]
  simp [Store.Change.Spares]

/-- The page that is stored behind the purge is of the host `h`. -/
theorem reports_cmdFullReset_pageThenPurge :
    ∃ counted : List (Counted Unit), CountsSelected
        (LastStored (Record.records Visit.serve Visit.pageThenPurge World.emptyRoot))
        (InHost Python.ascii (some "H".toList)) counted
      ∧ counted.length = 1 := by
  have hends : (cmdFullReset Python.ascii 3 (lit "/c") (some "H".toList)
      (Record.lastState Visit.serve Visit.pageThenPurge World.emptyRoot).fs).raised = false
      ∧ (cmdFullReset Python.ascii 3 (lit "/c") (some "H".toList)
        (Record.lastState Visit.serve Visit.pageThenPurge World.emptyRoot).fs).removed = 1 := by
    decide +kernel
  have hdir : lit "/c" ∈ World.emptyRoot.fs.dirs := List.mem_singleton_self _
  have hhost : (some "H".toList : Option PyStr).getD [] ≠ [] := by decide
  have hreports := reports_cmdFullReset Python.ascii (by decide) at_pageThenPurge (fun _ _ => rfl)
    (holds_of_no_files rfl _) hdir hhost (Nat.le_refl 3) rfl
  rcases hreports with hraised | ⟨-, ⟨counted, hcounts, hremoved⟩, -⟩
  · exact absurd hraised (by rw [hends.1]; decide)
  · exact ⟨counted, hcounts, hremoved.symm.trans hends.2⟩

end Reset

end Tool

end Cacher
