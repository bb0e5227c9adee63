import Cacher.Lib.Listing
import Cacher.Refinement

/-!
# `Cacher.Counting`: walks that count pages

The administration and the command line tool walk the cache and count the pages that they select.
What both need is here: what is known of a walk that deletes while it counts (`Deleting`), what is
known of one that only reads (`Listing`), and that either has counted every page that it selects
once when it is done (`CountsSelected`).
-/

set_option autoImplicit false

namespace Cacher

open CText Files

/-- A page that a walk has counted, and what it has noted down for it. -/
structure Counted (ε : Type) where
  digest : Digest
  page : Page
  note : ε

/-- `counted` are the stored pages that are selected, each of them once. -/
structure CountsSelected {ε : Type} (stored : Digest → Page → Prop) (selects : Page → Prop)
    (counted : List (Counted ε)) : Prop where
  nodup : (counted.map (·.digest)).Nodup
  mem_iff : ∀ d page, (∃ note, ⟨d, page, note⟩ ∈ counted) ↔ stored d page ∧ selects page

section Counting

variable {ε : Type} {root : CString} {pages : Pages} {selects : Page → Prop} {d : Digest}
  {page : Page} {counted : List (Counted ε)}

theorem CountsSelected.congr {stored stored' : Digest → Page → Prop}
    (h : CountsSelected stored selects counted) (hiff : ∀ d page, stored d page ↔ stored' d page) :
    CountsSelected stored' selects counted :=
  ⟨h.nodup, fun d page => by rw [h.mem_iff, hiff]⟩

theorem CountsSelected.mem_digests {stored : Digest → Page → Prop}
    (h : CountsSelected stored selects counted) (d : Digest) :
    d ∈ counted.map (·.digest) ↔ ∃ page, stored d page ∧ selects page := by
  constructor
  · intro hd
    obtain ⟨c, hc, rfl⟩ := List.mem_map.mp hd
    exact ⟨c.page, (h.mem_iff c.digest c.page).mp ⟨c.note, hc⟩⟩
  · rintro ⟨page, hpage⟩
    obtain ⟨note, hc⟩ := (h.mem_iff d page).mpr hpage
    exact List.mem_map.mpr ⟨_, hc, rfl⟩

/-- Two walks that note down nothing have counted the same pages, in some order. -/
theorem CountsSelected.perm {stored : Digest → Page → Prop} {selects : Page → Prop}
    {counted counted' : List (Counted Unit)} (h : CountsSelected stored selects counted)
    (h' : CountsSelected stored selects counted') : counted.Perm counted' := by
  refine (List.perm_ext_iff_of_nodup (h.nodup.of_map _) (h'.nodup.of_map _)).mpr ?_
  rintro ⟨d, page, note⟩
  have hiff : (∃ note, ⟨d, page, note⟩ ∈ counted) ↔ ∃ note, ⟨d, page, note⟩ ∈ counted' := by
    rw [h.mem_iff, h'.mem_iff]
  constructor
  · intro hc
    obtain ⟨note', hc'⟩ := hiff.mp ⟨note, hc⟩
    exact hc'
  · intro hc
    obtain ⟨note', hc'⟩ := hiff.mpr ⟨note, hc⟩
    exact hc'

/-- A file below the root that is no body is the header of a page. -/
theorem Holds.of_header {fs : FileSystem} (h : Holds root pages fs) {p : Path}
    (hunder : FileSystem.Under root p) (hbody : ∀ d, p ≠ (EntryPaths.mk root d).bodyPath) {b : Bytes}
    (hread : fs.read p = some b) :
    ∃ d page, p = (EntryPaths.mk root d).headerPath ∧ pages d = some page := by
  obtain ⟨d, rfl | rfl⟩ := h.only p b hread hunder
  · rw [h.header] at hread
    obtain ⟨page, hpage, -⟩ := Option.map_eq_some_iff.mp hread
    exact ⟨d, page, rfl, hpage⟩
  · exact absurd rfl (hbody d)

/-! ### A walk that deletes -/

/-- The files of the entry are gone, where `b` holds, and all others are as they were. -/
def GoneIf (b : Bool) (e : EntryPaths) (fs fs' : FileSystem) : Prop :=
  ∀ q, (b = true ∧ (q = e.headerPath ∨ q = e.bodyPath) → fs'.read q = none)
    ∧ (¬ (b = true ∧ (q = e.headerPath ∨ q = e.bodyPath)) → fs'.read q = fs.read q)

theorem goneIf_false {e : EntryPaths} {fs fs' : FileSystem} (h : fs' = fs) :
    GoneIf false e fs fs' := by
  subst h
  refine fun q => ⟨?_, fun _ => rfl⟩
  rintro ⟨h, -⟩
  cases h

theorem goneIf_true {e : EntryPaths} {fs fs' : FileSystem}
    (h : ∀ q, fs'.read q
      = if q = e.headerPath then none else if q = e.bodyPath then none else fs.read q) :
    GoneIf true e fs fs' := by
  intro q
  rw [h]
  constructor
  · rintro ⟨-, rfl | rfl⟩ <;> simp
  · intro hno
    obtain ⟨hheader, hbody⟩ := not_or.mp fun h => hno ⟨rfl, h⟩
    rw [if_neg hheader, if_neg hbody]

/-- Of the files `fs`, those of the counted pages are gone. -/
structure Deleting (root : CString) (pages : Pages) (selects : Page → Prop) (fs : FileSystem)
    (counted : List (Counted ε)) (fs' : FileSystem) : Prop where
  nodup : (counted.map (·.digest)).Nodup
  page : ∀ c ∈ counted, pages c.digest = some c.page ∧ selects c.page
  gone : ∀ c ∈ counted, fs'.read (EntryPaths.mk root c.digest).headerPath = none
    ∧ fs'.read (EntryPaths.mk root c.digest).bodyPath = none
  kept : ∀ q, (∀ c ∈ counted, q ≠ (EntryPaths.mk root c.digest).headerPath
    ∧ q ≠ (EntryPaths.mk root c.digest).bodyPath) → fs'.read q = fs.read q

variable {fs fs' fs'' : FileSystem}

theorem Deleting.start : Deleting root pages selects fs ([] : List (Counted ε)) fs :=
  ⟨List.nodup_nil, fun _ hc => absurd hc List.not_mem_nil, fun _ hc => absurd hc List.not_mem_nil,
    fun _ _ => rfl⟩

theorem Deleting.shrunk (h : Deleting root pages selects fs counted fs') (q : Path) :
    fs'.read q = fs.read q ∨ fs'.read q = none := by
  by_cases hq : ∀ c ∈ counted, q ≠ (EntryPaths.mk root c.digest).headerPath
      ∧ q ≠ (EntryPaths.mk root c.digest).bodyPath
  · exact Or.inl (h.kept q hq)
  · right
    push Not at hq
    obtain ⟨c, hc, hq⟩ := hq
    by_cases hheader : q = (EntryPaths.mk root c.digest).headerPath
    · rw [hheader]
      exact (h.gone c hc).1
    · rw [hq hheader]
      exact (h.gone c hc).2

/-- A page that has not been counted still has its files. -/
theorem Deleting.read (h : Deleting root pages selects fs counted fs') (hpages : Holds root pages fs)
    (hpage : pages d = some page) (hnew : ∀ c ∈ counted, c.digest ≠ d) :
    fs'.read (EntryPaths.mk root d).headerPath = some page.header
      ∧ fs'.read (EntryPaths.mk root d).bodyPath = some page.body := by
  rw [h.kept _ fun c hc => ⟨fun hq => hnew c hc (EntryPaths.digest_eq_of_headerPath hq).symm,
      EntryPaths.headerPath_ne_bodyPath _ _⟩,
    h.kept _ fun c hc => ⟨(EntryPaths.headerPath_ne_bodyPath _ _).symm,
      fun hq => hnew c hc (EntryPaths.digest_eq_of_bodyPath hq).symm⟩,
    hpages.header, hpages.body, hpage]
  exact ⟨rfl, rfl⟩

/-- The header that a visit finds is that of a page that has not been counted. -/
theorem Deleting.of_header (h : Deleting root pages selects fs counted fs')
    (hpages : Holds root pages fs) {p : Path} (hunder : FileSystem.Under root p)
    (hbody : ∀ d, p ≠ (EntryPaths.mk root d).bodyPath) {b : Bytes} (hread : fs'.read p = some b) :
    ∃ d page, p = (EntryPaths.mk root d).headerPath ∧ pages d = some page
      ∧ ∀ c ∈ counted, c.digest ≠ d := by
  have hold : fs.read p = some b := by
    rcases h.shrunk p with hsame | hgone
    · rw [← hsame, hread]
    · rw [hread] at hgone
      cases hgone
  obtain ⟨d, page, rfl, hpage⟩ := hpages.of_header hunder hbody hold
  refine ⟨d, page, rfl, hpage, ?_⟩
  rintro c hc rfl
  rw [(h.gone c hc).1] at hread
  cases hread

/-- One more page is counted, and its files go. -/
theorem Deleting.take (h : Deleting root pages selects fs counted fs') (hpage : pages d = some page)
    (hselect : selects page) (hnew : ∀ c ∈ counted, c.digest ≠ d)
    (hgone : GoneIf true ⟨root, d⟩ fs' fs'') (note : ε) :
    Deleting root pages selects fs (counted ++ [⟨d, page, note⟩]) fs'' := by
  refine ⟨?_, fun c hc => ?_, fun c hc => ?_, fun q hq => ?_⟩
  · rw [List.map_append, List.map_singleton]
    refine h.nodup.append (List.nodup_singleton d) ?_
    rintro d' hd' hd
    obtain ⟨c, hc, rfl⟩ := List.mem_map.mp hd'
    exact hnew c hc (List.mem_singleton.mp hd)
  · rcases List.mem_append.mp hc with hc | hc
    · exact h.page c hc
    · obtain rfl := List.mem_singleton.mp hc
      exact ⟨hpage, hselect⟩
  · rcases List.mem_append.mp hc with hc | hc
    · have hne := hnew c hc
      rw [(hgone _).2, (hgone _).2]
      · exact h.gone c hc
      · rintro ⟨-, hq | hq⟩
        · exact EntryPaths.headerPath_ne_bodyPath _ _ hq.symm
        · exact hne (EntryPaths.digest_eq_of_bodyPath hq)
      · rintro ⟨-, hq | hq⟩
        · exact hne (EntryPaths.digest_eq_of_headerPath hq)
        · exact EntryPaths.headerPath_ne_bodyPath _ _ hq
    · obtain rfl := List.mem_singleton.mp hc
      exact ⟨(hgone _).1 ⟨rfl, Or.inl rfl⟩, (hgone _).1 ⟨rfl, Or.inr rfl⟩⟩
  · obtain ⟨hheader, hbody⟩ := hq _ (List.mem_append_right _ (List.mem_singleton_self _))
    rw [(hgone q).2]
    · exact h.kept q fun c hc => hq c (List.mem_append_left _ hc)
    · rintro ⟨-, hq | hq⟩
      · exact hheader hq
      · exact hbody hq

/-- When the headers of all selected pages are gone, all of them have been counted. -/
theorem Deleting.countsSelected (h : Deleting root pages selects fs counted fs')
    (hpages : Holds root pages fs)
    (hgone : ∀ d page, pages d = some page → selects page →
      fs'.read (EntryPaths.mk root d).headerPath = none) :
    CountsSelected (pages · = some ·) selects counted := by
  refine ⟨h.nodup, fun d page => ⟨?_, ?_⟩⟩
  · rintro ⟨note, hc⟩
    exact h.page _ hc
  · rintro ⟨hpage, hselect⟩
    have hmem : ∃ c ∈ counted, c.digest = d := by
      by_contra hno
      push Not at hno
      have hheader := (h.read hpages hpage hno).1
      rw [hgone d page hpage hselect] at hheader
      cases hheader
    obtain ⟨⟨d', page', note⟩, hc, rfl⟩ := hmem
    obtain rfl := Option.some.inj (hpage.symm.trans (h.page _ hc).1)
    exact ⟨note, hc⟩

/-- Then the pages that are not selected are left. -/
theorem Deleting.holds (h : Deleting root pages selects fs counted fs')
    (hpages : Holds root pages fs) (hcounts : CountsSelected (pages · = some ·) selects counted)
    (hsharded : EntriesInShards fs') :
    Holds root (Store.Change.apply pages (.discard fun _ page => selects page)) fs' := by
  have hboth : ∀ d, fs'.read (EntryPaths.mk root d).headerPath
        = (Store.Change.apply pages (.discard fun _ page => selects page) d).map Page.header
      ∧ fs'.read (EntryPaths.mk root d).bodyPath
        = (Store.Change.apply pages (.discard fun _ page => selects page) d).map Page.body := by
    intro d
    by_cases hd : ∃ c ∈ counted, c.digest = d
    · obtain ⟨c, hc, rfl⟩ := hd
      obtain ⟨hpage, hselect⟩ := h.page c hc
      rw [Store.apply_discard_of_selects hpage hselect]
      exact h.gone c hc
    · push Not at hd
      cases hpage : pages d with
      | none =>
          rw [Store.apply_discard_of_none hpage]
          have hheader := hpages.header d
          have hbody := hpages.body d
          rw [hpage] at hheader hbody
          exact ⟨(h.shrunk _).elim (·.trans hheader) id, (h.shrunk _).elim (·.trans hbody) id⟩
      | some page =>
          have hno : ¬ selects page := fun hselect => by
            obtain ⟨note, hc⟩ := (hcounts.mem_iff d page).mpr ⟨hpage, hselect⟩
            exact hd _ hc rfl
          rw [Store.apply_discard_of_not hpage hno]
          exact h.read hpages hpage hd
  refine ⟨fun d => (hboth d).1, fun d => (hboth d).2, fun q b hb hunder => ?_, hsharded⟩
  rcases h.shrunk q with hsame | hgone
  · exact hpages.only q b (hsame.symm.trans hb) hunder
  · rw [hb] at hgone
    cases hgone

/-! ### A walk that only reads -/

/-- What a walk has counted that has visited `done`. -/
structure Listing (root : CString) (pages : Pages) (selects : Page → Prop) (done : List Path)
    (counted : List (Counted ε)) : Prop where
  sublist : (counted.map fun c => (EntryPaths.mk root c.digest).headerPath).Sublist done
  page : ∀ c ∈ counted, pages c.digest = some c.page ∧ selects c.page
  complete : ∀ d page, (EntryPaths.mk root d).headerPath ∈ done → pages d = some page →
    selects page → ∃ note, ⟨d, page, note⟩ ∈ counted

theorem Listing.start : Listing root pages selects [] ([] : List (Counted ε)) :=
  ⟨List.Sublist.refl _, fun _ hc => absurd hc List.not_mem_nil,
    fun _ _ hmem => absurd hmem List.not_mem_nil⟩

variable {done : List Path}

/-- A path is passed that no selected page has its header at. -/
theorem Listing.skip (h : Listing root pages selects done counted) {p : Path}
    (hno : ∀ d page, (EntryPaths.mk root d).headerPath = p → pages d = some page →
      ¬ selects page) : Listing root pages selects (done ++ [p]) counted := by
  refine ⟨h.sublist.trans (List.sublist_append_left _ _), h.page, ?_⟩
  intro d page hmem hpage hselect
  rcases List.mem_append.mp hmem with hmem | hmem
  · exact h.complete d page hmem hpage hselect
  · exact absurd hselect (hno d page (List.mem_singleton.mp hmem) hpage)

/-- A page is counted. -/
theorem Listing.take (h : Listing root pages selects done counted) (hpage : pages d = some page)
    (hselect : selects page) (note : ε) :
    Listing root pages selects (done ++ [(EntryPaths.mk root d).headerPath])
      (counted ++ [⟨d, page, note⟩]) := by
  refine ⟨?_, fun c hc => ?_, fun d' page' hmem hpage' hselect' => ?_⟩
  · rw [List.map_append]
    exact h.sublist.append (List.Sublist.refl _)
  · rcases List.mem_append.mp hc with hc | hc
    · exact h.page c hc
    · obtain rfl := List.mem_singleton.mp hc
      exact ⟨hpage, hselect⟩
  · rcases List.mem_append.mp hmem with hmem | hmem
    · obtain ⟨note', hc⟩ := h.complete d' page' hmem hpage' hselect'
      exact ⟨note', List.mem_append_left _ hc⟩
    · obtain rfl := EntryPaths.digest_eq_of_headerPath (List.mem_singleton.mp hmem)
      obtain rfl := Option.some.inj (hpage.symm.trans hpage')
      exact ⟨note, List.mem_append_right _ (List.mem_singleton_self _)⟩

/-- The header of every page is below the root. -/
theorem Holds.mem_filesBelow (h : Holds root pages fs) (hroot : root ≠ [])
    {k : FileSystem.Walking} (hskips : ∀ name : CString,
      (∀ c ∈ name.head?, c ∈ lit "0123456789abcdef") → k.skips name = false)
    (hvisits : ∀ d, k.visits (FileSystem.basename (EntryPaths.mk root d).headerPath) = true)
    {depth : Nat} (hdepth : 3 ≤ depth) (hpage : pages d = some page) :
    (EntryPaths.mk root d).headerPath ∈ FileSystem.filesBelow k fs depth root := by
  obtain ⟨m, rfl⟩ : ∃ m, depth = m + 3 := ⟨depth - 3, by omega⟩
  have hread : fs.read (EntryPaths.mk root d).headerPath = some page.header := by
    rw [h.header, hpage]
    rfl
  have hin := h.sharded (EntryPaths.mk root d) _ hread
  -- The names on the way start with a digit.
  have hlen := EntryPaths.length_hexEncodeMd5 d
  have hhex : ∀ {name : CString}, (∀ c ∈ name.head?, c ∈ hexEncodeMd5 d) → k.skips name = false :=
    fun hname => hskips _ fun c hc => EntryPaths.mem_hexEncodeMd5 (hname c hc)
  refine FileSystem.mem_filesBelow_dir (hin.root hroot)
    (EntryPaths.mk root d).slash_notMem_outerName
    (hhex fun c hc => List.mem_of_mem_take (List.mem_of_mem_head? hc)) hin.outer ?_
  refine FileSystem.mem_filesBelow_dir hin.outer (EntryPaths.mk root d).slash_notMem_innerName
    (hhex fun c hc => List.mem_of_mem_drop (List.mem_of_mem_take (List.mem_of_mem_head? hc)))
    hin.inner ?_
  have hbase := (EntryPaths.mk root d).basename_headerPath
  have hfile : (EntryPaths.mk root d).headerPath = (EntryPaths.mk root d).shard
      ++ chr '/' :: FileSystem.basename (EntryPaths.mk root d).headerPath :=
    ((EntryPaths.mk root d).shard_append_basename).symm
  rw [hfile] at hread ⊢
  refine FileSystem.mem_filesBelow_file hin.inner (FileSystem.slash_notMem_basename _)
    (hhex fun c hc => ?_) (hvisits d) hread
  rw [hbase, List.head?_append_of_ne_nil _ (List.ne_nil_of_length_pos (hlen ▸ by decide))] at hc
  exact List.mem_of_mem_head? hc

/-- A walk that has visited all files below the root has counted each selected page once. -/
theorem Listing.countsSelected (hpages : Holds root pages fs) (htidy : fs.Tidy) (hroot : root ≠ [])
    {k : FileSystem.Walking} (hskips : ∀ name : CString,
      (∀ c ∈ name.head?, c ∈ lit "0123456789abcdef") → k.skips name = false)
    (hvisits : ∀ d, k.visits (FileSystem.basename (EntryPaths.mk root d).headerPath) = true)
    {depth : Nat} (hdepth : 3 ≤ depth)
    (h : Listing root pages selects (FileSystem.filesBelow k fs depth root) counted) :
    CountsSelected (pages · = some ·) selects counted := by
  refine ⟨?_, fun d page => ⟨?_, ?_⟩⟩
  · -- The headers are visited once each.
    have hnodup := (htidy.nodup_filesBelow hroot).sublist h.sublist
    rw [show (fun c : Counted ε => (EntryPaths.mk root c.digest).headerPath)
      = (fun d => (EntryPaths.mk root d).headerPath) ∘ Counted.digest from rfl,
      ← List.map_map] at hnodup
    exact hnodup.of_map _
  · rintro ⟨note, hc⟩
    exact h.page _ hc
  · rintro ⟨hpage, hselect⟩
    exact h.complete d page (hpages.mem_filesBelow hroot hskips hvisits hdepth hpage) hpage hselect

end Counting

/-! ### Programs -/

section Programs

variable {w : World} {α : Type} {p : FileProg α} {Q R : α → World → Prop}

/-- What holds behind a program holds of its run. -/
theorem after_out (h : After p w Q) : Q (run p w).1 (run p w).2 := h

theorem after_after_out {β : Type} {q : FileProg β} {S : α → β → Prop}
    (h : After p w fun a w' => After q w' fun b _ => S a b) :
    S (run p w).1 (run q (run p w).2).1 := h

theorem after_and (hQ : After p w Q) (hR : After p w R) : After p w fun a w' => Q a w' ∧ R a w' :=
  ⟨hQ, hR⟩

/-- What holds behind every program holds behind this one too. -/
theorem after_mono_run (hQ : After p w Q)
    (h : ∀ a w', w'.script = w.script → w.log.length ≤ w'.log.length → Q a w' → R a w') :
    After p w R := h _ _ (run_script p w) (length_log_le_run p w) hQ

/-- Where no call fails, a directory is read if it is there. -/
theorem after_dirRead_ok (hok : w.script.AllOk) {dir : Path}
    {Q : Option (List (CString × Bool)) → World → Prop}
    (hthere : ∀ w', dir ∈ w.fs.dirs → w.Called (.dirRead dir) true w.fs w' →
      Q (some (w.fs.entries dir)) w')
    (habsent : ∀ w', dir ∉ w.fs.dirs → w.Called (.dirRead dir) false w.fs w' → Q none w') :
    After (dirRead dir) w Q := by
  refine after_query (fun w' _ h => ?_) fun w' hfail _ => ?_
  · by_cases hdir : dir ∈ w.fs.dirs
    · rw [if_pos hdir] at h ⊢
      exact hthere w' hdir h
    · rw [if_neg hdir] at h ⊢
      exact habsent w' hdir h
  · rw [hok.allowsAt] at hfail
    cases hfail

end Programs

theorem dirs_subset_lastState {w : World} {visits : List Visit} {dir : Path}
    (h : dir ∈ w.fs.dirs) : dir ∈ (Record.lastState Visit.serve visits w).fs.dirs := by
  induction visits generalizing w with
  | nil => exact h
  | cons v visits ih =>
      have hone : dir ∈ (v.serve w).2.fs.dirs := dirs_subset_run _ w h
      exact ih hone

theorem tidy_lastState {w : World} {visits : List Visit} (h : w.fs.Tidy) :
    (Record.lastState Visit.serve visits w).fs.Tidy := by
  induction visits generalizing w with
  | nil => exact h
  | cons v visits ih =>
      have hone : (v.serve w).2.fs.Tidy := FileSystem.tidy_run _ h
      exact ih hone

end Cacher
