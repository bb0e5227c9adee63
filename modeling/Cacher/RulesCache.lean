import Cacher.RulesFile

/-!
# `Cacher.RulesCache`: the cache of parsed rules files

Request threads run `getRulesetFromFile` while operators edit rules files. Between the calls
of one thread any other thread may move, so a thread may store what it has read under the
modification time and size that it saw before the file was edited.

`RulesWorld.Inv` is what every step keeps: at most one entry for each path, and every entry
that bears the stamp of the current file holds its parse. It rests on `FreshEdit`: an edit
gives the file a stamp that it never had before. What a single thread knows about the file it
is loading is `Known`, and `rulesCache_coherent` puts the threads together.
-/

set_option autoImplicit false

namespace Cacher

open CText Files

/-! ### The shared state -/

/-- What the environment decides about one call. -/
structure RulesOutcome where
  ok : Bool
  /-- The file has been edited in place, so a descriptor reads the current contents. -/
  inPlace : Bool

/-- The rules files, the cache of their parses, and the outcomes of the calls to come. -/
structure RulesWorld where
  files : Path → Option RulesVersion
  /-- Not in the source: the versions that a file has had so far. -/
  past : Path → List RulesVersion
  /-- `rules_cache_head` and what follows it. -/
  cache : List CacherRulesCacheEntry
  script : Nat → RulesOutcome
  calls : Nat

/-- What `apr_stat` says about a version. -/
def RulesVersion.info (v : RulesVersion) : FInfo := ⟨v.mtime, v.contents.length⟩

/-- Assigns to the entry of the same path, if there is one. -/
def assignEntry (new : CacherRulesCacheEntry) :
    List CacherRulesCacheEntry → Option (List CacherRulesCacheEntry)
  | [] => none
  | entry :: rest =>
    if entry.path = new.path then some (new :: rest) else (assignEntry new rest).map (entry :: ·)

/-- The second section under the mutex. A new path comes first. -/
def storeEntry (new : CacherRulesCacheEntry) (cache : List CacherRulesCacheEntry) :
    List CacherRulesCacheEntry :=
  (assignEntry new cache).getD (new :: cache)

namespace RulesWorld

/-- One call has been made. -/
def tick (w : RulesWorld) : RulesWorld := { w with calls := w.calls + 1 }

/-- The outcome of the next call. -/
def outcome (w : RulesWorld) : RulesOutcome := w.script w.calls

/-- What each call does. -/
def answer (w : RulesWorld) : (op : RulesOp) → RulesAns op × RulesWorld
  | .stat path => (if w.outcome.ok then (w.files path).map (·.info) else none, w.tick)
  | .find path => (w.cache.find? (·.path = path), w.tick)
  | .openRead path => (if w.outcome.ok then (w.files path).map (·.contents) else none, w.tick)
  | .readFull path file nbytes =>
    let data := if w.outcome.inPlace then ((w.files path).map (·.contents)).getD file else file
    (if w.outcome.ok ∧ nbytes ≤ data.length then some (data.take nbytes) else none, w.tick)
  | .store path mtime size ruleset =>
    ((), { w.tick with cache := storeEntry ⟨path, mtime, size, ruleset⟩ w.cache })
  | .edit path version =>
    ((), { w.tick with
      files := Function.update w.files path version
      past := Function.update w.past path (version.toList ++ w.past path) })

end RulesWorld

/-- A request that reads the rules file of its directory, or an edit. -/
inductive RulesThread where
  | request (dconf : CacherDirConf)
  | edit (path : Path) (version : Option RulesVersion)

/-- What a thread does. -/
def RulesThread.prog (env : RulesEnv) : RulesThread → RulesProg (Option (Option CacherRuleset))
  | .request dconf => getRulesetFromFile env dconf
  | .edit path version => do
    let _ ← Prog.perform (RulesOp.edit path version)
    pure none

/-- Threads over one cache. -/
abbrev RulesPool : Type := Prog.Pool RulesWorld RulesOp RulesAns (Option (Option CacherRuleset))

/-- The pool before the first step. -/
def RulesPool.start (env : RulesEnv) (threads : List RulesThread) (w : RulesWorld) : RulesPool :=
  ⟨threads.map (·.prog env), w⟩

/-- The cache is empty, and every file has begun its history. -/
structure RulesWorld.Started (w : RulesWorld) : Prop where
  empty : w.cache = []
  past : ∀ path v, w.files path = some v → v ∈ w.past path

/-- An edit gives a file a stamp that none of its versions had. -/
def FreshOp (w : RulesWorld) : RulesOp → Prop
  | .edit path (some v) => v.info ∉ (w.past path).map (·.info)
  | _ => True

/-- The next call of thread `i` is such an edit, if it is one. -/
def FreshEdit (c : RulesPool) (i : Nat) : Prop :=
  ∀ op next, c.threads[i]? = some (.call op next) → FreshOp c.shared op

/-- The next call of thread `i` is no edit of the file. -/
def NoEdit (path : Path) (c : RulesPool) (i : Nat) : Prop :=
  ∀ version next, c.threads[i]? ≠ some (.call (.edit path version) next)

/-- The cache is coherent: one entry for each path, and an entry with the stamp of the current
file holds the parse of its contents. -/
structure RulesWorld.Coherent (parse : CString → Option CacherRuleset) (w : RulesWorld) : Prop where
  nodup : (w.cache.map (·.path)).Nodup
  parsed : ∀ entry ∈ w.cache, ∀ v, w.files entry.path = some v → entry.mtime = v.mtime →
    entry.size = v.contents.length → entry.ruleset = parse (ofBytes v.contents)

/-- What a call of `get_ruleset_from_file` returns, when `w` is the state at its end. -/
structure Returns (env : RulesEnv) (w : RulesWorld) (path : Path)
    (result : Option (Option CacherRuleset)) : Prop where
  /-- A ruleset, or NULL for want of one, is the parse of the current contents. -/
  parsed : ∀ ruleset, result = some ruleset →
    ∃ v, w.files path = some v ∧ ruleset = env.rulesetParse (ofBytes v.contents)
  /-- Nothing but a failing call keeps it from that. -/
  loaded : env.mutex = true → (∀ n, (w.script n).ok = true) → w.files path ≠ none → result ≠ none

/-! ### The second section under the mutex -/

section StoreEntry

variable {new entry : CacherRulesCacheEntry} {cache : List CacherRulesCacheEntry}

theorem assignEntry_eq_none : assignEntry new cache = none ↔ new.path ∉ cache.map (·.path) := by
  induction cache with
  | nil => simp [assignEntry]
  | cons e rest ih =>
      rw [assignEntry]
      by_cases he : e.path = new.path
      · simp [he]
      · rw [if_neg he, Option.map_eq_none_iff, ih]
        simp [Ne.symm he]

theorem map_path_assignEntry {cache' : List CacherRulesCacheEntry}
    (h : assignEntry new cache = some cache') : cache'.map (·.path) = cache.map (·.path) := by
  induction cache generalizing cache' with
  | nil => cases h
  | cons e rest ih =>
      rw [assignEntry] at h
      split at h
      · rename_i he
        cases h
        simp [he]
      · obtain ⟨rest', hrest, rfl⟩ := Option.map_eq_some_iff.mp h
        simp [ih hrest]

theorem mem_assignEntry {cache' : List CacherRulesCacheEntry}
    (h : assignEntry new cache = some cache') (hnodup : (cache.map (·.path)).Nodup)
    (he : entry ∈ cache') : entry = new ∨ entry ∈ cache ∧ entry.path ≠ new.path := by
  induction cache generalizing cache' with
  | nil => cases h
  | cons e rest ih =>
      rw [List.map_cons, List.nodup_cons] at hnodup
      rw [assignEntry] at h
      split at h
      · rename_i hpath
        cases h
        rcases List.mem_cons.mp he with rfl | hmem
        · exact Or.inl rfl
        · -- The path occurs once, and that was at the head.
          refine Or.inr ⟨List.mem_cons_of_mem _ hmem, fun heq => hnodup.1 ?_⟩
          rw [hpath, ← heq]
          exact List.mem_map_of_mem hmem
      · rename_i hpath
        obtain ⟨rest', hrest, rfl⟩ := Option.map_eq_some_iff.mp h
        rcases List.mem_cons.mp he with rfl | hmem
        · exact Or.inr ⟨List.mem_cons_self, hpath⟩
        · rcases ih hrest hnodup.2 hmem with hnew | ⟨hold, hne⟩
          · exact Or.inl hnew
          · exact Or.inr ⟨List.mem_cons_of_mem _ hold, hne⟩

theorem nodup_storeEntry (h : (cache.map (·.path)).Nodup) :
    ((storeEntry new cache).map (·.path)).Nodup := by
  unfold storeEntry
  cases hassign : assignEntry new cache with
  | none =>
      rw [Option.getD_none, List.map_cons, List.nodup_cons]
      exact ⟨assignEntry_eq_none.mp hassign, h⟩
  | some cache' =>
      rw [Option.getD_some, map_path_assignEntry hassign]
      exact h

/-- The new entry displaces the one of its path. -/
theorem mem_storeEntry (h : (cache.map (·.path)).Nodup) (he : entry ∈ storeEntry new cache) :
    entry = new ∨ entry ∈ cache ∧ entry.path ≠ new.path := by
  unfold storeEntry at he
  cases hassign : assignEntry new cache with
  | none =>
      rw [hassign, Option.getD_none] at he
      rcases List.mem_cons.mp he with rfl | hmem
      · exact Or.inl rfl
      · refine Or.inr ⟨hmem, fun heq => assignEntry_eq_none.mp hassign ?_⟩
        rw [← heq]
        exact List.mem_map_of_mem hmem
  | some cache' =>
      rw [hassign, Option.getD_some] at he
      exact mem_assignEntry hassign h he

end StoreEntry

/-! ### What every step keeps -/

/-- The invariant of the shared state. -/
structure RulesWorld.Inv (parse : CString → Option CacherRuleset) (w : RulesWorld) : Prop where
  coherent : w.Coherent parse
  /-- Stamps come from versions that the file has had. -/
  stamped : ∀ entry ∈ w.cache, ⟨entry.mtime, entry.size⟩ ∈ (w.past entry.path).map (·.info)
  past : ∀ path v, w.files path = some v → v ∈ w.past path

/-- How the files may move on: histories grow, and a new version has a new stamp. -/
structure RulesWorld.Moves (w w' : RulesWorld) : Prop where
  past : ∀ path, w.past path ⊆ w'.past path
  fresh : ∀ path v, w'.files path = some v →
    w.files path = some v ∨ v.info ∉ (w.past path).map (·.info)
  script_eq : w'.script = w.script

/-- What a thread knows between its calls when it has seen the stamp `finfo` of the file and
`data` as its contents: as long as that stamp is the current one, so are the contents. -/
structure Known (path : Path) (finfo : FInfo) (data : Bytes) (w : RulesWorld) : Prop where
  seen : finfo ∈ (w.past path).map (·.info)
  current : ∀ v, w.files path = some v → v.info = finfo → data = v.contents

/-- A store puts in what is known. -/
def StoreOk (parse : CString → Option CacherRuleset) (w : RulesWorld) : RulesOp → Prop
  | .store path mtime size ruleset =>
    ∃ data, Known path ⟨mtime, size⟩ data w ∧ ruleset = parse (ofBytes data)
  | _ => True

section Steps

variable {parse : CString → Option CacherRuleset} {w w' w'' : RulesWorld} {path : Path}
  {finfo : FInfo} {data : Bytes}

theorem RulesWorld.Moves.refl (w : RulesWorld) : w.Moves w :=
  ⟨fun _ => List.Subset.refl _, fun _ _ h => Or.inl h, rfl⟩

theorem RulesWorld.Moves.trans (h : w.Moves w') (h' : w'.Moves w'') : w.Moves w'' := by
  refine ⟨fun path => List.Subset.trans (h.past path) (h'.past path), fun path v hv => ?_,
    h'.script_eq.trans h.script_eq⟩
  rcases h'.fresh path v hv with hold | hnew
  · exact h.fresh path v hold
  · exact Or.inr fun hmem => hnew (List.map_subset _ (h.past path) hmem)

theorem Known.moves (h : Known path finfo data w) (hmoves : w.Moves w') :
    Known path finfo data w' := by
  refine ⟨List.map_subset _ (hmoves.past path) h.seen, fun v hv hinfo => ?_⟩
  rcases hmoves.fresh path v hv with hold | hnew
  · exact h.current v hold hinfo
  · -- A new version has another stamp.
    rw [hinfo] at hnew
    exact absurd h.seen hnew

/-- An edit with a fresh stamp leaves no entry with the stamp of the new file. -/
theorem RulesWorld.Inv.edit (h : w.Inv parse) {version : Option RulesVersion}
    (hfresh : FreshOp w (.edit path version)) :
    (w.answer (.edit path version)).2.Inv parse ∧ w.Moves (w.answer (.edit path version)).2 := by
  -- The new version is the one of the edit, and its stamp is new.
  have hnew : ∀ v, version = some v → v.info ∉ (w.past path).map (·.info) := by
    intro v hv
    subst hv
    exact hfresh
  have hpast : ∀ q, w.past q ⊆ Function.update w.past path (version.toList ++ w.past path) q := by
    intro q
    by_cases hq : q = path
    · subst hq
      rw [Function.update_self]
      exact List.subset_append_right _ _
    · rw [Function.update_of_ne hq]
      exact List.Subset.refl _
  have hfiles : ∀ q v, Function.update w.files path version q = some v →
      w.files q = some v ∨ v.info ∉ (w.past q).map (·.info) := by
    intro q v hv
    by_cases hq : q = path
    · subst hq
      rw [Function.update_self] at hv
      exact Or.inr (hnew v hv)
    · rw [Function.update_of_ne hq] at hv
      exact Or.inl hv
  refine ⟨⟨⟨h.coherent.nodup, fun entry hentry v hv hmtime hsize => ?_⟩, fun entry hentry => ?_,
    fun q v hv => ?_⟩, hpast, hfiles, rfl⟩
  · rcases hfiles _ v hv with hold | hnew
    · exact h.coherent.parsed entry hentry v hold hmtime hsize
    · have hstamp := h.stamped entry hentry
      rw [hmtime, hsize] at hstamp
      exact absurd hstamp hnew
  · exact List.map_subset _ (hpast _) (h.stamped entry hentry)
  · by_cases hq : q = path
    · subst hq
      change Function.update w.files q version q = some v at hv
      rw [Function.update_self] at hv
      show v ∈ Function.update w.past q (version.toList ++ w.past q) q
      rw [Function.update_self, hv]
      exact List.mem_cons_self
    · change Function.update w.files path version q = some v at hv
      rw [Function.update_of_ne hq] at hv
      exact hpast q (h.past q v hv)

/-- A store of what is known keeps the cache coherent. -/
theorem RulesWorld.Inv.store (h : w.Inv parse) {mtime : Int64} {size : Nat}
    {ruleset : Option CacherRuleset} (hstore : StoreOk parse w (.store path mtime size ruleset)) :
    (w.answer (.store path mtime size ruleset)).2.Inv parse := by
  obtain ⟨data, hknown, hparse⟩ := hstore
  have hmem : ∀ {entry}, entry ∈ storeEntry ⟨path, mtime, size, ruleset⟩ w.cache →
      entry = ⟨path, mtime, size, ruleset⟩ ∨ entry ∈ w.cache ∧ entry.path ≠ path :=
    fun hentry => mem_storeEntry h.coherent.nodup hentry
  refine ⟨⟨nodup_storeEntry h.coherent.nodup, fun entry hentry v hv hmtime hsize => ?_⟩,
    fun entry hentry => ?_, h.past⟩
  · rcases hmem hentry with rfl | ⟨hold, -⟩
    · rw [hparse, hknown.current v hv ?_]
      rw [RulesVersion.info, ← hmtime, ← hsize]
    · exact h.coherent.parsed entry hold v hv hmtime hsize
  · rcases hmem hentry with rfl | ⟨hold, -⟩
    · exact hknown.seen
    · exact h.stamped entry hold

/-- Every call keeps the invariant, and moves the files as they may move. -/
theorem RulesWorld.Inv.answer (h : w.Inv parse) {op : RulesOp} (hfresh : FreshOp w op)
    (hstore : StoreOk parse w op) : (w.answer op).2.Inv parse ∧ w.Moves (w.answer op).2 := by
  have htick : w.tick.Inv parse ∧ w.Moves w.tick :=
    ⟨⟨⟨h.coherent.nodup, h.coherent.parsed⟩, h.stamped, h.past⟩,
      ⟨fun _ => List.Subset.refl _, fun _ _ hv => Or.inl hv, rfl⟩⟩
  cases op with
  | stat path => exact htick
  | find path => exact htick
  | openRead path => exact htick
  | readFull path file nbytes => exact htick
  | store path mtime size ruleset =>
      exact ⟨h.store hstore, ⟨fun _ => List.Subset.refl _, fun _ _ hv => Or.inl hv, rfl⟩⟩
  | edit path version => exact h.edit hfresh

/-- Only an edit of a file changes it. -/
theorem RulesWorld.files_answer {op : RulesOp} (h : ∀ version, op ≠ .edit path version) :
    (w.answer op).2.files path = w.files path := by
  cases op with
  | edit path' version =>
      have hne : path ≠ path' := by
        rintro rfl
        exact h version rfl
      exact Function.update_of_ne hne _ _
  | stat _ => rfl
  | find _ => rfl
  | openRead _ => rfl
  | readFull _ _ _ => rfl
  | store _ _ _ _ => rfl

end Steps

/-! ### What one thread does among others -/

/-- Between two calls of a thread the others move the files, except the one that it watches. -/
def RulesRely (_ : RulesProg (Option (Option CacherRuleset))) (watched : Option Path)
    (w w' : RulesWorld) : Prop :=
  w.Moves w' ∧ ∀ path, watched = some path → w'.files path = w.files path

/-- The state that a thread finds, with the stamp of its edit still free. -/
def RulesReady (parse : CString → Option CacherRuleset)
    (p : RulesProg (Option (Option CacherRuleset))) (w : RulesWorld) : Prop :=
  w.Inv parse ∧ ∀ op, p.nextOp? = some op → FreshOp w op

/-- A thread goes on watching, and stores only what is known. -/
def RulesAllows (parse : CString → Option CacherRuleset) (watched : Option Path) (w : RulesWorld)
    (p : RulesProg (Option (Option CacherRuleset))) (watched' : Option Path) : Prop :=
  watched' = watched ∧ ∀ op, p.nextOp? = some op → StoreOk parse w op

/-- What a thread that watches `path` returns if the file is `version` all the time. -/
def Promised (env : RulesEnv) (path : Path) (version : Option RulesVersion)
    (script : Nat → RulesOutcome) (watched : Option Path)
    (result : Option (Option CacherRuleset)) : Prop :=
  watched = some path →
    (∀ ruleset, result = some ruleset →
      ∃ v, version = some v ∧ ruleset = env.rulesetParse (ofBytes v.contents))
    ∧ (env.mutex = true → (∀ n, (script n).ok = true) → version ≠ none → result ≠ none)

/-- The thread does its part, and returns what is promised. -/
abbrev DoesPart (env : RulesEnv) (path : Path) (version : Option RulesVersion)
    (script : Nat → RulesOutcome) (p : RulesProg (Option (Option CacherRuleset)))
    (watched : Option Path) (w : RulesWorld) : Prop :=
  Prog.Among RulesWorld.answer (RulesReady env.rulesetParse) RulesRely
    (RulesAllows env.rulesetParse) (Promised env path version script watched) p watched w

section Thread

variable {env : RulesEnv} {path : Path} {version : Option RulesVersion}
  {script : Nat → RulesOutcome} {watched : Option Path} {w : RulesWorld} {finfo : FInfo}

/-- A thread with a stamp of the file reads the file and stores its parse. -/
theorem doesPart_loadRuleset (hscript : w.script = script)
    (hseen : finfo ∈ (w.past path).map (·.info))
    (hwatched : watched = some path →
      ∃ v, version = some v ∧ v.info = finfo ∧ w.files path = some v) :
    DoesPart env path version script (loadRuleset env path finfo) watched w := by
  intro w₁ hrely₁ _
  refine ⟨watched, ⟨rfl, fun op hop => by cases hop; trivial⟩, ?_⟩
  have hscript₁ : w₁.script = script := hrely₁.1.script_eq.trans hscript
  have hseen₁ := List.map_subset (·.info) (hrely₁.1.past path) hseen
  generalize hopen : (w₁.answer (.openRead path)).1 = answer
  change (if w₁.outcome.ok then (w₁.files path).map (·.contents) else none) = answer at hopen
  cases answer with
  | none =>
      intro hown
      refine ⟨fun ruleset h => (by cases h), fun _ hall _ _ => ?_⟩
      obtain ⟨v, -, -, hfile⟩ := hwatched hown
      rw [RulesWorld.outcome, hscript₁, if_pos (hall _), hrely₁.2 path hown, hfile] at hopen
      cases hopen
  | some f =>
      -- What has been opened are the contents at this time.
      have hknown₁ : Known path finfo f w₁.tick := by
        refine ⟨hseen₁, fun v hv _ => ?_⟩
        change w₁.files path = some v at hv
        rw [hv] at hopen
        split at hopen
        · cases hopen
          rfl
        · cases hopen
      intro w₂ hrely₂ _
      refine ⟨watched, ⟨rfl, fun op hop => by cases hop; trivial⟩, ?_⟩
      have hscript₂ : w₂.script = script := hrely₂.1.script_eq.trans hscript₁
      have hknown₂ := hknown₁.moves hrely₂.1
      have hdata : Known path finfo
          (if w₂.outcome.inPlace then ((w₂.files path).map (·.contents)).getD f else f) w₂ := by
        refine ⟨hknown₂.seen, fun v hv hinfo => ?_⟩
        split
        · rw [hv]
          rfl
        · exact hknown₂.current v hv hinfo
      generalize hfull : (w₂.answer (.readFull path f finfo.size)).1 = answer
      simp only [RulesWorld.answer] at hfull
      generalize (if w₂.outcome.inPlace then ((w₂.files path).map (·.contents)).getD f else f)
        = data at hdata hfull
      -- A watched file is still the one whose stamp was taken.
      have hfile₂ : watched = some path →
          ∃ v, version = some v ∧ v.info = finfo ∧ w₂.files path = some v := by
        intro hown
        obtain ⟨v, hv, hinfo, hfile⟩ := hwatched hown
        refine ⟨v, hv, hinfo, ?_⟩
        rw [hrely₂.2 path hown]
        show w₁.files path = some v
        rw [hrely₁.2 path hown, hfile]
      cases answer with
      | none =>
          intro hown
          refine ⟨fun ruleset h => (by cases h), fun _ hall _ _ => ?_⟩
          obtain ⟨v, -, hinfo, hfile⟩ := hfile₂ hown
          have hsize : finfo.size = data.length := by
            rw [hdata.current v hfile hinfo, ← hinfo]
            rfl
          rw [RulesWorld.outcome, hscript₂, if_pos ⟨hall _, by rw [hsize]⟩] at hfull
          cases hfull
      | some buf =>
          have hbuf : Known path finfo buf w₂.tick := by
            refine ⟨hdata.seen, fun v hv hinfo => ?_⟩
            split at hfull
            · cases hfull
              have heq := hdata.current v hv hinfo
              rw [heq, ← hinfo]
              exact List.take_length
            · cases hfull
          intro w₃ hrely₃ _
          have hknown₃ := hbuf.moves hrely₃.1
          refine ⟨watched, ⟨rfl, fun op hop => ?_⟩, fun hown => ⟨fun ruleset h => ?_, ?_⟩⟩
          · cases hop
            exact ⟨buf, hknown₃, rfl⟩
          · cases h
            obtain ⟨v, hv, hinfo, hfile⟩ := hfile₂ hown
            exact ⟨v, hv, by rw [hbuf.current v hfile hinfo]⟩
          · exact fun _ _ _ => Option.some_ne_none _

/-- A call of `get_ruleset_from_file` does its part from any state. -/
theorem doesPart_getRulesetAt (version : Option RulesVersion) (hscript : w.script = script)
    (hversion : watched = some path → w.files path = version) :
    DoesPart env path version script (getRulesetAt env path) watched w := by
  intro w₁ hrely₁ hready₁
  refine ⟨watched, ⟨rfl, fun op hop => by cases hop; trivial⟩, ?_⟩
  have hscript₁ : w₁.script = script := hrely₁.1.script_eq.trans hscript
  have hversion₁ : watched = some path → w₁.files path = version := fun hown =>
    (hrely₁.2 path hown).trans (hversion hown)
  generalize hstat : (w₁.answer (.stat path)).1 = answer
  change (if w₁.outcome.ok then (w₁.files path).map (·.info) else none) = answer at hstat
  cases answer with
  | none =>
      intro hown
      refine ⟨fun ruleset h => (by cases h), fun _ hall hsome _ => ?_⟩
      rw [RulesWorld.outcome, hscript₁, if_pos (hall _), hversion₁ hown, Option.map_eq_none_iff]
        at hstat
      exact hsome hstat
  | some finfo =>
      have hfile₁ : ∃ v, w₁.files path = some v ∧ v.info = finfo := by
        split at hstat
        · exact Option.map_eq_some_iff.mp hstat
        · cases hstat
      obtain ⟨v, hfile₁, hinfo⟩ := hfile₁
      have hseen₁ : finfo ∈ (w₁.past path).map (·.info) :=
        List.mem_map.mpr ⟨v, hready₁.1.past path v hfile₁, hinfo⟩
      intro w₂ hrely₂ hready₂
      refine ⟨watched, ⟨rfl, fun op hop => by cases hop; trivial⟩, ?_⟩
      have hfile₂ : watched = some path → version = some v ∧ w₂.files path = some v := by
        intro hown
        refine ⟨by rw [← hversion₁ hown, hfile₁], ?_⟩
        rw [hrely₂.2 path hown]
        exact hfile₁
      have hload : DoesPart env path version script (loadRuleset env path finfo) watched w₂.tick := by
        refine doesPart_loadRuleset (hrely₂.1.script_eq.trans hscript₁)
          (List.map_subset _ (hrely₂.1.past path) hseen₁) fun hown => ?_
        obtain ⟨hv, hfile⟩ := hfile₂ hown
        exact ⟨v, hv, hinfo, hfile⟩
      generalize hfind : (w₂.answer (.find path)).1 = answer
      change w₂.cache.find? (·.path = path) = answer at hfind
      cases answer with
      | none => exact hload
      | some entry =>
          show DoesPart env path version script (if _ then _ else _) watched w₂.tick
          split
          · -- The entry bears the stamp just taken.
            rename_i hstamp
            intro hown
            refine ⟨fun ruleset h => ?_, fun _ _ _ => Option.some_ne_none _⟩
            cases h
            obtain ⟨hv, hfile⟩ := hfile₂ hown
            have hpath : entry.path = path := by simpa using List.find?_some hfind
            refine ⟨v, hv, hready₂.1.coherent.parsed entry (List.mem_of_find?_eq_some hfind) v ?_
              ?_ ?_⟩
            · rw [hpath, hfile]
            · rw [hstamp.1, ← hinfo]
              rfl
            · rw [hstamp.2, ← hinfo]
              rfl
          · exact hload

/-- So does a call for a directory, on the file that its configuration resolves to. -/
theorem doesPart_getRulesetFromFile {dconf : CacherDirConf}
    (hpath : ∀ path', resolveRulesFilePath env.filepathMerge dconf = some path' →
      DoesPart env path version script (getRulesetAt env path') watched w)
    (hresolve : watched = some path →
      resolveRulesFilePath env.filepathMerge dconf = some path) :
    DoesPart env path version script (getRulesetFromFile env dconf) watched w := by
  unfold getRulesetFromFile
  cases hmutex : env.mutex with
  | false => exact fun _ => ⟨fun ruleset h => (by cases h), fun h => by rw [hmutex] at h; cases h⟩
  | true =>
      rw [Bool.not_true, if_neg Bool.false_ne_true]
      cases hmerge : resolveRulesFilePath env.filepathMerge dconf with
      | none =>
          intro hown
          rw [hresolve hown] at hmerge
          cases hmerge
      | some path' => exact hpath path' hmerge

/-- A thread that watches nothing promises nothing, and does its part. -/
theorem doesPart_prog (thread : RulesThread) (hscript : w.script = script) :
    DoesPart env path version script (thread.prog env) none w := by
  cases thread with
  | request dconf =>
      refine doesPart_getRulesetFromFile (fun path' _ => ?_) fun hown => by cases hown
      exact (doesPart_getRulesetAt version hscript fun hown => by cases hown).mono
        fun result _ hown => by cases hown
  | edit path' version' =>
      intro w₁ _ _
      exact ⟨none, ⟨rfl, fun op hop => by cases hop; trivial⟩, fun hown => by cases hown⟩

end Thread

/-! ### All threads together -/

section Pool

variable (env : RulesEnv) (path : Path) (version : Option RulesVersion)
  (script : Nat → RulesOutcome) {c : RulesPool} {schedule : List Nat}

/-- While nobody edits a file that is watched, the invariant holds and every thread goes on
doing its part. -/
theorem rulesPool_run (watched : Nat → Option Path)
    (hg : Prog.Pool.Guarded RulesWorld.answer
      (fun c i => FreshEdit c i ∧ ∀ k q, watched k = some q → NoEdit q c i) c schedule)
    (hinv : c.shared.Inv env.rulesetParse)
    (hc : ∀ i p, c.threads[i]? = some p →
      DoesPart env path version script p (watched i) c.shared) :
    (Prog.Pool.run RulesWorld.answer c schedule).shared.Inv env.rulesetParse
      ∧ ∀ i p, (Prog.Pool.run RulesWorld.answer c schedule).threads[i]? = some p →
        DoesPart env path version script p (watched i)
          (Prog.Pool.run RulesWorld.answer c schedule).shared := by
  suffices hrun : ∃ watched',
      ((Prog.Pool.run RulesWorld.answer c schedule).shared.Inv env.rulesetParse
        ∧ watched' = watched)
      ∧ ∀ i p, (Prog.Pool.run RulesWorld.answer c schedule).threads[i]? = some p →
        Prog.Among RulesWorld.answer (RulesReady env.rulesetParse) RulesRely
          (RulesAllows env.rulesetParse) (Promised env path version script (watched i)) p
          (watched' i) (Prog.Pool.run RulesWorld.answer c schedule).shared by
    obtain ⟨watched', ⟨hinv', rfl⟩, hc'⟩ := hrun
    exact ⟨hinv', hc'⟩
  refine Prog.Pool.among_inv
    (J := fun c own => c.shared.Inv env.rulesetParse ∧ own = watched)
    (fun _ _ _ => ⟨.refl _, fun _ _ => rfl⟩)
    (fun _ _ _ _ _ h₁ h₂ =>
      ⟨h₁.1.trans h₂.1, fun q hq => (h₂.2 q hq).trans (h₁.2 q hq)⟩)
    (fun c own i p hG hJ hp => ⟨hJ.1, fun op hop => ?ready⟩)
    (fun c own i op next own' hG hJ hi hallows => ?step) hg ⟨hinv, rfl⟩ hc
  case ready =>
    cases p with
    | done a => cases hop
    | call op' next =>
        cases hop
        exact hG.1 op next hp
  case step =>
    obtain ⟨hinv, rfl⟩ := hJ
    obtain ⟨rfl, hstore⟩ := hallows
    obtain ⟨hinv', hmoves⟩ := hinv.answer (hG.1 op next hi) (hstore op rfl)
    refine ⟨⟨?_, Function.update_eq_self _ _⟩, fun k p _ _ => ⟨hmoves, fun q hq => ?_⟩⟩
    · rw [Prog.Pool.stepAt_call hi]
      exact hinv'
    · refine RulesWorld.files_answer fun version hop => ?_
      subst hop
      exact hG.2 k q hq version next hi

/-- A file that nobody edits stays as it is. -/
theorem files_rulesPool_run
    (hg : Prog.Pool.Guarded RulesWorld.answer (NoEdit path) c schedule) :
    (Prog.Pool.run RulesWorld.answer c schedule).shared.files path = c.shared.files path := by
  refine Prog.Pool.run_inv_of_guarded
    (I := fun c' : RulesPool => c'.shared.files path = c.shared.files path)
    (fun c' i hG hI => ?_) hg rfl
  cases hi : c'.threads[i]? with
  | none =>
      rw [Prog.Pool.stepAt_none hi]
      exact hI
  | some p =>
      cases p with
      | done a =>
          rw [Prog.Pool.stepAt_done hi]
          exact hI
      | call op next =>
          rw [Prog.Pool.stepAt_call hi]
          show (c'.shared.answer op).2.files path = _
          rw [RulesWorld.files_answer fun version hop => ?_]
          · exact hI
          · subst hop
            exact hG version next hi

/-- The outcomes to come are not touched. -/
theorem script_rulesPool_run (c : RulesPool) (schedule : List Nat) :
    (Prog.Pool.run RulesWorld.answer c schedule).shared.script = c.shared.script := by
  refine Prog.Pool.run_inv_of_guarded (G := fun _ _ => True)
    (I := fun c' : RulesPool => c'.shared.script = c.shared.script)
    (fun c' i _ hI => ?_) (Prog.Pool.guarded_iff.mpr fun _ _ _ => trivial) rfl
  cases hi : c'.threads[i]? with
  | none =>
      rw [Prog.Pool.stepAt_none hi]
      exact hI
  | some p =>
      cases p with
      | done a =>
          rw [Prog.Pool.stepAt_done hi]
          exact hI
      | call op next =>
          rw [Prog.Pool.stepAt_call hi]
          have hsame : (c'.shared.answer op).2.script = c'.shared.script := by
            cases op <;> rfl
          exact hsame.trans hI

end Pool

/-- The rules-file cache is coherent. However the calls of the request threads and the edits
interleave, in every state there is at most one entry for each path, and one with the stamp of
the current file holds its parse. A call during which its file is not edited returns the parse
of the current contents, unless one of its calls fails. -/
theorem rulesCache_coherent (env : RulesEnv) (threads : List RulesThread) (w : RulesWorld)
    (hstart : w.Started) (schedule : List Nat)
    (hfresh : Prog.Pool.Guarded RulesWorld.answer FreshEdit (RulesPool.start env threads w)
      schedule) :
    let c := Prog.Pool.run RulesWorld.answer (RulesPool.start env threads w) schedule
    c.shared.Coherent env.rulesetParse
      ∧ ∀ (i : Nat) (dconf : CacherDirConf) (path : Path) (window : List Nat),
        c.threads[i]? = some (getRulesetFromFile env dconf) →
        resolveRulesFilePath env.filepathMerge dconf = some path →
        Prog.Pool.Guarded RulesWorld.answer (fun c k => FreshEdit c k ∧ NoEdit path c k) c window →
        ∀ result, (Prog.Pool.run RulesWorld.answer c window).threads[i]? = some (.done result) →
          Returns env (Prog.Pool.run RulesWorld.answer c window).shared path result := by
  intro c
  have hinv : w.Inv env.rulesetParse := by
    refine ⟨⟨?_, fun entry hentry => ?_⟩, fun entry hentry => ?_, hstart.past⟩
    · rw [hstart.empty]
      exact List.nodup_nil
    · rw [hstart.empty] at hentry
      cases hentry
    · rw [hstart.empty] at hentry
      cases hentry
  -- From the start nobody watches a file.
  have hrun : ∀ path version, c.shared.Inv env.rulesetParse
      ∧ ∀ (i : Nat) p, c.threads[i]? = some p →
      DoesPart env path version w.script p none c.shared := by
    intro path version
    refine rulesPool_run env path version w.script (fun _ => none) (c := RulesPool.start env threads w)
      (Prog.Pool.guarded_iff.mpr fun k i hk => ⟨?_, fun _ _ hq => by cases hq⟩) hinv
      fun i p hp => ?_
    · exact Prog.Pool.guarded_iff.mp hfresh k i hk
    · rw [RulesPool.start, List.getElem?_map, Option.map_eq_some_iff] at hp
      obtain ⟨thread, -, rfl⟩ := hp
      exact doesPart_prog thread rfl
  refine ⟨(hrun [] none).1.coherent, fun i dconf path window hi hresolve hwindow result hdone => ?_⟩
  have hscript : c.shared.script = w.script := script_rulesPool_run _ schedule
  -- During the call, its thread watches the file.
  obtain ⟨-, hparts⟩ := rulesPool_run env path (c.shared.files path) w.script
    (Function.update (fun _ => none) i (some path)) (c := c)
    (Prog.Pool.guarded_iff.mpr fun k j hk => by
      obtain ⟨hfresh, hno⟩ := Prog.Pool.guarded_iff.mp hwindow k j hk
      refine ⟨hfresh, fun k' q hq => ?_⟩
      by_cases hki : k' = i
      · subst hki
        rw [Function.update_self] at hq
        cases hq
        exact hno
      · rw [Function.update_of_ne hki] at hq
        cases hq) (hrun path none).1 fun j p hp => by
      by_cases hji : j = i
      · subst hji
        rw [hi] at hp
        cases hp
        rw [Function.update_self]
        refine doesPart_getRulesetFromFile (fun path' hpath' => ?_) fun _ => hresolve
        rw [hresolve] at hpath'
        cases hpath'
        exact doesPart_getRulesetAt _ hscript fun _ => rfl
      · rw [Function.update_of_ne hji]
        exact (hrun path _).2 j p hp
  have hresult := hparts i _ hdone
  rw [Function.update_self] at hresult
  obtain ⟨hparsed, hloaded⟩ := hresult rfl
  have hfiles := files_rulesPool_run path
    (Prog.Pool.guarded_iff.mpr fun k j hk => (Prog.Pool.guarded_iff.mp hwindow k j hk).2)
  refine ⟨fun ruleset h => ?_, fun hmutex hall hfile => ?_⟩
  · rw [hfiles]
    exact hparsed ruleset h
  · rw [script_rulesPool_run, hscript] at hall
    rw [hfiles] at hfile
    exact hloaded hmutex hall hfile

/-- A rules file in its first version, and an empty cache. -/
def RulesWorld.sample : RulesWorld where
  files := fun path => if path = lit "/www/rules.json" then some ⟨1, [1, 2]⟩ else none
  past := fun path => if path = lit "/www/rules.json" then [⟨1, [1, 2]⟩] else []
  cache := []
  script := fun _ => ⟨true, false⟩
  calls := 0

/-- Two requests, and an edit. -/
def RulesThread.sample : List RulesThread :=
  [.request CacherDirConf.rulesTop, .edit (lit "/www/rules.json") (some ⟨2, [3]⟩),
    .request CacherDirConf.rulesTop]

/-- The first request takes its stamp before the edit and stores it after the edit, while the
second one is under way. -/
theorem rulesCache_coherent_sample :
    let c := Prog.Pool.run RulesWorld.answer
      (RulesPool.start RulesEnv.sample RulesThread.sample RulesWorld.sample) [0, 0, 1]
    c.shared.Coherent RulesEnv.sample.rulesetParse
      ∧ ∀ result, (Prog.Pool.run RulesWorld.answer c [2, 0, 0, 0, 2, 2, 2, 2]).threads[2]?
          = some (.done result) →
        Returns RulesEnv.sample (Prog.Pool.run RulesWorld.answer c [2, 0, 0, 0, 2, 2, 2, 2]).shared
          (lit "/www/rules.json") result := by
  have hstart : RulesWorld.sample.Started := by
    refine ⟨rfl, fun path v h => ?_⟩
    simp only [RulesWorld.sample] at h ⊢
    split at h
    · rename_i hpath
      cases h
      rw [if_pos hpath]
      exact List.mem_cons_self
    · cases h
  obtain ⟨hcoherent, hreturns⟩ := rulesCache_coherent RulesEnv.sample RulesThread.sample
    RulesWorld.sample hstart [0, 0, 1] (by
      refine ⟨?_, ?_, ?_, trivial⟩ <;> intro op next h <;> cases h
      · trivial
      · trivial
      · show _ ∉ _
        decide)
  refine ⟨hcoherent, hreturns 2 CacherDirConf.rulesTop _ _ rfl (by decide) ?_⟩
  -- No step of the call is an edit.
  refine ⟨⟨?_, ?_⟩, ⟨?_, ?_⟩, ⟨?_, ?_⟩, ⟨?_, ?_⟩, ⟨?_, ?_⟩, ⟨?_, ?_⟩, ⟨?_, ?_⟩, ⟨?_, ?_⟩, trivial⟩
  all_goals
    intro op next h
    cases h <;> trivial

end Cacher
