import Cacher.Lib.Files

/-!
# `Cacher.Lib.Private`: files that belong to one program

A program that shares a file system can write a file under a private name and move it into place
when it is whole. `Owned` is what such a program knows about its private files, and `Owned.after`
what it knows after a call. `Owned.Permits` are the calls it may make: it writes only to files of
its own, and it moves a file into place only when it knows what is in it.

* `Keeps` is what the programs of a pool keep together: no file has two owners, each owner knows
  what is in its files, and what is outside the private names is `Public`.
* `Keeps.step` is one permitted call, and `Keeps.removes` one call that at most removes a file.
* `keeps_run` puts the programs of a pool together, for every interleaving in which `mktemp`
  yields no name twice.

The others may remove a private file at any time. A write to it is then lost, and it cannot be
moved any more.
-/

set_option autoImplicit false

namespace Files

open CText

/-! ### What a program knows about its files -/

/-- What a program knows about a file that it has made. -/
inductive Own where
  /-- The file holds `b`, unless it has been removed by others. -/
  | exactly (b : Bytes)
  /-- A write to the file has failed. -/
  | unknown
  /-- The program has moved or removed the file. -/
  | gone
  deriving DecidableEq

/-- The file after a write. -/
def Own.append (data : Bytes) : Own → Own
  | .exactly b => .exactly (b ++ data)
  | .unknown => .unknown
  | .gone => .gone

/-- The files of a program, by their names. -/
abbrev Owned : Type := Path → Option Own

namespace Owned

/-- A program that has made no file. -/
def nothing : Owned := fun _ => none

/-- Something happens to the file `p`, if it is among the files. -/
def change (own : Owned) (p : Path) (f : Own → Own) : Owned :=
  Function.update own p ((own p).map f)

/-- The files of a program after a call. -/
def after (own : Owned) : (op : FileOp) → Ans op → Owned
  | .mktemp template, some suffix =>
    match tempName template suffix with
    | some p => Function.update own p (some (.exactly []))
    | none => own
  | .mktemp _, none => own
  | .writeFull p data, true => own.change p (Own.append data)
  | .writeFull p _, false => own.change p fun _ => .unknown
  | .rename src _, true => own.change src fun _ => .gone
  | .rename _ _, false => own
  | .remove p, _ => own.change p fun _ => .gone
  | .timeNow, _ | .openRead _, _ | .infoSize _, _ | .readFull _ _, _ | .stat _, _
  | .dirMakeRecursive _, _ | .dirRead _, _ => own

/-- The calls that a program with these files may make. `Good` is what it may put in place. -/
def Permits (Private : Path → Prop) (Good : Path → Bytes → Prop) (own : Owned) : FileOp → Prop
  | .mktemp template => ∀ suffix p, tempName template suffix = some p → Private p
  | .writeFull p _ => own p ≠ none
  | .rename src dst => ¬ Private dst ∧ ∃ b, own src = some (.exactly b) ∧ Good dst b
  | .timeNow | .openRead _ | .infoSize _ | .readFull _ _ | .remove _ | .stat _
  | .dirMakeRecursive _ | .dirRead _ => True

/-- The program has moved or removed all of its files but those in `S`. -/
def Within (own : Owned) (S : List Path) : Prop := ∀ p o, own p = some o → o ≠ .gone → p ∈ S

section

variable {own : Owned} {p q : Path} {S : List Path} {f : Own → Own}

@[simp] theorem change_self : own.change p f p = (own p).map f := Function.update_self _ _ _

theorem change_of_ne (h : q ≠ p) : own.change p f q = own q := Function.update_of_ne h _ _

@[simp] theorem change_eq_none_iff : own.change p f q = none ↔ own q = none := by
  by_cases h : q = p
  · subst h
    rw [change_self, Option.map_eq_none_iff]
  · rw [change_of_ne h]

theorem change_of_eq_none (h : own p = none) : own.change p f = own := by
  rw [change, h, Option.map_none, ← h, Function.update_eq_self]

theorem within_nothing : nothing.Within S := fun _ _ h => by cases h

/-- A new file comes in. -/
theorem Within.make (h : own.Within S) (p : Path) (o : Option Own) :
    Within (Function.update own p o) (p :: S) := by
  intro q o' ho hgone
  by_cases hq : q = p
  · rw [hq]
    exact List.mem_cons_self
  · rw [Function.update_of_ne hq] at ho
    exact List.mem_cons_of_mem _ (h q o' ho hgone)

/-- Something happens to one of the files. -/
theorem Within.change (h : own.Within S) (hp : p ∈ S) (f : Own → Own) :
    (own.change p f).Within S := by
  intro q o ho hgone
  by_cases hq : q = p
  · rw [hq]
    exact hp
  · rw [change_of_ne hq] at ho
    exact h q o ho hgone

/-- A file is moved or removed. -/
theorem Within.drop (h : own.Within S) {S' : List Path} (hS : ∀ q ∈ S, q ≠ p → q ∈ S') :
    (own.change p fun _ => .gone).Within S' := by
  intro q o ho hgone
  by_cases hq : q = p
  · subst hq
    rw [change_self] at ho
    obtain ⟨_, -, rfl⟩ := Option.map_eq_some_iff.mp ho
    exact absurd rfl hgone
  · rw [change_of_ne hq] at ho
    exact hS q (h q o ho hgone) hq

end

end Owned

/-! ### The names that have been made -/

/-- The names that `mktemp` has made. -/
def World.made (w : World) : List Path :=
  w.log.zipIdx.filterMap fun call =>
    match call.1.1 with
    | .mktemp template =>
      if call.1.2 then tempName template (w.script call.2 (.mktemp template)).suffix else none
    | .timeNow | .openRead _ | .infoSize _ | .readFull _ _ | .writeFull _ _ | .rename _ _
    | .remove _ | .stat _ | .dirMakeRecursive _ | .dirRead _ => none

/-- Were `op` called now, it would not yield a name that `mktemp` has made before. -/
def World.picksFresh (w : World) : FileOp → Bool
  | .mktemp template =>
    match tempName template (w.outcome (.mktemp template)).suffix with
    | some p => !w.made.contains p
    | none => true
  | .timeNow | .openRead _ | .infoSize _ | .readFull _ _ | .writeFull _ _ | .rename _ _
  | .remove _ | .stat _ | .dirMakeRecursive _ | .dirRead _ => true

section Calls

variable {w : World}

/-- Names that have been made stay made. -/
theorem World.made_subset_record (w : World) (op : FileOp) (ok : Bool) (fs : FileSystem) :
    w.made ⊆ (w.record op ok fs).made := by
  intro p hp
  unfold World.made at hp ⊢
  rw [World.script_record]
  show p ∈ List.filterMap _ (w.log ++ [(op, ok)]).zipIdx
  rw [List.zipIdx_append, List.filterMap_append]
  exact List.mem_append_left _ hp

theorem World.made_subset_answer (w : World) (op : FileOp) : w.made ⊆ (w.answer op).2.made := by
  obtain ⟨ok, fs, h⟩ := w.answer_record op
  rw [h]
  exact w.made_subset_record op ok fs

theorem World.mem_made_record {template p : Path} {fs : FileSystem}
    (h : tempName template (w.outcome (.mktemp template)).suffix = some p) :
    p ∈ (w.record (.mktemp template) true fs).made := by
  unfold World.made
  rw [World.script_record]
  show p ∈ List.filterMap _ (w.log ++ [(FileOp.mktemp template, true)]).zipIdx
  rw [List.zipIdx_append, List.filterMap_append, List.mem_append]
  refine Or.inr (List.mem_filterMap.mpr ⟨((.mktemp template, true), w.log.length), ?_, ?_⟩)
  · simp
  · exact h

/-- `mktemp` makes an empty file under a free name, or fails. -/
theorem World.answer_mktemp_cases (w : World) (template : Path) :
    (∃ p, tempName template (w.outcome (.mktemp template)).suffix = some p ∧ w.fs.read p = none
      ∧ w.answer (.mktemp template) = (some (w.outcome (.mktemp template)).suffix,
          w.record (.mktemp template) true (w.fs.put p [])))
    ∨ w.answer (.mktemp template) = (none, w.record (.mktemp template) false w.fs) := by
  simp only [World.answer]
  split
  · rename_i p hname
    split
    · rename_i hok
      exact Or.inl ⟨p, hname, hok.2, rfl⟩
    · exact Or.inr rfl
  · exact Or.inr rfl

/-- `writeFull` appends the data, or a part of it and fails. -/
theorem World.answer_writeFull_cases (w : World) (p : Path) (data : Bytes) :
    w.answer (.writeFull p data) = (true, w.record (.writeFull p data) true (w.fs.append p data))
    ∨ ∃ part, w.answer (.writeFull p data)
        = (false, w.record (.writeFull p data) false (w.fs.append p part)) := by
  simp only [World.answer]
  split
  · exact Or.inl rfl
  · exact Or.inr ⟨_, rfl⟩

/-- `rename` moves a file that is there, or fails. -/
theorem World.answer_rename_cases (w : World) (src dst : Path) :
    (∃ b, w.fs.read src = some b
      ∧ w.answer (.rename src dst) = (true, w.record (.rename src dst) true (w.fs.move src dst)))
    ∨ w.answer (.rename src dst) = (false, w.record (.rename src dst) false w.fs) := by
  simp only [World.answer]
  split
  · rename_i hok
    obtain ⟨b, hb⟩ := Option.isSome_iff_exists.mp hok.2
    exact Or.inl ⟨b, hb, rfl⟩
  · exact Or.inr rfl

theorem World.removed_answer (w : World) (p : Path) :
    Removed w.script w.fs p (w.answer (.remove p)).2.fs := by
  have hrule : Files.After (remove p) w fun _ w' => Removed w.script w.fs p w'.fs :=
    after_remove fun ok fs w' hrem h => by
      rw [h.fs_eq]
      exact hrem
  exact hrule

end Calls

/-! ### What the programs keep together -/

/-- The answer to `op` says the truth about what is read outside the private names. -/
def Saw (Private : Path → Prop) (Public : Path → Bytes → Prop) : (op : FileOp) → Ans op → Prop
  | .openRead p, some b => ¬ Private p → Public p b
  | .infoSize file, some n => n = file.length
  | .readFull file n, some b => n ≤ file.length ∧ b = file.take n
  | .openRead _, none | .infoSize _, none | .readFull _ _, none => True
  | .timeNow, _ | .mktemp _, _ | .writeFull _ _, _ | .rename _ _, _ | .remove _, _ | .stat _, _
  | .dirMakeRecursive _, _ | .dirRead _, _ => True

/-- What the program knows after the call, and what it has seen. -/
def Learns (Private : Path → Prop) (Public : Path → Bytes → Prop) (own : Owned) (op : FileOp)
    (x : Ans op) (own' : Owned) : Prop :=
  own' = own.after op x ∧ Saw Private Public op x

/-- What the programs with the files `own` keep together, from the files `start` on. -/
structure Keeps (Private : Path → Prop) (Public : Path → Bytes → Prop) (start : FileSystem)
    (own : Nat → Owned) (w : World) : Prop where
  made : ∀ i p, own i p ≠ none → Private p ∧ p ∈ w.made
  oneOwner : ∀ i j p, own i p ≠ none → own j p ≠ none → i = j
  contents : ∀ i p b b', own i p = some (.exactly b) → w.fs.read p = some b' → b' = b
  whole : ∀ p b, ¬ Private p → w.fs.read p = some b → Public p b
  noneLeft : w.script.RemovesOk → ∀ p b, Private p → w.fs.read p = some b →
    start.read p ≠ none ∨ ∃ i o, own i p = some o ∧ o ≠ .gone

section Keeps

variable {Private : Path → Prop} {Public : Path → Bytes → Prop} {start : FileSystem}
  {own : Nat → Owned} {w w' : World} {i j : Nat} {p q : Path}

/-- A step that leaves the files alone. -/
theorem Keeps.same (h : Keeps Private Public start own w) (hread : ∀ q, w'.fs.read q = w.fs.read q)
    (hscript : w'.script = w.script) (hmade : w.made ⊆ w'.made) :
    Keeps Private Public start own w' where
  made i p hp := ⟨(h.made i p hp).1, hmade (h.made i p hp).2⟩
  oneOwner := h.oneOwner
  contents i p b b' hown hb := h.contents i p b b' hown (by rw [← hread]; exact hb)
  whole p b hp hb := h.whole p b hp (by rw [← hread]; exact hb)
  noneLeft hrem p b hp hb := by
    rw [hscript] at hrem
    rw [hread] at hb
    exact h.noneLeft hrem p b hp hb

/-- A step in which something happens to the file `p` of program `i`. -/
theorem Keeps.change (h : Keeps Private Public start own w) {f : Own → Own}
    (hp : own i p ≠ none) (hscript : w'.script = w.script) (hmade : w.made ⊆ w'.made)
    (hothers : ∀ q, q ≠ p → Private q → w'.fs.read q = w.fs.read q)
    (hcontents : ∀ o b b', own i p = some o → f o = .exactly b → w'.fs.read p = some b' → b' = b)
    (hwhole : ∀ q b, ¬ Private q → w'.fs.read q = some b → Public q b)
    (hleft : w.script.RemovesOk → ∀ b, Private p → w'.fs.read p = some b →
      start.read p ≠ none ∨ ∃ o, own i p = some o ∧ f o ≠ .gone) :
    Keeps Private Public start (Function.update own i ((own i).change p f)) w' := by
  -- The same programs own the same files.
  have hnone : ∀ k q, Function.update own i ((own i).change p f) k q = none ↔ own k q = none := by
    intro k q
    by_cases hk : k = i
    · subst hk
      rw [Function.update_self, Owned.change_eq_none_iff]
    · rw [Function.update_of_ne hk]
  have hsame : ∀ k q, (k ≠ i ∨ q ≠ p) →
      Function.update own i ((own i).change p f) k q = own k q := by
    intro k q hkq
    by_cases hk : k = i
    · subst hk
      rw [Function.update_self, Owned.change_of_ne (hkq.resolve_left fun hno => hno rfl)]
    · rw [Function.update_of_ne hk]
  have hself : Function.update own i ((own i).change p f) i p = (own i p).map f := by
    rw [Function.update_self, Owned.change_self]
  refine ⟨fun k q hq => ?_, fun k l q hk hl => ?_, fun k q b b' hown hb => ?_, hwhole,
    fun hrem q b hq hb => ?_⟩
  · have hq' := h.made k q (mt (hnone k q).mpr hq)
    exact ⟨hq'.1, hmade hq'.2⟩
  · exact h.oneOwner k l q (mt (hnone k q).mpr hk) (mt (hnone l q).mpr hl)
  · have hne : own k q ≠ none := by
      rw [Ne, ← hnone, hown]
      exact Option.some_ne_none _
    by_cases hqp : q = p
    · subst hqp
      obtain rfl := h.oneOwner k i q hne hp
      rw [hself] at hown
      obtain ⟨o, ho, hfo⟩ := Option.map_eq_some_iff.mp hown
      exact hcontents o b b' ho hfo hb
    · rw [hsame k q (Or.inr hqp)] at hown
      rw [hothers q hqp (h.made k q hne).1] at hb
      exact h.contents k q b b' hown hb
  · rw [hscript] at hrem
    by_cases hqp : q = p
    · subst hqp
      rcases hleft hrem b hq hb with hstart | ⟨o, ho, hgone⟩
      · exact Or.inl hstart
      · refine Or.inr ⟨i, f o, ?_, hgone⟩
        rw [hself, ho]
        rfl
    · rw [hothers q hqp hq] at hb
      rcases h.noneLeft hrem q b hq hb with hstart | ⟨k, o, ho, hgone⟩
      · exact Or.inl hstart
      · exact Or.inr ⟨k, o, by rw [hsame k q (Or.inr hqp)]; exact ho, hgone⟩

/-- A call that at most removes a file, of a program that does not own it. -/
theorem Keeps.removes (h : Keeps Private Public start own w) {op : FileOp} (hop : op.OnlyRemoves) :
    Keeps Private Public start own (w.answer op).2 := by
  have hread : ∀ q b, (w.answer op).2.fs.read q = some b → w.fs.read q = some b := by
    intro q b hb
    rcases w.answer_read_of_onlyRemoves hop q with hsame | hgone
    · rw [← hsame]
      exact hb
    · rw [hgone] at hb
      cases hb
  refine ⟨fun i p hp => ⟨(h.made i p hp).1, w.made_subset_answer op (h.made i p hp).2⟩,
    h.oneOwner, fun i p b b' hown hb => h.contents i p b b' hown (hread p b' hb),
    fun p b hp hb => h.whole p b hp (hread p b hb), fun hrem p b hp hb => ?_⟩
  rw [World.answer_script] at hrem
  exact h.noneLeft hrem p b hp (hread p b hb)

/-- A new file, under a name that has not been made before. -/
theorem Keeps.make (h : Keeps Private Public start own w) (hp : Private p) (hnew : p ∉ w.made)
    (hscript : w'.script = w.script) (hmade : w.made ⊆ w'.made) (hmem : p ∈ w'.made)
    (hread : ∀ q, w'.fs.read q = if q = p then some [] else w.fs.read q) :
    Keeps Private Public start
      (Function.update own i (Function.update (own i) p (some (.exactly [])))) w' := by
  have hfree : ∀ k, own k p = none := fun k => by
    by_contra hno
    exact hnew (h.made k p hno).2
  have hself : Function.update own i (Function.update (own i) p (some (.exactly []))) i p
      = some (.exactly []) := by
    rw [Function.update_self, Function.update_self]
  have hsame : ∀ k q, (k ≠ i ∨ q ≠ p) →
      Function.update own i (Function.update (own i) p (some (.exactly []))) k q = own k q := by
    intro k q hkq
    by_cases hk : k = i
    · subst hk
      rw [Function.update_self, Function.update_of_ne (hkq.resolve_left fun hno => hno rfl)]
    · rw [Function.update_of_ne hk]
  -- Among the programs, `p` is that of `i`.
  have howner : ∀ k,
      Function.update own i (Function.update (own i) p (some (.exactly []))) k p ≠ none → k = i := by
    intro k hk
    by_contra hki
    rw [hsame k p (Or.inl hki)] at hk
    exact hk (hfree k)
  refine ⟨fun k q hq => ?_, fun k l q hk hl => ?_, fun k q b b' hown hb => ?_, fun q b hq hb => ?_,
    fun hrem q b hq hb => ?_⟩
  · by_cases hqp : q = p
    · subst hqp
      exact ⟨hp, hmem⟩
    · rw [hsame k q (Or.inr hqp)] at hq
      exact ⟨(h.made k q hq).1, hmade (h.made k q hq).2⟩
  · by_cases hqp : q = p
    · subst hqp
      rw [howner k hk, howner l hl]
    · rw [hsame k q (Or.inr hqp)] at hk
      rw [hsame l q (Or.inr hqp)] at hl
      exact h.oneOwner k l q hk hl
  · rw [hread] at hb
    by_cases hqp : q = p
    · subst hqp
      obtain rfl := howner k (by rw [hown]; exact Option.some_ne_none _)
      rw [hself] at hown
      rw [if_pos rfl] at hb
      cases hown
      cases hb
      rfl
    · rw [hsame k q (Or.inr hqp)] at hown
      rw [if_neg hqp] at hb
      exact h.contents k q b b' hown hb
  · rw [hread, if_neg fun heq : q = p => hq (heq ▸ hp)] at hb
    exact h.whole q b hq hb
  · by_cases hqp : q = p
    · subst hqp
      exact Or.inr ⟨i, _, hself, fun hno => by cases hno⟩
    · rw [hscript] at hrem
      rw [hread, if_neg hqp] at hb
      rcases h.noneLeft hrem q b hq hb with hstart | ⟨k, o, ho, hgone⟩
      · exact Or.inl hstart
      · exact Or.inr ⟨k, o, by rw [hsame k q (Or.inr hqp)]; exact ho, hgone⟩

/-- Bytes are added to a file of the program. -/
theorem Keeps.write (h : Keeps Private Public start own w) {f : Own → Own} (data : Bytes)
    (hp : own i p ≠ none) (hscript : w'.script = w.script) (hmade : w.made ⊆ w'.made)
    (hfs : w'.fs = w.fs.append p data)
    (hf : ∀ o b, f o = .exactly b → ∃ old, o = .exactly old ∧ b = old ++ data)
    (hgone : ∀ o, o ≠ .gone → f o ≠ .gone) :
    Keeps Private Public start (Function.update own i ((own i).change p f)) w' := by
  have hread : ∀ q, w'.fs.read q = if q = p then (w.fs.read p).map (· ++ data) else w.fs.read q :=
    fun q => by rw [hfs, FileSystem.read_append]
  refine h.change hp hscript hmade (fun q hq _ => by rw [hread, if_neg hq])
    (fun o b b' ho hfo hb => ?_) (fun q b hq hb => ?_) fun hrem b hpriv hb => ?_
  · rw [hread, if_pos rfl] at hb
    obtain ⟨old', hold', rfl⟩ := Option.map_eq_some_iff.mp hb
    obtain ⟨old, rfl, rfl⟩ := hf o b hfo
    rw [h.contents i p old old' ho hold']
  · rw [hread, if_neg fun heq : q = p => hq (heq ▸ (h.made i p hp).1)] at hb
    exact h.whole q b hq hb
  · rw [hread, if_pos rfl] at hb
    obtain ⟨old, hold, rfl⟩ := Option.map_eq_some_iff.mp hb
    rcases h.noneLeft hrem p old hpriv hold with hstart | ⟨k, o, ho, hne⟩
    · exact Or.inl hstart
    · have hk : own k p ≠ none := by
        rw [ho]
        exact Option.some_ne_none _
      obtain rfl := h.oneOwner k i p hk hp
      exact Or.inr ⟨o, ho, hgone o hne⟩

/-- A whole file is moved into place. -/
theorem Keeps.place (h : Keeps Private Public start own w) {src dst : Path} {b : Bytes}
    (hsrc : own i src = some (.exactly b)) (hdst : ¬ Private dst) (hgood : Public dst b)
    (hscript : w'.script = w.script) (hmade : w.made ⊆ w'.made) {b' : Bytes}
    (hthere : w.fs.read src = some b') (hfs : w'.fs = w.fs.move src dst) :
    Keeps Private Public start (Function.update own i ((own i).change src fun _ => .gone)) w' := by
  obtain rfl := h.contents i src b b' hsrc hthere
  have hread : ∀ q, w'.fs.read q
      = if q = dst then some b' else if q = src then none else w.fs.read q := fun q => by
    rw [hfs, FileSystem.read_move hthere]
  have hne : own i src ≠ none := by
    rw [hsrc]
    exact Option.some_ne_none _
  have hpriv : Private src := (h.made i src hne).1
  have hsd : src ≠ dst := fun heq => hdst (heq ▸ hpriv)
  refine h.change hne hscript hmade (fun q hq hq' => ?_) (fun _ _ _ _ hno _ => by cases hno)
    (fun q b hq hb => ?_) fun _ b _ hb => ?_
  · rw [hread, if_neg fun heq : q = dst => hdst (heq ▸ hq'), if_neg hq]
  · rw [hread] at hb
    split at hb
    · rename_i heq
      rw [heq, ← Option.some.inj hb]
      exact hgood
    · rw [if_neg fun heq : q = src => hq (heq ▸ hpriv)] at hb
      exact h.whole q b hq hb
  · rw [hread, if_neg hsd, if_pos rfl] at hb
    cases hb

/-- A program removes a file, its own or another. -/
theorem Keeps.remove (h : Keeps Private Public start own w) (i : Nat) (p : Path) :
    Keeps Private Public start (Function.update own i ((own i).change p fun _ => .gone))
      (w.answer (.remove p)).2 := by
  by_cases hp : own i p = none
  · rw [Owned.change_of_eq_none hp, Function.update_eq_self]
    exact h.removes (show FileOp.OnlyRemoves (.remove p) from trivial)
  have hrem := w.removed_answer p
  refine h.change hp (w.answer_script _) (w.made_subset_answer _)
    (fun q hq _ => hrem.other q hq) (fun _ _ _ _ hno _ => by cases hno) (fun q b hq hb => ?_)
    fun hok b _ hb => ?_
  · rw [hrem.other q fun heq => hq (heq ▸ (h.made i p hp).1)] at hb
    exact h.whole q b hq hb
  · rw [hrem.gone hok] at hb
    cases hb

/-- A permitted call keeps what the programs keep. -/
theorem Keeps.step (h : Keeps Private Public start own w) {Good : Path → Bytes → Prop}
    (hgood : ∀ p b, Good p b → Public p b) {op : FileOp} (hop : (own i).Permits Private Good op)
    (hfresh : w.picksFresh op = true) :
    Keeps Private Public start (Function.update own i ((own i).after op (w.answer op).1))
      (w.answer op).2 := by
  have hscript := w.answer_script op
  have hmade := w.made_subset_answer op
  cases op with
  | timeNow | openRead _ | infoSize _ | readFull _ _ | stat _ | dirRead _ =>
      rw [show (own i).after _ _ = own i from rfl, Function.update_eq_self]
      exact h.same (fun _ => rfl) hscript hmade
  | dirMakeRecursive p =>
      rw [show (own i).after _ _ = own i from rfl, Function.update_eq_self]
      refine h.same (fun q => ?_) hscript hmade
      exact w.read_answer_of_not_touches (fun hno => hno)
  | mktemp template =>
      rcases w.answer_mktemp_cases template with ⟨p, hname, -, heq⟩ | heq
      · rw [heq] at hscript hmade ⊢
        have hafter : (own i).after (.mktemp template) (some (w.outcome (.mktemp template)).suffix)
            = Function.update (own i) p (some (.exactly [])) := by
          simp only [Owned.after, hname]
        rw [hafter]
        refine h.make (hop _ p hname) ?_ hscript hmade (World.mem_made_record hname) fun q => ?_
        · simpa [World.picksFresh, hname] using hfresh
        · rw [World.fs_record, FileSystem.read_put]
      · rw [heq] at hscript hmade ⊢
        rw [show (own i).after (.mktemp template) none = own i from rfl, Function.update_eq_self]
        exact h.same (fun _ => rfl) hscript hmade
  | writeFull p data =>
      rcases w.answer_writeFull_cases p data with heq | ⟨part, heq⟩
      · rw [heq] at hscript hmade ⊢
        refine h.write data hop hscript hmade rfl (fun o b ho => ?_) fun o ho => ?_
        · cases o with
          | exactly old => exact ⟨old, rfl, (Own.exactly.inj ho).symm⟩
          | unknown | gone => cases ho
        · cases o with
          | exactly _ | unknown => exact fun hno => by cases hno
          | gone => exact absurd rfl ho
      · rw [heq] at hscript hmade ⊢
        exact h.write part hop hscript hmade rfl (fun _ _ hno => by cases hno)
          fun _ _ hno => by cases hno
  | rename src dst =>
      obtain ⟨hdst, b, hsrc, hplace⟩ := hop
      rcases w.answer_rename_cases src dst with ⟨b', hthere, heq⟩ | heq
      · rw [heq] at hscript hmade ⊢
        exact h.place hsrc hdst (hgood dst b hplace) hscript hmade hthere rfl
      · rw [heq] at hscript hmade ⊢
        rw [show (own i).after (.rename src dst) false = own i from rfl, Function.update_eq_self]
        exact h.same (fun _ => rfl) hscript hmade
  | remove p => exact h.remove i p

/-- What a call answers is true of the files. -/
theorem Keeps.saw (h : Keeps Private Public start own w) (op : FileOp) :
    Saw Private Public op (w.answer op).1 := by
  cases op with
  | openRead p =>
      cases hx : (w.answer (.openRead p)).1 with
      | none => trivial
      | some b => exact fun hp => h.whole p b hp (World.eq_of_query hx)
  | infoSize file =>
      cases hx : (w.answer (.infoSize file)).1 with
      | none => trivial
      | some n =>
          have hn := World.eq_of_query hx
          exact (Option.some.inj hn).symm
  | readFull file n =>
      cases hx : (w.answer (.readFull file n)).1 with
      | none => trivial
      | some b =>
          have hb := World.eq_of_query hx
          split at hb
          · rename_i hn
            exact ⟨hn, (Option.some.inj hb).symm⟩
          · cases hb
  | timeNow | mktemp _ | writeFull _ _ | rename _ _ | remove _ | stat _ | dirMakeRecursive _
  | dirRead _ => trivial

end Keeps

/-! ### The programs of a pool -/

section Pool

variable {α : Type} {Private : Path → Prop} {Public : Path → Bytes → Prop} {start : FileSystem}

/-- The next call of program `i` makes no name that has been made before. -/
def PicksFresh (c : Prog.Pool World FileOp Ans α) (i : Nat) : Prop :=
  ((c.threads[i]?.bind Prog.nextOp?).all c.shared.picksFresh) = true

instance (c : Prog.Pool World FileOp Ans α) (i : Nat) : Decidable (PicksFresh c i) :=
  inferInstanceAs (Decidable (_ = true))

/-- The programs of the pool, and their files, as they are at some time: each makes permitted
calls and ends with its `Q`. -/
def Pooled (Private : Path → Prop) (Public : Path → Bytes → Prop) (start : FileSystem)
    (Good : Nat → Path → Bytes → Prop) (Q : Nat → α → Owned → Prop)
    (c : Prog.Pool World FileOp Ans α) : Prop :=
  ∃ own, Keeps Private Public start own c.shared
    ∧ (∀ i, c.threads[i]? = none → own i = Owned.nothing)
    ∧ ∀ i p, c.threads[i]? = some p →
      Prog.Always (Owned.Permits Private (Good i)) (Learns Private Public) p (own i) (Q i)

variable {Good : Nat → Path → Bytes → Prop} {Q : Nat → α → Owned → Prop}
  {c : Prog.Pool World FileOp Ans α} {i : Nat}

/-- A step of one program keeps what all of them keep. -/
theorem Pooled.step (h : Pooled Private Public start Good Q c)
    (hgood : ∀ i p b, Good i p b → Public p b) (hfresh : PicksFresh c i) :
    Pooled Private Public start Good Q (Prog.Pool.stepAt World.answer c i) := by
  obtain ⟨own, hkeeps, hnone, hthreads⟩ := h
  rcases Prog.Pool.stepAt_cases World.answer c i with hsame | ⟨op, next, hi⟩
  · rw [hsame]
    exact ⟨own, hkeeps, hnone, hthreads⟩
  have hpicks : c.shared.picksFresh op = true := by
    simpa [PicksFresh, hi, Prog.nextOp?] using hfresh
  have hshared : (Prog.Pool.stepAt World.answer c i).shared = (c.shared.answer op).2 := by
    rw [Prog.Pool.stepAt_call hi]
  -- No program comes or goes.
  have hgone : ∀ k, (Prog.Pool.stepAt World.answer c i).threads[k]? = none →
      k ≠ i ∧ c.threads[k]? = none := by
    intro k hk
    by_cases hki : k = i
    · subst hki
      rw [Prog.Pool.stepAt_call hi,
        List.getElem?_set_self (List.getElem?_eq_some_iff.mp hi).1] at hk
      cases hk
    · rw [Prog.Pool.threads_stepAt_of_ne hki] at hk
      exact ⟨hki, hk⟩
  have halways := hthreads i _ hi
  refine ⟨Function.update own i ((own i).after op (c.shared.answer op).1), ?_, fun k hk => ?_,
    fun k p hk => ?_⟩
  · rw [hshared]
    exact hkeeps.step (hgood i) halways.1 hpicks
  · rw [Function.update_of_ne (hgone k hk).1]
    exact hnone k (hgone k hk).2
  · rcases Prog.Pool.threads_stepAt hi hk with ⟨rfl, rfl⟩ | ⟨hki, hk⟩
    · rw [Function.update_self]
      exact halways.2 _ _ ⟨rfl, hkeeps.saw op⟩
    · rw [Function.update_of_ne hki]
      exact hthreads k p hk

/-- A program that only reads and removes has no files. -/
theorem always_of_onlyRemoves {G : Path → Bytes → Prop} {p : FileProg α}
    (hp : Prog.Uses FileOp.OnlyRemoves p) :
    Prog.Always (Owned.Permits Private G) (Learns Private Public) p Owned.nothing
      fun _ own => own.Within [] := by
  induction p with
  | done a => exact Owned.within_nothing
  | call op next ih =>
      obtain ⟨hop, hnext⟩ := hp
      cases op with
      | timeNow | openRead _ | infoSize _ | readFull _ _ | stat _ | dirRead _ =>
          refine ⟨trivial, ?_⟩
          rintro x _ ⟨rfl, -⟩
          exact ih x (hnext x)
      | remove p =>
          refine ⟨trivial, ?_⟩
          rintro x _ ⟨rfl, -⟩
          rw [show Owned.nothing.after (.remove p) x = Owned.nothing from
            Owned.change_of_eq_none rfl]
          exact ih x (hnext x)
      | mktemp _ | writeFull _ _ | rename _ _ | dirMakeRecursive _ => exact hop.elim

/-- In every interleaving in which no name is made twice, the programs keep what they keep. -/
theorem pooled_run (hgood : ∀ i p b, Good i p b → Public p b)
    (hwhole : ∀ p b, ¬ Private p → c.shared.fs.read p = some b → Public p b)
    (hthreads : ∀ i p, c.threads[i]? = some p →
      Prog.Always (Owned.Permits Private (Good i)) (Learns Private Public) p Owned.nothing (Q i))
    {schedule : List Nat} (hfresh : Prog.Pool.Guarded World.answer PicksFresh c schedule) :
    Pooled Private Public c.shared.fs Good Q (Prog.Pool.run World.answer c schedule) := by
  refine Prog.Pool.run_inv_of_guarded (fun c' i hG hI => hI.step hgood hG) hfresh
    ⟨fun _ => Owned.nothing, ⟨fun i p hno => absurd rfl hno, fun i j p hno => absurd rfl hno,
      fun i p b b' hno => ?_, hwhole, fun _ p b _ hb => Or.inl ?_⟩, fun _ _ => rfl, hthreads⟩
  · cases hno
  · rw [hb]
    exact Option.some_ne_none _

/-- The programs leave the outcomes to come alone. -/
theorem script_poolRun (c : Prog.Pool World FileOp Ans α) (schedule : List Nat) :
    (Prog.Pool.run World.answer c schedule).shared.script = c.shared.script := by
  refine Prog.Pool.run_inv_of_guarded (G := fun _ _ => True)
    (I := fun c' : Prog.Pool World FileOp Ans α => c'.shared.script = c.shared.script)
    (fun c' i _ h => ?_)
    (Prog.Pool.guarded_iff.mpr fun _ _ _ => trivial) rfl
  rcases Prog.Pool.stepAt_cases World.answer c' i with hsame | ⟨op, next, hi⟩
  · rw [hsame]
    exact h
  · rw [Prog.Pool.stepAt_call hi]
    exact (c'.shared.answer_script op).trans h

/-- A program that has returned ends with its `Q`. -/
theorem Pooled.ended (h : Pooled Private Public start Good Q c) {a : α}
    (ha : c.threads[i]? = some (.done a)) : ∃ own, Q i a own := by
  obtain ⟨own, -, -, hthreads⟩ := h
  exact ⟨_, hthreads i _ ha⟩

/-- When every program has returned without a file of its own, no private file is left. -/
theorem Pooled.noneLeft (h : Pooled Private Public start Good Q c)
    (hend : ∀ i a own, Q i a own → own.Within []) (hrem : c.shared.script.RemovesOk)
    (hdone : ∀ p ∈ c.threads, p.result? ≠ none) {p : Path} {b : Bytes} (hp : Private p)
    (hb : c.shared.fs.read p = some b) : start.read p ≠ none := by
  obtain ⟨own, hkeeps, hnone, hthreads⟩ := h
  rcases hkeeps.noneLeft hrem p b hp hb with hstart | ⟨i, o, ho, hgone⟩
  · exact hstart
  · -- The file would have an owner that has not moved or removed it.
    have howned : (own i).Within [] := by
      cases hi : c.threads[i]? with
      | none =>
          rw [hnone i hi]
          exact Owned.within_nothing
      | some thread =>
          cases thread with
          | done a => exact hend i a _ (hthreads i _ hi)
          | call op next => exact absurd rfl (hdone _ (List.mem_of_getElem? hi))
    exact absurd (howned p o ho hgone) List.not_mem_nil

end Pool

end Files
