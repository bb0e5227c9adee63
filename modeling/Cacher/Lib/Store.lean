import Mathlib.Data.List.Basic
import Mathlib.Logic.Function.Basic

/-!
# `Cacher.Lib.Store`: stores, and systems that behave like one

A `Store` holds at most one value for each key. A `Change` puts a value under its key or discards
the values that it selects.

`records` is a sequential run of any system, and `Follows` says that its records make the changes
of a store, one after another. `exists_follows` is the simulation rule: it is enough to know what
one event does. `Follows.run_eq_some_iff` says which values such a run leaves: the last one that
was put under the key and has been spared since.
-/

set_option autoImplicit false

/-- Values under keys. -/
abbrev Store (K V : Type) : Type := K → Option V

namespace Store

variable {K V : Type}

/-- What can happen to a store. -/
inductive Change (K V : Type) where
  | keep
  | put (key : K) (value : V)
  /-- The selected values are discarded. -/
  | discard (selects : K → V → Prop)

/-- The store without a value. -/
def empty : Store K V := fun _ => none

open Classical in
/-- The store after a change. -/
noncomputable def Change.apply (s : Store K V) : Change K V → Store K V
  | .keep => s
  | .put key value => Function.update s key (some value)
  | .discard selects => fun k => (s k).filter fun v => ¬ selects k v

/-- The change leaves `v` under `k`, if it is there. -/
def Change.Spares (k : K) (v : V) : Change K V → Prop
  | .keep => True
  | .put key _ => key ≠ k
  | .discard selects => ¬ selects k v

/-- The store after a history of changes. -/
noncomputable def run (s : Store K V) (changes : List (Change K V)) : Store K V :=
  changes.foldl Change.apply s

section Apply

variable {s : Store K V} {k : K} {v : V}

theorem apply_put_self : Change.apply s (.put k v) k = some v := by
  classical exact Function.update_self k (some v) s

theorem apply_put_of_ne {key : K} (h : key ≠ k) : Change.apply s (.put key v) k = s k := by
  classical exact Function.update_of_ne h.symm (some v) s

theorem apply_discard_of_none {selects : K → V → Prop} (h : s k = none) :
    Change.apply s (.discard selects) k = none := by
  show (s k).filter _ = none
  rw [h]
  rfl

theorem apply_discard_of_selects {selects : K → V → Prop} (h : s k = some v) (hv : selects k v) :
    Change.apply s (.discard selects) k = none := by
  show (s k).filter _ = none
  rw [h]
  simp [hv]

theorem apply_discard_of_not {selects : K → V → Prop} (h : s k = some v) (hv : ¬ selects k v) :
    Change.apply s (.discard selects) k = some v := by
  show (s k).filter _ = some v
  rw [h]
  simp [hv]

/-- A value is there because it was put there, or because it was there and has been spared. -/
theorem apply_eq_some_iff (change : Change K V) :
    change.apply s k = some v ↔ change = .put k v ∨ s k = some v ∧ change.Spares k v := by
  cases change with
  | keep => simp [Change.apply, Change.Spares]
  | put key value =>
      by_cases hkey : key = k
      · subst hkey
        simp [apply_put_self, Change.Spares]
      · simp [apply_put_of_ne hkey, Change.Spares, hkey]
  | discard selects =>
      simp only [reduceCtorEq, false_or, Change.Spares]
      cases hs : s k with
      | none => simp [apply_discard_of_none hs]
      | some value =>
          by_cases hv : selects k value
          · rw [apply_discard_of_selects hs hv]
            refine iff_of_false (Option.some_ne_none _ ·.symm) ?_
            rintro ⟨h, hno⟩
            cases h
            exact hno hv
          · rw [apply_discard_of_not hs hv]
            refine ⟨fun h => ⟨h, ?_⟩, And.left⟩
            cases h
            exact hv

end Apply

end Store

/-! ### Sequential runs -/

/-- An event of a system: what it found, what it answered and what it left. -/
structure Record (E S R : Type) where
  event : E
  before : S
  answer : R
  after : S

namespace Record

variable {E S R K V : Type} {serve : E → S → R × S}

/-- The records of a run. -/
def records (serve : E → S → R × S) : List E → S → List (Record E S R)
  | [], _ => []
  | e :: events, s => ⟨e, s, (serve e s).1, (serve e s).2⟩ :: records serve events (serve e s).2

/-- The state after a run. -/
def lastState (serve : E → S → R × S) (events : List E) (s : S) : S :=
  events.foldl (fun s e => (serve e s).2) s

/-- From the store `s`, the records make the changes, one after another. -/
inductive Follows (Does : Record E S R → Store K V → Store.Change K V → Prop) :
    Store K V → List (Record E S R) → List (Store.Change K V) → Prop where
  | nil (s : Store K V) : Follows Does s [] []
  | cons {s : Store K V} {record : Record E S R} {change : Store.Change K V}
      {records : List (Record E S R)} {changes : List (Store.Change K V)}
      (hdoes : Does record s change) (hrest : Follows Does (change.apply s) records changes) :
      Follows Does s (record :: records) (change :: changes)

variable {Does : Record E S R → Store K V → Store.Change K V → Prop}

/-- A system in which each event keeps the relation to a store follows the store. -/
theorem exists_follows {Holds : Store K V → S → Prop} {Proper : E → Prop}
    (hstep : ∀ store s e, Proper e → Holds store s →
      ∃ change, Does ⟨e, s, (serve e s).1, (serve e s).2⟩ store change
        ∧ Holds (change.apply store) (serve e s).2)
    {events : List E} (hevents : ∀ e ∈ events, Proper e) {store : Store K V} {s : S}
    (h : Holds store s) :
    ∃ changes, Follows Does store (records serve events s) changes
      ∧ Holds (store.run changes) (lastState serve events s) := by
  induction events generalizing store s with
  | nil => exact ⟨[], .nil store, h⟩
  | cons e events ih =>
      obtain ⟨hproper, hevents⟩ := List.forall_mem_cons.mp hevents
      obtain ⟨change, hdoes, h'⟩ := hstep store s e hproper h
      obtain ⟨changes, hfollows, hend⟩ := ih hevents h'
      exact ⟨change :: changes, .cons hdoes hfollows, hend⟩

/-- What is under a key at the end was put there by some event, or it was there at the start, and
every event since has spared it. `Puts` and `Spares` say which events do that. -/
theorem Follows.run_eq_some_iff {Puts Spares : Record E S R → K → V → Prop}
    (hputs : ∀ record s change k v, Does record s change →
      (change = .put k v ↔ Puts record k v))
    (hspares : ∀ record s change k v, Does record s change → s k = some v →
      (change.Spares k v ↔ Spares record k v))
    {s : Store K V} {records : List (Record E S R)} {changes : List (Store.Change K V)}
    (h : Follows Does s records changes) (k : K) (v : V) :
    s.run changes k = some v
      ↔ (∃ front record back, records = front ++ record :: back ∧ Puts record k v
          ∧ ∀ record ∈ back, Spares record k v)
        ∨ s k = some v ∧ ∀ record ∈ records, Spares record k v := by
  induction h with
  | nil s => simp [Store.run]
  | @cons s record change records changes hdoes hrest ih =>
      show (change.apply s).run changes k = some v ↔ _
      rw [ih, Store.apply_eq_some_iff, hputs record s change k v hdoes]
      constructor
      · rintro (⟨front, later, back, rfl, hlater, hback⟩ | ⟨hput | ⟨hs, hspared⟩, hback⟩)
        · exact Or.inl ⟨record :: front, later, back, rfl, hlater, hback⟩
        · exact Or.inl ⟨[], record, records, rfl, hput, hback⟩
        · refine Or.inr ⟨hs, List.forall_mem_cons.mpr ⟨?_, hback⟩⟩
          exact (hspares record s change k v hdoes hs).mp hspared
      · rintro (⟨front, later, back, hsplit, hlater, hback⟩ | ⟨hs, hall⟩)
        · cases front with
          | nil =>
              obtain ⟨rfl, rfl⟩ := List.cons.inj hsplit
              exact Or.inr ⟨Or.inl hlater, hback⟩
          | cons _ front =>
              obtain ⟨-, rfl⟩ := List.cons.inj hsplit
              exact Or.inl ⟨front, later, back, rfl, hlater, hback⟩
        · obtain ⟨hspared, hback⟩ := List.forall_mem_cons.mp hall
          refine Or.inr ⟨Or.inr ⟨hs, ?_⟩, hback⟩
          exact (hspares record s change k v hdoes hs).mpr hspared

end Record
