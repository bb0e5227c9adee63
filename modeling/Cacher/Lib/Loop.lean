import Mathlib.Logic.Relation

/-!
# `Cacher.Lib.Loop`: loops, turn by turn

A loop is a `Body`: what one turn makes of the values that its variables have at the test of the
loop. A turn goes on to the next test or leaves the loop with a result. A turn for which the
language has no meaning, such as one that reads outside of an array, is `none`.

`run` executes a number of turns. `Reaches` says which values the variables can have at a later
test, and `Reaches.inv` is the rule for invariants: what each turn keeps holds at every test.
-/

set_option autoImplicit false

namespace Loop

/-- What one turn of a loop does. -/
inductive Turn (σ ρ : Type) where
  /-- The loop goes on with these values of its variables. -/
  | next (s : σ)
  /-- The loop is left. -/
  | leave (r : ρ)

/-- One turn, from the values of the variables at the test of the loop. `none` has no meaning. -/
abbrev Body (σ ρ : Type) : Type := σ → Option (Turn σ ρ)

variable {σ ρ : Type}

/-- The result of the loop, if it is left within so many turns. -/
def run (body : Body σ ρ) : Nat → σ → Option ρ
  | 0, _ => none
  | turns + 1, s =>
    match body s with
    | some (.next t) => run body turns t
    | some (.leave r) => some r
    | none => none

/-- The values `t` are those of a later test of the loop. -/
def Reaches (body : Body σ ρ) : σ → σ → Prop :=
  Relation.ReflTransGen fun s t => body s = some (.next t)

variable {body : Body σ ρ} {s t : σ} {r : ρ}

theorem run_of_next (h : body s = some (.next t)) (turns : Nat) :
    run body (turns + 1) s = run body turns t := by
  rw [run, h]

theorem run_of_leave (h : body s = some (.leave r)) (turns : Nat) :
    run body (turns + 1) s = some r := by
  rw [run, h]

/-- A turn does one thing. -/
theorem next_unique {t' : σ} (h : body s = some (.next t)) (h' : body s = some (.next t')) :
    t = t' :=
  Turn.next.inj (Option.some.inj (h.symm.trans h'))

/-- What each turn keeps holds at every test. -/
theorem Reaches.inv {I : σ → Prop}
    (hturn : ∀ {s t : σ}, I s → body s = some (.next t) → I t) (h : Reaches body s t)
    (hs : I s) : I t := by
  induction h with
  | refl => exact hs
  | tail _ hlast ih => exact hturn ih hlast

end Loop
