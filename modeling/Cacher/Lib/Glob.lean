import Mathlib.Data.List.Forall2
import Mathlib.Data.List.Infix

/-!
# `Cacher.Lib.Glob`: wildcard languages and matching them with one star remembered

A pattern is a list of pieces. A `star` stands for a run of characters of any length and every
other piece for one character. `Matches` is the language of a pattern, by recursion on it.

A matcher that compares a character of the text with the pattern before it looks for wildcards
takes the two stars for equal when the text contains the star character itself. `eats` names the
characters that a star swallows alone in this way, and `Eager eats` is the language that is left:
a star in front of such a character takes that character and nothing else.

A matcher that remembers only its last star gives up the positions of the stars before it.
`eager_of_suffix` is why it may: what an earlier start of the pattern could still match, the
pieces from the last star on match too.
-/

set_option autoImplicit false

namespace Glob

universe u

variable {α : Type u}

/-- One piece of a pattern. -/
inductive Piece (α : Type u) where
  /-- Any run of characters. -/
  | star
  /-- One character that `accepts` takes. -/
  | one (accepts : α → Bool)

/-- The language of a pattern. -/
def Matches : List (Piece α) → List α → Prop
  | [], v => v = []
  | .star :: p, v => ∃ v', v' <:+ v ∧ Matches p v'
  | .one _ :: _, [] => False
  | .one accepts :: p, c :: v => accepts c = true ∧ Matches p v

/-- The text is in the language of the pattern. -/
def isMatch : List (Piece α) → List α → Bool
  | [], v => v.isEmpty
  | .star :: p, v => v.tails.any (isMatch p)
  | .one _ :: _, [] => false
  | .one accepts :: p, c :: v => accepts c && isMatch p v

/-- The language of a pattern whose stars swallow the characters of `eats` alone. -/
def Eager (eats : α → Bool) : List (Piece α) → List α → Prop
  | [], v => v = []
  | .star :: p, [] => Eager eats p []
  | .star :: p, c :: v =>
    if eats c then Eager eats p v else ∃ v', v' <:+ c :: v ∧ Eager eats p v'
  | .one _ :: _, [] => False
  | .one accepts :: p, c :: v => accepts c = true ∧ Eager eats p v

variable {eats : α → Bool} {p s : List (Piece α)} {v w : List α} {c : α}

theorem eager_star_of_eats (hc : eats c = true) :
    Eager eats (.star :: p) (c :: v) ↔ Eager eats p v := by
  rw [Eager, if_pos hc]

theorem eager_star_of_not_eats (hc : eats c = false) :
    Eager eats (.star :: p) (c :: v) ↔ ∃ v', v' <:+ c :: v ∧ Eager eats p v' := by
  rw [Eager, if_neg (by simp [hc])]

/-- What a star has matched, it has matched with some rest of the text for the other pieces. -/
theorem exists_suffix_of_eager_star (h : Eager eats (.star :: p) v) :
    ∃ v', v' <:+ v ∧ Eager eats p v' := by
  cases v with
  | nil => exact ⟨[], List.suffix_refl _, h⟩
  | cons c v =>
      cases hc : eats c with
      | true => exact ⟨v, List.suffix_cons c v, (eager_star_of_eats hc).mp h⟩
      | false => exact (eager_star_of_not_eats hc).mp h

/-- Eager stars match less. -/
theorem Eager.matches (h : Eager eats p v) : Matches p v := by
  induction p generalizing v with
  | nil => exact h
  | cons x p ih =>
      cases x with
      | star =>
          obtain ⟨v', hsuffix, h⟩ := exists_suffix_of_eager_star h
          exact ⟨v', hsuffix, ih h⟩
      | one accepts =>
          cases v with
          | nil => exact h
          | cons c v => exact ⟨h.1, ih h.2⟩

/-- In a text without the characters that a star swallows alone, every star is free. -/
theorem eager_iff_matches (hv : ∀ c ∈ v, eats c = false) : Eager eats p v ↔ Matches p v := by
  refine ⟨Eager.matches, fun h => ?_⟩
  induction p generalizing v with
  | nil => exact h
  | cons x p ih =>
      cases x with
      | star =>
          obtain ⟨v', hsuffix, h⟩ := h
          have hrest := ih (fun c hc => hv c (hsuffix.subset hc)) h
          cases v with
          | nil =>
              obtain rfl := List.suffix_nil.mp hsuffix
              exact hrest
          | cons c v => exact (eager_star_of_not_eats (hv c List.mem_cons_self)).mpr ⟨v', hsuffix, hrest⟩
      | one accepts =>
          cases v with
          | nil => exact h
          | cons c v => exact ⟨h.1, ih (fun d hd => hv d (List.mem_cons_of_mem _ hd)) h.2⟩

/-- Without a star, no star swallows anything. -/
theorem eager_iff_matches_of_noStar (hp : ∀ x ∈ p, x ≠ .star) : Eager eats p v ↔ Matches p v := by
  refine ⟨Eager.matches, fun h => ?_⟩
  induction p generalizing v with
  | nil => exact h
  | cons x p ih =>
      cases x with
      | star => exact absurd rfl (hp _ List.mem_cons_self)
      | one accepts =>
          cases v with
          | nil => exact h
          | cons c v => exact ⟨h.1, ih (fun y hy => hp y (List.mem_cons_of_mem _ hy)) h.2⟩

theorem isMatch_iff : isMatch p v = true ↔ Matches p v := by
  induction p generalizing v with
  | nil => simp [isMatch, Matches]
  | cons x p ih =>
      cases x with
      | star => simp [isMatch, Matches, ih, List.mem_tails]
      | one accepts =>
          cases v with
          | nil => simp [isMatch, Matches]
          | cons c v => simp [isMatch, Matches, ih]

/-- Behind the end of the text only stars match. -/
theorem eager_nil : Eager eats p [] ↔ ∀ x ∈ p, x = .star := by
  induction p with
  | nil => simp [Eager]
  | cons x p ih =>
      cases x with
      | star => simp [Eager, ih]
      | one accepts => simp [Eager]

/-- A piece that is no star has matched some character. -/
theorem exists_mem_of_eager {accepts : α → Bool} (hmem : .one accepts ∈ p) (h : Eager eats p v) :
    ∃ c ∈ v, accepts c = true := by
  induction p generalizing v with
  | nil => cases hmem
  | cons x p ih =>
      cases x with
      | star =>
          obtain ⟨v', hsuffix, h⟩ := exists_suffix_of_eager_star h
          obtain ⟨c, hc, haccepts⟩ := ih ((List.mem_cons.mp hmem).resolve_left (by simp)) h
          exact ⟨c, hsuffix.subset hc, haccepts⟩
      | one accepts' =>
          cases v with
          | nil => exact h.elim
          | cons c v =>
              rcases List.mem_cons.mp hmem with hsame | hmem
              · cases hsame
                exact ⟨c, List.mem_cons_self, h.1⟩
              · obtain ⟨d, hd, haccepts⟩ := ih hmem h.2
                exact ⟨d, List.mem_cons_of_mem _ hd, haccepts⟩

/-- A suffix is the whole text, or a suffix of what follows its first character. -/
theorem exists_suffix_iff {P : List α → Prop} :
    (P v ∨ ∃ v', v' <:+ v.drop 1 ∧ P v') ↔ ∃ v', v' <:+ v ∧ P v' := by
  cases v with
  | nil =>
      simp only [List.drop_nil, List.suffix_nil, exists_eq_left]
      exact or_self_iff
  | cons c v =>
      simp only [List.drop_succ_cons, List.drop_zero, List.suffix_cons_iff, or_and_right, exists_or,
        exists_eq_left]

/-! ### Piece by piece -/

/-- The piece takes exactly the character `c`: a star does so when it swallows it. -/
def Piece.Takes (eats : α → Bool) : Piece α → α → Prop
  | .star, c => eats c = true
  | .one accepts, c => accepts c = true

/-- Pieces that each take one character leave the other pieces to the rest of the text. -/
theorem eager_append_iff (h : List.Forall₂ (Piece.Takes eats) s v) :
    Eager eats (s ++ p) (v ++ w) ↔ Eager eats p w := by
  induction h with
  | nil => rfl
  | @cons x c s v hx _ ih =>
      cases x with
      | star => exact (eager_star_of_eats hx).trans ih
      | one accepts => exact (and_iff_right hx).trans ih

/-- Where each piece of `s` takes one character of the text, no later start of `s` leaves more of
it than this one does. -/
theorem eager_of_suffix (h : List.Forall₂ (Piece.Takes eats) s v) {u : List α}
    (hsuffix : u <:+ v ++ w) (hu : Eager eats (s ++ p) u) : ∃ w', w' <:+ w ∧ Eager eats p w' := by
  induction h generalizing u with
  | nil => exact ⟨u, hsuffix, hu⟩
  | @cons x c s v hx _ ih =>
      rcases List.suffix_cons_iff.mp hsuffix with rfl | hlater
      · -- The same start.
        cases x with
        | star => exact ih (List.suffix_refl _) ((eager_star_of_eats hx).mp hu)
        | one accepts => exact ih (List.suffix_refl _) hu.2
      · cases x with
        | star =>
            obtain ⟨u', hu', hrest⟩ := exists_suffix_of_eager_star hu
            exact ih (hu'.trans hlater) hrest
        | one accepts =>
            cases u with
            | nil => exact hu.elim
            | cons d u => exact ih ((List.suffix_cons d u).trans hlater) hu.2

/-- A text that every star must swallow, and that goes on behind as many characters as the
pattern has pieces, does not match. -/
theorem not_eager_replicate {star : α} (hstar : eats star = true) (p : List (Piece α)) (c : α) :
    ¬ Eager eats p (List.replicate p.length star ++ [c]) := by
  induction p with
  | nil => simp [Eager]
  | cons x p ih =>
      cases x with
      | star => exact fun h => ih ((eager_star_of_eats hstar).mp h)
      | one accepts => exact fun h => ih h.2

end Glob
