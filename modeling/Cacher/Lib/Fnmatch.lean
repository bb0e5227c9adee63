import Cacher.Lib.CString
import Cacher.Lib.Glob

/-!
# `Cacher.Lib.Fnmatch`: shell patterns with character classes

`fnmatch` in the way of Python's module: `*` is any run of characters, `?` is any character, and
`[seq]` and `[!seq]` are one character that is in `seq` or is not. A bracket that nothing closes
stands for itself, and so does every other character. `pieces` reads a pattern, and
`pieces_of_opensNoClass` is this reading where no bracket opens a class.
-/

set_option autoImplicit false

namespace Fnmatch

open Glob CText

/-- What stands between the brackets of `[seq]` or `[!seq]`. -/
structure CharClass where
  negated : Bool
  items : List Char

/-- The class that the text behind a `[` begins with, and what follows its `]`. A `]` in the first
place belongs to the class. -/
def classAt? (s : List Char) : Option (CharClass × List Char) :=
  let (negated, s) := match s with
    | '!' :: s => (true, s)
    | s => (false, s)
  let (first, s) := match s with
    | ']' :: s => ([']'], s)
    | s => ([], s)
  (cutAt [']'] s).map fun (body, rest) => (⟨negated, first ++ body⟩, rest)

/-- The character is one of the items, or in a range `x-y` of them. -/
def inItems : List Char → Char → Bool
  | x :: '-' :: y :: items, c => (x ≤ c && c ≤ y) || inItems items c
  | x :: items, c => x == c || inItems items c
  | [], _ => false

def CharClass.accepts (k : CharClass) (c : Char) : Bool := k.negated != inItems k.items c

/-- A character that opens no class. -/
def plainPiece (c : Char) : Piece Char :=
  if c = '*' then .star
  else if c = '?' then .one fun _ => true
  else .one fun d => d = c

/-- The pieces of a pattern, of which it has no more than `fuel`. -/
def piecesUpTo : (fuel : Nat) → List Char → List (Piece Char)
  | 0, _ => []
  | _ + 1, [] => []
  | fuel + 1, c :: s =>
    match if c = '[' then classAt? s else none with
    | some (k, rest) => .one k.accepts :: piecesUpTo fuel rest
    | none => plainPiece c :: piecesUpTo fuel s

/-- The pieces of a pattern. -/
def pieces (pattern : List Char) : List (Piece Char) := piecesUpTo pattern.length pattern

/-- `fnmatch.fnmatch` on POSIX. -/
def fnmatch (name pattern : List Char) : Bool := isMatch (pieces pattern) name

/-- No bracket opens a class. -/
def OpensNoClass (pattern : List Char) : Prop := ∀ s, '[' :: s <:+ pattern → classAt? s = none

theorem OpensNoClass.tail {c : Char} {s : List Char} (h : OpensNoClass (c :: s)) : OpensNoClass s :=
  fun s' hs' => h s' (hs'.trans (List.suffix_cons c s))

/-- Without a class, every character is a piece. -/
theorem pieces_of_opensNoClass {pattern : List Char} (h : OpensNoClass pattern) :
    pieces pattern = pattern.map plainPiece := by
  unfold pieces
  induction pattern with
  | nil => rfl
  | cons c s ih =>
      have hno : (if c = '[' then classAt? s else none) = none := by
        split
        · rename_i hc
          exact h s (hc ▸ List.suffix_rfl)
        · rfl
      rw [List.length_cons, piecesUpTo, hno]
      dsimp only
      rw [ih h.tail, List.map_cons]

theorem fnmatch_iff {pattern name : List Char} (h : OpensNoClass pattern) :
    fnmatch name pattern = true ↔ Matches (pattern.map plainPiece) name := by
  rw [fnmatch, isMatch_iff, pieces_of_opensNoClass h]

end Fnmatch
