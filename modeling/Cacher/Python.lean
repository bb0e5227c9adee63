import Cacher.Lib.Decimal
import Cacher.Lib.Fnmatch
import Cacher.Lib.Utf8
import Cacher.Tool

/-!
# `Cacher.Python`: what the tool relies on in Python

`Python` leaves open what the functions do that `tools/cacher` takes from the language.
`Python.Documented` is what their documentation says: all of it for reading a file, `strip` and
`fnmatch`, and for ASCII texts where the answer depends on the tables of Unicode. `Python.ascii` is
a Python that knows ASCII only.
-/

set_option autoImplicit false

namespace Cacher

namespace Tool

open Files

/-- What reading in text mode makes of the ends of lines. -/
def universalNewlines : PyStr → PyStr
  | [] => []
  | c :: s =>
    if c = '\r' then
      match s with
      | '\n' :: s => '\n' :: universalNewlines s
      | s => '\n' :: universalNewlines s
    else c :: universalNewlines s

theorem universalNewlines_append {s : PyStr} (h : '\r' ∉ s) (t : PyStr) :
    universalNewlines (s ++ t) = s ++ universalNewlines t := by
  induction s with
  | nil => rfl
  | cons c s ih =>
      obtain ⟨hc, hs⟩ := not_or.mp (fun hmem => h (List.mem_cons.mpr hmem))
      have hcons : universalNewlines (c :: (s ++ t)) = c :: universalNewlines (s ++ t) := by
        conv_lhs => unfold universalNewlines
        exact if_neg (Ne.symm hc)
      rw [List.cons_append, hcons, ih hs, List.cons_append]

theorem return_notMem_universalNewlines (s : PyStr) : '\r' ∉ universalNewlines s := by
  fun_induction universalNewlines s with
  | case1 => exact List.not_mem_nil
  | case2 s ih => simpa using ih
  | case3 s _ ih => simpa using ih
  | case4 c s hc ih => simpa [Ne.symm hc] using ih

/-- The text of a file that is opened with `encoding="utf-8", errors="replace"`. -/
def fileText (b : Bytes) : PyStr := universalNewlines (Utf8.decode b)

/-- What `str.strip` takes off. -/
def isWhitespace (c : Char) : Bool :=
  let n := c.toNat
  (9 ≤ n && n ≤ 13) || (0x1C ≤ n && n ≤ 0x20) || n == 0x85 || n == 0xA0 || n == 0x1680
    || (0x2000 ≤ n && n ≤ 0x200A) || n == 0x2028 || n == 0x2029 || n == 0x202F || n == 0x205F
    || n == 0x3000

/-- `str.strip`. -/
def strip (s : PyStr) : PyStr :=
  ((s.dropWhile isWhitespace).reverse.dropWhile isWhitespace).reverse

/-- Every character is an ASCII character. -/
def IsAscii (s : PyStr) : Prop := ∀ c ∈ s, c.toNat < 128

instance (s : PyStr) : Decidable (IsAscii s) := inferInstanceAs (Decidable (∀ c ∈ s, c.toNat < 128))

/-- What the tool relies on. -/
structure Python.Documented (py : Python) : Prop where
  decode : ∀ b, py.decode b = fileText b
  strip : ∀ s, py.strip s = Tool.strip s
  isdigit : ∀ s, IsAscii s → (py.isdigit s = true ↔ s ≠ [] ∧ ∀ c ∈ s, c.isDigit = true)
  int : ∀ n : Nat, n < 2 ^ 64 → py.int (Nat.toDigits 10 n) = some (n : Int)
  lower : ∀ s, IsAscii s → py.lower s = s.map Char.toLower
  fnmatch : ∀ name pattern, py.fnmatch name pattern = Fnmatch.fnmatch name pattern

/-- Python, as far as letters and digits are ASCII. -/
def Python.ascii : Python where
  decode := fileText
  strip := Tool.strip
  isdigit s := s ≠ [] && s.all Char.isDigit
  int s :=
    let s := Tool.strip s
    if s ≠ [] && s.all Char.isDigit then some (Int.ofNat (Nat.ofDigitChars 10 s 0)) else none
  lower s := s.map Char.toLower
  fnmatch := Fnmatch.fnmatch

/-- A digit is no white space. -/
theorem isWhitespace_of_isDigit {c : Char} (h : c.isDigit = true) : isWhitespace c = false := by
  have hrange : 48 ≤ c.toNat ∧ c.toNat ≤ 57 := by
    simpa [Char.isDigit, UInt32.le_iff_toNat_le] using h
  simp only [isWhitespace, Bool.or_eq_false_iff, Bool.and_eq_false_iff, decide_eq_false_iff_not,
    beq_eq_false_iff_ne]
  omega

/-- What begins and ends with something else is stripped of nothing. -/
theorem strip_of_forall {s : PyStr} (h : ∀ c ∈ s, isWhitespace c = false) : strip s = s := by
  have hdrop : ∀ {l : PyStr}, (∀ c ∈ l, isWhitespace c = false) →
      l.dropWhile isWhitespace = l := by
    intro l hl
    cases l with
    | nil => rfl
    | cons c l => rw [List.dropWhile_cons_of_neg (by simp [hl c List.mem_cons_self])]
  rw [strip, hdrop h, hdrop fun c hc => h c (List.mem_reverse.mp hc), List.reverse_reverse]

theorem Python.documented_ascii : Python.ascii.Documented where
  decode _ := rfl
  strip _ := rfl
  isdigit s _ := by simp [Python.ascii]
  int n _ := by
    have hdigits : ∀ c ∈ Nat.toDigits 10 n, c.isDigit = true := fun c hc =>
      Nat.isDigit_of_mem_toDigits (by decide) (by decide) hc
    have hstrip := strip_of_forall fun c hc => isWhitespace_of_isDigit (hdigits c hc)
    have hne : Nat.toDigits 10 n ≠ [] := by simp
    show (if (Tool.strip _ ≠ [] && (Tool.strip _).all Char.isDigit) = true then _ else _) = _
    rw [hstrip, if_pos (by simpa [hne] using hdigits),
      Nat.ofDigitChars_toDigits (by decide) (by decide)]
    rfl
  lower _ _ := rfl
  fnmatch _ _ := rfl

end Tool

end Cacher
