import Cacher.Lib.CString
import Mathlib.Tactic.IntervalCases

/-!
# `Cacher.Lib.Decimal`: printing and reading 64-bit decimals

`decimal` is what the `printf` conversions `%d` and `%lld` print. `atoi64` is
`apr_atoi64`: it skips leading white space, takes an optional sign and the digits that
follow, ignores the rest, and saturates at the ends of the 64-bit range.

`atoi64_decimal` is the round trip. It needs no range hypothesis, because `Int64`
carries its own.
-/

set_option autoImplicit false

namespace CText

/-- A decimal digit. -/
def isDigit (c : CChar) : Bool := 48 ≤ c.val && c.val ≤ 57

/-- White space, as `isspace` sees it in the C locale. -/
def isSpace (c : CChar) : Bool := c.val == 32 || (9 ≤ c.val && c.val ≤ 13)

/-- The digits of a natural number. -/
def decimalNat (n : Nat) : CString := (Nat.toDigits 10 n).map chr

/-- A signed integer in decimal (`%d`, `%lld`). -/
def decimal (i : Int) : CString :=
  if i < 0 then chr '-' :: decimalNat i.natAbs else decimalNat i.natAbs

/-- The number the leading digits spell, over an accumulator. -/
def scanDigits (acc : Nat) : CString → Nat
  | [] => acc
  | c :: s => if isDigit c then scanDigits (10 * acc + (c.val.toNat - 48)) s else acc

/-- `apr_atoi64`. -/
def atoi64 (s : CString) : Int64 :=
  match s.dropWhile isSpace with
  | [] => 0
  | c :: rest =>
    if c = chr '-' then Int64.ofIntClamp (-(scanDigits 0 rest : Int))
    else if c = chr '+' then Int64.ofIntClamp (scanDigits 0 rest)
    else Int64.ofIntClamp (scanDigits 0 (c :: rest))

/-- A digit character keeps its code. -/
theorem val_chr_of_isDigit {c : Char} (h : c.isDigit = true) :
    (chr c).val.toNat = c.toNat ∧ 48 ≤ c.toNat ∧ c.toNat ≤ 57 := by
  have hr : 48 ≤ c.toNat ∧ c.toNat ≤ 57 := by
    simpa [Char.isDigit, UInt32.le_iff_toNat_le] using h
  refine ⟨?_, hr⟩
  have hmod : c.toNat.toUInt8.toNat = c.toNat := by
    rw [Nat.toUInt8, UInt8.toNat_ofNat_of_lt' (by simp [UInt8.size]; omega)]
  have hne : c.toNat.toUInt8 ≠ 0 := by
    intro h0
    rw [h0] at hmod
    simp at hmod
    omega
  rw [chr, dif_pos hne]
  exact hmod

theorem isDigit_chr {c : Char} (h : c.isDigit = true) : isDigit (chr c) = true := by
  obtain ⟨hval, hlo, hhi⟩ := val_chr_of_isDigit h
  simp only [isDigit, Bool.and_eq_true, decide_eq_true_eq, UInt8.le_iff_toNat_le]
  rw [hval]
  exact ⟨hlo, hhi⟩

/-- Every character of a printed natural number is a digit. -/
theorem isDigit_of_mem_decimalNat {n : Nat} {c : CChar} (h : c ∈ decimalNat n) :
    isDigit c = true := by
  obtain ⟨d, hd, rfl⟩ := List.mem_map.mp h
  exact isDigit_chr (Nat.isDigit_of_mem_toDigits (by decide) (by decide) hd)

theorem decimalNat_ne_nil (n : Nat) : decimalNat n ≠ [] := by simp [decimalNat]

/-- Scanning printed digits computes their value. -/
theorem scanDigits_map_chr (l : List Char) (hl : ∀ c ∈ l, c.isDigit = true) (acc : Nat) :
    scanDigits acc (l.map chr) = Nat.ofDigitChars 10 l acc := by
  induction l generalizing acc with
  | nil => simp [scanDigits]
  | cons c l ih =>
      have hc := hl c List.mem_cons_self
      rw [List.map_cons, scanDigits, if_pos (isDigit_chr hc), (val_chr_of_isDigit hc).1,
        Nat.ofDigitChars_cons, ih (fun x hx => hl x (List.mem_cons_of_mem _ hx))]
      rfl

theorem scanDigits_decimalNat (n : Nat) : scanDigits 0 (decimalNat n) = n := by
  rw [decimalNat, scanDigits_map_chr _ fun c hc =>
    Nat.isDigit_of_mem_toDigits (by decide) (by decide) hc]
  exact Nat.ofDigitChars_toDigits (by decide) (by decide)

/-- A digit is neither white space nor a sign. -/
theorem isDigit_separates {c : CChar} (h : isDigit c = true) :
    isSpace c = false ∧ c ≠ chr '-' ∧ c ≠ chr '+' := by
  simp only [isDigit, Bool.and_eq_true, decide_eq_true_eq, UInt8.le_iff_toNat_le] at h
  have h1 : (48 : UInt8).toNat = 48 := rfl
  have h2 : (57 : UInt8).toNat = 57 := rfl
  refine ⟨?_, ?_, ?_⟩
  · have h3 : ¬ c.val = 32 := fun hc => by rw [hc] at h; simp at h
    have h4 : ¬ c.val ≤ 13 := by
      rw [UInt8.le_iff_toNat_le]
      have : (13 : UInt8).toNat = 13 := rfl
      omega
    simp [isSpace, h3, h4]
  · rintro rfl
    revert h
    decide
  · rintro rfl
    revert h
    decide

/-- Reading a printed 64-bit integer gives it back. -/
theorem atoi64_decimal (x : Int64) : atoi64 (decimal x.toInt) = x := by
  obtain ⟨d, ds, hd⟩ := List.exists_cons_of_ne_nil (decimalNat_ne_nil x.toInt.natAbs)
  have hdigit : isDigit d = true := isDigit_of_mem_decimalNat (by rw [hd]; exact List.mem_cons_self)
  obtain ⟨hspace, hminus, hplus⟩ := isDigit_separates hdigit
  by_cases hneg : x.toInt < 0
  · -- The sign is neither white space nor a digit.
    have hsp : isSpace (chr '-') = false := by decide
    have hval : -(x.toInt.natAbs : Int) = x.toInt := by omega
    rw [decimal, if_pos hneg, atoi64, List.dropWhile_cons_of_neg (by simp [hsp])]
    show (if chr '-' = chr '-' then _ else _) = x
    rw [if_pos rfl, scanDigits_decimalNat, hval, Int64.ofIntClamp_toInt]
  · -- The first digit is neither white space nor a sign.
    have hval : (x.toInt.natAbs : Int) = x.toInt := by omega
    rw [decimal, if_neg hneg, atoi64, hd, List.dropWhile_cons_of_neg (by simp [hspace])]
    show (if d = chr '-' then _ else if d = chr '+' then _ else _) = x
    rw [if_neg hminus, if_neg hplus, ← hd, scanDigits_decimalNat, hval, Int64.ofIntClamp_toInt]

/-- A character of a printed integer is a digit or the sign. -/
theorem mem_decimal {i : Int} {c : CChar} (h : c ∈ decimal i) :
    isDigit c = true ∨ c = chr '-' := by
  rw [decimal] at h
  split at h
  · rcases List.mem_cons.mp h with h | h
    · exact Or.inr h
    · exact Or.inl (isDigit_of_mem_decimalNat h)
  · exact Or.inl (isDigit_of_mem_decimalNat h)

/-- A printed integer holds no white space. -/
theorem notMem_decimal_of_isSpace {i : Int} {c : CChar} (hc : isSpace c = true) :
    c ∉ decimal i := by
  intro h
  rcases mem_decimal h with h | rfl
  · rw [(isDigit_separates h).1] at hc
    cases hc
  · revert hc
    decide

end CText
