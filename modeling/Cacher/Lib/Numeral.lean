import Cacher.Lib.Decimal
import Mathlib.Data.Rat.Defs
import Mathlib.Algebra.Order.Field.Rat

/-!
# `Cacher.Lib.Numeral`: decimal numbers with a point and an exponent

A `Numeral` is a decimal number as `strtod` takes it in the C locale, part by part: a sign, the
digits in front of the point and behind it, and an exponent. `readNumeral` reads the longest one
that a text begins with.

* `eq_text_of_readNumeral`: what is read and what is left make up the text.
* `readNumeral_text`: a numeral in front of anything that does not go on with it is read back.
* `length_le_of_readNumeral`: no longer numeral begins there.
-/

set_option autoImplicit false

namespace CText

/-- A decimal digit. -/
abbrev Digit := {c : CChar // isDigit c = true}

/-- The digits as they are written. -/
def digitsText (digits : List Digit) : CString := digits.map Subtype.val

/-- The number that the digits spell. -/
def digitsValue (digits : List Digit) : Nat :=
  digits.foldl (fun value digit => 10 * value + (digit.val.val.toNat - 48)) 0

/-- A sign that may be missing. -/
inductive Sign where
  | none
  | plus
  | minus
  deriving DecidableEq

def Sign.text : Sign → CString
  | .none => []
  | .plus => [chr '+']
  | .minus => [chr '-']

/-- An exponent part. -/
structure Exponent where
  marker : CChar
  sign : Sign
  digits : List Digit
  /-- The marker is an `e` in either case. -/
  is_marker : marker = chr 'e' ∨ marker = chr 'E'
  digits_ne : digits ≠ []

def Exponent.text (e : Exponent) : CString := e.marker :: e.sign.text ++ digitsText e.digits

def Exponent.value (e : Exponent) : Int :=
  if e.sign = .minus then -(digitsValue e.digits : Int) else digitsValue e.digits

/-- A decimal number, as `strtod` takes it. -/
structure Numeral where
  sign : Sign
  whole : List Digit
  /-- The digits behind the point, if there is a point. -/
  fraction : Option (List Digit)
  exponent : Option Exponent
  /-- There is a digit on one side of the point. -/
  has_digit : whole ≠ [] ∨ fraction.getD [] ≠ []

/-- The point and what is behind it. -/
def fractionText : Option (List Digit) → CString
  | none => []
  | some digits => chr '.' :: digitsText digits

def exponentText : Option Exponent → CString
  | none => []
  | some e => e.text

def Numeral.text (n : Numeral) : CString :=
  n.sign.text ++ digitsText n.whole ++ fractionText n.fraction ++ exponentText n.exponent

/-- The number that is written. -/
def Numeral.value (n : Numeral) : ℚ :=
  (if n.sign = .minus then -1 else 1) * (digitsValue (n.whole ++ n.fraction.getD []) : ℚ)
    * 10 ^ ((n.exponent.elim 0 Exponent.value) - ((n.fraction.getD []).length : Int))

/-! ### Reading -/

/-- The sign at the front. -/
def readSign : CString → Sign × CString
  | [] => (.none, [])
  | c :: s => if c = chr '+' then (.plus, s) else if c = chr '-' then (.minus, s) else (.none, c :: s)

/-- The digits at the front. -/
def readDigits : CString → List Digit × CString
  | [] => ([], [])
  | c :: s =>
    if h : isDigit c = true then (⟨c, h⟩ :: (readDigits s).1, (readDigits s).2) else ([], c :: s)

/-- A point with the digits behind it. -/
def readFraction : CString → Option (List Digit) × CString
  | [] => (none, [])
  | c :: s => if c = chr '.' then (some (readDigits s).1, (readDigits s).2) else (none, c :: s)

/-- An exponent part. Without a digit there is none, and the marker is left where it is. -/
def readExponent : CString → Option Exponent × CString
  | [] => (none, [])
  | c :: s =>
    if hmarker : c = chr 'e' ∨ c = chr 'E' then
      if hdigits : (readDigits (readSign s).2).1 ≠ [] then
        (some ⟨c, (readSign s).1, _, hmarker, hdigits⟩, (readDigits (readSign s).2).2)
      else (none, c :: s)
    else (none, c :: s)

/-- The longest numeral at the front, and what is behind it. -/
def readNumeral (s : CString) : Option (Numeral × CString) :=
  let sign := readSign s
  let whole := readDigits sign.2
  let fraction := readFraction whole.2
  let exponent := readExponent fraction.2
  if hdigit : whole.1 ≠ [] ∨ fraction.1.getD [] ≠ [] then
    some (⟨sign.1, whole.1, fraction.1, exponent.1, hdigit⟩, exponent.2)
  else none

/-! ### What is read is what is written -/

theorem readSign_eq (s : CString) : s = (readSign s).1.text ++ (readSign s).2 := by
  cases s with
  | nil => rfl
  | cons c s =>
      rw [readSign]
      split
      · rename_i h
        rw [h]
        rfl
      split
      · rename_i h
        rw [h]
        rfl
      · rfl

theorem readDigits_eq (s : CString) : s = digitsText (readDigits s).1 ++ (readDigits s).2 := by
  induction s with
  | nil => rfl
  | cons c s ih =>
      rw [readDigits]
      split
      · exact congrArg (c :: ·) ih
      · rfl

theorem readFraction_eq (s : CString) : s = fractionText (readFraction s).1 ++ (readFraction s).2 := by
  cases s with
  | nil => rfl
  | cons c s =>
      rw [readFraction]
      split
      · rename_i h
        rw [h]
        exact congrArg (chr '.' :: ·) (readDigits_eq s)
      · rfl

theorem readExponent_eq (s : CString) : s = exponentText (readExponent s).1 ++ (readExponent s).2 := by
  cases s with
  | nil => rfl
  | cons c s =>
      rw [readExponent]
      split
      · split
        · show c :: s = c :: ((readSign s).1.text ++ digitsText (readDigits (readSign s).2).1)
            ++ (readDigits (readSign s).2).2
          rw [List.cons_append, List.append_assoc, ← readDigits_eq, ← readSign_eq]
        · rfl
      · rfl

/-- The numeral and what is left make up the text. -/
theorem eq_text_of_readNumeral {s rest : CString} {n : Numeral}
    (h : readNumeral s = some (n, rest)) : s = n.text ++ rest := by
  simp only [readNumeral] at h
  split at h
  · cases h
    simp only [Numeral.text]
    rw [List.append_assoc, ← readExponent_eq, List.append_assoc, ← readFraction_eq,
      List.append_assoc, ← readDigits_eq, ← readSign_eq]
  · cases h

/-! ### What is written is read -/

/-- A character that may stand in a numeral. -/
def isNumberChar (c : CChar) : Bool :=
  isDigit c || c == chr '+' || c == chr '-' || c == chr 'e' || c == chr 'E' || c == chr '.'

/-- No numeral goes on in the text. -/
def EndsNumber (rest : CString) : Prop := ∀ c, rest.head? = some c → isNumberChar c = false

theorem isDigit_eq_false_of_point : isDigit (chr '.') = false := by decide

theorem Exponent.isDigit_marker (e : Exponent) : isDigit e.marker = false := by
  cases e.is_marker with
  | inl h => rw [h]; decide
  | inr h => rw [h]; decide

theorem readSign_text {sign : Sign} {d : CChar} (hplus : d ≠ chr '+') (hminus : d ≠ chr '-')
    (s : CString) : readSign (sign.text ++ d :: s) = (sign, d :: s) := by
  cases sign with
  | none => exact (if_neg hplus).trans (if_neg hminus)
  | plus => rfl
  | minus =>
      show readSign (chr '-' :: d :: s) = _
      rw [readSign, if_neg (by decide), if_pos rfl]

/-- Digits behind digits are read together. -/
theorem readDigits_append (digits : List Digit) (s : CString) :
    readDigits (digitsText digits ++ s) = (digits ++ (readDigits s).1, (readDigits s).2) := by
  induction digits with
  | nil => rfl
  | cons d digits ih =>
      show readDigits (d.val :: (digitsText digits ++ s)) = _
      rw [readDigits, dif_pos d.property, ih]
      rfl

theorem readDigits_of_not_digit {s : CString} (h : ∀ c, s.head? = some c → isDigit c = false) :
    readDigits s = ([], s) := by
  cases s with
  | nil => rfl
  | cons c s =>
      have hc : ¬ isDigit c = true := by rw [h c rfl]; decide
      rw [readDigits, dif_neg hc]

theorem readFraction_text (digits : List Digit) (s : CString) :
    readFraction (fractionText (some digits) ++ s)
      = (some (digits ++ (readDigits s).1), (readDigits s).2) := by
  show readFraction (chr '.' :: (digitsText digits ++ s)) = _
  rw [readFraction, if_pos rfl, readDigits_append]

theorem readFraction_of_ne {s : CString} (h : ∀ c, s.head? = some c → c ≠ chr '.') :
    readFraction s = (none, s) := by
  cases s with
  | nil => rfl
  | cons c s => rw [readFraction, if_neg (h c rfl)]

/-- A digit is no sign. -/
theorem readSign_digits {sign : Sign} {digits : List Digit} (h : digits ≠ []) (s : CString) :
    readSign (sign.text ++ (digitsText digits ++ s)) = (sign, digitsText digits ++ s) := by
  obtain ⟨d, digits, rfl⟩ := List.exists_cons_of_ne_nil h
  obtain ⟨-, hminus, hplus⟩ := isDigit_separates d.property
  exact readSign_text hplus hminus _

theorem readExponent_text (e : Exponent) (s : CString) :
    ∃ e' : Exponent, e'.marker = e.marker ∧ e'.sign = e.sign
      ∧ e'.digits = e.digits ++ (readDigits s).1
      ∧ readExponent (e.text ++ s) = (some e', (readDigits s).2) := by
  have hsign := @readSign_digits e.sign _ e.digits_ne s
  have hne : e.digits ++ (readDigits s).1 ≠ [] := by simp [e.digits_ne]
  have hread : readExponent (e.marker :: (e.sign.text ++ (digitsText e.digits ++ s)))
      = (some ⟨e.marker, e.sign, e.digits ++ (readDigits s).1, e.is_marker, hne⟩,
          (readDigits s).2) := by
    simp only [readExponent, dif_pos e.is_marker, hsign, readDigits_append]
    rw [dif_pos hne]
  refine ⟨⟨e.marker, e.sign, _, e.is_marker, hne⟩, rfl, rfl, rfl, ?_⟩
  rw [Exponent.text, List.append_assoc, List.cons_append]
  exact hread

theorem readExponent_of_ne {s : CString} (h : ∀ c, s.head? = some c → c ≠ chr 'e' ∧ c ≠ chr 'E') :
    readExponent s = (none, s) := by
  cases s with
  | nil => rfl
  | cons c s =>
      have hc : ¬ (c = chr 'e' ∨ c = chr 'E') := by simpa using h c rfl
      rw [readExponent, dif_neg hc]

theorem length_readDigits_le (s : CString) : (readDigits s).2.length ≤ s.length := by
  have h := congrArg List.length (readDigits_eq s)
  rw [List.length_append] at h
  omega

theorem length_readFraction_le (s : CString) : (readFraction s).2.length ≤ s.length := by
  have h := congrArg List.length (readFraction_eq s)
  rw [List.length_append] at h
  omega

theorem length_readExponent_le (s : CString) : (readExponent s).2.length ≤ s.length := by
  have h := congrArg List.length (readExponent_eq s)
  rw [List.length_append] at h
  omega

/-- Behind the digits stands what no digit begins. -/
theorem head_fraction_exponent {fraction : Option (List Digit)} {exponent : Option Exponent}
    {rest : CString} (h : fraction ≠ none ∨ exponent ≠ none) {c : CChar}
    (hc : (fractionText fraction ++ (exponentText exponent ++ rest)).head? = some c) :
    isDigit c = false := by
  cases fraction with
  | some digits =>
      cases hc
      exact isDigit_eq_false_of_point
  | none =>
      cases exponent with
      | some e =>
          cases hc
          exact e.isDigit_marker
      | none => simp at h

theorem readSign_numeral (n : Numeral) (rest : CString) :
    readSign (n.text ++ rest) = (n.sign, digitsText n.whole
      ++ (fractionText n.fraction ++ (exponentText n.exponent ++ rest))) := by
  have hassoc : n.text ++ rest = n.sign.text ++ (digitsText n.whole
      ++ (fractionText n.fraction ++ (exponentText n.exponent ++ rest))) := by
    simp only [Numeral.text, List.append_assoc]
  rw [hassoc]
  by_cases hwhole : n.whole = []
  · -- Without a digit in front of it there is a point.
    cases hfraction : n.fraction with
    | none =>
        have hdigit := n.has_digit
        simp [hwhole, hfraction] at hdigit
    | some digits =>
        rw [hwhole]
        exact readSign_text (by decide) (by decide) _
  · exact readSign_digits hwhole _

/-- The digits in front of the point end where they were written to end, if something follows. -/
theorem readDigits_whole {n : Numeral} {rest : CString}
    (h : n.fraction ≠ none ∨ n.exponent ≠ none ∨ EndsNumber rest) :
    readDigits (digitsText n.whole ++ (fractionText n.fraction ++ (exponentText n.exponent ++ rest)))
      = (n.whole, fractionText n.fraction ++ (exponentText n.exponent ++ rest)) := by
  have hnot : ∀ c, (fractionText n.fraction ++ (exponentText n.exponent ++ rest)).head? = some c →
      isDigit c = false := by
    intro c hc
    by_cases hpart : n.fraction ≠ none ∨ n.exponent ≠ none
    · exact head_fraction_exponent hpart hc
    · obtain ⟨hfraction, hexponent⟩ := not_or.mp hpart
      rw [not_not.mp hfraction, not_not.mp hexponent] at hc
      have hends : EndsNumber rest := by
        rcases h with h | h | h
        · exact absurd h hfraction
        · exact absurd h hexponent
        · exact h
      have hfalse := hends c hc
      simp only [isNumberChar, Bool.or_eq_false_iff] at hfalse
      exact hfalse.1.1.1.1.1
  rw [readDigits_append, readDigits_of_not_digit hnot, List.append_nil]

/-- The digits behind the point end where they were written to end, if something follows. -/
theorem readDigits_exponentText {exponent : Option Exponent} {rest : CString}
    (h : exponent ≠ none ∨ EndsNumber rest) :
    readDigits (exponentText exponent ++ rest) = ([], exponentText exponent ++ rest) := by
  refine readDigits_of_not_digit fun c hc => ?_
  cases exponent with
  | some e =>
      cases hc
      exact e.isDigit_marker
  | none =>
      have hfalse := h.resolve_left (fun h => h rfl) c hc
      simp only [isNumberChar, Bool.or_eq_false_iff] at hfalse
      exact hfalse.1.1.1.1.1

theorem readFraction_exponentText {exponent : Option Exponent} {rest : CString}
    (h : exponent ≠ none ∨ EndsNumber rest) :
    readFraction (exponentText exponent ++ rest) = (none, exponentText exponent ++ rest) := by
  refine readFraction_of_ne fun c hc => ?_
  rintro rfl
  cases exponent with
  | some e =>
      have hmarker : e.marker = chr '.' := Option.some.inj hc
      have h := e.is_marker
      rw [hmarker] at h
      revert h
      decide
  | none =>
      have hfalse := h.resolve_left (fun h => h rfl) _ hc
      revert hfalse
      decide

/-- A numeral is read back in front of what does not go on with it. -/
theorem readNumeral_text (n : Numeral) {rest : CString} (hends : EndsNumber rest) :
    readNumeral (n.text ++ rest) = some (n, rest) := by
  have hfraction : readFraction (fractionText n.fraction ++ (exponentText n.exponent ++ rest))
      = (n.fraction, exponentText n.exponent ++ rest) := by
    cases n.fraction with
    | none => exact readFraction_exponentText (Or.inr hends)
    | some digits =>
        rw [readFraction_text, readDigits_exponentText (Or.inr hends), List.append_nil]
  have hexponent : readExponent (exponentText n.exponent ++ rest) = (n.exponent, rest) := by
    cases n.exponent with
    | none =>
        refine readExponent_of_ne fun c hc => ?_
        have hfalse := hends c hc
        simp only [isNumberChar, Bool.or_eq_false_iff, beq_eq_false_iff_ne] at hfalse
        exact ⟨hfalse.1.1.2, hfalse.1.2⟩
    | some e =>
        have hno : readDigits rest = ([], rest) := readDigits_of_not_digit fun c hc => by
          have hfalse := hends c hc
          simp only [isNumberChar, Bool.or_eq_false_iff] at hfalse
          exact hfalse.1.1.1.1.1
        obtain ⟨⟨marker, sign, digits, _, _⟩, hmarker, hsign, hdigits, hread⟩ :=
          readExponent_text e rest
        rw [hno] at hdigits hread
        obtain rfl : marker = e.marker := hmarker
        obtain rfl : sign = e.sign := hsign
        obtain rfl : digits = e.digits := hdigits.trans (List.append_nil _)
        exact hread
  simp only [readNumeral, readSign_numeral, readDigits_whole (Or.inr (Or.inr hends)), hfraction,
    hexponent]
  rw [dif_pos n.has_digit]

/-- A numeral is known by its text. -/
theorem Numeral.text_inj {n m : Numeral} (h : n.text = m.text) : n = m := by
  have hends : EndsNumber [] := fun c hc => by cases hc
  have hread := (readNumeral_text n hends).symm.trans (h ▸ readNumeral_text m hends)
  exact congrArg Prod.fst (Option.some.inj hread)

/-- What is left behind the digits is read on to where the numeral ends, at least. -/
theorem length_readExponent_readFraction_le (fraction : Option (List Digit))
    (exponent : Option Exponent) (rest : CString) :
    (readExponent (readFraction
      (readDigits (fractionText fraction ++ (exponentText exponent ++ rest))).2).2).2.length
      ≤ rest.length := by
  have hdigits := length_readDigits_le rest
  cases fraction with
  | none =>
      cases exponent with
      | none =>
          have hfraction := length_readFraction_le (readDigits rest).2
          have hexponent := length_readExponent_le (readFraction (readDigits rest).2).2
          exact hexponent.trans (hfraction.trans hdigits)
      | some e =>
          obtain ⟨_, -, -, -, hread⟩ := readExponent_text e rest
          rw [readDigits_of_not_digit fun c hc => head_fraction_exponent (Or.inr (by simp)) hc]
          show (readExponent (readFraction (exponentText (some e) ++ rest)).2).2.length ≤ _
          rw [readFraction_exponentText (Or.inl (by simp))]
          show (readExponent (e.text ++ rest)).2.length ≤ _
          rw [hread]
          exact hdigits
  | some digits =>
      rw [readDigits_of_not_digit fun c hc => head_fraction_exponent (Or.inl (by simp)) hc,
        readFraction_text]
      cases exponent with
      | none => exact (length_readExponent_le _).trans hdigits
      | some e =>
          obtain ⟨_, -, -, -, hread⟩ := readExponent_text e rest
          rw [readDigits_exponentText (Or.inl (by simp))]
          show (readExponent (e.text ++ rest)).2.length ≤ _
          rw [hread]
          exact hdigits

/-- Where a numeral begins one is read, and it is no shorter. -/
theorem exists_readNumeral (n : Numeral) (rest : CString) :
    ∃ m rest', readNumeral (n.text ++ rest) = some (m, rest') ∧ rest'.length ≤ rest.length := by
  have hread := readDigits_append n.whole
    (fractionText n.fraction ++ (exponentText n.exponent ++ rest))
  have hlen := length_readExponent_readFraction_le n.fraction n.exponent rest
  have hfraction : n.fraction.getD [] ≠ [] → (readFraction (readDigits
      (fractionText n.fraction ++ (exponentText n.exponent ++ rest))).2).1.getD [] ≠ [] := by
    intro h
    cases hpoint : n.fraction with
    | none =>
        rw [hpoint] at h
        exact absurd rfl h
    | some digits =>
        rw [readDigits_of_not_digit fun c hc => head_fraction_exponent (Or.inl (by simp)) hc,
          readFraction_text]
        rw [hpoint] at h
        exact fun hnil => h (List.append_eq_nil_iff.mp hnil).1
  generalize readDigits (fractionText n.fraction ++ (exponentText n.exponent ++ rest)) = more
    at hread hlen hfraction
  have hdigit : n.whole ++ more.1 ≠ [] ∨ (readFraction more.2).1.getD [] ≠ [] :=
    n.has_digit.imp (fun h hnil => h (List.append_eq_nil_iff.mp hnil).1) hfraction
  refine ⟨⟨n.sign, n.whole ++ more.1, _, (readExponent (readFraction more.2).2).1, hdigit⟩, _, ?_,
    hlen⟩
  simp only [readNumeral, readSign_numeral, hread]
  rw [dif_pos hdigit]

/-- No longer numeral begins where one is read. -/
theorem length_le_of_readNumeral {s rest : CString} {n m : Numeral}
    (h : readNumeral s = some (n, rest)) (hm : m.text <+: s) : m.text.length ≤ n.text.length := by
  obtain ⟨rest', rfl⟩ := hm
  obtain ⟨n', rest'', hread, hlen⟩ := exists_readNumeral m rest'
  obtain ⟨rfl, rfl⟩ := Prod.mk.inj (Option.some.inj (hread.symm.trans h))
  have hsplit := congrArg List.length (eq_text_of_readNumeral h)
  rw [List.length_append, List.length_append] at hsplit
  omega

/-- Where no numeral is read, none begins. -/
theorem not_prefix_of_readNumeral {s : CString} (h : readNumeral s = none) (m : Numeral) :
    ¬ m.text <+: s := by
  rintro ⟨rest, rfl⟩
  obtain ⟨n, rest', hread, -⟩ := exists_readNumeral m rest
  rw [h] at hread
  cases hread

/-! ### The characters of a numeral -/

theorem isNumberChar_of_mem_digitsText {digits : List Digit} {c : CChar} (h : c ∈ digitsText digits) :
    isNumberChar c = true := by
  obtain ⟨d, -, rfl⟩ := List.mem_map.mp h
  simp [isNumberChar, d.property]

theorem isNumberChar_of_mem_sign {sign : Sign} {c : CChar} (h : c ∈ sign.text) :
    isNumberChar c = true := by
  cases sign with
  | none => cases h
  | plus => rw [List.mem_singleton.mp h]; decide
  | minus => rw [List.mem_singleton.mp h]; decide

theorem isNumberChar_of_mem_exponentText {exponent : Option Exponent} {c : CChar}
    (h : c ∈ exponentText exponent) : isNumberChar c = true := by
  cases exponent with
  | none => cases h
  | some e =>
      rcases List.mem_append.mp h with h | h
      · cases h with
        | head => rcases e.is_marker with h | h <;> rw [h] <;> decide
        | tail _ h => exact isNumberChar_of_mem_sign h
      · exact isNumberChar_of_mem_digitsText h

theorem isNumberChar_of_mem_text {n : Numeral} {c : CChar} (h : c ∈ n.text) :
    isNumberChar c = true := by
  rcases List.mem_append.mp h with h | h
  · rcases List.mem_append.mp h with h | h
    · rcases List.mem_append.mp h with h | h
      · exact isNumberChar_of_mem_sign h
      · exact isNumberChar_of_mem_digitsText h
    · cases hfraction : n.fraction with
      | none =>
          rw [hfraction] at h
          cases h
      | some digits =>
          rw [hfraction] at h
          cases h with
          | head => decide
          | tail _ h => exact isNumberChar_of_mem_digitsText h
  · exact isNumberChar_of_mem_exponentText h

theorem Numeral.text_ne_nil (n : Numeral) : n.text ≠ [] := by
  intro h
  simp only [Numeral.text, List.append_eq_nil_iff] at h
  obtain ⟨⟨⟨-, hwhole⟩, hfraction⟩, -⟩ := h
  have hdigit := n.has_digit
  cases hpoint : n.fraction with
  | none => simp [hpoint, List.map_eq_nil_iff.mp hwhole] at hdigit
  | some digits =>
      rw [hpoint] at hfraction
      cases hfraction

end CText
