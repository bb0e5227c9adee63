import Cacher.CJson
import Mathlib.Tactic.IntervalCases

/-!
# `Cacher.CJsonStrings`: the strings of `parse_string`

`parse_string` goes through a string twice. The first loop looks for the closing quote and takes
every backslash with the character behind it, so it passes the texts that are `Paired`. The second
loop writes the bytes. It takes six characters for a `\u`, whatever they are, and so the two may
disagree on which backslash is behind another one. `Unescaped` is what the second loop makes of the
text.

* `parseString_eq_ok`: which texts are read, and as what.
* `length_unescape_le`: however the loops disagree, the bytes fit into the allocated size.
-/

set_option autoImplicit false

namespace Cacher

open CText

/-! ### UTF-8 -/

/-- A byte behind the first one. -/
theorem or_0x80_and_0xBF (n : Nat) : (n ||| 0x80) &&& 0xBF = n % 64 + 0x80 := by
  have hall : ∀ m < 256, (m ||| 0x80) &&& 0xBF = m % 64 + 0x80 := by decide +kernel
  have hlow : (n ||| 0x80) &&& 0xBF = (n % 256 ||| 0x80) &&& 0xBF := by
    have hlt : (n ||| 0x80) &&& 0xBF < 2 ^ 8 := Nat.lt_of_le_of_lt Nat.and_le_right (by decide)
    rw [← Nat.mod_eq_of_lt hlt, Nat.and_mod_two_pow, Nat.or_mod_two_pow]
  rw [hlow, hall _ (Nat.mod_lt _ (by decide))]
  omega

/-- The bytes are the UTF-8 of the character. -/
theorem encodeCodepoint_eq (c : Char) : encodeCodepoint c.toNat = String.utf8EncodeChar c := by
  have hmax : c.toNat < 0x110000 := by
    have h := c.valid
    rcases h with h | h
    · have h' : c.toNat < 0xD800 := h
      omega
    · exact h.2
  have h1 : ∀ m < 32, (m ||| 0xC0) &&& 0xFF = m % 0x20 + 0xC0 := by decide +kernel
  have h2 : ∀ m < 16, (m ||| 0xE0) &&& 0xFF = m % 0x10 + 0xE0 := by decide +kernel
  have h3 : ∀ m < 8, (m ||| 0xF0) &&& 0xFF = m % 8 + 0xF0 := by decide +kernel
  unfold encodeCodepoint String.utf8EncodeChar
  have hval : c.val.toNat = c.toNat := rfl
  simp only [or_0x80_and_0xBF, Nat.shiftRight_eq_div_pow]
  split
  · rename_i h
    have hand : c.toNat &&& 0x7F = c.toNat := by
      rw [show (0x7F : Nat) = 2 ^ 7 - 1 from rfl, Nat.and_two_pow_sub_one_eq_mod]
      exact Nat.mod_eq_of_lt h
    rw [hand]
    exact (if_pos (Nat.le_of_lt_succ h)).symm
  split
  · rename_i h0 h
    rw [if_neg (by omega), h1 _ (by omega)]
    exact (if_pos (Nat.le_of_lt_succ h)).symm
  split
  · rename_i h0 h1' h
    rw [if_neg (by omega), h2 _ (by omega)]
    exact ((if_neg (by omega)).trans (if_pos (Nat.le_of_lt_succ h))).symm
  · rename_i h0 h1' h2'
    rw [if_neg (by omega), h3 _ (by omega)]
    exact ((if_neg (by omega)).trans (if_neg (by omega))).symm

theorem length_encodeCodepoint_le (codepoint : Nat) : (encodeCodepoint codepoint).length ≤ 4 := by
  unfold encodeCodepoint
  split <;> [skip; split <;> [skip; split]] <;> simp

theorem length_encodeCodepoint_le_of_lt {codepoint : Nat} (h : codepoint < 0x10000) :
    (encodeCodepoint codepoint).length ≤ 3 := by
  unfold encodeCodepoint
  rw [if_pos h]
  split <;> [skip; split] <;> simp

/-- The halves of a surrogate pair. -/
theorem surrogatePair_eq {high low : Nat} (hhigh : 0xD800 ≤ high ∧ high ≤ 0xDBFF)
    (hlow : 0xDC00 ≤ low ∧ low ≤ 0xDFFF) :
    0x10000 + ((high &&& 0x3FF) <<< 10 ||| (low &&& 0x3FF))
      = 0x10000 + (high - 0xD800) * 0x400 + (low - 0xDC00) := by
  have hmask : ∀ n, n &&& 0x3FF = n % 0x400 := fun n => Nat.and_two_pow_sub_one_eq_mod n 10
  have hlt : low % 0x400 < 2 ^ 10 := Nat.mod_lt _ (by decide)
  rw [hmask, hmask, ← Nat.shiftLeft_add_eq_or_of_lt hlt, Nat.shiftLeft_eq]
  omega

/-! ### `\u` -/

theorem hex4Digit_eq (c : CChar) : hex4Digit c = hexValue? c := by
  unfold hex4Digit hexValue?
  split
  · rfl
  split
  · rename_i h
    have h' := UInt8.le_iff_toNat_le.mp h.1
    simp at h'
    congr 1
    omega
  split
  · rename_i h
    have h' := UInt8.le_iff_toNat_le.mp h.1
    simp at h'
    congr 1
    omega
  · rfl

theorem hexValue?_lt {c : CChar} {n : Nat} (h : hexValue? c = some n) : n < 16 := by
  unfold hexValue? at h
  split at h
  · rename_i hc
    have h2 := UInt8.le_iff_toNat_le.mp hc.2
    simp at h2
    cases h
    omega
  split at h
  · rename_i hc
    have h2 := UInt8.le_iff_toNat_le.mp hc.2
    simp at h2
    cases h
    omega
  split at h
  · rename_i hc
    have h2 := UInt8.le_iff_toNat_le.mp hc.2
    simp at h2
    cases h
    omega
  · cases h

/-- What four characters behind a `\u` count for: no digits count for nothing. -/
inductive CodeUnit : CString → Nat → Prop
  | digits {hex : CString} {n : Nat} (h : HexText hex n) : CodeUnit hex n
  | garbage {hex : CString} (hlen : hex.length = 4) (hno : ∀ n, ¬ HexText hex n) : CodeUnit hex 0

theorem length_of_hexText {hex : CString} {n : Nat} (h : HexText hex n) : hex.length = 4 := by
  cases h with
  | mk ha hb hc hd => rfl

theorem lt_of_hexText {hex : CString} {n : Nat} (h : HexText hex n) : n < 0x10000 := by
  cases h with
  | mk ha hb hc hd =>
      have hi := hexValue?_lt ha
      have hj := hexValue?_lt hb
      have hk := hexValue?_lt hc
      have hl := hexValue?_lt hd
      omega

theorem CodeUnit.length_eq {hex : CString} {n : Nat} (h : CodeUnit hex n) : hex.length = 4 := by
  cases h with
  | digits h => exact length_of_hexText h
  | garbage hlen _ => exact hlen

theorem CodeUnit.lt {hex : CString} {n : Nat} (h : CodeUnit hex n) : n < 0x10000 := by
  cases h with
  | digits h => exact lt_of_hexText h
  | garbage _ _ => decide

theorem parseHex4_of_hexText {hex : CString} {n : Nat} (h : HexText hex n) (s : CString) :
    parseHex4 (hex ++ s) = n := by
  cases h with
  | mk ha hb hc hd =>
      simp [parseHex4, List.mapM_cons, hex4Digit_eq, ha, hb, hc, hd]

/-- What `parse_hex4` returns for four characters. -/
theorem codeUnit_parseHex4 {hex : CString} (hlen : hex.length = 4) (s : CString) :
    CodeUnit hex (parseHex4 (hex ++ s)) := by
  by_cases hsome : ∃ n, HexText hex n
  · obtain ⟨n, hn⟩ := hsome
    rw [parseHex4_of_hexText hn]
    exact .digits hn
  · have hno := not_exists.mp hsome
    have hzero : parseHex4 (hex ++ s) = 0 := by
      obtain ⟨a, b, c, d, rfl⟩ := List.length_eq_four.mp hlen
      have hdigits : ([a, b, c, d].mapM hex4Digit) = none := by
        cases hmap : [a, b, c, d].mapM hex4Digit with
        | none => rfl
        | some digits =>
            simp only [List.mapM_cons, List.mapM_nil, hex4Digit_eq, Option.bind_eq_bind,
              Option.bind_eq_some_iff, Option.pure_def] at hmap
            obtain ⟨i, ha, _, ⟨j, hb, _, ⟨k, hc, _, ⟨l, hd, -⟩, -⟩, -⟩, -⟩ := hmap
            exact absurd (HexText.mk ha hb hc hd) (hno _)
      have htake : ([a, b, c, d] ++ s).take 4 = [a, b, c, d] := rfl
      rw [parseHex4, htake, hdigits]
      rfl
    rw [hzero]
    exact .garbage hlen hno

/-- A code unit that is not 0 is four digits. -/
theorem CodeUnit.hexText {hex : CString} {n : Nat} (h : CodeUnit hex n) (hn : n ≠ 0) :
    HexText hex n := by
  cases h with
  | digits h => exact h
  | garbage _ _ => exact absurd rfl hn

theorem parseHex4_of_codeUnit {hex : CString} {n : Nat} (h : CodeUnit hex n) (s : CString) :
    parseHex4 (hex ++ s) = n := by
  cases h with
  | digits hhex => exact parseHex4_of_hexText hhex s
  | garbage hlen hno =>
      by_contra hne
      exact hno _ ((codeUnit_parseHex4 hlen s).hexText hne)

/-! ### The first loop -/

/-- The texts that the loop passes on its way to the closing quote, with how many backslashes it
has taken with the character behind them. -/
inductive Paired : CString → Nat → Prop
  | nil : Paired [] 0
  | plain {c : CChar} {s : CString} {skipped : Nat} (hquote : c ≠ chr '"')
      (hbackslash : c ≠ chr '\\') (hmore : Paired s skipped) : Paired (c :: s) skipped
  | escape (c : CChar) {s : CString} {skipped : Nat} (hmore : Paired s skipped) :
      Paired (chr '\\' :: c :: s) (skipped + 1)

theorem findClosingQuote_quote (s : CString) : findClosingQuote (chr '"' :: s) = some ([], s, 0) := by
  cases s <;> exact if_pos rfl

theorem findClosingQuote_backslash (d : CChar) (s : CString) :
    findClosingQuote (chr '\\' :: d :: s) = (findClosingQuote s).map fun (body, rest, skipped) =>
      (chr '\\' :: d :: body, rest, skipped + 1) := by
  rw [findClosingQuote, if_neg (by decide), if_pos rfl]

theorem findClosingQuote_plain {c : CChar} (hquote : c ≠ chr '"') (hbackslash : c ≠ chr '\\')
    (s : CString) : findClosingQuote (c :: s)
      = (findClosingQuote s).map fun (body, rest, skipped) => (c :: body, rest, skipped) := by
  cases s <;> exact (if_neg hquote).trans (if_neg hbackslash)

theorem findClosingQuote_of_paired {body : CString} {skipped : Nat} (h : Paired body skipped)
    (rest : CString) :
    findClosingQuote (body ++ chr '"' :: rest) = some (body, rest, skipped) := by
  induction h with
  | nil => exact findClosingQuote_quote rest
  | plain hquote hbackslash _ ih =>
      rw [List.cons_append, findClosingQuote_plain hquote hbackslash, ih]
      rfl
  | escape c _ ih =>
      rw [List.cons_append, List.cons_append, findClosingQuote_backslash, ih]
      rfl

theorem paired_of_findClosingQuote {s body rest : CString} {skipped : Nat}
    (h : findClosingQuote s = some (body, rest, skipped)) :
    s = body ++ chr '"' :: rest ∧ Paired body skipped := by
  induction s using findClosingQuote.induct generalizing body skipped with
  | case1 => cases h
  | case2 s =>
      rw [findClosingQuote_quote] at h
      cases h
      exact ⟨rfl, .nil⟩
  | case3 => cases h
  | case4 d s _ ih =>
      rw [findClosingQuote_backslash] at h
      obtain ⟨⟨body', rest', skipped'⟩, hfind, heq⟩ := Option.map_eq_some_iff.mp h
      cases heq
      obtain ⟨rfl, hpaired⟩ := ih hfind
      exact ⟨rfl, .escape d hpaired⟩
  | case5 c s hquote hbackslash ih =>
      rw [findClosingQuote_plain hquote hbackslash] at h
      obtain ⟨⟨body', rest', skipped'⟩, hfind, heq⟩ := Option.map_eq_some_iff.mp h
      cases heq
      obtain ⟨rfl, hpaired⟩ := ih hfind
      exact ⟨rfl, .plain hquote hbackslash hpaired⟩

/-! ### The second loop -/

/-- What `utf16_literal_to_utf8` takes, and the character that it is. -/
inductive Utf16Literal : CString → Char → Prop
  | unit {hex : CString} {c : Char} (h : CodeUnit hex c.toNat) :
      Utf16Literal (chr '\\' :: chr 'u' :: hex) c
  | pair {hexHigh hexLow : CString} {high low : Nat} {c : Char} (hhexHigh : HexText hexHigh high)
      (hhexLow : HexText hexLow low) (hhigh : 0xD800 ≤ high ∧ high ≤ 0xDBFF)
      (hlow : 0xDC00 ≤ low ∧ low ≤ 0xDFFF)
      (hc : c.toNat = 0x10000 + (high - 0xD800) * 0x400 + (low - 0xDC00)) :
      Utf16Literal (chr '\\' :: chr 'u' :: (hexHigh ++ chr '\\' :: chr 'u' :: hexLow)) c

theorem not_surrogate (c : Char) : ¬ (0xD800 ≤ c.toNat ∧ c.toNat ≤ 0xDFFF) := by
  have h := c.valid
  rcases h with h | h
  · have h' : c.toNat < 0xD800 := h
    omega
  · have h' : 0xDFFF < c.toNat := h.1
    omega

theorem toNat_ofNat {n : Nat} (h : n < 0xD800 ∨ 0xDFFF < n ∧ n < 0x110000) :
    (Char.ofNat n).toNat = n := by
  have hvalid : n.isValidChar := h
  rw [Char.ofNat, dif_pos hvalid]
  rfl

theorem utf16LiteralToUtf8_append {text : CString} {c : Char} (h : Utf16Literal text c)
    (s : CString) :
    utf16LiteralToUtf8 (text ++ s) = some (String.utf8EncodeChar c, text.length) := by
  cases h with
  | @unit hex _ hunit =>
      have hlen := hunit.length_eq
      have hcode := parseHex4_of_codeUnit hunit s
      have hnot := not_surrogate c
      show utf16LiteralToUtf8 (chr '\\' :: chr 'u' :: (hex ++ s)) = _
      unfold utf16LiteralToUtf8
      rw [if_neg (by simp [hlen])]
      simp only [List.drop_succ_cons, List.drop_zero, hcode]
      rw [if_neg (by omega), if_neg (by omega), encodeCodepoint_eq]
      simp [hlen]
  | @pair hexHigh hexLow high low _ hhexHigh hhexLow hhigh hlow hc =>
      have hlenHigh := length_of_hexText hhexHigh
      have hlenLow := length_of_hexText hhexLow
      have hassoc : chr '\\' :: chr 'u' :: (hexHigh ++ chr '\\' :: chr 'u' :: hexLow) ++ s
          = chr '\\' :: chr 'u' :: (hexHigh ++ chr '\\' :: chr 'u' :: (hexLow ++ s)) := by simp
      have hsecond : (hexHigh ++ chr '\\' :: chr 'u' :: (hexLow ++ s)).drop 4
          = chr '\\' :: chr 'u' :: (hexLow ++ s) := List.drop_left' hlenHigh
      have hpair := surrogatePair_eq hhigh hlow
      rw [hassoc]
      unfold utf16LiteralToUtf8
      rw [if_neg (by simp [hlenHigh])]
      simp only [List.drop_succ_cons, List.drop_zero, parseHex4_of_hexText hhexHigh, hsecond]
      rw [if_neg (by omega), if_pos hhigh, if_neg (by simp [hlenLow]),
        if_neg (not_not.mpr (by rfl)), parseHex4_of_hexText hhexLow, if_neg (by omega), hpair, ← hc,
        if_pos (by omega), encodeCodepoint_eq]
      simp [hlenHigh, hlenLow]

theorem utf16Literal_of_eq_some {s : CString} {bytes : List UInt8} {n : Nat}
    (h : utf16LiteralToUtf8 (chr '\\' :: chr 'u' :: s) = some (bytes, n)) :
    ∃ text rest c, chr '\\' :: chr 'u' :: s = text ++ rest ∧ Utf16Literal text c := by
  unfold utf16LiteralToUtf8 at h
  split at h
  · cases h
  rename_i hlen
  have hlen4 : (s.take 4).length = 4 := by
    simp only [List.length_cons] at hlen
    rw [List.length_take]
    omega
  have hunit := codeUnit_parseHex4 hlen4 (s.drop 4)
  rw [List.take_append_drop] at hunit
  simp only [List.drop_succ_cons, List.drop_zero] at h
  split at h
  · cases h
  rename_i hlow
  split at h
  · rename_i hhigh
    split at h
    · cases h
    rename_i hlen'
    split at h
    · cases h
    rename_i hescape
    split at h
    · cases h
    rename_i hsecond
    obtain ⟨second, hs⟩ : ∃ second, s.drop 4 = chr '\\' :: chr 'u' :: second := by
      refine ⟨(s.drop 4).drop 2, ?_⟩
      have hsplit := List.take_append_drop 2 (s.drop 4)
      rw [not_not.mp hescape] at hsplit
      exact hsplit.symm
    rw [hs] at hlen' hsecond
    have hlen4' : (second.take 4).length = 4 := by
      simp only [List.length_cons] at hlen'
      rw [List.length_take]
      omega
    have hunit' := codeUnit_parseHex4 hlen4' (second.drop 4)
    rw [List.take_append_drop] at hunit'
    simp only [List.drop_succ_cons, List.drop_zero] at hsecond
    have hlow' : 0xDC00 ≤ parseHex4 second ∧ parseHex4 second ≤ 0xDFFF := by omega
    refine ⟨_, second.drop 4, Char.ofNat (0x10000 + (parseHex4 s - 0xD800) * 0x400
      + (parseHex4 second - 0xDC00)), ?_, .pair (hunit.hexText (by omega)) (hunit'.hexText (by omega))
      hhigh hlow' (toNat_ofNat (by omega))⟩
    simp only [List.cons_append, List.append_assoc, List.take_append_drop]
    rw [← hs, List.take_append_drop]
  · rename_i hhigh
    have hlt := hunit.lt
    have hchar : (Char.ofNat (parseHex4 s)).toNat = parseHex4 s := toNat_ofNat (by omega)
    refine ⟨_, s.drop 4, Char.ofNat (parseHex4 s), ?_, .unit (hchar.symm ▸ hunit)⟩
    simp only [List.cons_append, List.take_append_drop]

/-- What the second loop makes of the text in front of the closing quote. -/
inductive Unescaped : CString → List UInt8 → Prop
  | nil : Unescaped [] []
  | plain {c : CChar} {s : CString} {bytes : List UInt8} (h : c ≠ chr '\\')
      (hmore : Unescaped s bytes) : Unescaped (c :: s) (c.val :: bytes)
  /-- A backslash that the first loop has seen behind another one may be the last character. It
  takes the closing quote. -/
  | quote : Unescaped [chr '\\'] [(chr '"').val]
  | escape {letter : CChar} {c : Char} {s : CString} {bytes : List UInt8}
      (hmem : (letter, c) ∈ escapes) (hmore : Unescaped s bytes) :
      Unescaped (chr '\\' :: letter :: s) (String.utf8EncodeChar c ++ bytes)
  | utf16 {text s : CString} {c : Char} {bytes : List UInt8} (h : Utf16Literal text c)
      (hmore : Unescaped s bytes) : Unescaped (text ++ s) (String.utf8EncodeChar c ++ bytes)

theorem unescape_eq_drop (skip : Nat) (s : CString) : unescape skip s = unescape 0 (s.drop skip) := by
  induction s generalizing skip with
  | nil => cases skip <;> rfl
  | cons c s ih =>
      cases skip with
      | zero => rfl
      | succ skip => exact ih skip

theorem unescape_plain {c : CChar} (h : c ≠ chr '\\') (s : CString) :
    unescape 0 (c :: s) = (unescape 0 s).map (c.val :: ·) id := if_pos h

theorem unescape_u (s : CString) : unescape 0 (chr '\\' :: chr 'u' :: s)
    = match utf16LiteralToUtf8 (chr '\\' :: chr 'u' :: s) with
      | none => ([], some (chr '\\' :: chr 'u' :: s))
      | some (bytes, n) => (unescape (n - 1) (chr 'u' :: s)).map (bytes ++ ·) id :=
  (if_neg (not_not.mpr rfl)).trans (if_pos rfl)

theorem unescape_escape {letter : CChar} (h : letter ≠ chr 'u') (s : CString) :
    unescape 0 (chr '\\' :: letter :: s) = match simpleEscape letter with
      | none => ([], some (chr '\\' :: letter :: s))
      | some byte => (unescape 0 s).map (byte :: ·) id := by
  have hskip : unescape 1 (letter :: s) = unescape 0 s := rfl
  rw [← hskip]
  exact (if_neg (not_not.mpr rfl)).trans (if_neg h)

theorem simpleEscape_of_mem {letter : CChar} {c : Char} (h : (letter, c) ∈ escapes) :
    ∃ byte, simpleEscape letter = some byte ∧ String.utf8EncodeChar c = [byte]
      ∧ letter ≠ chr 'u' := by
  simp only [escapes, List.mem_cons, Prod.mk.injEq, List.not_mem_nil, or_false] at h
  rcases h with ⟨rfl, rfl⟩ | ⟨rfl, rfl⟩ | ⟨rfl, rfl⟩ | ⟨rfl, rfl⟩ | ⟨rfl, rfl⟩ | ⟨rfl, rfl⟩ |
    ⟨rfl, rfl⟩ | ⟨rfl, rfl⟩
  all_goals exact ⟨_, rfl, rfl, by decide⟩

theorem mem_escapes_of_simpleEscape {letter : CChar} {byte : UInt8}
    (h : simpleEscape letter = some byte) :
    ∃ c, (letter, c) ∈ escapes ∧ String.utf8EncodeChar c = [byte] := by
  unfold simpleEscape at h
  split at h
  · cases h
    exact ⟨Char.ofNat 8, by simp [escapes, *], rfl⟩
  split at h
  · cases h
    exact ⟨Char.ofNat 12, by simp [escapes, *], rfl⟩
  split at h
  · cases h
    exact ⟨'\n', by simp [escapes, *], rfl⟩
  split at h
  · cases h
    exact ⟨'\r', by simp [escapes, *], rfl⟩
  split at h
  · cases h
    exact ⟨'\t', by simp [escapes, *], rfl⟩
  split at h
  · rename_i hletter
    cases h
    rcases hletter with rfl | rfl | rfl
    · exact ⟨'"', by simp [escapes], rfl⟩
    · exact ⟨'\\', by simp [escapes], rfl⟩
    · exact ⟨'/', by simp [escapes], rfl⟩
  · cases h

theorem unescape_of_mem {letter : CChar} {c : Char} (h : (letter, c) ∈ escapes) (s : CString) :
    unescape 0 (chr '\\' :: letter :: s)
      = (unescape 0 s).map (String.utf8EncodeChar c ++ ·) id := by
  obtain ⟨byte, hread, hbyte, hu⟩ := simpleEscape_of_mem h
  rw [unescape_escape hu, hread, hbyte]
  rfl

theorem unescape_utf16 {text : CString} {c : Char} (h : Utf16Literal text c) (s : CString) :
    unescape 0 (text ++ s) = (unescape 0 s).map (String.utf8EncodeChar c ++ ·) id := by
  obtain ⟨tail, rfl⟩ : ∃ tail, text = chr '\\' :: chr 'u' :: tail := by
    cases h with
    | unit h => exact ⟨_, rfl⟩
    | pair _ _ _ _ _ => exact ⟨_, rfl⟩
  have hbytes := utf16LiteralToUtf8_append h s
  rw [List.cons_append, List.cons_append] at hbytes ⊢
  rw [unescape_u, hbytes]
  dsimp only
  rw [unescape_eq_drop]
  have hdrop : (chr 'u' :: (tail ++ s)).drop ((chr '\\' :: chr 'u' :: tail).length - 1) = s := by
    simp
  rw [hdrop]

/-- One turn of the second loop after the other. -/
theorem unescape_induction {P : CString → Prop} (hnil : P [])
    (hplain : ∀ c s, c ≠ chr '\\' → P s → P (c :: s)) (hquote : P [chr '\\'])
    (hescape : ∀ letter c s, (letter, c) ∈ escapes → P s → P (chr '\\' :: letter :: s))
    (hutf16 : ∀ text c s, Utf16Literal text c → P s → P (text ++ s))
    (hfail : ∀ s, unescape 0 s = ([], some s) → P s) (s : CString) : P s := by
  induction hn : s.length using Nat.strong_induction_on generalizing s with
  | _ n ih =>
      cases s with
      | nil => exact hnil
      | cons c s =>
          by_cases hc : c = chr '\\'
          · subst hc
            cases s with
            | nil => exact hquote
            | cons letter s =>
                by_cases hu : letter = chr 'u'
                · subst hu
                  cases hread : utf16LiteralToUtf8 (chr '\\' :: chr 'u' :: s) with
                  | none => exact hfail _ (by rw [unescape_u, hread])
                  | some read =>
                      obtain ⟨text, rest, c, heq, htext⟩ := utf16Literal_of_eq_some hread
                      have hlen : 0 < text.length := by
                        cases htext with
                        | unit _ => exact Nat.succ_pos _
                        | pair _ _ _ _ _ => exact Nat.succ_pos _
                      have hlt : rest.length < n := by
                        rw [← hn, heq, List.length_append]
                        omega
                      rw [heq]
                      exact hutf16 _ _ _ htext (ih _ hlt rest rfl)
                · cases hread : simpleEscape letter with
                  | none => exact hfail _ (by rw [unescape_escape hu, hread])
                  | some byte =>
                      obtain ⟨c, hmem, -⟩ := mem_escapes_of_simpleEscape hread
                      have hlt : s.length < n := by
                        rw [← hn, List.length_cons, List.length_cons]
                        omega
                      exact hescape _ _ _ hmem (ih _ hlt s rfl)
          · have hlt : s.length < n := by
              rw [← hn]
              exact Nat.lt_succ_self _
            exact hplain _ _ hc (ih _ hlt s rfl)

/-- A turn that writes and goes on. -/
theorem map_id_eq_none {x : List UInt8 × Option CString} {f : List UInt8 → List UInt8}
    {bytes : List UInt8} : x.map f id = (bytes, none) ↔ ∃ more, x = (more, none) ∧ f more = bytes := by
  obtain ⟨more, error⟩ := x
  simp only [Prod.map_apply, id_eq, Prod.mk.injEq]
  constructor
  · rintro ⟨hbytes, rfl⟩
    exact ⟨more, ⟨rfl, rfl⟩, hbytes⟩
  · rintro ⟨_, ⟨rfl, rfl⟩, hbytes⟩
    exact ⟨hbytes, rfl⟩

/-- The second loop succeeds on the texts of the relation, with the bytes it says. -/
theorem unescape_eq_none {s : CString} {bytes : List UInt8} :
    unescape 0 s = (bytes, none) ↔ Unescaped s bytes := by
  constructor
  · intro h
    induction s using unescape_induction generalizing bytes with
    | hnil =>
        cases h
        exact .nil
    | hplain c s hc ih =>
        rw [unescape_plain hc] at h
        obtain ⟨more, hmore, rfl⟩ := map_id_eq_none.mp h
        exact .plain hc (ih hmore)
    | hquote =>
        cases h
        exact .quote
    | hescape letter c s hmem ih =>
        rw [unescape_of_mem hmem] at h
        obtain ⟨more, hmore, rfl⟩ := map_id_eq_none.mp h
        exact .escape hmem (ih hmore)
    | hutf16 text c s htext ih =>
        rw [unescape_utf16 htext] at h
        obtain ⟨more, hmore, rfl⟩ := map_id_eq_none.mp h
        exact .utf16 htext (ih hmore)
    | hfail s hs =>
        rw [hs] at h
        cases h
  · intro h
    induction h with
    | nil => rfl
    | plain hc _ ih => rw [unescape_plain hc, ih]; rfl
    | quote => rfl
    | escape hmem _ ih => rw [unescape_of_mem hmem, ih]; rfl
    | utf16 htext _ ih => rw [unescape_utf16 htext, ih]; rfl

/-- An error of the second loop is in the text. -/
theorem suffix_of_unescape {s position : CString} (h : (unescape 0 s).2 = some position) :
    position <:+ s := by
  induction s using unescape_induction with
  | hnil => cases h
  | hplain c s hc ih =>
      rw [unescape_plain hc] at h
      exact (ih h).trans (List.suffix_cons _ _)
  | hquote => cases h
  | hescape letter c s hmem ih =>
      rw [unescape_of_mem hmem] at h
      exact (ih h).trans ((List.suffix_cons _ _).trans (List.suffix_cons _ _))
  | hutf16 text c s htext ih =>
      rw [unescape_utf16 htext] at h
      exact (ih h).trans (List.suffix_append _ _)
  | hfail s hs =>
      rw [hs] at h
      cases h
      exact List.suffix_rfl

/-! ### The size of the output -/

/-- The first loop is in front of the text, or at its second character, behind a backslash. -/
def Pairing (s : CString) (skipped : Nat) : Prop :=
  Paired s skipped ∨ ∃ c more, s = c :: more ∧ Paired more skipped

theorem Paired.drop_one {s : CString} {skipped : Nat} (h : Paired s skipped) :
    ∃ skipped', Pairing (s.drop 1) skipped' ∧ skipped ≤ skipped' + 1 := by
  cases h with
  | nil => exact ⟨0, Or.inl .nil, Nat.zero_le _⟩
  | plain _ _ hmore => exact ⟨_, Or.inl hmore, Nat.le_succ _⟩
  | escape c hmore => exact ⟨_, Or.inr ⟨c, _, rfl, hmore⟩, Nat.le_refl _⟩

/-- Of two characters at most one is a backslash that the first loop has counted. -/
theorem Pairing.drop_two {s : CString} {skipped : Nat} (h : Pairing s skipped) :
    ∃ skipped', Pairing (s.drop 2) skipped' ∧ skipped ≤ skipped' + 1 := by
  rcases h with h | ⟨c, more, rfl, hmore⟩
  · cases h with
    | nil => exact ⟨0, Or.inl .nil, Nat.zero_le _⟩
    | plain _ _ hmore => exact hmore.drop_one
    | escape c hmore => exact ⟨_, Or.inl hmore, Nat.le_refl _⟩
  · exact hmore.drop_one

theorem Pairing.drop {s : CString} {skipped : Nat} (h : Pairing s skipped) (n : Nat) :
    ∃ skipped', Pairing (s.drop (2 * n)) skipped' ∧ skipped ≤ skipped' + n := by
  induction n with
  | zero => exact ⟨skipped, h, Nat.le_refl _⟩
  | succ n ih =>
      obtain ⟨skipped', hdrop, hle⟩ := ih
      obtain ⟨skipped'', hdrop', hle'⟩ := hdrop.drop_two
      rw [List.drop_drop] at hdrop'
      exact ⟨skipped'', hdrop', by omega⟩

theorem Pairing.skipped_le {s : CString} {skipped : Nat} (h : Pairing s skipped) :
    skipped ≤ s.length := by
  have hpaired : ∀ {s : CString} {skipped : Nat}, Paired s skipped → skipped ≤ s.length := by
    intro s skipped h
    induction h with
    | nil => exact Nat.le_refl 0
    | plain _ _ _ ih => exact ih.trans (Nat.le_succ _)
    | escape c _ ih =>
        rw [List.length_cons, List.length_cons]
        omega
  rcases h with h | ⟨c, more, rfl, hmore⟩
  · exact hpaired h
  · exact (hpaired hmore).trans (Nat.le_succ _)

/-- A character does not take more than half of its escape sequence. -/
theorem Utf16Literal.exists_length {text : CString} {c : Char} (h : Utf16Literal text c) :
    ∃ n, text.length = 2 * n ∧ (String.utf8EncodeChar c).length ≤ n := by
  rw [← encodeCodepoint_eq]
  cases h with
  | unit hunit =>
      refine ⟨3, ?_, length_encodeCodepoint_le_of_lt hunit.lt⟩
      simp [hunit.length_eq]
  | pair hhexHigh hhexLow _ _ _ =>
      refine ⟨6, ?_, (length_encodeCodepoint_le _).trans (by decide)⟩
      simp [length_of_hexText hhexHigh, length_of_hexText hhexLow]

/-- The second loop writes no more bytes than the first one has counted characters, also when it
fails. -/
theorem length_unescape_le {s : CString} {skipped : Nat} (h : Pairing s skipped) :
    (unescape 0 s).1.length + skipped ≤ s.length := by
  induction s using unescape_induction generalizing skipped with
  | hnil =>
      rw [Nat.le_zero.mp h.skipped_le]
      exact Nat.le_refl 0
  | hplain c s hc ih =>
      have hmore : Pairing s skipped := by
        rcases h with h | ⟨_, more, heq, hmore⟩
        · cases h with
          | plain _ _ hmore => exact Or.inl hmore
          | escape _ _ => exact absurd rfl hc
        · cases heq
          exact Or.inl hmore
      have hle := ih hmore
      rw [unescape_plain hc]
      simp only [Prod.map_fst, List.length_cons]
      omega
  | hquote =>
      rcases h with h | ⟨_, more, heq, hmore⟩
      · cases h with
        | plain _ hbackslash _ => exact absurd rfl hbackslash
      · cases heq
        cases hmore
        exact Nat.le_refl 1
  | hescape letter c s hmem ih =>
      obtain ⟨skipped', hdrop, hskipped⟩ := h.drop_two
      have hle := ih hdrop
      obtain ⟨byte, -, hbyte, -⟩ := simpleEscape_of_mem hmem
      rw [unescape_of_mem hmem, hbyte]
      simp only [Prod.map_fst, List.length_append, List.length_cons, List.length_nil]
      omega
  | hutf16 text c s htext ih =>
      obtain ⟨n, hlen, hbytes⟩ := htext.exists_length
      obtain ⟨skipped', hdrop, hskipped⟩ := h.drop n
      rw [List.drop_left' hlen] at hdrop
      have hle := ih hdrop
      rw [unescape_utf16 htext]
      simp only [Prod.map_fst, List.length_append]
      omega
  | hfail s hs =>
      rw [hs]
      have hle := h.skipped_le
      simpa using hle

/-- What `parse_string` writes, the terminating NUL with it, fits into what it has allocated,
whether it succeeds or not. -/
theorem parseString_in_bounds {s body rest : CString} {skipped : Nat}
    (h : findClosingQuote s = some (body, rest, skipped)) :
    (unescape 0 body).1.length + 1 ≤ allocationLength body skipped := by
  have hpaired := (paired_of_findClosingQuote h).2
  have hle := length_unescape_le (Or.inl hpaired)
  unfold allocationLength
  omega

/-- The string `"\u123\\"`, whose last backslash the second loop takes with the closing quote. -/
theorem parseString_in_bounds_misaligned :
    (unescape 0 (lit "\\u123\\\\")).1.length + 1 ≤ allocationLength (lit "\\u123\\\\") 2 :=
  @parseString_in_bounds (lit "\\u123\\\\\"") _ [] _ (by decide +kernel)

/-! ### Strings -/

/-- What may stand between the quotes, and the string that it gives. -/
def StringBody (body value : CString) : Prop :=
  (∃ skipped, Paired body skipped) ∧ ∃ bytes, Unescaped body bytes ∧ value = ofBytes bytes

/-- `parse_string` takes the text from one quote to the next that no backslash stands before. -/
theorem parseString_eq_ok {input value rest : CString} :
    parseString input = .ok (value, rest)
      ↔ ∃ body, input = chr '"' :: body ++ chr '"' :: rest ∧ StringBody body value := by
  constructor
  · intro h
    cases input with
    | nil => cases h
    | cons c s =>
        simp only [parseString] at h
        split at h
        · cases h
        rename_i hquote
        split at h
        · cases h
        · rename_i body rest' skipped hfind
          obtain ⟨rfl, hpaired⟩ := paired_of_findClosingQuote hfind
          split at h
          · cases h
          · rename_i bytes hunescape
            cases h
            rw [not_not.mp hquote]
            exact ⟨body, rfl, ⟨skipped, hpaired⟩, bytes, unescape_eq_none.mp hunescape, rfl⟩
  · rintro ⟨body, rfl, ⟨skipped, hpaired⟩, bytes, hunescaped, rfl⟩
    have hfind := findClosingQuote_of_paired hpaired rest
    simp only [List.cons_append, parseString, hfind, unescape_eq_none.mpr hunescaped]
    rfl

end Cacher
