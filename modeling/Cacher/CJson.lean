import Cacher.Lib.JsonText

/-!
# `Cacher.CJson`: the parser of `third_party/cJSON.c`

`cJSON_Parse` with the functions below it, with every allocation succeeding. A position in the
buffer is the text from there on. The terminating NUL belongs to the buffer, so the position at it
is the empty text, and a position behind it is never read from. What fails gives the position that
`cJSON_GetErrorPtr` returns.

`strtod` is modelled in the C locale for the characters that `parse_number` copies. The `double`
that it rounds the number to enters as the parameter `round`.
-/

set_option autoImplicit false

namespace Cacher

open CText

/-- What a function of the parser gives: what it has read with the position behind it, or the
position of the error. -/
abbrev Parsed (α : Type) := Except CString (α × CString)

/-- `CJSON_NESTING_LIMIT`. -/
def cJSONNestingLimit : Nat := 1000

/-- `sizeof(number_c_string) - 1`. -/
def numberLimit : Nat := 63

/-- White space as `buffer_skip_whitespace` takes it. -/
def isBlank (c : CChar) : Bool := c.val ≤ 32

/-- `buffer_skip_whitespace`. The NUL is skipped as well, and then gone back to. -/
def bufferSkipWhitespace (input : CString) : CString := input.dropWhile isBlank

/-- The byte order mark, `"\xEF\xBB\xBF"`. -/
def utf8Bom : CString := [⟨0xEF, by decide⟩, ⟨0xBB, by decide⟩, ⟨0xBF, by decide⟩]

/-- `skip_utf8_bom`. The index 4 may be that of the NUL. -/
def skipUtf8Bom (input : CString) : CString :=
  if 4 ≤ input.length ∧ input.take 3 = utf8Bom then input.drop 3 else input

/-! ### Numbers -/

/-- `strtod`, with how many characters it has taken. -/
def strtod (round : ℚ → Double) (text : CString) : Option (Double × Nat) :=
  (readNumeral text).map fun read => (round read.1.value, text.length - read.2.length)

/-- What the loop of `parse_number` copies to `number_c_string`. -/
def numberCString (input : CString) : CString := (input.take numberLimit).takeWhile isNumberChar

/-- `parse_number`. -/
def parseNumber (round : ℚ → Double) (input : CString) : Parsed Double :=
  match strtod round (numberCString input) with
  | none => .error input
  | some (number, taken) => .ok (number, input.drop taken)

/-! ### Strings -/

/-- The value that `parse_hex4` adds for a digit. -/
def hex4Digit (c : CChar) : Option Nat :=
  if 48 ≤ c.val ∧ c.val ≤ 57 then some (c.val.toNat - 48)
  else if 65 ≤ c.val ∧ c.val ≤ 70 then some (10 + c.val.toNat - 65)
  else if 97 ≤ c.val ∧ c.val ≤ 102 then some (10 + c.val.toNat - 97)
  else none

/-- `parse_hex4`. Where one of the four is no digit, the value is 0. -/
def parseHex4 (input : CString) : Nat :=
  (((input.take 4).mapM hex4Digit).map fun digits =>
    digits.foldl (fun h digit => h * 16 + digit) 0).getD 0

/-- The bytes that `utf16_literal_to_utf8` writes for a code point. -/
def encodeCodepoint (codepoint : Nat) : List UInt8 :=
  if codepoint < 0x80 then [UInt8.ofNat (codepoint &&& 0x7F)]
  else if codepoint < 0x800 then
    [UInt8.ofNat ((codepoint >>> 6 ||| 0xC0) &&& 0xFF), UInt8.ofNat ((codepoint ||| 0x80) &&& 0xBF)]
  else if codepoint < 0x10000 then
    [UInt8.ofNat ((codepoint >>> 12 ||| 0xE0) &&& 0xFF),
      UInt8.ofNat ((codepoint >>> 6 ||| 0x80) &&& 0xBF), UInt8.ofNat ((codepoint ||| 0x80) &&& 0xBF)]
  else
    [UInt8.ofNat ((codepoint >>> 18 ||| 0xF0) &&& 0xFF),
      UInt8.ofNat ((codepoint >>> 12 ||| 0x80) &&& 0xBF),
      UInt8.ofNat ((codepoint >>> 6 ||| 0x80) &&& 0xBF), UInt8.ofNat ((codepoint ||| 0x80) &&& 0xBF)]

/-- `utf16_literal_to_utf8` on what is left in front of the closing quote: the bytes it writes and
the `sequence_length`. -/
def utf16LiteralToUtf8 (input : CString) : Option (List UInt8 × Nat) :=
  if input.length < 6 then none
  else
    let firstCode := parseHex4 (input.drop 2)
    if 0xDC00 ≤ firstCode ∧ firstCode ≤ 0xDFFF then none
    else if 0xD800 ≤ firstCode ∧ firstCode ≤ 0xDBFF then
      let secondSequence := input.drop 6
      if secondSequence.length < 6 then none
      else if secondSequence.take 2 ≠ lit "\\u" then none
      else
        let secondCode := parseHex4 (secondSequence.drop 2)
        if secondCode < 0xDC00 ∨ 0xDFFF < secondCode then none
        else
          let codepoint := 0x10000 + ((firstCode &&& 0x3FF) <<< 10 ||| (secondCode &&& 0x3FF))
          if codepoint ≤ 0x10FFFF then some (encodeCodepoint codepoint, 12) else none
    else some (encodeCodepoint firstCode, 6)

/-- What the letter behind a backslash is written as, unless it is a `u`. -/
def simpleEscape (letter : CChar) : Option UInt8 :=
  if letter = chr 'b' then some 8
  else if letter = chr 'f' then some 12
  else if letter = chr 'n' then some 10
  else if letter = chr 'r' then some 13
  else if letter = chr 't' then some 9
  else if letter = chr '"' ∨ letter = chr '\\' ∨ letter = chr '/' then some letter.val
  else none

/-- The first loop of `parse_string`: what stands in front of the closing quote, what stands behind
it, and `skipped_bytes`. -/
def findClosingQuote : CString → Option (CString × CString × Nat)
  | [] => none
  | c :: s =>
    if c = chr '"' then some ([], s, 0)
    else if c = chr '\\' then
      match s with
      | [] => none
      | d :: s => (findClosingQuote s).map fun (body, rest, skipped) =>
        (c :: d :: body, rest, skipped + 1)
    else (findClosingQuote s).map fun (body, rest, skipped) => (c :: body, rest, skipped)

/-- The second loop of `parse_string`, over what is left in front of the closing quote, with `skip`
characters of it done: the bytes it writes, and where an escape sequence begins that ends it in
failure. The last backslash has the closing quote behind it. -/
def unescape : (skip : Nat) → CString → List UInt8 × Option CString
  | _, [] => ([], none)
  | skip + 1, _ :: s => unescape skip s
  | 0, c :: s =>
    if c ≠ chr '\\' then (unescape 0 s).map (c.val :: ·) id
    else if s.head?.getD (chr '"') = chr 'u' then
      match utf16LiteralToUtf8 (c :: s) with
      | none => ([], some (c :: s))
      | some (bytes, sequenceLength) => (unescape (sequenceLength - 1) s).map (bytes ++ ·) id
    else
      match simpleEscape (s.head?.getD (chr '"')) with
      | none => ([], some (c :: s))
      | some byte => (unescape 1 s).map (byte :: ·) id

/-- The size that `parse_string` allocates for the text between the quotes. -/
def allocationLength (body : CString) (skippedBytes : Nat) : Nat :=
  body.length + 1 - skippedBytes + 1

/-- `parse_string`. The value is a C string: a NUL among the bytes ends it. -/
def parseString (input : CString) : Parsed CString :=
  match input with
  | [] => .error []
  | c :: s =>
    if c ≠ chr '"' then .error s
    else
      match findClosingQuote s with
      | none => .error s
      | some (body, rest, _) =>
        match unescape 0 body with
        | (_, some position) => .error (position ++ chr '"' :: rest)
        | (bytes, none) => .ok (ofBytes bytes, rest)

/-! ### Values -/

/-- The loop of `parse_array` and `parse_object`, entered behind the opening bracket. Each turn
takes a comma or ends the loop, so the number of characters bounds the number of turns. -/
def parseItems {α : Type} (closing : CChar) (item : CString → Parsed α) :
    (turns : Nat) → CString → Parsed (List α)
  | 0, input => .error input
  | turns + 1, input =>
    match item (bufferSkipWhitespace input) with
    | .error position => .error position
    | .ok (a, rest) =>
      match bufferSkipWhitespace rest with
      | [] => .error []
      | c :: rest =>
        if c = chr ',' then
          match parseItems closing item turns rest with
          | .error position => .error position
          | .ok (as, rest) => .ok (a :: as, rest)
        else if c = closing then .ok ([a], rest)
        else .error (c :: rest)

/-- `parse_array` and `parse_object` behind the opening bracket. -/
def parseBracketed {α : Type} (closing : CChar) (item : CString → Parsed α) (input : CString) :
    Parsed (List α) :=
  match bufferSkipWhitespace input with
  | [] => parseItems closing item (input.length + 1) input
  | c :: rest =>
    if c = closing then .ok ([], rest) else parseItems closing item (input.length + 1) input

/-- `parse_array` and `parse_object`. -/
def parseList {α : Type} (opening closing : CChar) (item : CString → Parsed α)
    (build : List α → Json) (input : CString) : Parsed Json :=
  match input with
  | [] => .error []
  | c :: rest =>
    if c ≠ opening then .error input
    else (parseBracketed closing item rest).map fun (as, rest) => (build as, rest)

/-- `parse_array`, one level above `value`. -/
def parseArray (value : CString → Parsed Json) : CString → Parsed Json :=
  parseList (chr '[') (chr ']') value .array

/-- What a turn of the loop of `parse_object` reads: a name, a colon and a value. -/
def parseMember (value : CString → Parsed Json) (input : CString) : Parsed (CString × Json) :=
  match parseString input with
  | .error position => .error position
  | .ok (name, rest) =>
    match bufferSkipWhitespace rest with
    | [] => .error []
    | c :: rest =>
      if c ≠ chr ':' then .error (c :: rest)
      else (value (bufferSkipWhitespace rest)).map fun (item, rest) => ((name, item), rest)

/-- `parse_object`, one level above `value`. -/
def parseObject (value : CString → Parsed Json) : CString → Parsed Json :=
  parseList (chr '{') (chr '}') (parseMember value) .object

/-- `parse_value`, over what it does with an opening bracket. -/
def parseValueWith (round : ℚ → Double) (array object : CString → Parsed Json) (input : CString) :
    Parsed Json :=
  match stripPrefix (lit "null") input with
  | some rest => .ok (.null, rest)
  | none =>
    match stripPrefix (lit "false") input with
    | some rest => .ok (.bool false, rest)
    | none =>
      match stripPrefix (lit "true") input with
      | some rest => .ok (.bool true, rest)
      | none =>
        match input with
        | [] => .error []
        | c :: _ =>
          if c = chr '"' then (parseString input).map fun (value, rest) => (.string value, rest)
          else if c = chr '-' ∨ isDigit c = true then
            (parseNumber round input).map fun (number, rest) => (.number number, rest)
          else if c = chr '[' then array input
          else if c = chr '{' then object input
          else .error input

/-- `parse_value`, where `room` is what `depth` leaves to `CJSON_NESTING_LIMIT`. -/
def parseValue (round : ℚ → Double) : (room : Nat) → CString → Parsed Json
  -- Too deeply nested: the functions return before they move.
  | 0 => parseValueWith round .error .error
  | room + 1 =>
    parseValueWith round (parseArray (parseValue round room)) (parseObject (parseValue round room))

/-- `cJSON_Parse`: the tree, or the text at `cJSON_GetErrorPtr`. What stands behind the value is not
looked at. -/
def cJSONParse (round : ℚ → Double) (value : CString) : Except CString Json :=
  (parseValue round cJSONNestingLimit (bufferSkipWhitespace (skipUtf8Bom value))).map Prod.fst

end Cacher
