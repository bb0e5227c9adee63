import Cacher.CJsonStrings

/-!
# `Cacher.CJsonText`: the texts that `cJSON_Parse` takes

The parser takes the texts of the JSON grammar over a lexicon of its own, `cJSONLexicon`, and
`cJSONParse_eq_ok` says that these are all: it returns a tree exactly for the texts that begin, after
a byte order mark and blanks, with a text of that tree. Behind a number the text must not go on with
a longer number, since `strtod` takes the longest. Nothing else is asked of what follows.

Every text of RFC 8259 is a text of this grammar (`rfc8259_le_cJSONLexicon`), so
`cJSONParse_of_jsonText` is the completeness of the parser for the standard.
-/

set_option autoImplicit false

namespace Cacher

open CText

/-- The text is not the beginning of a longer number. -/
def NumberEnds (text rest : CString) : Prop :=
  ∀ m : Numeral, m.text <+: text ++ rest → m.text.length ≤ numberLimit → m.text.length ≤ text.length

/-- The function reads the texts of the relation and no others. -/
def Exact {α : Type} (p : CString → Parsed α) (R : CString → α → Prop) : Prop :=
  ∀ (input rest : CString) (a : α), p input = .ok (a, rest)
    ↔ ∃ text, input = text ++ rest ∧ R text a ∧ NumberEnds text rest

/-- The same where no number can go on. -/
structure Accepts {α : Type} (p : CString → Parsed α) (R : CString → α → Prop) : Prop where
  sound : ∀ {input rest : CString} {a : α}, p input = .ok (a, rest) →
    ∃ text, input = text ++ rest ∧ R text a
  complete : ∀ {text rest : CString} {a : α}, R text a → EndsNumber rest →
    p (text ++ rest) = .ok (a, rest)

/-- The lexicon of `cJSON_Parse`. -/
def cJSONLexicon (round : ℚ → Double) : Lexicon where
  blank s := ∀ c ∈ s, isBlank c = true
  number text d := ∃ n : Numeral, text = n.text ∧ text.length ≤ numberLimit
    ∧ (∃ c, text.head? = some c ∧ (c = chr '-' ∨ isDigit c = true)) ∧ d = round n.value
  string := StringBody

/-! ### Where a number ends -/

theorem numberEnds_of_head {c : CChar} (h : isNumberChar c = false) (text rest : CString) :
    NumberEnds (c :: text) rest := by
  intro m hm _
  obtain ⟨d, more, hd⟩ := List.exists_cons_of_ne_nil m.text_ne_nil
  rw [hd] at hm
  have hchar : isNumberChar d = true := isNumberChar_of_mem_text (n := m) (by simp [hd])
  rw [(List.cons_prefix_cons.mp hm).1, h] at hchar
  cases hchar

theorem numberEnds_of_endsNumber {rest : CString} (h : EndsNumber rest) (text : CString) :
    NumberEnds text rest := by
  intro m hm _
  by_contra hlt
  obtain ⟨more, hmore⟩ := hm
  rcases List.append_eq_append_iff.mp hmore with ⟨extra, htext, hrest⟩ | ⟨extra, hm', hrest⟩
  · rw [htext, List.length_append] at hlt
    omega
  · cases extra with
    | nil =>
        rw [hm', List.append_nil] at hlt
        exact hlt (Nat.le_refl _)
    | cons c extra =>
        have hchar : isNumberChar c = true := isNumberChar_of_mem_text (n := m) (by simp [hm'])
        rw [h c (by rw [hrest]; rfl)] at hchar
        cases hchar

theorem Exact.accepts {α : Type} {p : CString → Parsed α} {R : CString → α → Prop}
    (h : Exact p R) : Accepts p R where
  sound hp := by
    obtain ⟨text, hinput, htext, -⟩ := (h _ _ _).mp hp
    exact ⟨text, hinput, htext⟩
  complete htext hends := (h _ _ _).mpr ⟨_, rfl, htext, numberEnds_of_endsNumber hends _⟩

/-! ### Numbers -/

theorem numberCString_prefix (input : CString) : numberCString input <+: input :=
  (List.takeWhile_prefix _).trans (List.take_prefix _ _)

theorem length_numberCString_le (input : CString) : (numberCString input).length ≤ numberLimit :=
  (List.takeWhile_prefix _).length_le.trans (List.length_take_le _ _)

/-- The copy goes as far as a number can go. -/
theorem prefix_numberCString {input : CString} {m : Numeral} (h : m.text <+: input)
    (hlen : m.text.length ≤ numberLimit) : m.text <+: numberCString input := by
  have htake : m.text <+: input.take numberLimit := List.prefix_take_iff.mpr ⟨h, hlen⟩
  obtain ⟨more, hmore⟩ := htake
  rw [numberCString, ← hmore, List.takeWhile_append_of_pos fun c hc => isNumberChar_of_mem_text hc]
  exact List.prefix_append _ _

theorem parseNumber_of_none {input : CString} (round : ℚ → Double)
    (h : readNumeral (numberCString input) = none) : parseNumber round input = .error input := by
  unfold parseNumber strtod
  rw [h]
  rfl

theorem parseNumber_of_some {input left : CString} {n : Numeral} (round : ℚ → Double)
    (h : readNumeral (numberCString input) = some (n, left)) :
    parseNumber round input = .ok (round n.value, input.drop n.text.length) := by
  have hlen := congrArg List.length (eq_text_of_readNumeral h)
  rw [List.length_append] at hlen
  have htaken : (numberCString input).length - left.length = n.text.length := by omega
  unfold parseNumber strtod
  rw [h, Option.map_some]
  dsimp only
  rw [htaken]

theorem exact_parseNumber (round : ℚ → Double) :
    Exact (parseNumber round) fun text d =>
      ∃ n : Numeral, text = n.text ∧ text.length ≤ numberLimit ∧ d = round n.value := by
  intro input rest d
  have hcopied := numberCString_prefix input
  have hlimit := length_numberCString_le input
  constructor
  · intro h
    cases hread : readNumeral (numberCString input) with
    | none =>
        rw [parseNumber_of_none round hread] at h
        cases h
    | some read =>
        obtain ⟨n, left⟩ := read
        rw [parseNumber_of_some round hread] at h
        have hn : n.text <+: numberCString input := ⟨left, (eq_text_of_readNumeral hread).symm⟩
        obtain ⟨more, hmore⟩ := hn.trans hcopied
        rw [← hmore, List.drop_left] at h
        obtain ⟨rfl, rfl⟩ := Prod.mk.inj (Except.ok.inj h)
        refine ⟨n.text, hmore.symm, ⟨n, rfl, hn.length_le.trans hlimit, rfl⟩, fun m hm hlen => ?_⟩
        rw [hmore] at hm
        exact length_le_of_readNumeral hread (prefix_numberCString hm hlen)
  · rintro ⟨text, rfl, ⟨n, rfl, hlen, rfl⟩, hends⟩
    have hn : n.text <+: numberCString (n.text ++ rest) :=
      prefix_numberCString (List.prefix_append _ _) hlen
    cases hread : readNumeral (numberCString (n.text ++ rest)) with
    | none => exact absurd hn (not_prefix_of_readNumeral hread n)
    | some read =>
        obtain ⟨m, left⟩ := read
        have hm : m.text <+: numberCString (n.text ++ rest) :=
          ⟨left, (eq_text_of_readNumeral hread).symm⟩
        -- Both are the longest numeral at the front.
        have hle := length_le_of_readNumeral hread hn
        have hge := hends m (hm.trans hcopied) (hm.length_le.trans hlimit)
        have heq : n.text = m.text :=
          (List.prefix_of_prefix_length_le hn hm hle).eq_of_length (Nat.le_antisymm hle hge)
        obtain rfl := Numeral.text_inj heq
        rw [parseNumber_of_some round hread, List.drop_left]

/-! ### Blanks -/

theorem isBlank_eq_false_of_isDigit {c : CChar} (h : isDigit c = true) : isBlank c = false := by
  simp only [isDigit, Bool.and_eq_true, decide_eq_true_eq, UInt8.le_iff_toNat_le] at h
  simp only [isBlank, decide_eq_false_iff_not, UInt8.le_iff_toNat_le]
  have h48 : (48 : UInt8).toNat = 48 := rfl
  have h32 : (32 : UInt8).toNat = 32 := rfl
  omega

theorem isNumberChar_eq_false_of_isBlank {c : CChar} (h : isBlank c = true) :
    isNumberChar c = false := by
  have hdigit : isDigit c = false := by
    cases hc : isDigit c with
    | false => rfl
    | true =>
        rw [isBlank_eq_false_of_isDigit hc] at h
        cases h
  have hne : ∀ d, isBlank d = false → (c == d) = false := by
    rintro d hd
    rw [beq_eq_false_iff_ne]
    rintro rfl
    rw [hd] at h
    cases h
  rw [isNumberChar, hdigit, hne _ (by decide), hne _ (by decide), hne _ (by decide),
    hne _ (by decide), hne _ (by decide)]
  rfl

section Blanks

variable {blanks : CString} (h : ∀ c ∈ blanks, isBlank c = true)
include h

theorem bufferSkipWhitespace_append {c : CChar} (hc : isBlank c = false) (s : CString) :
    bufferSkipWhitespace (blanks ++ c :: s) = c :: s := by
  unfold bufferSkipWhitespace
  rw [List.dropWhile_append_of_pos h]
  exact List.dropWhile_cons_of_neg (by rw [hc]; decide)

/-- No number goes on with a blank. -/
theorem endsNumber_blanks {c : CChar} (hc : isNumberChar c = false) (s : CString) :
    EndsNumber (blanks ++ c :: s) := by
  intro d hd
  cases blanks with
  | nil =>
      cases hd
      exact hc
  | cons b blanks =>
      cases hd
      exact isNumberChar_eq_false_of_isBlank (h _ List.mem_cons_self)

end Blanks

/-- Blanks are skipped up to what is none. -/
theorem exists_blanks (input : CString) :
    ∃ blanks, input = blanks ++ bufferSkipWhitespace input ∧ ∀ c ∈ blanks, isBlank c = true :=
  ⟨input.takeWhile isBlank, List.takeWhile_append_dropWhile.symm, fun _ => List.mem_takeWhile_imp⟩

/-! ### Lists in brackets -/

/-- A text of blanks. -/
def Blank (s : CString) : Prop := ∀ c ∈ s, isBlank c = true

/-- A text of the relation begins with a character that is neither blank nor the bracket that closes
the list. -/
def Solid {α : Type} (closing : CChar) (R : CString → α → Prop) : Prop :=
  ∀ (text : CString) (a : α), R text a → ∃ c more, text = c :: more ∧ isBlank c = false ∧ c ≠ closing

section Lists

variable {α : Type} {closing : CChar} {item : CString → Parsed α} {R : CString → α → Prop}
  (hitem : Accepts item R) (hsolid : Solid closing R) (hcomma : closing ≠ chr ',')
  (hblank : isBlank closing = false) (hnumber : isNumberChar closing = false)

include hitem

theorem separated_of_parseItems {turns : Nat} {input rest : CString} {as : List α}
    (h : parseItems closing item turns input = .ok (as, rest)) :
    ∃ text, input = text ++ closing :: rest ∧ Separated (Padded Blank R) text as := by
  induction turns generalizing input as with
  | zero => cases h
  | succ turns ih =>
      obtain ⟨before, hbefore, hblank⟩ := exists_blanks input
      rw [parseItems] at h
      cases hread : item (bufferSkipWhitespace input) with
      | error position =>
          rw [hread] at h
          cases h
      | ok read =>
          obtain ⟨a, left⟩ := read
          obtain ⟨core, hcore, ha⟩ := hitem.sound hread
          obtain ⟨after, hafter, hblank'⟩ := exists_blanks left
          have hpadded : Padded Blank R (before ++ core ++ after) a :=
            ⟨before, core, after, rfl, hblank, hblank', ha⟩
          have hinput : input = before ++ core ++ after ++ bufferSkipWhitespace left := by
            rw [List.append_assoc, ← hafter, List.append_assoc, ← hcore, ← hbefore]
          rw [hread] at h
          dsimp only at h
          cases hleft : bufferSkipWhitespace left with
          | nil =>
              rw [hleft] at h
              cases h
          | cons c more =>
              rw [hleft] at h hinput
              dsimp only at h
              split at h
              · rename_i hc
                cases hmore : parseItems closing item turns more with
                | error position =>
                    rw [hmore] at h
                    cases h
                | ok read =>
                    obtain ⟨as', rest'⟩ := read
                    rw [hmore] at h
                    cases h
                    obtain ⟨text, rfl, htext⟩ := ih hmore
                    refine ⟨_, ?_, .cons hpadded htext⟩
                    rw [hinput, hc, List.append_assoc _ _ (closing :: rest)]
                    rfl
              split at h
              · rename_i hc
                cases h
                rw [hc] at hinput
                exact ⟨_, hinput, .one hpadded⟩
              · cases h

include hsolid

/-- A turn of the loop reads the item with the blanks around it. -/
theorem parseItems_padded {c : CChar} (hc : isBlank c = false) (hends : isNumberChar c = false)
    {text : CString} {a : α} (h : Padded Blank R text a) (turns : Nat) (rest : CString) :
    parseItems closing item (turns + 1) (text ++ c :: rest)
      = if c = chr ',' then
          match parseItems closing item turns rest with
          | .error position => .error position
          | .ok (as, rest) => .ok (a :: as, rest)
        else if c = closing then .ok ([a], rest)
        else .error (c :: rest) := by
  obtain ⟨before, core, after, rfl, hbefore, hafter, hcore⟩ := h
  obtain ⟨d, more, hd, hdblank, -⟩ := hsolid _ _ hcore
  have hskip : bufferSkipWhitespace (before ++ core ++ after ++ c :: rest)
      = core ++ (after ++ c :: rest) := by
    rw [hd, List.append_assoc, List.append_assoc, List.cons_append,
      bufferSkipWhitespace_append hbefore hdblank]
  have hread : item (core ++ (after ++ c :: rest)) = .ok (a, after ++ c :: rest) :=
    hitem.complete hcore (endsNumber_blanks hafter hends rest)
  have hrest := bufferSkipWhitespace_append hafter hc rest
  rw [parseItems, hskip, hread]
  dsimp only
  generalize bufferSkipWhitespace (after ++ c :: rest) = behind at hrest
  subst hrest
  rfl

include hcomma hblank hnumber

theorem parseItems_of_separated {text : CString} {as : List α}
    (h : Separated (Padded Blank R) text as) {turns : Nat} (hturns : text.length < turns)
    (rest : CString) : parseItems closing item turns (text ++ closing :: rest) = .ok (as, rest) := by
  induction h generalizing turns with
  | one ha =>
      obtain ⟨turns, rfl⟩ := Nat.exists_eq_add_one.mpr (Nat.zero_lt_of_lt hturns)
      rw [parseItems_padded hitem hsolid hblank hnumber ha, if_neg hcomma, if_pos rfl]
  | @cons text more a as ha hmore ih =>
      obtain ⟨turns, rfl⟩ := Nat.exists_eq_add_one.mpr (Nat.zero_lt_of_lt hturns)
      have hlt : more.length < turns := by
        rw [List.length_append, List.length_cons] at hturns
        omega
      rw [List.append_assoc, List.cons_append,
        parseItems_padded hitem hsolid (by decide) (by decide) ha, if_pos rfl, ih hlt]

/-- What stands between the brackets is a list of items, with nothing but blanks in an empty one. -/
theorem parseBracketed_eq_ok (opening : CChar) {input rest : CString} {as : List α} :
    parseBracketed closing item input = .ok (as, rest)
      ↔ ∃ text, opening :: input = text ++ rest ∧ Bracketed Blank opening closing R text as := by
  constructor
  · intro h
    have hitems : parseItems closing item (input.length + 1) input = .ok (as, rest) →
        ∃ text, opening :: input = text ++ rest ∧ Bracketed Blank opening closing R text as := by
      intro h
      obtain ⟨text, rfl, htext⟩ := separated_of_parseItems hitem h
      exact ⟨opening :: text ++ [closing], by simp, .items htext⟩
    rw [parseBracketed] at h
    split at h
    · exact hitems h
    · rename_i c more hskip
      split at h
      · rename_i hc
        cases h
        obtain ⟨blanks, hblanks, hall⟩ := exists_blanks input
        rw [hskip, hc] at hblanks
        exact ⟨opening :: blanks ++ [closing], by simp [hblanks], .empty hall⟩
      · exact hitems h
  · rintro ⟨text, htext, hlist⟩
    cases hlist with
    | @empty blanks hall =>
        obtain rfl : input = blanks ++ closing :: rest := by simpa using htext
        rw [parseBracketed, bufferSkipWhitespace_append hall hblank]
        exact if_pos rfl
    | @items text _ hitems =>
        obtain rfl : input = text ++ closing :: rest := by simpa using htext
        have hturns : text.length < (text ++ closing :: rest).length + 1 := by
          rw [List.length_append]
          omega
        have hparse := parseItems_of_separated hitem hsolid hcomma hblank hnumber hitems hturns rest
        have hskip : ∃ c more, bufferSkipWhitespace (text ++ closing :: rest) = c :: more
            ∧ c ≠ closing := by
          have hpadded : ∃ front back a, text = front ++ back ∧ Padded Blank R front a := by
            cases hitems with
            | one ha => exact ⟨_, [], _, (List.append_nil _).symm, ha⟩
            | cons ha _ => exact ⟨_, _, _, rfl, ha⟩
          obtain ⟨_, back, a, rfl, before, core, after, rfl, hbefore, -, hcore⟩ := hpadded
          obtain ⟨c, more, rfl, hc, hne⟩ := hsolid _ _ hcore
          refine ⟨c, more ++ (after ++ (back ++ closing :: rest)), ?_, hne⟩
          simp only [List.append_assoc, List.cons_append]
          exact bufferSkipWhitespace_append hbefore hc _
        obtain ⟨c, more, hskip, hne⟩ := hskip
        rw [parseBracketed, hskip]
        dsimp only
        rw [if_neg hne, hparse]

end Lists

/-! ### Values -/

/-- What the text of a value begins with. -/
def StartsValue (c : CChar) : Prop :=
  isBlank c = false ∧ c ≠ chr ']' ∧ c ≠ chr '}' ∧ c.val ≠ 0xEF

theorem startsValue_of_isDigit {c : CChar} (h : isDigit c = true) : StartsValue c := by
  have hne : ∀ d : CChar, isDigit d = false → c ≠ d := by
    rintro d hd rfl
    rw [hd] at h
    cases h
  refine ⟨isBlank_eq_false_of_isDigit h, hne _ (by decide), hne _ (by decide), fun heq => ?_⟩
  exact hne ⟨0xEF, by decide⟩ (by decide) (Subtype.ext heq)

theorem bracketed_head {α : Type} {blank : CString → Prop} {opening closing : CChar}
    {P : CString → α → Prop} {text : CString} {as : List α}
    (h : Bracketed blank opening closing P text as) : ∃ more, text = opening :: more := by
  cases h with
  | empty _ => exact ⟨_, rfl⟩
  | items _ => exact ⟨_, rfl⟩

theorem exists_startsValue {round : ℚ → Double} {room : Nat} {text : CString} {value : Json}
    (h : ValueText (cJSONLexicon round) room text value) :
    ∃ c more, text = c :: more ∧ StartsValue c := by
  have hscalar : ∀ {text : CString} {value : Json}, ScalarText (cJSONLexicon round) text value →
      ∃ c more, text = c :: more ∧ StartsValue c := by
    intro text value h
    cases h with
    | null => exact ⟨_, _, rfl, by decide, by decide, by decide, by decide⟩
    | false_ => exact ⟨_, _, rfl, by decide, by decide, by decide, by decide⟩
    | true_ => exact ⟨_, _, rfl, by decide, by decide, by decide, by decide⟩
    | number hn =>
        obtain ⟨n, -, -, ⟨c, hc, hstart⟩, -⟩ := hn
        obtain ⟨more, hmore⟩ := List.head?_eq_some_iff.mp hc
        refine ⟨c, more, hmore, ?_⟩
        rcases hstart with rfl | hdigit
        · exact ⟨by decide, by decide, by decide, by decide⟩
        · exact startsValue_of_isDigit hdigit
    | string hs => exact ⟨_, _, rfl, by decide, by decide, by decide, by decide⟩
  cases room with
  | zero => exact hscalar h
  | succ room =>
      rcases h with h | ⟨items, -, h⟩ | ⟨members, -, h⟩
      · exact hscalar h
      · obtain ⟨more, rfl⟩ := bracketed_head h
        exact ⟨_, _, rfl, by decide, by decide, by decide, by decide⟩
      · obtain ⟨more, rfl⟩ := bracketed_head h
        exact ⟨_, _, rfl, by decide, by decide, by decide, by decide⟩

theorem memberText_head {L : Lexicon} {P : CString → Json → Prop} {text : CString}
    {member : CString × Json} (h : MemberText L P text member) : ∃ more, text = chr '"' :: more := by
  obtain ⟨body, rest, rfl, -⟩ := h
  exact ⟨_, rfl⟩

theorem exact_parseString : Exact parseString fun text value =>
    ∃ body, text = chr '"' :: body ++ [chr '"'] ∧ StringBody body value := by
  intro input rest value
  rw [parseString_eq_ok]
  constructor
  · rintro ⟨body, rfl, hbody⟩
    exact ⟨_, by simp, ⟨body, rfl, hbody⟩, numberEnds_of_head (by decide) _ _⟩
  · rintro ⟨_, rfl, ⟨body, rfl, hbody⟩, -⟩
    exact ⟨body, by simp, hbody⟩

/-- A mapped result. -/
theorem map_eq_ok {α β ε : Type} {f : α → β} {x : Except ε α} {b : β} :
    x.map f = .ok b ↔ ∃ a, x = .ok a ∧ f a = b := by
  cases x with
  | error e => simp [Except.map]
  | ok a => simp [Except.map]

theorem exact_parseList {α : Type} {opening closing : CChar} {item : CString → Parsed α}
    {R : CString → α → Prop} (hitem : Accepts item R) (hsolid : Solid closing R)
    (hcomma : closing ≠ chr ',') (hblank : isBlank closing = false)
    (hnumber : isNumberChar closing = false) (hopening : isNumberChar opening = false)
    (build : List α → Json) :
    Exact (parseList opening closing item build) fun text v =>
      ∃ as, v = build as ∧ Bracketed Blank opening closing R text as := by
  intro input rest v
  constructor
  · intro h
    cases input with
    | nil => cases h
    | cons c s =>
        rw [parseList] at h
        split at h
        · cases h
        rename_i hc
        obtain ⟨⟨as, rest'⟩, hread, heq⟩ := map_eq_ok.mp h
        cases heq
        obtain ⟨text, htext, hlist⟩ :=
          (parseBracketed_eq_ok hitem hsolid hcomma hblank hnumber c).mp hread
        rw [not_not.mp hc] at hlist htext ⊢
        refine ⟨text, htext, ⟨as, rfl, hlist⟩, ?_⟩
        obtain ⟨more, rfl⟩ := bracketed_head hlist
        exact numberEnds_of_head hopening _ _
  · rintro ⟨text, rfl, ⟨as, rfl, hlist⟩, -⟩
    obtain ⟨more, rfl⟩ := bracketed_head hlist
    have hread : parseBracketed closing item (more ++ rest) = .ok (as, rest) :=
      (parseBracketed_eq_ok hitem hsolid hcomma hblank hnumber opening).mpr ⟨_, rfl, hlist⟩
    rw [List.cons_append, parseList, if_neg (not_not.mpr rfl), hread]
    rfl

/-! ### One level -/

section Level

variable {round : ℚ → Double} {value : CString → Parsed Json} {R : CString → Json → Prop}
  (hvalue : Accepts value R)
  (hstart : ∀ (text : CString) (v : Json), R text v → ∃ c more, text = c :: more ∧ StartsValue c)

include hvalue hstart

theorem exact_parseArray : Exact (parseArray value) fun text v =>
    ∃ items, v = .array items ∧ Bracketed Blank (chr '[') (chr ']') R text items := by
  have hsolid : Solid (chr ']') R := fun text v h => by
    obtain ⟨c, more, heq, hc, hne, -⟩ := hstart _ _ h
    exact ⟨c, more, heq, hc, hne⟩
  have hopening : isNumberChar (chr '[') = false := by decide
  exact exact_parseList hvalue hsolid (by decide) (by decide) (by decide) hopening Json.array

theorem accepts_parseMember :
    Accepts (parseMember value) (MemberText (cJSONLexicon round) R) where
  sound := by
    intro input rest member h
    unfold parseMember at h
    split at h
    · cases h
    rename_i name left hname
    split at h
    · cases h
    rename_i c more hskip
    split at h
    · cases h
    rename_i hcolon
    obtain ⟨body, rfl, hbody⟩ := parseString_eq_ok.mp hname
    obtain ⟨⟨v, rest'⟩, hread, heq⟩ := map_eq_ok.mp h
    cases heq
    obtain ⟨core, hcore, hv⟩ := hvalue.sound hread
    obtain ⟨before, hbefore, hblank⟩ := exists_blanks left
    obtain ⟨padding, hpadding, hblank'⟩ := exists_blanks more
    rw [hskip, not_not.mp hcolon] at hbefore
    rw [hcore] at hpadding
    refine ⟨_, ?_, body, _, rfl, hbody, before, padding, core, rfl, hblank, hblank', hv⟩
    rw [hbefore, hpadding]
    simp
  complete := by
    rintro text rest ⟨name, v⟩ ⟨body, _, rfl, hbody, before, padding, core, rfl, hbefore, hpadding, hv⟩
      hends
    have hassoc : chr '"' :: body ++ chr '"' :: (before ++ chr ':' :: padding ++ core) ++ rest
        = chr '"' :: body ++ chr '"' :: (before ++ chr ':' :: (padding ++ (core ++ rest))) := by simp
    have hname : parseString (chr '"' :: body ++ chr '"' :: (before ++ chr ':' :: (padding ++ (core ++ rest))))
        = .ok (name, before ++ chr ':' :: (padding ++ (core ++ rest))) :=
      parseString_eq_ok.mpr ⟨body, rfl, hbody⟩
    have hskip : bufferSkipWhitespace (padding ++ (core ++ rest)) = core ++ rest := by
      obtain ⟨c, more, rfl, hc, -⟩ := hstart _ _ hv
      exact bufferSkipWhitespace_append hpadding hc _
    rw [hassoc, parseMember, hname]
    dsimp only
    rw [bufferSkipWhitespace_append hbefore (by decide)]
    dsimp only
    rw [if_neg (not_not.mpr rfl), hskip, hvalue.complete hv hends]
    rfl

theorem exact_parseObject : Exact (parseObject value) fun text v =>
    ∃ members, v = .object members
      ∧ Bracketed Blank (chr '{') (chr '}') (MemberText (cJSONLexicon round) R) text members := by
  have hsolid : Solid (chr '}') (MemberText (cJSONLexicon round) R) := fun text member h => by
    obtain ⟨more, heq⟩ := memberText_head h
    exact ⟨_, more, heq, by decide, by decide⟩
  have hopening : isNumberChar (chr '{') = false := by decide
  exact exact_parseList (accepts_parseMember hvalue hstart) hsolid (by decide) (by decide)
    (by decide) hopening Json.object

end Level

/-! ### `parse_value` -/

theorem stripPrefix_cons_of_ne {c d : CChar} (h : d ≠ c) (p s : CString) :
    stripPrefix (c :: p) (d :: s) = none := by
  cases hread : stripPrefix (c :: p) (d :: s) with
  | none => rfl
  | some rest => exact absurd (List.cons.inj (stripPrefix_eq_some.mp hread)).1 h

theorem parseValueWith_cons (round : ℚ → Double) (array object : CString → Parsed Json) {c : CChar}
    (hn : c ≠ chr 'n') (hf : c ≠ chr 'f') (ht : c ≠ chr 't') (s : CString) :
    parseValueWith round array object (c :: s)
      = if c = chr '"' then (parseString (c :: s)).map fun (value, rest) => (.string value, rest)
        else if c = chr '-' ∨ isDigit c = true then
          (parseNumber round (c :: s)).map fun (number, rest) => (.number number, rest)
        else if c = chr '[' then array (c :: s)
        else if c = chr '{' then object (c :: s)
        else .error (c :: s) := by
  have hnull : stripPrefix (lit "null") (c :: s) = none := stripPrefix_cons_of_ne hn (lit "ull") s
  have hfalse : stripPrefix (lit "false") (c :: s) = none :=
    stripPrefix_cons_of_ne hf (lit "alse") s
  have htrue : stripPrefix (lit "true") (c :: s) = none := stripPrefix_cons_of_ne ht (lit "rue") s
  rw [parseValueWith, hnull, hfalse, htrue]

theorem exact_parseValueWith (round : ℚ → Double) {array object : CString → Parsed Json}
    {A O : CString → Json → Prop} (harray : Exact array A) (hobject : Exact object O)
    (hA : ∀ text v, A text v → ∃ more, text = chr '[' :: more)
    (hO : ∀ text v, O text v → ∃ more, text = chr '{' :: more) :
    Exact (parseValueWith round array object) fun text v =>
      ScalarText (cJSONLexicon round) text v ∨ A text v ∨ O text v := by
  intro input rest v
  constructor
  · intro h
    unfold parseValueWith at h
    split at h
    · rename_i hread
      cases h
      exact ⟨_, stripPrefix_eq_some.mp hread, Or.inl .null, numberEnds_of_head (by decide) _ _⟩
    split at h
    · rename_i hread
      cases h
      exact ⟨_, stripPrefix_eq_some.mp hread, Or.inl .false_, numberEnds_of_head (by decide) _ _⟩
    split at h
    · rename_i hread
      cases h
      exact ⟨_, stripPrefix_eq_some.mp hread, Or.inl .true_, numberEnds_of_head (by decide) _ _⟩
    cases input with
    | nil => cases h
    | cons c s =>
        dsimp only at h
        split at h
        · obtain ⟨⟨value, rest'⟩, hread, heq⟩ := map_eq_ok.mp h
          cases heq
          obtain ⟨text, htext, ⟨body, rfl, hbody⟩, hends⟩ := (exact_parseString _ _ _).mp hread
          exact ⟨_, htext, Or.inl (.string hbody), hends⟩
        split at h
        · rename_i hstart
          obtain ⟨⟨d, rest'⟩, hread, heq⟩ := map_eq_ok.mp h
          cases heq
          obtain ⟨text, htext, ⟨n, hn, hlen, hd⟩, hends⟩ := (exact_parseNumber round _ _ _).mp hread
          have hhead : text.head? = some c := by
            obtain ⟨d, more, hmore⟩ := List.exists_cons_of_ne_nil n.text_ne_nil
            rw [hn, hmore] at htext ⊢
            rw [(List.cons.inj htext).1]
            rfl
          exact ⟨_, htext, Or.inl (.number ⟨n, hn, hlen, ⟨c, hhead, hstart⟩, hd⟩), hends⟩
        split at h
        · obtain ⟨text, htext, hv, hends⟩ := (harray _ _ _).mp h
          exact ⟨text, htext, Or.inr (Or.inl hv), hends⟩
        split at h
        · obtain ⟨text, htext, hv, hends⟩ := (hobject _ _ _).mp h
          exact ⟨text, htext, Or.inr (Or.inr hv), hends⟩
        · cases h
  · rintro ⟨text, rfl, hscalar | hv | hv, hends⟩
    · cases hscalar with
      | null =>
          unfold parseValueWith
          rw [stripPrefix_append]
      | false_ =>
          have hnull : stripPrefix (lit "null") (lit "false" ++ rest) = none :=
            stripPrefix_cons_of_ne (by decide) (lit "ull") _
          unfold parseValueWith
          rw [hnull, stripPrefix_append]
      | true_ =>
          have hnull : stripPrefix (lit "null") (lit "true" ++ rest) = none :=
            stripPrefix_cons_of_ne (by decide) (lit "ull") _
          have hfalse : stripPrefix (lit "false") (lit "true" ++ rest) = none :=
            stripPrefix_cons_of_ne (by decide) (lit "alse") _
          unfold parseValueWith
          rw [hnull, hfalse, stripPrefix_append]
      | @string body value hbody =>
          have hread : parseString (chr '"' :: body ++ [chr '"'] ++ rest) = .ok (value, rest) :=
            (exact_parseString _ _ _).mpr ⟨_, rfl, ⟨body, rfl, hbody⟩, hends⟩
          rw [List.cons_append, List.cons_append] at hread ⊢
          rw [parseValueWith_cons round _ _ (by decide) (by decide) (by decide), if_pos rfl, hread]
          rfl
      | @number _ d hnumber =>
          obtain ⟨n, hn, hlen, ⟨c, hc, hstart⟩, hd⟩ := hnumber
          have hread : parseNumber round (text ++ rest) = .ok (d, rest) :=
            (exact_parseNumber round _ _ _).mpr ⟨text, rfl, ⟨n, hn, hlen, hd⟩, hends⟩
          obtain ⟨more, rfl⟩ := List.head?_eq_some_iff.mp hc
          have hne : ∀ d, isDigit d = false → d ≠ chr '-' → c ≠ d := by
            rintro d hdigit hminus rfl
            rcases hstart with h | h
            · exact hminus h
            · rw [hdigit] at h
              cases h
          rw [List.cons_append] at hread ⊢
          rw [parseValueWith_cons round _ _ (hne _ (by decide) (by decide))
            (hne _ (by decide) (by decide)) (hne _ (by decide) (by decide)),
            if_neg (hne _ (by decide) (by decide)), if_pos hstart, hread]
          rfl
    · obtain ⟨more, rfl⟩ := hA _ _ hv
      have hread := (harray _ _ _).mpr ⟨_, rfl, hv, hends⟩
      rw [List.cons_append] at hread ⊢
      rw [parseValueWith_cons round _ _ (by decide) (by decide) (by decide), if_neg (by decide),
        if_neg (by decide), if_pos rfl, hread]
    · obtain ⟨more, rfl⟩ := hO _ _ hv
      have hread := (hobject _ _ _).mpr ⟨_, rfl, hv, hends⟩
      rw [List.cons_append] at hread ⊢
      rw [parseValueWith_cons round _ _ (by decide) (by decide) (by decide), if_neg (by decide),
        if_neg (by decide), if_neg (by decide), if_pos rfl, hread]

/-- The values that are nested no deeper than there is room, and no others. -/
theorem exact_parseValue (round : ℚ → Double) (room : Nat) :
    Exact (parseValue round room) (ValueText (cJSONLexicon round) room) := by
  induction room with
  | zero =>
      have hnone : Exact (fun input : CString => (.error input : Parsed Json)) fun _ _ => False := by
        intro input rest v
        exact iff_of_false (fun h => nomatch h) fun ⟨_, _, h, _⟩ => h
      intro input rest v
      have hlevel := exact_parseValueWith round hnone hnone (fun _ _ h => h.elim)
        (fun _ _ h => h.elim) input rest v
      simp only [or_false] at hlevel
      exact hlevel
  | succ room ih =>
      exact exact_parseValueWith round (exact_parseArray ih.accepts fun _ _ => exists_startsValue)
        (exact_parseObject ih.accepts fun _ _ => exists_startsValue)
        (fun _ _ ⟨_, _, h⟩ => bracketed_head h) (fun _ _ ⟨_, _, h⟩ => bracketed_head h)

/-! ### `cJSON_Parse` -/

/-- What may stand in front of a value: blanks, and a byte order mark in front of them. -/
def Lead (front : CString) : Prop :=
  ∃ blanks, Blank blanks ∧ (front = blanks ∨ front = utf8Bom ++ blanks)

theorem skipUtf8Bom_append {s : CString} (h : s ≠ []) : skipUtf8Bom (utf8Bom ++ s) = s := by
  have hlen : 4 ≤ (utf8Bom ++ s).length := by
    have hpos := List.length_pos_iff.mpr h
    rw [List.length_append]
    show 4 ≤ 3 + s.length
    omega
  exact if_pos ⟨hlen, rfl⟩

theorem skipUtf8Bom_of_ne {c : CChar} (h : c.val ≠ 0xEF) (s : CString) :
    skipUtf8Bom (c :: s) = c :: s := by
  refine if_neg fun hbom => h ?_
  have hhead := congrArg List.head? hbom.2
  exact congrArg Subtype.val (Option.some.inj hhead)

/-- There is a mark in front of the text, or it is left as it is. -/
theorem skipUtf8Bom_cases (s : CString) : s = utf8Bom ++ skipUtf8Bom s ∨ s = skipUtf8Bom s := by
  unfold skipUtf8Bom
  split
  · rename_i h
    left
    rw [← h.2, List.take_append_drop]
  · exact Or.inr rfl

/-- The blanks and the mark are skipped, and nothing else. -/
theorem skip_lead {front : CString} (h : Lead front) {c : CChar} (hc : StartsValue c) (s : CString) :
    bufferSkipWhitespace (skipUtf8Bom (front ++ c :: s)) = c :: s := by
  obtain ⟨blanks, hblanks, rfl | rfl⟩ := h
  · have hskip : skipUtf8Bom (front ++ c :: s) = front ++ c :: s := by
      cases front with
      | nil => exact skipUtf8Bom_of_ne hc.2.2.2 s
      | cons b front =>
          refine skipUtf8Bom_of_ne (fun hb => ?_) _
          have hblank := hblanks b List.mem_cons_self
          rw [isBlank, hb] at hblank
          revert hblank
          decide
    rw [hskip]
    exact bufferSkipWhitespace_append hblanks hc.1 s
  · rw [List.append_assoc, skipUtf8Bom_append (by simp)]
    exact bufferSkipWhitespace_append hblanks hc.1 s

/-- `cJSON_Parse` returns a tree for the texts that begin with a text of that tree, and for no
others. -/
theorem cJSONParse_eq_ok (round : ℚ → Double) (s : CString) (v : Json) :
    cJSONParse round s = .ok v
      ↔ ∃ front text rest, s = front ++ text ++ rest ∧ Lead front
          ∧ ValueText (cJSONLexicon round) cJSONNestingLimit text v ∧ NumberEnds text rest := by
  unfold cJSONParse
  constructor
  · intro h
    obtain ⟨⟨v', rest⟩, hread, rfl⟩ := map_eq_ok.mp h
    obtain ⟨text, htext, hv, hends⟩ := (exact_parseValue round _ _ _ _).mp hread
    obtain ⟨blanks, hblanks, hall⟩ := exists_blanks (skipUtf8Bom s)
    rw [htext, ← List.append_assoc] at hblanks
    rcases skipUtf8Bom_cases s with hs | hs
    · refine ⟨utf8Bom ++ blanks, text, rest, ?_, ⟨blanks, hall, Or.inr rfl⟩, hv, hends⟩
      rw [List.append_assoc, List.append_assoc, ← List.append_assoc blanks, ← hblanks]
      exact hs
    · exact ⟨blanks, text, rest, hs.trans hblanks, ⟨blanks, hall, Or.inl rfl⟩, hv, hends⟩
  · rintro ⟨front, text, rest, rfl, hfront, hv, hends⟩
    have hread := (exact_parseValue round _ _ _ _).mpr ⟨text, rfl, hv, hends⟩
    obtain ⟨c, more, rfl, hc⟩ := exists_startsValue hv
    rw [List.append_assoc, List.cons_append, skip_lead hfront hc, ← List.cons_append, hread]
    rfl

/-! ### Positions -/

/-- Wherever the function stops, in success or in failure, is in its input. -/
structure Inside {α : Type} (p : CString → Parsed α) : Prop where
  ok : ∀ {input rest : CString} {a : α}, p input = .ok (a, rest) → rest <:+ input
  error : ∀ {input position : CString}, p input = .error position → position <:+ input

theorem Exact.suffix {α : Type} {p : CString → Parsed α} {R : CString → α → Prop} (h : Exact p R)
    {input rest : CString} {a : α} (hp : p input = .ok (a, rest)) : rest <:+ input := by
  obtain ⟨text, rfl, -, -⟩ := (h _ _ _).mp hp
  exact List.suffix_append _ _

theorem suffix_bufferSkipWhitespace (input : CString) : bufferSkipWhitespace input <:+ input :=
  List.dropWhile_suffix _

theorem map_eq_error {α β ε : Type} {f : α → β} {x : Except ε α} {e : ε} :
    x.map f = .error e ↔ x = .error e := by
  cases x with
  | error e => simp [Except.map]
  | ok a => simp [Except.map]

theorem inside_parseNumber (round : ℚ → Double) : Inside (parseNumber round) where
  ok := (exact_parseNumber round).suffix
  error := by
    intro input position h
    unfold parseNumber at h
    split at h
    · cases h
      exact List.suffix_rfl
    · cases h

theorem inside_parseString : Inside parseString where
  ok := exact_parseString.suffix
  error := by
    intro input position h
    cases input with
    | nil =>
        cases h
        exact List.suffix_rfl
    | cons c s =>
        simp only [parseString] at h
        split at h
        · cases h
          exact List.suffix_cons _ _
        split at h
        · cases h
          exact List.suffix_cons _ _
        · rename_i body rest skipped hfind
          obtain ⟨rfl, -⟩ := paired_of_findClosingQuote hfind
          split at h
          · rename_i position' hunescape
            cases h
            obtain ⟨front, rfl⟩ := suffix_of_unescape (congrArg Prod.snd hunescape)
            refine List.IsSuffix.trans ?_ (List.suffix_cons _ _)
            rw [List.append_assoc]
            exact List.suffix_append _ _
          · cases h

section Inside

variable {α : Type} {closing : CChar} {item : CString → Parsed α} (hitem : Inside item)
include hitem

theorem inside_parseItems (turns : Nat) : Inside (parseItems closing item turns) := by
  induction turns with
  | zero =>
      exact ⟨fun h => (nomatch h), fun h => by cases h; exact List.suffix_rfl⟩
  | succ turns ih =>
      have hcases : ∀ {input : CString} {result : Except CString (List α × CString)},
          parseItems closing item (turns + 1) input = result →
          (∀ as rest, result = .ok (as, rest) → rest <:+ input)
            ∧ ∀ position, result = .error position → position <:+ input := by
        rintro input result rfl
        have hskip := suffix_bufferSkipWhitespace input
        rw [parseItems]
        split
        · rename_i position hread
          refine ⟨fun _ _ h => (nomatch h), fun _ h => ?_⟩
          cases h
          exact (hitem.error hread).trans hskip
        rename_i a left hread
        have hleft := (hitem.ok hread).trans hskip
        have hskip' := suffix_bufferSkipWhitespace left
        split
        · exact ⟨fun _ _ h => (nomatch h), fun _ h => by cases h; exact List.nil_suffix⟩
        rename_i c more hmore
        rw [hmore] at hskip'
        have hcons := hskip'.trans hleft
        have hrest := (List.suffix_cons c more).trans hcons
        split
        · split
          · rename_i position hread'
            refine ⟨fun _ _ h => (nomatch h), fun _ h => ?_⟩
            cases h
            exact (ih.error hread').trans hrest
          · rename_i as rest hread'
            refine ⟨fun _ _ h => ?_, fun _ h => (nomatch h)⟩
            cases h
            exact (ih.ok hread').trans hrest
        split
        · refine ⟨fun _ _ h => ?_, fun _ h => (nomatch h)⟩
          cases h
          exact hrest
        · refine ⟨fun _ _ h => (nomatch h), fun _ h => ?_⟩
          cases h
          exact hcons
      exact ⟨fun h => (hcases h).1 _ _ rfl, fun h => (hcases h).2 _ rfl⟩

theorem inside_parseList (opening : CChar) (build : List α → Json) :
    Inside (parseList opening closing item build) := by
  have hbracketed : Inside (parseBracketed closing item) := by
    have hcases : ∀ input : CString,
        parseBracketed closing item input = parseItems closing item (input.length + 1) input
          ∨ ∃ c rest, bufferSkipWhitespace input = c :: rest
            ∧ parseBracketed closing item input = .ok ([], rest) := by
      intro input
      unfold parseBracketed
      split
      · exact Or.inl rfl
      · rename_i c rest hskip
        split
        · exact Or.inr ⟨c, rest, hskip, rfl⟩
        · exact Or.inl rfl
    refine ⟨fun {input rest as} h => ?_, fun {input position} h => ?_⟩
    · rcases hcases input with heq | ⟨c, more, hskip, heq⟩
      · exact (inside_parseItems hitem _).ok (heq ▸ h)
      · rw [heq] at h
        cases h
        have hsuffix := suffix_bufferSkipWhitespace input
        rw [hskip] at hsuffix
        exact (List.suffix_cons _ _).trans hsuffix
    · rcases hcases input with heq | ⟨c, more, -, heq⟩
      · exact (inside_parseItems hitem _).error (heq ▸ h)
      · rw [heq] at h
        cases h
  refine ⟨fun {input rest v} h => ?_, fun {input position} h => ?_⟩
  · cases input with
    | nil => cases h
    | cons c s =>
        rw [parseList] at h
        split at h
        · cases h
        · obtain ⟨⟨as, rest'⟩, hread, heq⟩ := map_eq_ok.mp h
          cases heq
          exact (hbracketed.ok hread).trans (List.suffix_cons _ _)
  · cases input with
    | nil =>
        cases h
        exact List.suffix_rfl
    | cons c s =>
        rw [parseList] at h
        split at h
        · cases h
          exact List.suffix_rfl
        · exact (hbracketed.error (map_eq_error.mp h)).trans (List.suffix_cons _ _)

end Inside

theorem inside_parseMember {value : CString → Parsed Json} (hvalue : Inside value) :
    Inside (parseMember value) := by
  have hcases : ∀ {input : CString} {result : Parsed (CString × Json)},
      parseMember value input = result →
      (∀ member rest, result = .ok (member, rest) → rest <:+ input)
        ∧ ∀ position, result = .error position → position <:+ input := by
    rintro input result rfl
    unfold parseMember
    split
    · rename_i position hname
      refine ⟨fun _ _ h => (nomatch h), fun _ h => ?_⟩
      cases h
      exact inside_parseString.error hname
    rename_i name left hname
    have hleft := inside_parseString.ok hname
    have hskip := suffix_bufferSkipWhitespace left
    split
    · exact ⟨fun _ _ h => (nomatch h), fun _ h => by cases h; exact List.nil_suffix⟩
    rename_i c more hmore
    rw [hmore] at hskip
    have hcons := hskip.trans hleft
    have hrest := (suffix_bufferSkipWhitespace more).trans ((List.suffix_cons c more).trans hcons)
    split
    · refine ⟨fun _ _ h => (nomatch h), fun _ h => ?_⟩
      cases h
      exact hcons
    · refine ⟨fun _ _ h => ?_, fun _ h => ?_⟩
      · obtain ⟨⟨v, rest⟩, hread, heq⟩ := map_eq_ok.mp h
        cases heq
        exact (hvalue.ok hread).trans hrest
      · exact (hvalue.error (map_eq_error.mp h)).trans hrest
  exact ⟨fun h => (hcases h).1 _ _ rfl, fun h => (hcases h).2 _ rfl⟩

theorem inside_parseValueWith (round : ℚ → Double) {array object : CString → Parsed Json}
    (harray : ∀ {input position : CString}, array input = .error position → position <:+ input)
    (hobject : ∀ {input position : CString}, object input = .error position → position <:+ input)
    {input position : CString} (h : parseValueWith round array object input = .error position) :
    position <:+ input := by
  unfold parseValueWith at h
  split at h
  · cases h
  split at h
  · cases h
  split at h
  · cases h
  cases input with
  | nil =>
      cases h
      exact List.suffix_rfl
  | cons c s =>
      dsimp only at h
      split at h
      · exact inside_parseString.error (map_eq_error.mp h)
      split at h
      · exact (inside_parseNumber round).error (map_eq_error.mp h)
      split at h
      · exact harray h
      split at h
      · exact hobject h
      · cases h
        exact List.suffix_rfl

theorem inside_parseValue (round : ℚ → Double) (room : Nat) : Inside (parseValue round room) := by
  refine ⟨(exact_parseValue round room).suffix, ?_⟩
  induction room with
  | zero =>
      have herror : ∀ {input position : CString},
          (.error input : Parsed Json) = .error position → position <:+ input := by
        rintro input position ⟨⟩
        exact List.suffix_rfl
      intro input position h
      exact inside_parseValueWith round herror herror h
  | succ room ih =>
      have hvalue : Inside (parseValue round room) := ⟨(exact_parseValue round room).suffix, ih⟩
      intro input position h
      exact inside_parseValueWith round (inside_parseList hvalue _ _).error
        (inside_parseList (inside_parseMember hvalue) _ _).error h

/-- Where `cJSON_GetErrorPtr` points to is in the text. -/
theorem suffix_of_cJSONParse {round : ℚ → Double} {s position : CString}
    (h : cJSONParse round s = .error position) : position <:+ s := by
  have hmark : skipUtf8Bom s <:+ s := by
    rcases skipUtf8Bom_cases s with hs | hs
    · exact ⟨utf8Bom, hs.symm⟩
    · exact ⟨[], hs.symm⟩
  exact ((inside_parseValue round _).error (map_eq_error.mp h)).trans
    ((suffix_bufferSkipWhitespace _).trans hmark)

end Cacher
