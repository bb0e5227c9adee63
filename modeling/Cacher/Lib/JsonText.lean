import Cacher.Lib.Json
import Cacher.Lib.Numeral
import Cacher.Lib.Utf8

/-!
# `Cacher.Lib.JsonText`: the texts of a JSON value

The grammar of JSON over a `Lexicon`, which says what is blank, what is a number and what may stand
between two quotes. `ValueText L room` are the texts that are nested no deeper than `room`. Each
level is defined from the one inside, so an induction on the room is an induction on the grammar.

`rfc8259` is the lexicon of the standard. `ValueText.mono` goes over to a lexicon that takes more.
-/

set_option autoImplicit false

namespace CText

/-- What a JSON text is made of besides its brackets, commas and colons. -/
structure Lexicon where
  blank : CString → Prop
  number : CString → Double → Prop
  /-- What stands between the quotes, and the string it means. -/
  string : CString → CString → Prop

section Grammar

variable {α : Type}

/-- A text with blanks around it. -/
def Padded (blank : CString → Prop) (P : CString → α → Prop) (text : CString) (a : α) : Prop :=
  ∃ before core after, text = before ++ core ++ after ∧ blank before ∧ blank after ∧ P core a

/-- Texts with a comma between any two. -/
inductive Separated (P : CString → α → Prop) : CString → List α → Prop
  | one {text : CString} {a : α} (h : P text a) : Separated P text [a]
  | cons {text more : CString} {a : α} {as : List α} (h : P text a) (hmore : Separated P more as) :
      Separated P (text ++ chr ',' :: more) (a :: as)

/-- A list in brackets. -/
inductive Bracketed (blank : CString → Prop) (opening closing : CChar) (P : CString → α → Prop) :
    CString → List α → Prop
  | empty {s : CString} (h : blank s) : Bracketed blank opening closing P (opening :: s ++ [closing]) []
  | items {text : CString} {as : List α} (h : Separated (Padded blank P) text as) :
      Bracketed blank opening closing P (opening :: text ++ [closing]) as

variable (L : Lexicon)

/-- The values without brackets. -/
inductive ScalarText : CString → Json → Prop
  | null : ScalarText (lit "null") .null
  | false_ : ScalarText (lit "false") (.bool false)
  | true_ : ScalarText (lit "true") (.bool true)
  | number {text : CString} {d : Double} (h : L.number text d) : ScalarText text (.number d)
  | string {body value : CString} (h : L.string body value) :
      ScalarText (chr '"' :: body ++ [chr '"']) (.string value)

/-- The text behind a name: blanks, a colon and a value. -/
def NamedText (P : CString → Json → Prop) (text : CString) (value : Json) : Prop :=
  ∃ before padding core, text = before ++ chr ':' :: padding ++ core ∧ L.blank before
    ∧ L.blank padding ∧ P core value

/-- A name and its value. -/
def MemberText (P : CString → Json → Prop) (text : CString) (member : CString × Json) : Prop :=
  ∃ body rest, text = chr '"' :: body ++ chr '"' :: rest ∧ L.string body member.1
    ∧ NamedText L P rest member.2

/-- The texts of a value in which no more than `room` brackets stand inside each other. -/
def ValueText : (room : Nat) → CString → Json → Prop
  | 0, text, value => ScalarText L text value
  | room + 1, text, value => ScalarText L text value
    ∨ (∃ items, value = .array items
        ∧ Bracketed L.blank (chr '[') (chr ']') (ValueText room) text items)
    ∨ (∃ members, value = .object members
        ∧ Bracketed L.blank (chr '{') (chr '}') (MemberText L (ValueText room)) text members)

end Grammar

/-! ### A lexicon that takes more -/

/-- Every text of the one is a text of the other, with the same meaning. -/
structure Lexicon.Le (L M : Lexicon) : Prop where
  blank : ∀ {s : CString}, L.blank s → M.blank s
  number : ∀ {s : CString} {d : Double}, L.number s d → M.number s d
  string : ∀ {body value : CString}, L.string body value → M.string body value

section Mono

variable {α : Type} {P Q : CString → α → Prop} {blank blank' : CString → Prop}

theorem Padded.mono (hblank : ∀ s, blank s → blank' s) (h : ∀ s a, P s a → Q s a) {text : CString}
    {a : α} (htext : Padded blank P text a) : Padded blank' Q text a := by
  obtain ⟨before, core, after, heq, hbefore, hafter, hcore⟩ := htext
  exact ⟨before, core, after, heq, hblank _ hbefore, hblank _ hafter, h _ _ hcore⟩

theorem Separated.mono (h : ∀ s a, P s a → Q s a) {text : CString} {as : List α}
    (htext : Separated P text as) : Separated Q text as := by
  induction htext with
  | one ha => exact .one (h _ _ ha)
  | cons ha _ ih => exact .cons (h _ _ ha) ih

theorem Bracketed.mono {opening closing : CChar} (hblank : ∀ s, blank s → blank' s)
    (h : ∀ s a, P s a → Q s a) {text : CString} {as : List α}
    (htext : Bracketed blank opening closing P text as) :
    Bracketed blank' opening closing Q text as := by
  cases htext with
  | empty hs => exact .empty (hblank _ hs)
  | items hitems => exact .items (hitems.mono fun _ _ => Padded.mono hblank h)

variable {L M : Lexicon}

theorem ScalarText.mono (h : L.Le M) {text : CString} {value : Json}
    (htext : ScalarText L text value) : ScalarText M text value := by
  cases htext with
  | null => exact .null
  | false_ => exact .false_
  | true_ => exact .true_
  | number hn => exact .number (h.number hn)
  | string hs => exact .string (h.string hs)

theorem MemberText.mono (h : L.Le M) {P Q : CString → Json → Prop} (hP : ∀ s v, P s v → Q s v)
    {text : CString} {member : CString × Json} (htext : MemberText L P text member) :
    MemberText M Q text member := by
  obtain ⟨body, rest, heq, hname, before, padding, core, hrest, hbefore, hpadding, hcore⟩ := htext
  exact ⟨body, rest, heq, h.string hname, before, padding, core, hrest, h.blank hbefore,
    h.blank hpadding, hP _ _ hcore⟩

theorem ValueText.mono (h : L.Le M) {room : Nat} {text : CString} {value : Json}
    (htext : ValueText L room text value) : ValueText M room text value := by
  induction room generalizing text value with
  | zero => exact ScalarText.mono h htext
  | succ room ih =>
      rcases htext with hscalar | ⟨items, rfl, hitems⟩ | ⟨members, rfl, hmembers⟩
      · exact Or.inl (hscalar.mono h)
      · exact Or.inr (Or.inl ⟨items, rfl, hitems.mono (fun _ => h.blank) fun _ _ => ih⟩)
      · exact Or.inr (Or.inr ⟨members, rfl, hmembers.mono (fun _ => h.blank)
          fun _ _ => MemberText.mono h fun _ _ => ih⟩)

/-- A text that is nested less fits where more room is. -/
theorem ValueText.succ {room : Nat} {text : CString} {value : Json}
    (htext : ValueText L room text value) : ValueText L (room + 1) text value := by
  have hself : L.Le L := ⟨id, id, id⟩
  induction room generalizing text value with
  | zero => exact Or.inl htext
  | succ room ih =>
      rcases htext with hscalar | ⟨items, rfl, hitems⟩ | ⟨members, rfl, hmembers⟩
      · exact Or.inl hscalar
      · exact Or.inr (Or.inl ⟨items, rfl, hitems.mono (fun _ => id) fun _ _ => ih⟩)
      · exact Or.inr (Or.inr ⟨members, rfl, hmembers.mono (fun _ => id)
          fun _ _ => MemberText.mono hself fun _ _ => ih⟩)

end Mono

/-! ### The lexicon of RFC 8259 -/

/-- A number of the grammar: no plus in front, no needless zero, and digits behind the point. -/
structure Numeral.Strict (n : Numeral) : Prop where
  sign : n.sign ≠ .plus
  whole : n.whole ≠ []
  leading : ∀ d more, n.whole = d :: more → d.val = chr '0' → more = []
  fraction : n.fraction ≠ some []

/-- The value of a hexadecimal digit. -/
def hexValue? (c : CChar) : Option Nat :=
  if 48 ≤ c.val ∧ c.val ≤ 57 then some (c.val.toNat - 48)
  else if 65 ≤ c.val ∧ c.val ≤ 70 then some (c.val.toNat - 55)
  else if 97 ≤ c.val ∧ c.val ≤ 102 then some (c.val.toNat - 87)
  else none

/-- Four hexadecimal digits and their value. -/
inductive HexText : CString → Nat → Prop
  | mk {a b c d : CChar} {i j k l : Nat} (ha : hexValue? a = some i) (hb : hexValue? b = some j)
      (hc : hexValue? c = some k) (hd : hexValue? d = some l) :
      HexText [a, b, c, d] (((i * 16 + j) * 16 + k) * 16 + l)

/-- The letters behind a backslash, with the characters they stand for. -/
def escapes : List (CChar × Char) :=
  [(chr '"', '"'), (chr '\\', '\\'), (chr '/', '/'), (chr 'b', Char.ofNat 8), (chr 'f', Char.ofNat 12),
    (chr 'n', '\n'), (chr 'r', '\r'), (chr 't', '\t')]

/-- What stands between the quotes of a string. The standard leaves open what a surrogate without
its other half means. Here it means nothing. -/
inductive StringText : CString → List Char → Prop
  | nil : StringText [] []
  | plain {c : Char} {bytes s : CString} {chars : List Char} (hcontrol : 0x20 ≤ c.toNat)
      (hquote : c ≠ '"') (hbackslash : c ≠ '\\') (hbytes : toBytes bytes = String.utf8EncodeChar c)
      (hmore : StringText s chars) : StringText (bytes ++ s) (c :: chars)
  | escape {letter : CChar} {c : Char} {s : CString} {chars : List Char}
      (hmem : (letter, c) ∈ escapes) (hmore : StringText s chars) :
      StringText (chr '\\' :: letter :: s) (c :: chars)
  | unicode {hex s : CString} {c : Char} {chars : List Char} (hhex : HexText hex c.toNat)
      (hmore : StringText s chars) :
      StringText (chr '\\' :: chr 'u' :: (hex ++ s)) (c :: chars)
  | pair {hexHigh hexLow s : CString} {high low : Nat} {c : Char} {chars : List Char}
      (hhexHigh : HexText hexHigh high) (hhexLow : HexText hexLow low)
      (hhigh : 0xD800 ≤ high ∧ high ≤ 0xDBFF) (hlow : 0xDC00 ≤ low ∧ low ≤ 0xDFFF)
      (hc : c.toNat = 0x10000 + (high - 0xD800) * 0x400 + (low - 0xDC00))
      (hmore : StringText s chars) :
      StringText (chr '\\' :: chr 'u' :: (hexHigh ++ chr '\\' :: chr 'u' :: (hexLow ++ s)))
        (c :: chars)

/-- The lexicon of the standard, for a reader with numbers of bounded length, in which `round` is
the `double` that stands for a number. A C string ends where a NUL is in the string it stands for. -/
def rfc8259 (round : ℚ → Double) (numberLimit : Nat) : Lexicon where
  blank s := ∀ c ∈ s, c = chr ' ' ∨ c = chr '\t' ∨ c = chr '\n' ∨ c = chr '\r'
  number text d := ∃ n : Numeral, n.Strict ∧ text = n.text ∧ text.length ≤ numberLimit
    ∧ d = round n.value
  string body value := ∃ chars, StringText body chars ∧ value = ofBytes (Utf8.encode chars)

/-- A JSON text: a value with blanks around it. -/
def JsonText (L : Lexicon) (room : Nat) (text : CString) (value : Json) : Prop :=
  Padded L.blank (ValueText L room) text value

end CText
