import Mathlib.Data.List.Infix

/-!
# `Cacher.Lib.Utf8`: reading bytes as UTF-8 text

A reader that must not fail replaces what is no UTF-8 by U+FFFD, one for each longest part that
could begin a character. `segments` is this reading with the bytes kept, and `decode` is its text.

What is read from behind a boundary does not depend on what stands before it: `decode_append` cuts
the text in front of any byte that can begin a character. `decode_encode` is the round trip, and
`exists_suffix_of_decode` goes back from an end of the text to an end of the bytes.
-/

set_option autoImplicit false

namespace Utf8

/-- The bytes of a text. -/
def encode (s : List Char) : List UInt8 := s.flatMap String.utf8EncodeChar

/-- The character that the bytes begin with. -/
def next? (v : List UInt8) : Option Char := v.toByteArray.utf8DecodeChar? 0

/-- Any byte of a character but its first. -/
def isTail (b : UInt8) : Bool := 0x80 ≤ b && b ≤ 0xBF

/-- The second byte may follow the first one in a character of at least three bytes. -/
def mayFollow (first second : UInt8) : Bool :=
  if first = 0xE0 then 0xA0 ≤ second && second ≤ 0xBF
  else if first = 0xED then 0x80 ≤ second && second ≤ 0x9F
  else if first = 0xF0 then 0x90 ≤ second && second ≤ 0xBF
  else if first = 0xF4 then 0x80 ≤ second && second ≤ 0x8F
  else 0xE1 ≤ first && first ≤ 0xF3 && isTail second

/-- How many bytes one replacement character stands for, where no character begins. -/
def badLength : List UInt8 → Nat
  | b₀ :: b₁ :: rest =>
    if mayFollow b₀ b₁ then
      if 0xF0 ≤ b₀ ∧ (rest.head?.map isTail).getD false then 3 else 2
    else 1
  | _ => 1

/-- A part of the bytes as they are read. -/
inductive Segment where
  | char (c : Char)
  /-- No character begins here. -/
  | bad (bytes : List UInt8)

/-- The character that a part gives. -/
def Segment.text : Segment → Char
  | .char c => c
  | .bad _ => Char.ofNat 0xFFFD

/-- The bytes of a part. -/
def Segment.bytes : Segment → List UInt8
  | .char c => String.utf8EncodeChar c
  | .bad bytes => bytes

/-- Reads on behind `skip` bytes. -/
def segmentsFrom : (skip : Nat) → List UInt8 → List Segment
  | _, [] => []
  | skip + 1, _ :: v => segmentsFrom skip v
  | 0, b :: v =>
    match next? (b :: v) with
    | some c => .char c :: segmentsFrom (c.utf8Size - 1) v
    | none => .bad ((b :: v).take (badLength (b :: v))) :: segmentsFrom (badLength (b :: v) - 1) v

/-- The parts that the bytes are read in. -/
def segments (v : List UInt8) : List Segment := segmentsFrom 0 v

/-- The text that the bytes are read as. -/
def decode (v : List UInt8) : List Char := (segments v).map Segment.text

/-- The bytes are the bytes of some text. -/
def IsUtf8 (v : List UInt8) : Prop := ∃ s, v = encode s

@[simp] theorem encode_nil : encode [] = [] := rfl

@[simp] theorem encode_cons (c : Char) (s : List Char) :
    encode (c :: s) = String.utf8EncodeChar c ++ encode s := rfl

theorem encode_append (s t : List Char) : encode (s ++ t) = encode s ++ encode t :=
  List.flatMap_append

/-! ### One character -/

theorem next?_eq_some {v : List UInt8} {c : Char} :
    next? v = some c ↔ ∃ rest, v = String.utf8EncodeChar c ++ rest := by
  constructor
  · intro h
    obtain ⟨l, hl⟩ := ByteArray.exists_of_utf8DecodeChar?_eq_some h
    refine ⟨l.data.toList, List.toByteArray_inj.mp ?_⟩
    rw [hl, List.toByteArray_append]
    congr 1
    ext1
    simp
  · rintro ⟨rest, rfl⟩
    rw [next?, List.toByteArray_append]
    exact ByteArray.utf8DecodeChar?_utf8EncodeChar_append

theorem exists_cons_utf8EncodeChar (c : Char) :
    ∃ b bs, String.utf8EncodeChar c = b :: bs ∧ b.IsUTF8FirstByte
      ∧ ∀ x ∈ bs, ¬ x.IsUTF8FirstByte := by
  have hlen : 0 < (String.utf8EncodeChar c).length := by
    rw [String.length_utf8EncodeChar]
    exact c.utf8Size_pos
  obtain ⟨b, bs, hbs⟩ := List.exists_cons_of_length_pos hlen
  refine ⟨b, bs, hbs, ?_, fun x hx => ?_⟩
  · have hfirst := UInt8.isUTF8FirstByte_getElem_zero_utf8EncodeChar (c := c)
    simpa only [hbs, List.getElem_cons_zero] using hfirst
  · obtain ⟨i, hi, rfl⟩ := List.mem_iff_getElem.mp hx
    have hi' : i + 1 < (String.utf8EncodeChar c).length := by
      rw [hbs]
      exact Nat.succ_lt_succ hi
    have htail : (String.utf8EncodeChar c)[i + 1].IsUTF8FirstByte ↔ i + 1 = 0 :=
      UInt8.isUTF8FirstByte_getElem_utf8EncodeChar
    simp only [hbs, List.getElem_cons_succ] at htail
    rw [htail]
    omega

theorem not_isTail_of_first {b : UInt8} (h : b.IsUTF8FirstByte) : isTail b = false := by
  have hall : ∀ n < 256, (UInt8.ofNat n).IsUTF8FirstByte → isTail (UInt8.ofNat n) = false := by
    decide +kernel
  have hb := hall b.toNat b.toNat_lt
  rw [UInt8.ofNat_toNat] at hb
  exact hb h

theorem isTail_of_mayFollow {b₀ b₁ : UInt8} (h : mayFollow b₀ b₁ = true) : isTail b₁ = true := by
  have hrange : ∀ lo hi : UInt8, 0x80 ≤ lo → hi ≤ 0xBF → (lo ≤ b₁ && b₁ ≤ hi) = true →
      isTail b₁ = true := by
    intro lo hi hlo hhi hb
    rw [isTail, Bool.and_eq_true, decide_eq_true_iff, decide_eq_true_iff]
    rw [Bool.and_eq_true, decide_eq_true_iff, decide_eq_true_iff] at hb
    exact ⟨UInt8.le_trans hlo hb.1, UInt8.le_trans hb.2 hhi⟩
  unfold mayFollow at h
  split at h
  · exact hrange _ _ (by decide) (by decide) h
  split at h
  · exact hrange _ _ (by decide) (by decide) h
  split at h
  · exact hrange _ _ (by decide) (by decide) h
  split at h
  · exact hrange _ _ (by decide) (by decide) h
  · exact (Bool.and_eq_true_iff.mp h).2

/-! ### What cannot be read -/

theorem badLength_pos (v : List UInt8) : 0 < badLength v := by
  unfold badLength
  split
  · split
    · split <;> decide
    · decide
  · decide

theorem badLength_le (b : UInt8) (v : List UInt8) : badLength (b :: v) ≤ (b :: v).length := by
  cases v with
  | nil => exact Nat.le_refl 1
  | cons b₁ rest =>
      rw [badLength]
      split
      · split
        · rename_i h
          cases rest with
          | nil => exact absurd h.2 (by decide)
          | cons b₂ rest => simp
        · simp
      · simp

/-- The bytes begin a character, or there are none. -/
def Boundary (v : List UInt8) : Prop := ∀ b, v.head? = some b → b.IsUTF8FirstByte

theorem boundary_nil : Boundary [] := fun _ h => by cases h

theorem boundary_cons {b : UInt8} (h : b.IsUTF8FirstByte) (v : List UInt8) : Boundary (b :: v) := by
  intro x hx
  cases hx
  exact h

theorem boundary_char (c : Char) (v : List UInt8) : Boundary (String.utf8EncodeChar c ++ v) := by
  obtain ⟨b, bs, hbs, hfirst, -⟩ := exists_cons_utf8EncodeChar c
  rw [hbs]
  exact boundary_cons hfirst _

theorem Boundary.head_not_isTail {v : List UInt8} (h : Boundary v) :
    (v.head?.map isTail).getD false = false := by
  cases hv : v.head? with
  | none => rfl
  | some b => exact not_isTail_of_first (h b hv)

/-- What begins a character ends what cannot be read. -/
theorem badLength_append {b : UInt8} {a v : List UInt8} (hv : Boundary v) :
    badLength (b :: a ++ v) = badLength (b :: a) := by
  cases a with
  | nil =>
      cases v with
      | nil => rfl
      | cons b₁ rest =>
          have hno : mayFollow b b₁ = false := by
            rw [← Bool.not_eq_true]
            intro h
            have htail := isTail_of_mayFollow h
            rw [not_isTail_of_first (hv b₁ rfl)] at htail
            cases htail
          show badLength (b :: b₁ :: rest) = 1
          rw [badLength, hno, if_neg Bool.false_ne_true]
  | cons b₁ rest =>
      cases rest with
      | nil =>
          show badLength (b :: b₁ :: v) = badLength [b, b₁]
          rw [badLength, badLength, hv.head_not_isTail]
          rfl
      | cons b₂ rest => rfl

/-! ### Reading on -/

theorem segmentsFrom_eq (skip : Nat) (v : List UInt8) :
    segmentsFrom skip v = segments (v.drop skip) := by
  induction skip generalizing v with
  | zero => rfl
  | succ skip ih =>
      cases v with
      | nil => rfl
      | cons b v => exact ih v

@[simp] theorem segments_nil : segments [] = [] := rfl

theorem segments_char (c : Char) (v : List UInt8) :
    segments (String.utf8EncodeChar c ++ v) = .char c :: segments v := by
  have hnext : next? (String.utf8EncodeChar c ++ v) = some c := next?_eq_some.mpr ⟨v, rfl⟩
  obtain ⟨b, bs, hbs, -⟩ := exists_cons_utf8EncodeChar c
  have hlen : c.utf8Size - 1 = bs.length := by
    rw [← String.length_utf8EncodeChar, hbs]
    rfl
  rw [hbs, List.cons_append] at hnext ⊢
  rw [segments, segmentsFrom, hnext]
  dsimp only
  rw [segmentsFrom_eq, hlen, List.drop_left]

theorem segments_bad {b : UInt8} {v : List UInt8} (h : next? (b :: v) = none) :
    segments (b :: v) = .bad ((b :: v).take (badLength (b :: v)))
      :: segments ((b :: v).drop (badLength (b :: v))) := by
  have hpos : badLength (b :: v) = badLength (b :: v) - 1 + 1 :=
    (Nat.sub_add_cancel (badLength_pos _)).symm
  conv_rhs => rw [hpos, List.drop_succ_cons, ← hpos]
  rw [segments, segmentsFrom, h]
  dsimp only
  rw [segmentsFrom_eq]

/-- Reading goes on behind every part. -/
theorem segments_induction {P : List UInt8 → Prop} (hnil : P [])
    (hchar : ∀ c v, P v → P (String.utf8EncodeChar c ++ v))
    (hbad : ∀ b v, next? (b :: v) = none → P ((b :: v).drop (badLength (b :: v))) → P (b :: v))
    (v : List UInt8) : P v := by
  induction hlen : v.length using Nat.strong_induction_on generalizing v with
  | _ n ih =>
      cases v with
      | nil => exact hnil
      | cons b v =>
          cases hnext : next? (b :: v) with
          | some c =>
              obtain ⟨rest, hrest⟩ := next?_eq_some.mp hnext
              have hlt : rest.length < n := by
                rw [← hlen, hrest, List.length_append, String.length_utf8EncodeChar]
                have hpos := c.utf8Size_pos
                omega
              rw [hrest]
              exact hchar c rest (ih _ hlt rest rfl)
          | none =>
              have hlt : ((b :: v).drop (badLength (b :: v))).length < n := by
                rw [← hlen, List.length_drop]
                have hpos := badLength_pos (b :: v)
                have hcons : 0 < (b :: v).length := Nat.succ_pos _
                omega
              exact hbad b v hnext (ih _ hlt _ rfl)

/-- The parts hold all the bytes. -/
theorem bytes_segments (v : List UInt8) : (segments v).flatMap Segment.bytes = v := by
  induction v using segments_induction with
  | hnil => rfl
  | hchar c v ih =>
      rw [segments_char, List.flatMap_cons, ih]
      rfl
  | hbad b v hnext ih =>
      rw [segments_bad hnext, List.flatMap_cons, ih]
      exact List.take_append_drop _ _

/-- What is read behind a boundary does not depend on what stands before it. -/
theorem segments_append (a : List UInt8) {v : List UInt8} (hv : Boundary v) :
    segments (a ++ v) = segments a ++ segments v := by
  induction a using segments_induction with
  | hnil => rfl
  | hchar c a ih => rw [List.append_assoc, segments_char, segments_char, ih, List.cons_append]
  | hbad b a hnext ih =>
      have hnext' : next? (b :: (a ++ v)) = none := by
        cases h : next? (b :: (a ++ v)) with
        | none => rfl
        | some c =>
            -- The character ends in `a`, or it reaches over the boundary.
            obtain ⟨rest, hrest⟩ := next?_eq_some.mp h
            have hsplit : (b :: a) ++ v = String.utf8EncodeChar c ++ rest := hrest
            rcases List.append_eq_append_iff.mp hsplit with ⟨extra, hchar, hv'⟩ | ⟨a', ha, -⟩
            · obtain ⟨b', bs, hbs, -, htail⟩ := exists_cons_utf8EncodeChar c
              cases extra with
              | nil =>
                  have hsome : next? (b :: a) = some c :=
                    next?_eq_some.mpr ⟨[], by rw [hchar, List.append_nil, List.append_nil]⟩
                  rw [hnext] at hsome
                  cases hsome
              | cons x extra =>
                  rw [hbs, List.cons_append] at hchar
                  have hx : x ∈ bs := by simp [(List.cons.inj hchar).2]
                  exact absurd (hv x (by rw [hv']; rfl)) (htail x hx)
            · have hsome : next? (b :: a) = some c := next?_eq_some.mpr ⟨a', ha⟩
              rw [hnext] at hsome
              cases hsome
      have hle := badLength_le b a
      have hlen : badLength (b :: (a ++ v)) = badLength (b :: a) := badLength_append hv
      rw [List.cons_append, segments_bad hnext', segments_bad hnext, hlen, List.cons_append, ← ih,
        ← List.cons_append, List.take_append_of_le_length hle, List.drop_append_of_le_length hle]

theorem decode_append (a : List UInt8) {v : List UInt8} (hv : Boundary v) :
    decode (a ++ v) = decode a ++ decode v := by
  rw [decode, segments_append a hv, List.map_append]
  rfl

@[simp] theorem decode_char (c : Char) (v : List UInt8) :
    decode (String.utf8EncodeChar c ++ v) = c :: decode v := by
  rw [decode, segments_char]
  rfl

@[simp] theorem decode_nil : decode [] = [] := rfl

theorem decode_encode_append (s : List Char) (v : List UInt8) :
    decode (encode s ++ v) = s ++ decode v := by
  induction s with
  | nil => rfl
  | cons c s ih => rw [encode_cons, List.append_assoc, decode_char, ih, List.cons_append]

/-- A text is read back as it was written. -/
theorem decode_encode (s : List Char) : decode (encode s) = s := by
  have h := decode_encode_append s []
  rwa [List.append_nil, decode_nil, List.append_nil] at h

theorem encode_inj {s t : List Char} (h : encode s = encode t) : s = t := by
  rw [← decode_encode s, h, decode_encode]

theorem decode_eq_nil {v : List UInt8} : decode v = [] ↔ v = [] := by
  constructor
  · intro h
    have hbytes := bytes_segments v
    rw [List.map_eq_nil_iff.mp h] at hbytes
    exact hbytes.symm
  · rintro rfl
    rfl

/-! ### Valid bytes -/

theorem segments_encode (s : List Char) : segments (encode s) = s.map Segment.char := by
  induction s with
  | nil => rfl
  | cons c s ih => rw [encode_cons, segments_char, ih, List.map_cons]

theorem isUtf8_iff {v : List UInt8} : IsUtf8 v ↔ ∃ s : List Char, segments v = s.map Segment.char := by
  constructor
  · rintro ⟨s, rfl⟩
    exact ⟨s, segments_encode s⟩
  · rintro ⟨s, hs⟩
    refine ⟨s, ?_⟩
    rw [← bytes_segments v, hs, List.flatMap_map]
    rfl

/-- Parts at the end are those of bytes at the end. -/
theorem exists_suffix_of_segments {v : List UInt8} {x y : List Segment} (h : segments v = x ++ y) :
    ∃ b, b <:+ v ∧ segments b = y := by
  induction v using segments_induction generalizing x with
  | hnil => exact ⟨[], List.suffix_rfl, (List.append_eq_nil_iff.mp h.symm).2.symm⟩
  | hchar c v ih =>
      cases x with
      | nil => exact ⟨_, List.suffix_rfl, h⟩
      | cons s x =>
          rw [segments_char, List.cons_append] at h
          obtain ⟨b, hb, hy⟩ := ih (List.cons.inj h).2
          exact ⟨b, hb.trans (List.suffix_append _ _), hy⟩
  | hbad b₀ v hnext ih =>
      cases x with
      | nil => exact ⟨_, List.suffix_rfl, h⟩
      | cons s x =>
          rw [segments_bad hnext, List.cons_append] at h
          obtain ⟨b, hb, hy⟩ := ih (List.cons.inj h).2
          exact ⟨b, hb.trans (List.drop_suffix _ _), hy⟩

/-- An end of the text is the text of an end of the bytes. -/
theorem exists_suffix_of_decode {v : List UInt8} {x y : List Char} (h : decode v = x ++ y) :
    ∃ b, b <:+ v ∧ decode b = y ∧ (IsUtf8 v → IsUtf8 b) := by
  obtain ⟨sx, sy, hs, -, hy⟩ := List.map_eq_append_iff.mp h
  obtain ⟨b, hb, hsy⟩ := exists_suffix_of_segments hs
  refine ⟨b, hb, by rw [decode, hsy, hy], fun hvalid => ?_⟩
  obtain ⟨s, hs'⟩ := isUtf8_iff.mp hvalid
  rw [hs', ← hsy] at hs
  obtain ⟨s₁, s₂, -, -, hs₂⟩ := List.map_eq_append_iff.mp hs
  exact isUtf8_iff.mpr ⟨s₂, hs₂.symm⟩

/-- What stands behind a boundary in valid bytes is valid. -/
theorem IsUtf8.of_append {a v : List UInt8} (h : IsUtf8 (a ++ v)) (hv : Boundary v) : IsUtf8 v := by
  obtain ⟨s, hs⟩ := isUtf8_iff.mp h
  rw [segments_append a hv] at hs
  obtain ⟨s₁, s₂, -, -, hs₂⟩ := List.map_eq_append_iff.mp hs.symm
  exact isUtf8_iff.mpr ⟨s₂, hs₂.symm⟩

/-- A character of the text, when it is no replacement, stands in the bytes. -/
theorem exists_of_decode_cons {v : List UInt8} {c : Char} {s : List Char} (h : decode v = c :: s)
    (hc : c ≠ Char.ofNat 0xFFFD ∨ IsUtf8 v) :
    ∃ v', v = String.utf8EncodeChar c ++ v' ∧ decode v' = s := by
  cases v with
  | nil => cases h
  | cons b v =>
      cases hnext : next? (b :: v) with
      | some c' =>
          obtain ⟨rest, hrest⟩ := next?_eq_some.mp hnext
          rw [hrest, decode_char] at h
          obtain ⟨rfl, rfl⟩ := List.cons.inj h
          exact ⟨rest, hrest, rfl⟩
      | none =>
          rcases hc with hne | ⟨t, ht⟩
          · rw [decode, segments_bad hnext, List.map_cons] at h
            exact absurd (List.cons.inj h).1.symm hne
          · cases t with
            | nil => cases ht
            | cons d t =>
                have hsome : next? (b :: v) = some d := next?_eq_some.mpr ⟨encode t, ht⟩
                rw [hnext] at hsome
                cases hsome

theorem IsUtf8.of_char {c : Char} {v : List UInt8} (h : IsUtf8 (String.utf8EncodeChar c ++ v)) :
    IsUtf8 v := by
  obtain ⟨s, hs⟩ := isUtf8_iff.mp h
  rw [segments_char] at hs
  cases s with
  | nil => cases hs
  | cons d s => exact isUtf8_iff.mpr ⟨s, (List.cons.inj hs).2⟩

/-! ### ASCII -/

theorem utf8EncodeChar_of_lt {c : Char} (h : c.toNat < 128) :
    String.utf8EncodeChar c = [UInt8.ofNat c.toNat] := by
  have hle : c.toNat ≤ 127 := Nat.le_of_lt_succ h
  rw [String.utf8EncodeChar]
  exact if_pos hle

/-- An ASCII byte belongs to no other character than its own. -/
theorem eq_of_mem_utf8EncodeChar {c d : Char} (hd : d.toNat < 128)
    (h : UInt8.ofNat d.toNat ∈ String.utf8EncodeChar c) : c = d := by
  obtain ⟨b, bs, hbs, hfirst, htail⟩ := exists_cons_utf8EncodeChar c
  obtain ⟨b', bs', hbs', hfirst', -⟩ := exists_cons_utf8EncodeChar d
  rw [utf8EncodeChar_of_lt hd] at hbs'
  obtain ⟨rfl, -⟩ := List.cons.inj hbs'
  rw [hbs] at h
  rcases List.mem_cons.mp h with rfl | hmem
  · have hc : next? (String.utf8EncodeChar c) = some c :=
      next?_eq_some.mpr ⟨[], (List.append_nil _).symm⟩
    have hd' : next? (String.utf8EncodeChar c) = some d :=
      next?_eq_some.mpr ⟨bs, by rw [hbs, utf8EncodeChar_of_lt hd]; rfl⟩
    rw [hc] at hd'
    exact Option.some.inj hd'
  · exact absurd hfirst' (htail _ hmem)

theorem toNat_ofNat_of_lt {n : Nat} (h : n < 128) : (Char.ofNat n).toNat = n := by
  have hvalid : n.isValidChar := Or.inl (by omega)
  rw [Char.ofNat, dif_pos hvalid]
  rfl

theorem utf8EncodeChar_ofNat {b : UInt8} (hb : b.toNat < 128) :
    String.utf8EncodeChar (Char.ofNat b.toNat) = [b] := by
  have hvalid : (Char.ofNat b.toNat).toNat = b.toNat := toNat_ofNat_of_lt hb
  rw [utf8EncodeChar_of_lt (by rw [hvalid]; exact hb), hvalid, UInt8.ofNat_toNat]

/-- An ASCII byte is read as its character. -/
theorem decode_cons_of_lt {b : UInt8} (hb : b.toNat < 128) (v : List UInt8) :
    decode (b :: v) = Char.ofNat b.toNat :: decode v := by
  have h := decode_char (Char.ofNat b.toNat) v
  rwa [utf8EncodeChar_ofNat hb] at h

theorem encode_map_ofNat {v : List UInt8} (h : ∀ b ∈ v, b.toNat < 128) :
    encode (v.map fun b => Char.ofNat b.toNat) = v := by
  induction v with
  | nil => rfl
  | cons b v ih =>
      rw [List.map_cons, encode_cons, utf8EncodeChar_ofNat (h b List.mem_cons_self),
        ih fun x hx => h x (List.mem_cons_of_mem _ hx)]
      rfl

theorem isUtf8_of_lt {v : List UInt8} (h : ∀ b ∈ v, b.toNat < 128) : IsUtf8 v :=
  ⟨_, (encode_map_ofNat h).symm⟩

theorem decode_of_lt {v : List UInt8} (h : ∀ b ∈ v, b.toNat < 128) :
    decode v = v.map fun b => Char.ofNat b.toNat := by
  conv_lhs => rw [← encode_map_ofNat h]
  exact decode_encode _

theorem boundary_of_lt {b : UInt8} (hb : b.toNat < 128) (v : List UInt8) : Boundary (b :: v) := by
  have hall : ∀ n < 128, (UInt8.ofNat n).IsUTF8FirstByte := by decide +kernel
  have hfirst := hall b.toNat hb
  rw [UInt8.ofNat_toNat] at hfirst
  exact boundary_cons hfirst v

/-- ASCII in front of a text is read on its own. -/
theorem decode_append_of_lt {a : List UInt8} (ha : ∀ b ∈ a, b.toNat < 128) (v : List UInt8) :
    decode (a ++ v) = decode a ++ decode v := by
  induction a with
  | nil => rfl
  | cons b a ih =>
      have hb := ha b List.mem_cons_self
      rw [List.cons_append, decode_cons_of_lt hb, decode_cons_of_lt hb,
        ih fun x hx => ha x (List.mem_cons_of_mem _ hx)]
      rfl

/-- An ASCII character of the text is a byte. -/
theorem mem_of_mem_decode {c : Char} (hc : c.toNat < 128) {v : List UInt8} (h : c ∈ decode v) :
    UInt8.ofNat c.toNat ∈ v := by
  obtain ⟨x, y, hsplit⟩ := List.mem_iff_append.mp h
  obtain ⟨b, hb, hread, -⟩ := exists_suffix_of_decode hsplit
  have hne : c ≠ Char.ofNat 0xFFFD := by
    rintro rfl
    revert hc
    decide
  obtain ⟨b', rfl, -⟩ := exists_of_decode_cons hread (Or.inl hne)
  rw [utf8EncodeChar_of_lt hc] at hb
  exact hb.subset List.mem_cons_self

/-- Two ASCII characters that are neighbours in the text are so in the bytes. -/
theorem infix_of_decode {c d : Char} (hc : c.toNat < 128) (hd : d.toNat < 128) {v : List UInt8}
    (h : [c, d] <:+: decode v) : [UInt8.ofNat c.toNat, UInt8.ofNat d.toNat] <:+: v := by
  have hne : ∀ {x : Char}, x.toNat < 128 → x ≠ Char.ofNat 0xFFFD := by
    rintro x hx rfl
    revert hx
    decide
  obtain ⟨x, y, hsplit⟩ := h
  rw [List.append_assoc] at hsplit
  obtain ⟨b, hb, hread, -⟩ := exists_suffix_of_decode hsplit.symm
  obtain ⟨b', rfl, hread'⟩ := exists_of_decode_cons hread (Or.inl (hne hc))
  obtain ⟨b'', rfl, -⟩ := exists_of_decode_cons hread' (Or.inl (hne hd))
  rw [utf8EncodeChar_of_lt hc, utf8EncodeChar_of_lt hd] at hb
  exact (List.prefix_append [_, _] b'').isInfix.trans hb.isInfix

/-- An ASCII byte of a text is one of its characters. -/
theorem mem_of_mem_encode {c : Char} (hc : c.toNat < 128) {s : List Char}
    (h : UInt8.ofNat c.toNat ∈ encode s) : c ∈ s := by
  obtain ⟨d, hd, hbyte⟩ := List.mem_flatMap.mp h
  exact eq_of_mem_utf8EncodeChar hc hbyte ▸ hd

end Utf8
