import Mathlib.Data.List.TakeWhile

/-!
# `Cacher.Lib.CString`: C strings and the string calls of libc and APR

A C string is a list of bytes none of which is NUL. `CChar` carries that fact as a
field, so a string with an embedded terminator cannot be built. A file holds plain
bytes. `ofBytes` reads a buffer as a C string, up to its first NUL, and `toBytes`
writes a string out. `ofBytes_toBytes` is the round trip. `CArray` is the array that a
`char *` points into, for the code that walks along it.

The calls modelled here are the ones a line-oriented text format needs: a prefix
test that returns the rest (`strncmp` followed by pointer arithmetic), the first
occurrence of a pattern (`strstr`, `strchr`), and `apr_strtok`. `tokens_eq_strtok`
states that `tokens` is what a loop over `apr_strtok` visits.
-/

set_option autoImplicit false

namespace CText

/-- A character of a C string: any byte except the terminator. -/
abbrev CChar := {b : UInt8 // b ≠ 0}

/-- A C string without its terminating NUL. -/
abbrev CString := List CChar

/-- A C character constant. -/
def chr (c : Char) : CChar :=
  if h : c.toNat.toUInt8 ≠ 0 then ⟨c.toNat.toUInt8, h⟩ else ⟨1, by decide⟩

/-- A C string literal. -/
def lit (s : String) : CString := s.toList.map chr

/-- The bytes a string occupies in a file. -/
def toBytes (s : CString) : List UInt8 := s.map (·.val)

/-- A buffer read as a C string: everything before the first NUL. -/
def ofBytes : List UInt8 → CString
  | [] => []
  | b :: bs => if h : b ≠ 0 then ⟨b, h⟩ :: ofBytes bs else []

/-- A string written to a file and read back is the same string. -/
@[simp] theorem ofBytes_toBytes (s : CString) : ofBytes (toBytes s) = s := by
  induction s with
  | nil => rfl
  | cons c s ih =>
      show ofBytes (c.val :: toBytes s) = c :: s
      rw [ofBytes, dif_pos c.property, ih]

/-! ### Arrays -/

/-- An array of `char` that holds a C string: there is a NUL in it, and behind the first one
there may be anything. -/
structure CArray where
  bytes : List UInt8
  /-- The string is terminated. -/
  nul_mem : 0 ∈ bytes

/-- The string in front of the first NUL. -/
def CArray.text (a : CArray) : CString := ofBytes a.bytes

/-- The offset of the first NUL (`strlen`). -/
def CArray.strlen (a : CArray) : Nat := a.text.length

/-- The character at an offset. Outside of the array there is none. -/
def CArray.read (a : CArray) (i : Nat) : Option UInt8 := a.bytes[i]?

/-- Up to its first NUL, an array holds the characters of the string and then the NUL. -/
theorem CArray.read_of_le {a : CArray} {i : Nat} (h : i ≤ a.strlen) :
    a.read i = some ((a.text.drop i).head?.elim 0 (·.val)) := by
  obtain ⟨bytes, hnul⟩ := a
  simp only [strlen, text, read] at h ⊢
  induction bytes generalizing i with
  | nil => cases hnul
  | cons b bytes ih =>
      by_cases hb : b = 0
      · subst hb
        obtain rfl : i = 0 := Nat.le_zero.mp h
        rfl
      · rw [ofBytes, dif_pos hb] at h ⊢
        cases i with
        | zero => rfl
        | succ i =>
            have hmem : 0 ∈ bytes := (List.mem_cons.mp hnul).resolve_left (Ne.symm hb)
            exact ih hmem (Nat.le_of_succ_le_succ h)

theorem CArray.read_of_drop_nil {a : CArray} {i : Nat} (hi : i ≤ a.strlen)
    (h : a.text.drop i = []) : a.read i = some 0 := by
  rw [read_of_le hi, h]
  rfl

/-- Where the string goes on, the NUL is not reached. -/
theorem CArray.lt_strlen_of_drop {a : CArray} {i : Nat} {c : CChar} {rest : CString}
    (h : a.text.drop i = c :: rest) : i < a.strlen := by
  have hlen := congrArg List.length h
  rw [List.length_drop, List.length_cons] at hlen
  show i < a.text.length
  omega

theorem CArray.read_of_drop_cons {a : CArray} {i : Nat} {c : CChar} {rest : CString}
    (h : a.text.drop i = c :: rest) : a.read i = some c.val := by
  rw [read_of_le (Nat.le_of_lt (lt_strlen_of_drop h)), h]
  rfl

/-! ### Case -/

/-- `tolower` in the C locale. -/
def tolower (b : UInt8) : UInt8 := if 65 ≤ b ∧ b ≤ 90 then b + 32 else b

/-- A letter or a digit, as `isalnum` sees it in the C locale. -/
def isAlnum (c : CChar) : Bool :=
  (48 ≤ c.val && c.val ≤ 57) || (65 ≤ c.val && c.val ≤ 90) || (97 ≤ c.val && c.val ≤ 122)

/-- Equality up to ASCII case, the comparison of `strcasecmp`. -/
def eqCi (a b : CString) : Bool := a.map (tolower ·.val) == b.map (tolower ·.val)

@[simp] theorem eqCi_refl (a : CString) : eqCi a a = true := by simp [eqCi]

theorem eqCi_symm (a b : CString) : eqCi a b = eqCi b a := by
  simp only [eqCi]
  exact Bool.beq_comm

theorem eqCi_trans {a b c : CString} (hab : eqCi a b = true) (hbc : eqCi b c = true) :
    eqCi a c = true := by
  simp only [eqCi, beq_iff_eq] at hab hbc ⊢
  exact hab.trans hbc

/-- Names equal up to case are interchangeable on the left of `eqCi`. -/
theorem eqCi_congr_left {a b : CString} (h : eqCi a b = true) (c : CString) :
    eqCi a c = eqCi b c := by
  simp only [eqCi, beq_iff_eq] at h ⊢
  rw [h]

/-! ### Prefixes and first occurrences -/

section Search

variable {α : Type} [DecidableEq α]

/-- The rest of `s` after the prefix `p`: `strncmp (s, p, strlen p) == 0` and then
`s + strlen p`. -/
def stripPrefix : (p s : List α) → Option (List α)
  | [], s => some s
  | _ :: _, [] => none
  | x :: p, y :: s => if x = y then stripPrefix p s else none

@[simp] theorem stripPrefix_append (p s : List α) : stripPrefix p (p ++ s) = some s := by
  induction p with
  | nil => rfl
  | cons x p ih => simp [stripPrefix, ih]

/-- `stripPrefix` succeeds exactly on the strings that start with the prefix. -/
theorem stripPrefix_eq_some {p s rest : List α} :
    stripPrefix p s = some rest ↔ s = p ++ rest := by
  constructor
  · intro h
    induction p generalizing s with
    | nil => simpa [stripPrefix] using h
    | cons x p ih =>
        cases s with
        | nil => simp [stripPrefix] at h
        | cons y s =>
            rw [stripPrefix] at h
            split at h
            · rename_i hxy
              rw [hxy, List.cons_append, ih h]
            · cases h
  · rintro rfl
    exact stripPrefix_append p rest

/-- The text before and after the first occurrence of `p` (`strstr`, `strchr`). -/
def cutAt (p : List α) : List α → Option (List α × List α)
  | [] => (stripPrefix p []).map fun rest => ([], rest)
  | c :: s =>
    match stripPrefix p (c :: s) with
    | some rest => some ([], rest)
    | none => (cutAt p s).map fun cut => (c :: cut.1, cut.2)

/-- What `cutAt` returns surrounds one occurrence of the pattern. -/
theorem eq_append_of_cutAt {p s a b : List α} (h : cutAt p s = some (a, b)) :
    s = a ++ p ++ b := by
  induction s generalizing a with
  | nil =>
      simp only [cutAt, Option.map_eq_some_iff, Prod.mk.injEq] at h
      obtain ⟨rest, hrest, rfl, rfl⟩ := h
      simpa using stripPrefix_eq_some.mp hrest
  | cons c s ih =>
      rw [cutAt] at h
      split at h
      · rename_i rest hrest
        simp only [Option.some.injEq, Prod.mk.injEq] at h
        obtain ⟨rfl, rfl⟩ := h
        simpa using stripPrefix_eq_some.mp hrest
      · simp only [Option.map_eq_some_iff, Prod.mk.injEq] at h
        obtain ⟨cut, hcut, rfl, rfl⟩ := h
        rw [ih hcut]
        rfl

/-- `cutAt` finds the pattern wherever it occurs. -/
theorem isSome_cutAt {p s : List α} : (cutAt p s).isSome = true ↔ p <:+: s := by
  constructor
  · intro h
    obtain ⟨⟨a, b⟩, hcut⟩ := Option.isSome_iff_exists.mp h
    exact ⟨a, b, (eq_append_of_cutAt hcut).symm⟩
  · rintro ⟨a, b, rfl⟩
    induction a with
    | nil =>
        have hstrip : stripPrefix p (p ++ b) = some b := stripPrefix_eq_some.mpr rfl
        rw [List.nil_append]
        cases hs : p ++ b with
        | nil =>
            rw [hs] at hstrip
            simp [cutAt, hstrip]
        | cons c s =>
            rw [hs] at hstrip
            simp [cutAt, hstrip]
    | cons c a ih =>
        rw [List.cons_append, List.cons_append, cutAt]
        split
        · rfl
        · simpa using ih

omit [DecidableEq α] in
/-- A pattern does not occur in front of its first character. -/
theorem infix_append_of_notMem {x : α} {a : List α} (ha : x ∉ a) (p s : List α) :
    (x :: p) <:+: a ++ s ↔ (x :: p) <:+: s := by
  induction a with
  | nil => rfl
  | cons c a ih =>
      obtain ⟨hc, ha⟩ := not_or.mp (fun h => ha (List.mem_cons.mpr h))
      rw [List.cons_append, List.infix_cons_iff, ih ha]
      constructor
      · rintro (h | h)
        · exact absurd (List.cons_prefix_cons.mp h).1 hc
        · exact h
      · exact Or.inr

omit [DecidableEq α] in
/-- A pattern as long as the text behind the last occurrence of its first character can only
end the text there. -/
theorem infix_cons_iff_eq {x : α} {p s : List α} (hs : x ∉ s) (hlen : p.length = s.length) :
    (x :: p) <:+: x :: s ↔ p = s := by
  have hno : ¬ (x :: p) <:+: s := fun h => hs (h.subset List.mem_cons_self)
  rw [List.infix_cons_iff, List.cons_prefix_cons]
  constructor
  · rintro (⟨-, h⟩ | h)
    · exact h.eq_of_length hlen
    · exact absurd h hno
  · rintro rfl
    exact Or.inl ⟨rfl, List.prefix_rfl⟩

omit [DecidableEq α] in
/-- A pattern that starts with `x` ends a text where it ends what follows a part without `x`. -/
theorem suffix_append_of_notMem {x : α} {a : List α} (ha : x ∉ a) (p s : List α) :
    (x :: p) <:+ a ++ s ↔ (x :: p) <:+ s := by
  refine ⟨fun h => ?_, fun h => h.trans (List.suffix_append a s)⟩
  rcases List.suffix_or_suffix_of_suffix h (List.suffix_append a s) with h' | ⟨front, h'⟩
  · exact h'
  · cases front with
    | nil => exact ⟨[], h'.symm⟩
    | cons c front =>
        obtain ⟨rfl, -⟩ := List.cons_eq_cons.mp h'
        rw [← h', List.suffix_append_self_iff] at h
        exact absurd (h.subset List.mem_cons_self) ha

/-- Text after an occurrence does not move the first occurrence. -/
theorem cutAt_append {p s a b : List α} (h : cutAt p s = some (a, b)) (t : List α) :
    cutAt p (s ++ t) = some (a, b ++ t) := by
  induction s generalizing a with
  | nil =>
      -- Only the empty pattern occurs in the empty text.
      simp only [cutAt, Option.map_eq_some_iff, Prod.mk.injEq] at h
      obtain ⟨rest, hrest, rfl, rfl⟩ := h
      have hp : p = [] := by
        have := stripPrefix_eq_some.mp hrest
        simp_all
      subst hp
      have hrest' : rest = [] := by simpa [stripPrefix] using hrest.symm
      subst hrest'
      cases t <;> simp [cutAt, stripPrefix]
  | cons c s ih =>
      rw [cutAt] at h
      rw [List.cons_append, cutAt]
      split at h
      · rename_i rest hrest
        simp only [Option.some.injEq, Prod.mk.injEq] at h
        obtain ⟨rfl, rfl⟩ := h
        have hs : stripPrefix p (c :: (s ++ t)) = some (rest ++ t) := by
          rw [stripPrefix_eq_some, ← List.cons_append, stripPrefix_eq_some.mp hrest]
          simp
        rw [hs]
      · rename_i hnone
        simp only [Option.map_eq_some_iff, Prod.mk.injEq] at h
        obtain ⟨cut, hcut, rfl, rfl⟩ := h
        -- A match at the front of the longer text would have fitted the shorter one,
        -- because the shorter one still holds a whole occurrence.
        have hs : stripPrefix p (c :: (s ++ t)) = none := by
          rw [Option.eq_none_iff_forall_ne_some]
          intro rest hrest
          have hlen := congrArg List.length (eq_append_of_cutAt hcut)
          simp only [List.length_append] at hlen
          have hpre : p <+: c :: s := by
            have h1 : p <+: (c :: s) ++ t := ⟨rest, (stripPrefix_eq_some.mp hrest).symm⟩
            exact List.prefix_of_prefix_length_le h1 (List.prefix_append _ _)
              (by simp only [List.length_cons]; omega)
          obtain ⟨rest', hrest'⟩ := hpre
          rw [stripPrefix_eq_some.mpr hrest'.symm] at hnone
          cases hnone
        rw [hs, ih hcut]
        rfl

/-- No occurrence starts in a front that avoids the first character of the pattern. -/
theorem cutAt_append_left {x : α} {p a : List α} (ha : x ∉ a) (s : List α) :
    cutAt (x :: p) (a ++ s) = (cutAt (x :: p) s).map fun cut => (a ++ cut.1, cut.2) := by
  induction a with
  | nil => simp
  | cons y a ih =>
      rw [List.mem_cons, not_or] at ha
      rw [List.cons_append, cutAt, ih ha.2]
      simp [stripPrefix, ha.1, Function.comp_def]

/-- A single `x` is not an occurrence of the doubled character. -/
theorem cutAt_pair_cons {x c : α} (hc : c ≠ x) (s : List α) :
    cutAt [x, x] (x :: c :: s)
      = (cutAt [x, x] (c :: s)).map fun cut => (x :: cut.1, cut.2) := by
  rw [cutAt]
  simp [stripPrefix, Ne.symm hc]

/-- The first doubled character is not found any earlier. -/
theorem not_infix_of_cutAt_pair {x : α} {s a b : List α} (h : cutAt [x, x] s = some (a, b)) :
    ¬ [x, x] <:+: a ++ [x] := by
  intro hinfix
  obtain ⟨⟨a', b'⟩, hcut⟩ := Option.isSome_iff_exists.mp (isSome_cutAt.mpr hinfix)
  have heq : s = a ++ [x] ++ (x :: b) := by
    rw [eq_append_of_cutAt h]
    simp
  rw [heq, cutAt_append hcut] at h
  obtain ⟨-, hb⟩ := Prod.mk.inj (Option.some.inj h)
  have hlen := congrArg List.length hb
  simp only [List.length_append, List.length_cons] at hlen
  omega

/-- A doubled character is found where it occurs first. -/
theorem cutAt_pair_append {x : α} {a : List α} (h : ¬ [x, x] <:+: a ++ [x]) (b : List α) :
    cutAt [x, x] (a ++ x :: x :: b) = some (a, b) := by
  have hinfix : [x, x] <:+: a ++ x :: x :: b := ⟨a, b, by simp⟩
  obtain ⟨⟨a', b'⟩, hcut⟩ := Option.isSome_iff_exists.mp (isSome_cutAt.mpr hinfix)
  have hno := not_infix_of_cutAt_pair hcut
  have heq : a ++ ([x, x] ++ b) = a' ++ ([x, x] ++ b') := by
    rw [← List.append_assoc, ← List.append_assoc, ← eq_append_of_cutAt hcut]
    simp
  -- The shorter front leaves room for the pair in what the longer one begins with.
  have hshort : ∀ {f g s t : List α}, f ++ ([x, x] ++ s) = g ++ ([x, x] ++ t) →
      ¬ [x, x] <:+: g ++ [x] → g.length ≤ f.length := by
    intro f g s t heq hno
    by_contra hlt
    have hf : f ++ [x, x] <+: f ++ ([x, x] ++ s) := ⟨s, List.append_assoc _ _ _⟩
    have hg : g ++ [x] <+: f ++ ([x, x] ++ s) := heq ▸ ⟨x :: t, by simp⟩
    have hpre : f ++ [x, x] <+: g ++ [x] := by
      refine List.prefix_of_prefix_length_le hf hg ?_
      simp only [List.length_append, List.length_cons, List.length_nil]
      omega
    exact hno ((List.suffix_append f [x, x]).isInfix.trans hpre.isInfix)
  have hlen : a.length = a'.length := Nat.le_antisymm (hshort heq.symm h) (hshort heq hno)
  obtain ⟨rfl, htail⟩ := List.append_inj heq hlen
  rw [hcut, List.append_cancel_left htail]

/-- A text that is cut off behind `n` characters, in front of a doubled character: what stands
there is cut off, too, and the first of the two characters may stand behind it. -/
theorem cutAt_pair_take {x : α} {a : List α} (h : ¬ [x, x] <:+: a ++ [x]) (b : List α) (n : Nat) :
    ((cutAt [x, x] ((a ++ x :: x :: b).take n)).map (·.1)).getD ((a ++ x :: x :: b).take n)
        = a.take n
      ∨ ((cutAt [x, x] ((a ++ x :: x :: b).take n)).map (·.1)).getD ((a ++ x :: x :: b).take n)
        = a.take n ++ [x] := by
  have hnone : ∀ {s : List α}, s <+: a ++ [x] → cutAt [x, x] s = none := by
    intro s hs
    rw [← Option.not_isSome_iff_eq_none, isSome_cutAt]
    exact fun hmem => h (hmem.trans hs.isInfix)
  rcases Nat.lt_trichotomy n (a.length + 1) with hn | rfl | hn
  · have htake : (a ++ x :: x :: b).take n = a.take n :=
      List.take_append_of_le_length (Nat.le_of_lt_succ hn)
    rw [htake, hnone ((List.take_prefix n a).trans (List.prefix_append a [x]))]
    exact Or.inl rfl
  · have htake : (a ++ x :: x :: b).take (a.length + 1) = a ++ [x] := by
      rw [List.take_length_add_append]
      rfl
    rw [htake, hnone List.prefix_rfl, List.take_of_length_le (Nat.le_succ _)]
    exact Or.inr rfl
  · obtain ⟨m, rfl⟩ := Nat.exists_eq_add_of_lt hn
    have htake : (a ++ x :: x :: b).take (a.length + 1 + m + 1) = a ++ x :: x :: b.take m := by
      rw [Nat.add_assoc, Nat.add_assoc, List.take_length_add_append,
        show 1 + (m + 1) = m + 2 by omega]
      rfl
    have hfull : a.take (a.length + 1 + m + 1) = a := List.take_of_length_le (by omega)
    rw [htake, cutAt_pair_append h, hfull]
    exact Or.inl rfl

/-- The first occurrence of a single character, in a string whose front avoids it. -/
theorem cutAt_singleton_append {c : α} {a : List α} (ha : c ∉ a) (b : List α) :
    cutAt [c] (a ++ c :: b) = some (a, b) := by
  induction a with
  | nil => simp [cutAt, stripPrefix]
  | cons x a ih =>
      rw [List.mem_cons, not_or] at ha
      rw [List.cons_append, cutAt]
      simp [stripPrefix, ha.1, ih ha.2]

/-- A field at the end of a text, introduced by a fixed tag that starts with a
separator, is determined by the text when the field avoids the separator. The text in
front of it and the tag may hold the separator freely. -/
theorem append_tag_inj {x : α} {tag a b v w : List α} (hv : x ∉ v) (hw : x ∉ w)
    (h : a ++ (x :: tag) ++ v = b ++ (x :: tag) ++ w) : a = b ∧ v = w := by
  -- With fields of different lengths the tag would sit at two places, and the place
  -- further left would hold one separator less.
  have key : ∀ {a b v w : List α}, x ∉ w → a ++ (x :: tag) ++ v = b ++ (x :: tag) ++ w →
      w.length ≤ v.length := by
    intro a b v w hw h
    by_contra hlt
    obtain ⟨y, hy⟩ : ∃ y, w = y ++ v := by
      have hsuf : v <:+ b ++ (x :: tag) ++ w := ⟨_, h⟩
      obtain ⟨y, hy⟩ := List.suffix_of_suffix_length_le hsuf (List.suffix_append _ _) (by omega)
      exact ⟨y, hy.symm⟩
    have hypos : 0 < y.length := by
      rw [hy, List.length_append] at hlt
      omega
    have hyx : x ∉ y := fun hx => hw (by rw [hy]; exact List.mem_append_left _ hx)
    rw [hy, ← List.append_assoc, List.append_left_inj, List.append_assoc b,
      ← List.take_append_drop y.length ((x :: tag) ++ y), ← List.append_assoc] at h
    have htag := (List.append_inj' h (by
      simp only [List.length_drop, List.length_append, List.length_cons]
      omega)).2
    -- Count the separators on both sides of the shifted tag.
    have hcount := congrArg (List.count x)
      (List.take_append_drop y.length ((x :: tag) ++ y))
    have hsplit : List.count x ((x :: tag) ++ y) = List.count x (x :: tag) := by
      rw [List.count_append, List.count_eq_zero_of_not_mem hyx, Nat.add_zero]
    rw [List.count_append, ← htag, hsplit] at hcount
    have hmem : x ∈ ((x :: tag) ++ y).take y.length := by
      obtain ⟨n, hn⟩ := Nat.exists_eq_succ_of_ne_zero (Nat.pos_iff_ne_zero.mp hypos)
      rw [hn]
      simp
    have := List.count_pos_iff.mpr hmem
    omega
  have hlen : v.length = w.length := Nat.le_antisymm (key hv h.symm) (key hw h)
  obtain ⟨hfront, hfield⟩ := List.append_inj' h hlen
  exact ⟨(List.append_left_inj _).mp hfront, hfield⟩

end Search

/-! ### Lines -/

section Lines

variable {α : Type} [BEq α] [LawfulBEq α]

/-- What stands in front of the first separator belongs to the first line. -/
theorem splitOn_append_of_notMem {x : α} {a : List α} (ha : x ∉ a) (s : List α) :
    (a ++ s).splitOn x = (s.splitOn x).modifyHead (a ++ ·) := by
  induction a with
  | nil =>
      rw [List.nil_append]
      cases s.splitOn x with
      | nil => rfl
      | cons line lines => rfl
  | cons c a ih =>
      obtain ⟨hc, ha⟩ := not_or.mp fun h => ha (List.mem_cons.mpr h)
      rw [List.cons_append, List.splitOn_cons_eq_if_modifyHead, if_neg (by simp [Ne.symm hc]),
        ih ha]
      cases s.splitOn x with
      | nil => rfl
      | cons line lines => rfl

omit [LawfulBEq α] in
/-- The lines are made of the characters of the text. -/
theorem subset_of_mem_splitOn {x : α} {line s : List α} (h : line ∈ s.splitOn x) : line ⊆ s := by
  induction s generalizing line with
  | nil =>
      obtain rfl : line = [] := by simpa using h
      exact List.nil_subset _
  | cons c s ih =>
      rw [List.splitOn_cons_eq_if_modifyHead] at h
      split at h
      · rcases List.mem_cons.mp h with rfl | h
        · exact List.nil_subset _
        · exact List.subset_cons_of_subset c (ih h)
      · obtain ⟨first, rest, hsplit⟩ := List.exists_cons_of_ne_nil (List.splitOn_ne_nil x s)
        rw [hsplit] at h ih
        rcases List.mem_cons.mp h with rfl | h
        · exact List.cons_subset_cons c (ih List.mem_cons_self)
        · exact List.subset_cons_of_subset c (ih (List.mem_cons_of_mem _ h))

end Lines

/-! ### `apr_strtok` -/

section Tokens

variable {α : Type}

/-- One call of `apr_strtok`: leading separators are skipped, the token runs to the
next separator, and that one separator is consumed. -/
def strtok (sep : α → Bool) (s : List α) : Option (List α × List α) :=
  match s.dropWhile sep with
  | [] => none
  | c :: cs =>
    some ((c :: cs).takeWhile (!sep ·), ((c :: cs).dropWhile (!sep ·)).drop 1)

/-- The first token is the run in front of the first separator. -/
theorem strtok_append_cons {sep : α → Bool} {a : List α} (ha : ∀ c ∈ a, sep c = false)
    (hne : a ≠ []) {c : α} (hc : sep c = true) (s : List α) :
    strtok sep (a ++ c :: s) = some (a, s) := by
  obtain ⟨x, a, rfl⟩ := List.exists_cons_of_ne_nil hne
  have hx : sep x = false := ha x List.mem_cons_self
  have hrun : ∀ y ∈ x :: a, (!sep y) = true := fun y hy => by simp [ha y hy]
  rw [strtok, List.cons_append, List.dropWhile_cons_of_neg (by simp [hx])]
  show some ((x :: a ++ c :: s).takeWhile (!sep ·),
    ((x :: a ++ c :: s).dropWhile (!sep ·)).drop 1) = _
  rw [List.takeWhile_append_of_pos hrun, List.dropWhile_append_of_pos hrun,
    List.takeWhile_cons_of_neg (by simp [hc]), List.dropWhile_cons_of_neg (by simp [hc])]
  simp

/-- With no separators the token is the whole text. -/
theorem strtok_false (s : List α) :
    strtok (fun _ => false) s = if s = [] then none else some (s, []) := by
  cases s with
  | nil => rfl
  | cons c s =>
      have hall : s.dropWhile (fun _ => true) = [] :=
        List.dropWhile_eq_nil_iff.mpr fun _ _ => rfl
      simp [strtok, hall]

/-- A token is not empty, and its characters are characters of the text. -/
theorem mem_of_strtok {sep : α → Bool} {s t rest : List α} (h : strtok sep s = some (t, rest)) :
    t ≠ [] ∧ t ⊆ s ∧ rest ⊆ s := by
  rw [strtok] at h
  split at h
  · cases h
  · rename_i c cs hdrop
    simp only [Option.some.injEq, Prod.mk.injEq] at h
    obtain ⟨rfl, rfl⟩ := h
    have hsub : c :: cs ⊆ s := by
      rw [← hdrop]
      exact (List.dropWhile_sublist _).subset
    have hc : sep c = false := by
      have := List.head_dropWhile_not sep (l := s) (by simp [hdrop])
      simpa [hdrop] using this
    refine ⟨by simp [hc], ?_, ?_⟩
    · exact List.Subset.trans (List.takeWhile_sublist _).subset hsub
    · exact List.Subset.trans ((List.drop_sublist _ _).trans (List.dropWhile_sublist _)).subset hsub

/-- The tokens a loop over `apr_strtok` visits: the maximal runs without a separator. -/
def tokens (sep : α → Bool) (s : List α) : List (List α) :=
  (s.splitOnP sep).filter (!·.isEmpty)

@[simp] theorem tokens_nil (sep : α → Bool) : tokens sep [] = [] := by simp [tokens]

/-- A separator ends a token, so the tokens on its two sides are independent. -/
theorem tokens_append_cons (sep : α → Bool) (a b : List α) {c : α} (hc : sep c = true) :
    tokens sep (a ++ c :: b) = tokens sep a ++ tokens sep b := by
  simp [tokens, List.splitOnP_append_cons a b hc]

/-- A leading separator is skipped. -/
theorem tokens_cons_sep (sep : α → Bool) {c : α} (hc : sep c = true) (b : List α) :
    tokens sep (c :: b) = tokens sep b := by
  simpa using tokens_append_cons sep [] b hc

/-- A nonempty run without separators is one token. -/
theorem tokens_of_forall (sep : α → Bool) {s : List α} (hs : ∀ c ∈ s, sep c = false)
    (hne : s ≠ []) : tokens sep s = [s] := by
  simp [tokens, List.splitOnP_eq_singleton hs, hne]

/-- A text that is empty or ends in a separator does not merge with what follows. -/
theorem tokens_append (sep : α → Bool) (a b : List α)
    (ha : a = [] ∨ ∃ a' c, a = a' ++ [c] ∧ sep c = true) :
    tokens sep (a ++ b) = tokens sep a ++ tokens sep b := by
  rcases ha with rfl | ⟨a', c, rfl, hc⟩
  · simp
  · have h := tokens_append_cons sep a' ([] : List α) hc
    rw [List.append_assoc, List.singleton_append, tokens_append_cons sep a' b hc, h]
    simp

/-- No token contains a separator. -/
theorem sep_eq_false_of_mem_tokens (sep : α → Bool) {s t : List α} (ht : t ∈ tokens sep s)
    {c : α} (hc : c ∈ t) : sep c = false := by
  rw [tokens, List.mem_filter] at ht
  replace ht := ht.1
  induction s generalizing t with
  | nil =>
      rw [List.splitOnP_nil, List.mem_singleton] at ht
      subst ht
      cases hc
  | cons x s ih =>
      rw [List.splitOnP_cons_eq_if_modifyHead] at ht
      split at ht
      · rcases List.mem_cons.mp ht with rfl | ht
        · cases hc
        · exact ih hc ht
      · rename_i hx
        obtain ⟨hd, tl, htl⟩ := List.exists_cons_of_ne_nil (List.splitOnP_ne_nil sep s)
        rw [htl, List.modifyHead_cons] at ht
        rcases List.mem_cons.mp ht with rfl | ht
        · rcases List.mem_cons.mp hc with rfl | hc
          · simpa using hx
          · exact ih hc (by rw [htl]; exact List.mem_cons_self)
        · exact ih hc (by rw [htl]; exact List.mem_cons_of_mem _ ht)

/-- The characters of a token are characters of the text. -/
theorem mem_of_mem_tokens (sep : α → Bool) {s t : List α} (ht : t ∈ tokens sep s)
    {c : α} (hc : c ∈ t) : c ∈ s := by
  rw [tokens, List.mem_filter] at ht
  replace ht := ht.1
  induction s generalizing t with
  | nil =>
      rw [List.splitOnP_nil, List.mem_singleton] at ht
      rwa [ht] at hc
  | cons x s ih =>
      rw [List.splitOnP_cons_eq_if_modifyHead] at ht
      split at ht
      · rcases List.mem_cons.mp ht with rfl | ht
        · cases hc
        · exact List.mem_cons_of_mem _ (ih hc ht)
      · obtain ⟨hd, tl, htl⟩ := List.exists_cons_of_ne_nil (List.splitOnP_ne_nil sep s)
        rw [htl, List.modifyHead_cons] at ht
        rcases List.mem_cons.mp ht with rfl | ht
        · rcases List.mem_cons.mp hc with rfl | hc
          · exact List.mem_cons_self
          · exact List.mem_cons_of_mem _ (ih hc (by rw [htl]; exact List.mem_cons_self))
        · exact List.mem_cons_of_mem _ (ih hc (by rw [htl]; exact List.mem_cons_of_mem _ ht))

/-- The loop `for (t = apr_strtok(s); t; t = apr_strtok(NULL))` visits `tokens sep s`. -/
theorem tokens_eq_strtok (sep : α → Bool) (s : List α) :
    tokens sep s =
      match strtok sep s with
      | none => []
      | some (t, rest) => t :: tokens sep rest := by
  induction s with
  | nil => simp [strtok]
  | cons c s ih =>
      by_cases hc : sep c = true
      · -- Both sides skip a leading separator.
        rw [tokens_cons_sep sep hc, ih]
        simp [strtok, hc]
      · have hc' : sep c = false := by simpa using hc
        have hsplit := List.takeWhile_append_dropWhile (p := (!sep ·)) (l := c :: s)
        have hrun : ∀ x ∈ (c :: s).takeWhile (!sep ·), sep x = false := fun x hx => by
          simpa using List.mem_takeWhile_imp hx
        have hne : (c :: s).takeWhile (!sep ·) ≠ [] := by simp [hc']
        have hcall : strtok sep (c :: s)
            = some ((c :: s).takeWhile (!sep ·), ((c :: s).dropWhile (!sep ·)).drop 1) := by
          simp [strtok, hc']
        rw [hcall]
        show tokens sep (c :: s) = _ :: tokens sep (((c :: s).dropWhile (!sep ·)).drop 1)
        generalize (c :: s).takeWhile (!sep ·) = run at hsplit hrun hne
        cases hrest : (c :: s).dropWhile (!sep ·) with
        | nil =>
            rw [hrest, List.append_nil] at hsplit
            rw [← hsplit, tokens_of_forall sep hrun hne]
            simp
        | cons d rest =>
            have hd : sep d = true := by
              have := List.head_dropWhile_not (!sep ·) (l := c :: s) (by simp [hrest])
              simpa [hrest] using this
            rw [hrest] at hsplit
            rw [← hsplit, tokens_append_cons sep run rest hd, tokens_of_forall sep hrun hne]
            rfl

end Tokens

end CText
