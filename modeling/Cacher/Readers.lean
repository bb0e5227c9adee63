import Cacher.Actions
import Cacher.FullReset
import Cacher.PurgeGlobs

/-!
# `Cacher.Readers`: the two readers of a header file

`cacher_cache_read_meta` reads a header file as bytes and to its end. `Entry.load` of the tool reads
the first 4096 characters of its text, where a `\r` ends a line, too. `ReadAlike` is what the
metadata must be like for the two to tell the same.

A url that holds a newline writes further lines into the metadata. Each of them must then be one
that both loops read alike.
-/

set_option autoImplicit false

namespace Cacher

open CText Files Utf8 Tool

/-- The tool's entry has the fields that the module has read. -/
structure SameFields (entry : Entry) (info : CacherEntryMeta) : Prop where
  expires : entry.expires = info.expires.toInt
  status : entry.status = info.status.toInt
  method : encode entry.method = toBytes info.method
  host : encode entry.host = toBytes info.host
  url : encode entry.url = toBytes info.url

/-- Both readers accept and find the same fields, or both reject. An exception of the tool is
neither. -/
inductive SameAnswer : Option (CacherEntryMeta × CString) → Loaded → Prop where
  | accepted {info : CacherEntryMeta} {block : CString} {entry : Entry}
      (h : SameFields entry info) : SameAnswer (some (info, block)) (.entry entry)
  | rejected : SameAnswer none .notLoaded

/-- The two readers of the file at `headerPath` tell the same. -/
def ReadersAgree (py : Python) (w : World) (headerPath : Path) : Prop :=
  SameAnswer (run (cacherCacheReadMeta headerPath) w).1 (run (load py headerPath) w).1

/-- A C string as text. -/
def textOf (s : CString) : PyStr := decode (toBytes s)

/-- Both loops read the line alike, and it does not take the status away. -/
structure LineAlike (py : Python) (line : CString) : Prop where
  same : ∀ info entry, SameFields entry info →
    ∃ entry', loadLine py entry (textOf line) = some entry' ∧ SameFields entry' (metaLine info line)
  status : ∀ info : CacherEntryMeta, info.status ≠ 0 → (metaLine info line).status ≠ 0

/-- The lines that a path and query make, up to the first blank one. The first one ends the url
line. -/
def urlLines (url : CString) : List CString := (splitUrl url).1.splitOn (chr '\n')

/-- The metadata are such that both readers tell the same. -/
structure ReadAlike (py : Python) (info : CacherEntryMeta) : Prop where
  return_notMem : chr '\r' ∉ metaPart info
  length_le : (textOf (metaPart info)).length ≤ 4096
  expires : 0 ≤ info.expires.toInt
  status : 0 < info.status.toInt
  method : IsUtf8 (toBytes info.method)
  host : IsUtf8 (toBytes info.host)
  url : ∀ text ∈ (urlLines info.url).head?, text ≠ [] ∧ IsUtf8 (toBytes text)
  added : ∀ line ∈ (urlLines info.url).tail, LineAlike py line

/-! ### Bytes and text -/

section Text

variable {a b : CString} {c : Char}

/-- An ASCII character is read on its own. -/
theorem textOf_append_cons (hval : (chr c).val = UInt8.ofNat c.toNat) (hc : c.toNat < 128)
    (a b : CString) : textOf (a ++ chr c :: b) = textOf a ++ c :: textOf b := by
  have hsplit : toBytes (a ++ chr c :: b) = toBytes a ++ (String.utf8EncodeChar c ++ toBytes b) := by
    rw [utf8EncodeChar_of_lt hc, ← hval]
    exact List.map_append
  have hboundary : Boundary (String.utf8EncodeChar c ++ toBytes b) := boundary_char c _
  rw [textOf, hsplit, decode_append _ hboundary, decode_char]
  rfl

theorem textOf_newline (a b : CString) :
    textOf (a ++ chr '\n' :: b) = textOf a ++ '\n' :: textOf b :=
  textOf_append_cons rfl (by decide) a b

theorem textOf_blank (a b : CString) : textOf (a ++ chr ' ' :: b) = textOf a ++ ' ' :: textOf b :=
  textOf_append_cons rfl (by decide) a b

theorem textOf_append_of_ascii (ha : IsAsciiBytes a) (b : CString) :
    textOf (a ++ b) = textOf a ++ textOf b := by
  rw [textOf, toBytes, List.map_append]
  exact decode_append_of_lt ha.toBytes (toBytes b)

/-- An ASCII character of the text is a character of the string. -/
theorem mem_of_mem_textOf (hval : (chr c).val = UInt8.ofNat c.toNat) (hc : c.toNat < 128)
    (h : c ∈ textOf a) : chr c ∈ a := by
  have hbyte := mem_of_mem_decode hc h
  rw [← hval] at hbyte
  obtain ⟨d, hd, heq⟩ := List.mem_map.mp hbyte
  exact Subtype.ext heq ▸ hd

/-- The text of digits. -/
theorem textOf_decimalNat (n : Nat) : textOf (decimalNat n) = Nat.toDigits 10 n := by
  have hdigit : ∀ c ∈ Nat.toDigits 10 n, (chr c).val.toNat = c.toNat ∧ c.toNat < 128 := by
    intro c hc
    obtain ⟨hval, -, hhi⟩ :=
      val_chr_of_isDigit (Nat.isDigit_of_mem_toDigits (by decide) (by decide) hc)
    exact ⟨hval, by omega⟩
  have hlt : ∀ b ∈ toBytes (decimalNat n), b.toNat < 128 := by
    intro b hb
    rw [toBytes, decimalNat, List.map_map] at hb
    obtain ⟨c, hc, rfl⟩ := List.mem_map.mp hb
    obtain ⟨hval, hc'⟩ := hdigit c hc
    exact hval ▸ hc'
  rw [textOf, decode_of_lt hlt, toBytes, decimalNat, List.map_map, List.map_map]
  conv_rhs => rw [← List.map_id (Nat.toDigits 10 n)]
  refine List.map_congr_left fun c hc => ?_
  show Char.ofNat (chr c).val.toNat = c
  rw [(hdigit c hc).1, Char.ofNat_toNat]

/-- The text of a printed integer. -/
theorem textOf_decimal (i : Int) :
    textOf (decimal i) = (if i < 0 then ['-'] else []) ++ Nat.toDigits 10 i.natAbs := by
  rw [decimal]
  split
  · have hminus := textOf_append_cons (c := '-') rfl (by decide) [] (decimalNat i.natAbs)
    rw [List.nil_append] at hminus
    rw [hminus, textOf_decimalNat]
    rfl
  · rw [textOf_decimalNat, List.nil_append]

/-- The tool takes a printed integer for its value, or for 0 when it has a sign. -/
theorem number_decimal {py : Python} (hpy : py.Documented) {i : Int} (hi : i.natAbs < 10 ^ 19) :
    number py (textOf (decimal i)) = some (max i 0) := by
  have hdigits : ∀ c ∈ Nat.toDigits 10 i.natAbs, c.isDigit = true := fun c hc =>
    Nat.isDigit_of_mem_toDigits (by decide) (by decide) hc
  have hascii : ∀ c ∈ Nat.toDigits 10 i.natAbs, c.toNat < 128 := by
    intro c hc
    have hhi := (val_chr_of_isDigit (hdigits c hc)).2.2
    omega
  have hspace : ∀ c ∈ Nat.toDigits 10 i.natAbs, isWhitespace c = false := fun c hc =>
    isWhitespace_of_isDigit (hdigits c hc)
  by_cases hneg : i < 0
  · have htext : textOf (decimal i) = '-' :: Nat.toDigits 10 i.natAbs := by
      rw [textOf_decimal, if_pos hneg]
      rfl
    have hstrip : py.strip (textOf (decimal i)) = '-' :: Nat.toDigits 10 i.natAbs := by
      rw [hpy.strip, htext]
      exact strip_of_forall (List.forall_mem_cons.mpr ⟨by decide, hspace⟩)
    have hno : ¬ py.isdigit ('-' :: Nat.toDigits 10 i.natAbs) = true := by
      rw [hpy.isdigit _ (List.forall_mem_cons.mpr ⟨by decide, hascii⟩)]
      exact fun h => absurd (h.2 '-' List.mem_cons_self) (by decide)
    rw [number, hstrip, if_neg hno, max_eq_right (Int.le_of_lt hneg)]
  · have htext : textOf (decimal i) = Nat.toDigits 10 i.natAbs := by
      rw [textOf_decimal, if_neg hneg, List.nil_append]
    have hstrip : py.strip (textOf (decimal i)) = Nat.toDigits 10 i.natAbs := by
      rw [hpy.strip, htext]
      exact strip_of_forall hspace
    have hyes : py.isdigit (Nat.toDigits 10 i.natAbs) = true :=
      (hpy.isdigit _ hascii).mpr ⟨by simp, hdigits⟩
    rw [number, hstrip, if_pos hyes, htext, hpy.int _ (by omega), max_eq_left (Int.not_lt.mp hneg),
      Int.natAbs_of_nonneg (Int.not_lt.mp hneg)]

end Text

/-! ### The lines of the metadata -/

section Lines

variable {py : Python} {info : CacherEntryMeta}

/-- The lines in front of the url line, as text. -/
def headLines (info : CacherEntryMeta) : List PyStr :=
  ["CACHER/2".toList, "created".toList ++ ' ' :: textOf (decimal info.created.toInt),
    "expires".toList ++ ' ' :: textOf (decimal info.expires.toInt),
    "status".toList ++ ' ' :: textOf (decimal info.status.toInt)]

theorem textOf_keyword {key : PyStr} {keyword : CString} (hascii : IsAsciiBytes keyword)
    (htext : textOf keyword = key ++ [' ']) (s : CString) :
    textOf (keyword ++ s) = key ++ ' ' :: textOf s := by
  rw [textOf_append_of_ascii hascii, htext, List.append_assoc, List.singleton_append]

/-- The text of the metadata. -/
theorem textOf_metaPart (info : CacherEntryMeta) :
    textOf (metaPart info)
      = (headLines info).flatMap (· ++ ['\n']) ++ textOf (urlPart info) := by
  have hmagic : textOf (lit "CACHER/2") = "CACHER/2".toList := by decide +kernel
  have hcreated : ∀ s, textOf (lit "created " ++ s) = "created".toList ++ ' ' :: textOf s :=
    textOf_keyword (by decide +kernel) (by decide +kernel)
  have hexpires : ∀ s, textOf (lit "expires " ++ s) = "expires".toList ++ ' ' :: textOf s :=
    textOf_keyword (by decide +kernel) (by decide +kernel)
  have hstatus : ∀ s, textOf (lit "status " ++ s) = "status".toList ++ ' ' :: textOf s :=
    textOf_keyword (by decide +kernel) (by decide +kernel)
  have heq : metaPart info = lit "CACHER/2" ++ chr '\n' ::
      (lit "created " ++ decimal info.created.toInt ++ chr '\n' ::
      (lit "expires " ++ decimal info.expires.toInt ++ chr '\n' ::
      (lit "status " ++ decimal info.status.toInt ++ chr '\n' :: urlPart info))) := rfl
  rw [heq, textOf_newline, textOf_newline, textOf_newline, textOf_newline, hmagic, hcreated,
    hexpires, hstatus]
  simp [headLines]

/-- Each of them is a line. -/
theorem newline_notMem_headLines : ∀ line ∈ headLines info, '\n' ∉ line := by
  have hline : ∀ {key : PyStr} (i : Int), '\n' ∉ key → '\n' ∉ key ++ ' ' :: textOf (decimal i) := by
    intro key i hkey hmem
    rcases List.mem_append.mp hmem with hmem | hmem
    · exact hkey hmem
    · rcases List.mem_cons.mp hmem with hmem | hmem
      · exact absurd hmem (by decide)
      · exact notMem_decimal_of_isSpace (by decide) (mem_of_mem_textOf rfl (by decide) hmem)
  intro line hmem
  simp only [headLines, List.mem_cons, List.not_mem_nil, or_false] at hmem
  rcases hmem with rfl | rfl | rfl | rfl
  · decide
  · exact hline _ (by decide)
  · exact hline _ (by decide)
  · exact hline _ (by decide)

/-- There they are cut. -/
theorem splitOn_flatMap_newline {lines : List PyStr} (h : ∀ line ∈ lines, '\n' ∉ line)
    (rest : PyStr) :
    (lines.flatMap (· ++ ['\n']) ++ rest).splitOn '\n' = lines ++ rest.splitOn '\n' := by
  induction lines with
  | nil => rfl
  | cons line lines ih =>
      rw [List.flatMap_cons, List.append_assoc, List.append_assoc, List.singleton_append,
        List.splitOn_append_cons_self_of_not_mem (h line List.mem_cons_self),
        ih fun x hx => h x (List.mem_cons_of_mem _ hx), List.cons_append]

theorem natAbs_toInt_lt (x : Int64) : x.toInt.natAbs < 10 ^ 19 := by
  have hlo := x.le_toInt
  have hhi := x.toInt_lt
  omega

theorem natAbs_toInt_lt_of_int32 (x : Int32) : x.toInt.natAbs < 10 ^ 19 := by
  have hlo := x.le_toInt
  have hhi := x.toInt_lt
  omega

/-- They leave room for more than 4000 characters. -/
theorem length_headLines_le (info : CacherEntryMeta) :
    ((headLines info).flatMap (· ++ ['\n'])).length ≤ 96 := by
  have hdecimal : ∀ {i : Int}, i.natAbs < 10 ^ 19 → (textOf (decimal i)).length ≤ 20 := by
    intro i hi
    have hlen := (Nat.length_toDigits_le_iff (by decide) (by decide)).mpr hi
    rw [textOf_decimal, List.length_append]
    split
    · simp only [List.length_cons, List.length_nil]
      omega
    · simp only [List.length_nil]
      omega
  have hcreated := hdecimal (natAbs_toInt_lt info.created)
  have hexpires := hdecimal (natAbs_toInt_lt info.expires)
  have hstatus := hdecimal (natAbs_toInt_lt_of_int32 info.status)
  simp only [headLines, List.flatMap_cons, List.flatMap_nil, List.length_append, List.length_cons,
    List.length_nil, String.length_toList]
  have hmagic : "CACHER/2".length = 8 := rfl
  have hkeys : "created".length = 7 ∧ "expires".length = 7 ∧ "status".length = 6 := ⟨rfl, rfl, rfl⟩
  omega

end Lines

/-! ### What the tool makes of them -/

section Loop

variable {py : Python} {info : CacherEntryMeta} {entry entry' : Entry}

/-- What `load` makes of the lines. -/
def loadLines (py : Python) (lines : List PyStr) : Loaded :=
  match lines with
  | [] => .notLoaded
  | first :: lines =>
    if py.strip first ≠ "CACHER/2".toList then .notLoaded
    else (lines.foldlM (loadLine py) Entry.unset).elim .raised .entry

theorem loadText_eq (py : Python) (text : PyStr) :
    loadText py text
      = loadLines py ((((cutAt ['\n', '\n'] text).map (·.1)).getD text).splitOn '\n') := by
  unfold loadText loadLines
  cases (((cutAt ['\n', '\n'] text).map (·.1)).getD text).splitOn '\n' with
  | nil => rfl
  | cons first lines =>
      dsimp only
      cases lines.foldlM (loadLine py) Entry.unset with
      | none => rfl
      | some entry => rfl

theorem loadLine_nil (py : Python) (entry : Entry) : loadLine py entry [] = some entry := by
  have hcut : (cutAt [' '] ([] : PyStr)).getD ([], []) = ([], []) := by decide
  rw [loadLine, hcut]
  rfl

/-- An empty line at the end says nothing. -/
theorem loadLines_append_nil {lines : List PyStr} (hne : lines ≠ []) :
    loadLines py (lines ++ [[]]) = loadLines py lines := by
  obtain ⟨first, lines, rfl⟩ := List.exists_cons_of_ne_nil hne
  have hfold : ∀ entry, (lines ++ [[]]).foldlM (loadLine py) entry
      = lines.foldlM (loadLine py) entry := by
    intro entry
    rw [List.foldlM_append]
    cases lines.foldlM (loadLine py) entry with
    | none => rfl
    | some entry => exact (congrArg (· >>= pure) (loadLine_nil py entry)).trans rfl
  rw [List.cons_append, loadLines, loadLines, hfold]

/-- A line is cut at its first blank. -/
theorem cutAt_keyLine {key : PyStr} (hkey : ' ' ∉ key) (value : PyStr) :
    (cutAt [' '] (key ++ ' ' :: value)).getD (key ++ ' ' :: value, []) = (key, value) := by
  rw [cutAt_singleton_append hkey]
  rfl

theorem loadLine_created (py : Python) (entry : Entry) (value : PyStr) :
    loadLine py entry ("created".toList ++ ' ' :: value) = some entry := by
  rw [loadLine, cutAt_keyLine (by decide)]
  rfl

theorem loadLine_expires (py : Python) (entry : Entry) (value : PyStr) :
    loadLine py entry ("expires".toList ++ ' ' :: value)
      = (number py value).map fun n => { entry with expires := n } := by
  rw [loadLine, cutAt_keyLine (by decide)]
  rfl

theorem loadLine_status (py : Python) (entry : Entry) (value : PyStr) :
    loadLine py entry ("status".toList ++ ' ' :: value)
      = (number py value).map fun n => { entry with status := n } := by
  rw [loadLine, cutAt_keyLine (by decide)]
  rfl

/-- What the loop knows when it comes to the url line. -/
def entryAtUrl (info : CacherEntryMeta) : Entry :=
  { Entry.unset with expires := max info.expires.toInt 0, status := max info.status.toInt 0 }

theorem strip_magic (hpy : py.Documented) : py.strip "CACHER/2".toList = "CACHER/2".toList := by
  rw [hpy.strip]
  decide

/-- The lines in front of the url line give the two numbers, when they have no sign. -/
theorem loadLines_headLines (hpy : py.Documented) (lines : List PyStr) :
    loadLines py (headLines info ++ lines)
      = (lines.foldlM (loadLine py) (entryAtUrl info)).elim .raised .entry := by
  have hexpires := natAbs_toInt_lt info.expires
  have hstatus := natAbs_toInt_lt_of_int32 info.status
  have hfold : ((headLines info).tail ++ lines).foldlM (loadLine py) Entry.unset
      = lines.foldlM (loadLine py) (entryAtUrl info) := by
    rw [List.foldlM_append, headLines, List.tail_cons, List.foldlM_cons, loadLine_created]
    show (List.foldlM (loadLine py) Entry.unset [_, _] >>= _) = _
    rw [List.foldlM_cons, loadLine_expires, number_decimal hpy hexpires]
    show (List.foldlM (loadLine py) _ [_] >>= _) = _
    rw [List.foldlM_cons, loadLine_status, number_decimal hpy hstatus]
    rfl
  show (if py.strip "CACHER/2".toList ≠ "CACHER/2".toList then Loaded.notLoaded else
    (((headLines info).tail ++ lines).foldlM (loadLine py) Entry.unset).elim .raised .entry) = _
  rw [strip_magic hpy, if_neg (fun h => h rfl), hfold]

end Loop

/-! ### The text of a written file -/

section FileText

variable {py : Python} {info : CacherEntryMeta}

/-- The metadata hold no blank line. -/
theorem not_infix_metaPart (hm : IsWord info.method) (hh : IsWord info.host) :
    ¬ ['\n', '\n'] <:+: textOf (metaPart info) ++ ['\n'] := by
  intro hinfix
  have hno := not_infix_of_cutAt_pair (x := chr '\n')
    (cutAt_headerFileText hm.noNewline hh.noNewline [])
  have htext : textOf (metaPart info) ++ ['\n'] = textOf (metaPart info ++ [chr '\n']) :=
    (textOf_newline _ []).symm
  rw [htext] at hinfix
  obtain ⟨front, rest, hsplit⟩ := infix_of_decode (by decide) (by decide) hinfix
  obtain ⟨a, b, heq, ha, -⟩ := List.map_eq_append_iff.mp hsplit.symm
  obtain ⟨a', pair, rfl, -, hpair⟩ := List.map_eq_append_iff.mp ha
  have hnewlines : pair = [chr '\n', chr '\n'] :=
    List.map_injective_iff.mpr Subtype.val_injective hpair
  exact hno ⟨a', b, by rw [heq, hnewlines]⟩

/-- Without a `\r`, the tool reads the text of the metadata, a blank line, and more. -/
theorem decode_headerFileText (hpy : py.Documented) (hm : IsWord info.method)
    (hh : IsWord info.host) (hreturn : chr '\r' ∉ metaPart info) (block : CString) :
    ∃ rest, py.decode (toBytes (headerFileText info block))
      = textOf (metaPart info) ++ '\n' :: '\n' :: rest := by
  have hfile := eq_append_of_cutAt (cutAt_headerFileText hm.noNewline hh.noNewline block)
  have hfile' : headerFileText info block
      = metaPart info ++ chr '\n' :: ([] ++ chr '\n' :: (smuggled info.url ++ block)) := by
    rw [hfile, List.append_assoc]
    rfl
  have hno : '\r' ∉ textOf (metaPart info) ++ ['\n', '\n'] := by
    intro h
    rcases List.mem_append.mp h with h | h
    · exact hreturn (mem_of_mem_textOf rfl (by decide) h)
    · exact absurd h (by decide)
  refine ⟨universalNewlines (textOf (smuggled info.url ++ block)), ?_⟩
  rw [hpy.decode, fileText, hfile']
  show universalNewlines (textOf _) = _
  rw [textOf_newline, textOf_newline]
  have happend := universalNewlines_append hno (textOf (smuggled info.url ++ block))
  rw [List.append_assoc, List.append_assoc] at happend
  exact happend

/-- The tool sees the first 4096 characters of the metadata. -/
theorem loadText_headerFileText (hpy : py.Documented) (hm : IsWord info.method)
    (hh : IsWord info.host) (hreturn : chr '\r' ∉ metaPart info) (block : CString) :
    loadText py ((py.decode (toBytes (headerFileText info block))).take 4096)
      = loadLines py (((textOf (metaPart info)).take 4096).splitOn '\n') := by
  obtain ⟨rest, htext⟩ := decode_headerFileText hpy hm hh hreturn block
  rw [htext, loadText_eq]
  have hcut := cutAt_pair_take (not_infix_metaPart hm hh) rest 4096
  rcases hcut with hcut | hcut
  · rw [hcut]
  · rw [hcut, List.splitOn_append_cons_self, List.splitOn_nil,
      loadLines_append_nil (List.splitOn_ne_nil _ _)]

/-- Behind the lines of the numbers, these are those of the url line and what follows it. -/
theorem splitOn_take_metaPart (info : CacherEntryMeta) :
    ((textOf (metaPart info)).take 4096).splitOn '\n'
      = headLines info
        ++ ((textOf (urlPart info)).take
            (4096 - ((headLines info).flatMap (· ++ ['\n'])).length)).splitOn '\n' := by
  have hlen := length_headLines_le info
  rw [textOf_metaPart, List.take_append, List.take_of_length_le (by omega),
    splitOn_flatMap_newline newline_notMem_headLines]

/-- Every written file begins with the right line. -/
theorem loadText_ne_notLoaded (hpy : py.Documented) (info : CacherEntryMeta) (block : CString) :
    loadText py ((py.decode (toBytes (headerFileText info block))).take 4096) ≠ .notLoaded := by
  obtain ⟨s, hs⟩ : ∃ s, py.decode (toBytes (headerFileText info block))
      = "CACHER/2".toList ++ '\n' :: s := by
    have htext : textOf (headerFileText info block) = textOf (lit "CACHER/2") ++ '\n' :: _ :=
      textOf_newline _ _
    have hmagic : textOf (lit "CACHER/2") = "CACHER/2".toList := by decide +kernel
    have hno : '\r' ∉ "CACHER/2".toList ++ ['\n'] := by decide
    rw [hmagic] at htext
    rw [hpy.decode, fileText]
    show ∃ s, universalNewlines (textOf _) = _
    rw [htext, ← List.singleton_append, ← List.append_assoc, universalNewlines_append hno,
      List.append_assoc]
    exact ⟨_, rfl⟩
  have hcut : cutAt ['\n', '\n'] ("CACHER/2".toList ++ '\n' :: s.take 4087)
      = (cutAt ['\n', '\n'] ('\n' :: s.take 4087)).map
          fun cut => ("CACHER/2".toList ++ cut.1, cut.2) :=
    cutAt_append_left (by decide) _
  -- Whatever follows it, the first line is whole.
  obtain ⟨lines, hlines⟩ : ∃ lines, (((cutAt ['\n', '\n'] ("CACHER/2".toList ++ '\n' ::
      s.take 4087)).map (·.1)).getD ("CACHER/2".toList ++ '\n' :: s.take 4087)).splitOn '\n'
        = "CACHER/2".toList :: lines := by
    rw [hcut]
    cases htail : cutAt ['\n', '\n'] ('\n' :: s.take 4087) with
    | none => exact ⟨_, List.splitOn_append_cons_self_of_not_mem (by decide) _⟩
    | some cut =>
        obtain ⟨a, b⟩ := cut
        show ∃ lines, ("CACHER/2".toList ++ a).splitOn '\n' = _
        cases a with
        | nil =>
            rw [List.append_nil]
            exact ⟨[], List.splitOn_eq_singleton (by decide)⟩
        | cons c a =>
            have heq := eq_append_of_cutAt htail
            rw [List.append_assoc, List.cons_append] at heq
            obtain ⟨rfl, -⟩ := List.cons.inj heq
            exact ⟨_, List.splitOn_append_cons_self_of_not_mem (by decide) _⟩
  have hload : loadText py ((py.decode (toBytes (headerFileText info block))).take 4096)
      = loadLines py ("CACHER/2".toList :: lines) := by
    rw [hs, ← hlines, loadText_eq]
    rfl
  rw [hload, loadLines, strip_magic hpy, if_neg (fun h => h rfl)]
  cases lines.foldlM (loadLine py) Entry.unset with
  | none => exact Loaded.noConfusion
  | some entry => exact Loaded.noConfusion

end FileText

/-! ### The url line -/

section Url

variable {py : Python} {info : CacherEntryMeta} {entry : Entry} {m h u : CString}

theorem IsUtf8.encode_textOf {s : CString} (hs : IsUtf8 (toBytes s)) :
    encode (textOf s) = toBytes s := by
  obtain ⟨t, ht⟩ := hs
  rw [textOf, ht, decode_encode]

theorem IsWord.blank_notMem_textOf (hm : IsWord m) : ' ' ∉ textOf m := fun hmem =>
  hm.noBlank (mem_of_mem_textOf rfl (by decide) hmem)

theorem metaLine_url (info : CacherEntryMeta) (rest : CString) :
    metaLine info (lit "url " ++ rest) = match urlFields rest with
      | some (m, h, u) => { info with method := m, host := h, url := u }
      | none => info := by
  rw [metaLine, stripPrefix_append]
  rfl

theorem loadLine_url (py : Python) (entry : Entry) (value : PyStr) :
    loadLine py entry ("url".toList ++ ' ' :: value) = match cutAt [' '] value with
      | none => some entry
      | some (method, rest) =>
        match cutAt [' '] rest with
        | none => some entry
        | some (host, url) => some { entry with method := method, host := host, url := url } := by
  rw [loadLine, cutAt_keyLine (by decide)]
  rfl

/-- The text of a url line. -/
theorem textOf_urlLine (m h u : CString) :
    textOf (lit "url " ++ (m ++ chr ' ' :: (h ++ chr ' ' :: u)))
      = "url".toList ++ ' ' :: (textOf m ++ ' ' :: (textOf h ++ ' ' :: textOf u)) := by
  have hurl : ∀ s, textOf (lit "url " ++ s) = "url".toList ++ ' ' :: textOf s :=
    textOf_keyword (by decide +kernel) (by decide +kernel)
  rw [hurl, textOf_blank, textOf_blank]

/-- Both loops take the fields of a url line in UTF-8. -/
theorem lineAlike_urlLine (hm : IsWord m) (hh : IsWord h) (hu : u ≠ [])
    (hm' : IsUtf8 (toBytes m)) (hh' : IsUtf8 (toBytes h)) (hu' : IsUtf8 (toBytes u)) :
    LineAlike py (lit "url " ++ (m ++ chr ' ' :: (h ++ chr ' ' :: u))) where
  same info entry hsame := by
    refine ⟨{ entry with method := textOf m, host := textOf h, url := textOf u }, ?_, ?_⟩
    · rw [textOf_urlLine, loadLine_url, cutAt_singleton_append hm.blank_notMem_textOf]
      dsimp only
      rw [cutAt_singleton_append hh.blank_notMem_textOf]
    · rw [metaLine_url, urlFields_append hm hh hu]
      exact ⟨hsame.expires, hsame.status, IsUtf8.encode_textOf hm', IsUtf8.encode_textOf hh',
        IsUtf8.encode_textOf hu'⟩
  status info hstatus := by
    rw [metaLine_url, urlFields_append hm hh hu]
    exact hstatus

end Url

/-! ### The two loops -/

section Loops

variable {py : Python} {info : CacherEntryMeta} {entry : Entry}

/-- The loops agree on lines that they read alike. -/
theorem foldlM_loadLine_of_alike {lines : List CString} (h : ∀ line ∈ lines, LineAlike py line)
    (hsame : SameFields entry info) :
    ∃ entry', (lines.map textOf).foldlM (loadLine py) entry = some entry'
      ∧ SameFields entry' (lines.foldl metaLine info) := by
  induction lines generalizing entry info with
  | nil => exact ⟨entry, rfl, hsame⟩
  | cons line lines ih =>
      obtain ⟨entry', hline, hsame'⟩ := (h line List.mem_cons_self).same info entry hsame
      obtain ⟨entry'', hlines, hsame''⟩ := ih (fun x hx => h x (List.mem_cons_of_mem _ hx)) hsame'
      refine ⟨entry'', ?_, hsame''⟩
      rw [List.map_cons, List.foldlM_cons, hline]
      exact hlines

theorem foldl_metaLine_status {lines : List CString} (h : ∀ line ∈ lines, LineAlike py line)
    (hstatus : info.status ≠ 0) : (lines.foldl metaLine info).status ≠ 0 :=
  List.foldlRecOn lines metaLine (motive := fun info => info.status ≠ 0) hstatus
    fun info hinfo line hline => (h line hline).status info hinfo

/-- `apr_strtok` passes over the empty lines, which say nothing. -/
theorem foldl_metaLine_tokens (s : CString) (info : CacherEntryMeta) :
    (tokens (· == chr '\n') s).foldl metaLine info
      = (s.splitOn (chr '\n')).foldl metaLine info := by
  rw [tokens, List.splitOn_eq_splitOnP, List.foldl_filter]
  refine List.foldl_ext _ _ _ fun info line _ => ?_
  cases line with
  | nil => rfl
  | cons c line => rfl

/-- The lines of the text are the texts of the lines. -/
theorem splitOn_textOf (s : CString) :
    (textOf s).splitOn '\n' = (s.splitOn (chr '\n')).map textOf := by
  induction hlen : s.length using Nat.strong_induction_on generalizing s with
  | h n ih =>
      by_cases hmem : chr '\n' ∈ s
      · obtain ⟨a, b, rfl⟩ := List.append_of_mem hmem
        simp only [List.length_append, List.length_cons] at hlen
        rw [textOf_newline, List.splitOn_append_cons_self, List.splitOn_append_cons_self,
          ih a.length (by omega) a rfl, ih b.length (by omega) b rfl, List.map_append]
      · have htext : '\n' ∉ textOf s := fun h => hmem (mem_of_mem_textOf rfl (by decide) h)
        rw [List.splitOn_eq_singleton htext, List.splitOn_eq_singleton hmem]
        rfl

/-- What the two loops start from at the url line. -/
theorem sameFields_entryAtUrl (hexpires : 0 ≤ info.expires.toInt) (hstatus : 0 ≤ info.status.toInt) :
    SameFields (entryAtUrl info) { CacherEntryMeta.unset with
      created := info.created, expires := info.expires, status := info.status } := by
  have hdash : encode ['-'] = toBytes (lit "-") := by decide +kernel
  exact ⟨max_eq_left hexpires, max_eq_left hstatus, hdash, hdash, hdash⟩

end Loops

/-! ### The two readers -/

section Readers

variable {py : Python} {info : CacherEntryMeta} {w : World} {p : Path}

theorem run_cacherCacheReadMeta (hok : w.script.AllOk) {text : CString}
    (hread : w.fs.read p = some (toBytes text)) :
    (run (cacherCacheReadMeta p) w).1 = readMetaText text := by
  have hspec := (cacherCacheReadMeta_spec p w).2.2.2
  refine Option.ext fun found => ?_
  rw [hspec found, headerReads_iff_of_allOk hok hread, ofBytes_toBytes]

theorem run_load (py : Python) (hok : w.script.AllOk) {b : Bytes} (hread : w.fs.read p = some b) :
    (run (load py p) w).1 = loadText py ((py.decode b).take 4096) := by
  have hspec := (load_spec py hok p).1
  rw [loadIn, hread] at hspec
  exact hspec

/-- The lines of the url line and what follows it. -/
theorem splitOn_urlPart (hm : IsWord info.method) (hh : IsWord info.host) {text : CString}
    {lines : List CString} (hlines : urlLines info.url = text :: lines) :
    (urlPart info).splitOn (chr '\n')
      = (lit "url " ++ (info.method ++ chr ' ' :: (info.host ++ chr ' ' :: text))) :: lines := by
  have hfront : chr '\n' ∉ lit "url " ++ info.method ++ chr ' ' :: info.host ++ [chr ' '] := by
    simp only [List.mem_append, List.mem_cons, List.not_mem_nil, or_false, not_or]
    exact ⟨⟨⟨by decide, hm.noNewline⟩, by decide, hh.noNewline⟩, by decide⟩
  have heq : urlPart info
      = (lit "url " ++ info.method ++ chr ' ' :: info.host ++ [chr ' '])
        ++ (splitUrl info.url).1 := by
    simp [urlPart]
  rw [urlLines] at hlines
  rw [heq, splitOn_append_of_notMem hfront, hlines, List.modifyHead_cons]
  simp

/-- Every line of the url is read alike. -/
theorem ReadAlike.lines (h : ReadAlike py info) (hm : IsWord info.method) (hh : IsWord info.host) :
    ∀ line ∈ (urlPart info).splitOn (chr '\n'), LineAlike py line := by
  obtain ⟨text, lines, hlines⟩ :=
    List.exists_cons_of_ne_nil (List.splitOn_ne_nil (chr '\n') (splitUrl info.url).1)
  have hurl := h.url
  have hadded := h.added
  rw [urlLines, hlines] at hurl hadded
  obtain ⟨hne, hutf8⟩ := hurl text rfl
  rw [splitOn_urlPart hm hh hlines]
  exact List.forall_mem_cons.mpr ⟨lineAlike_urlLine hm hh hne h.method h.host hutf8, hadded⟩

/-- Where the metadata are read alike, the readers agree. -/
theorem ReadAlike.agree (h : ReadAlike py info) (hpy : py.Documented) (hm : IsWord info.method)
    (hh : IsWord info.host) (hok : w.script.AllOk) {block : CString}
    (hread : w.fs.read p = some (toBytes (headerFileText info block))) : ReadersAgree py w p := by
  have hlines := h.lines hm hh
  have hstatus : info.status ≠ 0 := by
    intro hzero
    have hpos := h.status
    rw [hzero] at hpos
    exact absurd hpos (by decide)
  -- The module.
  have hmeta : metaLines (metaPart info) = ((urlPart info).splitOn (chr '\n')).foldl metaLine
      { CacherEntryMeta.unset with
        created := info.created, expires := info.expires, status := info.status } := by
    rw [metaLines_metaPart, foldl_metaLine_tokens]
  have hfinal : (metaLines (metaPart info)).status ≠ 0 :=
    hmeta ▸ foldl_metaLine_status hlines hstatus
  -- The tool.
  obtain ⟨entry, hload, hsame⟩ := foldlM_loadLine_of_alike hlines
    (sameFields_entryAtUrl h.expires (Int.le_of_lt h.status))
  have htext : ((textOf (metaPart info)).take 4096).splitOn '\n'
      = headLines info ++ ((urlPart info).splitOn (chr '\n')).map textOf := by
    rw [List.take_of_length_le h.length_le, textOf_metaPart,
      splitOn_flatMap_newline newline_notMem_headLines, splitOn_textOf]
  unfold ReadersAgree
  rw [run_cacherCacheReadMeta hok hread, run_load py hok hread,
    readMetaText_headerFileText hm.noNewline hh.noNewline, if_neg hfinal,
    loadText_headerFileText hpy hm hh h.return_notMem, htext, loadLines_headLines hpy, hload]
  exact .accepted (hmeta ▸ hsame)

/-! #### What agreement asks for -/

/-- No field holds a `\r`. -/
structure NoReturn (entry : Entry) : Prop where
  method : '\r' ∉ entry.method
  host : '\r' ∉ entry.host
  url : '\r' ∉ entry.url

theorem NoReturn.loadLine {entry entry' : Entry} (h : NoReturn entry) {line : PyStr}
    (hline : '\r' ∉ line) (hload : loadLine py entry line = some entry') : NoReturn entry' := by
  have hvalue : '\r' ∉ ((cutAt [' '] line).getD (line, [])).2 := by
    cases hcut : cutAt [' '] line with
    | none => exact List.not_mem_nil
    | some cut =>
        have heq := eq_append_of_cutAt (a := cut.1) (b := cut.2) hcut
        exact fun hmem => hline (heq ▸ List.mem_append_right _ hmem)
  unfold Tool.loadLine at hload
  dsimp only at hload
  split at hload
  · obtain ⟨n, -, rfl⟩ := Option.map_eq_some_iff.mp hload
    exact ⟨h.method, h.host, h.url⟩
  split at hload
  · obtain ⟨n, -, rfl⟩ := Option.map_eq_some_iff.mp hload
    exact ⟨h.method, h.host, h.url⟩
  split at hload
  · split at hload
    · exact Option.some.inj hload ▸ h
    rename_i method rest hmethod
    split at hload
    · exact Option.some.inj hload ▸ h
    rename_i host url hhost
    obtain rfl := Option.some.inj hload
    have h₁ := eq_append_of_cutAt hmethod
    have h₂ := eq_append_of_cutAt hhost
    rw [h₁, h₂] at hvalue
    simp only [List.mem_append, not_or] at hvalue
    exact ⟨hvalue.1.1, hvalue.2.1.1, hvalue.2.2⟩
  · exact Option.some.inj hload ▸ h

theorem NoReturn.foldlM_loadLine {lines : List PyStr} {entry entry' : Entry} (h : NoReturn entry)
    (hlines : ∀ line ∈ lines, '\r' ∉ line)
    (hload : lines.foldlM (Tool.loadLine py) entry = some entry') : NoReturn entry' := by
  induction lines generalizing entry with
  | nil => exact Option.some.inj hload ▸ h
  | cons line lines ih =>
      rw [List.foldlM_cons] at hload
      obtain ⟨entry₁, hline, hrest⟩ := Option.bind_eq_some_iff.mp hload
      exact ih (h.loadLine (hlines line List.mem_cons_self) hline)
        (fun x hx => hlines x (List.mem_cons_of_mem _ hx)) hrest

/-- What the tool reads holds no `\r`, because it has read an end of a line there. -/
theorem noReturn_of_loadText (hpy : py.Documented) {b : Bytes} {n : Nat} {entry : Entry}
    (hload : loadText py ((py.decode b).take n) = .entry entry) : NoReturn entry := by
  have htext : '\r' ∉ (py.decode b).take n := by
    rw [hpy.decode]
    exact fun h => return_notMem_universalNewlines _ (List.mem_of_mem_take h)
  generalize (py.decode b).take n = text at htext hload
  have hmeta : ((cutAt ['\n', '\n'] text).map (·.1)).getD text ⊆ text := by
    cases hcut : cutAt ['\n', '\n'] text with
    | none => exact List.Subset.refl _
    | some cut =>
        have heq := eq_append_of_cutAt (a := cut.1) (b := cut.2) hcut
        intro c hc
        rw [heq]
        exact List.mem_append_left _ (List.mem_append_left _ hc)
  have hlines : ∀ line ∈ (((cutAt ['\n', '\n'] text).map (·.1)).getD text).splitOn '\n',
      '\r' ∉ line := fun line hline h => htext (hmeta (subset_of_mem_splitOn hline h))
  unfold loadText at hload
  split at hload
  · cases hload
  rename_i first lines hsplit
  split at hload
  · cases hload
  split at hload
  · cases hload
  · rename_i entry' hfold
    obtain rfl := Loaded.entry.inj hload
    rw [hsplit] at hlines
    have hunset : NoReturn Entry.unset := ⟨by decide, by decide, by decide⟩
    exact hunset.foldlM_loadLine (fun x hx => hlines x (List.mem_cons_of_mem _ hx)) hfold

/-- A url line that is cut off gives the fields that it shows, or none. -/
theorem loadLine_url_cases {entry entry' : Entry} {value : PyStr}
    (hload : loadLine py entry ("url".toList ++ ' ' :: value) = some entry') :
    entry' = entry ∨ value = entry'.method ++ ' ' :: (entry'.host ++ ' ' :: entry'.url)
      ∧ entry'.expires = entry.expires ∧ entry'.status = entry.status := by
  rw [loadLine_url] at hload
  split at hload
  · exact Or.inl (Option.some.inj hload).symm
  rename_i method rest hmethod
  split at hload
  · exact Or.inl (Option.some.inj hload).symm
  rename_i host url hhost
  obtain rfl := Option.some.inj hload
  have h₁ := eq_append_of_cutAt hmethod
  have h₂ := eq_append_of_cutAt hhost
  refine Or.inr ⟨?_, rfl, rfl⟩
  rw [h₁, h₂]
  simp

/-- The fields of the metadata without a `\r` are read without one. -/
theorem return_notMem_metaPart (hline : chr '\n' ∉ info.url) {entry : Entry}
    (hentry : NoReturn entry) (hsame : SameFields entry info) : chr '\r' ∉ metaPart info := by
  have hfield : ∀ {s : PyStr} {field : CString}, encode s = toBytes field → '\r' ∉ s →
      chr '\r' ∉ field := by
    intro s field heq hs hmem
    have hbyte : (chr '\r').val ∈ encode s := heq ▸ List.mem_map_of_mem hmem
    exact hs (mem_of_mem_encode (by decide) hbyte)
  have hdecimal : ∀ i : Int, chr '\r' ∉ decimal i := fun i =>
    notMem_decimal_of_isSpace (by decide)
  have hmethod := hfield hsame.method hentry.method
  have hhost := hfield hsame.host hentry.host
  have hurl := hfield hsame.url hentry.url
  rw [metaPart, splitUrl_of_notMem hline]
  simp only [List.mem_append, List.mem_cons, not_or]
  exact ⟨by decide, by decide, ⟨by decide, hdecimal _⟩, by decide, ⟨by decide, hdecimal _⟩,
    by decide, ⟨by decide, hdecimal _⟩, by decide, by decide, hmethod, by decide, hhost, by decide,
    hurl⟩

/-- The tool never rejects a written file, so where the readers agree, both accept it. -/
theorem exists_entry_of_agree (hpy : py.Documented) (hm : IsWord info.method) (hh : IsWord info.host)
    (hne : info.url ≠ []) (hline : chr '\n' ∉ info.url) (hok : w.script.AllOk) {block : CString}
    (hread : w.fs.read p = some (toBytes (headerFileText info block)))
    (h : ReadersAgree py w p) :
    ∃ entry, loadText py ((py.decode (toBytes (headerFileText info block))).take 4096) = .entry entry
      ∧ info.status ≠ 0 ∧ SameFields entry info := by
  have hloaded := loadText_ne_notLoaded hpy info block
  unfold ReadersAgree at h
  rw [run_cacherCacheReadMeta hok hread, run_load py hok hread,
    readMetaText_headerFileText hm.noNewline hh.noNewline,
    metaLines_metaPart_of_notMem hm hh hne hline] at h
  generalize loadText py ((py.decode (toBytes (headerFileText info block))).take 4096) = loaded
    at h hloaded
  by_cases hstatus : info.status = 0
  · rw [if_pos hstatus] at h
    cases h
    exact absurd rfl hloaded
  · rw [if_neg hstatus] at h
    cases h with
    | accepted hsame => exact ⟨_, rfl, hstatus, hsame⟩

/-- What stands behind the keyword of the url line, as text. -/
def urlText (info : CacherEntryMeta) : PyStr :=
  textOf info.method ++ ' ' :: (textOf info.host ++ ' ' :: textOf info.url)

/-- How many characters of it the tool sees. -/
def urlRoom (info : CacherEntryMeta) : Nat :=
  4092 - ((headLines info).flatMap (· ++ ['\n'])).length

theorem textOf_urlPart (hline : chr '\n' ∉ info.url) :
    textOf (urlPart info) = "url".toList ++ ' ' :: urlText info := by
  rw [urlPart, splitUrl_of_notMem hline, textOf_urlLine, urlText]

theorem length_textOf_metaPart (hline : chr '\n' ∉ info.url) :
    (textOf (metaPart info)).length ≤ 4096 ↔ (urlText info).length ≤ urlRoom info := by
  have hhead := length_headLines_le info
  have hkey : ("url".toList ++ ' ' :: urlText info).length = (urlText info).length + 4 := rfl
  rw [textOf_metaPart, textOf_urlPart hline, List.length_append, hkey, urlRoom]
  omega

theorem newline_notMem_urlText (hm : IsWord info.method) (hh : IsWord info.host)
    (hline : chr '\n' ∉ info.url) : '\n' ∉ urlText info := by
  simp only [urlText, List.mem_append, List.mem_cons, not_or]
  exact ⟨fun h => hm.noNewline (mem_of_mem_textOf rfl (by decide) h), by decide,
    fun h => hh.noNewline (mem_of_mem_textOf rfl (by decide) h), by decide,
    fun h => hline (mem_of_mem_textOf rfl (by decide) h)⟩

/-- With the url in one line, the tool's entry comes from what it has seen of this line. -/
theorem loadLine_of_loadText (hpy : py.Documented) (hm : IsWord info.method)
    (hh : IsWord info.host) (hline : chr '\n' ∉ info.url) (hreturn : chr '\r' ∉ metaPart info)
    {block : CString} {entry : Entry}
    (hload : loadText py ((py.decode (toBytes (headerFileText info block))).take 4096)
      = .entry entry) :
    loadLine py (entryAtUrl info) ("url".toList ++ ' ' :: (urlText info).take (urlRoom info))
      = some entry := by
  have hhead := length_headLines_le info
  have hroom : 4096 - ((headLines info).flatMap (· ++ ['\n'])).length = urlRoom info + 4 := by
    rw [urlRoom]
    omega
  have hseen : (textOf (urlPart info)).take
      (4096 - ((headLines info).flatMap (· ++ ['\n'])).length)
        = "url".toList ++ ' ' :: (urlText info).take (urlRoom info) := by
    rw [hroom, textOf_urlPart hline]
    rfl
  have hnewline : '\n' ∉ "url".toList ++ ' ' :: (urlText info).take (urlRoom info) := by
    simp only [List.mem_append, List.mem_cons, not_or]
    exact ⟨by decide, by decide,
      fun h => newline_notMem_urlText hm hh hline (List.mem_of_mem_take h)⟩
  rw [loadText_headerFileText hpy hm hh hreturn, splitOn_take_metaPart, hseen,
    List.splitOn_eq_singleton hnewline, loadLines_headLines hpy, List.foldlM_cons] at hload
  cases hload' : loadLine py (entryAtUrl info)
      ("url".toList ++ ' ' :: (urlText info).take (urlRoom info)) with
  | none =>
      rw [hload'] at hload
      cases hload
  | some entry' =>
      rw [hload'] at hload
      exact congrArg some (Loaded.entry.inj hload)

/-- Where the readers agree on a url in one line, the metadata are read alike. -/
theorem readAlike_of_agree (hpy : py.Documented) (hm : IsWord info.method) (hh : IsWord info.host)
    (hne : info.url ≠ []) (hline : chr '\n' ∉ info.url) (hok : w.script.AllOk) {block : CString}
    (hread : w.fs.read p = some (toBytes (headerFileText info block)))
    (h : ReadersAgree py w p) : ReadAlike py info := by
  obtain ⟨entry, hload, hstatus, hsame⟩ := exists_entry_of_agree hpy hm hh hne hline hok hread h
  have hreturn := return_notMem_metaPart hline (noReturn_of_loadText hpy hload) hsame
  have hurl := loadLine_url_cases (loadLine_of_loadText hpy hm hh hline hreturn hload)
  -- The numbers are those in front of the url line.
  have hnumbers : entry.expires = max info.expires.toInt 0
      ∧ entry.status = max info.status.toInt 0 := by
    rcases hurl with rfl | ⟨-, hexpires, hstatus⟩
    · exact ⟨rfl, rfl⟩
    · exact ⟨hexpires, hstatus⟩
  have hexpires := hsame.expires
  have hstatus' := hsame.status
  have hnonzero : info.status.toInt ≠ 0 := fun h => hstatus (Int32.toInt_inj.mp h)
  -- The tool has seen all of the url line, because the fields are whole.
  have htext : ∀ {t : PyStr} {s : CString}, encode t = toBytes s → textOf s = t := by
    intro t s heq
    rw [textOf, ← heq, decode_encode]
  have hvalue : urlText info = entry.method ++ ' ' :: (entry.host ++ ' ' :: entry.url) := by
    rw [urlText, htext hsame.method, htext hsame.host, htext hsame.url]
  have hlength : (urlText info).length ≤ urlRoom info := by
    rcases hurl with heq | ⟨hshown, -⟩
    · have hhead := length_headLines_le info
      rw [hvalue, heq, urlRoom]
      show 5 ≤ _
      omega
    · rw [← hvalue] at hshown
      have hlen := congrArg List.length hshown
      rw [List.length_take] at hlen
      omega
  have hlines : urlLines info.url = [info.url] := by
    rw [urlLines, splitUrl_of_notMem hline, List.splitOn_eq_singleton hline]
  refine ⟨hreturn, (length_textOf_metaPart hline).mpr hlength, by omega, by omega,
    ⟨_, hsame.method.symm⟩, ⟨_, hsame.host.symm⟩, ?_, ?_⟩
  · rw [hlines]
    rintro text htext
    obtain rfl := Option.some.inj htext
    exact ⟨hne, ⟨_, hsame.url.symm⟩⟩
  · rw [hlines]
    intro line hmem
    cases hmem

end Readers

/-- The readers agree on metadata that are read alike, and where the url is in one line, on no
others. -/
theorem readersAgree_readAlike (py : Python) (hpy : py.Documented) (w : World) (p : Path)
    (info : CacherEntryMeta) (block : CString) (hm : IsWord info.method) (hh : IsWord info.host)
    (hok : w.script.AllOk) (hread : w.fs.read p = some (toBytes (headerFileText info block))) :
    (ReadAlike py info → ReadersAgree py w p)
      ∧ (info.url ≠ [] → chr '\n' ∉ info.url → (ReadersAgree py w p ↔ ReadAlike py info)) :=
  ⟨fun h => h.agree hpy hm hh hok hread, fun hne hline =>
    ⟨readAlike_of_agree hpy hm hh hne hline hok hread, fun h => h.agree hpy hm hh hok hread⟩⟩

/-! ### A long url -/

/-- The header of the page `url` of the host `h`. -/
theorem read_ofUrl (url : CString) :
    (World.ofUrl url).fs.read pathsOfGetA.headerPath
      = some (toBytes (headerFileText (CacherEntryMeta.page url) [])) := rfl

theorem isWord_page (url : CString) :
    IsWord (CacherEntryMeta.page url).method ∧ IsWord (CacherEntryMeta.page url).host :=
  ⟨isWord_get, isWord_h⟩

/-- An ASCII url of more than 4096 bytes is cut off. -/
theorem not_readersAgree_of_length_lt {url : CString} (hascii : IsAsciiBytes url)
    (hline : chr '\n' ∉ url) (hlen : 4096 < url.length) :
    ¬ ReadersAgree Python.ascii (World.ofUrl url) pathsOfGetA.headerPath := by
  intro h
  have hne : url ≠ [] := List.ne_nil_of_length_pos (by omega)
  have halike : ReadAlike Python.ascii (CacherEntryMeta.page url) :=
    readAlike_of_agree Python.documented_ascii (isWord_page url).1 (isWord_page url).2 hne hline
      (Script.allOk_steady 100) (read_ofUrl url) h
  have htext : (textOf url).length = url.length := by
    rw [textOf, decode_of_lt hascii.toBytes, List.length_map, toBytes, List.length_map]
  have hurlPart : textOf (urlPart (CacherEntryMeta.page url))
      = "url".toList ++ ' ' :: (textOf (lit "GET") ++ ' ' ::
        (textOf (lit "h") ++ ' ' :: textOf url)) := by
    rw [← textOf_urlLine, urlPart]
    show textOf (_ ++ (_ ++ chr ' ' :: (_ ++ chr ' ' :: (splitUrl url).1))) = _
    rw [splitUrl_of_notMem hline]
    rfl
  have hle := halike.length_le
  rw [textOf_metaPart, hurlPart] at hle
  simp only [List.length_append, List.length_cons] at hle
  omega

/-- The tool cuts off the end of a url of 4097 bytes. -/
theorem not_readersAgree_long :
    ¬ ReadersAgree Python.ascii (World.ofUrl (chr '/' :: List.replicate 4096 (chr 'a')))
      pathsOfGetA.headerPath := by
  have hmem : ∀ c ∈ chr '/' :: List.replicate 4096 (chr 'a'), c = chr '/' ∨ c = chr 'a' := by
    intro c hc
    exact (List.mem_cons.mp hc).imp_right List.eq_of_mem_replicate
  refine not_readersAgree_of_length_lt (fun c hc => ?_) (fun hc => ?_) ?_
  · rcases hmem c hc with rfl | rfl
    · decide
    · decide
  · rcases hmem _ hc with heq | heq
    · exact absurd heq (by decide)
    · exact absurd heq (by decide)
  · rw [List.length_cons, List.length_replicate]
    omega

/-- Both readers find the same in the header of `/a`. -/
theorem readersAgree_getA :
    ReadersAgree Python.ascii (World.ofUrl (lit "/a")) pathsOfGetA.headerPath := by
  have hlines : urlLines (CacherEntryMeta.page (lit "/a")).url = [lit "/a"] := by decide +kernel
  have hascii : IsAsciiBytes (lit "GET") ∧ IsAsciiBytes (lit "h") ∧ IsAsciiBytes (lit "/a") := by
    decide +kernel
  have halike : ReadAlike Python.ascii (CacherEntryMeta.page (lit "/a")) := by
    refine ⟨by decide +kernel, by decide +kernel, by decide +kernel, by decide +kernel,
      hascii.1.isUtf8, hascii.2.1.isUtf8, ?_, ?_⟩
    · rw [hlines]
      rintro text htext
      obtain rfl := Option.some.inj htext
      exact ⟨List.cons_ne_nil _ _, hascii.2.2.isUtf8⟩
    · rw [hlines]
      intro line hmem
      cases hmem
  have hwords := isWord_page (lit "/a")
  exact (readersAgree_readAlike Python.ascii Python.documented_ascii (World.ofUrl (lit "/a"))
    pathsOfGetA.headerPath (CacherEntryMeta.page (lit "/a")) [] hwords.1 hwords.2
    (Script.allOk_steady 100) (read_ofUrl (lit "/a"))).1 halike

end Cacher
