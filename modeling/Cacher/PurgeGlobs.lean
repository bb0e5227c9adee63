import Cacher.Glob
import Cacher.Purge
import Cacher.Python

/-!
# `Cacher.PurgeGlobs`: the patterns of the two purges

`cacher purge` matches its pattern with Python's `fnmatch`, and the purge over HTTP matches it with
`cacher_glob_match`. The first one reads text and knows the classes `[seq]`, the second one reads
bytes, and a bracket is a character like any other. `selects_eq` says where this makes no
difference: `CommonGlob` is what the pattern and the entry must be free of.

The star of `cacher_glob_match` that meets a star of the entry is left out, too: it takes that one
character only (`cacherGlobMatch_iff`).
-/

set_option autoImplicit false

namespace Cacher

open CText Files Glob Utf8 Tool

/-- Every byte is an ASCII character. -/
def IsAsciiBytes (s : CString) : Prop := ∀ c ∈ s, c.val.toNat < 128

instance (s : CString) : Decidable (IsAsciiBytes s) :=
  inferInstanceAs (Decidable (∀ c ∈ s, c.val.toNat < 128))

theorem IsAsciiBytes.toBytes {s : CString} (h : IsAsciiBytes s) :
    ∀ b ∈ toBytes s, b.toNat < 128 := by
  intro b hb
  obtain ⟨c, hc, rfl⟩ := List.mem_map.mp hb
  exact h c hc

theorem IsAsciiBytes.isUtf8 {s : CString} (h : IsAsciiBytes s) : IsUtf8 (CText.toBytes s) :=
  isUtf8_of_lt h.toBytes

/-! ### Bytes and characters -/

section Language

variable {pattern rest value v : CString} {P : PyStr} {c : Char}

theorem piece_false {x : CChar} (hstar : x ≠ chr '*') (hany : x ≠ chr '?') :
    piece false x = .one fun c => decide (x = c) := by
  rw [piece, if_neg hstar, if_neg hany]
  congr 1
  funext c
  exact decide_eq_decide.mpr Subtype.ext_iff.symm

/-- A part of the pattern that is no star and no question mark stands for itself. -/
theorem inLanguage_append_iff {text : CString} (h : ∀ x ∈ text, x ≠ chr '*' ∧ x ≠ chr '?') :
    InLanguage false (text ++ rest) value
      ↔ ∃ v, value = text ++ v ∧ InLanguage false rest v := by
  induction text generalizing value with
  | nil => simp
  | cons x text ih =>
      obtain ⟨hstar, hany⟩ := h x List.mem_cons_self
      have ih : ∀ value, InLanguage false (text ++ rest) value
          ↔ ∃ v, value = text ++ v ∧ InLanguage false rest v :=
        fun value => ih fun y hy => h y (List.mem_cons_of_mem _ hy)
      rw [InLanguage, List.cons_append, List.map_cons, piece_false hstar hany]
      cases value with
      | nil => simp [Matches]
      | cons d value =>
          show decide (x = d) = true ∧ InLanguage false (text ++ rest) value ↔ _
          rw [ih, decide_eq_true_iff]
          constructor
          · rintro ⟨rfl, v, rfl, hrest⟩
            exact ⟨v, rfl, hrest⟩
          · rintro ⟨v, heq, hrest⟩
            obtain ⟨rfl, rfl⟩ := List.cons.inj heq
            exact ⟨rfl, v, rfl, hrest⟩

/-- The bytes of the pattern's first character. -/
theorem exists_of_toBytes_eq_cons (h : toBytes pattern = encode (c :: P)) :
    ∃ text rest, pattern = text ++ rest ∧ toBytes text = String.utf8EncodeChar c
      ∧ toBytes rest = encode P := by
  rw [encode_cons] at h
  obtain ⟨text, rest, heq, htext, hrest⟩ := List.map_eq_append_iff.mp h
  exact ⟨text, rest, heq, htext, hrest⟩

theorem eq_chr_of_toBytes {text : CString} {d : Char} (hd : (chr d).val = UInt8.ofNat d.toNat)
    (hlt : d.toNat < 128) (h : toBytes text = String.utf8EncodeChar d) : text = [chr d] := by
  rw [utf8EncodeChar_of_lt hlt, ← hd] at h
  exact List.map_injective_iff.mpr Subtype.val_injective h

/-- The bytes of another character are no stars and no question marks. -/
theorem ne_chr_of_toBytes {text : CString} {d : Char} (hd : (chr d).val = UInt8.ofNat d.toNat)
    (hlt : d.toNat < 128) (hc : c ≠ d) (h : toBytes text = String.utf8EncodeChar c) :
    ∀ x ∈ text, x ≠ chr d := by
  rintro x hx rfl
  have hmem : (chr d).val ∈ String.utf8EncodeChar c := h ▸ List.mem_map_of_mem hx
  exact hc (eq_of_mem_utf8EncodeChar hlt (hd ▸ hmem))

theorem plain_of_toBytes {text : CString} (hstar : c ≠ '*') (hany : c ≠ '?')
    (h : toBytes text = String.utf8EncodeChar c) : ∀ x ∈ text, x ≠ chr '*' ∧ x ≠ chr '?' :=
  fun x hx => ⟨ne_chr_of_toBytes rfl (by decide) hstar h x hx,
    ne_chr_of_toBytes rfl (by decide) hany h x hx⟩

/-- What a pattern matches behind a star, it matches from the first byte of a character on. -/
theorem exists_boundary (hpattern : toBytes pattern = encode P)
    (hany : '?' ∈ P → IsAsciiBytes v) (h : InLanguage false pattern v) :
    ∃ v', v' <:+ v ∧ Boundary (toBytes v') ∧ InLanguage false pattern v' := by
  induction P generalizing pattern v with
  | nil =>
      obtain rfl : pattern = [] := List.map_eq_nil_iff.mp hpattern
      have hnil : v = [] := h
      exact ⟨v, List.suffix_rfl, by rw [hnil]; exact boundary_nil, h⟩
  | cons c P ih =>
      obtain ⟨text, rest, rfl, htext, hrest⟩ := exists_of_toBytes_eq_cons hpattern
      by_cases hstar : c = '*'
      · subst hstar
        obtain rfl := eq_chr_of_toBytes rfl (by decide) htext
        obtain ⟨w, hw, hmatch⟩ := h
        obtain ⟨v', hv', hboundary, hmatch'⟩ := ih hrest
          (fun hmem d hd => hany (List.mem_cons_of_mem _ hmem) d (hw.subset hd)) hmatch
        exact ⟨v', hv'.trans hw, hboundary, v', List.suffix_rfl, hmatch'⟩
      · refine ⟨v, List.suffix_rfl, ?_, h⟩
        by_cases hq : c = '?'
        · subst hq
          cases v with
          | nil => exact boundary_nil
          | cons d v => exact boundary_of_lt (hany List.mem_cons_self d List.mem_cons_self) _
        · obtain ⟨v', rfl, -⟩ := (inLanguage_append_iff (plain_of_toBytes hstar hq htext)).mp h
          show Boundary (List.map _ (text ++ v'))
          rw [List.map_append]
          exact (show List.map (·.val) text = String.utf8EncodeChar c from htext) ▸
            boundary_char c _

/-- The language over the bytes of a value is the language over its characters. -/
def SameLanguage (pattern : CString) (P : PyStr) (value : CString) : Prop :=
  InLanguage false pattern value ↔ Matches (P.map Fnmatch.plainPiece) (decode (toBytes value))

/-- The value holds nothing that the pattern reads differently. -/
structure CommonValue (P : PyStr) (value : CString) : Prop where
  any : '?' ∈ P → IsAsciiBytes value
  replaced : Char.ofNat 0xFFFD ∈ P → IsUtf8 (toBytes value)

theorem CommonValue.tail (h : CommonValue (c :: P) value) : CommonValue P value :=
  ⟨fun hmem => h.any (List.mem_cons_of_mem _ hmem),
    fun hmem => h.replaced (List.mem_cons_of_mem _ hmem)⟩

/-- A star: the end of the value that the rest takes begins where a character begins. -/
theorem sameLanguage_star (hrest : toBytes rest = encode P) (h : CommonValue P value)
    (ih : ∀ v, CommonValue P v → SameLanguage rest P v) :
    (∃ v, v <:+ value ∧ InLanguage false rest v)
      ↔ ∃ y, y <:+ decode (toBytes value) ∧ Matches (P.map Fnmatch.plainPiece) y := by
  have hany : ∀ {v : CString}, v <:+ value → '?' ∈ P → IsAsciiBytes v :=
    fun hv hmem d hd => h.any hmem d (hv.subset hd)
  constructor
  · rintro ⟨w, hw, hmatch⟩
    obtain ⟨v, hv, hboundary, hmatch⟩ := exists_boundary hrest (hany hw) hmatch
    obtain ⟨front, rfl⟩ := hv.trans hw
    have hsplit : toBytes (front ++ v) = toBytes front ++ toBytes v := List.map_append
    have hvalid : Char.ofNat 0xFFFD ∈ P → IsUtf8 (toBytes v) := fun hmem =>
      IsUtf8.of_append (hsplit ▸ h.replaced hmem) hboundary
    refine ⟨decode (toBytes v), ?_, (ih v ⟨hany (List.suffix_append _ _), hvalid⟩).mp hmatch⟩
    rw [hsplit, decode_append _ hboundary]
    exact List.suffix_append _ _
  · rintro ⟨y, ⟨x, hx⟩, hmatch⟩
    obtain ⟨b, ⟨front, hb⟩, rfl, hvalid⟩ := exists_suffix_of_decode hx.symm
    obtain ⟨f, v, rfl, -, rfl⟩ := List.map_eq_append_iff.mp hb.symm
    exact ⟨v, List.suffix_append _ _, (ih v ⟨hany (List.suffix_append _ _),
      fun hmem => hvalid (h.replaced hmem)⟩).mpr hmatch⟩

/-- A character that stands for itself. -/
theorem sameLanguage_char {text : CString} (htext : toBytes text = String.utf8EncodeChar c)
    (h : CommonValue (c :: P) value) (ih : ∀ v, CommonValue P v → SameLanguage rest P v) :
    (∃ v, value = text ++ v ∧ InLanguage false rest v)
      ↔ Matches (.one (fun d => decide (d = c)) :: P.map Fnmatch.plainPiece)
        (decode (toBytes value)) := by
  have hsplit : ∀ v, toBytes (text ++ v) = String.utf8EncodeChar c ++ toBytes v := by
    intro v
    rw [← htext]
    exact List.map_append
  have hcommon : ∀ v, value = text ++ v → CommonValue P v := by
    rintro v rfl
    refine ⟨fun hmem x hx => h.tail.any hmem x (List.mem_append_right _ hx), fun hmem => ?_⟩
    exact IsUtf8.of_char (hsplit v ▸ h.tail.replaced hmem)
  constructor
  · rintro ⟨v, rfl, hmatch⟩
    rw [hsplit, decode_char]
    exact ⟨decide_eq_true rfl, (ih v (hcommon v rfl)).mp hmatch⟩
  · intro hmatch
    cases hread : decode (toBytes value) with
    | nil =>
        rw [hread] at hmatch
        exact hmatch.elim
    | cons d s =>
        rw [hread] at hmatch
        obtain ⟨hd, hmatch⟩ := hmatch
        obtain rfl := of_decide_eq_true hd
        have hchar : d ≠ Char.ofNat 0xFFFD ∨ IsUtf8 (toBytes value) := by
          by_cases hreplacement : d = Char.ofNat 0xFFFD
          · exact Or.inr (h.replaced (hreplacement ▸ List.mem_cons_self))
          · exact Or.inl hreplacement
        obtain ⟨b, hb, rfl⟩ := exists_of_decode_cons hread hchar
        obtain ⟨front, v, rfl, hfront, rfl⟩ := List.map_eq_append_iff.mp hb
        have hfront' : front = text :=
          List.map_injective_iff.mpr Subtype.val_injective (hfront.trans htext.symm)
        subst hfront'
        exact ⟨v, rfl, (ih v (hcommon v rfl)).mpr hmatch⟩

/-- A pattern without classes reads bytes and characters alike. -/
theorem sameLanguage_of_commonValue (hpattern : toBytes pattern = encode P)
    (h : CommonValue P value) : SameLanguage pattern P value := by
  unfold SameLanguage
  induction P generalizing pattern value with
  | nil =>
      obtain rfl : pattern = [] := List.map_eq_nil_iff.mp hpattern
      show value = [] ↔ decode (toBytes value) = []
      rw [decode_eq_nil, toBytes, List.map_eq_nil_iff]
  | cons c P ih =>
      obtain ⟨text, rest, rfl, htext, hrest⟩ := exists_of_toBytes_eq_cons hpattern
      by_cases hstar : c = '*'
      · subst hstar
        obtain rfl := eq_chr_of_toBytes rfl (by decide) htext
        exact sameLanguage_star hrest h.tail fun v hv => ih hrest hv
      by_cases hq : c = '?'
      · subst hq
        obtain rfl := eq_chr_of_toBytes rfl (by decide) htext
        cases value with
        | nil => exact Iff.rfl
        | cons d v =>
            have hascii : IsAsciiBytes (d :: v) := h.any List.mem_cons_self
            have hv : IsAsciiBytes v := fun x hx => hascii x (List.mem_cons_of_mem _ hx)
            show true = true ∧ InLanguage false rest v ↔ Matches _ (decode (d.val :: toBytes v))
            rw [decode_cons_of_lt (hascii d List.mem_cons_self)]
            show _ ↔ true = true ∧ Matches (P.map Fnmatch.plainPiece) (decode (toBytes v))
            rw [ih hrest ⟨fun _ => hv, fun _ => hv.isUtf8⟩]
      · have hplain : Fnmatch.plainPiece c = .one fun d => decide (d = c) := by
          rw [Fnmatch.plainPiece, if_neg hstar, if_neg hq]
        rw [inLanguage_append_iff (plain_of_toBytes hstar hq htext), List.map_cons, hplain]
        exact sameLanguage_char htext h fun v hv => ih hrest hv

end Language

/-! ### The two purges -/

/-- The entry of a header as the tool reads it. -/
def entryOf (info : CacherEntryMeta) : Entry where
  expires := info.expires.toInt
  status := info.status.toInt
  method := decode (toBytes info.method)
  host := decode (toBytes info.host)
  url := decode (toBytes info.url)

/-- The pattern and the entry are free of what the two purges read differently. -/
structure CommonGlob (pattern : PyStr) (info : CacherEntryMeta) : Prop where
  noClass : Fnmatch.OpensNoClass pattern
  /-- A question mark takes a character here and a byte there. -/
  any : '?' ∈ pattern → IsAsciiBytes info.host ∧ IsAsciiBytes info.url
  /-- The replacement character stands for bytes that are no text. -/
  replaced : Char.ofNat 0xFFFD ∈ pattern → IsUtf8 (toBytes info.url)
  host : IsUtf8 (toBytes info.host)
  /-- The star of the module that meets a star. -/
  star : '*' ∈ pattern → chr '*' ∉ info.host ∧ chr '*' ∉ info.url

/-- The purge is for the host of the entry, or both hosts are ASCII. -/
def ComparableHosts (hostname host : CString) : Prop :=
  hostname = host ∨ hostname ≠ [] ∧ IsAsciiBytes hostname ∧ IsAsciiBytes host

/-- Where nothing tells the languages apart, the module and the tool give the same answer. -/
theorem cacherGlobMatch_eq_fnmatch {P : PyStr} {pattern value : CString}
    (hpattern : toBytes pattern = encode P) (hclass : Fnmatch.OpensNoClass P)
    (hany : '?' ∈ P → IsAsciiBytes value)
    (hreplaced : Char.ofNat 0xFFFD ∈ P → IsUtf8 (toBytes value))
    (hstar : '*' ∈ P → chr '*' ∉ value) :
    cacherGlobMatch pattern value false = Fnmatch.fnmatch (decode (toBytes value)) P := by
  have halike : InLanguage false pattern value
      ↔ Matches (P.map Fnmatch.plainPiece) (decode (toBytes value)) :=
    sameLanguage_of_commonValue hpattern ⟨hany, hreplaced⟩
  rw [Bool.eq_iff_iff, Fnmatch.fnmatch_iff hclass, ← halike]
  by_cases hmem : '*' ∈ P
  · exact cacherGlobMatch_iff_inLanguage false (hstar hmem)
  · -- A pattern without a star.
    have hno : chr '*' ∉ pattern := by
      intro h
      have hbyte : (chr '*').val ∈ encode P := hpattern ▸ List.mem_map_of_mem h
      obtain ⟨c, hc, hbyte⟩ := List.mem_flatMap.mp hbyte
      exact hmem (eq_of_mem_utf8EncodeChar (d := '*') (by decide) hbyte ▸ hc)
    rw [cacherGlobMatch_iff]
    refine eager_iff_matches_of_noStar fun x hx heq => ?_
    obtain ⟨c, hc, rfl⟩ := List.mem_map.mp hx
    exact hno (piece_eq_star_iff.mp heq ▸ hc)

/-- Lower case of an ASCII text, in bytes. -/
theorem lower_decode {py : Python} (hpy : py.Documented) {s : CString} (hs : IsAsciiBytes s) :
    encode (py.lower (decode (toBytes s))) = s.map (tolower ·.val) := by
  have hlower : ∀ n < 128, (Char.ofNat n).toNat < 128 ∧ (tolower (UInt8.ofNat n)).toNat < 128
      ∧ (Char.ofNat n).toLower = Char.ofNat (tolower (UInt8.ofNat n)).toNat := by
    decide +kernel
  have hchar : ∀ c ∈ s, (Char.ofNat c.val.toNat).toNat < 128 ∧ (tolower c.val).toNat < 128
      ∧ (Char.ofNat c.val.toNat).toLower = Char.ofNat (tolower c.val).toNat := by
    intro c hc
    have h := hlower c.val.toNat (hs c hc)
    rwa [UInt8.ofNat_toNat] at h
  have hascii : IsAscii (decode (toBytes s)) := by
    rw [decode_of_lt hs.toBytes, toBytes, List.map_map]
    intro c hc
    obtain ⟨d, hd, rfl⟩ := List.mem_map.mp hc
    exact (hchar d hd).1
  have hbytes : ∀ b ∈ s.map (tolower ·.val), b.toNat < 128 := by
    intro b hb
    obtain ⟨c, hc, rfl⟩ := List.mem_map.mp hb
    exact (hchar c hc).2.1
  rw [hpy.lower _ hascii, decode_of_lt hs.toBytes, toBytes, List.map_map, List.map_map,
    ← encode_map_ofNat hbytes, List.map_map]
  congr 1
  exact List.map_congr_left fun c hc => (hchar c hc).2.2

/-- The comparison of the hosts is the same, too. -/
theorem cacherStreqCi_eq_lower {py : Python} (hpy : py.Documented) {hostname host : CString}
    (h : ComparableHosts hostname host) :
    cacherStreqCi host hostname = (decide (decode (toBytes hostname) = []) ||
      decide (py.lower (decode (toBytes host)) = py.lower (decode (toBytes hostname)))) := by
  rw [cacherStreqCi_eq_eqCi]
  rcases h with rfl | ⟨hne, hhostname, hhost⟩
  · simp
  · have hdecode : decode (toBytes hostname) ≠ [] := by
      rw [ne_eq, decode_eq_nil, toBytes, List.map_eq_nil_iff]
      exact hne
    rw [decide_eq_false hdecode, Bool.false_or, Bool.eq_iff_iff, decide_eq_true_iff, eqCi,
      beq_iff_eq, ← lower_decode hpy hhost, ← lower_decode hpy hhostname]
    exact ⟨encode_inj, congrArg encode⟩

/-- Where the pattern and the entry are common to both, the two purges select alike. -/
theorem selects_eq (py : Python) (hpy : py.Documented) (args : PurgeArgs) (pattern : CString)
    (hostname : CString) (info : CacherEntryMeta)
    (hpattern : toBytes pattern = encode args.pattern)
    (hhost : args.host = some (decode (toBytes hostname)))
    (hhosts : ComparableHosts hostname info.host) (hcommon : CommonGlob args.pattern info) :
    selects py args (entryOf info) = selectsEntry (AdminCtx.purge pattern) (some hostname) info := by
  have hurl : cacherGlobMatch pattern info.url false
      = Fnmatch.fnmatch (decode (toBytes info.url)) args.pattern :=
    cacherGlobMatch_eq_fnmatch hpattern hcommon.noClass
      (fun hmem => (hcommon.any hmem).2) hcommon.replaced fun hmem => (hcommon.star hmem).2
  have happend : toBytes (info.host ++ info.url) = toBytes info.host ++ toBytes info.url :=
    List.map_append
  obtain ⟨hostText, hhostText⟩ := hcommon.host
  have hdecode : decode (toBytes (info.host ++ info.url))
      = decode (toBytes info.host) ++ decode (toBytes info.url) := by
    rw [happend, hhostText, decode_encode_append, decode_encode]
  have hboth : cacherGlobMatch pattern (info.host ++ info.url) false
      = Fnmatch.fnmatch (decode (toBytes (info.host ++ info.url))) args.pattern :=
    cacherGlobMatch_eq_fnmatch hpattern hcommon.noClass (fun hmem c hc => ?_) (fun hmem => ?_)
      fun hmem hc => ?_
  · rw [selects, hhost, selectsEntry]
    dsimp only
    rw [AdminCtx.purge]
    dsimp only
    rw [hpy.fnmatch, hpy.fnmatch, Option.getD_some, cacherStreqCi_eq_lower hpy hhosts, hurl, hboth,
      hdecode]
    rfl
  · exact (List.mem_append.mp hc).elim ((hcommon.any hmem).1 c) ((hcommon.any hmem).2 c)
  · obtain ⟨urlText, hurlText⟩ := hcommon.replaced hmem
    exact ⟨hostText ++ urlText, by rw [happend, hhostText, hurlText, encode_append]⟩
  · exact (List.mem_append.mp hc).elim (hcommon.star hmem).1 (hcommon.star hmem).2

/-- A page of the host `h`. -/
def CacherEntryMeta.page (url : CString) : CacherEntryMeta :=
  ⟨100, 160, 200, lit "GET", lit "h", url⟩

/-- `cacher --host h purge` with this pattern. -/
def Tool.PurgeArgs.ofPattern (pattern : PyStr) : PurgeArgs := ⟨lit "/c", some ['h'], pattern, false⟩

/-- The page `/a[b]` is purged under its own name over HTTP only. -/
theorem not_selects_eq_class :
    ¬ selects Python.ascii (PurgeArgs.ofPattern "/a[b]".toList)
          (entryOf (CacherEntryMeta.page (lit "/a[b]")))
        = selectsEntry (AdminCtx.purge (lit "/a[b]")) (some (lit "h"))
          (CacherEntryMeta.page (lit "/a[b]")) := by
  decide +kernel

/-- Both purges take `/blog/1` for `/blog/*`. -/
theorem selects_eq_blog :
    selects Python.ascii (PurgeArgs.ofPattern "/blog/*".toList)
        (entryOf (CacherEntryMeta.page (lit "/blog/1")))
      = selectsEntry (AdminCtx.purge (lit "/blog/*")) (some (lit "h"))
        (CacherEntryMeta.page (lit "/blog/1")) := by
  have hbracket : '[' ∉ "/blog/*".toList := by decide
  have hhost : IsAsciiBytes (lit "h") := by decide +kernel
  refine selects_eq Python.ascii Python.documented_ascii _ _ _ _ (by decide +kernel)
    (by decide +kernel) (Or.inl rfl) ⟨fun s hs => ?_, fun h => ?_, fun h => ?_, hhost.isUtf8,
      fun _ => ?_⟩
  · exact absurd (hs.subset List.mem_cons_self) hbracket
  · exact absurd h (by decide)
  · exact absurd h (by decide)
  · decide

end Cacher
