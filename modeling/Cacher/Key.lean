import Cacher.Request
import Cacher.Lib.Files

/-!
# `Cacher.Key`: the cache key and the paths of an entry

`buildCacheKeyString` is the text that names a resource and its variant, and
`cacheKeyPaths` are the two files of the entry, named by the MD5 of that text. MD5 is
APR's and enters as a parameter.

The text is a concatenation, so the question is which of its parts can be read back.
`buildCacheKeyString_eq_iff` answers it: the method, the host and the vary values can,
and so can the concatenation of path and query. Where the path ends and the query
begins cannot, because the path is percent-decoded and may hold a `?` of its own.
-/

set_option autoImplicit false

namespace Cacher

open CText Files

/-- The method a request is keyed under: HEAD shares the key of GET. -/
def keyMethod (r : RequestRec) : CString := if r.headerOnly then lit "GET" else r.method

/-- The query with its leading `?`, or nothing when there is no query. -/
def queryText : Option CString → CString
  | some args => chr '?' :: args
  | none => []

/-- The path followed by the query. -/
def RequestHead.urlText (orig : RequestHead) : CString := orig.uri ++ queryText orig.args

/-- The request's value for one entry of `vary`. -/
def varyValue (r : RequestRec) (entry : CString) : Option CString :=
  match stripPrefix (lit "cookie:") entry with
  | some name => cacherGetCookie r name
  | none => r.headersIn.get entry

/-- What one entry of `vary` adds to the key. -/
def varyPart (r : RequestRec) (entry : CString) : CString :=
  (chr '\n' :: (entry ++ lit "=")) ++ (varyValue r entry).getD []

/-- `build_cache_key_string`. -/
def buildCacheKeyString (r : RequestRec) (rule : CacherRule) : CString :=
  let orig := cacherOriginalRequest r
  let key := keyMethod r ++ chr '\n' :: (r.hostname.getD [] ++ chr '\n' :: orig.urlText)
  match rule.vary with
  | none => key
  | some entries => entries.foldl (fun key entry => key ++ varyPart r entry) key

/-- An MD5 digest. -/
abbrev Digest := Vector UInt8 16

/-- The digit of a half byte in `hex_encode_md5`. -/
def hexDigit (n : UInt8) : CChar := (lit "0123456789abcdef").getD n.toNat (chr '0')

/-- `hex_encode_md5`. -/
def hexEncodeMd5 (digest : Digest) : CString :=
  digest.toList.flatMap fun b : UInt8 => [hexDigit ((b >>> 4) &&& 0xF), hexDigit (b &&& 0xF)]

/-- The files of a cache entry. They are named by the cache root and an MD5 digest, so no
other pair of paths can be built. -/
structure EntryPaths where
  cacheRoot : Path
  digest : Digest
  deriving DecidableEq

namespace EntryPaths

/-- What the paths of an entry have in common: the shard directory and the digest. -/
def stem (e : EntryPaths) : Path :=
  let hex := hexEncodeMd5 e.digest
  e.cacheRoot ++ chr '/' :: (hex.take 2 ++ chr '/' :: ((hex.drop 2).take 2 ++ chr '/' :: hex))

/-- The `header_path` of `cache_key_paths`. -/
def headerPath (e : EntryPaths) : Path := e.stem ++ lit ".header"

/-- The `body_path` of `cache_key_paths`. -/
def bodyPath (e : EntryPaths) : Path := e.stem ++ lit ".body"

/-- The `tmp_body_path` that a suffix yields. -/
def tmpBodyPath (e : EntryPaths) (suffix : TempSuffix) : Path :=
  e.bodyPath ++ chr '.' :: suffix.chars

/-- The `tmp_header_path` that a suffix yields. -/
def tmpHeaderPath (e : EntryPaths) (suffix : TempSuffix) : Path :=
  e.headerPath ++ chr '.' :: suffix.chars

end EntryPaths

/-- `cache_key_paths`. `none` is its failure without a cache root. -/
def cacheKeyPaths (md5 : CString → Digest) (r : RequestRec) (cacheRoot : Option CString)
    (rule : CacherRule) : Option EntryPaths :=
  cacheRoot.map fun root => { cacheRoot := root, digest := md5 (buildCacheKeyString r rule) }

/-! ### The names of the files -/

namespace EntryPaths

/-- A digit of `hex_encode_md5`. -/
theorem hexDigit_mem (n : UInt8) : hexDigit n ∈ lit "0123456789abcdef" := by
  rw [hexDigit, List.getD_eq_getElem?_getD]
  cases h : (lit "0123456789abcdef")[n.toNat]? with
  | none => decide
  | some c => exact List.mem_of_getElem? h

theorem length_hexEncodeMd5 (digest : Digest) : (hexEncodeMd5 digest).length = 32 := by
  simp [hexEncodeMd5, List.length_flatMap]

theorem mem_hexEncodeMd5 {digest : Digest} {c : CChar} (h : c ∈ hexEncodeMd5 digest) :
    c ∈ lit "0123456789abcdef" := by
  obtain ⟨b, -, hc⟩ := List.mem_flatMap.mp h
  simp only [List.mem_cons, List.not_mem_nil, or_false] at hc
  rcases hc with rfl | rfl
  · exact hexDigit_mem _
  · exact hexDigit_mem _

/-- The stem ends in a hexadecimal digit. -/
theorem getLast?_stem (e : EntryPaths) :
    ∃ c ∈ lit "0123456789abcdef", e.stem.getLast? = some c := by
  have hne : e.digest.toList ≠ [] := by
    intro h
    have := congrArg List.length h
    simp at this
  obtain ⟨front, b, hb⟩ : ∃ front b, e.digest.toList = front ++ [b] :=
    ⟨_, _, (List.dropLast_append_getLast hne).symm⟩
  refine ⟨hexDigit (b &&& 0xF), hexDigit_mem _, ?_⟩
  simp [stem, hexEncodeMd5, hb, List.getLast?_append, List.getLast?_cons]

theorem getLast?_headerPath (e : EntryPaths) : e.headerPath.getLast? = some (chr 'r') := by
  rw [headerPath, List.getLast?_append]
  rfl

theorem getLast?_bodyPath (e : EntryPaths) : e.bodyPath.getLast? = some (chr 'y') := by
  rw [bodyPath, List.getLast?_append]
  rfl

/-- A temporary name is not the header of any entry: in front of its last seven characters
it does not end in a hexadecimal digit. -/
theorem append_suffix_ne_headerPath {p : Path} {c : CChar} (hp : p.getLast? = some c)
    (hc : c ∉ lit "0123456789abcdef") (suffix : TempSuffix) (e : EntryPaths) :
    p ++ chr '.' :: suffix.chars ≠ e.headerPath := by
  intro h
  have hlen : (chr '.' :: suffix.chars).length = (lit ".header").length := by
    rw [List.length_cons, suffix.length_eq]
    rfl
  obtain ⟨d, hd, hlast⟩ := e.getLast?_stem
  rw [← (List.append_inj' h hlen).1, hp] at hlast
  cases hlast
  exact hc hd

/-- A temporary name is not the body of any entry: its last six characters hold no dot. -/
theorem append_suffix_ne_bodyPath (p : Path) (suffix : TempSuffix) (e : EntryPaths) :
    p ++ chr '.' :: suffix.chars ≠ e.bodyPath := by
  intro h
  obtain ⟨d, -, hlast⟩ := e.getLast?_stem
  obtain ⟨front, hfront⟩ := List.getLast?_eq_some_iff.mp hlast
  rw [bodyPath, hfront, List.append_assoc, ← List.singleton_append, ← List.append_assoc] at h
  have hlen : suffix.chars.length = ([d] ++ lit ".body").length := by
    rw [suffix.length_eq]
    rfl
  have hdot : chr '.' ∈ suffix.chars := by
    rw [(List.append_inj' h hlen).2]
    simp [lit]
  have hno : isAlnum (chr '.') = false := by decide
  rw [suffix.alnum _ hdot] at hno
  cases hno

theorem headerPath_ne_bodyPath (e e' : EntryPaths) : e.headerPath ≠ e'.bodyPath := by
  intro h
  have hlast := congrArg List.getLast? h
  rw [getLast?_headerPath, getLast?_bodyPath] at hlast
  revert hlast
  decide

theorem tmpBodyPath_ne_headerPath (e e' : EntryPaths) (suffix : TempSuffix) :
    e.tmpBodyPath suffix ≠ e'.headerPath :=
  append_suffix_ne_headerPath e.getLast?_bodyPath (by decide) suffix e'

theorem tmpBodyPath_ne_bodyPath (e e' : EntryPaths) (suffix : TempSuffix) :
    e.tmpBodyPath suffix ≠ e'.bodyPath := append_suffix_ne_bodyPath e.bodyPath suffix e'

theorem tmpHeaderPath_ne_headerPath (e e' : EntryPaths) (suffix : TempSuffix) :
    e.tmpHeaderPath suffix ≠ e'.headerPath :=
  append_suffix_ne_headerPath e.getLast?_headerPath (by decide) suffix e'

theorem tmpHeaderPath_ne_bodyPath (e e' : EntryPaths) (suffix : TempSuffix) :
    e.tmpHeaderPath suffix ≠ e'.bodyPath := append_suffix_ne_bodyPath e.headerPath suffix e'

/-- Temporary headers with different suffixes have different names. -/
theorem tmpHeaderPath_inj {e : EntryPaths} {s s' : TempSuffix}
    (h : e.tmpHeaderPath s = e.tmpHeaderPath s') : s = s' := by
  have hchars := List.append_cancel_left h
  cases s
  cases s'
  cases hchars
  rfl

theorem tmpBodyPath_ne_tmpHeaderPath (e e' : EntryPaths) (s s' : TempSuffix) :
    e.tmpBodyPath s ≠ e'.tmpHeaderPath s' := by
  intro h
  have hlen : (chr '.' :: s.chars).length = (chr '.' :: s'.chars).length := by
    rw [List.length_cons, List.length_cons, s.length_eq, s'.length_eq]
  exact headerPath_ne_bodyPath e' e (List.append_inj' h hlen).1.symm

/-- The directory of the first level that the entry is under. -/
def outerShard (e : EntryPaths) : Path := e.cacheRoot ++ chr '/' :: (hexEncodeMd5 e.digest).take 2

/-- The directory that the entry is in. -/
def shard (e : EntryPaths) : Path :=
  e.outerShard ++ chr '/' :: ((hexEncodeMd5 e.digest).drop 2).take 2

theorem stem_eq (e : EntryPaths) : e.stem = e.shard ++ chr '/' :: hexEncodeMd5 e.digest := by
  simp [stem, shard, outerShard, List.append_assoc]

theorem slash_notMem_hexEncodeMd5 (digest : Digest) : chr '/' ∉ hexEncodeMd5 digest :=
  fun h => absurd (mem_hexEncodeMd5 h) (by decide)

theorem slash_notMem_suffix (suffix : TempSuffix) : chr '/' ∉ suffix.chars := by
  intro h
  have hno : isAlnum (chr '/') = false := by decide
  rw [suffix.alnum _ h] at hno
  cases hno

/-- The names of the two directories that an entry is under. -/
theorem slash_notMem_outerName (e : EntryPaths) : chr '/' ∉ (hexEncodeMd5 e.digest).take 2 :=
  fun h => slash_notMem_hexEncodeMd5 _ (List.mem_of_mem_take h)

theorem slash_notMem_innerName (e : EntryPaths) :
    chr '/' ∉ ((hexEncodeMd5 e.digest).drop 2).take 2 :=
  fun h => slash_notMem_hexEncodeMd5 _ (List.mem_of_mem_drop (List.mem_of_mem_take h))

/-- A file of the entry is in the directory of the entry. -/
theorem dirname_stem_append (e : EntryPaths) {ext : CString} (h : chr '/' ∉ ext) :
    FileSystem.dirname (e.stem ++ ext) = e.shard := by
  rw [stem_eq, List.append_assoc, List.cons_append]
  refine FileSystem.dirname_append _ fun hmem => ?_
  rcases List.mem_append.mp hmem with hmem | hmem
  · exact slash_notMem_hexEncodeMd5 _ hmem
  · exact h hmem

/-- There it is named by the digest and what follows the stem. -/
theorem basename_stem_append (e : EntryPaths) {ext : CString} (h : chr '/' ∉ ext) :
    FileSystem.basename (e.stem ++ ext) = hexEncodeMd5 e.digest ++ ext := by
  rw [stem_eq, List.append_assoc, List.cons_append]
  refine FileSystem.basename_append _ fun hmem => ?_
  rcases List.mem_append.mp hmem with hmem | hmem
  · exact slash_notMem_hexEncodeMd5 _ hmem
  · exact h hmem

/-- The two directories lie one in the other, below the cache root. -/
theorem dirname_shard (e : EntryPaths) : FileSystem.dirname e.shard = e.outerShard :=
  FileSystem.dirname_append _ e.slash_notMem_innerName

theorem dirname_outerShard (e : EntryPaths) : FileSystem.dirname e.outerShard = e.cacheRoot :=
  FileSystem.dirname_append _ e.slash_notMem_outerName

theorem dirname_headerPath (e : EntryPaths) : FileSystem.dirname e.headerPath = e.shard :=
  e.dirname_stem_append (by decide)

theorem dirname_bodyPath (e : EntryPaths) : FileSystem.dirname e.bodyPath = e.shard :=
  e.dirname_stem_append (by decide)

theorem headerPath_eq (e : EntryPaths) :
    e.headerPath = e.shard ++ chr '/' :: (hexEncodeMd5 e.digest ++ lit ".header") := by
  rw [headerPath, stem_eq, List.append_assoc, List.cons_append]

theorem basename_headerPath (e : EntryPaths) :
    FileSystem.basename e.headerPath = hexEncodeMd5 e.digest ++ lit ".header" :=
  e.basename_stem_append (by decide)

theorem shard_append_basename (e : EntryPaths) :
    e.shard ++ chr '/' :: FileSystem.basename e.headerPath = e.headerPath := by
  rw [basename_headerPath, headerPath_eq]

theorem basename_bodyPath (e : EntryPaths) :
    FileSystem.basename e.bodyPath = hexEncodeMd5 e.digest ++ lit ".body" :=
  e.basename_stem_append (by decide)

/-- What a suffix adds to a name is no directory. -/
theorem slash_notMem_tmp (suffix : TempSuffix) {ext : CString} (h : chr '/' ∉ ext) :
    chr '/' ∉ ext ++ chr '.' :: suffix.chars := by
  intro hmem
  rcases List.mem_append.mp hmem with hmem | hmem
  · exact h hmem
  · rcases List.mem_cons.mp hmem with hmem | hmem
    · exact absurd hmem (by decide)
    · exact slash_notMem_suffix suffix hmem

theorem tmpHeaderPath_eq (e : EntryPaths) (suffix : TempSuffix) :
    e.tmpHeaderPath suffix = e.stem ++ (lit ".header" ++ chr '.' :: suffix.chars) := by
  rw [tmpHeaderPath, headerPath, List.append_assoc]

theorem tmpBodyPath_eq (e : EntryPaths) (suffix : TempSuffix) :
    e.tmpBodyPath suffix = e.stem ++ (lit ".body" ++ chr '.' :: suffix.chars) := by
  rw [tmpBodyPath, bodyPath, List.append_assoc]

theorem dirname_tmpHeaderPath (e : EntryPaths) (suffix : TempSuffix) :
    FileSystem.dirname (e.tmpHeaderPath suffix) = e.shard := by
  rw [tmpHeaderPath_eq]
  exact e.dirname_stem_append (slash_notMem_tmp suffix (by decide))

theorem dirname_tmpBodyPath (e : EntryPaths) (suffix : TempSuffix) :
    FileSystem.dirname (e.tmpBodyPath suffix) = e.shard := by
  rw [tmpBodyPath_eq]
  exact e.dirname_stem_append (slash_notMem_tmp suffix (by decide))

theorem basename_tmpHeaderPath (e : EntryPaths) (suffix : TempSuffix) :
    FileSystem.basename (e.tmpHeaderPath suffix)
      = hexEncodeMd5 e.digest ++ (lit ".header" ++ chr '.' :: suffix.chars) := by
  rw [tmpHeaderPath_eq]
  exact e.basename_stem_append (slash_notMem_tmp suffix (by decide))

theorem basename_tmpBodyPath (e : EntryPaths) (suffix : TempSuffix) :
    FileSystem.basename (e.tmpBodyPath suffix)
      = hexEncodeMd5 e.digest ++ (lit ".body" ++ chr '.' :: suffix.chars) := by
  rw [tmpBodyPath_eq]
  exact e.basename_stem_append (slash_notMem_tmp suffix (by decide))

/-- The byte that two digits encode. -/
def hexByte (high low : CChar) : UInt8 :=
  UInt8.ofNat ((lit "0123456789abcdef").idxOf high * 16 + (lit "0123456789abcdef").idxOf low)

theorem hexByte_hexDigits (b : UInt8) :
    hexByte (hexDigit ((b >>> 4) &&& 0xF)) (hexDigit (b &&& 0xF)) = b := by
  have hall : ∀ n : Fin 256, hexByte (hexDigit ((UInt8.ofNat n.val >>> 4) &&& 0xF))
      (hexDigit (UInt8.ofNat n.val &&& 0xF)) = UInt8.ofNat n.val := by decide +kernel
  have h := hall ⟨b.toNat, b.toNat_lt⟩
  rwa [UInt8.ofNat_toNat] at h

theorem hexEncodeMd5_inj {d d' : Digest} (h : hexEncodeMd5 d = hexEncodeMd5 d') : d = d' := by
  have hlist : ∀ l l' : List UInt8,
      (l.flatMap fun b : UInt8 => [hexDigit ((b >>> 4) &&& 0xF), hexDigit (b &&& 0xF)])
        = (l'.flatMap fun b : UInt8 => [hexDigit ((b >>> 4) &&& 0xF), hexDigit (b &&& 0xF)]) →
      l = l' := by
    intro l
    induction l with
    | nil =>
        intro l' h
        cases l' with
        | nil => rfl
        | cons b l' => cases h
    | cons b l ih =>
        intro l' h
        cases l' with
        | nil => cases h
        | cons b' l' =>
            simp only [List.flatMap_cons, List.cons_append, List.nil_append, List.cons.injEq] at h
            obtain ⟨hhigh, hlow, hrest⟩ := h
            rw [← hexByte_hexDigits b, hhigh, hlow, hexByte_hexDigits, ih l' hrest]
  exact Vector.toList_inj.mp (hlist _ _ h)

theorem digest_eq_of_headerPath {e e' : EntryPaths} (h : e.headerPath = e'.headerPath) :
    e.digest = e'.digest := by
  have hbase := congrArg FileSystem.basename h
  rw [e.basename_headerPath, e'.basename_headerPath] at hbase
  exact hexEncodeMd5_inj (List.append_cancel_right hbase)

theorem digest_eq_of_bodyPath {e e' : EntryPaths} (h : e.bodyPath = e'.bodyPath) :
    e.digest = e'.digest := by
  have hbase := congrArg FileSystem.basename h
  rw [e.basename_bodyPath, e'.basename_bodyPath] at hbase
  exact hexEncodeMd5_inj (List.append_cancel_right hbase)

end EntryPaths

/-! ### What the key determines -/

/-- No newline in the fields that httpd takes from the request line and the header lines. -/
structure RequestRec.LineFields (r : RequestRec) : Prop where
  method : chr '\n' ∉ r.method
  hostname : ∀ host, r.hostname = some host → chr '\n' ∉ host
  headersIn : ∀ e ∈ r.headersIn, chr '\n' ∉ e.2

theorem RequestRec.lineFields_get (uri : CString) (args : Option CString) :
    (RequestRec.get uri args).LineFields where
  method := by show chr '\n' ∉ lit "GET"; decide
  hostname _ h := by cases h
  headersIn _ h := by cases h

/-- Two requests ask for the same variant of the same resource under a rule. -/
structure SameVariant (rule : CacherRule) (r₁ r₂ : RequestRec) : Prop where
  method : keyMethod r₁ = keyMethod r₂
  hostname : r₁.hostname.getD [] = r₂.hostname.getD []
  uri : (cacherOriginalRequest r₁).uri = (cacherOriginalRequest r₂).uri
  args : (cacherOriginalRequest r₁).args = (cacherOriginalRequest r₂).args
  vary : ∀ entry ∈ rule.vary.getD [], (varyValue r₁ entry).getD [] = (varyValue r₂ entry).getD []

/-- Two requests agree on everything the key is made of except path and query. -/
structure SameKeyFields (rule : CacherRule) (r₁ r₂ : RequestRec) : Prop where
  method : keyMethod r₁ = keyMethod r₂
  hostname : r₁.hostname.getD [] = r₂.hostname.getD []
  vary : ∀ entry ∈ rule.vary.getD [], (varyValue r₁ entry).getD [] = (varyValue r₂ entry).getD []

/-- The path of `a` is the path of `b`, a literal `?` and some text that the query of `b`
starts with. The query of `b` goes on with the query of `a`, its `?` included. -/
def RequestHead.HidesQueryOf (a b : RequestHead) : Prop :=
  ∃ text, a.uri = b.uri ++ chr '?' :: text ∧ b.args = some (text ++ queryText a.args)

/-- A header value of the request holds no newline. -/
theorem notMem_get_headersIn {r : RequestRec} (h : r.LineFields) {name value : CString}
    (hget : r.headersIn.get name = some value) : chr '\n' ∉ value := by
  simp only [Table.get, Option.map_eq_some_iff] at hget
  obtain ⟨e, he, rfl⟩ := hget
  exact h.headersIn e (List.mem_of_find?_eq_some he)

/-- A vary value holds no newline. -/
theorem notMem_varyValue {r : RequestRec} (h : r.LineFields) (entry : CString) :
    chr '\n' ∉ (varyValue r entry).getD [] := by
  cases hv : varyValue r entry with
  | none => exact List.not_mem_nil
  | some value =>
      unfold varyValue at hv
      split at hv
      · intro hmem
        obtain ⟨header, hheader, hin⟩ := mem_header_of_mem_cookie (mem_of_cacherGetCookie hv) hmem
        exact notMem_get_headersIn h hheader hin
      · exact notMem_get_headersIn h hv

/-- The loop over `vary` appends its parts in order. -/
theorem buildCacheKeyString_eq (r : RequestRec) (rule : CacherRule) :
    buildCacheKeyString r rule
      = keyMethod r ++ chr '\n' :: (r.hostname.getD [] ++ chr '\n' ::
          ((cacherOriginalRequest r).urlText ++ (rule.vary.getD []).flatMap (varyPart r))) := by
  have hfold : ∀ (entries : List CString) (key : CString),
      entries.foldl (fun key entry => key ++ varyPart r entry) key
        = key ++ entries.flatMap (varyPart r) := by
    intro entries
    induction entries with
    | nil => intro key; simp
    | cons entry entries ih =>
        intro key
        rw [List.foldl_cons, ih, List.flatMap_cons, List.append_assoc]
  unfold buildCacheKeyString
  cases rule.vary with
  | none => simp
  | some entries => simp [hfold]

/-- Behind two texts, the same vary entries with newline-free values can be read back. -/
theorem append_varyParts_eq_iff {r₁ r₂ : RequestRec} (h₁ : r₁.LineFields) (h₂ : r₂.LineFields)
    (entries : List CString) (a b : CString) :
    a ++ entries.flatMap (varyPart r₁) = b ++ entries.flatMap (varyPart r₂)
      ↔ a = b ∧ ∀ entry ∈ entries,
          (varyValue r₁ entry).getD [] = (varyValue r₂ entry).getD [] := by
  -- The last part comes off first, so the induction is on the list from its end.
  induction entries using List.reverseRecOn with
  | nil => simp
  | append_singleton entries entry ih =>
      simp only [List.flatMap_append, List.flatMap_singleton, ← List.append_assoc,
        List.mem_append, List.mem_singleton]
      constructor
      · intro h
        simp only [varyPart, ← List.append_assoc] at h
        obtain ⟨hfront, hvalue⟩ := append_tag_inj (notMem_varyValue h₁ entry)
          (notMem_varyValue h₂ entry) h
        obtain ⟨hab, hrest⟩ := ih.mp hfront
        refine ⟨hab, ?_⟩
        rintro e (he | rfl)
        · exact hrest e he
        · exact hvalue
      · rintro ⟨hab, hvals⟩
        rw [ih.mpr ⟨hab, fun e he => hvals e (Or.inl he)⟩]
        simp only [varyPart, hvals entry (Or.inr rfl)]

/-- A newline-free field and the text behind the next newline can both be read back. -/
theorem append_newline_inj {a b s t : CString} (ha : chr '\n' ∉ a) (hb : chr '\n' ∉ b)
    (h : a ++ chr '\n' :: s = b ++ chr '\n' :: t) : a = b ∧ s = t := by
  have hcut := congrArg (cutAt [chr '\n']) h
  rw [cutAt_singleton_append ha, cutAt_singleton_append hb] at hcut
  simpa using hcut

theorem RequestRec.LineFields.notMem_keyMethod {r : RequestRec} (h : r.LineFields) :
    chr '\n' ∉ keyMethod r := by
  unfold keyMethod
  split
  · decide
  · exact h.method

theorem RequestRec.LineFields.notMem_hostname {r : RequestRec} (h : r.LineFields) :
    chr '\n' ∉ r.hostname.getD [] := by
  cases hh : r.hostname with
  | none => exact List.not_mem_nil
  | some host => exact h.hostname host hh

/-- What two equal keys say: every field agrees, and path and query agree as one text. -/
theorem buildCacheKeyString_eq_iff (rule : CacherRule) {r₁ r₂ : RequestRec}
    (h₁ : r₁.LineFields) (h₂ : r₂.LineFields) :
    buildCacheKeyString r₁ rule = buildCacheKeyString r₂ rule
      ↔ SameKeyFields rule r₁ r₂
        ∧ (cacherOriginalRequest r₁).urlText = (cacherOriginalRequest r₂).urlText := by
  rw [buildCacheKeyString_eq, buildCacheKeyString_eq]
  constructor
  · intro h
    obtain ⟨hmethod, h⟩ := append_newline_inj h₁.notMem_keyMethod h₂.notMem_keyMethod h
    obtain ⟨hhost, h⟩ := append_newline_inj h₁.notMem_hostname h₂.notMem_hostname h
    obtain ⟨hurl, hvary⟩ := (append_varyParts_eq_iff h₁ h₂ _ _ _).mp h
    exact ⟨⟨hmethod, hhost, hvary⟩, hurl⟩
  · rintro ⟨⟨hmethod, hhost, hvary⟩, hurl⟩
    rw [hmethod, hhost, (append_varyParts_eq_iff h₁ h₂ _ _ _).mpr ⟨hurl, hvary⟩]

/-- A query is determined by its text. -/
theorem queryText_inj {a b : Option CString} (h : queryText a = queryText b) : a = b := by
  cases a <;> cases b <;> simp_all [queryText]

/-- Two paths with their queries are the same text exactly when they are the same, or one
path hides the other's query. -/
theorem RequestHead.urlText_eq_iff (a b : RequestHead) :
    a.urlText = b.urlText
      ↔ (a.uri = b.uri ∧ a.args = b.args) ∨ a.HidesQueryOf b ∨ b.HidesQueryOf a := by
  have hside : ∀ {a b : RequestHead} {rest : CString}, a.uri = b.uri ++ rest →
      queryText b.args = rest ++ queryText a.args →
      (a.uri = b.uri ∧ a.args = b.args) ∨ a.HidesQueryOf b := by
    intro a b rest huri hquery
    cases rest with
    | nil => exact Or.inl ⟨by simpa using huri, (queryText_inj (by simpa using hquery)).symm⟩
    | cons c text =>
        cases hargs : b.args with
        | none => simp [hargs, queryText] at hquery
        | some args =>
            simp only [hargs, queryText, List.cons_append, List.cons.injEq] at hquery
            exact Or.inr ⟨text, by rw [huri, hquery.1], by rw [hargs, hquery.2]; rfl⟩
  have hhide : ∀ {a b : RequestHead}, a.HidesQueryOf b → a.urlText = b.urlText := by
    rintro a b ⟨text, huri, hargs⟩
    simp [RequestHead.urlText, huri, hargs, queryText]
  constructor
  · intro h
    rcases List.append_eq_append_iff.mp h with ⟨rest, hb, ha⟩ | ⟨rest, ha, hb⟩
    · rcases hside hb ha with ⟨huri, hargs⟩ | hide
      · exact Or.inl ⟨huri.symm, hargs.symm⟩
      · exact Or.inr (Or.inr hide)
    · rcases hside ha hb with hsame | hide
      · exact Or.inl hsame
      · exact Or.inr (Or.inl hide)
  · rintro (⟨huri, hargs⟩ | hide | hide)
    · simp [RequestHead.urlText, huri, hargs]
    · exact hhide hide
    · exact (hhide hide).symm

/-- A path that hides the query of another is a different path. -/
theorem RequestHead.HidesQueryOf.uri_ne {a b : RequestHead} (h : a.HidesQueryOf b) :
    a.uri ≠ b.uri := by
  obtain ⟨text, huri, -⟩ := h
  rw [huri]
  simp

/-- Equal keys mean the same variant of the same resource, except exactly when the two
requests agree on all other fields and one path hides the other's query. -/
theorem buildCacheKeyString_separates_iff (rule : CacherRule) (r₁ r₂ : RequestRec)
    (h₁ : r₁.LineFields) (h₂ : r₂.LineFields) :
    (buildCacheKeyString r₁ rule = buildCacheKeyString r₂ rule → SameVariant rule r₁ r₂)
      ↔ ¬ (SameKeyFields rule r₁ r₂
          ∧ ((cacherOriginalRequest r₁).HidesQueryOf (cacherOriginalRequest r₂)
            ∨ (cacherOriginalRequest r₂).HidesQueryOf (cacherOriginalRequest r₁))) := by
  rw [buildCacheKeyString_eq_iff rule h₁ h₂, RequestHead.urlText_eq_iff]
  constructor
  · rintro h ⟨hfields, hide⟩
    have huri := (h ⟨hfields, Or.inr hide⟩).uri
    rcases hide with hide | hide
    · exact hide.uri_ne huri
    · exact hide.uri_ne huri.symm
  · rintro h ⟨hfields, ⟨huri, hargs⟩ | hide⟩
    · exact ⟨hfields.method, hfields.hostname, huri, hargs, hfields.vary⟩
    · exact absurd ⟨hfields, hide⟩ h

/-- The key of `/a%3Fb` is the key of `/a?b`: the decoded path of the first request holds
the `?` that starts the query of the second. -/
theorem buildCacheKeyString_confuses_path_and_query :
    ¬ (buildCacheKeyString (RequestRec.get (lit "/a?b") none) (CacherRule.ofTtl 60)
          = buildCacheKeyString (RequestRec.get (lit "/a") (some (lit "b"))) (CacherRule.ofTtl 60)
        → SameVariant (CacherRule.ofTtl 60) (RequestRec.get (lit "/a?b") none)
            (RequestRec.get (lit "/a") (some (lit "b")))) := by
  intro h
  have huri := (h (by decide)).uri
  revert huri
  decide

/-- The separation at work on `/` and `/?b`. -/
theorem buildCacheKeyString_separates_query :
    (buildCacheKeyString (RequestRec.get (lit "/") none) (CacherRule.ofTtl 60)
          = buildCacheKeyString (RequestRec.get (lit "/") (some (lit "b"))) (CacherRule.ofTtl 60)
        → SameVariant (CacherRule.ofTtl 60) (RequestRec.get (lit "/") none)
            (RequestRec.get (lit "/") (some (lit "b"))))
      ↔ ¬ (SameKeyFields (CacherRule.ofTtl 60) (RequestRec.get (lit "/") none)
            (RequestRec.get (lit "/") (some (lit "b")))
          ∧ ((cacherOriginalRequest (RequestRec.get (lit "/") none)).HidesQueryOf
              (cacherOriginalRequest (RequestRec.get (lit "/") (some (lit "b"))))
            ∨ (cacherOriginalRequest (RequestRec.get (lit "/") (some (lit "b")))).HidesQueryOf
              (cacherOriginalRequest (RequestRec.get (lit "/") none)))) :=
  buildCacheKeyString_separates_iff _ _ _ (RequestRec.lineFields_get _ _)
    (RequestRec.lineFields_get _ _)

/-! ### Matching and keying -/

/-- Two requests with the same effective method, host, query and vary values. -/
structure SameButPath (rule : CacherRule) (r₁ r₂ : RequestRec) : Prop where
  method : keyMethod r₁ = keyMethod r₂
  hostname : r₁.hostname = r₂.hostname
  args : (cacherOriginalRequest r₁).args = (cacherOriginalRequest r₂).args
  vary : ∀ entry ∈ rule.vary.getD [], varyValue r₁ entry = varyValue r₂ entry

/-- The client asked for two different paths, and a translation of the uri has put one path
in place of both. `parsed_uri` still holds what the client asked for. -/
def TranslatedTogether (r₁ r₂ : RequestRec) : Prop :=
  (cacherOriginalRequest r₁).matchPath ≠ (cacherOriginalRequest r₂).matchPath
    ∧ (cacherOriginalRequest r₁).uri = (cacherOriginalRequest r₂).uri

/-- Among such requests the key tells the uris apart. -/
theorem SameButPath.buildCacheKeyString_eq_iff {rule : CacherRule} {r₁ r₂ : RequestRec}
    (h : SameButPath rule r₁ r₂) :
    buildCacheKeyString r₁ rule = buildCacheKeyString r₂ rule
      ↔ (cacherOriginalRequest r₁).uri = (cacherOriginalRequest r₂).uri := by
  have hvary : (rule.vary.getD []).flatMap (varyPart r₁)
      = (rule.vary.getD []).flatMap (varyPart r₂) :=
    List.flatMap_congr fun entry hentry => by simp only [varyPart, h.vary entry hentry]
  rw [buildCacheKeyString_eq, buildCacheKeyString_eq, h.method, h.hostname, hvary]
  simp only [RequestHead.urlText, h.args, List.append_assoc, List.append_cancel_left_eq,
    List.cons.injEq, true_and, List.append_cancel_right_eq]

/-- Requests that are matched by different paths have different keys, except exactly when a
translation has given them the same uri. -/
theorem buildCacheKeyString_separates_matchPath_iff {rule : CacherRule} {r₁ r₂ : RequestRec}
    (h : SameButPath rule r₁ r₂) :
    ((cacherOriginalRequest r₁).matchPath ≠ (cacherOriginalRequest r₂).matchPath →
        buildCacheKeyString r₁ rule ≠ buildCacheKeyString r₂ rule)
      ↔ ¬ TranslatedTogether r₁ r₂ := by
  constructor
  · rintro hkeys ⟨hpath, huri⟩
    exact hkeys hpath (h.buildCacheKeyString_eq_iff.mpr huri)
  · intro hno hpath hkey
    exact hno ⟨hpath, h.buildCacheKeyString_eq_iff.mp hkey⟩

/-- The request for `path`, handed to a front controller before the handler runs. -/
def RequestRec.translated (path : CString) : RequestRec :=
  { RequestRec.get (lit "/index.php") none with parsedPath := some path }

theorem sameButPath_translated (ttl : Int64) (path₁ path₂ : CString) :
    SameButPath (CacherRule.ofTtl ttl) (RequestRec.translated path₁)
      (RequestRec.translated path₂) where
  method := rfl
  hostname := rfl
  args := rfl
  vary _ hentry := by cases hentry

theorem sameButPath_get (ttl : Int64) (uri₁ uri₂ : CString) (args : Option CString) :
    SameButPath (CacherRule.ofTtl ttl) (RequestRec.get uri₁ args)
      (RequestRec.get uri₂ args) where
  method := rfl
  hostname := rfl
  args := rfl
  vary _ hentry := by cases hentry

/-- `/a` and `/b` are matched apart and stored together. -/
theorem buildCacheKeyString_confuses_translated :
    ¬ (SameButPath (CacherRule.ofTtl 60) (RequestRec.translated (lit "/a"))
          (RequestRec.translated (lit "/b")) →
        (cacherOriginalRequest (RequestRec.translated (lit "/a"))).matchPath
          ≠ (cacherOriginalRequest (RequestRec.translated (lit "/b"))).matchPath →
        buildCacheKeyString (RequestRec.translated (lit "/a")) (CacherRule.ofTtl 60)
          ≠ buildCacheKeyString (RequestRec.translated (lit "/b")) (CacherRule.ofTtl 60)) := by
  intro h
  exact h (sameButPath_translated _ _ _) (by decide) (by decide)

/-- Without a translation, `/a` and `/b` are stored apart. -/
theorem buildCacheKeyString_separates_matchPath_get :
    ((cacherOriginalRequest (RequestRec.get (lit "/a") none)).matchPath
          ≠ (cacherOriginalRequest (RequestRec.get (lit "/b") none)).matchPath →
        buildCacheKeyString (RequestRec.get (lit "/a") none) (CacherRule.ofTtl 60)
          ≠ buildCacheKeyString (RequestRec.get (lit "/b") none) (CacherRule.ofTtl 60))
      ↔ ¬ TranslatedTogether (RequestRec.get (lit "/a") none) (RequestRec.get (lit "/b") none) :=
  buildCacheKeyString_separates_matchPath_iff (sameButPath_get _ _ _ _)

end Cacher
