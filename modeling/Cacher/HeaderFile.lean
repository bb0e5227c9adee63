import Cacher.Key
import Cacher.Lib.Decimal

/-!
# `Cacher.HeaderFile`: the text of a `.header` file

A header file is five lines of metadata, a blank line, and the stored response headers.
`headerFileText` is what `finalize_cache_entry` prints and `readMetaText` is what
`cacher_cache_read_meta` reads back from the text.

The url line carries the percent-decoded path as it is. `readMetaText_headerFileText`
says what a reader sees for any path: the metadata end at the first blank line, which
may lie inside the path, and what the path has behind it (`smuggled`) reaches the reader
in front of the stored headers. `readMetaText_eq_iff` is the round trip, with the exact
condition under which it holds.
-/

set_option autoImplicit false

namespace Cacher

open CText Files

/-- Metadata of an entry (`cacher_entry_meta`). -/
structure CacherEntryMeta where
  created : Int64
  expires : Int64
  status : Int32
  method : CString
  host : CString
  url : CString
  deriving DecidableEq

/-- What `cacher_cache_read_meta` starts from. -/
def CacherEntryMeta.unset : CacherEntryMeta := ⟨0, 0, 0, lit "-", lit "-", lit "-"⟩

/-- `is_uncacheable_header`. -/
def isUncacheableHeader (name : CString) : Bool :=
  cacherStreqCi name (lit "Connection")
    || cacherStreqCi name (lit "Keep-Alive")
    || cacherStreqCi name (lit "Transfer-Encoding")
    || cacherStreqCi name (lit "Content-Length")
    || cacherStreqCi name (lit "Set-Cookie")
    || cacherStreqCi name (lit "X-Cacher")
    || cacherStreqCi name (lit "Age")

/-- `dump_header_cb`. -/
def dumpHeaderCb (text : CString) (e : CString × CString) : CString :=
  if !isUncacheableHeader e.1 then text ++ (e.1 ++ lit ": " ++ e.2 ++ lit "\r\n") else text

/-- The header block of a table: `apr_table_do` over `dump_header_cb`. -/
def dumpHeaders (headersOut : Table) : CString := headersOut.foldl dumpHeaderCb []

/-- The file text `finalize_cache_entry` prints. -/
def headerFileText (info : CacherEntryMeta) (block : CString) : CString :=
  lit "CACHER/2" ++ chr '\n' ::
  (lit "created " ++ decimal info.created.toInt ++ chr '\n' ::
  (lit "expires " ++ decimal info.expires.toInt ++ chr '\n' ::
  (lit "status " ++ decimal info.status.toInt ++ chr '\n' ::
  (lit "url " ++ (info.method ++ chr ' ' :: (info.host ++ chr ' ' ::
    (info.url ++ chr '\n' :: chr '\n' :: block)))))))

/-- The three fields of a url line: `apr_strtok` by blanks, twice, and the rest. -/
def urlFields (rest : CString) : Option (CString × CString × CString) :=
  match strtok (· == chr ' ') rest with
  | none => none
  | some (m, rest) =>
    match strtok (· == chr ' ') rest with
    | none => none
    | some (h, rest) =>
      match strtok (fun _ => false) rest with
      | none => none
      | some (u, _) => some (m, h, u)

/-- One turn of the loop over the metadata lines. -/
def metaLine (info : CacherEntryMeta) (line : CString) : CacherEntryMeta :=
  match stripPrefix (lit "created ") line with
  | some rest => { info with created := atoi64 rest }
  | none =>
    match stripPrefix (lit "expires ") line with
    | some rest => { info with expires := atoi64 rest }
    | none =>
      match stripPrefix (lit "status ") line with
      | some rest => { info with status := (atoi64 rest).toInt32 }
      | none =>
        match stripPrefix (lit "url ") line with
        | some rest =>
          match urlFields rest with
          | some (m, h, u) => { info with method := m, host := h, url := u }
          | none => info
        | none => info

/-- The loop over the metadata lines. -/
def metaLines (text : CString) : CacherEntryMeta :=
  (tokens (· == chr '\n') text).foldl metaLine CacherEntryMeta.unset

/-- What `cacher_cache_read_meta` makes of the text of a file: the metadata and the start
of the response headers. -/
def readMetaText (text : CString) : Option (CacherEntryMeta × CString) :=
  match stripPrefix (lit "CACHER/2\n") text with
  | none => none
  | some _ =>
    match cutAt (lit "\n\n") text with
    | none => none
    | some (metaText, headersAt) =>
      if (metaLines metaText).status = 0 then none else some (metaLines metaText, headersAt)

/-- `cacher_cache_read_meta` behind `apr_file_open`. -/
def readMetaFile (hf : Bytes) : FileProg (Option (CacherEntryMeta × CString)) := do
  match ← infoSize hf with
  | none => pure none
  | some size =>
    if size = 0 then pure none
    else
      match ← readFull hf size with
      | none => pure none
      | some text => pure (readMetaText (ofBytes text))

/-- `cacher_cache_read_meta`. `none` is a non-zero return. -/
def cacherCacheReadMeta (headerPath : Path) : FileProg (Option (CacherEntryMeta × CString)) := do
  match ← openRead headerPath with
  | none => pure none
  | some hf => readMetaFile hf

/-- Reading the metadata opens the header file and reads it. -/
theorem uses_cacherCacheReadMeta {A : FileOp → Prop} {headerPath : Path}
    (hopen : A (.openRead headerPath)) (hinfo : ∀ hf, A (.infoSize hf))
    (hread : ∀ hf n, A (.readFull hf n)) : Prog.Uses A (cacherCacheReadMeta headerPath) := by
  -- One case for each of the three calls that can end it.
  refine Prog.uses_bind (Prog.uses_perform hopen) fun hf => ?_
  cases hf with
  | none => exact Prog.uses_pure _ _
  | some hf =>
      refine Prog.uses_bind (Prog.uses_perform (hinfo hf)) fun size => ?_
      cases size with
      | none => exact Prog.uses_pure _ _
      | some size =>
          show Prog.Uses A (if size = 0 then _ else _)
          split
          · exact Prog.uses_pure _ _
          · refine Prog.uses_bind (Prog.uses_perform (hread hf size)) fun buf => ?_
            cases buf with
            | none => exact Prog.uses_pure _ _
            | some buf => exact Prog.uses_pure _ _

/-- The header file at `headerPath` can be read and holds `found`: the metadata and the
response headers. -/
def HeaderReads (w : World) (headerPath : Path) (found : CacherEntryMeta × CString) : Prop :=
  ∃ text, w.fs.read headerPath = some text
    ∧ w.allowsAt 0 (.openRead headerPath) = true
    ∧ w.allowsAt 1 (.infoSize text) = true
    ∧ w.allowsAt 2 (.readFull text text.length) = true
    ∧ readMetaText (ofBytes text) = some found

/-- Reading an entry's metadata changes no file. It finds what the text of the file says,
exactly where none of its three calls fails. -/
theorem cacherCacheReadMeta_spec (headerPath : Path) (w : World) :
    After (cacherCacheReadMeta headerPath) w fun result w' =>
      w'.fs = w.fs ∧ w'.script = w.script
      ∧ (result ≠ none → w'.log.length = w.log.length + 3)
      ∧ ∀ found, result = some found ↔ HeaderReads w headerPath found := by
  -- A miss, once some condition of `HeaderReads` is known to fail.
  have hmiss : ∀ w' : World, w'.fs = w.fs → w'.script = w.script →
      (∀ found, ¬ HeaderReads w headerPath found) →
      After (pure none : FileProg (Option (CacherEntryMeta × CString))) w' fun result w' =>
        w'.fs = w.fs ∧ w'.script = w.script
        ∧ (result ≠ none → w'.log.length = w.log.length + 3)
        ∧ ∀ found, result = some found ↔ HeaderReads w headerPath found := by
    intro w' hfs hscript hno
    refine Prog.after_pure.mpr ⟨hfs, hscript, fun h => absurd rfl h, fun found => ?_⟩
    constructor
    · intro h
      cases h
    · intro h
      exact absurd h (hno found)
  unfold cacherCacheReadMeta readMetaFile
  refine Prog.after_bind.mpr (after_openRead (fun w₁ hopen h₁ => ?_) (fun w₁ hopen h₁ => ?_))
  · cases hread : w.fs.read headerPath with
    | none =>
        refine hmiss w₁ h₁.fs_eq h₁.script_eq fun found h => ?_
        obtain ⟨text, htext, -⟩ := h
        rw [hread] at htext
        cases htext
    | some hf =>
        refine Prog.after_bind.mpr (after_infoSize (fun w₂ hinfo h₂ => ?_)
          (fun w₂ hinfo h₂ => ?_))
        · rw [h₁.allowsAt_eq] at hinfo
          show After (if hf.length = 0 then _ else _) w₂ _
          split
          · rename_i hempty
            refine hmiss w₂ (by rw [h₂.fs_eq, h₁.fs_eq]) (by rw [h₂.script_eq, h₁.script_eq])
              fun found h => ?_
            obtain ⟨text, htext, -, -, -, hmeta⟩ := h
            rw [hread] at htext
            cases htext
            rw [List.length_eq_zero_iff.mp hempty] at hmeta
            cases hmeta
          · refine Prog.after_bind.mpr (after_readFull (fun w₃ hfull h₃ => ?_)
              (fun w₃ hfull h₃ => ?_))
            · rw [h₂.allowsAt_eq, h₁.allowsAt_eq] at hfull
              refine Prog.after_pure.mpr ⟨by rw [h₃.fs_eq, h₂.fs_eq, h₁.fs_eq],
                by rw [h₃.script_eq, h₂.script_eq, h₁.script_eq], fun _ => ?_, fun found => ?_⟩
              · rw [h₃.log_eq, h₂.log_eq, h₁.log_eq]
                simp
              · constructor
                · intro hmeta
                  exact ⟨hf, hread, hopen, hinfo, hfull, hmeta⟩
                · intro h
                  obtain ⟨text, htext, -, -, -, hmeta⟩ := h
                  rw [hread] at htext
                  cases htext
                  exact hmeta
            · rw [h₂.allowsAt_eq, h₁.allowsAt_eq] at hfull
              refine hmiss w₃ (by rw [h₃.fs_eq, h₂.fs_eq, h₁.fs_eq])
                (by rw [h₃.script_eq, h₂.script_eq, h₁.script_eq]) fun found h => ?_
              obtain ⟨text, htext, -, -, hallowed, -⟩ := h
              rw [hread] at htext
              cases htext
              rw [hfull] at hallowed
              cases hallowed
        · rw [h₁.allowsAt_eq] at hinfo
          refine hmiss w₂ (by rw [h₂.fs_eq, h₁.fs_eq]) (by rw [h₂.script_eq, h₁.script_eq])
            fun found h => ?_
          obtain ⟨text, htext, -, hallowed, -⟩ := h
          rw [hread] at htext
          cases htext
          rw [hinfo] at hallowed
          cases hallowed
  · refine hmiss w₁ h₁.fs_eq h₁.script_eq fun found h => ?_
    obtain ⟨text, -, hallowed, -⟩ := h
    rw [hopen] at hallowed
    cases hallowed

/-- Where no call fails, the reader finds what the text of the file says. -/
theorem headerReads_iff_of_allOk {w : World} (hok : w.script.AllOk) {headerPath : Path}
    {text : Bytes} (hread : w.fs.read headerPath = some text)
    (found : CacherEntryMeta × CString) :
    HeaderReads w headerPath found ↔ readMetaText (ofBytes text) = some found := by
  constructor
  · intro h
    obtain ⟨text', htext, -, -, -, hmeta⟩ := h
    rw [hread] at htext
    cases htext
    exact hmeta
  · intro h
    exact ⟨text, hread, hok.allowsAt _ _, hok.allowsAt _ _, hok.allowsAt _ _, h⟩

/-! ### The header block -/

theorem isUncacheableHeader_eq (name : CString) :
    isUncacheableHeader name
      = (eqCi name (lit "Connection") || eqCi name (lit "Keep-Alive")
        || eqCi name (lit "Transfer-Encoding") || eqCi name (lit "Content-Length")
        || eqCi name (lit "Set-Cookie") || eqCi name (lit "X-Cacher")
        || eqCi name (lit "Age")) := by
  simp only [isUncacheableHeader, cacherStreqCi_eq_eqCi]

/-- One line of the header block. -/
def headerLine (e : CString × CString) : CString := e.1 ++ lit ": " ++ e.2 ++ lit "\r\n"

/-- The entries `dump_header_cb` lets through. -/
def storable (headersOut : Table) : Table := headersOut.filter (!isUncacheableHeader ·.1)

/-- The block is the lines of the storable entries, in order. -/
theorem dumpHeaders_eq (headersOut : Table) :
    dumpHeaders headersOut = (storable headersOut).flatMap headerLine := by
  have hfold : ∀ (t : Table) (text : CString),
      t.foldl dumpHeaderCb text = text ++ (storable t).flatMap headerLine := by
    intro t
    induction t with
    | nil => intro text; simp [storable]
    | cons e t ih =>
        intro text
        rw [List.foldl_cons, ih, dumpHeaderCb]
        cases he : isUncacheableHeader e.1 <;> simp [storable, he, headerLine]
  exact hfold headersOut []

/-! ### Reading a written file -/

/-- What the path and query put in front of the first blank line of the file, and what
they put behind it. -/
def splitUrl (url : CString) : CString × CString :=
  (cutAt (lit "\n\n") (url ++ lit "\n\n")).getD (url, [])

/-- The part of the path and query that a reader takes for response headers. -/
def smuggled (url : CString) : CString := (splitUrl url).2

theorem cutAt_url (url : CString) :
    cutAt (lit "\n\n") (url ++ lit "\n\n") = some (splitUrl url) := by
  have hex : ∃ cut, cutAt (lit "\n\n") (url ++ lit "\n\n") = some cut := by
    induction url with
    | nil => exact ⟨([], []), by decide⟩
    | cons c url ih =>
        obtain ⟨cut, hcut⟩ := ih
        rw [List.cons_append, cutAt]
        split
        · exact ⟨_, rfl⟩
        · exact ⟨_, by rw [hcut]; rfl⟩
  obtain ⟨cut, hcut⟩ := hex
  rw [splitUrl, hcut]
  rfl

/-- A path without a newline keeps to its line. -/
theorem splitUrl_of_notMem {url : CString} (h : chr '\n' ∉ url) : splitUrl url = (url, []) := by
  have hcut := cutAt_append_left (p := [chr '\n']) h (lit "\n\n")
  have hnil : cutAt [chr '\n', chr '\n'] (lit "\n\n") = some ([], []) := by decide
  rw [hnil] at hcut
  have := cutAt_url url
  rw [show lit "\n\n" = [chr '\n', chr '\n'] from rfl] at this hcut
  rw [this] at hcut
  simpa using hcut

/-- The smuggled text is empty or ends its last line. -/
theorem smuggled_ends_line (url : CString) :
    smuggled url = [] ∨ ∃ text, smuggled url = text ++ [chr '\n'] := by
  have heq := eq_append_of_cutAt (a := (splitUrl url).1) (b := (splitUrl url).2) (cutAt_url url)
  cases hs : (splitUrl url).2 using List.reverseRecOn with
  | nil => exact Or.inl hs
  | append_singleton text c =>
      rw [hs, ← List.append_assoc, show lit "\n\n" = [chr '\n'] ++ [chr '\n'] from rfl,
        ← List.append_assoc] at heq
      have hc := (List.append_inj' heq rfl).2
      rw [List.cons.injEq] at hc
      exact Or.inr ⟨text, by rw [smuggled, hs, hc.1]⟩

/-- The metadata part of a written file, up to the first blank line. -/
def metaPart (info : CacherEntryMeta) : CString :=
  lit "CACHER/2" ++ chr '\n' ::
  (lit "created " ++ decimal info.created.toInt ++ chr '\n' ::
  (lit "expires " ++ decimal info.expires.toInt ++ chr '\n' ::
  (lit "status " ++ decimal info.status.toInt ++ chr '\n' ::
  (lit "url " ++ (info.method ++ chr ' ' :: (info.host ++ chr ' ' :: (splitUrl info.url).1))))))

/-- Method and host are words: not empty, and free of blanks and newlines. -/
structure IsWord (s : CString) : Prop where
  ne_nil : s ≠ []
  noBlank : chr ' ' ∉ s
  noNewline : chr '\n' ∉ s

theorem isWord_get : IsWord (lit "GET") := ⟨by decide, by decide, by decide⟩

theorem isWord_dash : IsWord (lit "-") := ⟨by decide, by decide, by decide⟩

/-- A request without a host is stored under `-`. -/
theorem isWord_getD {host : Option CString} (h : ∀ x, host = some x → IsWord x) :
    IsWord (host.getD (lit "-")) := by
  cases host with
  | none => exact isWord_dash
  | some host => exact h host rfl

/-- A line is stepped over in the search for the blank line, when another line follows. -/
theorem cutAt_line {line s a b : CString} (hline : chr '\n' ∉ line)
    (hs : s.head? ≠ some (chr '\n')) (h : cutAt (lit "\n\n") s = some (a, b)) :
    cutAt (lit "\n\n") (line ++ chr '\n' :: s) = some (line ++ chr '\n' :: a, b) := by
  cases s with
  | nil =>
      have hnil : cutAt (lit "\n\n") [] = none := by decide
      rw [hnil] at h
      cases h
  | cons c s =>
      have hc : c ≠ chr '\n' := by
        rintro rfl
        exact hs rfl
      rw [show lit "\n\n" = [chr '\n', chr '\n'] from rfl] at h ⊢
      rw [cutAt_append_left hline, cutAt_pair_cons hc, h]
      rfl

/-- A keyword followed by a printed integer is a line. -/
theorem notMem_keyword_decimal {keyword : CString} (h : chr '\n' ∉ keyword) (i : Int) :
    chr '\n' ∉ keyword ++ decimal i := by
  rw [List.mem_append, not_or]
  exact ⟨h, notMem_decimal_of_isSpace (by decide)⟩

/-- A word in front of the blank line belongs to the metadata. -/
theorem cutAt_word {w s a b : CString} (hw : chr '\n' ∉ w)
    (h : cutAt (lit "\n\n") s = some (a, b)) :
    cutAt (lit "\n\n") (w ++ s) = some (w ++ a, b) := by
  rw [show lit "\n\n" = [chr '\n', chr '\n'] from rfl] at h ⊢
  rw [cutAt_append_left hw, h]
  rfl

/-- A written file ends its metadata at the first blank line that its path holds, or else
right behind the url line. -/
theorem cutAt_headerFileText {info : CacherEntryMeta} (hm : chr '\n' ∉ info.method)
    (hh : chr '\n' ∉ info.host) (block : CString) :
    cutAt (lit "\n\n") (headerFileText info block)
      = some (metaPart info, smuggled info.url ++ block) := by
  have hurl : cutAt (lit "\n\n") (info.url ++ chr '\n' :: chr '\n' :: block)
      = some ((splitUrl info.url).1, smuggled info.url ++ block) := by
    have := cutAt_append (cutAt_url info.url) block
    rwa [List.append_assoc] at this
  have hblank : chr '\n' ∉ [chr ' '] := by decide
  have hhost := cutAt_word hh (cutAt_word hblank hurl)
  have hline := cutAt_word (show chr '\n' ∉ lit "url " by decide)
    (cutAt_word hm (cutAt_word hblank hhost))
  -- Each line is followed by the first letter of the next keyword.
  refine cutAt_line (by decide) ?_ (cutAt_line (notMem_keyword_decimal (by decide) _) ?_
    (cutAt_line (notMem_keyword_decimal (by decide) _) ?_
      (cutAt_line (notMem_keyword_decimal (by decide) _) ?_ hline)))
  · show some (chr 'c') ≠ _
    decide
  · show some (chr 'e') ≠ _
    decide
  · show some (chr 's') ≠ _
    decide
  · show some (chr 'u') ≠ _
    decide

/-- The url line of a written file with everything the path puts behind it. -/
def urlPart (info : CacherEntryMeta) : CString :=
  lit "url " ++ (info.method ++ chr ' ' :: (info.host ++ chr ' ' :: (splitUrl info.url).1))

/-- The reader takes the numbers from the first lines and then reads the url line and
whatever lines the path adds to it. -/
theorem metaLines_metaPart (info : CacherEntryMeta) :
    metaLines (metaPart info)
      = (tokens (· == chr '\n') (urlPart info)).foldl metaLine
          { CacherEntryMeta.unset with
            created := info.created, expires := info.expires, status := info.status } := by
  -- The text falls into its lines, and each of the first four is one token.
  have hline : ∀ {keyword : CString}, chr '\n' ∉ keyword → keyword ≠ [] → ∀ i : Int,
      tokens (· == chr '\n') (keyword ++ decimal i) = [keyword ++ decimal i] := by
    intro keyword hk hne i
    refine tokens_of_forall _ (fun c hc => ?_) (by simp [hne])
    simp only [beq_eq_false_iff_ne, ne_eq]
    rintro rfl
    exact notMem_keyword_decimal hk i hc
  have hmagic : tokens (· == chr '\n') (lit "CACHER/2") = [lit "CACHER/2"] := by
    have hall : (lit "CACHER/2").all (fun c => !(c == chr '\n')) = true := by decide
    exact tokens_of_forall _ (by simpa using hall) (by decide)
  have hcut : ∀ a b : CString, tokens (· == chr '\n') (a ++ chr '\n' :: b)
      = tokens (· == chr '\n') a ++ tokens (· == chr '\n') b :=
    fun a b => tokens_append_cons _ a b (by decide)
  have hstart : metaLine CacherEntryMeta.unset (lit "CACHER/2") = CacherEntryMeta.unset := by
    decide
  -- What the loop makes of each of them.
  have hcreated : ∀ (m : CacherEntryMeta) (x : Int64),
      metaLine m (lit "created " ++ decimal x.toInt) = { m with created := x } := by
    intro m x
    rw [metaLine, stripPrefix_append]
    show { m with created := atoi64 (decimal x.toInt) } = _
    rw [atoi64_decimal]
  have hexpires : ∀ (m : CacherEntryMeta) (x : Int64),
      metaLine m (lit "expires " ++ decimal x.toInt) = { m with expires := x } := by
    intro m x
    rw [metaLine, stripPrefix_append]
    show { m with expires := atoi64 (decimal x.toInt) } = _
    rw [atoi64_decimal]
  have hstatus : ∀ (m : CacherEntryMeta) (x : Int32),
      metaLine m (lit "status " ++ decimal x.toInt) = { m with status := x } := by
    intro m x
    rw [metaLine, stripPrefix_append]
    show { m with status := (atoi64 (decimal x.toInt)).toInt32 } = _
    rw [← Int32.toInt_toInt64, atoi64_decimal, Int32.toInt32_toInt64]
  unfold metaLines metaPart
  rw [hcut, hcut, hcut, hcut, hmagic, hline (by decide) (by decide),
    hline (by decide) (by decide), hline (by decide) (by decide)]
  simp only [List.singleton_append, List.foldl_cons]
  rw [hstart, hcreated, hexpires, hstatus]
  rfl

/-- What a reader makes of a written file, for any path and query. -/
theorem readMetaText_headerFileText {info : CacherEntryMeta} (hm : chr '\n' ∉ info.method)
    (hh : chr '\n' ∉ info.host) (block : CString) :
    readMetaText (headerFileText info block)
      = if (metaLines (metaPart info)).status = 0 then none
        else some (metaLines (metaPart info), smuggled info.url ++ block) := by
  have hmagic : ∀ rest : CString, stripPrefix (lit "CACHER/2\n")
      (lit "CACHER/2" ++ chr '\n' :: rest) = some rest := by
    intro rest
    rw [stripPrefix_eq_some]
    rfl
  unfold readMetaText
  rw [cutAt_headerFileText hm hh block]
  unfold headerFileText
  rw [hmagic]

/-- The url field of a url line is not empty, and the characters of the fields are characters of
the line. -/
theorem url_of_urlFields {rest m h u : CString} (hfields : urlFields rest = some (m, h, u)) :
    u ≠ [] ∧ u ⊆ rest ∧ h ⊆ rest := by
  unfold urlFields at hfields
  split at hfields
  · cases hfields
  rename_i t₁ rest₁ h₁
  split at hfields
  · cases hfields
  rename_i t₂ rest₂ h₂
  split at hfields
  · cases hfields
  rename_i t₃ rest₃ h₃
  simp only [Option.some.injEq, Prod.mk.injEq] at hfields
  rw [← hfields.2.1, ← hfields.2.2]
  have hurl : t₃ ⊆ rest := fun c hc =>
    (mem_of_strtok h₁).2.2 ((mem_of_strtok h₂).2.2 ((mem_of_strtok h₃).2.1 hc))
  have hhost : t₂ ⊆ rest := fun c hc => (mem_of_strtok h₁).2.2 ((mem_of_strtok h₂).2.1 hc)
  exact ⟨(mem_of_strtok h₃).1, hurl, hhost⟩

/-- What holds of the url and the host that a reader reports. -/
structure CacherEntryMeta.OnOneLine (info : CacherEntryMeta) : Prop where
  url_ne_nil : info.url ≠ []
  newline_notMem_url : chr '\n' ∉ info.url
  newline_notMem_host : chr '\n' ∉ info.host

/-- No line can make the url empty or put a newline into it or into the host. -/
theorem onOneLine_metaLine {info : CacherEntryMeta} {line : CString} (hline : chr '\n' ∉ line)
    (hurl : info.OnOneLine) : (metaLine info line).OnOneLine := by
  unfold metaLine
  -- The first three keywords leave the url alone.
  split
  · exact ⟨hurl.1, hurl.2, hurl.3⟩
  split
  · exact ⟨hurl.1, hurl.2, hurl.3⟩
  split
  · exact ⟨hurl.1, hurl.2, hurl.3⟩
  split
  · rename_i rest hrest
    split
    · rename_i m h u hfields
      obtain ⟨hne, hu, hh⟩ := url_of_urlFields hfields
      rw [stripPrefix_eq_some.mp hrest] at hline
      exact ⟨hne, fun hmem => hline (List.mem_append_right _ (hu hmem)),
        fun hmem => hline (List.mem_append_right _ (hh hmem))⟩
    · exact hurl
  · exact hurl

/-- The url that a reader reports is never empty, and neither it nor the host ever holds a
newline. -/
theorem onOneLine_metaLines (text : CString) : (metaLines text).OnOneLine := by
  have hfold : ∀ (lines : List CString) (info : CacherEntryMeta),
      (∀ line ∈ lines, chr '\n' ∉ line) → info.OnOneLine →
      (lines.foldl metaLine info).OnOneLine := by
    intro lines
    induction lines with
    | nil => exact fun info _ hurl => hurl
    | cons line lines ih =>
        intro info hlines hurl
        exact ih _ (fun x hx => hlines x (List.mem_cons_of_mem _ hx))
          (onOneLine_metaLine (hlines line List.mem_cons_self) hurl)
  refine hfold _ _ (fun line hline hmem => ?_) ⟨by decide, by decide, by decide⟩
  have hsep := sep_eq_false_of_mem_tokens _ hline hmem
  simp at hsep

theorem onOneLine_readMetaText {text block : CString} {info : CacherEntryMeta}
    (h : readMetaText text = some (info, block)) : info.OnOneLine := by
  unfold readMetaText at h
  split at h
  · cases h
  split at h
  · cases h
  split at h
  · cases h
  · cases h
    exact onOneLine_metaLines _

/-- Two words and a url come back as the three fields of their line. -/
theorem urlFields_append {m h u : CString} (hm : IsWord m) (hh : IsWord h) (hu : u ≠ []) :
    urlFields (m ++ chr ' ' :: (h ++ chr ' ' :: u)) = some (m, h, u) := by
  have hword : ∀ {w : CString}, IsWord w → ∀ c ∈ w, (c == chr ' ') = false := by
    intro w hw c hc
    simp only [beq_eq_false_iff_ne, ne_eq]
    rintro rfl
    exact hw.noBlank hc
  rw [urlFields, strtok_append_cons (hword hm) hm.ne_nil (by decide)]
  show (match strtok (· == chr ' ') (h ++ chr ' ' :: u) with
    | none => none
    | some (h, rest) => _) = _
  rw [strtok_append_cons (hword hh) hh.ne_nil (by decide)]
  show (match strtok (fun _ => false) u with
    | none => none
    | some (u, _) => _) = _
  rw [strtok_false, if_neg hu]

/-- Metadata whose path keeps to its line come back as they were. -/
theorem metaLines_metaPart_of_notMem {info : CacherEntryMeta} (hm : IsWord info.method)
    (hh : IsWord info.host) (hne : info.url ≠ []) (hurl : chr '\n' ∉ info.url) :
    metaLines (metaPart info) = info := by
  have hline : tokens (· == chr '\n') (urlPart info) = [urlPart info] := by
    refine tokens_of_forall _ (fun c hc => ?_) (by simp [urlPart])
    simp only [beq_eq_false_iff_ne, ne_eq]
    rintro rfl
    simp only [urlPart, splitUrl_of_notMem hurl, List.mem_append, List.mem_cons] at hc
    -- The keyword, the method, a blank, the host, a blank, and the url.
    rcases hc with hc | hc | hc | hc | hc | hc
    · revert hc
      decide
    · exact hm.noNewline hc
    · revert hc
      decide
    · exact hh.noNewline hc
    · revert hc
      decide
    · exact hurl hc
  rw [metaLines_metaPart, hline]
  show metaLine _ (urlPart info) = info
  rw [urlPart, splitUrl_of_notMem hurl, metaLine, stripPrefix_append]
  show (match urlFields _ with
    | some (m, h, u) => _
    | none => _) = info
  rw [urlFields_append hm hh hne]

/-- Reading a written file gives back what was written, except exactly when the path and
query are empty or hold a newline. -/
theorem readMetaText_eq_iff {info : CacherEntryMeta} (hm : IsWord info.method)
    (hh : IsWord info.host) (hstatus : info.status ≠ 0) (block : CString) :
    readMetaText (headerFileText info block) = some (info, block)
      ↔ info.url ≠ [] ∧ chr '\n' ∉ info.url := by
  rw [readMetaText_headerFileText hm.noNewline hh.noNewline]
  constructor
  · -- What a reader reports has these properties in any case.
    intro h
    split at h
    · cases h
    · simp only [Option.some.injEq, Prod.mk.injEq] at h
      rw [← h.1]
      exact ⟨(onOneLine_metaLines _).url_ne_nil, (onOneLine_metaLines _).newline_notMem_url⟩
  · rintro ⟨hne, hurl⟩
    rw [metaLines_metaPart_of_notMem hm hh hne hurl, if_neg hstatus, smuggled,
      splitUrl_of_notMem hurl, List.nil_append]

end Cacher
