import Cacher.Capture
import Cacher.RulesParse
import Mathlib.Data.Rat.Floor

/-!
# `Cacher.Expiry`: the arithmetic of a lifetime

`parse_rule` casts the `double` of a `ttl` to a `long`, `finalize_cache_entry` adds the `long` to
the clock, and neither asks whether the result fits. `lifetimeKept_iff` says when it does: as long
as the time of expiry stays below `2 ^ 63` seconds. There the sum is exact, and the entry reads
back as a fresh one.
-/

set_option autoImplicit false

namespace Cacher

open CText Files

/-! ### Conversion and sum -/

theorem trunc_finite {v : ℚ} (hv : 0 ≤ v) : (Double.finite v).trunc = some ⌊v⌋ := by
  have hnum : 0 ≤ v.num := Rat.num_nonneg.mpr hv
  rw [Double.trunc, Rat.floor_def', Int.tdiv_eq_ediv_of_nonneg hnum]

/-- A sum that has an `int64_t` is that sum. -/
theorem toInt_add_of_le {a b : Int64} (ha : 0 ≤ a.toInt) (hb : 0 ≤ b.toInt)
    (h : a.toInt + b.toInt < 2 ^ 63) : (a + b).toInt = a.toInt + b.toInt := by
  rw [Int64.toInt_add]
  exact Int.bmod_eq_of_le (by omega) (by omega)

/-- The integral part keeps below an integer as the number does. -/
theorem floor_add_lt_iff {v : ℚ} {now bound : Int} : ⌊v⌋ + now < bound ↔ v + now < bound := by
  rw [← Int.floor_add_intCast, Int.floor_lt]

/-- The `ttl` that `parse_rule` takes from the member of that name. -/
theorem ttlSeconds_parseRule {conv : Conversions} {robj : Json} {d : Double}
    (h : robj.getObjectItem (lit "ttl") = some (.number d)) :
    (parseRule conv robj).ttlSeconds = conv.toLong d := by
  show (((robj.getObjectItem (lit "ttl")).bind Json.number?).map conv.toLong).getD 0 = _
  rw [h]
  rfl

/-- A number that a `long` holds is truncated. -/
theorem toInt_ttlSeconds {conv : Conversions} {robj : Json} {v : ℚ}
    (h : robj.getObjectItem (lit "ttl") = some (.number (.finite v))) (hv : 0 ≤ v)
    (hfits : ⌊v⌋ < 2 ^ 63) : (parseRule conv robj).ttlSeconds.toInt = ⌊v⌋ := by
  have hpos : 0 ≤ ⌊v⌋ := Int.floor_nonneg.mpr hv
  have hmin : Int64.minValue.toInt = -2 ^ 63 := rfl
  have hmax : Int64.maxValue.toInt = 2 ^ 63 - 1 := rfl
  rw [ttlSeconds_parseRule h, conv.toLong_eq (trunc_finite hv) (by omega) (by omega)]
  exact Int64.toInt_ofInt_of_le (by omega) (by omega)

/-! ### What the lifetime promises -/

/-- The header file of the entry says each of its fields on one line. -/
structure RequestRec.OnLines (r : RequestRec) : Prop where
  method : IsWord r.method
  hostname : ∀ host, r.hostname = some host → IsWord host
  status : 0 < r.status
  url : (cacherOriginalRequest r).urlText ≠ [] ∧ chr '\n' ∉ (cacherOriginalRequest r).urlText

/-- An entry is published under a rule with the `ttl` member `v`, when the clock is at `now`. -/
structure StoredUnder (v : ℚ) (now : Int64) (r : RequestRec) (ctx : CacherOutCtx)
    (tmpBody : TempSuffix) (w : World) : Prop where
  rule : ∃ conv robj, robj.getObjectItem (lit "ttl") = some (.number (.finite v))
    ∧ ctx.rule = parseRule conv robj
  /-- The second reading of the clock, from which `expires` is computed. -/
  clock : w.clockAt 1 = now
  published : (run (finalizeCacheEntry r ctx tmpBody) w).1 = true

/-- The lifetime `v` reaches from `now` as far as it says. -/
structure LifetimeKept (v : ℚ) (now : Int64) : Prop where
  converted : ∀ conv robj, robj.getObjectItem (lit "ttl") = some (.number (.finite v)) →
    (parseRule conv robj).ttlSeconds.toInt = ⌊v⌋
  written : ∀ r ctx tmpBody w, StoredUnder v now r ctx tmpBody w →
    (run (finalizeCacheEntry r ctx tmpBody) w).2.fs.read ctx.paths.headerPath
        = some (toBytes (headerFileText (finalMeta r ctx w) (dumpHeaders r.headersOut)))
      ∧ (finalMeta r ctx w).expires.toInt = now.toInt + ⌊v⌋
  /-- Read back in the same second, the entry is fresh. -/
  fresh : ∀ r ctx tmpBody w w', StoredUnder v now r ctx tmpBody w → r.OnLines →
    w'.fs = (run (finalizeCacheEntry r ctx tmpBody) w).2.fs → w'.script.AllOk →
    ∃ info block, (run (cacherCacheReadMeta ctx.paths.headerPath) w').1 = some (info, block)
      ∧ now < info.expires

section Stored

variable {v : ℚ} {now : Int64} {r : RequestRec} {ctx : CacherOutCtx} {tmpBody : TempSuffix}
  {w w' : World}

theorem StoredUnder.header (h : StoredUnder v now r ctx tmpBody w) :
    (run (finalizeCacheEntry r ctx tmpBody) w).2.fs.read ctx.paths.headerPath
      = some (toBytes (headerFileText (finalMeta r ctx w) (dumpHeaders r.headersOut))) := by
  have hspec := finalizeCacheEntry_spec r ctx tmpBody w
  unfold After Prog.After at hspec
  rw [h.published, if_pos rfl] at hspec
  exact hspec.header

/-- The stamp of the entry, when it stays below `2 ^ 63`. -/
theorem StoredUnder.expires_eq (h : StoredUnder v now r ctx tmpBody w) (hv : 1 ≤ v)
    (hnow : 0 ≤ now.toInt) (hfits : ⌊v⌋ + now.toInt < 2 ^ 63) :
    (finalMeta r ctx w).expires.toInt = now.toInt + ⌊v⌋ := by
  obtain ⟨conv, robj, httl, hrule⟩ := h.rule
  have hpos : 0 ≤ v := zero_le_one.trans hv
  have hfloor : 1 ≤ ⌊v⌋ := Int.le_floor.mpr (by exact_mod_cast hv)
  have hlong : (parseRule conv robj).ttlSeconds.toInt = ⌊v⌋ :=
    toInt_ttlSeconds httl hpos (by omega)
  show (w.clockAt 1 + ctx.rule.ttlSeconds).toInt = _
  rw [h.clock, hrule, toInt_add_of_le hnow (by omega) (by omega), hlong]

theorem StoredUnder.readMeta_eq (h : StoredUnder v now r ctx tmpBody w) (hlines : r.OnLines)
    (hfs : w'.fs = (run (finalizeCacheEntry r ctx tmpBody) w).2.fs) (hok : w'.script.AllOk) :
    (run (cacherCacheReadMeta ctx.paths.headerPath) w').1
      = some (finalMeta r ctx w, dumpHeaders r.headersOut) := by
  have hhost : IsWord (finalMeta r ctx w).host := isWord_getD hlines.hostname
  have hstatus : (finalMeta r ctx w).status ≠ 0 := fun hzero => by
    have hpos := hlines.status
    rw [show r.status = 0 from hzero] at hpos
    exact absurd hpos (by decide)
  have hheader := h.header
  rw [← hfs] at hheader
  obtain ⟨-, -, -, hfound⟩ := cacherCacheReadMeta_spec ctx.paths.headerPath w'
  rw [hfound, headerReads_iff_of_allOk hok hheader, ofBytes_toBytes]
  exact (readMetaText_eq_iff hlines.method hhost hstatus _).mpr hlines.url

end Stored

/-! ### Where it is kept -/

/-- A rule with the `ttl` member `v`. -/
def Json.ofTtl (v : ℚ) : Json := .object [(lit "ttl", .number (.finite v))]

theorem getObjectItem_ofTtl (v : ℚ) :
    (Json.ofTtl v).getObjectItem (lit "ttl") = some (.number (.finite v)) := rfl

/-- A capture that nothing hinders publishes its entry. -/
theorem finalizeCacheEntry_publishes {r : RequestRec} {ctx : CacherOutCtx} {tmpBody : TempSuffix}
    {w : World} (haborted : r.aborted = false)
    (hlen : lengthMismatch r.headersOut ctx.bodyLen = false)
    (hbody : w.fs.read (ctx.paths.tmpBodyPath tmpBody) ≠ none)
    (hheader : ∀ suffix, w.fs.read (ctx.paths.tmpHeaderPath suffix) = none)
    (hok : w.script.AllOk) : (run (finalizeCacheEntry r ctx tmpBody) w).1 = true := by
  have hspec := finalizeCacheEntry_spec r ctx tmpBody w
  unfold After Prog.After at hspec
  by_contra hno
  rw [Bool.eq_false_iff.mpr hno, if_neg Bool.false_ne_true] at hspec
  rcases hspec.why hok with h | h | h | ⟨suffix, h⟩
  · rw [haborted] at h
    cases h
  · rw [hlen] at h
    cases h
  · exact hbody h
  · exact h (hheader suffix)

/-- That capture under another rule. -/
def CacherOutCtx.under (rule : CacherRule) : CacherOutCtx := { CacherOutCtx.sample with rule := rule }

/-- That cache at another time. -/
def World.sampleAt (now : Int64) : World := { World.sample with script := Script.steady now }

/-- The page `/a` is published at any time under any lifetime. -/
theorem storedUnder_sample (v : ℚ) (now : Int64) :
    StoredUnder v now (RequestRec.get (lit "/a") none)
      (CacherOutCtx.under (parseRule .indefinite (Json.ofTtl v))) default (World.sampleAt now) where
  rule := ⟨_, _, getObjectItem_ofTtl v, rfl⟩
  clock := rfl
  published := finalizeCacheEntry_publishes rfl rfl (Option.some_ne_none []) (fun _ => rfl)
    (Script.allOk_steady now)

/-- The lifetime is kept exactly when the entry expires before `2 ^ 63`. -/
theorem lifetimeKept_iff (v : ℚ) (now : Int64) (hv : 1 ≤ v) (hnow : 0 ≤ now.toInt) :
    LifetimeKept v now ↔ v + now.toInt < 2 ^ 63 := by
  have hbound : v + now.toInt < 2 ^ 63 ↔ ⌊v⌋ + now.toInt < 2 ^ 63 := by
    rw [floor_add_lt_iff]
    norm_num
  have hpos : 0 ≤ v := zero_le_one.trans hv
  have hfloor : 1 ≤ ⌊v⌋ := Int.le_floor.mpr (by exact_mod_cast hv)
  rw [hbound]
  constructor
  · intro h
    -- The sum is the value of an `int64_t`.
    obtain ⟨-, hexpires⟩ := h.written _ _ _ _ (storedUnder_sample v now)
    have hmax := (finalMeta (RequestRec.get (lit "/a") none)
      (CacherOutCtx.under (parseRule .indefinite (Json.ofTtl v))) (World.sampleAt now)).expires.toInt_lt
    omega
  · intro hfits
    refine ⟨fun conv robj httl => toInt_ttlSeconds httl hpos (by omega),
      fun r ctx tmpBody w hstored => ⟨hstored.header, hstored.expires_eq hv hnow hfits⟩, ?_⟩
    intro r ctx tmpBody w w' hstored hlines hfs hok
    refine ⟨_, _, hstored.readMeta_eq hlines hfs hok, Int64.lt_iff_toInt_lt.mpr ?_⟩
    rw [hstored.expires_eq hv hnow hfits]
    omega

/-- A lifetime of `1e19` seconds is more than a `long` holds. -/
theorem not_lifetimeKept_forever : ¬ LifetimeKept 10000000000000000000 100 := by
  intro h
  have hlong := h.converted .indefinite _ (getObjectItem_ofTtl _)
  have hlt := (parseRule .indefinite (Json.ofTtl 10000000000000000000)).ttlSeconds.toInt_lt
  rw [hlong] at hlt
  exact absurd hlt (by norm_num)

/-- A minute is kept. -/
theorem lifetimeKept_minute : LifetimeKept 60 100 :=
  (lifetimeKept_iff 60 100 (by norm_num) (by decide)).mpr (by decide +kernel)

end Cacher
