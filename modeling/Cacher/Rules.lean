import Cacher.Lib.CString
import Mathlib.Data.Option.Basic

/-!
# `Cacher.Rules`: caching rules and how a request is matched against them

The data of `cacher_rules.h` and the matching half of `cacher_rules.c`. An array that
is terminated by NULL is a list, and a pointer that may be NULL is an `Option`.

`cacherRulesetMatch` is the loop of the source. `cacherRulesetMatch_eq_find?` states
its meaning: the first rule whose match clause accepts the request, whether that rule
is enabled or not.
-/

set_option autoImplicit false

namespace Cacher

open CText

/-- A caching rule (`cacher_rule`). -/
structure CacherRule where
  /-- Glob for the request path. `none` matches any path. -/
  path : Option CString
  /-- Glob for the query string. `none` matches any query. -/
  query : Option CString
  /-- Accepted methods, in upper case. `none` matches any method. -/
  methods : Option (List CString)
  /-- `false` makes the rule an exclusion. -/
  enabled : Bool
  /-- Freshness window. Not positive means never fresh. -/
  ttlSeconds : Int64
  /-- Response statuses that may be stored. The array ends at its first `-1`. -/
  statusCodes : Option (List Int32)
  /-- Globs for the response content type. `none` accepts any type. -/
  contentTypes : Option (List CString)
  /-- Globs for names of cookies that bypass the cache. -/
  bypassCookies : Option (List CString)
  /-- Header names, or `cookie:NAME`, that partition the cache. -/
  vary : Option (List CString)
  deriving DecidableEq

/-- The rule that the JSON object `{"ttl": ttl}` gives: every other field has its
default. -/
def CacherRule.ofTtl (ttl : Int64) : CacherRule where
  path := none
  query := none
  methods := none
  enabled := true
  ttlSeconds := ttl
  statusCodes := some [200]
  contentTypes := none
  bypassCookies := none
  vary := none

/-- An ordered list of rules (`cacher_ruleset`). -/
structure CacherRuleset where
  rules : List CacherRule
  deriving DecidableEq

/-! ### Globs -/

/-- The loop of `cacher_glob_match`. `p` and `v` are what is left of the pattern and of
the value, and `star` is the text at `star_p` and at `star_v`. `none` means that the
fuel ran out. -/
def globLoop (ci : Bool) : Nat → (p v : CString) → (star : Option (CString × CString)) →
    Option Bool
  | 0, _, _, _ => none
  | _ + 1, p, [], _ => some (p.dropWhile (· = chr '*')).isEmpty
  | fuel + 1, p, c :: v, star =>
    let fold (b : UInt8) : UInt8 := if ci then tolower b else b
    match p, star with
    | x :: p', _ =>
      -- `?` and equal characters are tried first, so a `*` in the value eats a `*` in the
      -- pattern.
      if x = chr '?' ∨ fold x.val = fold c.val then globLoop ci fuel p' v star
      else if x = chr '*' then globLoop ci fuel p' (c :: v) (some (x :: p', c :: v))
      else
        match star with
        | some (sp, sv) => globLoop ci fuel (sp.drop 1) (sv.drop 1) (some (sp, sv.drop 1))
        | none => some false
    | [], some (sp, sv) => globLoop ci fuel (sp.drop 1) (sv.drop 1) (some (sp, sv.drop 1))
    | [], none => some false

/-- Steps that `globLoop` may need. Each star of the pattern backtracks over at most the
whole value, and each attempt reads at most the whole value. -/
def globFuel (pattern value : CString) : Nat :=
  (pattern.length + 2) * (value.length + 1) * (value.length + 1) + 1

/-- `cacher_glob_match`. No caller passes NULL. -/
def cacherGlobMatch (pattern value : CString) (ci : Bool) : Bool :=
  (globLoop ci (globFuel pattern value) pattern value none).getD false

/-! ### Matching -/

/-- `cacher_strcasecmp`. -/
def cacherStrcasecmp : (a b : CString) → Int
  | x :: a, y :: b =>
    if tolower x.val = tolower y.val then cacherStrcasecmp a b
    else (tolower x.val).toNat - (tolower y.val).toNat
  | [], [] => 0
  | x :: _, [] => x.val.toNat
  | [], y :: _ => -(y.val.toNat : Int)

/-- `cacher_strcasecmp` returns 0 exactly for names that are equal up to case. -/
theorem cacherStrcasecmp_eq_zero (a b : CString) :
    cacherStrcasecmp a b = 0 ↔ eqCi a b = true := by
  induction a generalizing b with
  | nil =>
      cases b with
      | nil => simp [cacherStrcasecmp]
      | cons y b =>
          -- The difference to the terminator of the other name is not 0.
          have hy : y.val.toNat ≠ 0 := fun h => y.property (UInt8.toNat_inj.mp h)
          simpa [cacherStrcasecmp, eqCi] using hy
  | cons x a ih =>
      cases b with
      | nil =>
          have hx : x.val.toNat ≠ 0 := fun h => x.property (UInt8.toNat_inj.mp h)
          simpa [cacherStrcasecmp, eqCi] using hx
      | cons y b =>
          rw [cacherStrcasecmp]
          split
          · rename_i hxy
            rw [ih]
            simp [eqCi, hxy]
          · rename_i hxy
            have hne : (tolower x.val).toNat ≠ (tolower y.val).toNat :=
              fun h => hxy (UInt8.toNat_inj.mp h)
            have hci : eqCi (x :: a) (y :: b) = false := by simp [eqCi, hxy]
            rw [hci]
            simp only [Bool.false_eq_true, iff_false]
            omega

/-- The loop over `methods` in `cacher_ruleset_match`. -/
def methodMatches (methods : List CString) (method : Option CString) : Bool :=
  methods.any fun m =>
    match method with
    | some method => cacherStrcasecmp m method == 0
    | none => false

/-- The match clause of one rule accepts the request: the body of the loop in
`cacher_ruleset_match` does not `continue`. -/
def ruleAccepts (r : CacherRule) (path query method : Option CString) : Bool :=
  (match r.path with
    | some glob => cacherGlobMatch glob (path.getD []) false
    | none => true)
  && (match r.query with
    | some glob => cacherGlobMatch glob (query.getD []) false
    | none => true)
  && (match r.methods with
    | some methods => methodMatches methods method
    | none => true)

/-- The match clause accepts what each of the criteria that are there accepts. -/
theorem ruleAccepts_iff (r : CacherRule) (path query method : Option CString) :
    ruleAccepts r path query method = true
      ↔ (∀ glob, r.path = some glob → cacherGlobMatch glob (path.getD []) false = true)
        ∧ (∀ glob, r.query = some glob → cacherGlobMatch glob (query.getD []) false = true)
        ∧ ∀ methods, r.methods = some methods → methodMatches methods method = true := by
  rw [ruleAccepts, Bool.and_eq_true, Bool.and_eq_true, and_assoc]
  refine and_congr ?_ (and_congr ?_ ?_)
  · cases r.path <;> simp
  · cases r.query <;> simp
  · cases r.methods <;> simp

/-- The loop of `cacher_ruleset_match`. -/
def rulesetMatchLoop (path query method : Option CString) : List CacherRule → Option CacherRule
  | [] => none
  | r :: rest => if ruleAccepts r path query method then some r
                 else rulesetMatchLoop path query method rest

/-- `cacher_ruleset_match`. -/
def cacherRulesetMatch (rs : CacherRuleset) (path query method : Option CString) :
    Option CacherRule :=
  rulesetMatchLoop path query method rs.rules

/-- The matched rule is the first one whose match clause accepts the request. -/
theorem cacherRulesetMatch_eq_find? (rs : CacherRuleset) (path query method : Option CString) :
    cacherRulesetMatch rs path query method
      = rs.rules.find? fun r => ruleAccepts r path query method := by
  unfold cacherRulesetMatch
  induction rs.rules with
  | nil => rfl
  | cons r rest ih =>
      rw [rulesetMatchLoop, ih, List.find?_cons]
      cases ruleAccepts r path query method <;> rfl

/-- `cacher_rule_bypasses_cookie`. -/
def cacherRuleBypassesCookie (rule : CacherRule) (cookieName : CString) : Bool :=
  match rule.bypassCookies with
  | none => false
  | some globs => globs.any fun glob => cacherGlobMatch glob cookieName false

/-- The copy loop of `cacher_rule_allows_content_type`: the media type up to `;`, a blank
or the end of the buffer `char base[128]`. -/
def contentTypeBase (contentType : CString) : CString :=
  (contentType.take 127).takeWhile fun c => c != chr ';' && c != chr ' '

/-- `cacher_rule_allows_content_type`. -/
def cacherRuleAllowsContentType (rule : CacherRule) (contentType : Option CString) : Bool :=
  match rule.contentTypes, contentType with
  | none, _ => true
  | some _, none => false
  | some globs, some contentType =>
    globs.any fun glob => cacherGlobMatch glob (contentTypeBase contentType) true

/-- The loop of `cacher_rule_allows_status`, which stops at the first `-1`. -/
def statusLoop (status : Int32) : List Int32 → Bool
  | [] => false
  | code :: rest =>
    -- The sentinel is tested first, so a configured `-1` ends the list early.
    if code = -1 then false else if code = status then true else statusLoop status rest

/-- `cacher_rule_allows_status`. -/
def cacherRuleAllowsStatus (rule : CacherRule) (status : Int32) : Bool :=
  match rule.statusCodes with
  | none => false
  | some codes => statusLoop status codes

end Cacher
