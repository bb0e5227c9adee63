import Cacher.Lib.Table
import Cacher.Rules

/-!
# `Cacher.Request`: the request record, its configuration and its cookies

`RequestRec` holds the fields of httpd's `request_rec` that the module reads or writes.
The chain behind `r->prev` is a list, nearest request first. Of the requests in it the
module reads the fields collected in `RequestHead`, and `status` records how httpd
answered them.

The second half is `cacher_util.c`: the outermost request of a redirect chain, the
case-insensitive comparison, and the cookie scan.
-/

set_option autoImplicit false

namespace Cacher

open CText

/-- Per-directory configuration (`cacher_dir_conf`). `none` in a flag is `CACHER_UNSET`. -/
structure CacherDirConf where
  enabled : Option Bool
  adminPath : Option CString
  adminRequireUser : Option Bool
  statusHeader : Option Bool
  rulesJson : Option CString
  rulesFile : Option CString
  configDir : Option CString
  deriving DecidableEq

/-- Per-server configuration (`cacher_svr_conf`). -/
structure CacherSvrConf where
  cacheRoot : Option CString
  deriving DecidableEq

/-- What a request in a redirect chain says about itself. -/
structure RequestHead where
  /-- `r->uri`: the percent-decoded path. -/
  uri : CString
  /-- `r->args`: the raw query string. -/
  args : Option CString
  /-- `r->parsed_uri.path`. -/
  parsedPath : Option CString
  /-- `r->status`. -/
  status : Int32
  deriving DecidableEq

/-- The fields of `request_rec` that the module uses. -/
structure RequestRec extends RequestHead where
  /-- `r->main` is set: a subrequest. -/
  main : Bool
  /-- The chain behind `r->prev`, nearest request first. -/
  prev : List RequestHead
  method : CString
  headerOnly : Bool
  hostname : Option CString
  user : Option CString
  headersIn : Table
  headersOut : Table
  contentType : Option CString
  /-- `r->connection->aborted`. -/
  aborted : Bool
  /-- The module's entry in `r->per_dir_config`. -/
  dirConf : Option CacherDirConf
  /-- The module's entry in `r->server->module_config`. -/
  svrConf : Option CacherSvrConf
  deriving DecidableEq

/-- A first-hand GET request that carries no header and meets no configuration. -/
def RequestRec.get (uri : CString) (args : Option CString) : RequestRec where
  uri := uri
  args := args
  parsedPath := none
  status := 200
  main := false
  prev := []
  method := lit "GET"
  headerOnly := false
  hostname := none
  user := none
  headersIn := []
  headersOut := []
  contentType := none
  aborted := false
  dirConf := none
  svrConf := none

/-- `cacher_streq_ci`. No caller passes NULL. -/
def cacherStreqCi : (a b : CString) → Bool
  | x :: a, y :: b => if tolower x.val = tolower y.val then cacherStreqCi a b else false
  | [], [] => true
  | _ :: _, [] => false
  | [], _ :: _ => false

/-- The comparison of the module is the one of the APR tables. -/
theorem cacherStreqCi_eq_eqCi (a b : CString) : cacherStreqCi a b = eqCi a b := by
  induction a generalizing b with
  | nil => cases b <;> simp [cacherStreqCi, eqCi]
  | cons x a ih =>
      cases b with
      | nil => simp [cacherStreqCi, eqCi]
      | cons y b =>
          rw [cacherStreqCi, ih]
          by_cases hxy : tolower x.val = tolower y.val <;> simp [eqCi, hxy]

/-- The loop of `cacher_original_request`. -/
def originalLoop (top : RequestHead) : List RequestHead → RequestHead
  | [] => top
  | prev :: rest => originalLoop prev rest

/-- `cacher_original_request`: the request that holds the URI the client asked for. -/
def cacherOriginalRequest (r : RequestRec) : RequestHead := originalLoop r.toRequestHead r.prev

/-- The path that `cacher_handler` matches rules against. -/
def RequestHead.matchPath (orig : RequestHead) : CString := orig.parsedPath.getD orig.uri

/-! ### Cookies -/

/-- One turn of the loop in `for_each_cookie`: the pair it hands to the callback. -/
def cookiePair (pair : CString) : Option (CString × CString) :=
  cutAt [chr '='] (pair.dropWhile (· == chr ' '))

/-- The calls `for_each_cookie` makes, as the list of their name and value arguments. -/
def forEachCookie (r : RequestRec) : List (CString × CString) :=
  match r.headersIn.get (lit "Cookie") with
  | none => []
  | some header => (tokens (· == chr ';') header).filterMap cookiePair

/-- `bypass_cb`. -/
def bypassCb (rule : CacherRule) (bypass : Bool) (cookie : CString × CString) : Bool :=
  if !bypass && cacherRuleBypassesCookie rule cookie.1 then true else bypass

/-- `cacher_request_bypasses`. -/
def cacherRequestBypasses (r : RequestRec) (rule : CacherRule) : Bool :=
  match rule.bypassCookies with
  | none => false
  | some _ => (forEachCookie r).foldl (bypassCb rule) false

/-- `lookup_cb`. -/
def lookupCb (name : CString) (value : Option CString) (cookie : CString × CString) :
    Option CString :=
  -- The first cookie of the name wins.
  if value = none ∧ cookie.1 = name then some cookie.2 else value

/-- `cacher_get_cookie`. -/
def cacherGetCookie (r : RequestRec) (name : CString) : Option CString :=
  (forEachCookie r).foldl (lookupCb name) none

/-- A request bypasses a rule exactly when one of its cookies has a bypass name. -/
theorem cacherRequestBypasses_eq_true (r : RequestRec) (rule : CacherRule) :
    cacherRequestBypasses r rule = true
      ↔ ∃ cookie ∈ forEachCookie r, cacherRuleBypassesCookie rule cookie.1 = true := by
  have hfold : ∀ (l : List (CString × CString)) (b : Bool),
      l.foldl (bypassCb rule) b = (b || l.any fun c => cacherRuleBypassesCookie rule c.1) := by
    intro l
    induction l with
    | nil => intro b; simp
    | cons c l ih =>
        intro b
        rw [List.foldl_cons, ih, List.any_cons, bypassCb]
        cases b <;> cases cacherRuleBypassesCookie rule c.1 <;> rfl
  unfold cacherRequestBypasses
  cases hglobs : rule.bypassCookies with
  | none => simp [cacherRuleBypassesCookie, hglobs]
  | some globs =>
      show (forEachCookie r).foldl (bypassCb rule) false = true ↔ _
      rw [hfold]
      simp

/-- A cookie looked up by name is one of the cookies of the request. -/
theorem mem_of_cacherGetCookie {r : RequestRec} {name value : CString}
    (h : cacherGetCookie r name = some value) : (name, value) ∈ forEachCookie r := by
  -- What the fold ends with was there before or is the value of a cookie.
  have hfold : ∀ (l : List (CString × CString)) (acc : Option CString),
      l.foldl (lookupCb name) acc = some value → acc = some value ∨ (name, value) ∈ l := by
    intro l
    induction l with
    | nil => intro acc h; exact Or.inl h
    | cons c l ih =>
        intro acc h
        rw [List.foldl_cons] at h
        rcases ih _ h with hacc | hl
        · rw [lookupCb] at hacc
          split at hacc
          · rename_i hc
            cases hacc
            exact Or.inr (by rw [← hc.2]; exact List.mem_cons_self)
          · exact Or.inl hacc
        · exact Or.inr (List.mem_cons_of_mem _ hl)
  rcases hfold (forEachCookie r) none h with h | h
  · cases h
  · exact h

/-- A cookie value is cut out of the `Cookie` header, so it holds no character that the
header does not. -/
theorem mem_header_of_mem_cookie {r : RequestRec} {cookie : CString × CString}
    (h : cookie ∈ forEachCookie r) {c : CChar} (hc : c ∈ cookie.2) :
    ∃ header, r.headersIn.get (lit "Cookie") = some header ∧ c ∈ header := by
  unfold forEachCookie at h
  cases hh : r.headersIn.get (lit "Cookie") with
  | none => simp [hh] at h
  | some header =>
      rw [hh] at h
      obtain ⟨pair, hpair, hcut⟩ := List.mem_filterMap.mp h
      -- The value is a part of the pair, and the pair a part of the header.
      refine ⟨header, rfl, mem_of_mem_tokens _ hpair ?_⟩
      have heq := eq_append_of_cutAt (a := cookie.1) (b := cookie.2) hcut
      have hmem : c ∈ pair.dropWhile (· == chr ' ') := by
        rw [heq]
        exact List.mem_append_right _ hc
      exact List.dropWhile_sublist _ |>.subset hmem

end Cacher
