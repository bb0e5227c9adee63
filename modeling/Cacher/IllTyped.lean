import Cacher.Glob
import Cacher.Handler
import Cacher.RulesParse

/-!
# `Cacher.IllTyped`: fields of the wrong type

`parse_rule` takes a field of the wrong type for one that is not there, and a restriction that is
not there accepts everything. `parseRule_replaceField` says so for the five restricting fields, and
`neverWidens_iff` says when the rule is none the wider for it: when it caches nothing anyway, or
the field has never refused anything.
-/

set_option autoImplicit false

namespace Cacher

open CText

/-- The fields of a rule object that restrict what is cached. -/
inductive RestrictingField where
  | path
  | query
  | methods
  | contentTypes
  | bypassCookies
  deriving DecidableEq

/-- The value is not of the type that the field has. -/
def RestrictingField.WrongType : RestrictingField → Json → Prop
  | .path, bad | .query, bad => ∀ value, bad ≠ .string value
  | .methods, bad | .contentTypes, bad | .bypassCookies, bad => ∀ items, bad ≠ .array items

/-- The members of a rule object with another value for a member of its `match` member. -/
def replaceMatchItem (name : CString) (value : Json) (members : List (CString × Json)) :
    List (CString × Json) :=
  match (Json.object members).getObjectItem (lit "match") with
  | some (.object clause) => setMember (lit "match") (.object (setMember name value clause)) members
  | _ => members

/-- The members of a rule object with another value for the field. -/
def RestrictingField.replace : RestrictingField → Json → List (CString × Json) → List (CString × Json)
  | .path, bad, members => replaceMatchItem (lit "path") bad members
  | .query, bad, members => replaceMatchItem (lit "query") bad members
  | .methods, bad, members => replaceMatchItem (lit "methods") bad members
  | .contentTypes, bad, members => setMember (lit "content_types") bad members
  | .bypassCookies, bad, members => setMember (lit "bypass_cookies") bad members

/-- The rule without the restriction. -/
def RestrictingField.clear : RestrictingField → CacherRule → CacherRule
  | .path, rule => { rule with path := none }
  | .query, rule => { rule with query := none }
  | .methods, rule => { rule with methods := none }
  | .contentTypes, rule => { rule with contentTypes := none }
  | .bypassCookies, rule => { rule with bypassCookies := none }

/-- A request and the content type of its response pass every check of the one-rule ruleset of
the object. -/
def MayCache (conv : Conversions) (members : List (CString × Json)) (r : RequestRec)
    (contentType : Option CString) : Prop :=
  ∃ rule, cacherRulesetMatch ⟨parseRules conv [.object members]⟩
      (some (cacherOriginalRequest r).matchPath) (cacherOriginalRequest r).args (some r.method)
        = some rule
    ∧ rule.enabled = true ∧ cacherRequestBypasses r rule = false
    ∧ cacherRuleAllowsContentType rule contentType = true

/-- The ill-typed value lets nothing through that the value before it did not. -/
def NeverWidens (conv : Conversions) (members : List (CString × Json)) (field : RestrictingField)
    (bad : Json) : Prop :=
  ∀ r contentType, MayCache conv (field.replace bad members) r contentType →
    MayCache conv members r contentType

/-- The field of the rule refuses no request and no response. -/
def RestrictingField.RefusesNothing : RestrictingField → CacherRule → Prop
  | .path, rule => rule.path = none
  | .query, rule => rule.query = none
  | .methods, rule => rule.methods = none
  | .contentTypes, rule => rule.contentTypes = none
  | .bypassCookies, rule => ∀ r, cacherRequestBypasses r rule = false

/-! ### The ill-typed field is not there -/

section Replace

variable {conv : Conversions} {members : List (CString × Json)} {bad : Json} {name other : CString}

/-- A member of the rule object says nothing about the `match` member. -/
theorem matchItem_setMember (hname : lit "match" ≠ name) :
    matchItem (.object (setMember name bad members)) other = matchItem (.object members) other := by
  unfold matchItem
  rw [getObjectItem_setMember_of_ne hname]

/-- The member that is replaced, and the others of the `match` clause. -/
theorem matchItem_replaceMatchItem (other : CString) :
    matchItem (.object (replaceMatchItem name bad members)) other
      = if other = name then (matchItem (.object members) name).map fun _ => bad
        else matchItem (.object members) other := by
  unfold matchItem replaceMatchItem
  cases hclause : (Json.object members).getObjectItem (lit "match") with
  | none => simp [hclause]
  | some json =>
      cases json with
      | object clause =>
          simp only [getObjectItem_setMember_self, hclause, Option.map_some]
          by_cases hother : other = name
          · rw [if_pos hother, hother, getObjectItem_setMember_self]
          · rw [if_neg hother, getObjectItem_setMember_of_ne hother]
      | null | bool _ | number _ | string _ | array _ => simp [hclause]

theorem matchItem_replaceMatchItem_self :
    matchItem (.object (replaceMatchItem name bad members)) name
      = (matchItem (.object members) name).map fun _ => bad := by
  rw [matchItem_replaceMatchItem, if_pos rfl]

theorem matchItem_replaceMatchItem_of_ne (hother : other ≠ name) :
    matchItem (.object (replaceMatchItem name bad members)) other
      = matchItem (.object members) other := by
  rw [matchItem_replaceMatchItem, if_neg hother]

theorem getObjectItem_replaceMatchItem (hother : other ≠ lit "match") :
    (Json.object (replaceMatchItem name bad members)).getObjectItem other
      = (Json.object members).getObjectItem other := by
  unfold replaceMatchItem
  split
  · exact getObjectItem_setMember_of_ne hother _ _
  · rfl

theorem bind_string?_eq_none (hbad : ∀ value, bad ≠ .string value) (item : Option Json) :
    (item.map fun _ => bad).bind Json.string? = none := by
  cases item with
  | none => rfl
  | some _ =>
      cases bad with
      | string value => exact absurd rfl (hbad value)
      | null | bool _ | number _ | array _ | object _ => rfl

theorem jsonStringArray_eq_none (hbad : ∀ items, bad ≠ .array items) (item : Option Json)
    (toUpper : Bool) : jsonStringArray (item.map fun _ => bad) toUpper = none := by
  cases item with
  | none => rfl
  | some _ =>
      cases bad with
      | array items => exact absurd rfl (hbad items)
      | null | bool _ | number _ | string _ | object _ => rfl

/-- With a value of the wrong type, the rule is parsed as if the field were not there. -/
theorem parseRule_replace {field : RestrictingField} (hbad : field.WrongType bad) :
    parseRule conv (.object (field.replace bad members))
      = field.clear (parseRule conv (.object members)) := by
  cases field with
  | path | query =>
      simp (disch := decide) only [RestrictingField.replace, RestrictingField.clear, parseRule,
        matchItem_replaceMatchItem_self, matchItem_replaceMatchItem_of_ne,
        getObjectItem_replaceMatchItem, bind_string?_eq_none hbad]
  | methods =>
      simp (disch := decide) only [RestrictingField.replace, RestrictingField.clear, parseRule,
        matchItem_replaceMatchItem_self, matchItem_replaceMatchItem_of_ne,
        getObjectItem_replaceMatchItem, jsonStringArray_eq_none hbad]
  | contentTypes | bypassCookies =>
      simp (disch := decide) only [RestrictingField.replace, RestrictingField.clear, parseRule,
        matchItem_setMember, getObjectItem_setMember_self, getObjectItem_setMember_of_ne,
        jsonStringArray_eq_none hbad]

end Replace

/-! ### What the rule lets through -/

/-- The request and the content type pass every check of the rule. -/
structure CacherRule.Admits (rule : CacherRule) (r : RequestRec) (contentType : Option CString) :
    Prop where
  accepts : r.accepts rule = true
  enabled : rule.enabled = true
  noBypass : cacherRequestBypasses r rule = false
  allows : cacherRuleAllowsContentType rule contentType = true

theorem mayCache_iff {conv : Conversions} {members : List (CString × Json)} {r : RequestRec}
    {contentType : Option CString} :
    MayCache conv members r contentType
      ↔ (parseRule conv (.object members)).Admits r contentType := by
  unfold MayCache
  rw [cacherRulesetMatch_eq_find?]
  show (∃ rule, List.find? r.accepts [parseRule conv (.object members)] = some rule ∧ _) ↔ _
  cases haccepts : r.accepts (parseRule conv (.object members)) with
  | false =>
      simp only [List.find?_cons, haccepts, List.find?_nil, reduceCtorEq, false_and, exists_false,
        false_iff]
      intro h
      rw [h.accepts] at haccepts
      cases haccepts
  | true =>
      simp only [List.find?_cons, haccepts, Option.some.injEq, exists_eq_left']
      exact ⟨fun h => ⟨haccepts, h.1, h.2.1, h.2.2⟩, fun h => ⟨h.enabled, h.noBypass, h.allows⟩⟩

/-- The same request for another path, query and method. -/
def RequestRec.asking (r : RequestRec) (path query method : CString) : RequestRec :=
  { r with parsedPath := some path, args := some query, method := method, prev := [] }

section Admits

variable {rule : CacherRule} {r : RequestRec} {contentType : Option CString}

theorem accepts_asking (rule : CacherRule) (r : RequestRec) (path query method : CString) :
    (r.asking path query method).accepts rule = true
      ↔ (∀ glob, rule.path = some glob → cacherGlobMatch glob path false = true)
        ∧ (∀ glob, rule.query = some glob → cacherGlobMatch glob query false = true)
        ∧ ∀ methods, rule.methods = some methods → methodMatches methods (some method) = true :=
  ruleAccepts_iff rule (some path) (some query) (some method)

/-- Every glob accepts itself. -/
theorem glob_accepts_getD {item : Option CString} {glob : CString} (h : item = some glob) :
    cacherGlobMatch glob (item.getD []) false = true := by
  rw [h, Option.getD_some, cacherGlobMatch_self]

/-- Every glob refuses a longer row of stars. -/
theorem glob_refuses_stars (glob : CString) :
    cacherGlobMatch glob (List.replicate (glob.length + 1) (chr '*')) false = false := by
  rw [Bool.eq_false_iff, ne_eq, cacherGlobMatch_iff, List.replicate_succ']
  have hno : ¬ Glob.Eager (· = chr '*') (glob.map (piece false))
      (List.replicate (glob.map (piece false)).length (chr '*') ++ [chr '*']) :=
    Glob.not_eager_replicate rfl _ _
  rwa [List.length_map] at hno

/-- A list of methods accepts its first one. -/
theorem methods_accept_head {methods : List CString} (hne : methods ≠ []) :
    methodMatches methods (some (methods.headD [])) = true := by
  cases methods with
  | nil => exact absurd rfl hne
  | cons m methods => exact methodMatches_eq_true.mpr ⟨m, List.mem_cons_self, m, rfl, eqCi_refl m⟩

/-- No list of methods accepts a method that is longer than all of them together. -/
theorem methods_refuse_longer (methods : List CString) :
    methodMatches methods (some (chr 'A' :: methods.flatten)) = false := by
  rw [Bool.eq_false_iff]
  intro h
  obtain ⟨value, hmem, m, hm, heq⟩ := methodMatches_eq_true.mp h
  cases hm
  have hlen := congrArg List.length (beq_iff_eq.mp heq)
  have hle := (List.sublist_flatten_of_mem hmem).length_le
  simp only [List.length_map, List.length_cons] at hlen
  omega

/-- A request without a cookie bypasses nothing. -/
theorem noBypass_get (rule : CacherRule) (path query method : CString) :
    cacherRequestBypasses ((RequestRec.get [] none).asking path query method) rule = false := by
  rw [Bool.eq_false_iff]
  intro h
  obtain ⟨cookie, hmem, -⟩ := (cacherRequestBypasses_eq_true _ rule).mp h
  exact absurd hmem (List.not_mem_nil)

/-- What refuses nothing is not missed. -/
theorem admits_of_clear {field : RestrictingField} (hrefuses : field.RefusesNothing rule)
    (h : (field.clear rule).Admits r contentType) : rule.Admits r contentType := by
  have hsame : ∀ {rule' : CacherRule}, rule' = rule → rule'.Admits r contentType →
      rule.Admits r contentType := fun heq h => heq ▸ h
  cases field with
  | path => exact hsame (by rw [RestrictingField.clear, ← show rule.path = none from hrefuses]) h
  | query => exact hsame (by rw [RestrictingField.clear, ← show rule.query = none from hrefuses]) h
  | methods => exact hsame (by rw [RestrictingField.clear, ← show rule.methods = none from hrefuses]) h
  | contentTypes =>
      exact hsame (by rw [RestrictingField.clear, ← show rule.contentTypes = none from hrefuses]) h
  | bypassCookies => exact ⟨h.accepts, h.enabled, hrefuses r, h.allows⟩

/-- What the restriction refuses is let through without it, if nothing else stands in the way. -/
theorem exists_refused {field : RestrictingField} (hmethods : rule.methods ≠ some [])
    (henabled : rule.enabled = true) (hrefuses : ¬ field.RefusesNothing rule)
    (hallows : field ≠ .contentTypes →
      ∃ contentType, cacherRuleAllowsContentType rule contentType = true) :
    ∃ r contentType, (field.clear rule).Admits r contentType ∧ ¬ rule.Admits r contentType := by
  -- What the rule itself asks for.
  obtain ⟨path, hpath⟩ : ∃ path, ∀ glob, rule.path = some glob →
      cacherGlobMatch glob path false = true := ⟨_, fun _ => glob_accepts_getD⟩
  obtain ⟨query, hquery⟩ : ∃ query, ∀ glob, rule.query = some glob →
      cacherGlobMatch glob query false = true := ⟨_, fun _ => glob_accepts_getD⟩
  obtain ⟨method, hmethod⟩ : ∃ method, ∀ methods, rule.methods = some methods →
      methodMatches methods (some method) = true := by
    refine ⟨(rule.methods.getD []).headD [], fun methods h => ?_⟩
    rw [h]
    exact methods_accept_head fun hnil => hmethods (by rw [h, hnil])
  have hnone : ∀ {β : Type} {P : β → Prop} (x : β), none = some x → P x := fun _ h => by cases h
  cases field with
  | path =>
      obtain ⟨contentType, hallows⟩ := hallows (by decide)
      obtain ⟨glob, hglob⟩ := Option.ne_none_iff_exists'.mp hrefuses
      refine ⟨(RequestRec.get [] none).asking (List.replicate (glob.length + 1) (chr '*')) query
        method, contentType, ⟨(accepts_asking _ _ _ _ _).mpr ⟨hnone, hquery, hmethod⟩, henabled,
          noBypass_get _ _ _ _, hallows⟩, fun h => ?_⟩
      have hstars := ((accepts_asking _ _ _ _ _).mp h.accepts).1 glob hglob
      rw [glob_refuses_stars] at hstars
      cases hstars
  | query =>
      obtain ⟨contentType, hallows⟩ := hallows (by decide)
      obtain ⟨glob, hglob⟩ := Option.ne_none_iff_exists'.mp hrefuses
      refine ⟨(RequestRec.get [] none).asking path (List.replicate (glob.length + 1) (chr '*'))
        method, contentType, ⟨(accepts_asking _ _ _ _ _).mpr ⟨hpath, hnone, hmethod⟩, henabled,
          noBypass_get _ _ _ _, hallows⟩, fun h => ?_⟩
      have hstars := ((accepts_asking _ _ _ _ _).mp h.accepts).2.1 glob hglob
      rw [glob_refuses_stars] at hstars
      cases hstars
  | methods =>
      obtain ⟨contentType, hallows⟩ := hallows (by decide)
      obtain ⟨methods, hsome⟩ := Option.ne_none_iff_exists'.mp hrefuses
      refine ⟨(RequestRec.get [] none).asking path query (chr 'A' :: methods.flatten), contentType,
        ⟨(accepts_asking _ _ _ _ _).mpr ⟨hpath, hquery, hnone⟩, henabled, noBypass_get _ _ _ _,
          hallows⟩, fun h => ?_⟩
      have hlonger := ((accepts_asking _ _ _ _ _).mp h.accepts).2.2 methods hsome
      rw [methods_refuse_longer] at hlonger
      cases hlonger
  | contentTypes =>
      obtain ⟨globs, hglobs⟩ := Option.ne_none_iff_exists'.mp hrefuses
      refine ⟨(RequestRec.get [] none).asking path query method, none,
        ⟨(accepts_asking _ _ _ _ _).mpr ⟨hpath, hquery, hmethod⟩, henabled, noBypass_get _ _ _ _, rfl⟩,
        fun h => ?_⟩
      -- A response without a content type.
      have hallows := h.allows
      unfold cacherRuleAllowsContentType at hallows
      rw [hglobs] at hallows
      cases hallows
  | bypassCookies =>
      obtain ⟨contentType, hallows⟩ := hallows (by decide)
      obtain ⟨r, hbypass⟩ := not_forall.mp hrefuses
      exact ⟨r.asking path query method, contentType,
        ⟨(accepts_asking _ _ _ _ _).mpr ⟨hpath, hquery, hmethod⟩, henabled, rfl, hallows⟩,
        fun h => hbypass h.noBypass⟩

end Admits

/-- An ill-typed field lets nothing new through, exactly when the rule lets nothing through at all
or the field has refused nothing. -/
theorem neverWidens_iff (conv : Conversions) (members : List (CString × Json))
    (field : RestrictingField) (bad : Json) (hbad : field.WrongType bad) :
    NeverWidens conv members field bad
      ↔ (parseRule conv (.object members)).enabled = false
        ∨ field.RefusesNothing (parseRule conv (.object members))
        ∨ (field ≠ .contentTypes ∧ ∀ contentType,
          cacherRuleAllowsContentType (parseRule conv (.object members)) contentType = false) := by
  unfold NeverWidens
  simp only [mayCache_iff, parseRule_replace hbad]
  have hmethods : (parseRule conv (.object members)).methods ≠ some [] := by
    simp only [parseRule, jsonStringArray_eq]
    split
    · exact Option.some_ne_none _ |>.symm
    · rename_i hne
      exact fun h => hne (List.map_eq_nil_iff.mp (Option.some.inj h))
  generalize parseRule conv (.object members) = rule at hmethods ⊢
  constructor
  · intro hnever
    by_contra hno
    obtain ⟨henabled, hno⟩ := not_or.mp hno
    obtain ⟨hrefuses, hno⟩ := not_or.mp hno
    obtain ⟨r, contentType, hclear, hrule⟩ := exists_refused hmethods (by simpa using henabled)
      hrefuses fun hfield => by simpa [hfield] using hno
    exact hrule (hnever r contentType hclear)
  · rintro (hdisabled | hrefuses | ⟨hfield, hallows⟩) r contentType h
    · have henabled := h.enabled
      have hsame : (field.clear rule).enabled = rule.enabled := by cases field <;> rfl
      rw [hsame, hdisabled] at henabled
      cases henabled
    · exact admits_of_clear hrefuses h
    · have hallowed := h.allows
      have hsame : cacherRuleAllowsContentType (field.clear rule) contentType
          = cacherRuleAllowsContentType rule contentType := by
        cases field with
        | contentTypes => exact absurd rfl hfield
        | path | query | methods | bypassCookies => rfl
      rw [hsame, hallows] at hallowed
      cases hallowed

/-- A rule that leaves out who is logged in. -/
def Json.exceptLoggedIn : List (CString × Json) :=
  [(lit "ttl", .number (.finite 60)), (lit "bypass_cookies", .array [.string (lit "login_*")])]

/-- `GET /a` with a login cookie. -/
def RequestRec.loggedIn : RequestRec :=
  { RequestRec.get (lit "/a") none with headersIn := [(lit "Cookie", lit "login_1=x")] }

/-- A string in place of the array lets the logged-in request through. -/
theorem not_neverWidens_cookieString :
    ¬ NeverWidens .indefinite Json.exceptLoggedIn .bypassCookies (.string (lit "login_*")) := by
  intro h
  have hclear : MayCache .indefinite
      (RestrictingField.bypassCookies.replace (.string (lit "login_*")) Json.exceptLoggedIn)
      RequestRec.loggedIn none := mayCache_iff.mpr ⟨rfl, rfl, rfl, rfl⟩
  have hbypass := (mayCache_iff.mp (h _ _ hclear)).noBypass
  exact absurd hbypass (by decide +kernel)

/-- An exclusion stays one. -/
theorem neverWidens_exclusion :
    NeverWidens .indefinite [(lit "match", .object [(lit "path", .string (lit "/a*"))]),
      (lit "enabled", .bool false)] .path .null :=
  (neverWidens_iff _ _ _ _ (show RestrictingField.WrongType .path .null from
    fun _ h => by cases h)).mpr (Or.inl rfl)

end Cacher
