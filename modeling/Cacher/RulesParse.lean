import Cacher.Rules
import Cacher.Lib.Json

/-!
# `Cacher.RulesParse`: from the JSON text to the ruleset

The parsing half of `cacher_rules.c`, with every allocation succeeding. The text goes through
`cJSON_Parse`, which enters as a parameter, and the ruleset is built from the tree that it returns.

`cacherRulesetMatch_parse` is what parsing and matching come to: the first object of the `rules`
array that accepts the request decides, and whether an object accepts a request depends on its
`match` member alone.
-/

set_option autoImplicit false

namespace Cacher

open CText

/-! ### Parsing -/

/-- `toupper` in the C locale. -/
def toupper (c : CChar) : CChar :=
  if h : 97 ≤ c.val ∧ c.val ≤ 122 then ⟨c.val - 32, by
    intro hzero
    have hle := UInt8.le_iff_toNat_le.mp h.1
    have hsub := congrArg UInt8.toNat hzero
    rw [UInt8.toNat_sub_of_le _ _ (UInt8.le_trans (by decide) h.1)] at hsub
    simp at hle hsub
    omega⟩
  else c

/-- `json_string_array`. -/
def jsonStringArray (arr : Option Json) (toUpper : Bool) : Option (List CString) :=
  match arr.bind Json.array? with
  | none => none
  | some items =>
    let out := (items.filterMap Json.string?).map fun value =>
      if toUpper then value.map toupper else value
    -- An empty array and one without a string are no array.
    if out = [] then none else some out

/-- `json_int_array`, up to the `-1` at its end. -/
def jsonIntArray (conv : Conversions) (arr : Option Json) : Option (List Int32) :=
  match arr.bind Json.array? with
  | none => none
  | some items =>
    let out := (items.filterMap Json.number?).map conv.toInt
    if out = [] then none else some out

/-- A member of the `match` member of a rule object, if that is an object. -/
def matchItem (robj : Json) (name : CString) : Option Json :=
  match robj.getObjectItem (lit "match") with
  | some (.object clause) => (Json.object clause).getObjectItem name
  | _ => none

/-- `parse_rule`. -/
def parseRule (conv : Conversions) (robj : Json) : CacherRule where
  path := (matchItem robj (lit "path")).bind Json.string?
  query := (matchItem robj (lit "query")).bind Json.string?
  methods := jsonStringArray (matchItem robj (lit "methods")) true
  enabled := ((robj.getObjectItem (lit "enabled")).bind Json.bool?).getD true
  ttlSeconds := (((robj.getObjectItem (lit "ttl")).bind Json.number?).map conv.toLong).getD 0
  -- Only plain 200 responses unless told otherwise.
  statusCodes := some ((jsonIntArray conv (robj.getObjectItem (lit "status_codes"))).getD [200])
  contentTypes := jsonStringArray (robj.getObjectItem (lit "content_types")) false
  bypassCookies := jsonStringArray (robj.getObjectItem (lit "bypass_cookies")) false
  vary := jsonStringArray (robj.getObjectItem (lit "vary")) false

/-- The loop over the elements of the `rules` array: what is no object is passed over. -/
def parseRules (conv : Conversions) (items : List Json) : List CacherRule :=
  (items.filter Json.isObject).map (parseRule conv)

/-- What `cacher_ruleset_parse` makes of the tree. -/
def rulesetOfJson (conv : Conversions) (root : Json) : Except CString CacherRuleset :=
  match (root.getObjectItem (lit "rules")).bind Json.array? with
  | none => .error (lit "missing top-level \"rules\" array")
  | some items => .ok ⟨parseRules conv items⟩

/-- `cacher_ruleset_parse`, with what it writes to `errbuf` when it returns NULL. `cJSONParse`
gives the tree, or the text at `cJSON_GetErrorPtr`. -/
def cacherRulesetParse (cJSONParse : CString → Except CString Json) (conv : Conversions)
    (json : Option CString) : Except CString CacherRuleset :=
  match json with
  | none => .error (lit "no JSON supplied")
  | some json =>
    match cJSONParse json with
    | .error near => .error (lit "JSON syntax error near: " ++ near.take 40)
    | .ok root => rulesetOfJson conv root

/-! ### Matching a parsed ruleset -/

/-- The request matches the glob of the member, if that is a string. -/
def GlobAccepts (item : Option Json) (value : Option CString) : Prop :=
  ∀ glob, item = some (.string glob) → cacherGlobMatch glob (value.getD []) false = true

/-- The `match` member of a rule object accepts the request. -/
structure ElementAccepts (robj : Json) (path query method : Option CString) : Prop where
  path : GlobAccepts (matchItem robj (lit "path")) path
  query : GlobAccepts (matchItem robj (lit "query")) query
  /-- No string among the methods, or one that is the method up to ASCII case. -/
  methods : ∀ items, matchItem robj (lit "methods") = some (.array items) →
    (∃ value, .string value ∈ items) →
    ∃ value m, .string value ∈ items ∧ method = some m ∧ eqCi value m = true

/-- The first object among the elements that accepts the request. -/
inductive FirstAccepting (path query method : Option CString) : List Json → Option Json → Prop
  | none {items : List Json}
      (hno : ∀ robj ∈ items, robj.isObject = true → ¬ ElementAccepts robj path query method) :
      FirstAccepting path query method items none
  | some (before after : List Json) {robj : Json} (hobject : robj.isObject = true)
      (haccepts : ElementAccepts robj path query method)
      (hno : ∀ robj ∈ before, robj.isObject = true → ¬ ElementAccepts robj path query method) :
      FirstAccepting path query method (before ++ robj :: after) (some robj)

/-- Upper case is equal up to case. -/
theorem tolower_toupper (c : CChar) : tolower (toupper c).val = tolower c.val := by
  unfold toupper
  split
  · rename_i h
    show tolower (c.val - 32) = tolower c.val
    have h1 := UInt8.le_iff_toNat_le.mp h.1
    have h2 := UInt8.le_iff_toNat_le.mp h.2
    have hsub : (c.val - 32).toNat = c.val.toNat - 32 :=
      UInt8.toNat_sub_of_le _ _ (UInt8.le_trans (by decide) h.1)
    simp at h1 h2
    have hlower : ¬ (65 ≤ c.val ∧ c.val ≤ 90) := by
      rintro ⟨-, h3⟩
      have h3 := UInt8.le_iff_toNat_le.mp h3
      simp at h3
      omega
    have hupper : 65 ≤ c.val - 32 ∧ c.val - 32 ≤ 90 := by
      rw [UInt8.le_iff_toNat_le, UInt8.le_iff_toNat_le, hsub]
      simp
      omega
    unfold tolower
    rw [if_pos hupper, if_neg hlower]
    rw [← UInt8.toNat_inj, UInt8.toNat_add, hsub]
    simp
    omega
  · rfl

theorem eqCi_map_toupper (a b : CString) : eqCi (a.map toupper) b = eqCi a b := by
  simp only [eqCi, List.map_map]
  congr 1
  exact List.map_congr_left fun c _ => tolower_toupper c

/-- The strings among the items of an array. -/
def stringsOf (arr : Option Json) : List CString :=
  ((arr.bind Json.array?).getD []).filterMap Json.string?

/-- The strings of the array, or nothing when it has none. -/
theorem jsonStringArray_eq (arr : Option Json) (toUpper : Bool) :
    jsonStringArray arr toUpper = if stringsOf arr = [] then none
      else some ((stringsOf arr).map fun value => if toUpper then value.map toupper else value) := by
  unfold jsonStringArray stringsOf
  cases arr.bind Json.array? with
  | none => rfl
  | some items => simp only [List.map_eq_nil_iff, Option.getD_some]

theorem string?_eq_some {json : Json} {value : CString} :
    json.string? = some value ↔ json = .string value := by
  cases json with
  | string value' => simp [Json.string?]
  | null | bool _ | number _ | array _ | object _ => simp [Json.string?]

theorem array?_eq_some {json : Json} {items : List Json} :
    json.array? = some items ↔ json = .array items := by
  cases json with
  | array items' => simp [Json.array?]
  | null | bool _ | number _ | string _ | object _ => simp [Json.array?]

theorem mem_stringsOf {arr : Option Json} {value : CString} :
    value ∈ stringsOf arr ↔ ∃ items, arr = some (.array items) ∧ .string value ∈ items := by
  have harray : ∀ items, arr.bind Json.array? = some items ↔ arr = some (.array items) := by
    intro items
    simp only [Option.bind_eq_some_iff, array?_eq_some, exists_eq_right]
  unfold stringsOf
  cases hitems : arr.bind Json.array? with
  | none =>
      simp only [Option.getD_none, List.filterMap_nil, List.not_mem_nil, false_iff]
      rintro ⟨items, harr, -⟩
      rw [(harray items).mpr harr] at hitems
      cases hitems
  | some items =>
      simp only [(harray items).mp hitems, Option.getD_some, List.mem_filterMap, string?_eq_some,
        exists_eq_right, Option.some.injEq, Json.array.injEq, exists_eq_left']

/-- The string that `parse_rule` takes from a member. -/
theorem bind_string?_eq_some {item : Option Json} {value : CString} :
    item.bind Json.string? = some value ↔ item = some (.string value) := by
  simp only [Option.bind_eq_some_iff, string?_eq_some, exists_eq_right]

/-- The loop over the methods. -/
theorem methodMatches_eq_true {methods : List CString} {method : Option CString} :
    methodMatches methods method = true
      ↔ ∃ value ∈ methods, ∃ m, method = some m ∧ eqCi value m = true := by
  cases method with
  | none => simp [methodMatches]
  | some m => simp [methodMatches, cacherStrcasecmp_eq_zero]

/-- A parsed rule accepts what its `match` member accepts. -/
theorem ruleAccepts_parseRule (conv : Conversions) (robj : Json) (path query method : Option CString) :
    ruleAccepts (parseRule conv robj) path query method = true
      ↔ ElementAccepts robj path query method := by
  have hmethods : (∀ methods, jsonStringArray (matchItem robj (lit "methods")) true = some methods →
      methodMatches methods method = true)
      ↔ ∀ items, matchItem robj (lit "methods") = some (.array items) →
        (∃ value, .string value ∈ items) →
        ∃ value m, .string value ∈ items ∧ method = some m ∧ eqCi value m = true := by
    rw [jsonStringArray_eq]
    generalize matchItem robj (lit "methods") = item
    by_cases hnone : stringsOf item = []
    · rw [if_pos hnone]
      refine iff_of_true (fun methods h => by cases h) fun items hitem hsome => ?_
      obtain ⟨value, hvalue⟩ := hsome
      have hmem := mem_stringsOf.mpr ⟨items, hitem, hvalue⟩
      rw [hnone] at hmem
      cases hmem
    · rw [if_neg hnone]
      obtain ⟨value, hvalue⟩ := List.exists_mem_of_ne_nil _ hnone
      obtain ⟨items, hitem, hvalue⟩ := mem_stringsOf.mp hvalue
      simp only [Option.some.injEq, forall_eq', methodMatches_eq_true, List.mem_map, if_true]
      constructor
      · rintro ⟨_, ⟨value, hmem, rfl⟩, m, hm, heq⟩ items' hitem' -
        obtain ⟨items'', hitem'', hmem⟩ := mem_stringsOf.mp hmem
        rw [hitem'] at hitem''
        cases hitem''
        exact ⟨value, m, hmem, hm, (eqCi_map_toupper value m).symm.trans heq⟩
      · intro h
        obtain ⟨value', m, hmem, hm, heq⟩ := h items hitem ⟨value, hvalue⟩
        exact ⟨_, ⟨value', mem_stringsOf.mpr ⟨items, hitem, hmem⟩, rfl⟩, m, hm,
          (eqCi_map_toupper value' m).trans heq⟩
  rw [ruleAccepts_iff]
  simp only [parseRule, bind_string?_eq_some]
  exact ⟨fun ⟨hpath, hquery, h⟩ => ⟨hpath, hquery, hmethods.mp h⟩,
    fun h => ⟨h.path, h.query, hmethods.mpr h.methods⟩⟩

/-- The match of a parsed ruleset is the first object that accepts the request. -/
theorem find?_parseRules (conv : Conversions) (items : List Json)
    (path query method : Option CString) :
    ∃ first, FirstAccepting path query method items first
      ∧ ((parseRules conv items).find? fun r => ruleAccepts r path query method)
        = first.map (parseRule conv) := by
  induction items with
  | nil => exact ⟨none, .none (by simp), rfl⟩
  | cons robj items ih =>
      by_cases haccepts : robj.isObject = true ∧ ElementAccepts robj path query method
      · refine ⟨some robj, .some [] items haccepts.1 haccepts.2 (by simp), ?_⟩
        have hrule := (ruleAccepts_parseRule conv robj path query method).mpr haccepts.2
        rw [parseRules, List.filter_cons_of_pos haccepts.1, List.map_cons, List.find?_cons, hrule]
        rfl
      · -- The element is passed over, by the parser or by the search.
        have hno : robj.isObject = true → ¬ ElementAccepts robj path query method :=
          fun hobject h => haccepts ⟨hobject, h⟩
        have hskip : ((parseRules conv (robj :: items)).find? fun r => ruleAccepts r path query method)
            = (parseRules conv items).find? fun r => ruleAccepts r path query method := by
          unfold parseRules
          by_cases hobject : robj.isObject = true
          · have hrule : ruleAccepts (parseRule conv robj) path query method = false :=
              Bool.eq_false_iff.mpr fun h =>
                hno hobject ((ruleAccepts_parseRule conv robj path query method).mp h)
            rw [List.filter_cons_of_pos hobject, List.map_cons, List.find?_cons, hrule]
          · rw [List.filter_cons_of_neg hobject]
        obtain ⟨first, hfirst, hfind⟩ := ih
        refine ⟨first, ?_, hskip.trans hfind⟩
        cases hfirst with
        | none hrest =>
            exact .none fun robj' hmem => by
              rcases List.mem_cons.mp hmem with rfl | hmem
              · exact hno
              · exact hrest robj' hmem
        | some before after hobject hfound hrest =>
            refine .some (robj :: before) after hobject hfound fun robj' hmem => ?_
            rcases List.mem_cons.mp hmem with rfl | hmem
            · exact hno
            · exact hrest robj' hmem

/-- Parsing and then matching returns the rule of the first object that accepts the request. -/
theorem cacherRulesetMatch_parse (cJSONParse : CString → Except CString Json) (conv : Conversions)
    (json : CString) (root : Json) (items : List Json) (hparse : cJSONParse json = .ok root)
    (hrules : root.getObjectItem (lit "rules") = some (.array items))
    (path query method : Option CString) :
    ∃ rs first, cacherRulesetParse cJSONParse conv (some json) = .ok rs
      ∧ FirstAccepting path query method items first
      ∧ cacherRulesetMatch rs path query method = first.map (parseRule conv) := by
  obtain ⟨first, hfirst, hfind⟩ := find?_parseRules conv items path query method
  refine ⟨⟨parseRules conv items⟩, first, ?_, hfirst, ?_⟩
  · rw [cacherRulesetParse, hparse]
    show rulesetOfJson conv root = _
    rw [rulesetOfJson, hrules]
    rfl
  · rw [cacherRulesetMatch_eq_find?, hfind]

/-- A number, an exclusion of `/a*` and a rule for everything. -/
def Json.excludingA : List Json :=
  [.number (.finite 5),
   .object [(lit "match", .object [(lit "path", .string (lit "/a*"))]), (lit "enabled", .bool false)],
   .object [(lit "ttl", .number (.finite 60))]]

/-- `GET /b`, with a parser that gives this tree. -/
theorem cacherRulesetMatch_parse_excludingA :
    ∃ rs first, cacherRulesetParse (fun _ => .ok (.object [(lit "rules", .array Json.excludingA)]))
        .indefinite (some (lit "text")) = .ok rs
      ∧ FirstAccepting (some (lit "/b")) none (some (lit "GET")) Json.excludingA first
      ∧ cacherRulesetMatch rs (some (lit "/b")) none (some (lit "GET"))
        = first.map (parseRule .indefinite) :=
  cacherRulesetMatch_parse _ _ _ _ _ rfl rfl _ _ _

end Cacher
