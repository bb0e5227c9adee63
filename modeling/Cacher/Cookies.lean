import Cacher.Request

/-!
# `Cacher.Cookies`: the cookies of a `Cookie` header

A browser writes its cookies as `name=value`, with `;` and blanks between them. `Serialises` is
that format, over the cookies that it can hold, and `readsCookies_of_serialises` says that
`for_each_cookie` reads it back: every cookie, in order, whatever the values are.
-/

set_option autoImplicit false

namespace Cacher

open CText

/-- A cookie that a `Cookie` header can hold. -/
structure Cookie where
  name : CString
  value : CString
  eq_notMem_name : chr '=' ∉ name
  semicolon_notMem_name : chr ';' ∉ name
  name_not_blank : name.head? ≠ some (chr ' ')
  semicolon_notMem_value : chr ';' ∉ value

/-- `name=value`. -/
def Cookie.pair (c : Cookie) : CString := c.name ++ chr '=' :: c.value

/-- The text is a `Cookie` header with these cookies, in this order. -/
inductive Serialises : List Cookie → CString → Prop
  | nil : Serialises [] []
  | single (c : Cookie) : Serialises [c] c.pair
  /-- Any number of blanks may follow the `;`. -/
  | cons (c : Cookie) (blanks : Nat) {cookies : List Cookie} {text : CString} (hne : cookies ≠ [])
      (h : Serialises cookies text) :
      Serialises (c :: cookies) (c.pair ++ chr ';' :: (List.replicate blanks (chr ' ') ++ text))

/-- What the module gets from the `Cookie` header of `r` is the list of cookies. -/
structure ReadsCookies (r : RequestRec) (cookies : List Cookie) : Prop where
  calls : forEachCookie r = cookies.map fun c => (c.name, c.value)
  bypasses : ∀ rule, cacherRequestBypasses r rule = true
    ↔ ∃ c ∈ cookies, cacherRuleBypassesCookie rule c.name = true
  lookup : ∀ name, cacherGetCookie r name = (cookies.find? (·.name = name)).map (·.value)

/-- The blanks in front of a pair are skipped, and it is cut at its first `=`. -/
theorem cookiePair_blanks (c : Cookie) (n : Nat) :
    cookiePair (List.replicate n (chr ' ') ++ c.pair) = some (c.name, c.value) := by
  have hskip : (List.replicate n (chr ' ') ++ c.pair).dropWhile (· == chr ' ') = c.pair := by
    rw [List.dropWhile_append_of_pos (by simp)]
    cases hname : c.name with
    | nil =>
        rw [Cookie.pair, hname]
        rfl
    | cons x name =>
        have hx : (x == chr ' ') = false :=
          beq_eq_false_iff_ne.mpr fun h => c.name_not_blank (by rw [hname, h]; rfl)
        rw [Cookie.pair, hname, List.cons_append, List.dropWhile_cons, hx]
        rfl
  rw [cookiePair, hskip]
  exact cutAt_singleton_append c.eq_notMem_name c.value

/-- A pair is one token, with the blanks in front of it. -/
theorem tokens_pair (c : Cookie) (n : Nat) :
    tokens (· == chr ';') (List.replicate n (chr ' ') ++ c.pair)
      = [List.replicate n (chr ' ') ++ c.pair] := by
  refine tokens_of_forall _ (fun x hx => ?_) (by simp [Cookie.pair])
  have hnot : x ≠ chr ';' := by
    rcases List.mem_append.mp hx with hblank | hpair
    · rw [List.eq_of_mem_replicate hblank]
      decide
    · rcases List.mem_append.mp hpair with hname | hvalue
      · exact fun h => c.semicolon_notMem_name (h ▸ hname)
      · rcases List.mem_cons.mp hvalue with rfl | hvalue
        · decide
        · exact fun h => c.semicolon_notMem_value (h ▸ hvalue)
  exact beq_eq_false_iff_ne.mpr hnot

/-- Each pair of the text is handed to the callback. -/
theorem filterMap_cookiePair {cookies : List Cookie} {text : CString} (h : Serialises cookies text)
    (hne : cookies ≠ []) (n : Nat) :
    (tokens (· == chr ';') (List.replicate n (chr ' ') ++ text)).filterMap cookiePair
      = cookies.map fun c => (c.name, c.value) := by
  induction h generalizing n with
  | nil => exact absurd rfl hne
  | single c =>
      rw [tokens_pair, List.filterMap_cons, cookiePair_blanks]
      rfl
  | cons c blanks hrest h ih =>
      rw [← List.append_assoc, tokens_append_cons _ _ _ (by decide), tokens_pair,
        List.filterMap_append, ih hrest, List.filterMap_cons, cookiePair_blanks]
      rfl

/-- What is looked up is the value of the first cookie of that name. -/
theorem foldl_lookupCb (name : CString) (cookies : List (CString × CString)) :
    cookies.foldl (lookupCb name) none = (cookies.find? (·.1 = name)).map (·.2) := by
  have hfound : ∀ (cookies : List (CString × CString)) (value : CString),
      cookies.foldl (lookupCb name) (some value) = some value := by
    intro cookies value
    induction cookies with
    | nil => rfl
    | cons cookie cookies ih =>
        rw [List.foldl_cons, lookupCb, if_neg (by simp), ih]
  induction cookies with
  | nil => rfl
  | cons cookie cookies ih =>
      rw [List.foldl_cons, List.find?_cons, lookupCb]
      by_cases hname : cookie.1 = name
      · simp [hname, hfound]
      · simp [hname, ih]

/-- A header that holds the cookies is read back as these cookies. -/
theorem readsCookies_of_serialises (r : RequestRec) (cookies : List Cookie) (text : CString)
    (hheader : r.headersIn.get (lit "Cookie") = some text) (htext : Serialises cookies text) :
    ReadsCookies r cookies := by
  have hcalls : forEachCookie r = cookies.map fun c => (c.name, c.value) := by
    rw [forEachCookie, hheader]
    by_cases hne : cookies = []
    · subst hne
      cases htext
      rfl
    · exact filterMap_cookiePair htext hne 0
  refine ⟨hcalls, fun rule => ?_, fun name => ?_⟩
  · rw [cacherRequestBypasses_eq_true, hcalls]
    simp only [List.mem_map, exists_exists_and_eq_and]
  · rw [cacherGetCookie, foldl_lookupCb, hcalls, List.find?_map, Option.map_map]
    rfl

/-- `a=;b=1=2`: an empty value, and one with a `=`. -/
theorem readsCookies_twoCookies :
    ReadsCookies
      { RequestRec.get (lit "/") none with headersIn := [(lit "Cookie", lit "a=;  b=1=2")] }
      [⟨lit "a", [], by decide, by decide, by decide, by decide⟩,
       ⟨lit "b", lit "1=2", by decide, by decide, by decide, by decide⟩] :=
  readsCookies_of_serialises _ _ _ rfl (.cons _ 2 (by simp) (.single _))

end Cacher
