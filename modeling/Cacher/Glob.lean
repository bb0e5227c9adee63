import Cacher.Rules
import Cacher.Lib.Glob

/-!
# `Cacher.Glob`: what `cacher_glob_match` accepts

`cacher_glob_match` compares the two characters at hand before it looks for a star, so a `*` of
the pattern that meets a `*` of the value takes it for the character it stands for, and takes
nothing else. `cacherGlobMatch_iff` is what the loop computes: the eager language of `Lib.Glob`.
`InLanguage` is the language that the comment in `cacher_rules.h` gives, and
`cacherGlobMatch_exact_iff` says for which inputs the two answers are the same.

The check of the content type copies the media type into a buffer first. `seesMediaType_iff` says
which media types it sees as they are.

The loop remembers its last star only. What carries the proof is `GlobState`: the pieces between
that star and the place it has come to have each taken one character.
-/

set_option autoImplicit false

namespace Cacher

open CText Glob

/-- Lower case, when the case is to be ignored. -/
def foldCase (ci : Bool) (b : UInt8) : UInt8 := if ci then tolower b else b

/-- What a character of the pattern stands for. -/
def piece (ci : Bool) (x : CChar) : Piece CChar :=
  if x = chr '*' then .star
  else if x = chr '?' then .one fun _ => true
  else .one fun c => foldCase ci x.val = foldCase ci c.val

/-- The value is in the language of the pattern: `*` is any run of characters, `?` is any
character, and every other one is itself, up to ASCII case with `ci`. -/
def InLanguage (ci : Bool) (pattern value : CString) : Prop :=
  Matches (pattern.map (piece ci)) value

/-- The value can be read as the pattern says, so that every `*` of the pattern in front of a `*`
of the value takes this one character and nothing else. -/
def StarsTakeStars (ci : Bool) (pattern value : CString) : Prop :=
  Eager (· = chr '*') (pattern.map (piece ci)) value

@[simp] theorem piece_star (ci : Bool) : piece ci (chr '*') = .star := rfl

theorem piece_of_ne_star {x : CChar} (hx : x ≠ chr '*') (ci : Bool) :
    piece ci x = .one fun c => x = chr '?' ∨ foldCase ci x.val = foldCase ci c.val := by
  rw [piece, if_neg hx]
  by_cases hany : x = chr '?'
  · simp [hany]
  · simp [hany]

theorem piece_eq_star_iff {ci : Bool} {x : CChar} : piece ci x = .star ↔ x = chr '*' := by
  by_cases hx : x = chr '*'
  · simp [hx]
  · simp [hx, piece_of_ne_star hx]

/-- Only a star is a star in lower case. -/
theorem foldCase_star_eq_iff {ci : Bool} {c : CChar} :
    foldCase ci (chr '*').val = foldCase ci c.val ↔ c = chr '*' := by
  have hstar : (chr '*').val = 42 := rfl
  rw [← Subtype.val_inj, foldCase, foldCase, hstar]
  cases ci with
  | false => exact eq_comm
  | true =>
      show tolower 42 = tolower c.val ↔ c.val = 42
      unfold tolower
      rw [if_neg (by decide)]
      split
      · rename_i hupper
        have h1 := UInt8.le_iff_toNat_le.mp hupper.1
        have h2 := UInt8.le_iff_toNat_le.mp hupper.2
        rw [← UInt8.toNat_inj, ← UInt8.toNat_inj, UInt8.toNat_add]
        simp at h1 h2 ⊢
        omega
      · exact eq_comm

/-- The first test of the loop: the two characters are equal, or the pattern has a `?`. -/
theorem takes_iff {ci : Bool} {x c : CChar} :
    Piece.Takes (· = chr '*') (piece ci x) c
      ↔ x = chr '?' ∨ foldCase ci x.val = foldCase ci c.val := by
  by_cases hx : x = chr '*'
  · subst hx
    rw [piece_star, foldCase_star_eq_iff, Piece.Takes, decide_eq_true_eq]
    exact ⟨Or.inr, fun h => h.resolve_left (by decide)⟩
  · rw [piece_of_ne_star hx, Piece.Takes, decide_eq_true_eq]

/-! ### The loop -/

/-- The pieces between the last star and `p` have each taken one character of the value, which
has `n` characters. -/
inductive GlobState (ci : Bool) (n : Nat) (p v : CString) : Option (CString × CString) → Prop
  | first (hn : v.length ≤ n) : GlobState ci n p v none
  | behind {s a : CString} (hn : (a ++ v).length ≤ n)
      (htakes : List.Forall₂ (Piece.Takes (· = chr '*')) (s.map (piece ci)) a) :
      GlobState ci n p v (some (chr '*' :: (s ++ p), a ++ v))

/-- The value matches from a later start behind the last star. -/
def LaterStart (ci : Bool) : Option (CString × CString) → Prop
  | none => False
  | some (sp, sv) => ∃ v', v' <:+ sv.drop 1 ∧ StarsTakeStars ci (sp.drop 1) v'

/-- How much there is to do: a new star has fewer characters behind it, a later start has less of
the value, and a step has less of it too. -/
def globMeasure (n : Nat) (p v : CString) : Option (CString × CString) → Nat
  | none => (p.length + 1) * ((n + 1) * (n + 1)) + v.length
  | some (sp, sv) => sp.length * ((n + 1) * (n + 1)) + sv.length * (n + 1) + v.length

variable {ci : Bool} {n : Nat} {p v : CString} {c x : CChar}
  {star : Option (CString × CString)}

theorem starsTakeStars_nil : StarsTakeStars ci p [] ↔ (p.dropWhile (· = chr '*')).isEmpty := by
  rw [StarsTakeStars, eager_nil, List.isEmpty_iff, List.dropWhile_eq_nil_iff]
  simp only [List.forall_mem_map, piece_eq_star_iff, decide_eq_true_eq]

/-- Two characters that the loop takes for equal are behind it. -/
theorem starsTakeStars_cons_of_takes (h : Piece.Takes (· = chr '*') (piece ci x) c) :
    StarsTakeStars ci (x :: p) (c :: v) ↔ StarsTakeStars ci p v :=
  eager_append_iff (.cons h .nil)

theorem starsTakeStars_star_of_ne (hc : c ≠ chr '*') :
    StarsTakeStars ci (chr '*' :: p) (c :: v) ↔ ∃ v', v' <:+ c :: v ∧ StarsTakeStars ci p v' :=
  eager_star_of_not_eats (decide_eq_false hc)

theorem not_starsTakeStars_cons (hx : x ≠ chr '*')
    (h : ¬ Piece.Takes (· = chr '*') (piece ci x) c) : ¬ StarsTakeStars ci (x :: p) (c :: v) := by
  rw [StarsTakeStars, List.map_cons]
  rw [piece_of_ne_star hx] at h ⊢
  exact fun hmatch => h hmatch.1

/-- What a later start could match is matched from where the loop is. -/
theorem GlobState.exists_suffix (h : GlobState ci n p v star) (hlater : LaterStart ci star) :
    ∃ v', v' <:+ v ∧ StarsTakeStars ci p v' := by
  cases h with
  | first _ => exact hlater.elim
  | @behind s a _ htakes =>
      obtain ⟨v', hsuffix, hmatch⟩ := hlater
      rw [StarsTakeStars, List.drop_one, List.tail_cons, List.map_append] at hmatch
      exact eager_of_suffix htakes (hsuffix.trans (List.drop_suffix 1 _)) hmatch

/-- Where the value has ended, or the next character of the pattern does not take the next one of
the value, only a later start can match. -/
theorem GlobState.matches_of_later (h : GlobState ci n p [] star) (hlater : LaterStart ci star) :
    StarsTakeStars ci p [] := by
  obtain ⟨v', hsuffix, hmatch⟩ := h.exists_suffix hlater
  obtain rfl := List.suffix_nil.mp hsuffix
  exact hmatch

/-- A step over one character. -/
theorem GlobState.step (h : GlobState ci n (x :: p) (c :: v) star)
    (htakes : Piece.Takes (· = chr '*') (piece ci x) c) :
    GlobState ci n p v star ∧ globMeasure n p v star < globMeasure n (x :: p) (c :: v) star := by
  cases h with
  | first hn =>
      refine ⟨.first ((Nat.le_succ _).trans hn), ?_⟩
      simp only [globMeasure, List.length_cons]
      exact Nat.add_lt_add_of_le_of_lt (Nat.mul_le_mul_right _ (by omega)) (by omega)
  | @behind s a hn hbefore =>
      constructor
      · have hstate : GlobState ci n p v (some (chr '*' :: ((s ++ [x]) ++ p), (a ++ [c]) ++ v)) := by
          refine .behind (by simpa using hn) ?_
          rw [List.map_append]
          exact List.rel_append hbefore (.cons htakes .nil)
        simpa using hstate
      · simp only [globMeasure, List.length_cons]
        omega

/-- A star less outweighs every start and every step. -/
theorem measure_lt {k k' a b : Nat} (hk : k < k') (ha : a ≤ n) (hb : b ≤ n) (r : Nat) :
    k * ((n + 1) * (n + 1)) + a * (n + 1) + b < k' * ((n + 1) * (n + 1)) + r :=
  calc k * ((n + 1) * (n + 1)) + a * (n + 1) + b
      ≤ k * ((n + 1) * (n + 1)) + n * (n + 1) + n :=
        Nat.add_le_add (Nat.add_le_add_left (Nat.mul_le_mul_right _ ha) _) hb
    _ < k * ((n + 1) * (n + 1)) + (n + 1) * (n + 1) := by
        rw [Nat.succ_mul n (n + 1)]
        omega
    _ = (k + 1) * ((n + 1) * (n + 1)) := (Nat.succ_mul _ _).symm
    _ ≤ k' * ((n + 1) * (n + 1)) := Nat.mul_le_mul_right _ hk
    _ ≤ k' * ((n + 1) * (n + 1)) + r := Nat.le_add_right _ _

/-- A new star. -/
theorem GlobState.newStar (h : GlobState ci n (x :: p) (c :: v) star) (hx : x = chr '*') :
    GlobState ci n p (c :: v) (some (x :: p, c :: v))
      ∧ globMeasure n p (c :: v) (some (x :: p, c :: v)) < globMeasure n (x :: p) (c :: v) star := by
  subst hx
  have hn : (c :: v).length ≤ n := by
    cases h with
    | first hn => exact hn
    | behind hn _ =>
        rw [List.length_append] at hn
        exact (Nat.le_add_left _ _).trans hn
  refine ⟨.behind (s := []) (a := []) hn .nil, ?_⟩
  cases h with
  | first _ => exact measure_lt (Nat.lt_succ_self _) hn hn _
  | behind _ _ =>
      simp only [globMeasure, Nat.add_assoc (_ * ((n + 1) * (n + 1)))]
      refine (Nat.add_assoc _ _ _ ▸ measure_lt ?_ hn hn _)
      simp only [List.length_cons, List.length_append]
      omega

/-- The next start behind the last star. -/
theorem GlobState.restart {sp sv : CString} (h : GlobState ci n p (c :: v) (some (sp, sv))) :
    GlobState ci n (sp.drop 1) (sv.drop 1) (some (sp, sv.drop 1))
      ∧ globMeasure n (sp.drop 1) (sv.drop 1) (some (sp, sv.drop 1))
        < globMeasure n p (c :: v) (some (sp, sv)) := by
  cases h with
  | @behind s a hn _ =>
      have hlen : (a ++ c :: v).length = ((a ++ c :: v).drop 1).length + 1 := by
        simp [Nat.add_assoc]
      refine ⟨.behind (s := []) (a := []) ?_ .nil, ?_⟩
      · show ((a ++ c :: v).drop 1).length ≤ n
        omega
      · simp only [globMeasure, hlen, Nat.add_one_mul _ (n + 1)]
        omega

/-- What the loop does without a match: it goes on behind the last star. -/
def globRestart (ci : Bool) (fuel : Nat) : Option (CString × CString) → Option Bool
  | some (sp, sv) => globLoop ci fuel (sp.drop 1) (sv.drop 1) (some (sp, sv.drop 1))
  | none => some false

/-- One turn of the loop. -/
theorem globLoop_cons (fuel : Nat) :
    globLoop ci (fuel + 1) (x :: p) (c :: v) star
      = if x = chr '?' ∨ foldCase ci x.val = foldCase ci c.val then globLoop ci fuel p v star
        else if x = chr '*' then globLoop ci fuel p (c :: v) (some (x :: p, c :: v))
        else globRestart ci fuel star := by
  cases star with
  | none => rfl
  | some star => rfl

/-- With enough fuel, the loop says whether the value matches, from where it is or from a later
start behind the last star. -/
theorem globLoop_spec (fuel : Nat) (h : GlobState ci n p v star)
    (hfuel : globMeasure n p v star < fuel) :
    ∃ result, globLoop ci fuel p v star = some result
      ∧ (result = true ↔ StarsTakeStars ci p v ∨ LaterStart ci star) := by
  induction fuel generalizing p v star with
  | zero => omega
  | succ fuel ih =>
      cases v with
      | nil =>
          refine ⟨_, rfl, ?_⟩
          rw [← starsTakeStars_nil]
          exact ⟨Or.inl, fun hor => hor.elim id h.matches_of_later⟩
      | cons c v =>
          -- Without a match here, the loop goes on behind the last star.
          have hretry : ¬ StarsTakeStars ci p (c :: v) →
              globLoop ci (fuel + 1) p (c :: v) star = globRestart ci fuel star →
              ∃ result, globLoop ci (fuel + 1) p (c :: v) star = some result
                ∧ (result = true ↔ StarsTakeStars ci p (c :: v) ∨ LaterStart ci star) := by
            intro hno hloop
            rw [hloop]
            cases star with
            | none => exact ⟨false, rfl, by simp [hno, LaterStart]⟩
            | some star =>
                obtain ⟨sp, sv⟩ := star
                obtain ⟨hnext, hless⟩ := h.restart
                obtain ⟨result, hresult, hiff⟩ := ih hnext (by omega)
                refine ⟨result, hresult, hiff.trans ?_⟩
                rw [or_iff_right hno]
                exact exists_suffix_iff
          cases p with
          | nil => exact hretry (fun hmatch => by cases hmatch) (by cases star <;> rfl)
          | cons x p =>
              by_cases htakes : Piece.Takes (· = chr '*') (piece ci x) c
              · obtain ⟨hnext, hless⟩ := h.step htakes
                obtain ⟨result, hresult, hiff⟩ := ih hnext (by omega)
                refine ⟨result, ?_, ?_⟩
                · rw [globLoop_cons, if_pos (takes_iff.mp htakes), hresult]
                · rw [hiff, starsTakeStars_cons_of_takes htakes]
              have hno : ¬ (x = chr '?' ∨ foldCase ci x.val = foldCase ci c.val) :=
                fun h => htakes (takes_iff.mpr h)
              by_cases hx : x = chr '*'
              · -- The star is remembered, and the one before it is forgotten.
                obtain ⟨hnext, hless⟩ := h.newStar hx
                obtain ⟨result, hresult, hiff⟩ := ih hnext (by omega)
                refine ⟨result, ?_, ?_⟩
                · rw [globLoop_cons, if_neg hno, if_pos hx, hresult]
                · subst hx
                  have hc : c ≠ chr '*' := fun hc => htakes (decide_eq_true hc)
                  have hstar : StarsTakeStars ci (chr '*' :: p) (c :: v) ↔
                      ∃ v', v' <:+ c :: v ∧ StarsTakeStars ci p v' :=
                    starsTakeStars_star_of_ne hc
                  have hlater : LaterStart ci star → StarsTakeStars ci (chr '*' :: p) (c :: v) := by
                    intro hlater
                    obtain ⟨v', hsuffix, hmatch⟩ := h.exists_suffix hlater
                    obtain ⟨v'', hsuffix', hmatch⟩ := exists_suffix_of_eager_star hmatch
                    exact hstar.mpr ⟨v'', hsuffix'.trans hsuffix, hmatch⟩
                  rw [hiff, or_iff_left_of_imp hlater, hstar]
                  exact exists_suffix_iff
              · refine hretry (not_starsTakeStars_cons hx htakes) ?_
                rw [globLoop_cons, if_neg hno, if_neg hx]

/-- The fuel is enough. -/
theorem exists_globLoop (pattern value : CString) (ci : Bool) :
    ∃ result, globLoop ci (globFuel pattern value) pattern value none = some result
      ∧ (result = true ↔ StarsTakeStars ci pattern value) := by
  have hstate : GlobState ci value.length pattern value none := .first (Nat.le_refl _)
  have hfuel : globMeasure value.length pattern value none < globFuel pattern value := by
    have hless := measure_lt (show pattern.length + 1 < pattern.length + 2 from Nat.lt_succ_self _)
      (Nat.zero_le _) (Nat.le_refl value.length) 1
    simp only [globMeasure, globFuel, Nat.mul_assoc] at hless ⊢
    omega
  obtain ⟨result, hresult, hiff⟩ := globLoop_spec (globFuel pattern value) hstate hfuel
  exact ⟨result, hresult, hiff.trans (or_iff_left (fun h => h))⟩

theorem globLoop_eq_some (pattern value : CString) (ci : Bool) :
    globLoop ci (globFuel pattern value) pattern value none
      = some (cacherGlobMatch pattern value ci) := by
  obtain ⟨result, hresult, -⟩ := exists_globLoop pattern value ci
  rw [cacherGlobMatch, hresult, Option.getD_some]

/-- `cacher_glob_match` accepts the values whose stars are taken by stars. -/
theorem cacherGlobMatch_iff (pattern value : CString) (ci : Bool) :
    cacherGlobMatch pattern value ci = true ↔ StarsTakeStars ci pattern value := by
  obtain ⟨result, hresult, hiff⟩ := exists_globLoop pattern value ci
  rw [cacherGlobMatch, hresult, Option.getD_some, hiff]

/-! ### The language of a pattern -/

/-- The answer is the one that the language gives, exactly when a value in the language can be
read with its stars taken by stars. -/
theorem cacherGlobMatch_exact_iff (pattern value : CString) (ci : Bool) :
    (cacherGlobMatch pattern value ci = true ↔ InLanguage ci pattern value)
      ↔ (InLanguage ci pattern value → StarsTakeStars ci pattern value) := by
  rw [cacherGlobMatch_iff]
  exact ⟨fun h => h.mpr, fun h => ⟨Eager.matches, h⟩⟩

/-- `*` does not match `*a`. -/
theorem not_exact_starInValue :
    ¬ (cacherGlobMatch (lit "*") (lit "*a") false = true
      ↔ InLanguage false (lit "*") (lit "*a")) := by
  intro h
  have hmatch : InLanguage false (lit "*") (lit "*a") := ⟨[], List.nil_suffix, rfl⟩
  exact absurd (h.mpr hmatch) (by decide)

/-- Without a star in the value, the answer is the one that the language gives. -/
theorem cacherGlobMatch_iff_inLanguage {pattern value : CString} (ci : Bool)
    (hvalue : chr '*' ∉ value) :
    cacherGlobMatch pattern value ci = true ↔ InLanguage ci pattern value := by
  rw [cacherGlobMatch_iff]
  exact eager_iff_matches fun c hc => decide_eq_false fun hstar => hvalue (hstar ▸ hc)

/-- A text is a pattern for itself, and for no longer text that starts with it. -/
theorem cacherGlobMatch_append_iff (text rest : CString) (ci : Bool) :
    cacherGlobMatch text (text ++ rest) ci = true ↔ rest = [] := by
  have htakes : List.Forall₂ (Piece.Takes (· = chr '*')) (text.map (piece ci)) text :=
    List.forall₂_map_left_iff.mpr (List.forall₂_same.mpr fun _ _ => takes_iff.mpr (Or.inr rfl))
  rw [cacherGlobMatch_iff]
  have happend := eager_append_iff (p := []) (w := rest) htakes
  rwa [List.append_nil] at happend

theorem cacherGlobMatch_self (text : CString) (ci : Bool) : cacherGlobMatch text text ci = true := by
  have hself := (cacherGlobMatch_append_iff text [] ci).mpr rfl
  rwa [List.append_nil] at hself

/-- A character of the pattern that is no wildcard is a character of the value. -/
theorem mem_of_cacherGlobMatch {pattern value : CString} {c : CChar} (hstar : c ≠ chr '*')
    (hany : c ≠ chr '?') (hc : c ∈ pattern) (h : cacherGlobMatch pattern value false = true) :
    c ∈ value := by
  have hpiece : piece false c = .one fun d => c.val = d.val := by
    rw [piece, if_neg hstar, if_neg hany]
    rfl
  have hmem : .one (fun d : CChar => decide (c.val = d.val)) ∈ pattern.map (piece false) := by
    rw [← hpiece]
    exact List.mem_map_of_mem hc
  obtain ⟨d, hd, heq⟩ := exists_mem_of_eager hmem ((cacherGlobMatch_iff _ _ _).mp h)
  rwa [Subtype.ext (of_decide_eq_true heq)]

/-! ### Content types -/

/-- The media type: what comes before the first `;` or blank. -/
def mediaType (contentType : CString) : CString :=
  contentType.takeWhile fun c => c != chr ';' && c != chr ' '

/-- The check of the content type sees the media type and nothing else. -/
structure SeesMediaType (rule : CacherRule) (contentType : CString) : Prop where
  exact : ∀ globs, rule.contentTypes = some globs →
    (cacherRuleAllowsContentType rule (some contentType) = true
      ↔ ∃ glob ∈ globs, cacherGlobMatch glob (mediaType contentType) true = true)
  params : ∀ params, cacherRuleAllowsContentType rule (some (contentType ++ chr ';' :: params))
    = cacherRuleAllowsContentType rule (some contentType)

/-- The buffer holds 127 characters of the media type. -/
theorem contentTypeBase_eq (contentType : CString) :
    contentTypeBase contentType = (mediaType contentType).take 127 := by
  unfold contentTypeBase mediaType
  generalize 127 = n
  induction contentType generalizing n with
  | nil => simp
  | cons c contentType ih =>
      cases n with
      | zero => simp
      | succ n =>
          rw [List.take_succ_cons, List.takeWhile_cons, List.takeWhile_cons]
          split
          · rw [List.take_succ_cons, ih]
          · rfl

theorem mediaType_append (contentType params : CString) :
    mediaType (contentType ++ chr ';' :: params) = mediaType contentType := by
  unfold mediaType
  induction contentType with
  | nil => rfl
  | cons c contentType ih =>
      rw [List.cons_append, List.takeWhile_cons, List.takeWhile_cons, ih]

theorem cacherRuleAllowsContentType_iff {rule : CacherRule} {globs : List CString}
    (hglobs : rule.contentTypes = some globs) (contentType : CString) :
    cacherRuleAllowsContentType rule (some contentType) = true
      ↔ ∃ glob ∈ globs, cacherGlobMatch glob ((mediaType contentType).take 127) true = true := by
  unfold cacherRuleAllowsContentType
  rw [hglobs, ← contentTypeBase_eq]
  exact List.any_eq_true

/-- Every rule sees exactly the media types of at most 127 bytes as they are. -/
theorem seesMediaType_iff (contentType : CString) :
    (∀ rule, SeesMediaType rule contentType) ↔ (mediaType contentType).length ≤ 127 := by
  constructor
  · intro h
    -- A list of one pattern: what the buffer holds.
    have hexact := (h { CacherRule.ofTtl 60 with
      contentTypes := some [(mediaType contentType).take 127] }).exact _ rfl
    rw [cacherRuleAllowsContentType_iff rfl] at hexact
    simp only [List.mem_singleton, exists_eq_left] at hexact
    have hself := cacherGlobMatch_self ((mediaType contentType).take 127) true
    rw [hexact] at hself
    have hrest := cacherGlobMatch_append_iff ((mediaType contentType).take 127)
      ((mediaType contentType).drop 127) true
    rw [List.take_append_drop] at hrest
    exact List.drop_eq_nil_iff.mp (hrest.mp hself)
  · intro hshort rule
    constructor
    · intro globs hglobs
      rw [cacherRuleAllowsContentType_iff hglobs, List.take_of_length_le hshort]
    · intro params
      cases hglobs : rule.contentTypes with
      | none => simp only [cacherRuleAllowsContentType, hglobs]
      | some globs =>
          rw [Bool.eq_iff_iff, cacherRuleAllowsContentType_iff hglobs,
            cacherRuleAllowsContentType_iff hglobs, mediaType_append]

/-- A pattern of 127 letters is taken for a media type of 128. -/
theorem not_seesMediaType_long :
    ¬ SeesMediaType { CacherRule.ofTtl 60 with
      contentTypes := some [List.replicate 127 (chr 'a')] } (List.replicate 128 (chr 'a')) := by
  intro h
  have hexact := h.exact _ rfl
  simp only [List.mem_singleton, exists_eq_left] at hexact
  exact absurd (hexact.mp (by decide +kernel)) (by decide +kernel)

end Cacher
