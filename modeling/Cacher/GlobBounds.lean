import Cacher.Glob
import Cacher.Lib.Loop

/-!
# `Cacher.GlobBounds`: `cacher_glob_match` on pointers

`globLoop` works on what is left of the pattern and of the value. The source has pointers into
two arrays, and two of its four pointers are NULL at first. `globTurn` is one turn of one of its
two loops: `while (*v)`, and the loop behind it that skips the stars at the end of the pattern.
A turn that reads outside of an array, or that moves a NULL pointer, is `none`. No caller passes
NULL for the pattern or the value, so the test for it in front of the loops is left out.

On a mismatch both `p` and `v` go back. What bounds them is that the last star is in front of
`p`, and that the start behind it is not behind `v` (`GlobPointers.Ordered`). `MatchingTurn` says
what a turn of the first loop does to ordered pointers, and that it is a turn of `globLoop`. So
the turns that are enough for `globLoop` are enough here, up to the stars at the end of the
pattern (`run_globTurn`).
-/

set_option autoImplicit false

namespace Cacher

open CText Loop

/-- The pointers of `cacher_glob_match`, as offsets into the pattern and into the value. -/
structure GlobPointers where
  p : Nat
  v : Nat
  /-- `none` is NULL. -/
  starP : Option Nat
  /-- `none` is NULL. -/
  starV : Option Nat

/-- The test at which `cacher_glob_match` is. -/
inductive GlobPoint where
  /-- `while (*v)` -/
  | matching (s : GlobPointers)
  /-- `while (*p == '*')` -/
  | trailing (s : GlobPointers)

def GlobPoint.pointers : GlobPoint → GlobPointers
  | matching s => s
  | trailing s => s

/-- `cacher_glob_match` in front of its loops. -/
def GlobPoint.start : GlobPoint := .matching ⟨0, 0, none, none⟩

/-- One turn of `cacher_glob_match`. -/
def globTurn (pattern value : CArray) (ci : Bool) : Body GlobPoint Bool
  | .matching s =>
    (value.read s.v).bind fun vc =>
      if vc = 0 then some (.next (.trailing s))
      else
        (pattern.read s.p).bind fun pc =>
          if pc = (chr '?').val ∨ (pc ≠ 0 ∧ foldCase ci pc = foldCase ci vc) then
            some (.next (.matching { s with p := s.p + 1, v := s.v + 1 }))
          else if pc = (chr '*').val then
            some (.next (.matching { s with p := s.p + 1, starP := some s.p, starV := some s.v }))
          else
            match s.starP with
            | some starP =>
              -- `++star_v` has no meaning for NULL.
              s.starV.bind fun starV =>
                some (.next (.matching
                  { p := starP + 1, v := starV + 1, starP := some starP, starV := some (starV + 1) }))
            | none => some (.leave false)
  | .trailing s =>
    (pattern.read s.p).bind fun pc =>
      if pc = (chr '*').val then some (.next (.trailing { s with p := s.p + 1 }))
      else some (.leave (pc = 0))

/-! ### Where the pointers are -/

/-- No pointer is behind the NUL of its string, for strings of `m` and of `n` characters. -/
structure GlobPointers.InBounds (m n : Nat) (s : GlobPointers) : Prop where
  p_le : s.p ≤ m
  v_le : s.v ≤ n
  starP_le : ∀ starP ∈ s.starP, starP ≤ m
  starV_le : ∀ starV ∈ s.starV, starV ≤ n

/-- The last star is in front of `p`, and the start that was tried behind it is not behind `v`. -/
inductive GlobPointers.StarsBehind (s : GlobPointers) : Prop
  | none (hp : s.starP = none) (hv : s.starV = none)
  | some {starP starV : Nat} (hp : s.starP = some starP) (hv : s.starV = some starV)
      (hstarP : starP < s.p) (hstarV : starV ≤ s.v)

/-- What every turn keeps. -/
structure GlobPointers.Ordered (m n : Nat) (s : GlobPointers) : Prop where
  p_le : s.p ≤ m
  v_le : s.v ≤ n
  stars : s.StarsBehind

variable {pattern value : CArray} {ci : Bool} {s t : GlobPointers} {m n : Nat}

theorem GlobPointers.Ordered.inBounds (h : s.Ordered m n) : s.InBounds m n := by
  obtain ⟨hple, hvle, hstars⟩ := h
  cases hstars with
  | none hp hv => exact ⟨hple, hvle, by simp [hp], by simp [hv]⟩
  | @some starP starV hp hv hstarP hstarV =>
      have hstarPle : starP ≤ m := by omega
      have hstarVle : starV ≤ n := by omega
      exact ⟨hple, hvle, by simpa [hp] using hstarPle, by simpa [hv] using hstarVle⟩

/-- The last star stays behind pointers that move on. -/
theorem GlobPointers.StarsBehind.mono (h : s.StarsBehind) {p v : Nat} (hp : s.p ≤ p)
    (hv : s.v ≤ v) : GlobPointers.StarsBehind { s with p := p, v := v } := by
  cases h with
  | none hnoP hnoV => exact .none hnoP hnoV
  | some hsomeP hsomeV hstarP hstarV =>
      exact .some hsomeP hsomeV (Nat.lt_of_lt_of_le hstarP hp) (Nat.le_trans hstarV hv)

/-- The pointers move on over one character of each string. -/
theorem GlobPointers.Ordered.step (h : s.Ordered m n) (hp : s.p < m) (hv : s.v < n) :
    GlobPointers.Ordered m n { s with p := s.p + 1, v := s.v + 1 } :=
  ⟨hp, hv, h.stars.mono (Nat.le_succ _) (Nat.le_succ _)⟩

/-- A star at the end of the pattern is skipped. -/
theorem GlobPointers.Ordered.skip (h : s.Ordered m n) (hp : s.p < m) :
    GlobPointers.Ordered m n { s with p := s.p + 1 } :=
  ⟨hp, h.v_le, h.stars.mono (Nat.le_succ _) (Nat.le_refl _)⟩

/-- The star at `p` becomes the last one. -/
theorem GlobPointers.Ordered.newStar (h : s.Ordered m n) (hp : s.p < m) :
    GlobPointers.Ordered m n { s with p := s.p + 1, starP := some s.p, starV := some s.v } :=
  ⟨hp, h.v_le, .some rfl rfl (Nat.lt_succ_self _) (Nat.le_refl _)⟩

/-- Both pointers go back. There is a character at `v`, so there is one at the start behind the
last star, which is not behind `v`. -/
theorem GlobPointers.Ordered.restart (h : s.Ordered m n) {starP starV : Nat}
    (hp : s.starP = some starP) (hv : s.starV = some starV) (hvlt : s.v < n) :
    GlobPointers.Ordered m n
      { p := starP + 1, v := starV + 1, starP := some starP, starV := some (starV + 1) } := by
  obtain ⟨hple, -, hstars⟩ := h
  cases hstars with
  | none hnoP _ => simp [hp] at hnoP
  | some hsomeP hsomeV hstarP hstarV =>
      obtain rfl := Option.some.inj (hp.symm.trans hsomeP)
      obtain rfl := Option.some.inj (hv.symm.trans hsomeV)
      refine ⟨?_, ?_, .some rfl rfl (Nat.lt_succ_self _) (Nat.le_refl _)⟩
      · show starP + 1 ≤ m
        omega
      · show starV + 1 ≤ n
        omega

/-! ### What a turn does -/

/-- The texts at `star_p` and at `star_v`. -/
def GlobPointers.starTexts (pattern value : CString) (s : GlobPointers) :
    Option (CString × CString) :=
  s.starP.bind fun starP => s.starV.map fun starV => (pattern.drop starP, value.drop starV)

/-- `globLoop` on the texts that the pointers point to. -/
def globLoopAt (pattern value : CArray) (ci : Bool) (fuel : Nat) (s : GlobPointers) :
    Option Bool :=
  globLoop ci fuel (pattern.text.drop s.p) (value.text.drop s.v)
    (s.starTexts pattern.text value.text)

/-- A turn of `while (*v)`. -/
inductive MatchingTurn (pattern value : CArray) (ci : Bool) (s : GlobPointers) : Prop
  /-- The value has ended. -/
  | ended (hv : value.text.drop s.v = [])
      (hturn : globTurn pattern value ci (.matching s) = some (.next (.trailing s)))
  /-- A turn of `globLoop`. -/
  | goesOn {t : GlobPointers} (ht : t.Ordered pattern.strlen value.strlen)
      (hturn : globTurn pattern value ci (.matching s) = some (.next (.matching t)))
      (hloop : ∀ fuel, globLoopAt pattern value ci (fuel + 1) s = globLoopAt pattern value ci fuel t)
  /-- There is a mismatch, and no star to go back to. -/
  | fails (hturn : globTurn pattern value ci (.matching s) = some (.leave false))
      (hloop : ∀ fuel, globLoopAt pattern value ci (fuel + 1) s = some false)

/-- What is left of a list behind its next element. -/
theorem drop_succ_of_drop {α : Type} {l rest : List α} {i : Nat} {x : α}
    (h : l.drop i = x :: rest) : l.drop (i + 1) = rest := by
  rw [← List.tail_drop, h, List.tail_cons]

/-- A turn that finds a mismatch goes back to the last star, if there is one. -/
theorem matchingTurn_restart (h : s.Ordered pattern.strlen value.strlen)
    (hv : s.v < value.strlen)
    (hturn : globTurn pattern value ci (.matching s)
      = match s.starP with
        | some starP =>
          s.starV.bind fun starV =>
            some (.next (.matching
              { p := starP + 1, v := starV + 1, starP := some starP, starV := some (starV + 1) }))
        | none => some (.leave false))
    (hloop : ∀ fuel, globLoopAt pattern value ci (fuel + 1) s
      = globRestart ci fuel (s.starTexts pattern.text value.text)) :
    MatchingTurn pattern value ci s := by
  cases h.stars with
  | none hnoP hnoV =>
      refine .fails (by rw [hturn, hnoP]) fun fuel => ?_
      rw [hloop, GlobPointers.starTexts, hnoP]
      rfl
  | some hsomeP hsomeV _ _ =>
      refine .goesOn (h.restart hsomeP hsomeV hv) (by rw [hturn, hsomeP, hsomeV]; rfl)
        fun fuel => ?_
      rw [hloop, GlobPointers.starTexts, hsomeP, hsomeV, Option.bind_some, Option.map_some,
        globRestart, List.drop_drop, List.drop_drop]
      rfl

/-- Every turn of the first loop is one of these. -/
theorem matchingTurn (h : s.Ordered pattern.strlen value.strlen) (ci : Bool) :
    MatchingTurn pattern value ci s := by
  cases hv : value.text.drop s.v with
  | nil =>
      refine .ended hv ?_
      rw [globTurn, CArray.read_of_drop_nil h.v_le hv]
      rfl
  | cons c v =>
      have hvlt := CArray.lt_strlen_of_drop hv
      have hvnext := drop_succ_of_drop hv
      have hc : c.val ≠ 0 := c.property
      cases hp : pattern.text.drop s.p with
      | nil =>
          -- The NUL of the pattern takes no character of the value.
          have hnul : ¬ ((0 : UInt8) = (chr '?').val
              ∨ (0 : UInt8) ≠ 0 ∧ foldCase ci 0 = foldCase ci c.val) := by
            rintro (hany | ⟨hne, -⟩)
            · exact absurd hany (by decide)
            · exact hne rfl
          refine matchingTurn_restart h hvlt ?_ fun fuel => ?_
          · rw [globTurn, CArray.read_of_drop_cons hv, Option.bind_some, if_neg hc,
              CArray.read_of_drop_nil h.p_le hp, Option.bind_some, if_neg hnul,
              if_neg (by decide)]
          · rw [globLoopAt, hp, hv]
            cases s.starTexts pattern.text value.text <;> rfl
      | cons x p =>
          have hplt := CArray.lt_strlen_of_drop hp
          have hpnext := drop_succ_of_drop hp
          have hx : x.val ≠ 0 := x.property
          have hval : ∀ b : CChar, x.val = b.val ↔ x = b := fun b => Subtype.val_inj
          have hturn := globTurn.eq_1 pattern value ci s
          rw [CArray.read_of_drop_cons hv, Option.bind_some, if_neg hc, CArray.read_of_drop_cons hp,
            Option.bind_some] at hturn
          simp only [hval, ne_eq, hx, not_false_eq_true, true_and] at hturn
          have hloop : ∀ fuel, globLoopAt pattern value ci (fuel + 1) s
              = if x = chr '?' ∨ foldCase ci x.val = foldCase ci c.val then
                  globLoop ci fuel p v (s.starTexts pattern.text value.text)
                else if x = chr '*' then globLoop ci fuel p (c :: v) (some (x :: p, c :: v))
                else globRestart ci fuel (s.starTexts pattern.text value.text) := by
            intro fuel
            rw [globLoopAt, hp, hv, globLoop_cons]
          by_cases htakes : x = chr '?' ∨ foldCase ci x.val = foldCase ci c.val
          · rw [if_pos htakes] at hturn
            refine .goesOn (h.step hplt hvlt) hturn fun fuel => ?_
            rw [hloop, if_pos htakes, globLoopAt, hpnext, hvnext]
            rfl
          rw [if_neg htakes] at hturn
          by_cases hstar : x = chr '*'
          · rw [if_pos hstar] at hturn
            refine .goesOn (h.newStar hplt) hturn fun fuel => ?_
            rw [hloop, if_neg htakes, if_pos hstar, globLoopAt, hpnext, hv, GlobPointers.starTexts,
              Option.bind_some, Option.map_some, hp, hv]
          · rw [if_neg hstar] at hturn
            refine matchingTurn_restart h hvlt hturn fun fuel => ?_
            rw [hloop, if_neg htakes, if_neg hstar]

/-- A turn of `while (*p == '*')`. -/
inductive TrailingTurn (pattern value : CArray) (ci : Bool) (s : GlobPointers) : Prop
  | skips (hp : s.p < pattern.strlen)
      (hturn : globTurn pattern value ci (.trailing s)
        = some (.next (.trailing { s with p := s.p + 1 })))
      (hrest : (pattern.text.drop s.p).dropWhile (· = chr '*')
        = (pattern.text.drop (s.p + 1)).dropWhile (· = chr '*'))
  | ends (hturn : globTurn pattern value ci (.trailing s)
      = some (.leave ((pattern.text.drop s.p).dropWhile (· = chr '*')).isEmpty))

/-- Every turn of the second loop is one of these. -/
theorem trailingTurn (value : CArray) (hp : s.p ≤ pattern.strlen) (ci : Bool) :
    TrailingTurn pattern value ci s := by
  cases hdrop : pattern.text.drop s.p with
  | nil =>
      refine .ends ?_
      rw [globTurn, CArray.read_of_drop_nil hp hdrop, hdrop]
      rfl
  | cons x p =>
      have hplt := CArray.lt_strlen_of_drop hdrop
      have hpnext := drop_succ_of_drop hdrop
      have hturn := globTurn.eq_2 pattern value ci s
      rw [CArray.read_of_drop_cons hdrop, Option.bind_some] at hturn
      simp only [Subtype.val_inj] at hturn
      by_cases hstar : x = chr '*'
      · rw [if_pos hstar] at hturn
        refine .skips hplt hturn ?_
        rw [hdrop, hpnext, List.dropWhile_cons, if_pos (decide_eq_true hstar)]
      · rw [if_neg hstar, decide_eq_false x.property] at hturn
        refine .ends ?_
        rw [hturn, hdrop, List.dropWhile_cons_of_neg (by simpa using hstar)]
        rfl

/-! ### Whole runs -/

/-- The invariant of both loops. -/
theorem ordered_next {point next : GlobPoint}
    (h : point.pointers.Ordered pattern.strlen value.strlen)
    (hnext : globTurn pattern value ci point = some (.next next)) :
    next.pointers.Ordered pattern.strlen value.strlen := by
  cases point with
  | matching s =>
      cases matchingTurn h ci with
      | ended _ hturn =>
          obtain rfl := next_unique hturn hnext
          exact h
      | goesOn ht hturn _ =>
          obtain rfl := next_unique hturn hnext
          exact ht
      | fails hturn _ => cases hturn.symm.trans hnext
  | trailing s =>
      cases trailingTurn value h.p_le ci with
      | skips hp hturn _ =>
          obtain rfl := next_unique hturn hnext
          exact h.skip hp
      | ends hturn => cases hturn.symm.trans hnext

/-- A turn on ordered pointers reads inside of the arrays, and moves no NULL pointer. -/
theorem globTurn_isSome {point : GlobPoint}
    (h : point.pointers.Ordered pattern.strlen value.strlen) :
    (globTurn pattern value ci point).isSome = true := by
  cases point with
  | matching s =>
      have hs : s.Ordered pattern.strlen value.strlen := h
      cases matchingTurn hs ci with
      | ended _ hturn => simp [hturn]
      | goesOn _ hturn _ => simp [hturn]
      | fails hturn _ => simp [hturn]
  | trailing s =>
      have hp : s.p ≤ pattern.strlen := h.p_le
      cases trailingTurn value hp ci with
      | skips _ hturn _ => simp [hturn]
      | ends hturn => simp [hturn]

theorem run_trailing (turns : Nat) (hp : s.p ≤ pattern.strlen)
    (hturns : pattern.strlen ≤ s.p + turns) :
    run (globTurn pattern value ci) (turns + 1) (.trailing s)
      = some ((pattern.text.drop s.p).dropWhile (· = chr '*')).isEmpty := by
  induction turns generalizing s with
  | zero =>
      cases trailingTurn value hp ci with
      | skips hplt _ _ => omega
      | ends hturn => exact run_of_leave hturn 0
  | succ turns ih =>
      cases trailingTurn value hp ci with
      | skips hplt hturn hrest =>
          have hrun := ih (s := { s with p := s.p + 1 }) hplt (by show _ ≤ s.p + 1 + turns; omega)
          rw [run_of_next hturn, hrun, hrest]
      | ends hturn => exact run_of_leave hturn _

/-- What `globLoop` finds with some fuel, the loops find with as many turns and those that the
stars at the end of the pattern take. -/
theorem run_matching {result : Bool} (fuel : Nat) (h : s.Ordered pattern.strlen value.strlen)
    (hloop : globLoopAt pattern value ci fuel s = some result) :
    run (globTurn pattern value ci) (fuel + pattern.strlen + 1) (.matching s) = some result := by
  induction fuel generalizing s with
  | zero => cases hloop
  | succ fuel ih =>
      rw [Nat.succ_add fuel, Nat.succ_eq_add_one]
      cases matchingTurn h ci with
      | ended hv hturn =>
          rw [globLoopAt, hv] at hloop
          rw [run_of_next hturn, run_trailing _ h.p_le (by omega)]
          exact hloop
      | goesOn ht hturn hsame =>
          rw [run_of_next hturn]
          exact ih ht ((hsame fuel).symm.trans hloop)
      | fails hturn hsame =>
          rw [run_of_leave hturn]
          exact (hsame fuel).symm.trans hloop

/-- The pointers start in order. -/
theorem ordered_start (m n : Nat) : GlobPoint.start.pointers.Ordered m n :=
  ⟨Nat.zero_le _, Nat.zero_le _, .none rfl rfl⟩

/-- On pointers, `cacher_glob_match` answers what it answers on texts. -/
theorem run_globTurn (pattern value : CArray) (ci : Bool) :
    run (globTurn pattern value ci) (globFuel pattern.text value.text + pattern.strlen + 1)
        GlobPoint.start
      = some (cacherGlobMatch pattern.text value.text ci) :=
  run_matching _ (ordered_start _ _) (globLoop_eq_some pattern.text value.text ci)

/-- `a*b` goes back to its star once to take `aab`. What stands behind the NUL is not read. -/
example : run (globTurn ⟨toBytes (lit "a*b") ++ [0], by decide⟩
    ⟨toBytes (lit "aab") ++ [0, 42], by decide⟩ false) 12 GlobPoint.start = some true := by
  decide +kernel

/-- `cacher_glob_match` returns, whatever the two arrays hold, and at every test of its loops no
pointer is behind the NUL of its string. No turn on the way reads outside of the arrays. -/
theorem cacherGlobMatch_ends_inBounds (pattern value : CArray) (ci : Bool) :
    (∃ result, run (globTurn pattern value ci)
        (globFuel pattern.text value.text + pattern.strlen + 1) GlobPoint.start = some result)
      ∧ ∀ point, Reaches (globTurn pattern value ci) GlobPoint.start point →
          point.pointers.InBounds pattern.strlen value.strlen
            ∧ (globTurn pattern value ci point).isSome = true := by
  constructor
  · exact ⟨_, run_globTurn pattern value ci⟩
  · intro point hreach
    have hordered : point.pointers.Ordered pattern.strlen value.strlen :=
      Reaches.inv (I := fun point => point.pointers.Ordered pattern.strlen value.strlen)
        ordered_next hreach (ordered_start _ _)
    exact ⟨hordered.inBounds, globTurn_isSome hordered⟩

end Cacher
