import Cacher.CJsonText
import Cacher.RulesParse

/-!
# `Cacher.CJsonStandard`: standard JSON texts, and rules written in one

Every text of RFC 8259 is a text of the grammar of `cJSON_Parse`, with the same meaning
(`rfc8259_le_cJSONLexicon`). So the parser reads the texts of the standard whose numbers fit into
its buffer and which are nested no deeper than its limit.

`cacherRulesetParse_jsonText` joins the parser to `RulesParse`: it goes from the text of the rules to
the object that decides about a request.
-/

set_option autoImplicit false

namespace Cacher

open CText

/-! ### Strings of the standard -/

/-- The bytes of a character that is no quote and no backslash are none. -/
theorem paired_append {bytes s : CString} {skipped : Nat}
    (h : ∀ b ∈ bytes, b ≠ chr '"' ∧ b ≠ chr '\\') (hs : Paired s skipped) :
    Paired (bytes ++ s) skipped := by
  induction bytes with
  | nil => exact hs
  | cons b bytes ih =>
      obtain ⟨hquote, hbackslash⟩ := h b List.mem_cons_self
      exact .plain hquote hbackslash (ih fun x hx => h x (List.mem_cons_of_mem _ hx))

theorem unescaped_append {bytes s : CString} {read : List UInt8} (h : ∀ b ∈ bytes, b ≠ chr '\\')
    (hs : Unescaped s read) : Unescaped (bytes ++ s) (toBytes bytes ++ read) := by
  induction bytes with
  | nil => exact hs
  | cons b bytes ih =>
      exact .plain (h b List.mem_cons_self) (ih fun x hx => h x (List.mem_cons_of_mem _ hx))

theorem ne_chr_of_mem {c d : Char} (hd : d.toNat < 128) (hval : (chr d).val = UInt8.ofNat d.toNat)
    (hne : c ≠ d) {bytes : CString} (h : toBytes bytes = String.utf8EncodeChar c) {b : CChar}
    (hb : b ∈ bytes) : b ≠ chr d := by
  rintro rfl
  have hmem : UInt8.ofNat d.toNat ∈ String.utf8EncodeChar c := by
    rw [← h, ← hval]
    exact List.mem_map_of_mem hb
  exact hne (Utf8.eq_of_mem_utf8EncodeChar hd hmem)

/-- No hexadecimal digit is a quote or a backslash. -/
theorem ne_of_mem_hexText {hex : CString} {n : Nat} (h : HexText hex n) :
    ∀ b ∈ hex, b ≠ chr '"' ∧ b ≠ chr '\\' := by
  have hdigit : ∀ {b : CChar} {i : Nat}, hexValue? b = some i → b ≠ chr '"' ∧ b ≠ chr '\\' := by
    intro b i hb
    constructor
    · rintro rfl
      revert hb
      exact fun hb => nomatch hb
    · rintro rfl
      exact nomatch hb
  cases h with
  | mk ha hb hc hd =>
      intro b hmem
      simp only [List.mem_cons, List.not_mem_nil, or_false] at hmem
      rcases hmem with rfl | rfl | rfl | rfl
      · exact hdigit ha
      · exact hdigit hb
      · exact hdigit hc
      · exact hdigit hd

/-- Both loops of `parse_string` read a string of the standard, and its UTF-8 comes out. -/
theorem stringText_unescaped {body : CString} {chars : List Char} (h : StringText body chars) :
    (∃ skipped, Paired body skipped) ∧ Unescaped body (Utf8.encode chars) := by
  induction h with
  | nil => exact ⟨⟨0, .nil⟩, .nil⟩
  | @plain c bytes s chars _ hquote hbackslash hbytes _ ih =>
      obtain ⟨⟨skipped, hpaired⟩, hmore⟩ := ih
      have hne : ∀ b ∈ bytes, b ≠ chr '"' ∧ b ≠ chr '\\' := fun b hb =>
        ⟨ne_chr_of_mem (by decide) (by decide) hquote hbytes hb,
          ne_chr_of_mem (by decide) (by decide) hbackslash hbytes hb⟩
      refine ⟨⟨skipped, paired_append hne hpaired⟩, ?_⟩
      rw [Utf8.encode_cons, ← hbytes]
      exact unescaped_append (fun b hb => (hne b hb).2) hmore
  | escape hmem _ ih =>
      obtain ⟨⟨skipped, hpaired⟩, hmore⟩ := ih
      exact ⟨⟨skipped + 1, .escape _ hpaired⟩, .escape hmem hmore⟩
  | unicode hhex _ ih =>
      obtain ⟨⟨skipped, hpaired⟩, hmore⟩ := ih
      exact ⟨⟨skipped + 1, .escape _ (paired_append (ne_of_mem_hexText hhex) hpaired)⟩,
        .utf16 (.unit (.digits hhex)) hmore⟩
  | pair hhexHigh hhexLow hhigh hlow hc _ ih =>
      obtain ⟨⟨skipped, hpaired⟩, hmore⟩ := ih
      refine ⟨⟨skipped + 1 + 1, .escape _ (paired_append (ne_of_mem_hexText hhexHigh)
        (.escape _ (paired_append (ne_of_mem_hexText hhexLow) hpaired)))⟩, ?_⟩
      have htext := Unescaped.utf16 (.pair hhexHigh hhexLow hhigh hlow hc) hmore
      simpa using htext

/-! ### The lexicon of the standard -/

theorem Strict.head {n : Numeral} (h : n.Strict) :
    ∃ c, n.text.head? = some c ∧ (c = chr '-' ∨ isDigit c = true) := by
  obtain ⟨d, more, hd⟩ := List.exists_cons_of_ne_nil h.whole
  cases hsign : n.sign with
  | none =>
      refine ⟨d.val, ?_, Or.inr d.property⟩
      simp [Numeral.text, hsign, hd, Sign.text, digitsText]
  | plus => exact absurd hsign h.sign
  | minus =>
      refine ⟨chr '-', ?_, Or.inl rfl⟩
      simp [Numeral.text, hsign, Sign.text]

theorem isBlank_of_blank {c : CChar} (h : c = chr ' ' ∨ c = chr '\t' ∨ c = chr '\n' ∨ c = chr '\r') :
    isBlank c = true := by
  rcases h with rfl | rfl | rfl | rfl <;> decide

/-- `cJSON_Parse` takes all that the standard takes, and reads it as the standard does. -/
theorem rfc8259_le_cJSONLexicon (round : ℚ → Double) :
    (rfc8259 round numberLimit).Le (cJSONLexicon round) where
  blank h := fun c hc => isBlank_of_blank (h c hc)
  number := by
    rintro _ _ ⟨n, hstrict, rfl, hlen, rfl⟩
    exact ⟨n, rfl, hlen, Strict.head hstrict, rfl⟩
  string := by
    rintro body _ ⟨chars, hbody, rfl⟩
    obtain ⟨hpaired, hunescaped⟩ := stringText_unescaped hbody
    exact ⟨hpaired, _, hunescaped, rfl⟩

/-! ### Texts of the standard -/

theorem valueText_mono_room {L : Lexicon} {room room' : Nat} (h : room ≤ room') {text : CString}
    {v : Json} (htext : ValueText L room text v) : ValueText L room' text v := by
  induction h with
  | refl => exact htext
  | step _ ih => exact ih.succ

/-- A text of the standard is read, whether a byte order mark stands in front of it or not. -/
theorem cJSONParse_append_of_jsonText (round : ℚ → Double) {room : Nat}
    (hroom : room ≤ cJSONNestingLimit) {s mark : CString} {v : Json}
    (h : JsonText (rfc8259 round numberLimit) room s v) (hmark : mark = [] ∨ mark = utf8Bom) :
    cJSONParse round (mark ++ s) = .ok v := by
  obtain ⟨before, core, after, rfl, hbefore, hafter, hcore⟩ := h
  have hle := rfc8259_le_cJSONLexicon round
  have hblanks : Blank before := hle.blank hbefore
  have hlead : Lead (mark ++ before) := ⟨before, hblanks, hmark.imp (by rintro rfl; rfl)
    (by rintro rfl; rfl)⟩
  have hends : NumberEnds core after := by
    refine numberEnds_of_endsNumber (fun c hc => ?_) core
    exact isNumberChar_eq_false_of_isBlank (hle.blank hafter c (List.mem_of_head? hc))
  exact (cJSONParse_eq_ok round _ v).mpr ⟨mark ++ before, core, after, by simp, hlead,
    valueText_mono_room hroom (hcore.mono hle), hends⟩

/-- A JSON text of the standard with the tree `v` is parsed to `v`, with a byte order mark in front
of it or without. -/
theorem cJSONParse_of_jsonText (round : ℚ → Double) {room : Nat} (hroom : room ≤ cJSONNestingLimit)
    {s : CString} {v : Json} (h : JsonText (rfc8259 round numberLimit) room s v) :
    cJSONParse round s = .ok v ∧ cJSONParse round (utf8Bom ++ s) = .ok v :=
  ⟨cJSONParse_append_of_jsonText round hroom h (Or.inl rfl),
    cJSONParse_append_of_jsonText round hroom h (Or.inr rfl)⟩

/-- The text `["\/\u0061", -2.5]`. -/
theorem cJSONParse_escaped :
    cJSONParse Double.finite (lit "[\"\\/\\u0061\", -2.5]")
        = .ok (.array [.string (lit "/a"), .number (.finite (-5 / 2))])
      ∧ cJSONParse Double.finite (utf8Bom ++ lit "[\"\\/\\u0061\", -2.5]")
        = .ok (.array [.string (lit "/a"), .number (.finite (-5 / 2))]) := by
  let body := [chr '\\', chr '/', chr '\\', chr 'u', chr '0', chr '0', chr '6', chr '1']
  let number := [chr '-', chr '2', chr '.', chr '5']
  have hstring : StringText body ['/', 'a'] := by
    have hhex : HexText [chr '0', chr '0', chr '6', chr '1'] 'a'.toNat :=
      .mk (i := 0) (j := 0) (k := 6) (l := 1) rfl rfl rfl rfl
    exact .escape (by decide) (.unicode hhex .nil)
  have hnumber : (rfc8259 Double.finite numberLimit).number number (.finite (-5 / 2)) := by
    refine ⟨⟨.minus, [⟨chr '2', rfl⟩], some [⟨chr '5', rfl⟩], none, Or.inl (by simp)⟩,
      ⟨by simp, by simp, ?_, by simp⟩, rfl, by decide, ?_⟩
    · rintro d more heq hd
      exact (List.cons.inj heq).2.symm
    · have hval : digitsValue [⟨chr '2', rfl⟩, ⟨chr '5', rfl⟩] = 25 := by decide
      norm_num [Numeral.value, hval]
  have hlist : ValueText (rfc8259 Double.finite numberLimit) 1
      (chr '[' :: ((chr '"' :: body ++ [chr '"']) ++ chr ',' :: ([chr ' '] ++ number)) ++ [chr ']'])
      (.array [.string (lit "/a"), .number (.finite (-5 / 2))]) := by
    refine Or.inr (Or.inl ⟨_, rfl, .items (.cons ⟨[], _, [], by simp, by simp [rfc8259],
      by simp [rfc8259], .string ⟨_, hstring, by decide⟩⟩ (.one ⟨[chr ' '], _, [], by simp,
      fun c hc => Or.inl (List.mem_singleton.mp hc), by simp [rfc8259], .number hnumber⟩))⟩)
  have htext : lit "[\"\\/\\u0061\", -2.5]" = [] ++ (chr '[' :: ((chr '"' :: body ++ [chr '"'])
      ++ chr ',' :: ([chr ' '] ++ number)) ++ [chr ']']) ++ [] := by decide
  exact @cJSONParse_of_jsonText Double.finite 1 (by decide) _ _
    ⟨[], _, [], htext, by simp [rfc8259], by simp [rfc8259], hlist⟩

/-! ### Rules -/

/-- The text begins with JSON, as `cJSON_Parse` understands it. -/
def BeginsWithJson (round : ℚ → Double) (s : CString) : Prop :=
  ∃ front text rest root, s = front ++ text ++ rest ∧ Lead front
    ∧ ValueText (cJSONLexicon round) cJSONNestingLimit text root ∧ NumberEnds text rest

theorem cacherRulesetParse_of_parse {round : ℚ → Double} {s : CString} {root : Json}
    (hparse : cJSONParse round s = .ok root) (conv : Conversions) :
    cacherRulesetParse (cJSONParse round) conv (some s) = rulesetOfJson conv root := by
  simp only [cacherRulesetParse, hparse]

/-- A syntax error is reported for the texts that do not begin with JSON and for no others, and the
message quotes the text from where the parser has stopped. -/
theorem cacherRulesetParse_syntax_error (round : ℚ → Double) (conv : Conversions) (s : CString) :
    (∃ near, near <:+ s ∧ cacherRulesetParse (cJSONParse round) conv (some s)
        = .error (lit "JSON syntax error near: " ++ near.take 40))
      ↔ ¬ BeginsWithJson round s := by
  cases hparse : cJSONParse round s with
  | ok root =>
      refine iff_of_false ?_ (not_not.mpr ?_)
      · rintro ⟨near, -, herror⟩
        rw [cacherRulesetParse_of_parse hparse, rulesetOfJson] at herror
        split at herror
        · have hhead : some (chr 'm') = some (chr 'J') :=
            congrArg List.head? (Except.error.inj herror)
          revert hhead
          decide
        · cases herror
      · obtain ⟨front, text, rest, h⟩ := (cJSONParse_eq_ok round s root).mp hparse
        exact ⟨front, text, rest, root, h⟩
  | error near =>
      refine iff_of_true ⟨near, suffix_of_cJSONParse hparse, ?_⟩ ?_
      · simp only [cacherRulesetParse, hparse]
      · rintro ⟨front, text, rest, root, h⟩
        have hok := (cJSONParse_eq_ok round s root).mpr ⟨front, text, rest, h⟩
        rw [hparse] at hok
        cases hok

end Cacher
