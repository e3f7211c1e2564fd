/-
The terminal written for a literal, read back: its text is one term, whose literal is the literal
written and which matches what it was written for.
-/
import TabnasAbnf.Meta.Terminal
import TabnasAbnf.Render.Literal

namespace TabnasAbnf.Render

open TabnasAbnf.Base TabnasAbnf.Meta

/-! ## Letters -/

/-- A text that holds a character past ASCII may hold a letter there; `abnf-has-letter` asks for one of
ASCII. -/
theorem abnfHasLetter_eq (text : Text) : abnfHasLetter text = text.any isLetter := by
  have hchar : ∀ c : Char, ([(0, 64), (91, 96), (123, 1114111)] : List (Nat × Nat)).any
      (fun r => decide (r.1 ≤ c.toNat ∧ c.toNat ≤ r.2)) = !isLetter c := by
    intro c
    have hvalid : c.toNat ≤ 1114111 := (isValidChar_iff.1 c.valid).1
    have ha : ('a' : Char).toNat = 97 := rfl
    have hz : ('z' : Char).toNat = 122 := rfl
    have hA : ('A' : Char).toNat = 65 := rfl
    have hZ : ('Z' : Char).toNat = 90 := rfl
    rw [Bool.eq_iff_iff]
    simp only [List.any_cons, List.any_nil, Bool.or_false, Bool.or_eq_true, decide_eq_true_eq, isLetter,
      Bool.not_eq_true', decide_eq_false_iff_not, char_le]
    omega
  rw [abnfHasLetter, charsWithin, List.all_congr rfl fun c => hchar c, List.not_all_eq_any_not]
  simp

theorem isCharVal_of_within {text : Text} (h : charsWithin [(32, 33), (35, 126)] text = true) :
    text.all isCharVal = true := by
  rw [List.all_eq_true]
  intro c hc
  have hr := List.all_eq_true.1 h c hc
  simp only [List.any_cons, List.any_nil, Bool.or_false, Bool.or_eq_true, decide_eq_true_eq] at hr
  rw [isCharVal, decide_eq_true_eq]
  refine ⟨by omega, by omega, ?_⟩
  rintro rfl
  have hq : ('"' : Char).toNat = 34 := rfl
  omega

/-! ## The numeric value -/

/-- Digits of a code point are read as it. -/
theorem read_digits {h : Text} (hne : h ≠ []) (hd : h.all (isDigit 16) = true) (hle : ofDigits 16 h ≤ 0x10FFFF) :
    Read 'x' h (ofDigits 16 h) := by
  refine ⟨by decide, ?_⟩
  have hr : Go.radixOf 'x' = 16 := rfl
  rw [Go.codePoint, hr, if_pos ⟨hne, hd⟩]
  simp only [if_pos hle]

theorem IsCode.read {h : Text} (hc : IsCode h) : Read 'x' h (ofDigits 16 h) :=
  read_digits hc.ne hc.hex (isValidChar_iff.1 hc.valid).1

/-- The numeric value of a literal's code points is a term of the literal. -/
theorem atomText_points {text : Text} {hs : List Text} (hne : text ≠ []) (h : abnfCodes text = .ok hs) :
    AtomText ('%' :: 'x' :: stringJoin ['.'] hs) fun e => ∃ sp, e = .value (.term (utf16 text) sp) := by
  have hcodes := abnfCodes_spec hne h
  have hs_ne : hs ≠ [] := by
    rintro rfl
    exact hne hcodes.text.symm
  have hunits : (hs.map (ofDigits 16)).flatMap fromCodePoint = utf16 text := by
    rw [flatMap_fromCodePoint, List.map_map, ← hcodes.text]
    · rfl
    · intro n hn
      obtain ⟨d, hd, rfl⟩ := List.mem_map.1 hn
      exact (hcodes.code d hd).valid
  rw [← hunits]
  exact atomText_codes hs_ne fun d hd => (hcodes.code d hd).read

theorem abnfWideChars_e9 (text : Text) : abnfWideChars text ['é'] [] = .ok [(['é'], ['E', '9'])] := by
  have hheld : heldIn ['é'] (blockChars (blockOf ['é'])) = [(['é'], ['E', '9'])] := by decide +kernel
  have hstrip : abnfStripChars [(['é'], ['E', '9'])] ['é'] = [] := by decide
  rw [abnfWideChars, if_neg (by decide), hheld, dif_neg (by decide), hstrip, abnfWideChars, if_pos rfl]
  rfl

/-! ## The law -/

/-- A term with a literal that matches it exactly, or without regard to case. -/
def Spelt (fold : Folding) (text : Text) (exact : Bool) (e : Element (NumericElement Units) JsNum) : Prop :=
  e.literal = some (utf16 text) ∧
    ∀ u, e.Matches fold u ↔ if exact then u = utf16 text else fold (utf16 text) u

theorem spelt_term {fold : Folding} {text : Text} {caseSensitive exact : Bool} {sp : Option Span}
    (h : (caseSensitive || !text.any isLetter) = exact) : Spelt fold text exact (.term text caseSensitive sp) := by
  refine ⟨rfl, fun u => ?_⟩
  rw [Element.Matches, TermMatches, utf16_any_letter, h]

theorem spelt_value {fold : Folding} {text : Text} {exact : Bool} {sp : Option Span}
    (h : (!text.any isLetter) = exact) : Spelt fold text exact (.value (.term (utf16 text) sp)) := by
  refine ⟨rfl, fun u => ?_⟩
  rw [Element.Matches, TermMatches, utf16_any_letter, Bool.false_or, h]

section

variable {fold : Folding} {letter : Char → Bool} {text out : Text} {cs : Bool}

/-- With the letters of ASCII and any others a literal is matched as it asks, where it is written. -/
theorem exact_eq (hletter : ∀ c : Char, c.toNat < 128 → letter c = isLetter c)
    (h : cs = true ∨ text.any isLetter = true ∨ ∀ c ∈ text, c.toNat < 128) :
    (cs || !text.any letter) = (cs || !text.any isLetter) := by
  rcases h with rfl | h | h
  · rfl
  · have hl : text.any letter = true := by
      obtain ⟨c, hc, hcl⟩ := List.any_eq_true.1 h
      refine List.any_eq_true.2 ⟨c, hc, ?_⟩
      rw [hletter c ?_, hcl]
      have hz : ('z' : Char).toNat = 122 := rfl
      have hZ : ('Z' : Char).toNat = 90 := rfl
      simp only [isLetter, decide_eq_true_eq, char_le] at hcl
      omega
    rw [h, hl]
  · have hany : text.any letter = text.any isLetter := by
      rw [Bool.eq_iff_iff, List.any_eq_true, List.any_eq_true]
      constructor
      · rintro ⟨c, hc, hcl⟩
        exact ⟨c, hc, by rwa [← hletter c (h c hc)]⟩
      · rintro ⟨c, hc, hcl⟩
        exact ⟨c, hc, by rwa [hletter c (h c hc)]⟩
    rw [hany]

/-- What is written for a literal is one atom. -/
theorem abnfLitText_atom (hletter : ∀ c : Char, c.toNat < 128 → letter c = isLetter c) (hne : text ≠ [])
    (h : abnfLitText text cs = .ok out) : AtomText out (Spelt fold text (cs || !text.any letter)) := by
  rw [abnfLitText, if_neg hne] at h
  by_cases hplain : charsWithin [(32, 33), (35, 126)] text = true
  · have hval := isCharVal_of_within hplain
    have hascii : ∀ c ∈ text, c.toNat < 128 := by
      intro c hc
      have hv := List.all_eq_true.1 hval c hc
      rw [isCharVal, decide_eq_true_eq] at hv
      omega
    rw [exact_eq hletter (.inr (.inr hascii))]
    rw [if_pos hplain, abnfHasLetter_eq] at h
    -- `%s` stands where the flag asks for an exact match and a letter would be folded
    split_ifs at h with hcs hl
    · cases h
      refine (atomText_sensitive hval).mono ?_
      rintro e ⟨sp, rfl⟩
      exact spelt_term (by simp [hcs])
    · cases h
      refine (atomText_string hval).mono ?_
      rintro e ⟨sp, rfl⟩
      exact spelt_term (by simp [hl])
    · cases h
      refine (atomText_string hval).mono ?_
      rintro e ⟨sp, rfl⟩
      exact spelt_term (by simp [hcs])
  · rw [if_neg hplain, abnfHasLetter_eq] at h
    have hnumeric : (abnfCodes text).map (fun codes => ['%', 'x'] ++ stringJoin ['.'] codes) = .ok out →
        (cs = true ∨ text.any isLetter = true ∨ ∀ c ∈ text, c.toNat < 128) →
        (cs = true → text.any isLetter = false) → AtomText out (Spelt fold text (cs || !text.any letter)) := by
      intro hout hwhen hsensitive
      rw [exact_eq hletter hwhen]
      cases hcodes : abnfCodes text with
      | error e => rw [hcodes] at hout; cases hout
      | ok hs =>
        rw [hcodes] at hout
        cases hout
        refine (atomText_points hne hcodes).mono ?_
        rintro e ⟨sp, rfl⟩
        refine spelt_value ?_
        cases cs with
        | true => rw [hsensitive rfl]; rfl
        | false => rfl
    split_ifs at h with hcs hl hwhen
    · exact hnumeric h (.inl hcs) fun _ => by simpa using hl
    · refine hnumeric h ?_ fun hc => absurd hc hcs
      rcases Bool.or_eq_true_iff.1 hwhen with hl | hplane
      · exact .inr (.inl hl)
      · -- a character past ASCII is one past the plane here, which has no code point written
        cases hcodes : abnfCodes text with
        | error e => rw [hcodes] at h; cases h
        | ok hs =>
          refine .inr (.inr fun c hc => ?_)
          have hbmp := (abnfCodes_spec hne hcodes).bmp c hc
          have hr := List.all_eq_true.1 hplane c hc
          simp only [List.any_cons, List.any_nil, Bool.or_false, Bool.or_eq_true, decide_eq_true_eq] at hr
          omega

/-- What is written for a literal reads back as a term with that literal, which matches it exactly where
the flag asks for it or the literal has no letter, and without regard to case otherwise. A `letter` past
ASCII is whatever one takes for it: the renderer refuses the literals it would matter to. -/
theorem abnfLitText_reads (hletter : ∀ c : Char, c.toNat < 128 → letter c = isLetter c) (hne : text ≠ [])
    (h : abnfLitText text cs = .ok out) : ReadsAs out (Spelt fold text (cs || !text.any letter)) :=
  (abnfLitText_atom hletter hne h).reads

end

/-- `a`, `é` and a quote are written `%x61.E9.22`. -/
theorem abnfLitText_reads_quote :
    ReadsAs ['%', 'x', '6', '1', '.', 'E', '9', '.', '2', '2'] (Spelt asciiFold ['a', 'é', '"'] false) := by
  refine @abnfLitText_reads _ isLetter ['a', 'é', '"'] _ false (fun _ _ => rfl) (List.cons_ne_nil _ _) ?_
  have hwalk : abnfCodeWalk (heldIn ['a', 'é', '"'] abnfAscii) [.raw ['a', 'é', '"']] =
      [.cp ['6', '1'], .raw ['é'], .cp ['2', '2']] := by decide +kernel
  have hcodes : abnfCodes ['a', 'é', '"'] = .ok [['6', '1'], ['E', '9'], ['2', '2']] := by
    rw [abnfCodes, hwalk]
    simp only [List.mapM_cons, List.mapM_nil, abnfWideCodes, abnfWideChars_e9]
    rfl
  rw [abnfLitText, hcodes]
  rfl

end TabnasAbnf.Render
