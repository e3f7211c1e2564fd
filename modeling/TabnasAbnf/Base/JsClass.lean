/-
A JavaScript character class: escapes, of which two that are a surrogate pair are one character
under `u`, and dashes, each between the two ends of a range or a member itself. Of the syntax of
classes this is what `\uXXXX`, `\u{X...}`, `^` and `[\s\S]` make; of anything else it is no class.
-/
import TabnasAbnf.Base.Utf16

namespace TabnasAbnf.Base

/-! ## Reading a class -/

/-- A token of a class: a character by its code point, or a dash. -/
inductive ClassToken
  | cp (n : Nat)
  | dash
  deriving DecidableEq, Repr

def ClassToken.value : ClassToken → Nat
  | .cp n => n
  | .dash => 0x2D

/-- `XXXX`. -/
def jsFour : Text → Option (Nat × Text)
  | a :: b :: c :: d :: rest =>
    if [a, b, c, d].all (isDigit 16) then some (ofDigits 16 [a, b, c, d], rest) else none
  | _ => none

/-- `{X...}`, past its opening brace: a code point, in any number of digits. -/
def jsBraced (s : Text) : Option (Nat × Text) :=
  let h := s.takeWhile (isDigit 16)
  match s.dropWhile (isDigit 16) with
  | '\x7d' :: rest => if h ≠ [] ∧ ofDigits 16 h ≤ 0x10FFFF then some (ofDigits 16 h, rest) else none
  | _ => none

/-- A low surrogate's escape. -/
def jsLow : Text → Option (Nat × Text)
  | '\\' :: 'u' :: s => (jsFour s).filter fun w => isLow w.1
  | _ => none

/-- The character of a surrogate pair. -/
def pairValue (v w : Nat) : Nat := 0x10000 + (v - 0xD800) * 0x400 + (w - 0xDC00)

/-- Four digits of an escape; under `u` a high surrogate's takes the low one's after it. -/
def jsUnit (u : Bool) (s : Text) : Option (Nat × Text) :=
  match jsFour s with
  | none => none
  | some (v, rest) =>
    if u && isHigh v then
      match jsLow rest with
      | some (w, rest) => some (pairValue v w, rest)
      | none => some (v, rest)
    else some (v, rest)

/-- An escape past its `\u`; braces are an escape's only under `u`. -/
def jsEscape (u : Bool) : Text → Option (Nat × Text)
  | '\x7b' :: s => if u then jsBraced s else none
  | s => jsUnit u s

/-- The tokens of a class's text, in as many steps. -/
def jsTokens (u : Bool) : Nat → Text → Option (List ClassToken)
  | _, [] => some []
  | n + 1, '-' :: s => (jsTokens u n s).map (.dash :: ·)
  | n + 1, '\\' :: 'u' :: s =>
    match jsEscape u s with
    | some (v, rest) => (jsTokens u n rest).map (.cp v :: ·)
    | none => none
  | _, _ => none

/-- `ClassRanges`: a dash between two members makes them a range's ends, which are in order; any other
is a member. -/
def jsRanges : List ClassToken → Option (List (Nat × Nat))
  | [] => some []
  | a :: .dash :: b :: ts => if a.value ≤ b.value then (jsRanges ts).map ((a.value, b.value) :: ·) else none
  | a :: ts => (jsRanges ts).map ((a.value, a.value) :: ·)

/-- A class: whether it is matched under `u`, whether it is of the others, and its members. -/
structure JsClass where
  unicode : Bool
  negated : Bool
  spans : List (Nat × Nat)
  deriving DecidableEq, Repr

/-- The greatest character a class can match: a code point under `u`, a code unit otherwise. -/
def JsClass.top (c : JsClass) : Nat := if c.unicode then 0x10FFFF else 0xFFFF

/-- The characters a class matches. -/
def JsClass.Holds (c : JsClass) (n : Nat) : Prop :=
  n ≤ c.top ∧ (c.spans.any (fun s => decide (s.1 ≤ n ∧ n ≤ s.2)) = !c.negated)

/-- The strings a class matches whole. -/
def JsClass.Matches (c : JsClass) (s : Units) : Prop := ∃ n, c.Holds n ∧ s = fromCodePoint n

/-- What stands between a class's brackets. -/
def classBody : Text → Option Text
  | '[' :: s => if s.getLast? = some ']' then some s.dropLast else none
  | _ => none

/-- A valid class and its flag. -/
def jsClass (u : Bool) (pattern : Text) : Option JsClass :=
  if pattern = ['[', '\\', 's', '\\', 'S', ']'] then some ⟨u, true, []⟩
  else
    (classBody pattern).bind fun s =>
      let negated := s.head? == some '^'
      ((jsTokens u s.length (if negated then s.drop 1 else s)).bind jsRanges).map (⟨u, negated, ·⟩)

theorem classBody_bracketed (s : Text) : classBody ('[' :: (s ++ [']'])) = some s := by
  rw [classBody, List.getLast?_concat, if_pos rfl, List.dropLast_concat]

/-! ## Escapes -/

theorem jsFour_hex {h : Text} (hd : h.all (isDigit 16) = true) (hw : h.length = 4) (rest : Text) :
    jsFour (h ++ rest) = some (ofDigits 16 h, rest) := by
  rcases h with _ | ⟨a, _ | ⟨b, _ | ⟨c, _ | ⟨d, _ | ⟨e, h⟩⟩⟩⟩⟩ <;> simp at hw
  rw [List.cons_append, List.cons_append, List.cons_append, List.cons_append, List.nil_append, jsFour, if_pos hd]

theorem jsBraced_eq {h : Text} (hd : h.all (isDigit 16) = true) (rest : Text) :
    jsBraced (h ++ '\x7d' :: rest) =
      if h ≠ [] ∧ ofDigits 16 h ≤ 0x10FFFF then some (ofDigits 16 h, rest) else none := by
  have hbrace : isDigit 16 '\x7d' = false := rfl
  have hall : ∀ c ∈ h, isDigit 16 c = true := List.all_eq_true.1 hd
  have htake : (h ++ '\x7d' :: rest).takeWhile (isDigit 16) = h := by
    rw [List.takeWhile_append_of_pos hall]
    simp [hbrace]
  have hdrop : (h ++ '\x7d' :: rest).dropWhile (isDigit 16) = '\x7d' :: rest := by
    rw [List.dropWhile_append_of_pos hall]
    simp [hbrace]
  unfold jsBraced
  rw [htake, hdrop]
  rfl

/-- A braced escape under `u`. -/
theorem jsEscape_braced {h : Text} (hd : h.all (isDigit 16) = true) (hne : h ≠ []) (hle : ofDigits 16 h ≤ 0x10FFFF)
    (rest : Text) : jsEscape true ('\x7b' :: (h ++ '\x7d' :: rest)) = some (ofDigits 16 h, rest) := by
  rw [jsEscape, if_pos rfl, jsBraced_eq hd, if_pos ⟨hne, hle⟩]

/-- Four digits begin no braces. -/
theorem jsEscape_unit {u : Bool} {h : Text} (hd : h.all (isDigit 16) = true) (hw : h.length = 4) (rest : Text) :
    jsEscape u (h ++ rest) = jsUnit u (h ++ rest) := by
  rw [jsEscape]
  intro s hs
  rcases h with _ | ⟨a, h⟩
  · simp at hw
  · rw [List.cons_append, List.cons.injEq] at hs
    obtain ⟨rfl, -⟩ := hs
    rw [List.all_cons] at hd
    cases hd

/-- Four digits without `u`. -/
theorem jsEscape_four {h : Text} (hd : h.all (isDigit 16) = true) (hw : h.length = 4) (rest : Text) :
    jsEscape false (h ++ rest) = some (ofDigits 16 h, rest) := by
  rw [jsEscape_unit hd hw, jsUnit, jsFour_hex hd hw]
  rfl

/-- A step over an escape. -/
theorem jsTokens_escape {u : Bool} {n v : Nat} {s rest : Text} (h : jsEscape u s = some (v, rest)) :
    jsTokens u (n + 1) ('\\' :: 'u' :: s) = (jsTokens u n rest).map (.cp v :: ·) := by
  rw [jsTokens, h]

end TabnasAbnf.Base
