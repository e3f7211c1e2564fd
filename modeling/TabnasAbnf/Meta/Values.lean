/-
What a numeric value is read as. The part a value is refused for is the first one that names no code
point, so the TypeScript and the Rust port are one function of the parts they read; and a value is
the one RFC 5234 gives where its parts are digits of the base and stand as that grammar has them.
-/
import TabnasAbnf.Base.JsClass
import TabnasAbnf.Meta.Numeric

namespace TabnasAbnf.Meta

open TabnasAbnf.Base

/-! ## The element as the compiler has it -/

/-- A numeric value's element: a literal, or a class by its pattern and its flags. -/
inductive NumericObject (L : Type)
  | term (literal : L) (sp : Option Span)
  | regex (pattern flags : Text) (sp : Option Span)
  deriving DecidableEq, Repr

/-- The object an element is, by how the port writes a range's pattern. -/
def NumericElement.object {L : Type} (patternOf : Nat → Nat → Text × Text) : NumericElement L → NumericObject L
  | .term literal sp => .term literal sp
  | .regex lo hi sp => .regex (patternOf lo hi).1 (patternOf lo hi).2 sp

/-- A literal read back as text, a lone surrogate as U+FFFD. -/
def NumericObject.lossy : NumericObject Units → NumericObject Text
  | .term literal sp => .term (fromUtf16Lossy literal) sp
  | .regex pattern flags sp => .regex pattern flags sp

/-- The strings an element matches whole. -/
def NumericObject.Matches : NumericObject Units → Units → Prop
  | .term literal _, s => s = literal
  | .regex pattern flags _, s => ∃ c, jsClass (flags == ['u']) pattern = some c ∧ c.Matches s

/-! ## Parts -/

/-- The parts of a body that are read: the two ends of a range, or all that the dots divide. -/
def partsRead (body : Text) : List Text :=
  if '-' ∈ body then [(Ts.ends body).1, (Ts.ends body).2] else body.splitOn '.'

/-- The digits of the base at a part's front. -/
def digitsRead (base : Char) (part : Text) : Text := part.takeWhile (isDigit (Ts.radixOf base))

/-- The number a part is read as. -/
def valueRead (base : Char) (part : Text) : Nat := ofDigits (Ts.radixOf base) (digitsRead base part)

/-- A part with no digit of the base at its front, or whose digits name no code point. -/
def unreadable (base : Char) (part : Text) : Bool :=
  (digitsRead base part).isEmpty || decide (0x10FFFF < valueRead base part)

/-- The refusal of a part. -/
def refused (base : Char) (part : Text) : NumericError := ⟨base, part, parseInt part (Ts.radixOf base)⟩

theorem parseInt_eq (base : Char) (part : Text) :
    parseInt part (Ts.radixOf base) =
      if (digitsRead base part).isEmpty then .nan else double (valueRead base part) := by
  unfold parseInt valueRead digitsRead
  cases part.takeWhile (isDigit (Ts.radixOf base)) with
  | nil => rfl
  | cons d ds => rfl

theorem codePoint_refused {base : Char} {part : Text} (h : unreadable base part = true) :
    Ts.codePoint base part = .error (refused base part) := by
  unfold unreadable at h
  rw [Ts.codePoint, refused, parseInt_eq]
  by_cases he : (digitsRead base part).isEmpty
  · rw [if_pos he]
  · rw [if_neg he]
    rw [Bool.not_eq_true] at he
    rw [he, Bool.false_or, decide_eq_true_eq] at h
    cases hv : double (valueRead base part) with
    | nan => rfl
    | inf => rfl
    | fin m =>
      have hm : 0x10FFFF < m := by
        by_cases hlt : valueRead base part < 2 ^ 53
        · rw [double_of_lt hlt, JsNum.fin.injEq] at hv
          omega
        · have hge := double_fin_ge (by omega) hv
          omega
      exact if_neg (by omega)

theorem codePoint_read {base : Char} {part : Text} (h : unreadable base part = false) :
    Ts.codePoint base part = .ok (valueRead base part) := by
  unfold unreadable at h
  rw [Bool.or_eq_false_iff, decide_eq_false_iff_not] at h
  obtain ⟨hne, hle⟩ := h
  rw [Ts.codePoint, parseInt_eq, hne, if_neg Bool.false_ne_true, double_of_lt (by omega)]
  exact if_pos (by omega)

/-- The Rust port reads a part as TypeScript does, with zero for the part it records. -/
theorem Rust.code_point_ts {base : Char} (hb : base ∈ ['x', 'd', 'b', 'X', 'D', 'B']) (part : Text) :
    Rust.code_point base part =
      match Ts.codePoint base part with
      | .ok n => (n, none)
      | .error e => (0, some e) := by
  have hr : Rust.radix_of base = Ts.radixOf base := by
    simp only [List.mem_cons, List.not_mem_nil, or_false] at hb
    rcases hb with rfl | rfl | rfl | rfl | rfl | rfl <;> rfl
  rw [Rust.code_point_eq, Ts.codePoint, hr]
  cases parseInt part (Ts.radixOf base) with
  | nan => rfl
  | inf => rfl
  | fin n =>
    simp only
    split <;> rfl

/-! ## Values -/

/-- The element the parts of a body make, once each names a code point. -/
def elementRead (base : Char) (body : Text) (sp : Option Span) : NumericElement Units :=
  if '-' ∈ body then
    let lo := valueRead base (Ts.ends body).1
    let hi := valueRead base (Ts.ends body).2
    if lo = hi then .term (fromCodePoint lo) sp else .regex lo hi sp
  else .term (((body.splitOn '.').map (valueRead base)).flatMap fromCodePoint) sp

theorem codePoints_eq (base : Char) (parts : List Text) :
    Ts.codePoints base parts =
      match parts.find? (unreadable base) with
      | some part => .error (refused base part)
      | none => .ok (parts.map (valueRead base)) := by
  induction parts with
  | nil => rfl
  | cons part parts ih =>
    rw [Ts.codePoints]
    cases h : unreadable base part with
    | true =>
      rw [codePoint_refused h, List.find?_cons_of_pos h]
      rfl
    | false =>
      rw [codePoint_read h, ih, List.find?_cons_of_neg (by simp [h])]
      cases parts.find? (unreadable base) <;> rfl

/-- TypeScript refuses a value for the first part that names no code point, and otherwise reads all
of the parts. -/
theorem Ts.parseNumericValue_eq (src : Text) (sp : Option Span) :
    Ts.parseNumericValue src sp =
      match (partsRead (splitBase src).2).find? (unreadable (splitBase src).1) with
      | some part => .error (refused (splitBase src).1 part)
      | none => .ok (elementRead (splitBase src).1 (splitBase src).2 sp) := by
  unfold Ts.parseNumericValue partsRead elementRead
  obtain ⟨base, body⟩ := splitBase src
  simp only
  by_cases hd : '-' ∈ body
  · simp only [if_pos hd]
    cases hlo : unreadable base (Ts.ends body).1 with
    | true =>
      rw [codePoint_refused hlo, List.find?_cons_of_pos hlo]
      rfl
    | false =>
      rw [codePoint_read hlo, List.find?_cons_of_neg (by simp [hlo])]
      cases hhi : unreadable base (Ts.ends body).2 with
      | true =>
        rw [codePoint_refused hhi, List.find?_cons_of_pos hhi]
        rfl
      | false =>
        rw [codePoint_read hhi, List.find?_cons_of_neg (by simp [hhi]), List.find?_nil]
        simp only [Except.bind, bind]
        split <;> rfl
  · simp only [if_neg hd]
    rw [codePoints_eq]
    cases (body.splitOn '.').find? (unreadable base) <;> rfl

section

variable {base : Char}

theorem code_point_refused (hb : base ∈ ['x', 'd', 'b', 'X', 'D', 'B']) {part : Text}
    (h : unreadable base part = true) : Rust.code_point base part = (0, some (refused base part)) := by
  rw [Rust.code_point_ts hb, codePoint_refused h]

theorem code_point_read (hb : base ∈ ['x', 'd', 'b', 'X', 'D', 'B']) {part : Text}
    (h : unreadable base part = false) : Rust.code_point base part = (valueRead base part, none) := by
  rw [Rust.code_point_ts hb, codePoint_read h]

theorem code_point_recorded (hb : base ∈ ['x', 'd', 'b', 'X', 'D', 'B']) (part : Text) :
    (Rust.code_point base part).2 = if unreadable base part then some (refused base part) else none := by
  cases h : unreadable base part with
  | true =>
    rw [code_point_refused hb h]
    rfl
  | false =>
    rw [code_point_read hb h]
    rfl

theorem findSome?_recorded (hb : base ∈ ['x', 'd', 'b', 'X', 'D', 'B']) (parts : List Text) :
    (parts.map (Rust.code_point base)).findSome? (·.2) = (parts.find? (unreadable base)).map (refused base) := by
  induction parts with
  | nil => rfl
  | cons part parts ih =>
    rw [List.map_cons, List.findSome?_cons, code_point_recorded hb, ih]
    cases h : unreadable base part with
    | true =>
      rw [List.find?_cons_of_pos h]
      rfl
    | false =>
      rw [List.find?_cons_of_neg (by simp [h])]
      rfl

theorem valueRead_le {part : Text} (h : unreadable base part = false) : valueRead base part ≤ 0x10FFFF := by
  unfold unreadable at h
  rw [Bool.or_eq_false_iff, decide_eq_false_iff_not] at h
  omega

/-- Parts that name code points fill the buffer as JavaScript's string is filled. -/
theorem pushed_units (hb : base ∈ ['x', 'd', 'b', 'X', 'D', 'B']) {parts : List Text}
    (h : ∀ part ∈ parts, unreadable base part = false) :
    (parts.map (Rust.code_point base)).flatMap (fun p => Rust.push_utf16 p.1) =
      (parts.map (valueRead base)).flatMap fromCodePoint := by
  induction parts with
  | nil => rfl
  | cons part parts ih =>
    have hpart := h part List.mem_cons_self
    rw [List.map_cons, List.map_cons, List.flatMap_cons, List.flatMap_cons,
      ih fun p hp => h p (List.mem_cons_of_mem _ hp), code_point_read hb hpart,
      Rust.push_utf16_eq (valueRead_le hpart)]

end

/-- One code point read back as text is the character it names. -/
theorem fromUtf16Lossy_one {n : Nat} (h : n ≤ 0x10FFFF) : fromUtf16Lossy (fromCodePoint n) = [charOr n] := by
  by_cases hvalid : n.isValidChar
  · have hone := fromUtf16Lossy_fromCodePoint hvalid []
    rw [List.append_nil] at hone
    exact hone
  · have hs : n < 0x10000 := by
      have hne : isSurrogate n ≠ false := fun hs => hvalid (isValidChar_iff.2 ⟨h, hs⟩)
      rw [Bool.ne_false_iff, isSurrogate, decide_eq_true_eq] at hne
      omega
    rw [fromCodePoint, if_pos hs]
    rfl

/-- The Rust port records the first part that names no code point, and makes of the parts what
TypeScript makes of them, its literal read back as text. -/
theorem Rust.parse_numeric_value_eq {src : Text} (hb : (splitBase src).1 ∈ ['x', 'd', 'b', 'X', 'D', 'B'])
    (sp : Option Span) :
    (Rust.parse_numeric_value src sp).2 =
        ((partsRead (splitBase src).2).find? (unreadable (splitBase src).1)).map (refused (splitBase src).1) ∧
      ((partsRead (splitBase src).2).find? (unreadable (splitBase src).1) = none →
        (Rust.parse_numeric_value src sp).1.object Rust.patternOf =
          ((elementRead (splitBase src).1 (splitBase src).2 sp).object Ts.patternOf).lossy) := by
  revert hb
  unfold Rust.parse_numeric_value partsRead elementRead
  obtain ⟨base, body⟩ := splitBase src
  intro hb
  simp only at hb ⊢
  -- the first part that is not read is what is refused, of two ends or of the dotted parts
  by_cases hd : '-' ∈ body
  · simp only [if_pos hd]
    rw [show (body.splitOn '-').getD 0 [] = (Ts.ends body).1 from rfl,
      show (body.splitOn '-').getD 1 [] = (Ts.ends body).2 from rfl]
    constructor
    · have hrec := findSome?_recorded hb [(Ts.ends body).1, (Ts.ends body).2]
      rw [← hrec, List.map_cons, List.map_cons, List.findSome?_cons, List.findSome?_cons]
      cases (Rust.code_point base (Ts.ends body).1).2 with
      | some e => rfl
      | none => cases (Rust.code_point base (Ts.ends body).2).2 <;> rfl
    · intro hnone
      rw [List.find?_eq_none] at hnone
      have hlo : unreadable base (Ts.ends body).1 = false := by simpa using hnone _ List.mem_cons_self
      have hhi : unreadable base (Ts.ends body).2 = false := by
        simpa using hnone _ (List.mem_cons_of_mem _ List.mem_cons_self)
      rw [code_point_read hb hlo, code_point_read hb hhi]
      simp only
      split
      · rw [NumericElement.object, NumericElement.object, NumericObject.lossy,
          fromUtf16Lossy_one (valueRead_le hlo), Rust.character]
      · rfl
  · simp only [if_neg hd]
    constructor
    · exact findSome?_recorded hb _
    · intro hnone
      rw [List.find?_eq_none] at hnone
      rw [pushed_units hb fun part hp => by simpa using hnone part hp]
      rfl

/-- The Rust port and TypeScript refuse a value for the same part, the first read that has no digit
of the base at its front or names no code point, and otherwise make the same element of it, its
literal read back as text. -/
theorem parse_numeric_value_agrees (src : NumericSource) (sp : Option Span) :
    let base := (splitBase src.1).1
    match (partsRead (splitBase src.1).2).find? (unreadable base) with
    | some part => ∃ value, Ts.parseNumericValue src.1 sp = .error ⟨base, part, value⟩ ∧
        (Rust.parse_numeric_value src.1 sp).2 = some ⟨base, part, value⟩
    | none => ∃ a, Ts.parseNumericValue src.1 sp = .ok a ∧ (Rust.parse_numeric_value src.1 sp).2 = none ∧
        (Rust.parse_numeric_value src.1 sp).1.object Rust.patternOf = (a.object Ts.patternOf).lossy := by
  intro base
  obtain ⟨hrec, hobj⟩ := Rust.parse_numeric_value_eq (splitBase_base src.2) sp
  rw [Ts.parseNumericValue_eq]
  cases h : (partsRead (splitBase src.1).2).find? (unreadable (splitBase src.1).1) with
  | some part =>
    rw [h] at hrec
    exact ⟨_, rfl, hrec⟩
  | none =>
    rw [h] at hrec
    exact ⟨_, rfl, hrec, hobj h⟩

end TabnasAbnf.Meta
