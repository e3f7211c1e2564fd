/-
Numeric values: `%x41`, `%d65.66`, `%x41-5A`. Each port decodes a value's source into a term or into
a character range: TypeScript into a string of UTF-16 units, Go character by character, Rust into
units read back as text. A port refuses a part that names no code point.
-/
import TabnasAbnf.Base.Utf16
import TabnasAbnf.Meta.ParseInt
import TabnasAbnf.Meta.Token

namespace TabnasAbnf.Meta

open TabnasAbnf.Base

/-- The element a numeric value is: a term, whose literal the port keeps as an `L`, or the range its
pattern names, by its two code points. -/
inductive NumericElement (L : Type)
  | term (literal : L) (sp : Option Span)
  | regex (lo hi : Nat) (sp : Option Span)
  deriving DecidableEq, Repr

/-- A part of a numeric value that names no code point: the base as written, the part, and what it
was read as. -/
structure NumericError where
  base : Char
  text : Text
  value : JsNum
  deriving DecidableEq, Repr

/-- The source of a numeric value past its `%`: the base as written, and the body. -/
def splitBase : Text → Char × Text
  | _ :: base :: body => (base, body)
  | _ => (' ', [])

/-- A base's letter in lower case. -/
def lowerBase (base : Char) : Char :=
  if base = 'X' then 'x' else if base = 'D' then 'd' else if base = 'B' then 'b' else base

/-- A number's hexadecimal digits, in lower case, at least as many as `width`. -/
def hexDigits (width n : Nat) : Text :=
  let ds := Nat.toDigits 16 n
  List.replicate (width - ds.length) '0' ++ ds

namespace Ts

def radixOf (base : Char) : Nat :=
  if lowerBase base = 'x' then 16 else if lowerBase base = 'd' then 10 else 2

def codePoint (base : Char) (text : Text) : Except NumericError Nat :=
  match parseInt text (radixOf base) with
  | .fin n => if n ≤ 0x10FFFF then .ok n else .error ⟨base, text, .fin n⟩
  | value => .error ⟨base, text, value⟩

/-- The code points of a dotted body, or the first refusal. -/
def codePoints (base : Char) : List Text → Except NumericError (List Nat)
  | [] => .ok []
  | part :: parts => do
    let n ← codePoint base part
    let ns ← codePoints base parts
    .ok (n :: ns)

/-- The two ends of a range, by what stands before and after the first dash. -/
def ends (body : Text) : Text × Text := ((body.splitOn '-').getD 0 [], (body.splitOn '-').getD 1 [])

def parseNumericValue (src : Text) (sp : Option Span) : Except NumericError (NumericElement Units) :=
  let (base, body) := splitBase src
  if '-' ∈ body then do
    let lo ← codePoint base (ends body).1
    let hi ← codePoint base (ends body).2
    if lo = hi then .ok (.term (fromCodePoint lo) sp) else .ok (.regex lo hi sp)
  else do
    let chars ← codePoints base (body.splitOn '.')
    .ok (.term (chars.flatMap fromCodePoint) sp)

/-- The escape of a code point in a range's pattern. -/
def toEsc (astral : Bool) (n : Nat) : Text :=
  if astral then ['\\', 'u', '\x7b'] ++ hexDigits 0 n ++ ['\x7d'] else ['\\', 'u'] ++ hexDigits 4 n

/-- The pattern of a range, and its flags. -/
def patternOf (lo hi : Nat) : Text × Text :=
  let astral := decide (0xFFFF < lo ∨ 0xFFFF < hi)
  (['['] ++ toEsc astral lo ++ ['-'] ++ toEsc astral hi ++ [']'], if astral then ['u'] else [])

/-- What the action `@atom-nv` makes of a token. -/
def numericOf (t : Tok) : Except NumericError (NumericElement Units) := parseNumericValue t.text (some (spanOf t))

/-- Whether a token's value is one the port reads. -/
def readable (t : Tok) : Bool := (numericOf t).isOk

/-- The value of a token that is readable. -/
def valueOf (t : Tok) : NumericElement Units :=
  match numericOf t with
  | .ok a => a
  | .error _ => .term [] none

/-- The refusal of a token that is not. -/
def refusalOf (t : Tok) : NumericError :=
  match numericOf t with
  | .ok _ => ⟨' ', [], .nan⟩
  | .error e => e

theorem numericOf_refused (t : Tok) (h : (!readable t) = true) : numericOf t = .error (refusalOf t) := by
  unfold readable refusalOf at *
  cases hn : numericOf t with
  | ok a => rw [hn] at h; cases h
  | error e => rfl

theorem numericOf_readable (t : Tok) (h : (!readable t) = false) : numericOf t = .ok (valueOf t) := by
  unfold readable valueOf at *
  cases hn : numericOf t with
  | ok a => rfl
  | error e => rw [hn] at h; cases h

end Ts

namespace Go

def radixOf (base : Char) : Nat :=
  if lowerBase base = 'd' then 10 else if lowerBase base = 'b' then 2 else 16

/-- A part as a code point, zero where it is refused: `strconv.ParseInt` takes digits of the base
only, up to the 64-bit integers. -/
def codePoint (base : Char) (text : Text) : Nat × Option NumericError :=
  if text ≠ [] ∧ text.all (isDigit (radixOf base)) then
    let n := ofDigits (radixOf base) text
    if n ≤ 0x10FFFF then (n, none) else (0, some ⟨base, text, .fin n⟩)
  else (0, some ⟨base, text, .nan⟩)

/-- The ends of a range: what stands before the first dash, and everything after it. -/
def ends (body : Text) : Text × Text := (body.takeWhile (· ≠ '-'), (body.dropWhile (· ≠ '-')).drop 1)

/-- `string(rune(n))`. -/
def runeString (n : Nat) : Text := [charOr n]

/-- `parseNumericValue`, with the first part it refused. -/
def parseNumericValue (src : Text) (sp : Option Span) : NumericElement Text × Option NumericError :=
  let (base, body) := splitBase src
  if '-' ∈ body then
    let lo := codePoint base (ends body).1
    let hi := codePoint base (ends body).2
    (if lo.1 = hi.1 then .term (runeString lo.1) sp else .regex lo.1 hi.1 sp, lo.2.or hi.2)
  else
    let parts := (body.splitOn '.').map (codePoint base)
    (.term (parts.flatMap fun p => runeString p.1) sp, parts.findSome? (·.2))

/-- The pattern of a range. -/
def patternOf (lo hi : Nat) : Text :=
  let toEsc n := ['\\', 'x', '\x7b'] ++ hexDigits 4 n ++ ['\x7d']
  ['['] ++ toEsc lo ++ ['-'] ++ toEsc hi ++ [']']

def numericOf (t : Tok) : NumericElement Text × Option NumericError := parseNumericValue t.text (some (spanOf t))

end Go

namespace Rust

def radix_of (base : Char) : Nat :=
  if lowerBase base = 'd' then 10 else if lowerBase base = 'b' then 2 else 16

/-- A part as a code point, zero where it is refused. -/
def code_point (base : Char) (text : Text) : Nat × Option NumericError :=
  match parse_int text (radix_of base) with
  | .fin n => if n ≤ 0x10FFFF then (n, none) else (0, some ⟨base, text, .fin n⟩)
  | value => (0, some ⟨base, text, value⟩)

/-- The character a code point names. -/
def character (code : Nat) : Char := charOr code

/-- What one code point adds to a UTF-16 buffer: its character's units, or the bare unit a surrogate
names. -/
def push_utf16 (code : Nat) : Units := if code.isValidChar then utf16 [Char.ofNat code] else [code]

/-- `parse_numeric_value`, with the first part it records. -/
def parse_numeric_value (src : Text) (sp : Option Span) : NumericElement Text × Option NumericError :=
  let (base, body) := splitBase src
  if '-' ∈ body then
    let low := code_point base ((body.splitOn '-').getD 0 [])
    let high := code_point base ((body.splitOn '-').getD 1 [])
    (if low.1 = high.1 then .term [character low.1] sp else .regex low.1 high.1 sp, low.2.or high.2)
  else
    let parts := (body.splitOn '.').map (code_point base)
    (.term (fromUtf16Lossy (parts.flatMap fun p => push_utf16 p.1)) sp, parts.findSome? (·.2))

/-- The escape of a code point in a range's pattern. -/
def escape (astral : Bool) (code : Nat) : Text :=
  if astral then ['\\', 'u', '\x7b'] ++ hexDigits 0 code ++ ['\x7d'] else ['\\', 'u'] ++ hexDigits 4 code

/-- The pattern of a range, and its flags. -/
def patternOf (low high : Nat) : Text × Text :=
  let astral := decide (0xFFFF < low ∨ 0xFFFF < high)
  (['['] ++ escape astral low ++ ['-'] ++ escape astral high ++ [']'], if astral then ['u'] else [])

def numericOf (t : Tok) : NumericElement Text × Option NumericError := parse_numeric_value t.text (some (spanOf t))

end Rust

/-! ## Where the ports agree -/

/-- A literal's units. -/
def NumericElement.units : NumericElement Text → NumericElement Units
  | .term literal sp => .term (utf16 literal) sp
  | .regex lo hi sp => .regex lo hi sp

def partNamesSurrogate (base : Char) (text : Text) : Bool := (Ts.codePoint base text).toOption.any isSurrogate

/-- Whether a value is a term one of whose parts names a surrogate. -/
def namesSurrogate (src : Text) : Bool :=
  let (base, body) := splitBase src
  if '-' ∈ body then
    decide ((Ts.codePoint base (Ts.ends body).1).toOption = (Ts.codePoint base (Ts.ends body).2).toOption) &&
      partNamesSurrogate base (Ts.ends body).1
  else (body.splitOn '.').any (partNamesSurrogate base)

theorem Rust.radix_of_cases (base : Char) :
    Rust.radix_of base = 2 ∨ Rust.radix_of base = 10 ∨ Rust.radix_of base = 16 := by
  unfold Rust.radix_of
  split
  · exact .inr (.inl rfl)
  · split
    · exact .inl rfl
    · exact .inr (.inr rfl)

/-- The Rust port's reading of a part, by JavaScript's `parseInt`. -/
theorem Rust.code_point_eq (base : Char) (text : Text) :
    Rust.code_point base text =
      match parseInt text (Rust.radix_of base) with
      | .fin n => if n ≤ 0x10FFFF then (n, none) else (0, some ⟨base, text, .fin n⟩)
      | value => (0, some ⟨base, text, value⟩) := by
  rw [Rust.code_point, Rust.parse_int_eq (Rust.radix_of_cases base)]

/-- A buffer takes the units JavaScript gives a code point. -/
theorem Rust.push_utf16_eq {n : Nat} (h : n ≤ 0x10FFFF) : Rust.push_utf16 n = fromCodePoint n := by
  unfold Rust.push_utf16
  split
  · rename_i hvalid
    have hchar := charOr_toNat hvalid
    rw [charOr, if_pos hvalid] at hchar
    rw [utf16_cons, utf16_nil, List.append_nil, hchar]
  · rename_i hvalid
    have hs : isSurrogate n = true := by
      by_contra hs
      exact hvalid (isValidChar_iff.2 ⟨h, by simpa using hs⟩)
    simp only [isSurrogate, decide_eq_true_eq] at hs
    rw [fromCodePoint, if_pos (by omega)]

/-- A value Go reads without a refusal, in one of the six bases. -/
def Read (base : Char) (text : Text) (n : Nat) : Prop :=
  base ∈ ['x', 'd', 'b', 'X', 'D', 'B'] ∧ Go.codePoint base text = (n, none)

namespace Read

variable {base : Char} {text : Text} {n : Nat}

theorem digits (h : Read base text n) : text ≠ [] ∧ (∀ c ∈ text, isDigit (Go.radixOf base) c = true) ∧
    ofDigits (Go.radixOf base) text = n ∧ n ≤ 0x10FFFF := by
  obtain ⟨-, h⟩ := h
  unfold Go.codePoint at h
  split at h
  · rename_i hd
    simp only at h
    split at h
    · rename_i hle
      cases h
      exact ⟨hd.1, List.all_eq_true.1 hd.2, rfl, hle⟩
    · cases h
  · cases h

theorem radixOf (h : Read base text n) : Ts.radixOf base = Go.radixOf base := by
  obtain ⟨hb, -⟩ := h
  simp only [List.mem_cons, List.not_mem_nil, or_false] at hb
  rcases hb with rfl | rfl | rfl | rfl | rfl | rfl <;> rfl

theorem parseInt (h : Read base text n) : parseInt text (Go.radixOf base) = .fin n := by
  obtain ⟨hne, hd, hn, hle⟩ := h.digits
  rw [parseInt_of_lt hd hne (by omega), hn]

/-- The other ports read the part as Go does. -/
theorem ts (h : Read base text n) : Ts.codePoint base text = .ok n := by
  obtain ⟨-, -, -, hle⟩ := h.digits
  rw [Ts.codePoint, h.radixOf, h.parseInt]
  exact if_pos hle

theorem rust (h : Read base text n) : Rust.code_point base text = (n, none) := by
  obtain ⟨-, -, -, hle⟩ := h.digits
  rw [Rust.code_point_eq, show Rust.radix_of base = Go.radixOf base from rfl, h.parseInt]
  exact if_pos hle

theorem isValidChar (h : Read base text n) (hs : partNamesSurrogate base text = false) : n.isValidChar := by
  obtain ⟨-, -, -, hle⟩ := h.digits
  refine isValidChar_iff.2 ⟨hle, ?_⟩
  rw [partNamesSurrogate, h.ts] at hs
  exact hs

/-- A part Go reads is digits. -/
theorem no_dash (h : Read base text n) : '-' ∉ text := by
  intro hm
  obtain ⟨-, hd, -⟩ := h.digits
  have hdash : isDigit (Go.radixOf base) '-' = false := by rfl
  rw [hd _ hm] at hdash
  cases hdash

end Read

/-- The base of a numeric value's source is one of the six. -/
theorem splitBase_base {src : Text} (h : isNumericSource src = true) :
    (splitBase src).1 ∈ ['x', 'd', 'b', 'X', 'D', 'B'] := by
  unfold isNumericSource at h
  split at h
  · exact of_decide_eq_true (Bool.and_eq_true_iff.1 h).1
  · cases h

/-- A body's first dash. -/
theorem dash_split {body : Text} (hm : '-' ∈ body) :
    '-' ∉ (Go.ends body).1 ∧ body = (Go.ends body).1 ++ '-' :: (Go.ends body).2 := by
  unfold Go.ends
  refine ⟨fun hc => by simpa using List.mem_takeWhile_imp hc, ?_⟩
  obtain ⟨c, hi, hdrop⟩ : ∃ c hi, body.dropWhile (· ≠ '-') = c :: hi := by
    refine List.exists_cons_of_ne_nil fun hnil => ?_
    simpa using List.dropWhile_eq_nil_iff.1 hnil _ hm
  have hc : c = '-' := by
    have hfirst := List.head?_dropWhile_not (· ≠ '-') body
    rw [hdrop] at hfirst
    simpa using hfirst
  subst hc
  simp only
  rw [hdrop, List.drop_one, List.tail_cons, ← hdrop, List.takeWhile_append_dropWhile]

/-- The parts of a body with a dash, by those of what stands after it. -/
theorem splitOn_dash {body : Text} (hm : '-' ∈ body) :
    body.splitOn '-' = (Go.ends body).1 :: (Go.ends body).2.splitOn '-' := by
  obtain ⟨hlo, hbody⟩ := dash_split hm
  calc body.splitOn '-' = ((Go.ends body).1 ++ '-' :: (Go.ends body).2).splitOn '-' := by rw [← hbody]
    _ = (Go.ends body).1.splitOn '-' ++ (Go.ends body).2.splitOn '-' := List.splitOn_append_cons_self _ _
    _ = (Go.ends body).1 :: (Go.ends body).2.splitOn '-' := by
        rw [List.splitOn_eq_singleton hlo]
        rfl

/-- The low end of a range is the same in every port. -/
theorem ends_fst {body : Text} (hm : '-' ∈ body) : (Ts.ends body).1 = (Go.ends body).1 := by
  rw [Ts.ends, splitOn_dash hm]
  rfl

/-- A body with one dash has the same ends in every port. -/
theorem ends_eq {body : Text} (hm : '-' ∈ body) (h : '-' ∉ (Go.ends body).2) : Ts.ends body = Go.ends body := by
  rw [Ts.ends, splitOn_dash hm, List.splitOn_eq_singleton h]
  rfl

section

variable {base : Char} {parts : List Text}

theorem codePoints_agree (hb : base ∈ ['x', 'd', 'b', 'X', 'D', 'B'])
    (h : ∀ part ∈ parts, (Go.codePoint base part).2 = none) :
    Ts.codePoints base parts = .ok (parts.map fun part => (Go.codePoint base part).1) ∧
      parts.map (Rust.code_point base) = parts.map (Go.codePoint base) := by
  induction parts with
  | nil => exact ⟨rfl, rfl⟩
  | cons part parts ih =>
    have hr : Read base part (Go.codePoint base part).1 :=
      ⟨hb, Prod.ext rfl (h part List.mem_cons_self)⟩
    obtain ⟨hts, hrust⟩ := ih fun p hp => h p (List.mem_cons_of_mem _ hp)
    constructor
    · rw [Ts.codePoints, hr.ts, hts]
      rfl
    · rw [List.map_cons, List.map_cons, hrust, hr.rust, hr.2]

end

/-- A value Go reads without a refusal, none of its terms naming a surrogate, is the same element in
every port. -/
theorem numeric_agrees {src : Text} (hsrc : isNumericSource src = true) (sp : Option Span)
    (hgo : (Go.parseNumericValue src sp).2 = none) (hs : namesSurrogate src = false) :
    Ts.parseNumericValue src sp = .ok (Go.parseNumericValue src sp).1.units ∧
      Rust.parse_numeric_value src sp = Go.parseNumericValue src sp := by
  have hb := splitBase_base hsrc
  revert hgo hs hb
  unfold Ts.parseNumericValue Go.parseNumericValue Rust.parse_numeric_value namesSurrogate
  obtain ⟨base, body⟩ := splitBase src
  intro hgo hs hb
  simp only at hgo hs hb ⊢
  -- a range reads its two ends, anything else its dotted parts
  by_cases hd : '-' ∈ body
  · simp only [if_pos hd] at hgo hs ⊢
    obtain ⟨hlo, hhi⟩ := Option.or_eq_none_iff.1 hgo
    obtain ⟨lo, rlo⟩ : ∃ lo, Read base (Go.ends body).1 lo := ⟨_, hb, Prod.ext rfl hlo⟩
    obtain ⟨hi, rhi⟩ : ∃ hi, Read base (Go.ends body).2 hi := ⟨_, hb, Prod.ext rfl hhi⟩
    have he := ends_eq hd rhi.no_dash
    have hrust : ((body.splitOn '-').getD 0 [], (body.splitOn '-').getD 1 []) = Go.ends body := he
    rw [Prod.ext_iff] at hrust
    simp only at hrust
    rw [he] at hs ⊢
    rw [hrust.1, hrust.2, rlo.ts, rhi.ts, rlo.rust, rhi.rust, rlo.2, rhi.2]
    rw [rlo.ts, rhi.ts] at hs
    refine ⟨?_, rfl⟩
    by_cases hends : lo = hi
    · subst hends
      have hvalid : lo.isValidChar := rlo.isValidChar (by simpa using hs)
      simp only [Except.bind, bind, if_true, NumericElement.units, Go.runeString, utf16_cons, utf16_nil,
        List.append_nil, charOr_toNat hvalid]
    · simp only [Except.bind, bind, if_neg hends, NumericElement.units]
  · simp only [if_neg hd] at hgo hs ⊢
    rw [List.findSome?_eq_none_iff] at hgo
    have hparts : ∀ part ∈ body.splitOn '.', (Go.codePoint base part).2 = none := fun part hp =>
      hgo _ (List.mem_map_of_mem hp)
    obtain ⟨hts, hrust⟩ := codePoints_agree hb hparts
    have hvalid : ∀ n ∈ (body.splitOn '.').map fun part => (Go.codePoint base part).1, n.isValidChar := by
      intro n hn
      obtain ⟨part, hp, rfl⟩ := List.mem_map.1 hn
      have hr : Read base part (Go.codePoint base part).1 := ⟨hb, Prod.ext rfl (hparts part hp)⟩
      exact hr.isValidChar (by simpa using List.any_eq_false.1 hs part hp)
    have hlit : ((body.splitOn '.').map (Go.codePoint base)).flatMap (fun p => Go.runeString p.1) =
        ((body.splitOn '.').map fun part => (Go.codePoint base part).1).map charOr := by
      rw [List.map_map, List.flatMap_map]
      exact List.map_eq_flatMap.symm
    have hunits : ((body.splitOn '.').map (Go.codePoint base)).flatMap (fun p => Rust.push_utf16 p.1) =
        utf16 (((body.splitOn '.').map fun part => (Go.codePoint base part).1).map charOr) := by
      rw [← flatMap_fromCodePoint hvalid, List.flatMap_map, List.flatMap_map, List.flatMap_def, List.flatMap_def]
      refine congrArg List.flatten (List.map_congr_left fun part hp => ?_)
      exact Rust.push_utf16_eq (isValidChar_iff.1 (hvalid _ (List.mem_map_of_mem hp))).1
    rw [hts, hrust, hlit, hunits, fromUtf16Lossy_utf16]
    refine ⟨?_, rfl⟩
    simp only [Except.bind, bind, NumericElement.units, flatMap_fromCodePoint hvalid]

example : Ts.parseNumericValue ['%', 'x', '6', '6', '.', '6', 'f'] none = .ok (.term [0x66, 0x6F] none) := by decide

end TabnasAbnf.Meta
