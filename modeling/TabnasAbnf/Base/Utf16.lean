/-
UTF-16: a JavaScript string is a list of code units, a text is a list of Unicode scalar values. A
code point past the basic plane takes a pair of surrogates; a surrogate alone is a unit no text has.
-/
import TabnasAbnf.Base.Number

namespace TabnasAbnf.Base

/-- A JavaScript string, as its code units. -/
abbrev Units := List Nat

/-- `String.fromCodePoint`. -/
def fromCodePoint (n : Nat) : Units :=
  if n < 0x10000 then [n] else [0xD800 + (n - 0x10000) / 0x400, 0xDC00 + (n - 0x10000) % 0x400]

/-- A text as a JavaScript string. -/
def utf16 (t : Text) : Units := t.flatMap fun c => fromCodePoint c.toNat

def isHigh (u : Nat) : Bool := decide (0xD800 ≤ u ∧ u < 0xDC00)

def isLow (u : Nat) : Bool := decide (0xDC00 ≤ u ∧ u < 0xE000)

/-- Whether a code point is a surrogate's, which no character has. -/
def isSurrogate (n : Nat) : Bool := decide (0xD800 ≤ n ∧ n < 0xE000)

/-- The character a code point names, U+FFFD where there is none. -/
def charOr (n : Nat) : Char := if n.isValidChar then Char.ofNat n else '\ufffd'

/-- `String::from_utf16_lossy`. -/
def fromUtf16Lossy : Units → Text
  | [] => []
  | u :: v :: us =>
    if isHigh u && isLow v then
      charOr (0x10000 + (u - 0xD800) * 0x400 + (v - 0xDC00)) :: fromUtf16Lossy us
    else charOr u :: fromUtf16Lossy (v :: us)
  | [u] => [charOr u]

theorem charOr_toNat {n : Nat} (h : n.isValidChar) : (charOr n).toNat = n := by
  rw [charOr, if_pos h, Char.ofNat, dif_pos h]
  rfl

theorem isValidChar_iff {n : Nat} : n.isValidChar ↔ n ≤ 0x10FFFF ∧ isSurrogate n = false := by
  simp only [Nat.isValidChar, isSurrogate, decide_eq_false_iff_not]
  omega

@[simp] theorem utf16_nil : utf16 [] = [] := rfl

@[simp] theorem utf16_cons (c : Char) (t : Text) : utf16 (c :: t) = fromCodePoint c.toNat ++ utf16 t := rfl

/-- A code point that is a character's decodes to it. -/
theorem fromUtf16Lossy_fromCodePoint {n : Nat} (h : n.isValidChar) (us : Units) :
    fromUtf16Lossy (fromCodePoint n ++ us) = charOr n :: fromUtf16Lossy us := by
  obtain ⟨hmax, hs⟩ := isValidChar_iff.1 h
  unfold fromCodePoint
  split
  · have hhigh : isHigh n = false := by
      simp only [isHigh, isSurrogate, decide_eq_false_iff_not] at hs ⊢
      omega
    cases us with
    | nil => rfl
    | cons v us => simp [fromUtf16Lossy, hhigh]
  · have hhigh : isHigh (0xD800 + (n - 0x10000) / 0x400) = true := by
      simp only [isHigh, decide_eq_true_eq]
      omega
    have hlow : isLow (0xDC00 + (n - 0x10000) % 0x400) = true := by
      simp only [isLow, decide_eq_true_eq]
      omega
    have hsum : 0x10000 + (0xD800 + (n - 0x10000) / 0x400 - 0xD800) * 0x400 +
        (0xDC00 + (n - 0x10000) % 0x400 - 0xDC00) = n := by omega
    rw [List.cons_append, List.cons_append, List.nil_append, fromUtf16Lossy, hhigh, hlow, hsum]
    rfl

/-- A text read back from its units. -/
theorem fromUtf16Lossy_utf16 (t : Text) : fromUtf16Lossy (utf16 t) = t := by
  induction t with
  | nil => rfl
  | cons c t ih =>
    have hc : c.toNat.isValidChar := c.valid
    rw [utf16_cons, fromUtf16Lossy_fromCodePoint hc, ih, charOr, if_pos hc, Char.ofNat_toNat]

/-- Code points that are characters' make the text of those characters. -/
theorem flatMap_fromCodePoint {ns : List Nat} (h : ∀ n ∈ ns, n.isValidChar) :
    ns.flatMap fromCodePoint = utf16 (ns.map charOr) := by
  induction ns with
  | nil => rfl
  | cons n ns ih =>
    rw [List.flatMap_cons, List.map_cons, utf16_cons, charOr_toNat (h n List.mem_cons_self),
      ih fun m hm => h m (List.mem_cons_of_mem _ hm)]

end TabnasAbnf.Base
