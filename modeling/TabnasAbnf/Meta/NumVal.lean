/-
RFC 5234's `num-val` against `parseNumericValue`. A value that is read is the one the grammar gives
it, and matches the same strings, where its parts are digits of its base alone and stand alone, on
both sides of one dash, or between dots; the token's pattern takes more, and of what it takes besides
some digits, some parts or some separators are passed over.
-/
import TabnasAbnf.Base.NumberText
import TabnasAbnf.Meta.Values

namespace TabnasAbnf.Meta

open TabnasAbnf.Base

/-! ## `num-val` -/

/-- What a numeric value stands for: characters in order, or any one of a range. -/
inductive NumVal
  | chars (values : List Nat)
  | range (lo hi : Nat)
  deriving DecidableEq, Repr

/-- The values the notation names. -/
def NumVal.values : NumVal → List Nat
  | .chars values => values
  | .range lo hi => [lo, hi]

/-- The strings a numeric value matches. -/
def NumVal.Matches : NumVal → Units → Prop
  | .chars values, s => s = values.flatMap fromCodePoint
  | .range lo hi, s => ∃ n, lo ≤ n ∧ n ≤ hi ∧ s = fromCodePoint n

/-- `1*BIT`, `1*DIGIT` or `1*HEXDIG`, by the base. -/
def isPart (base : Char) (part : Text) : Bool := !part.isEmpty && part.all (isDigit (Ts.radixOf base))

def partValue (base : Char) (part : Text) : Nat := ofDigits (Ts.radixOf base) part

/-- `num-val`: a part, a part and those that follow it each after a dot, or two parts and a dash. -/
def numVal (src : Text) : Option NumVal :=
  let (base, body) := splitBase src
  match body.splitOn '-' with
  | [dotted] =>
    if (dotted.splitOn '.').all (isPart base) then some (.chars ((dotted.splitOn '.').map (partValue base))) else none
  | [lo, hi] => if isPart base lo && isPart base hi then some (.range (partValue base lo) (partValue base hi)) else none
  | _ => none

/-- A value is refused, or stands for what its notation does: every value a code point's, and the
same strings matched. -/
def GivesNumVal (src : Text) (sp : Option Span) : Prop :=
  ∀ a, Ts.parseNumericValue src sp = .ok a →
    ∃ v, numVal src = some v ∧ (∀ n ∈ v.values, n ≤ 0x10FFFF) ∧
      ∀ s, (a.object Ts.patternOf).Matches s ↔ v.Matches s

/-! ## Hexadecimal digits -/

theorem ofDigits_replicate_zero (radix k : Nat) : ofDigits radix (List.replicate k '0') = 0 := by
  induction k with
  | zero => rfl
  | succ k ih =>
    rw [List.replicate_succ', ofDigits_append_eq, ih, Nat.zero_mul, Nat.zero_add]
    simp [ofDigits, digitVal]

/-- Padding leaves the digits of the number. -/
theorem hexDigits_spec (width n : Nat) :
    (hexDigits width n).all (isDigit 16) = true ∧ ofDigits 16 (hexDigits width n) = n ∧ hexDigits width n ≠ [] := by
  obtain ⟨hd, hn⟩ := @toDigits_spec 16 n (by decide) (by decide)
  unfold hexDigits
  refine ⟨?_, ?_, ?_⟩
  · rw [List.all_append, hd, Bool.and_true, List.all_eq_true]
    intro c hc
    rw [(List.mem_replicate.1 hc).2]
    rfl
  · rw [ofDigits_append_eq, ofDigits_replicate_zero, hn, Nat.zero_mul, Nat.zero_add]
  · exact fun h => Nat.toDigits_ne_nil (List.append_eq_nil_iff.1 h).2

theorem hexDigits_four {n : Nat} (h : n ≤ 0xFFFF) : (hexDigits 4 n).length = 4 := by
  have hlen : (Nat.toDigits 16 n).length ≤ 4 := (Nat.length_toDigits_le_iff (by omega) (by omega)).2 (by omega)
  rw [hexDigits, List.length_append, List.length_replicate]
  omega

/-! ## The pattern of a range -/

/-- A class of two escapes with a dash between them. -/
theorem jsClass_span {u : Bool} {e f : Text} {lo hi : Nat} (he : jsEscape u (e ++ ['-', '\\', 'u'] ++ f) =
      some (lo, ['-', '\\', 'u'] ++ f)) (hf : jsEscape u f = some (hi, [])) :
    jsClass u (['[', '\\', 'u'] ++ e ++ ['-', '\\', 'u'] ++ f ++ [']']) =
      if lo ≤ hi then some ⟨u, false, [(lo, hi)]⟩ else none := by
  have hpattern : ['[', '\\', 'u'] ++ e ++ ['-', '\\', 'u'] ++ f ++ [']'] =
      '[' :: (('\\' :: 'u' :: (e ++ ['-', '\\', 'u'] ++ f)) ++ [']']) := by simp
  have htokens : jsTokens u ('\\' :: 'u' :: (e ++ ['-', '\\', 'u'] ++ f)).length
      ('\\' :: 'u' :: (e ++ ['-', '\\', 'u'] ++ f)) = some [.cp lo, .dash, .cp hi] := by
    obtain ⟨k, hk⟩ : ∃ k, ('\\' :: 'u' :: (e ++ ['-', '\\', 'u'] ++ f)).length = k + 1 + 1 + 1 :=
      ⟨e.length + f.length + 2, by simp; omega⟩
    rw [hk, jsTokens_escape he, List.cons_append, jsTokens, List.cons_append, List.cons_append, List.nil_append,
      jsTokens_escape hf]
    cases k <;> rfl
  rw [hpattern, jsClass, if_neg (by simp), classBody_bracketed]
  have hhead : (('\\' :: 'u' :: (e ++ ['-', '\\', 'u'] ++ f)).head? == some '^') = false := rfl
  have hranges : jsRanges [.cp lo, .dash, .cp hi] = if lo ≤ hi then some [(lo, hi)] else none := rfl
  simp only [Option.bind_some, hhead, Bool.false_eq_true, if_false, htokens, hranges]
  by_cases hle : lo ≤ hi
  · rw [if_pos hle, if_pos hle]
    rfl
  · rw [if_neg hle, if_neg hle]
    rfl

/-- The pattern of a range matches the characters from its one end to the other. -/
theorem patternOf_matches {lo hi : Nat} (hlo : lo ≤ 0x10FFFF) (hhi : hi ≤ 0x10FFFF) (sp : Option Span) (s : Units) :
    (NumericObject.regex (Ts.patternOf lo hi).1 (Ts.patternOf lo hi).2 sp).Matches s ↔
      (NumVal.range lo hi).Matches s := by
  -- the pattern is read as the one span, in braces where an end is past the basic plane
  have hclass : jsClass ((Ts.patternOf lo hi).2 == ['u']) (Ts.patternOf lo hi).1 =
      if lo ≤ hi then some ⟨(Ts.patternOf lo hi).2 == ['u'], false, [(lo, hi)]⟩ else none := by
    unfold Ts.patternOf
    simp only
    by_cases ha : 0xFFFF < lo ∨ 0xFFFF < hi
    · obtain ⟨hd₁, hn₁, hne₁⟩ := hexDigits_spec 0 lo
      obtain ⟨hd₂, hn₂, hne₂⟩ := hexDigits_spec 0 hi
      have he := jsEscape_braced hd₁ hne₁ (by omega) (['-', '\\', 'u'] ++ '\x7b' :: (hexDigits 0 hi ++ ['\x7d']))
      have hf := jsEscape_braced hd₂ hne₂ (by omega) []
      rw [hn₁] at he
      rw [hn₂] at hf
      have hspan := jsClass_span (u := true) (e := '\x7b' :: (hexDigits 0 lo ++ ['\x7d']))
        (f := '\x7b' :: (hexDigits 0 hi ++ ['\x7d'])) (by simpa using he) hf
      simpa [Ts.toEsc, ha] using hspan
    · have he := jsEscape_four (hexDigits_spec 4 lo).1 (hexDigits_four (by omega)) (['-', '\\', 'u'] ++ hexDigits 4 hi)
      have hf := jsEscape_four (hexDigits_spec 4 hi).1 (hexDigits_four (by omega)) []
      rw [(hexDigits_spec 4 lo).2.1] at he
      rw [(hexDigits_spec 4 hi).2.1, List.append_nil] at hf
      have hspan := jsClass_span (u := false) (e := hexDigits 4 lo) (f := hexDigits 4 hi) (by simpa using he) hf
      simpa [Ts.toEsc, ha] using hspan
  have htop : hi ≤ JsClass.top ⟨(Ts.patternOf lo hi).2 == ['u'], false, [(lo, hi)]⟩ := by
    unfold JsClass.top Ts.patternOf
    simp only
    by_cases ha : 0xFFFF < lo ∨ 0xFFFF < hi
    · simpa [ha] using hhi
    · simp [ha]
      omega
  unfold NumericObject.Matches NumVal.Matches
  simp only
  rw [hclass]
  constructor
  · rintro ⟨c, hc, n, ⟨-, hn⟩, rfl⟩
    split at hc
    · cases hc
      simp only [List.any_cons, List.any_nil, Bool.or_false, Bool.not_false, decide_eq_true_eq] at hn
      exact ⟨n, hn.1, hn.2, rfl⟩
    · cases hc
  · rintro ⟨n, hn₁, hn₂, rfl⟩
    rw [if_pos (le_trans hn₁ hn₂)]
    refine ⟨_, rfl, n, ⟨le_trans hn₂ htop, ?_⟩, rfl⟩
    simp [hn₁, hn₂]

/-! ## What is read -/

section

variable {base : Char} {part : Text}

/-- A part that is digits is read whole. -/
theorem valueRead_part (h : isPart base part = true) : valueRead base part = partValue base part := by
  rw [isPart, Bool.and_eq_true, List.all_eq_true] at h
  rw [valueRead, digitsRead, List.takeWhile_eq_self_iff.2 h.2]
  rfl

theorem readable_le (h : unreadable base part = false) (hp : isPart base part = true) :
    partValue base part ≤ 0x10FFFF := by
  rw [← valueRead_part hp]
  exact valueRead_le h

end

/-- A text that a character cuts into one piece is that piece, and does not hold it. -/
theorem splitOn_singleton {c : Char} {s t : Text} (h : s.splitOn c = [t]) : t = s ∧ c ∉ s := by
  have hjoin : [c].intercalate (s.splitOn c) = s := List.intercalate_splitOn c
  rw [h] at hjoin
  refine ⟨by simpa [List.intercalate] using hjoin, fun hm => ?_⟩
  obtain ⟨pre, post, hcut⟩ := List.append_of_mem hm
  have hlen := congrArg List.length h
  rw [hcut, List.splitOn_append_cons_self, List.length_append, List.length_singleton] at hlen
  have hpre := List.length_pos_iff.2 (List.splitOn_ne_nil c pre)
  have hpost := List.length_pos_iff.2 (List.splitOn_ne_nil c post)
  omega

/-- A value of `num-val` that is read stands for what its notation does. -/
theorem elementRead_gives {src : Text} {v : NumVal} (hv : numVal src = some v)
    (hread : ∀ part ∈ partsRead (splitBase src).2, unreadable (splitBase src).1 part = false) (sp : Option Span) :
    (∀ n ∈ v.values, n ≤ 0x10FFFF) ∧ ∀ s,
      ((elementRead (splitBase src).1 (splitBase src).2 sp).object Ts.patternOf).Matches s ↔ v.Matches s := by
  revert hv hread
  unfold numVal elementRead partsRead
  obtain ⟨base, body⟩ := splitBase src
  simp only
  intro hv hread
  split at hv
  · -- no dash: the dotted parts are the body's own
    rename_i dotted hsplit
    obtain ⟨rfl, hdash⟩ := splitOn_singleton hsplit
    split at hv
    · rename_i hall
      rw [if_neg hdash] at hread ⊢
      cases hv
      rw [List.all_eq_true] at hall
      constructor
      · intro n hn
        obtain ⟨part, hp, rfl⟩ := List.mem_map.1 hn
        exact readable_le (hread part hp) (hall part hp)
      · intro s
        rw [List.map_congr_left fun part hp => valueRead_part (hall part hp)]
        exact Iff.rfl
    · cases hv
  · -- one dash: the two ends are all of the body
    rename_i lo hi hsplit
    have hdash : '-' ∈ body := by
      by_contra hm
      rw [List.splitOn_eq_singleton hm] at hsplit
      cases hsplit
    have hends : Ts.ends body = (lo, hi) := by
      rw [Ts.ends, hsplit]
      rfl
    split at hv
    · rename_i hall
      rw [if_pos hdash, hends] at hread ⊢
      cases hv
      rw [Bool.and_eq_true] at hall
      obtain ⟨hlo, hhi⟩ := hall
      have rlo := readable_le (hread lo List.mem_cons_self) hlo
      have rhi := readable_le (hread hi (List.mem_cons_of_mem _ List.mem_cons_self)) hhi
      constructor
      · intro n hn
        rcases List.mem_cons.1 hn with rfl | hn
        · exact rlo
        · rw [List.mem_singleton.1 hn]
          exact rhi
      · intro s
        simp only [valueRead_part hlo, valueRead_part hhi]
        by_cases heq : partValue base lo = partValue base hi
        · rw [if_pos heq, ← heq]
          constructor
          · rintro rfl
            exact ⟨_, le_rfl, le_rfl, rfl⟩
          · rintro ⟨n, h₁, h₂, rfl⟩
            rw [show n = partValue base lo by omega]
            rfl
        · rw [if_neg heq]
          exact patternOf_matches rlo rhi sp s
    · cases hv
  · cases hv

/-- A value is refused or read as RFC 5234 has it exactly where it is a `num-val`, or a part that is
read names no code point. -/
theorem givesNumVal_iff (src : NumericSource) (sp : Option Span) :
    GivesNumVal src.1 sp ↔ (numVal src.1).isSome = true ∨
      ∃ part ∈ partsRead (splitBase src.1).2, unreadable (splitBase src.1).1 part = true := by
  unfold GivesNumVal
  rw [Ts.parseNumericValue_eq]
  cases hfind : (partsRead (splitBase src.1).2).find? (unreadable (splitBase src.1).1) with
  | some part =>
    simp only
    constructor
    · exact fun _ => .inr ⟨part, List.mem_of_find?_eq_some hfind, List.find?_some hfind⟩
    · intro _ a ha
      cases ha
  | none =>
    simp only
    have hread : ∀ part ∈ partsRead (splitBase src.1).2, unreadable (splitBase src.1).1 part = false := by
      intro part hp
      simpa using List.find?_eq_none.1 hfind part hp
    constructor
    · intro h
      obtain ⟨v, hv, -⟩ := h _ rfl
      exact .inl (Option.isSome_iff_exists.2 ⟨v, hv⟩)
    · rintro (h | ⟨part, hp, hu⟩)
      · obtain ⟨v, hv⟩ := Option.isSome_iff_exists.1 h
        intro a ha
        cases ha
        exact ⟨v, hv, elementRead_gives hv hread sp⟩
      · rw [hread part hp] at hu
        cases hu

/-- `%d5A` is read as `%d5`: the digit that is not the base's is passed over. -/
theorem not_givesNumVal_invalid :
    isNumericSource ['%', 'd', '5', 'A'] = true ∧ ¬ GivesNumVal ['%', 'd', '5', 'A'] none := by
  refine ⟨by decide, fun h => ?_⟩
  obtain ⟨v, hv, -⟩ := h (.term [5] none) (by decide)
  cases hv

end TabnasAbnf.Meta
