/-
The text operations the renderer is written in: `split` at a text's places, `string-join`,
`chars-within`, and the prefix and suffix tests it makes of them. Texts are lists of characters.
-/
import TabnasAbnf.Base.Utf16
import Mathlib.Data.List.Basic

namespace TabnasAbnf.Render

open TabnasAbnf.Base

/-! ## Splitting and joining -/

/-- `split`, with the characters still to skip of a separator found. -/
def splitFrom (sep : Text) : Nat → Text → List Text
  | _, [] => [[]]
  | skip + 1, _ :: s => splitFrom sep skip s
  | 0, c :: s =>
    if sep.isPrefixOf (c :: s) then [] :: splitFrom sep (sep.length - 1) s
    else (splitFrom sep 0 s).modifyHead (c :: ·)

/-- The pieces of a text between the places a separator stands, from the left. -/
def split (sep s : Text) : List Text := splitFrom sep 0 s

/-- `string-join`. -/
def stringJoin (sep : Text) (ss : List Text) : Text := sep.intercalate ss

theorem splitFrom_ne_nil (sep : Text) (skip : Nat) (s : Text) : splitFrom sep skip s ≠ [] := by
  induction s generalizing skip with
  | nil => cases skip <;> exact List.cons_ne_nil _ _
  | cons c s ih =>
    cases skip with
    | succ skip => exact ih skip
    | zero =>
      rw [splitFrom]
      split
      · exact List.cons_ne_nil _ _
      · intro h
        cases hs : splitFrom sep 0 s with
        | nil => exact ih 0 hs
        | cons p ps => rw [hs] at h; cases h

theorem split_ne_nil (sep s : Text) : split sep s ≠ [] := splitFrom_ne_nil sep 0 s

theorem stringJoin_modifyHead (sep : Text) (c : Char) {ps : List Text} (h : ps ≠ []) :
    stringJoin sep (ps.modifyHead (c :: ·)) = c :: stringJoin sep ps := by
  obtain _ | ⟨p, ps⟩ := ps
  · exact absurd rfl h
  · exact List.intercalate_cons_cons_left

theorem stringJoin_cons (sep s : Text) {ss : List Text} (h : ss ≠ []) :
    stringJoin sep (s :: ss) = s ++ sep ++ stringJoin sep ss := List.intercalate_cons_of_ne_nil h

theorem stringJoin_concat (sep s : Text) {ss : List Text} (h : ss ≠ []) :
    stringJoin sep (ss ++ [s]) = stringJoin sep ss ++ sep ++ s := by
  induction ss with
  | nil => exact absurd rfl h
  | cons t ss ih =>
    by_cases hs : ss = []
    · subst hs
      simp [stringJoin]
    · rw [List.cons_append, stringJoin_cons _ _ (by simp), ih hs, stringJoin_cons _ _ hs]
      simp only [List.append_assoc]

theorem join_splitFrom {sep : Text} (hsep : sep ≠ []) (skip : Nat) (s : Text) :
    stringJoin sep (splitFrom sep skip s) = s.drop skip := by
  induction s generalizing skip with
  | nil => cases skip <;> rfl
  | cons c s ih =>
    cases skip with
    | succ skip => exact ih skip
    | zero =>
      rw [splitFrom]
      split
      · rename_i hp
        obtain ⟨rest, hrest⟩ := List.isPrefixOf_iff_prefix.1 hp
        obtain _ | ⟨d, sep⟩ := sep
        · exact absurd rfl hsep
        rw [List.cons_append] at hrest
        cases hrest
        rw [stringJoin_cons _ _ (splitFrom_ne_nil _ _ _), ih]
        simp
      · rw [stringJoin_modifyHead _ _ (splitFrom_ne_nil _ _ _), ih]
        rfl

/-- The pieces of a text joined make the text. -/
theorem join_split {sep : Text} (hsep : sep ≠ []) (s : Text) : stringJoin sep (split sep s) = s :=
  join_splitFrom hsep 0 s

/-- Joined texts that are not empty and do not hold the separator can be told apart. -/
theorem stringJoin_nonempty_injective {c : Char} {xs ys : List Text} (hx : ∀ x ∈ xs, x ≠ [] ∧ c ∉ x)
    (hy : ∀ y ∈ ys, y ≠ [] ∧ c ∉ y) (h : stringJoin [c] xs = stringJoin [c] ys) : xs = ys := by
  have hnil : ∀ {zs : List Text}, (∀ z ∈ zs, z ≠ [] ∧ c ∉ z) → stringJoin [c] zs = [] → zs = [] := by
    intro zs hz hjoin
    rcases zs with _ | ⟨z, zs⟩
    · rfl
    · by_cases hzs : zs = []
      · subst hzs
        exact absurd (by simpa [stringJoin] using hjoin) (hz z List.mem_cons_self).1
      · rw [stringJoin_cons _ _ hzs] at hjoin
        simp at hjoin
  rcases xs with _ | ⟨x, xs⟩
  · exact (hnil hy h.symm).symm
  · by_cases hys : ys = []
    · subst hys
      exact hnil hx h
    · rw [← List.splitOn_intercalate c (fun x hx' => (hx x hx').2) (List.cons_ne_nil _ _),
        ← List.splitOn_intercalate c (fun y hy' => (hy y hy').2) hys]
      exact congrArg _ h

/-- Splitting at a character is `List.splitOn`. -/
theorem split_char (c : Char) (s : Text) : split [c] s = s.splitOn c := by
  unfold split
  induction s with
  | nil => rfl
  | cons d s ih =>
    rw [splitFrom, List.splitOn_cons_eq_if_modifyHead, ih]
    by_cases h : d = c
    · subst h
      simp [List.isPrefixOf, ih]
    · simp [List.isPrefixOf, h, Ne.symm h]

/-- A text before the first place of a separator is the first piece. -/
theorem split_append_cons {c : Char} {sep a : Text} (ha : c ∉ a) (s : Text) :
    split (c :: sep) (a ++ c :: (sep ++ s)) = a :: split (c :: sep) s := by
  unfold split
  induction a with
  | nil =>
    have hdrop : ∀ (n : Text), splitFrom (c :: sep) n.length (n ++ s) = splitFrom (c :: sep) 0 s := by
      intro n
      induction n with
      | nil => rfl
      | cons d n ih => exact ih
    have hp : (c :: sep).isPrefixOf (c :: (sep ++ s)) = true := List.isPrefixOf_iff_prefix.2 ⟨s, rfl⟩
    rw [List.nil_append, splitFrom, if_pos hp]
    exact congrArg _ (hdrop sep)
  | cons d a ih =>
    have hd : d ≠ c := fun h => ha (h ▸ List.mem_cons_self)
    have hp : (c :: sep).isPrefixOf (d :: (a ++ c :: (sep ++ s))) = false := by
      simp [List.isPrefixOf, Ne.symm hd]
    rw [List.cons_append, splitFrom, hp, if_neg Bool.false_ne_true, ih fun h => ha (List.mem_cons_of_mem _ h)]
    rfl

theorem split_append_char {c : Char} {a : Text} (ha : c ∉ a) (s : Text) : split [c] (a ++ c :: s) = a :: split [c] s :=
  split_append_cons ha s

/-- A text without a separator's first character is one piece. -/
theorem split_eq_singleton {c : Char} {sep s : Text} (h : c ∉ s) : split (c :: sep) s = [s] := by
  unfold split
  induction s with
  | nil => rfl
  | cons d s ih =>
    have hd : d ≠ c := fun hd => h (hd ▸ List.mem_cons_self)
    have hp : (c :: sep).isPrefixOf (d :: s) = false := by simp [List.isPrefixOf, Ne.symm hd]
    rw [splitFrom, hp, if_neg Bool.false_ne_true, ih fun h' => h (List.mem_cons_of_mem _ h')]
    rfl

/-! ## Tests -/

/-- `chars-within`: every character of the text is in one of the ranges. -/
def charsWithin (ranges : List (Nat × Nat)) (s : Text) : Bool :=
  s.all fun c => ranges.any fun r => decide (r.1 ≤ c.toNat ∧ c.toNat ≤ r.2)

/-- Whether a text begins with another, not empty. -/
def abnfStarts (p s : Text) : Bool := !s.isEmpty && ((split p s).headD []).isEmpty

/-- Whether a text ends with another, not empty. -/
def abnfEnds (p s : Text) : Bool := !s.isEmpty && ((split p s).getLastD []).isEmpty

/-- What stands after the first of a text's places. -/
def abnfAfter (p s : Text) : Text := stringJoin p (split p s).tail

/-- What stands before the last of a text's places. -/
def abnfBefore (p s : Text) : Text := stringJoin p (split p s).dropLast

/-- A text that begins with a separator has an empty first piece. -/
theorem split_before {sep : Text} (hsep : sep ≠ []) (s : Text) : split sep (sep ++ s) = [] :: split sep s := by
  obtain ⟨c, sep, rfl⟩ := List.exists_cons_of_ne_nil hsep
  exact split_append_cons List.not_mem_nil s

section

variable {c d x : Char} {s : Text}

theorem split_cons_ne {sep : Text} (h : x ≠ c) :
    split (c :: sep) (x :: s) = (split (c :: sep) s).modifyHead (x :: ·) := by
  have hp : (c :: sep).isPrefixOf (x :: s) = false := by simp [List.isPrefixOf, Ne.symm h]
  rw [split, splitFrom, hp, if_neg Bool.false_ne_true]
  rfl

/-- A text is cut at a pair of characters where both stand. -/
theorem split_cons_cons (h : x ≠ d) : split [c, d] (c :: x :: s) = (split [c, d] (x :: s)).modifyHead (c :: ·) := by
  have hp : [c, d].isPrefixOf (c :: x :: s) = false := by simp [List.isPrefixOf, Ne.symm h]
  rw [split, splitFrom, hp, if_neg Bool.false_ne_true]
  rfl

theorem split_last : split [c, d] [c] = [[c]] := by
  have hp : [c, d].isPrefixOf [c] = false := by simp [List.isPrefixOf]
  rw [split, splitFrom, hp, if_neg Bool.false_ne_true]
  rfl

/-- A text with each place of a pair taken out. -/
theorem join_split_pair : stringJoin [] (split [c, d] (c :: d :: s)) = stringJoin [] (split [c, d] s) := by
  rw [show c :: d :: s = [c, d] ++ s from rfl, split_before (List.cons_ne_nil _ _),
    stringJoin_cons _ _ (split_ne_nil _ _)]
  rfl

/-- A text before the first place of a pair is the first piece, where it has none of the pair's second
character. -/
theorem split_append_pair {a : Text} (h : d ∉ a) (hcd : c ≠ d) :
    split [c, d] (a ++ c :: d :: s) = a :: split [c, d] s := by
  induction a with
  | nil => exact split_before (List.cons_ne_nil c [d]) s
  | cons x a ih =>
    have ih := ih fun h' => h (List.mem_cons_of_mem _ h')
    have hcons : split [c, d] (x :: (a ++ c :: d :: s)) = (split [c, d] (a ++ c :: d :: s)).modifyHead (x :: ·) := by
      by_cases hx : x = c
      · subst hx
        rcases a with _ | ⟨y, a⟩
        · exact split_cons_cons hcd
        · exact split_cons_cons fun hy => h (hy ▸ List.mem_cons_of_mem _ List.mem_cons_self)
      · exact split_cons_ne hx
    rw [List.cons_append, hcons, ih]
    rfl

theorem split_pair_eq_singleton (h : d ∉ s) : split [c, d] s = [s] := by
  induction s with
  | nil => rfl
  | cons x s ih =>
    have ih := ih fun h' => h (List.mem_cons_of_mem _ h')
    by_cases hx : x = c
    · subst hx
      rcases s with _ | ⟨y, s⟩
      · exact split_last
      · have hy : y ≠ d := fun hy => h (hy ▸ List.mem_cons_of_mem _ List.mem_cons_self)
        rw [split_cons_cons hy, ih]
        rfl
    · rw [split_cons_ne hx, ih]
      rfl

end

theorem abnfStarts_iff {p s : Text} (hp : p ≠ []) : abnfStarts p s = true ↔ p <+: s := by
  constructor
  · intro h
    unfold abnfStarts at h
    rcases s with _ | ⟨d, s⟩
    · cases h
    · unfold split at h
      rw [splitFrom] at h
      split at h
      · rename_i hprefix
        exact List.isPrefixOf_iff_prefix.1 hprefix
      · -- the first piece holds the text's first character
        obtain ⟨q, qs, hq⟩ := List.exists_cons_of_ne_nil (splitFrom_ne_nil p 0 s)
        rw [hq] at h
        cases h
  · rintro ⟨t, rfl⟩
    unfold abnfStarts
    rw [split_before hp]
    obtain ⟨c, p, rfl⟩ := List.exists_cons_of_ne_nil hp
    rfl

theorem abnfAfter_append {p : Text} (hp : p ≠ []) (s : Text) : abnfAfter p (p ++ s) = s := by
  unfold abnfAfter
  rw [split_before hp, List.tail_cons, join_split hp]

theorem split_concat (c : Char) (t : Text) : split [c] (t ++ [c]) = split [c] t ++ [[]] := by
  rw [split_char, split_char, List.splitOn_append_cons_self, List.splitOn_nil]

theorem abnfEnds_iff {c : Char} {s : Text} : abnfEnds [c] s = true ↔ ∃ t, s = t ++ [c] := by
  constructor
  · intro h
    unfold abnfEnds at h
    rw [Bool.and_eq_true, Bool.not_eq_true', List.isEmpty_eq_false_iff, List.isEmpty_iff] at h
    have hjoin := join_split (List.cons_ne_nil c []) s
    rcases List.eq_nil_or_concat (split [c] s) with hs | ⟨ps, p, hs⟩
    · exact absurd hs (split_ne_nil _ _)
    · rw [List.concat_eq_append] at hs
      rw [hs, List.getLastD_concat] at h
      rw [hs, h.2] at hjoin
      rcases List.eq_nil_or_concat ps with rfl | ⟨ps', q, rfl⟩
      · exact absurd hjoin.symm h.1
      · refine ⟨stringJoin [c] (ps'.concat q), ?_⟩
        rw [← hjoin]
        rw [List.concat_eq_append, stringJoin_concat _ _ (List.append_ne_nil_of_right_ne_nil _ (List.cons_ne_nil q []))]
        simp
  · rintro ⟨t, rfl⟩
    unfold abnfEnds
    rw [split_concat, List.getLastD_concat]
    simp

theorem abnfBefore_append {c : Char} {s : Text} (hs : c ∉ s) (t : Text) : abnfBefore [c] (t ++ c :: s) = t := by
  unfold abnfBefore
  rw [split_char, List.splitOn_append_cons_self, ← split_char, ← split_char, split_eq_singleton hs,
    List.dropLast_concat,
    join_split (List.cons_ne_nil _ _)]

theorem abnfBefore_concat (c : Char) (t : Text) : abnfBefore [c] (t ++ [c]) = t := abnfBefore_append List.not_mem_nil t

/-- A text without a character. -/
theorem join_split_nil (c : Char) (s : Text) : stringJoin [] (split [c] s) = s.filter (· ≠ c) := by
  rw [split_char]
  induction s with
  | nil => rfl
  | cons x s ih =>
    rw [List.splitOn_cons_eq_if_modifyHead]
    by_cases h : x = c
    · rw [if_pos (beq_iff_eq.2 h), stringJoin_cons _ _ (List.splitOn_ne_nil c s), ih]
      simp [h]
    · rw [if_neg (by simpa using h), stringJoin_modifyHead _ _ (List.splitOn_ne_nil c s), ih]
      simp [h]

/-- A text is cut by a character where it holds it. -/
theorem tail_split_isEmpty (c : Char) (s : Text) : (split [c] s).tail.isEmpty = !decide (c ∈ s) := by
  rw [split_char]
  induction s with
  | nil => rfl
  | cons x s ih =>
    rw [List.splitOn_cons_eq_if_modifyHead]
    by_cases h : x = c
    · rw [if_pos (beq_iff_eq.2 h)]
      simp [h]
    · rw [if_neg (by simpa using h), List.tail_modifyHead, ih]
      simp [Ne.symm h]

/-- A piece of a text cut at a character holds the text's characters but that one. -/
theorem mem_piece {c : Char} {s piece : Text} (h : piece ∈ split [c] s) : ∀ x ∈ piece, x ∈ s ∧ x ≠ c := by
  rw [split_char] at h
  induction s generalizing piece with
  | nil =>
    rw [List.splitOn_nil, List.mem_singleton] at h
    simp [h]
  | cons y s ih =>
    rw [List.splitOn_cons_eq_if_modifyHead] at h
    have hrest : ∀ q ∈ s.splitOn c, ∀ x ∈ q, x ∈ y :: s ∧ x ≠ c := fun q hq x hx =>
      ⟨List.mem_cons_of_mem _ (ih hq x hx).1, (ih hq x hx).2⟩
    split at h
    · rcases List.mem_cons.1 h with rfl | h
      · simp
      · exact hrest piece h
    · rename_i hy
      obtain ⟨q, qs, hq⟩ := List.exists_cons_of_ne_nil (List.splitOn_ne_nil c s)
      rw [hq] at h hrest
      rcases List.mem_cons.1 h with rfl | h
      · intro x hx
        rcases List.mem_cons.1 hx with rfl | hx
        · exact ⟨List.mem_cons_self, by simpa using hy⟩
        · exact hrest q List.mem_cons_self x hx
      · exact hrest piece (List.mem_cons_of_mem _ h)

/-! ## Hexadecimal digits -/

/-- A text with each of a character put in another's place. -/
def swapChar (c d : Char) (s : Text) : Text := stringJoin [d] (split [c] s)

theorem swapChar_eq (c d : Char) (s : Text) : swapChar c d s = s.map fun x => if x = c then d else x := by
  unfold swapChar
  rw [split_char]
  induction s with
  | nil => rfl
  | cons x s ih =>
    rw [List.splitOn_cons_eq_if_modifyHead]
    split
    · rename_i h
      rw [stringJoin_cons _ _ (List.splitOn_ne_nil c s), ih]
      simp [beq_iff_eq.1 h]
    · rename_i h
      rw [stringJoin_modifyHead _ _ (List.splitOn_ne_nil c s), ih]
      simp [show x ≠ c by simpa using h]

def abnfHexLower (h : Text) : Text :=
  swapChar 'A' 'a' (swapChar 'B' 'b' (swapChar 'C' 'c' (swapChar 'D' 'd' (swapChar 'E' 'e' (swapChar 'F' 'f' h)))))

def abnfHexUpper (h : Text) : Text :=
  swapChar 'a' 'A' (swapChar 'b' 'B' (swapChar 'c' 'C' (swapChar 'd' 'D' (swapChar 'e' 'E' (swapChar 'f' 'F' h)))))

theorem swapChar_digits {c d : Char} (h : digitVal d = digitVal c) (s : Text) :
    (swapChar c d s).map digitVal = s.map digitVal := by
  rw [swapChar_eq, List.map_map]
  refine List.map_congr_left fun x _ => ?_
  by_cases hx : x = c
  · simp [hx, h]
  · simp [hx]

/-- The case of a digit is nothing to its value. -/
theorem abnfHexLower_digits (h : Text) : (abnfHexLower h).map digitVal = h.map digitVal := by
  unfold abnfHexLower
  iterate 6 rw [swapChar_digits (by decide)]

theorem abnfHexUpper_digits (h : Text) : (abnfHexUpper h).map digitVal = h.map digitVal := by
  unfold abnfHexUpper
  iterate 6 rw [swapChar_digits (by decide)]

theorem abnfHexUpper_length (h : Text) : (abnfHexUpper h).length = h.length := by
  rw [← List.length_map digitVal, abnfHexUpper_digits, List.length_map]

theorem abnfHexUpper_append (s t : Text) : abnfHexUpper (s ++ t) = abnfHexUpper s ++ abnfHexUpper t := by
  simp only [abnfHexUpper, swapChar_eq, List.map_append]

/-- What `unquoted` reads of `"\uXXXX..."`: the character four digits are, and what follows them. -/
def unquotedEscape (h : Text) : Text := charOr (ofDigits 16 (h.take 4)) :: h.drop 4

theorem unquotedEscape_eq {h : Text} (hlen : h.length ≤ 4) : unquotedEscape h = [charOr (ofDigits 16 h)] := by
  unfold unquotedEscape
  rw [List.take_of_length_le hlen, List.drop_of_length_le hlen]

theorem abnfHexLower_length (h : Text) : (abnfHexLower h).length = h.length := by
  rw [← List.length_map digitVal, abnfHexLower_digits, List.length_map]

end TabnasAbnf.Render
