/-
The three bytes of a code point's digits: where `abnf-cp` finds them, and that the order of the bytes is
the order of the code points.
-/
import TabnasAbnf.Base.RankSort
import TabnasAbnf.Meta.Lexer
import TabnasAbnf.Render.Token

namespace TabnasAbnf.Render

open TabnasAbnf.Base TabnasAbnf.Meta

/-! ## The value of three bytes -/

def abnfCpOrder (a b : Cp) : Ordering :=
  match compare a.high b.high with
  | .eq =>
    match compare a.mid b.mid with
    | .eq => compare a.low b.low
    | other => other
  | other => other

/-- The code point three bytes are. -/
def Cp.value (c : Cp) : Nat := c.high * 0x10000 + c.mid * 0x100 + c.low

/-- The bytes of a code point. -/
def cpOf (n : Nat) : Cp := ⟨n / 0x10000, n / 0x100 % 0x100, n % 0x100⟩

/-- Three numbers of which the lower two are bytes. -/
structure Cp.Bytes (c : Cp) : Prop where
  mid : c.mid < 256
  low : c.low < 256

theorem cpOf_bytes (n : Nat) : (cpOf n).Bytes := ⟨Nat.mod_lt _ (by decide), Nat.mod_lt _ (by decide)⟩

theorem cpOf_value (n : Nat) : (cpOf n).value = n := by
  simp only [Cp.value, cpOf]
  omega

theorem Cp.Bytes.eq_cpOf {c : Cp} (h : c.Bytes) : c = cpOf c.value := by
  obtain ⟨a, b, d⟩ := c
  have hb := h.mid
  have hd := h.low
  simp only at hb hd
  simp only [cpOf, Cp.value, Cp.mk.injEq]
  refine ⟨?_, ?_, ?_⟩ <;> omega

/-- The bytes are compared from the highest. -/
theorem abnfCpBefore_eq (a b : Cp) : abnfCpBefore a b = (abnfCpOrder a b == .lt) := by
  rw [Bool.eq_iff_iff, beq_iff_eq]
  simp only [abnfCpBefore, Bool.or_eq_true, Bool.and_eq_true, decide_eq_true_eq, beq_iff_eq, abnfCpOrder]
  rcases lt_trichotomy a.high b.high with h | h | h
  · simp [h, compare_lt_iff_lt.2 h]
  · rcases lt_trichotomy a.mid b.mid with h' | h' | h'
    · simp [h, h', compare_lt_iff_lt.2 h']
    · simp [h, h', compare_lt_iff_lt]
    · simp [h, compare_gt_iff_gt.2 h', Nat.lt_asymm h', (Nat.ne_of_lt h').symm]
  · simp [compare_gt_iff_gt.2 h, Nat.lt_asymm h, (Nat.ne_of_lt h).symm]

/-- The order of the bytes is the order of the code points. -/
theorem abnfCpOrder_eq {a b : Cp} (ha : a.Bytes) (hb : b.Bytes) : abnfCpOrder a b = compare a.value b.value := by
  have hamid := ha.mid
  have halow := ha.low
  have hbmid := hb.mid
  have hblow := hb.low
  simp only [abnfCpOrder, Cp.value]
  rcases lt_trichotomy a.high b.high with h | h | h
  · rw [compare_lt_iff_lt.2 h]
    exact (compare_lt_iff_lt.2 (by omega)).symm
  · rw [compare_eq_iff_eq.2 h]
    rcases lt_trichotomy a.mid b.mid with h' | h' | h'
    · rw [compare_lt_iff_lt.2 h']
      exact (compare_lt_iff_lt.2 (by omega)).symm
    · rw [compare_eq_iff_eq.2 h', h, h']
      rcases lt_trichotomy a.low b.low with hl | hl | hl
      · rw [compare_lt_iff_lt.2 hl]
        exact (compare_lt_iff_lt.2 (by omega)).symm
      · rw [compare_eq_iff_eq.2 hl, hl, compare_eq_iff_eq.2 rfl]
      · rw [compare_gt_iff_gt.2 hl]
        exact (compare_gt_iff_gt.2 (by omega)).symm
    · rw [compare_gt_iff_gt.2 h']
      exact (compare_gt_iff_gt.2 (by omega)).symm
  · rw [compare_gt_iff_gt.2 h]
    exact (compare_gt_iff_gt.2 (by omega)).symm

theorem abnfCpBefore_iff {a b : Cp} (ha : a.Bytes) (hb : b.Bytes) : abnfCpBefore a b = true ↔ a.value < b.value := by
  rw [abnfCpBefore_eq, abnfCpOrder_eq ha hb, beq_iff_eq, compare_lt_iff_lt]

/-! ## Digits in capitals -/

/-- The digits of the table of pairs. -/
abbrev IsUpper (c : Char) : Prop := [c] ∈ abnfHexDigits

theorem upper_of_ascii : (List.range 128).all (fun n =>
    !isDigit 16 (Char.ofNat n) || (abnfHexUpper [Char.ofNat n]).all fun c => decide ([c] ∈ abnfHexDigits)) = true := by
  decide +kernel

theorem isDigit_lt {c : Char} (h : isDigit 16 c = true) : c.toNat < 128 := by
  have h9 : ('9' : Char).toNat = 57 := rfl
  have hz : ('z' : Char).toNat = 122 := rfl
  have hZ : ('Z' : Char).toNat = 90 := rfl
  unfold isDigit digitVal at h
  simp only [char_le] at h
  split_ifs at h
  · omega
  · omega
  · omega
  · cases h

/-- Hexadecimal digits in capitals are those of the table. -/
theorem abnfHexUpper_upper {h : Text} (hd : h.all (isDigit 16) = true) : ∀ c ∈ abnfHexUpper h, IsUpper c := by
  induction h with
  | nil => intro c hc; cases hc
  | cons d h ih =>
    rw [List.all_cons, Bool.and_eq_true] at hd
    intro c hc
    rw [← List.singleton_append, abnfHexUpper_append, List.mem_append] at hc
    rcases hc with hc | hc
    · have hn := List.all_eq_true.1 upper_of_ascii d.toNat (List.mem_range.2 (isDigit_lt hd.1))
      rw [Char.ofNat_toNat, hd.1, Bool.not_true, Bool.false_or, List.all_eq_true] at hn
      exact of_decide_eq_true (hn c hc)
    · exact ih hd.2 c hc

theorem pair_mem {a b : Char} (ha : IsUpper a) (hb : IsUpper b) : [a, b] ∈ abnfHexPairs :=
  List.mem_flatMap.2 ⟨[a], ha, List.mem_map.2 ⟨[b], hb, rfl⟩⟩

theorem upper_values : abnfHexDigits.all (fun a => abnfHexDigits.all fun b =>
    decide (ofDigits 16 a = ofDigits 16 b → a = b)) = true := by decide +kernel

/-- A digit in capitals is its value's only one. -/
theorem upper_inj {a b : Char} (ha : IsUpper a) (hb : IsUpper b) (h : ofDigits 16 [a] = ofDigits 16 [b]) : a = b := by
  have hall := List.all_eq_true.1 (List.all_eq_true.1 upper_values _ ha) _ hb
  exact List.head_eq_of_cons_eq (of_decide_eq_true hall h)

theorem upper_lt {a : Char} (ha : IsUpper a) : ofDigits 16 [a] < 16 := by
  have hall : abnfHexDigits.all (fun a => decide (ofDigits 16 a < 16)) = true := by decide +kernel
  exact of_decide_eq_true (List.all_eq_true.1 hall _ ha)

/-! ## Pairs at the ends of a text -/

theorem pairs_two {p : Text} (hp : p ∈ abnfHexPairs) : ∃ x y, p = [x, y] := List.length_eq_two.1 (hexPairs_mem hp).2.2

theorem abnfPairStart_eq {a b : Char} (ha : IsUpper a) (hb : IsUpper b) (s : Text) :
    abnfPairStart (a :: b :: s) = some [a, b] := by
  refine head_filter_eq (pair_mem ha hb) fun p hp => ?_
  obtain ⟨x, y, rfl⟩ := pairs_two hp
  rw [abnfStarts_iff (List.cons_ne_nil _ _), List.cons_prefix_cons, List.cons_prefix_cons]
  simp

/-- Four characters cut at a pair: at the first two, or the middle two, or the last two. -/
theorem split_pair (x y a b c d : Char) : split [x, y] [a, b, c, d] =
    if x = a ∧ y = b then if x = c ∧ y = d then [[], [], []] else [[], [c, d]]
    else if x = b ∧ y = c then [[a], [d]]
    else if x = c ∧ y = d then [[a, b], []] else [[a, b, c, d]] := by
  have hlast : splitFrom [x, y] 0 [c, d] = if x = c ∧ y = d then [[], []] else [[c, d]] := by
    by_cases h : x = c ∧ y = d
    · simp [splitFrom, List.isPrefixOf, h]
    · simp [splitFrom, List.isPrefixOf, h]
  unfold split
  by_cases h1 : x = a ∧ y = b
  · rw [if_pos h1, splitFrom, if_pos (by simp [List.isPrefixOf, h1])]
    change [] :: splitFrom [x, y] 0 [c, d] = _
    rw [hlast]
    split <;> rfl
  · rw [if_neg h1, splitFrom, if_neg (by simpa [List.isPrefixOf] using h1), splitFrom]
    by_cases h2 : x = b ∧ y = c
    · rw [if_pos h2, if_pos (by simp [List.isPrefixOf, h2])]
      simp [splitFrom, List.isPrefixOf]
    · rw [if_neg h2, if_neg (by simpa [List.isPrefixOf] using h2), hlast]
      split <;> rfl

/-- A pair is found at the end of four characters where it stands there, unless it is cut out one place
before: the last three are alike and the first is another. -/
theorem abnfEnds_pair (x y a b c d : Char) :
    abnfEnds [x, y] [a, b, c, d] = true ↔ [x, y] = [c, d] ∧ ¬ (b = c ∧ c = d ∧ a ≠ b) := by
  unfold abnfEnds
  rw [split_pair]
  split_ifs with h1 h2 h3 h4
  · obtain ⟨rfl, rfl⟩ := h1
    obtain ⟨rfl, rfl⟩ := h2
    simp
  · simp [h2]
  · obtain ⟨rfl, rfl⟩ := h3
    constructor
    · intro h
      cases h
    · -- were the last three alike, the pair would stand at the first two as well
      rintro ⟨hcd, hnot⟩
      rw [List.cons.injEq, List.cons.injEq] at hcd
      refine absurd ⟨hcd.1, hcd.2.1, fun ha => ?_⟩ hnot
      exact h1 ⟨ha.symm, hcd.1.symm⟩
  · obtain ⟨rfl, rfl⟩ := h4
    exact iff_of_true rfl ⟨rfl, fun h => h3 ⟨h.1.symm, h.2.1.symm⟩⟩
  · simp [h4]

theorem abnfPairEnd_eq {a b c d : Char} (hc : IsUpper c) (hd : IsUpper d) :
    abnfPairEnd [a, b, c, d] = if b = c ∧ c = d ∧ a ≠ b then none else some [c, d] := by
  have hends : ∀ p ∈ abnfHexPairs, abnfEnds p [a, b, c, d] = true ↔ p = [c, d] ∧ ¬ (b = c ∧ c = d ∧ a ≠ b) := by
    intro p hp
    obtain ⟨x, y, rfl⟩ := pairs_two hp
    exact abnfEnds_pair x y a b c d
  unfold abnfPairEnd
  by_cases h : b = c ∧ c = d ∧ a ≠ b
  · rw [if_pos h, List.head?_eq_none_iff, List.filter_eq_nil_iff]
    exact fun p hp hp' => ((hends p hp).1 hp').2 h
  · rw [if_neg h]
    refine head_filter_eq (pair_mem hc hd) fun p hp => ?_
    rw [hends p hp]
    exact and_iff_left h

theorem hexPairs_index {p : Text} (hp : p ∈ abnfHexPairs) : abnfHexPairs.getD (ofDigits 16 p) [] = p := by
  obtain ⟨j, hj, rfl⟩ := List.mem_iff_getElem.1 hp
  have hval : (abnfHexPairs.map (ofDigits 16))[j]? = some j := by
    rw [hexPairs_value, List.getElem?_range]
    rw [← List.length_map (ofDigits 16), hexPairs_value, List.length_range] at hj
    exact hj
  rw [List.getElem?_map, List.getElem?_eq_getElem hj, Option.map_some, Option.some.injEq] at hval
  rw [hval, List.getD_eq_getElem?_getD, List.getElem?_eq_getElem hj, Option.getD_some]

/-- A pair's place in the table is its value. -/
theorem abnfPairIndex_eq {p : Text} (hp : p ∈ abnfHexPairs) : abnfPairIndex p = some (ofDigits 16 p) := by
  have hlen : abnfHexPairs.length = 256 := by
    rw [← List.length_map (ofDigits 16), hexPairs_value, List.length_range]
  unfold abnfPairIndex
  rw [hlen]
  refine head_filter_eq (List.mem_range.2 (hexPairs_lt hp)) fun i hi => ?_
  obtain ⟨hmem, hval⟩ := hexPairs_getD (List.mem_range.1 hi)
  rw [abnfSame_iff]
  constructor
  · intro h
    rw [← h, hval]
  · rintro rfl
    exact hexPairs_index hp

/-! ## Six digits -/

theorem abnfSix_length {h : Text} (hne : h ≠ []) (hlen : h.length ≤ 6) : (abnfSix h).length = 6 := by
  have hpos := List.length_pos_iff.2 hne
  unfold abnfSix
  split_ifs with h1 h2 h3 h4 h5 <;> simp <;> omega

theorem abnfSix_value (h : Text) : ofDigits 16 (abnfSix h) = ofDigits 16 h := by
  have hzero : ∀ z : Text, ofDigits 16 z = 0 → ofDigits 16 (z ++ h) = ofDigits 16 h := by
    intro z hz
    rw [ofDigits_append_eq, hz, Nat.zero_mul, Nat.zero_add]
  unfold abnfSix
  split_ifs <;> exact hzero _ (by decide)

theorem abnfSix_upper {h : Text} (hu : ∀ c ∈ h, IsUpper c) : ∀ c ∈ abnfSix h, IsUpper c := by
  intro c hc
  have hzero : IsUpper '0' := by decide
  unfold abnfSix at hc
  rcases List.mem_append.1 hc with hc | hc
  · have hc0 : c = '0' := by
      split_ifs at hc <;> simp at hc <;> exact hc
    rwa [hc0]
  · exact hu c hc

/-! ## The digits whose low byte is not found -/

/-- The code points whose last three digits, of six, are alike and the one before them another: `1000`,
`E000`, `0FFF`. The pair at their end overlaps itself, and a text is cut at the leftmost places. -/
def Repeats (n : Nat) : Prop :=
  n / 0x100 % 0x10 = n / 0x10 % 0x10 ∧ n / 0x10 % 0x10 = n % 0x10 ∧ n / 0x1000 % 0x10 ≠ n / 0x100 % 0x10

instance (n : Nat) : Decidable (Repeats n) := inferInstanceAs (Decidable (_ ∧ _ ∧ _))

/-- The value of two digits, and of six. -/
theorem ofDigits_pair (a b : Char) : ofDigits 16 [a, b] = ofDigits 16 [a] * 16 + ofDigits 16 [b] := by
  simp [ofDigits]

theorem ofDigits_six (a b c d e f : Char) : ofDigits 16 [a, b, c, d, e, f] =
    ofDigits 16 [a, b] * 0x10000 + ofDigits 16 [c, d] * 0x100 + ofDigits 16 [e, f] := by
  simp only [ofDigits, List.foldl_cons, List.foldl_nil]
  ring

theorem repeats_iff {a b c d e f : Char} (hc : IsUpper c) (hd : IsUpper d) (he : IsUpper e) (hf : IsUpper f) :
    Repeats (ofDigits 16 [a, b, c, d, e, f]) ↔ d = e ∧ e = f ∧ c ≠ d := by
  have hinj : ∀ {x y : Char}, IsUpper x → IsUpper y → (x = y ↔ ofDigits 16 [x] = ofDigits 16 [y]) := fun hx hy =>
    ⟨fun h => h ▸ rfl, upper_inj hx hy⟩
  have hclt := upper_lt hc
  have hdlt := upper_lt hd
  have helt := upper_lt he
  have hflt := upper_lt hf
  rw [Ne, hinj hd he, hinj he hf, hinj hc hd]
  generalize hn : ofDigits 16 [a, b, c, d, e, f] = n
  rw [ofDigits_six, ofDigits_pair c, ofDigits_pair e] at hn
  have hn0 : n % 0x10 = ofDigits 16 [f] := by omega
  have hn1 : n / 0x10 % 0x10 = ofDigits 16 [e] := by omega
  have hn2 : n / 0x100 % 0x10 = ofDigits 16 [d] := by omega
  have hn3 : n / 0x1000 % 0x10 = ofDigits 16 [c] := by omega
  unfold Repeats
  rw [hn0, hn1, hn2, hn3]

section

variable {h h' : Text}

/-- The three bytes of digits are those of their value, where the low one is found. -/
theorem abnfCp_eq (hne : h ≠ []) (hlen : h.length ≤ 6) (hd : h.all (isDigit 16) = true) :
    abnfCp h = if Repeats (ofDigits 16 h) then none else some (cpOf (ofDigits 16 h)) := by
  have hune : abnfHexUpper h ≠ [] := by
    rw [← List.length_pos_iff, abnfHexUpper_length]
    exact List.length_pos_iff.2 hne
  have hulen : (abnfHexUpper h).length ≤ 6 := by
    rwa [abnfHexUpper_length]
  have hsix := abnfSix_length hune hulen
  have hval : ofDigits 16 (abnfSix (abnfHexUpper h)) = ofDigits 16 h := by
    rw [abnfSix_value, ofDigits_congr (abnfHexUpper_digits h)]
  have hupper := abnfSix_upper (abnfHexUpper_upper hd)
  unfold abnfCp
  rw [← hval]
  generalize abnfSix (abnfHexUpper h) = x at hsix hupper
  obtain ⟨a, x, rfl⟩ := List.exists_cons_of_length_eq_add_one hsix
  obtain ⟨b, x, rfl⟩ := List.exists_cons_of_length_eq_add_one (Nat.succ.inj hsix)
  obtain ⟨c, d, e, f, rfl⟩ := List.length_eq_four.1 (Nat.succ.inj (Nat.succ.inj hsix))
  simp only [List.mem_cons, List.not_mem_nil, or_false, forall_eq_or_imp, forall_eq] at hupper
  obtain ⟨ha, hb, hc, hd, he, hf⟩ := hupper
  have hrep := repeats_iff (a := a) (b := b) hc hd he hf
  have hafter : abnfAfter [a, b] [a, b, c, d, e, f] = [c, d, e, f] := abnfAfter_append (List.cons_ne_nil _ _) _
  simp only [abnfPairStart_eq ha hb, Option.bind_eq_bind, Option.bind_some, hafter, abnfPairStart_eq hc hd,
    abnfPairEnd_eq he hf]
  by_cases hr : d = e ∧ e = f ∧ c ≠ d
  · rw [if_pos hr, if_pos (hrep.2 hr)]
    rfl
  · rw [if_neg hr, if_neg (mt hrep.1 hr)]
    simp only [Option.bind_some, abnfPairIndex_eq (pair_mem ha hb), abnfPairIndex_eq (pair_mem hc hd),
      abnfPairIndex_eq (pair_mem he hf), Option.pure_def, Option.some.injEq]
    -- each pair is a byte of the six digits' value
    have hmid := hexPairs_lt (pair_mem hc hd)
    have hlow := hexPairs_lt (pair_mem he hf)
    simp only [cpOf, ofDigits_six, Cp.mk.injEq]
    refine ⟨?_, ?_, ?_⟩ <;> omega

/-- Digits of a code point have the three bytes of their value, and two such are ordered as their values,
exactly where the last three of neither's six digits repeat after another. -/
theorem abnfCp_iff (hne : h ≠ []) (hlen : h.length ≤ 6) (hd : h.all (isDigit 16) = true) (hne' : h' ≠ [])
    (hlen' : h'.length ≤ 6) (hd' : h'.all (isDigit 16) = true) :
    (abnfCp h = some (cpOf (ofDigits 16 h)) ↔ ¬ Repeats (ofDigits 16 h)) ∧
      ((∃ a b, abnfCp h = some a ∧ abnfCp h' = some b ∧
          abnfCpOrder a b = compare (ofDigits 16 h) (ofDigits 16 h')) ↔
        ¬ Repeats (ofDigits 16 h) ∧ ¬ Repeats (ofDigits 16 h')) := by
  rw [abnfCp_eq hne hlen hd, abnfCp_eq hne' hlen' hd']
  constructor
  · by_cases hr : Repeats (ofDigits 16 h)
    · simp [hr]
    · simp [hr]
  · constructor
    · rintro ⟨a, b, ha, hb, -⟩
      constructor
      · intro hr
        rw [if_pos hr] at ha
        cases ha
      · intro hr
        rw [if_pos hr] at hb
        cases hb
    · rintro ⟨hr, hr'⟩
      refine ⟨_, _, if_neg hr, if_neg hr', ?_⟩
      rw [abnfCpOrder_eq (cpOf_bytes _) (cpOf_bytes _), cpOf_value, cpOf_value]

end

theorem abnfCp_e9_7f : (abnfCp "e9".toList = some (cpOf 0xE9) ↔ ¬ Repeats 0xE9) ∧
    ((∃ a b, abnfCp "e9".toList = some a ∧ abnfCp "00007F".toList = some b ∧ abnfCpOrder a b = compare 0xE9 0x7F) ↔
      ¬ Repeats 0xE9 ∧ ¬ Repeats 0x7F) :=
  @abnfCp_iff "e9".toList "00007F".toList (by decide) (by decide) (by decide) (by decide) (by decide)
    (by decide)

/-- `1000` is cut at the pair `00` after its first digit, and no pair is found at its end. -/
theorem abnfCp_1000 : abnfCp "1000".toList ≠ some (cpOf (ofDigits 16 "1000".toList)) := by decide +kernel

end TabnasAbnf.Render
