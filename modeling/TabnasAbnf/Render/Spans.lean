/-
Ranges of code points: sorted, merged and compared by their bytes as spans of numbers are, so that two lists
are found the same where they hold the same characters.
-/
import TabnasAbnf.Base.NatSpan
import TabnasAbnf.Base.RankSort
import TabnasAbnf.Render.CodePoint
import Mathlib.Data.Prod.Lex

namespace TabnasAbnf.Render

open TabnasAbnf.Base

/-! ## Ranges as spans -/

/-- A range of code points as one a list may hold: from a low end to a high end not below it. -/
structure CpSpan.Valid (s : CpSpan) : Prop where
  lo : s.lo.Bytes
  hi : s.hi.Bytes
  le : s.lo.value ≤ s.hi.value
  top : s.hi.value ≤ 0x10FFFF

/-- A code point of one of the ranges. -/
def HoldsPoint (spans : List CpSpan) (n : Nat) : Prop := ∃ s ∈ spans, s.lo.value ≤ n ∧ n ≤ s.hi.value

/-- The range of a span. -/
def cpSpan (s : NatSpan) : CpSpan := ⟨cpOf s.lo, cpOf s.hi⟩

theorem holds_map {l : List NatSpan} {n : Nat} : HoldsPoint (l.map cpSpan) n ↔ Covers l n := by
  unfold HoldsPoint Covers
  simp only [List.mem_map, exists_exists_and_eq_and, cpSpan, cpOf_value]

theorem cpOf_inj {m n : Nat} : cpOf m = cpOf n ↔ m = n := by
  constructor
  · intro h
    rw [← cpOf_value m, h, cpOf_value]
  · rintro rfl
    rfl

theorem cpSpan_injective : Function.Injective cpSpan := by
  intro s t h
  rw [cpSpan, cpSpan, CpSpan.mk.injEq, cpOf_inj, cpOf_inj] at h
  exact NatSpan.ext h.1 h.2

theorem exists_spans {spans : List CpSpan} (h : ∀ s ∈ spans, s.Valid) :
    ∃ l : List NatSpan, spans = l.map cpSpan ∧ ∀ s ∈ l, s.hi ≤ 0x10FFFF := by
  induction spans with
  | nil => exact ⟨[], rfl, by simp⟩
  | cons s spans ih =>
    obtain ⟨hs, hrest⟩ := List.forall_mem_cons.1 h
    obtain ⟨l, rfl, hl⟩ := ih hrest
    refine ⟨⟨s.lo.value, s.hi.value, hs.le⟩ :: l, ?_, List.forall_mem_cons.2 ⟨hs.top, hl⟩⟩
    rw [List.map_cons, cpSpan, ← hs.lo.eq_cpOf, ← hs.hi.eq_cpOf]

theorem before_cpOf {m n : Nat} : abnfCpBefore (cpOf m) (cpOf n) = decide (m < n) := by
  rw [Bool.eq_iff_iff, abnfCpBefore_iff (cpOf_bytes m) (cpOf_bytes n), cpOf_value, cpOf_value, decide_eq_true_eq]

/-- The next code point, carried over its bytes. -/
theorem next_cpOf (n : Nat) : abnfCpNext (cpOf n) = cpOf (n + 1) := by
  unfold abnfCpNext cpOf
  split_ifs with hlow hmid
  · simp only [Cp.mk.injEq]
    simp only at hlow hmid
    omega
  · simp only [Cp.mk.injEq]
    simp only at hlow hmid
    omega
  · simp only [Cp.mk.injEq]
    simp only at hlow
    omega

/-! ## Sorted -/

/-- Spans compare by their low ends, and by their places where those are the same. -/
def spanKey (s : NatSpan × Nat) : Nat ×ₗ Nat := toLex (s.1.lo, s.2)

def sortSpans (l : List NatSpan) : List NatSpan := (rankSort spanKey l.zipIdx).map Prod.fst

theorem sortSpans_spec (l : List NatSpan) : (sortSpans l).Perm l ∧ (sortSpans l).Pairwise (·.lo ≤ ·.lo) := by
  have hnodup : (l.zipIdx.map spanKey).Nodup := by
    refine List.Nodup.of_map (fun k => (ofLex k).2) ?_
    rw [List.map_map]
    have hsnd : ((fun k => (ofLex k).2) ∘ spanKey) = (Prod.snd : NatSpan × Nat → Nat) := rfl
    rw [hsnd, List.zipIdx_map_snd]
    exact List.nodup_range'
  obtain ⟨hperm, hsorted⟩ := rankSort_spec hnodup
  constructor
  · have hfst := hperm.map Prod.fst
    rwa [List.zipIdx_map_fst] at hfst
  · refine List.pairwise_map.2 (hsorted.imp fun {s t} hst => ?_)
    rw [spanKey, spanKey, Prod.Lex.toLex_lt_toLex] at hst
    simp only at hst
    omega

theorem abnfSpansSorted_map (l : List NatSpan) : abnfSpansSorted (l.map cpSpan) = (sortSpans l).map cpSpan := by
  have hzip : (l.map cpSpan).zipIdx = l.zipIdx.map (Prod.map cpSpan id) := by
    rw [List.zipIdx_map]
  have hrank : ∀ s : NatSpan × Nat, ((l.map cpSpan).zipIdx.filter fun (t : CpSpan × Nat) =>
      abnfCpBefore t.1.lo (cpSpan s.1).lo || (t.1.lo == (cpSpan s.1).lo && decide (t.2 < s.2))).length =
        rankOf spanKey l.zipIdx s := by
    intro s
    rw [hzip, List.filter_map, List.length_map, rankOf, List.countP_eq_length_filter]
    refine congrArg _ (List.filter_congr fun t _ => ?_)
    rw [Bool.eq_iff_iff, decide_eq_true_eq, spanKey, spanKey, Prod.Lex.toLex_lt_toLex]
    simp only [Function.comp_apply, Prod.map_fst, Prod.map_snd, id, cpSpan, before_cpOf, Bool.or_eq_true,
      Bool.and_eq_true,
      decide_eq_true_eq, beq_iff_eq, cpOf_inj]
  unfold abnfSpansSorted sortSpans rankSort
  rw [List.map_map, List.map_filterMap, List.length_map, List.length_zipIdx]
  refine List.filterMap_congr fun k _ => ?_
  have hsel :
    ((l.map cpSpan).zipIdx.filter fun (s : CpSpan × Nat) => ((l.map cpSpan).zipIdx.filter fun (t : CpSpan × Nat) =>
      abnfCpBefore t.1.lo s.1.lo || (t.1.lo == s.1.lo && decide (t.2 < s.2))).length == k) =
        (l.zipIdx.filter fun s => rankOf spanKey l.zipIdx s == k).map (Prod.map cpSpan id) := by
    conv_lhs => rw [hzip]
    rw [List.filter_map]
    refine congrArg _ (List.filter_congr fun s _ => ?_)
    rw [Function.comp_apply, ← hrank s, hzip]
    rfl
  dsimp only
  rw [hsel, List.head?_map, Option.map_map]
  rfl

/-! ## Merged -/

/-- Whether a code point is the greatest of some. -/
theorem abnfCpMax_iff {vs : List Nat} {m : Nat} :
    abnfCpMax (vs.map cpOf) = some (cpOf m) ↔ m ∈ vs ∧ ∀ v ∈ vs, v ≤ m := by
  have hmax : ∀ v, ((vs.map cpOf).filter fun d => abnfCpBefore (cpOf v) d).isEmpty = true ↔ ∀ w ∈ vs, w ≤ v := by
    intro v
    rw [List.isEmpty_iff, List.filter_eq_nil_iff, List.forall_mem_map]
    simp only [before_cpOf, decide_eq_true_eq, Nat.not_lt]
  unfold abnfCpMax
  constructor
  · intro h
    obtain ⟨hmem, hmm⟩ := List.mem_filter.1 (List.mem_of_mem_head? h)
    obtain ⟨v, hv, hvm⟩ := List.mem_map.1 hmem
    rw [cpOf_inj] at hvm
    subst hvm
    exact ⟨hv, (hmax v).1 hmm⟩
  · rintro ⟨hm, hall⟩
    refine head_filter_eq (List.mem_map_of_mem hm) fun y hy => ?_
    obtain ⟨v, hv, rfl⟩ := List.mem_map.1 hy
    rw [hmax v, cpOf_inj]
    constructor
    · intro hle
      exact le_antisymm (hall v hv) (hle m hm)
    · rintro rfl
      exact hall

/-- The ranges that begin past all before them, each with its place. -/
def startsOf (sorted : List CpSpan) : List (CpSpan × Nat) :=
  sorted.zipIdx.filter fun (s : CpSpan × Nat) =>
    ((sorted.take s.2).filter fun (t : CpSpan) => !abnfCpBefore (abnfCpNext t.hi) s.1.lo).isEmpty

/-- The range of a block, from the start at a place among the starts to the next. -/
def blockSpan (sorted : List CpSpan) (starts : List (CpSpan × Nat)) (k : Nat) : Option CpSpan :=
  starts[k]?.bind fun first =>
    (abnfCpMax (((sorted.take ((starts[k + 1]?.map Prod.snd).getD sorted.length)).drop first.2).map (·.hi))).map
      fun hi =>
      ⟨first.1.lo, hi⟩

def mergedOf (sorted : List CpSpan) : List CpSpan :=
  (List.range (startsOf sorted).length).filterMap (blockSpan sorted (startsOf sorted))

theorem abnfSpansMerged_eq (spans : List CpSpan) : abnfSpansMerged spans = mergedOf (abnfSpansSorted spans) := by
  unfold abnfSpansMerged mergedOf
  refine List.filterMap_congr fun k _ => ?_
  unfold blockSpan startsOf
  generalize (abnfSpansSorted spans).zipIdx.filter _ = starts
  rcases starts[k + 1]? with _ | next
  · rcases starts[k]? with _ | first
    · rfl
    · simp only [Option.bind_eq_bind, Option.bind_some, Option.map_none, Option.getD_none]
      rcases abnfCpMax _ with _ | hi <;> rfl
  · rcases starts[k]? with _ | first
    · rfl
    · simp only [Option.bind_eq_bind, Option.bind_some, Option.map_some, Option.getD_some]
      rcases abnfCpMax _ with _ | hi <;> rfl

section

variable {l : List NatSpan} {s : NatSpan} {starts : List (CpSpan × Nat)}

theorem startsOf_lt {sorted : List CpSpan} {f : CpSpan × Nat} (h : f ∈ startsOf sorted) : f.2 < sorted.length :=
  List.snd_lt_of_mem_zipIdx (List.mem_of_mem_filter h)

/-- One more range is a start where it begins past all the others. -/
theorem startsOf_concat (l : List NatSpan) (s : NatSpan) : startsOf ((l ++ [s]).map cpSpan) =
    startsOf (l.map cpSpan) ++ if ∀ t ∈ l, t.hi + 1 < s.lo then [(cpSpan s, l.length)] else [] := by
  have hlen : (l.map cpSpan).length = l.length := List.length_map _
  unfold startsOf
  rw [List.map_append, List.map_singleton, List.zipIdx_append, List.filter_append]
  refine congrArg₂ _ (List.filter_congr fun t ht => ?_) ?_
  · have hlt := List.snd_lt_of_mem_zipIdx ht
    rw [List.take_append_of_le_length (by omega)]
  · rw [List.zipIdx_singleton, hlen, Nat.zero_add, List.filter_singleton]
    have hstart : (((l.map cpSpan ++ [cpSpan s]).take l.length).filter fun (t : CpSpan) =>
        !abnfCpBefore (abnfCpNext t.hi) (cpSpan s).lo).isEmpty = true ↔ ∀ t ∈ l, t.hi + 1 < s.lo := by
      rw [← hlen, List.take_left, List.isEmpty_iff, List.filter_eq_nil_iff, List.forall_mem_map]
      simp only [cpSpan, next_cpOf, before_cpOf, Bool.not_eq_true', decide_eq_false_iff_not, not_not]
    by_cases h : ∀ t ∈ l, t.hi + 1 < s.lo
    · rw [if_pos h, hstart.2 h]
      rfl
    · rw [if_neg h, Bool.eq_false_iff.2 (mt hstart.1 h)]
      rfl

/-- A block that ends before the last range is the same without it. -/
theorem blockSpan_concat {sorted : List CpSpan} {x : CpSpan} {starts' : List (CpSpan × Nat)} {k : Nat}
    (hsame : starts'[k]? = starts[k]?) {n : Nat} (hn : n ≤ sorted.length)
    (hupto : (starts[k + 1]?.map Prod.snd).getD sorted.length = n) (hupto' : starts'[k + 1]?.map Prod.snd = some n) :
    blockSpan (sorted ++ [x]) starts' k = blockSpan sorted starts k := by
  unfold blockSpan
  rw [hsame, hupto, hupto', Option.getD_some, List.take_append_of_le_length hn]

theorem blockSpan_last {sorted : List CpSpan} {starts : List (CpSpan × Nat)} (f : CpSpan × Nat) :
    blockSpan sorted (starts ++ [f]) starts.length =
      (abnfCpMax ((sorted.drop f.2).map (·.hi))).map fun hi => ⟨f.1.lo, hi⟩ := by
  unfold blockSpan
  simp

/-- The ranges of all the blocks but the last. -/
theorem blocks_concat {sorted : List CpSpan} {x : CpSpan} {starts starts' : List (CpSpan × Nat)} {m : Nat}
    (hsame : ∀ k < m, starts'[k]? = starts[k]?) (hlt : ∀ f ∈ starts, f.2 < sorted.length)
    (hnext : ∀ k < m, starts'[k + 1]?.map Prod.snd = some ((starts[k + 1]?.map Prod.snd).getD sorted.length)) :
    (List.range m).filterMap (blockSpan (sorted ++ [x]) starts') =
      (List.range m).filterMap (blockSpan sorted starts) := by
  refine List.filterMap_congr fun k hk => ?_
  have hk := List.mem_range.1 hk
  refine blockSpan_concat (hsame k hk) ?_ rfl (hnext k hk)
  rcases hs : starts[k + 1]? with _ | next
  · simp
  · exact (hlt next (List.mem_of_getElem? hs)).le

/-- The greatest high end with one more. -/
theorem abnfCpMax_concat {vs : List Nat} {m v : Nat} (h : abnfCpMax (vs.map cpOf) = some (cpOf m)) :
    abnfCpMax ((vs ++ [v]).map cpOf) = some (cpOf (max m v)) := by
  obtain ⟨hm, hall⟩ := abnfCpMax_iff.1 h
  refine abnfCpMax_iff.2 ⟨?_, fun w hw => ?_⟩
  · rcases le_total m v with hmv | hmv
    · rw [max_eq_right hmv]
      exact List.mem_append_right _ (List.mem_singleton_self v)
    · rw [max_eq_left hmv]
      exact List.mem_append_left _ hm
  · rcases List.mem_append.1 hw with hw | hw
    · exact le_trans (hall w hw) (le_max_left _ _)
    · rw [List.mem_singleton.1 hw]
      exact le_max_right _ _

theorem exists_abnfCpMax {vs : List Nat} (h : vs ≠ []) : ∃ m, abnfCpMax (vs.map cpOf) = some (cpOf m) := by
  induction vs using List.reverseRecOn with
  | nil => exact absurd rfl h
  | append_singleton vs v ih =>
    by_cases hvs : vs = []
    · exact ⟨v, abnfCpMax_iff.2 (by simp [hvs])⟩
    · obtain ⟨m, hm⟩ := ih hvs
      exact ⟨_, abnfCpMax_concat hm⟩

/-- A range past all the others is a block of its own. -/
theorem merged_start (hlt : ∀ f ∈ starts, f.2 < (l.map cpSpan).length)
    (ih : (List.range starts.length).filterMap (blockSpan (l.map cpSpan) starts) = (mergeSpans l).map cpSpan) :
    (List.range (starts ++ [(cpSpan s, l.length)]).length).filterMap
        (blockSpan ((l ++ [s]).map cpSpan) (starts ++ [(cpSpan s, l.length)])) =
      (mergeSpans l ++ [s]).map cpSpan := by
  have hlen : (l.map cpSpan).length = l.length := List.length_map _
  rw [List.length_append, List.length_singleton, List.range_succ, List.filterMap_append, List.map_append,
    List.map_append,
    List.map_singleton, blocks_concat _ hlt, ih]
  · refine congrArg _ ?_
    rw [List.filterMap_cons, blockSpan_last, List.drop_append_of_le_length (by rw [hlen]), ← hlen, List.drop_length,
      List.nil_append, List.map_singleton]
    have hmax : abnfCpMax [(cpSpan s).hi] = some (cpOf s.hi) := (@abnfCpMax_iff [s.hi] s.hi).2 (by simp)
    rw [hmax]
    rfl
  · intro k hk
    rw [List.getElem?_append]
    split
    · rename_i hk1
      rw [List.getElem?_eq_getElem hk1]
      rfl
    · have hk1 : k + 1 - starts.length = 0 := by omega
      have hnone : starts[k + 1]? = none := List.getElem?_eq_none (by omega)
      rw [hk1, hnone, hlen]
      rfl
  · intro k hk
    exact List.getElem?_append_left hk

/-- Another range reaches the last block, and moves its high end. -/
theorem merged_meet {m : List NatSpan} {t : NatSpan} (hlt : ∀ f ∈ starts, f.2 < (l.map cpSpan).length)
    (ih : (List.range starts.length).filterMap (blockSpan (l.map cpSpan) starts) = (m ++ [t]).map cpSpan) :
    (List.range starts.length).filterMap (blockSpan ((l ++ [s]).map cpSpan) starts) =
      (m ++ [t.upTo s.hi]).map cpSpan := by
  rcases List.eq_nil_or_concat starts with rfl | ⟨B, f, rfl⟩
  · rw [List.map_append] at ih
    exact absurd ih.symm (List.append_ne_nil_of_right_ne_nil _ (List.cons_ne_nil _ _))
  · rw [List.concat_eq_append] at hlt ih ⊢
    have hf : f.2 < (l.map cpSpan).length := hlt f (List.mem_append_right _ (List.mem_singleton_self f))
    have hhis : ∀ l' : List NatSpan, ((l'.map cpSpan).drop f.2).map (·.hi) = ((l'.drop f.2).map (·.hi)).map cpOf := by
      intro l'
      rw [← List.map_drop, List.map_map, List.map_map]
      rfl
    rw [List.length_map] at hf
    have hne : (l.drop f.2).map (·.hi) ≠ [] := by
      intro hnil
      rw [List.map_eq_nil_iff, List.drop_eq_nil_iff] at hnil
      omega
    obtain ⟨v, hv⟩ := exists_abnfCpMax hne
    have hv' := abnfCpMax_concat (v := s.hi) hv
    have hdrop : (l.drop f.2).map (·.hi) ++ [s.hi] = ((l ++ [s]).drop f.2).map (·.hi) := by
      rw [List.drop_append_of_le_length hf.le, List.map_append, List.map_singleton]
    rw [hdrop] at hv'
    -- the blocks before the last stay as they are, and the last grows by the new span
    have hblocks : (List.range B.length).filterMap (blockSpan ((l ++ [s]).map cpSpan) (B ++ [f])) =
        (List.range B.length).filterMap (blockSpan (l.map cpSpan) (B ++ [f])) := by
      rw [List.map_append, List.map_singleton]
      refine blocks_concat (fun k _ => rfl) hlt fun k hk => ?_
      rw [List.getElem?_eq_getElem (by rw [List.length_append, List.length_singleton]; omega)]
      rfl
    have hlast : ∀ (l' : List NatSpan) (w : Nat), abnfCpMax (((l'.drop f.2).map (·.hi)).map cpOf) = some (cpOf w) →
        (List.range (B ++ [f]).length).filterMap (blockSpan (l'.map cpSpan) (B ++ [f])) =
          (List.range B.length).filterMap (blockSpan (l'.map cpSpan) (B ++ [f])) ++ [⟨f.1.lo, cpOf w⟩] := by
      intro l' w hw
      rw [List.length_append, List.length_singleton, List.range_succ, List.filterMap_append]
      refine congrArg _ ?_
      rw [List.filterMap_cons, blockSpan_last, hhis, hw]
      rfl
    rw [hlast l v hv, List.map_append, List.map_singleton] at ih
    obtain ⟨hm, ht⟩ := List.append_inj' ih rfl
    rw [List.singleton_inj, cpSpan, CpSpan.mk.injEq, cpOf_inj] at ht
    rw [hlast (l ++ [s]) _ hv', hblocks, hm, ht.1, ht.2, List.map_append]
    rfl

theorem mergedOf_map (h : l.Pairwise (·.lo ≤ ·.lo)) : mergedOf (l.map cpSpan) = (mergeSpans l).map cpSpan := by
  induction l using List.reverseRecOn with
  | nil => rfl
  | append_singleton l s ih =>
    obtain ⟨hl, -, hs⟩ := List.pairwise_append.1 h
    have ih := ih hl
    have hlt : ∀ f ∈ startsOf (l.map cpSpan), f.2 < (l.map cpSpan).length := fun f => startsOf_lt
    rw [mergeSpans_concat]
    unfold mergedOf at ih ⊢
    rw [startsOf_concat]
    generalize startsOf (l.map cpSpan) = starts at ih hlt ⊢
    have hgap : ∀ t : NatSpan, t.hi + 1 < s.lo ↔ t.hi < s.lo - 1 := fun t => by omega
    rcases List.eq_nil_or_concat (mergeSpans l) with hm | ⟨m, t, hm⟩
    · have hnil : l = [] := by
        rcases List.eq_nil_or_concat l with rfl | ⟨l', u, rfl⟩
        · rfl
        · rw [List.concat_eq_append, mergeSpans_concat] at hm
          exact absurd hm (mergeInto_ne_nil _ _)
      rw [if_pos (by rw [hnil]; simp), merged_start hlt ih, hm]
      rfl
    · rw [List.concat_eq_append] at hm
      have hpast := past_last hm hl (s.lo - 1)
      rw [hm, mergeInto_concat]
      simp only [hgap, hpast]
      split
      · rw [merged_start hlt ih, hm]
      · rw [List.append_nil]
        rw [hm] at ih
        exact merged_meet hlt ih

end

/-! ## The decisions -/

theorem abnfSpansMerged_map (l : List NatSpan) :
    abnfSpansMerged (l.map cpSpan) = (mergeSpans (sortSpans l)).map cpSpan := by
  rw [abnfSpansMerged_eq, abnfSpansSorted_map, mergedOf_map (sortSpans_spec l).2]

/-- Ranges are merged to ranges apart that hold the same characters. -/
theorem merged_spec (l : List NatSpan) :
    Separated (mergeSpans (sortSpans l)) ∧ ∀ n, Covers (mergeSpans (sortSpans l)) n ↔ Covers l n := by
  obtain ⟨hperm, hsorted⟩ := sortSpans_spec l
  obtain ⟨hsep, hcov⟩ := mergeSpans_spec hsorted
  exact ⟨hsep, fun n => (hcov n).trans (covers_perm hperm n)⟩

theorem abnfSpansSame_map (a b : List NatSpan) :
    abnfSpansSame (abnfSpansMerged (a.map cpSpan)) (abnfSpansMerged (b.map cpSpan)) = true ↔
      ∀ n, Covers a n ↔ Covers b n := by
  obtain ⟨hsepa, hcova⟩ := merged_spec a
  obtain ⟨hsepb, hcovb⟩ := merged_spec b
  rw [abnfSpansSame, beq_iff_eq, abnfSpansMerged_map, abnfSpansMerged_map]
  constructor
  · intro h n
    rw [← hcova n, ← hcovb n, List.map_injective_iff.2 cpSpan_injective h]
  · intro h
    rw [hsepa.ext hsepb fun n => by rw [hcova n, hcovb n, h n]]

/-- What `abnf-spans-tile` asks of the ranges in order. -/
theorem abnfSpansTile_map (a b : List NatSpan) : abnfSpansTile (a.map cpSpan) (b.map cpSpan) = true ↔
    Tiles 0 0x10FFFF (sortSpans (mergeSpans (sortSpans a) ++ mergeSpans (sortSpans b))) := by
  have hzero : abnfCp ['0'] = some (cpOf 0) := by decide +kernel
  have htop : abnfCp "10FFFF".toList = some (cpOf 0x10FFFF) := by decide +kernel
  unfold abnfSpansTile
  rw [abnfSpansMerged_map, abnfSpansMerged_map, ← List.map_append, abnfSpansSorted_map, hzero, htop, tiles_ends]
  generalize sortSpans (mergeSpans (sortSpans a) ++ mergeSpans (sortSpans b)) = all
  have hzip : (all.map cpSpan).zip (all.map cpSpan).tail = (all.zip all.tail).map (Prod.map cpSpan cpSpan) := by
    rw [← List.map_tail, List.zip_map]
  dsimp only
  rw [List.head?_map, List.getLast?_map, hzip]
  rcases all with _ | ⟨s, all⟩
  · simp
  · obtain ⟨last, hlast⟩ : ∃ last, (s :: all).getLast? = some last :=
      ⟨_, List.getLast?_eq_some_getLast (List.cons_ne_nil s all)⟩
    have hnexts : (((s :: all).zip (s :: all).tail).map (Prod.map cpSpan cpSpan) |>.filter
        fun st => st.2.lo != abnfCpNext st.1.hi).isEmpty = true ↔
          ∀ p ∈ (s :: all).zip (s :: all).tail, p.2.lo = p.1.hi + 1 := by
      rw [List.isEmpty_iff, List.filter_eq_nil_iff, List.forall_mem_map]
      simp only [Prod.map_fst, Prod.map_snd, cpSpan, next_cpOf, bne_iff_ne, ne_eq, cpOf_inj, not_not]
    rw [hlast, List.head?_cons, Option.map_some, Option.map_some]
    simp only [Bool.and_eq_true, hnexts, beq_iff_eq, Option.some.injEq, exists_eq_left', cpSpan, cpOf_inj, and_assoc]

/-- The decisions about two lists of ranges are about the characters they hold. -/
theorem spans_exact {a b : List CpSpan} (ha : ∀ s ∈ a, s.Valid) (hb : ∀ s ∈ b, s.Valid) :
    (abnfSpansSame (abnfSpansMerged a) (abnfSpansMerged b) = true ↔ ∀ n, HoldsPoint a n ↔ HoldsPoint b n) ∧
      (abnfSpansTile a b = true ↔
        (∀ n, ¬ (HoldsPoint a n ∧ HoldsPoint b n)) ∧ ∀ n, HoldsPoint a n ∨ HoldsPoint b n ↔ n ≤ 0x10FFFF) := by
  obtain ⟨a, rfl, -⟩ := exists_spans ha
  obtain ⟨b, rfl, -⟩ := exists_spans hb
  obtain ⟨hsepa, hcova⟩ := merged_spec a
  obtain ⟨hsepb, hcovb⟩ := merged_spec b
  obtain ⟨hperm, hsorted⟩ := sortSpans_spec (mergeSpans (sortSpans a) ++ mergeSpans (sortSpans b))
  simp only [holds_map]
  refine ⟨abnfSpansSame_map a b, ?_⟩
  rw [abnfSpansTile_map]
  by_cases hne : sortSpans (mergeSpans (sortSpans a) ++ mergeSpans (sortSpans b)) = []
  · rw [hne]
    refine iff_of_false (fun h => h) fun h => ?_
    -- no range holds `0`
    have h0 := (h.2 0).2 (Nat.zero_le _)
    rw [← hcova, ← hcovb, ← covers_append, ← covers_perm hperm, hne] at h0
    exact covers_nil 0 h0
  · rw [tiles_union hperm hne hsorted hsepa hsepb]
    simp only [hcova, hcovb, Nat.zero_le, true_and]

/-- The characters to `17F`: a range met out of order, one that adjoins it over the byte boundary, one within it, and
one that is met again. -/
def lowSpans : List CpSpan :=
  [⟨⟨0, 1, 0⟩, ⟨0, 1, 0x7F⟩⟩, ⟨⟨0, 0, 0⟩, ⟨0, 0, 0xFF⟩⟩, ⟨⟨0, 0, 0x40⟩, ⟨0, 0, 0x80⟩⟩, ⟨⟨0, 0, 0⟩, ⟨0, 0, 0xFF⟩⟩]

/-- The same characters, in two ranges that overlap. -/
def lowOverlap : List CpSpan := [⟨⟨0, 0, 0x50⟩, ⟨0, 1, 0x7F⟩⟩, ⟨⟨0, 0, 0⟩, ⟨0, 0, 0x60⟩⟩]

/-- The characters from `180`: the last plane's ranges first, then one that ends where they begin, met twice. -/
def highSpans : List CpSpan :=
  [⟨⟨1, 0, 0⟩, ⟨0x10, 0xFF, 0xFF⟩⟩, ⟨⟨0, 1, 0x80⟩, ⟨0, 0xFF, 0xFF⟩⟩, ⟨⟨0, 2, 0⟩, ⟨0, 0xFF, 0xFF⟩⟩,
    ⟨⟨0, 1, 0x80⟩, ⟨0, 0xFF, 0xFF⟩⟩]

theorem valid_of_all {spans : List CpSpan}
    (h : spans.all (fun s => decide (s.lo.mid < 256 ∧ s.lo.low < 256 ∧ s.hi.mid < 256 ∧ s.hi.low < 256 ∧
      s.lo.value ≤ s.hi.value ∧ s.hi.value ≤ 0x10FFFF)) = true) : ∀ s ∈ spans, s.Valid := by
  intro s hs
  obtain ⟨h1, h2, h3, h4, hle, htop⟩ := of_decide_eq_true (List.all_eq_true.1 h s hs)
  exact ⟨⟨h1, h2⟩, ⟨h3, h4⟩, hle, htop⟩

/-- The two ways to give the characters to `17F` are the same set, and one of them and the rest tile all characters,
while it and what overlaps it do not. -/
theorem spans_exact_boundary :
    (∀ n, HoldsPoint lowSpans n ↔ HoldsPoint lowOverlap n) ∧
      ((∀ n, ¬ (HoldsPoint lowSpans n ∧ HoldsPoint highSpans n)) ∧
        ∀ n, HoldsPoint lowSpans n ∨ HoldsPoint highSpans n ↔ n ≤ 0x10FFFF) ∧
      ¬ ((∀ n, ¬ (HoldsPoint lowSpans n ∧ HoldsPoint lowOverlap n)) ∧
        ∀ n, HoldsPoint lowSpans n ∨ HoldsPoint lowOverlap n ↔ n ≤ 0x10FFFF) := by
  have hlow : ∀ s ∈ lowSpans, s.Valid := valid_of_all (by decide)
  have hoverlap : ∀ s ∈ lowOverlap, s.Valid := valid_of_all (by decide)
  have hhigh : ∀ s ∈ highSpans, s.Valid := valid_of_all (by decide)
  refine ⟨(spans_exact hlow hoverlap).1.1 (by decide +kernel), (spans_exact hlow hhigh).2.1 (by decide +kernel), ?_⟩
  rw [← (spans_exact hlow hoverlap).2]
  decide +kernel

end TabnasAbnf.Render
