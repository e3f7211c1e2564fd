/-
The alternatives that end in a numbered helper, put back in the order of the helpers' numbers: each stays in a
place of one of them, and the others stay where they are.
-/
import TabnasAbnf.Base.RankSort
import TabnasAbnf.Render.Spec
import Mathlib.Data.List.FinRange
import Mathlib.Data.Prod.Lex

namespace TabnasAbnf.Render

open TabnasAbnf.Base

/-! ## The number an alternative ends in -/

/-- An alternative that ends in a reference to the helper of a number. -/
def Numbered (alt : Seq) (n : Nat) : Prop :=
  ∃ init digits rest, alt = init ++ [.ref ("_gen".toList ++ digits ++ rest)] ∧ digits ≠ [] ∧
    digits.all (isDigit 10) = true ∧ (∀ c ∈ rest.head?, c = '_') ∧ ofDigits 10 digits = n

theorem abnfDigits_iff {d : Text} : abnfDigits d = true ↔ d ≠ [] ∧ d.all (isDigit 10) = true := by
  have hdigit : ∀ c : Char, ([(48, 57)] : List (Nat × Nat)).any (fun r => decide (r.1 ≤ c.toNat ∧ c.toNat ≤ r.2)) =
      isDigit 10 c := by
    intro c
    rw [isDigit_ten, List.any_cons, List.any_nil, Bool.or_false]
    rfl
  rw [abnfDigits, charsWithin, Bool.and_eq_true, Bool.not_eq_true', List.isEmpty_eq_false_iff]
  simp only [hdigit]

/-- The first piece of a text is what stands before the first place of the separator. -/
theorem head_split_iff {c : Char} {s d : Text} : (split [c] s).headD [] = d ↔
    c ∉ d ∧ ∃ rest, s = d ++ rest ∧ ∀ x ∈ rest.head?, x = c := by
  constructor
  · rintro rfl
    by_cases hc : c ∈ s
    · obtain ⟨a, t, rfl, ha⟩ := List.eq_append_cons_of_mem hc
      rw [split_append_char ha]
      exact ⟨ha, c :: t, rfl, by simp⟩
    · rw [split_eq_singleton hc]
      exact ⟨hc, [], by simp, by simp⟩
  · rintro ⟨hd, rest, rfl, hrest⟩
    rcases rest with _ | ⟨x, rest⟩
    · rw [List.append_nil, split_eq_singleton hd]
      rfl
    · obtain rfl := hrest x rfl
      rw [split_append_char hd]
      rfl

theorem digits_not_bar {d : Text} (h : d.all (isDigit 10) = true) : '_' ∉ d := fun hm =>
  absurd (List.all_eq_true.1 h _ hm) (by decide)

theorem abnfAltNumber_iff {alt : Seq} {n : Nat} : abnfAltNumber alt = n ↔ Numbered alt n := by
  have hgen : "_gen".toList ≠ [] := by decide
  constructor
  · intro h
    unfold abnfAltNumber at h
    split at h
    · rename_i name hlast
      obtain ⟨init, rfl⟩ := List.getLast?_eq_some_iff.1 hlast
      dsimp only at h
      split_ifs at h with hstarts hdigits
      · obtain ⟨s, rfl⟩ := (abnfStarts_iff hgen).1 hstarts
        rw [abnfAfter_append hgen] at h hdigits
        obtain ⟨-, rest, hs, hrest⟩ := head_split_iff.1 (Eq.refl ((split ['_'] s).headD []))
        obtain ⟨hne, hall⟩ := abnfDigits_iff.1 hdigits
        refine ⟨init, _, rest, ?_, hne, hall, hrest, Int.ofNat_inj.1 h⟩
        rw [List.append_assoc, ← hs]
    · omega
  · rintro ⟨init, digits, rest, rfl, hne, hall, hrest, rfl⟩
    have hhead : (split ['_'] (digits ++ rest)).headD [] = digits :=
      head_split_iff.2 ⟨digits_not_bar hall, rest, rfl, hrest⟩
    have hstarts : abnfStarts "_gen".toList ("_gen".toList ++ (digits ++ rest)) = true :=
      (abnfStarts_iff hgen).2 (List.prefix_append _ _)
    unfold abnfAltNumber
    rw [List.getLast?_concat, List.append_assoc]
    simp only [hstarts, abnfAfter_append hgen, hhead, abnfDigits_iff.2 ⟨hne, hall⟩, if_true]

theorem abnfAltNumber_neg {alt : Seq} : abnfAltNumber alt < 0 ↔ ∀ n, ¬ Numbered alt n := by
  constructor
  · intro h n hn
    rw [abnfAltNumber_iff.2 hn] at h
    omega
  · intro h
    by_contra hle
    have hnat : abnfAltNumber alt = ((abnfAltNumber alt).toNat : Int) := (Int.toNat_of_nonneg (by omega)).symm
    exact h _ (abnfAltNumber_iff.1 hnat)

/-! ## The places of the numbers -/

/-- The places of the alternatives in the order of their numbers, and of the places where those are the same. -/
def slotKey (alts : List Seq) (i : Nat) : Int ×ₗ Nat := toLex ((alts.map abnfAltNumber).getD i (-1), i)

/-- The places of the alternatives that have a number. -/
def numberSlots (alts : List Seq) : List Nat :=
  (List.range alts.length).filter fun i => !decide ((alts.map abnfAltNumber).getD i (-1) < 0)

theorem slotKey_lt {alts : List Seq} {i j : Nat} : slotKey alts j < slotKey alts i ↔
    (alts.map abnfAltNumber).getD j (-1) < (alts.map abnfAltNumber).getD i (-1) ∨
      (alts.map abnfAltNumber).getD j (-1) = (alts.map abnfAltNumber).getD i (-1) ∧ j < i := by
  rw [slotKey, slotKey, Prod.Lex.toLex_lt_toLex]

theorem numberSlots_sorted (alts : List Seq) : (numberSlots alts).Pairwise (· < ·) :=
  List.Pairwise.filter _ List.pairwise_lt_range

theorem slotKey_nodup (alts : List Seq) : ((numberSlots alts).map (slotKey alts)).Nodup := by
  refine List.Nodup.of_map (fun k => (ofLex k).2) ?_
  rw [List.map_map]
  exact (List.map_id _).symm ▸ (numberSlots_sorted alts).imp fun h => Nat.ne_of_lt h

/-- The first of a list's places that pass, and what stands there, is the first entry that passes. -/
theorem head_places {α : Type} {l : List α} {p : Nat → Bool} {q : α → Bool}
    (h : ∀ m (hm : m < l.length), p m = q l[m]) :
    ((List.range l.length).filter p).head?.bind (l[·]?) = (l.filter q).head? := by
  induction l generalizing p with
  | nil => rfl
  | cons x l ih =>
    have h0 : p 0 = q x := h 0 (Nat.zero_lt_succ _)
    rw [List.length_cons, List.range_succ_eq_map, List.filter_cons, List.filter_cons, h0]
    by_cases hx : q x = true
    · rw [if_pos hx, if_pos hx]
      rfl
    · rw [if_neg hx, if_neg hx, List.filter_map, List.head?_map, Option.bind_map]
      exact ih fun m hm => h (m + 1) (Nat.succ_lt_succ hm)

/-- Ranks and places counted among the numbered places find the place each entry comes from. -/
theorem abnfNumberOrder_eq (alts : List Seq) : abnfNumberOrder alts =
    (List.range alts.length).filterMap fun i => alts[slotSource (slotKey alts) (numberSlots alts) i]? := by
  have hslots := numberSlots_sorted alts
  have hkey := slotKey_nodup alts
  unfold abnfNumberOrder
  refine List.filterMap_congr fun i hi => ?_
  change (if (alts.map abnfAltNumber).getD i (-1) < 0 then alts[i]? else _) = _
  -- an alternative without a number stays where it is
  by_cases hneg : (alts.map abnfAltNumber).getD i (-1) < 0
  · rw [if_pos hneg, slotSource_of_not_mem fun hm => ?_]
    have hnot := List.of_mem_filter hm
    rw [decide_eq_true hneg] at hnot
    cases hnot
  · have hslot : i ∈ numberSlots alts := List.mem_filter.2 ⟨hi, by simpa using hneg⟩
    have hcount : ((numberSlots alts).filter fun j => decide (j < i)).length = rankOf id (numberSlots alts) i := by
      rw [rankOf, List.countP_eq_length_filter]
      rfl
    -- what the render counts before a slot is its rank among the slots
    have hranks : ∀ x, ((numberSlots alts).filter fun j =>
        decide ((alts.map abnfAltNumber).getD j (-1) < (alts.map abnfAltNumber).getD x (-1)) ||
          (decide ((alts.map abnfAltNumber).getD j (-1) = (alts.map abnfAltNumber).getD x (-1)) && decide
            (j < x))).length =
            rankOf (slotKey alts) (numberSlots alts) x := by
      intro x
      rw [rankOf, List.countP_eq_length_filter]
      refine congrArg _ (List.filter_congr fun j _ => ?_)
      rw [Bool.eq_iff_iff, decide_eq_true_eq, slotKey_lt]
      simp only [Bool.or_eq_true, Bool.and_eq_true, decide_eq_true_eq]
    rw [if_neg hneg]
    change ((List.range (numberSlots alts).length).filter fun m => decide (((numberSlots alts).map fun x =>
      ((numberSlots alts).filter fun j =>
        decide ((alts.map abnfAltNumber).getD j (-1) < (alts.map abnfAltNumber).getD x (-1)) ||
          (decide ((alts.map abnfAltNumber).getD j (-1) = (alts.map abnfAltNumber).getD x (-1)) &&
            decide (j < x))).length).getD m 0 = ((numberSlots alts).filter fun j => decide (j < i)).length)).head?.bind
              (fun m => (numberSlots alts)[m]?.bind (alts[·]?)) = _
    simp only [hranks, hcount]
    have hplace := getElem?_rankSort hslots hkey hslot
    obtain ⟨hrank, hsource⟩ := List.getElem?_eq_some_iff.1 hplace
    rw [← Option.bind_assoc, head_places (q := fun x => rankOf (slotKey alts) (numberSlots alts) x ==
      rankOf id (numberSlots alts) i), head_rank (rankSort_spec hkey).1 (rankSort_spec hkey).2 hrank, hsource]
    · rfl
    · intro m hm
      rw [List.getD_eq_getElem _ _ (by rwa [List.length_map]), List.getElem_map]
      rfl

theorem getD_numbers {alts : List Seq} (i : Fin alts.length) :
    (alts.map abnfAltNumber).getD i (-1) = abnfAltNumber (alts.get i) := by
  rw [List.getD_eq_getElem _ _ (by rw [List.length_map]; exact i.isLt), List.getElem_map]
  rfl

theorem mem_numberSlots {alts : List Seq} {i : Fin alts.length} :
    (i : Nat) ∈ numberSlots alts ↔ ∃ n, Numbered (alts.get i) n := by
  rw [numberSlots, List.mem_filter, getD_numbers, Bool.not_eq_true', decide_eq_false_iff_not, abnfAltNumber_neg]
  simp

/-- Each place of the order is where the alternative of one place of the list comes to. -/
theorem exists_numberPerm (alts : List Seq) : ∃ σ : Equiv.Perm (Fin alts.length),
    (∀ i, (σ i : Nat) = slotSource (slotKey alts) (numberSlots alts) i) ∧
      abnfNumberOrder alts = List.ofFn fun i => alts.get (σ i) := by
  obtain ⟨σ, hσ⟩ := exists_slotPerm (numberSlots_sorted alts) (slotKey_nodup alts) fun i hi =>
    List.mem_range.1 (List.mem_of_mem_filter hi)
  refine ⟨σ, hσ, ?_⟩
  have hlen : (List.ofFn fun i => alts.get (σ i)).length = alts.length := List.length_ofFn
  rw [abnfNumberOrder_eq]
  conv_lhs => rw [← hlen]
  refine filterMap_range fun k hk => ?_
  have hplace : slotSource (slotKey alts) (numberSlots alts) k = σ ⟨k, hlen ▸ hk⟩ := (hσ ⟨k, hlen ▸ hk⟩).symm
  rw [List.getElem_ofFn, hplace, List.getElem?_eq_getElem (σ _).isLt]
  rfl

/-- The alternatives stay, each in its own or another's place. -/
theorem abnfNumberOrder_perm (alts : List Seq) : (abnfNumberOrder alts).Perm alts := by
  obtain ⟨σ, -, hall⟩ := exists_numberPerm alts
  rw [hall]
  have hperm := σ.ofFn_comp_perm alts.get
  rwa [List.ofFn_get] at hperm

/-- The alternatives that end in a numbered helper are sorted by the numbers among their own places, those of one
number in the order they stood in, and every other stays in its place. -/
theorem abnfNumberOrder_sorts (alts : List Seq) : ∃ σ : Equiv.Perm (Fin alts.length),
    abnfNumberOrder alts = List.ofFn (fun i => alts.get (σ i)) ∧
      (∀ i, (∀ n, ¬ Numbered (alts.get i) n) → σ i = i) ∧
      ∀ i j, i < j → (∃ n, Numbered (alts.get i) n) → (∃ n, Numbered (alts.get j) n) →
        ∃ m n, Numbered (alts.get (σ i)) m ∧ Numbered (alts.get (σ j)) n ∧ (m < n ∨ m = n ∧ σ i < σ j) := by
  have hslots := numberSlots_sorted alts
  have hkey := slotKey_nodup alts
  obtain ⟨σ, hσ, hall⟩ := exists_numberPerm alts
  refine ⟨σ, hall, fun i hi => ?_, fun i j hij hi hj => ?_⟩
  · have hout : (i : Nat) ∉ numberSlots alts := fun hm => (mem_numberSlots.1 hm).elim hi
    exact Fin.ext ((hσ i).trans (slotSource_of_not_mem hout))
  · have hi := mem_numberSlots.2 hi
    have hj := mem_numberSlots.2 hj
    have hsi := slotSource_mem hslots hkey hi
    have hsj := slotSource_mem hslots hkey hj
    have hlt := slotSource_lt hslots hkey hi hj hij
    rw [← hσ, mem_numberSlots] at hsi hsj
    obtain ⟨m, hm⟩ := hsi
    obtain ⟨n, hn⟩ := hsj
    rw [← hσ, ← hσ, slotKey_lt, getD_numbers, getD_numbers, abnfAltNumber_iff.2 hm, abnfAltNumber_iff.2 hn] at hlt
    refine ⟨m, n, hm, hn, hlt.imp (fun h => ?_) fun h => ⟨?_, h.2⟩⟩
    · omega
    · omega

example : abnfNumberOrder [[.ref "_gen12_opt".toList], [.tok ['x']], [.ref "_gen2_star".toList],
  [.ref "_gen12".toList]] =
    [[.ref "_gen2_star".toList], [.tok ['x']], [.ref "_gen12_opt".toList], [.ref "_gen12".toList]] := rfl

end TabnasAbnf.Render
