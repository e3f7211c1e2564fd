/-
Rules that are read without a loss: what each reader of a rule's alternates leaves unread is idle in them, so the
alternatives read back generate what the rule does.
-/
import TabnasAbnf.Render.Generates

namespace TabnasAbnf.Render

open TabnasAbnf.Base

section

variable {cx : Context} {name : Text}

/-! ## Alternatives of one segment -/

/-- Open alternates with one key are read alike. -/
def EntriesApart (opens : List Json) : Prop :=
  ∀ a ∈ opens, ∀ b ∈ opens, abnfEntryKey a = abnfEntryKey b → abnfEntryEls a = abnfEntryEls b

theorem abnfCopies_pos {opens : List Json} {alt : Json} (h : alt ∈ opens) : 0 < abnfCopies opens alt := by
  have hgroup : alt ∈ opens.filter fun (a : Json) => abnfSame (abnfEntryKey a) (abnfEntryKey alt) :=
    List.mem_filter.2 ⟨h, abnfSame_iff.2 rfl⟩
  unfold abnfCopies
  dsimp only
  rw [head_greatest]
  refine Nat.lt_of_lt_of_le ?_ (le_greatest (List.mem_map_of_mem hgroup))
  exact List.length_pos_of_mem (List.mem_filter.2 ⟨hgroup, abnfSame_iff.2 rfl⟩)

/-- Some item of a key is kept. -/
theorem exists_abnfUnique {opens : List Json} {alt : Json} (h : alt ∈ opens) :
    ∃ a ∈ abnfUnique (fun (a : Json) => abnfEntryKey a) opens, abnfEntryKey a = abnfEntryKey alt := by
  have hone := filter_abnfUnique (fun x => entryKey_ne x) opens (abnfEntryKey alt)
  have hmem : alt ∈ opens.filter fun (a : Json) => decide (abnfEntryKey a = abnfEntryKey alt) :=
    List.mem_filter.2 ⟨h, decide_eq_true rfl⟩
  obtain ⟨a, as, has⟩ := List.exists_cons_of_ne_nil (List.ne_nil_of_mem hmem)
  rw [has] at hone
  have ha : a ∈ (abnfUnique (fun (a : Json) => abnfEntryKey a) opens).filter
      fun (x : Json) => decide (abnfEntryKey x = abnfEntryKey alt) := by
    rw [hone]
    exact List.mem_cons_self
  obtain ⟨hin, hkey⟩ := List.mem_filter.1 ha
  exact ⟨a, hin, of_decide_eq_true hkey⟩

theorem mem_foldedAlts {opens : List Json} (h : EntriesApart opens) {seq : Seq} :
    seq ∈ foldedAlts opens ↔ ∃ alt ∈ opens, abnfEntryEls alt = seq := by
  unfold foldedAlts
  rw [List.mem_flatMap]
  constructor
  · rintro ⟨alt, halt, hseq⟩
    exact ⟨alt, mem_abnfUnique halt, (List.eq_of_mem_replicate hseq).symm⟩
  · rintro ⟨alt, halt, rfl⟩
    obtain ⟨a, ha, hkey⟩ := exists_abnfUnique halt
    refine ⟨a, ha, List.mem_replicate.2 ⟨(abnfCopies_pos (mem_abnfUnique ha)).ne', ?_⟩⟩
    exact (h a (mem_abnfUnique ha) alt halt hkey).symm

/-- The alternatives read are those of the alternates. -/
theorem mem_abnfSimpleAlts {r : Option Json} (h : EntriesApart (abnfOpen r)) {seq : Seq} :
    seq ∈ abnfSimpleAlts r ↔ seq ∈ (abnfOpen r).map fun (alt : Json) => abnfEntryEls alt := by
  rw [abnfSimpleAlts_eq, List.mem_append, (abnfNumberOrder_perm _).mem_iff, List.mem_filter, List.mem_map,
    ← mem_foldedAlts h]
  unfold emptyAlts
  -- the empty alternatives are read first, and the others in their own order
  constructor
  · rintro (hempty | hfull)
    · split at hempty
      · cases hempty
      · rename_i hsome
        rw [List.eq_of_mem_replicate hempty]
        -- an empty alternative stands among those read
        simp only [List.isEmpty_iff, List.filter_eq_nil_iff, not_forall, not_not] at hsome
        obtain ⟨seq, hin, hnil⟩ := hsome
        rwa [← hnil]
    · exact hfull.1
  · intro hin
    by_cases hnil : seq = []
    · subst hnil
      left
      rw [if_neg, List.mem_replicate]
      · refine ⟨?_, rfl⟩
        split <;> omega
      · simp only [List.isEmpty_iff, List.filter_eq_nil_iff, not_forall, not_not]
        exact ⟨[], hin, rfl⟩
    · exact .inr ⟨hin, by simpa using hnil⟩

theorem simpleAlts_words (hkeys : EntriesApart (abnfOpen (abnfRule cx name))) (hcloses : Closes cx name) :
    altsWords cx (abnfSimpleAlts (abnfRule cx name)) = generated cx (.opening name) := by
  rw [opening_words hcloses]
  exact altsWords_congr fun seq => mem_abnfSimpleAlts hkeys

/-! ## Chains -/

/-- The steps of a chain, each of one open alternate, each but the last closed by one that leads to the next. -/
inductive Chain (cx : Context) : Text → Prop
  | last {name alt} : abnfOpen (abnfRule cx name) = [alt] → Closes cx name → Chain cx name
  | next {name alt close next} :
    abnfOpen (abnfRule cx name) = [alt] → Stays alt → abnfClose (abnfRule cx name) = [close] →
    LeadsTo close next → abnfMade cx next = .done true → Chain cx next → Chain cx name

theorem Closes.ends (h : Closes cx name) : abnfR (abnfClose (abnfRule cx name)).head? = [] := by
  rcases hclose : abnfClose (abnfRule cx name) with _ | ⟨close, rest⟩
  · rfl
  · exact (h close (hclose ▸ List.mem_cons_self)).target.2

/-- What a chain is read as from a step on is what it generates from there. -/
theorem chainWalk_words (hc : Chain cx name) {left : Nat} {acc els : Seq}
    (h : abnfChainWalk cx left name acc = .done els) :
    seqWords cx els = seqWords cx acc * generated cx (.opening name) := by
  induction hc generalizing left acc with
  | @last name alt hopen hcloses =>
    rcases chainWalk_done h with ⟨-, rfl⟩ | ⟨hnext, -⟩
    · rw [hopen, List.head?_cons, seqWords_append, opening_words hcloses, hopen, List.map_singleton, altsWords_single]
    · exact absurd hcloses.ends hnext
  | @next name alt close next hopen hstays hclose hleads hmade _ ih =>
    have hnext : abnfR (abnfClose (abnfRule cx name)).head? = next := by
      rw [hclose]
      exact hleads.2.2.1
    rcases chainWalk_done h with ⟨hlast, -⟩ | ⟨-, left', -, h⟩
    · exact absurd (hnext ▸ hlast) hleads.2.2.2
    · rw [hnext] at h
      have hopening : generated cx (.opening name) = seqWords cx (abnfEntryEls alt) * generated cx (.closing name) := by
        refine opening_stays (by rw [hopen]; simp) fun a ha => ?_
        rw [hopen, List.mem_singleton] at ha
        subst ha
        exact ⟨hstays, rfl⟩
      have hclosing : generated cx (.closing name) = generated cx (.opening next) := by
        refine closing_leadsTo (by rw [hclose]; simp) fun a ha => ?_
        rw [hclose, List.mem_singleton] at ha
        subst ha
        exact ⟨next, hleads, words_made hmade⟩
      rw [ih h, hopen, List.head?_cons, seqWords_append, hopening, hclosing, mul_assoc]

theorem chain_words (hc : Chain cx name) {els : Seq} (h : abnfChain cx name = .done els) :
    seqWords cx els = generated cx (.opening name) := by
  rw [chainWalk_words hc h, seqWords, one_mul]

/-! ## Dispatchers -/

/-- A dispatcher that takes nothing itself: each alternate is empty or hands over to the head of an alternative, each
head there is is handed over to, and an alternative is empty where a number is missing. -/
structure Dispatched (cx : Context) (name : Text) : Prop where
  closes : Closes cx name
  opens : ∀ alt ∈ abnfOpen (abnfRule cx name), abnfConsumed alt = [] ∧ (abnfTarget alt = [] ∨
    ∃ i ≤ (abnfOpen (abnfRule cx name)).length, abnfHas cx (abnfHeadName name i) = true ∧
      abnfTarget alt = abnfHeadName name i)
  heads : ∀ i ≤ (abnfOpen (abnfRule cx name)).length, abnfHas cx (abnfHeadName name i) = true →
    abnfMade cx (abnfHeadName name i) = .done true ∧ Chain cx (abnfHeadName name i) ∧
      ∃ alt ∈ abnfOpen (abnfRule cx name), abnfTarget alt = abnfHeadName name i
  gap : ∀ i j : Nat, i < j → j ≤ (abnfOpen (abnfRule cx name)).length → abnfHas cx (abnfHeadName name i) = false →
    abnfHas cx (abnfHeadName name j) = true → ∃ alt ∈ abnfOpen (abnfRule cx name), abnfTarget alt = []

/-- What a head generates, where the spec holds it. -/
def headWords (cx : Context) (name : Text) (i : Nat) : Language El :=
  if abnfHas cx (abnfHeadName name i) then generated cx (.opening (abnfHeadName name i)) else 1

theorem headName_ne (name : Text) (i : Nat) : abnfHeadName name i ≠ [] := by
  simp [abnfHeadName]

/-- A dispatcher generates what its heads do, and nothing where an alternate is empty. -/
theorem Dispatched.mem_words (h : Dispatched cx name) {w : List El} : w ∈ generated cx (.opening name) ↔
    (∃ i ≤ (abnfOpen (abnfRule cx name)).length, abnfHas cx (abnfHeadName name i) = true ∧
      w ∈ generated cx (.opening (abnfHeadName name i))) ∨
        (∃ alt ∈ abnfOpen (abnfRule cx name), abnfTarget alt = []) ∧ w = [] := by
  -- an alternate is read as the head that it hands over to, or as nothing
  have hhead : ∀ alt ∈ abnfOpen (abnfRule cx name), ∀ i ≤ (abnfOpen (abnfRule cx name)).length,
      abnfHas cx (abnfHeadName name i) = true → abnfTarget alt = abnfHeadName name i →
        seqWords cx (abnfEntryEls alt) = generated cx (.opening (abnfHeadName name i)) := by
    intro alt halt i hi hhas htarget
    rw [abnfEntryEls, htarget, if_neg (headName_ne name i), (h.opens alt halt).1]
    exact (seqWords_single _).trans (words_made (h.heads i hi hhas).1)
  have hempty : ∀ alt ∈ abnfOpen (abnfRule cx name), abnfTarget alt = [] → seqWords cx (abnfEntryEls alt) = 1 := by
    intro alt halt htarget
    rw [abnfEntryEls, if_pos htarget, (h.opens alt halt).1]
    rfl
  rw [opening_words h.closes, mem_altsWords]
  constructor
  · rintro ⟨seq, hseq, hw⟩
    obtain ⟨alt, halt, rfl⟩ := List.mem_map.1 hseq
    rcases (h.opens alt halt).2 with htarget | ⟨i, hi, hhas, htarget⟩
    · rw [hempty alt halt htarget] at hw
      exact .inr ⟨⟨alt, halt, htarget⟩, hw⟩
    · rw [hhead alt halt i hi hhas htarget] at hw
      exact .inl ⟨i, hi, hhas, hw⟩
  · rintro (⟨i, hi, hhas, hw⟩ | ⟨⟨alt, halt, htarget⟩, rfl⟩)
    · obtain ⟨alt, halt, htarget⟩ := (h.heads i hi hhas).2.2
      refine ⟨_, List.mem_map_of_mem halt, ?_⟩
      rwa [hhead alt halt i hi hhas htarget]
    · refine ⟨_, List.mem_map_of_mem halt, ?_⟩
      rw [hempty alt halt htarget]
      exact Language.nil_mem_one

/-- The alternatives that some numbers are read as. -/
theorem altsWords_each {f : Nat → Out Seq} {g : Nat → Language El} {nums : List Nat} {alts : List Seq}
    (hf : ∀ i ∈ nums, ∀ seq, f i = .done seq → seqWords cx seq = g i) (h : Run.each f nums = .done alts) :
    altsWords cx alts = (nums.map g).sum := congrArg List.sum (Run.each_map_eq h hf)

theorem Dispatched.chain (h : Dispatched cx name) {i : Nat} (hi : i < (abnfOpen (abnfRule cx name)).length + 1)
    (hhas : abnfHas cx (abnfHeadName name i) = true) {seq : Seq}
    (hseq : abnfChain cx (abnfHeadName name i) = .done seq) :
    seqWords cx seq = generated cx (.opening (abnfHeadName name i)) :=
  chain_words (h.heads i (Nat.le_of_lt_succ hi) hhas).2.1 hseq

/-- The heads there are, read where no number is missing. -/
theorem Dispatched.mem_present (h : Dispatched cx name) {n : Nat} (hn : n = (abnfOpen (abnfRule cx name)).length)
    {heads : List Seq}
    (hheads : Run.each (fun i => abnfChain cx (abnfHeadName name i))
      ((List.range (n + 1)).filter fun i => abnfHas cx (abnfHeadName name i)) = .done heads) {w : List El} :
    w ∈ altsWords cx heads ↔
      ∃ i ≤ n, abnfHas cx (abnfHeadName name i) = true ∧ w ∈ generated cx (.opening (abnfHeadName name i)) := by
  have hread : ∀ i ∈ (List.range (n + 1)).filter fun i => abnfHas cx (abnfHeadName name i), ∀ seq,
      abnfChain cx (abnfHeadName name i) = .done seq →
        seqWords cx seq = generated cx (.opening (abnfHeadName name i)) := by
    intro i hi seq hseq
    obtain ⟨hrange, hhas⟩ := List.mem_filter.1 hi
    exact h.chain (hn ▸ List.mem_range.1 hrange) hhas hseq
  rw [altsWords_each hread hheads, mem_sum]
  simp only [List.mem_filter, List.mem_range, Nat.lt_succ_iff, and_assoc]

/-- The heads up to the last one, an empty alternative read for a number that is missing. -/
theorem Dispatched.mem_upTo (h : Dispatched cx name) {n last : Nat} (hn : n = (abnfOpen (abnfRule cx name)).length)
    {alts : List Seq}
    (halts : Run.each
      (fun i => if abnfHas cx (abnfHeadName name i) then abnfChain cx (abnfHeadName name i) else .done [])
      ((List.range (n + 1)).filter fun i => !decide (last < i)) = .done alts) {w : List El} :
    w ∈ altsWords cx alts ↔ ∃ i ≤ n, i ≤ last ∧ w ∈ headWords cx name i := by
  have hread : ∀ i ∈ (List.range (n + 1)).filter fun i => !decide (last < i), ∀ seq,
      (if abnfHas cx (abnfHeadName name i) then abnfChain cx (abnfHeadName name i) else .done []) = .done seq →
        seqWords cx seq = headWords cx name i := by
    intro i hi seq hseq
    have hrange := List.mem_range.1 (List.mem_filter.1 hi).1
    unfold headWords
    by_cases hhas : abnfHas cx (abnfHeadName name i) = true
    · rw [if_pos hhas] at hseq ⊢
      exact h.chain (hn ▸ hrange) hhas hseq
    · rw [if_neg hhas] at hseq ⊢
      cases hseq
      rfl
  rw [altsWords_each hread halts, mem_sum]
  simp only [List.mem_filter, List.mem_range, Nat.lt_succ_iff, Bool.not_eq_true', decide_eq_false_iff_not, Nat.not_lt,
    and_assoc]

/-- Where one number is missing, no head has it. -/
theorem exists_gap {has : Nat → Bool} {n last : Nat}
    (h : ((List.range n).filter fun (i : Nat) => decide (i < last) &&
      !abnfAmong (abnfNum i) (((List.range n).filter has).map fun (j : Nat) => abnfNum j)).length = 1) :
    ∃ gap < n, gap < last ∧ has gap = false := by
  obtain ⟨gap, hgap⟩ := List.exists_mem_of_length_pos (h ▸ Nat.one_pos)
  simp only [List.mem_filter, List.mem_range, Bool.and_eq_true, decide_eq_true_eq, Bool.not_eq_true',
    Bool.eq_false_iff, ne_eq,
    among_iff, List.mem_map, not_exists, not_and] at hgap
  refine ⟨gap, hgap.1, hgap.2.1, ?_⟩
  rw [Bool.eq_false_iff]
  exact fun hin => hgap.2.2 gap ⟨hgap.1, hin⟩ rfl

theorem dispatchAlts_words (h : Dispatched cx name) {alts : List Seq}
    (halts : abnfDispatchAlts cx name (abnfRule cx name) = .done alts) :
    altsWords cx alts = generated cx (.opening name) := by
  unfold abnfDispatchAlts at halts
  simp only at halts
  split at halts
  · cases halts
  · rename_i last hlast
    obtain ⟨hle, hhas, hmax⟩ := last_filter_range hlast
    ext w
    rw [h.mem_words]
    split at halts
    · -- no number is missing: an empty alternate is read as an alternative of its own
      obtain ⟨heads, hheads, halts⟩ := Run.bind_eq_done halts
      cases halts
      have hsome : (!((abnfOpen (abnfRule cx name)).filter fun (alt : Json) => (abnfTarget alt).isEmpty).isEmpty) =
        true ↔
          ∃ alt ∈ abnfOpen (abnfRule cx name), abnfTarget alt = [] := by
        simp [List.isEmpty_iff]
      rw [altsWords_append, Language.mem_add, h.mem_present rfl hheads]
      refine or_congr Iff.rfl ?_
      split_ifs with hempty
      · rw [altsWords_single]
        exact (and_iff_right (hsome.1 hempty)).symm
      · exact iff_of_false (Language.notMem_zero w) fun hw => hempty (hsome.2 hw.1)
    · -- one is, before the last: the empty alternate is read in its place
      rename_i hone
      obtain ⟨gap, hgap, hbefore, hfree⟩ := exists_gap hone
      have hempty := h.gap gap last hbefore (Nat.le_of_lt_succ hle) hfree hhas
      rw [h.mem_upTo rfl halts]
      unfold headWords
      constructor
      · rintro ⟨i, hi, -, hw⟩
        split at hw
        · rename_i hin
          exact .inl ⟨i, hi, hin, hw⟩
        · exact .inr ⟨hempty, hw⟩
      · rintro (⟨i, hi, hin, hw⟩ | ⟨-, rfl⟩)
        · exact ⟨i, hi, hmax i (Nat.lt_succ_of_le hi) hin, by rwa [if_pos hin]⟩
        · refine ⟨gap, Nat.le_of_lt_succ hgap, Nat.le_of_lt hbefore, ?_⟩
          rw [hfree, if_neg Bool.false_ne_true]
          exact Language.nil_mem_one
    · cases halts

/-! ## A rule's alternatives -/

/-- A rule the reading of which takes all that its alternates hold. A tail repeat is not among them: written in the
place of a reference it would be written within itself. -/
structure Lossless (cx : Context) (name : Text) : Prop where
  tail : abnfIsTail name (abnfRule cx name) = false
  dispatched : abnfDispatches name (abnfRule cx name) = true → Dispatched cx name
  simple : abnfDispatches name (abnfRule cx name) = false → abnfR (abnfClose (abnfRule cx name)).head? = [] →
    EntriesApart (abnfOpen (abnfRule cx name)) ∧ Closes cx name
  chain :
    abnfDispatches name (abnfRule cx name) = false → abnfR (abnfClose (abnfRule cx name)).head? ≠ [] → Chain cx name

theorem rawAlts_words (h : Lossless cx name) {raw : List Seq} (hraw : abnfRawAlts cx name = .done raw) :
    altsWords cx raw = generated cx (.opening name) := by
  unfold abnfRawAlts at hraw
  simp only [h.tail, Bool.false_eq_true, if_false] at hraw
  split at hraw
  · rename_i hdispatches
    exact dispatchAlts_words (h.dispatched hdispatches) hraw
  · rename_i hdispatches
    have hnot : abnfDispatches name (abnfRule cx name) = false := by simpa using hdispatches
    split at hraw
    · rename_i hnone
      cases hraw
      obtain ⟨hkeys, hcloses⟩ := h.simple hnot (by rw [hnone]; rfl)
      exact simpleAlts_words hkeys hcloses
    · rename_i close hclose
      split at hraw
      · rename_i hr
        cases hraw
        obtain ⟨hkeys, hcloses⟩ := h.simple hnot (by rw [hclose]; exact hr)
        exact simpleAlts_words hkeys hcloses
      · rename_i hr
        obtain ⟨seq, hseq, hraw⟩ := Run.bind_eq_done hraw
        cases hraw
        rw [altsWords_single]
        exact chain_words (h.chain hnot (by rw [hclose]; exact hr)) hseq

end

end TabnasAbnf.Render
