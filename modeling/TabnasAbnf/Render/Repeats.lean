/-
What the rules of a repetition generate: a loop, its item any number of times; nested options, their item as often
as they go deep; and the sequence of a repetition that is counted.
-/
import TabnasAbnf.Render.Lossless
import TabnasAbnf.Render.Tree

namespace TabnasAbnf.Render

open TabnasAbnf.Base
open scoped Computability

/-! ## Loops -/

section

variable (cx : Context) (loop : Text) (item : El)

/-- A rule that leads back to a loop: the loop, or a rule that hands over to it and no more. -/
inductive Returns : Text → Prop
  | loop : Returns loop
  | step {name} : abnfMade cx name = .done true → abnfOpen (abnfRule cx name) ≠ [] →
    (∀ alt ∈ abnfOpen (abnfRule cx name), abnfEntryEls alt = [.ref loop]) → Closes cx name → Returns name

/-- A step of a loop: it pushes the item, and a rule that leads back takes its place. -/
structure Iterates (name : Text) : Prop where
  made : abnfMade cx name = .done true
  opens : abnfOpen (abnfRule cx name) ≠ []
  pushes : ∀ alt ∈ abnfOpen (abnfRule cx name), abnfP alt ≠ [] ∧ abnfEntryEls alt = [item]
  closes : abnfClose (abnfRule cx name) ≠ []
  returns : ∀ alt ∈ abnfClose (abnfRule cx name), ∃ next, LeadsTo alt next ∧ Returns cx loop next

/-- An alternate of a loop that takes the item, a token itself or by a step. -/
inductive Continues (alt : Json) : Prop
  | token {t} : item = .tok t → abnfConsumed alt = [t] → abnfP alt = [] → abnfR alt = loop → loop ≠ [] → Continues alt
  | step {next} : LeadsTo alt next → next ≠ loop → Iterates cx loop item next → Continues alt

/-- A loop of which each alternate ends it, enters it again or takes the one item. -/
structure Loop : Prop where
  made : abnfMade cx loop = .done true
  closes : Closes cx loop
  opens : ∀ alt ∈ abnfOpen (abnfRule cx loop), Idle alt ∨ LeadsTo alt loop ∨ Continues cx loop item alt
  ends : ∃ alt ∈ abnfOpen (abnfRule cx loop), Idle alt
  continues : ∃ alt ∈ abnfOpen (abnfRule cx loop), Continues cx loop item alt

/-- What bounds the rules of a loop. -/
inductive LoopBound : Stage → Language El → Prop
  | returns {name} : Returns cx loop name → LoopBound (.opening name) (item.words cx)∗
  | opening {name} : Iterates cx loop item name → LoopBound (.opening name) (item.words cx * (item.words cx)∗)
  | closing {name} : Iterates cx loop item name → LoopBound (.closing name) (item.words cx)∗

end

section

variable {cx : Context} {loop name : Text} {item : El} {alt : Json}

theorem Iterates.item_eq (h : Iterates cx loop item name) :
    item = .ref (abnfP (abnfOpen (abnfRule cx name)).head?) ∧ abnfP (abnfOpen (abnfRule cx name)).head? ≠ [] := by
  obtain ⟨alt, alts, hopen⟩ := List.exists_cons_of_ne_nil h.opens
  obtain ⟨hp, hels⟩ := h.pushes alt (hopen ▸ List.mem_cons_self)
  rw [hopen, List.head?_cons]
  refine ⟨?_, hp⟩
  rw [abnfEntryEls, abnfTarget, if_neg hp, if_neg hp] at hels
  have hlast := congrArg List.getLast? hels
  rw [List.getLast?_concat] at hlast
  exact (Option.some.inj hlast).symm

/-- The item that is read is the loop's. -/
theorem Loop.item_eq (h : Loop cx loop item) {item' : El}
    (hitem : abnfLoopItem cx loop (abnfRule cx loop) = .done item') :
    item' = item := by
  unfold abnfLoopItem at hitem
  split at hitem
  · cases hitem
  · rename_i alt halt
    have hin := List.mem_of_mem_head? halt
    have hr : abnfR alt ≠ [] := by simpa using (List.mem_filter.1 hin).2
    rcases h.opens alt (List.mem_of_mem_tail (List.mem_of_mem_filter hin)) with hidle | hleads | hcont
    · exact absurd hidle.target.2 hr
    · rw [if_pos (abnfSame_iff.2 hleads.2.2.1), hleads.1] at hitem
      cases hitem
    · cases hcont with
      | token hitem' htoks hp hloop hne =>
        rw [if_pos (abnfSame_iff.2 hloop), htoks] at hitem
        rw [hitem']
        exact (Run.done.inj hitem).symm
      | step hleads hne hstep =>
        obtain ⟨-, -, rfl, -⟩ := hleads
        rw [if_neg (mt abnfSame_iff.1 hne)] at hitem
        simp only at hitem
        rw [if_neg hstep.item_eq.2] at hitem
        rw [hstep.item_eq.1]
        exact (Run.done.inj hitem).symm

theorem Returns.made (h : Returns cx loop name) (hloop : abnfMade cx loop = .done true) :
    abnfMade cx name = .done true := by
  cases h with
  | loop => exact hloop
  | step hmade _ _ _ => exact hmade

theorem Returns.words (h : Returns cx loop name) (hloop : abnfMade cx loop = .done true) :
    (El.ref name).words cx = generated cx (.opening loop) := by
  cases h with
  | loop => exact words_made hloop
  | step hmade hne hels hcloses =>
    rw [words_made hmade, opening_words hcloses, altsWords, List.map_map]
    refine sum_same hne fun alt halt => ?_
    rw [Function.comp_apply, hels alt halt, seqWords_single, words_made hloop]

theorem Iterates.words (h : Iterates cx loop item name) (hloop : abnfMade cx loop = .done true) :
    (El.ref name).words cx = item.words cx * generated cx (.opening loop) := by
  have hclosing : generated cx (.closing name) = generated cx (.opening loop) := by
    refine closing_leadsTo h.closes fun alt halt => ?_
    obtain ⟨next, hleads, hreturns⟩ := h.returns alt halt
    exact ⟨next, hleads, hreturns.words hloop⟩
  rw [words_made h.made, opening_stays h.opens fun alt halt => (h.pushes alt halt).imp_left .inl,
    seqWords_single, hclosing]

/-- The bounds are kept by each alternate of the loop and of its steps. -/
theorem Loop.bounded (h : Loop cx loop item) {s : Stage} {l : Language El} (hs : LoopBound cx loop item s l)
    {rhs : List (El ⊕ Stage)} (hrhs : rhs ∈ sides cx s) {L : Stage → Language El} (hL : ∀ s, L s ≤ generated cx s)
    (hbound : ∀ s l, LoopBound cx loop item s l → L s ≤ l) : through L rhs ≤ l := by
  have hstar : item.words cx * (item.words cx)∗ ≤ (item.words cx)∗ := mul_kstar_le_kstar
  have hclosed : ∀ {name}, Closes cx name → L (.closing name) ≤ 1 := fun hcloses => closing_eq_one hcloses ▸ hL _
  cases hs with
  | returns hreturns =>
    cases hreturns with
    | loop =>
      obtain ⟨alt, halt, rfl⟩ := List.mem_map.1 hrhs
      -- the loop ends, is entered again, or takes its item
      rcases h.opens alt halt with hidle | hleads | hcont
      · rw [side_idle hidle, through_cons_state, through_nil, mul_one]
        exact (hclosed h.closes).trans one_le_kstar
      · rw [side_leadsTo hleads, symbol_made h.made, through_cons_state, through_nil, mul_one]
        exact hbound _ _ (.returns .loop)
      · cases hcont with
        | token hitem htoks hp hr hne =>
          have hletter : item.words cx = single item := by rw [hitem, El.words]
          have hside : side cx loop alt [.inr (.closing loop)] = [.inl item, .inr (.opening loop)] := by
            rw [side, htoks, if_pos hp, hr, if_neg hne, symbol_made h.made, hitem]
            rfl
          rw [hside, through_cons_single, through_cons_state, through_nil, mul_one, ← hletter]
          exact (mul_le_mul_right (hbound _ _ (.returns .loop)) _).trans hstar
        | step hleads _ hstep =>
          rw [side_leadsTo hleads, symbol_made hstep.made, through_cons_state, through_nil, mul_one]
          exact (hbound _ _ (.opening hstep)).trans hstar
    | @step name hmade hne hels hcloses =>
      obtain ⟨alt, halt, rfl⟩ := List.mem_map.1 hrhs
      -- the loop, pushed or in the rule's place, and close alternates that take nothing
      rw [side_eq, hels alt halt, through_append, List.map_singleton, El.symbol, symbol_made h.made, through_cons_state,
        through_nil, mul_one]
      refine (mul_le_mul' (hbound _ _ (.returns .loop)) ?_).trans_eq (mul_one _)
      split_ifs
      · rw [through_cons_state, through_nil, mul_one]
        exact hclosed hcloses
      · exact le_rfl
      · rw [through_cons_state, through_nil, mul_one]
        exact hclosed hcloses
  | @opening name hstep =>
    obtain ⟨alt, halt, rfl⟩ := List.mem_map.1 hrhs
    obtain ⟨hp, hels⟩ := hstep.pushes alt halt
    rw [side_eq, hels, through_append, if_neg hp, through_cons_state, through_nil, mul_one]
    refine mul_le_mul' ?_ (hbound _ _ (.closing hstep))
    rw [← seqWords_single, ← hels]
    exact (through_mono hL _).trans_eq (seqWords_symbols fun el => mem_entryEls)
  | closing hstep =>
    rw [sides, if_neg (by simpa using hstep.closes)] at hrhs
    obtain ⟨alt, halt, rfl⟩ := List.mem_map.1 hrhs
    obtain ⟨next, hleads, hreturns⟩ := hstep.returns alt halt
    rw [side_leadsTo hleads, symbol_made (hreturns.made h.made), through_cons_state, through_nil, mul_one]
    exact hbound _ _ (.returns hreturns)

/-- A loop generates its item any number of times. -/
theorem Loop.words (h : Loop cx loop item) : generated cx (.opening loop) = (item.words cx)∗ := by
  apply le_antisymm
  · -- no alternate leaves what the bounds allow
    refine language_bound ?_ (LoopBound.returns .loop)
    exact fun s l hs rhs hrhs L hL hbound => h.bounded hs hrhs hL hbound
  · -- the loop ends with nothing, and takes its item before itself
    refine kstar_le_of_mul_le_right ?_ ?_
    · obtain ⟨alt, halt, hidle⟩ := h.ends
      have hle := side_le_opening halt
      rwa [side_idle hidle, through_cons_state, through_nil, mul_one, closing_eq_one h.closes] at hle
    · obtain ⟨alt, halt, hcont⟩ := h.continues
      refine le_trans (le_of_eq ?_) (side_le_opening halt)
      cases hcont with
      | token hitem htoks hp hr hne =>
        rw [side_words, if_pos hp, if_neg (hr ▸ hne), mul_one, abnfEntryEls, abnfTarget, if_pos hp, hr,
          if_neg hne, htoks,
          hitem]
        show _ = seqWords cx [.tok _, .ref loop]
        rw [seqWords, seqWords_single, words_made h.made]
      | step hleads _ hstep =>
        rw [side_leadsTo hleads, symbol_made hstep.made, through_cons_state, through_nil, mul_one,
          ← words_made hstep.made,
          hstep.words h.made]

end

/-! ## Nested options -/

/-- An option over one element: its alternatives are the element alone and an empty one. -/
structure Over (cx : Context) (opt : Text) (inner : El) : Prop where
  kind : abnfHelperKind cx opt = .done (some "opt".toList)
  lossless : Lossless cx opt
  alts : ∃ raw, abnfRawAlts cx opt = .done raw ∧ ∀ seq, seq ∈ raw ↔ seq = [] ∨ seq = [inner]

/-- A rule whose one alternative is a sequence. -/
def Only (cx : Context) (name : Text) (seq : Seq) : Prop :=
  ∃ raw, abnfRawAlts cx name = .done raw ∧ ∀ s, s ∈ raw ↔ s = seq

/-- A group of one sequence. -/
structure Around (cx : Context) (group : Text) (seq : Seq) : Prop where
  kind : abnfHelperKind cx group = .done (some "group".toList)
  lossless : Lossless cx group
  alts : Only cx group seq

/-- Options over groups, each of an item and the next option, the innermost of the item alone; and how deep they go. -/
inductive OptChain (cx : Context) (item : El) (inner : Text) : Text → Nat → Prop
  | last {opt} : Over cx opt (.ref inner) → Around cx inner [item] → OptChain cx item inner opt 1
  | next {opt group rest depth} : Over cx opt (.ref group) → Around cx group [item, .ref rest] →
    OptChain cx item inner rest depth → OptChain cx item inner opt (depth + 1)

/-- The innermost group's name, under the number of the repetition. -/
def innerGroup (rep : Text) : Text := "_gen".toList ++ abnfNum (abnfGenNumber rep) ++ "_group".toList

/-- How deep the outermost option's number says that the options go. -/
def optDepth (rep opt : Text) : Nat :=
  ((List.range ((List.range (abnfGenNumber opt + 1)).filter fun j => !decide (j < abnfGenNumber rep)).length).filter
    abnfEven).length

/-- A counted repetition's sequence: copies of the item alone, or before a loop of it or options over it. -/
inductive Copies (cx : Context) (rep : Text) (item : El) : Seq → Prop
  | exactly {n} :
    (∀ kind, abnfHelperKind cx item.name = .done kind → kind ≠ some "star".toList ∧ kind ≠ some "opt".toList) →
    Copies cx rep item (List.replicate (n + 1) item)
  | atLeast {n loop} : abnfHelperKind cx loop = .done (some "star".toList) → Loop cx loop item →
    Copies cx rep item (List.replicate n item ++ [.ref loop])
  | upTo {n opt} : OptChain cx item (innerGroup rep) opt (optDepth rep opt) →
    Copies cx rep item (List.replicate n item ++ [.ref opt])

section

variable {cx : Context} {name opt group rep : Text} {item inner : El} {seq : Seq}

theorem made_of_kind {kind : Text} (h : abnfHelperKind cx name = .done (some kind)) (hne : kind ≠ []) :
    abnfMade cx name = .done true := by
  obtain ⟨made, hmade, h⟩ := Run.bind_eq_done h
  cases made with
  | true => exact hmade
  | false =>
    rw [Bool.not_false, if_pos rfl] at h
    exact absurd (Option.some.inj (Run.done.inj h)).symm hne

theorem Over.words (h : Over cx opt inner) : (El.ref opt).words cx = 1 + inner.words cx := by
  obtain ⟨raw, hraw, hmem⟩ := h.alts
  have hsame : altsWords cx raw = altsWords cx ([[]] ++ [[inner]]) := by
    refine altsWords_congr fun seq => ?_
    rw [hmem]
    simp
  rw [words_made (made_of_kind h.kind (by decide)), ← rawAlts_words h.lossless hraw, hsame, altsWords_append,
    altsWords_single,
    altsWords_single, seqWords_single, seqWords]

theorem Only.words (h : Only cx name seq) (hlossless : Lossless cx name) :
    generated cx (.opening name) = seqWords cx seq := by
  obtain ⟨raw, hraw, hmem⟩ := h
  have hsame : altsWords cx raw = altsWords cx [seq] := altsWords_congr fun s => by rw [hmem, List.mem_singleton]
  rw [← rawAlts_words hlossless hraw, hsame, altsWords_single]

theorem Only.head (h : Only cx name seq) {raw : List Seq} (hraw : abnfRawAlts cx name = .done raw) :
    raw.head? = some seq := by
  obtain ⟨raw', hraw', hmem⟩ := h
  cases hraw'.symm.trans hraw
  obtain ⟨first, rest, rfl⟩ := List.exists_cons_of_ne_nil (List.ne_nil_of_mem ((hmem seq).2 rfl))
  rw [List.head?_cons, (hmem first).1 List.mem_cons_self]

theorem Around.words (h : Around cx group seq) : (El.ref group).words cx = seqWords cx seq := by
  rw [words_made (made_of_kind h.kind (by decide)), h.alts.words h.lossless]

/-- Nested options generate at most as many items as they go deep. -/
theorem OptChain.words {innermost : Text} {depth : Nat} (h : OptChain cx item innermost opt depth) :
    (El.ref opt).words cx = repeated (item.words cx) 0 (some depth) := by
  induction h with
  | last hover haround => rw [hover.words, haround.words, seqWords_single, repeated_option]
  | next hover haround _ ih => rw [hover.words, haround.words, seqWords, seqWords_single, ih, repeated_succ]

theorem OptChain.innermost {innermost : Text} {depth : Nat} (h : OptChain cx item innermost opt depth) :
    abnfHelperKind cx opt = .done (some "opt".toList) ∧ Around cx innermost [item] := by
  induction h with
  | last hover haround => exact ⟨hover.kind, haround⟩
  | next hover _ _ ih => exact ⟨hover.kind, ih.2⟩

theorem OptChain.chain {depth : Nat} (h : OptChain cx item (innerGroup rep) opt depth) {chain : El × Nat}
    (hchain : abnfRepChain cx rep opt = .done chain) : chain = (item, optDepth rep opt) := by
  unfold abnfRepChain at hchain
  simp only at hchain
  split at hchain
  · obtain ⟨alts, halts, hchain⟩ := Run.bind_eq_done hchain
    rw [h.innermost.2.alts.head halts] at hchain
    exact (Run.done.inj hchain).symm
  · cases hchain

/-- The parts that are read of a repetition are its item and how often its sequence generates it. -/
theorem Copies.parts (h : Copies cx rep item seq) (honly : Only cx rep seq) {parts : RepParts}
    (hparts : abnfRepParts cx rep = .done parts) :
    parts.item = item ∧ seqWords cx seq = repeated (item.words cx) parts.count.min parts.count.max := by
  have hnum : ∀ n : Nat, (if abnfNum n = [] then none else some (ofDigits 10 (abnfNum n))) = some n := fun n => by
    rw [if_neg (abnfNum_digits n).1, (abnfNum_digits n).2.2]
  unfold abnfRepParts at hparts
  obtain ⟨raw, hraw, hparts⟩ := Run.bind_eq_done hparts
  rw [honly.head hraw, Run.ofOption, Run.done_bind] at hparts
  -- the last element tells the three forms apart
  cases h with
  | @exactly n hkind =>
    rw [show (List.replicate (n + 1) item).getLast? = some item by rw [List.replicate_succ', List.getLast?_concat]]
      at hparts
    obtain ⟨kind, hrun, hparts⟩ := Run.bind_eq_done hparts
    rw [if_neg (hkind kind hrun).1, if_neg (hkind kind hrun).2, List.length_replicate] at hparts
    cases hparts
    refine ⟨rfl, ?_⟩
    rw [seqWords_replicate, RepParts.count, hnum]
    exact (repeated_exactly _).symm
  | @atLeast n loop hkind hloop =>
    rw [List.getLast?_concat, List.dropLast_concat] at hparts
    simp only [List.length_replicate] at hparts
    obtain ⟨kind, hrun, hparts⟩ := Run.bind_eq_done hparts
    cases hkind.symm.trans hrun
    rw [if_pos rfl] at hparts
    obtain ⟨item', hitem, hparts⟩ := Run.bind_eq_done hparts
    cases hparts
    refine ⟨hloop.item_eq hitem, ?_⟩
    rw [seqWords_append, seqWords_replicate, seqWords_single, words_made hloop.made, hloop.words]
    exact (repeated_atLeast n).symm
  | @upTo n opt hchain =>
    rw [List.getLast?_concat, List.dropLast_concat] at hparts
    simp only [List.length_replicate] at hparts
    obtain ⟨kind, hrun, hparts⟩ := Run.bind_eq_done hparts
    cases hchain.innermost.1.symm.trans hrun
    rw [if_neg (by decide), if_pos rfl] at hparts
    obtain ⟨chain, hchain', hparts⟩ := Run.bind_eq_done hparts
    cases hparts
    rw [hchain.chain hchain']
    refine ⟨rfl, ?_⟩
    rw [seqWords_append, seqWords_replicate, seqWords_single, hchain.words, RepParts.count, hnum]
    exact (repeated_add _ _).symm

end

end TabnasAbnf.Render
