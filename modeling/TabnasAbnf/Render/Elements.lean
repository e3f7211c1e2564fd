/-
Where elements come from: every element the render reads out of a spec is made of tokens that the spec's
alternates consume and of rules that they push or are replaced by.
-/
import TabnasAbnf.Render.Helpers
import TabnasAbnf.Render.NumberOrder

namespace TabnasAbnf.Render

open TabnasAbnf.Base

/-! ## The spec's alternates -/

def alternates (cx : Context) : List Json := cx.rules.flatMap fun r => abnfOpen r.2 ++ abnfClose r.2

/-- The tokens they consume. -/
def usedTokens (cx : Context) : List Text := (alternates cx).flatMap fun (alt : Json) => abnfConsumed alt

/-- The rules they hand over to. -/
def usedRules (cx : Context) : List Text := (alternates cx).flatMap fun (alt : Json) => [abnfP alt, abnfR alt]

inductive Made (cx : Context) : El → Prop
  | tok {t} : t ∈ usedTokens cx → Made cx (.tok t)
  | ref {n} : n ∈ usedRules cx → Made cx (.ref n)
  | tail {seq} : (∀ el ∈ seq, Made cx el) → Made cx (.tail seq)
  | grp {seq} : (∀ el ∈ seq, Made cx el) → Made cx (.grp seq)

/-- What holds of every element of some alternatives. -/
def AllEls (q : El → Prop) (alts : List Seq) : Prop := ∀ seq ∈ alts, ∀ el ∈ seq, q el

section

variable {cx : Context} {name : Text} {alt : Json}

theorem lookup_mem {fields : List (Text × Json)} {k : Text} {v : Json} (h : fields.lookup k = some v) :
    (k, v) ∈ fields := by
  induction fields with
  | nil => cases h
  | cons f fields ih =>
    obtain ⟨k', v'⟩ := f
    rw [List.lookup_cons] at h
    split at h
    · rename_i heq
      rw [Option.some.inj h, eq_of_beq heq]
      exact List.mem_cons_self
    · exact List.mem_cons_of_mem _ (ih h)

theorem mem_alternates (h : alt ∈ abnfOpen (abnfRule cx name) ∨ alt ∈ abnfClose (abnfRule cx name)) :
    alt ∈ alternates cx := by
  rcases hr : abnfRule cx name with _ | r
  · rw [hr] at h
    rcases h with h | h <;> cases h
  · rw [hr] at h
    exact List.mem_flatMap.2 ⟨(name, r), lookup_mem hr, List.mem_append.2 h⟩

theorem made_consumed (h : alt ∈ alternates cx) : ∀ el ∈ (abnfConsumed alt).map El.tok, Made cx el := by
  intro el hel
  obtain ⟨t, ht, rfl⟩ := List.mem_map.1 hel
  exact .tok (List.mem_flatMap.2 ⟨alt, h, ht⟩)

theorem mem_usedRules_p (h : alt ∈ alternates cx) : abnfP alt ∈ usedRules cx :=
  List.mem_flatMap.2 ⟨alt, h, List.mem_cons_self⟩

theorem mem_usedRules_r (h : alt ∈ alternates cx) : abnfR alt ∈ usedRules cx :=
  List.mem_flatMap.2 ⟨alt, h, List.mem_cons_of_mem _ List.mem_cons_self⟩

theorem made_entryEls (h : alt ∈ alternates cx) : ∀ el ∈ abnfEntryEls alt, Made cx el := by
  intro el hel
  unfold abnfEntryEls at hel
  split at hel
  · exact made_consumed h el hel
  · rcases List.mem_append.1 hel with hel | hel
    · exact made_consumed h el hel
    · rw [List.mem_singleton.1 hel]
      refine .ref ?_
      unfold abnfTarget
      split
      · exact mem_usedRules_r h
      · exact mem_usedRules_p h

/-! ## A rule's alternatives as the spec holds them -/

theorem mem_abnfUnique {α : Type} {key : α → Text} {v : List α} {a : α} (h : a ∈ abnfUnique key v) : a ∈ v := by
  obtain ⟨i, -, hi⟩ := List.mem_filterMap.1 h
  exact List.mem_of_getElem? hi

theorem made_simpleAlts : AllEls (Made cx) (abnfSimpleAlts (abnfRule cx name)) := by
  intro seq hseq
  rcases List.mem_append.1 hseq with hseq | hseq
  · split at hseq
    · cases hseq
    · rw [List.eq_of_mem_replicate hseq]
      simp
  · obtain ⟨alt, halt, hseq⟩ := List.mem_flatMap.1 (List.mem_of_mem_filter ((abnfNumberOrder_perm _).mem_iff.1 hseq))
    rw [List.eq_of_mem_replicate hseq]
    exact made_entryEls (mem_alternates (.inl (mem_abnfUnique halt)))

/-- A walk ends at a step that names no next one, or goes on there. -/
theorem chainWalk_done {left : Nat} {acc els : Seq} (h : abnfChainWalk cx left name acc = .done els) :
    abnfR (abnfClose (abnfRule cx name)).head? = [] ∧ els = acc ++ abnfEntryEls (abnfOpen (abnfRule cx name)).head? ∨
      abnfR (abnfClose (abnfRule cx name)).head? ≠ [] ∧ ∃ left', left = left' + 1 ∧
        abnfChainWalk cx left' (abnfR (abnfClose (abnfRule cx name)).head?)
          (acc ++ abnfEntryEls (abnfOpen (abnfRule cx name)).head?) = .done els := by
  rw [abnfChainWalk] at h
  obtain ⟨r, hr, h⟩ := Run.bind_eq_done h
  unfold abnfChainStep at hr
  split at hr
  · cases hr
    split at h
    · rename_i hnone
      rw [hnone]
      exact .inl ⟨rfl, (Run.done.inj h).symm⟩
    · rename_i close hclose
      rw [hclose]
      split at h
      · rename_i hlast
        exact .inl ⟨hlast, (Run.done.inj h).symm⟩
      · rename_i hnext
        split at h
        · cases h
        · exact .inr ⟨hnext, _, rfl, h⟩
  · cases hr

theorem made_chainWalk {left : Nat} {acc els : Seq} (hacc : ∀ el ∈ acc, Made cx el)
    (h : abnfChainWalk cx left name acc = .done els) : ∀ el ∈ els, Made cx el := by
  have hstep : ∀ {name : Text} {acc : Seq}, (∀ el ∈ acc, Made cx el) →
      ∀ el ∈ acc ++ abnfEntryEls (abnfOpen (abnfRule cx name)).head?, Made cx el := by
    intro name acc hacc el hel
    rcases List.mem_append.1 hel with hel | hel
    · exact hacc el hel
    · rcases ho : abnfOpen (abnfRule cx name) with _ | ⟨alt, alts⟩
      · rw [ho] at hel
        cases hel
      · rw [ho] at hel
        exact made_entryEls (mem_alternates (.inl (ho ▸ List.mem_cons_self))) el hel
  induction left generalizing name acc with
  | zero =>
    rcases chainWalk_done h with ⟨-, rfl⟩ | ⟨-, left', hleft, -⟩
    · exact hstep hacc
    · cases hleft
  | succ left ih =>
    rcases chainWalk_done h with ⟨-, rfl⟩ | ⟨-, left', hleft, h⟩
    · exact hstep hacc
    · cases hleft
      exact ih (hstep hacc) h

theorem made_chain {els : Seq} (h : abnfChain cx name = .done els) : ∀ el ∈ els, Made cx el :=
  made_chainWalk (by simp) h

theorem made_dispatchAlts {alts : List Seq} (h : abnfDispatchAlts cx name (abnfRule cx name) = .done alts) :
    AllEls (Made cx) alts := by
  unfold abnfDispatchAlts at h
  simp only at h
  split at h
  · cases h
  · split at h
    · obtain ⟨heads, hheads, h⟩ := Run.bind_eq_done h
      cases h
      intro seq hseq
      rcases List.mem_append.1 hseq with hseq | hseq
      · obtain ⟨i, -, hi⟩ := Run.mem_each hheads hseq
        exact made_chain hi
      · split at hseq
        · rw [List.mem_singleton.1 hseq]
          simp
        · cases hseq
    · intro seq hseq
      obtain ⟨i, -, hi⟩ := Run.mem_each h hseq
      split at hi
      · exact made_chain hi
      · cases hi
        simp
    · cases h

theorem made_rawAlts {alts : List Seq} (h : abnfRawAlts cx name = .done alts) : AllEls (Made cx) alts := by
  -- a tail repeat, a dispatcher, a rule read by its alternates, or a chain
  unfold abnfRawAlts at h
  simp only at h
  split at h
  · rename_i htail
    cases h
    intro seq hseq
    rw [List.mem_singleton.1 hseq]
    have hconsumed : ∀ {alts : List Json}, (∀ alt ∈ alts, alt ∈ alternates cx) →
        ∀ el ∈ (abnfConsumed alts.head?).map El.tok, Made cx el := by
      intro alts halts
      rcases alts with _ | ⟨alt, alts⟩
      · intro el hel
        cases hel
      · exact made_consumed (halts alt List.mem_cons_self)
    intro el hel
    rcases List.mem_append.1 hel with hel | hel
    · exact hconsumed (fun alt ha => mem_alternates (.inl ha)) el hel
    · rw [List.mem_singleton.1 hel]
      refine .tail fun el hel => ?_
      rcases List.mem_append.1 hel with hel | hel
      · exact hconsumed (fun alt ha => mem_alternates (.inr ha)) el hel
      · -- the repeat goes back to the rule, which its close names
        rw [List.mem_singleton.1 hel]
        simp only [abnfIsTail, Bool.and_eq_true, beq_iff_eq, abnfSame_iff] at htail
        rcases hc : abnfClose (abnfRule cx name) with _ | ⟨alt, alts⟩
        · rw [hc] at htail
          cases htail.1.1
        · rw [hc] at htail
          rw [← htail.2]
          exact .ref (mem_usedRules_r (mem_alternates (.inr (hc ▸ List.mem_cons_self))))
  · split at h
    · exact made_dispatchAlts h
    · split at h
      · cases h
        exact made_simpleAlts
      · split at h
        · cases h
          exact made_simpleAlts
        · obtain ⟨seq, hseq, h⟩ := Run.bind_eq_done h
          cases h
          intro seq' hseq'
          rw [List.mem_singleton.1 hseq']
          exact made_chain hseq

/-! ## The readers of helpers -/

theorem made_loopItem {el : El} (h : abnfLoopItem cx name (abnfRule cx name) = .done el) : Made cx el := by
  unfold abnfLoopItem at h
  split at h
  · cases h
  · rename_i c hc
    have hin : c ∈ alternates cx :=
      mem_alternates (.inl (List.mem_of_mem_tail (List.mem_of_mem_filter (List.mem_of_mem_head? hc))))
    split at h
    · split at h
      · rename_i t ht
        cases h
        exact made_consumed hin _ (by rw [ht]; exact List.mem_cons_self)
      · cases h
    · simp only at h
      split at h
      · cases h
      · rename_i hne
        cases h
        refine .ref ?_
        rcases ho : abnfOpen (abnfRule cx (abnfR c)) with _ | ⟨alt, alts⟩
        · rw [ho] at hne
          exact absurd rfl hne
        · exact mem_usedRules_p (mem_alternates (.inl (ho ▸ List.mem_cons_self)))

/-- An alternative's last element, where it is a factored tail. -/
theorem lastFact_some {alt : Seq} (h : lastFact cx alt = .done (some name)) :
    ∃ front, alt = front ++ [.ref name] ∧ abnfHelperKind cx name = .done (some "fact".toList) := by
  unfold lastFact at h
  split at h
  · rename_i n hlast
    obtain ⟨kind, hkind, h⟩ := Run.bind_eq_done h
    have h := Run.done.inj h
    split at h
    · rename_i hfact
      cases h
      obtain ⟨front, rfl⟩ := List.getLast?_eq_some_iff.1 hlast
      exact ⟨front, rfl, hfact ▸ hkind⟩
    · cases h
  · cases h

theorem expand_none {n : Nat} {alt : Seq} {alts : List Seq} (hfact : lastFact cx alt = .done none)
    (h : abnfExpand cx n alt = .done alts) : alts = [alt] := by
  cases n with
  | zero => cases h
  | succ n =>
    rw [abnfExpand, iterate] at h
    unfold expandBody at h
    rw [hfact] at h
    exact (Run.done.inj h).symm

/-- An alternative stays as it is, or is the groups that one was factored from. -/
theorem splitGroup_done {n : Nat} {alt : Seq} {alts : List Seq} (h : abnfSplitGroup cx n name alt = .done alts) :
    alts = [alt] ∨ ∃ helper seq ones, alt = [.ref helper] ∧ abnfHelperKind cx helper = .done (some "group".toList) ∧
      abnfRawAlts cx helper = .done [seq] ∧ abnfExpand cx n seq = .done ones ∧ alts = ones.map fun one =>
        [.grp one] := by
  unfold abnfSplitGroup at h
  split at h
  · rename_i helper
    obtain ⟨kind, hkind, h⟩ := Run.bind_eq_done h
    split at h
    · rename_i hgroup
      obtain ⟨inner, hinner, h⟩ := Run.bind_eq_done h
      split at h
      · rename_i seq
        obtain ⟨owned, -, h⟩ := Run.bind_eq_done h
        split at h
        · obtain ⟨ones, hones, h⟩ := Run.bind_eq_done h
          exact .inr ⟨helper, seq, ones, rfl, hgroup ▸ hkind, hinner, hones, (Run.done.inj h).symm⟩
        · exact .inl (Run.done.inj h).symm
      · exact .inl (Run.done.inj h).symm
    · exact .inl (Run.done.inj h).symm
  · exact .inl (Run.done.inj h).symm

/-- What passes from a helper that is read in the place of its reference to the elements of its
alternatives. -/
structure Inherited (cx : Context) (q : El → Prop) : Prop where
  inside :
    ∀ {name kind alts}, abnfHelperKind cx name = .done (some kind) → kind = "fact".toList ∨ kind = "group".toList →
    q (.ref name) → abnfRawAlts cx name = .done alts → AllEls q alts
  grp : ∀ {seq}, (∀ el ∈ seq, q el) → q (.grp seq)

variable {q : El → Prop} (hq : Inherited cx q)
include hq

theorem Inherited.expand {n : Nat} {alt : Seq} {alts : List Seq} (halt : ∀ el ∈ alt, q el)
    (h : abnfExpand cx n alt = .done alts) : AllEls q alts := by
  induction n generalizing alt alts with
  | zero => cases h
  | succ n ih =>
    rw [abnfExpand, iterate] at h
    obtain ⟨fact, hfact, h⟩ := Run.bind_eq_done h
    split at h
    · obtain ⟨front, rfl, hkind⟩ := lastFact_some hfact
      obtain ⟨tails, htails, h⟩ := Run.bind_eq_done h
      obtain ⟨parts, hparts, h⟩ := Run.bind_eq_done h
      cases h
      intro seq hseq
      obtain ⟨part, hpart, hseq⟩ := List.mem_flatten.1 hseq
      obtain ⟨tail, htail, hrun⟩ := Run.mem_each hparts hpart
      rw [List.dropLast_concat] at hrun
      refine ih (fun el hel => ?_) hrun seq hseq
      rcases List.mem_append.1 hel with hel | hel
      · exact halt el (List.mem_append_left _ hel)
      · exact hq.inside hkind (.inl rfl) (halt _ (List.mem_append_right _ List.mem_cons_self)) htails tail htail el hel
    · cases h
      intro seq hseq
      rw [List.mem_singleton.1 hseq]
      exact halt

theorem Inherited.splitGroup {n : Nat} {alt : Seq} {alts : List Seq} (halt : ∀ el ∈ alt, q el)
    (h : abnfSplitGroup cx n name alt = .done alts) : AllEls q alts := by
  rcases splitGroup_done h with rfl | ⟨helper, seq, ones, rfl, hkind, hinner, hones, rfl⟩
  · intro seq hseq
    rw [List.mem_singleton.1 hseq]
    exact halt
  · intro seq' hseq'
    obtain ⟨one, hone, rfl⟩ := List.mem_map.1 hseq'
    intro el hel
    rw [List.mem_singleton.1 hel]
    have hin := hq.inside hkind (.inr rfl) (halt _ List.mem_cons_self) hinner seq List.mem_cons_self
    exact hq.grp (hq.expand hin hones one hone)

/-- What holds of the elements of a rule's alternatives as the spec holds them holds of those read back. -/
theorem Inherited.alts {n : Nat} {raw alts : List Seq} (hraw : abnfRawAlts cx name = .done raw) (hall : AllEls q raw)
    (h : abnfAlts cx n name = .done alts) : AllEls q alts := by
  obtain ⟨raw', hraw', h⟩ := Run.bind_eq_done h
  cases hraw.symm.trans hraw'
  obtain ⟨expanded, hexp, h⟩ := Run.bind_eq_done h
  obtain ⟨split, hsplit, h⟩ := Run.bind_eq_done h
  cases h
  intro seq hseq
  obtain ⟨part, hpart, hseq⟩ := List.mem_flatten.1 hseq
  obtain ⟨alt, halt, hrun⟩ := Run.mem_each hsplit hpart
  refine hq.splitGroup (fun el hel => ?_) hrun seq hseq
  obtain ⟨alts', halts', halt⟩ := List.mem_flatten.1 halt
  obtain ⟨seq', hseq', hrun'⟩ := Run.mem_each hexp halts'
  exact hq.expand (hall seq' hseq') hrun' alt halt el hel

omit hq in
theorem made_inherited : Inherited cx (Made cx) := ⟨fun _ _ _ h => made_rawAlts h, .grp⟩

omit hq in
theorem made_alts {n : Nat} {alts : List Seq} (h : abnfAlts cx n name = .done alts) : AllEls (Made cx) alts := by
  obtain ⟨raw, hraw, -⟩ := Run.bind_eq_done h
  exact made_inherited.alts hraw (made_rawAlts hraw) h

omit hq in
theorem made_repParts {parts : RepParts} (h : abnfRepParts cx name = .done parts) :
    Made cx parts.item ∧ (parts.max = [] ∨ ∃ m : Nat, parts.max = abnfNum m) := by
  obtain ⟨raw, hraw, h⟩ := Run.bind_eq_done h
  obtain ⟨seq, hseq, h⟩ := Run.bind_eq_done h
  have hmade : ∀ el ∈ seq, Made cx el := by
    rcases raw with _ | ⟨first, raw⟩
    · cases hseq
    · cases hseq
      exact made_rawAlts hraw _ List.mem_cons_self
  -- a loop behind the copies, an option behind them, or copies alone
  split at h
  · cases h
  · rename_i last hlast
    obtain ⟨kind, -, h⟩ := Run.bind_eq_done h
    split at h
    · obtain ⟨item, hitem, h⟩ := Run.bind_eq_done h
      cases h
      exact ⟨made_loopItem hitem, .inl rfl⟩
    · split at h
      · obtain ⟨chain, hchain, h⟩ := Run.bind_eq_done h
        cases h
        refine ⟨?_, .inr ⟨_, rfl⟩⟩
        unfold abnfRepChain at hchain
        simp only at hchain
        split at hchain
        · obtain ⟨alts, halts, hchain⟩ := Run.bind_eq_done hchain
          split at hchain
          · rename_i item hhead
            cases hchain
            exact made_rawAlts halts [item] (List.mem_of_mem_head? hhead) item List.mem_cons_self
          · cases hchain
          · cases hchain
        · cases hchain
      · cases h
        refine ⟨?_, .inr ⟨_, rfl⟩⟩
        rcases seq with _ | ⟨el, seq⟩
        · cases hlast
        · exact hmade el List.mem_cons_self

end

/-! ## The same for all fuel -/

section

variable {cx : Context} {name : Text}

theorem steady_expand (alt : Seq) : Steady fun n => abnfExpand cx n alt := by
  refine steady_iterate (fun _ hfg alt => ?_) alt
  unfold expandBody
  refine .after fun fact => ?_
  cases fact with
  | none => exact .refl _
  | some name => exact .after fun tails => (Run.Grows.each (fun tail => hfg _) tails).then

theorem steady_splitGroup (alt : Seq) : Steady fun n => abnfSplitGroup cx n name alt := by
  intro n m h
  show (abnfSplitGroup cx n name alt).Grows (abnfSplitGroup cx m name alt)
  unfold abnfSplitGroup
  split
  · refine .after fun kind => .ite (.after fun inner => ?_) (.refl _)
    split
    · exact .after fun owned => .ite (steady_expand _ n m h).then (.refl _)
    · exact .refl _
  · exact .refl _

theorem steady_alts : Steady fun n => abnfAlts cx n name := by
  intro n m h
  refine .after fun raw => ?_
  refine (Run.Grows.each (fun alt => steady_expand alt n m h) raw).bind fun expanded => ?_
  exact (Run.Grows.each (fun alt => steady_splitGroup alt n m h) _).then

/-- A rule's alternatives are the same for all fuel that they are read with. -/
theorem alts_unique {n m : Nat} {as bs : List Seq} (ha : abnfAlts cx n name = .done as)
    (hb : abnfAlts cx m name = .done bs) :
    as = bs := steady_alts.unique ha hb

end

end TabnasAbnf.Render
