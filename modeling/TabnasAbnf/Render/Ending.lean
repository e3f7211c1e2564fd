/-
Where the render ends. It follows helpers from rule to rule in three recursions (the expansion of factored tails, an
element's key, the text) that count no steps. It is endless only where a key or a text is read again within itself, or
where a tail's expansion comes upon the tail again, and then again, with all that stood before it still there.
-/
import TabnasAbnf.Base.Cycle
import TabnasAbnf.Render.Calls

namespace TabnasAbnf.Render

open TabnasAbnf.Base Relation

/-! ## Calls without end -/

section

variable (cx : Context) (lifted : List Text)

/-- One step of an expansion above `front`: what stands there, which is something before and after. -/
def Above (front x x' : Seq) : Prop := x' ≠ [] ∧ Enters cx lifted (.expand (front ++ x)) (.expand (front ++ x'))

/-- Expanding the factored tail `n` behind `front` leads to expanding it behind `front` and `w`. -/
def Again (front : Seq) (n : Text) (w : Seq) : Prop := TransGen (Above cx lifted front) [.ref n] (w ++ [.ref n])

/-- An expansion comes upon the tail that it is of, and behind what it has put before it then upon the tail once
more. -/
def Piles (c : Call) : Prop :=
  ∃ front n w w', c = .expand (front ++ [.ref n]) ∧ Again cx lifted front n w ∧ Again cx lifted (front ++ w) n w'

/-- A call that is made again within itself, or an expansion that piles up. -/
def Endless (c : Call) : Prop := TransGen (Enters cx lifted) c c ∨ Piles cx lifted c

end

section

variable {cx : Context} {lifted : List Text} {c c' : Call} {front front' x x' w w' : Seq} {n : Text}

theorem enters_expand {alt : Seq} (h : Enters cx lifted (.expand alt) c) :
    ∃ n tails tail, lastFact cx alt = .done (some n) ∧ abnfRawAlts cx n = .done tails ∧
      InTurn (fun t => Gives fun k => abnfExpand cx k (alt.dropLast ++ t)) tails tail ∧
        c = .expand (alt.dropLast ++ tail) := by
  cases h with
  | tail hfact htails hturn => exact ⟨_, _, _, hfact, htails, hturn, rfl⟩

theorem lastFact_concat {el : El} : lastFact cx (x ++ [el]) = lastFact cx [el] := by
  unfold lastFact
  rw [List.getLast?_concat]
  rfl

/-- What stands behind alternatives that both come to a value is expanded behind the one as behind the other. -/
theorem gives_expand (hfront : (Gives fun k => abnfExpand cx k front) → Gives fun k => abnfExpand cx k front')
    (h : Gives fun k => abnfExpand cx k (front ++ x)) : Gives fun k => abnfExpand cx k (front' ++ x) := by
  obtain ⟨k, out, h⟩ := h
  induction k generalizing x out with
  | zero => cases h
  | succ k ih =>
    rcases List.eq_nil_or_concat' x with rfl | ⟨x, el, rfl⟩
    · rw [List.append_nil] at h ⊢
      exact hfront ⟨_, _, h⟩
    · replace h : abnfExpand cx (k + 1) (front ++ (x ++ [el])) = .done out := h
      rw [← List.append_assoc, abnfExpand, iterate, expandBody, lastFact_concat] at h
      obtain ⟨fact, hfact, h⟩ := Run.bind_eq_done h
      rcases fact with _ | n
      · refine ⟨1, [front' ++ x ++ [el]], ?_⟩
        show expandBody cx (abnfExpand cx 0) (front' ++ (x ++ [el])) = _
        rw [← List.append_assoc, expandBody, lastFact_concat, hfact]
        rfl
      · obtain ⟨tails, htails, h⟩ := Run.bind_eq_done h
        obtain ⟨parts, hparts, -⟩ := Run.bind_eq_done h
        have hall : ∀ tail ∈ tails, Gives fun k => abnfExpand cx k (front' ++ (x ++ tail)) := by
          intro tail htail
          obtain ⟨out, hout⟩ := Run.exists_of_each hparts htail
          rw [List.dropLast_concat, List.append_assoc] at hout
          exact ih out hout
        rcases Steady.each (f := fun k tail => abnfExpand cx k (front' ++ (x ++ tail)))
          (fun tail => steady_expand _) hall with
          ⟨m, parts', hparts'⟩
        refine ⟨m + 1, parts'.flatten, ?_⟩
        show expandBody cx (abnfExpand cx m) (front' ++ (x ++ [el])) = _
        rw [← List.append_assoc, expandBody, lastFact_concat, hfact, Run.done_bind]
        simp only [htails, Run.done_bind, List.dropLast_concat]
        simp only [List.append_assoc, hparts', Run.done_bind]

/-- The steps above one alternative are steps above another that comes to a value where the first does. -/
theorem Above.behind (hfront : (Gives fun k => abnfExpand cx k front) → Gives fun k => abnfExpand cx k front')
    (hx : x ≠ [])
    (h : Above cx lifted front x x') : Above cx lifted front' x x' := by
  obtain ⟨hx', h⟩ := h
  obtain ⟨n, tails, tail, hfact, htails, hturn, heq⟩ := enters_expand h
  rw [Call.expand.injEq] at heq
  rcases List.eq_nil_or_concat' x with rfl | ⟨x, el, rfl⟩
  · exact absurd rfl hx
  · rw [← List.append_assoc] at hfact hturn heq
    rw [lastFact_concat] at hfact
    rw [List.dropLast_concat] at hturn heq
    obtain rfl := List.append_cancel_left (heq.trans (List.append_assoc ..))
    refine ⟨hx', ?_⟩
    have hfact' : lastFact cx (front' ++ (x ++ [el])) = .done (some n) := by
      rw [← List.append_assoc, lastFact_concat, hfact]
    have hlast : (front' ++ (x ++ [el])).dropLast = front' ++ x := by rw [← List.append_assoc, List.dropLast_concat]
    have hstep := @Enters.tail cx lifted _ n tails tail hfact' htails
    rw [hlast, List.append_assoc] at hstep
    refine hstep (hturn.mono fun t _ ht => ?_)
    rw [List.append_assoc] at ht ⊢
    exact gives_expand hfront ht

theorem Again.behind (hfront : (Gives fun k => abnfExpand cx k front) → Gives fun k => abnfExpand cx k front')
    (h : Again cx lifted front n w) : Again cx lifted front' n w := by
  have hall : ∀ {y}, TransGen (Above cx lifted front) [.ref n] y → y ≠ [] ∧
    TransGen (Above cx lifted front') [.ref n] y := by
    intro y hy
    induction hy with
    | single h => exact ⟨h.1, .single (h.behind hfront (List.cons_ne_nil _ _))⟩
    | tail _ h ih => exact ⟨h.1, ih.2.tail (h.behind hfront ih.1)⟩
  exact (hall h).2

theorem Again.enters (h : Again cx lifted front n w) :
    TransGen (Enters cx lifted) (.expand (front ++ [.ref n])) (.expand (front ++ w ++ [.ref n])) := by
  rw [List.append_assoc]
  exact TransGen.lift (fun x => Call.expand (front ++ x)) (fun _ _ h => h.2) _ _ h

/-- A tail that is come upon again with no less before it than comes to a value is come upon for ever. -/
theorem Again.endless (hfront : (Gives fun k => abnfExpand cx k front) → Gives fun k => abnfExpand cx k (front ++ w))
    (h : Again cx lifted front n w) : ¬ Acc (fun b a => Enters cx lifted a b) (.expand (front ++ [.ref n])) := by
  intro hacc
  have htrans := hacc.transGen
  clear hacc
  generalize hc : Call.expand (front ++ [.ref n]) = c at htrans
  induction htrans generalizing front with
  | intro c _ ih =>
    subst hc
    refine ih _ (transGen_swap.1 h.enters) (gives_expand hfront) (h.behind hfront) rfl

theorem Piles.not_acc (h : Piles cx lifted c) : ¬ Acc (fun b a => Enters cx lifted a b) c := by
  obtain ⟨front, n, w, w', rfl, h, h'⟩ := h
  by_cases hgives : (Gives fun k => abnfExpand cx k front) → Gives fun k => abnfExpand cx k (front ++ w)
  · exact h.endless hgives
  · -- what stands before the tail the second time comes to no value, so the third time is like the second
    have hnone : ¬ Gives fun k => abnfExpand cx k (front ++ w) := fun hg => hgives fun _ => hg
    intro hacc
    exact h'.endless (fun hg => absurd hg hnone) (acc_of_path hacc h.enters.to_reflTransGen)

theorem Endless.not_acc (h : Endless cx lifted c) : ¬ Acc (fun b a => Enters cx lifted a b) c := by
  rcases h with h | h
  · exact fun hacc => acyclic_of_acc hacc h
  · exact h.not_acc

/-! ## Endless chains of calls -/

theorem rawAlts_none (h : abnfRule cx n = none) : abnfRawAlts cx n = .done [] := by
  rw [abnfRawAlts, h]
  rfl

theorem mem_rules {tails : List Seq} {tail : Seq} (h : abnfRawAlts cx n = .done tails) (ht : tail ∈ tails) :
    n ∈ cx.rules.map Prod.fst := by
  rcases hr : abnfRule cx n with _ | r
  · cases (rawAlts_none hr).symm.trans h
    cases ht
  · exact List.mem_map.2 ⟨(n, r), lookup_mem hr, rfl⟩

/-- An alternative is expanded by an alternative of its tail, which is a rule of the spec. -/
theorem enters_tail {seq seq' : Seq} (h : Enters cx lifted (.expand seq) (.expand seq')) :
    ∃ front n tail, seq = front ++ [.ref n] ∧ seq' = front ++ tail ∧ n ∈ cx.rules.map Prod.fst := by
  obtain ⟨n, tails, tail, hfact, htails, hturn, heq⟩ := enters_expand h
  obtain ⟨front, hfront, -⟩ := lastFact_some hfact
  refine ⟨front, n, tail, hfront, ?_, mem_rules htails hturn.mem⟩
  rw [Call.expand.inj heq, hfront, List.dropLast_concat]

/-- What is behind a list's first part ends in the list's last element. -/
theorem snoc_of_append {front front' x : Seq} {el : El} (h : front ++ x = front' ++ [el]) (hx : x ≠ []) :
    ∃ w, x = w ++ [el] ∧ front' = front ++ w := by
  rcases List.eq_nil_or_concat' x with rfl | ⟨w, el', rfl⟩
  · exact absurd rfl hx
  · rw [← List.append_assoc] at h
    obtain ⟨hfront, hel⟩ := List.append_inj' h rfl
    exact ⟨w, by rw [hel], hfront.symm⟩

/-- An endless expansion piles up: of the places that it does not come below any more three are at one tail. -/
theorem piles_of_path {path : Nat → Seq} (hpath : ∀ i, Enters cx lifted (.expand (path i)) (.expand (path (i + 1)))) :
    ∃ i, Piles cx lifted (.expand (path i)) := by
  choose front name tail hhere hnext hname using fun i => enters_tail (hpath i)
  -- what a low place has before its tail stays there
  have habove : ∀ i, (∀ j, i ≤ j → (path i).length ≤ (path j).length) → ∀ j, i + 1 ≤ j →
      ∃ x, path j = front i ++ x ∧ x ≠ [] ∧ TransGen (Above cx lifted (front i)) [.ref (name i)] x := by
    intro i hlow j hj
    have hne : ∀ j x, i ≤ j → path j = front i ++ x → x ≠ [] := by
      rintro j x hij heq rfl
      have hle := hlow j hij
      rw [heq, hhere i] at hle
      simp at hle
    induction j, hj using Nat.le_induction with
    | base =>
      have hnext' := hne _ _ (Nat.le_succ i) (hnext i)
      refine ⟨tail i, hnext i, hnext', .single ⟨hnext', ?_⟩⟩
      rw [← hhere i, ← hnext i]
      exact hpath i
    | succ j hj ih =>
      obtain ⟨x, hx, hxne, hchain⟩ := ih
      obtain ⟨w, rfl, hfront⟩ := snoc_of_append (hx.symm.trans (hhere j)) hxne
      have hafter : path (j + 1) = front i ++ (w ++ tail j) := by rw [hnext j, hfront, List.append_assoc]
      have hne' := hne _ _ (by omega) hafter
      refine ⟨w ++ tail j, hafter, hne', hchain.tail ⟨hne', ?_⟩⟩
      rw [← hx, ← hafter]
      exact hpath j
  have hagain : ∀ i j, (∀ j, i ≤ j → (path i).length ≤ (path j).length) → i < j → name j = name i →
      ∃ w, front j = front i ++ w ∧ Again cx lifted (front i) (name i) w := by
    intro i j hlow hij hsame
    obtain ⟨x, hx, hxne, hchain⟩ := habove i hlow j hij
    obtain ⟨w, rfl, hfront⟩ := snoc_of_append (hx.symm.trans (hhere j)) hxne
    exact ⟨w, hfront, hsame ▸ hchain⟩
  rcases exists_thrice (low_places fun i => (path i).length) fun i _ => hname i with
    ⟨i, j, k, hi, hj, -, hij, hjk, hsame, hsame'⟩
  obtain ⟨w, hw, hagain₁⟩ := hagain i j hi hij hsame
  obtain ⟨w', -, hagain₂⟩ := hagain j k hj hjk hsame'
  refine ⟨i, front i, name i, w, w', by rw [hhere i], hagain₁, ?_⟩
  rwa [hw, hsame] at hagain₂

/-- A call for a key or a text. -/
def Call.Spells : Call → Prop
  | .key _ | .text _ => True
  | .expand _ | .alts _ => False

mutual

def El.weight : El → Nat
  | .tok _ | .ref _ => 1
  | .tail seq | .grp seq => elsWeight seq + 1

def elsWeight : List El → Nat
  | [] => 0
  | el :: seq => el.weight + elsWeight seq

end

theorem weight_le_of_mem {seq : Seq} {el : El} (h : el ∈ seq) : el.weight ≤ elsWeight seq := by
  induction seq with
  | nil => cases h
  | cons el' seq ih =>
    rw [elsWeight]
    rcases List.mem_cons.1 h with rfl | h
    · exact Nat.le_add_right _ _
    · exact (ih h).trans (Nat.le_add_left _ _)

/-- The size of what a key or a text is made of. -/
def Call.weight : Call → Nat
  | .key el => el.weight
  | .text (.alts x) => 3 * elsWeight x.flatten + 1
  | .text (.el el) => 3 * el.weight
  | .text (.atom el) => 3 * el.weight + 1
  | .expand _ | .alts _ => 0

/-- The calls for the keys and texts of references to rules that the spec holds. -/
def refCalls (cx : Context) : List Call :=
  (cx.rules.map Prod.fst).flatMap fun n => [.key (.ref n), .text (.el (.ref n))]

theorem mem_refCalls (h : n ∈ cx.rules.map Prod.fst) :
    Call.key (.ref n) ∈ refCalls cx ∧ Call.text (.el (.ref n)) ∈ refCalls cx :=
  ⟨List.mem_flatMap.2 ⟨n, h, by simp⟩, List.mem_flatMap.2 ⟨n, h, by simp⟩⟩

theorem mem_rules_alts {k : Nat} {alts : List Seq} (h : abnfAlts cx k n = .done alts) (hne : alts ≠ []) :
    n ∈ cx.rules.map Prod.fst := by
  obtain ⟨raw, hraw, h⟩ := Run.bind_eq_done h
  rcases raw with _ | ⟨seq, raw⟩
  · cases h
    exact absurd rfl hne
  · exact mem_rules hraw List.mem_cons_self

theorem mem_rules_item {item : El} (h : abnfLoopItem cx n (abnfRule cx n) = .done item) :
    n ∈ cx.rules.map Prod.fst := by
  rcases hr : abnfRule cx n with _ | r
  · rw [hr] at h
    cases h
  · exact List.mem_map.2 ⟨(n, r), lookup_mem hr, rfl⟩

theorem mem_rules_parts {parts : RepParts} (h : abnfRepParts cx n = .done parts) : n ∈ cx.rules.map Prod.fst := by
  obtain ⟨raw, hraw, h⟩ := Run.bind_eq_done h
  rcases raw with _ | ⟨seq, raw⟩
  · cases h
  · exact mem_rules hraw List.mem_cons_self

/-- A key or a text that is made of others is a reference's, or of smaller ones. -/
theorem enters_falls (h : Enters cx lifted c c') (hc : c'.Spells) : c ∈ refCalls cx ∨ c'.weight < c.weight := by
  cases h with
  | tail | raw | split | keyAlts | textRef | optAlts => exact hc.elim
  | @keyGrp seq el hturn =>
    have hle := weight_le_of_mem hturn.mem
    simp only [Call.weight, El.weight]
    exact .inr (by omega)
  | keyStar _ hitem => exact .inl (mem_refCalls (mem_rules_item hitem)).1
  | keyRep _ hparts => exact .inl (mem_refCalls (mem_rules_parts hparts)).1
  | keyEl _ _ halts hturn =>
    refine .inl (mem_refCalls (mem_rules_alts halts ?_)).1
    rintro rfl
    exact absurd hturn.mem List.not_mem_nil
  | @textAlts x el hturn =>
    have hle := weight_le_of_mem hturn.mem
    simp only [Call.weight]
    exact .inr (by omega)
  | textTail | textGrp =>
    simp only [Call.weight, El.weight, List.flatten_cons, List.flatten_nil, List.append_nil]
    exact .inr (by omega)
  | textStar _ hitem => exact .inl (mem_refCalls (mem_rules_item hitem)).2
  | textRep _ hparts => exact .inl (mem_refCalls (mem_rules_parts hparts)).2
  | textPlus _ halts hitem =>
    refine .inl (mem_refCalls (mem_rules_alts halts ?_)).2
    rintro rfl
    cases hitem
  | textOpt _ halts hinner _ | optText _ halts hinner _ _ _ =>
    refine .inl (mem_refCalls (mem_rules_alts halts ?_)).2
    rintro rfl
    cases hinner
  | @textGroup n k alts _ halts =>
    rcases alts with _ | ⟨seq, alts⟩
    · simp only [Call.weight, List.flatten_nil, El.weight, elsWeight]
      exact .inr (by omega)
    · exact .inl (mem_refCalls (mem_rules_alts halts (List.cons_ne_nil _ _))).2
  | atom =>
    simp only [Call.weight]
    exact .inr (by omega)

/-- From keys and texts without end one comes to a reference's again and again. -/
theorem refCalls_often {path : Nat → Call} (hpath : ∀ i, Enters cx lifted (path i) (path (i + 1)))
    (hspells : ∀ i, (path i).Spells) (n : Nat) : ∃ m, n ≤ m ∧ path m ∈ refCalls cx := by
  generalize hw : (path n).weight = w
  induction w using Nat.strongRecOn generalizing n with
  | ind w ih =>
    rcases enters_falls (hpath n) (hspells (n + 1)) with hin | hlt
    · exact ⟨n, Nat.le_refl n, hin⟩
    · obtain ⟨m, hle, hm⟩ := ih _ (hw ▸ hlt) (n + 1) rfl
      exact ⟨m, by omega, hm⟩

/-- What does not spell leads to expansions alone. -/
theorem enters_unspelt (h : Enters cx lifted c c') (hc : ¬ c.Spells) : ∃ alt, c' = .expand alt := by
  cases h with
  | tail | raw | split => exact ⟨_, rfl⟩
  | _ => exact absurd trivial hc

/-- An endless chain of calls comes back to a call, or piles up. -/
theorem endless_of_path {path : Nat → Call} (hpath : ∀ i, Enters cx lifted (path i) (path (i + 1))) :
    ∃ i, Endless cx lifted (path i) := by
  by_cases hspells : ∀ i, (path i).Spells
  · obtain ⟨m, hm⟩ := cycle_of_often hpath (refCalls_often hpath hspells)
    exact ⟨m, .inl hm⟩
  · rw [not_forall] at hspells
    obtain ⟨n, hn⟩ := hspells
    have hexpand : ∀ i, ∃ alt, path (n + 1 + i) = .expand alt := by
      intro i
      induction i with
      | zero => exact enters_unspelt (hpath n) hn
      | succ i ih =>
        obtain ⟨alt, halt⟩ := ih
        exact enters_unspelt (hpath (n + 1 + i)) (by rw [halt]; exact fun h => h)
    choose alts halts using hexpand
    have hsteps : ∀ i, Enters cx lifted (.expand (alts i)) (.expand (alts (i + 1))) := by
      intro i
      rw [← halts i, ← halts (i + 1)]
      exact hpath (n + 1 + i)
    obtain ⟨i, hi⟩ := piles_of_path hsteps
    exact ⟨n + 1 + i, .inr (halts i ▸ hi)⟩

/-- A call settles exactly where it leads to no call without end. -/
theorem settles_iff : c.Settles cx lifted ↔ ∀ c', ReflTransGen (Enters cx lifted) c c' → ¬ Endless cx lifted c' := by
  rw [settles_iff_acc]
  constructor
  · intro hacc c' hpath hendless
    exact hendless.not_acc (acc_of_path hacc hpath)
  · intro h
    by_contra hacc
    obtain ⟨path, rfl, hpath⟩ := not_acc_iff_exists_descending_chain.1 hacc
    obtain ⟨i, hi⟩ := endless_of_path hpath
    exact h _ (path_reflTrans hpath i) hi

end

/-! ## The checks -/

section

variable {cx : Context} {name : Text}

theorem ends_expect {ok : Bool} {what : Text} : (expect ok name what).Ends :=
  .ite (Run.ends_done _) (Run.ends_refused _)

theorem ends_checkLoop {alt : Option Json} : (abnfCheckLoop cx name alt).Ends := by
  unfold abnfCheckLoop
  refine .ite ?_ (Run.ends_done _)
  have hloop : (abnfLoopRule cx name).Ends :=
    ends_helperKind.bind fun _ _ => (Run.ends_ofOption _).bind fun _ _ => Run.ends_done _
  exact hloop.bind fun _ _ => ends_expect.bind fun _ _ => ends_expect.bind fun _ _ => ends_expect

theorem ends_checkAlt {alt : Option Json} : (abnfCheckAlt cx name alt).Ends := by
  have hs : ∀ v, (abnfCheckS name v).Ends := by
    intro v
    unfold abnfCheckS
    split
    all_goals first | exact Run.ends_done _ | exact ends_expect
  have hnext : ∀ key v, (abnfCheckNext name key v).Ends := by
    intro key v
    unfold abnfCheckNext
    split
    all_goals first | exact Run.ends_done _ | exact ends_expect
  have hback : ∀ v, (abnfCheckBack name v).Ends := by
    intro v
    unfold abnfCheckBack
    split
    all_goals first | exact Run.ends_done _ | exact ends_expect
  refine .ite (.ite ?_ (.ite ends_expect ends_expect)) ends_expect
  exact (hs _).bind fun _ _ => (hnext _ _).bind fun _ _ => (hnext _ _).bind fun _ _ => (hback _).bind fun _ _ =>
    ends_checkLoop

theorem ends_checkRule : (abnfCheckRule cx name).Ends := by
  have hphase : ∀ phase v, (abnfCheckPhase name phase v).Ends := by
    intro phase v
    unfold abnfCheckPhase
    split
    all_goals first | exact Run.ends_done _ | exact ends_expect
  unfold abnfCheckRule
  simp only
  split
  · refine (hphase _ _).bind fun _ _ => (hphase _ _).bind fun _ _ => ends_expect.bind fun _ _ => ?_
    exact (Run.Ends.each fun _ _ => ends_checkAlt).bind fun _ _ => Run.ends_done _
  · exact ends_expect
  · exact ends_expect

theorem ends_checkSets {used : Text} : (abnfCheckSets cx used).Ends := by
  have hspans : ∀ t m, (abnfMemberSpans cx t m).Ends := by
    intro t m
    unfold abnfMemberSpans
    exact .ite (Run.ends_ofOption _) (Run.ends_refused _)
  refine (Run.Ends.each fun k _ => ?_).bind fun _ _ => Run.ends_done _
  refine ends_setToken.bind fun cls _ => (Run.Ends.each fun m _ => hspans _ m).bind fun _ _ => ?_
  exact (Run.ends_ofOption _).bind fun _ _ => .ite (Run.ends_done _) (Run.ends_refused _)

theorem ends_check {spec : Json} : (abnfCheck spec cx).Ends := by
  have horder : (abnfCheckOrder spec).Ends := by
    unfold abnfCheckOrder
    split
    · exact .ite (Run.ends_done _) (Run.ends_refused _)
    · exact Run.ends_done _
  have hstart : (abnfCheckStart cx).Ends := .ite (Run.ends_done _) (Run.ends_refused _)
  unfold abnfCheck
  split
  · exact Run.ends_refused _
  · exact horder.bind fun _ _ => hstart.bind fun _ _ => (Run.Ends.each fun _ _ => ends_checkRule).bind fun _ _ =>
      ends_checkSets

theorem ends_ordered : (abnfOrdered cx).Ends := by
  refine Run.Ends.bind ?_ fun _ _ => Run.ends_done _
  exact (Run.Ends.each fun n _ => ends_made.bind fun _ _ => Run.ends_done _).bind fun _ _ => Run.ends_done _

theorem ends_directCore : (abnfDirectCore cx).Ends := by
  refine Run.Ends.bind ?_ fun _ _ => ?_
  · exact (Run.Ends.each fun n _ => ends_made.bind fun _ _ => Run.ends_done _).bind fun _ _ => Run.ends_done _
  · split <;> exact Run.ends_done _

theorem ends_lifted {used : Text} {tokens : List Text} : (Run.select (abnfLifted cx used) tokens).Ends :=
  (Run.Ends.each fun _ _ => ends_token.bind fun _ _ => Run.ends_done _).bind fun _ _ => Run.ends_done _

theorem ends_checkLifted {lifted : List Text} : (abnfCheckLifted cx lifted).Ends :=
  (Run.Ends.each fun _ _ => .ite (Run.ends_refused _) (Run.ends_done _)).bind fun _ _ => Run.ends_done _

theorem ends_liftedProduction {t : Text} : (abnfLiftedProduction cx t).Ends := by
  refine ends_token.bind fun info _ => ends_refText.bind fun _ _ => ?_
  split
  · exact ends_litText.bind fun _ _ => Run.ends_done _
  · exact Run.ends_fault

end

/-! ## The file -/

/-- What the render goes on to read once the checks that follow no helper have passed: the rules of the text, the core
rules that are referenced, and the tokens that are written as rules. -/
structure Checked where
  ordered : List Text
  direct : List Text
  lifted : List Text
  deriving DecidableEq

def Checked.names (ch : Checked) : List Text := ch.ordered ++ ch.direct

def abnfChecked (spec : Json) : Out Checked :=
  let cx := abnfContext spec
  (abnfCheck spec cx).bind fun _ => (abnfOrdered cx).bind fun ordered =>
    (Run.select (abnfLifted cx (abnfUsed cx)) (cx.fixed.map Prod.fst ++ cx.matchTokens.map Prod.fst)).bind fun lifted =>
      (abnfCheckLifted cx lifted).bind fun _ => (abnfDirectCore cx).bind fun direct => .done ⟨ordered, direct, lifted⟩

section

variable (cx : Context)

/-- A rule's alternatives and their keys come to a value. -/
def HasKeys (n : Text) : Prop := ∃ k alts keys, abnfAlts cx k n = .done alts ∧ altKeys cx k alts = .done keys

/-- The calls that the render makes of what it has checked: for each rule its alternatives and their keys, and when all
of them have come to a value, for each rule of the text its text. -/
inductive Starts (ch : Checked) : Call → Prop
  | alts {n} : InTurn (HasKeys cx) ch.names n → Starts ch (.alts n)
  | key {n k alts el} : InTurn (HasKeys cx) ch.names n → abnfAlts cx k n = .done alts →
    InTurn (fun el => Gives fun k => abnfKey cx k el) alts.flatten el → Starts ch (.key el)
  | text {k cands n k' alts} : abnfCandidates cx k ch.names = .done cands →
    InTurn (fun n => Gives fun k => abnfProduction cx k cands ch.lifted n) ch.ordered n → abnfLegalName n = true →
    written cx k' cands n = .done alts → Starts ch (.text (.alts alts))

end

section

variable {cx : Context} {ch : Checked} {names lifted : List Text} {cands : List Cand} {n : Text}
  {alts : List Seq} {k : Nat}

theorem altKeys_eq : altKeys cx k alts = Run.each (fun seq => (Run.each (abnfKey cx k) seq).bind .done) alts := by
  have hrow : ∀ seq, (Run.each (abnfKey cx k) seq).bind .done = Run.each (abnfKey cx k) seq := by
    intro seq
    cases Run.each (abnfKey cx k) seq <;> rfl
  simp only [hrow]
  rfl

theorem steady_altKeys : Steady fun k => altKeys cx k alts :=
  fun n m hle => Run.Grows.each (Run.Grows.each fun el => steady_key el n m hle) alts

/-- A rule's alternatives and their keys, as a candidate. -/
def candidate (cx : Context) (k : Nat) (n : Text) : Out Cand :=
  (abnfAlts cx k n).bind fun alts => (altKeys cx k alts).bind fun keys => .done ⟨n, keys⟩

theorem steady_candidate : Steady fun k => candidate cx k n :=
  fun i j hle => (steady_alts i j hle).bind fun _ => (steady_altKeys i j hle).then

theorem hasKeys_of_gives (h : Gives fun k => candidate cx k n) : HasKeys cx n := by
  obtain ⟨k, c, h⟩ := h
  obtain ⟨alts, halts, h⟩ := Run.bind_eq_done h
  obtain ⟨keys, hkeys, -⟩ := Run.bind_eq_done h
  exact ⟨k, alts, keys, halts, hkeys⟩

theorem HasKeys.gives (h : HasKeys cx n) : Gives fun k => candidate cx k n := by
  obtain ⟨k, alts, keys, halts, hkeys⟩ := h
  refine ⟨k, ⟨n, keys⟩, ?_⟩
  show (abnfAlts cx k n).bind _ = _
  rw [halts, Run.done_bind, hkeys, Run.done_bind]

theorem steady_candidates : Steady fun k => abnfCandidates cx k names :=
  fun i j hle => (Run.Grows.each (fun _ => steady_candidate i j hle) names).then

theorem hasKeys_of_candidates (h : abnfCandidates cx k names = .done cands) : ∀ n ∈ names, HasKeys cx n := by
  intro n hn
  obtain ⟨all, hall, -⟩ := Run.bind_eq_done h
  exact hasKeys_of_gives ⟨k, Run.exists_of_each hall hn⟩

theorem steady_unsub : Steady fun k => abnfUnsub cx k cands n alts :=
  fun i j hle => .ite (.refl _) (steady_altKeys i j hle).then.then

theorem steady_written : Steady fun k => written cx k cands n :=
  fun i j hle => (steady_alts i j hle).bind fun _ => steady_unsub i j hle

theorem steady_production : Steady fun k => abnfProduction cx k cands lifted n :=
  fun i j hle => .after fun _ => (steady_written i j hle).bind fun _ => (steady_text _ i j hle).then

theorem settles_candidates (h : ∀ c, Starts cx ch c → c.Settles cx ch.lifted) :
    Settles fun k => abnfCandidates cx k ch.names := by
  refine Settles.then (Settles.each fun n hn => ?_) fun _ => Run.ends_done _
  have hturn : InTurn (HasKeys cx) ch.names n := hn.mono fun _ _ => hasKeys_of_gives
  refine Settles.bind (h _ (.alts hturn)) fun alts halts => Settles.then ?_ fun _ => Run.ends_done _
  simp only [altKeys_eq]
  exact Settles.each_row (fun _ => Run.ends_done _) fun el hel => h _ (.key hturn halts.choose_spec hel)

/-- What is written for a rule whose keys are known is found without an endless call. -/
theorem settles_written (h : HasKeys cx n) : Settles fun k => written cx k cands n := by
  obtain ⟨k, alts, keys, halts, hkeys⟩ := h
  have hmatches : ∀ (c : Cand) ka i, (abnfCandMatches c ka i).Ends :=
    fun c ka i => .ite (Run.ends_done _) ((Run.ends_ofOption _).bind fun _ _ => Run.ends_done _)
  refine (steady_alts.settles (halts ▸ Run.ends_done alts)).bind fun alts' halts' => ?_
  obtain rfl := steady_alts.unique halts halts'.choose_spec
  refine .ite (fun _ => settles_const (Run.ends_done _)) fun _ => Settles.then ?_ fun best => ?_
  · refine (steady_altKeys.settles (hkeys ▸ Run.ends_done keys)).then fun ka => Run.Ends.each fun i _ => ?_
    refine Run.Ends.bind ?_ fun _ _ => Run.ends_done _
    exact (Run.Ends.each fun c _ => .ite (Run.ends_done _) (hmatches c ka i)).bind fun _ _ => Run.ends_done _
  · refine Run.Ends.bind ?_ fun _ _ => Run.ends_done _
    unfold abnfAlias
    split
    · exact ends_helperKind.bind fun _ _ => Run.ends_done _
    · exact Run.ends_done _

theorem settles_productions (h : ∀ c, Starts cx ch c → c.Settles cx ch.lifted)
    (hcands : abnfCandidates cx k ch.names = .done cands) :
    Settles fun k => Run.each (abnfProduction cx k cands ch.lifted) ch.ordered := by
  refine Settles.each fun n hn => (settles_const ends_refText).bind fun head hhead => ?_
  have hkeyed := hasKeys_of_candidates hcands n (List.mem_append_left _ hn.mem)
  refine (settles_written hkeyed).bind fun alts halts => Settles.then ?_ fun _ => Run.ends_done _
  exact h _ (.text hcands hn (abnfRefText_legal hhead.choose_spec).1 halts.choose_spec)

/-- What the render does once the checks have passed. -/
def checkedFile (cx : Context) (ch : Checked) (k : Nat) : Out Text :=
  (abnfCandidates cx k ch.names).bind fun cands =>
    (Run.each (abnfProduction cx k cands ch.lifted) ch.ordered).bind fun productions =>
    (Run.each (abnfLiftedProduction cx) ch.lifted).bind fun tokens =>
      .done (stringJoin ['\n'] (productions ++ tokens) ++ ['\n'])

theorem settles_checkedFile (h : ∀ c, Starts cx ch c → c.Settles cx ch.lifted) : Settles (checkedFile cx ch) := by
  refine (settles_candidates h).bind fun cands hcands => ?_
  refine (settles_productions h hcands.choose_spec).then fun productions => ?_
  exact (Run.Ends.each fun _ _ => ends_liftedProduction).bind fun _ _ => Run.ends_done _

theorem steady_checkedFile : Steady (checkedFile cx ch) :=
  fun i j hle => (steady_candidates i j hle).bind fun _ => (Run.Grows.each (fun _ => steady_production i j hle) _).then

/-- The calls that are made of what was checked end where the render does. -/
theorem Starts.settles (h : (checkedFile cx ch k).Ends) {c : Call} (hc : Starts cx ch c) : c.Settles cx ch.lifted := by
  have hcandidate : ∀ {n}, InTurn (HasKeys cx) ch.names n → (candidate cx k n).Ends := by
    intro n hn
    have hall : (Run.each (candidate cx k) ch.names).Ends := h.left.left
    exact Steady.ends_each (fun _ => steady_candidate) hall (hn.mono fun _ _ => HasKeys.gives)
  cases hc with
  | alts hn => exact steady_alts.settles (hcandidate hn).left
  | key hn halts hel =>
    have hkeys := ((hcandidate hn).right (steady_alts.done halts (hcandidate hn).left)).left
    rw [altKeys_eq] at hkeys
    exact (steady_key _).settles (Steady.ends_each_row (fun el => steady_key el) (fun ks => ⟨_, rfl⟩) hkeys hel)
  | text hcands hn hlegal halts =>
    have hall := (h.right (steady_candidates.done hcands h.left)).left
    have hproduction := Steady.ends_each (fun _ => steady_production) hall hn
    have hwritten := hproduction.right (if_pos hlegal)
    exact (steady_text _).settles (hwritten.right (steady_written.done halts hwritten.left)).left

/-- The render of what was checked comes to an end exactly where none of its calls leads to one without end. -/
theorem settles_checkedFile_iff : Settles (checkedFile cx ch) ↔
    ∀ c c', Starts cx ch c → ReflTransGen (Enters cx ch.lifted) c c' → ¬ Endless cx ch.lifted c' := by
  constructor
  · intro h c c' hc
    obtain ⟨k, hk⟩ := h.ends
    exact settles_iff.1 (hc.settles hk) c'
  · intro h
    exact settles_checkedFile fun c hc => settles_iff.2 fun c' => h c c' hc

end

theorem abnfFile_checked (spec : Json) (k : Nat) :
    abnfFile spec k = (abnfChecked spec).bind fun ch => checkedFile (abnfContext spec) ch k := by
  have hassoc : ∀ {α β γ : Type} (x : Out α) (f : α → Out β) (g : β → Out γ), (x.bind f).bind g = x.bind fun a =>
    (f a).bind g := by
    intro α β γ x f g
    cases x <;> rfl
  unfold abnfFile abnfChecked
  simp only [hassoc, Run.done_bind]
  rfl

theorem ends_checked (spec : Json) : (abnfChecked spec).Ends :=
  ends_check.bind fun _ _ => ends_ordered.bind fun _ _ => ends_lifted.bind fun _ _ => ends_checkLifted.bind fun _ _ =>
    ends_directCore.bind fun _ _ => Run.ends_done _

theorem steady_file (spec : Json) : Steady (abnfFile spec) := by
  intro n m hle
  rw [abnfFile_checked, abnfFile_checked]
  exact .after fun _ => steady_checkedFile n m hle

/-- The render comes to an end exactly where no call that it makes, once the checks have passed, leads to one that
is made again within itself or to an expansion that piles up. -/
theorem abnfFile_ends (spec : Json) : Settles (abnfFile spec) ↔
    ∀ ch, abnfChecked spec = .done ch → ∀ c c', Starts (abnfContext spec) ch c →
      ReflTransGen (Enters (abnfContext spec) ch.lifted) c c' → ¬ Endless (abnfContext spec) ch.lifted c' := by
  have hfile : abnfFile spec = fun k => (abnfChecked spec).bind fun ch => checkedFile (abnfContext spec) ch k :=
    funext (abnfFile_checked spec)
  constructor
  · intro h ch hch
    rw [hfile, hch] at h
    exact settles_checkedFile_iff.1 h
  · intro h
    rw [hfile]
    exact (settles_const (ends_checked spec)).bind fun ch hch => settles_checkedFile_iff.2 (h ch hch.choose_spec)

/-! ## Helpers that lead to themselves -/

/-- `a` over a group, with the alternatives of the group. -/
def overGroup (alts : List (List (String × String))) : Json :=
  specOf [startWrapper "a", (['a'], openClose [[("p", "_gen1_group")]] []), ("_gen1_group".toList, openClose alts [])]
    "__start__" [("#X", "x"), ("#Y", "y")]

/-- The group is over itself. -/
def endlessGroup : Json := overGroup [[("p", "_gen1_group")]]

theorem abnfHelperKind_endlessGroup :
    abnfHelperKind (abnfContext endlessGroup) "_gen1_group".toList = .done (some "group".toList) := by
  decide +kernel

/-- The group's one alternative is the group, and so is `a`'s. -/
theorem abnfAlts_endlessGroup {name : Text} (hname : name ∈ [['a'], "_gen1_group".toList]) (k : Nat) :
    abnfAlts (abnfContext endlessGroup) (k + 1) name = .done [[.ref "_gen1_group".toList]] := by
  have hraw : ∀ name ∈ [['a'], "_gen1_group".toList],
      abnfRawAlts (abnfContext endlessGroup) name = .done [[.ref "_gen1_group".toList]] := by
    intro name hname
    rcases List.mem_pair.1 hname with rfl | rfl <;>
    · unfold abnfRawAlts abnfChain abnfChainWalk abnfChainWalk
      rfl
  have hexpand : abnfExpand (abnfContext endlessGroup) (k + 1) [.ref "_gen1_group".toList] =
      .done [[.ref "_gen1_group".toList]] := by
    have hfact : lastFact (abnfContext endlessGroup) [.ref "_gen1_group".toList] = .done none := by decide +kernel
    rw [abnfExpand, iterate, expandBody, hfact]
    rfl
  have howned : abnfOwnedFact (abnfContext endlessGroup) name [.ref "_gen1_group".toList] = .done false := by
    rcases List.mem_pair.1 hname with rfl | rfl <;> decide +kernel
  have hsplit : abnfSplitGroup (abnfContext endlessGroup) (k + 1) name [.ref "_gen1_group".toList] =
      .done [[.ref "_gen1_group".toList]] := by
    unfold abnfSplitGroup
    simp only [abnfHelperKind_endlessGroup, hraw "_gen1_group".toList (by simp), howned, Run.done_bind]
    rfl
  simp only [abnfAlts, hraw name hname, Run.done_bind, Run.each, hexpand, List.flatten_cons, List.flatten_nil,
    List.append_nil, hsplit]

/-- No fuel suffices for a group over itself: the key of its one element is the group's. -/
theorem abnfFile_endlessGroup : ¬ ∃ k, (abnfFile endlessGroup k).Ends := by
  rintro ⟨k, hk⟩
  have hchecked : abnfChecked endlessGroup = .done ⟨[['a']], [], ["#X".toList, "#Y".toList]⟩ := by decide +kernel
  have hkeyed : KeyedByAlts (some "group".toList) := by
    unfold KeyedByAlts
    decide
  have hstart : Starts (abnfContext endlessGroup) ⟨[['a']], [], ["#X".toList, "#Y".toList]⟩
    (.key (.ref "_gen1_group".toList)) :=
    .key .head (abnfAlts_endlessGroup List.mem_cons_self 0) .head
  have hagain : Enters (abnfContext endlessGroup) ["#X".toList, "#Y".toList] (.key (.ref "_gen1_group".toList))
      (.key (.ref "_gen1_group".toList)) :=
    .keyEl abnfHelperKind_endlessGroup hkeyed (abnfAlts_endlessGroup (by simp) 0) .head
  rw [abnfFile_checked, hchecked, Run.done_bind] at hk
  exact Endless.not_acc (.inl (.single hagain)) (settles_iff_acc.1 (hstart.settles hk))

/-- `a` begins with `X` or with `Y` and goes on to a step that is missing; `b` is over a group over itself. -/
def refusedFirst : Json :=
  specOf [startWrapper "a", (['a'], openClose [[("s", "#X")], [("s", "#Y")]] [[("r", "a$step1")]]),
    (['b'], openClose [[("p", "_gen1_group")]] []), ("_gen1_group".toList, openClose [[("p", "_gen1_group")]] [])]
    "__start__" [("#X", "x"), ("#Y", "y")]

/-- The checks pass, and `a` is refused before the group is read, so nothing is read for ever. -/
theorem abnfFile_ends_refusedFirst :
    ∀ ch, abnfChecked refusedFirst = .done ch → ∀ c c', Starts (abnfContext refusedFirst) ch c →
      ReflTransGen (Enters (abnfContext refusedFirst) ch.lifted) c c' →
        ¬ Endless (abnfContext refusedFirst) ch.lifted c' := by
  have hends : (abnfFile refusedFirst 1).Ends := by
    unfold Run.Ends
    decide +kernel
  exact (abnfFile_ends refusedFirst).1 ((steady_file refusedFirst).settles hends)

example : abnfChecked refusedFirst = .done ⟨[['a'], ['b']], [], []⟩ := by decide +kernel

end TabnasAbnf.Render
