/-
The helpers that a file is written with in the places of their references. What is written for each generates what the
helper does, where the helper has the shape its kind is read in; a loop over two items is written as one over the first.
-/
import TabnasAbnf.Render.Inlined
import TabnasAbnf.Render.Resolve

namespace TabnasAbnf.Render

open TabnasAbnf.Base

/-! ## What is written within an element -/

/-- An element is written in the place of another, or within what is. -/
inductive Within (cx : Context) : El → El → Prop
  | self {el} : Within cx el el
  | tail {seq el el'} : el ∈ seq → Within cx el el' → Within cx (.tail seq) el'
  | grp {seq el el'} : el ∈ seq → Within cx el el' → Within cx (.grp seq) el'
  | helper {name el el'} : Inside cx name el → Within cx el el' → Within cx (.ref name) el'

theorem Tree.mem_nodes (t : Tree) : t ∈ t.nodes := by
  cases t <;> exact List.mem_cons_self

mutual

theorem Tree.nodes_subset : (t : Tree) → ∀ t' ∈ t.nodes, t'.nodes ⊆ t.nodes
  | .lit _ _, t', h | .cls _ _, t', h | .tok _, t', h | .ref _, t', h => by
    rw [List.mem_singleton.1 h]
    exact List.Subset.refl _
  | .group alts, t', h => by
    rcases List.mem_cons.1 h with rfl | h
    · exact List.Subset.refl _
    · exact List.subset_cons_of_subset _ (nodesAlts_subset alts t' h)
  | .option alts, t', h => by
    rcases List.mem_cons.1 h with rfl | h
    · exact List.Subset.refl _
    · exact List.subset_cons_of_subset _ (nodesAlts_subset alts t' h)
  | .tail seq, t', h => by
    rcases List.mem_cons.1 h with rfl | h
    · exact List.Subset.refl _
    · exact List.subset_cons_of_subset _ (nodesSeq_subset seq t' h)
  | .rep _ item, t', h => by
    rcases List.mem_cons.1 h with rfl | h
    · exact List.Subset.refl _
    · exact List.subset_cons_of_subset _ (item.nodes_subset t' h)

theorem nodesSeq_subset : (ts : List Tree) → ∀ t' ∈ nodesSeq ts, t'.nodes ⊆ nodesSeq ts
  | [], t', h => by cases h
  | t :: ts, t', h => by
    rw [nodesSeq] at h ⊢
    rcases List.mem_append.1 h with h | h
    · exact List.subset_append_of_subset_left _ (t.nodes_subset t' h)
    · exact List.subset_append_of_subset_right _ (nodesSeq_subset ts t' h)

theorem nodesAlts_subset : (alts : List (List Tree)) → ∀ t' ∈ nodesAlts alts, t'.nodes ⊆ nodesAlts alts
  | [], t', h => by cases h
  | seq :: alts, t', h => by
    rw [nodesAlts] at h ⊢
    rcases List.mem_append.1 h with h | h
    · exact List.subset_append_of_subset_left _ (nodesSeq_subset seq t' h)
    · exact List.subset_append_of_subset_right _ (nodesAlts_subset alts t' h)

end

theorem mem_nodesSeq {t : Tree} {ts : List Tree} (h : t ∈ ts) : t ∈ nodesSeq ts := by
  induction ts with
  | nil => cases h
  | cons t' ts ih =>
    rw [nodesSeq]
    rcases List.mem_cons.1 h with rfl | h
    · exact List.mem_append_left _ t.mem_nodes
    · exact List.mem_append_right _ (ih h)

theorem mem_nodesAlts {t : Tree} {seq : List Tree} {alts : List (List Tree)} (hseq : seq ∈ alts) (ht : t ∈ seq) :
    t ∈ nodesAlts alts := by
  induction alts with
  | nil => cases hseq
  | cons seq' alts ih =>
    rw [nodesAlts]
    rcases List.mem_cons.1 hseq with rfl | hseq
    · exact List.mem_append_left _ (mem_nodesSeq ht)
    · exact List.mem_append_right _ (ih hseq)

section

variable {cx : Context} {lifted : List Text}

/-- A tree among some is an element's. -/
def TreeAmong (cx : Context) (lifted : List Text) (ts : List Tree) (el : El) : Prop :=
  ∃ t ∈ ts, ∃ n, treeEl cx lifted n el = .done t

theorem treeAlts_among {n : Nat} {x : List Seq} {alts : List (List Tree)} (h : treeAlts cx lifted n x = .done alts)
    {seq : Seq} (hseq : seq ∈ x) {el : El} (hel : el ∈ seq) : TreeAmong cx lifted (nodesAlts alts) el := by
  cases n with
  | zero => cases h
  | succ n =>
    obtain ⟨trees, htrees, hrun⟩ := Run.mem_of_each h hseq
    obtain ⟨t, ht, hrun⟩ := Run.mem_of_each hrun hel
    exact ⟨t, mem_nodesAlts htrees ht, n, hrun⟩

theorem treeAtom_among {n : Nat} {el : El} {t : Tree} (h : treeAtom cx lifted n el = .done t) :
    TreeAmong cx lifted t.nodes el := by
  cases n with
  | zero => cases h
  | succ n =>
    cases el with
    | tok _ => exact ⟨t, t.mem_nodes, n + 1, h⟩
    | _ => exact ⟨t, t.mem_nodes, n, h⟩

theorem TreeAmong.mono {ts ts' : List Tree} {el : El} (h : TreeAmong cx lifted ts el) (hsub : ts ⊆ ts') :
    TreeAmong cx lifted ts' el := by
  obtain ⟨t, ht, hrun⟩ := h
  exact ⟨t, hsub ht, hrun⟩

/-- What is inside a helper is written within what is written for it. -/
theorem treeEl_inside {n : Nat} {name : Text} {el : El} {t : Tree} (h : treeEl cx lifted n (.ref name) = .done t)
    (hin : Inside cx name el) : TreeAmong cx lifted t.nodes el := by
  have hitem : ∀ {n count} {item : El} {t : Tree},
      ((treeAtom cx lifted n item).bind fun t => (.done (.rep count t) : Out Tree)) = .done t →
        TreeAmong cx lifted t.nodes item := by
    intro n count item t h
    obtain ⟨inner, hinner, h⟩ := Run.bind_eq_done h
    cases h
    exact (treeAtom_among hinner).mono (List.subset_cons_self _ _)
  cases n with
  | zero => cases h
  | succ n =>
    rw [treeEl] at h
    obtain ⟨kind, hkind, h⟩ := Run.bind_eq_done h
    rcases kind with _ | kind
    · cases h
    rw [Run.ofOption, Run.done_bind] at h
    -- what a helper reads is what is inside it, kind by kind
    split_ifs at h with hrule hstar hplus hopt hrep hgroup
    · subst hrule
      cases hin <;> exact absurd (hkind.symm.trans ‹abnfHelperKind cx name = _›) (by decide)
    · subst hstar
      obtain ⟨item, hitem', h⟩ := Run.bind_eq_done h
      rw [(inside_star hkind hitem').1 hin]
      exact hitem h
    · subst hplus
      obtain ⟨alts, halts, h⟩ := Run.bind_eq_done h
      obtain ⟨item, hitem', h⟩ := Run.bind_eq_done h
      rw [(inside_plus hkind halts (Run.ofOption_eq_done.1 hitem')).1 hin]
      exact hitem h
    · subst hopt
      obtain ⟨alts, halts, h⟩ := Run.bind_eq_done h
      obtain ⟨inner, hinner, h⟩ := Run.bind_eq_done h
      obtain ⟨group, hgroup, h⟩ := Run.bind_eq_done h
      rw [Run.ofOption_eq_done] at hinner
      cases group with
      | true =>
        obtain ⟨innerName, hinnerName, h⟩ := Run.bind_eq_done h
        obtain ⟨innerAlts, hinnerAlts, h⟩ := Run.bind_eq_done h
        obtain ⟨trees, htrees, h⟩ := Run.bind_eq_done h
        cases h
        rw [Run.ofOption_eq_done] at hinnerName
        obtain ⟨seq, hseq, hel⟩ := (inside_optGroup hkind halts hinner hgroup hinnerName hinnerAlts).1 hin
        exact (treeAlts_among htrees hseq hel).mono (List.subset_cons_self _ _)
      | false =>
        rw [(inside_opt hkind halts hinner hgroup).1 hin]
        exact hitem h
    · subst hrep
      obtain ⟨parts, hparts, h⟩ := Run.bind_eq_done h
      rw [(inside_rep hkind hparts).1 hin]
      exact hitem h
    · subst hgroup
      obtain ⟨alts, halts, h⟩ := Run.bind_eq_done h
      obtain ⟨trees, htrees, h⟩ := Run.bind_eq_done h
      cases h
      obtain ⟨seq, hseq, hel⟩ := (inside_group hkind halts).1 hin
      exact (treeAlts_among htrees hseq hel).mono (List.subset_cons_self _ _)

/-- What is written within an element has a tree within the element's. -/
theorem Within.among {el el' : El} (h : Within cx el el') {n : Nat} {t : Tree} (ht : treeEl cx lifted n el = .done t) :
    TreeAmong cx lifted t.nodes el' := by
  -- a tree within a tree within the element's is within it
  have hnext : ∀ {t : Tree} {el el' : El},
    (∀ {n t}, treeEl cx lifted n el = .done t → TreeAmong cx lifted t.nodes el') →
      TreeAmong cx lifted t.nodes el → TreeAmong cx lifted t.nodes el' := by
    rintro t el el' ih ⟨t', ht', n, hrun⟩
    exact (ih hrun).mono (t.nodes_subset t' ht')
  induction h generalizing n t with
  | self => exact ⟨t, t.mem_nodes, n, ht⟩
  | tail hel _ ih =>
    cases n with
    | zero => cases ht
    | succ n =>
      obtain ⟨alts, halts, ht⟩ := Run.bind_eq_done ht
      cases ht
      refine hnext ih ?_
      obtain ⟨trees, rfl⟩ := treeAlts_single halts
      have hamong := treeAlts_among halts List.mem_cons_self hel
      rw [nodesAlts, nodesAlts, List.append_nil] at hamong
      rw [List.flatten_singleton]
      exact hamong.mono (List.subset_cons_self _ _)
  | grp hel _ ih =>
    cases n with
    | zero => cases ht
    | succ n =>
      obtain ⟨alts, halts, ht⟩ := Run.bind_eq_done ht
      cases ht
      exact hnext ih ((treeAlts_among halts List.mem_cons_self hel).mono (List.subset_cons_self _ _))
  | helper hin _ ih => exact hnext ih (treeEl_inside ht hin)

end

/-! ## Helpers in a file -/

/-- A rule is written in the place of a reference in some alternatives. -/
def Inlines (cx : Context) (alts : List Seq) (name : Text) : Prop := ∃ seq ∈ alts, ∃ el ∈ seq, Within cx el (.ref name)

/-- What a tree matches is what a rule's alternates generate. -/
def Tree.Generates (cx : Context) (lifted : List Text) (name : Text) (t : Tree) : Prop :=
  t.words.map some = (generated cx (.opening name)).map (writtenAs cx lifted)

/-- What the render reads in the place of a factored tail that an alternative ends in, or of a group that is taken apart
where it is a rule's whole alternative. -/
inductive TakesPlace (cx : Context) (fuel : Nat) (owner : Text) : Seq → Text → List Seq → Prop
  | tail {front name alts} : abnfHelperKind cx name = .done (some "fact".toList) →
    abnfExpand cx fuel (front ++ [.ref name]) = .done alts → TakesPlace cx fuel owner front name alts
  | group {name alts} : abnfHelperKind cx name = .done (some "group".toList) →
    abnfSplitGroup cx fuel owner [.ref name] = .done alts → TakesPlace cx fuel owner [] name alts

section

variable {cx : Context} {fuel : Nat} {name : Text} {alts : List Seq}

/-- What takes a helper's place generates what the helper does, behind what stands before it. -/
theorem TakesPlace.words {owner : Text} {front : Seq} (h : TakesPlace cx fuel owner front name alts)
    (hfront : ∀ el ∈ front, Formed cx el) (hname : Formed cx (.ref name)) :
    altsWords cx alts = seqWords cx front * generated cx (.opening name) := by
  have hmade : ∀ {kind : Text}, abnfHelperKind cx name = .done (some kind) → kind ≠ [] →
      seqWords cx (front ++ [.ref name]) = seqWords cx front * generated cx (.opening name) := by
    intro kind hkind hne
    rw [seqWords_append, seqWords_single, words_made (made_of_kind hkind hne)]
  have hall : ∀ el ∈ front ++ [.ref name], Formed cx el :=
    List.forall_mem_append.2 ⟨hfront, List.forall_mem_singleton.2 hname⟩
  cases h with
  | tail hkind hexpand => rw [expand_words hall hexpand, hmade hkind (by decide)]
  | group hkind hsplit => rw [splitGroup_words hall hsplit, hmade hkind (by decide)]

/-- A rule's alternatives, with its factored tails and groups taken apart, generate what its own alternates do. -/
theorem alts_generated (hlossless : Lossless cx name)
    (hraw : ∀ raw, abnfRawAlts cx name = .done raw → AllEls (Formed cx) raw)
    (halts : abnfAlts cx fuel name = .done alts) : altsWords cx alts = generated cx (.opening name) := by
  obtain ⟨raw, hrun, -⟩ := Run.bind_eq_done halts
  rw [alts_words hrun (hraw raw hrun) halts, rawAlts_words hlossless hrun]

theorem formed_alts (hraw : ∀ raw, abnfRawAlts cx name = .done raw → AllEls (Formed cx) raw)
    (halts : abnfAlts cx fuel name = .done alts) : AllEls (Formed cx) alts := by
  obtain ⟨raw, hrun, -⟩ := Run.bind_eq_done halts
  exact formed_inherited.alts hrun (hraw raw hrun) halts

end

/-- A rule of a listing is read, and written from what is read. -/
theorem abnfListing_alts {spec : Json} {fuel : Nat} {l : Listing} (h : abnfListing spec fuel = .done l) :
    ∀ rule ∈ l.rules, ∃ alts, abnfAlts (abnfContext spec) fuel rule.1 = .done alts := by
  obtain ⟨_, -, h⟩ := Run.bind_eq_done h
  obtain ⟨ordered, -, h⟩ := Run.bind_eq_done h
  obtain ⟨lifted, -, h⟩ := Run.bind_eq_done h
  obtain ⟨_, -, h⟩ := Run.bind_eq_done h
  obtain ⟨direct, -, h⟩ := Run.bind_eq_done h
  obtain ⟨cands, -, h⟩ := Run.bind_eq_done h
  obtain ⟨rules, hrules, h⟩ := Run.bind_eq_done h
  cases h
  intro rule hrule
  obtain ⟨name, -, hrun⟩ := Run.mem_each hrules hrule
  obtain ⟨written, hwritten, heq⟩ := Run.bind_eq_done hrun
  cases heq
  obtain ⟨alts, halts, -⟩ := Run.bind_eq_done hwritten
  exact ⟨alts, halts⟩

/-- In a text that is written, what stands in the place of a helper generates exactly what the helper does, wherever the
helper has the shape that its kind is read in; and so do the alternatives of each rule, with those of its factored tails
and of its groups taken apart in their places, and where no reference is written back what is written for them. -/
theorem abnfFile_generates {spec : Json} {fuel : Nat} {out : Text} (h : abnfFile spec fuel = .done out) :
    ∃ l, abnfListing spec fuel = .done l ∧ l.WrittenAs (abnfContext spec) fuel out ∧
      (∀ rule ∈ l.rules, ∃ trees alts, treeAlts (abnfContext spec) l.lifted fuel rule.2 = .done trees ∧
        abnfAlts (abnfContext spec) fuel rule.1 = .done alts ∧
        (∀ name kind, abnfHelperKind (abnfContext spec) name = .done (some kind) → kind ≠ [] →
          Inlines (abnfContext spec) rule.2 name → Formed (abnfContext spec) (.ref name) →
            ∃ t ∈ nodesAlts trees, (∃ n, treeEl (abnfContext spec) l.lifted n (.ref name) = .done t) ∧
              t.Generates (abnfContext spec) l.lifted name) ∧
        (Lossless (abnfContext spec) rule.1 →
          (∀ raw, abnfRawAlts (abnfContext spec) rule.1 = .done raw → AllEls (Formed (abnfContext spec)) raw) →
            altsWords (abnfContext spec) alts = generated (abnfContext spec) (.opening rule.1) ∧
              (rule.2 = alts → (treeAltsWords trees).map some =
                (generated (abnfContext spec) (.opening rule.1)).map (writtenAs (abnfContext spec) l.lifted)))) ∧
      ∀ owner front name alts, TakesPlace (abnfContext spec) fuel owner front name alts →
        (∀ el ∈ front, Formed (abnfContext spec) el) → Formed (abnfContext spec) (.ref name) →
          altsWords (abnfContext spec) alts =
            seqWords (abnfContext spec) front * generated (abnfContext spec) (.opening name) := by
  obtain ⟨l, hl, hwritten⟩ := abnfFile_listing spec fuel out h
  refine ⟨l, hl, hwritten, fun rule hrule => ?_, fun owner front name alts htakes => htakes.words⟩
  obtain ⟨alts, halts⟩ := abnfListing_alts hl rule hrule
  obtain ⟨lines, tokens, hlines, -, -⟩ := hwritten
  obtain ⟨i, hi, rfl⟩ := List.mem_iff_getElem.1 hrule
  obtain ⟨trees, _, htrees, -, -, -⟩ := hlines.get (i := i) (by rw [hlines.length_eq]; exact hi) hi
  refine ⟨trees, alts, htrees, halts, fun name kind hkind hne hin hformed => ?_, fun hlossless hraw => ?_⟩
  · obtain ⟨seq, hseq, el, hel, hwithin⟩ := hin
    obtain ⟨t, ht, n, hrun⟩ := treeAlts_among htrees hseq hel
    obtain ⟨t', ht', m, hrun'⟩ := hwithin.among hrun
    refine ⟨t', nodesAlts_subset trees t ht ht', ⟨m, hrun'⟩, ?_⟩
    have hwords := (tree_words m).el _ t' hformed hrun'
    rwa [words_made (made_of_kind hkind hne)] at hwords
  · have hwords := alts_generated hlossless hraw halts
    refine ⟨hwords, fun hsame => ?_⟩
    rw [← hwords]
    exact (tree_words fuel).alts alts trees (formed_alts hraw halts) (hsame ▸ htrees)

/-! ## A group and a factored tail taken apart -/

/-- A loop's entry. -/
def loopEntry (name : String) : Json :=
  .obj [(['c'], .obj [("n.rep".toList, .num 0)]), (['r'], .str name.toList)]

/-- A loop of tokens, each taken alone. -/
def tokenLoop (name : String) (tokens : List String) : Json :=
  .obj
    [("open".toList,
      .arr (loopEntry name :: tokens.map (fun t => alternate [("s", t), ("r", name)]) ++ [alternate []])),
    ("close".toList, .arr [])]

/-- `a` is a group of an `x` and what was factored from behind it: a `y` and one `x` or more, or a `z`. -/
def factoredSpec : Json :=
  specOf [startWrapper "a", (['a'], openClose [[("p", "_gen3_group")]] []),
    ("_gen3_group".toList, openClose [[("s", "#X"), ("p", "a$fact1")]] []),
    ("a$fact1".toList, openClose [[("s", "#Y"), ("p", "_gen2_plus")], [("s", "#Z")]] []),
    ("_gen2_plus".toList, openClose [[("s", "#X"), ("p", "_gen1_star")]] []),
    ("_gen1_star".toList, tokenLoop "_gen1_star" ["#X"])] "__start__" [("#X", "x"), ("#Y", "y"), ("#Z", "z")]

def factoredAlts : List Seq :=
  [[.grp [.tok "#X".toList, .tok "#Y".toList, .ref "_gen2_plus".toList]], [.grp [.tok "#X".toList, .tok "#Z".toList]]]

set_option maxRecDepth 20000 in
theorem abnfListing_factoredSpec :
    abnfListing factoredSpec 8 = .done { rules := [(['a'], factoredAlts)], lifted := [] } := by
  rfl

set_option maxRecDepth 20000 in
theorem abnfAlts_factoredSpec : abnfAlts (abnfContext factoredSpec) 8 ['a'] = .done factoredAlts := by rfl

theorem loop_factoredSpec : Loop (abnfContext factoredSpec) "_gen1_star".toList (.tok "#X".toList) := by
  have hopen : abnfOpen (abnfRule (abnfContext factoredSpec) "_gen1_star".toList) =
      [loopEntry "_gen1_star", alternate [("s", "#X"), ("r", "_gen1_star")], alternate []] := by rfl
  have hidle : Idle (alternate []) := by
    unfold Idle
    decide +kernel
  have htoken : Continues (abnfContext factoredSpec) "_gen1_star".toList (.tok "#X".toList)
      (alternate [("s", "#X"), ("r", "_gen1_star")]) :=
    .token rfl (by decide +kernel) (by decide +kernel) (by decide +kernel) (by decide)
  have hentry : LeadsTo (loopEntry "_gen1_star") "_gen1_star".toList := by
    unfold LeadsTo
    decide +kernel
  constructor
  · decide +kernel
  · intro alt halt
    cases halt
  · rw [hopen]
    simp only [List.forall_mem_cons]
    exact ⟨.inr (.inl hentry), .inr (.inr htoken), .inl hidle, fun _ h => by cases h⟩
  · rw [hopen]
    exact ⟨_, by simp, hidle⟩
  · rw [hopen]
    exact ⟨_, by simp, htoken⟩

/-- A rule that is read by its open alternates and has no others. -/
theorem lossless_open {cx : Context} {name : Text} (htail : abnfIsTail name (abnfRule cx name) = false)
    (hdispatches : abnfDispatches name (abnfRule cx name) = false) (hclose : abnfClose (abnfRule cx name) = [])
    (hkeys : EntriesApart (abnfOpen (abnfRule cx name))) : Lossless cx name := by
  refine ⟨htail, fun h => ?_, fun _ _ => ⟨hkeys, fun alt halt => ?_⟩, fun _ h => ?_⟩
  · rw [hdispatches] at h
    cases h
  · rw [hclose] at halt
    cases halt
  · rw [hclose] at h
    exact absurd rfl h

theorem lossless_factoredSpec {name : Text}
    (hname : name ∈ [['a'], "_gen3_group".toList, "a$fact1".toList, "_gen2_plus".toList]) :
    Lossless (abnfContext factoredSpec) name := by
  simp only [List.mem_cons, List.not_mem_nil, or_false] at hname
  have hkeys : ∀ name, EntriesApart (abnfOpen (abnfRule (abnfContext factoredSpec) name)) →
      abnfIsTail name (abnfRule (abnfContext factoredSpec) name) = false →
      abnfDispatches name (abnfRule (abnfContext factoredSpec) name) = false →
      abnfClose (abnfRule (abnfContext factoredSpec) name) = [] → Lossless (abnfContext factoredSpec) name :=
    fun name hkeys htail hdispatches hclose => lossless_open htail hdispatches hclose hkeys
  unfold EntriesApart at hkeys
  rcases hname with rfl | rfl | rfl | rfl
  all_goals exact hkeys _ (by decide +kernel) (by decide +kernel) (by decide +kernel) (by rfl)

theorem formed_plus_factoredSpec : Formed (abnfContext factoredSpec) (.ref "_gen2_plus".toList) :=
  .plus (by decide +kernel) (lossless_factoredSpec (by simp))
    ⟨[[.tok "#X".toList, .ref "_gen1_star".toList]], by decide +kernel, by simp⟩ (by decide +kernel)
      loop_factoredSpec .tok

theorem formed_fact_factoredSpec : Formed (abnfContext factoredSpec) (.ref "a$fact1".toList) := by
  have hraw : abnfRawAlts (abnfContext factoredSpec) "a$fact1".toList =
      .done [[.tok "#Y".toList, .ref "_gen2_plus".toList], [.tok "#Z".toList]] := by decide +kernel
  refine .alts (by decide +kernel) (.inl rfl) (lossless_factoredSpec (by simp)) hraw ?_
  simp only [List.forall_mem_cons, List.not_mem_nil, false_imp_iff, implies_true, and_true]
  exact ⟨⟨.tok, formed_plus_factoredSpec⟩, .tok⟩

theorem formed_group_factoredSpec : Formed (abnfContext factoredSpec) (.ref "_gen3_group".toList) := by
  have hraw : abnfRawAlts (abnfContext factoredSpec) "_gen3_group".toList =
      .done [[.tok "#X".toList, .ref "a$fact1".toList]] := by decide +kernel
  refine .alts (by decide +kernel) (.inr rfl) (lossless_factoredSpec (by simp)) hraw ?_
  simp only [List.forall_mem_cons, List.not_mem_nil, false_imp_iff, implies_true, and_true]
  exact ⟨.tok, formed_fact_factoredSpec⟩

/-- The group is taken apart into two, each with an alternative of the tail, and the plus is written in its place. -/
theorem abnfFile_generates_factored :
    abnfFile factoredSpec 8 = .done "a = ( %s\"x\" %s\"y\" 1*%s\"x\" ) / ( %s\"x\" %s\"z\" )\n".toList ∧
      (∃ trees, treeAlts (abnfContext factoredSpec) [] 8 factoredAlts = .done trees ∧ (treeAltsWords trees).map some =
        (generated (abnfContext factoredSpec) (.opening ['a'])).map (writtenAs (abnfContext factoredSpec) [])) ∧
      (∃ n t, treeEl (abnfContext factoredSpec) [] n (.ref "_gen2_plus".toList) = .done t ∧
        t.Generates (abnfContext factoredSpec) [] "_gen2_plus".toList) ∧
      altsWords (abnfContext factoredSpec) factoredAlts =
        seqWords (abnfContext factoredSpec) [] * generated (abnfContext factoredSpec) (.opening "_gen3_group".toList) ∧
      altsWords (abnfContext factoredSpec)
          [[.tok "#X".toList, .tok "#Y".toList, .ref "_gen2_plus".toList], [.tok "#X".toList, .tok "#Z".toList]] =
        seqWords (abnfContext factoredSpec) [.tok "#X".toList] *
          generated (abnfContext factoredSpec) (.opening "a$fact1".toList) := by
  have hout : abnfFile factoredSpec 8 =
      .done "a = ( %s\"x\" %s\"y\" 1*%s\"x\" ) / ( %s\"x\" %s\"z\" )\n".toList := by decide +kernel
  obtain ⟨l, hl, -, hall, hplace⟩ := abnfFile_generates hout
  cases hl.symm.trans abnfListing_factoredSpec
  obtain ⟨trees, alts, htrees, halts, hinlined, hrule⟩ := hall _ List.mem_cons_self
  cases halts.symm.trans abnfAlts_factoredSpec
  have hraw : abnfRawAlts (abnfContext factoredSpec) ['a'] = .done [[.ref "_gen3_group".toList]] := by decide +kernel
  have hformed : ∀ raw, abnfRawAlts (abnfContext factoredSpec) ['a'] = .done raw →
    AllEls (Formed (abnfContext factoredSpec)) raw := by
    intro raw h
    cases hraw.symm.trans h
    intro seq hseq el hel
    rw [List.mem_singleton.1 hseq] at hel
    rw [List.mem_singleton.1 hel]
    exact formed_group_factoredSpec
  rcases hinlined "_gen2_plus".toList "plus".toList (by decide +kernel) (by decide)
    ⟨_, List.mem_cons_self, _, List.mem_cons_self, .grp (by simp) .self⟩ formed_plus_factoredSpec with
      ⟨t, -, ⟨n, hrun⟩, hwords⟩
  refine ⟨hout, ⟨trees, htrees, (hrule (lossless_factoredSpec (by simp)) hformed).2 rfl⟩, ⟨n, t, hrun, hwords⟩, ?_, ?_⟩
  · exact hplace ['a'] [] _ _ (.group (by decide +kernel) (by rfl)) (fun _ h => absurd h List.not_mem_nil)
      formed_group_factoredSpec
  · exact hplace ['a'] [.tok "#X".toList] _ _ (.tail (by decide +kernel) (by rfl))
      (List.forall_mem_singleton.2 .tok) formed_fact_factoredSpec

/-! ## A loop over two items -/

/-- `a` is any number of `x` and of `y`. -/
def lossySpec : Json :=
  specOf [startWrapper "a", (['a'], openClose [[("p", "_gen1_star")]] []),
    ("_gen1_star".toList, tokenLoop "_gen1_star" ["#X", "#Y"])] "__start__" [("#X", "x"), ("#Y", "y")]

def lossyListing : Listing where
  rules := [(['a'], [[.ref "_gen1_star".toList]])]
  lifted := []

set_option maxRecDepth 20000 in
theorem abnfListing_lossySpec : abnfListing lossySpec 4 = .done lossyListing := by rfl

/-- The loop takes a `y`. -/
theorem generated_lossySpec :
    [.tok "#Y".toList] ∈ generated (abnfContext lossySpec) (.opening "_gen1_star".toList) := by
  have hopen : abnfOpen (abnfRule (abnfContext lossySpec) "_gen1_star".toList) =
      [loopEntry "_gen1_star", alternate [("s", "#X"), ("r", "_gen1_star")],
        alternate [("s", "#Y"), ("r", "_gen1_star")],
        alternate []] := by rfl
  have hmade : abnfMade (abnfContext lossySpec) "_gen1_star".toList = .done true := by decide +kernel
  have hend : [] ∈ generated (abnfContext lossySpec) (.opening "_gen1_star".toList) := by
    have hidle : Idle (alternate []) := by
      unfold Idle
      decide +kernel
    have halt : alternate [] ∈ abnfOpen (abnfRule (abnfContext lossySpec) "_gen1_star".toList) := by
      rw [hopen]
      simp
    refine side_le_opening halt ?_
    rw [side_idle hidle, through_cons_state, through_nil, mul_one, closing_eq_one fun alt halt => by cases halt]
    exact Language.nil_mem_one
  have halt : alternate [("s", "#Y"), ("r", "_gen1_star")] ∈
    abnfOpen (abnfRule (abnfContext lossySpec) "_gen1_star".toList) := by
    rw [hopen]
    simp
  refine side_le_opening halt ?_
  have hside : side (abnfContext lossySpec) "_gen1_star".toList (alternate [("s", "#Y"), ("r", "_gen1_star")])
      [.inr (.closing "_gen1_star".toList)] = [.inl (.tok "#Y".toList), .inr (.opening "_gen1_star".toList)] := by
    rw [← symbol_made hmade]
    rfl
  rw [hside, through_cons_single, through_cons_state, through_nil, mul_one]
  exact mem_single_mul.2 ⟨[], hend, rfl⟩

/-- The loop is written as one of its first item alone. -/
theorem abnfFile_star_lost :
    abnfFile lossySpec 4 = .done "a = *%s\"x\"\n".toList ∧ abnfListing lossySpec 4 = .done lossyListing ∧
      abnfHelperKind (abnfContext lossySpec) "_gen1_star".toList = .done (some "star".toList) ∧
        Inlines (abnfContext lossySpec) [[.ref "_gen1_star".toList]] "_gen1_star".toList ∧
          treeEl (abnfContext lossySpec) [] 2 (.ref "_gen1_star".toList) = .done (.rep .star (.lit ['x'] true)) ∧
            ¬ (Tree.rep .star (.lit ['x'] true)).Generates (abnfContext lossySpec) [] "_gen1_star".toList := by
  refine ⟨by decide +kernel, abnfListing_lossySpec, by decide +kernel,
    ⟨_, List.mem_cons_self, _, List.mem_cons_self, .self⟩, by rfl, fun hsame => ?_⟩
  have hy : [some (Tree.lit ['y'] true)] ∈ (generated (abnfContext lossySpec) (.opening "_gen1_star".toList)).map
      (writtenAs (abnfContext lossySpec) []) := ⟨_, generated_lossySpec, by rfl⟩
  rw [← hsame] at hy
  obtain ⟨w, hw, heq⟩ := hy
  -- a sequence of the letter the loop is written with holds no other
  have hin : Tree.lit ['y'] true ∈ w := by
    rw [← List.mem_map_of_injective (Option.some_injective _), show w.map some = _ from heq]
    exact List.mem_cons_self
  rw [Tree.words, Tree.words] at hw
  cases eq_of_mem_repeated hw hin

end TabnasAbnf.Render
