/-
The names in what the render writes, and what each is written for: a rule, a token of the engine's, or a token
that is lifted. The names of a tree are those its element gives through the helpers written in their places.
-/
import TabnasAbnf.Render.TreeExact

namespace TabnasAbnf.Render

open TabnasAbnf.Base

/-! ## What a name is written for -/

inductive Named
  | rule (name : Text)
  | engine (t : Text)
  | lifted (t : Text)
  deriving DecidableEq, Repr

/-- The name that is written. -/
def Named.text : Named → Text
  | .rule name => name
  | .engine t | .lifted t => abnfBare t

/-- An element is written in the place of a helper: a repetition's or an option's item, or an element of the
group's alternatives. -/
inductive Inside (cx : Context) (name : Text) : El → Prop
  | star {item} :
    abnfHelperKind cx name = .done (some "star".toList) → abnfLoopItem cx name (abnfRule cx name) = .done item →
    Inside cx name item
  | plus {n alts item} : abnfHelperKind cx name = .done (some "plus".toList) → abnfAlts cx n name = .done alts →
    alts.head?.bind List.head? = some item → Inside cx name item
  | opt {n alts inner} : abnfHelperKind cx name = .done (some "opt".toList) → abnfAlts cx n name = .done alts →
    optInner alts = some inner → abnfOptGroup cx name = .done false → Inside cx name inner
  | optGroup {n m alts inner innerName innerAlts seq el} : abnfHelperKind cx name = .done (some "opt".toList) →
    abnfAlts cx n name = .done alts → optInner alts = some inner → abnfOptGroup cx name = .done true →
    inner.name? = some innerName → abnfAlts cx m innerName = .done innerAlts → seq ∈ innerAlts → el ∈ seq →
    Inside cx name el
  | rep {parts} : abnfHelperKind cx name = .done (some "rep".toList) → abnfRepParts cx name = .done parts →
    Inside cx name parts.item
  | group {n alts seq el} : abnfHelperKind cx name = .done (some "group".toList) → abnfAlts cx n name = .done alts →
    seq ∈ alts → el ∈ seq → Inside cx name el

/-- An element is written with a name, its own or one within it. -/
inductive Names (cx : Context) (lifted : List Text) : El → Named → Prop
  | lifted {t} : t ∈ lifted → Names cx lifted (.tok t) (.lifted t)
  | engine {t name} : t ∉ lifted → abnfToken cx t = .done (.engine name) → Names cx lifted (.tok t) (.engine t)
  | rule {name} : abnfHelperKind cx name = .done (some []) → Names cx lifted (.ref name) (.rule name)
  | tail {seq el w} : el ∈ seq → Names cx lifted el w → Names cx lifted (.tail seq) w
  | grp {seq el w} : el ∈ seq → Names cx lifted el w → Names cx lifted (.grp seq) w
  | helper {name el w} : Inside cx name el → Names cx lifted el w → Names cx lifted (.ref name) w

/-- Alternatives are written with a name. -/
def NamesAlts (cx : Context) (lifted : List Text) (x : List Seq) (w : Named) : Prop :=
  ∃ seq ∈ x, ∃ el ∈ seq, Names cx lifted el w

section

variable {cx : Context} {lifted : List Text} {w : Named}

/-- A token of the engine's is one of four. -/
theorem abnfToken_engine_iff {t name : Text} (h : abnfToken cx t = .done (.engine name)) :
    t ∈ ["#TX".toList, "#NR".toList, "#ST".toList, "#VL".toList] ∧ name = abnfBare t := by
  unfold abnfToken at h
  split at h
  · cases h
  · exact (abnfMatchToken_engine h).elim
  · obtain ⟨cls, -, h⟩ := Run.bind_eq_done h
    cases h
  · unfold abnfEngineToken at h
    split at h
    · rename_i ht
      cases h
      exact ⟨by simpa using ht, rfl⟩
    · cases h

theorem names_lifted {t : Text} (h : t ∈ lifted) : Names cx lifted (.tok t) w ↔ w = .lifted t := by
  constructor
  · intro hw
    cases hw with
    | lifted _ => rfl
    | engine hnot _ => exact absurd h hnot
  · rintro rfl
    exact .lifted h

theorem names_engine {t name : Text} (h : t ∉ lifted) (ht : abnfToken cx t = .done (.engine name)) :
    Names cx lifted (.tok t) w ↔ w = .engine t := by
  constructor
  · intro hw
    cases hw with
    | lifted hin => exact absurd hin h
    | engine _ _ => rfl
  · rintro rfl
    exact .engine h ht

/-- A token that is written as what it matches has no name. -/
theorem names_terminal {t : Text} {info : TokenInfo} (h : t ∉ lifted) (ht : abnfToken cx t = .done info)
    (hinfo : ∀ name, info ≠ .engine name) : ¬ Names cx lifted (.tok t) w := by
  intro hw
  cases hw with
  | lifted hin => exact h hin
  | engine _ hengine => exact hinfo _ (Run.done.inj (ht.symm.trans hengine))

theorem names_rule {name : Text} (h : abnfHelperKind cx name = .done (some [])) :
    Names cx lifted (.ref name) w ↔ w = .rule name := by
  constructor
  · intro hw
    cases hw with
    | rule _ => rfl
    | helper hin _ => cases hin <;> exact absurd (h.symm.trans ‹abnfHelperKind cx name = _›) (by decide)
  · rintro rfl
    exact .rule h

theorem names_helper {name kind : Text} (h : abnfHelperKind cx name = .done (some kind)) (hkind : kind ≠ []) :
    Names cx lifted (.ref name) w ↔ ∃ el, Inside cx name el ∧ Names cx lifted el w := by
  constructor
  · intro hw
    cases hw with
    | rule hnone => exact absurd (Option.some.inj (Run.done.inj (h.symm.trans hnone))) hkind
    | helper hin hw => exact ⟨_, hin, hw⟩
  · rintro ⟨el, hin, hw⟩
    exact .helper hin hw

theorem names_tail {seq : Seq} : Names cx lifted (.tail seq) w ↔ ∃ el ∈ seq, Names cx lifted el w := by
  constructor
  · intro hw
    cases hw with
    | tail hel hw => exact ⟨_, hel, hw⟩
  · rintro ⟨el, hel, hw⟩
    exact .tail hel hw

theorem names_grp {seq : Seq} : Names cx lifted (.grp seq) w ↔ ∃ el ∈ seq, Names cx lifted el w := by
  constructor
  · intro hw
    cases hw with
    | grp hel hw => exact ⟨_, hel, hw⟩
  · rintro ⟨el, hel, hw⟩
    exact .grp hel hw

/-- What is named: a rule that is no helper, one of the engine's four tokens, or a token that is lifted. -/
def Named.Fits (cx : Context) (lifted : List Text) : Named → Prop
  | .rule name => abnfHelperKind cx name = .done (some [])
  | .engine t => t ∈ ["#TX".toList, "#NR".toList, "#ST".toList, "#VL".toList]
  | .lifted t => t ∈ lifted

theorem names_fits {el : El} (h : Names cx lifted el w) : w.Fits cx lifted := by
  induction h with
  | lifted hin => exact hin
  | engine _ ht => exact (abnfToken_engine_iff ht).1
  | rule hkind => exact hkind
  | tail _ _ ih => exact ih
  | grp _ _ ih => exact ih
  | helper _ _ ih => exact ih

/-! ## What is inside a helper -/

section

variable {name : Text} {el : El} {n m : Nat} {alts : List Seq}

theorem inside_star {item : El} (h : abnfHelperKind cx name = .done (some "star".toList))
    (hitem : abnfLoopItem cx name (abnfRule cx name) = .done item) : Inside cx name el ↔ el = item := by
  constructor
  · intro hin
    cases hin with
    | star _ hitem' => exact Run.done.inj (hitem'.symm.trans hitem)
    | _ => exact absurd (h.symm.trans ‹abnfHelperKind cx name = _›) (by decide)
  · rintro rfl
    exact .star h hitem

theorem inside_plus {item : El} (h : abnfHelperKind cx name = .done (some "plus".toList))
    (halts : abnfAlts cx n name = .done alts) (hitem : alts.head?.bind List.head? = some item) :
    Inside cx name el ↔ el = item := by
  constructor
  · intro hin
    cases hin with
    | plus _ halts' hitem' =>
      cases alts_unique halts halts'
      exact Option.some.inj (hitem'.symm.trans hitem)
    | _ => exact absurd (h.symm.trans ‹abnfHelperKind cx name = _›) (by decide)
  · rintro rfl
    exact .plus h halts hitem

theorem inside_opt {inner : El} (h : abnfHelperKind cx name = .done (some "opt".toList))
    (halts : abnfAlts cx n name = .done alts) (hinner : optInner alts = some inner)
    (hgroup : abnfOptGroup cx name = .done false) : Inside cx name el ↔ el = inner := by
  constructor
  · intro hin
    cases hin with
    | opt _ halts' hinner' _ =>
      cases alts_unique halts halts'
      exact Option.some.inj (hinner'.symm.trans hinner)
    | optGroup _ _ _ hgroup' => cases hgroup.symm.trans hgroup'
    | _ => exact absurd (h.symm.trans ‹abnfHelperKind cx name = _›) (by decide)
  · rintro rfl
    exact .opt h halts hinner hgroup

theorem inside_optGroup {inner : El} {innerName : Text} {innerAlts : List Seq}
    (h : abnfHelperKind cx name = .done (some "opt".toList)) (halts : abnfAlts cx n name = .done alts)
    (hinner : optInner alts = some inner) (hgroup : abnfOptGroup cx name = .done true)
    (hname : inner.name? = some innerName)
    (hinnerAlts : abnfAlts cx m innerName = .done innerAlts) : Inside cx name el ↔ ∃ seq ∈ innerAlts, el ∈ seq := by
  constructor
  · intro hin
    cases hin with
    | opt _ _ _ hgroup' => cases hgroup.symm.trans hgroup'
    | optGroup _ halts' hinner' _ hname' hinnerAlts' hseq hel =>
      cases alts_unique halts halts'
      cases hinner.symm.trans hinner'
      cases hname.symm.trans hname'
      cases alts_unique hinnerAlts hinnerAlts'
      exact ⟨_, hseq, hel⟩
    | _ => exact absurd (h.symm.trans ‹abnfHelperKind cx name = _›) (by decide)
  · rintro ⟨seq, hseq, hel⟩
    exact .optGroup h halts hinner hgroup hname hinnerAlts hseq hel

theorem inside_rep {parts : RepParts} (h : abnfHelperKind cx name = .done (some "rep".toList))
    (hparts : abnfRepParts cx name = .done parts) : Inside cx name el ↔ el = parts.item := by
  constructor
  · intro hin
    cases hin with
    | rep _ hparts' => rw [Run.done.inj (hparts.symm.trans hparts')]
    | _ => exact absurd (h.symm.trans ‹abnfHelperKind cx name = _›) (by decide)
  · rintro rfl
    exact .rep h hparts

theorem inside_group (h : abnfHelperKind cx name = .done (some "group".toList))
    (halts : abnfAlts cx n name = .done alts) :
    Inside cx name el ↔ ∃ seq ∈ alts, el ∈ seq := by
  constructor
  · intro hin
    cases hin with
    | group _ halts' hseq hel =>
      cases alts_unique halts halts'
      exact ⟨_, hseq, hel⟩
    | _ => exact absurd (h.symm.trans ‹abnfHelperKind cx name = _›) (by decide)
  · rintro ⟨seq, hseq, hel⟩
    exact .group h halts hseq hel

end

end

/-! ## Where names come from -/

section

variable {cx : Context} {lifted : List Text} {name : Text} {w : Named} {el : El}

/-- An alternate of the spec consumes the token, or hands over to the rule. -/
def Named.Used (cx : Context) : Named → Prop
  | .rule name => name ∈ usedRules cx
  | .engine t | .lifted t => t ∈ usedTokens cx

theorem inside_made (h : Inside cx name el) : Made cx el := by
  have hhead : ∀ {n alts item}, abnfAlts cx n name = .done alts → ∀ seq ∈ alts, seq.head? = some item → Made cx item :=
    fun halts seq hseq hitem => made_alts halts seq hseq _ (List.mem_of_mem_head? hitem)
  cases h with
  | star _ hitem => exact made_loopItem hitem
  | plus _ halts hitem =>
    obtain ⟨seq, hseq, hitem⟩ := Option.bind_eq_some_iff.1 hitem
    exact hhead halts seq (List.mem_of_mem_head? hseq) hitem
  | opt _ halts hinner _ =>
    obtain ⟨seq, hseq, hinner⟩ := Option.bind_eq_some_iff.1 hinner
    exact hhead halts seq (List.mem_of_mem_filter (List.mem_of_mem_head? hseq)) hinner
  | optGroup _ _ _ _ _ hinnerAlts hseq hel => exact made_alts hinnerAlts _ hseq _ hel
  | rep _ hparts => exact (made_repParts hparts).1
  | group _ halts hseq hel => exact made_alts halts _ hseq _ hel

/-- What is named within a spec's element is used by the spec. -/
theorem Made.names (hel : Made cx el) (h : Names cx lifted el w) : w.Used cx := by
  induction h with
  | lifted _ =>
    cases hel with
    | tok ht => exact ht
  | engine _ _ =>
    cases hel with
    | tok ht => exact ht
  | rule _ =>
    cases hel with
    | ref hn => exact hn
  | tail hin _ ih =>
    cases hel with
    | tail hall => exact ih (hall _ hin)
  | grp hin _ ih =>
    cases hel with
    | grp hall => exact ih (hall _ hin)
  | helper hin _ ih => exact ih (inside_made hin)

end

/-! ## The names of trees -/

def Tree.name? : Tree → Option Text
  | .tok name | .ref name => some name
  | _ => none

def treeNames (ts : List Tree) : List Text := ts.filterMap Tree.name?

mutual

/-- A name that is written is one ABNF can spell. -/
theorem Tree.legal : (t : Tree) → ∀ s, t.text = .done s → ∀ name ∈ treeNames t.nodes, abnfLegalName name = true
  | .lit _ _, _, _, name, hname => by cases hname
  | .cls _ _, _, _, name, hname => by cases hname
  | .tok _, s, h, name, hname => by
    rw [List.mem_singleton.1 hname]
    exact (abnfRefText_legal h).1
  | .ref _, s, h, name, hname => by
    rw [List.mem_singleton.1 hname]
    exact (abnfRefText_legal h).1
  | .group alts, s, h, name, hname => by
    obtain ⟨ss, hss, -⟩ := Run.bind_eq_done h
    exact alts_legal alts ss hss name hname
  | .option alts, s, h, name, hname => by
    obtain ⟨ss, hss, -⟩ := Run.bind_eq_done h
    exact alts_legal alts ss hss name hname
  | .tail seq, s, h, name, hname => by
    obtain ⟨ss, hss, -⟩ := Run.bind_eq_done h
    exact seq_legal seq ss hss name hname
  | .rep _ item, s, h, name, hname => by
    obtain ⟨s', hs', -⟩ := Run.bind_eq_done h
    exact item.legal s' hs' name hname

theorem seq_legal :
    (ts : List Tree) → ∀ ss, seqTexts ts = .done ss → ∀ name ∈ treeNames (nodesSeq ts), abnfLegalName name = true
  | [], _, _, name, hname => by cases hname
  | t :: ts, ss, h, name, hname => by
    obtain ⟨s, hs, h⟩ := Run.bind_eq_done h
    obtain ⟨ss', hss', -⟩ := Run.bind_eq_done h
    rw [nodesSeq, treeNames, List.filterMap_append, List.mem_append] at hname
    exact hname.elim (t.legal s hs name) (seq_legal ts ss' hss' name)

theorem alts_legal : (alts : List (List Tree)) → ∀ ss, altsTexts alts = .done ss →
    ∀ name ∈ treeNames (nodesAlts alts), abnfLegalName name = true
  | [], _, _, name, hname => by cases hname
  | seq :: alts, ss, h, name, hname => by
    obtain ⟨ts, hts, h⟩ := Run.bind_eq_done h
    obtain ⟨ss', hss', -⟩ := Run.bind_eq_done h
    rw [nodesAlts, treeNames, List.filterMap_append, List.mem_append] at hname
    exact hname.elim (seq_legal seq ts hts name) (alts_legal alts ss' hss' name)

end

/-- The names of some trees are those that are written for what a property holds of. -/
def NamedBy (ts : List Tree) (p : Named → Prop) : Prop := ∀ name, name ∈ treeNames ts ↔ ∃ w, p w ∧ w.text = name

section

variable {ts ts' : List Tree} {p q : Named → Prop}

theorem NamedBy.congr (h : NamedBy ts p) (hpq : ∀ w, q w ↔ p w) : NamedBy ts q := by
  intro name
  simp only [hpq, h name]

theorem namedBy_nil (h : ∀ w, ¬ p w) : NamedBy [] p := by
  intro name
  simp [treeNames, h]

theorem NamedBy.append (h : NamedBy ts p) (h' : NamedBy ts' q) : NamedBy (ts ++ ts') fun w => p w ∨ q w := by
  intro name
  rw [treeNames, List.filterMap_append, List.mem_append]
  simp only [or_and_right, exists_or]
  exact or_congr (h name) (h' name)

/-- A tree that is no name adds none. -/
theorem NamedBy.cons {t : Tree} (ht : t.name? = none) (h : NamedBy ts p) : NamedBy (t :: ts) p := by
  intro name
  rw [treeNames, List.filterMap_cons_none ht]
  exact h name

/-- A name alone. -/
theorem namedBy_name {t : Tree} {w : Named} (ht : t.name? = some w.text) (hp : ∀ w', p w' ↔ w' = w) :
    NamedBy [t] p := by
  intro name
  rw [treeNames, List.filterMap_cons_some ht]
  simp only [List.filterMap_nil, List.mem_singleton, hp, exists_eq_left]
  exact eq_comm

theorem namedBy_terminal {t : Tree} (ht : t.name? = none) (hp : ∀ w, ¬ p w) : NamedBy [t] p := (namedBy_nil hp).cons ht

end

section

variable {cx : Context} {lifted : List Text}

theorem treeTok_names {t : Text} {tree : Tree} (h : treeTok cx lifted t = .done tree) :
    NamedBy tree.nodes (Names cx lifted (.tok t)) := by
  unfold treeTok at h
  by_cases hin : t ∈ lifted
  · rw [if_pos (among_iff.2 hin)] at h
    cases h
    exact namedBy_name rfl fun w => names_lifted hin
  · rw [if_neg (mt among_iff.1 hin)] at h
    obtain ⟨info, hinfo, h⟩ := Run.bind_eq_done h
    cases info with
    | lit text cs =>
      cases h
      exact namedBy_terminal rfl fun w => names_terminal hin hinfo fun name hname => by cases hname
    | cls pat flags =>
      cases h
      exact namedBy_terminal rfl fun w => names_terminal hin hinfo fun name hname => by cases hname
    | engine name =>
      cases h
      refine namedBy_name (w := .engine t) ?_ fun w => names_engine hin hinfo
      rw [(abnfToken_engine_iff hinfo).2]
      rfl

/-- The names of a sequence's trees. -/
theorem seqTrees_names {f : El → Out Tree} (hf : ∀ el t, f el = .done t → NamedBy t.nodes (Names cx lifted el))
    {seq : Seq}
    {trees : List Tree} (h : Run.each f seq = .done trees) :
    NamedBy (nodesSeq trees) fun w => ∃ el ∈ seq, Names cx lifted el w := by
  have hall := Run.each_eq_done h
  clear h
  induction hall with
  | nil => exact namedBy_nil fun w hw => by simp at hw
  | cons ht _ ih =>
    rw [nodesSeq]
    exact ((hf _ _ ht).append ih).congr fun w => by rw [List.exists_mem_cons_iff]

theorem altsTrees_names {f : El → Out Tree} (hf : ∀ el t, f el = .done t → NamedBy t.nodes (Names cx lifted el))
    {x : List Seq} {alts : List (List Tree)} (h : Run.each (fun seq => Run.each f seq) x = .done alts) :
    NamedBy (nodesAlts alts) (NamesAlts cx lifted x) := by
  have hall := Run.each_eq_done h
  clear h
  induction hall with
  | nil => exact namedBy_nil fun w hw => by simp [NamesAlts] at hw
  | cons hseq _ ih =>
    rw [nodesAlts]
    exact ((seqTrees_names hf hseq).append ih).congr fun w => by rw [NamesAlts, List.exists_mem_cons_iff]; rfl

/-- The names of the trees at a depth are those the elements give. -/
structure GivesNames (cx : Context) (lifted : List Text) (n : Nat) : Prop where
  alts : ∀ x alts, treeAlts cx lifted n x = .done alts → NamedBy (nodesAlts alts) (NamesAlts cx lifted x)
  el : ∀ el t, treeEl cx lifted n el = .done t → NamedBy t.nodes (Names cx lifted el)
  atom : ∀ el t, treeAtom cx lifted n el = .done t → NamedBy t.nodes (Names cx lifted el)

/-- A repetition of a helper's one item. -/
theorem GivesNames.item {n : Nat} (ih : GivesNames cx lifted n) {name kind : Text} {item : El} {count : Count}
    {t : Tree}
    (hkind : abnfHelperKind cx name = .done (some kind)) (hne : kind ≠ []) (hin : ∀ el, Inside cx name el ↔ el = item)
    (h : ((treeAtom cx lifted n item).bind fun t => (.done (.rep count t) : Out Tree)) = .done t) :
    NamedBy t.nodes (Names cx lifted (.ref name)) := by
  obtain ⟨inner, hinner, h⟩ := Run.bind_eq_done h
  cases h
  refine ((ih.atom item inner hinner).congr fun w => ?_).cons rfl
  rw [names_helper hkind hne]
  simp only [hin, exists_eq_left]

/-- What is written around a helper's alternatives. -/
theorem GivesNames.around {n : Nat} (ih : GivesNames cx lifted n) {name kind : Text} {x : List Seq}
    {around : List (List Tree) → Tree} (haround : ∀ alts, (around alts).nodes = around alts :: nodesAlts alts)
    (hname : ∀ alts, (around alts).name? = none) {t : Tree} (hkind : abnfHelperKind cx name = .done (some kind))
    (hne : kind ≠ []) (hin : ∀ el, Inside cx name el ↔ ∃ seq ∈ x, el ∈ seq)
    (h : ((treeAlts cx lifted n x).bind fun alts => (.done (around alts) : Out Tree)) = .done t) :
    NamedBy t.nodes (Names cx lifted (.ref name)) := by
  obtain ⟨alts, halts, h⟩ := Run.bind_eq_done h
  cases h
  rw [haround]
  refine ((ih.alts x alts halts).congr fun w => ?_).cons (hname alts)
  rw [names_helper hkind hne]
  simp only [hin, NamesAlts]
  constructor
  · rintro ⟨el, ⟨seq, hseq, hel⟩, hw⟩
    exact ⟨seq, hseq, el, hel, hw⟩
  · rintro ⟨seq, hseq, el, hel, hw⟩
    exact ⟨el, ⟨seq, hseq, hel⟩, hw⟩

/-- A reference is written as its name, or as what is inside the helper, by the helper's kind. -/
theorem GivesNames.ref {n : Nat} (ih : GivesNames cx lifted n) {name : Text} {t : Tree}
    (h : treeEl cx lifted (n + 1) (.ref name) = .done t) : NamedBy t.nodes (Names cx lifted (.ref name)) := by
  rw [treeEl] at h
  obtain ⟨kind, hkind, h⟩ := Run.bind_eq_done h
  rcases kind with _ | kind
  · cases h
  rw [Run.ofOption, Run.done_bind] at h
  split_ifs at h with hrule hstar hplus hopt hrep hgroup
  · subst hrule
    cases h
    exact namedBy_name rfl fun w => names_rule hkind
  · subst hstar
    obtain ⟨item, hitem, h⟩ := Run.bind_eq_done h
    exact ih.item hkind (by decide) (fun el => inside_star hkind hitem) h
  · subst hplus
    obtain ⟨alts, halts, h⟩ := Run.bind_eq_done h
    obtain ⟨item, hitem, h⟩ := Run.bind_eq_done h
    exact ih.item hkind (by decide) (fun el => inside_plus hkind halts (Run.ofOption_eq_done.1 hitem)) h
  · subst hopt
    obtain ⟨alts, halts, h⟩ := Run.bind_eq_done h
    obtain ⟨inner, hinner, h⟩ := Run.bind_eq_done h
    obtain ⟨group, hgroup, h⟩ := Run.bind_eq_done h
    rw [Run.ofOption_eq_done] at hinner
    -- an option over a group is written around the group's alternatives, another repeats its one element
    cases group with
    | true =>
      obtain ⟨innerName, hinnerName, h⟩ := Run.bind_eq_done h
      obtain ⟨innerAlts, hinnerAlts, h⟩ := Run.bind_eq_done h
      rw [Run.ofOption_eq_done] at hinnerName
      exact ih.around (fun alts => by rw [Tree.nodes]) (fun _ => rfl) hkind (by decide)
        (fun el => inside_optGroup hkind halts hinner hgroup hinnerName hinnerAlts) h
    | false => exact ih.item hkind (by decide) (fun el => inside_opt hkind halts hinner hgroup) h
  · subst hrep
    obtain ⟨parts, hparts, h⟩ := Run.bind_eq_done h
    exact ih.item hkind (by decide) (fun el => inside_rep hkind hparts) h
  · subst hgroup
    obtain ⟨alts, halts, h⟩ := Run.bind_eq_done h
    exact ih.around (fun alts => by rw [Tree.nodes]) (fun _ => rfl) hkind (by decide)
      (fun el => inside_group hkind halts) h

theorem GivesNames.succ_el {n : Nat} (ih : GivesNames cx lifted n) (el : El) (t : Tree)
    (h : treeEl cx lifted (n + 1) el = .done t) : NamedBy t.nodes (Names cx lifted el) := by
  cases el with
  | tok t => exact treeTok_names h
  | tail seq =>
    obtain ⟨alts, halts, h⟩ := Run.bind_eq_done h
    cases h
    obtain ⟨trees, rfl⟩ := treeAlts_single halts
    have hnames := ih.alts [seq] [trees] halts
    rw [nodesAlts, nodesAlts, List.append_nil] at hnames
    rw [List.flatten_singleton]
    exact (hnames.congr fun w => by rw [names_tail, NamesAlts]; simp).cons rfl
  | grp seq =>
    obtain ⟨alts, halts, h⟩ := Run.bind_eq_done h
    cases h
    exact ((ih.alts [seq] alts halts).congr fun w => by rw [names_grp, NamesAlts]; simp).cons rfl
  | ref name => exact ih.ref h

theorem GivesNames.succ_atom {n : Nat} (ih : GivesNames cx lifted n) (el : El) (t : Tree)
    (h : treeAtom cx lifted (n + 1) el = .done t) : NamedBy t.nodes (Names cx lifted el) := by
  cases el with
  | tok t => exact treeTok_names h
  | _ => exact ih.el _ t h

theorem tree_names (n : Nat) : GivesNames cx lifted n := by
  induction n with
  | zero =>
    constructor
    · intro x alts h
      cases h
    · intro el t h
      cases h
    · intro el t h
      cases h
  | succ n ih => exact ⟨fun _ _ h => altsTrees_names ih.el h, ih.succ_el, ih.succ_atom⟩

end

end TabnasAbnf.Render
