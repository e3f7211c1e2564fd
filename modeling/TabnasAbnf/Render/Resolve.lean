/-
What the names of a written text mean. The productions of the rules and of the tokens that are lifted, the core
rules and the engine's tokens share one namespace, and the render compares the names of two of them alone.
-/
import TabnasAbnf.Render.Names

namespace TabnasAbnf.Render

open TabnasAbnf.Base TabnasAbnf.Meta

/-! ## What a text is of -/

/-- What a production is of. -/
inductive Source
  | rule (name : Text)
  | token (t : Text)
  deriving DecidableEq, Repr

def Source.head : Source → Text
  | .rule name => name
  | .token t => abnfBare t

/-- The rules that are written, with their alternatives, and the tokens that are lifted. -/
structure Listing where
  rules : List (Text × List Seq)
  lifted : List Text

def Listing.sources (l : Listing) : List Source := l.rules.map (fun rule => .rule rule.1) ++ l.lifted.map .token

/-- What `abnf-file` writes a text of. -/
def abnfListing (spec : Json) (fuel : Nat) : Out Listing :=
  let cx := abnfContext spec
  (abnfCheck spec cx).bind fun _ => (abnfOrdered cx).bind fun ordered =>
    (Run.select (abnfLifted cx (abnfUsed cx)) (cx.fixed.map Prod.fst ++ cx.matchTokens.map Prod.fst)).bind fun lifted =>
      (abnfCheckLifted cx lifted).bind fun _ => (abnfDirectCore cx).bind fun direct =>
        (abnfCandidates cx fuel (ordered ++ direct)).bind fun cands =>
          (Run.each (fun name => (written cx fuel cands name).bind fun alts => .done (name, alts)) ordered).bind
            fun rules =>
            .done { rules, lifted }

/-- A rule's line: its name, and the text of its alternatives' trees, the names of which are those the alternatives
give. -/
def RuleLine (cx : Context) (lifted : List Text) (fuel : Nat) (line : Text) (rule : Text × List Seq) : Prop :=
  ∃ trees s, treeAlts cx lifted fuel rule.2 = .done trees ∧ altsText trees = .done s ∧
    line = rule.1 ++ " = ".toList ++ s ∧ NamedBy (nodesAlts trees) (NamesAlts cx lifted rule.2)

/-- A lifted token's line: its name, and its literal. -/
def TokenLine (cx : Context) (line t : Text) : Prop :=
  ∃ text cs s, abnfToken cx t = .done (.lit text cs) ∧ litText text cs = .done s ∧
    line = abnfBare t ++ " = ".toList ++ s

/-- A text has a line for each production. -/
def Listing.WrittenAs (l : Listing) (cx : Context) (fuel : Nat) (out : Text) : Prop :=
  ∃ rules tokens, List.Forall₂ (RuleLine cx l.lifted fuel) rules l.rules ∧ List.Forall₂ (TokenLine cx) tokens l.lifted ∧
    out = stringJoin ['\n'] (rules ++ tokens) ++ ['\n']

section

variable {cx : Context} {lifted : List Text} {fuel : Nat}

theorem abnfProduction_line {cands : List Cand} (hl : ∀ t ∈ lifted, abnfLegalName (abnfBare t) = true) (name : Text) :
    (abnfProduction cx fuel cands lifted name).Follows
      ((written cx fuel cands name).bind fun alts => (.done (name, alts) : Out (Text × List Seq)))
      (RuleLine cx lifted fuel) := by
  intro line hline
  obtain ⟨head, hhead, hline⟩ := Run.bind_eq_done hline
  obtain ⟨alts, halts, hline⟩ := Run.bind_eq_done hline
  obtain ⟨s, hs, hline⟩ := Run.bind_eq_done hline
  cases hline
  obtain ⟨trees, htrees, htext⟩ := (abnfText_tree hl fuel).alts alts s hs
  refine ⟨(name, alts), by rw [halts, Run.done_bind], trees, s, htrees, htext, by rw [(abnfRefText_legal hhead).2], ?_⟩
  exact (tree_names fuel).alts alts trees htrees

theorem abnfLiftedProduction_line {t line : Text} (h : abnfLiftedProduction cx t = .done line) :
    TokenLine cx line t := by
  obtain ⟨info, hinfo, h⟩ := Run.bind_eq_done h
  obtain ⟨head, hhead, h⟩ := Run.bind_eq_done h
  cases info with
  | lit text cs =>
    obtain ⟨s, hs, h⟩ := Run.bind_eq_done h
    cases h
    exact ⟨text, cs, s, hinfo, hs, by rw [(abnfRefText_legal hhead).2]⟩
  | cls pat flags => cases h
  | engine name => cases h

/-- A text that is written is written of a listing. -/
theorem abnfFile_listing (spec : Json) (fuel : Nat) :
    (abnfFile spec fuel).Follows (abnfListing spec fuel) fun out l => l.WrittenAs (abnfContext spec) fuel out := by
  unfold abnfFile abnfListing
  refine .after fun _ _ => .after fun ordered _ => .after fun lifted hlifted => .after fun _ _ => .after fun direct _ =>
    .after fun cands _ => ?_
  have hl : ∀ t ∈ lifted, abnfLegalName (abnfBare t) = true :=
    fun t ht => lifted_legal ((Run.mem_select hlifted).1 ht).2
  refine (Run.Follows.each fun name _ => abnfProduction_line hl name).bind fun rules rules' hrules => ?_
  intro out hout
  obtain ⟨tokens, htokens, hout⟩ := Run.bind_eq_done hout
  cases hout
  refine ⟨⟨rules', lifted⟩, rfl, rules, tokens, hrules, ?_, rfl⟩
  exact ((Run.each_eq_done htokens).imp fun _ _ h => abnfLiftedProduction_line h).flip

end

/-! ## Resolution -/

/-- What a name stands for. -/
inductive Target
  | production (s : Source)
  | core (r : CoreRule)
  | engine (t : Text)
  deriving DecidableEq, Repr

/-- The tokens of the engine's that a text can name. -/
def engineTokens : List Text := ["#TX".toList, "#NR".toList, "#ST".toList, "#VL".toList]

/-- A production of the name wins, then a core rule, then a token of the engine's. -/
def Listing.resolve (l : Listing) (name : Text) : Option Target :=
  match l.sources.find? (·.head = name) with
  | some s => some (.production s)
  | none =>
    match CoreRule.all.find? (·.name = name) with
    | some r => some (.core r)
    | none => (engineTokens.find? (abnfBare · = name)).map .engine

section

variable {l : Listing} {name : Text}

/-- No production has the name. -/
def Listing.Free (l : Listing) (name : Text) : Prop := ∀ s ∈ l.sources, s.head ≠ name

theorem find_source_none : l.sources.find? (·.head = name) = none ↔ l.Free name := by
  simp [List.find?_eq_none, Listing.Free]

theorem resolve_production {s : Source} (h : l.resolve name = some (.production s)) :
    s ∈ l.sources ∧ s.head = name := by
  unfold Listing.resolve at h
  split at h
  · rename_i s' hfind
    cases h
    exact ⟨List.mem_of_find?_eq_some hfind, by simpa using List.find?_some hfind⟩
  · split at h
    · cases h
    · rename_i hcore
      obtain ⟨t, -, ht⟩ := Option.map_eq_some_iff.1 h
      cases ht

/-- Where no two productions have one name, a production's name stands for it. -/
theorem resolve_source (hnodup : (l.sources.map Source.head).Nodup) {s : Source} (hs : s ∈ l.sources) :
    l.resolve s.head = some (.production s) := by
  unfold Listing.resolve
  rcases hfind : l.sources.find? (·.head = s.head) with _ | s'
  · exact absurd rfl (find_source_none.1 hfind s hs)
  · have hhead : s'.head = s.head := by simpa using List.find?_some hfind
    have hsame := List.inj_on_of_nodup_map hnodup (List.mem_of_find?_eq_some hfind) hs hhead
    rw [hfind, hsame]

theorem resolve_core {r : CoreRule} : l.resolve name = some (.core r) ↔ l.Free name ∧ r.name = name := by
  unfold Listing.resolve
  constructor
  · intro h
    split at h
    · cases h
    · rename_i hnone
      split at h
      · rename_i r' hfind
        cases h
        exact ⟨find_source_none.1 hnone, by simpa using List.find?_some hfind⟩
      · obtain ⟨t, -, ht⟩ := Option.map_eq_some_iff.1 h
        cases ht
  · rintro ⟨hfree, rfl⟩
    rw [find_source_none.2 hfree]
    have hfind : CoreRule.all.find? (·.name = r.name) = some r := by cases r <;> rfl
    rw [hfind]

theorem resolve_engine {t : Text} (ht : t ∈ engineTokens) :
    l.resolve (abnfBare t) = some (.engine t) ↔ l.Free (abnfBare t) := by
  have hcore : CoreRule.all.find? (·.name = abnfBare t) = none ∧
      engineTokens.find? (abnfBare · = abnfBare t) = some t := by
    revert t
    decide +kernel
  constructor
  · intro h
    unfold Listing.resolve at h
    split at h
    · cases h
    · rename_i hnone
      exact find_source_none.1 hnone
  · intro hfree
    unfold Listing.resolve
    rw [find_source_none.2 hfree, hcore.1, hcore.2]
    rfl

/-- A name that is referenced stands for a core rule where the compiler adds one of that name. -/
theorem resolve_added {β : Type} {refsIn : List (Element (NumericElement Units) β) → List Text → List Text}
    (hrefs : CollectsRefs refsIn) {user : Rules (NumericElement Units) β}
    (hnames : user.map (·.name) = l.sources.map Source.head) (href : ∃ p ∈ user, prodRefs p name) :
    (∃ r, l.resolve name = some (.core r)) ↔ name ∈ (coreAdded refsIn user).map Prod.fst := by
  have hfree : l.Free name ↔ ∀ q ∈ user, q.name ≠ name := by
    have hmem : (∀ h ∈ l.sources.map Source.head, h ≠ name) ↔ ∀ h ∈ user.map (·.name), h ≠ name := by rw [hnames]
    rwa [List.forall_mem_map, List.forall_mem_map] at hmem
  obtain ⟨hin, -, hall⟩ := @coreAdded_mem β refsIn hrefs user
  simp only [resolve_core, hfree]
  constructor
  · rintro ⟨r, hother, rfl⟩
    have hentry : (r.name, r.production fromCodePoint) ∈ coreEntries β := by
      rw [coreEntries_eq]
      exact List.mem_map.2 ⟨r, CoreRule.mem_all r, rfl⟩
    exact List.mem_map.2 ⟨_, hall _ hentry hother href, rfl⟩
  · intro hm
    obtain ⟨e, he, rfl⟩ := List.mem_map.1 hm
    obtain ⟨hentry, hother⟩ := hin e he
    rw [coreEntries_eq] at hentry
    obtain ⟨r, -, rfl⟩ := List.mem_map.1 hentry
    exact ⟨r, hother, rfl⟩

end

/-! ## What the names were written for -/

/-- The spec holds a core rule, with the alternatives it has for the compiler. -/
def CoreAlts (cx : Context) (lifted : List Text) (r : CoreRule) : Prop :=
  abnfHas cx r.name = true ∧ ∃ n alts trees, abnfAlts cx n r.name = .done alts ∧
    treeAlts cx lifted n alts = .done trees ∧
    BackAlts trees (r.alts fromCodePoint)

/-- A listing's rules are written with a name. -/
def Listing.Names (l : Listing) (cx : Context) (w : Named) : Prop := ∃ rule ∈ l.rules, NamesAlts cx l.lifted rule.2 w

/-- A name stands for what it was written for. -/
def Listing.Means (l : Listing) (cx : Context) : Named → Prop
  | .rule name => l.resolve name = some (.production (.rule name)) ∨
      ∃ r, l.resolve name = some (.core r) ∧ CoreAlts cx l.lifted r
  | .engine t => l.resolve (abnfBare t) = some (.engine t)
  | .lifted t => l.resolve (abnfBare t) = some (.production (.token t))

/-- No two productions have one name, and every name stands for what it was written for. -/
structure Listing.Resolved (l : Listing) (cx : Context) : Prop where
  heads : (l.sources.map Source.head).Nodup
  means : ∀ w, l.Names cx w → l.Means cx w

/-- A rule that is written: the start rule, or a rule of the author's that the spec holds. -/
def Own (cx : Context) (name : Text) : Prop :=
  name = abnfStartRule cx ∨ name ∈ cx.rules.map Prod.fst ∧ isUser cx name = .done true

/-- No name is given twice: the tokens that are lifted have names of their own, which a start rule that the spec does
not hold has not; a rule that is referenced is written, or is a core rule with the alternatives it has for the
compiler; and no rule and no lifted token has the name of a token of the engine's that is written. -/
structure Listing.Clear (l : Listing) (cx : Context) : Prop where
  lifted : (l.lifted.map abnfBare).Nodup
  start : abnfHas cx (abnfStartRule cx) = true ∨ ∀ t ∈ l.lifted, abnfBare t ≠ abnfStartRule cx
  rules : ∀ name, l.Names cx (.rule name) → Own cx name ∨ ∃ r : CoreRule, r.name = name ∧ CoreAlts cx l.lifted r
  engine : ∀ t, l.Names cx (.engine t) → ¬ Own cx (abnfBare t) ∧ ∀ t' ∈ l.lifted, abnfBare t' ≠ abnfBare t

section

variable {cx : Context} {l : Listing} {name : Text}

theorem mem_ordered {ordered : List Text} (h : abnfOrdered cx = .done ordered) : name ∈ ordered ↔ Own cx name := by
  obtain ⟨names, hnames, h⟩ := Run.bind_eq_done h
  cases h
  rw [List.mem_cons, List.mem_filter, Run.mem_select hnames, Own, Bool.not_eq_true', ← Bool.not_eq_true, abnfSame_iff]
  tauto

/-- The rules of the text are each written once. -/
theorem ordered_nodup {ordered : List Text} (hkeys : (cx.rules.map Prod.fst).Nodup)
    (h : abnfOrdered cx = .done ordered) :
    ordered.Nodup := by
  obtain ⟨names, hnames, h⟩ := Run.bind_eq_done h
  cases h
  rw [Run.select_eq_done hnames]
  refine List.nodup_cons.2 ⟨fun hm => ?_, (hkeys.filter _).filter _⟩
  have hnot := (List.mem_filter.1 hm).2
  rw [Bool.not_eq_true', ← Bool.not_eq_true, abnfSame_iff] at hnot
  exact hnot rfl

theorem abnfCheckRule_has (h : abnfCheckRule cx name = .done ()) : abnfHas cx name = true := by
  unfold abnfCheckRule at h
  dsimp only at h
  unfold abnfHas
  split at h
  · rename_i fields hrule
    rw [hrule]
    rfl
  · cases h
  · cases h

/-- A spec that is written holds each of its rules as alternates. -/
theorem abnfCheck_has {spec : Json} (h : abnfCheck spec cx = .done ()) (hname : name ∈ cx.rules.map Prod.fst) :
    abnfHas cx name = true := by
  unfold abnfCheck at h
  split at h
  · cases h
  · obtain ⟨_, -, h⟩ := Run.bind_eq_done h
    obtain ⟨_, -, h⟩ := Run.bind_eq_done h
    obtain ⟨_, hrules, -⟩ := Run.bind_eq_done h
    obtain ⟨_, hrule⟩ := Run.exists_of_each hrules hname
    exact abnfCheckRule_has hrule

/-- No rule that the spec holds has the name of a token that is lifted. -/
theorem abnfCheckLifted_free {lifted : List Text} (h : abnfCheckLifted cx lifted = .done ()) {t : Text}
    (ht : t ∈ lifted) :
    abnfHas cx (abnfBare t) = false := by
  obtain ⟨_, hall, -⟩ := Run.bind_eq_done h
  obtain ⟨_, hrun⟩ := Run.exists_of_each hall ht
  split at hrun
  · cases hrun
  · rename_i hhas
    exact Bool.eq_false_iff.2 hhas

/-- What is known of a listing whatever the names: the rules are the spec's own, each once, and no lifted token has the
name of a rule that the spec holds. -/
structure Listing.Sound (l : Listing) (cx : Context) : Prop where
  own : ∀ name, name ∈ l.rules.map Prod.fst ↔ Own cx name
  nodup : (l.rules.map Prod.fst).Nodup
  held : ∀ name ∈ cx.rules.map Prod.fst, abnfHas cx name = true
  free : ∀ t ∈ l.lifted, abnfHas cx (abnfBare t) = false

theorem abnfListing_sound {spec : Json} {fuel : Nat} (hkeys : ((abnfContext spec).rules.map Prod.fst).Nodup)
    (h : abnfListing spec fuel = .done l) : l.Sound (abnfContext spec) := by
  obtain ⟨_, hcheck, h⟩ := Run.bind_eq_done h
  obtain ⟨ordered, hordered, h⟩ := Run.bind_eq_done h
  obtain ⟨lifted, -, h⟩ := Run.bind_eq_done h
  obtain ⟨_, hfree, h⟩ := Run.bind_eq_done h
  obtain ⟨direct, -, h⟩ := Run.bind_eq_done h
  obtain ⟨cands, -, h⟩ := Run.bind_eq_done h
  obtain ⟨rules, hrules, h⟩ := Run.bind_eq_done h
  cases h
  have hnames : rules.map Prod.fst = ordered := by
    refine Run.each_map hrules fun name rule hrule => ?_
    obtain ⟨alts, -, hrule⟩ := Run.bind_eq_done hrule
    cases hrule
    rfl
  constructor
  · intro name
    rw [hnames, mem_ordered hordered]
  · rw [hnames]
    exact ordered_nodup hkeys hordered
  · exact fun name hname => abnfCheck_has hcheck hname
  · exact fun t ht => abnfCheckLifted_free hfree ht

theorem Listing.Sound.mem_rule (h : l.Sound cx) : .rule name ∈ l.sources ↔ Own cx name := by
  rw [← h.own, Listing.sources]
  simp

theorem mem_token {t : Text} : .token t ∈ l.sources ↔ t ∈ l.lifted := by
  rw [Listing.sources]
  simp

theorem Listing.Sound.free_iff (h : l.Sound cx) : l.Free name ↔ ¬ Own cx name ∧ ∀ t ∈ l.lifted, abnfBare t ≠ name := by
  constructor
  · exact fun hfree => ⟨fun hown => hfree _ (h.mem_rule.2 hown) rfl, fun t ht => hfree _ (mem_token.2 ht)⟩
  · rintro ⟨hown, hlifted⟩ s hs
    cases s with
    | rule name' => exact fun hname => hown (hname ▸ h.mem_rule.1 hs)
    | token t => exact hlifted t (mem_token.1 hs)

/-- A lifted token can share its name with another one, or with a start rule that the spec does not hold, and with no
other production. -/
theorem Listing.Sound.heads_nodup (h : l.Sound cx) (hlifted : (l.lifted.map abnfBare).Nodup)
    (hstart : abnfHas cx (abnfStartRule cx) = true ∨ ∀ t ∈ l.lifted, abnfBare t ≠ abnfStartRule cx) :
    (l.sources.map Source.head).Nodup := by
  have hheads : l.sources.map Source.head = l.rules.map Prod.fst ++ l.lifted.map abnfBare := by
    rw [Listing.sources, List.map_append, List.map_map, List.map_map]
    rfl
  rw [hheads]
  refine h.nodup.append hlifted fun name hrule htoken => ?_
  obtain ⟨t, ht, rfl⟩ := List.mem_map.1 htoken
  have hnot : abnfHas cx (abnfBare t) ≠ true := by
    rw [h.free t ht]
    exact Bool.false_ne_true
  -- a rule that is written is held by the spec, the start rule perhaps apart
  rcases (h.own _).1 hrule with hname | hname
  · rcases hstart with hheld | hother
    · exact hnot (hname ▸ hheld)
    · exact hother t ht hname
  · exact hnot (h.held _ hname.1)

theorem Listing.Sound.clear (h : l.Sound cx) (hl : l.Resolved cx) : l.Clear cx := by
  have hheads := hl.heads
  rw [Listing.sources, List.map_append, List.map_map, List.map_map] at hheads
  obtain ⟨-, hlifted, hapart⟩ := List.nodup_append.1 hheads
  constructor
  · exact hlifted
  · refine .inr fun t ht hname => ?_
    have hstart : abnfStartRule cx ∈ l.rules.map Prod.fst := (h.own _).2 (.inl rfl)
    exact hapart _ hstart _ (List.mem_map_of_mem ht) hname.symm
  · intro name hname
    rcases hl.means _ hname with hrule | ⟨r, hcore, halts⟩
    · exact .inl (h.mem_rule.1 (resolve_production hrule).1)
    · exact .inr ⟨r, (resolve_core.1 hcore).2, halts⟩
  · intro t ht
    obtain ⟨rule, hrule, seq, hseq, el, hel, hnames⟩ := ht
    -- no core rule is named as a token of the engine's is, so the name is free where it stands for one
    have hengine : t ∈ engineTokens := names_fits hnames
    exact h.free_iff.1 ((resolve_engine hengine).1 (hl.means _ ⟨rule, hrule, seq, hseq, el, hel, hnames⟩))

theorem Listing.Sound.resolved (h : l.Sound cx) (hl : l.Clear cx) : l.Resolved cx := by
  have hheads := h.heads_nodup hl.lifted hl.start
  refine ⟨hheads, fun w hw => ?_⟩
  obtain ⟨rule, hrule, seq, hseq, el, hel, hnames⟩ := id hw
  cases w with
  | rule name =>
    by_cases hown : Own cx name
    · exact .inl (resolve_source hheads (h.mem_rule.2 hown))
    · obtain ⟨r, rfl, halts⟩ := (hl.rules name hw).resolve_left hown
      refine .inr ⟨r, resolve_core.2 ⟨h.free_iff.2 ⟨hown, fun t ht hname => ?_⟩, rfl⟩, halts⟩
      -- a core rule that the spec holds is no lifted token's
      have hfree := h.free t ht
      rw [hname, halts.1] at hfree
      cases hfree
  | engine t => exact (resolve_engine (names_fits hnames)).2 (h.free_iff.2 (hl.engine t hw))
  | lifted t => exact resolve_source hheads (mem_token.2 (names_fits hnames))

/-- In a text that is written no two productions have one name and every name stands for what it was written for
exactly where no name is given twice. -/
theorem abnfFile_resolved {spec : Json} {fuel : Nat} {out : Text}
    (hkeys : ((abnfContext spec).rules.map Prod.fst).Nodup)
    (h : abnfFile spec fuel = .done out) :
    ∃ l, abnfListing spec fuel = .done l ∧ l.WrittenAs (abnfContext spec) fuel out ∧
      (l.Resolved (abnfContext spec) ↔ l.Clear (abnfContext spec)) := by
  obtain ⟨l, hl, hwritten⟩ := abnfFile_listing spec fuel out h
  have hsound := abnfListing_sound hkeys hl
  exact ⟨l, hl, hwritten, hsound.clear, hsound.resolved⟩

/-! ## Names that the spec uses -/

/-- What a text names is used by the spec, or is a rule that a reference is written back to. -/
theorem abnfListing_names {spec : Json} {fuel : Nat} (h : abnfListing spec fuel = .done l) {w : Named}
    (hw : l.Names (abnfContext spec) w) :
    w.Used (abnfContext spec) ∨ ∃ name, w = .rule name ∧
      (Own (abnfContext spec) name ∨
        name ∈ (abnfContext spec).rules.map Prod.fst ∧ isCore (abnfContext spec) name = .done true) := by
  obtain ⟨_, -, h⟩ := Run.bind_eq_done h
  obtain ⟨ordered, hordered, h⟩ := Run.bind_eq_done h
  obtain ⟨lifted, -, h⟩ := Run.bind_eq_done h
  obtain ⟨_, -, h⟩ := Run.bind_eq_done h
  obtain ⟨direct, hdirect, h⟩ := Run.bind_eq_done h
  obtain ⟨cands, hcands, h⟩ := Run.bind_eq_done h
  obtain ⟨rules, hrules, h⟩ := Run.bind_eq_done h
  cases h
  obtain ⟨rule, hrule, seq, hseq, el, hel, hw⟩ := hw
  obtain ⟨name, -, hwritten⟩ := Run.mem_each hrules hrule
  obtain ⟨alts, halts, hwritten⟩ := Run.bind_eq_done hwritten
  cases hwritten
  rcases written_els halts seq hseq el hel with ⟨raw, hraw, seq', hseq', hel'⟩ | ⟨c, hc, rfl⟩
  · exact .inl ((made_alts hraw seq' hseq' el hel').names hw)
  · cases hw with
    | helper hin hw => exact .inl ((inside_made hin).names hw)
    | rule _ =>
      refine .inr ⟨c.name, rfl, ?_⟩
      rcases List.mem_append.1 (mem_abnfCandidates hcands hc).1 with hown | hcore
      · exact .inl ((mem_ordered hordered).1 hown)
      · exact .inr (mem_abnfDirectCore hdirect hcore)

/-- A spec whose names are apart: it holds its start rule, the rules that its alternates hand over to and its core rules
are ones that a text can name, and the tokens that are lifted and the engine's have names of their own. -/
structure Listing.Apart (l : Listing) (cx : Context) : Prop where
  lifted : (l.lifted.map abnfBare).Nodup
  start : abnfHas cx (abnfStartRule cx) = true
  rules : ∀ name ∈ usedRules cx, abnfLegalName name = true → abnfHelperKind cx name = .done (some []) →
    Own cx name ∨ ∃ r : CoreRule, r.name = name ∧ CoreAlts cx l.lifted r
  core : ∀ name ∈ cx.rules.map Prod.fst, isCore cx name = .done true →
    ∃ r : CoreRule, r.name = name ∧ CoreAlts cx l.lifted r
  engine : ∀ t ∈ usedTokens cx, t ∈ engineTokens → ¬ Own cx (abnfBare t) ∧ ∀ t' ∈ l.lifted, abnfBare t' ≠ abnfBare t

theorem Listing.WrittenAs.legal {fuel : Nat} {out : Text} (h : l.WrittenAs cx fuel out) {w : Named}
    (hw : l.Names cx w) :
    abnfLegalName w.text = true := by
  obtain ⟨rules, tokens, hrules, -, -⟩ := h
  obtain ⟨rule, hrule, hw⟩ := hw
  obtain ⟨i, hi, rfl⟩ := List.mem_iff_getElem.1 hrule
  obtain ⟨trees, s, -, hs, -, hnames⟩ := hrules.get (i := i) (by rw [hrules.length_eq]; exact hi) hi
  obtain ⟨ss, hss, -⟩ := Run.bind_eq_done hs
  exact alts_legal trees ss hss _ ((hnames _).2 ⟨w, hw, rfl⟩)

/-- In a text of a spec whose names are apart no name is given twice. -/
theorem Listing.Apart.clear {spec : Json} {fuel : Nat} {out : Text} (hl : abnfListing spec fuel = .done l)
    (hwritten : l.WrittenAs (abnfContext spec) fuel out) (h : l.Apart (abnfContext spec)) :
    l.Clear (abnfContext spec) := by
  have hfits : ∀ w, l.Names (abnfContext spec) w → w.Fits (abnfContext spec) l.lifted := by
    rintro w ⟨rule, -, seq, -, el, -, hw⟩
    exact names_fits hw
  constructor
  · exact h.lifted
  · exact .inl h.start
  · intro name hname
    rcases abnfListing_names hl hname with hused | ⟨_, heq, hown | hmarked⟩
    · exact h.rules name hused (hwritten.legal hname) (hfits _ hname)
    · cases heq
      exact .inl hown
    · cases heq
      exact .inr (h.core name hmarked.1 hmarked.2)
  · intro t ht
    rcases abnfListing_names hl ht with hused | ⟨_, heq, -⟩
    · exact h.engine t hused (hfits _ ht)
    · cases heq

end

/-! ## A text with names of each kind -/

/-- `BIT`, as the compiler marks a core rule. -/
def bitRule : Json :=
  .obj [("open".toList, .arr [.obj [("s".toList, .str "#0".toList),
    ("k".toList, .obj [("node$".toList, .obj [("kind".toList, .str "core".toList)])])], alternate [("s", "#1")]])]

/-- `a` is a text of the engine's, a keyword that is lifted and `b`; `b` is a literal or a bit. -/
def namedSpec : Json :=
  specOf [startWrapper "a", (['a'], openClose [[("s", "#TX #KEY"), ("p", "b")]] []),
    (['b'], openClose [[("s", "#X")], [("p", "BIT")]] []), ("BIT".toList, bitRule)]
    "__start__" [("#X", "x"), ("#KEY", "word"), ("#0", "0"), ("#1", "1")]

def namedListing : Listing where
  rules := [(['a'], [[.tok "#TX".toList, .tok "#KEY".toList, .ref ['b']]]),
    (['b'], [[.tok "#X".toList], [.ref "BIT".toList]])]
  lifted := ["#KEY".toList]

set_option maxRecDepth 20000 in
theorem abnfListing_namedSpec : abnfListing namedSpec 3 = .done namedListing := by rfl

/-- `BIT` is a zero or a one. -/
theorem coreAlts_bit : CoreAlts (abnfContext namedSpec) ["#KEY".toList] .BIT := by
  refine ⟨by decide +kernel, 3, [[.tok "#0".toList], [.tok "#1".toList]], [[.lit ['0'] true], [.lit ['1'] true]],
    rfl, rfl, ?_⟩
  exact ⟨⟨spelt_term rfl, trivial⟩, ⟨spelt_term rfl, trivial⟩, trivial⟩

theorem apart_namedSpec : namedListing.Apart (abnfContext namedSpec) := by
  have hown : ∀ name ∈ [['a'], ['b']], Own (abnfContext namedSpec) name := by
    unfold Own
    decide +kernel
  have hfree : ∀ t ∈ engineTokens, ¬ Own (abnfContext namedSpec) (abnfBare t) ∧
      ∀ t' ∈ namedListing.lifted, abnfBare t' ≠ abnfBare t := by
    unfold Own
    decide +kernel
  have hused : ∀ name ∈ usedRules (abnfContext namedSpec), abnfLegalName name = true → name ∈ [['a'], ['b']] ∨
    name = "BIT".toList := by
    decide +kernel
  have hcore : ∀ name ∈ (abnfContext namedSpec).rules.map Prod.fst, isCore (abnfContext namedSpec) name = .done true →
      name = "BIT".toList := by
    decide +kernel
  constructor
  · decide
  · decide +kernel
  · intro name hname hlegal _
    exact (hused name hname hlegal).imp (hown name) fun hbit => ⟨.BIT, hbit.symm, coreAlts_bit⟩
  · exact fun name hname hmarked => ⟨.BIT, (hcore name hname hmarked).symm, coreAlts_bit⟩
  · exact fun t _ ht => hfree t ht

/-- `a = TX KEY b`, `b = %s"x" / BIT` and `KEY = %s"word"`: every name stands for what it was written for. -/
theorem abnfFile_resolved_named :
    abnfFile namedSpec 3 = .done "a = TX KEY b\nb = %s\"x\" / BIT\nKEY = %s\"word\"\n".toList ∧
      namedListing.Resolved (abnfContext namedSpec) := by
  have hout : abnfFile namedSpec 3 = .done "a = TX KEY b\nb = %s\"x\" / BIT\nKEY = %s\"word\"\n".toList := by
    decide +kernel
  refine ⟨hout, ?_⟩
  obtain ⟨l, hl, hwritten, hiff⟩ := abnfFile_resolved (by decide +kernel) hout
  cases hl.symm.trans abnfListing_namedSpec
  exact hiff.2 (apart_namedSpec.clear abnfListing_namedSpec hwritten)

/-! ## A name that is captured -/

/-- `a` is a text of the engine's, and `TX` is a rule. -/
def capturedSpec : Json :=
  specOf [startWrapper "a", (['a'], openClose [[("s", "#TX")]] []), ("TX".toList, openClose [[("s", "#X")]] [])]
    "__start__" [("#X", "x")]

def capturedListing : Listing where
  rules := [(['a'], [[.tok "#TX".toList]]), ("TX".toList, [[.tok "#X".toList]])]
  lifted := []

set_option maxRecDepth 20000 in
theorem abnfListing_capturedSpec : abnfListing capturedSpec 3 = .done capturedListing := by rfl

/-- The engine's token in `a = TX` stands for the rule `TX = %s"x"`. -/
theorem abnfFile_captured :
    abnfFile capturedSpec 3 = .done "a = TX\nTX = %s\"x\"\n".toList ∧
      abnfListing capturedSpec 3 = .done capturedListing ∧
        capturedListing.Names (abnfContext capturedSpec) (.engine "#TX".toList) ∧
          capturedListing.resolve "TX".toList = some (.production (.rule "TX".toList)) ∧
            ¬ capturedListing.Resolved (abnfContext capturedSpec) := by
  have htx : abnfToken (abnfContext capturedSpec) "#TX".toList = .done (.engine "TX".toList) := by decide +kernel
  have hresolve : capturedListing.resolve "TX".toList = some (.production (.rule "TX".toList)) := by rfl
  have hnames : capturedListing.Names (abnfContext capturedSpec) (.engine "#TX".toList) :=
    ⟨_, List.mem_cons_self, _, List.mem_cons_self, _, List.mem_cons_self, .engine List.not_mem_nil htx⟩
  refine ⟨by decide +kernel, abnfListing_capturedSpec, hnames, hresolve, fun hresolved => ?_⟩
  cases hresolve.symm.trans (hresolved.means _ hnames)

end TabnasAbnf.Render
