/-
What the text that is written generates. A reference that is written back stands for what its rule generates; and with
every rule that the text names followed to its production, the productions generate what the spec's rules do.
-/
import TabnasAbnf.Base.Systems
import TabnasAbnf.Render.Keys
import TabnasAbnf.Render.Resolve
import TabnasAbnf.Render.UnsubExact

namespace TabnasAbnf.Render

open TabnasAbnf.Base TabnasAbnf.Meta

/-! ## Rules that are read without a loss -/

/-- A rule that the text can name. -/
def Nameable (cx : Context) (name : Text) : Prop := ∃ names, abnfNamed cx = .done names ∧ name ∈ names

/-- The rules that the text can name are read without a loss, and keys tell what elements generate. -/
structure Readable (cx : Context) : Prop where
  lossless : ∀ name, Nameable cx name → Lossless cx name
  formed : ∀ name, Nameable cx name → ∀ raw, abnfRawAlts cx name = .done raw → AllEls (Formed cx) raw
  start : Formed cx (.ref (abnfStartRule cx))
  keys : KeyNames cx

section

variable {cx : Context} {fuel : Nat} {names : List Text} {cands : List Cand} {x name : Text} {alts : List Seq}
  {ka : List (List Text)}

theorem Readable.keyed (hr : Readable cx) (hx : Nameable cx x) {n : Nat} (halts : abnfAlts cx n x = .done alts) :
    AllEls (Keyed cx) alts := by
  obtain ⟨raw, hraw, -⟩ := Run.bind_eq_done halts
  refine keyed_inherited.alts hraw (fun seq hseq el hel => ?_) halts
  exact ⟨hr.formed x hx raw hraw seq hseq el hel, made_rawAlts hraw seq hseq el hel,
    .bare (bare_rawAlts (hr.lossless x hx).tail hraw seq hseq el hel)⟩

/-- The alternatives of a rule that the text can name generate what the rule does. -/
theorem Readable.words (hr : Readable cx) (hx : Nameable cx x) {n : Nat} (halts : abnfAlts cx n x = .done alts) :
    altsWords cx alts = generated cx (.opening x) := by
  obtain ⟨raw, hraw, -⟩ := Run.bind_eq_done halts
  rw [alts_words hraw (hr.formed x hx raw hraw) halts, rawAlts_words (hr.lossless x hx) hraw]

theorem mem_altKeys {n : Nat} (hka : altKeys cx n alts = .done ka) {ks : List Text} (hks : ks ∈ ka) {k : Text}
    (hk : k ∈ ks) :
    ∃ seq ∈ alts, ∃ el ∈ seq, abnfKey cx n el = .done k := by
  obtain ⟨seq, hseq, hrun⟩ := Run.mem_each hka hks
  obtain ⟨el, hel, hkey⟩ := Run.mem_each hrun hk
  exact ⟨seq, hseq, el, hel, hkey⟩

/-- The keys of such rules can be told apart where they are joined. -/
theorem Readable.plainKeys (hr : Readable cx) (hnames : abnfNamed cx = .done names)
    (hcands : abnfCandidates cx fuel names = .done cands) (hx : Nameable cx x) (halts : abnfAlts cx fuel x = .done alts)
    (hka : altKeys cx fuel alts = .done ka) : PlainKeys cands ka := by
  constructor
  · intro c hc ks hks k hk
    obtain ⟨hname, altsC, haltsC, hkeysC⟩ := mem_abnfCandidates hcands hc
    obtain ⟨seq, hseq, el, hel, hkey⟩ := mem_altKeys hkeysC hks hk
    exact ((hr.keyed ⟨names, hnames, hname⟩ haltsC seq hseq el hel).key_plain hr.keys hkey).2
  · intro ks hks k hk
    obtain ⟨seq, hseq, el, hel, hkey⟩ := mem_altKeys hka hks hk
    exact (hr.keyed hx halts seq hseq el hel).key_plain hr.keys hkey

/-! ## References written back -/

/-- Alternatives with one list of keys generate the same. -/
theorem altKeys_words (hkeys : KeyNames cx) {n n' : Nat} {alts' : List Seq} (h : AllEls (Keyed cx) alts)
    (h' : AllEls (Keyed cx) alts') (hka : List.Forall₂ (fun seq ks => abnfSeqKeys cx n seq = .done ks) alts ka)
    (hka' : List.Forall₂ (fun seq ks => abnfSeqKeys cx n' seq = .done ks) alts' ka) :
    altsWords cx alts = altsWords cx alts' := by
  induction hka generalizing alts' with
  | nil =>
    cases hka'
    rfl
  | @cons seq ks alts ka hks _ ih =>
    cases hka' with
    | @cons seq' _ alts' _ hks' hrest' =>
      rw [← List.singleton_append, ← List.singleton_append (l := alts'), altsWords_append, altsWords_append,
        altsWords_single,
        altsWords_single, seqKeys_words hkeys (h seq List.mem_cons_self) (h' seq' List.mem_cons_self) hks hks',
        ih (fun s hs => h s (List.mem_cons_of_mem _ hs)) (fun s hs => h' s (List.mem_cons_of_mem _ hs)) hrest']

theorem altsWords_follow (alts : List Seq) (rest : Seq) :
    altsWords cx (alts.map (· ++ rest)) = altsWords cx alts * seqWords cx rest := by
  rw [altsWords, altsWords, List.map_map, ← List.sum_map_mul_right]
  congr 1
  exact List.map_congr_left fun seq _ => seqWords_append seq rest

/-- Where a candidate stands among a rule's alternatives, they generate what the candidate's rule does, and then what
follows it there. -/
theorem Readable.run_words (hr : Readable cx) (hnames : abnfNamed cx = .done names)
    (hcands : abnfCandidates cx fuel names = .done cands) (hx : Nameable cx x) (halts : abnfAlts cx fuel x = .done alts)
    (hka : altKeys cx fuel alts = .done ka) {c : Cand} {i : Nat} (hc : c ∈ cands)
    (hm : abnfCandMatches c ka i = .done true) :
    altsWords cx ((alts.drop i).take c.keys.length) =
      generated cx (.opening c.name) * seqWords cx ((alts.getD i []).drop (c.keys.headD []).length) := by
  obtain ⟨hname, altsC, haltsC, hkeysC⟩ := mem_abnfCandidates hcands hc
  have hC : Nameable cx c.name := ⟨names, hnames, hname⟩
  have hkeyed := hr.keyed hx halts
  have hlen : alts.length = ka.length := by simpa using (congrArg List.length (altKeys_get hka).1).symm
  have hi : i < alts.length := by
    have := abnfCandMatches_spec hm
    omega
  have hget : abnfSeqKeys cx fuel (alts.getD i []) = .done (ka.getD i []) := by
    rw [List.getD_eq_getElem _ _ hi, List.getD_eq_getElem _ _ (by omega : i < ka.length)]
    exact (altKeys_get hka).2 i hi (by omega)
  -- the run has the keys of the candidate's alternatives, each with those of what follows
  have hrun : List.Forall₂ (fun seq ks => abnfSeqKeys cx fuel seq = .done ks) ((alts.drop i).take c.keys.length)
      ((ka.drop i).take c.keys.length) := List.forall₂_take _ (List.forall₂_drop _ (Run.each_eq_done hka))
  have hcand : List.Forall₂ (fun seq ks => abnfSeqKeys cx fuel seq = .done ks)
      (altsC.map (· ++ (alts.getD i []).drop (c.keys.headD []).length)) ((ka.drop i).take c.keys.length) := by
    rw [← candMatches_keys (hr.plainKeys hnames hcands hx halts hka) hc hm, List.forall₂_map_left_iff,
      List.forall₂_map_right_iff]
    exact (Run.each_eq_done hkeysC).imp fun seq ks hks => Run.each_append hks (Run.each_drop hget _)
  rw [← hr.words hC haltsC, ← altsWords_follow]
  refine altKeys_words hr.keys (fun seq hseq => ?_) (fun seq hseq el hel => ?_) hrun hcand
  · exact hkeyed seq (List.mem_of_mem_drop (List.mem_of_mem_take hseq))
  · obtain ⟨seqC, hseqC, rfl⟩ := List.mem_map.1 hseq
    rcases List.mem_append.1 hel with hel | hel
    · exact hr.keyed hC haltsC seqC hseqC el hel
    · rw [List.getD_eq_getElem _ _ hi] at hel
      exact hkeyed _ (List.getElem_mem hi) el (List.mem_of_mem_drop hel)

namespace Written

/-- What is written stands for, a reference for its rule. -/
def stands (cx : Context) : Written → Language El
  | kept seq => seqWords cx seq
  | ref c rest => generated cx (.opening c.name) * seqWords cx rest

end Written

/-- What is written at the places of a rule's alternatives stands for what they generate. -/
theorem Readable.places_words (hr : Readable cx) (hnames : abnfNamed cx = .done names)
    (hcands : abnfCandidates cx fuel names = .done cands) (hx : Nameable cx x) (halts : abnfAlts cx fuel x = .done alts)
    {best : List (Option Cand)} (hbest : bestCands cx fuel cands x alts = .done best) :
    (((List.range alts.length).flatMap (writtenAt alts best)).map (Written.stands cx)).sum = altsWords cx alts := by
  obtain ⟨ka, hka, -⟩ := Run.bind_eq_done hbest
  obtain ⟨hlen, hlenAlts, hget⟩ := bestCands_get hka hbest
  let free : Nat → Bool :=
    fun i => ((List.range best.length).filter fun j => accepted best j && covers best j i).isEmpty
  let runs : Nat → List Seq := fun i =>
    if accepted best i then (best[i]?.join).toList.flatMap fun c => (alts.drop i).take c.keys.length
    else if free i then [alts.getD i []] else []
  have hruns : (List.range alts.length).flatMap runs = alts := by
    refine accepted_flatMap (fun i c hc => ?_) (hlen.trans hlenAlts.symm) (fun i c ha hc => ?_) (fun i ha hover => ?_)
      fun i hi ha hfree => ?_
    · obtain ⟨hle, hpos, -⟩ := abnfCandMatches_spec (hget i c hc).2.2
      exact ⟨hpos, by omega⟩
    · simp only [runs, ha, if_true, hc]
      exact List.append_nil _
    · simp only [runs, ha, hover, free, if_false, Bool.false_eq_true]
    · simp only [runs, ha, hfree, free, if_true, Bool.false_eq_true, if_false, List.getD_eq_getElem _ _ hi]
  have hplace : ∀ i, ((writtenAt alts best i).map (Written.stands cx)).sum = altsWords cx (runs i) := by
    intro i
    unfold writtenAt
    simp only [runs]
    by_cases ha : accepted best i = true
    · obtain ⟨c, hc⟩ := accepted_some ha
      obtain ⟨hmem, -, hm⟩ := hget i c hc
      rw [if_pos ha, if_pos ha, hc, Option.toList_some, List.map_singleton, List.map_singleton, List.sum_singleton,
        List.flatMap_singleton, hr.run_words hnames hcands hx halts hka hmem hm]
      rfl
    · rw [if_neg ha, if_neg ha]
      split
      · rw [List.map_singleton, List.sum_singleton, altsWords_single]
        rfl
      · rfl
  have hall : altsWords cx alts = altsWords cx ((List.range alts.length).flatMap runs) := by rw [hruns]
  ext w
  rw [hall, mem_sum, mem_altsWords]
  simp only [List.mem_flatMap]
  constructor
  · rintro ⟨written, ⟨i, hi, hwritten⟩, hw⟩
    have hin : w ∈ altsWords cx (runs i) := by
      rw [← hplace]
      exact mem_sum.2 ⟨written, hwritten, hw⟩
    obtain ⟨seq, hseq, hw⟩ := mem_altsWords.1 hin
    exact ⟨seq, ⟨i, hi, hseq⟩, hw⟩
  · rintro ⟨seq, ⟨i, hi, hseq⟩, hw⟩
    have hin : w ∈ ((writtenAt alts best i).map (Written.stands cx)).sum := by
      rw [hplace]
      exact mem_altsWords.2 ⟨seq, hseq, hw⟩
    obtain ⟨written, hwritten, hw⟩ := mem_sum.1 hin
    exact ⟨written, ⟨i, hi, hwritten⟩, hw⟩

/-- What is written for a rule stands for what the rule generates, and begins with no reference that is not written
back. -/
theorem Readable.written_words (hr : Readable cx) (hnames : abnfNamed cx = .done names)
    (hcands : abnfCandidates cx fuel names = .done cands) (hx : Nameable cx x) {out : List Seq}
    (h : written cx fuel cands x = .done out) :
    ∃ ws : List Written, out = ws.map Written.text ∧ (ws.map (Written.stands cx)).sum = generated cx (.opening x) ∧
      ∀ c rest, .ref c rest ∈ ws → c.name ∈ names ∧ Introduces cx fuel cands x c.name := by
  obtain ⟨alts, halts, h⟩ := Run.bind_eq_done h
  have hkept : ∃ ws : List Written, alts = ws.map Written.text ∧
    (ws.map (Written.stands cx)).sum = generated cx (.opening x) ∧
      ∀ c rest, .ref c rest ∈ ws → c.name ∈ names ∧ Introduces cx fuel cands x c.name := by
    refine ⟨alts.map .kept, ?_, ?_, ?_⟩
    · rw [List.map_map]
      exact (List.map_id alts).symm
    · rw [List.map_map, ← hr.words hx halts]
      rfl
    · intro c rest hmem
      obtain ⟨seq, -, he⟩ := List.mem_map.1 hmem
      cases he
  unfold abnfUnsub at h
  split at h
  · cases h
    exact hkept
  · obtain ⟨best, hbest, h⟩ := Run.bind_eq_done h
    obtain ⟨isAlias, halias, h⟩ := Run.bind_eq_done h
    cases h
    split
    · exact hkept
    · rename_i hno
      rw [Bool.not_eq_true] at hno
      rw [hno] at halias
      obtain ⟨ka, hka, -⟩ := Run.bind_eq_done hbest
      obtain ⟨-, -, hget⟩ := bestCands_get hka hbest
      refine ⟨_, unsubOut_text alts best, ?_, ?_⟩
      · rw [hr.places_words hnames hcands hx halts hbest, hr.words hx halts]
      · intro c rest hmem
        obtain ⟨i, hi, hwritten⟩ := List.mem_flatMap.1 hmem
        unfold writtenAt at hwritten
        split at hwritten
        · rename_i ha
          obtain ⟨c', hc', he⟩ := List.mem_map.1 hwritten
          cases he
          have hc := Option.mem_toList.1 hc'
          refine ⟨(mem_abnfCandidates hcands (hget i c hc).1).1, alts, best, halts, hbest, halias, i, c, ?_,
            ha, hc, rfl⟩
          exact List.mem_range.1 hi
        · split at hwritten
          · cases List.mem_singleton.1 hwritten
          · cases hwritten

end

/-! ## The spec's rules and the written ones -/

/-- A reference to a rule that the text can name leads on to the rule. -/
def lead (names : List Text) : El → El ⊕ Text
  | .ref name => if names.contains name then .inr name else .inl (.ref name)
  | el => .inl el

/-- What the spec's rules generate, where the rules that the text can name are followed like the compiler's. -/
def specWords (cx : Context) (names : List Text) (name : Text) : Language El :=
  language (followed (fun el => (lead names el).map id Stage.opening) (sides cx)) (.opening name)

def specSystem (cx : Context) (names : List Text) (name : Text) : Language (El ⊕ Text) :=
  (generated cx (.opening name)).map (lead names)

/-- The alternatives that are written for a rule, or, where none are, what the rule generates. -/
def writtenSystem (cx : Context) (names : List Text) (rules : List (Text × List Seq)) (name : Text) :
    Language (El ⊕ Text) :=
  match rules.lookup name with
  | some out => (altsWords cx out).map (lead names)
  | none => specSystem cx names name

/-- What is written, the letters in it filled in, and each reference that was written back. -/
def Written.filled (cx : Context) (f : El → Language El) (M : Text → Language El) : Written → Language El
  | .kept seq => expand f (seqWords cx seq)
  | .ref c rest => M c.name * expand f (seqWords cx rest)

section

variable {cx : Context} {fuel : Nat} {names : List Text} {cands : List Cand} {rules : List (Text × List Seq)}
  {name : Text}

theorem specWords_eq : specWords cx names name = solution (specSystem cx names) name :=
  language_followed name

theorem throughAll_lead (L : Text → Language El) (l : Language El) :
    throughAll L (l.map (lead names)) = expand (fun el => Sum.elim single L (lead names el)) l := by
  rw [throughAll, expand_map]

/-- References are written back in no cycle. -/
theorem introduces_wf (hnames : abnfNamed cx = .done names) (hcands : abnfCandidates cx fuel names = .done cands) :
    WellFounded fun y x => Introduces cx fuel cands x y := by
  -- a rule of the same weight is the start rule, which is not written back in itself
  let rank : Text → (Nat ×ₗ Nat) ×ₗ Nat := fun x => toLex (ruleWeight cx fuel x, if x = abnfStartRule cx then 0 else 1)
  refine Subrelation.wf (r := InvImage (· < ·) rank) (fun {y x} h => ?_) (InvImage.wf rank wellFounded_lt)
  obtain ⟨hin, hle, hkeep⟩ := h.weight_le hcands
  rw [InvImage, Prod.Lex.toLex_lt_toLex]
  rcases hle.lt_or_eq with hlt | heq
  · exact .inl hlt
  · refine .inr ⟨heq, ?_⟩
    have hy := (abnfNamed_kind hnames hin).resolve_right (hkeep heq)
    have hx : x ≠ abnfStartRule cx := by
      obtain ⟨-, -, -, -, -, -, -, -, -, -, -, -, -, hne, -⟩ := h.stands
      rwa [hy] at hne
    show (if y = abnfStartRule cx then 0 else 1) < if x = abnfStartRule cx then 0 else 1
    rw [if_pos hy, if_neg hx]
    exact Nat.one_pos

/-- A written rule gives what the spec's does where references that were written back stand for their rules. -/
theorem Readable.folds (hr : Readable cx) (hnames : abnfNamed cx = .done names)
    (hcands : abnfCandidates cx fuel names = .done cands)
    (hrules : ∀ name out, rules.lookup name = some out → name ∈ names ∧ written cx fuel cands name = .done out)
    (name : Text) :
    Folds (Introduces cx fuel cands) (specSystem cx names) (writtenSystem cx names rules) name := by
  rcases hlook : rules.lookup name with _ | out
  · refine .same ?_
    rw [writtenSystem, hlook]
  · obtain ⟨hin, hout⟩ := hrules name out hlook
    obtain ⟨ws, rfl, hstands, hwrote⟩ := hr.written_words hnames hcands ⟨names, hnames, hin⟩ hout
    refine ⟨fun L M => (ws.map (Written.filled cx (fun el => Sum.elim single L (lead names el)) M)).sum, fun L => ?_,
      fun L =>
        ⟨fun t => if abnfMade cx t = .done true then throughAll L (specSystem cx names t) else L t, fun t => ?_, ?_⟩,
      fun L M M' h => sum_mono fun w hw => ?_⟩
    · rw [specSystem, throughAll_lead, ← hstands, expand_sum]
      refine congrArg List.sum (List.map_congr_left fun w _ => ?_)
      rcases w with seq | ⟨c, rest⟩
      · rfl
      · rw [Written.stands, expand_mul, Written.filled, specSystem, throughAll_lead]
    · dsimp only
      split_ifs
      · exact .inr rfl
      · exact .inl rfl
    · rw [writtenSystem, hlook]
      show throughAll L ((altsWords cx (ws.map Written.text)).map (lead names)) = _
      rw [throughAll_lead, altsWords, List.map_map, expand_sum]
      refine congrArg List.sum (List.map_congr_left fun w hw => ?_)
      rcases w with seq | ⟨c, rest⟩
      · rfl
      · -- a rule of the compiler's that is written back stands for what it generates, and another for itself
        rw [Function.comp_apply, Written.text, seqWords, expand_mul, Written.filled]
        congr 1
        by_cases hmade : abnfMade cx c.name = .done true
        · rw [if_pos hmade, words_made hmade, specSystem, throughAll_lead]
        · rw [if_neg hmade, El.words, symbol, if_neg hmade, through_cons_single, through_nil, mul_one,
            expand_single, lead,
            if_pos (List.contains_iff_mem.2 (hwrote c rest hw).1), Sum.elim_inr]
    · rcases w with seq | ⟨c, rest⟩
      · exact le_rfl
      · exact mul_le_mul' (h c.name (hwrote c rest hw).2) le_rfl

/-- The written rules generate what the spec's do. -/
theorem Readable.written_eq (hr : Readable cx) (hnames : abnfNamed cx = .done names)
    (hcands : abnfCandidates cx fuel names = .done cands)
    (hrules : ∀ name out, rules.lookup name = some out → name ∈ names ∧ written cx fuel cands name = .done out) :
    solution (writtenSystem cx names rules) name = specWords cx names name := by
  rw [specWords_eq, solution_fold (introduces_wf hnames hcands) (hr.folds hnames hcands hrules)]

end

/-! ## The text's productions -/

/-- Names, each with the alternatives that a production of it is written with. -/
abbrev Productions := List (Text × List (List Tree))

/-- A reference to a production leads on to it. -/
def Tree.lead (g : Productions) : Tree → Tree ⊕ Text
  | .ref name => if (g.lookup name).isSome then .inr name else .inl (.ref name)
  | t => .inl t

def grammarSystem (g : Productions) (name : Text) : Language (Tree ⊕ Text) :=
  (treeAltsWords ((g.lookup name).getD [])).map (Tree.lead g)

/-- What productions generate: sequences of terminals and of names that no production has. -/
noncomputable def grammarWords (g : Productions) : Text → Language Tree := solution (grammarSystem g)

/-- A production's line: its name, and the text of its alternatives. -/
def ProductionLine (line : Text) (p : Text × List (List Tree)) : Prop :=
  ∃ s, altsText p.2 = .done s ∧ line = p.1 ++ " = ".toList ++ s

/-- A text has a line for each production, and one for each lifted token. -/
def TextOf (cx : Context) (lifted : List Text) (g : Productions) (out : Text) : Prop :=
  ∃ lines tokens, List.Forall₂ ProductionLine lines g ∧ List.Forall₂ (TokenLine cx) tokens lifted ∧
    out = stringJoin ['\n'] (lines ++ tokens) ++ ['\n']

/-- The productions of a listing: each rule's name, and the trees of its alternatives. -/
def Listing.Trees (l : Listing) (cx : Context) (fuel : Nat) (g : Productions) : Prop :=
  List.Forall₂ (fun rule p => p.1 = rule.1 ∧ treeAlts cx l.lifted fuel rule.2 = .done p.2) l.rules g

/-- The core rules that a written rule can name, each with the alternatives it has in the front end, which are those
that the spec holds for it. -/
structure CoreProductions (cx : Context) (lifted : List Text) (core : Productions) : Prop where
  names : abnfDirectCore cx = .done (core.map Prod.fst)
  read : ∀ p ∈ core, ∃ r : CoreRule, r.name = p.1 ∧ BackAlts p.2 (r.alts fromCodePoint) ∧
    ∃ n alts, abnfAlts cx n p.1 = .done alts ∧ treeAlts cx lifted n alts = .done p.2

section

variable {cx : Context} {fuel : Nat} {names lifted : List Text} {cands : List Cand} {rules : List (Text × List Seq)}
  {name : Text} {g core : Productions}

/-- A written name leads on where the name of an element does. -/
def leadWritten (names : List Text) : Option Tree → Option Tree ⊕ Text
  | some (.ref name) => if names.contains name then .inr name else .inl (some (.ref name))
  | t => .inl t

theorem leadWritten_tree (hnames : ∀ name, (g.lookup name).isSome = true ↔ name ∈ names) (t : Tree) :
    leadWritten names (some t) = (Tree.lead g t).map some id := by
  cases t with
  | ref name =>
    rw [leadWritten, Tree.lead]
    by_cases hin : name ∈ names
    · rw [if_pos (List.contains_iff_mem.2 hin), if_pos ((hnames name).2 hin)]
      rfl
    · rw [if_neg (mt List.contains_iff_mem.1 hin), if_neg (mt (hnames name).1 hin)]
      rfl
  | _ => rfl

theorem leadWritten_el (el : El) :
    leadWritten names (writtenAs cx lifted el) = (lead names el).map (writtenAs cx lifted) id := by
  cases el with
  | ref name =>
    rw [writtenAs, leadWritten, lead]
    by_cases hin : names.contains name
    · rw [if_pos hin, if_pos hin]
      rfl
    · rw [if_neg hin, if_neg hin]
      rfl
  | tok t =>
    show leadWritten names (writtenAs cx lifted (.tok t)) = .inl (writtenAs cx lifted (.tok t))
    rw [writtenAs]
    split
    · rename_i tree htree
      -- a token is written as no reference
      unfold treeTok at htree
      split at htree
      · cases htree
        rfl
      · obtain ⟨info, -, hinfo⟩ := Run.bind_eq_done htree
        cases hinfo
        cases info <;> rfl
    · rfl
  | tail seq => rfl
  | grp seq => rfl

/-- Productions that are written of elements generate what is written of the elements' words. -/
theorem grammarWords_written (hnames : ∀ name, (g.lookup name).isSome = true ↔ name ∈ names)
    (h : ∀ name ∈ names, ∀ trees, g.lookup name = some trees → ∃ l : Language El,
      writtenSystem cx names rules name = l.map (lead names) ∧
        (treeAltsWords trees).map some = l.map (writtenAs cx lifted))
    (hname : name ∈ names) :
    (grammarWords g name).map some = (solution (writtenSystem cx names rules) name).map (writtenAs cx lifted) := by
  rw [grammarWords, solution_map, solution_map]
  have hsystem : ∀ name ∈ names, (grammarSystem g name).map (Sum.map some id) =
      (writtenSystem cx names rules name).map (Sum.map (writtenAs cx lifted) id) := by
    intro name hname
    obtain ⟨trees, htrees⟩ := Option.isSome_iff_exists.1 ((hnames name).2 hname)
    obtain ⟨l, hsys, hwords⟩ := h name hname trees htrees
    have hleft : ∀ l : Language Tree,
      (l.map (Tree.lead g)).map (Sum.map some id) = (l.map some).map (leadWritten names) := by
      intro l
      rw [Language.map_map, Language.map_map]
      congr 2
      funext t
      exact (leadWritten_tree hnames t).symm
    have hright : (l.map (lead names)).map (Sum.map (writtenAs cx lifted) id) =
        (l.map (writtenAs cx lifted)).map (leadWritten names) := by
      rw [Language.map_map, Language.map_map]
      congr 2
      funext el
      exact (leadWritten_el el).symm
    rw [grammarSystem, htrees, Option.getD_some, hsys, hleft, hright, hwords]
  refine solution_congr (p := fun name => name ∈ names) (fun s _ x hx t ht => ?_) hsystem hname
  -- a production leads on to names of productions alone
  obtain ⟨y, ⟨z, -, rfl⟩, rfl⟩ := hx
  obtain ⟨a, ha, hat⟩ := List.mem_map.1 ht
  obtain ⟨b, -, rfl⟩ := List.mem_map.1 ha
  rcases hb : Tree.lead g b with c | m
  · rw [hb] at hat
    cases hat
  · rw [hb] at hat
    cases hat
    cases b with
    | ref m' =>
      rw [Tree.lead] at hb
      split at hb
      · rename_i hsome
        cases hb
        exact (hnames _).1 hsome
      · cases hb
    | _ => cases hb

theorem mem_of_lookup {α : Type} {g : List (Text × α)} {v : α} (h : g.lookup name = some v) : (name, v) ∈ g := by
  obtain ⟨l₁, l₂, rfl, -⟩ := List.lookup_eq_some_iff.1 h
  exact List.mem_append_right _ List.mem_cons_self

theorem lookup_isSome {α : Type} {g : List (Text × α)} : (g.lookup name).isSome = true ↔ name ∈ g.map Prod.fst := by
  rw [List.lookup_isSome_iff]
  constructor
  · rintro ⟨p, hp, heq⟩
    rw [beq_iff_eq.1 heq]
    exact List.mem_map_of_mem hp
  · intro h
    obtain ⟨p, hp, rfl⟩ := List.mem_map.1 h
    exact ⟨p, hp, beq_self_eq_true _⟩

/-- A rule that the text can name is the start rule or no rule of the compiler's. -/
theorem abnfNamed_made (hnames : abnfNamed cx = .done names) (hname : name ∈ names) :
    name = abnfStartRule cx ∨ abnfMade cx name = .done false := by
  have hmade : ∀ {t : Bool → Bool}, t true = false →
      (abnfMade cx name).bind (fun made => (.done (t made) : Out Bool)) = .done true →
        abnfMade cx name = .done false := by
    intro t ht h
    obtain ⟨made, hm, h⟩ := Run.bind_eq_done h
    rcases Bool.eq_false_or_eq_true made with rfl | rfl
    · rw [ht] at h
      cases h
    · exact hm
  obtain ⟨ordered, ho, hnames⟩ := Run.bind_eq_done hnames
  obtain ⟨direct, hd, hnames⟩ := Run.bind_eq_done hnames
  cases hnames
  rcases List.mem_append.1 hname with hname | hname
  · obtain ⟨users, hu, ho⟩ := Run.bind_eq_done ho
    cases ho
    rcases List.mem_cons.1 hname with rfl | hname
    · exact .inl rfl
    · exact .inr (hmade (t := fun made => !made && _) rfl ((Run.mem_select hu).1 (List.mem_of_mem_filter hname)).2)
  · exact .inr (hmade (t := fun made => !made && _) rfl (mem_abnfDirectCore hd hname).2)

/-- What is written for a rule is of elements of the shape that their kinds are read in. -/
theorem Readable.written_formed (hr : Readable cx) (hnames : abnfNamed cx = .done names)
    (hcands : abnfCandidates cx fuel names = .done cands) (hname : name ∈ names) {out : List Seq}
    (h : written cx fuel cands name = .done out) : AllEls (Formed cx) out := by
  intro seq hseq el hel
  rcases written_els h seq hseq el hel with ⟨alts, halts, seq', hseq', hel'⟩ | ⟨c, hc, rfl⟩
  · exact (hr.keyed ⟨names, hnames, hname⟩ halts seq' hseq' el hel').formed
  · rcases abnfNamed_made hnames (mem_abnfCandidates hcands hc).1 with heq | hmade
    · rw [heq]
      exact hr.start
    · exact .rule hmade

/-- The lines of rules are those of productions. -/
theorem ruleLines_productions {lines : List Text} (h : List.Forall₂ (RuleLine cx lifted fuel) lines rules) :
    ∃ g : Productions, List.Forall₂ ProductionLine lines g ∧
      List.Forall₂ (fun rule p => p.1 = rule.1 ∧ treeAlts cx lifted fuel rule.2 = .done p.2) rules g := by
  induction h with
  | nil => exact ⟨[], .nil, .nil⟩
  | @cons line rule lines rules hline _ ih =>
    obtain ⟨trees, s, htrees, htext, hline, -⟩ := hline
    obtain ⟨g, hlines, hrules⟩ := ih
    exact ⟨(rule.1, trees) :: g, .cons ⟨s, htext, hline⟩ hlines, .cons ⟨rfl, htrees⟩ hrules⟩

/-- The rules that are written, each with the alternatives written for it. -/
theorem mem_written {ordered : List Text}
    (h : Run.each (fun name => (written cx fuel cands name).bind fun alts =>
    (.done (name, alts) : Out (Text × List Seq))) ordered =
      .done rules) : rules.map Prod.fst = ordered ∧ ∀ rule ∈ rules, written cx fuel cands rule.1 = .done rule.2 := by
  constructor
  · refine Run.each_map h fun name rule hrule => ?_
    obtain ⟨alts, -, hrule⟩ := Run.bind_eq_done hrule
    cases hrule
    rfl
  · intro rule hrule
    obtain ⟨name, -, hrun⟩ := Run.mem_each h hrule
    obtain ⟨alts, halts, hrun⟩ := Run.bind_eq_done hrun
    cases hrun
    exact halts

/-- Each production is written of what the written rule, or the core rule, generates. -/
theorem Readable.production_words (hr : Readable cx) (hnames : abnfNamed cx = .done names)
    (hcands : abnfCandidates cx fuel names = .done cands)
    (hrules : ∀ rule ∈ rules, rule.1 ∈ names ∧ written cx fuel cands rule.1 = .done rule.2)
    (hg : List.Forall₂ (fun rule p => p.1 = rule.1 ∧ treeAlts cx lifted fuel rule.2 = .done p.2) rules g)
    (hcore : CoreProductions cx lifted core) (hname : name ∈ names) {trees : List (List Tree)}
    (h : (g ++ core).lookup name = some trees) : ∃ l : Language El,
      writtenSystem cx names rules name = l.map (lead names) ∧
        (treeAltsWords trees).map some = l.map (writtenAs cx lifted) := by
  have hheads : rules.map Prod.fst = g.map Prod.fst := by
    refine List.ext_getElem (by simpa using hg.length_eq) fun i hi hi' => ?_
    rw [List.length_map] at hi hi'
    rw [List.getElem_map, List.getElem_map]
    exact (hg.get hi hi').1.symm
  rw [List.lookup_append] at h
  rcases hlook : rules.lookup name with _ | out
  · -- a core rule, which is not written
    have hnone : g.lookup name = none := by
      rw [← Option.not_isSome_iff_eq_none, lookup_isSome, ← hheads, ← lookup_isSome, hlook]
      simp
    rw [hnone, Option.none_or] at h
    obtain ⟨-, -, -, n, alts, halts, htrees⟩ := hcore.read _ (mem_of_lookup h)
    have hx : Nameable cx name := ⟨names, hnames, hname⟩
    refine ⟨generated cx (.opening name), by rw [writtenSystem, hlook, specSystem], ?_⟩
    rw [← hr.words hx halts]
    exact (tree_words n).alts alts trees (fun seq hseq el hel => (hr.keyed hx halts seq hseq el hel).formed) htrees
  · have hout := hrules _ (mem_of_lookup hlook)
    have hsome : ∃ trees', g.lookup name = some trees' := by
      rw [← Option.isSome_iff_exists, lookup_isSome, ← hheads, ← lookup_isSome, hlook]
      rfl
    obtain ⟨trees', htrees'⟩ := hsome
    rw [htrees', Option.some_or] at h
    cases h
    obtain ⟨i, hi, hget⟩ := List.mem_iff_getElem.1 (mem_of_lookup htrees')
    have hi' : i < rules.length := hg.length_eq ▸ hi
    have hboth := hg.get hi' hi
    simp only [List.get_eq_getElem, hget] at hboth
    -- one name is written as one thing, wherever it stands
    have hsame : rules[i].2 = out := by
      have hrun := (hrules _ (List.getElem_mem hi')).2
      rw [← hboth.1] at hrun
      exact Run.done.inj (hrun.symm.trans hout.2)
    rw [hsame] at hboth
    refine ⟨altsWords cx out, by rw [writtenSystem, hlook], ?_⟩
    exact (tree_words fuel).alts out trees (hr.written_formed hnames hcands hname hout.2) hboth.2

/-- What a text's productions generate, followed to one another and to the core rules they name, is what the spec's
rules do, for each rule that the text can name: every sequence of terminals and names, and no other. -/
theorem abnfFile_preserves {spec : Json} {out : Text} (hr : Readable (abnfContext spec))
    (h : abnfFile spec fuel = .done out) :
    ∃ names l g, abnfNamed (abnfContext spec) = .done names ∧ abnfListing spec fuel = .done l ∧
      abnfOrdered (abnfContext spec) = .done (g.map Prod.fst) ∧ l.Trees (abnfContext spec) fuel g ∧
        TextOf (abnfContext spec) l.lifted g out ∧
        ∀ core, CoreProductions (abnfContext spec) l.lifted core → ∀ name ∈ names,
          (grammarWords (g ++ core) name).map some =
            (specWords (abnfContext spec) names name).map (writtenAs (abnfContext spec) l.lifted) := by
  obtain ⟨l, hl, lines, tokens, hlines, htokens, rfl⟩ := abnfFile_listing spec fuel out h
  have hlist := hl
  obtain ⟨_, -, hlist⟩ := Run.bind_eq_done hlist
  obtain ⟨ordered, hordered, hlist⟩ := Run.bind_eq_done hlist
  obtain ⟨lifted, -, hlist⟩ := Run.bind_eq_done hlist
  obtain ⟨_, -, hlist⟩ := Run.bind_eq_done hlist
  obtain ⟨direct, hdirect, hlist⟩ := Run.bind_eq_done hlist
  obtain ⟨cands, hcands, hlist⟩ := Run.bind_eq_done hlist
  obtain ⟨rules, hrules, hlist⟩ := Run.bind_eq_done hlist
  cases hlist
  have hnames : abnfNamed (abnfContext spec) = .done (ordered ++ direct) := by
    rw [abnfNamed, hordered, Run.done_bind, hdirect, Run.done_bind]
  obtain ⟨g, hlines, hg⟩ := ruleLines_productions hlines
  obtain ⟨hheads, hwritten⟩ := mem_written hrules
  have hrules' : ∀ rule ∈ rules, rule.1 ∈ ordered ++ direct ∧
    written (abnfContext spec) fuel cands rule.1 = .done rule.2 := by
    intro rule hrule
    refine ⟨List.mem_append_left _ ?_, hwritten rule hrule⟩
    rw [← hheads]
    exact List.mem_map_of_mem hrule
  have hg' : g.map Prod.fst = ordered := by
    rw [← hheads]
    refine List.ext_getElem (by simpa using hg.length_eq.symm) fun i hi hi' => ?_
    rw [List.length_map] at hi hi'
    rw [List.getElem_map, List.getElem_map]
    exact (hg.get hi' hi).1
  refine ⟨_, _, g, hnames, hl, by rw [hg', hordered], hg, ⟨lines, tokens, hlines, htokens, rfl⟩,
    fun core hcore name hname => ?_⟩
  have hcoreNames := Run.done.inj (hdirect.symm.trans hcore.names)
  have hlook : ∀ name, ((g ++ core).lookup name).isSome = true ↔ name ∈ ordered ++ direct := by
    intro name
    rw [lookup_isSome, List.map_append, hg', hcoreNames]
  rw [grammarWords_written hlook (fun name hname trees htrees => hr.production_words hnames hcands hrules' hg hcore
    hname htrees)
    hname, hr.written_eq hnames hcands]
  intro name out hlook
  exact hrules' _ (mem_of_lookup hlook)

end

/-! ## A reference that is written back -/

/-- `a` is an `x` or a `y`, and then a `z`; `b` is an `x` or a `y`. -/
def backSpec : Json :=
  specOf [startWrapper "a", (['a'], openClose [[("s", "#X #Z")], [("s", "#Y #Z")]] []),
    (['b'], openClose [[("s", "#X")], [("s", "#Y")]] [])] "__start__" [("#X", "x"), ("#Y", "y"), ("#Z", "z")]

theorem abnfNamed_backSpec : abnfNamed (abnfContext backSpec) = .done [['a'], ['b']] := by decide +kernel

theorem readable_backSpec : Readable (abnfContext backSpec) := by
  have hnamed : ∀ name, Nameable (abnfContext backSpec) name → name ∈ [['a'], ['b']] := by
    rintro name ⟨names, hnames, hname⟩
    cases abnfNamed_backSpec.symm.trans hnames
    exact hname
  have hlossless : ∀ name ∈ [['a'], ['b']], Lossless (abnfContext backSpec) name := by
    have hshape : ∀ name ∈ [['a'], ['b']], abnfIsTail name (abnfRule (abnfContext backSpec) name) = false ∧
        abnfDispatches name (abnfRule (abnfContext backSpec) name) = false ∧
          EntriesApart (abnfOpen (abnfRule (abnfContext backSpec) name)) ∧
            abnfClose (abnfRule (abnfContext backSpec) name) = [] := by
      unfold EntriesApart
      decide +kernel
    intro name hname
    obtain ⟨htail, hdispatches, hapart, hclose⟩ := hshape name hname
    refine ⟨htail, fun h => ?_, fun _ _ => ⟨hapart, fun alt halt => ?_⟩, fun _ h => ?_⟩
    · rw [hdispatches] at h
      cases h
    · rw [hclose] at halt
      cases halt
    · rw [hclose] at h
      exact absurd rfl h
  have hrules : ∀ n ∈ usedRules (abnfContext backSpec), '\x01' ∉ n ∧ noMark n = true ∧
      abnfHelperKind (abnfContext backSpec) n = .done (some []) := by decide +kernel
  have hkind : ∀ n ∈ usedRules (abnfContext backSpec), ∀ kind,
      abnfHelperKind (abnfContext backSpec) n = .done (some kind) → kind = [] := by
    intro n hn kind hkind
    exact Option.some.inj (Run.done.inj (hkind.symm.trans (hrules n hn).2.2))
  constructor
  · exact fun name hname => hlossless name (hnamed name hname)
  · intro name hname raw hraw seq hseq el hel
    have hraws : ∀ name ∈ [['a'], ['b']], ∃ raw, abnfRawAlts (abnfContext backSpec) name = .done raw ∧
        ∀ seq ∈ raw, ∀ el ∈ seq, ∃ t, el = El.tok t := by
      simp only [List.forall_mem_cons]
      refine ⟨⟨[[.tok "#X".toList, .tok "#Z".toList], [.tok "#Y".toList, .tok "#Z".toList]],
        by decide +kernel, by simp⟩,
        ⟨[[.tok "#X".toList], [.tok "#Y".toList]], by decide +kernel, by simp⟩, by simp⟩
    obtain ⟨raw', hraw', hall⟩ := hraws name (hnamed name hname)
    cases hraw.symm.trans hraw'
    obtain ⟨t, rfl⟩ := hall seq hseq el hel
    exact .tok
  · exact .rule (by decide +kernel)
  · refine ⟨⟨by decide +kernel, fun n hn => ⟨(hrules n hn).1, fun kind h => ?_⟩⟩, by decide +kernel,
      fun n hn => (hrules n hn).2.1, fun n hn kind h hk => ?_⟩
    · rw [hkind n hn kind h]
      simp
    · rw [hkind n hn kind h] at hk
      rcases hk with hk | hk <;> exact absurd hk (by decide)

def backListing : Listing where
  rules := [(['a'], [[.ref ['b'], .tok "#Z".toList]]), (['b'], [[.tok "#X".toList], [.tok "#Y".toList]])]
  lifted := []

set_option maxRecDepth 20000 in
theorem abnfListing_backSpec : abnfListing backSpec 3 = .done backListing := by rfl

/-- `a = b %s"z"` and `b = %s"x" / %s"y"`. -/
theorem abnfFile_preserves_back :
    abnfFile backSpec 3 = .done "a = b %s\"z\"\nb = %s\"x\" / %s\"y\"\n".toList ∧
      ∃ g, TextOf (abnfContext backSpec) [] g "a = b %s\"z\"\nb = %s\"x\" / %s\"y\"\n".toList ∧
        g.map Prod.fst = [['a'], ['b']] ∧
        (grammarWords g ['a']).map some = (specWords (abnfContext backSpec) [['a'], ['b']] ['a']).map
          (writtenAs (abnfContext backSpec) []) := by
  have hout : abnfFile backSpec 3 = .done "a = b %s\"z\"\nb = %s\"x\" / %s\"y\"\n".toList := by decide +kernel
  refine ⟨hout, ?_⟩
  obtain ⟨names, l, g, hnames, hl, hordered, -, htext, hall⟩ := abnfFile_preserves readable_backSpec hout
  cases abnfNamed_backSpec.symm.trans hnames
  cases abnfListing_backSpec.symm.trans hl
  refine ⟨g, htext, ?_, ?_⟩
  · have hab : abnfOrdered (abnfContext backSpec) = .done [['a'], ['b']] := by decide +kernel
    exact Run.done.inj (hordered.symm.trans hab)
  · have hwords := hall [] ⟨by decide +kernel, fun p hp => by cases hp⟩ ['a'] List.mem_cons_self
    rwa [List.append_nil] at hwords

end TabnasAbnf.Render
