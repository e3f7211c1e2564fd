/-
The file read back. What is written for a rule is one line, so the lines are read one after another, each as the
production it was written for: the text as a whole is read as the productions and the lifted tokens, with the core
rules they name, exactly where each class, list of alternatives and count is written as what it is.
-/
import TabnasAbnf.Meta.Front
import TabnasAbnf.Render.Preserve

namespace TabnasAbnf.Render

open TabnasAbnf.Engine TabnasAbnf.Base TabnasAbnf.Meta TabnasAbnf.Passes

/-! ## Lines read back -/

/-- A production read back. -/
def BackRule (p : Text × List (List Tree)) (r : Production (List Ir)) : Prop :=
  r.name = p.1 ∧ r.incremental = false ∧ BackAlts p.2 r.alts

def BackRules (g : Productions) (rules : Rules (NumericElement Units) JsNum) : Prop := List.Forall₂ BackRule g rules

/-- A source is read as productions with a property, whatever engine runs the rule table, and the core rules that they
name are added to them. -/
def ReadsSource (src : Text) (Q : Rules (NumericElement Units) JsNum → Prop) : Prop :=
  ∃ ls, LexesLines src ls ∧ ∀ ts : List Tok, ts.map Tok.lex = ls → ∃ user, Q user ∧
    ∀ d₀ engine, (Ts.grammar Ts.numericOf).Implements .abnf d₀ engine → ∀ refsIn, CollectsRefs refsIn →
      ∃ core, LeastClosure (coreRules JsNum fromCodePoint) user core ∧
        Ts.parseSource refsIn engine src ts = .ok (user ++ core)

/-- Alternatives that are written as what they are. -/
def KeptAlts (alts : List (List Tree)) : Prop := alts ≠ [] ∧ Kept (nodesAlts alts)

/-- A production's line: its name, and a text that is read as its alternatives exactly where they are written as what
they are. -/
def LineReads (line : Text) (p : Text × List (List Tree)) : Prop :=
  ∃ s, line = p.1 ++ " = ".toList ++ s ∧ isRuleName p.1 = true ∧ Quiet s ∧
    ReadsIf DAlts altsIr s (BackAlts p.2) (KeptAlts p.2)

/-- The lines of a file, each with its line end. -/
def fileOf (lines : List Text) : Text := lines.flatMap (· ++ ['\n'])

theorem lexes_head {name : Text} (h : isRuleName name = true) (s : Text) :
    LexesTo (name ++ " = ".toList ++ s) s [.TX name, .DEF] := by
  have hdef : LexesTo (' ' :: (['='] ++ ' ' :: s)) s [.DEF] := .space (.token (longest_DEF (by simp)) (.space .nil))
  rw [List.append_assoc]
  refine .token (longest_name h fun c hc => ?_) hdef
  cases hc
  decide

/-- The scan for annotations passes over lines that are quiet. -/
theorem fileOf_clear {lines : List Text} (h : ∀ line ∈ lines, Quiet line) : Clear (fileOf lines) := by
  induction lines with
  | nil => exact .nil
  | cons line lines ih =>
    rw [List.forall_mem_cons] at h
    have hend : Clear ['\n'] := .of_plain (by decide)
    exact (h.1.clear.append hend).append (ih h.2)

theorem LineReads.quiet {line : Text} {p : Text × List (List Tree)} (h : LineReads line p) : Quiet line := by
  obtain ⟨s, rfl, hname, hs, -⟩ := h
  have heq : Quiet " = ".toList := ⟨by decide, .of_plain (by decide)⟩
  exact ((Quiet.of_bare (ruleName_bare hname)).append heq).append hs

theorem DProds.not_stuck {ts rest : List Tok} {ps : List CProd} (h : DProds ts rest ps) : ¬ Stuck ts := by
  obtain ⟨⟨hd, name, ts'⟩, hh⟩ := Option.isSome_iff_exists.1 h.head
  obtain ⟨d, rfl, hk⟩ := headOf_some hh
  rintro (hst | hst) <;>
  · rw [List.head?_cons, kindOf_some] at hst
    rw [hst] at hk
    cases hk

section

variable {lines : List Text} {g : Productions}

/-- A file's tokens are those of its lines, and derive its productions. -/
theorem lines_derive (h : List.Forall₂ LineReads lines g) :
    ∃ ls, LexesLines (fileOf lines) ls ∧ ∀ ts : List Tok, ts.map Tok.lex = ls →
      ∃ ps : List CProd, (ps = [] ∧ ts = [] ∨ DProds ts [] ps) ∧ (∀ p ∈ ps, p.head = .plain) ∧
        (∀ t ∈ ts, t.kind = .NV → Ts.readable t = true) ∧ ps.length = g.length ∧
          (BackRules g (ps.map (Ts.builder Ts.valueOf).prod) ↔ ∀ p ∈ g, KeptAlts p.2) := by
  induction h with
  | nil =>
    refine ⟨[], .nil, fun ts hts => ?_⟩
    rw [List.map_eq_nil_iff.1 hts]
    refine ⟨[], .inl ⟨rfl, rfl⟩, ?_, ?_, rfl, ?_⟩
    · exact fun p hp => absurd hp List.not_mem_nil
    · exact fun t ht => absurd ht List.not_mem_nil
    · exact iff_of_true .nil fun p hp => absurd hp List.not_mem_nil
  | @cons line p lines g hline _ ih =>
    obtain ⟨s, rfl, hname, -, ls₁, hp⟩ := hline
    obtain ⟨ls₂, hls₂, ih⟩ := ih
    have hfile : fileOf ((p.1 ++ " = ".toList ++ s) :: lines) = (p.1 ++ " = ".toList ++ s) ++ '\n' :: fileOf lines := by
      rw [fileOf, List.flatMap_cons, List.append_assoc]
      rfl
    rw [hfile]
    refine ⟨_, (((lexes_head hname s).lexes hp.1.lexes).lines hls₂).1, fun ts hts => ?_⟩
    obtain ⟨ts₁, ts₂, rfl, hts₁, hts₂⟩ := List.map_eq_append_iff.1 hts
    obtain ⟨name, ts₁, rfl, hlexn, hts₁⟩ := List.map_eq_cons_iff.1 hts₁
    obtain ⟨eq, ts₁, rfl, hlexe, hts₁⟩ := List.map_eq_cons_iff.1 hts₁
    obtain ⟨ps, hps, hplain, hnv, hlen, hback⟩ := ih ts₂ hts₂
    have hkn : name.kind = .TX := by rw [Tok.kind, hlexn]; rfl
    have hke : eq.kind = .DEF := by rw [Tok.kind, hlexe]; rfl
    have htext : name.text = p.1 := by rw [Tok.text, hlexn]; rfl
    have hrest : ¬ Stuck ts₂ := by
      rcases hps with ⟨-, rfl⟩ | hps
      · simp [Stuck]
      · exact DProds.not_stuck hps
    obtain ⟨hnv₁, as, has, hiff⟩ := hp.2 ts₁ ts₂ hts₁ hrest
    have hof : headOf (name :: eq :: (ts₁ ++ ts₂)) = some (.plain, name, ts₁ ++ ts₂) := by
      simp [headOf, headKind, hkn, hke]
    refine ⟨⟨.plain, name, as⟩ :: ps, .inr ?_, ?_, ?_, ?_, ?_⟩
    · rcases hps with ⟨rfl, rfl⟩ | hps
      · exact .one hof has
      · exact .cons hof has hps
    · exact List.forall_mem_cons.2 ⟨rfl, hplain⟩
    · intro t ht hk
      rcases List.mem_append.1 ht with ht | ht
      · rcases List.mem_cons.1 ht with rfl | ht
        · rw [hkn] at hk
          cases hk
        · rcases List.mem_cons.1 ht with rfl | ht
          · rw [hke] at hk
            cases hk
          · exact hnv₁ t ht hk
      · exact hnv t ht hk
    · rw [List.length_cons, List.length_cons, hlen]
    · have hrule : BackRule p ((Ts.builder Ts.valueOf).prod ⟨.plain, name, as⟩) ↔ KeptAlts p.2 :=
        ⟨fun hb => hiff.1 hb.2.2, fun hk => ⟨htext, rfl, hiff.2 hk⟩⟩
      rw [List.map_cons, BackRules, List.forall₂_cons, hrule, List.forall_mem_cons]
      exact and_congr_right fun _ => hback

/-- A file is read back as its productions exactly where each is written as what it is. -/
theorem file_reads (h : List.Forall₂ LineReads lines g) (hne : g ≠ []) :
    ReadsSource (fileOf lines) (BackRules g) ↔ ∀ p ∈ g, KeptAlts p.2 := by
  obtain ⟨ls, hls, hderive⟩ := lines_derive h
  have hclear : annotationComments utf16Encoding.width (fileOf lines) = [] := by
    refine annotationComments_clear (fileOf_clear fun line hline => ?_)
    obtain ⟨i, hi, rfl⟩ := List.mem_iff_getElem.1 hline
    exact (h.get hi (h.length_eq ▸ hi)).quiet
  -- what the tokens of the file are read as, whatever is known of the productions
  have hread : ∀ ts : List Tok, ts.map Tok.lex = ls →
      ∃ user : Rules (NumericElement Units) JsNum, user.length = g.length ∧ (BackRules g user ↔ ∀ p ∈ g, KeptAlts p.2) ∧
        ∀ d₀ engine, (Ts.grammar Ts.numericOf).Implements .abnf d₀ engine → ∀ refsIn, CollectsRefs refsIn →
          ∃ core, LeastClosure (coreRules JsNum fromCodePoint) user core ∧
            Ts.parseSource refsIn engine (fileOf lines) ts = .ok (user ++ core) := by
    intro ts hts
    obtain ⟨ps, hps, hplain, hnv, hlen, hback⟩ := hderive ts hts
    have hder : Derives ts ps := by
      refine hps.resolve_left fun hnil => hne ?_
      rw [← List.length_eq_zero_iff, ← hlen, hnil.1, List.length_nil]
    refine ⟨_, by rw [List.length_map, hlen], hback, fun d₀ engine he refsIn hrefs => ?_⟩
    exact hder.parseSource hplain hnv hclear he hrefs
  constructor
  · rintro ⟨ls', hls', hall⟩
    cases hls'.unique hls
    have hts : (ls.map fun l => ({ lex := l } : Tok)).map Tok.lex = ls := by simp [Function.comp_def]
    obtain ⟨user, hback, huser⟩ := hall _ hts
    obtain ⟨user', hlen, hiff, huser'⟩ := hread _ hts
    have hrefs : CollectsRefs fun (alt : List Ir) needed => needed ++ seqRefs alt := fun _ _ _ => List.mem_append
    obtain ⟨core, -, hok⟩ := huser 0 (Ts.numericEngine 0) (Grammar.engine_implements _ _ _ _) _ hrefs
    obtain ⟨core', -, hok'⟩ := huser' 0 (Ts.numericEngine 0) (Grammar.engine_implements _ _ _ _) _ hrefs
    have hsame : user = user' := by
      refine (List.append_inj (Except.ok.inj (hok.symm.trans hok')) ?_).1
      rw [hlen, List.Forall₂.length_eq hback]
    exact hiff.1 (hsame ▸ hback)
  · intro hk
    refine ⟨ls, hls, fun ts hts => ?_⟩
    obtain ⟨user, -, hiff, huser⟩ := hread ts hts
    exact ⟨user, hiff.2 hk, huser⟩

end

/-! ## The file -/

section

variable {cx : Context} {s : Text}

/-- A production that is written has a line that is read as it. -/
theorem ProductionLine.reads {line : Text} {p : Text × List (List Tree)} (h : ProductionLine line p)
    (hname : abnfLegalName p.1 = true) (hv : Valid (nodesAlts p.2)) : LineReads line p := by
  obtain ⟨s, hs, rfl⟩ := h
  obtain ⟨ss, hss, hs⟩ := Run.bind_eq_done hs
  cases hs
  have hread := alts_reads p.2 hv ss hss
  exact ⟨_, rfl, legal_ruleName hname, slashed_quiet hread.1, hread.slashed⟩

/-- A lifted token's production: its name, and its literal. -/
def LiftedAs (cx : Context) (t : Text) (p : Text × List (List Tree)) : Prop :=
  ∃ text cs, abnfToken cx t = .done (.lit text cs) ∧ p = (abnfBare t, [[.lit text cs]])

theorem keptAlts_lit (text : Text) (cs : Bool) : KeptAlts [[.lit text cs]] := by
  refine ⟨List.cons_ne_nil _ _, fun t ht => ?_⟩
  rw [show nodesAlts [[.lit text cs]] = [.lit text cs] from rfl, List.mem_singleton] at ht
  rw [ht]
  trivial

theorem TokenLine.reads {line t : Text} (h : TokenLine cx line t) (hname : abnfLegalName (abnfBare t) = true) :
    ∃ p, LiftedAs cx t p ∧ LineReads line p := by
  obtain ⟨text, cs, s, hinfo, hs, rfl⟩ := h
  have hlit := lit_reads hs
  refine ⟨_, ⟨text, cs, hinfo, rfl⟩, s, rfl, legal_ruleName hname, hlit.1.1.quiet, ?_⟩
  refine hlit.2.once.single.alternative.congr (fun as => ?_) ?_
  · rw [backAlts_cons]
    constructor
    · rintro ⟨es, as', rfl, hes, has⟩
      obtain ⟨e, es', rfl, he, hnil⟩ := backSeq_cons.1 hes
      rcases as' with _ | ⟨_, _⟩
      · rcases es' with _ | ⟨_, _⟩
        · exact ⟨_, rfl, e, rfl, he⟩
        · exact hnil.elim
      · exact has.elim
    · rintro ⟨_, rfl, e, rfl, he⟩
      exact ⟨_, [], rfl, ⟨he, trivial⟩, trivial⟩
  · exact iff_of_true (keptAlts_lit text cs) (kept_single.2 trivial)

/-- The lines of lifted tokens are read as their productions, each of which is written as what it is. -/
theorem tokenLines_read {lines lifted : List Text} (h : List.Forall₂ (TokenLine cx) lines lifted)
    (hname : ∀ t ∈ lifted, abnfLegalName (abnfBare t) = true) :
    ∃ tokens, List.Forall₂ (LiftedAs cx) lifted tokens ∧ List.Forall₂ LineReads lines tokens ∧
    ∀ p ∈ tokens, KeptAlts p.2 := by
  induction h with
  | nil => exact ⟨[], .nil, .nil, fun p hp => absurd hp List.not_mem_nil⟩
  | cons hline _ ih =>
    rw [List.forall_mem_cons] at hname
    obtain ⟨p, hp, hread⟩ := hline.reads hname.1
    obtain ⟨tokens, hlifted, hreads, hkept⟩ := ih hname.2
    refine ⟨p :: tokens, .cons hp hlifted, .cons hread hreads, List.forall_mem_cons.2 ⟨?_, hkept⟩⟩
    obtain ⟨text, cs, -, rfl⟩ := hp
    exact keptAlts_lit text cs

theorem join_lines {lines : List Text} (h : lines ≠ []) : stringJoin ['\n'] lines ++ ['\n'] = fileOf lines := by
  induction lines with
  | nil => exact absurd rfl h
  | cons line lines ih =>
    by_cases hne : lines = []
    · rw [hne, stringJoin, List.intercalate_singleton]
      simp [fileOf]
    · rw [stringJoin_cons _ _ hne, List.append_assoc, ih hne, fileOf, fileOf, List.flatMap_cons]

/-- The names that a text is written under are ones ABNF can spell. -/
theorem abnfFile_legal {spec : Json} {fuel : Nat} {out : Text} {l : Listing} (h : abnfFile spec fuel = .done out)
    (hl : abnfListing spec fuel = .done l) :
    l.rules ≠ [] ∧ (∀ rule ∈ l.rules, abnfLegalName rule.1 = true) ∧
      ∀ t ∈ l.lifted, abnfLegalName (abnfBare t) = true := by
  obtain ⟨_, hcheck, h⟩ := Run.bind_eq_done h
  obtain ⟨ordered, hordered, h⟩ := Run.bind_eq_done h
  obtain ⟨lifted, hlifted, h⟩ := Run.bind_eq_done h
  obtain ⟨_, hfree, h⟩ := Run.bind_eq_done h
  obtain ⟨direct, hdirect, h⟩ := Run.bind_eq_done h
  obtain ⟨cands, hcands, h⟩ := Run.bind_eq_done h
  obtain ⟨lines, hlines, -⟩ := Run.bind_eq_done h
  unfold abnfListing at hl
  simp only [hcheck, hordered, hlifted, hfree, hdirect, hcands, Run.done_bind] at hl
  obtain ⟨rules, hrules, hl⟩ := Run.bind_eq_done hl
  cases hl
  have hheads := (mem_written hrules).1
  refine ⟨?_, fun rule hrule => ?_, fun t ht => lifted_legal ((Run.mem_select hlifted).1 ht).2⟩
  · rintro rfl
    obtain ⟨names, -, hstart⟩ := Run.bind_eq_done hordered
    rw [← hheads] at hstart
    cases hstart
  · have hin : rule.1 ∈ ordered := hheads ▸ List.mem_map_of_mem hrule
    obtain ⟨i, hi, hget⟩ := List.mem_iff_getElem.1 hin
    have hall := Run.each_eq_done hlines
    have hline := hall.get hi (hall.length_eq ▸ hi)
    rw [List.get_eq_getElem, hget] at hline
    obtain ⟨head, hhead, -⟩ := Run.bind_eq_done hline
    exact (abnfRefText_legal hhead).1

end

/-- The text that is written is read back, by the whole front end, as the productions that it was written of and the
lifted tokens, with the core rules that they name, exactly where each list of alternatives holds one at least and each
class and count is written as what it is. -/
theorem abnfFile_exact {spec : Json} {fuel : Nat} {out : Text} (h : abnfFile spec fuel = .done out) :
    ∃ l g tokens, abnfListing spec fuel = .done l ∧ l.Trees (abnfContext spec) fuel g ∧
      List.Forall₂ (LiftedAs (abnfContext spec)) l.lifted tokens ∧
        (ReadsSource out (BackRules (g ++ tokens)) ↔ ∀ p ∈ g, KeptAlts p.2) := by
  obtain ⟨l, hl, lines, tokenLines, hlines, htokens, rfl⟩ := abnfFile_listing spec fuel out h
  obtain ⟨hne, hrules, hlifted⟩ := abnfFile_legal h hl
  obtain ⟨g, hlines, hg⟩ := ruleLines_productions hlines
  obtain ⟨tokens, hliftedAs, htokenReads, htokenKept⟩ := tokenLines_read htokens hlifted
  have hgne : g ≠ [] := by
    rintro rfl
    exact hne (List.length_eq_zero_iff.1 hg.length_eq)
  have hlinesNe : lines ++ tokenLines ≠ [] := by
    intro hnil
    refine hgne (List.length_eq_zero_iff.1 ?_)
    rw [← hlines.length_eq, (List.append_eq_nil_iff.1 hnil).1, List.length_nil]
  have hnames : ∀ p ∈ g, abnfLegalName p.1 = true := by
    intro p hp
    obtain ⟨i, hi, rfl⟩ := List.mem_iff_getElem.1 hp
    have hrule := hg.get (hg.length_eq ▸ hi) hi
    rw [List.get_eq_getElem, List.get_eq_getElem] at hrule
    rw [hrule.1]
    exact hrules _ (List.getElem_mem _)
  -- what is read or written as it is is of classes
  have hexact : (∀ p ∈ g, Valid (nodesAlts p.2)) →
      (ReadsSource (stringJoin ['\n'] (lines ++ tokenLines) ++ ['\n']) (BackRules (g ++ tokens)) ↔ ∀ p ∈ g,
        KeptAlts p.2) := by
    intro hv
    have hreads : List.Forall₂ LineReads lines g := by
      refine List.forall₂_iff_get.2 ⟨hlines.length_eq, fun i hi hi' => ?_⟩
      have hin : g.get ⟨i, hi'⟩ ∈ g := List.get_mem _ _
      exact (hlines.get hi hi').reads (hnames _ hin) (hv _ hin)
    rw [join_lines hlinesNe, file_reads (List.rel_append hreads htokenReads) (List.append_ne_nil_of_left_ne_nil hgne _)]
    exact ⟨fun hk p hp => hk p (List.mem_append_left _ hp),
      fun hk p hp => (List.mem_append.1 hp).elim (hk p) (htokenKept p)⟩
  refine ⟨l, g, tokens, hl, hg, hliftedAs, fun hread => ?_, fun hk => (hexact fun p hp => (hk p hp).2.valid).2 hk⟩
  refine (hexact fun p hp => ?_).1 hread
  obtain ⟨ls, -, hall⟩ := hread
  obtain ⟨user, hback, -⟩ := hall (ls.map fun l => { lex := l }) (by simp [Function.comp_def])
  obtain ⟨i, hi, rfl⟩ := List.mem_iff_getElem.1 hp
  have hi' : i < (g ++ tokens).length := by
    rw [List.length_append]
    omega
  have hrule := hback.get hi' (hback.length_eq ▸ hi')
  rw [List.get_eq_getElem, List.getElem_append_left hi] at hrule
  exact backAlts_valid _ _ hrule.2.2

set_option maxRecDepth 20000 in
/-- `a = b %s"z"` and `b = %s"x" / %s"y"`. -/
theorem abnfFile_exact_back :
    abnfFile backSpec 3 = .done "a = b %s\"z\"\nb = %s\"x\" / %s\"y\"\n".toList ∧
      ReadsSource "a = b %s\"z\"\nb = %s\"x\" / %s\"y\"\n".toList
        (BackRules [(['a'], [[.ref ['b'], .lit ['z'] true]]), (['b'], [[.lit ['x'] true], [.lit ['y'] true]])]) := by
  have hout : abnfFile backSpec 3 = .done "a = b %s\"z\"\nb = %s\"x\" / %s\"y\"\n".toList := by decide +kernel
  refine ⟨hout, ?_⟩
  obtain ⟨l, g, tokens, hl, hg, hlifted, hexact⟩ := abnfFile_exact hout
  cases abnfListing_backSpec.symm.trans hl
  cases hlifted
  have ha : treeAlts (abnfContext backSpec) [] 3 [[.ref ['b'], .tok "#Z".toList]] =
    .done [[.ref ['b'], .lit ['z'] true]] := by rfl
  have hb : treeAlts (abnfContext backSpec) [] 3 [[.tok "#X".toList], [.tok "#Y".toList]] =
      .done [[.lit ['x'] true], [.lit ['y'] true]] := by rfl
  rcases hg with _ | ⟨hrule, _ | ⟨hrule', _ | _⟩⟩
  rename_i p q
  obtain ⟨name, alts⟩ := p
  obtain ⟨name', alts'⟩ := q
  cases hrule.1
  cases hrule'.1
  cases ha.symm.trans hrule.2
  cases hb.symm.trans hrule'.2
  refine hexact.2 fun p hp => ?_
  have hkept : ∀ t : Tree, (∃ name, t = .ref name) ∨ (∃ text cs, t = .lit text cs) → t.Whole := by
    rintro _ (⟨name, rfl⟩ | ⟨text, cs, rfl⟩)
    · trivial
    · trivial
  rcases List.mem_pair.1 hp with rfl | rfl
  · refine ⟨List.cons_ne_nil _ _, fun t ht => hkept t ?_⟩
    rcases List.mem_pair.1 (show t ∈ [Tree.ref ['b'], .lit ['z'] true] from ht) with rfl | rfl
    · exact .inl ⟨_, rfl⟩
    · exact .inr ⟨_, _, rfl⟩
  · refine ⟨List.cons_ne_nil _ _, fun t ht => hkept t ?_⟩
    rcases List.mem_pair.1 (show t ∈ [Tree.lit ['x'] true, .lit ['y'] true] from ht) with rfl | rfl
    · exact .inr ⟨_, _, rfl⟩
    · exact .inr ⟨_, _, rfl⟩

end TabnasAbnf.Render
