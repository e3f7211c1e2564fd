/-
What each rule's alternates do on the tokens ahead. The facts are about `abnfRules`; the other two
tables pick the same alternates (`AbnfRules_pick`, `GRAMMAR_TEXT_pick`).
-/
import TabnasAbnf.Meta.Tables
import TabnasAbnf.Meta.Reading

namespace TabnasAbnf.Meta

open TabnasAbnf.Engine TabnasAbnf.Base

/-! ## Lookahead by kinds -/

/-- `fits` on the kinds of the next two tokens. -/
def fits2 (k₁ k₂ : Kind) : List (List Kind) → Bool
  | [] => true
  | [a] => a.contains k₁
  | a :: b :: _ => a.contains k₁ && b.contains k₂

theorem fits_eq_fits2 {s : List (List Kind)} (hs : s.length ≤ 2) (ts : List Tok) :
    fits kindOf s ts = fits2 (kindOf ts.head?) (kindOf ts.tail.head?) s := by
  match s, hs with
  | [], _ => rfl
  | [a], _ => simp [fits, fits2]
  | [a, b], _ => simp [fits, fits2]

/-- `pick` on the kinds of the next two tokens. -/
def pick2 (cond : CondRef → Bool) (alts : List MetaAlt) (k₁ k₂ : Kind) : Option MetaAlt :=
  alts.find? fun alt => fits2 k₁ k₂ alt.s && alt.c.all cond

theorem pick_eq_pick2 {cond : CondRef → Bool} {alts : List MetaAlt}
    (hs : ∀ alt ∈ alts, alt.s.length ≤ 2) (ts : List Tok) :
    pick kindOf cond alts ts = pick2 cond alts (kindOf ts.head?) (kindOf ts.tail.head?) := by
  unfold pick pick2
  induction alts with
  | nil => rfl
  | cons alt alts ih =>
    simp only [List.find?_cons, fits_eq_fits2 (hs alt (by simp))]
    rw [ih fun a ha => hs a (by simp [ha])]

theorem pick2_plain {alts : List MetaAlt} (hc : ∀ alt ∈ alts, alt.c = none) (cond : CondRef → Bool)
    (k₁ k₂ : Kind) : pick2 cond alts k₁ k₂ = pick2 (fun _ => true) alts k₁ k₂ := by
  unfold pick2
  induction alts with
  | nil => rfl
  | cons alt alts ih =>
    simp only [List.find?_cons, hc alt (by simp), Option.all_none]
    rw [ih fun a ha => hc a (by simp [ha])]

/-- Alternates without conditions that look at most two tokens ahead. -/
def Plain (alts : List MetaAlt) : Prop := ∀ alt ∈ alts, alt.s.length ≤ 2 ∧ alt.c = none

instance (alts : List MetaAlt) : Decidable (Plain alts) := List.decidableBAll _ _

theorem pick_plain {alts : List MetaAlt} (h : Plain alts) (cond : CondRef → Bool) (ts : List Tok) :
    pick kindOf cond alts ts =
      pick2 (fun _ => true) alts (kindOf ts.head?) (kindOf ts.tail.head?) := by
  rw [pick_eq_pick2 fun a ha => (h a ha).1, pick2_plain fun a ha => (h a ha).2]

theorem forall_kinds {p : Kind → Kind → Prop} (h : ∀ k₁ ∈ Kind.all, ∀ k₂ ∈ Kind.all, p k₁ k₂)
    (k₁ k₂ : Kind) : p k₁ k₂ := h k₁ k₁.mem_all k₂ k₂.mem_all

/-! ## The other tables -/

theorem GRAMMAR_TEXT_eq : Rust.GRAMMAR_TEXT = Ts.abnfRules := by
  funext r; cases r <;> rfl

/-- Go's `seq` tries `#PV #DEF` after the barewords in both phases; no token is both. -/
theorem AbnfRules_pick (r : RuleName) (ph : Phase) (cond : CondRef → Bool) (ts : List Tok) :
    pick kindOf cond ((Go.AbnfRules r).alts ph) ts = pick kindOf cond ((Ts.abnfRules r).alts ph) ts := by
  cases r with
  | abnf | prod | alts | elem | atom => rfl
  | seq =>
    have hg : Plain ((Go.AbnfRules .seq).alts ph) := by cases ph <;> decide
    have ht : Plain ((Ts.abnfRules .seq).alts ph) := by cases ph <;> decide
    rw [pick_plain hg, pick_plain ht]
    cases ph with
    | opening => rfl
    | closing =>
      have h : ∀ k₁ k₂, pick2 (fun _ => true) (Go.AbnfRules .seq).closes k₁ k₂ =
          pick2 (fun _ => true) (Ts.abnfRules .seq).closes k₁ k₂ := forall_kinds (by decide)
      exact h _ _

/-! ## What a rule asks for -/

/-- The repeat an action reads off the tokens its alternate matched. -/
def repsSeen : ActRef → List (Option Tok) → Option Reps
  | .elemRepBounded, [some n, _, some m, _] => some (.bounded n m)
  | .elemRepAtleast, [some n, _, _] => some (.atleast n)
  | .elemRepAtmost, [_, some m, _] => some (.atmost m)
  | .elemRepStar, _ => some .star
  | .elemRepExact, [some n, _] => some (.exact n)
  | _, _ => none

section

variable {V B W E : Type} {G : Grammar Kind RuleName CondRef ActRef Tok V B W E}

/-- The grammar picks the alternates `abnfRules` does. -/
def Tabled (G : Grammar Kind RuleName CondRef ActRef Tok V B W E) : Prop :=
  ∀ r ph cond ts, pick G.kind cond ((G.table r).alts ph) ts =
    pick kindOf cond ((Ts.abnfRules r).alts ph) ts

variable (hT : Tabled G) (ph : Phase) (inst : Inst RuleName Tok V B) (ts : List Tok)

include hT

theorem asks_plain {r : RuleName} (hn : inst.name = r) (h : Plain ((Ts.abnfRules r).alts ph)) :
    G.asks ph inst ts = (pick2 (fun _ => true) ((Ts.abnfRules r).alts ph)
      (kindOf ts.head?) (kindOf ts.tail.head?)).map Alt.ask := by
  unfold Grammar.asks
  rw [hn, hT, pick_plain h]

theorem asks_abnf_open (hn : inst.name = .abnf) :
    G.asks .opening inst ts =
      some (if kindOf ts.head? = .ZZ then { take := 1 } else { p := some .prod }) := by
  rw [asks_plain hT _ _ _ hn (by decide)]
  have h : ∀ k₁ k₂, (pick2 (fun _ => true) (Ts.abnfRules .abnf).opens k₁ k₂).map Alt.ask =
      some (if k₁ = .ZZ then { take := 1 } else { p := some .prod }) := forall_kinds (by decide)
  exact h _ _

theorem asks_abnf_close (hn : inst.name = .abnf) :
    G.asks .closing inst ts = if kindOf ts.head? = .ZZ then some { take := 1 } else none := by
  rw [asks_plain hT _ _ _ hn (by decide)]
  have h : ∀ k₁ k₂, (pick2 (fun _ => true) (Ts.abnfRules .abnf).closes k₁ k₂).map Alt.ask =
      if k₁ = .ZZ then some { take := 1 } else none := forall_kinds (by decide)
  exact h _ _

/-- The action on a head. -/
def headAct : HeadKind → ActRef
  | .plain => .prodName
  | .prose => .prodNameProse
  | .inc => .prodNameInc

theorem asks_prod_open (hn : inst.name = .prod) :
    G.asks .opening inst ts = (headKind (kindOf ts.head?) (kindOf ts.tail.head?)).map fun h =>
      { p := some .alts, a := some (headAct h, 2), take := 2 } := by
  rw [asks_plain hT _ _ _ hn (by decide)]
  have h : ∀ k₁ k₂, (pick2 (fun _ => true) (Ts.abnfRules .prod).opens k₁ k₂).map Alt.ask =
      (headKind k₁ k₂).map fun h => { p := some .alts, a := some (headAct h, 2), take := 2 } :=
    forall_kinds (by decide)
  exact h _ _

theorem asks_prod_close (hn : inst.name = .prod) :
    G.asks .closing inst ts =
      some (if (headKind (kindOf ts.head?) (kindOf ts.tail.head?)).isSome then { r := some .prod }
        else {}) := by
  rw [asks_plain hT _ _ _ hn (by decide)]
  have h : ∀ k₁ k₂, (pick2 (fun _ => true) (Ts.abnfRules .prod).closes k₁ k₂).map Alt.ask =
      some (if (headKind k₁ k₂).isSome then { r := some .prod } else {}) := forall_kinds (by decide)
  exact h _ _

theorem asks_alts_open (hn : inst.name = .alts) :
    G.asks .opening inst ts = some { p := some .seq } := by
  rw [asks_plain hT _ _ _ hn (by decide)]
  rfl

theorem asks_alts_close (hn : inst.name = .alts) :
    G.asks .closing inst ts =
      some (if kindOf ts.head? = .ALT then { p := some .seq, take := 1 } else {}) := by
  rw [asks_plain hT _ _ _ hn (by decide)]
  have h : ∀ k₁ k₂, (pick2 (fun _ => true) (Ts.abnfRules .alts).closes k₁ k₂).map Alt.ask =
      some (if k₁ = .ALT then { p := some .seq, take := 1 } else {}) := forall_kinds (by decide)
  exact h _ _

theorem asks_seq (hn : inst.name = .seq) :
    G.asks ph inst ts = some (if endsBefore ph ts then {} else { p := some .elem }) := by
  rw [asks_plain hT _ _ _ hn (by cases ph <;> decide)]
  have h : ∀ k₁ k₂, (pick2 (fun _ => true) ((Ts.abnfRules .seq).alts ph) k₁ k₂).map Alt.ask =
      some (if seqEnds ph k₁ k₂ then {} else { p := some .elem }) := by
    cases ph <;> exact forall_kinds (by decide)
  exact h _ _

theorem asks_elem_close (hn : inst.name = .elem) :
    G.asks .closing inst ts = some { a := some (.elemClose, 0) } := by
  rw [asks_plain hT _ _ _ hn (by decide)]
  rfl

/-- What `atom` asks for when tokens of these kinds are ahead. -/
def atomAsk : Kind → Kind → Option (Ask RuleName ActRef)
  | .SS, .ST => some { a := some (.atomSs, 2), take := 2 }
  | .SI, .ST => some { a := some (.atomSi, 2), take := 2 }
  | .ST, _ => some { a := some (.atomSt, 1), take := 1 }
  | .NV, _ => some { a := some (.atomNv, 1), take := 1 }
  | .PV, _ => some { a := some (.atomPv, 1), take := 1 }
  | .TX, _ => some { a := some (.atomTx, 1), take := 1 }
  | .LP, _ => some { p := some .alts, a := some (.atomLp, 1), take := 1 }
  | .OB, _ => some { p := some .alts, a := some (.atomOb, 1), take := 1 }
  | _, _ => none

theorem asks_atom_open (hn : inst.name = .atom) :
    G.asks .opening inst ts = atomAsk (kindOf ts.head?) (kindOf ts.tail.head?) := by
  rw [asks_plain hT _ _ _ hn (by decide)]
  have h : ∀ k₁ k₂, (pick2 (fun _ => true) (Ts.abnfRules .atom).opens k₁ k₂).map Alt.ask =
      atomAsk k₁ k₂ := forall_kinds (by decide)
  exact h _ _

/-- The action and the condition of a bracket's closer. -/
def closeAct : GroupKind → ActRef
  | .group => .atomGroupClose
  | .opt => .atomOptClose

def closeCond : GroupKind → CondRef
  | .group => .atomGroupC
  | .opt => .atomOptC

theorem asks_atom_close (hn : inst.name = .atom) (g : GroupKind)
    (hc : ∀ c, G.cond c inst = decide (c = closeCond g)) :
    G.asks .closing inst ts =
      some (if kindOf ts.head? = g.closer then { a := some (closeAct g, 1), take := 1 } else {}) := by
  unfold Grammar.asks
  rw [hn, hT, pick_eq_pick2 (by decide), show (G.cond · inst) = fun c => decide (c = closeCond g)
    from funext hc]
  have h : ∀ k₁ k₂, (pick2 (fun c => decide (c = closeCond g)) (Ts.abnfRules .atom).closes k₁ k₂).map
      Alt.ask = some (if k₁ = g.closer then { a := some (closeAct g, 1), take := 1 } else {}) := by
    cases g <;> exact forall_kinds (by decide)
  exact h _ _

theorem asks_atom_leave (hn : inst.name = .atom) (hc : ∀ c, G.cond c inst = false) :
    G.asks .closing inst ts = some {} := by
  unfold Grammar.asks
  rw [hn, hT, pick_eq_pick2 (by decide)]
  have hf : (G.cond · inst) = fun _ => false := funext hc
  have h : ∀ k₁ k₂, (pick2 (fun _ => false) (Ts.abnfRules .atom).closes k₁ k₂).map Alt.ask =
      some {} := forall_kinds (by decide)
  rw [hf]
  exact h _ _

/-- `elem` takes a repeat and runs its action, or takes nothing; then it pushes `atom`. -/
theorem asks_elem_open (hn : inst.name = .elem) :
    ∃ act take, G.asks .opening inst ts = some { p := some .atom, a := act, take } ∧
      ts.drop take = (prefixOf ts).2 ∧
      match act with
      | none => (prefixOf ts).1 = .once
      | some (a, m) => repsSeen a (ahead m ts) = some (prefixOf ts).1 := by
  unfold Grammar.asks
  rw [hn, hT]
  simp only [pick, Ts.abnfRules, RuleSpec.alts, List.find?_cons, Option.all_none, Bool.and_true]
  -- the alternates in the order of the table: the first that fits is the prefix read
  by_cases h₁ : fits kindOf [[.NUM], [.STAR], [.NUM], ATOM] ts = true
  · obtain ⟨n, _, rfl, -, h⟩ := fits_cons (by decide) h₁
    obtain ⟨x, _, rfl, -, h⟩ := fits_cons (by decide) h
    obtain ⟨m, _, rfl, -, h⟩ := fits_cons (by decide) h
    obtain ⟨a, ts, rfl, -, -⟩ := fits_cons (by decide) h
    exact ⟨some (.elemRepBounded, 4), 3, by simp [h₁, Alt.ask], by simp [prefixOf, h₁],
      by simp [prefixOf, h₁, ahead, repsSeen]⟩
  by_cases h₂ : fits kindOf [[.NUM], [.STAR], ATOM] ts = true
  · obtain ⟨n, _, rfl, -, h⟩ := fits_cons (by decide) h₂
    obtain ⟨x, _, rfl, -, h⟩ := fits_cons (by decide) h
    obtain ⟨a, ts, rfl, -, -⟩ := fits_cons (by decide) h
    exact ⟨some (.elemRepAtleast, 3), 2, by simp [h₁, h₂, Alt.ask], by simp [prefixOf, h₁, h₂],
      by simp [prefixOf, h₁, h₂, ahead, repsSeen]⟩
  by_cases h₃ : fits kindOf [[.STAR], [.NUM], ATOM] ts = true
  · obtain ⟨x, _, rfl, -, h⟩ := fits_cons (by decide) h₃
    obtain ⟨m, _, rfl, -, h⟩ := fits_cons (by decide) h
    obtain ⟨a, ts, rfl, -, -⟩ := fits_cons (by decide) h
    exact ⟨some (.elemRepAtmost, 3), 2, by simp [h₁, h₂, h₃, Alt.ask],
      by simp [prefixOf, h₁, h₂, h₃], by simp [prefixOf, h₁, h₂, h₃, ahead, repsSeen]⟩
  by_cases h₄ : fits kindOf [[.STAR], ATOM] ts = true
  · exact ⟨some (.elemRepStar, 2), 1, by simp [h₁, h₂, h₃, h₄, Alt.ask],
      by simp [prefixOf, h₁, h₂, h₃, h₄], by simp [prefixOf, h₁, h₂, h₃, h₄, repsSeen]⟩
  by_cases h₅ : fits kindOf [[.NUM], ATOM] ts = true
  · obtain ⟨n, _, rfl, -, h⟩ := fits_cons (by decide) h₅
    obtain ⟨a, ts, rfl, -, -⟩ := fits_cons (by decide) h
    exact ⟨some (.elemRepExact, 2), 1, by simp [h₁, h₂, h₃, h₄, h₅, Alt.ask],
      by simp [prefixOf, h₁, h₂, h₃, h₄, h₅], by simp [prefixOf, h₁, h₂, h₃, h₄, h₅, ahead, repsSeen]⟩
  · exact ⟨none, 0, by simp [h₁, h₂, h₃, h₄, h₅, Alt.ask], by simp [prefixOf, h₁, h₂, h₃, h₄, h₅],
      by simp [prefixOf, h₁, h₂, h₃, h₄, h₅]⟩

end

end TabnasAbnf.Meta
