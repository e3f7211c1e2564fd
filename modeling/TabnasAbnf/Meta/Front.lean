/-
The front end over a source: the parse, the annotations of the source's comments, the merge of incremental
alternatives, and the core rules.
-/
import TabnasAbnf.Meta.CoreRules
import TabnasAbnf.Meta.Source

namespace TabnasAbnf.Meta

open TabnasAbnf.Engine TabnasAbnf.Base TabnasAbnf.Passes

/-! ## What is done with the productions -/

namespace Ts

variable {ε : Type} (refsIn : List (Element (NumericElement Units) JsNum) → List Text → List Text)

/-- What `parseAbnf` does with the productions the engine built. -/
def finish (src : Text) : Check (NumericElement Units) JsNum ε := fun ps =>
  match attachValueAnnotations utf16Encoding.width src ps with
  | .error e => .error (.pass (.attach e))
  | .ok ps =>
    match mergeIncrementals ps with
    | .error e => .error (.pass (.merge e))
    | .ok merged => withCoreRules refsIn merged

/-- `parseAbnf` over a source and the tokens it is. -/
def parseSource (engine : Engine (NumericElement Units) NumericError) (src : Text) (ts : List Tok) :
    Except (Cause NumericError) (Rules (NumericElement Units) JsNum) :=
  parseAbnf engine (finish refsIn src) ts

variable {refsIn}

/-- A grammar without a hole has the least closure of the core rules added to it. -/
theorem withCoreRules_ok (hrefs : CollectsRefs refsIn) {user : Rules (NumericElement Units) JsNum}
    (h : rejectHoles user = .ok ()) : ∃ core, LeastClosure (coreRules JsNum fromCodePoint) user core ∧
      (withCoreRules refsIn user : Except (Cause ε) _) = .ok (user ++ core) := by
  have hcore := @leastClosure_saturate _ _ _ Prod.fst (fun entry needed => scanProds refsIn [entry.2] needed)
    (fun p => (p.name, p)) (fun entry => [entry.2]) _ user _ hrefs (coreRules_names fromCodePoint) (fun _ => rfl)
    (fun _ _ => rfl) fun entry needed n => mem_scanProds hrefs _ _ _
  refine ⟨_, hcore, ?_⟩
  unfold withCoreRules
  simp only [h, List.map_eq_flatMap]

end Ts

/-! ## Sources without annotations and incrementals -/

section

variable {S : Type} {ps : List (Production S)}

theorem attachComments_nil : attachComments [] ps = .ok ps := by
  unfold attachComments
  split <;> rfl

/-- Productions that extend none are kept as they are. -/
theorem mergeIncrementals_plain (h : ∀ p ∈ ps, p.incremental = false) : mergeIncrementals ps = .ok ps := by
  have hrun : ∀ m : Merging S, (ps.foldlM mergeOne m).map (·.out) = .ok (m.out ++ ps) := by
    induction ps with
    | nil =>
      intro m
      rw [List.append_nil]
      rfl
    | cons p ps ih =>
      intro m
      have hp := h p List.mem_cons_self
      have hclean : clean p = p := by
        rw [clean, ← hp]
      have hone : mergeOne m p = .ok { out := m.out ++ [p], byName := (p.name, m.out.length) :: m.byName } := by
        rw [mergeOne, hp, if_neg Bool.false_ne_true, hclean]
      rw [List.foldlM_cons, hone]
      refine (ih (fun q hq => h q (List.mem_cons_of_mem _ hq)) _).trans ?_
      rw [List.append_assoc, List.singleton_append]
  exact hrun {}

end

/-- A source of productions alone, without annotations, is read as those, with the core rules that they name. -/
theorem Derives.parseSource {ts : List Tok} {ps : List CProd} {src : Text} (h : Derives ts ps)
    (hplain : ∀ p ∈ ps, p.head = .plain) (hnv : ∀ t ∈ ts, t.kind = .NV → Ts.readable t = true)
    (hsrc : annotationComments utf16Encoding.width src = []) {d₀ : Nat}
    {engine : Ts.Engine (NumericElement Units) NumericError} (he : (Ts.grammar Ts.numericOf).Implements .abnf d₀ engine)
    {refsIn : List (Element (NumericElement Units) JsNum) → List Text → List Text} (hrefs : CollectsRefs refsIn) :
    ∃ core, LeastClosure (coreRules JsNum fromCodePoint) (ps.map (Ts.builder Ts.valueOf).prod) core ∧
      Ts.parseSource refsIn engine src ts = .ok (ps.map (Ts.builder Ts.valueOf).prod ++ core) := by
  obtain ⟨hread, hne, hwhole⟩ := h.reading
  have hx : (Meta.reading (fun t => !Ts.readable t) (fun _ => false) ts).res = .ok ps := by
    refine reading_stop_iff.2 ⟨by rw [hread], fun t ht => ?_⟩
    rw [hread] at ht
    obtain ⟨ht, hk⟩ := List.mem_filter.1 ht
    rw [hnv t ht (by simpa using hk)]
    rfl
  have hholes : rejectHoles (ps.map (Ts.builder Ts.valueOf).prod) = .ok () := by
    rw [rejectHoles_prods (Ts.builder_honest _)]
    have hnone : ps.find? (!·.whole) = none := by
      rw [List.find?_eq_none]
      intro p hp
      simp [hwhole p hp]
    rw [hnone]
  obtain ⟨core, hcore, hok⟩ := @Ts.withCoreRules_ok NumericError _ hrefs _ hholes
  refine ⟨core, hcore, ?_⟩
  rw [Ts.parseSource, Ts.parseAbnf_eq Ts.numericOf_refused Ts.numericOf_readable he, hx]
  simp only
  have hmerge : mergeIncrementals (ps.map (Ts.builder Ts.valueOf).prod) =
    .ok (ps.map (Ts.builder Ts.valueOf).prod) := by
    refine mergeIncrementals_plain fun q hq => ?_
    obtain ⟨p, hp, rfl⟩ := List.mem_map.1 hq
    show decide (p.head = .inc) = false
    rw [hplain p hp]
    rfl
  rw [checked, if_neg (by simpa using hne), Ts.finish, attachValueAnnotations, hsrc, attachComments_nil]
  simp only [hmerge, hok]

end TabnasAbnf.Meta
