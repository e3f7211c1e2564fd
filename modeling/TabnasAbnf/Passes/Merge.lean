/-
Incremental alternatives: `mergeIncrementals` folds every `name =/ …` production into the latest base
production of its name before it, and moves its annotation there.
-/
import TabnasAbnf.Passes.Annotate

namespace TabnasAbnf.Passes

open TabnasAbnf.Base TabnasAbnf.Meta

variable {S : Type}

inductive MergeError
  | noBase (name : Text)
  | moreThanOne (name : Text)
  deriving DecidableEq, Repr

def MergeError.message : MergeError → String
  | .noBase name => "abnf: '" ++ String.ofList name ++ " =/ …' has no earlier '" ++ String.ofList name ++
      " = …' to extend"
  | .moreThanOne name => "abnf: rule '" ++ String.ofList name ++ "' has more than one value annotation. A rule " ++
      "builds one thing."

/-- The productions kept so far, and the latest of each name by its place among them. -/
structure Merging (S : Type) where
  out : List (Production S) := []
  byName : List (Text × Nat) := []

/-- The base with an incremental's alternatives and annotation. -/
def extended (p base : Production S) : Production S :=
  { base with alts := base.alts ++ p.alts, value := base.value.or p.value }

/-- A production rebuilt without its flag. -/
def clean (p : Production S) : Production S := { p with incremental := false }

def mergeOne (m : Merging S) (p : Production S) : Except MergeError (Merging S) :=
  if p.incremental then
    match m.byName.lookup p.name with
    | none => .error (.noBase p.name)
    | some i =>
      if p.value.isSome ∧ ((m.out[i]?.bind (·.value)).isSome) then .error (.moreThanOne p.name)
      else .ok { m with out := m.out.modify i (extended p) }
  else .ok { out := m.out ++ [clean p], byName := (p.name, m.out.length) :: m.byName }

def mergeIncrementals (prods : List (Production S)) : Except MergeError (List (Production S)) :=
  (prods.foldlM mergeOne {}).map (·.out)

inductive PassError
  | attach (e : AnnotationError)
  | merge (e : MergeError)
  deriving DecidableEq, Repr

/-- The two passes, in the order they run. -/
def attachAndMerge (claims : List Claim) (prods : List (Production S)) :
    Except PassError (List (Production S)) :=
  match attachClaims claims prods with
  | .error e => .error (.attach e)
  | .ok prods =>
    match mergeIncrementals prods with
    | .error e => .error (.merge e)
    | .ok out => .ok out

/-! ## The passes do not look at the sequences -/

section

variable {S' : Type} (f : S → S')

def Merging.map (m : Merging S) : Merging S' := { out := m.out.map (Production.map f), byName := m.byName }

theorem mergeOne_map (m : Merging S) (p : Production S) :
    mergeOne (m.map f) (p.map f) = (mergeOne m p).map (Merging.map f) := by
  unfold mergeOne
  simp only [show (p.map f).incremental = p.incremental from rfl, show (p.map f).name = p.name from rfl,
    show (p.map f).value = p.value from rfl, show (m.map f).byName = m.byName from rfl,
    show (m.map f).out = m.out.map (Production.map f) from rfl, List.getElem?_map, List.length_map]
  by_cases hp : p.incremental = true
  · rw [if_pos hp, if_pos hp]
    cases m.byName.lookup p.name with
    | none => rfl
    | some i =>
      have hv : ((m.out[i]?.map (Production.map f)).bind (·.value)) = m.out[i]?.bind (·.value) := by
        cases m.out[i]? <;> rfl
      simp only [hv]
      split
      · rfl
      · simp only [Except.map, Merging.map, Except.ok.injEq, Merging.mk.injEq, and_true]
        refine List.ext_getElem? fun j => ?_
        by_cases hji : i = j
        · subst hji
          simp only [List.getElem?_modify_eq, List.getElem?_map]
          cases m.out[i]? <;> simp [extended, Production.map]
        · simp [hji]
  · rw [if_neg hp, if_neg hp]
    simp [Except.map, Merging.map, clean, Production.map]

theorem mergeIncrementals_map (prods : List (Production S)) :
    mergeIncrementals (prods.map (Production.map f)) =
      (mergeIncrementals prods).map (List.map (Production.map f)) := by
  unfold mergeIncrementals
  rw [List.foldlM_map, show ({} : Merging S') = Merging.map f {} from rfl,
    foldlM_map (fun m p => mergeOne_map f m p)]
  cases prods.foldlM mergeOne {} <;> rfl

theorem attachAndMerge_map (claims : List Claim) (prods : List (Production S)) :
    attachAndMerge claims (prods.map (Production.map f)) =
      (attachAndMerge claims prods).map (List.map (Production.map f)) := by
  unfold attachAndMerge
  rw [attachClaims_map]
  cases attachClaims claims prods with
  | error e => rfl
  | ok prods =>
    simp only [Except.map]
    rw [mergeIncrementals_map]
    cases mergeIncrementals prods <;> rfl

end

end TabnasAbnf.Passes
