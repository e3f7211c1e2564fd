/-
The grammar IR a port builds: productions, alternatives and elements. `α` is what the port makes of
a numeric value and `β` the type of its repeat bounds. An element the parser could not build is a
`hole`, and `rejectHoles` refuses the production that has one.
-/
import TabnasAbnf.Meta.Tree
import TabnasAbnf.Passes.Merge

namespace TabnasAbnf.Meta

open TabnasAbnf.Base TabnasAbnf.Passes

/-! ## Elements -/

inductive Element (α β : Type)
  | term (literal : Text) (caseSensitive : Bool) (sp : Option Span)
  | value (a : α)
  | prose (text : Text) (sp : Option Span)
  | ref (name : Text) (sp : Option Span)
  | group (alts : List (List (Element α β))) (sp : Option Span)
  | opt (inner : Element α β) (sp : Option Span)
  | star (inner : Element α β)
  | plus (inner : Element α β)
  | rep (min max : β) (inner : Element α β)
  | hole

abbrev Rules (α β : Type) := List (Production (List (Element α β)))

variable {α β : Type}

/-! ## Holes -/

mutual

/-- Whether a walk over an element meets a hole: `holeIn` goes into repeats, options and groups. -/
def Element.hasHole : Element α β → Bool
  | .opt inner _ | .star inner | .plus inner | .rep _ _ inner => inner.hasHole
  | .group alts _ => holeInAny alts
  | .hole => true
  | _ => false

def holeIn : List (Element α β) → Bool
  | [] => false
  | e :: es => e.hasHole || holeIn es

def holeInAny : List (List (Element α β)) → Bool
  | [] => false
  | s :: as => holeIn s || holeInAny as

end

/-- The first production with a hole is refused, by its name. -/
def rejectHoles : Rules α β → Except Text Unit
  | [] => .ok ()
  | p :: ps => if p.alts.any holeIn then .error p.name else rejectHoles ps

theorem any_holeIn (as : List (List (Element α β))) : as.any holeIn = holeInAny as := by
  induction as with
  | nil => rfl
  | cons s as ih => rw [List.any_cons, ih, holeInAny]

/-- Why a source is refused: by the engine at a token, by a numeric value, or by a check on what the
parse built. -/
inductive Cause (ε : Type)
  | engine (at_ : Option Tok)
  | depth
  | numeric (e : ε)
  | noProductions
  | pass (e : PassError)
  | malformed (name : Text)
  deriving DecidableEq

/-- What runs over the productions once the engine has built them. -/
abbrev Check (α β ε : Type) := Rules α β → Except (Cause ε) (Rules α β)

/-- `rejectHoles` as a check. -/
def holesRejected {ε : Type} : Check α β ε := fun ps =>
  match rejectHoles ps with
  | .error name => .error (.malformed name)
  | .ok () => .ok ps

/-- The annotations a source claims, the merge, and then `rejectHoles`. -/
def passes {ε : Type} (claims : List Claim) : Check α β ε := fun ps =>
  match attachAndMerge claims ps with
  | .error e => .error (.pass e)
  | .ok merged => holesRejected merged

/-- The empty-list check, then another. -/
def checked {ε : Type} (check : Check α β ε) : Check α β ε := fun ps =>
  if ps.isEmpty then .error .noProductions else check ps

/-! ## The IR of a tree -/

/-- The repeat bounds and the wrapping are the port's own; `num` is what it makes of a numeric
value. -/
structure Builder (α β : Type) where
  num : Tok → α
  wrap : Reps → Element α β → Element α β

variable (B : Builder α β)

def Builder.leaf : Leaf → Element α β
  | .ss p t => .term t.text true (spanTo (some p) (some t))
  | .si p t => .term t.text false (spanTo (some p) (some t))
  | .st t => .term t.text false (some (spanOf t))
  | .nv t => .value (B.num t)
  | .pv t => .prose (t.text.drop 1).dropLast (some (spanOf t))
  | .tx t => .ref t.text (some (spanOf t))

/-- The element a closed bracket is. -/
def bracket (g : GroupKind) (alts : List (List (Element α β))) (sp : Option Span) : Element α β :=
  match g with
  | .group => .group alts sp
  | .opt => .opt (.group alts sp) sp

namespace Builder

mutual

def atom : CAtom → Element α β
  | .leaf l => B.leaf l
  | .group g op cl as => bracket g (alts as) (spanTo (some op) (some cl))
  | .hole => .hole

def seq : CSeq → List (Element α β)
  | [] => []
  | (r, a) :: es => B.wrap r (atom a) :: seq es

def alts : CAlts → List (List (Element α β))
  | [] => []
  | s :: as => seq s :: alts as

end

end Builder

def Builder.prod (p : CProd) : Production (List (Element α β)) :=
  { name := p.name.text, alts := B.alts p.alts, incremental := p.head = .inc
    sp := some (spanOf p.name) }

@[simp] theorem Builder.seq_append (es es' : CSeq) : B.seq (es ++ es') = B.seq es ++ B.seq es' := by
  induction es with
  | nil => rfl
  | cons e es ih =>
    obtain ⟨r, a⟩ := e
    simp only [List.cons_append, Builder.seq, ih]

@[simp] theorem Builder.alts_append (as as' : CAlts) :
    B.alts (as ++ as') = B.alts as ++ B.alts as' := by
  induction as with
  | nil => rfl
  | cons s as ih => simp only [List.cons_append, Builder.alts, ih]

/-- A wrapping that adds no hole and hides none. -/
def Builder.Honest : Prop := ∀ r e, (B.wrap r e).hasHole = e.hasHole

variable {B}

theorem bracket_hasHole (g : GroupKind) (alts : List (List (Element α β))) (sp : Option Span) :
    (bracket g alts sp).hasHole = holeInAny alts := by cases g <;> rfl

mutual

/-- The IR of a tree has a hole exactly when the tree has. -/
theorem Builder.atom_hasHole (h : B.Honest) : (a : CAtom) → (B.atom a).hasHole = !a.whole
  | .leaf l => by cases l <;> rfl
  | .group g op cl as => by
    rw [Builder.atom, bracket_hasHole, CAtom.whole, Builder.alts_hasHole h as]
  | .hole => rfl

theorem Builder.seq_hasHole (h : B.Honest) : (es : CSeq) → holeIn (B.seq es) = !wholeSeq es
  | [] => rfl
  | (r, a) :: es => by
    rw [Builder.seq, holeIn, wholeSeq, h, Builder.atom_hasHole h a, Builder.seq_hasHole h es,
      Bool.not_and]

theorem Builder.alts_hasHole (h : B.Honest) : (as : CAlts) → holeInAny (B.alts as) = !wholeAlts as
  | [] => rfl
  | s :: as => by
    rw [Builder.alts, holeInAny, wholeAlts, Builder.seq_hasHole h s, Builder.alts_hasHole h as,
      Bool.not_and]

end

/-- Holes are refused by the name of the first production that has one. -/
theorem rejectHoles_prods (h : B.Honest) (ps : List CProd) :
    rejectHoles (ps.map B.prod) =
      match ps.find? (!·.whole) with
      | some p => .error p.name.text
      | none => .ok () := by
  induction ps with
  | nil => rfl
  | cons p ps ih =>
    rw [List.map_cons, rejectHoles, any_holeIn, show (B.prod p).alts = B.alts p.alts from rfl,
      Builder.alts_hasHole h, List.find?_cons]
    cases hw : p.whole with
    | true => simp [show wholeAlts p.alts = true from hw, ih]
    | false => simp [show wholeAlts p.alts = false from hw, Builder.prod]

/-- Whether the IR of a tree passes is a fact about the tree. -/
theorem holesRejected_prods {ε : Type} (h : B.Honest) (ps : List CProd) :
    checked holesRejected (ps.map B.prod) =
      if ps = [] then .error (.noProductions : Cause ε)
      else
        match ps.find? (!·.whole) with
        | some p => .error (.malformed p.name.text)
        | none => .ok (ps.map B.prod) := by
  unfold checked holesRejected
  rw [rejectHoles_prods h]
  cases ps with
  | nil => rfl
  | cons p ps =>
    simp only [List.map_cons, List.isEmpty_cons, reduceCtorEq]
    cases (p :: ps).find? (!·.whole) <;> rfl

/-! ## The cause of a refusal, read off a tree -/

/-- Why an outcome is none. -/
def cause {ε X : Type} : Except (Cause ε) X → Option (Cause ε)
  | .error c => some c
  | .ok _ => none

/-- A tree's production, each sequence as whether it has a hole. -/
def CProd.holes (p : CProd) : Production Bool :=
  { name := p.name.text, alts := p.alts.map fun s => !wholeSeq s, incremental := p.head = .inc
    sp := some (spanOf p.name) }

theorem Builder.prod_holes (h : B.Honest) (p : CProd) : (B.prod p).map holeIn = p.holes := by
  have halts : ∀ as : CAlts, (B.alts as).map holeIn = as.map fun s => !wholeSeq s := by
    intro as
    induction as with
    | nil => rfl
    | cons s as ih => rw [Builder.alts, List.map_cons, List.map_cons, ih, Builder.seq_hasHole h]
  simp only [Production.map, Builder.prod, CProd.holes, halts]

/-- The name of the first production with a hole. -/
def firstHole (ps : List (Production Bool)) : Option Text := (ps.find? fun p => p.alts.any id).map (·.name)

theorem rejectHoles_eq (ps : Rules α β) :
    rejectHoles ps =
      match firstHole (ps.map (Production.map holeIn)) with
      | some name => .error name
      | none => .ok () := by
  induction ps with
  | nil => rfl
  | cons p ps ih =>
    have hany : (p.map holeIn).alts.any id = p.alts.any holeIn := by
      simp only [Production.map, List.any_map]
      rfl
    rw [rejectHoles, List.map_cons, firstHole, List.find?_cons, hany]
    cases p.alts.any holeIn with
    | true => rfl
    | false => rw [if_neg Bool.false_ne_true, ih]; rfl

/-- The first of the causes after the engine: no productions, then an annotation or the merge, then a
malformed production. -/
def passesCause (ε : Type) (claims : List Claim) (ps : List CProd) : Option (Cause ε) :=
  if ps = [] then some .noProductions
  else
    match attachAndMerge claims (ps.map CProd.holes) with
    | .error e => some (.pass e)
    | .ok merged => (firstHole merged).map .malformed

theorem passes_prods {ε : Type} (h : B.Honest) (claims : List Claim) (ps : List CProd) :
    cause (checked (passes (ε := ε) claims) (ps.map B.prod)) = passesCause ε claims ps := by
  have hholes : (ps.map B.prod).map (Production.map holeIn) = ps.map CProd.holes := by
    rw [List.map_map]
    exact List.map_congr_left fun p _ => B.prod_holes h p
  unfold checked passesCause passes holesRejected
  rw [← hholes, attachAndMerge_map]
  cases ps with
  | nil => rfl
  | cons p ps =>
    simp only [List.map_cons, List.isEmpty_cons, reduceCtorEq, Bool.false_eq_true, if_false]
    cases attachAndMerge claims (B.prod p :: ps.map B.prod) with
    | error e => rfl
    | ok merged =>
      simp only [Except.map, rejectHoles_eq]
      cases firstHole (merged.map (Production.map holeIn)) <;> rfl

end TabnasAbnf.Meta
