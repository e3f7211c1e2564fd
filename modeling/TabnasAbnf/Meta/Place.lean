/-
Places. Each port counts the places of a source, and the columns of its lines, in code units of its own. The rule
table looks at the lexemes of the tokens alone, so what is read of tokens in one count is what is read of them in
another, place for place.
-/
import TabnasAbnf.Meta.CoreRules
import TabnasAbnf.Meta.Ports
import TabnasAbnf.Passes.Places

namespace TabnasAbnf.Meta

open TabnasAbnf.Engine TabnasAbnf.Base TabnasAbnf.Passes

/-! ## Counts of places -/

/-- A count of a source's places and of the columns of its rows. -/
structure Places where
  at_ : Nat → Nat
  col : Nat → Nat → Nat
  count : Count at_

variable (P : Places)

def Span.place (sp : Span) : Span := ⟨P.at_ sp.s, P.at_ sp.e, sp.r, P.col sp.r sp.c⟩

/-- A token of the same lexeme, by another count. -/
def Tok.place (t : Tok) : Tok :=
  { lex := t.lex, sI := P.at_ t.sI, len := P.at_ (t.sI + t.len) - P.at_ t.sI, rI := t.rI, cI := P.col t.rI t.cI }

@[simp] theorem Tok.place_kind (t : Tok) : (t.place P).kind = t.kind := rfl

@[simp] theorem Tok.place_text (t : Tok) : (t.place P).text = t.text := rfl

@[simp] theorem spanOf_place (t : Tok) : spanOf (t.place P) = (spanOf t).place P := by
  have hle : P.at_ t.sI ≤ P.at_ (t.sI + t.len) := P.count.mono.monotone (Nat.le_add_right _ _)
  simp only [spanOf, Tok.place, Span.place, Span.mk.injEq, and_true, true_and]
  omega

theorem spanTo_place (a b : Tok) :
    spanTo (some (a.place P)) (some (b.place P)) = (spanTo (some a) (some b)).map (Span.place P) := by
  simp only [spanTo, spanOf_place, Option.map_some]
  rfl

/-! ## Trees -/

def Reps.place : Reps → Reps
  | .once => .once
  | .bounded n m => .bounded (n.place P) (m.place P)
  | .atleast n => .atleast (n.place P)
  | .atmost m => .atmost (m.place P)
  | .star => .star
  | .exact n => .exact (n.place P)

def Leaf.place : Leaf → Leaf
  | .ss p t => .ss (p.place P) (t.place P)
  | .si p t => .si (p.place P) (t.place P)
  | .st t => .st (t.place P)
  | .nv t => .nv (t.place P)
  | .pv t => .pv (t.place P)
  | .tx t => .tx (t.place P)

mutual

def CAtom.place : CAtom → CAtom
  | .leaf l => .leaf (l.place P)
  | .group k op cl as => .group k (op.place P) (cl.place P) (placeAlts as)
  | .hole => .hole

def placeSeq : CSeq → CSeq
  | [] => []
  | (r, a) :: es => (r.place P, a.place) :: placeSeq es

def placeAlts : CAlts → CAlts
  | [] => []
  | s :: as => placeSeq s :: placeAlts as

end

def CProd.place (p : CProd) : CProd := ⟨p.head, p.name.place P, placeAlts P p.alts⟩

def Halt.place : Halt → Halt
  | .refused t => .refused (t.place P)
  | .deep => .deep
  | .unexpected at_ => .unexpected (at_.map (Tok.place P))
  | .spent => .spent

/-- A reading by another count, `g` being what is read. -/
def Reading.place {α β : Type} (g : α → β) (x : Reading α) : Reading β :=
  ⟨x.log.map (Tok.place P), (x.res.mapError (Halt.place P)).map g⟩

namespace Reading

variable {α β γ δ : Type} {P} {g : α → β}

theorem place_bind {h : γ → δ} {x : Reading α} {f : α → Reading γ} {f' : β → Reading δ}
    (hf : ∀ a, (f a).place P h = f' (g a)) : (x.bind f).place P h = (x.place P g).bind f' := by
  obtain ⟨log, res⟩ := x
  cases res with
  | error e => rfl
  | ok a =>
    have ha : f' (g a) = (f a).place P h := (hf a).symm
    simp only [Reading.bind, place, Except.mapError, Except.map, ha, List.map_append]

theorem place_map {h : γ → δ} {x : Reading α} {f : α → γ} {f' : β → δ} (hf : ∀ a, h (f a) = f' (g a)) :
    (x.map f).place P h = (x.place P g).map f' :=
  place_bind fun a => by rw [← hf]; rfl

end Reading

/-! ## Readings -/

theorem fits_place (s : List (List Kind)) (ts : List Tok) :
    fits kindOf s (ts.map (Tok.place P)) = fits kindOf s ts := by
  induction s generalizing ts with
  | nil => rfl
  | cons slot s ih =>
    obtain _ | ⟨t, ts⟩ := ts
    · rfl
    · exact congrArg (slot.contains t.kind && ·) (ih ts)

theorem prefixOf_place (ts : List Tok) :
    prefixOf (ts.map (Tok.place P)) = ((prefixOf ts).1.place P, (prefixOf ts).2.map (Tok.place P)) := by
  unfold prefixOf
  simp only [fits_place]
  rcases ts with _ | ⟨a, _ | ⟨b, _ | ⟨c, ts⟩⟩⟩
  all_goals
    split_ifs
    all_goals rfl

theorem endsBefore_place (ph : Phase) (ts : List Tok) : endsBefore ph (ts.map (Tok.place P)) = endsBefore ph ts := by
  rcases ts with _ | ⟨a, _ | ⟨b, ts⟩⟩ <;> rfl

theorem headOf_place (ts : List Tok) :
    headOf (ts.map (Tok.place P)) = (headOf ts).map fun h => (h.1, h.2.1.place P, h.2.2.map (Tok.place P)) := by
  rcases ts with _ | ⟨a, _ | ⟨b, ts⟩⟩
  · rfl
  · rfl
  · simp only [List.map_cons, headOf, Tok.place_kind, Option.map_map]
    rfl

theorem leafOf_place (ts : List Tok) :
    leafOf (ts.map (Tok.place P)) = (leafOf ts).map fun l => (l.1.place P, l.2.map (Tok.place P)) := by
  obtain _ | ⟨t, ts⟩ := ts
  · rfl
  · simp only [List.map_cons, leafOf, Tok.place_kind]
    cases t.kind
    all_goals try rfl
    -- a string after its `%s` or `%i`
    all_goals
      obtain _ | ⟨t', ts⟩ := ts
      · rfl
      · by_cases ht : t'.kind = .ST
        · simp only [List.map_cons, if_pos ht, if_pos (show (t'.place P).kind = .ST from ht)]
          rfl
        · simp only [List.map_cons, if_neg ht, if_neg (show (t'.place P).kind ≠ .ST from ht)]
          rfl

theorem closeAtom_place (g : GroupKind) (op : Tok) (as : CAlts) (ts : List Tok) :
    closeAtom g (op.place P) (placeAlts P as) (ts.map (Tok.place P)) =
      ((closeAtom g op as ts).1.place P, (closeAtom g op as ts).2.map (Tok.place P)) := by
  obtain _ | ⟨t, ts⟩ := ts
  · rfl
  · rw [List.map_cons, closeAtom, closeAtom]
    by_cases ht : t.kind = g.closer
    · rw [if_pos ht, if_pos (show (t.place P).kind = g.closer from ht)]
      rfl
    · rw [if_neg ht, if_neg (show (t.place P).kind ≠ g.closer from ht)]
      rfl

section

variable {P} {stop : Tok → Bool} {deep : Nat → Bool} (hstop : ∀ t : Tok, stop (t.place P) = stop t)

include hstop

/-- Each rule reads, by another count, what it reads. -/
theorem read_place (n : Nat) :
    (∀ k ts, readAlts stop deep n k (ts.map (Tok.place P)) =
      (readAlts stop deep n k ts).place P fun r => (placeAlts P r.1, r.2.map (Tok.place P))) ∧
    (∀ k ph ts, readSeq stop deep n k ph (ts.map (Tok.place P)) =
      (readSeq stop deep n k ph ts).place P fun r => (placeSeq P r.1, r.2.map (Tok.place P))) ∧
    (∀ k ts, readAtom stop deep n k (ts.map (Tok.place P)) =
      (readAtom stop deep n k ts).place P fun r => (r.1.place P, r.2.map (Tok.place P))) := by
  induction n with
  | zero => exact ⟨fun _ _ => rfl, fun _ _ _ => rfl, fun _ _ => rfl⟩
  | succ n ih =>
    obtain ⟨ihAlts, ihSeq, ihAtom⟩ := ih
    refine ⟨fun k ts => ?_, fun k ph ts => ?_, fun k ts => ?_⟩
    · rw [readAlts, readAlts, ihSeq]
      refine (Reading.place_bind fun r => ?_).symm
      obtain ⟨s, _ | ⟨t, ts₁⟩⟩ := r
      · rfl
      · by_cases ht : t.kind = .ALT
        · simp only [List.map_cons, if_pos ht, if_pos (show (t.place P).kind = .ALT from ht), ihAlts]
          exact Reading.place_map fun _ => rfl
        · simp only [List.map_cons, if_neg ht, if_neg (show (t.place P).kind ≠ .ALT from ht)]
          rfl
    · rw [readSeq, readSeq, endsBefore_place, prefixOf_place]
      split
      · rfl
      · rw [ihAtom]
        refine (Reading.place_bind fun r => ?_).symm
        simp only [ihSeq]
        exact Reading.place_map fun _ => rfl
    · obtain _ | ⟨t, ts⟩ := ts
      · rfl
      have hleaf := leafOf_place P (t :: ts)
      rw [List.map_cons] at hleaf ⊢
      rw [readAtom, readAtom, Tok.place_kind, hleaf]
      split
      · unfold decode
        rw [hstop]
        split <;> rfl
      · cases opensWith t.kind with
        | some g =>
          simp only
          split
          · rfl
          · rw [ihAlts]
            exact (Reading.place_map fun r => (closeAtom_place P g t r.1 r.2).symm).symm
        | none => cases leafOf (t :: ts) <;> rfl

theorem readProds_place (n : Nat) (ts : List Tok) : readProds stop deep n (ts.map (Tok.place P)) =
    (readProds stop deep n ts).place P fun r => (r.1.map (CProd.place P), r.2.map (Tok.place P)) := by
  induction n generalizing ts with
  | zero => rfl
  | succ n ih =>
    rw [readProds, readProds, headOf_place]
    cases headOf ts with
    | none =>
      rw [List.head?_map]
      rfl
    | some h =>
      obtain ⟨h, name, ts₁⟩ := h
      simp only [Option.map_some]
      rw [(read_place hstop n).1]
      refine (Reading.place_bind fun r => ?_).symm
      simp only [headOf_place, Option.isSome_map]
      split
      · rw [ih]
        exact Reading.place_map fun _ => rfl
      · rfl

theorem reading_place (ts : List Tok) :
    reading stop deep (ts.map (Tok.place P)) = (reading stop deep ts).place P (List.map (CProd.place P)) := by
  unfold reading
  rw [fuelFor, List.length_map]
  obtain _ | ⟨t, ts⟩ := ts
  · rfl
  · have hprods := @readProds_place P stop deep hstop (fuelFor (t :: ts)) (t :: ts)
    rw [List.map_cons] at hprods ⊢
    rw [readTop, readTop, ← fuelFor, hprods]
    refine (Reading.place_bind fun r => ?_).symm
    obtain ⟨ps, _ | ⟨t', rest⟩⟩ := r <;> rfl

end

theorem shallow_place (deep : Nat → Bool) (k : Nat) (ts : List Tok) :
    shallow deep k (ts.map (Tok.place P)) = shallow deep k ts := by
  induction ts generalizing k with
  | nil => rfl
  | cons t ts ih =>
    rw [List.map_cons, shallow, shallow, ih, ih, ih]
    rfl

/-! ## Elements -/

section

variable {α β γ δ : Type} (f : α → γ) (g : β → δ) (h : Span → Span)

mutual

/-- An element with its values, its bounds and its spans changed. -/
def Element.change : Element α β → Element γ δ
  | .term literal caseSensitive sp => .term literal caseSensitive (sp.map h)
  | .value a => .value (f a)
  | .prose text sp => .prose text (sp.map h)
  | .ref name sp => .ref name (sp.map h)
  | .group alts sp => .group (changeAlts alts) (sp.map h)
  | .opt inner sp => .opt inner.change (sp.map h)
  | .star inner => .star inner.change
  | .plus inner => .plus inner.change
  | .rep min max inner => .rep (g min) (g max) inner.change
  | .hole => .hole

def changeSeq : List (Element α β) → List (Element γ δ)
  | [] => []
  | e :: es => e.change :: changeSeq es

def changeAlts : List (List (Element α β)) → List (List (Element γ δ))
  | [] => []
  | s :: as => changeSeq s :: changeAlts as

end

theorem changeAlts_eq (as : List (List (Element α β))) : changeAlts f g h as = as.map (changeSeq f g h) := by
  induction as with
  | nil => rfl
  | cons s as ih => rw [changeAlts, List.map_cons, ih]

def changeRules : Rules α β → Rules γ δ := List.map (Production.change (changeSeq f g h) h)

mutual

theorem Element.map_eq_change : (e : Element α β) → e.map f g = e.change f g id
  | .term _ _ sp | .prose _ sp | .ref _ sp => by simp only [Element.map, Element.change, Option.map_id_apply]
  | .value _ | .hole => rfl
  | .group alts sp => by rw [Element.map, Element.change, mapAlts_eq_change alts, Option.map_id_apply]
  | .opt inner sp => by rw [Element.map, Element.change, inner.map_eq_change, Option.map_id_apply]
  | .star inner | .plus inner | .rep _ _ inner => by simp only [Element.map, Element.change, inner.map_eq_change]

theorem mapSeq_eq_change : (es : List (Element α β)) → mapSeq f g es = changeSeq f g id es
  | [] => rfl
  | e :: es => by rw [mapSeq, changeSeq, e.map_eq_change, mapSeq_eq_change es]

theorem mapAlts_eq_change : (as : List (List (Element α β))) → mapAlts f g as = changeAlts f g id as
  | [] => rfl
  | s :: as => by rw [mapAlts, changeAlts, mapSeq_eq_change s, mapAlts_eq_change as]

end

theorem mapRules_eq_change (ps : Rules α β) : mapRules f g ps = changeRules f g id ps := by
  refine List.map_congr_left fun p _ => ?_
  simp only [Production.map, Production.change, funext (mapSeq_eq_change f g), Option.map_id_apply]

mutual

theorem Element.change_hasHole : (e : Element α β) → (e.change f g h).hasHole = e.hasHole
  | .term .. | .value _ | .prose .. | .ref .. | .hole => rfl
  | .group alts _ => changeAlts_holeIn alts
  | .opt inner _ | .star inner | .plus inner | .rep _ _ inner => inner.change_hasHole

theorem changeSeq_holeIn : (es : List (Element α β)) → holeIn (changeSeq f g h es) = holeIn es
  | [] => rfl
  | e :: es => by rw [changeSeq, holeIn, holeIn, e.change_hasHole, changeSeq_holeIn es]

theorem changeAlts_holeIn : (as : List (List (Element α β))) → holeInAny (changeAlts f g h as) = holeInAny as
  | [] => rfl
  | s :: as => by rw [changeAlts, holeInAny, holeInAny, changeSeq_holeIn s, changeAlts_holeIn as]

end

mutual

theorem Element.change_refs : (e : Element α β) → (e.change f g h).refs = e.refs
  | .term .. | .value _ | .prose .. | .ref .. | .hole => rfl
  | .group alts _ => changeAlts_refs alts
  | .opt inner _ | .star inner | .plus inner | .rep _ _ inner => inner.change_refs

theorem changeSeq_refs : (es : List (Element α β)) → seqRefs (changeSeq f g h es) = seqRefs es
  | [] => rfl
  | e :: es => by rw [changeSeq, seqRefs, seqRefs, e.change_refs, changeSeq_refs es]

theorem changeAlts_refs : (as : List (List (Element α β))) → altsRefs (changeAlts f g h as) = altsRefs as
  | [] => rfl
  | s :: as => by rw [changeAlts, altsRefs, altsRefs, changeSeq_refs s, changeAlts_refs as]

end

/-- Where each sequence has a hole as before, the same production is refused. -/
theorem rejectHoles_same {F : List (Element α β) → List (Element γ δ)} (hF : ∀ s, holeIn (F s) = holeIn s)
    (ps : Rules α β) : rejectHoles (ps.map (Production.change F h)) = rejectHoles ps := by
  induction ps with
  | nil => rfl
  | cons p ps ih =>
    have hany : (p.change F h).alts.any holeIn = p.alts.any holeIn := by
      simp only [Production.change, List.any_map, Function.comp_def, hF]
    rw [List.map_cons, rejectHoles, rejectHoles, hany, ih]
    rfl

end

section

variable {L β : Type}

def NumericElement.place : NumericElement L → NumericElement L
  | .term literal sp => .term literal (sp.map (Span.place P))
  | .regex lo hi sp => .regex lo hi (sp.map (Span.place P))

/-- An element with every span in it by another count. -/
def Element.place (e : Element (NumericElement L) β) : Element (NumericElement L) β :=
  e.change (NumericElement.place P) id (Span.place P)

def placeRules : Rules (NumericElement L) β → Rules (NumericElement L) β :=
  changeRules (NumericElement.place P) id (Span.place P)

theorem bracket_place (k : GroupKind) (alts : List (List (Element (NumericElement L) β))) (sp : Option Span) :
    (bracket k alts sp).place P =
      bracket k (changeAlts (NumericElement.place P) id (Span.place P) alts) (sp.map (Span.place P)) := by
  cases k <;> rfl

/-! ## The elements of a tree -/

/-- A builder that makes of tokens by another count what it makes of the tokens, by that count. -/
structure Builder.Placed (B : Builder (NumericElement L) β) : Prop where
  num : ∀ t : Tok, B.num (t.place P) = (B.num t).place P
  wrap : ∀ r e, B.wrap (r.place P) (e.place P) = (B.wrap r e).place P

namespace Builder.Placed

variable {P} {B : Builder (NumericElement L) β}

mutual

theorem atom (hB : B.Placed P) : (a : CAtom) → B.atom (a.place P) = (B.atom a).place P
  | .leaf (.nv t) => congrArg Element.value (hB.num t)
  | .leaf (.ss p t) | .leaf (.si p t) => congrArg (Element.term t.text _) (spanTo_place P p t)
  | .leaf (.st t) | .leaf (.pv t) | .leaf (.tx t) => by
    simp only [CAtom.place, Leaf.place, Builder.atom, Builder.leaf, Element.place, Element.change, Tok.place_text,
      spanOf_place, Option.map_some]
  | .group k op cl as => by
    rw [CAtom.place, Builder.atom, Builder.atom, alts hB as, spanTo_place, bracket_place]
  | .hole => rfl

theorem seq (hB : B.Placed P) : (es : CSeq) →
    B.seq (placeSeq P es) = changeSeq (NumericElement.place P) id (Span.place P) (B.seq es)
  | [] => rfl
  | (r, a) :: es => by
    rw [placeSeq, Builder.seq, Builder.seq, changeSeq, atom hB a, hB.wrap, seq hB es]
    rfl

theorem alts (hB : B.Placed P) : (as : CAlts) →
    B.alts (placeAlts P as) = changeAlts (NumericElement.place P) id (Span.place P) (B.alts as)
  | [] => rfl
  | s :: as => by rw [placeAlts, Builder.alts, Builder.alts, changeAlts, seq hB s, alts hB as]

end

theorem prods (hB : B.Placed P) (ps : List CProd) :
    (ps.map (CProd.place P)).map B.prod = placeRules P (ps.map B.prod) := by
  rw [placeRules, changeRules, List.map_map, List.map_map]
  refine List.map_congr_left fun p _ => ?_
  have halts := hB.alts p.alts
  rw [changeAlts_eq] at halts
  simp only [Function.comp_apply, Builder.prod, CProd.place, Production.change, halts, Tok.place_text, spanOf_place,
    Option.map_some]
  rfl

end Builder.Placed

end

/-! ## Numeric values -/

theorem Ts.parseNumericValue_place (src : Text) (sp : Option Span) :
    Ts.parseNumericValue src (sp.map (Span.place P)) = (Ts.parseNumericValue src sp).map (NumericElement.place P) := by
  unfold Ts.parseNumericValue
  obtain ⟨base, body⟩ := splitBase src
  simp only
  split
  · cases Ts.codePoint base (Ts.ends body).1 with
    | error e => rfl
    | ok lo =>
      cases Ts.codePoint base (Ts.ends body).2 with
      | error e => rfl
      | ok hi =>
        simp only [bind, Except.bind]
        split <;> rfl
  · cases Ts.codePoints base (body.splitOn '.') <;> rfl

theorem Ts.numericOf_place (t : Tok) : Ts.numericOf (t.place P) = (Ts.numericOf t).map (NumericElement.place P) := by
  rw [Ts.numericOf, Tok.place_text, spanOf_place]
  exact Ts.parseNumericValue_place P t.text (some (spanOf t))

theorem Ts.builder_placed : (Ts.builder Ts.valueOf).Placed P where
  num t := by
    show Ts.valueOf (t.place P) = (Ts.valueOf t).place P
    unfold Ts.valueOf
    rw [Ts.numericOf_place]
    cases Ts.numericOf t <;> rfl
  wrap r e := by
    have hbounds : Ts.boundsOf (r.place P) = Ts.boundsOf r := by cases r <;> rfl
    simp only [Ts.builder, Ts.wrap, hbounds]
    repeat' split
    all_goals rfl

theorem Go.parseNumericValue_refusal (src : Text) (sp sp' : Option Span) :
    (Go.parseNumericValue src sp).2 = (Go.parseNumericValue src sp').2 := by
  unfold Go.parseNumericValue
  obtain ⟨base, body⟩ := splitBase src
  by_cases h : '-' ∈ body
  · simp only [if_pos h]
  · simp only [if_neg h]

theorem Rust.parse_numeric_value_refusal (src : Text) (sp sp' : Option Span) :
    (Rust.parse_numeric_value src sp).2 = (Rust.parse_numeric_value src sp').2 := by
  unfold Rust.parse_numeric_value
  obtain ⟨base, body⟩ := splitBase src
  by_cases h : '-' ∈ body
  · simp only [if_pos h]
  · simp only [if_neg h]

/-- Whether a port can hold a token is not a matter of where it stands. -/
theorem Tok.Common.place {t : Tok} (h : t.Common) : (t.place P).Common where
  count := h.count
  ts hk := by
    have hts := h.ts hk
    unfold Ts.readable at hts ⊢
    rw [Ts.numericOf_place]
    cases hn : Ts.numericOf t with
    | error e =>
      rw [hn] at hts
      cases hts
    | ok a => rfl
  go hk := (Go.parseNumericValue_refusal _ _ _).trans (h.go hk)
  rust hk := (Rust.parse_numeric_value_refusal _ _ _).trans (h.rust hk)
  surrogate := h.surrogate

end TabnasAbnf.Meta
