/-
The front ends against one another, from the tokens of a source to the rules with the core rules added. `frontEnd` is
the front end by characters; each port is that front end in its own count of places, and its rules are the same rules
with spans over the same text.
-/
import TabnasAbnf.Meta.Front
import TabnasAbnf.Meta.Place

namespace TabnasAbnf.Meta

open TabnasAbnf.Engine TabnasAbnf.Base TabnasAbnf.Passes

/-! ## The core rules a grammar is given -/

section

variable {L α β γ δ ε : Type}

/-- The core rules added to a grammar, in the order they are added. -/
def addedRules (user : Rules α β) : List CoreRule :=
  (saturate CoreRule.name (fun r needed => needed ++ r.refs.map CoreRule.name) CoreRule.all
    ⟨user.map (·.name), user.flatMap fun p => altsRefs p.alts, [], false⟩).out

theorem changeRules_added (f : α → γ) (g : β → δ) (h : Span → Span) (user : Rules α β) :
    addedRules (changeRules f g h user) = addedRules user := by
  have hnames : (changeRules f g h user).map (·.name) = user.map (·.name) := by
    rw [changeRules, List.map_map]
    rfl
  have hrefs : (changeRules f g h user).flatMap (fun p => altsRefs p.alts) = user.flatMap fun p => altsRefs p.alts := by
    rw [changeRules, List.flatMap_map]
    refine List.flatMap_congr fun p _ => ?_
    rw [← changeAlts_refs f g h p.alts, changeAlts_eq]
    rfl
  rw [addedRules, hnames, hrefs, addedRules]

/-- A loop over entries that stand for the core rules adds these. -/
theorem saturate_added {A : Type} (name : A → Text) (scan : A → List Text → List Text) (f : CoreRule → A)
    {refsIn : List (Element α β) → List Text → List Text} (hrefs : CollectsRefs refsIn)
    (hname : ∀ r, name (f r) = r.name)
    (hscan : ∀ r needed n, n ∈ scan (f r) needed ↔ n ∈ needed ∨ ∃ r' ∈ r.refs, r'.name = n) (user : Rules α β) :
    (saturate name scan (CoreRule.all.map f) ⟨user.map (·.name), scanProds refsIn user [], [], false⟩).out =
      (addedRules user).map f := by
  have hlike : Work.Like f (⟨user.map (·.name), user.flatMap fun p => altsRefs p.alts, [], false⟩ : Work CoreRule Text)
      ⟨user.map (·.name), scanProds refsIn user [], [], false⟩ := by
    refine ⟨fun n => Iff.rfl, fun n => ?_, rfl, rfl⟩
    rw [mem_scanProds hrefs]
    simp only [List.not_mem_nil, false_or, prodRefs, List.mem_flatMap]
  refine (hlike.saturate (fun r _ => hname r) fun r _ needed needed' hneeded n => ?_).out
  rw [hscan, hneeded, List.mem_append, List.mem_map]

variable {lit : Nat → L} {refsIn : List (Element (NumericElement L) β) → List Text → List Text}

theorem scan_production (hrefs : CollectsRefs refsIn) (r : CoreRule) (needed : List Text) (n : Text) :
    n ∈ scanProds refsIn [r.production lit] needed ↔ n ∈ needed ∨ ∃ r' ∈ r.refs, r'.name = n := by
  rw [mem_scanProds hrefs, ← CoreRule.mem_refs lit]
  simp only [List.mem_singleton, exists_eq_left]
  rfl

theorem Ts.withCoreRules_eq {refsIn : List (Element (NumericElement Units) β) → List Text → List Text}
    (hrefs : CollectsRefs refsIn) (user : Rules (NumericElement Units) β) :
    (Ts.withCoreRules refsIn user : Except (Cause ε) _) =
      match rejectHoles user with
      | .error name => .error (.malformed name)
      | .ok () => .ok (user ++ (addedRules user).map (CoreRule.production fromCodePoint)) := by
  unfold Ts.withCoreRules
  cases rejectHoles user with
  | error name => rfl
  | ok =>
    simp only [coreRules, List.map_map]
    rw [saturate_added Prod.fst (fun entry needed => scanProds refsIn [entry.2] needed) _ hrefs (fun _ => rfl)
      (fun r needed n => scan_production hrefs r needed n), List.map_map]
    rfl

theorem Go.withCoreRules_eq {refsIn : List (Element (NumericElement Text) β) → List Text → List Text}
    (hrefs : CollectsRefs refsIn) (user : Rules (NumericElement Text) β) :
    Go.withCoreRules refsIn user = user ++ (addedRules user).map (CoreRule.production Go.runeString) := by
  have hlookup : ∀ r : CoreRule, Go.coreByName β r.name = [r.production Go.runeString] := by
    intro r
    cases r <;> rfl
  have hscan : ∀ (r : CoreRule) (needed : List Text) (n : Text),
      n ∈ scanProds refsIn (Go.coreByName β r.name) needed ↔ n ∈ needed ∨ ∃ r' ∈ r.refs, r'.name = n := by
    intro r needed n
    rw [hlookup]
    exact scan_production hrefs r needed n
  have hnames : (coreRules β Go.runeString).map (·.name) = CoreRule.all.map CoreRule.name := by
    rw [coreRules, List.map_map]
    rfl
  unfold Go.withCoreRules
  simp only
  rw [hnames, saturate_added id (fun name needed => scanProds refsIn (Go.coreByName β name) needed) CoreRule.name
    hrefs (fun _ => rfl) hscan, List.flatMap_map, List.map_eq_flatMap]
  simp only [hlookup]

theorem Rust.with_core_rules_eq {refs_in : List (Element (NumericElement Text) β) → List Text → List Text}
    (hrefs : CollectsRefs refs_in) (user : Rules (NumericElement Text) β) :
    Rust.with_core_rules refs_in user = user ++ (addedRules user).map (CoreRule.production fun n => [charOr n]) := by
  unfold Rust.with_core_rules
  simp only [coreRules]
  rw [saturate_added (fun p : Production (List (Element (NumericElement Text) β)) => p.name)
    (fun p needed => scanProds refs_in [p] needed) _ hrefs (fun _ => rfl) fun r needed n =>
      scan_production hrefs r needed n]

end

/-! ## After the parse -/

section

variable {L L' α β δ ε : Type}

/-- The annotations, the merge and the rejection of holes, and then the core rules. -/
def finishBy (attach : Rules α β → Except AnnotationError (Rules α β)) (core : Rules α β → Rules α β) : Check α β ε :=
  fun ps =>
    match attach ps with
    | .error e => .error (.pass (.attach e))
    | .ok ps =>
      match mergeIncrementals ps with
      | .error e => .error (.pass (.merge e))
      | .ok merged =>
        match rejectHoles merged with
        | .error name => .error (.malformed name)
        | .ok () => .ok (core merged)

/-- With the core rules that are named behind the productions. -/
def finished (lit : Nat → L)
    (attach : Rules (NumericElement L) β → Except AnnotationError (Rules (NumericElement L) β)) :
    Check (NumericElement L) β ε :=
  finishBy attach fun merged => merged ++ (addedRules merged).map (CoreRule.production lit)

variable {f : NumericElement L → NumericElement L'} {g : β → δ} {h : Span → Span} {lit : Nat → L} {lit' : Nat → L'}

/-- Rules changed throughout come out changed throughout. -/
theorem finished_change {attach : Rules (NumericElement L) β → Except AnnotationError (Rules (NumericElement L) β)}
    {attach' : Rules (NumericElement L') δ → Except AnnotationError (Rules (NumericElement L') δ)}
    {ps : Rules (NumericElement L) β} (hattach : attach' (changeRules f g h ps) = (attach ps).map (changeRules f g h))
    (hcore : ∀ r : CoreRule, (r.production lit).change (changeSeq f g h) h = r.production lit') :
    checked (finished lit' attach' : Check (NumericElement L') δ ε) (changeRules f g h ps) =
      (checked (finished lit attach) ps).map (changeRules f g h) := by
  have hempty : (changeRules f g h ps).isEmpty = ps.isEmpty := by cases ps <;> rfl
  have hcores : ∀ rs : List CoreRule,
      changeRules f g h (rs.map (CoreRule.production lit)) = rs.map (CoreRule.production lit') := by
    intro rs
    rw [changeRules, List.map_map]
    exact List.map_congr_left fun r _ => hcore r
  unfold checked finished finishBy
  rw [hempty, hattach]
  split
  · rfl
  cases attach ps with
  | error e => rfl
  | ok ps =>
    simp only [Except.map]
    rw [show mergeIncrementals (changeRules f g h ps) = (mergeIncrementals ps).map (changeRules f g h) from
      mergeIncrementals_change _ h ps]
    cases mergeIncrementals ps with
    | error e => rfl
    | ok merged =>
      have hadd : ∀ qs : Rules (NumericElement L) β, changeRules f g h (merged ++ qs) =
          changeRules f g h merged ++ changeRules f g h qs := fun qs => List.map_append
      simp only [Except.map]
      rw [show rejectHoles (changeRules f g h merged) = rejectHoles merged from
        rejectHoles_same h (changeSeq_holeIn f g h) merged, changeRules_added]
      cases rejectHoles merged with
      | error name => rfl
      | ok => simp only [hadd, hcores]

end

namespace Go

variable (refsIn : List (Element (NumericElement Text) Int) → List Text → List Text)

/-- What `parseAbnf` does with the productions the engine built. -/
def finish (src : Text) : Check (NumericElement Text) Int NumericError :=
  finishBy (Passes.Go.attachValueAnnotations src) (withCoreRules refsIn)

/-- `parseAbnf` over a source and the tokens it is. -/
def parseSource (engine : Engine (NumericElement Text) NumericError) (src : Text) (ts : List Tok) :
    Except (Cause NumericError) (Rules (NumericElement Text) Int) :=
  parseAbnf engine (finish refsIn src) ts

end Go

namespace Rust

variable (refs_in : List (Element (NumericElement Text) JsNum) → List Text → List Text)

/-- What `parse_abnf` does with the productions the engine built. -/
def finish (src : Text) : Check (NumericElement Text) JsNum NumericError :=
  finishBy (Passes.Rust.attach_value_annotations src) (with_core_rules refs_in)

/-- `parse_abnf` over a source and the tokens it is, the slot of diagnostics being as it was left. -/
def parse_source (engine : Engine (NumericElement Text) NumericError) (slot : Option NumericError) (src : Text)
    (ts : List Tok) : Except (Cause NumericError) (Rules (NumericElement Text) JsNum) :=
  (parse_abnf engine (finish refs_in src) slot ts).1

end Rust

theorem Ts.finish_eq {refsIn : List (Element (NumericElement Units) JsNum) → List Text → List Text}
    (hrefs : CollectsRefs refsIn) (src : Text) : (Ts.finish refsIn src : Check _ _ NumericError) =
      finished fromCodePoint (attachValueAnnotations utf16Encoding.width src) := by
  funext ps
  unfold Ts.finish finished finishBy
  cases attachValueAnnotations utf16Encoding.width src ps with
  | error e => rfl
  | ok ps =>
    simp only
    cases mergeIncrementals ps with
    | error e => rfl
    | ok merged =>
      simp only [Ts.withCoreRules_eq hrefs]

theorem Go.finish_eq {refsIn : List (Element (NumericElement Text) Int) → List Text → List Text}
    (hrefs : CollectsRefs refsIn) (src : Text) :
    Go.finish refsIn src = finished Go.runeString (Passes.Go.attachValueAnnotations src) := by
  rw [Go.finish, finished, funext (Go.withCoreRules_eq hrefs)]

theorem Rust.finish_eq {refs_in : List (Element (NumericElement Text) JsNum) → List Text → List Text}
    (hrefs : CollectsRefs refs_in) (src : Text) :
    Rust.finish refs_in src = finished (fun n => [charOr n]) (Passes.Rust.attach_value_annotations src) := by
  rw [Rust.finish, finished, funext (Rust.with_core_rules_eq hrefs)]

/-! ## Malformed productions -/

section

variable {L α β γ δ ε : Type}

/-- A sequence, or a hole for one that has a hole. -/
def blank (s : List (Element α β)) : List (Element α β) := if holeIn s = true then [.hole] else s

theorem blank_holeIn (s : List (Element α β)) : holeIn (blank s) = holeIn s := by
  unfold blank
  split
  · rename_i h
    rw [h]
    rfl
  · rfl

theorem rejectHoles_none {ps : Rules α β} (h : rejectHoles ps = .ok ()) : ∀ p ∈ ps, ∀ s ∈ p.alts, holeIn s = false := by
  induction ps with
  | nil => exact fun p hp => absurd hp List.not_mem_nil
  | cons p ps ih =>
    rw [rejectHoles] at h
    by_cases hp : p.alts.any holeIn
    · rw [if_pos hp] at h
      cases h
    · rw [if_neg hp] at h
      rw [Bool.not_eq_true, List.any_eq_false] at hp
      exact List.forall_mem_cons.2 ⟨fun s hs => Bool.eq_false_iff.2 (hp s hs), ih h⟩

/-- What stands in a sequence with a hole has no part in how the rules end. -/
theorem finished_blank (lit : Nat → L) (claim : Comment → Option Claim) (comments : List Comment)
    (ps : Rules (NumericElement L) β) :
    (checked (finished lit (attachBy claim comments)) (ps.map (Production.change blank id)) : Except (Cause ε) _) =
      checked (finished lit (attachBy claim comments)) ps := by
  have hempty : (ps.map (Production.change blank id)).isEmpty = ps.isEmpty := by cases ps <;> rfl
  unfold checked finished finishBy
  rw [hempty, attachBy_change blank (g := id) fun _ => rfl]
  split
  · rfl
  cases attachBy claim comments ps with
  | error e => rfl
  | ok ps =>
    simp only [Except.map]
    rw [mergeIncrementals_change]
    cases mergeIncrementals ps with
    | error e => rfl
    | ok merged =>
      simp only [Except.map]
      rw [rejectHoles_same id blank_holeIn]
      cases hr : rejectHoles merged with
      | error name => rfl
      | ok =>
        -- no sequence has a hole, so none is replaced
        have hkeep : merged.map (Production.change blank id) = merged := by
          refine (List.map_congr_left fun p hp => ?_).trans (List.map_id merged)
          have halts : p.alts.map blank = p.alts.map id := List.map_congr_left fun s hs =>
            if_neg (by rw [rejectHoles_none hr p hp s hs]; exact Bool.false_ne_true)
          rw [Production.change, halts, List.map_id, Option.map_id_apply]
          rfl
        rw [hkeep]

variable {B : Builder α β} {B' : Builder γ δ} {f : α → γ} {g : β → δ} {P : Tok → Prop}

/-- Builders that agree make the same of a tree, the sequences with a hole apart. -/
theorem Builder.Agrees.blank (hB : B.Agrees B' f g P) (hh : B.Honest) (hh' : B'.Honest) {ps : List CProd}
    (ho : ∀ p ∈ ps, AltsOver P p.alts) :
    (mapRules f g (ps.map B.prod)).map (Production.change Meta.blank id) =
      (ps.map B'.prod).map (Production.change Meta.blank id) := by
  have hseq : ∀ s : CSeq, SeqOver P s → Meta.blank (mapSeq f g (B.seq s)) = Meta.blank (B'.seq s) := by
    intro s hs
    have hhole : holeIn (mapSeq f g (B.seq s)) = holeIn (B'.seq s) := by
      rw [mapSeq_eq_change, changeSeq_holeIn, Builder.seq_hasHole hh, Builder.seq_hasHole hh']
    by_cases hw : wholeSeq s = true
    · rw [hB.seq s hw hs]
    · have hholes : holeIn (B'.seq s) = true := by
        rw [Builder.seq_hasHole hh', Bool.eq_false_iff.2 hw]
        rfl
      rw [Meta.blank, Meta.blank, hhole, if_pos hholes, if_pos hholes]
  have halts : ∀ as : CAlts, AltsOver P as →
      ((B.alts as).map (mapSeq f g)).map Meta.blank = (B'.alts as).map Meta.blank := by
    intro as
    induction as with
    | nil => exact fun _ => rfl
    | cons s as ih =>
      intro hs
      simp only [Builder.alts, List.map_cons, hseq s hs.1, ih hs.2]
  rw [mapRules, List.map_map, List.map_map, List.map_map]
  refine List.map_congr_left fun p hp => ?_
  simp only [Function.comp_apply, Production.change, Production.map, Builder.prod, halts p.alts (ho p hp)]

end

/-! ## The front end by characters -/

/-- The places of a source in an encoding's units; `col` is the count of columns. -/
def placesIn (E : Encoding) (src : Text) (col : Nat → Nat → Nat) : Places := ⟨E.offset src, col, Count.offset E src⟩

/-- The text a span is over, its ends counting an encoding's units. -/
def sliceOf (E : Encoding) (src : Text) (sp : Span) : Text := E.slice sp.s sp.e 0 src

/-- The text between the ends of a span is the text between its characters. -/
theorem slice_place (E : Encoding) {src : Text} (col : Nat → Nat → Nat) {sp : Span} (hse : sp.s ≤ sp.e)
    (he : sp.e ≤ src.length) : sliceOf E src (sp.place (placesIn E src col)) = (src.drop sp.s).take (sp.e - sp.s) := by
  have hoff : ∀ k, k ≤ src.length → E.offset src k = (E.encode (src.take k)).length := by
    intro k hk
    rw [Encoding.offset]
    omega
  have hcut : src = src.take sp.s ++ ((src.drop sp.s).take (sp.e - sp.s) ++ src.drop sp.e) := by
    have hdrop : src.drop sp.e = (src.drop sp.s).drop (sp.e - sp.s) := by
      rw [List.drop_drop]
      congr 1
      omega
    rw [hdrop, List.take_append_drop, List.take_append_drop]
  have htake : src.take sp.e = src.take sp.s ++ (src.drop sp.s).take (sp.e - sp.s) := by
    rw [← List.take_add]
    congr 1
    omega
  have hslice := E.slice_between (src.take sp.s) ((src.drop sp.s).take (sp.e - sp.s)) (src.drop sp.e)
  rw [← hcut] at hslice
  show E.slice (E.offset src sp.s) (E.offset src sp.e) 0 src = _
  rw [hoff _ (hse.trans he), hoff _ he, htake, E.encode_append, List.length_append]
  exact hslice

def Cause.place {ε : Type} (P : Places) : Cause ε → Cause ε
  | .engine at_ => .engine (at_.map (Tok.place P))
  | c => c

/-- How a source ends, by another count of places. -/
def placeOutcome {L β ε : Type} (P : Places) (r : Except (Cause ε) (Rules (NumericElement L) β)) :
    Except (Cause ε) (Rules (NumericElement L) β) := (r.mapError (Cause.place P)).map (placeRules P)

/-- The comments of a source that start with `@`, by characters. -/
def charComments (src : Text) : List Comment := (commentsOf src).filterMap (found trim)

/-- The front end over a source and its tokens, their places counted in characters. -/
def frontEnd (src : Text) (tokens : List Tok) : Except (Cause NumericError) (Rules (NumericElement Units) JsNum) :=
  match (fullReading tokens).res with
  | .ok ps =>
      checked (finished fromCodePoint (attachBy claim? (charComments src))) (ps.map (Ts.builder Ts.valueOf).prod)
  | .error (.unexpected t) => .error (.engine t)
  | .error _ => .error .depth

/-- What follows the parse refuses no token. -/
theorem checked_place {L β ε : Type} (P : Places) (lit : Nat → L)
    (attach : Rules (NumericElement L) β → Except AnnotationError (Rules (NumericElement L) β))
    (ps : Rules (NumericElement L) β) :
    (checked (finished lit attach) ps).mapError (Cause.place P) =
      (checked (finished lit attach) ps : Except (Cause ε) _) := by
  unfold checked finished finishBy
  split
  · rfl
  cases attach ps with
  | error e => rfl
  | ok ps =>
    simp only
    cases mergeIncrementals ps with
    | error e => rfl
    | ok merged =>
      simp only
      cases rejectHoles merged <;> rfl

/-- A port's annotations of productions by its own count, from those by characters. -/
theorem attachBy_placeRules {P : Places} {claim : Comment → Option Claim} {comments cs : List Comment}
    {ps : Rules (NumericElement Units) JsNum}
    (hattach : attachBy claim comments (ps.map (Production.place P.at_)) =
      (attachBy claim? cs ps).map (List.map (Production.place P.at_))) :
    attachBy claim comments (placeRules P ps) = (attachBy claim? cs ps).map (placeRules P) := by
  -- the offsets first, and then the columns and what stands in the sequences
  have hsplit : ∀ qs : Rules (NumericElement Units) JsNum, placeRules P qs =
      (qs.map (Production.place P.at_)).map (Production.change (changeSeq (NumericElement.place P) id (Span.place P))
        fun sp => { sp with c := P.col sp.r sp.c }) := by
    intro qs
    rw [placeRules, changeRules, List.map_map]
    refine List.map_congr_left fun p _ => ?_
    simp only [Function.comp_apply, Production.change, Production.place, Option.map_map]
    rfl
  rw [hsplit, attachBy_change _ (g := fun sp => { sp with c := P.col sp.r sp.c }) fun _ => rfl, hattach]
  cases attachBy claim? cs ps with
  | error e => rfl
  | ok qs => exact congrArg Except.ok (hsplit qs).symm

/-- The front end by another count: the tree is that by characters, and so is what is made of it. -/
theorem frontEnd_place {src : Text} {tokens : List Tok} {P : Places} {claim : Comment → Option Claim}
    {comments : List Comment}
    (hattach : ∀ ps : Rules (NumericElement Units) JsNum, attachBy claim comments (ps.map (Production.place P.at_)) =
      (attachBy claim? (charComments src) ps).map (List.map (Production.place P.at_))) :
    (match (fullReading (tokens.map (Tok.place P))).res with
      | .ok ps => checked (finished fromCodePoint (attachBy claim comments)) (ps.map (Ts.builder Ts.valueOf).prod)
      | .error (.unexpected t) => .error (.engine t)
      | .error _ => .error .depth) = placeOutcome P (frontEnd src tokens) := by
  have hread : fullReading (tokens.map (Tok.place P)) = (fullReading tokens).place P (List.map (CProd.place P)) :=
    reading_place (fun _ => rfl) tokens
  rw [hread, frontEnd, Reading.place]
  cases (fullReading tokens).res with
  | error e => cases e <;> rfl
  | ok ps =>
    have hcore : ∀ r : CoreRule,
      (r.production fromCodePoint : Production (List (Element (NumericElement Units) JsNum))).change
        (changeSeq (NumericElement.place P) id (Span.place P)) (Span.place P) = r.production fromCodePoint := by
      intro r
      cases r <;> rfl
    simp only [Except.mapError, Except.map]
    rw [(Ts.builder_placed P).prods, placeOutcome, checked_place]
    exact finished_change (attachBy_placeRules (hattach _)) hcore

/-! ## The ports -/

/-- A port whose builder agrees with TypeScript's ends as it does on the tokens they have in common. -/
theorem agrees_front {β : Type} {B : Builder (NumericElement Text) β} {g : β → JsNum} {lit : Nat → Text}
    (hB : B.Agrees (Ts.builder Ts.valueOf) NumericElement.units g Tok.Common) (hh : B.Honest)
    (hcore : ∀ r : CoreRule, (r.production lit : Production (List (Element (NumericElement Text) β))).change
      (changeSeq NumericElement.units g id) id = r.production fromCodePoint)
    {tokens : List Tok} (hc : ∀ t ∈ tokens, t.Common) (claim : Comment → Option Claim) (comments : List Comment) :
    (match (fullReading tokens).res with
      | .ok ps => checked (finished lit (attachBy claim comments)) (ps.map B.prod)
      | .error (.unexpected t) => .error (.engine t)
      | .error _ => .error .depth).map (mapRules NumericElement.units g) =
    (match (fullReading tokens).res with
      | .ok ps => checked (finished fromCodePoint (attachBy claim comments)) (ps.map (Ts.builder Ts.valueOf).prod)
      | .error (.unexpected t) => .error (.engine t)
      | .error _ => .error .depth : Except (Cause NumericError) (Rules (NumericElement Units) JsNum)) := by
  have hover := (reading_over (fun _ => false) (fun _ => false) hc).2
  cases hx : (fullReading tokens).res with
  | error e => cases e <;> rfl
  | ok ps =>
    simp only
    have hblank := hB.blank hh (Ts.builder_honest _) (hover ps hx)
    calc (checked (finished lit (attachBy claim comments)) (ps.map B.prod)).map (mapRules NumericElement.units g)
        = (checked (finished lit (attachBy claim comments)) (ps.map B.prod)).map
          (changeRules NumericElement.units g id) := by
          rw [funext (mapRules_eq_change NumericElement.units g)]
      _ = checked (finished fromCodePoint (attachBy claim comments))
        (mapRules NumericElement.units g (ps.map B.prod)) := by
          rw [mapRules_eq_change]
          exact (finished_change (attachBy_change _ (fun _ => rfl) _ _ _) hcore).symm
      _ = checked (finished fromCodePoint (attachBy claim comments)) (ps.map (Ts.builder Ts.valueOf).prod) := by
          rw [← finished_blank, hblank, finished_blank]

theorem Go.production_units (maxInfinity : Int) (r : CoreRule) :
    (r.production Go.runeString : Production (List (Element (NumericElement Text) Int))).change
      (changeSeq NumericElement.units (Go.boundOf maxInfinity) id) id = r.production fromCodePoint := by
  cases r <;> rfl

theorem Rust.production_units (r : CoreRule) :
    (r.production (fun n => [charOr n]) : Production (List (Element (NumericElement Text) JsNum))).change
      (changeSeq NumericElement.units id id) id = r.production fromCodePoint := by
  cases r <;> rfl

/-- Each port is the front end by characters, in its own count of places: UTF-16 units in TypeScript, bytes in Go and
in Rust, and columns of its own. A span is over the same text in each. -/
theorem fronts_agree {maxInfinity : Int} (hinf : ∀ n : Nat, n < 2 ^ 53 → maxInfinity ≠ n) {d₁ d₂ d₃ : Nat}
    {ts : Ts.Engine (NumericElement Units) NumericError} {go : Go.Engine (NumericElement Text) NumericError}
    {rust : Rust.Engine (NumericElement Text) NumericError}
    (hts : (Ts.grammar Ts.numericOf).Implements .abnf d₁ ts)
    (hgo : (Go.grammar maxInfinity Go.numericOf).Implements .abnf d₂ go)
    (hrust : (Rust.grammar Rust.numericOf).Implements .abnf d₃ rust)
    {tsRefsIn : List (Element (NumericElement Units) JsNum) → List Text → List Text}
    {goRefsIn : List (Element (NumericElement Text) Int) → List Text → List Text}
    {rustRefsIn : List (Element (NumericElement Text) JsNum) → List Text → List Text}
    (htsRefs : CollectsRefs tsRefsIn) (hgoRefs : CollectsRefs goRefsIn) (hrustRefs : CollectsRefs rustRefsIn)
    (src : Text) (tokens : List Tok) (hc : ∀ t ∈ tokens, t.Common) (hs : shallow (Rust.tooDeep d₃) 0 tokens = true)
    (halike : ∀ r ∈ commentsOf src, Alike r.2) (slot : Option NumericError) (tsCol goCol rustCol : Nat → Nat → Nat) :
    let tsPlaces := placesIn utf16Encoding src tsCol
    let goPlaces := placesIn utf8 src goCol
    let rustPlaces := placesIn utf8 src rustCol
    Ts.parseSource tsRefsIn ts src (tokens.map (Tok.place tsPlaces)) = placeOutcome tsPlaces (frontEnd src tokens) ∧
    (Go.parseSource goRefsIn go src (tokens.map (Tok.place goPlaces))).map
        (mapRules NumericElement.units (Go.boundOf maxInfinity)) = placeOutcome goPlaces (frontEnd src tokens) ∧
    (Rust.parse_source rustRefsIn rust slot src (tokens.map (Tok.place rustPlaces))).map
        (mapRules NumericElement.units id) = placeOutcome rustPlaces (frontEnd src tokens) ∧
    ∀ sp : Span, sp.s ≤ sp.e → sp.e ≤ src.length →
      sliceOf utf16Encoding src (sp.place tsPlaces) = (src.drop sp.s).take (sp.e - sp.s) ∧
      sliceOf utf8 src (sp.place goPlaces) = (src.drop sp.s).take (sp.e - sp.s) ∧
      sliceOf utf8 src (sp.place rustPlaces) = (src.drop sp.s).take (sp.e - sp.s) := by
  intro tsPlaces goPlaces rustPlaces
  have hplaced : ∀ P : Places, ∀ t ∈ tokens.map (Tok.place P), t.Common := by
    intro P t ht
    obtain ⟨t', ht', rfl⟩ := List.mem_map.1 ht
    exact (hc t' ht').place P
  refine ⟨?_, ?_, ?_, fun sp hse he => ⟨slice_place _ _ hse he, slice_place _ _ hse he, slice_place _ _ hse he⟩⟩
  · rw [Ts.parseSource, Ts.parseAbnf_common (hplaced _) hts, Ts.finish_eq htsRefs]
    exact frontEnd_place fun ps => Passes.Ts.attached ps
  · rw [Go.parseSource, Go.parseAbnf_common (hplaced _) hgo, Go.finish_eq hgoRefs]
    refine (agrees_front (Go.builder_agrees hinf) (Go.builder_honest _ _) (Go.production_units _) (hplaced _) _
      _).trans ?_
    exact frontEnd_place fun ps => Passes.Go.attached halike ps
  · rw [Rust.parse_source, Rust.parse_abnf_common (hplaced _) hrust (by rwa [shallow_place]), Rust.finish_eq hrustRefs]
    refine (agrees_front Rust.builder_agrees (Rust.builder_honest _) Rust.production_units (hplaced _) _ _).trans ?_
    exact frontEnd_place fun ps => Passes.Rust.attached ps

/-- `a = "é" 2CR ; @array`, and `a =/ %x41` on a line of its own: what stands behind the string is a byte further on in
Go and in Rust. -/
theorem fronts_agree_accent :
    let src : Text :=
      ['a', ' ', '=', ' ', '"', 'é', '"', ' ', '2', 'C', 'R', ' ', ';', ' ', '@', 'a', 'r', 'r', 'a', 'y', '\n',
      'a', ' ', '=', '/', ' ', '%', 'x', '4', '1', '\n']
    let tokens : List Tok := [⟨.TX ['a'], 0, 1, 1, 1⟩, ⟨.DEF, 2, 1, 1, 3⟩, ⟨.ST ['é'], 4, 3, 1, 5⟩,
      ⟨.NUM ⟨['2'], by decide⟩, 8, 1, 1, 9⟩, ⟨.TX ['C', 'R'], 9, 2, 1, 10⟩, ⟨.TX ['a'], 21, 1, 2, 1⟩,
        ⟨.DEFA, 23, 2, 2, 3⟩,
      ⟨.NV ⟨['%', 'x', '4', '1'], by decide⟩, 26, 4, 2, 6⟩]
    let bytesBehind (r c : Nat) : Nat := if r = 1 ∧ 6 < c then c + 1 else c
    let tsPlaces := placesIn utf16Encoding src fun _ c => c
    let places := placesIn utf8 src bytesBehind
    (frontEnd src tokens).map (List.map Production.name) = .ok [['a'], ['C', 'R']] ∧
      Ts.parseSource (fun alt needed => needed ++ seqRefs alt) (Ts.numericEngine 0) src
        (tokens.map (Tok.place tsPlaces)) =
        placeOutcome tsPlaces (frontEnd src tokens) ∧
      (Go.parseSource (fun alt needed => needed ++ seqRefs alt) (Go.machine 9223372036854775807 Go.numericOf 0) src
          (tokens.map (Tok.place places))).map (mapRules NumericElement.units (Go.boundOf 9223372036854775807)) =
        placeOutcome places (frontEnd src tokens) ∧
      (Rust.parse_source (fun alt needed => needed ++ seqRefs alt) (Rust.machine Rust.numericOf 0) none src
          (tokens.map (Tok.place places))).map (mapRules NumericElement.units id) =
        placeOutcome places (frontEnd src tokens) := by
  intro src tokens bytesBehind tsPlaces places
  have hrefs : ∀ {α β : Type}, CollectsRefs fun (alt : List (Element α β)) needed => needed ++ seqRefs alt :=
    fun _ _ _ => List.mem_append
  have hcomments : commentsOf src = [(12, [' ', '@', 'a', 'r', 'r', 'a', 'y'])] := by rfl
  have halike : ∀ r ∈ commentsOf src, Alike r.2 := by
    rw [hcomments]
    rintro r hr -
    rw [List.mem_singleton.1 hr]
    refine .inr ⟨by decide, by decide, fun kind rest h _ => ?_⟩
    cases h
    simp
  obtain ⟨h₁, h₂, h₃, -⟩ := fronts_agree (by omega : ∀ n : Nat, n < 2 ^ 53 → (9223372036854775807 : Int) ≠ n)
    (Grammar.engine_implements _ _ _ _ : Grammar.Implements _ _ _ (Ts.numericEngine 0))
    (Grammar.engine_implements _ _ _ _ : Grammar.Implements _ _ _ (Go.machine 9223372036854775807 Go.numericOf 0))
    (Grammar.engine_implements _ _ _ _ : Grammar.Implements _ _ _ (Rust.machine Rust.numericOf 0)) hrefs hrefs hrefs
      src tokens
    (by decide) (by decide) halike none (fun _ c => c) bytesBehind bytesBehind
  exact ⟨by decide +kernel, h₁, h₂, h₃⟩

end TabnasAbnf.Meta
