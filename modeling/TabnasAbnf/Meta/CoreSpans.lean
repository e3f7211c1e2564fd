/-
Spans after `withCoreRules`. The core rules are parsed from a text of their own, so their spans would
point into a source the user never wrote: `stripSpans` takes every one of them away, and what is added to
a user's productions leaves theirs as they were.
-/
import TabnasAbnf.Meta.Layout
import TabnasAbnf.Meta.Values

namespace TabnasAbnf.Meta

open TabnasAbnf.Engine TabnasAbnf.Base TabnasAbnf.Passes

/-! ## `stripSpans` -/

section

variable {α β : Type} (strip : α → α)

mutual

/-- An element without a span at any depth; `strip` takes it from a numeric value. -/
def Element.stripSpans : Element α β → Element α β
  | .term literal caseSensitive _ => .term literal caseSensitive none
  | .value a => .value (strip a)
  | .prose text _ => .prose text none
  | .ref name _ => .ref name none
  | .group alts _ => .group (stripAlts alts) none
  | .opt inner _ => .opt inner.stripSpans none
  | .star inner => .star inner.stripSpans
  | .plus inner => .plus inner.stripSpans
  | .rep min max inner => .rep min max inner.stripSpans
  | .hole => .hole

def stripSeq : List (Element α β) → List (Element α β)
  | [] => []
  | e :: es => e.stripSpans :: stripSeq es

def stripAlts : List (List (Element α β)) → List (List (Element α β))
  | [] => []
  | s :: as => stripSeq s :: stripAlts as

end

/-- A production without a span, nor one under it. -/
def stripSpans (prod : Production (List (Element α β))) : Production (List (Element α β)) :=
  { prod with alts := stripAlts strip prod.alts, sp := none }

variable {strip} {sp : α → Option Span}

/-- An element has no span, nor has any in it. -/
def Bare (sp : α → Option Span) (all : List (Element α β)) : Prop := ∀ e ∈ all, e.span sp = none

theorem Bare.cons {e : Element α β} {all : List (Element α β)} (he : e.span sp = none) (h : Bare sp all) :
    Bare sp (e :: all) := List.forall_mem_cons.2 ⟨he, h⟩

mutual

theorem Element.bare_stripSpans (hstrip : ∀ a, sp (strip a) = none) :
    (e : Element α β) → Bare sp (e.stripSpans strip).all
  | .term _ _ _ | .prose _ _ | .ref _ _ | .hole => .cons rfl nofun
  | .value a => .cons (hstrip a) nofun
  | .group alts _ => .cons rfl (bare_stripAlts hstrip alts)
  | .opt inner _ | .star inner | .plus inner | .rep _ _ inner =>
    .cons (Element.bare_stripSpans hstrip inner (inner.stripSpans strip) (mem_all _))
      (Element.bare_stripSpans hstrip inner)

theorem bare_stripSeq (hstrip : ∀ a, sp (strip a) = none) :
    (es : List (Element α β)) → Bare sp (allSeq (stripSeq strip es))
  | [] => nofun
  | e :: es => fun x hx => (List.mem_append.1 hx).elim (Element.bare_stripSpans hstrip e x) (bare_stripSeq hstrip es x)

theorem bare_stripAlts (hstrip : ∀ a, sp (strip a) = none) :
    (as : List (List (Element α β))) → Bare sp (allAlts (stripAlts strip as))
  | [] => nofun
  | s :: as => fun x hx => (List.mem_append.1 hx).elim (bare_stripSeq hstrip s x) (bare_stripAlts hstrip as x)

end

end

/-! ## The core rules -/

/-- The span of a numeric value. -/
def NumericElement.sp {L : Type} : NumericElement L → Option Span
  | .term _ sp | .regex _ _ sp => sp

/-- `delete el.sp`. -/
def NumericElement.deleteSp {L : Type} : NumericElement L → NumericElement L
  | .term literal _ => .term literal none
  | .regex lo hi _ => .regex lo hi none

theorem NumericElement.sp_deleteSp {L : Type} (a : NumericElement L) : a.deleteSp.sp = none := by cases a <;> rfl

namespace CoreRule

def numeric (t : Text) (h : isNumericSource t = true) : Lexeme := .NV ⟨t, h⟩

/-- What stands after the `=` of a core rule in `CORE_RULES_ABNF`. -/
def source : CoreRule → List Lexeme
  | ALPHA => [numeric ['%', 'x', '4', '1', '-', '5', 'A'] rfl, .ALT, numeric ['%', 'x', '6', '1', '-', '7', 'A'] rfl]
  | BIT => [.ST ['0'], .ALT, .ST ['1']]
  | CHAR => [numeric ['%', 'x', '0', '1', '-', '7', 'F'] rfl]
  | CR => [numeric ['%', 'x', '0', 'D'] rfl]
  | LF => [numeric ['%', 'x', '0', 'A'] rfl]
  | CRLF => [.TX CR.name, .TX LF.name]
  | CTL => [numeric ['%', 'x', '0', '0', '-', '1', 'F'] rfl, .ALT, numeric ['%', 'x', '7', 'F'] rfl]
  | DIGIT => [numeric ['%', 'x', '3', '0', '-', '3', '9'] rfl]
  | DQUOTE => [numeric ['%', 'x', '2', '2'] rfl]
  | HEXDIG => [.TX DIGIT.name, .ALT, .ST ['A'], .ALT, .ST ['B'], .ALT, .ST ['C'], .ALT, .ST ['D'], .ALT, .ST ['E'],
      .ALT, .ST ['F']]
  | HTAB => [numeric ['%', 'x', '0', '9'] rfl]
  | OCTET => [numeric ['%', 'x', '0', '0', '-', 'F', 'F'] rfl]
  | SP => [numeric ['%', 'x', '2', '0'] rfl]
  | VCHAR => [numeric ['%', 'x', '2', '1', '-', '7', 'E'] rfl]
  | WSP => [.TX SP.name, .ALT, .TX HTAB.name]
  | LWSP => [.STAR, .LP, .TX WSP.name, .ALT, .TX CRLF.name, .TX WSP.name, .RP]

end CoreRule

/-- `CORE_RULES_ABNF`, by its tokens. -/
def coreSource : List Lexeme := CoreRule.all.flatMap fun r => .TX r.name :: .DEF :: r.source

/-- The tokens of `CORE_RULES_ABNF`, wherever they stand. -/
def coreTokens (place : Nat → Tok) : List Tok := coreSource.zipIdx.map fun (l, i) => { place i with lex := l }

theorem eq_coreTokens {ts : List Tok} (h : ts.map (·.lex) = coreSource) : ∃ place, ts = coreTokens place := by
  refine ⟨fun i => ts.getD i ⟨.DEF, 0, 0, 0, 0⟩, ?_⟩
  rw [coreTokens, ← h]
  refine List.ext_getElem (by simp) fun i hi _ => ?_
  simp [List.getElem?_eq_getElem hi]

theorem coreTokens_read (place : Nat → Tok) :
    ∃ ps, (reading (fun t => !Ts.readable t) (fun _ => false) (coreTokens place)).res = .ok ps ∧
      (ps.map (Ts.builder Ts.valueOf).prod).map (stripSpans NumericElement.deleteSp) = coreRules JsNum fromCodePoint :=
  ⟨_, rfl, rfl⟩

variable {d₀ : Nat} {engine : Ts.Engine (NumericElement Units) NumericError}

/-- `getCoreRules`: the core rules are what the engine makes of `CORE_RULES_ABNF`, without their spans. -/
theorem getCoreRules_parsed (he : (Ts.grammar Ts.numericOf).Implements .abnf d₀ engine) {ts : List Tok}
    (hts : ts.map (·.lex) = coreSource) :
    ∃ v heap, engine [] ts = .done v heap ∧
      (Ts.productions heap v).map (stripSpans NumericElement.deleteSp) = coreRules JsNum fromCodePoint := by
  obtain ⟨place, rfl⟩ := eq_coreTokens hts
  obtain ⟨ps, hread, hstrip⟩ := coreTokens_read place
  obtain ⟨v, heap, hdone, hrules⟩ := (Ts.engine_done Ts.numericOf_refused Ts.numericOf_readable he).2 hread
  exact ⟨v, heap, hdone, hrules ▸ hstrip⟩

/-- No core rule has a span at any depth. -/
theorem coreRules_bare :
    ∀ p ∈ coreRules JsNum fromCodePoint, p.sp = none ∧ Bare NumericElement.sp (allAlts p.alts) := by
  obtain ⟨ps, -, hstrip⟩ := coreTokens_read fun _ => ⟨.DEF, 0, 0, 0, 0⟩
  intro p hp
  rw [← hstrip] at hp
  obtain ⟨raw, -, rfl⟩ := List.mem_map.1 hp
  exact ⟨rfl, bare_stripAlts NumericElement.sp_deleteSp _⟩

/-! ## The spans of a source -/

theorem Ts.builder_repeats {α : Type} (val : Tok → α) : (Ts.builder val).Repeats := by
  intro r e
  simp only [Ts.builder, Ts.wrap]
  repeat' split
  · exact .bare e
  · exact .star e
  · exact .plus e
  · exact .opt e
  · exact .rep _ _ e

theorem Ts.sp_parseNumericValue {src : Text} {sp : Option Span} {a : NumericElement Units}
    (h : Ts.parseNumericValue src sp = .ok a) : a.sp = sp := by
  rw [Ts.parseNumericValue_eq] at h
  split at h
  · cases h
  · cases h
    unfold elementRead
    split
    · simp only
      split <;> rfl
    · rfl

theorem Ts.sp_valueOf (t : Tok) (h : (!Ts.readable t) = false) : (Ts.valueOf t).sp = some (spanOf t) :=
  Ts.sp_parseNumericValue (Ts.numericOf_readable t h)

/-- Wherever the tokens of a source stand one after the other and the engine takes them, each span the
parse leaves is the one of what it is written by, and the spans are in order; `withCoreRules` leaves a
user's productions as they are and adds none with a span at any depth. -/
theorem parse_spans (he : (Ts.grammar Ts.numericOf).Implements .abnf d₀ engine) {tokens : List Tok}
    (hs : Spaced tokens) {v heap} (h : engine [] tokens = .done v heap) :
    ProdsAt NumericElement.sp (Ts.productions heap v) tokens ∧
    Ordered NumericElement.sp (Ts.productions heap v) ∧
    ∀ refsIn (user result : Rules (NumericElement Units) JsNum),
      (Ts.withCoreRules refsIn user : Except (Cause NumericError) _) = .ok result →
      ∃ out, result = user ++ out ∧ ∀ p ∈ out, p.sp = none ∧ Bare NumericElement.sp (allAlts p.alts) := by
  obtain ⟨ps, hread, hrules⟩ := (Ts.engine_done Ts.numericOf_refused Ts.numericOf_readable he).1 h
  have hlaid := reading_laid (Ts.builder_repeats Ts.valueOf) Ts.sp_valueOf hread
  rw [← hrules] at hlaid
  obtain ⟨hi, hspread⟩ := Spread.of_spaced hs
  refine ⟨hlaid, (hlaid.ordered hspread).1, fun refsIn user result hadd => ?_⟩
  unfold Ts.withCoreRules at hadd
  split at hadd
  · cases hadd
  · cases hadd
    refine ⟨_, rfl, fun p hp => ?_⟩
    obtain ⟨entry, hentry, rfl⟩ := List.mem_map.1 hp
    obtain hnil | hcore := saturate_subset _ _ _ _ entry hentry
    · cases hnil
    · obtain ⟨q, hq, rfl⟩ := List.mem_map.1 hcore
      exact coreRules_bare q hq

/-- `a = *( [ b ] / %s"x" )` before `b =/ ( c`, whose bracket is never closed. -/
theorem parse_spans_nested :
    let tokens : List Tok := [⟨.TX ['a'], 0, 1, 1, 1⟩, ⟨.DEF, 2, 1, 1, 3⟩, ⟨.STAR, 4, 1, 1, 5⟩, ⟨.LP, 5, 1, 1, 6⟩,
      ⟨.OB, 7, 1, 1, 8⟩, ⟨.TX ['b'], 9, 1, 1, 10⟩, ⟨.CB, 11, 1, 1, 12⟩, ⟨.ALT, 13, 1, 1, 14⟩, ⟨.SS, 15, 2, 1, 16⟩,
      ⟨.ST ['x'], 17, 3, 1, 18⟩, ⟨.RP, 21, 1, 1, 22⟩, ⟨.TX ['b'], 23, 1, 2, 1⟩, ⟨.DEFA, 25, 2, 2, 3⟩,
      ⟨.LP, 28, 1, 2, 6⟩, ⟨.TX ['c'], 30, 1, 2, 8⟩]
    ∃ v heap, Ts.numericEngine 0 [] tokens = .done v heap ∧
      ProdsAt NumericElement.sp (Ts.productions heap v) tokens ∧ Ordered NumericElement.sp (Ts.productions heap v) := by
  intro tokens
  have he : (Ts.grammar Ts.numericOf).Implements .abnf 0 (Ts.numericEngine 0) := Grammar.engine_implements _ _ _ _
  have hs : Spaced tokens := by decide
  obtain ⟨v, heap, hdone, -⟩ :=
    (@Ts.engine_done _ _ _ _ _ _ Ts.numericOf_refused Ts.numericOf_readable _ _ he tokens).2 rfl
  have hspans := parse_spans he hs hdone
  exact ⟨v, heap, hdone, hspans.1, hspans.2.1⟩

end TabnasAbnf.Meta
