/-
Terminals: what one matches, and a text read as one. A text is read as the body of a rule, and what it
reads as is the rule's one element, whatever stands at its tokens' places.
-/
import TabnasAbnf.Meta.Grammar
import TabnasAbnf.Meta.Lexer

namespace TabnasAbnf.Meta

open TabnasAbnf.Engine TabnasAbnf.Base TabnasAbnf.Passes

/-! ## What a terminal matches -/

/-- Whether a unit is an ASCII letter. -/
def unitIsLetter (u : Nat) : Bool := decide ((0x41 ≤ u ∧ u ≤ 0x5A) ∨ (0x61 ≤ u ∧ u ≤ 0x7A))

/-- Matching without regard to case, of a literal and a text. -/
abbrev Folding := Units → Units → Prop

/-- A unit in lower case, where it is an ASCII letter. -/
def lowerUnit (u : Nat) : Nat := if 0x41 ≤ u ∧ u ≤ 0x5A then u + 0x20 else u

/-- Folding that knows the cases of ASCII. -/
def asciiFold : Folding := fun v u => v.map lowerUnit = u.map lowerUnit

/-- What a term matches: its literal exactly if it is marked case-sensitive or its literal has no ASCII
letter, and without regard to case otherwise. -/
def TermMatches (fold : Folding) (literal : Units) (caseSensitive : Bool) (u : Units) : Prop :=
  if caseSensitive || !literal.any unitIsLetter then u = literal else fold literal u

section

variable {β : Type}

mutual

/-- What a terminal, or a group of them, matches; a range matches the code points from its one end to the
other. -/
def Element.Matches (fold : Folding) : Element (NumericElement Units) β → Units → Prop
  | .term literal caseSensitive _, u => TermMatches fold (utf16 literal) caseSensitive u
  | .value (.term literal _), u => TermMatches fold literal false u
  | .value (.regex lo hi _), u => ∃ n, (lo ≤ n ∧ n ≤ hi) ∧ u = fromCodePoint n
  | .group alts _, u => MatchesAny fold alts u
  | _, _ => False

def MatchesAny (fold : Folding) : List (List (Element (NumericElement Units) β)) → Units → Prop
  | [], _ => False
  | s :: as, u => MatchesSeq fold s u ∨ MatchesAny fold as u

def MatchesSeq (fold : Folding) : List (Element (NumericElement Units) β) → Units → Prop
  | [], u => u = []
  | e :: es, u => ∃ v w, u = v ++ w ∧ e.Matches fold v ∧ MatchesSeq fold es w

end

mutual

/-- Whether the ends of every range are in order, as a pattern asks of one. -/
def Element.ordered : Element (NumericElement Units) β → Bool
  | .value (.regex lo hi _) => decide (lo ≤ hi)
  | .group alts _ => orderedAny alts
  | _ => true

def orderedAny : List (List (Element (NumericElement Units) β)) → Bool
  | [] => true
  | s :: as => orderedSeq s && orderedAny as

def orderedSeq : List (Element (NumericElement Units) β) → Bool
  | [] => true
  | e :: es => e.ordered && orderedSeq es

end

theorem matchesSeq_singleton (fold : Folding) (e : Element (NumericElement Units) β) (u : Units) :
    MatchesSeq fold [e] u ↔ e.Matches fold u := by
  unfold MatchesSeq MatchesSeq
  constructor
  · rintro ⟨v, w, rfl, h, rfl⟩
    rwa [List.append_nil]
  · intro h
    exact ⟨u, [], (List.append_nil u).symm, h, rfl⟩

/-- A group of terminals matches what one of them matches. -/
theorem matchesAny_singletons (fold : Folding) (es : List (Element (NumericElement Units) β)) (u : Units) :
    MatchesAny fold (es.map ([·])) u ↔ ∃ e ∈ es, e.Matches fold u := by
  induction es with
  | nil => simp [MatchesAny]
  | cons e es ih => rw [List.map_cons, MatchesAny, matchesSeq_singleton, ih, List.exists_mem_cons_iff]

theorem orderedAny_singletons (es : List (Element (NumericElement Units) β)) :
    orderedAny (es.map ([·])) = true ↔ ∀ e ∈ es, e.ordered = true := by
  induction es with
  | nil => simp [orderedAny]
  | cons e es ih => simp [orderedAny, orderedSeq, ih]

end

/-- A term's literal. -/
def Element.literal {β : Type} : Element (NumericElement Units) β → Option Units
  | .term literal _ _ => some (utf16 literal)
  | .value (.term literal _) => some literal
  | _ => none

theorem utf16_any_letter (text : Text) : (utf16 text).any unitIsLetter = text.any isLetter := by
  induction text with
  | nil => rfl
  | cons c text ih =>
    rw [utf16_cons, List.any_append, ih, List.any_cons]
    congr 1
    have ha : ('a' : Char).toNat = 97 := rfl
    have hz : ('z' : Char).toNat = 122 := rfl
    have hA : ('A' : Char).toNat = 65 := rfl
    have hZ : ('Z' : Char).toNat = 90 := rfl
    rw [fromCodePoint]
    split
    · simp only [List.any_cons, List.any_nil, Bool.or_false, unitIsLetter, isLetter, char_le, decide_eq_decide]
      omega
    · simp only [List.any_cons, List.any_nil, Bool.or_false, unitIsLetter, isLetter, char_le, ← Bool.decide_or,
        decide_eq_decide]
      omega

/-! ## What is read -/

/-- An element as the front end builds it. -/
abbrev Ir := Element (NumericElement Units) JsNum

def atomIr (a : CAtom) : Ir := (Ts.builder Ts.valueOf).atom a

def elemIr (e : CElem) : Ir := Ts.wrap e.1 (atomIr e.2)

def seqIr (es : CSeq) : List Ir := (Ts.builder Ts.valueOf).seq es

def altsIr (as : CAlts) : List (List Ir) := (Ts.builder Ts.valueOf).alts as

/-! ## A text read as one element -/

/-- A text is read as one element with a property: a rule it is the body of has that element alone. -/
def ReadsAs (s : Text) (P : Element (NumericElement Units) JsNum → Prop) : Prop :=
  ∃ ls, Lexes s ls ∧ ∀ (name eq : Tok) (toks : List Tok), name.kind = .TX → eq.kind = .DEF →
    toks.map Tok.lex = ls → ∃ e, P e ∧
      ∀ d₀ engine, (Ts.grammar Ts.numericOf).Implements .abnf d₀ engine →
        Ts.parseAbnf engine holesRejected (name :: eq :: toks) =
          .ok [{ name := name.text, alts := [[e]], incremental := false, sp := some (spanOf name) }]

/-! ## A text that is one atom -/

/-- What may follow an atom's text: a space, or nothing. -/
def Ended (rest : Text) : Prop := ∀ c ∈ rest.head?, c = ' '

theorem Ended.space (s : Text) : Ended (' ' :: s) := by simp [Ended]

/-- What follows an atom's text ends a run of other text. -/
theorem Ended.ends {rest : Text} (h : Ended rest) : ∀ c ∈ rest.head?, endsText c = true := by
  intro c hc
  rw [h c hc]
  decide

/-- A text is the tokens of one atom, with a property, before a space or the end. -/
def AtomText (s : Text) (P : Element (NumericElement Units) JsNum → Prop) : Prop :=
  ∃ ls, (∀ rest, Ended rest → LexesTo (s ++ rest) rest ls) ∧
    ∀ toks rest : List Tok, toks.map Tok.lex = ls →
      ∃ a, DAtom (toks ++ rest) rest a ∧ (∀ t ∈ toks, t.kind = .NV → Ts.readable t = true) ∧
        P ((Ts.builder Ts.valueOf).atom a)

theorem AtomText.mono {s : Text} {P Q : Element (NumericElement Units) JsNum → Prop} (h : AtomText s P)
    (hPQ : ∀ e, P e → Q e) : AtomText s Q := by
  obtain ⟨ls, hl, h⟩ := h
  refine ⟨ls, hl, fun toks rest ht => ?_⟩
  obtain ⟨a, ha, hnv, hP⟩ := h toks rest ht
  exact ⟨a, ha, hnv, hPQ _ hP⟩

/-- The text of an atom reads as its element. -/
theorem AtomText.reads {s : Text} {P : Element (NumericElement Units) JsNum → Prop} (h : AtomText s P) :
    ReadsAs s P := by
  obtain ⟨ls, hl, h⟩ := h
  have hall := hl [] (by simp [Ended])
  rw [List.append_nil] at hall
  refine ⟨ls, hall.all, fun name eq toks hn he ht => ?_⟩
  obtain ⟨a, hatom, hnv, hP⟩ := h toks [] ht
  rw [List.append_nil] at hatom
  refine ⟨_, hP, fun d₀ engine himpl => ?_⟩
  have hhead : headOf (name :: eq :: toks) = some (.plain, name, toks) := by simp [headOf, headKind, hn, he]
  have hder : Derives (name :: eq :: toks) [⟨.plain, name, [[(.once, a)]]⟩] :=
    .one hhead (.one (.cons .once hatom .nil))
  refine (parseAbnf_ok Ts.numericOf_refused Ts.numericOf_readable himpl _ _).2 ⟨_, hder, fun t hm hk => ?_, rfl⟩
  have htoks : t ∈ toks := by
    rcases List.mem_cons.1 hm with rfl | hm
    · rw [hn] at hk; cases hk
    · rcases List.mem_cons.1 hm with rfl | hm
      · rw [he] at hk; cases hk
      · exact hm
  rw [hnv t htoks hk]
  rfl

/-! ## Strings -/

/-- A quoted string is a term that is not marked. -/
theorem atomText_string {val : Text} (h : val.all isCharVal = true) :
    AtomText ('"' :: (val ++ ['"'])) fun e => ∃ sp, e = .term val false sp := by
  refine ⟨[.ST val], fun rest _ => (longest_ST h).lexesTo, fun toks rest ht => ?_⟩
  obtain ⟨t, rfl, hlex⟩ := List.map_eq_singleton_iff.1 ht
  have hk : t.kind = .ST := by rw [Tok.kind, hlex]; rfl
  have htext : t.text = val := by rw [Tok.text, hlex]; rfl
  refine ⟨_, .st hk, by simp [hk], some (spanOf t), ?_⟩
  rw [← htext]
  rfl

/-- A string after `%s` is a term marked case-sensitive. -/
theorem atomText_sensitive {val : Text} (h : val.all isCharVal = true) :
    AtomText ('%' :: 's' :: '"' :: (val ++ ['"'])) fun e => ∃ sp, e = .term val true sp := by
  refine ⟨[.SS, .ST val], fun rest _ => ?_, fun toks rest ht => ?_⟩
  · have hl : LexesTo (['%', 's'] ++ ('"' :: (val ++ ['"']) ++ rest)) rest [.SS, .ST val] :=
      .token (longest_SS (.inl rfl)) (longest_ST h).lexesTo
    exact hl
  obtain ⟨p, ts, rfl, hp, ht⟩ := List.map_eq_cons_iff.1 ht
  obtain ⟨t, rfl, hlex⟩ := List.map_eq_singleton_iff.1 ht
  have hkp : p.kind = .SS := by rw [Tok.kind, hp]; rfl
  have hk : t.kind = .ST := by rw [Tok.kind, hlex]; rfl
  have htext : t.text = val := by rw [Tok.text, hlex]; rfl
  refine ⟨_, .ss hkp hk, by simp [hkp, hk], spanTo (some p) (some t), ?_⟩
  rw [← htext]
  rfl

/-! ## Numeric values -/

theorem Ended.numeric {rest : Text} (h : Ended rest) : carriesNumeric rest = false := by
  rcases rest with _ | ⟨c, _ | ⟨d, rest⟩⟩
  · rfl
  · cases h c rfl
    rfl
  · cases h c rfl
    rfl

/-- A token of a numeric value that is read. -/
theorem numericOf_text {src : Text} {hsrc : isNumericSource src = true} {v : Option Span → NumericElement Units}
    (h : ∀ sp, Ts.parseNumericValue src sp = .ok (v sp)) {t : Tok} (ht : t.lex = .NV ⟨src, hsrc⟩) :
    Ts.numericOf t = .ok (v (some (spanOf t))) ∧ Ts.readable t = true := by
  have hnum : Ts.numericOf t = .ok (v (some (spanOf t))) := by
    rw [Ts.numericOf, Tok.text, ht]
    exact h _
  refine ⟨hnum, ?_⟩
  rw [Ts.readable, hnum]
  rfl

/-- A numeric value that is read is the element it is. -/
theorem atomText_numeric {src : Text} (hsrc : isNumericSource src = true)
    {v : Option Span → NumericElement Units} (h : ∀ sp, Ts.parseNumericValue src sp = .ok (v sp)) :
    AtomText src fun e => ∃ sp, e = .value (v sp) := by
  have hl : ∀ rest, Ended rest → LexesTo (src ++ rest) rest [.NV ⟨src, hsrc⟩] := fun rest hr =>
    (@longest_NV ⟨src, hsrc⟩ _ hr.numeric).lexesTo
  refine ⟨_, hl, fun toks rest ht => ?_⟩
  obtain ⟨t, rfl, hlex⟩ := List.map_eq_singleton_iff.1 ht
  have hk : t.kind = .NV := by rw [Tok.kind, hlex]; rfl
  have hnum := numericOf_text h hlex
  refine ⟨_, .nv hk, fun t' hm _ => ?_, some (spanOf t), ?_⟩
  · rw [List.mem_singleton.1 hm, hnum.2]
  · have hval : Ts.valueOf t = v (some (spanOf t)) := by rw [Ts.valueOf, hnum.1]
    rw [← hval]
    rfl

/-- Hexadecimal digits between dots, or around a dash, are a numeric value. -/
theorem isNumericSource_codes {hs : List Text} {sep : Char} (hsep : sep = '-' ∨ sep = '.')
    (h : ∀ d ∈ hs, d ≠ [] ∧ d.all (isDigit 16) = true) (hne : hs ≠ []) :
    isNumericSource ('%' :: 'x' :: [sep].intercalate hs) = true := by
  have hparts : ([sep].intercalate hs).splitOnP (fun c => c == '-' || c == '.') = hs := by
    induction hs with
    | nil => exact absurd rfl hne
    | cons d hs ih =>
      have hd : ∀ c ∈ d, (c == '-' || c == '.') = false := by
        intro c hc
        have hhex := List.all_eq_true.1 (h d List.mem_cons_self).2 c hc
        rw [Bool.or_eq_false_iff, beq_eq_false_iff_ne, beq_eq_false_iff_ne]
        refine ⟨?_, ?_⟩ <;> rintro rfl <;> cases hhex
      by_cases hs' : hs = []
      · subst hs'
        rw [List.intercalate_singleton, List.splitOnP_eq_singleton hd]
      · have hp : (fun c => c == '-' || c == '.') sep = true := by rcases hsep with rfl | rfl <;> rfl
        rw [List.intercalate_cons_of_ne_nil hs', List.append_assoc, List.singleton_append,
          List.splitOnP_append_cons_of_forall_mem hd _ hp, ih (fun d' hd' => h d' (List.mem_cons_of_mem _ hd')) hs']
  have hall : hs.all (fun part => !part.isEmpty && part.all (isDigit 16)) = true := by
    rw [List.all_eq_true]
    intro d hd
    rw [Bool.and_eq_true, (h d hd).2]
    simpa using (h d hd).1
  rw [isNumericSource, hparts, hall]
  rfl

/-- A dotted value is the term of its code points. -/
theorem atomText_codes {hs : List Text} (hne : hs ≠ []) (h : ∀ d ∈ hs, Read 'x' d (ofDigits 16 d)) :
    AtomText ('%' :: 'x' :: ['.'].intercalate hs) fun e =>
      ∃ sp, e = .value (.term ((hs.map (ofDigits 16)).flatMap fromCodePoint) sp) := by
  have hdigits : ∀ d ∈ hs, d ≠ [] ∧ ∀ c ∈ d, isDigit 16 c = true := fun d hd => ⟨(h d hd).digits.1, (h d hd).digits.2.1⟩
  have hno : ∀ sep : Char, isDigit 16 sep = false → ∀ d ∈ hs, sep ∉ d := by
    intro sep hsep d hd hc
    rw [(hdigits d hd).2 sep hc] at hsep
    cases hsep
  have hsrc :=
    isNumericSource_codes (.inr rfl) (fun d hd => ⟨(hdigits d hd).1, List.all_eq_true.2 (hdigits d hd).2⟩) hne
  refine atomText_numeric hsrc fun sp => ?_
  have hdash : '-' ∉ ['.'].intercalate hs := by
    intro hm
    obtain ⟨d, hd, hc⟩ : ∃ d ∈ hs, '-' ∈ d := by
      have hparts := List.splitOn_intercalate '.' (hno '.' rfl) hne
      obtain ⟨d, hd, hc⟩ := @mem_splitOnP (· == '.') '-' _ rfl hm
      rw [← List.splitOn_eq_splitOnP, hparts] at hd
      exact ⟨d, hd, hc⟩
    exact hno '-' rfl d hd hc
  have hpoints : Ts.codePoints 'x' hs = .ok (hs.map (ofDigits 16)) := by
    clear hdash hsrc hno hdigits hne
    induction hs with
    | nil => rfl
    | cons d hs ih =>
      rw [Ts.codePoints, (h d List.mem_cons_self).ts, ih fun d' hd' => h d' (List.mem_cons_of_mem _ hd')]
      rfl
  simp only [Ts.parseNumericValue, splitBase, if_neg hdash, List.splitOn_intercalate '.' (hno '.' rfl) hne, hpoints]
  rfl

section

variable {lo hi : Text} {n m : Nat}

/-- The text of a range is a numeric value, whose two ends are read. -/
theorem parse_range (hlo : Read 'x' lo n) (hhi : Read 'x' hi m) :
    isNumericSource ('%' :: 'x' :: (lo ++ '-' :: hi)) = true ∧ ∀ sp,
      Ts.parseNumericValue ('%' :: 'x' :: (lo ++ '-' :: hi)) sp =
        .ok (if n = m then .term (fromCodePoint n) sp else .regex n m sp) := by
  have hbody : lo ++ '-' :: hi = ['-'].intercalate [lo, hi] := by simp
  have hparts : ∀ d ∈ [lo, hi], '-' ∉ d := by simp [hlo.no_dash, hhi.no_dash]
  have hdigits : ∀ d ∈ [lo, hi], d ≠ [] ∧ d.all (isDigit 16) = true := by
    intro d hd
    simp only [List.mem_cons, List.not_mem_nil, or_false] at hd
    rcases hd with rfl | rfl
    · exact ⟨hlo.digits.1, List.all_eq_true.2 hlo.digits.2.1⟩
    · exact ⟨hhi.digits.1, List.all_eq_true.2 hhi.digits.2.1⟩
  have hsrc := isNumericSource_codes (.inl rfl) hdigits (List.cons_ne_nil _ _)
  rw [← hbody] at hsrc
  refine ⟨hsrc, fun sp => ?_⟩
  have hends : Ts.ends (lo ++ '-' :: hi) = (lo, hi) := by
    unfold Ts.ends
    rw [hbody, List.splitOn_intercalate '-' hparts (List.cons_ne_nil _ _)]
    rfl
  have hdash : '-' ∈ lo ++ '-' :: hi := by simp
  unfold Ts.parseNumericValue splitBase
  simp only [if_pos hdash, hends, hlo.ts, hhi.ts, Except.bind, bind]
  split <;> rfl

/-- A range of two code points that are the same is the term of it. -/
theorem atomText_range (hlo : Read 'x' lo n) (hhi : Read 'x' hi m) :
    AtomText ('%' :: 'x' :: (lo ++ '-' :: hi)) fun e =>
      ∃ sp, e = .value (if n = m then .term (fromCodePoint n) sp else .regex n m sp) :=
  atomText_numeric (parse_range hlo hhi).1 (parse_range hlo hhi).2

end

end TabnasAbnf.Meta
