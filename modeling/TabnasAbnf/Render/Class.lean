/-
A token's pattern read as one character class: `[`, an optional `^`, members each a `\uXXXX` or
`\u{X...}` escape, alone or the low end of a range, and `]`. A pattern that passes is the text of its
members (`abnfClassPattern_pieces`), so what follows is about members and no longer about text.
-/
import TabnasAbnf.Render.Literal

namespace TabnasAbnf.Render

open TabnasAbnf.Base

/-! ## Comparing texts -/

/-- Whether two texts are the same: a text cut by itself is two empty texts. -/
def abnfSame (a b : Text) : Bool := if b = [] then a.isEmpty else split b a == [[], []]

/-- Whether a text is among others. -/
def abnfAmong (s : Text) (v : List Text) : Bool := !(v.filter (abnfSame · s)).isEmpty

theorem abnfSame_iff {a b : Text} : abnfSame a b = true ↔ a = b := by
  unfold abnfSame
  split
  · rename_i hb
    subst hb
    exact List.isEmpty_iff
  · rename_i hb
    rw [beq_iff_eq]
    constructor
    · intro h
      rw [← join_split hb a, h]
      simp [stringJoin]
    · rintro rfl
      have h := split_before hb []
      rw [List.append_nil] at h
      rw [h]
      rfl

theorem among_iff {s : Text} {v : List Text} : abnfAmong s v = true ↔ s ∈ v := by
  simp [abnfAmong, abnfSame_iff]

/-! ## The pattern -/

/-- `[\s\S]`, every character. -/
def anyClass : Text := ['[', '\\', 's', '\\', 'S', ']']

/-- What a pattern's escapes begin with. -/
def escapeMark : Text := ['\\', 'u']

def abnfHexOnly (h : Text) : Bool := !h.isEmpty && charsWithin [(48, 57), (65, 70), (97, 102)] h

/-- A piece without the dash that makes it a range's low end. -/
def pieceCore (piece : Text) : Text := if abnfEnds ['-'] piece then abnfBefore ['-'] piece else piece

def abnfMemberPiece (piece : Text) : Bool :=
  let core := pieceCore piece
  if abnfStarts ['\x7b'] core then
    if abnfEnds ['\x7d'] core then
      let h := abnfBefore ['\x7d'] (abnfAfter ['\x7b'] core)
      if h.length ∈ [1, 2, 3, 4, 5, 6] then abnfHexOnly h else false
    else false
  else if core.length = 4 then abnfHexOnly core
  else false

/-- What stands between a pattern's brackets. -/
def classInner (body : Text) : Text := abnfBefore [']'] (abnfAfter ['['] body)

/-- The same without the `^` of a negated class. -/
def unnegated (inner : Text) : Text := if abnfStarts ['^'] inner then abnfAfter ['^'] inner else inner

def abnfClassPattern (body : Text) : Bool :=
  if body = anyClass then true
  else if abnfEnds [']'] body then
    let inner := classInner body
    if !([['['], [']']].filter fun c => !(split c inner).tail.isEmpty).isEmpty then false
    else
      let pieces := split escapeMark (unnegated inner)
      if (pieces.getD 0 []).isEmpty then
        let members := pieces.tail
        if members.isEmpty then false
        else if abnfEnds ['-'] (members.getLastD []) then false
        else (members.filter fun m => !abnfMemberPiece m).isEmpty
      else false
  else false

/-! ## Flags -/

/-- A piece's digits. -/
def abnfPieceHex (piece : Text) : Text :=
  let core := pieceCore piece
  if abnfStarts ['\x7b'] core then abnfBefore ['\x7d'] (abnfAfter ['\x7b'] core) else core

/-- The members of a pattern, each a range from its low end's digits to its high end's. -/
def abnfClassHexSpans (body : Text) : List (Text × Text) :=
  if body = anyClass then [(['0'], ['1', '0', 'F', 'F', 'F', 'F'])]
  else
    let pieces := (split escapeMark (unnegated (classInner body))).tail
    let lows := pieces.map (abnfEnds ['-'])
    ((List.range pieces.length).filter fun i => !(false :: lows).getD i false).map fun i =>
      let lo := abnfPieceHex (pieces.getD i [])
      if lows.getD i false then (lo, abnfPieceHex (pieces.getD (i + 1) [])) else (lo, lo)

def abnfHexFrom (h : Text) (prefixes : List Text) : Bool :=
  let x := abnfHexUpper h
  if x.length = 4 then !(prefixes.filter (abnfStarts · x)).isEmpty else false

/-- Whether the compiler gives the class `u`. -/
def abnfWantsU (body : Text) : Bool :=
  if body = anyClass then true
  else if abnfStarts ['[', '^'] body then true
  else !(split ['\\', 'u', '\x7b'] body).tail.isEmpty

/-- Whether a class none of whose members is past U+FFFF holds a surrogate. -/
def abnfHoldsSurrogate (body : Text) : Bool :=
  !((abnfClassHexSpans body).filter fun s =>
    if abnfHexFrom s.1 [['E'], ['F']] then false
    else abnfHexFrom s.2 [['D', '8'], ['D', '9'], ['D', 'A'], ['D', 'B'], ['D', 'C'], ['D', 'D'], ['D', 'E'],
      ['D', 'F'],
      ['E'], ['F']]).isEmpty

/-- Whether a class's flags are the ones it is matched with once its text is compiled back. -/
def abnfFlagsFit (body flags : Text) : Bool :=
  if abnfWantsU body then abnfSame flags ['u']
  else if abnfHoldsSurrogate body then flags.isEmpty
  else abnfAmong flags [[], ['u']]

/-! ## The text of a class -/

/-- A code point of a pattern as ABNF's hexadecimal digits. -/
def abnfEscapeHex (e : Text) : Text :=
  if abnfStarts escapeMark e then
    let h := abnfAfter escapeMark e
    if abnfStarts ['\x7b'] h then abnfHexUpper (abnfBefore ['\x7d'] (abnfAfter ['\x7b'] h))
    else if abnfStarts ['0', '0'] h then abnfHexUpper (abnfAfter ['0', '0'] h)
    else abnfHexUpper h
  else []

/-- A class's members: the digits of each one's low end and of its high end. -/
def abnfClassMembers (body : Text) : List (Text × Text) :=
  let pieces := (split escapeMark body).tail
  let prev := [] :: pieces
  ((List.range pieces.length).filter fun i => !abnfEnds ['-'] (prev.getD i [])).map fun i =>
    let piece := pieces.getD i []
    if abnfEnds ['-'] piece then
      (abnfEscapeHex (escapeMark ++ abnfBefore ['-'] piece), abnfEscapeHex (escapeMark ++ pieces.getD (i + 1) []))
    else (abnfEscapeHex (escapeMark ++ piece), abnfEscapeHex (escapeMark ++ piece))

/-- Why the renderer refuses a class. -/
inductive ClassRefusal
  | negated (pat : Text)
  | notRange (pat : Text)
  | empty (pat : Text)
  | alone (pat h : Text)
  | literal (e : LitRefusal)
  deriving DecidableEq, Repr

/-- Whether four hexadecimal digits name an ASCII character. -/
def abnfAsciiCode (h4 : Text) : Bool :=
  if abnfStarts ['0', '0'] h4 then
    !([['0'], ['1'], ['2'], ['3'], ['4'], ['5'], ['6'], ['7']].filter
      (abnfStarts · (abnfAfter ['0', '0'] h4))).isEmpty
  else false

/-- Digits in lower case, one to three of them made four. -/
def fourDigits (h : Text) : Text :=
  (if h.length = 1 then ['0', '0', '0'] else if h.length = 2 then ['0', '0'] else if h.length = 3 then ['0'] else []) ++
    abnfHexLower h

/-- A member: a range as a range; a character as a string where one can hold it, and otherwise, below
U+0080, as a range of one. -/
def abnfMemberText (pat : Text) (m : Text × Text) : Except ClassRefusal Text :=
  if abnfSame m.1 m.2 then
    let h := m.1
    let h4 := fourDigits h
    if abnfAsciiCode h4 then
      let c := unquotedEscape h4
      if charsWithin [(32, 33), (35, 126)] c then (abnfLitText c true).mapError .literal
      else .ok (['%', 'x'] ++ h ++ ['-'] ++ h)
    else .error (.alone pat (abnfHexUpper h4))
  else .ok (['%', 'x'] ++ m.1 ++ ['-'] ++ m.2)

def abnfRangeText (pat : Text) : Except ClassRefusal Text :=
  let body := classInner pat
  if abnfStarts ['^'] body then .error (.negated pat)
  else
    let members := abnfClassMembers body
    if (members.filter fun m => m.1.isEmpty).isEmpty then
      if members.length = 0 then .error (.empty pat)
      else if members.length = 1 then abnfMemberText pat (members.getD 0 ([], []))
      else do
        let texts ← members.mapM (abnfMemberText pat)
        .ok (['(', ' '] ++ stringJoin [' ', '/', ' '] texts ++ [' ', ')'])
    else .error (.notRange pat)

/-- A class as ABNF. -/
def abnfClassText (pat _flags : Text) : Except ClassRefusal Text :=
  if pat = anyClass then .ok ['%', 'x', '0', '-', '1', '0', 'F', 'F', 'F', 'F'] else abnfRangeText pat

/-! ## A member -/

theorem charsWithin_hex {h : Text} (hw : charsWithin [(48, 57), (65, 70), (97, 102)] h = true) :
    h.all (isDigit 16) = true := by
  unfold charsWithin at hw
  rw [List.all_eq_true] at hw ⊢
  intro c hc
  have hr := hw c hc
  simp only [List.any_cons, List.any_nil, Bool.or_false, Bool.or_eq_true, decide_eq_true_eq] at hr
  have h0 : ('0' : Char).toNat = 48 := rfl
  have h9 : ('9' : Char).toNat = 57 := rfl
  have ha : ('a' : Char).toNat = 97 := rfl
  have hz : ('z' : Char).toNat = 122 := rfl
  have hA : ('A' : Char).toNat = 65 := rfl
  have hZ : ('Z' : Char).toNat = 90 := rfl
  have hle : ∀ c d : Char, c ≤ d ↔ c.toNat ≤ d.toNat := fun _ _ => Iff.rfl
  unfold isDigit digitVal
  simp only [hle]
  rcases hr with hr | hr | hr
  · rw [if_pos (by omega), Option.any_some, decide_eq_true_eq]
    omega
  · rw [if_neg (by omega), if_neg (by omega), if_pos (by omega), Option.any_some, decide_eq_true_eq]
    omega
  · rw [if_neg (by omega), if_pos (by omega), Option.any_some, decide_eq_true_eq]
    omega

theorem isDigit_not_mark {c : Char} (h : isDigit 16 c = true) :
    c ≠ '\\' ∧ c ≠ '-' ∧ c ≠ '\x7b' ∧ c ≠ '\x7d' ∧ c ≠ '[' ∧ c ≠ ']' ∧ c ≠ '^' ∧ c ≠ 'u' := by
  refine ⟨?_, ?_, ?_, ?_, ?_, ?_, ?_, ?_⟩ <;> rintro rfl <;> cases h

/-- A member's escape: its digits, whether braces stand around them, and whether a dash follows. -/
structure Piece where
  braced : Bool
  hex : Text
  dash : Bool
  digits : hex.all (isDigit 16) = true
  width : if braced then 1 ≤ hex.length ∧ hex.length ≤ 6 else hex.length = 4

namespace Piece

def core (p : Piece) : Text := if p.braced then '\x7b' :: (p.hex ++ ['\x7d']) else p.hex

/-- The text after the escape's `\u`. -/
def src (p : Piece) : Text := if p.dash then p.core ++ ['-'] else p.core

/-- The code point. -/
def value (p : Piece) : Nat := ofDigits 16 p.hex

variable (p : Piece)

theorem mem_hex {c : Char} (h : c ∈ p.hex) : isDigit 16 c = true := List.all_eq_true.1 p.digits c h

theorem hex_ne_nil : p.hex ≠ [] := by
  intro h
  have hw := p.width
  rw [h] at hw
  split at hw <;> simp at hw

theorem core_ends : abnfEnds ['-'] p.core = false := by
  rw [Bool.eq_false_iff]
  intro h
  obtain ⟨t, ht⟩ := abnfEnds_iff.1 h
  unfold core at ht
  split at ht
  · have hl := congrArg List.getLast? ht
    rw [← List.cons_append, List.getLast?_concat, List.getLast?_concat] at hl
    cases hl
  · have hm : '-' ∈ p.hex := by rw [ht]; simp
    exact (isDigit_not_mark (p.mem_hex hm)).2.1 rfl

theorem src_ends : abnfEnds ['-'] p.src = p.dash := by
  unfold src
  split
  · rename_i hd
    rw [hd]
    exact abnfEnds_iff.2 ⟨p.core, rfl⟩
  · rename_i hd
    rw [core_ends, Bool.not_eq_true] at *
    exact hd.symm

theorem pieceCore_src : pieceCore p.src = p.core := by
  unfold pieceCore
  rw [src_ends]
  unfold src
  split
  · exact abnfBefore_concat _ _
  · rfl

theorem core_starts : abnfStarts ['\x7b'] p.core = p.braced := by
  unfold core
  split
  · rename_i hb
    rw [hb]
    exact (abnfStarts_iff (List.cons_ne_nil _ _)).2 ⟨_, rfl⟩
  · rename_i hb
    rw [Bool.not_eq_true] at hb
    rw [hb, Bool.eq_false_iff]
    intro h
    obtain ⟨t, ht⟩ := (abnfStarts_iff (List.cons_ne_nil _ _)).1 h
    have hm : '\x7b' ∈ p.hex := by rw [← ht]; simp
    exact (isDigit_not_mark (p.mem_hex hm)).2.2.1 rfl

theorem unbraced {h : Text} : abnfBefore ['\x7d'] (abnfAfter ['\x7b'] ('\x7b' :: (h ++ ['\x7d']))) = h := by
  have ha := abnfAfter_append (List.cons_ne_nil '\x7b' []) (h ++ ['\x7d'])
  rw [List.singleton_append] at ha
  rw [ha, abnfBefore_concat]

theorem pieceHex_src : abnfPieceHex p.src = p.hex := by
  unfold abnfPieceHex
  rw [pieceCore_src]
  simp only [core_starts]
  unfold core
  split
  · exact unbraced
  · rfl

theorem no_backslash : '\\' ∉ p.src := by
  have hhex : '\\' ∉ p.hex := fun h => (isDigit_not_mark (p.mem_hex h)).1 rfl
  unfold src core
  split <;> split <;> simp [hhex]

end Piece

/-- A piece that passes is a member's escape. -/
theorem abnfMemberPiece_piece {s : Text} (h : abnfMemberPiece s = true) : ∃ p : Piece, p.src = s := by
  have hsrc : ∃ dash : Bool, s = if dash then pieceCore s ++ ['-'] else pieceCore s := by
    by_cases hd : abnfEnds ['-'] s = true
    · refine ⟨true, ?_⟩
      unfold pieceCore
      rw [if_pos hd, if_pos rfl]
      obtain ⟨t, rfl⟩ := abnfEnds_iff.1 hd
      rw [abnfBefore_concat]
    · refine ⟨false, ?_⟩
      unfold pieceCore
      rw [if_neg hd]
      rfl
  obtain ⟨dash, hsrc⟩ := hsrc
  have hcore : ∀ q : Piece, q.dash = dash → q.core = pieceCore s → q.src = s := by
    intro q hqd hqc
    unfold Piece.src
    rw [hqd, hqc]
    exact hsrc.symm
  have hhex : ∀ t : Text, abnfHexOnly t = true → t.all (isDigit 16) = true := by
    intro t ht
    exact charsWithin_hex (Bool.and_eq_true_iff.1 ht).2
  unfold abnfMemberPiece at h
  simp only at h
  split at h
  · rename_i hb
    split at h
    · rename_i he
      split at h
      · rename_i hlen
        -- braces around one to six digits
        obtain ⟨t, ht⟩ := (abnfStarts_iff (List.cons_ne_nil _ _)).1 hb
        obtain ⟨t', ht'⟩ := abnfEnds_iff.1 he
        have hshape : ∃ u, pieceCore s = '\x7b' :: (u ++ ['\x7d']) := by
          rw [← ht] at ht'
          rcases t' with _ | ⟨c, t'⟩
          · cases ht'
          · rw [List.singleton_append, List.cons_append, List.cons.injEq] at ht'
            refine ⟨t', ?_⟩
            rw [← ht, ← ht'.2]
            rfl
        obtain ⟨u, hu⟩ := hshape
        rw [hu, Piece.unbraced] at h hlen
        refine ⟨⟨true, u, dash, hhex u h, ?_⟩, hcore _ rfl hu.symm⟩
        simp only [List.mem_cons, List.not_mem_nil, or_false] at hlen
        rw [if_pos rfl]
        omega
      · cases h
    · cases h
  · split at h
    · rename_i hlen
      exact ⟨⟨false, pieceCore s, dash, hhex _ h, hlen⟩, hcore _ rfl rfl⟩
    · cases h

/-! ## A pattern that passes -/

/-- The text of a class's members. -/
def membersText (ps : List Piece) : Text := ps.flatMap fun p => escapeMark ++ p.src

/-- The pattern of a class. -/
def patternText (negated : Bool) (ps : List Piece) : Text :=
  '[' :: ((if negated then ['^'] else []) ++ membersText ps ++ [']'])

theorem split_members {a : Text} (ha : '\\' ∉ a) (ps : List Piece) :
    split escapeMark (a ++ membersText ps) = a :: ps.map Piece.src := by
  induction ps generalizing a with
  | nil =>
    rw [membersText, List.flatMap_nil, List.append_nil]
    exact split_eq_singleton ha
  | cons p ps ih =>
    rw [membersText, List.flatMap_cons, ← membersText, List.append_assoc]
    have hsplit : split escapeMark (a ++ (escapeMark ++ (p.src ++ membersText ps))) =
        a :: split escapeMark (p.src ++ membersText ps) := split_append_cons ha _
    rw [hsplit, ih p.no_backslash]
    rfl

theorem split_membersText (ps : List Piece) : split escapeMark (membersText ps) = [] :: ps.map Piece.src :=
  split_members List.not_mem_nil ps

theorem classInner_patternText (negated : Bool) (ps : List Piece) :
    classInner (patternText negated ps) = (if negated then ['^'] else []) ++ membersText ps := by
  unfold classInner patternText
  have ha := abnfAfter_append (List.cons_ne_nil '[' []) ((if negated then ['^'] else []) ++ membersText ps ++ [']'])
  rw [List.singleton_append] at ha
  rw [ha, abnfBefore_concat]

theorem membersText_caret (ps : List Piece) : abnfStarts ['^'] (membersText ps) = false := by
  rw [Bool.eq_false_iff]
  intro h
  obtain ⟨t, ht⟩ := (abnfStarts_iff (List.cons_ne_nil _ _)).1 h
  rcases ps with _ | ⟨p, ps⟩ <;> cases ht

theorem exists_pieces {members : List Text} (h : ∀ m ∈ members, ∃ p : Piece, p.src = m) :
    ∃ ps : List Piece, ps.map Piece.src = members := by
  induction members with
  | nil => exact ⟨[], rfl⟩
  | cons m members ih =>
    obtain ⟨p, hp⟩ := h m List.mem_cons_self
    obtain ⟨ps, hps⟩ := ih fun m' hm => h m' (List.mem_cons_of_mem _ hm)
    exact ⟨p :: ps, by rw [List.map_cons, hp, hps]⟩

theorem membersText_eq (ps : List Piece) :
    membersText ps = stringJoin escapeMark ([] :: ps.map Piece.src) := by
  have hjoin := join_split (List.cons_ne_nil '\\' ['u']) (membersText ps)
  rw [← hjoin]
  exact congrArg _ (split_membersText ps)

/-- A pattern the recognizer takes is `[\s\S]`, or one class of one member or more, whose last has no
dash after it. -/
theorem abnfClassPattern_pieces {b : Text} (h : abnfClassPattern ('[' :: b) = true) :
    '[' :: b = anyClass ∨
      ∃ negated ps, ps ≠ [] ∧ (∀ p ∈ ps.getLast?, p.dash = false) ∧ '[' :: b = patternText negated ps := by
  unfold abnfClassPattern at h
  split at h
  · exact .inl ‹_›
  split at h
  · rename_i hend
    refine .inr ?_
    obtain ⟨t, ht⟩ := abnfEnds_iff.1 hend
    rcases t with _ | ⟨c, inner⟩
    · cases ht
    rw [List.cons_append, List.cons.injEq] at ht
    obtain ⟨rfl, rfl⟩ := ht
    have hinner : classInner ('[' :: (inner ++ [']'])) = inner := by
      unfold classInner
      have ha := abnfAfter_append (List.cons_ne_nil '[' []) (inner ++ [']'])
      rw [List.singleton_append] at ha
      rw [ha, abnfBefore_concat]
    rw [hinner] at h
    simp only at h
    split at h
    · cases h
    split at h
    · rename_i hfirst
      split at h
      · cases h
      · rename_i hne
        split at h
        · cases h
        · rename_i hlast
          -- the pieces after the first are members
          obtain ⟨q, ms, hq⟩ := List.exists_cons_of_ne_nil (split_ne_nil escapeMark (unnegated inner))
          rw [hq] at h hfirst hne hlast
          have hq0 : q = [] := List.isEmpty_iff.1 hfirst
          subst hq0
          simp only [List.tail_cons] at h hne hlast
          rw [List.isEmpty_iff, List.filter_eq_nil_iff] at h
          obtain ⟨ps, rfl⟩ := exists_pieces fun m hm => abnfMemberPiece_piece (by simpa using h m hm)
          have hps : ps ≠ [] := by
            rintro rfl
            exact hne rfl
          have htext : unnegated inner = membersText ps := by
            rw [membersText_eq, ← hq]
            exact (join_split (List.cons_ne_nil _ _) _).symm
          refine ⟨abnfStarts ['^'] inner, ps, hps, ?_, ?_⟩
          · intro p hp
            obtain ⟨ps', rfl⟩ := List.getLast?_eq_some_iff.1 hp
            rw [List.map_append, List.map_singleton, List.getLastD_concat, Piece.src_ends] at hlast
            simpa using hlast
          · unfold patternText
            rw [← htext]
            unfold unnegated
            split
            · rename_i hcaret
              obtain ⟨t, rfl⟩ := (abnfStarts_iff (List.cons_ne_nil _ _)).1 hcaret
              rw [abnfAfter_append (List.cons_ne_nil _ _)]
            · rename_i hcaret
              rfl
    · cases h
  · cases h

end TabnasAbnf.Render
