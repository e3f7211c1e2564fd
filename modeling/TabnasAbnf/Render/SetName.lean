/-
A token set's name read back: the name the compiler gives a class flattens its marks to underscores, and
the renderer finds the class again from where they stand.
-/
import TabnasAbnf.Render.Token

namespace TabnasAbnf.Render

open TabnasAbnf.Base

/-! ## The patterns a set is named for -/

/-- The hexadecimal digits with small letters. -/
def lowerDigits : Text := "0123456789abcdef".toList

/-- A class of one member or more, each a `\u` escape in small letters alone or the low end of a range. -/
structure SetPattern where
  negated : Bool
  members : List Piece
  ne : members ≠ []
  last : ∀ p ∈ members.getLast?, p.dash = false
  lower : ∀ p ∈ members, ∀ c ∈ p.hex, c ∈ lowerDigits

namespace SetPattern

def text (p : SetPattern) : Text := patternText p.negated p.members

/-- The flags the compiler writes the class with. -/
def flags (p : SetPattern) : Text := if p.negated || p.members.any (·.braced) then ['u'] else []

end SetPattern

/-! ## The name of a class -/

/-- A pattern's text as a name has it. -/
@[irreducible] def nameText (pat : Text) : Text :=
  swapChar '[' '_' (swapChar ']' '_' (swapChar '^' '_' (swapChar '-' '_' (swapChar '\\' '_' (swapChar '\x7b' '_'
    (swapChar '\x7d' '_' (abnfHexUpper (swapChar 'u' 'U' (swapChar 's' 'S' pat)))))))))

theorem abnfClassName_eq (pat : Text) : abnfClassName pat = abnfTrimEnd ("RX_".toList ++ nameText pat) := by
  unfold nameText
  rfl

theorem nameText_nil : nameText [] = [] := by
  simp only [nameText, abnfHexUpper, swapChar_eq, List.map_nil]

theorem nameText_append (s t : Text) : nameText (s ++ t) = nameText s ++ nameText t := by
  simp only [nameText, abnfHexUpper, swapChar_eq, List.map_append]

theorem nameText_flatMap {α : Type} (f : α → Text) (l : List α) :
    nameText (l.flatMap f) = l.flatMap fun x => nameText (f x) := by
  induction l with
  | nil => exact nameText_nil
  | cons x l ih => rw [List.flatMap_cons, nameText_append, ih, List.flatMap_cons]

/-- Small digits are capitals in the name, none of them an underscore or a `U`, and small again when read back. -/
theorem lower_digit {c : Char} (h : c ∈ lowerDigits) :
    ∃ d, nameText [c] = [d] ∧ abnfHexLower [d] = [c] ∧ d ≠ '_' ∧ d ≠ 'U' := by
  have hall : lowerDigits.all (fun c => (nameText [c]).length == 1 && abnfHexLower (nameText [c]) == [c] &&
      !(nameText [c]).contains '_' && !(nameText [c]).contains 'U') = true := by decide +kernel
  have hc := List.all_eq_true.1 hall c h
  simp only [Bool.and_eq_true, beq_iff_eq, Bool.not_eq_true', List.contains_eq_mem, decide_eq_false_iff_not] at hc
  obtain ⟨⟨⟨hlen, hlow⟩, hbar⟩, hu⟩ := hc
  obtain ⟨d, hd⟩ := List.length_eq_one_iff.1 hlen
  rw [hd] at hlow hbar hu
  exact ⟨d, hd, hlow, fun h => hbar (h ▸ List.mem_singleton_self _), fun h => hu (h ▸ List.mem_singleton_self _)⟩

theorem abnfHexLower_append (s t : Text) : abnfHexLower (s ++ t) = abnfHexLower s ++ abnfHexLower t := by
  simp only [abnfHexLower, swapChar_eq, List.map_append]

theorem lower_digits {h : Text} (hl : ∀ c ∈ h, c ∈ lowerDigits) :
    abnfHexLower (nameText h) = h ∧ '_' ∉ nameText h ∧ 'U' ∉ nameText h ∧ (nameText h).length = h.length := by
  induction h with
  | nil => simp [nameText_nil, abnfHexLower, swapChar_eq]
  | cons c h ih =>
    obtain ⟨hc, hh⟩ := List.forall_mem_cons.1 hl
    obtain ⟨d, hd, hlow, hbar, hu⟩ := lower_digit hc
    obtain ⟨ihlow, ihbar, ihu, ihlen⟩ := ih hh
    have hcons : nameText (c :: h) = d :: nameText h := by
      rw [← List.singleton_append, nameText_append, hd, List.singleton_append]
    rw [hcons]
    refine ⟨?_, ?_, ?_, by rw [List.length_cons, ihlen, List.length_cons]⟩
    · rw [← List.singleton_append, abnfHexLower_append, hlow, ihlow, List.singleton_append]
    · simpa [hbar.symm] using ihbar
    · simpa [hu.symm] using ihu

namespace Piece

/-- A member's digits in the name. -/
def name (p : Piece) : Text := nameText p.hex

/-- A member in the name, after its `_U`. -/
def nameSrc (p : Piece) : Text :=
  (if p.braced then '_' :: (p.name ++ ['_']) else p.name) ++ if p.dash then ['_'] else []

/-- The last member in the name, without the underscores at its end. -/
def nameLast (p : Piece) : Text := if p.braced then '_' :: p.name else p.name

theorem nameText_src (p : Piece) : nameText (escapeMark ++ p.src) = '_' :: 'U' :: p.nameSrc := by
  have hmark : nameText escapeMark = ['_', 'U'] := by decide +kernel
  have hopen : nameText ['\x7b'] = ['_'] := by decide +kernel
  have hclose : nameText ['\x7d'] = ['_'] := by decide +kernel
  have hdash : nameText ['-'] = ['_'] := by decide +kernel
  have hcore : nameText p.core = if p.braced then '_' :: (p.name ++ ['_']) else p.name := by
    unfold core
    split
    · rw [← List.singleton_append, nameText_append, nameText_append, hopen, hclose]
      rfl
    · rfl
  rw [nameText_append, hmark]
  unfold src nameSrc
  split
  · rw [nameText_append, hcore, hdash]
    rfl
  · rw [hcore, List.append_nil]
    rfl

end Piece

/-- What stands before a name's first member. -/
def nameFront (negated : Bool) : Text := if negated then ['_', '_'] else ['_']

theorem nameText_pattern (negated : Bool) (ps : List Piece) :
    nameText (patternText negated ps) =
      nameFront negated ++ (ps.flatMap fun p => '_' :: 'U' :: p.nameSrc) ++ ['_'] := by
  have hopen : nameText ['['] = ['_'] := by decide +kernel
  have hcaret : nameText ['^'] = ['_'] := by decide +kernel
  have hclose : nameText [']'] = ['_'] := by decide +kernel
  have hmembers : nameText (membersText ps) = ps.flatMap fun p => '_' :: 'U' :: p.nameSrc := by
    rw [membersText, nameText_flatMap]
    simp only [Piece.nameText_src]
  unfold patternText
  rw [← List.singleton_append, nameText_append, nameText_append, nameText_append, hopen, hclose, hmembers]
  unfold nameFront
  split
  · rw [hcaret]
    simp
  · simp [nameText_nil]

/-! ## The end of a name -/

theorem abnfTrimEnd_bar (t : Text) : abnfTrimEnd (t ++ ['_']) = abnfTrimEndOnce t := by
  rw [abnfTrimEnd, if_pos (abnfEnds_iff.2 ⟨t, rfl⟩), abnfBefore_concat]

theorem abnfTrimEndOnce_bar (t : Text) : abnfTrimEndOnce (t ++ ['_']) = t := by
  rw [abnfTrimEndOnce, if_pos (abnfEnds_iff.2 ⟨t, rfl⟩), abnfBefore_concat]

theorem abnfTrimEndOnce_other {d : Char} (h : d ≠ '_') (t : Text) : abnfTrimEndOnce (t ++ [d]) = t ++ [d] := by
  rw [abnfTrimEndOnce, if_neg]
  intro hends
  obtain ⟨t', ht⟩ := abnfEnds_iff.1 hends
  exact h (List.singleton_inj.1 (List.append_inj_right' ht rfl))

section

variable {p : Piece}

theorem Piece.name_concat (hl : ∀ c ∈ p.hex, c ∈ lowerDigits) : ∃ t d, p.name = t ++ [d] ∧ d ≠ '_' := by
  obtain ⟨-, hbar, -, hlen⟩ := lower_digits hl
  rcases List.eq_nil_or_concat p.name with hn | ⟨t, d, hn⟩
  · rw [name] at hn
    rw [hn] at hlen
    exact absurd (List.length_eq_zero_iff.1 hlen.symm) p.hex_ne_nil
  · rw [List.concat_eq_append] at hn
    refine ⟨t, d, hn, fun hd => hbar ?_⟩
    rw [← name, hn, hd]
    exact List.mem_append_right _ (List.mem_singleton_self _)

/-- The end of a name is its last member's digits, after one underscore fewer or two. -/
theorem abnfTrimEnd_last (hl : ∀ c ∈ p.hex, c ∈ lowerDigits) (hd : p.dash = false) (t : Text) :
    abnfTrimEnd (t ++ p.nameSrc ++ ['_']) = t ++ p.nameLast := by
  obtain ⟨n, d, hn, hbar⟩ := p.name_concat hl
  rw [abnfTrimEnd_bar, Piece.nameSrc, Piece.nameLast, hd, if_neg Bool.false_ne_true, List.append_nil, hn]
  split
  · rw [← List.cons_append, ← List.append_assoc, abnfTrimEndOnce_bar]
  · rw [← List.append_assoc, abnfTrimEndOnce_other hbar]

end

/-- The name of a class: its members but the last with the underscores of their marks, and the last without. -/
theorem abnfClassName_pattern {negated : Bool} {ps : List Piece} {p : Piece} (hl : ∀ c ∈ p.hex, c ∈ lowerDigits)
    (hd : p.dash = false) : abnfClassName (patternText negated (ps ++ [p])) =
      "RX_".toList ++ (nameFront negated ++ (ps.flatMap fun q => '_' :: 'U' :: q.nameSrc) ++ '_' :: 'U' ::
        p.nameLast) := by
  have hend := abnfTrimEnd_last hl hd ("RX_".toList ++ (nameFront negated ++
    (ps.flatMap fun q => '_' :: 'U' :: q.nameSrc) ++ ['_', 'U']))
  rw [abnfClassName_eq, nameText_pattern, List.flatMap_append, List.flatMap_singleton]
  simpa using hend

/-! ## The name cut at its members -/

section

variable {p : Piece}

theorem Piece.bar_not_mem (hl : ∀ c ∈ p.hex, c ∈ lowerDigits) : 'U' ∉ p.nameSrc ∧ 'U' ∉ p.nameLast := by
  have hu : 'U' ∉ p.name := (lower_digits hl).2.2.1
  unfold nameSrc nameLast
  constructor
  · split <;> split <;> simp [hu]
  · split <;> simp [hu]

/-- The pieces of a name are its front and its members. -/
theorem split_name {a : Text} {ps : List Piece} (ha : 'U' ∉ a) (hps : ∀ q ∈ ps, ∀ c ∈ q.hex, c ∈ lowerDigits)
    (hl : ∀ c ∈ p.hex, c ∈ lowerDigits) :
    split ['_', 'U'] (a ++ (ps.flatMap fun q => '_' :: 'U' :: q.nameSrc) ++ '_' :: 'U' :: p.nameLast) =
      a :: (ps.map Piece.nameSrc ++ [p.nameLast]) := by
  induction ps generalizing a with
  | nil =>
    rw [List.flatMap_nil, List.append_nil, split_append_pair ha (by decide),
      split_pair_eq_singleton (p.bar_not_mem hl).2]
    rfl
  | cons q ps ih =>
    obtain ⟨hq, hps⟩ := List.forall_mem_cons.1 hps
    have ih := ih (q.bar_not_mem hq).1 hps
    rw [List.append_assoc] at ih
    rw [List.flatMap_cons, List.cons_append, List.cons_append, List.append_assoc, List.cons_append, List.cons_append,
      split_append_pair ha (by decide), List.append_assoc, ih]
    rfl

/-- A member's text, as `abnf-set-member` gives it. -/
def Piece.setMember (p : Piece) : SetMember := ⟨escapeMark ++ p.core, p.braced, p.dash⟩

theorem abnfSetMember_braced {h : Text} {rest : List Text} {piece : Text} (hs : split ['_'] piece = [] :: h :: rest) :
    abnfSetMember piece = some ⟨['\\', 'u', '\x7b'] ++ abnfHexLower h ++ ['\x7d'], true, decide (rest.length = 2)⟩ := by
  simp only [abnfSetMember, hs, List.head?_cons, Option.map_some, List.length_cons]
  simp

theorem abnfSetMember_plain {h : Text} {rest : List Text} {piece : Text} (hne : h ≠ [])
    (hs : split ['_'] piece = h :: rest) :
    abnfSetMember piece = some ⟨['\\', 'u'] ++ abnfHexLower h, false, decide (rest.length = 1)⟩ := by
  obtain ⟨c, h, rfl⟩ := List.exists_cons_of_ne_nil hne
  simp only [abnfSetMember, hs]

theorem Piece.setMember_braced (hb : p.braced = true) (hl : ∀ c ∈ p.hex, c ∈ lowerDigits) :
    p.setMember = ⟨['\\', 'u', '\x7b'] ++ abnfHexLower p.name ++ ['\x7d'], true, p.dash⟩ := by
  rw [setMember, core, hb, if_pos rfl, name, (lower_digits hl).1]
  rfl

theorem Piece.setMember_plain (hb : p.braced = false) (hl : ∀ c ∈ p.hex, c ∈ lowerDigits) :
    p.setMember = ⟨['\\', 'u'] ++ abnfHexLower p.name, false, p.dash⟩ := by
  rw [setMember, core, hb, if_neg Bool.false_ne_true, name, (lower_digits hl).1]
  rfl

theorem Piece.name_ne_nil (hl : ∀ c ∈ p.hex, c ∈ lowerDigits) : p.name ≠ [] := by
  obtain ⟨t, d, hn, -⟩ := p.name_concat hl
  rw [hn]
  exact List.append_ne_nil_of_right_ne_nil _ (List.cons_ne_nil d [])

theorem abnfSetMember_nameSrc (hl : ∀ c ∈ p.hex, c ∈ lowerDigits) : abnfSetMember p.nameSrc = some p.setMember := by
  have hbar : '_' ∉ p.name := (lower_digits hl).2.1
  have htail : ∀ b : Bool, split ['_'] (if b then ['_'] else []) = if b then [[], []] else [[]] := by decide
  rcases Bool.eq_false_or_eq_true p.braced with hb | hb
  · have hs : split ['_'] p.nameSrc = [] :: p.name :: split ['_'] (if p.dash then ['_'] else []) := by
      rw [Piece.nameSrc, hb, if_pos rfl]
      have hopen := @split_append_char '_' [] List.not_mem_nil (p.name ++ '_' :: if p.dash then ['_'] else [])
      have hclose := split_append_char hbar (if p.dash then ['_'] else [])
      simpa using hopen.trans (congrArg _ hclose)
    rw [htail] at hs
    rw [abnfSetMember_braced hs, p.setMember_braced hb hl]
    rcases p.dash with _ | _ <;> rfl
  · have hs : split ['_'] p.nameSrc = p.name :: if p.dash then [[]] else [] := by
      rw [Piece.nameSrc, hb, if_neg Bool.false_ne_true]
      split
      · exact split_append_char hbar []
      · rw [List.append_nil]
        exact split_eq_singleton hbar
    rw [abnfSetMember_plain (p.name_ne_nil hl) hs, p.setMember_plain hb hl]
    rcases p.dash with _ | _ <;> rfl

theorem abnfSetMember_nameLast (hl : ∀ c ∈ p.hex, c ∈ lowerDigits) (hd : p.dash = false) :
    abnfSetMember p.nameLast = some p.setMember := by
  have hbar : '_' ∉ p.name := (lower_digits hl).2.1
  rcases Bool.eq_false_or_eq_true p.braced with hb | hb
  · have hs : split ['_'] p.nameLast = [] :: p.name :: [] := by
      rw [Piece.nameLast, hb, if_pos rfl]
      exact (@split_append_char '_' [] List.not_mem_nil p.name).trans (congrArg _ (split_eq_singleton hbar))
    rw [abnfSetMember_braced hs, p.setMember_braced hb hl, hd]
    rfl
  · have hs : split ['_'] p.nameLast = p.name :: [] := by
      rw [Piece.nameLast, hb, if_neg Bool.false_ne_true]
      exact split_eq_singleton hbar
    rw [abnfSetMember_plain (p.name_ne_nil hl) hs, p.setMember_plain hb hl, hd]
    rfl

end

/-! ## The class read back -/

/-- What stands after `RX_` in the name of a class is cut at its front and its members. -/
theorem exists_name (p : SetPattern) :
    ∃ rest pieces, abnfClassName p.text = "RX_".toList ++ rest ∧ rest ≠ "__S_S".toList ∧
    split ['_', 'U'] rest = nameFront p.negated :: pieces ∧ 
      pieces.mapM abnfSetMember = some (p.members.map Piece.setMember) := by
  obtain ⟨negated, members, hne, hlast, hlower⟩ := p
  obtain ⟨ps, q, rfl⟩ : ∃ ps q, members = ps ++ [q] := ⟨_, _, (List.dropLast_append_getLast hne).symm⟩
  have hq : ∀ c ∈ q.hex, c ∈ lowerDigits := hlower q (by simp)
  have hps : ∀ p ∈ ps, ∀ c ∈ p.hex, c ∈ lowerDigits := fun p hp => hlower p (List.mem_append_left _ hp)
  have hd : q.dash = false := hlast q (by simp)
  have hfront : 'U' ∉ nameFront negated := by
    unfold nameFront
    split <;> decide
  refine ⟨_, _, abnfClassName_pattern hq hd, ?_, split_name hfront hps hq, ?_⟩
  · -- the second or the third character after the front is a `U`
    intro h
    have hu : 'U' ∈ "__S_S".toList := by
      rw [← h]
      exact List.mem_append_right _ (List.mem_cons_of_mem _ List.mem_cons_self)
    exact absurd hu (by decide)
  · rw [List.mapM_append, List.mapM_cons, abnfSetMember_nameLast hq hd]
    have hmap : (ps.map Piece.nameSrc).mapM abnfSetMember = some (ps.map Piece.setMember) := by
      clear hlower hlast hne
      induction ps with
      | nil => rfl
      | cons p ps ih =>
        obtain ⟨hp, hps⟩ := List.forall_mem_cons.1 hps
        rw [List.map_cons, List.mapM_cons, abnfSetMember_nameSrc hp, ih hps]
        rfl
    rw [hmap, List.map_append]
    rfl

theorem members_text (ps : List Piece) :
    stringJoin [] ((ps.map Piece.setMember).map fun m => m.text ++ if m.range then ['-'] else []) = membersText ps := by
  have hjoin : ∀ ts : List Text, stringJoin [] ts = ts.flatten := by
    intro ts
    induction ts with
    | nil => rfl
    | cons t ts ih =>
      by_cases hts : ts = []
      · subst hts
        simp [stringJoin]
      · rw [stringJoin_cons _ _ hts, ih, List.append_nil, List.flatten_cons]
  rw [hjoin, List.map_map, membersText, List.flatMap_def]
  refine congrArg _ (List.map_congr_left fun p _ => ?_)
  rw [Function.comp_apply, Piece.src]
  by_cases hd : p.dash = true
  · rw [if_pos (show p.setMember.range = true from hd), if_pos hd]
    exact List.append_assoc _ _ _
  · rw [if_neg (show ¬ p.setMember.range = true from hd), if_neg hd]
    exact List.append_nil _

theorem members_braced (ps : List Piece) :
    ((ps.map Piece.setMember).filter (·.braced)).isEmpty = !ps.any (·.braced) := by
  induction ps with
  | nil => rfl
  | cons p ps ih =>
    rw [List.map_cons, List.filter_cons, List.any_cons, Piece.setMember]
    split
    · rename_i hb
      simp [show p.braced = true from hb]
    · rename_i hb
      simpa [show p.braced = false from Bool.eq_false_iff.2 hb] using ih

theorem abnfBare_cons (n : Text) : abnfBare ('#' :: n) = n := abnfAfter_append (List.cons_ne_nil '#' []) n

theorem abnfAfter_rx (n : Text) : abnfAfter "RX_".toList ("RX_".toList ++ n) = n := abnfAfter_append (by decide) n

/-- The pattern a set's members make. -/
def setText (negated : Bool) (members : List SetMember) : Text :=
  ['['] ++ (if negated then ['^'] else []) ++
    stringJoin [] (members.map fun m => m.text ++ if m.range then ['-'] else []) ++ [']']

/-- The class a set's name gives, where its members are read and the class has that name. -/
theorem abnfSetToken_eq {t rest front : Text} {pieces : List Text} {members : List SetMember}
    (hrest : abnfAfter "RX_".toList (abnfBare t) = rest) (hany : rest ≠ "__S_S".toList)
    (hsplit : split ['_', 'U'] rest = front :: pieces) (hmembers : pieces.mapM abnfSetMember = some members)
    (hname : abnfClassName (setText (abnfSame front ['_', '_']) members) = abnfBare t) :
    abnfSetToken t = .done (setText (abnfSame front ['_', '_']) members,
      if abnfSame front ['_', '_'] then ['u'] else if (members.filter (·.braced)).isEmpty then [] else ['u']) := by
  unfold abnfSetToken
  simp only [hrest, if_neg hany, hsplit, List.tail_cons, List.headD_cons, hmembers]
  exact if_pos (abnfSame_iff.2 hname)

/-- The class of a set is found from the name the compiler gives it. -/
theorem abnfSetToken_className (p : SetPattern) :
    abnfSetToken ('#' :: abnfClassName p.text) = .done (p.text, p.flags) := by
  obtain ⟨rest, pieces, hname, hany, hsplit, hmembers⟩ := exists_name p
  have hneg : abnfSame (nameFront p.negated) ['_', '_'] = p.negated := by
    rcases p.negated with _ | _ <;> decide
  have htext : setText p.negated (p.members.map Piece.setMember) = p.text := by
    rw [setText, members_text, SetPattern.text, patternText]
    simp
  have hrest : abnfAfter "RX_".toList (abnfBare ('#' :: abnfClassName p.text)) = rest := by
    rw [abnfBare_cons, hname, abnfAfter_rx]
  rw [abnfSetToken_eq hrest hany hsplit hmembers (by rw [hneg, htext, abnfBare_cons]), hneg, htext, members_braced]
  unfold SetPattern.flags
  rcases p.negated with _ | _
  · rcases p.members.any (·.braced) with _ | _ <;> rfl
  · rfl

/-- Patterns are told apart by their names. -/
theorem className_injective {p q : SetPattern} (h : abnfClassName p.text = abnfClassName q.text) : p.text = q.text := by
  have hp := abnfSetToken_className p
  rw [h, abnfSetToken_className q, Run.done.injEq, Prod.mk.injEq] at hp
  exact hp.1.symm

/-- A set's name gives its class back, so no two classes have one name. -/
theorem setName_faithful :
    (∀ p : SetPattern, abnfSetToken ('#' :: abnfClassName p.text) = .done (p.text, p.flags)) ∧
      ∀ p q : SetPattern, abnfClassName p.text = abnfClassName q.text → p.text = q.text :=
  ⟨abnfSetToken_className, fun _ _ => className_injective⟩

/-- `[^\u0061-\u{7a}]`. -/
def negatedLetters : SetPattern where
  negated := true
  members := [⟨false, "0061".toList, true, by decide, by decide⟩, ⟨true, "7a".toList, false, by decide, by decide⟩]
  ne := List.cons_ne_nil _ _
  last := by simp
  lower := by
    have hall : ∀ h : Text, h.all (fun c => lowerDigits.contains c) = true → ∀ c ∈ h, c ∈ lowerDigits :=
      fun h hh c hc =>
      List.contains_iff_mem.1 (List.all_eq_true.1 hh c hc)
    intro p hp
    rcases List.mem_pair.1 hp with rfl | rfl
    · exact hall _ (by decide +kernel)
    · exact hall _ (by decide +kernel)

/-- The same ends, the other one in braces. -/
def bracedLetters : SetPattern where
  negated := true
  members := [⟨true, "61".toList, true, by decide, by decide⟩, ⟨false, "007a".toList, false, by decide, by decide⟩]
  ne := List.cons_ne_nil _ _
  last := by simp
  lower := by
    have hall : ∀ h : Text, h.all (fun c => lowerDigits.contains c) = true → ∀ c ∈ h, c ∈ lowerDigits :=
      fun h hh c hc =>
      List.contains_iff_mem.1 (List.all_eq_true.1 hh c hc)
    intro p hp
    rcases List.mem_pair.1 hp with rfl | rfl
    · exact hall _ (by decide +kernel)
    · exact hall _ (by decide +kernel)

/-- The class is given back for its name, and a class of the same characters spelt otherwise has another name. -/
theorem setName_faithful_letters :
    abnfSetToken "#RX____U0061__U_7A".toList = .done (['[', '^', '\\'] ++ "u0061-".toList ++ ['\\', 'u', '\x7b'] ++
      "7a".toList ++ ['\x7d', ']'], ['u']) ∧ abnfClassName negatedLetters.text ≠ abnfClassName bracedLetters.text := by
  refine ⟨?_, fun heq => absurd (setName_faithful.2 _ _ heq) (by decide +kernel)⟩
  have hname : abnfClassName negatedLetters.text = "RX____U0061__U_7A".toList := by decide +kernel
  have hgives := setName_faithful.1 negatedLetters
  rw [hname] at hgives
  refine hgives.trans ?_
  decide +kernel

end TabnasAbnf.Render
