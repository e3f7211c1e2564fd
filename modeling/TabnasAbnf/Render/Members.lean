/-
A class's members twice: those JavaScript reads, where a dash stands between two ends or is a member and two
surrogates are one character, and those the renderer writes, each a low end with the escape after its dash.
-/
import TabnasAbnf.Base.JsClass
import TabnasAbnf.Render.Class

namespace TabnasAbnf.Render

open TabnasAbnf.Base

/-! ## As JavaScript reads them -/

namespace Piece

def dashes (p : Piece) : List ClassToken := if p.dash then [.dash] else []

/-- The text of the dash after a piece. -/
def tail (p : Piece) : Text := if p.dash then ['-'] else []

/-- Whether two pieces, one after the other, are the halves of a surrogate pair. -/
def pairs (p q : Piece) : Bool := !p.braced && !p.dash && isHigh p.value && !q.braced && isLow q.value

theorem src_eq (p : Piece) : p.src = p.core ++ p.tail := by
  unfold src tail
  split
  · rfl
  · exact (List.append_nil _).symm

end Piece

/-- The tokens of a recognized class. -/
def pieceTokens (u : Bool) : List Piece → List ClassToken
  | [] => []
  | [p] => .cp p.value :: p.dashes
  | p :: q :: ps =>
    if u && p.pairs q then .cp (pairValue p.value q.value) :: (q.dashes ++ pieceTokens u ps)
    else .cp p.value :: (p.dashes ++ pieceTokens u (q :: ps))

theorem membersText_cons (p : Piece) (ps : List Piece) :
    membersText (p :: ps) = '\\' :: 'u' :: (p.core ++ (p.tail ++ membersText ps)) := by
  rw [membersText, List.flatMap_cons, ← membersText, p.src_eq]
  simp [escapeMark]

theorem Piece.value_lt {p : Piece} (hb : p.braced = false) : p.value < 0x10000 := by
  have hw := p.width
  rw [hb, if_neg Bool.false_ne_true] at hw
  have hlt := ofDigits_lt (List.all_eq_true.1 p.digits)
  rw [hw] at hlt
  exact hlt

theorem jsFour_brace (s : Text) : jsFour ('\x7b' :: s) = none := by
  unfold jsFour
  split
  · rename_i heq
    cases heq
    rfl
  · rfl

theorem Piece.core_unbraced {p : Piece} (hb : p.braced = false) : p.core = p.hex ∧ p.hex.length = 4 := by
  have hw := p.width
  rw [hb, if_neg Bool.false_ne_true] at hw
  exact ⟨by rw [core, hb, if_neg Bool.false_ne_true], hw⟩

theorem jsLow_members (q : Piece) (ps : List Piece) :
    jsLow (membersText (q :: ps)) =
      if !q.braced && isLow q.value then some (q.value, q.tail ++ membersText ps) else none := by
  have hlow : ∀ s, jsLow ('\\' :: 'u' :: s) = (jsFour s).filter fun w => isLow w.1 := fun _ => rfl
  rw [membersText_cons, hlow]
  rcases Bool.eq_false_or_eq_true q.braced with hb | hb
  · have hcore : q.core = '\x7b' :: (q.hex ++ ['\x7d']) := by rw [Piece.core, hb, if_pos rfl]
    rw [hb, hcore, List.cons_append, jsFour_brace]
    rfl
  · obtain ⟨hcore, hw⟩ := Piece.core_unbraced hb
    rw [hb, hcore, jsFour_hex q.digits hw, Option.filter_some]
    rfl

/-- The greatest character a class can match, under `u` or not. -/
def classTop (u : Bool) : Nat := if u then 0x10FFFF else 0xFFFF

theorem le_classTop {u : Bool} {n : Nat} (h : n < 0x10000) : n ≤ classTop u := by
  unfold classTop
  split <;> omega

theorem jsLow_dash (s : Text) : jsLow ('-' :: s) = none := rfl

/-- An escape is read as the piece's character, or as a pair with the low surrogate after it. -/
theorem jsEscape_core {u : Bool} {p : Piece} {rest rest' : Text} {v : Nat}
    (h : jsEscape u (p.core ++ rest) = some (v, rest')) :
    p.value ≤ classTop u ∧
      (v = p.value ∧ rest' = rest ∧ (u && !p.braced && isHigh p.value && (jsLow rest).isSome) = false ∨
        (u && !p.braced && isHigh p.value) = true ∧ ∃ w, jsLow rest = some (w, rest') ∧ v = pairValue p.value w) := by
  -- only an escape without braces looks at what follows
  rcases Bool.eq_false_or_eq_true p.braced with hb | hb
  · have hcore : p.core = '\x7b' :: (p.hex ++ ['\x7d']) := by rw [Piece.core, hb, if_pos rfl]
    rw [hcore, List.cons_append, List.append_assoc, List.singleton_append, jsEscape] at h
    split at h
    · rename_i hu
      rw [jsBraced_eq p.digits] at h
      split at h
      · rename_i hle
        cases h
        refine ⟨?_, .inl ⟨rfl, rfl, by rw [hb]; simp⟩⟩
        rw [hu]
        exact hle.2
      · cases h
    · cases h
  · obtain ⟨hcore, hw⟩ := Piece.core_unbraced hb
    have hlt := Piece.value_lt hb
    rw [hcore, jsEscape_unit p.digits hw, jsUnit, jsFour_hex p.digits hw] at h
    dsimp only at h
    refine ⟨le_classTop hlt, ?_⟩
    rw [hb, Bool.not_false, Bool.and_true]
    split at h
    · rename_i hhigh
      split at h
      · rename_i w s hlow
        obtain ⟨rfl, rfl⟩ := Prod.mk.inj (Option.some.inj h)
        exact .inr ⟨hhigh, w, hlow, rfl⟩
      · rename_i hlow
        cases h
        exact .inl ⟨rfl, rfl, by rw [hlow]; simp⟩
    · rename_i hhigh
      cases h
      rw [Bool.not_eq_true] at hhigh
      exact .inl ⟨rfl, rfl, by rw [show (u && isHigh p.value) = false from hhigh, Bool.false_and]⟩

theorem jsTokens_tail {u : Bool} {n : Nat} {p : Piece} {s : Text} {ts : List ClassToken}
    (h : jsTokens u n (p.tail ++ s) = some ts) : ∃ m ts', jsTokens u m s = some ts' ∧ ts = p.dashes ++ ts' := by
  unfold Piece.tail at h
  unfold Piece.dashes
  split at h
  · rename_i hd
    rw [if_pos hd]
    rcases n with _ | n
    · cases h
    · obtain ⟨ts', hts, rfl⟩ := Option.map_eq_some_iff.1 h
      exact ⟨n, ts', hts, rfl⟩
  · rename_i hd
    rw [if_neg hd]
    exact ⟨n, ts, h, rfl⟩

/-- The first piece's token, or that of the pair it makes with the one after it. -/
theorem jsTokens_cons {u : Bool} {n : Nat} {p : Piece} {ps : List Piece} {ts : List ClassToken}
    (h : jsTokens u n (membersText (p :: ps)) = some ts) :
    p.value ≤ classTop u ∧
      ((∀ q ∈ ps.head?, (u && p.pairs q) = false) ∧
          (∃ m ts', jsTokens u m (membersText ps) = some ts' ∧ ts = .cp p.value :: (p.dashes ++ ts')) ∨
        ∃ q ps', ps = q :: ps' ∧ (u && p.pairs q) = true ∧
          ∃ m ts', jsTokens u m (membersText ps') = some ts' ∧
            ts = .cp (pairValue p.value q.value) :: (q.dashes ++ ts')) := by
  rw [membersText_cons] at h
  rcases n with _ | n
  · cases h
  rcases hesc : jsEscape u (p.core ++ (p.tail ++ membersText ps)) with _ | ⟨v, rest'⟩
  · rw [jsTokens, hesc] at h
    cases h
  rw [jsTokens_escape hesc] at h
  obtain ⟨ts₁, hts, rfl⟩ := Option.map_eq_some_iff.1 h
  -- the piece stands alone, or it is a high surrogate and the next its low one
  rcases jsEscape_core hesc with ⟨hle, ⟨rfl, rfl, hno⟩ | ⟨hhigh, w, hlow, hv⟩⟩
  · refine ⟨hle, .inl ⟨?_, ?_⟩⟩
    · intro q hq
      rcases ps with _ | ⟨q', ps⟩
      · cases hq
      · cases hq
        rcases Bool.eq_false_or_eq_true p.dash with hd | hd
        · simp [Piece.pairs, hd]
        · rw [show p.tail = [] from if_neg (by simp [hd]), List.nil_append, jsLow_members] at hno
          rw [Bool.eq_false_iff] at hno ⊢
          intro hp
          simp only [Piece.pairs, Bool.and_eq_true] at hp
          refine hno ?_
          rw [if_pos (by simp [hp])]
          simp [hp]
    · obtain ⟨m, ts', hts', rfl⟩ := jsTokens_tail hts
      exact ⟨m, ts', hts', rfl⟩
  · refine ⟨hle, .inr ?_⟩
    rcases Bool.eq_false_or_eq_true p.dash with hd | hd
    · rw [show p.tail = ['-'] from if_pos hd, List.singleton_append, jsLow_dash] at hlow
      cases hlow
    · rw [show p.tail = [] from if_neg (by simp [hd]), List.nil_append] at hlow
      rcases ps with _ | ⟨q, ps⟩
      · cases hlow
      · rw [jsLow_members] at hlow
        split at hlow
        · rename_i hq
          obtain ⟨rfl, rfl⟩ := Prod.mk.inj (Option.some.inj hlow)
          obtain ⟨m, ts', hts', rfl⟩ := jsTokens_tail hts
          refine ⟨q, ps, rfl, ?_, m, ts', hts', by rw [hv]⟩
          simp only [Bool.and_eq_true] at hhigh hq
          simp [Piece.pairs, hd, hhigh, hq]
        · cases hlow

/-- JavaScript reads the tokens of the pieces. -/
theorem jsTokens_pieces {u : Bool} {n : Nat} {ps : List Piece} {ts : List ClassToken}
    (h : jsTokens u n (membersText ps) = some ts) : ts = pieceTokens u ps ∧ ∀ p ∈ ps, p.value ≤ classTop u := by
  -- along the pieces, two at a time where they pair
  fun_induction pieceTokens u ps generalizing n ts with
  | case1 =>
    rcases n with _ | n <;>
    · cases h
      exact ⟨rfl, fun p hp => by cases hp⟩
  | case2 p =>
    rcases jsTokens_cons h with ⟨hle, ⟨-, m, ts', hts, rfl⟩ | ⟨q, ps', hps, -⟩⟩
    · have hnil : ts' = [] := by
        rcases m with _ | m <;>
        · cases hts
          rfl
      rw [hnil, List.append_nil]
      exact ⟨rfl, fun p' hp => List.mem_singleton.1 hp ▸ hle⟩
    · cases hps
  | case3 p q ps hpair ih =>
    rcases jsTokens_cons h with ⟨hle, ⟨hno, -⟩ | ⟨q', ps', hps, -, m, ts', hts, rfl⟩⟩
    · rw [hno q rfl] at hpair
      cases hpair
    · cases hps
      obtain ⟨rfl, hall⟩ := ih hts
      refine ⟨rfl, fun p' hp => ?_⟩
      rcases List.mem_cons.1 hp with rfl | hp
      · exact hle
      rcases List.mem_cons.1 hp with rfl | hp
      · simp only [Piece.pairs, Bool.and_eq_true, Bool.not_eq_true'] at hpair
        exact le_classTop (Piece.value_lt hpair.2.1.2)
      · exact hall p' hp
  | case4 p q ps hpair ih =>
    rcases jsTokens_cons h with ⟨hle, ⟨-, m, ts', hts, rfl⟩ | ⟨q', ps', hps, hpair', -⟩⟩
    · obtain ⟨rfl, hall⟩ := ih hts
      refine ⟨rfl, fun p' hp => ?_⟩
      rcases List.mem_cons.1 hp with rfl | hp
      · exact hle
      · exact hall p' hp
    · cases hps
      exact absurd hpair' hpair

/-- The ranges of a recognized class. -/
def classSpans (u : Bool) (ps : List Piece) : List (Nat × Nat) := (jsRanges (pieceTokens u ps)).getD []

theorem jsRanges_mem {ts : List ClassToken} {spans : List (Nat × Nat)} (h : jsRanges ts = some spans) :
    ∀ s ∈ spans, ∃ b ∈ ts, s.2 = b.value := by
  fun_induction jsRanges ts generalizing spans with
  | case1 =>
    cases h
    intro s hs
    cases hs
  | case2 a b ts hle ih =>
    obtain ⟨spans', hs', rfl⟩ := Option.map_eq_some_iff.1 h
    intro s hs
    rcases List.mem_cons.1 hs with rfl | hs
    · exact ⟨b, by simp, rfl⟩
    · obtain ⟨b', hb', he⟩ := ih hs' s hs
      exact ⟨b', by simp [hb'], he⟩
  | case3 => cases h
  | case4 a ts _ ih =>
    obtain ⟨spans', hs', rfl⟩ := Option.map_eq_some_iff.1 h
    intro s hs
    rcases List.mem_cons.1 hs with rfl | hs
    · exact ⟨a, List.mem_cons_self, rfl⟩
    · obtain ⟨b', hb', he⟩ := ih hs' s hs
      exact ⟨b', List.mem_cons_of_mem _ hb', he⟩

theorem pieceTokens_le {u : Bool} {ps : List Piece} (h : ∀ p ∈ ps, p.value ≤ classTop u) :
    ∀ t ∈ pieceTokens u ps, t.value ≤ classTop u := by
  have hdash : ∀ (p : Piece), ∀ t ∈ p.dashes, t.value ≤ classTop u := by
    intro p t ht
    unfold Piece.dashes at ht
    split at ht
    · cases List.mem_singleton.1 ht
      exact le_classTop (by decide)
    · cases ht
  fun_induction pieceTokens u ps with
  | case1 =>
    intro t ht
    cases ht
  | case2 p =>
    intro t ht
    rcases List.mem_cons.1 ht with rfl | ht
    · exact h p List.mem_cons_self
    · exact hdash p t ht
  | case3 p q ps hpair ih =>
    simp only [Piece.pairs, isHigh, isLow, Bool.and_eq_true, decide_eq_true_eq] at hpair
    intro t ht
    rcases List.mem_cons.1 ht with rfl | ht
    · rw [hpair.1]
      show 0x10000 + (p.value - 0xD800) * 0x400 + (q.value - 0xDC00) ≤ 0x10FFFF
      omega
    · rcases List.mem_append.1 ht with ht | ht
      · exact hdash q t ht
      · exact ih (fun p' hp => h p' (by simp [hp])) t ht
  | case4 p q ps hpair ih =>
    intro t ht
    rcases List.mem_cons.1 ht with rfl | ht
    · exact h p List.mem_cons_self
    · rcases List.mem_append.1 ht with ht | ht
      · exact hdash p t ht
      · exact ih (fun p' hp => h p' (List.mem_cons_of_mem _ hp)) t ht

/-- A recognized class that is valid has ranges. -/
theorem jsClass_ranges {u : Bool} {ps : List Piece} {cls : JsClass} (h : jsClass u (patternText false ps) = some cls) :
    ∃ spans, jsRanges (pieceTokens u ps) = some spans ∧ cls = ⟨u, false, spans⟩ ∧ ∀ p ∈ ps, p.value ≤ classTop u := by
  have hany : patternText false ps ≠ ['[', '\\', 's', '\\', 'S', ']'] := by
    intro he
    rcases ps with _ | ⟨p, ps⟩
    · cases he
    · rw [patternText, membersText_cons] at he
      cases he
  have hbody : classBody (patternText false ps) = some (membersText ps) := classBody_bracketed (membersText ps)
  have hcaret : ((membersText ps).head? == some '^') = false := by
    rcases ps with _ | ⟨p, ps⟩
    · rfl
    · rw [membersText_cons]
      rfl
  unfold jsClass at h
  rw [if_neg hany, hbody, Option.bind_some] at h
  dsimp only at h
  rw [hcaret, if_neg Bool.false_ne_true] at h
  obtain ⟨spans, hspans, rfl⟩ := Option.map_eq_some_iff.1 h
  obtain ⟨ts, hts, hranges⟩ := Option.bind_eq_some_iff.1 hspans
  obtain ⟨rfl, hall⟩ := jsTokens_pieces hts
  exact ⟨spans, hranges, rfl, hall⟩

/-- A recognized class that is valid is the class of its pieces' ranges. -/
theorem jsClass_patternText {u : Bool} {ps : List Piece} {cls : JsClass}
    (h : jsClass u (patternText false ps) = some cls) :
    cls = ⟨u, false, classSpans u ps⟩ ∧ (∀ p ∈ ps, p.value ≤ classTop u) ∧ ∀ s ∈ classSpans u ps, s.2 ≤ classTop u := by
  obtain ⟨spans, hranges, rfl, hall⟩ := jsClass_ranges h
  have heq : classSpans u ps = spans := by rw [classSpans, hranges, Option.getD_some]
  rw [heq]
  refine ⟨rfl, hall, fun s hs => ?_⟩
  obtain ⟨b, hb, he⟩ := jsRanges_mem hranges s hs
  rw [he]
  exact pieceTokens_le hall b hb

/-! ## As the renderer writes them -/

/-- A member: a character alone, or a range. -/
inductive Member
  | one (p : Piece)
  | span (p q : Piece)

/-- The members of pieces; what follows a dash after a range is left out up to a piece with no dash after it. -/
def members : Bool → List Piece → List Member
  | _, [] => []
  | true, p :: ps => members p.dash ps
  | false, [p] => [.one p]
  | false, p :: q :: ps => if p.dash then .span p q :: members q.dash ps else .one p :: members false (q :: ps)

/-- The digits written for a piece. -/
def Piece.written (p : Piece) : Text :=
  if p.braced then abnfHexUpper p.hex
  else if abnfStarts ['0', '0'] p.hex then abnfHexUpper (abnfAfter ['0', '0'] p.hex)
  else abnfHexUpper p.hex

/-- What is written are digits of the piece's code point. -/
theorem Piece.written_spec (p : Piece) :
    p.written ≠ [] ∧ (∀ c ∈ p.written, isDigit 16 c = true) ∧ ofDigits 16 p.written = p.value ∧
    p.written.length ≤ 6 := by
  -- upper case changes no digit's value
  have hupper : ∀ h : Text, h ≠ [] → h.all (isDigit 16) = true → abnfHexUpper h ≠ [] ∧
      (∀ c ∈ abnfHexUpper h, isDigit 16 c = true) ∧ ofDigits 16 (abnfHexUpper h) = ofDigits 16 h ∧
        (abnfHexUpper h).length = h.length := by
    intro h hne hd
    have hlen := abnfHexUpper_length h
    refine ⟨fun he => hne ?_, List.all_eq_true.1 ?_, ofDigits_congr (abnfHexUpper_digits h), hlen⟩
    · rw [he] at hlen
      exact List.eq_nil_of_length_eq_zero hlen.symm
    · rw [all_isDigit_congr (abnfHexUpper_digits h), hd]
  have hw := p.width
  have hplain := hupper p.hex p.hex_ne_nil p.digits
  have hlen : p.hex.length ≤ 6 := by split at hw <;> omega
  have hfull : abnfHexUpper p.hex ≠ [] ∧ (∀ c ∈ abnfHexUpper p.hex, isDigit 16 c = true) ∧
      ofDigits 16 (abnfHexUpper p.hex) = p.value ∧ (abnfHexUpper p.hex).length ≤ 6 :=
    ⟨hplain.1, hplain.2.1, hplain.2.2.1, by rw [hplain.2.2.2]; exact hlen⟩
  unfold written
  split
  · exact hfull
  · rename_i hb
    split
    · -- two zeros in front are dropped
      rename_i hz
      obtain ⟨t, ht⟩ := (abnfStarts_iff (List.cons_ne_nil _ _)).1 hz
      rw [← ht, abnfAfter_append (List.cons_ne_nil _ _)]
      rw [if_neg hb] at hw
      have htlen : t.length = 2 := by
        rw [← ht] at hw
        simpa using hw
      have htne : t ≠ [] := by
        rintro rfl
        cases htlen
      have htd : t.all (isDigit 16) = true := by
        have hd := p.digits
        rw [← ht, List.all_append, Bool.and_eq_true] at hd
        exact hd.2
      obtain ⟨hne, hall, hval, hl⟩ := hupper t htne htd
      refine ⟨hne, hall, ?_, by omega⟩
      rw [hval, value, ← ht, ofDigits_append_eq]
      have hzero : ofDigits 16 ['0', '0'] = 0 := by decide
      rw [hzero, Nat.zero_mul, Nat.zero_add]
    · exact hfull

/-- The same at a range's high end, where a dash that follows four digits is kept. -/
def Piece.writtenHigh (p : Piece) : Text := if p.braced then p.written else p.written ++ p.tail

/-- What is written for a member's two ends. -/
def Member.ends : Member → Text × Text
  | .one p => (p.written, p.written)
  | .span p q => (p.written, q.writtenHigh)

theorem abnfEscapeHex_src (p : Piece) : abnfEscapeHex (escapeMark ++ p.src) = p.writtenHigh := by
  have hmark : escapeMark ≠ [] := List.cons_ne_nil _ _
  have hstarts : abnfStarts escapeMark (escapeMark ++ p.src) = true := (abnfStarts_iff hmark).2 ⟨_, rfl⟩
  unfold abnfEscapeHex Piece.writtenHigh Piece.written
  rw [if_pos hstarts, abnfAfter_append hmark, p.src_eq]
  dsimp only
  -- in braces the digits end at the brace, and else with the piece
  rcases Bool.eq_false_or_eq_true p.braced with hb | hb
  · have hcore : p.core ++ p.tail = ['\x7b'] ++ (p.hex ++ '\x7d' :: p.tail) := by
      rw [Piece.core, hb, if_pos rfl]
      simp
    have htail : '\x7d' ∉ p.tail := by
      unfold Piece.tail
      split <;> simp
    rw [hcore, if_pos ((abnfStarts_iff (List.cons_ne_nil _ _)).2 ⟨_, rfl⟩), abnfAfter_append (List.cons_ne_nil _ _),
      abnfBefore_append htail, hb, if_pos rfl, if_pos rfl]
  · obtain ⟨hcore, hw⟩ := Piece.core_unbraced hb
    have hupper : abnfHexUpper p.tail = p.tail := by
      unfold Piece.tail
      split <;> rfl
    have hshort : ∀ s : Text, s ≠ [] → s.length ≤ 4 → abnfStarts s (p.hex ++ p.tail) = true →
      abnfStarts s p.hex = true := by
      intro s hs hlen h
      rw [abnfStarts_iff hs] at h ⊢
      exact List.prefix_of_prefix_length_le h (List.prefix_append _ _) (by omega)
    have hbrace : abnfStarts ['\x7b'] (p.hex ++ p.tail) = false := by
      rw [Bool.eq_false_iff]
      intro h
      have hstart := hshort ['\x7b'] (List.cons_ne_nil _ _) (by decide) h
      rw [← hcore, Piece.core_starts, hb] at hstart
      cases hstart
    rw [hcore, hb, hbrace]
    simp only [Bool.false_eq_true, if_false]
    by_cases hz : abnfStarts ['0', '0'] p.hex = true
    · obtain ⟨t, ht⟩ := (abnfStarts_iff (List.cons_ne_nil _ _)).1 hz
      have hz' : abnfStarts ['0', '0'] (p.hex ++ p.tail) = true :=
        (abnfStarts_iff (List.cons_ne_nil _ _)).2 ⟨t ++ p.tail, by rw [← ht, List.append_assoc]⟩
      rw [if_pos hz, if_pos hz', ← ht, List.append_assoc, abnfAfter_append (List.cons_ne_nil _ _),
        abnfAfter_append (List.cons_ne_nil _ _), abnfHexUpper_append, hupper]
    · have hz' : ¬ abnfStarts ['0', '0'] (p.hex ++ p.tail) = true :=
        fun h => hz (hshort ['0', '0'] (List.cons_ne_nil _ _) (by decide) h)
      rw [if_neg hz, if_neg hz', abnfHexUpper_append, hupper]

theorem abnfEscapeHex_core (p : Piece) : abnfEscapeHex (escapeMark ++ p.core) = p.written := by
  let q : Piece := { p with dash := false }
  have hhigh : q.writtenHigh = p.written := by
    have htail : q.tail = [] := rfl
    rw [Piece.writtenHigh, htail, List.append_nil, ite_self]
    rfl
  rw [← hhigh, ← abnfEscapeHex_src q]
  rfl

/-- What is written for a piece that no dash stands before, with the piece after it. -/
def memberAt (piece next : Text) : Text × Text :=
  if abnfEnds ['-'] piece then
    (abnfEscapeHex (escapeMark ++ abnfBefore ['-'] piece), abnfEscapeHex (escapeMark ++ next))
  else (abnfEscapeHex (escapeMark ++ piece), abnfEscapeHex (escapeMark ++ piece))

/-- What is written for pieces after another. -/
def membersAfter (prev : Text) (pieces : List Text) : List (Text × Text) :=
  ((List.range pieces.length).filter fun i => !abnfEnds ['-'] ((prev :: pieces).getD i [])).map fun i =>
    memberAt (pieces.getD i []) (pieces.getD (i + 1) [])

theorem membersAfter_cons (prev piece : Text) (pieces : List Text) :
    membersAfter prev (piece :: pieces) =
      (if abnfEnds ['-'] prev then [] else [memberAt piece (pieces.getD 0 [])]) ++ membersAfter piece pieces := by
  unfold membersAfter
  rw [List.length_cons, List.range_succ_eq_map, List.filter_cons, List.filter_map, List.getD_cons_zero]
  rcases Bool.eq_false_or_eq_true (abnfEnds ['-'] prev) with h | h
  · rw [h, if_pos rfl, if_neg (by simp), List.map_map, List.nil_append]
    rfl
  · rw [h, if_pos (Bool.not_false), if_neg Bool.false_ne_true, List.map_cons, List.map_map]
    rfl

theorem memberAt_dash {p : Piece} (hd : p.dash = true) (q : Piece) :
    memberAt p.src q.src = Member.ends (.span p q) := by
  have hcore : abnfBefore ['-'] p.src = p.core := by
    rw [Piece.src, if_pos hd, abnfBefore_concat]
  rw [memberAt, Piece.src_ends, hd, if_pos rfl, hcore, abnfEscapeHex_core, abnfEscapeHex_src]
  rfl

theorem memberAt_one {p : Piece} (hd : p.dash = false) (next : Text) : memberAt p.src next = Member.ends (.one p) := by
  have hcore : p.src = p.core := by rw [Piece.src, hd, if_neg Bool.false_ne_true]
  rw [memberAt, Piece.src_ends, hd, if_neg Bool.false_ne_true, hcore, abnfEscapeHex_core]
  rfl

theorem membersAfter_eq {ps : List Piece} (hlast : ∀ p ∈ ps.getLast?, p.dash = false) {prev : Text} {skip : Bool}
    (hprev : abnfEnds ['-'] prev = skip) :
    membersAfter prev (ps.map Piece.src) = (members skip ps).map Member.ends := by
  have htail : ∀ {p : Piece} {ps : List Piece}, (∀ p' ∈ (p :: ps).getLast?, p'.dash = false) →
      ∀ p' ∈ ps.getLast?, p'.dash = false := by
    intro p ps h p' hp
    rcases ps with _ | ⟨q, ps⟩
    · cases hp
    · rw [List.getLast?_cons_cons] at h
      exact h p' hp
  fun_induction members skip ps generalizing prev with
  | case1 => rfl
  | case2 p ps ih =>
    rw [List.map_cons, membersAfter_cons, hprev, if_pos rfl, List.nil_append]
    exact ih (htail hlast) (Piece.src_ends p)
  | case3 p =>
    rw [List.map_cons, List.map_nil, membersAfter_cons, hprev, if_neg Bool.false_ne_true, memberAt_one (hlast p rfl)]
    rfl
  | case4 p q ps hd ih =>
    have hq := ih (htail (htail hlast)) (Piece.src_ends q)
    rw [List.map_cons, List.map_cons, membersAfter_cons, membersAfter_cons, hprev, Piece.src_ends, hd,
      if_neg Bool.false_ne_true, if_pos rfl, List.nil_append, List.getD_cons_zero, memberAt_dash hd, hq]
    rfl
  | case5 p q ps hd ih =>
    rw [Bool.not_eq_true] at hd
    have hq := ih (htail hlast) ((Piece.src_ends p).trans hd)
    rw [List.map_cons, membersAfter_cons, hprev, if_neg Bool.false_ne_true, memberAt_one hd, hq]
    rfl

theorem abnfClassMembers_eq {ps : List Piece} (hlast : ∀ p ∈ ps.getLast?, p.dash = false) :
    abnfClassMembers (membersText ps) = (members false ps).map Member.ends := by
  have hstart : abnfEnds ['-'] [] = false := rfl
  rw [← membersAfter_eq hlast hstart, abnfClassMembers, split_membersText, List.tail_cons]
  rfl

end TabnasAbnf.Render
