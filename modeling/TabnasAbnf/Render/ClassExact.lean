/-
What a class that is written is read as. It is one element that is the class exactly where the members written are
closed, each string holds one character, every range is in order and the members hold what the class does.
-/
import TabnasAbnf.Render.ClassText

namespace TabnasAbnf.Render

open TabnasAbnf.Base TabnasAbnf.Meta

/-! ## Code points -/

theorem fromCodePoint_injective {m n : Nat} (h : fromCodePoint m = fromCodePoint n) : m = n := by
  unfold fromCodePoint at h
  split at h <;> split at h <;> simp only [List.cons.injEq, and_true, reduceCtorEq, and_false] at h <;> omega

theorem unitIsLetter_point {v : Nat} (h : unitIsLetter v = false) : (fromCodePoint v).any unitIsLetter = false := by
  unfold fromCodePoint
  split
  · simpa using h
  · simp only [unitIsLetter, List.any_cons, List.any_nil, Bool.or_false, Bool.or_eq_false_iff, decide_eq_false_iff_not]
    omega

theorem lowerUnit_eq_iff {n v : Nat} (h : unitIsLetter v = false) : lowerUnit n = lowerUnit v ↔ n = v := by
  simp only [unitIsLetter, decide_eq_false_iff_not] at h
  unfold lowerUnit
  split <;> split <;> omega

/-- A term of one code point matches it, and the other case of an ASCII letter. -/
theorem termMatches_point {v : Nat} {s : Units} :
    TermMatches asciiFold (fromCodePoint v) false s ↔ ∃ n, lowerUnit n = lowerUnit v ∧ s = fromCodePoint n := by
  unfold TermMatches
  rcases Bool.eq_false_or_eq_true (unitIsLetter v) with hl | hl
  · have hrange : (0x41 ≤ v ∧ v ≤ 0x5A) ∨ (0x61 ≤ v ∧ v ≤ 0x7A) := of_decide_eq_true hl
    have hone : ∀ n, n < 0x10000 → fromCodePoint n = [n] := fun n hn => if_pos hn
    rw [hone v (by omega), Bool.false_or, List.any_cons, List.any_nil, Bool.or_false, hl, Bool.not_true,
      if_neg Bool.false_ne_true, asciiFold]
    constructor
    · intro h
      obtain ⟨x, rfl, hx⟩ := List.map_eq_singleton_iff.1 h.symm
      refine ⟨x, hx, (hone x ?_).symm⟩
      unfold lowerUnit at hx
      split at hx <;> split at hx <;> omega
    · rintro ⟨n, hn, rfl⟩
      have hlt : n < 0x10000 := by
        unfold lowerUnit at hn
        split at hn <;> split at hn <;> omega
      rw [hone n hlt, List.map_singleton, List.map_singleton, hn]
  · rw [unitIsLetter_point hl, Bool.not_false, Bool.or_true, if_pos rfl]
    simp only [lowerUnit_eq_iff hl, exists_eq_left]

/-! ## The code points of a member -/

/-- Whether a member is a range whose ends are one code point, which is read without regard to case. -/
def Member.folds (m : Member) : Bool := !m.quoted && decide (m.low.value = m.high.value)

/-- The code points a member is read as. -/
def Member.Holds (m : Member) (n : Nat) : Prop :=
  if m.folds then lowerUnit n = lowerUnit m.low.value else m.low.value ≤ n ∧ n ≤ m.high.value

theorem ofDigits_fourDigits (h : Text) : ofDigits 16 (fourDigits h) = ofDigits 16 h := by
  have hlower : ofDigits 16 (abnfHexLower h) = ofDigits 16 h := ofDigits_congr (abnfHexLower_digits h)
  have hzeros : ofDigits 16 (if h.length = 1 then ['0', '0', '0'] else if h.length = 2 then ['0', '0'] else
      if h.length = 3 then ['0'] else []) = 0 := by
    split
    · rfl
    split
    · rfl
    split <;> rfl
  rw [fourDigits, ofDigits_append_eq, hlower, hzeros, Nat.zero_mul, Nat.zero_add]

theorem fourDigits_digits {h : Text} (hd : h.all (isDigit 16) = true) : (fourDigits h).all (isDigit 16) = true := by
  have hzeros : (if h.length = 1 then ['0', '0', '0'] else if h.length = 2 then ['0', '0'] else
      if h.length = 3 then ['0'] else []).all (isDigit 16) = true := by
    split
    · rfl
    split
    · rfl
    split <;> rfl
  rw [fourDigits, List.all_append, hzeros, all_isDigit_congr (abnfHexLower_digits h), hd]
  rfl

theorem fourDigits_length {h : Text} (hne : h ≠ []) : (fourDigits h).length = max 4 h.length := by
  have hpos : 0 < h.length := List.length_pos_of_ne_nil hne
  unfold fourDigits
  rw [List.length_append, abnfHexLower_length]
  split
  · simp; omega
  split
  · simp; omega
  split
  · simp; omega
  · simp; omega

theorem printable_lt {s : Text} (h : charsWithin [(32, 33), (35, 126)] s = true) : ∀ c ∈ s, c.toNat < 128 := by
  intro c hc
  have hr := List.all_eq_true.1 h c hc
  simp only [List.any_cons, List.any_nil, Bool.or_false, Bool.or_eq_true, decide_eq_true_eq] at hr
  omega

/-- A string of a member with four digits or less holds its character. -/
theorem Member.spelt_short {m : Member} (hq : m.quoted = true) (hs : m.short = true) :
    utf16 m.low.spelt = fromCodePoint m.low.value := by
  have hlen : m.low.written.length ≤ 4 := by simpa [Member.short, hq] using hs
  have hspec := m.low.written_spec
  have hwithin : charsWithin [(32, 33), (35, 126)] m.low.spelt = true := (Bool.and_eq_true_iff.1 hq).2
  have hspelt : m.low.spelt = [charOr m.low.value] := by
    have hfour : (fourDigits m.low.written).length ≤ 4 := by
      rw [fourDigits_length hspec.1]
      omega
    rw [Piece.spelt, unquotedEscape_eq hfour, ofDigits_fourDigits, hspec.2.2.1]
  rw [hspelt, utf16_cons, utf16_nil, List.append_nil]
  have hlt := printable_lt hwithin (charOr m.low.value) (by rw [hspelt]; exact List.mem_singleton_self _)
  unfold charOr at hlt ⊢
  split
  · rename_i hv
    rw [if_pos hv] at hlt
    have hto := charOr_toNat hv
    rw [charOr, if_pos hv] at hto
    rw [hto]
  · rename_i hv
    rw [if_neg hv] at hlt
    exact absurd hlt (by decide)

/-- A string of a member with more digits holds more than one character. -/
theorem Member.spelt_long {m : Member} (hq : m.quoted = true) (hs : m.short = false) (n : Nat) :
    utf16 m.low.spelt ≠ fromCodePoint n := by
  have hlen : 4 < m.low.written.length := by simpa [Member.short, hq] using hs
  have hspec := m.low.written_spec
  have hwithin : charsWithin [(32, 33), (35, 126)] m.low.spelt = true := (Bool.and_eq_true_iff.1 hq).2
  have hfour : (fourDigits m.low.written).length = m.low.written.length := by
    rw [fourDigits_length hspec.1]
    omega
  obtain ⟨c, d, rest, hcd⟩ : ∃ c d rest, m.low.spelt = c :: d :: rest := by
    have hne : (fourDigits m.low.written).drop 4 ≠ [] := by
      rw [ne_eq, List.drop_eq_nil_iff]
      omega
    obtain ⟨d, rest, hd⟩ := List.exists_cons_of_ne_nil hne
    exact ⟨_, d, rest, by rw [Piece.spelt, unquotedEscape, hd]⟩
  have hone : ∀ c ∈ m.low.spelt, fromCodePoint c.toNat = [c.toNat] := fun c hc =>
    if_pos (Nat.lt_trans (printable_lt hwithin c hc) (by decide))
  have hc := hone c (by rw [hcd]; exact List.mem_cons_self)
  have hclt := printable_lt hwithin c (by rw [hcd]; exact List.mem_cons_self)
  have hd := hone d (by rw [hcd]; simp)
  intro h
  rw [hcd, utf16_cons, utf16_cons, hc, hd, List.singleton_append, List.singleton_append] at h
  unfold fromCodePoint at h
  split at h
  · cases h
  · have hhead := (List.cons.inj h).1
    omega

theorem Member.quoted_written {m : Member} (hdang : m.dangling = false) (hq : m.quoted = true) :
    m.low.written = m.high.written := by
  have h := (Bool.and_eq_true_iff.1 hq).1
  rw [Member.writtenHigh_eq hdang] at h
  exact abnfSame_iff.1 h

theorem Member.quoted_value {m : Member} (hdang : m.dangling = false) (hq : m.quoted = true) :
    m.low.value = m.high.value := by
  rw [← m.low.written_spec.2.2.1, Member.quoted_written hdang hq, m.high.written_spec.2.2.1]

/-- What a member with no dash left over is read as, where its string holds one character. -/
theorem Member.matches_iff {m : Member} (hdang : m.dangling = false) (hs : m.short = true) (s : Units) :
    m.Matches s ↔ ∃ n, m.Holds n ∧ s = fromCodePoint n := by
  unfold Member.Matches Member.Holds
  by_cases hq : m.quoted = true
  · have hfolds : m.folds = false := by rw [Member.folds, hq]; rfl
    rw [if_pos hq, Member.spelt_short hq hs]
    simp only [hfolds, Bool.false_eq_true, if_false, ← Member.quoted_value hdang hq]
    constructor
    · exact fun h => ⟨_, ⟨le_rfl, le_rfl⟩, h⟩
    · rintro ⟨n, hn, rfl⟩
      rw [Nat.le_antisymm hn.2 hn.1]
  · rw [if_neg hq, RangeMatches]
    rw [Bool.not_eq_true] at hq
    by_cases heq : m.low.value = m.high.value
    · have hfolds : m.folds = true := by rw [Member.folds, hq, decide_eq_true heq]; rfl
      simp only [if_pos heq, hfolds, if_true]
      exact termMatches_point
    · have hfolds : m.folds = false := by rw [Member.folds, decide_eq_false heq, Bool.and_false]
      simp only [if_neg heq, hfolds, Bool.false_eq_true, if_false]

/-- The ends of a member are pieces. -/
theorem mem_members {skip : Bool} {ps : List Piece} : ∀ m ∈ members skip ps, m.low ∈ ps ∧ m.high ∈ ps := by
  fun_induction members skip ps with
  | case1 =>
    intro m hm
    cases hm
  | case2 p ps ih => exact fun m hm => ⟨List.mem_cons_of_mem _ (ih m hm).1, List.mem_cons_of_mem _ (ih m hm).2⟩
  | case3 p =>
    intro m hm
    rw [List.mem_singleton.1 hm]
    exact ⟨List.mem_cons_self, List.mem_cons_self⟩
  | case4 p q ps hd ih =>
    intro m hm
    rcases List.mem_cons.1 hm with rfl | hm
    · exact ⟨List.mem_cons_self, List.mem_cons_of_mem _ List.mem_cons_self⟩
    · have h := ih m hm
      exact ⟨List.mem_cons_of_mem _ (List.mem_cons_of_mem _ h.1), List.mem_cons_of_mem _ (List.mem_cons_of_mem _ h.2)⟩
  | case5 p q ps hd ih =>
    intro m hm
    rcases List.mem_cons.1 hm with rfl | hm
    · exact ⟨List.mem_cons_self, List.mem_cons_self⟩
    · exact ⟨List.mem_cons_of_mem _ (ih m hm).1, List.mem_cons_of_mem _ (ih m hm).2⟩

/-! ## The classes written as themselves -/

/-- The ends of a member. -/
def Member.range (m : Member) : Nat × Nat := (m.low.value, m.high.value)

/-- A code point is in one of some ranges. -/
def InSpans (spans : List (Nat × Nat)) (n : Nat) : Prop := ∃ s ∈ spans, s.1 ≤ n ∧ n ≤ s.2

/-- The members that are written are read as what the class is. -/
structure Faithful (u : Bool) (ps : List Piece) : Prop where
  closed : ∀ m ∈ members false ps, m.dangling = false
  short : ∀ m ∈ members false ps, m.short = true
  ordered : ∀ m ∈ members false ps, m.low.value ≤ m.high.value
  covers : ∀ n, (∃ m ∈ members false ps, m.Holds n) ↔ InSpans (classSpans u ps) n

/-- An element that refers to no rule and is a class, every range in order. -/
def IsClass (cls : JsClass) (e : Ir) : Prop :=
  e.refs = [] ∧ e.ordered = true ∧ ∀ s, e.Matches asciiFold s ↔ cls.Matches s

section

variable {u : Bool} {ps : List Piece} {cls : JsClass} {out : Text}

theorem jsClass_matches (h : jsClass u (patternText false ps) = some cls) (s : Units) :
    cls.Matches s ↔ ∃ n, (∃ r ∈ classSpans u ps, r.1 ≤ n ∧ n ≤ r.2) ∧ s = fromCodePoint n := by
  obtain ⟨rfl, -, hle⟩ := jsClass_patternText h
  have hholds : ∀ n, JsClass.Holds ⟨u, false, classSpans u ps⟩ n ↔ ∃ r ∈ classSpans u ps, r.1 ≤ n ∧ n ≤ r.2 := by
    intro n
    have htop : JsClass.top ⟨u, false, classSpans u ps⟩ = classTop u := rfl
    rw [JsClass.Holds, htop, Bool.not_false, List.any_eq_true]
    simp only [decide_eq_true_eq]
    constructor
    · exact And.right
    · rintro ⟨r, hr, hn⟩
      exact ⟨hn.2.trans (hle r hr), r, hr, hn⟩
  unfold JsClass.Matches
  simp only [hholds]

/-- An element that matches what one of the members does is the class exactly where the class is faithful. -/
theorem isClass_iff_faithful (hcls : jsClass u (patternText false ps) = some cls)
    (hclosed : ∀ m ∈ members false ps, m.dangling = false) {e : Ir} (he : ClassRead (members false ps) e) :
    IsClass cls e ↔ Faithful u ps := by
  obtain ⟨hrefs, horder, hmatch⟩ := he
  constructor
  · rintro ⟨-, hord, hcm⟩
    have hall : ∀ s, (∃ m ∈ members false ps, m.Matches s) ↔ cls.Matches s := fun s => (hmatch s).symm.trans (hcm s)
    -- a member that is quoted as more than one code point matches what no class does
    have hshort : ∀ m ∈ members false ps, m.short = true := by
      intro m hm
      by_contra hs
      rw [Bool.not_eq_true] at hs
      have hq : m.quoted = true := by
        by_contra hq
        rw [Bool.not_eq_true] at hq
        rw [Member.short, hq] at hs
        cases hs
      have hself : m.Matches (utf16 m.low.spelt) := by rw [Member.Matches, if_pos hq]
      obtain ⟨n, -, hn⟩ := (jsClass_matches hcls _).1 ((hall _).1 ⟨m, hm, hself⟩)
      exact Member.spelt_long hq hs n hn
    refine ⟨hclosed, hshort, fun m hm => ?_, fun n => ⟨?_, fun hn => ?_⟩⟩
    · rcases (horder.1 hord) m hm with hq | hlo
      · exact (Member.quoted_value (hclosed m hm) hq).le
      · exact hlo
    -- code points are told apart by their units
    · rintro ⟨m, hm, hn⟩
      have hs := (hall (fromCodePoint n)).1 ⟨m, hm, (Member.matches_iff (hclosed m hm) (hshort m hm) _).2 ⟨n, hn, rfl⟩⟩
      obtain ⟨n', hn', heq⟩ := (jsClass_matches hcls _).1 hs
      rwa [fromCodePoint_injective heq]
    · obtain ⟨m, hm, hs⟩ := (hall (fromCodePoint n)).2 ((jsClass_matches hcls _).2 ⟨n, hn, rfl⟩)
      obtain ⟨n', hn', heq⟩ := (Member.matches_iff (hclosed m hm) (hshort m hm) _).1 hs
      rw [fromCodePoint_injective heq]
      exact ⟨m, hm, hn'⟩
  · intro h
    refine ⟨hrefs, horder.2 fun m hm => .inr (h.ordered m hm), fun s => ?_⟩
    rw [hmatch, jsClass_matches hcls]
    constructor
    · rintro ⟨m, hm, hs⟩
      obtain ⟨n, hn, rfl⟩ := (Member.matches_iff (h.closed m hm) (h.short m hm) s).1 hs
      exact ⟨n, (h.covers n).1 ⟨m, hm, hn⟩, rfl⟩
    · rintro ⟨n, hn, rfl⟩
      obtain ⟨m, hm, hholds⟩ := (h.covers n).2 hn
      exact ⟨m, hm, (Member.matches_iff (h.closed m hm) (h.short m hm) _).2 ⟨n, hholds, rfl⟩⟩

/-- The pieces of a class that JavaScript takes are code points. -/
theorem jsClass_values (hcls : jsClass u (patternText false ps) = some cls) : ∀ p ∈ ps, p.value ≤ 0x10FFFF := by
  obtain ⟨-, htop, -⟩ := jsClass_patternText hcls
  intro p hp
  have h := htop p hp
  unfold classTop at h
  split at h <;> omega

/-- A class that is written is read as one element that is the class exactly where it is faithful. -/
theorem range_readsIf (hlast : ∀ p ∈ ps.getLast?, p.dash = false) (hcls : jsClass u (patternText false ps) = some cls)
    (hout : abnfRangeText (patternText false ps) = .ok out) :
    ReadsIf DAtoms atomsIr out (One (IsClass cls)) (Faithful u ps) := by
  have hle := jsClass_values hcls
  obtain ⟨hne, text, htext, hshape⟩ := abnfRangeText_members hlast hout
  have hbounds : ∀ m ∈ members false ps, m.low.value ≤ 0x10FFFF ∧ m.high.value ≤ 0x10FFFF := fun m hm =>
    ⟨hle _ (mem_members m hm).1, hle _ (mem_members m hm).2⟩
  obtain ⟨ls, hp⟩ := phrase_members hne htext hbounds hshape
  refine ⟨ls, hp.mono ?_⟩
  rintro ⟨a, es⟩ ⟨hread, hdash⟩
  rw [atomsIr, one_cons, seqIr_eq_nil]
  by_cases hclosed : ∀ m ∈ members false ps, m.dangling = false
  · obtain ⟨hes, hclass⟩ := hread hclosed
    rw [isClass_iff_faithful hcls hclosed hclass]
    exact and_iff_right hes
  · -- a dash left over is a reference
    refine iff_of_false ?_ fun hf => hclosed hf.closed
    rintro ⟨hes, hclass⟩
    refine hdash ?_ ⟨hes, hclass.1⟩
    push Not at hclosed
    simpa using hclosed

end

/-! ## Any class -/

theorem patternText_ne_any (ps : List Piece) : patternText false ps ≠ anyClass := by
  intro h
  rcases ps with _ | ⟨p, ps⟩
  · cases h
  · rw [patternText, membersText_cons] at h
    cases h

theorem Piece.src_injective {p q : Piece} (h : p.src = q.src) : p = q := by
  have hdash : p.dash = q.dash := by rw [← p.src_ends, h, q.src_ends]
  have hcore : p.core = q.core := by rw [← p.pieceCore_src, h, q.pieceCore_src]
  have hbraced : p.braced = q.braced := by rw [← p.core_starts, hcore, q.core_starts]
  have hhex : p.hex = q.hex := by rw [← p.pieceHex_src, h, q.pieceHex_src]
  cases p
  cases q
  simp only [Piece.mk.injEq]
  exact ⟨hbraced, hhex, hdash⟩

/-- A pattern is the text of one list of pieces at most. -/
theorem patternText_injective {negated : Bool} {ps qs : List Piece}
    (h : patternText false ps = patternText negated qs) :
    ps = qs := by
  have hinner := congrArg classInner h
  rw [classInner_patternText, classInner_patternText, if_neg Bool.false_ne_true, List.nil_append] at hinner
  rcases negated with _ | _
  · have hsplit := congrArg (split escapeMark) hinner
    rw [if_neg Bool.false_ne_true, List.nil_append, split_membersText, split_membersText, List.cons.injEq] at hsplit
    exact List.map_injective_iff.2 (fun _ _ => Piece.src_injective) hsplit.2
  · have hcaret := membersText_caret ps
    rw [hinner, if_pos rfl, (abnfStarts_iff (List.cons_ne_nil _ _)).2 ⟨_, rfl⟩] at hcaret
    cases hcaret

/-- The last member of a class that passes has no dash after it. -/
theorem abnfClassPattern_last {ps : List Piece} (h : abnfClassPattern (patternText false ps) = true) :
    ∀ p ∈ ps.getLast?, p.dash = false := by
  rcases abnfClassPattern_pieces h with hany | ⟨negated, qs, -, hlast, heq⟩
  · exact absurd hany (patternText_ne_any ps)
  · rwa [patternText_injective heq]

/-- `[\s\S]` is written as the range of every code point. -/
theorem anyClass_atom : AtomText ['%', 'x', '0', '-', '1', '0', 'F', 'F', 'F', 'F'] (IsClass ⟨true, true, []⟩) := by
  have hlo : Meta.Read 'x' ['0'] 0 := read_digits (List.cons_ne_nil _ _) rfl (by decide)
  have hhi : Meta.Read 'x' ['1', '0', 'F', 'F', 'F', 'F'] 0x10FFFF := read_digits (List.cons_ne_nil _ _) rfl (by decide)
  refine (atomText_range hlo hhi).mono ?_
  rintro e ⟨sp, rfl⟩
  refine ⟨rfl, rfl, fun s => ?_⟩
  constructor
  · rintro ⟨n, hn, rfl⟩
    exact ⟨n, ⟨hn.2, rfl⟩, rfl⟩
  · rintro ⟨n, hn, rfl⟩
    exact ⟨n, ⟨Nat.zero_le _, hn.1⟩, rfl⟩

/-- A class that is written is the class of every character, or one of pieces and not negated. -/
theorem abnfClassText_cases {pat flags out : Text} {cls : JsClass} (hpat : abnfClassPattern pat = true)
    (hflags : abnfFlagsFit pat flags = true) (hcls : jsClass (flags == ['u']) pat = some cls)
    (hout : abnfClassText pat flags = .ok out) :
    (pat = anyClass ∧ cls = ⟨true, true, []⟩ ∧ out = ['%', 'x', '0', '-', '1', '0', 'F', 'F', 'F', 'F']) ∨
      ∃ ps, pat = patternText false ps ∧ abnfRangeText (patternText false ps) = .ok out := by
  unfold abnfClassText at hout
  split at hout
  · rename_i hany
    cases hout
    subst hany
    have hu : flags = ['u'] := by
      unfold abnfFlagsFit at hflags
      rw [if_pos (show abnfWantsU anyClass = true from rfl)] at hflags
      exact abnfSame_iff.1 hflags
    subst hu
    cases hcls
    exact .inl ⟨rfl, rfl, rfl⟩
  · rename_i hany
    obtain ⟨b, rfl⟩ : ∃ b, pat = '[' :: b := by
      have hshape : pat ≠ ['[', '\\', 's', '\\', 'S', ']'] := hany
      rw [jsClass, if_neg hshape] at hcls
      obtain ⟨s, hs, -⟩ := Option.bind_eq_some_iff.1 hcls
      unfold classBody at hs
      split at hs
      · exact ⟨_, rfl⟩
      · cases hs
    rcases abnfClassPattern_pieces hpat with h | ⟨negated, ps, -, -, heq⟩
    · exact absurd h hany
    rcases negated with _ | _
    · exact .inr ⟨ps, heq, heq ▸ hout⟩
    · rw [heq, abnfRangeText, classInner_patternText, if_pos rfl] at hout
      dsimp only at hout
      rw [if_pos ((abnfStarts_iff (List.cons_ne_nil _ _)).2 ⟨_, rfl⟩)] at hout
      cases hout

/-- Whether a class is written as what it is. -/
def ClassWhole (pat flags : Text) : Prop := ∀ ps, pat = patternText false ps → Faithful (flags == ['u']) ps

/-- A class that is written is read as one element that is the class exactly where it is whole. -/
theorem class_readsIf {pat flags out : Text} {cls : JsClass} (hpat : abnfClassPattern pat = true)
    (hflags : abnfFlagsFit pat flags = true) (hcls : jsClass (flags == ['u']) pat = some cls)
    (hout : abnfClassText pat flags = .ok out) :
    ReadsIf DAtoms atomsIr out (One (IsClass cls)) (ClassWhole pat flags) := by
  rcases abnfClassText_cases hpat hflags hcls hout with ⟨rfl, rfl, rfl⟩ | ⟨ps, rfl, hrange⟩
  · have hany := ReadsIf.of_atom anyClass_atom fun _ he => he
    exact hany.congr (fun _ => Iff.rfl) (iff_true_intro fun ps h => absurd h.symm (patternText_ne_any ps))
  · refine (range_readsIf (abnfClassPattern_last hpat) hcls hrange).congr (fun _ => Iff.rfl) ?_
    exact ⟨fun h => h ps rfl, fun h qs hqs => patternText_injective hqs ▸ h⟩

end TabnasAbnf.Render
