/-
The text of a class read back. A member is read as a string or a range of its own code points, where its
digits are those the text keeps; where a dash is left over, as a range and a reference to a rule `-`.
-/
import TabnasAbnf.Meta.CoreRules
import TabnasAbnf.Meta.Phrase
import TabnasAbnf.Render.LitText
import TabnasAbnf.Render.Members

namespace TabnasAbnf.Render

open TabnasAbnf.Base TabnasAbnf.Meta

/-! ## What a member matches -/

/-- The characters a string holds for a piece. -/
def Piece.spelt (p : Piece) : Text := unquotedEscape (fourDigits p.written)

def Member.low : Member → Piece
  | .one p => p
  | .span p _ => p

def Member.high : Member → Piece
  | .one p => p
  | .span _ q => q

/-- Whether a member is written as a string. -/
def Member.quoted (m : Member) : Bool :=
  abnfSame m.ends.1 m.ends.2 && charsWithin [(32, 33), (35, 126)] m.low.spelt

/-- Whether a dash is left over at the high end of a member. -/
def Member.dangling : Member → Bool
  | .one _ => false
  | .span _ q => q.dash && !q.braced

/-- Whether a string holds one character for the member. -/
def Member.short (m : Member) : Bool := !m.quoted || decide (m.low.written.length ≤ 4)

/-- A range matches its code points; one of an ASCII letter is read without regard to case. -/
def RangeMatches (lo hi : Nat) (s : Units) : Prop :=
  if lo = hi then TermMatches asciiFold (fromCodePoint lo) false s else ∃ n, (lo ≤ n ∧ n ≤ hi) ∧ s = fromCodePoint n

def Member.Matches (m : Member) (s : Units) : Prop :=
  if m.quoted then s = utf16 m.low.spelt else RangeMatches m.low.value m.high.value s

/-- The element of a member refers to no rule and matches what the member does. -/
def Member.Read (m : Member) (e : Ir) : Prop :=
  e.refs = [] ∧ (e.ordered = true ↔ m.quoted = true ∨ m.low.value ≤ m.high.value) ∧
    ∀ s, e.Matches asciiFold s ↔ m.Matches s

/-- What a member is read as: an element that is the member or, with a dash left over, one more that is a
reference. -/
def Member.ReadsTo (m : Member) (x : CAtom × CSeq) : Prop :=
  if m.dangling then ∃ sp, seqIr x.2 = [.ref ['-'] sp] else OneAtom m.Read x

theorem Piece.read {p : Piece} (h : p.value ≤ 0x10FFFF) : Meta.Read 'x' p.written p.value := by
  obtain ⟨hne, hd, hval, -⟩ := p.written_spec
  have hread := read_digits hne (List.all_eq_true.2 hd) (hval ▸ h)
  rwa [hval] at hread

/-- A string that matches exactly. -/
theorem atomText_exact {text out : Text} (hne : text ≠ []) (hplain : charsWithin [(32, 33), (35, 126)] text = true)
    (h : abnfLitText text true = .ok out) :
    AtomText out fun e => e.refs = [] ∧ e.ordered = true ∧ ∀ s, e.Matches asciiFold s ↔ s = utf16 text := by
  have hval := isCharVal_of_within hplain
  have hspelt : ∀ {e : Element (NumericElement Units) JsNum}, Spelt asciiFold text true e →
      ∀ s, e.Matches asciiFold s ↔ s = utf16 text := fun hs s => by simpa using hs.2 s
  rw [abnfLitText, if_neg hne, if_pos hplain, if_pos rfl, abnfHasLetter_eq] at h
  split at h
  · cases h
    refine (atomText_sensitive hval).mono ?_
    rintro e ⟨sp, rfl⟩
    exact ⟨rfl, rfl, hspelt (spelt_term rfl)⟩
  · rename_i hl
    cases h
    refine (atomText_string hval).mono ?_
    rintro e ⟨sp, rfl⟩
    exact ⟨rfl, rfl, hspelt (spelt_term (by simpa using hl))⟩

theorem Member.writtenHigh_eq {m : Member} (h : m.dangling = false) : m.ends = (m.low.written, m.high.written) := by
  rcases m with p | ⟨p, q⟩
  · rfl
  · have hhigh : q.writtenHigh = q.written := by
      rcases Bool.eq_false_or_eq_true q.braced with hb | hb
      · rw [Piece.writtenHigh, if_pos hb]
      · have hd : q.dash = false := by simpa [Member.dangling, hb] using h
        rw [Piece.writtenHigh, Piece.tail, hd, if_neg Bool.false_ne_true, List.append_nil, ite_self]
    rw [Member.ends, hhigh]
    rfl

/-- The numeric value of a range is read as one. -/
theorem atomText_ends {p q : Piece} (hlo : p.value ≤ 0x10FFFF) (hhi : q.value ≤ 0x10FFFF) :
    AtomText (['%', 'x'] ++ p.written ++ ['-'] ++ q.written) fun e =>
      e.refs = [] ∧ (e.ordered = true ↔ p.value ≤ q.value) ∧
        ∀ s, e.Matches asciiFold s ↔ RangeMatches p.value q.value s := by
  have hrange := atomText_range (p.read hlo) (q.read hhi)
  have htext : '%' :: 'x' :: (p.written ++ '-' :: q.written) = ['%', 'x'] ++ p.written ++ ['-'] ++ q.written := by simp
  rw [htext] at hrange
  refine hrange.mono ?_
  rintro e ⟨sp, rfl⟩
  by_cases heq : p.value = q.value
  · rw [if_pos heq]
    refine ⟨rfl, ⟨fun _ => heq.le, fun _ => rfl⟩, fun s => ?_⟩
    rw [RangeMatches, if_pos heq]
    rfl
  · rw [if_neg heq]
    refine ⟨rfl, by rw [Element.ordered, decide_eq_true_eq], fun s => ?_⟩
    rw [RangeMatches, if_neg heq]
    rfl

theorem atomText_member {pat out : Text} {m : Member} (hlo : m.low.value ≤ 0x10FFFF) (hhi : m.high.value ≤ 0x10FFFF)
    (hdang : m.dangling = false) (h : abnfMemberText pat m.ends = .ok out) : AtomText out m.Read := by
  have hends := Member.writtenHigh_eq hdang
  have hnumeric : m.quoted = false → AtomText (['%', 'x'] ++ m.low.written ++ ['-'] ++ m.high.written) m.Read := by
    intro hq
    refine (atomText_ends hlo hhi).mono ?_
    rintro e ⟨hr, ho, hm⟩
    refine ⟨hr, by rw [ho, hq]; simp, fun s => ?_⟩
    rw [hm, Member.Matches, hq, if_neg Bool.false_ne_true]
  -- one code point is quoted where a string can hold it; any other member is a numeric range
  unfold abnfMemberText at h
  split at h
  · rename_i hsame
    have heq : m.low.written = m.high.written := by
      rw [hends] at hsame
      exact abnfSame_iff.1 hsame
    dsimp only at h
    rw [hends] at h
    split at h
    · split at h
      · rename_i hplain
        have hquoted : m.quoted = true := by rw [Member.quoted, hsame, Bool.true_and]; exact hplain
        rcases hlit : abnfLitText (unquotedEscape (fourDigits m.low.written)) true with e | t
        · rw [hlit] at h
          cases h
        · rw [hlit] at h
          cases h
          refine (atomText_exact (List.cons_ne_nil _ _) hplain hlit).mono ?_
          rintro e ⟨hr, ho, hm⟩
          refine ⟨hr, ⟨fun _ => .inl hquoted, fun _ => ho⟩, fun s => ?_⟩
          rw [hm, Member.Matches, if_pos hquoted]
          rfl
      · rename_i hplain
        cases h
        have hq : m.quoted = false := by
          rw [Member.quoted, hsame, Bool.true_and]
          exact Bool.eq_false_iff.2 hplain
        have hread := hnumeric hq
        rwa [← heq] at hread
    · cases h
  · rename_i hsame
    cases h
    rw [hends] at hsame ⊢
    refine hnumeric ?_
    rw [Member.quoted, hends, Bool.eq_false_iff.2 hsame, Bool.false_and]

/-- A dash left over stands behind the numeric value. -/
theorem text_dangling {pat out : Text} {m : Member} (hdang : m.dangling = true)
    (h : abnfMemberText pat m.ends = .ok out) :
    out = '%' :: 'x' :: (m.low.written ++ '-' :: m.high.written) ++ ['-'] := by
  rcases m with p | ⟨p, q⟩
  · cases hdang
  · simp only [Member.dangling, Bool.and_eq_true, Bool.not_eq_true'] at hdang
    have hhigh : q.writtenHigh = q.written ++ ['-'] := by
      rw [Piece.writtenHigh, hdang.2, if_neg Bool.false_ne_true, Piece.tail, if_pos hdang.1]
    have hsame : ¬ abnfSame p.written q.writtenHigh = true := by
      rw [abnfSame_iff, hhigh]
      intro he
      have hd := p.written_spec.2.1 '-' (by rw [he]; simp)
      cases hd
    rw [abnfMemberText, Member.ends, if_neg hsame, hhigh] at h
    cases h
    simp [Member.low, Member.high]

/-- Any member that is written is read, as one element or as two. -/
theorem phrase_member {pat out : Text} {m : Member} (hlo : m.low.value ≤ 0x10FFFF) (hhi : m.high.value ≤ 0x10FFFF)
    (h : abnfMemberText pat m.ends = .ok out) : ∃ ls, Phrase DAtoms out ls m.ReadsTo := by
  unfold Member.ReadsTo
  rcases Bool.eq_false_or_eq_true m.dangling with hdang | hdang
  · have hrange := parse_range (m.low.read hlo) (m.high.read hhi)
    rw [text_dangling hdang h, hdang]
    exact ⟨_, phrase_dash hrange.1 hrange.2⟩
  · rw [hdang]
    exact (atomText_member hlo hhi hdang h).phrase

/-! ## A class -/

section

variable {pat : Text} {text : Member → Text} {ms : List Member}

/-- The texts of members that are all written. -/
theorem mapM_texts {texts : List Text} (h : (ms.map Member.ends).mapM (abnfMemberText pat) = .ok texts)
    (htext : ∀ m ∈ ms, ∀ t, abnfMemberText pat m.ends = .ok t → text m = t) :
    texts = ms.map text ∧ ∀ m ∈ ms, abnfMemberText pat m.ends = .ok (text m) := by
  induction ms generalizing texts with
  | nil =>
    cases h
    exact ⟨rfl, fun m hm => by cases hm⟩
  | cons m ms ih =>
    rw [List.map_cons, List.mapM_cons] at h
    rcases hm : abnfMemberText pat m.ends with e | t
    · rw [hm] at h
      cases h
    · rw [hm] at h
      rcases hrest : (ms.map Member.ends).mapM (abnfMemberText pat) with e | ts
      · rw [hrest] at h
        cases h
      · rw [hrest] at h
        cases h
        obtain ⟨rfl, hall⟩ := ih hrest fun m' hm' => htext m' (List.mem_cons_of_mem _ hm')
        have ht := htext m List.mem_cons_self t hm
        refine ⟨by rw [List.map_cons, ht], fun m' hm' => ?_⟩
        rcases List.mem_cons.1 hm' with rfl | hm'
        · rw [hm, ht]
        · exact hall m' hm'

/-- A class that is written is written member by member, several of them in brackets. -/
theorem abnfRangeText_members {ps : List Piece} {out : Text} (hlast : ∀ p ∈ ps.getLast?, p.dash = false)
    (h : abnfRangeText (patternText false ps) = .ok out) :
    members false ps ≠ [] ∧ ∃ text : Member → Text,
      (∀ m ∈ members false ps, abnfMemberText (patternText false ps) m.ends = .ok (text m)) ∧
        out = if (members false ps).length = 1 then [' ', '/', ' '].intercalate ((members false ps).map text)
          else ['(', ' '] ++ [' ', '/', ' '].intercalate ((members false ps).map text) ++ [' ', ')'] := by
  have hinner := classInner_patternText false ps
  rw [if_neg Bool.false_ne_true, List.nil_append] at hinner
  have hfilled : (((members false ps).map Member.ends).filter fun m => m.1.isEmpty) = [] := by
    rw [List.filter_eq_nil_iff]
    intro e he
    obtain ⟨m, -, rfl⟩ := List.mem_map.1 he
    have hlow : m.ends.1 = m.low.written := by cases m <;> rfl
    rw [hlow]
    simpa using m.low.written_spec.1
  unfold abnfRangeText at h
  rw [hinner] at h
  dsimp only at h
  rw [membersText_caret, if_neg Bool.false_ne_true, abnfClassMembers_eq hlast, hfilled, List.isEmpty_nil, if_pos rfl,
    List.length_map] at h
  -- each member by itself, which the render either writes for all or refuses
  let text : Member → Text := fun m => (abnfMemberText (patternText false ps) m.ends).toOption.getD []
  have htext : ∀ m t, abnfMemberText (patternText false ps) m.ends = .ok t → text m = t := by
    intro m t ht
    show (abnfMemberText (patternText false ps) m.ends).toOption.getD [] = t
    rw [ht]
    rfl
  split at h
  · cases h
  · rename_i hlen
    have hne : members false ps ≠ [] := by
      intro he
      rw [he] at hlen
      exact hlen rfl
    refine ⟨hne, text, ?_⟩
    split at h
    · rename_i hone
      obtain ⟨m, hm⟩ := List.length_eq_one_iff.1 hone
      rw [hm, List.map_singleton, List.getD_cons_zero] at h
      rw [hm]
      have ht := htext m out h
      refine ⟨fun m' hm' => ?_, by simp [ht]⟩
      rw [List.mem_singleton.1 hm', ht]
      exact h
    · rename_i hmany
      rcases hall : ((members false ps).map Member.ends).mapM (abnfMemberText (patternText false ps)) with e | texts
      · rw [hall] at h
        cases h
      · rw [hall] at h
        cases h
        obtain ⟨rfl, hok⟩ := mapM_texts hall fun m _ => htext m
        rw [if_neg hmany]
        exact ⟨hok, rfl⟩

/-- What a member is read as in an alternative of its own. -/
def Member.ReadsSeq (m : Member) (es : CSeq) : Prop := ∃ a es', es = (.once, a) :: es' ∧ m.ReadsTo (a, es')

/-- The alternatives of members, one element each and none of them a reference where no dash is left over. -/
theorem memberAlts {as : CAlts} (h : List.Forall₂ Member.ReadsSeq ms as) :
    ((∀ m ∈ ms, m.dangling = false) →
      ∃ es, altsIr as = es.map ([·]) ∧ List.Forall₂ Member.Read ms es) ∧
    ((∃ m ∈ ms, m.dangling = true) → altsRefs (altsIr as) ≠ []) := by
  induction h with
  | nil => exact ⟨fun _ => ⟨[], rfl, .nil⟩, fun h => by simp at h⟩
  | @cons m es ms as hm _ ih =>
    obtain ⟨a, es, rfl, hread⟩ := hm
    have halts : altsIr (((.once, a) :: es) :: as) = (atomIr a :: seqIr es) :: altsIr as := rfl
    rw [halts]
    refine ⟨fun hdang => ?_, fun hdang => ?_⟩
    · rw [List.forall_mem_cons] at hdang
      obtain ⟨irs, heq, hall⟩ := ih.1 hdang.2
      rw [Member.ReadsTo, hdang.1, if_neg Bool.false_ne_true] at hread
      obtain ⟨rfl, hread⟩ := hread
      exact ⟨atomIr a :: irs, by rw [heq]; rfl, .cons hread hall⟩
    · rw [altsRefs, Ne, List.append_eq_nil_iff, not_and_or]
      rcases (List.exists_mem_cons_iff _ _ _).1 hdang with hd | hd
      · left
        rw [Member.ReadsTo, hd, if_pos rfl] at hread
        obtain ⟨sp, hseq⟩ := hread
        simp [seqRefs, hseq, Element.refs]
      · exact .inr (ih.2 hd)

theorem matches_members {es : List Ir} (h : List.Forall₂ Member.Read ms es) :
    altsRefs (es.map ([·])) = [] ∧ 
      (orderedAny (es.map ([·])) = true ↔ ∀ m ∈ ms, m.quoted = true ∨ m.low.value ≤ m.high.value) ∧
      ∀ s, MatchesAny asciiFold (es.map ([·])) s ↔ ∃ m ∈ ms, m.Matches s := by
  simp only [orderedAny_singletons, matchesAny_singletons]
  induction h with
  | nil => simp [altsRefs]
  | cons he _ ih =>
    refine ⟨by simp [altsRefs, seqRefs, he.1, ih.1], ?_, fun s => ?_⟩
    · simp only [List.forall_mem_cons, he.2.1, ih.2.1]
    · simp only [List.exists_mem_cons_iff, he.2.2 s, ih.2.2 s]

/-- An element that refers to no rule and matches what one of the members does. -/
def ClassRead (ms : List Member) (e : Ir) : Prop :=
  e.refs = [] ∧ (e.ordered = true ↔ ∀ m ∈ ms, m.quoted = true ∨ m.low.value ≤ m.high.value) ∧
    ∀ s, e.Matches asciiFold s ↔ ∃ m ∈ ms, m.Matches s

/-- A class is read as one element that matches what one of its members does; where a dash is left over, as no such
element. -/
theorem phrase_members {out : Text} (hne : ms ≠ []) (htext : ∀ m ∈ ms, abnfMemberText pat m.ends = .ok (text m))
    (hle : ∀ m ∈ ms, m.low.value ≤ 0x10FFFF ∧ m.high.value ≤ 0x10FFFF)
    (hout : out = if ms.length = 1 then [' ', '/', ' '].intercalate (ms.map text)
      else ['(', ' '] ++ [' ', '/', ' '].intercalate (ms.map text) ++ [' ', ')']) :
    ∃ ls, Phrase DAtoms out ls fun x => ((∀ m ∈ ms, m.dangling = false) → OneAtom (ClassRead ms) x) ∧
      ((∃ m ∈ ms, m.dangling = true) → ¬ OneAtom (fun e => e.refs = []) x) := by
  have hmember : ∀ m ∈ ms, ∃ ls, Phrase DAtoms (text m) ls m.ReadsTo := fun m hm =>
    phrase_member (hle m hm).1 (hle m hm).2 (htext m hm)
  rw [hout]
  split
  · rename_i hone
    obtain ⟨m, rfl⟩ := List.length_eq_one_iff.1 hone
    rw [List.map_singleton, List.intercalate_singleton]
    obtain ⟨ls, hp⟩ := hmember m (List.mem_singleton_self m)
    refine ⟨ls, hp.mono ?_⟩
    rintro ⟨a, es⟩ hread
    simp only [List.mem_singleton, forall_eq, exists_eq_left]
    refine ⟨fun hdang => ?_, fun hdang => ?_⟩
    · rw [Member.ReadsTo, hdang, if_neg Bool.false_ne_true] at hread
      exact ⟨hread.1, hread.2.1, by simpa using hread.2.2.1, by simpa using hread.2.2.2⟩
    · rw [Member.ReadsTo, hdang, if_pos rfl] at hread
      obtain ⟨sp, hseq⟩ := hread
      rintro ⟨rfl, -⟩
      cases hseq
  · have hseq : ∀ m ∈ ms, ∃ ls, Phrase DSeq (text m) ls m.ReadsSeq := by
      intro m hm
      obtain ⟨ls, hp⟩ := hmember m hm
      refine ⟨ls, (phrase_seq_single (phrase_once hp)).mono ?_⟩
      rintro _ ⟨⟨⟨r, a⟩, es⟩, rfl, rfl, hread⟩
      exact ⟨a, es, rfl, hread⟩
    obtain ⟨ls, hp⟩ := phrase_alts hne hseq
    refine ⟨_, (phrase_bracket .group rfl rfl hp).mono ?_⟩
    rintro ⟨_, _⟩ ⟨rfl, t, t', as, rfl, hall⟩
    have hgroup : atomIr (.group .group t t' as) = .group (altsIr as) (spanTo (some t) (some t')) := rfl
    refine ⟨fun hdang => ⟨rfl, ?_⟩, fun hdang hno => ?_⟩
    · obtain ⟨es, heq, hread⟩ := (memberAlts hall).1 hdang
      rw [hgroup, heq]
      exact matches_members hread
    · exact (memberAlts hall).2 hdang hno.2

end

end TabnasAbnf.Render
