/-
The escapes of a literal's pattern: a text with a backslash before each character a pattern reads
otherwise is read back, and the bodies taken for a literal are those escaped texts.
-/
import TabnasAbnf.Render.Token

namespace TabnasAbnf.Render

open TabnasAbnf.Base

/-! ## Escaped texts -/

/-- The characters a pattern reads otherwise. -/
def metaChars : Text := ['^', '$', '.', '*', '+', '?', '(', ')', '[', ']', '\x7b', '\x7d', '|']

/-- The characters the compiler escapes: a backslash, and those. -/
def isEscaped (c : Char) : Bool := c == '\\' || metaChars.any (· == c)

/-- A text with a backslash before each of those characters. -/
def escaped (t : Text) : Text := t.flatMap fun c => if isEscaped c then ['\\', c] else [c]

/-! ## Taking the escapes off -/

theorem abnfUnescape_eq (s : Text) :
    abnfUnescape s = stringJoin ['\\'] ((split ['\\', '\\'] s).map fun p => p.filter (· ≠ '\\')) := by
  unfold abnfUnescape
  simp only [join_split_nil]

theorem abnfUnescape_cons {x : Char} (h : x ≠ '\\') (s : Text) : abnfUnescape (x :: s) = x :: abnfUnescape s := by
  rw [abnfUnescape_eq, abnfUnescape_eq, split_cons_ne h]
  obtain ⟨p, ps, hp⟩ := List.exists_cons_of_ne_nil (split_ne_nil ['\\', '\\'] s)
  rw [hp, List.modifyHead_cons, List.map_cons, List.map_cons, List.filter_cons_of_pos (by simpa using h)]
  exact List.intercalate_cons_cons_left

theorem abnfUnescape_pair (s : Text) : abnfUnescape ('\\' :: '\\' :: s) = '\\' :: abnfUnescape s := by
  rw [abnfUnescape_eq, abnfUnescape_eq, show '\\' :: '\\' :: s = ['\\', '\\'] ++ s from rfl,
    split_before (List.cons_ne_nil _ _), List.map_cons, stringJoin_cons]
  · rfl
  · exact fun h => split_ne_nil _ _ (List.map_eq_nil_iff.1 h)

theorem abnfUnescape_escape {x : Char} (h : x ≠ '\\') (s : Text) :
    abnfUnescape ('\\' :: x :: s) = x :: abnfUnescape s := by
  rw [abnfUnescape_eq, abnfUnescape_eq, split_cons_cons h, split_cons_ne h]
  obtain ⟨p, ps, hp⟩ := List.exists_cons_of_ne_nil (split_ne_nil ['\\', '\\'] s)
  rw [hp, List.modifyHead_cons, List.modifyHead_cons, List.map_cons, List.map_cons,
    List.filter_cons_of_neg (by simp), List.filter_cons_of_pos (by simpa using h)]
  exact List.intercalate_cons_cons_left

/-- An escaped text is read back. -/
theorem unescape_escaped (t : Text) : abnfUnescape (escaped t) = t := by
  induction t with
  | nil => rfl
  | cons c t ih =>
    unfold escaped at ih ⊢
    rw [List.flatMap_cons]
    by_cases hc : c = '\\'
    · subst hc
      rw [if_pos (by decide)]
      exact (abnfUnescape_pair _).trans (congrArg _ ih)
    · split
      · exact (abnfUnescape_escape hc _).trans (congrArg _ ih)
      · exact (abnfUnescape_cons hc _).trans (congrArg _ ih)

/-! ## The pieces of a pattern's body -/

/-- A character of a pattern's body, alone or after a backslash. -/
inductive PatternChar
  | plain (c : Char)
  | escape (c : Char)
  deriving DecidableEq

namespace PatternChar

def text : PatternChar → Text
  | plain c => [c]
  | escape c => ['\\', c]

def char : PatternChar → Char
  | plain c => c
  | escape c => c

/-- A backslash is never alone. -/
def Read : PatternChar → Prop
  | plain c => c ≠ '\\'
  | escape _ => True

end PatternChar

/-- A body is read as its atoms from the left, with a last backslash that escapes nothing. -/
theorem exists_atoms (body : Text) :
    ∃ (us : List PatternChar) (rest : Text), (∀ u ∈ us, PatternChar.Read u) ∧ (rest = [] ∨ rest = ['\\']) ∧
      body = us.flatMap PatternChar.text ++ rest := by
  induction h : body.length using Nat.strong_induction_on generalizing body with
  | _ n ih =>
    rcases body with _ | ⟨c, s⟩
    · exact ⟨[], [], by simp, .inl rfl, rfl⟩
    · rw [List.length_cons] at h
      by_cases hc : c = '\\'
      · subst hc
        rcases s with _ | ⟨x, s⟩
        · exact ⟨[], ['\\'], by simp, .inr rfl, rfl⟩
        · rw [List.length_cons] at h
          obtain ⟨us, rest, hus, hrest, rfl⟩ := ih s.length (by omega) s rfl
          exact ⟨.escape x :: us, rest, List.forall_mem_cons.2 ⟨trivial, hus⟩, hrest, rfl⟩
      · obtain ⟨us, rest, hus, hrest, rfl⟩ := ih s.length (by omega) s rfl
        exact ⟨.plain c :: us, rest, List.forall_mem_cons.2 ⟨hc, hus⟩, hrest, rfl⟩

/-- Taking one kind of escape out of a body takes those atoms out, where no pair of backslashes is left or
it is the kind taken. -/
theorem join_split_atoms {c : Char} {us : List PatternChar} {rest : Text} (hus : ∀ u ∈ us, PatternChar.Read u)
    (hrest : rest = [] ∨ rest = ['\\']) (hc : c = '\\' ∨ PatternChar.escape '\\' ∉ us) :
    stringJoin [] (split ['\\', c] (us.flatMap PatternChar.text ++ rest)) =
      (us.filter (· ≠ .escape c)).flatMap PatternChar.text ++ rest := by
  induction us with
  | nil =>
    rcases hrest with rfl | rfl
    · rfl
    · exact congrArg _ split_last
  | cons u us ih =>
    obtain ⟨hu, hus⟩ := List.forall_mem_cons.1 hus
    have ih := ih hus (hc.imp_right fun h hm => h (List.mem_cons_of_mem _ hm))
    rw [List.flatMap_cons, List.append_assoc]
    rcases u with x | x
    · change stringJoin [] (split ['\\', c] (x :: (us.flatMap PatternChar.text ++ rest))) = _
      rw [split_cons_ne hu, stringJoin_modifyHead _ _ (split_ne_nil _ _), ih, List.filter_cons_of_pos (by simp)]
      rfl
    · change stringJoin [] (split ['\\', c] ('\\' :: x :: (us.flatMap PatternChar.text ++ rest))) = _
      by_cases hx : x = c
      · subst hx
        rw [join_split_pair, ih, List.filter_cons_of_neg (by simp)]
      · have hb : x ≠ '\\' := by
          rintro rfl
          exact hc.elim (fun h => hx h.symm) fun h => h List.mem_cons_self
        have hne : ∀ {ps : List Text} {y : Char}, ps ≠ [] → ps.modifyHead (y :: ·) ≠ [] := by
          intro ps y hps hm
          exact hps (List.modifyHead_eq_nil_iff.1 hm)
        rw [split_cons_cons hx, split_cons_ne hb, stringJoin_modifyHead _ _ (hne (split_ne_nil _ _)),
          stringJoin_modifyHead _ _ (split_ne_nil _ _), ih, List.filter_cons_of_pos (by simpa using hx)]
        rfl

/-- The kinds of escape are taken out one after the other, and a body's other atoms are left. -/
theorem abnfStripEscapes_atoms (cs : Text) {us : List PatternChar} {rest : Text} (hus : ∀ u ∈ us, u.Read)
    (hrest : rest = [] ∨ rest = ['\\']) (hpair : PatternChar.escape '\\' ∉ us) :
    abnfStripEscapes (cs.map ([·])) (us.flatMap PatternChar.text ++ rest) =
      (us.filter fun u => cs.all fun c => decide (u ≠ .escape c)).flatMap PatternChar.text ++ rest := by
  induction cs with
  | nil => simp [abnfStripEscapes]
  | cons c cs ih =>
    have hstep : abnfStripEscapes ((c :: cs).map ([·])) (us.flatMap PatternChar.text ++ rest) =
        stringJoin [] (split ['\\', c] (abnfStripEscapes (cs.map ([·])) (us.flatMap PatternChar.text ++ rest))) := rfl
    rw [hstep, ih, join_split_atoms _ hrest]
    · rw [List.filter_filter]
      simp only [List.all_cons]
    · exact .inr fun h => hpair (List.mem_of_mem_filter h)
    · exact fun u hu => hus u (List.mem_of_mem_filter hu)

/-! ## Literals -/

theorem abnfMetaChars_eq : abnfMetaChars = metaChars.map ([·]) := rfl

theorem isEscaped_iff {c : Char} : isEscaped c = true ↔ c = '\\' ∨ c ∈ metaChars := by
  unfold isEscaped
  rw [Bool.or_eq_true, beq_iff_eq, List.any_eq_true]
  simp

/-- The atoms of an escaped text: a character is after a backslash where it is one to escape. -/
def PatternChar.Literal : PatternChar → Prop
  | plain c => isEscaped c = false
  | escape c => isEscaped c = true

/-- The atoms left when the escapes are taken out. -/
def PatternChar.left (u : PatternChar) : Bool :=
  decide (u ≠ .escape '\\') && metaChars.all fun c => decide (u ≠ .escape c)

theorem PatternChar.left_plain (c : Char) : (plain c).left = true := by simp [left]

theorem PatternChar.left_escape (c : Char) : (escape c).left = !isEscaped c := by
  rw [Bool.eq_iff_iff, Bool.not_eq_true', ← Bool.not_eq_true, isEscaped_iff, not_or]
  simp only [left, Bool.and_eq_true, decide_eq_true_eq, List.all_eq_true, ne_eq, escape.injEq]
  exact and_congr_right fun _ => ⟨fun h hc => h c hc rfl, fun h d hd hcd => h (hcd ▸ hd)⟩

section

variable {us : List PatternChar} {rest : Text}

/-- What is left of a body for `abnf-escaped-literal` to look at. -/
theorem left_of_body (hus : ∀ u ∈ us, u.Read) (hrest : rest = [] ∨ rest = ['\\']) :
    abnfStripEscapes abnfMetaChars (stringJoin [] (split ['\\', '\\'] (us.flatMap PatternChar.text ++ rest))) =
      (us.filter PatternChar.left).flatMap PatternChar.text ++ rest := by
  rw [join_split_atoms hus hrest (.inl rfl), abnfMetaChars_eq, abnfStripEscapes_atoms metaChars _ hrest]
  · rw [List.filter_filter]
    refine congrArg (· ++ rest) (congrArg _ (List.filter_congr fun u _ => ?_))
    rw [PatternChar.left, Bool.and_comm]
  · intro h
    simpa using List.of_mem_filter h
  · exact fun u hu => hus u (List.mem_of_mem_filter hu)

theorem abnfEscapedLiteral_eq (hus : ∀ u ∈ us, u.Read) (hrest : rest = [] ∨ rest = ['\\']) :
    abnfEscapedLiteral (us.flatMap PatternChar.text ++ rest) = true ↔
      ∀ c ∈ (us.filter PatternChar.left).flatMap PatternChar.text ++ rest, isEscaped c = false := by
  unfold abnfEscapedLiteral
  rw [left_of_body hus hrest]
  generalize (us.filter PatternChar.left).flatMap PatternChar.text ++ rest = left
  have hmeta : (abnfMetaChars.filter fun c => !(split c left).tail.isEmpty).isEmpty = true ↔
      ∀ c ∈ metaChars, c ∉ left := by
    rw [List.isEmpty_iff, List.filter_eq_nil_iff, abnfMetaChars_eq, List.forall_mem_map]
    simp only [tail_split_isEmpty, Bool.not_not, decide_eq_true_eq]
  rw [Bool.and_eq_true, hmeta, tail_split_isEmpty, Bool.not_eq_true', decide_eq_false_iff_not]
  simp only [← Bool.not_eq_true, isEscaped_iff, not_or]
  constructor
  · rintro ⟨hb, hm⟩ c hc
    exact ⟨fun h => hb (h ▸ hc), fun h => hm c h hc⟩
  · intro h
    exact ⟨fun hb => (h _ hb).1 rfl, fun c hm hc => (h c hc).2 hm⟩

/-- A body is taken for a literal where its atoms are those of an escaped text and no backslash ends it. -/
theorem abnfEscapedLiteral_atoms (hus : ∀ u ∈ us, u.Read) (hrest : rest = [] ∨ rest = ['\\']) :
    abnfEscapedLiteral (us.flatMap PatternChar.text ++ rest) = true ↔ (∀ u ∈ us, u.Literal) ∧ rest = [] := by
  rw [abnfEscapedLiteral_eq hus hrest]
  constructor
  · intro h
    constructor
    · intro u hu
      rcases u with c | c
      · refine h c (List.mem_append_left _ (List.mem_flatMap.2 ⟨.plain c, ?_, List.mem_singleton_self c⟩))
        exact List.mem_filter.2 ⟨hu, PatternChar.left_plain c⟩
      · -- an escape left would leave its backslash
        by_contra hc
        have hleft : (PatternChar.escape c).left = true := by
          rw [PatternChar.left_escape, Bool.eq_false_iff.2 hc]
          rfl
        have hb := h '\\' (List.mem_append_left _ (List.mem_flatMap.2
          ⟨.escape c, List.mem_filter.2 ⟨hu, hleft⟩, List.mem_cons_self⟩))
        exact absurd hb (by decide)
    · rcases hrest with hr | rfl
      · exact hr
      · have hb := h '\\' (List.mem_append_right _ List.mem_cons_self)
        exact absurd hb (by decide)
  · rintro ⟨hlit, rfl⟩ c hc
    rw [List.append_nil] at hc
    obtain ⟨u, hu, hcu⟩ := List.mem_flatMap.1 hc
    obtain ⟨hmem, hleft⟩ := List.mem_filter.1 hu
    rcases u with d | d
    · rw [List.mem_singleton.1 hcu]
      exact hlit _ hmem
    · rw [PatternChar.left_escape, hlit _ hmem] at hleft
      cases hleft

end

theorem escaped_atoms (t : Text) : ∃ us : List PatternChar,
    (∀ u ∈ us, u.Read ∧ u.Literal) ∧ escaped t = us.flatMap PatternChar.text := by
  induction t with
  | nil => exact ⟨[], by simp, rfl⟩
  | cons c t ih =>
    obtain ⟨us, hus, ht⟩ := ih
    have hcons : escaped (c :: t) = (if isEscaped c then ['\\', c] else [c]) ++ escaped t := rfl
    by_cases hc : isEscaped c = true
    · refine ⟨.escape c :: us, List.forall_mem_cons.2 ⟨⟨trivial, hc⟩, hus⟩, ?_⟩
      rw [hcons, if_pos hc, ht]
      rfl
    · refine ⟨.plain c :: us, List.forall_mem_cons.2 ⟨⟨?_, Bool.eq_false_iff.2 hc⟩, hus⟩, ?_⟩
      · rintro rfl
        exact hc (by decide)
      · rw [hcons, if_neg hc, ht]
        rfl

theorem escaped_of_atoms {us : List PatternChar} (h : ∀ u ∈ us, u.Literal) :
    us.flatMap PatternChar.text = escaped (us.map PatternChar.char) := by
  induction us with
  | nil => rfl
  | cons u us ih =>
    obtain ⟨hu, hus⟩ := List.forall_mem_cons.1 h
    rw [List.flatMap_cons, ih hus, List.map_cons]
    unfold escaped
    rw [List.flatMap_cons]
    rcases u with c | c
    · rw [show PatternChar.char (.plain c) = c from rfl, if_neg (Bool.eq_false_iff.1 hu)]
      rfl
    · have hc : isEscaped c = true := hu
      rw [show PatternChar.char (.escape c) = c from rfl, if_pos hc]
      rfl

/-- The bodies taken for a literal are the escaped texts. -/
theorem abnfEscapedLiteral_iff (body : Text) : abnfEscapedLiteral body = true ↔ ∃ t, body = escaped t := by
  constructor
  · intro h
    obtain ⟨us, rest, hus, hrest, rfl⟩ := exists_atoms body
    obtain ⟨hlit, rfl⟩ := (abnfEscapedLiteral_atoms hus hrest).1 h
    rw [List.append_nil]
    exact ⟨_, escaped_of_atoms hlit⟩
  · rintro ⟨t, rfl⟩
    obtain ⟨us, hus, ht⟩ := escaped_atoms t
    rw [ht, ← List.append_nil (us.flatMap _)]
    exact (abnfEscapedLiteral_atoms (fun u hu => (hus u hu).1) (.inl rfl)).2 ⟨fun u hu => (hus u hu).2, rfl⟩

/-! ## A match token -/

/-- A token's source cut at its slashes: what stands before its pattern, the pattern and the flags. -/
theorem source_eq {m : Text} (h : (split ['/'] m).tail.dropLast ≠ []) :
    m = (split ['/'] m).headD [] ++ '/' :: stringJoin ['/'] (split ['/'] m).tail.dropLast ++
      '/' :: (split ['/'] m).getLastD [] := by
  have hjoin := join_split (List.cons_ne_nil '/' []) m
  obtain ⟨p, ps, hp⟩ := List.exists_cons_of_ne_nil (split_ne_nil ['/'] m)
  rw [hp] at h hjoin ⊢
  obtain _ | ⟨q, qs⟩ := ps
  · exact absurd rfl h
  · obtain ⟨ms, l, hl⟩ : ∃ ms l, q :: qs = ms ++ [l] :=
      ⟨_, _, (List.dropLast_append_getLast (List.cons_ne_nil q qs)).symm⟩
    rw [hl] at h hjoin ⊢
    rw [List.tail_cons, List.dropLast_concat] at h
    rw [List.tail_cons, List.dropLast_concat, List.headD_cons, ← List.cons_append, List.getLastD_concat, ← hjoin,
      stringJoin_cons _ _ (List.append_ne_nil_of_right_ne_nil _ (List.cons_ne_nil _ _)),
      stringJoin_concat _ _ h]
    simp

/-- A token read as a literal has the literal's escaped text for its pattern. -/
theorem abnfMatchToken_lit {t m text : Text} {cs : Bool} (h : abnfMatchToken t m = .done (.lit text cs)) :
    cs = false ∧ ∃ pre, m = pre ++ ['/', '^'] ++ escaped text ++ ['/', 'i'] := by
  unfold abnfMatchToken at h
  dsimp only at h
  split_ifs at h with hcaret hclass hcls hflags hi hlit
  · cases h
  · cases h
    obtain ⟨u, hu⟩ := (abnfEscapedLiteral_iff _).1 hlit
    obtain ⟨body, hbody⟩ := (abnfStarts_iff (List.cons_ne_nil _ _)).1 hcaret
    have hne : (split ['/'] m).tail.dropLast ≠ [] := by
      intro hnil
      rw [hnil] at hbody
      cases hbody
    rw [← hbody, abnfAfter_append (List.cons_ne_nil _ _)] at hu
    subst hu
    refine ⟨rfl, (split ['/'] m).headD [], ?_⟩
    rw [← hbody, abnfAfter_append (List.cons_ne_nil _ _), unescape_escaped]
    have hm := source_eq hne
    rw [hi, ← hbody] at hm
    simpa using hm

/-- Escaping a text and taking the escapes off gives it back, and what is taken for a literal is an escaped
text, which the token then matches. -/
theorem literal_escapes :
    (∀ t, abnfUnescape (escaped t) = t) ∧ (∀ body, abnfEscapedLiteral body = true ↔ ∃ t, body = escaped t) ∧
      ∀ t m text cs, abnfMatchToken t m = .done (.lit text cs) →
        cs = false ∧ ∃ pre, m = pre ++ ['/', '^'] ++ escaped text ++ ['/', 'i'] :=
  ⟨unescape_escaped, abnfEscapedLiteral_iff, fun _ _ _ _ => abnfMatchToken_lit⟩

theorem literal_escapes_dot :
    abnfMatchToken "#X".toList "@~/^a\\.b/i".toList = .done (.lit "a.b".toList false) ∧
      ∃ pre, "@~/^a\\.b/i".toList = pre ++ ['/', '^'] ++ escaped "a.b".toList ++ ['/', 'i'] := by
  have hlit : abnfMatchToken "#X".toList "@~/^a\\.b/i".toList = .done (.lit "a.b".toList false) := by decide +kernel
  exact ⟨hlit, (literal_escapes.2.2 _ _ _ _ hlit).2⟩

end TabnasAbnf.Render
