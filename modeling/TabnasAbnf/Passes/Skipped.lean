/-
The comments a lexer skips, and those the annotation scan finds. With the options the converter sets a
source is a sequence of pieces: tokens (a string stands in any of the three default quote marks), runs
of space and line ends, and comments up to a line end of either kind. The scan knows double quotes,
angle brackets and line feeds alone; it finds the annotations among the skipped comments where every
token leaves it in content and every comment's line ends with it.
-/
import TabnasAbnf.Meta.Grammar
import TabnasAbnf.Meta.Lexer
import TabnasAbnf.Passes.Comments

namespace TabnasAbnf.Passes

open TabnasAbnf.Base TabnasAbnf.Meta

/-! ## The pieces of a source -/

inductive Piece
  | token (l : Lexeme) (text : Text)
  | space (text : Text)
  | comment (body : Text)
  deriving DecidableEq

def Piece.text : Piece → Text
  | .token _ text => text
  | .space text => text
  | .comment body => ';' :: body

/-- The source that pieces make up. -/
def textOf (ps : List Piece) : Text := ps.flatMap Piece.text

/-- The lexer reads the pieces' source as those pieces. -/
def Lexed : List Piece → Prop
  | [] => True
  | .token l text :: ps => Takes l text (textOf ps) ∧ Lexed ps
  | .space text :: ps => text ≠ [] ∧ text.all isGap = true ∧ Lexed ps
  | .comment body :: ps => body.all (!isLineEnd ·) = true ∧ (textOf ps).head?.all isLineEnd = true ∧ Lexed ps

/-- The comments among the pieces, untrimmed, each with the offset of its semicolon. -/
def skipped (E : Encoding) : Nat → List Piece → List (Nat × Text)
  | _, [] => []
  | i, .comment body :: ps => (i, body) :: skipped E (i + (E.encode (';' :: body)).length) ps
  | i, p :: ps => skipped E (i + (E.encode p.text).length) ps

/-- The tokens among the pieces, each with its offset and its length. -/
def placedTokens (E : Encoding) : Nat → List Piece → List (Lexeme × Nat × Nat)
  | _, [] => []
  | i, .token l text :: ps => (l, i, (E.encode text).length) :: placedTokens E (i + (E.encode text).length) ps
  | i, p :: ps => placedTokens E (i + (E.encode p.text).length) ps

/-- The front end accepts the source: the lexer reads it, and the tokens parse with the annotations the
scan finds. -/
structure Accepted (ps : List Piece) : Prop where
  lexed : Lexed ps
  parses : ∃ ts : List Tok, ts.map (fun t => (t.lex, t.sI, t.len)) = placedTokens utf16Encoding 0 ps ∧
    ∃ rules, Ts.parseAbnf (Ts.numericEngine 0)
      (passes ((annotationComments utf16Encoding.width (textOf ps)).filterMap claim?)) ts = .ok rules

/-- The scan finds exactly the comments starting with `@` among those the lexer skipped. -/
def ReadsSkipped (ps : List Piece) : Prop :=
  annotationComments utf16Encoding.width (textOf ps) = (skipped utf16Encoding 0 ps).filterMap (found trim)

/-! ## Where the scan stays in step -/

/-- A text the scan passes over from content to content, finding no annotation: quotes and angle
brackets close in it, and the comments in it end in it and are none. -/
inductive Clear : Text → Prop
  | nil : Clear []
  | plain {c cs} : c ≠ '"' → c ≠ '<' → c ≠ ';' → Clear cs → Clear (c :: cs)
  | quoted {mid cs} : '"' ∉ mid → Clear cs → Clear ('"' :: (mid ++ '"' :: cs))
  | prose {mid cs} : '>' ∉ mid → Clear cs → Clear ('<' :: (mid ++ '>' :: cs))
  | line {mid cs} : '\n' ∉ mid → (trim mid).head? ≠ some '@' → Clear cs → Clear (';' :: (mid ++ '\n' :: cs))

/-- What keeps the scan in step over a piece, `rest` being the source behind it: a string or a run of
other text is clear, and only blanks stand between a comment and the next line feed. -/
def Harmless (rest : Text) : Piece → Prop
  | .token l text => l.kind = .ST ∨ l.kind = .TX → Clear text
  | .space _ => True
  | .comment _ => (rest.takeWhile (· ≠ '\n')).all isSpace = true

/-- Every piece is harmless before the pieces behind it and some more. -/
def HarmlessBefore (qs ps : List Piece) : Prop :=
  ∀ pre p post, ps = pre ++ p :: post → Harmless (textOf (post ++ qs)) p

def AllHarmless (ps : List Piece) : Prop := HarmlessBefore [] ps

@[simp] theorem textOf_nil : textOf [] = [] := rfl

@[simp] theorem textOf_cons (p : Piece) (ps : List Piece) : textOf (p :: ps) = p.text ++ textOf ps := List.flatMap_cons

theorem skipped_cons (E : Encoding) (i : Nat) (p : Piece) (ps : List Piece) :
    skipped E i (p :: ps) = skipped E i [p] ++ skipped E (i + (E.encode p.text).length) ps := by
  cases p <;> rfl

theorem skipped_append (E : Encoding) (i : Nat) (ps qs : List Piece) :
    skipped E i (ps ++ qs) = skipped E i ps ++ skipped E (i + (E.encode (textOf ps)).length) qs := by
  induction ps generalizing i with
  | nil => rfl
  | cons p ps ih =>
    rw [List.cons_append, skipped_cons, ih, skipped_cons E i p ps, List.append_assoc, textOf_cons, E.encode_append,
      List.length_append, Nat.add_assoc]

/-! ## Blanks -/

/-- A character that opens nothing. -/
def isPlain (c : Char) : Bool := !(c ∈ ['"', '<', ';'])

theorem isPlain_iff {c : Char} : isPlain c = true ↔ c ≠ '"' ∧ c ≠ '<' ∧ c ≠ ';' := by
  simp [isPlain]

/-- What holds of no opening character holds of plain ones alone. -/
theorem isPlain_of {q : Char → Bool} (hq : q '"' = false ∧ q '<' = false ∧ q ';' = false) {c : Char} (h : q c = true) :
    isPlain c = true := by
  rw [isPlain_iff]
  refine ⟨?_, ?_, ?_⟩ <;>
  · rintro rfl
    simp_all

theorem isGap_isSpace {c : Char} (h : isGap c = true) : isSpace c = true := by
  simp only [isGap, isLineEnd, Bool.or_eq_true, decide_eq_true_eq, List.mem_cons, List.not_mem_nil, or_false] at h
  rcases h with (rfl | rfl) | (rfl | rfl) <;> decide

/-- Characters that open nothing are clear. -/
theorem Clear.of_plain {s : Text} (h : s.all isPlain = true) : Clear s := by
  induction s with
  | nil => exact .nil
  | cons c cs ih =>
    rw [List.all_cons, Bool.and_eq_true] at h
    obtain ⟨hquote, hangle, hsemi⟩ := isPlain_iff.1 h.1
    exact .plain hquote hangle hsemi (ih h.2)

theorem Clear.of_all {q : Char → Bool} (hq : q '"' = false ∧ q '<' = false ∧ q ';' = false) {s : Text}
    (h : s.all q = true) : Clear s :=
  .of_plain (List.all_eq_true.2 fun c hc => isPlain_of hq (List.all_eq_true.1 h c hc))

theorem Clear.append {s t : Text} (h : Clear s) (ht : Clear t) : Clear (s ++ t) := by
  induction h with
  | nil => exact ht
  | plain hquote hangle hsemi _ ih => exact .plain hquote hangle hsemi ih
  | quoted hmid _ ih =>
    rw [List.cons_append, List.append_assoc, List.cons_append]
    exact .quoted hmid ih
  | prose hmid _ ih =>
    rw [List.cons_append, List.append_assoc, List.cons_append]
    exact .prose hmid ih
  | line hmid hnone _ ih =>
    rw [List.cons_append, List.append_assoc, List.cons_append]
    exact .line hmid hnone ih

theorem Clear.of_blank {s : Text} (h : s.all isSpace = true) : Clear s := .of_all (by decide) h

theorem dropWhile_eq_nil_of_all {p : Char → Bool} {s : Text} (h : s.all p = true) : s.dropWhile p = [] := by
  rw [List.dropWhile_eq_nil_iff]
  exact List.all_eq_true.1 h

/-- Blanks at the end are trimmed off. -/
theorem trim_append_blank {line : Text} (h : line.all isSpace = true) (body : Text) :
    trim (body ++ line) = trim body := by
  unfold trim
  by_cases hb : body.dropWhile isSpace = []
  · rw [List.dropWhile_append, if_pos (by rw [hb]; rfl), hb, dropWhile_eq_nil_of_all h]
  · rw [List.dropWhile_append, if_neg (by simpa using hb), List.reverse_append, List.dropWhile_append, if_pos]
    rw [List.isEmpty_iff]
    exact dropWhile_eq_nil_of_all (by rwa [List.all_reverse])

/-- What is not blank at the end stays. -/
theorem trim_append_solid {body line : Text} (hb : trim body ≠ []) (hline : line.all isSpace ≠ true) :
    trim (body ++ line) = body.dropWhile isSpace ++ (line.reverse.dropWhile isSpace).reverse ∧
      (trim body).length < (trim (body ++ line)).length := by
  have hbody : body.dropWhile isSpace ≠ [] := fun heq => hb (by rw [trim, heq]; rfl)
  have hrev : line.reverse.dropWhile isSpace ≠ [] := by
    rw [Ne, List.dropWhile_eq_nil_iff]
    intro hall
    exact hline (List.all_eq_true.2 fun c hc => hall c (List.mem_reverse.2 hc))
  have hlong : trim (body ++ line) = body.dropWhile isSpace ++ (line.reverse.dropWhile isSpace).reverse := by
    rw [trim, List.dropWhile_append, if_neg (by simpa using hbody), List.reverse_append, List.dropWhile_append,
      if_neg (by simpa using hrev), List.reverse_append, List.reverse_reverse]
  have hle : (trim body).length ≤ (body.dropWhile isSpace).length := by
    rw [trim, List.length_reverse]
    exact (List.dropWhile_sublist _).length_le.trans_eq (List.length_reverse ..)
  have hpos := List.length_pos_iff.2 hrev
  refine ⟨hlong, ?_⟩
  rw [hlong, List.length_append, List.length_reverse]
  omega

/-- What a trimmed text begins with, the text begins with behind its blanks. -/
theorem head?_dropWhile_of_trim {body : Text} {c : Char} (h : (trim body).head? = some c) :
    (body.dropWhile isSpace).head? = some c := by
  have hpre : trim body <+: body.dropWhile isSpace := by
    have hsuf := List.dropWhile_suffix isSpace (l := (body.dropWhile isSpace).reverse)
    rwa [← List.reverse_prefix, List.reverse_reverse] at hsuf
  obtain ⟨more, hmore⟩ := hpre
  rw [← hmore, List.head?_append, h, Option.some_or]

/-! ## The scan over clear text -/

section

variable (E : Encoding)

/-- The annotations a scan from content on finds. -/
def annotationsFrom (i : Nat) (src : Text) : List Comment := (rawComments E.width .content i src).filterMap (found trim)

/-- Nothing is found in a clear text, and behind it the scan is in content. -/
theorem Clear.annotationsFrom {s : Text} (h : Clear s) (i : Nat) (rest : Text) :
    annotationsFrom E i (s ++ rest) = annotationsFrom E (i + (E.encode s).length) rest := by
  induction h generalizing i with
  | nil => rfl
  | @plain c cs hquote hangle hsemi _ ih =>
    rw [List.cons_append, Passes.annotationsFrom, rawComments, if_neg hquote, if_neg hangle, if_neg hsemi,
      E.length_encode_cons, ← Nat.add_assoc]
    exact ih _
  | @quoted mid cs hmid _ ih =>
    rw [List.cons_append, List.append_assoc, List.cons_append, Passes.annotationsFrom, rawComments,
      if_pos rfl, rawComments_quoted E hmid]
    refine (ih _).trans ?_
    simp only [E.encode_append, E.length_encode_cons, List.length_append, Nat.add_assoc]
  | @prose mid cs hmid _ ih =>
    rw [List.cons_append, List.append_assoc, List.cons_append, Passes.annotationsFrom, rawComments,
      if_neg (by decide), if_pos rfl, rawComments_quoted E hmid]
    refine (ih _).trans ?_
    simp only [E.encode_append, E.length_encode_cons, List.length_append, Nat.add_assoc]
  | @line mid cs hmid hnone _ ih =>
    rw [List.cons_append, List.append_assoc, List.cons_append, Passes.annotationsFrom, rawComments,
      if_neg (by decide), if_neg (by decide), if_pos rfl, rawComments_line E hmid, List.nil_append,
      List.filterMap_cons_none (found_none hnone)]
    refine (ih _).trans ?_
    simp only [E.encode_append, E.length_encode_cons, List.length_append, Nat.add_assoc]

/-- A comment is found with what stands before the next line feed. -/
theorem annotationsFrom_comment {body : Text} (hbody : '\n' ∉ body) (i : Nat) (rest : Text) :
    annotationsFrom E i (';' :: (body ++ rest)) =
      (found trim (i, body ++ rest.takeWhile (· ≠ '\n'))).toList ++
        annotationsFrom E (i + (E.encode (';' :: (body ++ rest.takeWhile (· ≠ '\n')))).length)
          (rest.dropWhile (· ≠ '\n')) := by
  have hline : '\n' ∉ body ++ rest.takeWhile (· ≠ '\n') := by
    rw [List.mem_append, not_or]
    exact ⟨hbody, fun hm => by simpa using List.mem_takeWhile_imp hm⟩
  have hsplit : body ++ rest = (body ++ rest.takeWhile (· ≠ '\n')) ++ rest.dropWhile (· ≠ '\n') := by
    rw [List.append_assoc, List.takeWhile_append_dropWhile]
  have hstop := List.head?_dropWhile_not (fun c : Char => decide (c ≠ '\n')) rest
  rw [hsplit]
  generalize body ++ rest.takeWhile (· ≠ '\n') = line at hline ⊢
  generalize rest.dropWhile (· ≠ '\n') = rest' at hstop ⊢
  rw [annotationsFrom, rawComments, if_neg (by decide), if_neg (by decide), if_pos rfl, E.length_encode_cons]
  rcases rest' with _ | ⟨c, rest'⟩
  · rw [List.append_nil, rawComments_last E hline, List.nil_append, List.filterMap_cons, List.filterMap_nil]
    cases found trim (i, line) <;> rfl
  · obtain rfl : c = '\n' := by simpa using hstop
    rw [rawComments_line E hline, List.nil_append, List.filterMap_cons, annotationsFrom, rawComments,
      if_neg (by decide),
      if_neg (by decide), if_neg (by decide)]
    simp only [Nat.add_assoc]
    cases found trim (i, line) <;> rfl

/-- Only a clear text leaves an annotation right behind it to be found. -/
theorem clear_of_annotationsFrom {s : Text} {i : Nat}
    (h : annotationsFrom E i (s ++ [';', '@']) = [⟨i + (E.encode s).length, ['@']⟩]) : Clear s := by
  induction hn : s.length using Nat.strongRecOn generalizing s i with
  | ind n ih =>
    subst hn
    rcases s with _ | ⟨c, cs⟩
    · exact .nil
    have hw := E.width_pos c
    rw [E.length_encode_cons] at h
    -- the first character opens a string, opens a comment, or stands for itself
    by_cases hquote : c = '"' ∨ c = '<'
    · generalize hclose : (if c = '<' then '>' else '"') = close
      have hclose' : close = '>' ∨ close = '"' := by rw [← hclose]; split <;> simp
      rw [annotationsFrom, List.cons_append, rawComments_open E hquote hclose.symm] at h
      by_cases hm : close ∈ cs
      · obtain ⟨mid, rest, rfl, hmid⟩ := List.eq_append_cons_of_mem hm
        have hrest : Clear rest := by
          rw [List.append_assoc, List.cons_append, rawComments_quoted E hmid] at h
          refine ih rest.length (by simp; omega) (h.trans ?_) rfl
          simp only [E.encode_append, E.length_encode_cons, List.length_append, Nat.add_assoc]
        rcases hquote with rfl | rfl
        · rw [if_neg (by decide)] at hclose
          exact hclose ▸ .quoted (hclose ▸ hmid) hrest
        · rw [if_pos rfl] at hclose
          exact hclose ▸ .prose (hclose ▸ hmid) hrest
      · -- the mark does not close, and the annotation is missed
        have hnot : close ∉ cs ++ [';', '@'] := by rcases hclose' with rfl | rfl <;> simpa using hm
        rw [rawComments_unclosed E hnot] at h
        cases h
    · rw [not_or] at hquote
      by_cases hsemi : c = ';'
      · -- what the scan finds from here on starts here, and not behind the text
        subst hsemi
        rw [annotationsFrom, List.cons_append, rawComments, if_neg (by decide), if_neg (by decide), if_pos rfl] at h
        by_cases hm : '\n' ∈ cs
        · obtain ⟨mid, rest, rfl, hmid⟩ := List.eq_append_cons_of_mem hm
          rw [List.append_assoc, List.cons_append, rawComments_line E hmid, List.nil_append] at h
          by_cases hat : (trim mid).head? = some '@'
          · rw [List.filterMap_cons_some (found_at hat), List.cons.injEq, Comment.mk.injEq] at h
            omega
          · rw [List.filterMap_cons_none (found_none hat)] at h
            refine .line hmid hat (ih rest.length (by simp; omega) (h.trans ?_) rfl)
            simp only [E.encode_append, E.length_encode_cons, List.length_append, Nat.add_assoc]
        · rw [rawComments_last E (by simpa using hm), List.nil_append] at h
          by_cases hat : (trim (cs ++ [';', '@'])).head? = some '@'
          · rw [List.filterMap_cons_some (found_at hat), List.cons.injEq, Comment.mk.injEq] at h
            omega
          · rw [List.filterMap_cons_none (found_none hat)] at h
            cases h
      · rw [annotationsFrom, List.cons_append, rawComments, if_neg hquote.1, if_neg hquote.2, if_neg hsemi] at h
        have hcs : annotationsFrom E (i + E.width c) (cs ++ [';', '@']) =
          [⟨i + E.width c + (E.encode cs).length, ['@']⟩] :=
          h.trans (by rw [Nat.add_assoc])
        exact .plain hquote.1 hquote.2 hsemi (ih cs.length (by simp) hcs rfl)

end

/-! ## The pieces in step -/

theorem fixed_clear {l : Lexeme} {text : Text} (h : l.fixed = some text) : Clear text := by
  apply Clear.of_plain
  cases l <;> simp only [Lexeme.fixed, reduceCtorEq, Option.some.injEq] at h <;> subst h <;> rfl

/-- A numeric value opens no quote. -/
theorem numericSource_clear {src : Text} (h : isNumericSource src = true) : Clear src := by
  unfold isNumericSource at h
  split at h
  · rename_i base body
    obtain ⟨hbase, hparts⟩ := Bool.and_eq_true_iff.1 h
    rw [List.all_eq_true] at hparts
    refine .of_plain (List.all_eq_true.2 fun c hc => ?_)
    rcases List.mem_cons.1 hc with rfl | hc
    · rfl
    rcases List.mem_cons.1 hc with rfl | hc
    · simp only [decide_eq_true_eq, List.mem_cons, List.not_mem_nil, or_false] at hbase
      rcases hbase with rfl | rfl | rfl | rfl | rfl | rfl <;> rfl
    · by_cases hsep : (c == '-' || c == '.') = true
      · simp only [Bool.or_eq_true, beq_iff_eq] at hsep
        rcases hsep with rfl | rfl <;> rfl
      · obtain ⟨piece, hpiece, hm⟩ := mem_splitOnP (p := fun c => c == '-' || c == '.') (Bool.eq_false_iff.2 hsep) hc
        exact isPlain_of (by decide) (List.all_eq_true.1 (Bool.and_eq_true_iff.1 (hparts piece hpiece)).2 c hm)
  · cases h

/-- Only a string or a run of other text can leave the scan out of step. -/
theorem takes_clear {l : Lexeme} {text rest : Text} (h : Takes l text rest) (hst : l.kind ≠ .ST) (htx : l.kind ≠ .TX) :
    Clear text := by
  cases h with
  | fixed hf _ => exact fixed_clear hf
  | @NUM n _ => exact .of_all (by decide) n.2.2
  | @NV n _ => exact numericSource_clear n.2
  | SS hc | SI hc =>
    apply Clear.of_plain
    rcases hc with rfl | rfl <;> rfl
  | PV hbody =>
    refine .prose (fun hm => ?_) .nil
    exact absurd (List.all_eq_true.1 hbody _ hm) (by decide)
  | ST _ _ _ => exact absurd rfl hst
  | TX _ _ _ => exact absurd rfl htx

/-- A comment's body holds no line feed. -/
theorem Lexed.lineFeed_notMem {body : Text} {ps : List Piece} (h : Lexed (.comment body :: ps)) : '\n' ∉ body := by
  intro hm
  have hend := List.all_eq_true.1 h.1 _ hm
  exact absurd hend (by decide)

theorem Lexed.tail {p : Piece} {ps : List Piece} (h : Lexed (p :: ps)) : Lexed ps := by
  cases p with
  | token l text => exact h.2
  | space text => exact h.2.2
  | comment body => exact h.2.2

theorem Lexed.right {ps qs : List Piece} (h : Lexed (ps ++ qs)) : Lexed qs := by
  induction ps with
  | nil => exact h
  | cons p ps ih => exact ih (Lexed.tail h)

section

variable (E : Encoding)

/-- Over a harmless piece the scan finds what the lexer skips, and goes on behind it. -/
theorem Harmless.step {p : Piece} {ps : List Piece} (hl : Lexed (p :: ps)) (h : Harmless (textOf ps) p) (i : Nat) :
    annotationsFrom E i (textOf (p :: ps)) =
      (skipped E i [p]).filterMap (found trim) ++ annotationsFrom E (i + (E.encode p.text).length) (textOf ps) := by
  rw [textOf_cons]
  cases p with
  | token l text =>
    have hclear : Clear text := by
      by_cases hk : l.kind = .ST ∨ l.kind = .TX
      · exact h hk
      · rw [not_or] at hk
        exact takes_clear hl.1 hk.1 hk.2
    exact hclear.annotationsFrom E i _
  | space text =>
    refine Clear.annotationsFrom E (.of_blank ?_) i _
    exact List.all_eq_true.2 fun c hc => isGap_isSpace (List.all_eq_true.1 hl.2.1 c hc)
  | comment body =>
    -- the line of a comment is its body and the blanks before the line feed
    have hblank : ((textOf ps).takeWhile (· ≠ '\n')).all isSpace = true := h
    have hcomment := annotationsFrom_comment E (Lexed.lineFeed_notMem hl) i (textOf ps)
    have hfound : found trim (i, body ++ (textOf ps).takeWhile (· ≠ '\n')) = found trim (i, body) := by
      unfold found
      rw [trim_append_blank hblank]
    have hback := (Clear.of_blank hblank).annotationsFrom E (i + (E.encode (';' :: body)).length)
      ((textOf ps).dropWhile (· ≠ '\n'))
    rw [List.takeWhile_append_dropWhile] at hback
    rw [Piece.text, List.cons_append, hcomment, hfound, hback, skipped, skipped, List.filterMap_cons,
      List.filterMap_nil,
      ← List.cons_append, E.encode_append, List.length_append, ← Nat.add_assoc]
    cases found trim (i, body) <;> rfl

theorem HarmlessBefore.nil (qs : List Piece) : HarmlessBefore qs [] :=
  fun pre p post heq => absurd heq (by simp)

theorem HarmlessBefore.cons {p : Piece} {ps qs : List Piece} (hp : Harmless (textOf (ps ++ qs)) p)
    (h : HarmlessBefore qs ps) : HarmlessBefore qs (p :: ps) := by
  rintro (_ | ⟨q, pre⟩) r post heq
  · obtain ⟨rfl, rfl⟩ := List.cons.inj heq
    exact hp
  · exact h pre r post (List.cons.inj heq).2

theorem HarmlessBefore.tail {p : Piece} {ps qs : List Piece} (h : HarmlessBefore qs (p :: ps)) : HarmlessBefore qs ps :=
  fun pre q post heq => h (p :: pre) q post (by rw [heq, List.cons_append])

/-- Over harmless pieces the scan finds what the lexer skips. -/
theorem HarmlessBefore.run {ps qs : List Piece} (h : HarmlessBefore qs ps) (hl : Lexed (ps ++ qs)) (i : Nat) :
    annotationsFrom E i (textOf (ps ++ qs)) =
      (skipped E i ps).filterMap (found trim) ++ annotationsFrom E (i + (E.encode (textOf ps)).length) (textOf qs) := by
  induction ps generalizing i with
  | nil => rfl
  | cons p ps ih =>
    have hl' : Lexed (p :: (ps ++ qs)) := hl
    have hstep := (h [] p ps rfl).step E hl' i
    have hrun := ih h.tail hl'.tail (i + (E.encode p.text).length)
    rw [List.cons_append, hstep, hrun, skipped_cons E i p ps, List.filterMap_append, List.append_assoc, textOf_cons,
      E.encode_append, List.length_append, Nat.add_assoc]

end

theorem annotationComments_eq (src : Text) :
    annotationComments utf16Encoding.width src = annotationsFrom utf16Encoding 0 src := by
  rw [← annotationComments_units, scanFrom_eq, annotationsFrom]

/-- Harmless pieces are read right. -/
theorem AllHarmless.readsSkipped {ps : List Piece} (h : AllHarmless ps) (hl : Lexed ps) : ReadsSkipped ps := by
  have hrun := h.run utf16Encoding (by rwa [List.append_nil]) 0
  rw [List.append_nil] at hrun
  rw [ReadsSkipped, annotationComments_eq, hrun, textOf_nil]
  exact List.append_nil _

/-- Of an annotation and a line that goes on after it, the scan takes more. -/
theorem harmless_of_readsSkipped {ps qs : List Piece} {body : Text} (hl : Lexed (ps ++ .comment body :: qs))
    (h : HarmlessBefore (.comment body :: qs) ps) (hat : (trim body).head? = some '@')
    (hread : ReadsSkipped (ps ++ .comment body :: qs)) : Harmless (textOf qs) (.comment body) := by
  by_contra hline
  have hne : trim body ≠ [] := fun heq => by rw [heq] at hat; cases hat
  obtain ⟨hlong, hlt⟩ := trim_append_solid hne hline
  have hat' : (trim (body ++ (textOf qs).takeWhile (· ≠ '\n'))).head? = some '@' := by
    rw [hlong, List.head?_append, head?_dropWhile_of_trim hat, Option.some_or]
  -- both lists go on behind the same annotations with the one at this place
  have hrun := h.run utf16Encoding hl 0
  rw [textOf_cons, Piece.text, List.cons_append, annotationsFrom_comment utf16Encoding (hl.right).lineFeed_notMem,
    found_at hat'] at hrun
  rw [ReadsSkipped, annotationComments_eq, hrun, skipped_append, List.filterMap_append, List.append_cancel_left_eq,
    skipped, List.filterMap_cons_some (found_at hat), Option.toList_some, List.singleton_append, List.cons.injEq,
    Comment.mk.injEq] at hread
  rw [hread.1.2] at hlt
  exact absurd hlt (Nat.lt_irrefl _)

/-- Behind harmless pieces, an annotation right behind a token is read where the token is harmless, and
nowhere else. -/
theorem readsSkipped_token_iff {ps : List Piece} {l : Lexeme} {text : Text}
    (hl : Lexed (ps ++ [.token l text, .comment ['@']])) (h : HarmlessBefore [.token l text, .comment ['@']] ps) :
    ReadsSkipped (ps ++ [.token l text, .comment ['@']]) ↔ Harmless [';', '@'] (.token l text) := by
  have hright : Lexed [.token l text, .comment ['@']] := hl.right
  have hrun := h.run utf16Encoding hl 0
  rw [ReadsSkipped, annotationComments_eq, hrun, skipped_append, List.filterMap_append, List.append_cancel_left_eq]
  generalize 0 + (utf16Encoding.encode (textOf ps)).length = i
  have htext : textOf [.token l text, .comment ['@']] = text ++ [';', '@'] := by simp [Piece.text]
  have hskipped : (skipped utf16Encoding i [.token l text, .comment ['@']]).filterMap (found trim) =
      [⟨i + (utf16Encoding.encode text).length, ['@']⟩] := rfl
  rw [htext, hskipped]
  constructor
  · exact fun heq _ => clear_of_annotationsFrom utf16Encoding heq
  · intro hharmless
    have hclear : Clear text := by
      by_cases hk : l.kind = .ST ∨ l.kind = .TX
      · exact hharmless hk
      · rw [not_or] at hk
        exact takes_clear hright.1 hk.1 hk.2
    rw [hclear.annotationsFrom]
    rfl

/-- What the lexer skips is read right where every piece is harmless. The first piece that is not
harmless is read wrong if it is an annotation, and as soon as an annotation stands right behind it if
it is a token. -/
theorem readsSkipped_of_harmless {ps : List Piece} (hl : Lexed ps) :
    (AllHarmless ps → ReadsSkipped ps) ∧
    (∀ pre l text, ps = pre ++ [.token l text, .comment ['@']] → HarmlessBefore [.token l text, .comment ['@']] pre →
      (ReadsSkipped ps ↔ Harmless [';', '@'] (.token l text))) ∧
    ∀ pre body post, ps = pre ++ .comment body :: post → HarmlessBefore (.comment body :: post) pre →
      (trim body).head? = some '@' → ReadsSkipped ps → Harmless (textOf post) (.comment body) := by
  refine ⟨fun h => h.readsSkipped hl, ?_, ?_⟩
  · rintro pre l text rfl h
    exact readsSkipped_token_iff hl h
  · rintro pre body post rfl h hat hread
    exact harmless_of_readsSkipped hl h hat hread

/-- `a="<";@`. -/
theorem readsSkipped_of_harmless_angle :
    ReadsSkipped [.token (.TX ['a']) ['a'], .token .DEF ['='], .token (.ST ['<']) ['"', '<', '"'], .comment ['@']] := by
  have hclear : Clear ['"', '<', '"'] := @Clear.quoted ['<'] [] (by decide) .nil
  have htakes : Takes (.ST ['<']) ['"', '<', '"'] [';', '@'] := @Takes.ST '"' ['<'] _ _ (by decide) rfl fun _ => rfl
  refine (readsSkipped_of_harmless ?_).1 ?_
  · exact ⟨.TX (by decide) rfl rfl, .fixed rfl fun _ => by decide, htakes, rfl, rfl, trivial⟩
  · refine .cons (fun _ => ?_) (.cons (fun hk => ?_) (.cons (fun _ => hclear) (.cons rfl (.nil _))))
    · exact .of_plain rfl
    · rcases hk with hk | hk <;> cases hk

/-- `a=';@'`: the front end accepts it, and the scan finds a comment `@'` in the string. -/
theorem not_readsSkipped_single :
    Accepted [.token (.TX ['a']) ['a'], .token .DEF ['='], .token (.ST [';', '@']) ['\'', ';', '@', '\'']] ∧
      ¬ ReadsSkipped [.token (.TX ['a']) ['a'], .token .DEF ['='], .token (.ST [';', '@']) ['\'', ';', '@', '\'']] := by
  have hstring : Takes (.ST [';', '@']) ['\'', ';', '@', '\''] [] :=
    @Takes.ST '\'' [';', '@'] _ _ (by decide) rfl fun _ => rfl
  constructor
  · refine ⟨⟨.TX (by decide) rfl rfl, .fixed rfl fun _ => by decide, hstring, trivial⟩,
      [⟨.TX ['a'], 0, 1, 1, 1⟩, ⟨.DEF, 1, 1, 1, 2⟩, ⟨.ST [';', '@'], 2, 4, 1, 3⟩], rfl, ?_⟩
    exact ⟨_, (Ts.parseAbnf_eq Ts.numericOf_refused Ts.numericOf_readable
      (Engine.Grammar.engine_implements _ _ _ _) _ _).trans rfl⟩
  · unfold ReadsSkipped
    decide

end TabnasAbnf.Passes
