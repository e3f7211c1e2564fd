/-
Value annotations in the Rust and the Go port. Each port reads a comment's claim with a regular
expression of its own and splits its members at characters of its own; what it does with the claims
is what TypeScript does. Offsets count bytes in these ports and UTF-16 units in TypeScript, and the
pass only compares them, so productions and comments are in the same order whatever they count.
-/
import TabnasAbnf.Passes.Comments

namespace TabnasAbnf.Passes

open TabnasAbnf.Base TabnasAbnf.Meta

/-! ## Reading a claim -/

/-- `@(object|array)`: the kind, and what follows it. -/
def keyword? (body : Text) : Option (ClaimKind × Text) :=
  match after ['@', 'o', 'b', 'j', 'e', 'c', 't'] body with
  | some rest => some (.object, rest)
  | none => (after ['@', 'a', 'r', 'r', 'a', 'y'] body).map (.array, ·)

/-- `\s*(.*)$`, by what `\s` and `.` match: the longest run of spaces first, and a shorter one where
the text after it does not match. -/
def spacesThenLine (space dot : Char → Bool) (rest : Text) : Option Text :=
  (List.range ((rest.takeWhile space).length + 1)).reverse.findSome? fun k =>
    if (rest.drop k).all dot then some (rest.drop k) else none

/-- `^@(object|array)\b\s*(.*)$`: its two groups. -/
def captures (space dot : Char → Bool) (body : Text) : Option (ClaimKind × Text) :=
  match keyword? body with
  | some (kind, rest) => if rest.head?.any isWord then none else (spacesThenLine space dot rest).map (kind, ·)
  | none => none

/-- The words between separators. -/
def wordsBetween (sep : Char → Bool) (s : Text) : List Text := (s.splitOnP sep).filter (· ≠ [])

/-- What a comment claims, by the groups and the separators. -/
def claimBy (space dot sep : Char → Bool) (c : Comment) : Option Claim :=
  (captures space dot c.body).map fun m => ⟨c.start, c.body, m.1, wordsBetween sep m.2⟩

/-- One comment, by how the port reads a claim. -/
def attachCommentBy {S : Type} (claim : Comment → Option Claim) (ordered : List (Nat × Nat))
    (st : List (Production S) × Nat) (c : Comment) : Except AnnotationError (List (Production S) × Nat) :=
  match claim c with
  | none => .ok st
  | some claim => attachOne ordered st claim

/-- The pass over comments, by how the port reads a claim. -/
def attachBy {S : Type} (claim : Comment → Option Claim) (comments : List Comment) (prods : List (Production S)) :
    Except AnnotationError (List (Production S)) :=
  if placed prods = [] then .ok prods
  else (comments.foldlM (attachCommentBy claim (placed prods)) (prods, 0)).map (·.1)

namespace Rust

/-- `JS_WHITESPACE_CLASS`. -/
def JS_WHITESPACE_CLASS (c : Char) : Bool :=
  c ∈ ['\t', '\n', '\x0b', '\x0c', '\r', ' ', '\u00a0', '\u1680'] || ('\u2000' ≤ c && c ≤ '\u200a') ||
    c ∈ ['\u2028', '\u2029', '\u202f', '\u205f', '\u3000', '\ufeff']

/-- `JS_DOT_CLASS`. -/
def JS_DOT_CLASS (c : Char) : Bool := !(c ∈ ['\n', '\r', '\u2028', '\u2029'])

def claim (c : Comment) : Option Claim :=
  claimBy JS_WHITESPACE_CLASS JS_DOT_CLASS (fun c => ',' == c || is_js_whitespace c) c

def attach_value_annotations {S : Type} (src : Text) (prods : List (Production S)) :
    Except AnnotationError (List (Production S)) :=
  attachBy claim (annotation_comments src) prods

end Rust

namespace Go

/-- `\s` of Go's regular expressions. -/
def reSpace (c : Char) : Bool := c ∈ ['\t', '\n', '\x0c', '\r', ' ']

/-- `.` of Go's regular expressions. -/
def reDot (c : Char) : Bool := c ≠ '\n'

def claim (c : Comment) : Option Claim := claimBy reSpace reDot (fun c => c == ' ' || c == '\t' || c == ',') c

def attachValueAnnotations {S : Type} (src : Text) (prods : List (Production S)) :
    Except AnnotationError (List (Production S)) :=
  attachBy claim (annotationComments src) prods

end Go

/-- A shorter run of spaces leaves what a longer one does and more, so it is never the one. -/
theorem spacesThenLine_eq (space dot : Char → Bool) (rest : Text) :
    spacesThenLine space dot rest =
      if (rest.dropWhile space).all dot then some (rest.dropWhile space) else none := by
  have hdrop : rest.drop (rest.takeWhile space).length = rest.dropWhile space := by
    calc rest.drop (rest.takeWhile space).length
        = (rest.takeWhile space ++ rest.dropWhile space).drop (rest.takeWhile space).length := by
          rw [List.takeWhile_append_dropWhile]
      _ = rest.dropWhile space := List.drop_left
  unfold spacesThenLine
  rw [List.range_succ, List.reverse_append, List.reverse_singleton, List.singleton_append, List.findSome?_cons, hdrop]
  by_cases h : (rest.dropWhile space).all dot
  · rw [if_pos h]
  · rw [if_neg h]
    refine List.findSome?_eq_none_iff.2 fun k hk => if_neg fun hall => h ?_
    rw [List.mem_reverse, List.mem_range] at hk
    rw [← hdrop, List.all_eq_true]
    intro c hc
    rw [show (rest.takeWhile space).length = k + ((rest.takeWhile space).length - k) by omega, ← List.drop_drop] at hc
    exact List.all_eq_true.1 hall c (List.mem_of_mem_drop hc)

/-- TypeScript's claim, as the same reading with `\s` and `.` of JavaScript. -/
theorem claim?_eq (c : Comment) :
    claim? c = claimBy isSpace (fun c => !isLineTerminator c) (fun c => isSpace c || c == ',') c := by
  have htail : ∀ (kind : ClaimKind) (rest : Text),
      (claimTail rest).map (⟨c.start, c.body, kind, ·⟩) =
        (if rest.head?.any isWord then none
          else (spacesThenLine isSpace (fun c => !isLineTerminator c) rest).map (kind, ·)).map
            fun m => (⟨c.start, c.body, m.1, wordsBetween (fun c => isSpace c || c == ',') m.2⟩ : Claim) := by
    intro kind rest
    unfold claimTail
    rw [spacesThenLine_eq]
    by_cases hw : rest.head?.any isWord
    · rw [if_pos hw, if_pos hw]
      rfl
    · rw [if_neg hw, if_neg hw]
      simp only
      rw [List.all_eq_not_any_not]
      simp only [Bool.not_not]
      cases (rest.dropWhile isSpace).any isLineTerminator <;> rfl
  unfold claim? claimBy captures keyword?
  cases after ['@', 'o', 'b', 'j', 'e', 'c', 't'] c.body with
  | some rest => exact htail .object rest
  | none =>
    cases after ['@', 'a', 'r', 'r', 'a', 'y'] c.body with
    | some rest => exact htail .array rest
    | none => rfl

theorem attachComments_eq_by {S : Type} (comments : List Comment) (prods : List (Production S)) :
    attachComments comments prods = attachBy claim? comments prods := rfl

/-! ## Offsets -/

/-- A comment by another count of places. -/
def Comment.place (f : Nat → Nat) (c : Comment) : Comment := { c with start := f c.start }

def Claim.place (f : Nat → Nat) (c : Claim) : Claim := { c with start := f c.start }

def Production.place {S : Type} (f : Nat → Nat) (p : Production S) : Production S :=
  { p with sp := p.sp.map fun sp => { sp with s := f sp.s, e := f sp.e } }

/-- A count of places that keeps their order, and the first of them. -/
structure Count (f : Nat → Nat) : Prop where
  mono : StrictMono f
  zero : f 0 = 0

theorem Count.offset (E : Encoding) (t : Text) : Count (E.offset t) :=
  ⟨E.offset_strictMono t, by rw [Encoding.offset, List.take_zero, E.encode_nil, List.length_nil, Nat.zero_sub]⟩

section

variable {S : Type} {f : Nat → Nat} (hf : Count f) (prods : List (Production S))

include hf

theorem start_place (i : Nat) :
    ((prods.map (Production.place f))[i]?.map (·.start)).getD 0 = f ((prods[i]?.map (·.start)).getD 0) := by
  rw [List.getElem?_map]
  cases prods[i]? with
  | none => exact hf.zero.symm
  | some p =>
    cases hsp : p.sp with
    | none => simp [Production.start, Production.place, hsp, hf.zero]
    | some sp => simp [Production.start, Production.place, hsp]

theorem placed_place : placed (prods.map (Production.place f)) = (placed prods).map fun q => (q.1, f q.2) := by
  have hsp : ∀ i : Nat, ((prods.map (Production.place f))[i]?.bind (·.sp)).isSome = (prods[i]?.bind (·.sp)).isSome := by
    intro i
    rw [List.getElem?_map]
    cases prods[i]? with
    | none => rfl
    | some p => exact Option.isSome_map
  unfold placed orderedBy
  simp only [hsp, List.length_map, start_place hf, hf.mono.le_iff_le, List.map_map]
  rfl

omit hf in
theorem annotate_place (i : Nat) (c : Claim) :
    annotate (prods.map (Production.place f)) i (c.place f) =
      (annotate prods i c).map (List.map (Production.place f)) := by
  unfold annotate
  rw [List.getElem?_map]
  cases prods[i]? with
  | none => rfl
  | some p =>
    simp only [Option.map_some, show (p.place f).name = p.name from rfl, show (p.place f).value = p.value from rfl,
      show (c.place f).memberError p.name = c.memberError p.name from rfl]
    cases c.memberError p.name with
    | some e => rfl
    | none =>
      cases p.value with
      | some v => rfl
      | none => simp [Except.map, List.map_set, Production.place, show (c.place f).valued = c.valued from rfl]

/-- One claim: the cursor moves over as many starts, since they are in the same order. -/
theorem attachOne_place (ordered : List (Nat × Nat)) (st : List (Production S) × Nat) (c : Claim) :
    attachOne (ordered.map fun q => (q.1, f q.2)) (st.1.map (Production.place f), st.2) (c.place f) =
      (attachOne ordered st c).map fun st => (st.1.map (Production.place f), st.2) := by
  unfold attachOne
  rw [← List.map_drop, List.takeWhile_map, List.length_map]
  simp only [Function.comp_def, show (c.place f).start = f c.start from rfl, hf.mono.lt_iff_lt]
  generalize st.2 + ((ordered.drop st.2).takeWhile fun q => decide (q.2 < c.start)).length = idx
  cases idx with
  | zero => rfl
  | succ k =>
    simp only
    rw [List.getElem?_map]
    cases ordered[k]? with
    | none => rfl
    | some q =>
      simp only [Option.map_some]
      rw [annotate_place]
      cases annotate st.1 q.1 c <;> rfl

/-- The pass over productions and comments by another count is the pass over them. -/
theorem attachBy_place {claim : Comment → Option Claim}
    (hclaim : ∀ c, claim (c.place f) = (claim c).map (Claim.place f))
    (comments : List Comment) :
    attachBy claim (comments.map (Comment.place f)) (prods.map (Production.place f)) =
      (attachBy claim comments prods).map (List.map (Production.place f)) := by
  unfold attachBy
  rw [placed_place hf]
  by_cases h : placed prods = []
  · rw [h]
    rfl
  · have hstep : ∀ (st : List (Production S) × Nat) (c : Comment),
        attachCommentBy claim ((placed prods).map fun q => (q.1, f q.2)) (st.1.map (Production.place f),
          st.2) (c.place f) =
          (attachCommentBy claim (placed prods) st c).map fun st => (st.1.map (Production.place f), st.2) := by
      intro st c
      unfold attachCommentBy
      rw [hclaim]
      cases claim c with
      | none => rfl
      | some cl => exact attachOne_place hf _ st cl
    rw [if_neg (by simpa using h), if_neg h, List.foldlM_map]
    have hrun : comments.foldlM (fun st c => attachCommentBy claim ((placed prods).map fun q => (q.1, f q.2)) st
      (c.place f))
        (prods.map (Production.place f), 0) =
          (comments.foldlM (attachCommentBy claim (placed prods)) (prods, 0)).map
            fun st => (st.1.map (Production.place f), st.2) :=
      foldlM_map (g := fun st : List (Production S) × Nat => (st.1.map (Production.place f), st.2)) hstep comments
        (prods, 0)
    rw [hrun]
    cases comments.foldlM (attachCommentBy claim (placed prods)) (prods, 0) <;> rfl

end

def Scan.place (f : Nat → Nat) : Scan → Scan
  | .comment start body => .comment (f start) body
  | s => s

/-- The comments of a source by another count of its places. -/
theorem rawComments_suffix (E : Encoding) {src pre post : Text} (hsrc : src = pre ++ post) (s : Scan) :
    rawComments E.width (s.place (E.offset src)) (E.offset src pre.length) post =
      (rawComments (fun _ => 1) s pre.length post).map fun r => (E.offset src r.1, r.2) := by
  induction post generalizing pre s with
  | nil => cases s <;> rfl
  | cons c cs ih =>
    have hstep := @ih (pre ++ [c]) (by rw [hsrc, List.append_assoc, List.singleton_append])
    have hnext : E.offset src (pre ++ [c]).length = E.offset src pre.length + E.width c := by
      have hbefore := E.offset_length pre (c :: cs)
      have hbehind := E.offset_length (pre ++ [c]) cs
      rw [List.append_assoc, List.singleton_append] at hbehind
      rw [hsrc, hbefore, hbehind, E.encode_append, List.length_append, E.length_encode_cons]
      rfl
    have hlen : (pre ++ [c]).length = pre.length + 1 := List.length_append
    rw [hnext, hlen] at hstep
    cases s with
    | content =>
      simp only [Scan.place, rawComments]
      split
      · exact hstep (.quoted '"')
      · split
        · exact hstep (.quoted '>')
        · split
          · exact hstep (.comment pre.length [])
          · exact hstep .content
    | quoted close =>
      simp only [Scan.place, rawComments]
      split
      · exact hstep .content
      · exact hstep (.quoted close)
    | comment start body =>
      simp only [Scan.place, rawComments]
      split
      · rw [List.map_cons, ← hstep .content]
        rfl
      · exact hstep (.comment start (body ++ [c]))

/-- The comments of a source, by its characters. -/
def commentsOf (src : Text) : List (Nat × Text) := rawComments (fun _ => 1) .content 0 src

theorem found_place (trim : Text → Text) (f : Nat → Nat) (r : Nat × Text) :
    found trim (f r.1, r.2) = (found trim r).map (Comment.place f) := by
  unfold found
  split <;> rfl

theorem rawComments_place (E : Encoding) (trim : Text → Text) (src : Text) :
    (rawComments E.width .content 0 src).filterMap (found trim) =
      ((commentsOf src).filterMap (found trim)).map (Comment.place (E.offset src)) := by
  have hraw := rawComments_suffix E (List.nil_append src).symm .content
  rw [List.length_nil, (Count.offset E src).zero] at hraw
  rw [Scan.place.eq_def] at hraw
  simp only at hraw
  rw [hraw, List.filterMap_map, List.map_filterMap]
  exact List.filterMap_congr fun r _ => found_place trim _ r

/-! ## Agreement with TypeScript -/

/-- A port's pass over a source and productions is TypeScript's, by bytes where that is by UTF-16
units: the same comments, the same claims of them, and the same productions or the same error. -/
structure SameAnnotations {S : Type} (src : Text) (prods : List (Production S)) (comments : List Comment)
    (claim : Comment → Option Claim) (attached : Except AnnotationError (List (Production S))) : Prop where
  sameFound : ∃ cs : List Comment,
    annotationComments utf16Encoding.width src = cs.map (Comment.place (utf16Encoding.offset src)) ∧
      comments = cs.map (Comment.place (utf8.offset src))
  sameClaims : ∀ c ∈ comments, claim c = claim? c
  sameAttached : ∃ r : Except AnnotationError (List (Production S)),
    attachValueAnnotations utf16Encoding.width src (prods.map (Production.place (utf16Encoding.offset src))) =
        r.map (List.map (Production.place (utf16Encoding.offset src))) ∧
      attached = r.map (List.map (Production.place (utf8.offset src)))

theorem claimBy_place (space dot sep : Char → Bool) (f : Nat → Nat) (c : Comment) :
    claimBy space dot sep (c.place f) = (claimBy space dot sep c).map (Claim.place f) := by
  unfold claimBy
  rw [show (c.place f).body = c.body from rfl]
  cases captures space dot c.body <;> rfl

theorem claim?_place (f : Nat → Nat) (c : Comment) : claim? (c.place f) = (claim? c).map (Claim.place f) := by
  rw [claim?_eq, claim?_eq]
  exact claimBy_place _ _ _ f c

/-- The pass depends on what is claimed of the comments alone. -/
theorem attachBy_congr {S : Type} {claim claim' : Comment → Option Claim} {comments : List Comment}
    (h : ∀ c ∈ comments, claim c = claim' c) (prods : List (Production S)) :
    attachBy claim comments prods = attachBy claim' comments prods := by
  have hrun : ∀ st : List (Production S) × Nat, comments.foldlM (attachCommentBy claim (placed prods)) st =
      comments.foldlM (attachCommentBy claim' (placed prods)) st := by
    induction comments with
    | nil => exact fun _ => rfl
    | cons c comments ih =>
      intro st
      rw [List.foldlM_cons, List.foldlM_cons, attachCommentBy, attachCommentBy, h c List.mem_cons_self]
      exact congrArg _ (funext fun st => ih (fun d hd => h d (List.mem_cons_of_mem _ hd)) st)
  unfold attachBy
  rw [hrun]

/-- Where the comments and the claims of them are the same, so is the pass. -/
theorem SameAnnotations.of_comments {S : Type} {src : Text} {prods : List (Production S)} {trim' : Text → Text}
    {claim : Comment → Option Claim}
    (hcomments : (commentsOf src).filterMap (found trim) = (commentsOf src).filterMap (found trim'))
    (hclaims : ∀ c ∈ (rawComments utf8.width .content 0 src).filterMap (found trim'), claim c = claim? c) :
    SameAnnotations src prods ((rawComments utf8.width .content 0 src).filterMap (found trim')) claim
      (attachBy claim ((rawComments utf8.width .content 0 src).filterMap (found trim'))
        (prods.map (Production.place (utf8.offset src)))) where
  sameFound := by
    refine ⟨(commentsOf src).filterMap (found trim), ?_, ?_⟩
    · rw [annotationComments, scanComments_eq, rawComments_place]
    · rw [rawComments_place, hcomments]
  sameClaims := hclaims
  sameAttached := by
    refine ⟨attachBy claim? ((commentsOf src).filterMap (found trim)) prods, ?_, ?_⟩
    · rw [attachValueAnnotations, annotationComments, scanComments_eq, rawComments_place, attachComments_eq_by]
      exact attachBy_place (Count.offset _ src) prods (claim?_place _) _
    · rw [attachBy_congr hclaims, rawComments_place, ← hcomments]
      exact attachBy_place (Count.offset _ src) prods (claim?_place _) _

/-! ## Rust -/

theorem Rust.is_js_whitespace_eq : Rust.is_js_whitespace = isSpace := by
  funext c
  by_cases hnel : c = '\u0085'
  · subst hnel
    decide
  · by_cases hbom : c = '\ufeff'
    · subst hbom
      decide
    · have hb : ('\ufeff' == c) = false := beq_eq_false_iff_ne.2 (Ne.symm hbom)
      have hn : ('\u0085' != c) = true := bne_iff_ne.2 (Ne.symm hnel)
      rw [Rust.is_js_whitespace, hb, hn, Bool.false_or, Bool.and_true]
      simp [Rust.is_whitespace, isSpace, hnel, hbom]

theorem Rust.JS_WHITESPACE_CLASS_eq : Rust.JS_WHITESPACE_CLASS = isSpace := by
  funext c
  rw [Bool.eq_iff_iff]
  simp only [Rust.JS_WHITESPACE_CLASS, isSpace, Bool.or_eq_true, decide_eq_true_eq, List.mem_cons,
    List.not_mem_nil, or_false]
  tauto

theorem Rust.claim_eq (c : Comment) : Rust.claim c = claim? c := by
  rw [claim?_eq, Rust.claim, Rust.JS_WHITESPACE_CLASS_eq, Rust.is_js_whitespace_eq]
  have hdot : Rust.JS_DOT_CLASS = fun c => !isLineTerminator c := rfl
  have hsep : (fun c : Char => ',' == c || isSpace c) = fun c => isSpace c || c == ',' := by
    funext c
    rw [Bool.or_comm, Bool.beq_comm]
  rw [hdot, hsep]

/-- The Rust port finds the comments TypeScript finds, claims the same of them, and makes of every
list of productions what it makes, its offsets counting bytes. -/
theorem Rust.sameAnnotations {S : Type} (src : Text) (prods : List (Production S)) :
    SameAnnotations src prods (Rust.annotation_comments src) Rust.claim
      (Rust.attach_value_annotations src (prods.map (Production.place (utf8.offset src)))) := by
  have htrim : Rust.trim_matches Rust.is_js_whitespace = trim := by
    rw [Rust.is_js_whitespace_eq]
    rfl
  unfold Rust.attach_value_annotations Rust.annotation_comments
  rw [scanFrom_eq]
  refine .of_comments ?_ fun c _ => Rust.claim_eq c
  rw [htrim]

end TabnasAbnf.Passes
