/-
Value annotations: a trailing `; @object …` or `; @array` comment says how a rule's result is built.
`attachValueAnnotations` gives each one to the production it follows, with a cursor that only moves
forward. A production's sequences are of any type: the pass does not look at them.
-/
import TabnasAbnf.Base.LastIdx
import TabnasAbnf.Meta.Token
import Mathlib.Data.List.Sort

namespace TabnasAbnf.Passes

open TabnasAbnf.Base TabnasAbnf.Meta

/-! ## Productions -/

/-- How a rule's result is built: from named members, or from its parts in order. -/
inductive ValueAnnotation
  | object (members : List Text)
  | array
  deriving DecidableEq, Repr

/-- A production; `S` is the type of its sequences. -/
structure Production (S : Type) where
  name : Text
  alts : List S
  incremental : Bool := false
  sp : Option Span := none
  value : Option ValueAnnotation := none
  deriving DecidableEq, Repr

variable {S : Type}

/-- The production with its sequences seen through a function. -/
def Production.map {S' : Type} (f : S → S') (p : Production S) : Production S' := { p with alts := p.alts.map f }

/-- Where a production's span starts. -/
def Production.start (p : Production S) : Nat := (p.sp.map Span.s).getD 0

/-! ## Comments -/

/-- A comment that starts with `@`, and where its `;` stands. -/
structure Comment where
  start : Nat
  body : Text
  deriving DecidableEq, Repr

/-- ECMAScript WhiteSpace and LineTerminator: `\s`, and what `trim` takes off. -/
def isSpace (c : Char) : Bool :=
  c ∈ ['\t', '\n', '\x0b', '\x0c', '\r', ' ', '\u00a0', '\u1680', '\u2028', '\u2029', '\u202f', '\u205f',
    '\u3000', '\ufeff'] || ('\u2000' ≤ c && c ≤ '\u200a')

/-- What `.` does not match. -/
def isLineTerminator (c : Char) : Bool := c ∈ ['\n', '\r', '\u2028', '\u2029']

/-- `\w`. -/
def isWord (c : Char) : Bool := c.isAlphanum || c == '_'

def trim (s : Text) : Text := ((s.dropWhile isSpace).reverse.dropWhile isSpace).reverse

/-- Where the scan for comments stands: in content, in a quoted string or a prose value, or in a
comment. -/
inductive Scan
  | content
  | quoted (close : Char)
  | comment (start : Nat) (body : Text)

/-- The comment a scan leaves, if it starts with `@`. -/
def yielded (start : Nat) (body : Text) : List Comment :=
  if (trim body).head? = some '@' then [⟨start, trim body⟩] else []

/-- `annotationComments` from a place on, a character being as wide as the port's offsets count. -/
def scanComments (width : Char → Nat) : Scan → Nat → Text → List Comment
  | .comment start body, _, [] => yielded start body
  | _, _, [] => []
  | .content, i, c :: cs =>
    if c = '"' then scanComments width (.quoted '"') (i + width c) cs
    else if c = '<' then scanComments width (.quoted '>') (i + width c) cs
    else if c = ';' then scanComments width (.comment i []) (i + width c) cs
    else scanComments width .content (i + width c) cs
  | .quoted close, i, c :: cs =>
    scanComments width (if c = close then .content else .quoted close) (i + width c) cs
  | .comment start body, i, c :: cs =>
    if c = '\n' then yielded start body ++ scanComments width .content (i + width c) cs
    else scanComments width (.comment start (body ++ [c])) (i + width c) cs

def annotationComments (width : Char → Nat) (src : Text) : List Comment :=
  scanComments width .content 0 src

/-! ## Claims -/

inductive ClaimKind
  | object | array
  deriving DecidableEq, Repr

/-- A comment `ANNOTATION` matches: the kind it names and the words after it. -/
structure Claim where
  start : Nat
  body : Text
  kind : ClaimKind
  members : List Text
  deriving DecidableEq, Repr

/-- The text after a prefix. -/
def after : Text → Text → Option Text
  | [], s => some s
  | p :: ps, c :: cs => if p = c then after ps cs else none
  | _ :: _, [] => none

/-- `ANNOTATION` from a kind's name on: a word boundary, then the rest of the line. -/
def claimTail (rest : Text) : Option (List Text) :=
  if rest.head?.any isWord then none
  else
    let words := rest.dropWhile isSpace
    if words.any isLineTerminator then none
    else some ((words.splitOnP fun c => isSpace c || c == ',').filter (· ≠ []))

/-- `ANNOTATION.exec`, and the words it leaves. -/
def claim? (c : Comment) : Option Claim :=
  match after ['@', 'o', 'b', 'j', 'e', 'c', 't'] c.body with
  | some rest => (claimTail rest).map (⟨c.start, c.body, .object, ·⟩)
  | none =>
    match after ['@', 'a', 'r', 'r', 'a', 'y'] c.body with
    | some rest => (claimTail rest).map (⟨c.start, c.body, .array, ·⟩)
    | none => none

/-- `MEMBER_NAME`. -/
def memberName (name : Text) : Bool :=
  match name with
  | [] => false
  | c :: cs => c.isAlpha && cs.all fun c => c.isAlphanum || c == '-'

def Claim.valued (c : Claim) : ValueAnnotation :=
  match c.kind with
  | .object => .object c.members
  | .array => .array

inductive AnnotationError
  | beforeAny (body : Text)
  | namesMembers (rule : Text) (members : List Text)
  | notRuleName (rule name : Text)
  | namesTwice (rule name : Text)
  | moreThanOne (rule : Text)
  deriving DecidableEq, Repr

def AnnotationError.message : AnnotationError → String
  | .beforeAny body => "abnf: '; " ++ String.ofList body ++ "' appears before any rule, so there is nothing " ++
      "for it to annotate. A value annotation goes after the rule it describes."
  | .namesMembers rule members => "abnf: rule '" ++ String.ofList rule ++ "': '@array' names no members — every " ++
      "part that produces a value becomes an element, in order. Got '" ++
      " ".intercalate (members.map String.ofList) ++ "'."
  | .notRuleName rule name => "abnf: rule '" ++ String.ofList rule ++ "': '" ++ String.ofList name ++
      "' is not a rule name, so it cannot name a member of '@object'."
  | .namesTwice rule name => "abnf: rule '" ++ String.ofList rule ++ "': '@object' names '" ++ String.ofList name ++
      "' twice. Each member is a separate key, so the second part would overwrite the first. " ++
      "Give them different names."
  | .moreThanOne rule => "abnf: rule '" ++ String.ofList rule ++ "' has more than one value annotation. A rule " ++
      "builds one thing."

/-- The first fault among the members of an object, those before it being `seen`. -/
def objectError (rule : Text) (seen : List Text) : List Text → Option AnnotationError
  | [] => none
  | name :: names =>
    if memberName name = false then some (.notRuleName rule name)
    else if name ∈ seen then some (.namesTwice rule name)
    else objectError rule (name :: seen) names

def Claim.memberError (c : Claim) (rule : Text) : Option AnnotationError :=
  match c.kind with
  | .array => if c.members ≠ [] then some (.namesMembers rule c.members) else none
  | .object => objectError rule [] c.members

/-! ## Attaching -/

/-- The places of the productions with a span, in the order of their starts. -/
def orderedBy (prods : List (Production S)) : List Nat :=
  ((List.range prods.length).filter fun i => (prods[i]?.bind (·.sp)).isSome).insertionSort
    fun i j => (prods[i]?.map (·.start)).getD 0 ≤ (prods[j]?.map (·.start)).getD 0

/-- The places and the starts the cursor moves over. -/
def placed (prods : List (Production S)) : List (Nat × Nat) :=
  (orderedBy prods).map fun i => (i, (prods[i]?.map (·.start)).getD 0)

/-- The claim goes to the production in a place. -/
def annotate (prods : List (Production S)) (i : Nat) (c : Claim) :
    Except AnnotationError (List (Production S)) :=
  match prods[i]? with
  | none => .error (.beforeAny c.body)
  | some owner =>
    match c.memberError owner.name with
    | some e => .error e
    | none =>
      if owner.value.isSome then .error (.moreThanOne owner.name)
      else .ok (prods.set i { owner with value := some c.valued })

/-- One claim, with the cursor where the claims before it left it. -/
def attachOne (ordered : List (Nat × Nat)) (st : List (Production S) × Nat) (claim : Claim) :
    Except AnnotationError (List (Production S) × Nat) :=
  let idx := st.2 + ((ordered.drop st.2).takeWhile (·.2 < claim.start)).length
  match idx with
  | 0 => .error (.beforeAny claim.body)
  | k + 1 =>
    match ordered[k]? with
    | none => .error (.beforeAny claim.body)
    | some (i, _) => (annotate st.1 i claim).map (·, idx)

/-- One comment: nothing unless it claims an annotation. -/
def attachComment (ordered : List (Nat × Nat)) (st : List (Production S) × Nat) (c : Comment) :
    Except AnnotationError (List (Production S) × Nat) :=
  match claim? c with
  | none => .ok st
  | some claim => attachOne ordered st claim

/-- `attachValueAnnotations` over the comments of a source. -/
def attachComments (comments : List Comment) (prods : List (Production S)) :
    Except AnnotationError (List (Production S)) :=
  if placed prods = [] then .ok prods
  else (comments.foldlM (attachComment (placed prods)) (prods, 0)).map (·.1)

def attachValueAnnotations (width : Char → Nat) (src : Text) (prods : List (Production S)) :
    Except AnnotationError (List (Production S)) :=
  attachComments (annotationComments width src) prods

/-- The same over the claims alone. -/
def attachClaims (claims : List Claim) (prods : List (Production S)) :
    Except AnnotationError (List (Production S)) :=
  if placed prods = [] then .ok prods
  else (claims.foldlM (attachOne (placed prods)) (prods, 0)).map (·.1)

/-- Comments that claim nothing leave the cursor where it is. -/
theorem attachComments_eq (comments : List Comment) (prods : List (Production S)) :
    attachComments comments prods = attachClaims (comments.filterMap claim?) prods := by
  have hrun : ∀ (comments : List Comment) (st : List (Production S) × Nat),
      comments.foldlM (attachComment (placed prods)) st =
        (comments.filterMap claim?).foldlM (attachOne (placed prods)) st := by
    intro comments
    induction comments with
    | nil => intro st; rfl
    | cons c comments ih =>
      intro st
      rw [List.foldlM_cons]
      cases hc : claim? c with
      | none =>
        rw [List.filterMap_cons_none hc, show attachComment (placed prods) st c = .ok st by
          simp only [attachComment, hc]]
        exact ih st
      | some claim =>
        rw [List.filterMap_cons_some hc, List.foldlM_cons, show attachComment (placed prods) st c =
          attachOne (placed prods) st claim by simp only [attachComment, hc]]
        cases attachOne (placed prods) st claim with
        | error e => rfl
        | ok st => exact ih st
  unfold attachComments attachClaims
  rw [hrun]

/-! ## The pass does not look at the sequences -/

/-- A run through a map of its states. -/
theorem foldlM_map {X E σ σ' : Type} {f : σ → X → Except E σ} {f' : σ' → X → Except E σ'} {g : σ → σ'}
    (h : ∀ s x, f' (g s) x = (f s x).map g) (l : List X) (s : σ) :
    l.foldlM f' (g s) = (l.foldlM f s).map g := by
  induction l generalizing s with
  | nil => rfl
  | cons x l ih =>
    rw [List.foldlM_cons, List.foldlM_cons, h]
    cases f s x with
    | error e => rfl
    | ok s' => exact ih s'

section

variable {S' : Type} (f : S → S') (prods : List (Production S))

theorem placed_map : placed (prods.map (Production.map f)) = placed prods := by
  have hsp : ∀ i : Nat, ((prods.map (Production.map f))[i]?.bind (·.sp)) = prods[i]?.bind (·.sp) := fun i => by
    rw [List.getElem?_map]
    cases prods[i]? <;> rfl
  have hstart : ∀ i : Nat, ((prods.map (Production.map f))[i]?.map (·.start)) = prods[i]?.map (·.start) := fun i => by
    rw [List.getElem?_map]
    cases prods[i]? <;> rfl
  unfold placed orderedBy
  simp only [hsp, hstart, List.length_map]

theorem annotate_map (i : Nat) (c : Claim) :
    annotate (prods.map (Production.map f)) i c = (annotate prods i c).map (List.map (Production.map f)) := by
  unfold annotate
  rw [List.getElem?_map]
  cases prods[i]? with
  | none => rfl
  | some p =>
    simp only [Option.map_some, show (p.map f).name = p.name from rfl, show (p.map f).value = p.value from rfl]
    cases c.memberError p.name with
    | some e => rfl
    | none =>
      cases p.value with
      | some v => rfl
      | none => simp [Except.map, List.map_set, Production.map]

theorem attachClaims_map (claims : List Claim) :
    attachClaims claims (prods.map (Production.map f)) =
      (attachClaims claims prods).map (List.map (Production.map f)) := by
  unfold attachClaims
  rw [placed_map]
  by_cases h : placed prods = []
  · rw [if_pos h, if_pos h]
    rfl
  · rw [if_neg h, if_neg h,
      foldlM_map (f := attachOne (placed prods)) (g := fun st => (st.1.map (Production.map f), st.2))
      (fun st c => ?_) claims (prods, 0)]
    · cases claims.foldlM (attachOne (placed prods)) (prods, 0) <;> rfl
    · unfold attachOne
      simp only
      split
      · rfl
      · split
        · rfl
        · rw [annotate_map]
          cases annotate st.1 _ c <;> rfl

end

end TabnasAbnf.Passes
