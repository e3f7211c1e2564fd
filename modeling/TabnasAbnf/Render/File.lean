/-
The text the render writes: elements, the alternatives of rules and groups, productions, and the file.
-/
import TabnasAbnf.Render.Check
import TabnasAbnf.Render.Unsub

namespace TabnasAbnf.Render

open TabnasAbnf.Base

/-! ## Names and tokens -/

/-- A text without the space an empty first or last alternative leaves. -/
def abnfTrimEnds (t : Text) : Text :=
  let lead := if abnfStarts [' '] t then abnfAfter [' '] t else t
  if abnfEnds [' '] lead then abnfBefore [' '] lead else lead

def abnfLegalName (name : Text) : Bool :=
  !name.isEmpty && charsWithin [(45, 45), (48, 57), (65, 90), (97, 122)] name && !abnfStarts ['-'] name &&
    ((['0', '1', '2', '3', '4', '5', '6', '7', '8', '9'].map ([·])).filter fun d => abnfStarts d name).isEmpty

def abnfRefText (name : Text) : Out Text := if abnfLegalName name then .done name else .refused (.badName name)

theorem abnfRefText_legal {name out : Text} (h : abnfRefText name = .done out) :
    abnfLegalName name = true ∧ out = name := by
  unfold abnfRefText at h
  split at h
  · rename_i hlegal
    exact ⟨hlegal, (Run.done.inj h).symm⟩
  · cases h

def abnfUpperPairs : List (Char × Char) := "abcdefghijklmnopqrstuvwxyz".toList.zip "ABCDEFGHIJKLMNOPQRSTUVWXYZ".toList

/-- A text with characters swapped for others, the last pair first. -/
def abnfSwapWalk (pairs : List (Text × Text)) (s : Text) : Text :=
  pairs.foldr (fun p s => stringJoin p.2 (split p.1 s)) s

/-- The name the compiler derives for a literal's token. -/
def abnfBaseName (text : Text) : Text :=
  let up := abnfSwapWalk (abnfUpperPairs.map fun p => ([p.1], [p.2])) text
  let others := abnfAscii.filter fun ch => !charsWithin [(48, 57), (65, 90), (97, 122)] ch.1
  let pieces := split ['_'] (abnfSwapWalk (others.map fun ch => (ch.1, ['_'])) up)
  let full := (List.range pieces.length).filter fun i => !(pieces.getD i []).isEmpty
  match full.head?, full.getLast? with
  | some lo, some hi => stringJoin ['_'] ((pieces.take (hi + 1)).drop lo)
  | _, _ => ['T']

/-- Whether a token's name is one the compiler derives from its text. -/
def abnfDerived (bare text : Text) : Bool :=
  if charsWithin [(48, 57), (65, 90), (95, 95)] bare then
    if charsWithin [(0, 127)] text then
      let base := abnfBaseName text
      abnfSame bare base || (abnfStarts base bare && abnfDigits (abnfAfter base bare))
    else true
  else false

/-- Whether a token is a rule the compiler lifted. -/
def abnfLifted (cx : Context) (used t : Text) : Out Bool :=
  (abnfToken cx t).bind fun info => .done <|
    match info with
    | .lit text _ => abnfLegalName (abnfBare t) &&
        (!abnfDerived (abnfBare t) text || (split ([' '] ++ t ++ [' ']) used).tail.isEmpty)
    | _ => false

def litText (text : Text) (cs : Bool) : Out Text :=
  match abnfLitText text cs with
  | .ok t => .done t
  | .error why => .refused (.literal why)

def abnfTokenText (cx : Context) (lifted : List Text) (t : Text) : Out Text :=
  if abnfAmong t lifted then .done (abnfBare t)
  else (abnfToken cx t).bind fun info =>
    match info with
    | .lit text cs => litText text cs
    | .cls pat flags =>
      match abnfClassText pat flags with
      | .ok t => .done t
      | .error why => .refused (.cls why)
    | .engine name => .done name

/-! ## Elements -/

/-- What `abnf-text` writes: alternatives, an element, or the element a repetition applies to. -/
inductive Node
  | alts (x : List Seq)
  | el (e : El)
  | atom (e : El)

def abnfRepText (cx : Context) (self : Node → Out Text) (name : Text) : Out Text :=
  (abnfRepParts cx name).bind fun parts =>
    let min := abnfNum parts.min
    let count := if parts.max = [] then min ++ ['*'] else if abnfSame min parts.max then min
      else (if min = ['0'] then [] else min) ++ ['*'] ++ parts.max
    (self (.atom parts.item)).bind fun item => .done (count ++ item)

/-- An element in a group of its own. -/
def grouped (t : Text) : Text := "( ".toList ++ t ++ " )".toList

def abnfAtomText (cx : Context) (lifted : List Text) (self : Node → Out Text) (el : El) : Out Text :=
  let alone := (self (.el el)).bind fun t => .done (grouped t)
  match el with
  | .tok t => abnfTokenText cx lifted t
  | .grp _ => self (.el el)
  | .tail _ => alone
  | .ref name => (abnfHelperKind cx name).bind fun kind =>
    if kind = some "group".toList then self (.el el)
    else if kind = some "opt".toList then
      (abnfOptGroup cx name).bind fun group => if group then self (.el el) else alone
    else if kind = some [] then self (.el el)
    else alone

/-- The element the name of which an option over a group is written by. -/
def optInner (alts : List Seq) : Option El := (abnfFilled alts).bind List.head?

/-- The name an element holds. -/
def El.name? : El → Option Text
  | .tok name | .ref name => some name
  | _ => none

def abnfElText (cx : Context) (fuel : Nat) (lifted : List Text) (self : Node → Out Text) (el : El) : Out Text :=
  match el with
  | .tok t => abnfTokenText cx lifted t
  | .tail seq => (self (.alts [seq])).bind fun t => .done ("[ ".toList ++ t ++ " ]".toList)
  | .grp seq => (self (.alts [seq])).bind fun t => .done (grouped t)
  | .ref name => (abnfHelperKind cx name).bind fun kind => (Run.ofOption kind).bind fun kind =>
    if kind = [] then abnfRefText name
    else if kind = "star".toList then
      (abnfLoopItem cx name (abnfRule cx name)).bind fun item => (self (.atom item)).bind fun t => .done ('*' :: t)
    else if kind = "plus".toList then
      (abnfAlts cx fuel name).bind fun alts => (Run.ofOption (alts.head?.bind List.head?)).bind fun item =>
        (self (.atom item)).bind fun t => .done (['1', '*'] ++ t)
    else if kind = "opt".toList then
      (abnfAlts cx fuel name).bind fun alts => (Run.ofOption (optInner alts)).bind fun inner =>
        (abnfOptGroup cx name).bind fun group =>
          if group then
            (Run.ofOption inner.name?).bind fun innerName => (abnfAlts cx fuel innerName).bind fun innerAlts =>
              (self (.alts innerAlts)).bind fun t => .done ("[ ".toList ++ t ++ " ]".toList)
          else (self (.atom inner)).bind fun t => .done ("0*1".toList ++ t)
    else if kind = "rep".toList then abnfRepText cx self name
    else if kind = "group".toList then
      (abnfAlts cx fuel name).bind fun alts => (self (.alts alts)).bind fun t => .done (grouped t)
    else .refused (.helperKind name kind)

def abnfSeqText (self : Node → Out Text) (seq : Seq) : Out Text :=
  (Run.each (fun el => self (.el el)) seq).bind fun ts => .done (stringJoin [' '] ts)

/-- One step of the text: the function the render recurses through. -/
def textBody (cx : Context) (lifted : List Text) (fuel : Nat) (self : Node → Out Text) (node : Node) : Out Text :=
  match node with
  | .alts x => (Run.each (abnfSeqText self) x).bind fun ts => .done (abnfTrimEnds (stringJoin " / ".toList ts))
  | .el el => abnfElText cx fuel lifted self el
  | .atom el => abnfAtomText cx lifted self el

def abnfText (cx : Context) (lifted : List Text) : Nat → Node → Out Text := iterate (textBody cx lifted)

/-! ## The file -/

def abnfProduction (cx : Context) (fuel : Nat) (cands : List Cand) (lifted : List Text) (name : Text) : Out Text :=
  (abnfRefText name).bind fun head => (written cx fuel cands name).bind fun alts =>
    (abnfText cx lifted fuel (.alts alts)).bind fun t => .done (head ++ " = ".toList ++ t)

/-- A token lifted is a literal's, and is written as one. -/
def abnfLiftedProduction (cx : Context) (t : Text) : Out Text :=
  (abnfToken cx t).bind fun info => (abnfRefText (abnfBare t)).bind fun head =>
    match info with
    | .lit text cs => (litText text cs).bind fun t => .done (head ++ " = ".toList ++ t)
    | _ => .fault

def abnfCheckLifted (cx : Context) (lifted : List Text) : Out Unit :=
  (Run.each (fun t =>
    if abnfHas cx (abnfBare t) then
      (.refused (.spec ("the token ".toList ++ t ++ " is written as a rule named ".toList ++ abnfBare t ++
        ", the name of another rule the spec holds".toList)) : Out Unit)
    else .done ()) lifted).bind fun _ => .done ()

def abnfFile (spec : Json) (fuel : Nat) : Out Text :=
  let cx := abnfContext spec
  (abnfCheck spec cx).bind fun _ => (abnfOrdered cx).bind fun ordered =>
    (Run.select (abnfLifted cx (abnfUsed cx)) (cx.fixed.map Prod.fst ++ cx.matchTokens.map Prod.fst)).bind fun lifted =>
      (abnfCheckLifted cx lifted).bind fun _ => (abnfDirectCore cx).bind fun direct =>
        (abnfCandidates cx fuel (ordered ++ direct)).bind fun cands =>
          (Run.each (abnfProduction cx fuel cands lifted) ordered).bind fun productions =>
            (Run.each (abnfLiftedProduction cx) lifted).bind fun tokens =>
              .done (stringJoin ['\n'] (productions ++ tokens) ++ ['\n'])

end TabnasAbnf.Render
