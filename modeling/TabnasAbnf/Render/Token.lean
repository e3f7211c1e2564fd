/-
The tokens of a spec: the terminal each one's name stands for, read from the fixed tokens, the match tokens'
patterns and the token sets' names, and the code points a set's tokens hold between them.
-/
import TabnasAbnf.Render.Spec

namespace TabnasAbnf.Render

open TabnasAbnf.Base

/-! ## Names and patterns -/

/-- A token's name without its `#`. -/
def abnfBare (t : Text) : Text := abnfAfter ['#'] t

/-- What a token matches: a literal, a class, or what the engine does. -/
inductive TokenInfo
  | lit (text : Text) (cs : Bool)
  | cls (pat flags : Text)
  | engine (name : Text)
  deriving DecidableEq, Repr

/-- A pattern's escapes taken back off. -/
def abnfUnescape (s : Text) : Text :=
  stringJoin ['\\'] ((split ['\\', '\\'] s).map fun piece => stringJoin [] (split ['\\'] piece))

def abnfMetaChars : List Text :=
  ['^', '$', '.', '*', '+', '?', '(', ')', '[', ']', '\x7b', '\x7d', '|'].map ([·])

/-- The text without the characters escaped, the last first. -/
def abnfStripEscapes (cs : List Text) (s : Text) : Text := cs.foldr (fun c s => stringJoin [] (split ('\\' :: c) s)) s

/-- Whether a pattern's body is a literal as the compiler escapes one. -/
def abnfEscapedLiteral (body : Text) : Bool :=
  let rest := abnfStripEscapes abnfMetaChars (stringJoin [] (split ['\\', '\\'] body))
  (split ['\\'] rest).tail.isEmpty && (abnfMetaChars.filter fun c => !(split c rest).tail.isEmpty).isEmpty

/-- A match token, from its source `@~/^.../flags`. -/
def abnfMatchToken (t m : Text) : Out TokenInfo :=
  let refuse := fun (why : String) => .refused (.spec ("the token ".toList ++ t ++ " is the ".toList ++ why.toList))
  let parts := split ['/'] m
  let flags := parts.getLastD []
  let src := stringJoin ['/'] parts.tail.dropLast
  if abnfStarts ['^'] src then
    let body := abnfAfter ['^'] src
    if abnfStarts ['['] body then
      if abnfClassPattern body then
        if abnfFlagsFit body flags then .done (.cls body flags)
        else refuse ("class " ++ String.ofList m ++ ", whose flags (" ++
          (if flags = [] then "none" else String.ofList flags) ++
          ") change what it matches, and no ABNF terminal matches it")
      else
        refuse
          ("pattern " ++ String.ofList m ++
            ", which is not one class the render reads, and no ABNF terminal matches it")
    else if flags = ['i'] then
      if abnfEscapedLiteral body then .done (.lit (abnfUnescape body) false)
      else
        refuse
          ("pattern " ++ String.ofList m ++
            ", which is not a literal the render reads, and no ABNF terminal matches it")
    else refuse ("pattern " ++ String.ofList m ++ ", which no ABNF terminal matches")
  else refuse ("pattern " ++ String.ofList m ++ ", which no ABNF terminal matches")

/-! ## Token sets -/

/-- A member of the class a set is named for. -/
structure SetMember where
  text : Text
  braced : Bool
  range : Bool

def abnfSetMember (piece : Text) : Option SetMember :=
  match split ['_'] piece with
  | [] => none
  | [] :: rest => rest.head?.map fun h =>
    { text := ['\\', 'u', '\x7b'] ++ abnfHexLower h ++ ['\x7d'], braced := true, range := rest.length = 3 }
  | h :: rest => some { text := ['\\', 'u'] ++ abnfHexLower h, braced := false, range := rest.length = 1 }

def abnfTrimEndOnce (s : Text) : Text := if abnfEnds ['_'] s then abnfBefore ['_'] s else s

def abnfTrimEnd (s : Text) : Text := if abnfEnds ['_'] s then abnfTrimEndOnce (abnfBefore ['_'] s) else s

/-- The name the compiler gives a class's token. -/
def abnfClassName (pat : Text) : Text :=
  let u := abnfHexUpper (swapChar 'u' 'U' (swapChar 's' 'S' pat))
  let n :=
    swapChar '[' '_' (swapChar ']' '_' (swapChar '^' '_' (swapChar '-' '_' (swapChar '\\' '_' (swapChar '\x7b' '_'
    (swapChar '\x7d' '_' u))))))
  abnfTrimEnd ("RX_".toList ++ n)

/-- The class a set's name gives: its pattern and flags. -/
def abnfSetToken (t : Text) : Out (Text × Text) :=
  let rest := abnfAfter "RX_".toList (abnfBare t)
  if rest = "__S_S".toList then .done (anyClass, ['u'])
  else
    let pieces := split ['_', 'U'] rest
    (Run.ofOption (pieces.tail.mapM abnfSetMember)).bind fun members =>
      let negated := abnfSame (pieces.headD []) ['_', '_']
      let body := stringJoin [] (members.map fun m => m.text ++ if m.range then ['-'] else [])
      let pat := ['['] ++ (if negated then ['^'] else []) ++ body ++ [']']
      if abnfSame (abnfClassName pat) (abnfBare t) then
        .done (pat, if negated then ['u'] else if (members.filter (·.braced)).isEmpty then [] else ['u'])
      else .refused (.spec ("the token set ".toList ++ t ++ " names no class the render can read back".toList))

/-! ## Code points -/

/-- A code point as its three bytes, from the highest. -/
structure Cp where
  high : Nat
  mid : Nat
  low : Nat
  deriving DecidableEq, Repr

def abnfPairStart (x : Text) : Option Text := (abnfHexPairs.filter (abnfStarts · x)).head?

def abnfPairEnd (x : Text) : Option Text := (abnfHexPairs.filter (abnfEnds · x)).head?

def abnfPairIndex (p : Text) : Option Nat :=
  ((List.range abnfHexPairs.length).filter fun i => abnfSame (abnfHexPairs.getD i []) p).head?

def abnfSix (h : Text) : Text :=
  (if h.length = 1 then "00000".toList else if h.length = 2 then "0000".toList else if h.length = 3 then "000".toList
    else if h.length = 4 then "00".toList else if h.length = 5 then ['0'] else []) ++ h

def abnfCp (h : Text) : Option Cp := do
  let x := abnfSix (abnfHexUpper h)
  let high ← abnfPairStart x
  let rest := abnfAfter high x
  let mid ← abnfPairStart rest
  let low ← abnfPairEnd rest
  return ⟨← abnfPairIndex high, ← abnfPairIndex mid, ← abnfPairIndex low⟩

def abnfCpBefore (a b : Cp) : Bool :=
  decide (a.high < b.high) ||
    (a.high == b.high && (decide (a.mid < b.mid) || (a.mid == b.mid && decide (a.low < b.low))))

def abnfCpNext (c : Cp) : Cp :=
  if c.low = 255 then if c.mid = 255 then ⟨c.high + 1, 0, 0⟩ else ⟨c.high, c.mid + 1, 0⟩ else ⟨c.high, c.mid, c.low + 1⟩

def abnfCpMax (cps : List Cp) : Option Cp := (cps.filter fun c => (cps.filter fun d => abnfCpBefore c d).isEmpty).head?

structure CpSpan where
  lo : Cp
  hi : Cp
  deriving DecidableEq, Repr

def abnfClassSpans (body : Text) : Option (List CpSpan) :=
  (abnfClassHexSpans body).mapM fun s => do return ⟨← abnfCp s.1, ← abnfCp s.2⟩

/-- The ranges in the order of their low ends, each put at its rank. -/
def abnfSpansSorted (spans : List CpSpan) : List CpSpan :=
  let rank := fun (i : Nat) (s : CpSpan) => (spans.zipIdx.filter fun (t : CpSpan × Nat) =>
    abnfCpBefore t.1.lo s.lo || (t.1.lo == s.lo && decide (t.2 < i))).length
  (List.range spans.length).filterMap fun k =>
    (spans.zipIdx.filter fun (s : CpSpan × Nat) => rank s.2 s.1 == k).head?.map Prod.fst

/-- Ranges sorted, and merged where they overlap or meet. -/
def abnfSpansMerged (spans : List CpSpan) : List CpSpan :=
  let sorted := abnfSpansSorted spans
  let starts := sorted.zipIdx.filter fun (s : CpSpan × Nat) =>
    ((sorted.take s.2).filter fun (t : CpSpan) => !abnfCpBefore (abnfCpNext t.hi) s.1.lo).isEmpty
  (List.range starts.length).filterMap fun k => do
    let first ← starts[k]?
    let upto := match starts[k + 1]? with
      | some next => next.2
      | none => sorted.length
    let hi ← abnfCpMax (((sorted.take upto).drop first.2).map (·.hi))
    return ⟨first.1.lo, hi⟩

def abnfSpansSame (a b : List CpSpan) : Bool := a == b

/-- Whether two lists of ranges hold every code point between them, each once. -/
def abnfSpansTile (a b : List CpSpan) : Bool :=
  let all := abnfSpansSorted (abnfSpansMerged a ++ abnfSpansMerged b)
  match all.head?, all.getLast? with
  | some first, some last =>
    some first.lo == abnfCp ['0'] && some last.hi == abnfCp "10FFFF".toList &&
      ((all.zip all.tail).filter fun st => st.2.lo != abnfCpNext st.1.hi).isEmpty
  | _, _ => false

/-- The ranges of a token that a set holds. -/
def abnfMemberSpans (cx : Context) (t : Text) (m : Json) : Out (List CpSpan) :=
  let src := match m with
    | .str name => abnfStr (cx.matchTokens.lookup name)
    | _ => []
  let body := abnfAfter ['^'] (stringJoin ['/'] (split ['/'] src).tail.dropLast)
  if abnfStarts ['@'] src && abnfClassPattern body && !abnfStarts ['[', '^'] body &&
      abnfFlagsFit body ((split ['/'] src).getLastD []) then
    Run.ofOption (abnfClassSpans body)
  else .refused (.spec ("the token set ".toList ++ t ++ " holds ".toList ++ abnfStr m ++
    ", which is not one class the render reads".toList))

/-- A set is the class its name gives where its tokens hold that class's characters. -/
def abnfCheckSet (cx : Context) (t : Text) : Out Unit :=
  (abnfSetToken t).bind fun cls =>
    (Run.each (abnfMemberSpans cx t) (abnfVec (cx.sets.lookup (abnfBare t)))).bind fun parts =>
      (Run.ofOption (abnfClassSpans cls.1)).bind fun own =>
        let spans := parts.flatten
        if if abnfStarts ['[', '^'] cls.1 then abnfSpansTile own spans
          else abnfSpansSame (abnfSpansMerged own) (abnfSpansMerged spans) then .done ()
        else .refused (.spec ("the token set ".toList ++ t ++ " lays tokens over its class ".toList ++ cls.1 ++
          (" that match other characters than the class does, and the render writes the class the set's name " ++
            "gives").toList))

/-- Every token the alternates match, as one text. -/
def abnfUsed (cx : Context) : Text :=
  [' '] ++ stringJoin [' '] (cx.rules.map fun rule =>
    stringJoin [' '] ((abnfOpen rule.2 ++ abnfClose rule.2).flatMap fun (alt : Json) => abnfS alt)) ++ [' ']

def abnfCheckSets (cx : Context) (used : Text) : Out Unit :=
  (Run.each (fun k => abnfCheckSet cx ('#' :: k)) ((cx.sets.map Prod.fst).filter fun k =>
    abnfStarts "RX_".toList k && !(split ([' ', '#'] ++ k ++ [' ']) used).tail.isEmpty)).bind fun _ => .done ()

/-! ## A token -/

def abnfEngineToken (t : Text) : Out TokenInfo :=
  if t = "#TX".toList ∨ t = "#NR".toList ∨ t = "#ST".toList ∨ t = "#VL".toList then .done (.engine (abnfBare t))
  else .refused (.spec ("the token ".toList ++ t ++ " is defined nowhere in the spec".toList))

def abnfToken (cx : Context) (t : Text) : Out TokenInfo :=
  match cx.fixed.lookup t, cx.matchTokens.lookup t, cx.sets.lookup (abnfBare t) with
  | some (.str f), _, _ => .done (.lit f true)
  | _, some (.str m), _ => abnfMatchToken t m
  | _, _, some (.arr _) => (abnfSetToken t).bind fun cls => .done (.cls cls.1 cls.2)
  | _, _, _ => abnfEngineToken t

end TabnasAbnf.Render
