/-
What a spec may hold: every alternate is one the compiler's tree-building grammars are made of, every rule a
list of them, and the start the wrapper every grammar text compiles to.
-/
import TabnasAbnf.Render.Helpers
import TabnasAbnf.Render.Token

namespace TabnasAbnf.Render

open TabnasAbnf.Base

/-! ## An alternate's fields -/

/-- Whether an alternate gives a field: one that is missing, null or false is not given. -/
def abnfGiven : Option Json → Bool
  | none | some .null | some (.bool false) => false
  | _ => true

def abnfAltKeys : List Text := [['s'], ['b'], ['p'], ['r'], ['a'], ['c'], ['n'], ['k'], ['g'], ['m'], ['u']]

def abnfKeyText (key : Text) : Text :=
  if key = ['e'] then "e (an error generator)".toList else
    if key = ['h'] then "h (an alternate modifier)".toList else key

def abnfActionText (alt : Option Json) : Text :=
  match get ['a'] alt with
  | some (.str s) => s
  | some (.arr vs) => stringJoin [' '] (vs.map fun v => abnfStr v)
  | _ => "a function".toList

/-- The refusal of a rule. -/
def ruleRefusal (name what : Text) : Refusal := .spec ("rule ".toList ++ name ++ what)

/-- Refuses the rule unless the test holds. -/
def expect (ok : Bool) (name what : Text) : Out Unit := if ok then .done () else .refused (ruleRefusal name what)

/-- One place of an alternate's tokens: one token's name. -/
def isPlace : Json → Bool
  | .str t => (split [' '] t).tail.isEmpty
  | _ => false

def abnfCheckS (name : Text) : Option Json → Out Unit
  | none | some .null | some (.str _) => .done ()
  | some (.arr vs) => expect (vs.filter fun v => !isPlace v).isEmpty name
    (" has an alternate whose s holds, at one place, a set of tokens or something other than a token's name, " ++
      "which is not written").toList
  | _ => expect false name " has an alternate whose s is not tokens, which is not written".toList

/-- The rule an alternate pushes or replaces itself with: a name, or none. -/
def abnfCheckNext (name key : Text) : Option Json → Out Unit
  | none | some .null | some (.bool false) => .done ()
  | some (.str v) => expect (!abnfStarts ['@'] v) name (" has an alternate whose ".toList ++ key ++
    " is the function reference ".toList ++ v ++ ", which is not written".toList)
  | _ => expect false name (" has an alternate whose ".toList ++ key ++ " is not a rule, which is not written".toList)

def abnfCheckBack (name : Text) : Option Json → Out Unit
  | none | some .null | some (.num _) | some (.bool false) => .done ()
  | some (.bool true) => expect false name " has an alternate whose b is not a count, which is not written".toList
  | v =>
    expect false name
      (" has an alternate whose b is not a count (".toList ++ abnfStr v ++ "), which is not written".toList)

/-- Whether a rule is a repetition's loop or a step of it. -/
def abnfLoopRule (cx : Context) (name : Text) : Out Bool :=
  (abnfHelperKind cx ((split ['$'] name).headD [])).bind fun kind => (Run.ofOption kind).bind fun kind =>
    .done (abnfSame kind "star".toList)

def abnfCheckLoop (cx : Context) (name : Text) (alt : Option Json) : Out Unit :=
  let c := get ['c'] alt
  let n := get ['n'] alt
  if abnfGiven c || abnfGiven n then
    (abnfLoopRule cx name).bind fun loop =>
      (expect loop
        name " carries a condition or a counter outside a repetition's loop, which is not written".toList).bind fun _ =>
        (expect (!abnfGiven c || abnfLoopValue c "n.rep".toList [0]) name
          " carries a condition other than its loop's, which is not written".toList).bind fun _ =>
            expect (!abnfGiven n || abnfLoopValue n "rep".toList [0, 1]) name
              " carries a counter other than its loop's, which is not written".toList
  else .done ()

def abnfCheckParts (cx : Context) (name : Text) (alt : Option Json) : Out Unit :=
  if abnfAmong (abnfA alt) [[], "@node$".toList, "@capture$".toList, "@bubble$".toList, "@fold$".toList] then
    (abnfCheckS name (get ['s'] alt)).bind fun _ =>
      (abnfCheckNext name ['p'] (get ['p'] alt)).bind fun _ =>
        (abnfCheckNext name ['r'] (get ['r'] alt)).bind fun _ =>
          (abnfCheckBack name (get ['b'] alt)).bind fun _ => abnfCheckLoop cx name alt
  else if abnfStarts "@probe".toList (abnfActionText alt) then
    expect false name
      (" is the probe dispatcher the compiler makes for an optional prefix ([ X D ] Y), which is not " ++
      "read back").toList
  else expect false name (" carries an action (".toList ++ abnfActionText alt ++ "), which is not written".toList)

def abnfCheckAlt (cx : Context) (name : Text) (alt : Option Json) : Out Unit :=
  let extra := (abnfRec alt).filter fun f => !abnfAmong f.1 abnfAltKeys && abnfGiven (get f.1 alt)
  if extra.isEmpty then abnfCheckParts cx name alt
  else expect false name (" has an alternate carrying ".toList ++
    stringJoin [',', ' '] (extra.map fun f => abnfKeyText f.1) ++ ", which is not written".toList)

/-! ## A rule -/

/-- A rule's phases: a list of alternates each, or none. -/
def abnfCheckPhase (name phase : Text) : Option Json → Out Unit
  | none | some .null | some (.arr _) => .done ()
  | some (.obj _) => expect false name (" gives its ".toList ++ phase ++
    " alternates as alts and an inject, which edits a rule already installed and is not written".toList)
  | _ =>
    expect false name
      (" gives its ".toList ++ phase ++ " alternates in a form that is not a list, which is not written".toList)

def abnfCheckRule (cx : Context) (name : Text) : Out Unit :=
  let r := abnfRule cx name
  match r with
  | some (.obj _) =>
    (abnfCheckPhase name "open".toList (get "open".toList r)).bind fun _ =>
      (abnfCheckPhase name "close".toList (get "close".toList r)).bind fun _ =>
        (expect (!(abnfOpen r).isEmpty) name " has no alternate to open with, which no grammar text writes".toList).bind
          fun _ =>
          (Run.each (fun (alt : Json) => abnfCheckAlt cx name alt) (abnfOpen r ++ abnfClose r)).bind fun _ => .done ()
  | some .null => expect false name " is removed, which is not written".toList
  | _ => expect false name " is not a rule's alternates, which is not written".toList

/-! ## The spec -/

/-- The start is the wrapper every grammar text compiles to. -/
def abnfCheckStart (cx : Context) : Out Unit :=
  if abnfWrapper (abnfRule cx cx.start) then .done ()
  else
    .refused
      (.spec ("the start rule ".toList ++ cx.start ++ (" is not the start wrapper every grammar text compiles " ++
    "to (one open alternate that matches nothing and pushes a rule, closed by the end of the source alone)").toList))

/-- The rules' order is not lost. -/
def abnfCheckOrder (spec : Json) : Out Unit :=
  match getPath ["options".toList, "match".toList, "tokenOrder".toList] spec with
  | some (.arr order) =>
    if order.length < 2 then .done ()
    else
      .refused
        (.spec ("it gives its match tokens' order as a list of its own (tokenOrder, Go's serialization, whose " ++
      "keys are in name order), and the order of the rules, which their precedence follows, is lost").toList)
  | _ => .done ()

def abnfCheck (spec : Json) (cx : Context) : Out Unit :=
  match get "clear".toList spec with
  | some (.bool true) => .refused (.spec "it clears the grammar it is installed on, which is not written".toList)
  | _ =>
    (abnfCheckOrder spec).bind fun _ => (abnfCheckStart cx).bind fun _ =>
      (Run.each (abnfCheckRule cx) (cx.rules.map Prod.fst)).bind fun _ => abnfCheckSets cx (abnfUsed cx)

end TabnasAbnf.Render
