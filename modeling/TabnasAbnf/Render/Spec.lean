/-
A parser spec tree as the renderer reads it: JSON, the parts of a spec the render looks into, the fields
of an alternate, and the alternatives a rule's alternates stand for, each a sequence of elements.
-/
import TabnasAbnf.Base.Run
import TabnasAbnf.Render.Class

namespace TabnasAbnf.Render

open TabnasAbnf.Base

/-! ## Values -/

inductive Json
  | null
  | bool (b : Bool)
  | num (n : Int)
  | str (s : Text)
  | arr (vs : List Json)
  | obj (fields : List (Text × Json))

/-- `get`: a field, which is missing where the value is no record that holds it. -/
def get (k : Text) : Option Json → Option Json
  | some (.obj fields) => fields.lookup k
  | _ => none

/-- `get-path`. -/
def getPath (path : List Text) (v : Option Json) : Option Json := path.foldl (fun v k => get k v) v

def Json.isRecord : Json → Bool
  | .obj _ => true
  | _ => false

def Json.isString : Json → Bool
  | .str _ => true
  | _ => false

/-- `abnf-rec`. -/
def abnfRec : Option Json → List (Text × Json)
  | some (.obj fields) => fields
  | _ => []

def abnfVec : Option Json → List Json
  | some (.arr vs) => vs
  | _ => []

def abnfStr : Option Json → Text
  | some (.str s) => s
  | _ => []

/-- `abnf-num`: an integer's decimal digits. -/
def abnfNum (n : Int) : Text := if n < 0 then '-' :: Nat.toDigits 10 n.natAbs else Nat.toDigits 10 n.toNat

def abnfDigits (s : Text) : Bool := !s.isEmpty && charsWithin [(48, 57)] s

/-- `abnf-unique`: the items whose key is the first of its kind, each looked up among the runs' first
places. -/
def abnfUnique {α : Type} (key : α → Text) (v : List α) : List α :=
  let ks := v.map key
  let prev := ['\x00'] :: ks
  let runs := (List.range ks.length).filter fun i => !abnfSame (ks.getD i []) (prev.getD i [])
  (runs.filter fun i =>
    (runs.filter fun j => decide (j < i) && abnfSame (ks.getD j []) (ks.getD i [])).isEmpty).filterMap
    (v[·]?)

/-! ## Refusals -/

/-- What a literal's refusal says; `quoted` is the evaluator's. -/
def LitRefusal.message (quoted : Text → Text) : LitRefusal → Text
  | .pastBmp text => "the literal ".toList ++ quoted text ++
      " holds a character past U+FFFF, which the render does not spell as a numeric value".toList
  | .cannotSpell text => "the literal ".toList ++ quoted text ++ " holds a character the render cannot spell".toList
  | .sensitive text => "the case-sensitive literal ".toList ++ quoted text ++ (" holds a character a quoted string " ++
      "cannot hold, and a numeric value matches case-insensitively").toList
  | .uncased text => "the case-insensitive literal ".toList ++ quoted text ++
    (" holds a character past ASCII that may " ++
      "have cases and no ASCII letter, and a numeric value without a letter matches exactly").toList

def ClassRefusal.message (quoted : Text → Text) : ClassRefusal → Text
  | .negated pat => "the class ".toList ++ pat ++ " is negated, which ABNF has no form for".toList
  | .notRange pat => "the class ".toList ++ pat ++ " is not a range ABNF writes".toList
  | .empty pat => "the class ".toList ++ pat ++ " is empty".toList
  | .alone pat h => "the class ".toList ++ pat ++ " holds U+".toList ++ h ++
      " alone, which ABNF writes only as a numeric value, read without regard to case".toList
  | .literal why => why.message quoted

/-- Why the render refuses a spec. -/
inductive Refusal
  | longSequence (rule : Text)
  | notStep (rule : Text)
  | notPlaced (rule : Text)
  | repeatsNothing (rep : Text)
  | repeatsTokens (rep : Text)
  | notNumbered (rep : Text)
  | noTimes (rep : Text)
  | helperKind (rule kind : Text)
  | badName (rule : Text)
  | literal (why : LitRefusal)
  | cls (why : ClassRefusal)
  | spec (what : Text)
  deriving DecidableEq, Repr

/-- What a refusal says after `the grammar spec cannot be written as ABNF: `. -/
def Refusal.message (quoted : Text → Text) : Refusal → Text
  | .longSequence rule => "rule ".toList ++ rule ++
      " is a sequence of more than 200 segments, which the render does not follow".toList
  | .notStep rule => "rule ".toList ++ rule ++ (" replaces itself in its close as a sequence's step does, and " ++
      "has more alternates than a step, which is not read back").toList
  | .notPlaced rule => "rule ".toList ++ rule ++ " dispatches to alternatives the render cannot place".toList
  | .repeatsNothing rep => "the repetition ".toList ++ rep ++ " repeats nothing".toList
  | .repeatsTokens rep => "the repetition ".toList ++ rep ++ " repeats more than one token".toList
  | .notNumbered rep => "the repetition ".toList ++ rep ++ " is not numbered as the compiler numbers one".toList
  | .noTimes rep => "the repetition ".toList ++ rep ++
      " repeats its item no times, and the spec does not keep the item".toList
  | .helperKind rule kind => "the rule ".toList ++ rule ++
      " is a helper of a kind the render does not read (".toList ++ kind ++ [')']
  | .badName rule => "the rule ".toList ++ quoted rule ++ " has a name ABNF cannot spell".toList
  | .literal why => why.message quoted
  | .cls why => why.message quoted
  | .spec what => what

/-- A run of the render. -/
abbrev Out := Run Refusal

/-! ## The spec -/

/-- The parts of a spec the render reads. -/
structure Context where
  rules : List (Text × Json)
  fixed : List (Text × Json) := []
  matchTokens : List (Text × Json) := []
  sets : List (Text × Json) := []
  prov : Option Json := none
  start : Text

def abnfContext (spec : Json) : Context :=
  let o := some (Json.obj (abnfRec (get "options".toList spec)))
  { rules := abnfRec (get "rule".toList spec)
    fixed := abnfRec (getPath ["fixed".toList, "token".toList] o)
    matchTokens := abnfRec (getPath ["match".toList, "token".toList] o)
    sets := abnfRec (get "tokenSet".toList o)
    prov := getPath ["meta".toList, "provenance".toList] spec
    start := abnfStr (getPath ["rule".toList, "start".toList] o) }

def abnfRule (cx : Context) (name : Text) : Option Json := cx.rules.lookup name

def abnfHas (cx : Context) (name : Text) : Bool := (abnfRule cx name).any Json.isRecord

/-! ## An alternate -/

/-- A rule's open alternates, the placeholders left out. -/
def abnfOpen (r : Option Json) : List Json := (abnfVec (get "open".toList r)).filter Json.isRecord

def abnfClose (r : Option Json) : List Json := (abnfVec (get "close".toList r)).filter Json.isRecord

/-- The tokens an alternate matches: names between spaces, or a list of them. -/
def abnfS (alt : Option Json) : List Text :=
  match get ['s'] alt with
  | some (.str s) => (split [' '] s).filter (!·.isEmpty)
  | some (.arr vs) => vs.map fun v => abnfStr v
  | _ => []

def abnfB (alt : Option Json) : Int :=
  match get ['b'] alt with
  | some (.num n) => n
  | _ => 0

def abnfP (alt : Option Json) : Text := abnfStr (get ['p'] alt)

def abnfR (alt : Option Json) : Text := abnfStr (get ['r'] alt)

def abnfA (alt : Option Json) : Text :=
  match get ['a'] alt with
  | some (.str s) => s
  | none | some .null => []
  | _ => ['?']

/-- The tokens an alternate consumes. -/
def abnfConsumed (alt : Option Json) : List Text :=
  let s := abnfS alt
  s.take ((List.range s.length).filter fun (j : Nat) => !decide ((j : Int) < abnfB alt)).length

/-- The rule it hands over to. -/
def abnfTarget (alt : Option Json) : Text := if abnfP alt = [] then abnfR alt else abnfP alt

/-! ## Elements -/

/-- An element of an alternative: a token or a reference, and what the render makes of a tail repeat and
of a factored group. -/
inductive El
  | tok (name : Text)
  | ref (name : Text)
  | tail (seq : List El)
  | grp (seq : List El)

abbrev Seq := List El

def abnfEntryEls (alt : Option Json) : Seq :=
  let toks := (abnfConsumed alt).map El.tok
  if abnfTarget alt = [] then toks else toks ++ [.ref (abnfTarget alt)]

def abnfEntryKey (alt : Option Json) : Text := stringJoin [' '] (abnfConsumed alt) ++ ['|'] ++ abnfTarget alt

def abnfWholeKey (alt : Option Json) : Text :=
  stringJoin [' '] (abnfS alt) ++ ['|'] ++ abnfNum (abnfB alt) ++ ['|'] ++ abnfTarget alt

/-- How many times an alternative stands among the open alternates. -/
def abnfCopies (opens : List Json) (alt : Json) : Nat :=
  let group := opens.filter fun (a : Json) => abnfSame (abnfEntryKey a) (abnfEntryKey alt)
  let counts :=
    group.map fun (a : Json) => (group.filter fun (b : Json) => abnfSame (abnfWholeKey b) (abnfWholeKey a)).length
  (counts.filter fun c => (counts.filter fun d => decide (c < d)).isEmpty).headD 0

def abnfBareEmpty (alt : Option Json) : Bool := (abnfS alt).isEmpty && (abnfTarget alt).isEmpty

/-- The number of the helper an alternative ends in, `-1` without one. -/
def abnfAltNumber (alt : Seq) : Int :=
  match alt.getLast? with
  | some (.ref name) =>
    if abnfStarts "_gen".toList name then
      let d := (split ['_'] (abnfAfter "_gen".toList name)).headD []
      if abnfDigits d then ofDigits 10 d else -1
    else -1
  | _ => -1

/-- The alternatives that end in a numbered helper, in the order of the numbers, in their own places. -/
def abnfNumberOrder (alts : List Seq) : List Seq :=
  let nums := alts.map abnfAltNumber
  let num := fun i => nums.getD i (-1)
  let slots := (List.range alts.length).filter fun i => !decide (num i < 0)
  let rank :=
    fun i => (slots.filter fun j => decide (num j < num i) || (decide (num j = num i) && decide (j < i))).length
  let ranks := slots.map rank
  (List.range alts.length).filterMap fun i =>
    if num i < 0 then alts[i]?
    else
      let k := (slots.filter fun j => decide (j < i)).length
      ((List.range slots.length).filter fun m => decide (ranks.getD m 0 = k)).head?.bind fun m =>
        slots[m]?.bind (alts[·]?)

/-- A rule whose alternatives are each one segment: the empty ones first, then the others in the order
of their helpers. -/
def abnfSimpleAlts (r : Option Json) : List Seq :=
  let opens := abnfOpen r
  let alts := (abnfUnique (fun (alt : Json) => abnfEntryKey alt) opens).flatMap fun alt =>
    List.replicate (abnfCopies opens alt) (abnfEntryEls alt)
  let bare := (opens.filter fun (alt : Json) => abnfBareEmpty alt).length
  let empties := if (alts.filter List.isEmpty).isEmpty then [] else List.replicate (if bare < 2 then 1 else bare) []
  empties ++ abnfNumberOrder (alts.filter (!·.isEmpty))

/-- The first alternative that is not empty. -/
def abnfFilled (alts : List Seq) : Option Seq := (alts.filter (!·.isEmpty)).head?

/-! ## Chains and dispatchers -/

/-- A step of a chain: one open alternate and at most one close alternate. -/
def abnfChainStep (name : Text) (r : Option Json) : Out (Option Json) :=
  if (abnfOpen r).length = 1 ∧ (abnfClose r).length < 2 then .done r else .refused (.notStep name)

/-- The steps of a chain from a rule on, `left` more of them followed. -/
def abnfChainWalk (cx : Context) (left : Nat) (name : Text) (acc : Seq) : Out Seq :=
  (abnfChainStep name (abnfRule cx name)).bind fun r =>
    let els := acc ++ abnfEntryEls (abnfOpen r).head?
    match (abnfClose r).head? with
    | none => .done els
    | some close =>
      if abnfR close = [] then .done els
      else
        match left with
        | 0 => .refused (.longSequence name)
        | left + 1 => abnfChainWalk cx left (abnfR close) els
termination_by structural left

def abnfChain (cx : Context) (name : Text) : Out Seq := abnfChainWalk cx 200 name []

def abnfHeadName (name : Text) (i : Nat) : Text := name ++ "$alt".toList ++ abnfNum i

/-- A dispatcher's alternatives, the empty one where a number is missing, or last. -/
def abnfDispatchAlts (cx : Context) (name : Text) (r : Option Json) : Out (List Seq) :=
  let opens := abnfOpen r
  let nums := List.range (opens.length + 1)
  let present := nums.filter fun i => abnfHas cx (abnfHeadName name i)
  match present.getLast? with
  | none => .fault
  | some last =>
    let gaps :=
      nums.filter fun (i : Nat) => decide (i < last) && !abnfAmong (abnfNum i) (present.map fun (j : Nat) => abnfNum j)
    let empty := !(opens.filter fun (alt : Json) => (abnfTarget alt).isEmpty).isEmpty
    match gaps.length with
    | 0 => (Run.each (fun i => abnfChain cx (abnfHeadName name i)) present).bind fun alts =>
      .done (alts ++ if empty then [[]] else [])
    | 1 => Run.each (fun i => if abnfHas cx (abnfHeadName name i) then abnfChain cx (abnfHeadName name i) else .done [])
      (nums.filter fun i => !decide (last < i))
    | _ => .refused (.notPlaced name)

def abnfDispatches (name : Text) (r : Option Json) : Bool :=
  !((abnfOpen r).filter fun (alt : Json) => abnfStarts (name ++ "$alt".toList) (abnfTarget alt)).isEmpty

/-- A loop's item: the token its continue alternate consumes, or the rule its iteration pushes. -/
def abnfLoopItem (cx : Context) (name : Text) (r : Option Json) : Out El :=
  match ((abnfOpen r).tail.filter fun (alt : Json) => !(abnfR alt).isEmpty).head? with
  | none => .refused (.repeatsNothing name)
  | some c =>
    if abnfSame (abnfR c) name then
      match abnfConsumed c with
      | [t] => .done (.tok t)
      | _ => .refused (.repeatsTokens name)
    else
      let item := abnfP (abnfOpen (abnfRule cx (abnfR c))).head?
      if item = [] then .refused (.repeatsNothing name) else .done (.ref item)

/-- A tail repeat, `X = prefix [ sep X ]`. -/
def abnfIsTail (name : Text) (r : Option Json) : Bool :=
  (abnfClose r).length == 2 && abnfA (abnfClose r).head? == "@fold$".toList && abnfSame (abnfR (abnfClose r).head?) name

/-- The alternatives of a rule as the spec holds them. -/
def abnfRawAlts (cx : Context) (name : Text) : Out (List Seq) :=
  let r := abnfRule cx name
  if abnfIsTail name r then
    let pre := (abnfConsumed (abnfOpen r).head?).map El.tok
    let sep := (abnfConsumed (abnfClose r).head?).map El.tok
    .done [pre ++ [.tail (sep ++ [.ref name])]]
  else if abnfDispatches name r then abnfDispatchAlts cx name r
  else
    match (abnfClose r).head? with
    | none => .done (abnfSimpleAlts r)
    | some close =>
      if abnfR close = [] then .done (abnfSimpleAlts r)
      else (abnfChain cx name).bind fun seq => .done [seq]

end TabnasAbnf.Render
