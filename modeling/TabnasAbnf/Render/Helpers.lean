/-
The helpers a compiler makes, read back: which rules are its own and of what kind, a rule's alternatives
with the factored tails expanded, what a repetition counts, and an element's structure as one text.
-/
import TabnasAbnf.Render.Spec

namespace TabnasAbnf.Render

open TabnasAbnf.Base

/-! ## Which rules the compiler made -/

/-- The kind of helper a name gives, or none. -/
def abnfGenKind (name : Text) : Text :=
  if abnfStarts "_gen".toList name then
    match split ['_'] (abnfAfter "_gen".toList name) with
    | n :: kind :: _ =>
      if abnfDigits n && abnfAmong kind ["star".toList, "plus".toList, "opt".toList, "rep".toList, "group".toList] then
        kind
      else []
    | _ => []
  else []

def abnfSplitFits (k p : Text) : Bool :=
  abnfStarts k p &&
    (if abnfAfter k p = [] then abnfAmong k ["probe".toList, "with".toList, "no".toList] else
      abnfDigits (abnfAfter k p))

def abnfSplitPart (p : Text) : Bool :=
  !(["alt".toList, "step".toList, "fact".toList, "pd".toList, "probe".toList, "with".toList, "no".toList].filter
    (abnfSplitFits · p)).isEmpty

/-- Whether a name is one the compiler gives a rule it splits off another. -/
def abnfSplitName (name : Text) : Bool := ((split ['$'] name).tail.filter (!abnfSplitPart ·)).isEmpty

/-- Whether a record is one key with one of the numbers. -/
def abnfLoopValue (rec : Option Json) (key : Text) (allowed : List Int) : Bool :=
  match rec with
  | some (.obj [(only, v)]) =>
    abnfSame only key &&
      match v with
      | .num n => !(allowed.filter (· = n)).isEmpty
      | _ => false
  | _ => false

def abnfLoopEntry (name : Text) (alt : Option Json) : Bool :=
  abnfSame (abnfR alt) name && abnfLoopValue (get ['c'] alt) "n.rep".toList [0]

/-- The kind of helper an element references by name. -/
def abnfHelperRef : Option El → Text
  | some (.ref name) => abnfGenKind name
  | _ => []

/-- A token or a reference by its name. -/
def abnfElName : El → Text
  | .tok name => '#' :: name
  | .ref name => '@' :: name
  | _ => []

def abnfPlusShape (alts : List Seq) : Bool :=
  match alts with
  | [seq] => seq.length == 2 && abnfSame (abnfHelperRef seq[1]?) "star".toList
  | _ => false

def abnfOptShape (alts : List Seq) : Bool :=
  let counts := alts.map fun seq => abnfNum seq.length
  alts.length == 2 && abnfAmong ['0'] counts && abnfAmong ['1'] counts

def abnfRepShape (alts : List Seq) : Bool :=
  match alts with
  | [seq] =>
    let lead := if abnfAmong (abnfHelperRef seq.getLast?) ["star".toList, "opt".toList] then seq.dropLast else seq
    let keys := lead.map abnfElName
    seq.isEmpty || (keys.filter fun key => key.isEmpty || !abnfSame key (keys.headD [])).isEmpty
  | _ => false

/-- Whether a rule named as a helper has the shape the compiler gives that kind. -/
def abnfHelperShape (cx : Context) (name kind : Text) : Out Bool :=
  if kind = "group".toList then .done true
  else if kind = "star".toList then
    .done (!((abnfOpen (abnfRule cx name)).filter fun (alt : Json) => abnfLoopEntry name alt).isEmpty)
  else (abnfRawAlts cx name).bind fun alts =>
    .done (if kind = "plus".toList then abnfPlusShape alts else if kind = "opt".toList then abnfOptShape alts
      else abnfRepShape alts)

/-- A close alternate that matches the end of the source and goes nowhere. -/
def abnfWrapperEnd (alt : Option Json) : Bool :=
  abnfSame (stringJoin [' '] (abnfS alt)) "#ZZ".toList && (abnfTarget alt).isEmpty

/-- The start wrapper: one open alternate that consumes nothing and pushes a rule, closed by the end of
the source. -/
def abnfWrapper (r : Option Json) : Bool :=
  match abnfOpen r with
  | [a] => (abnfS a).isEmpty && !(abnfP a).isEmpty && !(abnfClose r).isEmpty &&
      ((abnfClose r).filter fun (alt : Json) => !abnfWrapperEnd alt).isEmpty
  | _ => false

/-- Whether the compiler made the rule: provenance names every rule it did, and without one the names do. -/
def abnfMade (cx : Context) (name : Text) : Out Bool :=
  match cx.prov with
  | some (.obj fields) => .done ((fields.lookup name).any Json.isString)
  | _ =>
    if !(split ['$'] name).tail.isEmpty then .done (abnfSplitName name)
    else if abnfGenKind name = [] then .done (abnfSame name cx.start && abnfWrapper (abnfRule cx name))
    else abnfHelperShape cx name (abnfGenKind name)

/-- The kind the tree builders give a rule: `user`, or `core` for one added. -/
def abnfKind (r : Option Json) : Text :=
  match (abnfOpen r).head? with
  | none => "user".toList
  | some alt =>
    if abnfStr (getPath ["k".toList, "node$".toList, "kind".toList] alt) = "core".toList then "core".toList
      else "user".toList

/-! ## The kind of a helper -/

def abnfBeforeDigits (p : Text) : Text :=
  if abnfStarts "fact".toList p && abnfDigits (abnfAfter "fact".toList p) then "fact".toList else p

/-- The kind of a helper the compiler named, empty for a rule of the author's. Of a helper whose name
gives a number and no kind there is none. -/
def abnfHelperKind (cx : Context) (name : Text) : Out (Option Text) :=
  (abnfMade cx name).bind fun made =>
    if !made then .done (some [])
    else if abnfStarts "_gen".toList name then
      let parts := split ['_'] (abnfAfter "_gen".toList name)
      .done (if abnfDigits (parts.headD []) then parts[1]? else some [])
    else
      .done
        (some (if abnfAmong "fact".toList ((split ['$'] name).tail.map abnfBeforeDigits) then "fact".toList else []))

/-! ## A rule's alternatives -/

/-- The rule an alternative's last element references, if it is a factored tail. -/
def lastFact (cx : Context) (alt : Seq) : Out (Option Text) :=
  match alt.getLast? with
  | some (.ref name) => (abnfHelperKind cx name).bind fun kind =>
    .done (if kind = some "fact".toList then some name else none)
  | _ => .done none

/-- One step of the expansion: an alternative that ends in a factored tail is the prefix before it
followed by each of the tail's alternatives. -/
def expandBody (cx : Context) (self : Seq → Out (List Seq)) (alt : Seq) : Out (List Seq) :=
  (lastFact cx alt).bind fun fact =>
    match fact with
    | some name => (abnfRawAlts cx name).bind fun tails =>
      (Run.each (fun tail => self (alt.dropLast ++ tail)) tails).bind fun alts => .done alts.flatten
    | none => .done [alt]

def abnfExpand (cx : Context) : Nat → Seq → Out (List Seq) := iterate fun _ => expandBody cx

/-- Whether a sequence ends in a rule's own factored tail. -/
def abnfOwnedFact (cx : Context) (name : Text) (seq : Seq) : Out Bool :=
  (lastFact cx seq).bind fun fact => .done (fact.any (abnfStarts (name ++ "$fact".toList)))

/-- The alternative that is one group whose sequence ends in the rule's own factored tail, as the groups
it was. -/
def abnfSplitGroup (cx : Context) (fuel : Nat) (name : Text) (alt : Seq) : Out (List Seq) :=
  match alt with
  | [.ref helper] => (abnfHelperKind cx helper).bind fun kind =>
    if kind = some "group".toList then
      (abnfRawAlts cx helper).bind fun inner =>
        match inner with
        | [seq] => (abnfOwnedFact cx name seq).bind fun owned =>
          if owned then (abnfExpand cx fuel seq).bind fun ones => .done (ones.map fun one => [.grp one])
          else .done [alt]
        | _ => .done [alt]
    else .done [alt]
  | _ => .done [alt]

/-- A rule's alternatives. -/
def abnfAlts (cx : Context) (fuel : Nat) (name : Text) : Out (List Seq) :=
  (abnfRawAlts cx name).bind fun raw =>
    (Run.each (abnfExpand cx fuel) raw).bind fun expanded =>
      (Run.each (abnfSplitGroup cx fuel name) expanded.flatten).bind fun alts => .done alts.flatten

/-! ## Repetitions and options -/

def abnfGenNumber (name : Text) : Nat := ofDigits 10 ((split ['_'] (abnfAfter "_gen".toList name)).headD [])

def abnfEven (j : Nat) : Bool :=
  !([['0'], ['2'], ['4'], ['6'], ['8']].filter (abnfEnds · (abnfNum j))).isEmpty

/-- What a repetition counts: the item, how many at least, how many at most, empty for no bound. -/
structure RepParts where
  item : El
  min : Nat
  max : Text

/-- The item of nested options and how deep they go. -/
def abnfRepChain (cx : Context) (rep opt : Text) : Out (El × Nat) :=
  let n := abnfGenNumber rep
  let inner := "_gen".toList ++ abnfNum n ++ "_group".toList
  if abnfHas cx inner then
    (abnfRawAlts cx inner).bind fun alts =>
      match alts.head? with
      | some [item] =>
        let span := ((List.range (abnfGenNumber opt + 1)).filter fun j => !decide (j < n)).length
        .done (item, ((List.range span).filter abnfEven).length)
      | some _ => .refused (.notNumbered rep)
      | none => .fault
  else .refused (.notNumbered rep)

/-- The name an element gives, empty for one without a name. -/
def El.name : El → Text
  | .tok name | .ref name => name
  | _ => []

def abnfRepParts (cx : Context) (name : Text) : Out RepParts :=
  (abnfRawAlts cx name).bind fun raw => (Run.ofOption raw.head?).bind fun seq =>
    match seq.getLast? with
    | none => .refused (.noTimes name)
    | some last =>
      let lead := seq.dropLast
      (abnfHelperKind cx last.name).bind fun kind =>
        if kind = some "star".toList then
          (abnfLoopItem cx last.name (abnfRule cx last.name)).bind fun item => .done ⟨item, lead.length, []⟩
        else if kind = some "opt".toList then
          (abnfRepChain cx name last.name).bind fun chain =>
            .done ⟨chain.1, lead.length, abnfNum (lead.length + chain.2 : Nat)⟩
        else .done ⟨seq.headD last, seq.length, abnfNum seq.length⟩

/-- Whether an option is over a group. -/
def abnfOptGroup (cx : Context) (name : Text) : Out Bool :=
  (abnfRawAlts cx name).bind fun alts =>
    match (abnfFilled alts).bind List.head? with
    | some (.ref inner) => (abnfHelperKind cx inner).bind fun kind => .done (kind = some "group".toList)
    | _ => .done false

/-! ## Keys -/

/-- The sequence's keys, with a space between them. -/
def keySeq (self : El → Out Text) (seq : Seq) : Out Text :=
  (Run.each self seq).bind fun ks => .done (stringJoin [' '] ks)

/-- One step of the key of an element: a helper by what it compiles. -/
def keyBody (cx : Context) (fuel : Nat) (self : El → Out Text) (el : El) : Out Text :=
  match el with
  | .tok name => .done name
  | .tail _ => .done "[tail]".toList
  | .grp seq => (keySeq self seq).bind fun ks => .done ("group(".toList ++ ks ++ [')'])
  | .ref name => (abnfHelperKind cx name).bind fun kind =>
    if kind = some [] then .done ('@' :: name)
    else if kind = some "star".toList then
      (abnfLoopItem cx name (abnfRule cx name)).bind fun item =>
        (self item).bind fun k => .done ("*(".toList ++ k ++ [')'])
    else if kind = some "rep".toList then
      (abnfRepParts cx name).bind fun parts => (self parts.item).bind fun k =>
        .done ("rep(".toList ++ abnfNum parts.min ++ [','] ++ parts.max ++ [','] ++ k ++ [')'])
    else (abnfAlts cx fuel name).bind fun alts => (Run.each (keySeq self) alts).bind fun ks =>
      (Run.ofOption kind).bind fun kind => .done (kind ++ ['('] ++ stringJoin ['|'] ks ++ [')'])

/-- An element's structure as one text. -/
def abnfKey (cx : Context) : Nat → El → Out Text := iterate fun fuel => keyBody cx fuel

def abnfSeqKeys (cx : Context) (fuel : Nat) (seq : Seq) : Out (List Text) := Run.each (abnfKey cx fuel) seq

end TabnasAbnf.Render
