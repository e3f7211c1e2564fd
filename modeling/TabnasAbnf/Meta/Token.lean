/-
The tokens of the ABNF meta-grammar and the names its rule tables use: token kinds, rules,
conditions and actions, each under the source's own word.
-/
import TabnasAbnf.Base.Number

namespace TabnasAbnf.Meta

open TabnasAbnf.Base

/-! ## Tokens -/

/-- The kinds of token the meta-grammar names; `ZZ` is the end of the source. -/
inductive Kind
  | TX | PV | DEF | DEFA | ALT | STAR | NUM | NV | SS | SI | ST | LP | RP | OB | CB | ZZ
  deriving DecidableEq, Repr

def Kind.all : List Kind :=
  [.TX, .PV, .DEF, .DEFA, .ALT, .STAR, .NUM, .NV, .SS, .SI, .ST, .LP, .RP, .OB, .CB, .ZZ]

theorem Kind.mem_all (k : Kind) : k ∈ Kind.all := by cases k <;> decide

/-- Text the matcher of `#NV` takes: `%[xdbXDB][0-9a-fA-F]+(?:[-.][0-9a-fA-F]+)*`. -/
def isNumericSource : Text → Bool
  | '%' :: base :: body => base ∈ ['x', 'd', 'b', 'X', 'D', 'B'] &&
      (body.splitOnP fun c => c == '-' || c == '.').all fun part => !part.isEmpty && part.all (isDigit 16)
  | _ => false

abbrev NumericSource := { t : Text // isNumericSource t = true }

/-- A token's kind, with the text an action reads off it: the value of a bareword or a string,
the body of a prose value, the source of a count or a numeric value. -/
inductive Lexeme
  | TX (val : Text)
  | PV (body : Text)
  | DEF | DEFA | ALT | STAR
  | NUM (src : Digits)
  | NV (src : NumericSource)
  | SS | SI
  | ST (val : Text)
  | LP | RP | OB | CB
  deriving DecidableEq, Repr

def Lexeme.kind : Lexeme → Kind
  | .TX _ => .TX | .PV _ => .PV | .DEF => .DEF | .DEFA => .DEFA | .ALT => .ALT | .STAR => .STAR
  | .NUM _ => .NUM | .NV _ => .NV | .SS => .SS | .SI => .SI | .ST _ => .ST
  | .LP => .LP | .RP => .RP | .OB => .OB | .CB => .CB

def Lexeme.text : Lexeme → Text
  | .TX t | .ST t => t
  | .NV n => n.1
  | .PV body => '<' :: (body ++ ['>'])
  | .NUM n => n.1
  | _ => []

/-- A token and where it stands: its offset and length, its row and its column. -/
structure Tok where
  lex : Lexeme
  sI : Nat := 0
  len : Nat := 0
  rI : Nat := 0
  cI : Nat := 0
  deriving DecidableEq, Repr

def Tok.kind (t : Tok) : Kind := t.lex.kind

/-- The text a token carries (`val` of a bareword or a string, `src` of the others). -/
def Tok.text (t : Tok) : Text := t.lex.text

/-- The kind of the token ahead: past the last token lies the end of the source. -/
def kindOf : Option Tok → Kind
  | some t => t.kind
  | none => .ZZ

@[simp] theorem kindOf_none : kindOf none = .ZZ := rfl
@[simp] theorem kindOf_some (t : Tok) : kindOf (some t) = t.kind := rfl

theorem Tok.kind_ne_ZZ (t : Tok) : t.kind ≠ .ZZ := by
  obtain ⟨l, _, _, _, _⟩ := t
  cases l <;> simp [Tok.kind, Lexeme.kind]

/-- The token set `ATOM`: the tokens that can open an atom. -/
def ATOM : List Kind := [.ST, .NV, .TX, .LP, .OB, .SS, .SI, .PV]

/-! ## Source spans -/

structure Span where
  s : Nat
  e : Nat
  r : Nat
  c : Nat
  deriving DecidableEq, Repr

/-- The span of a token. -/
def spanOf (t : Tok) : Span := ⟨t.sI, t.sI + t.len, t.rI, t.cI⟩

/-- One span covering two tokens, or the end that is known. -/
def spanTo : Option Tok → Option Tok → Option Span
  | none, b => b.map spanOf
  | some a, none => some (spanOf a)
  | some a, some b => some ⟨(spanOf a).s, (spanOf b).e, (spanOf a).r, (spanOf a).c⟩

/-! ## The names of the rule tables -/

inductive RuleName
  | abnf | prod | alts | seq | elem | atom
  deriving DecidableEq, Repr

/-- The conditions: which bracket the atom opened. -/
inductive CondRef
  | atomGroupC | atomOptC
  deriving DecidableEq, Repr

/-- The actions, by the names the Go and the Rust table give the closures TypeScript writes in
place. -/
inductive ActRef
  | prodName | prodNameProse | prodNameInc
  | elemRepBounded | elemRepAtleast | elemRepAtmost | elemRepStar | elemRepExact | elemClose
  | atomSs | atomSi | atomSt | atomNv | atomPv | atomTx | atomLp | atomOb
  | atomGroupClose | atomOptClose
  deriving DecidableEq, Repr

/-- The bracket a group atom opened. -/
inductive GroupKind
  | group | opt
  deriving DecidableEq, Repr

end TabnasAbnf.Meta
