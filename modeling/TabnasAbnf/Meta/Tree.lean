/-
What the rule table reads, as a tree over the tokens themselves: a production with its head, an
element with its repeat, an atom with its brackets. An atom whose bracket was never closed is a
`hole`; what stood inside it is gone.
-/
import TabnasAbnf.Meta.Token

namespace TabnasAbnf.Meta

open TabnasAbnf.Base

/-! ## Trees -/

/-- The repeat before an atom, with the counts it holds. -/
inductive Reps
  | once
  | bounded (n m : Tok)
  | atleast (n : Tok)
  | atmost (m : Tok)
  | star
  | exact (n : Tok)
  deriving DecidableEq

/-- An atom without brackets. -/
inductive Leaf
  | ss (p t : Tok)
  | si (p t : Tok)
  | st (t : Tok)
  | nv (t : Tok)
  | pv (t : Tok)
  | tx (t : Tok)
  deriving DecidableEq

inductive CAtom
  | leaf (l : Leaf)
  | group (k : GroupKind) (op cl : Tok) (alts : List (List (Reps × CAtom)))
  | hole

abbrev CElem := Reps × CAtom
abbrev CSeq := List CElem
abbrev CAlts := List CSeq

/-- The three heads of a production: `IDENT =`, `PROSE =` and `IDENT =/`. -/
inductive HeadKind
  | plain | prose | inc
  deriving DecidableEq, Repr

structure CProd where
  head : HeadKind
  name : Tok
  alts : CAlts

/-! ## Trees without holes -/

mutual

def CAtom.whole : CAtom → Bool
  | .leaf _ => true
  | .group _ _ _ as => wholeAlts as
  | .hole => false

def wholeSeq : CSeq → Bool
  | [] => true
  | (_, a) :: es => a.whole && wholeSeq es

def wholeAlts : CAlts → Bool
  | [] => true
  | s :: as => wholeSeq s && wholeAlts as

end

def CProd.whole (p : CProd) : Bool := wholeAlts p.alts

end TabnasAbnf.Meta
