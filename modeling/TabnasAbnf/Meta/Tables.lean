/-
The rule table of the ABNF meta-grammar, three times: `abnfRules` of the TypeScript front end,
`AbnfRules` of the Go port and the document `GRAMMAR_TEXT` of the Rust port. Every alternate
stands where its source has it; the groups (`g`) only name alternates and are left out.
-/
import TabnasAbnf.Engine.Machine
import TabnasAbnf.Meta.Token

namespace TabnasAbnf.Meta

open TabnasAbnf.Engine

abbrev MetaAlt := Alt Kind RuleName CondRef ActRef

abbrev MetaRule := RuleSpec Kind RuleName CondRef ActRef

/-! ## TypeScript -/

namespace Ts

def abnfRules : RuleName → MetaRule
  | .abnf =>
    { opens := [{ s := [[.ZZ]] }, { p := some .prod }]
      closes := [{ s := [[.ZZ]] }] }
  | .prod =>
    { opens := [
        { s := [[.TX], [.DEF]], a := some .prodName, p := some .alts },
        { s := [[.PV], [.DEF]], a := some .prodNameProse, p := some .alts },
        { s := [[.TX], [.DEFA]], a := some .prodNameInc, p := some .alts }]
      closes := [
        { s := [[.TX], [.DEF]], b := 2, r := some .prod },
        { s := [[.TX], [.DEFA]], b := 2, r := some .prod },
        { s := [[.PV], [.DEF]], b := 2, r := some .prod },
        { b := 1 }] }
  | .alts =>
    { opens := [{ p := some .seq }]
      closes := [{ s := [[.ALT]], p := some .seq }, { b := 1 }] }
  | .seq =>
    { opens := [
        { s := [[.TX], [.DEF]], b := 2 },
        { s := [[.TX], [.DEFA]], b := 2 },
        { s := [[.TX], [.NUM]], b := 2, p := some .elem },
        { s := [[.TX], ATOM], b := 2, p := some .elem },
        { s := [[.PV], [.DEF]], b := 2 },
        { s := [[.ALT]], b := 1 },
        { s := [[.ZZ]], b := 1 },
        { s := [[.RP]], b := 1 },
        { s := [[.CB]], b := 1 },
        { s := [[.ST]], b := 1, p := some .elem },
        { s := [[.NV]], b := 1, p := some .elem },
        { s := [[.SS]], b := 1, p := some .elem },
        { s := [[.SI]], b := 1, p := some .elem },
        { s := [[.PV]], b := 1, p := some .elem },
        { s := [[.TX]], b := 1, p := some .elem },
        { s := [[.LP]], b := 1, p := some .elem },
        { s := [[.OB]], b := 1, p := some .elem },
        { s := [[.STAR]], b := 1, p := some .elem },
        { s := [[.NUM]], b := 1, p := some .elem },
        { p := some .elem }]
      closes := [
        { s := [[.TX], [.DEF]], b := 2 },
        { s := [[.TX], [.DEFA]], b := 2 },
        { s := [[.PV], [.DEF]], b := 2 },
        { s := [[.TX], [.NUM]], b := 2, p := some .elem },
        { s := [[.TX], ATOM], b := 2, p := some .elem },
        { s := [[.ALT]], b := 1 },
        { s := [[.ZZ]], b := 1 },
        { s := [[.RP]], b := 1 },
        { s := [[.CB]], b := 1 },
        { s := [[.ST]], b := 1, p := some .elem },
        { s := [[.NV]], b := 1, p := some .elem },
        { s := [[.SS]], b := 1, p := some .elem },
        { s := [[.SI]], b := 1, p := some .elem },
        { s := [[.PV]], b := 1, p := some .elem },
        { s := [[.TX]], b := 1, p := some .elem },
        { s := [[.LP]], b := 1, p := some .elem },
        { s := [[.OB]], b := 1, p := some .elem },
        { s := [[.STAR]], b := 1, p := some .elem },
        { s := [[.NUM]], b := 1, p := some .elem },
        { b := 1 }] }
  | .elem =>
    { opens := [
        { s := [[.NUM], [.STAR], [.NUM], ATOM], b := 1, a := some .elemRepBounded, p := some .atom },
        { s := [[.NUM], [.STAR], ATOM], b := 1, a := some .elemRepAtleast, p := some .atom },
        { s := [[.STAR], [.NUM], ATOM], b := 1, a := some .elemRepAtmost, p := some .atom },
        { s := [[.STAR], ATOM], b := 1, a := some .elemRepStar, p := some .atom },
        { s := [[.NUM], ATOM], b := 1, a := some .elemRepExact, p := some .atom },
        { p := some .atom }]
      closes := [{ a := some .elemClose }] }
  | .atom =>
    { opens := [
        { s := [[.SS], [.ST]], a := some .atomSs },
        { s := [[.SI], [.ST]], a := some .atomSi },
        { s := [[.ST]], a := some .atomSt },
        { s := [[.NV]], a := some .atomNv },
        { s := [[.PV]], a := some .atomPv },
        { s := [[.TX]], a := some .atomTx },
        { s := [[.LP]], a := some .atomLp, p := some .alts },
        { s := [[.OB]], a := some .atomOb, p := some .alts }]
      closes := [
        { s := [[.RP]], c := some .atomGroupC, a := some .atomGroupClose },
        { s := [[.CB]], c := some .atomOptC, a := some .atomOptClose },
        { s := [[.TX]], b := 1 },
        { s := [[.ST]], b := 1 },
        { s := [[.NV]], b := 1 },
        { s := [[.SS]], b := 1 },
        { s := [[.SI]], b := 1 },
        { s := [[.PV]], b := 1 },
        { s := [[.NUM]], b := 1 },
        { s := [[.STAR]], b := 1 },
        { s := [[.LP]], b := 1 },
        { s := [[.OB]], b := 1 },
        { s := [[.RP]], b := 1 },
        { s := [[.CB]], b := 1 },
        { s := [[.ALT]], b := 1 },
        { s := [[.DEF]], b := 1 },
        { s := [[.ZZ]], b := 1 },
        { b := 1 }] }

end Ts

/-! ## Go -/

namespace Go

/-- The alternates `seq` opens and closes with, in one list. -/
def seqElemAlts : List MetaAlt := [
  { s := [[.TX], [.DEF]], b := 2 },
  { s := [[.TX], [.DEFA]], b := 2 },
  { s := [[.TX], [.NUM]], b := 2, p := some .elem },
  { s := [[.TX], ATOM], b := 2, p := some .elem },
  { s := [[.PV], [.DEF]], b := 2 },
  { s := [[.ALT]], b := 1 },
  { s := [[.ZZ]], b := 1 },
  { s := [[.RP]], b := 1 },
  { s := [[.CB]], b := 1 },
  { s := [[.ST]], b := 1, p := some .elem },
  { s := [[.NV]], b := 1, p := some .elem },
  { s := [[.SS]], b := 1, p := some .elem },
  { s := [[.SI]], b := 1, p := some .elem },
  { s := [[.PV]], b := 1, p := some .elem },
  { s := [[.TX]], b := 1, p := some .elem },
  { s := [[.LP]], b := 1, p := some .elem },
  { s := [[.OB]], b := 1, p := some .elem },
  { s := [[.STAR]], b := 1, p := some .elem },
  { s := [[.NUM]], b := 1, p := some .elem }]

def AbnfRules : RuleName → MetaRule
  | .abnf =>
    { opens := [{ s := [[.ZZ]] }, { p := some .prod }]
      closes := [{ s := [[.ZZ]] }] }
  | .prod =>
    { opens := [
        { s := [[.TX], [.DEF]], a := some .prodName, p := some .alts },
        { s := [[.PV], [.DEF]], a := some .prodNameProse, p := some .alts },
        { s := [[.TX], [.DEFA]], a := some .prodNameInc, p := some .alts }]
      closes := [
        { s := [[.TX], [.DEF]], b := 2, r := some .prod },
        { s := [[.TX], [.DEFA]], b := 2, r := some .prod },
        { s := [[.PV], [.DEF]], b := 2, r := some .prod },
        { b := 1 }] }
  | .alts =>
    { opens := [{ p := some .seq }]
      closes := [{ s := [[.ALT]], p := some .seq }, { b := 1 }] }
  | .seq =>
    { opens := seqElemAlts ++ [{ p := some .elem }]
      closes := seqElemAlts ++ [{ b := 1 }] }
  | .elem =>
    { opens := [
        { s := [[.NUM], [.STAR], [.NUM], ATOM], b := 1, a := some .elemRepBounded, p := some .atom },
        { s := [[.NUM], [.STAR], ATOM], b := 1, a := some .elemRepAtleast, p := some .atom },
        { s := [[.STAR], [.NUM], ATOM], b := 1, a := some .elemRepAtmost, p := some .atom },
        { s := [[.STAR], ATOM], b := 1, a := some .elemRepStar, p := some .atom },
        { s := [[.NUM], ATOM], b := 1, a := some .elemRepExact, p := some .atom },
        { p := some .atom }]
      closes := [{ a := some .elemClose }] }
  | .atom =>
    { opens := [
        { s := [[.SS], [.ST]], a := some .atomSs },
        { s := [[.SI], [.ST]], a := some .atomSi },
        { s := [[.ST]], a := some .atomSt },
        { s := [[.NV]], a := some .atomNv },
        { s := [[.PV]], a := some .atomPv },
        { s := [[.TX]], a := some .atomTx },
        { s := [[.LP]], a := some .atomLp, p := some .alts },
        { s := [[.OB]], a := some .atomOb, p := some .alts }]
      closes := [
        { s := [[.RP]], c := some .atomGroupC, a := some .atomGroupClose },
        { s := [[.CB]], c := some .atomOptC, a := some .atomOptClose },
        { s := [[.TX]], b := 1 },
        { s := [[.ST]], b := 1 },
        { s := [[.NV]], b := 1 },
        { s := [[.SS]], b := 1 },
        { s := [[.SI]], b := 1 },
        { s := [[.PV]], b := 1 },
        { s := [[.NUM]], b := 1 },
        { s := [[.STAR]], b := 1 },
        { s := [[.LP]], b := 1 },
        { s := [[.OB]], b := 1 },
        { s := [[.RP]], b := 1 },
        { s := [[.CB]], b := 1 },
        { s := [[.ALT]], b := 1 },
        { s := [[.DEF]], b := 1 },
        { s := [[.ZZ]], b := 1 },
        { b := 1 }] }

end Go

/-! ## Rust -/

namespace Rust

def GRAMMAR_TEXT : RuleName → MetaRule
  | .abnf =>
    { opens := [{ s := [[.ZZ]] }, { p := some .prod }]
      closes := [{ s := [[.ZZ]] }] }
  | .prod =>
    { opens := [
        { s := [[.TX], [.DEF]], a := some .prodName, p := some .alts },
        { s := [[.PV], [.DEF]], a := some .prodNameProse, p := some .alts },
        { s := [[.TX], [.DEFA]], a := some .prodNameInc, p := some .alts }]
      closes := [
        { s := [[.TX], [.DEF]], b := 2, r := some .prod },
        { s := [[.TX], [.DEFA]], b := 2, r := some .prod },
        { s := [[.PV], [.DEF]], b := 2, r := some .prod },
        { b := 1 }] }
  | .alts =>
    { opens := [{ p := some .seq }]
      closes := [{ s := [[.ALT]], p := some .seq }, { b := 1 }] }
  | .seq =>
    { opens := [
        { s := [[.TX], [.DEF]], b := 2 },
        { s := [[.TX], [.DEFA]], b := 2 },
        { s := [[.TX], [.NUM]], b := 2, p := some .elem },
        { s := [[.TX], ATOM], b := 2, p := some .elem },
        { s := [[.PV], [.DEF]], b := 2 },
        { s := [[.ALT]], b := 1 },
        { s := [[.ZZ]], b := 1 },
        { s := [[.RP]], b := 1 },
        { s := [[.CB]], b := 1 },
        { s := [[.ST]], b := 1, p := some .elem },
        { s := [[.NV]], b := 1, p := some .elem },
        { s := [[.SS]], b := 1, p := some .elem },
        { s := [[.SI]], b := 1, p := some .elem },
        { s := [[.PV]], b := 1, p := some .elem },
        { s := [[.TX]], b := 1, p := some .elem },
        { s := [[.LP]], b := 1, p := some .elem },
        { s := [[.OB]], b := 1, p := some .elem },
        { s := [[.STAR]], b := 1, p := some .elem },
        { s := [[.NUM]], b := 1, p := some .elem },
        { p := some .elem }]
      closes := [
        { s := [[.TX], [.DEF]], b := 2 },
        { s := [[.TX], [.DEFA]], b := 2 },
        { s := [[.PV], [.DEF]], b := 2 },
        { s := [[.TX], [.NUM]], b := 2, p := some .elem },
        { s := [[.TX], ATOM], b := 2, p := some .elem },
        { s := [[.ALT]], b := 1 },
        { s := [[.ZZ]], b := 1 },
        { s := [[.RP]], b := 1 },
        { s := [[.CB]], b := 1 },
        { s := [[.ST]], b := 1, p := some .elem },
        { s := [[.NV]], b := 1, p := some .elem },
        { s := [[.SS]], b := 1, p := some .elem },
        { s := [[.SI]], b := 1, p := some .elem },
        { s := [[.PV]], b := 1, p := some .elem },
        { s := [[.TX]], b := 1, p := some .elem },
        { s := [[.LP]], b := 1, p := some .elem },
        { s := [[.OB]], b := 1, p := some .elem },
        { s := [[.STAR]], b := 1, p := some .elem },
        { s := [[.NUM]], b := 1, p := some .elem },
        { b := 1 }] }
  | .elem =>
    { opens := [
        { s := [[.NUM], [.STAR], [.NUM], ATOM], b := 1, a := some .elemRepBounded, p := some .atom },
        { s := [[.NUM], [.STAR], ATOM], b := 1, a := some .elemRepAtleast, p := some .atom },
        { s := [[.STAR], [.NUM], ATOM], b := 1, a := some .elemRepAtmost, p := some .atom },
        { s := [[.STAR], ATOM], b := 1, a := some .elemRepStar, p := some .atom },
        { s := [[.NUM], ATOM], b := 1, a := some .elemRepExact, p := some .atom },
        { p := some .atom }]
      closes := [{ a := some .elemClose }] }
  | .atom =>
    { opens := [
        { s := [[.SS], [.ST]], a := some .atomSs },
        { s := [[.SI], [.ST]], a := some .atomSi },
        { s := [[.ST]], a := some .atomSt },
        { s := [[.NV]], a := some .atomNv },
        { s := [[.PV]], a := some .atomPv },
        { s := [[.TX]], a := some .atomTx },
        { s := [[.LP]], a := some .atomLp, p := some .alts },
        { s := [[.OB]], a := some .atomOb, p := some .alts }]
      closes := [
        { s := [[.RP]], c := some .atomGroupC, a := some .atomGroupClose },
        { s := [[.CB]], c := some .atomOptC, a := some .atomOptClose },
        { s := [[.TX]], b := 1 },
        { s := [[.ST]], b := 1 },
        { s := [[.NV]], b := 1 },
        { s := [[.SS]], b := 1 },
        { s := [[.SI]], b := 1 },
        { s := [[.PV]], b := 1 },
        { s := [[.NUM]], b := 1 },
        { s := [[.STAR]], b := 1 },
        { s := [[.LP]], b := 1 },
        { s := [[.OB]], b := 1 },
        { s := [[.RP]], b := 1 },
        { s := [[.CB]], b := 1 },
        { s := [[.ALT]], b := 1 },
        { s := [[.DEF]], b := 1 },
        { s := [[.ZZ]], b := 1 },
        { b := 1 }] }

end Rust

end TabnasAbnf.Meta
