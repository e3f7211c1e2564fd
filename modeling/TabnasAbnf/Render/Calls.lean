/-
The calls that the render makes by the name of a rule: expanding an alternative that ends in a factored tail, reading a
rule's alternatives, an element's key, and the text. A call comes to an end where no endless chain of calls starts from
it; of several calls in a row the next is made only when those before it have come to a value.
-/
import TabnasAbnf.Render.File

namespace TabnasAbnf.Render

open TabnasAbnf.Base Relation

/-! ## The readers that follow no helper -/

section

variable {cx : Context} {name : Text}

theorem ends_chainWalk {left : Nat} {acc : Seq} : (abnfChainWalk cx left name acc).Ends := by
  have hstep : ∀ name, (abnfChainStep name (abnfRule cx name)).Ends := by
    intro name
    exact .ite (Run.ends_done _) (Run.ends_refused _)
  induction left generalizing name acc with
  | zero =>
    unfold abnfChainWalk
    refine (hstep name).bind fun r _ => ?_
    split
    · exact Run.ends_done _
    · exact .ite (Run.ends_done _) (Run.ends_refused _)
  | succ left ih =>
    unfold abnfChainWalk
    refine (hstep name).bind fun r _ => ?_
    split
    · exact Run.ends_done _
    · exact .ite (Run.ends_done _) ih

theorem ends_rawAlts : (abnfRawAlts cx name).Ends := by
  unfold abnfRawAlts
  simp only
  split
  · exact Run.ends_done _
  · split
    · unfold abnfDispatchAlts
      simp only
      split
      · exact Run.ends_fault
      · split
        · exact (Run.Ends.each fun i _ => ends_chainWalk).bind fun _ _ => Run.ends_done _
        · exact Run.Ends.each fun i _ => .ite ends_chainWalk (Run.ends_done _)
        · exact Run.ends_refused _
    · split
      · exact Run.ends_done _
      · exact .ite (Run.ends_done _) (Run.Ends.bind ends_chainWalk fun _ _ => Run.ends_done _)

theorem ends_made : (abnfMade cx name).Ends := by
  unfold abnfMade
  split
  · exact Run.ends_done _
  · refine .ite (Run.ends_done _) (.ite (Run.ends_done _) ?_)
    unfold abnfHelperShape
    exact .ite (Run.ends_done _) (.ite (Run.ends_done _) (ends_rawAlts.bind fun _ _ => Run.ends_done _))

theorem ends_helperKind : (abnfHelperKind cx name).Ends := by
  exact ends_made.bind fun made _ => .ite (Run.ends_done _) (.ite (Run.ends_done _) (Run.ends_done _))

theorem ends_lastFact {alt : Seq} : (lastFact cx alt).Ends := by
  unfold lastFact
  split
  · exact ends_helperKind.bind fun _ _ => Run.ends_done _
  · exact Run.ends_done _

theorem ends_loopItem {r : Option Json} : (abnfLoopItem cx name r).Ends := by
  unfold abnfLoopItem
  split
  · exact Run.ends_refused _
  · split
    · split
      · exact Run.ends_done _
      · exact Run.ends_refused _
    · exact .ite (Run.ends_refused _) (Run.ends_done _)

theorem ends_repParts : (abnfRepParts cx name).Ends := by
  refine ends_rawAlts.bind fun raw _ => (Run.ends_ofOption _).bind fun seq _ => ?_
  split
  · exact Run.ends_refused _
  · refine ends_helperKind.bind fun kind _ => ?_
    split
    · exact ends_loopItem.bind fun _ _ => Run.ends_done _
    · split
      · refine Run.Ends.bind ?_ fun _ _ => Run.ends_done _
        unfold abnfRepChain
        simp only
        split
        · refine ends_rawAlts.bind fun alts _ => ?_
          split
          · exact Run.ends_done _
          · exact Run.ends_refused _
          · exact Run.ends_fault
        · exact Run.ends_refused _
      · exact Run.ends_done _

theorem ends_optGroup : (abnfOptGroup cx name).Ends := by
  refine ends_rawAlts.bind fun alts _ => ?_
  split
  · exact ends_helperKind.bind fun _ _ => Run.ends_done _
  · exact Run.ends_done _

theorem ends_setToken {t : Text} : (abnfSetToken t).Ends := by
  unfold abnfSetToken
  simp only
  split
  · exact Run.ends_done _
  · exact (Run.ends_ofOption _).bind fun members _ => .ite (Run.ends_done _) (Run.ends_refused _)

theorem ends_token {t : Text} : (abnfToken cx t).Ends := by
  unfold abnfToken
  split
  · exact Run.ends_done _
  · unfold abnfMatchToken
    simp only
    refine .ite (.ite ?_ ?_) (Run.ends_refused _)
    · exact .ite (.ite (Run.ends_done _) (Run.ends_refused _)) (Run.ends_refused _)
    · exact .ite (.ite (Run.ends_done _) (Run.ends_refused _)) (Run.ends_refused _)
  · exact ends_setToken.bind fun _ _ => Run.ends_done _
  · exact .ite (Run.ends_done _) (Run.ends_refused _)

theorem ends_litText {text : Text} {cs : Bool} : (litText text cs).Ends := by
  unfold litText
  split
  · exact Run.ends_done _
  · exact Run.ends_refused _

theorem ends_tokenText {lifted : List Text} {t : Text} : (abnfTokenText cx lifted t).Ends := by
  unfold abnfTokenText
  split
  · exact Run.ends_done _
  · refine ends_token.bind fun info _ => ?_
    split
    · exact ends_litText
    · split
      · exact Run.ends_done _
      · exact Run.ends_refused _
    · exact Run.ends_done _

theorem ends_refText : (abnfRefText name).Ends := .ite (Run.ends_done _) (Run.ends_refused _)

end

/-! ## Calls -/

/-- What the render calls by a rule's name, or with what it has read there. -/
inductive Call
  | expand (alt : Seq)
  | alts (name : Text)
  | key (el : El)
  | text (node : Node)

section

variable (cx : Context) (lifted : List Text)

/-- With this fuel the call is not cut short. -/
def Call.Ends (k : Nat) : Call → Prop
  | .expand alt => (abnfExpand cx k alt).Ends
  | .alts name => (abnfAlts cx k name).Ends
  | .key el => (abnfKey cx k el).Ends
  | .text node => (abnfText cx lifted k node).Ends

def Call.Settles : Call → Prop
  | .expand alt => Base.Settles fun k => abnfExpand cx k alt
  | .alts name => Base.Settles fun k => abnfAlts cx k name
  | .key el => Base.Settles fun k => abnfKey cx k el
  | .text node => Base.Settles fun k => abnfText cx lifted k node

/-- The kinds whose key is made of their alternatives. -/
def KeyedByAlts (kind : Option Text) : Prop := kind ≠ some [] ∧ kind ≠ some "star".toList ∧ kind ≠ some "rep".toList

/-- The kinds whose text is made of their alternatives. -/
def SpeltByAlts (kind : Option Text) : Prop :=
  kind = some "plus".toList ∨ kind = some "opt".toList ∨ kind = some "group".toList

/-- An element that a repetition applies to is written as an element, but for a token. -/
def Atomic : El → Prop
  | .tok _ => False
  | .tail _ | .grp _ => True
  | .ref n => ∃ kind, abnfHelperKind cx n = .done kind ∧
    (kind ≠ some "group".toList → kind = some "opt".toList → ∃ group, abnfOptGroup cx n = .done group)

/-- A call makes another, once the calls that it makes before that one have come to a value. -/
inductive Enters : Call → Call → Prop
  /-- `abnf-expand`: each alternative of the factored tail takes the tail's place. -/
  | tail {alt n tails tail} : lastFact cx alt = .done (some n) → abnfRawAlts cx n = .done tails →
    InTurn (fun t => Gives fun k => abnfExpand cx k (alt.dropLast ++ t)) tails tail →
    Enters (.expand alt) (.expand (alt.dropLast ++ tail))
  /-- `abnf-alts`: the alternatives are expanded. -/
  | raw {name raw seq} :
    abnfRawAlts cx name = .done raw → InTurn (fun alt => Gives fun k => abnfExpand cx k alt) raw seq →
    Enters (.alts name) (.expand seq)
  /-- `abnf-split-group`: the sequence of a group that ends in the rule's own factored tail is expanded. -/
  | split {name raw k expanded helper seq} : abnfRawAlts cx name = .done raw →
    Run.each (abnfExpand cx k) raw = .done expanded →
    InTurn (fun alt => Gives fun k => abnfSplitGroup cx k name alt) expanded.flatten [.ref helper] →
    abnfHelperKind cx helper = .done (some "group".toList) → abnfRawAlts cx helper = .done [seq] →
    abnfOwnedFact cx name seq = .done true → Enters (.alts name) (.expand seq)
  /-- `abnf-key`, by the kind of element. -/
  | keyGrp {seq el} : InTurn (fun el => Gives fun k => abnfKey cx k el) seq el → Enters (.key (.grp seq)) (.key el)
  | keyStar {n item} : abnfHelperKind cx n = .done (some "star".toList) →
    abnfLoopItem cx n (abnfRule cx n) = .done item → Enters (.key (.ref n)) (.key item)
  | keyRep {n parts} : abnfHelperKind cx n = .done (some "rep".toList) → abnfRepParts cx n = .done parts →
    Enters (.key (.ref n)) (.key parts.item)
  | keyAlts {n kind} : abnfHelperKind cx n = .done kind → KeyedByAlts kind → Enters (.key (.ref n)) (.alts n)
  | keyEl {n kind k alts el} : abnfHelperKind cx n = .done kind → KeyedByAlts kind → abnfAlts cx k n = .done alts →
    InTurn (fun el => Gives fun k => abnfKey cx k el) alts.flatten el → Enters (.key (.ref n)) (.key el)
  /-- `abnf-text`: the elements of the alternatives, and each element by its kind. -/
  | textAlts {x el} : InTurn (fun el => Gives fun k => abnfText cx lifted k (.el el)) x.flatten el →
    Enters (.text (.alts x)) (.text (.el el))
  | textTail {seq} : Enters (.text (.el (.tail seq))) (.text (.alts [seq]))
  | textGrp {seq} : Enters (.text (.el (.grp seq))) (.text (.alts [seq]))
  | textStar {n item} : abnfHelperKind cx n = .done (some "star".toList) →
    abnfLoopItem cx n (abnfRule cx n) = .done item → Enters (.text (.el (.ref n))) (.text (.atom item))
  | textRep {n parts} : abnfHelperKind cx n = .done (some "rep".toList) → abnfRepParts cx n = .done parts →
    Enters (.text (.el (.ref n))) (.text (.atom parts.item))
  | textRef {n kind} : abnfHelperKind cx n = .done kind → SpeltByAlts kind → Enters (.text (.el (.ref n))) (.alts n)
  | textPlus {n k alts item} : abnfHelperKind cx n = .done (some "plus".toList) → abnfAlts cx k n = .done alts →
    alts.head?.bind List.head? = some item → Enters (.text (.el (.ref n))) (.text (.atom item))
  | textOpt {n k alts inner} : abnfHelperKind cx n = .done (some "opt".toList) → abnfAlts cx k n = .done alts →
    optInner alts = some inner → abnfOptGroup cx n = .done false → Enters (.text (.el (.ref n))) (.text (.atom inner))
  | optAlts {n k alts inner name} : abnfHelperKind cx n = .done (some "opt".toList) → abnfAlts cx k n = .done alts →
    optInner alts = some inner → abnfOptGroup cx n = .done true → inner.name? = some name →
    Enters (.text (.el (.ref n))) (.alts name)
  | optText {n k alts inner name k' innerAlts} : abnfHelperKind cx n = .done (some "opt".toList) →
    abnfAlts cx k n = .done alts → optInner alts = some inner → abnfOptGroup cx n = .done true →
      inner.name? = some name →
    abnfAlts cx k' name = .done innerAlts → Enters (.text (.el (.ref n))) (.text (.alts innerAlts))
  | textGroup {n k alts} : abnfHelperKind cx n = .done (some "group".toList) → abnfAlts cx k n = .done alts →
    Enters (.text (.el (.ref n))) (.text (.alts alts))
  | atom {el} : Atomic cx el → Enters (.text (.atom el)) (.text (.el el))

end

/-! ## The same for all fuel -/

section

variable {cx : Context} {lifted : List Text}

theorem steady_key (el : El) : Steady fun n => abnfKey cx n el := by
  refine steady_iterate (fun {n m f g} hle hfg el => ?_) el
  cases el with
  | tok t => exact .refl _
  | tail seq => exact .refl _
  | grp seq => exact (Run.Grows.each hfg seq).then.then
  | ref name =>
    refine .after fun kind => .ite (.refl _) (.ite ?_ (.ite ?_ ?_))
    · exact .after fun item => (hfg item).then
    · exact .after fun parts => (hfg parts.item).then
    · exact (steady_alts n m hle).bind fun alts => (Run.Grows.each (fun seq => (Run.Grows.each hfg seq).then) alts).then

theorem steady_text (node : Node) : Steady fun n => abnfText cx lifted n node := by
  refine steady_iterate (fun {n m f g} hle hfg node => ?_) node
  rcases node with x | el | el
  · exact (Run.Grows.each (fun seq => (Run.Grows.each (fun el => hfg (.el el)) seq).then) x).then
  · cases el with
    | tok t => exact .refl _
    | tail seq => exact (hfg _).then
    | grp seq => exact (hfg _).then
    | ref name =>
      refine .after fun kind => .after fun kind =>
        .ite (.refl _) (.ite ?_ (.ite ?_ (.ite ?_ (.ite ?_ (.ite ?_ (.refl _))))))
      · exact .after fun item => (hfg _).then
      · exact (steady_alts n m hle).bind fun alts => .after fun item => (hfg _).then
      · refine (steady_alts n m hle).bind fun alts => .after fun inner => .after fun group => .ite ?_ (hfg _).then
        exact .after fun innerName => (steady_alts n m hle).bind fun innerAlts => (hfg _).then
      · exact .after fun parts => (hfg _).then
      · exact (steady_alts n m hle).bind fun alts => (hfg _).then
  · cases el with
    | tok t => exact .refl _
    | tail seq => exact (hfg _).then
    | grp seq => exact hfg _
    | ref name =>
      refine .after fun kind => .ite (hfg _) (.ite ?_ (.ite (hfg _) (hfg _).then))
      exact .after fun group => .ite (hfg _) (hfg _).then

/-! ## A call settles where those that it makes do -/

theorem settles_expand {alt : Seq} (h : ∀ c, Enters cx lifted (.expand alt) c → c.Settles cx lifted) :
    Settles fun k => abnfExpand cx k alt := by
  refine Settles.succ ?_
  show Settles fun k => expandBody cx (abnfExpand cx k) alt
  unfold expandBody
  refine (settles_const ends_lastFact).bind fun fact hfact => ?_
  obtain ⟨-, hfact⟩ := hfact
  rcases fact with _ | n
  · exact settles_const (Run.ends_done _)
  · refine (settles_const ends_rawAlts).bind fun tails htails => ?_
    obtain ⟨-, htails⟩ := htails
    refine Settles.then (Settles.each fun tail htail => ?_) fun _ => Run.ends_done _
    exact h _ (.tail hfact htails htail)

theorem settles_alts {name : Text} (h : ∀ c, Enters cx lifted (.alts name) c → c.Settles cx lifted) :
    Settles fun k => abnfAlts cx k name := by
  refine (settles_const ends_rawAlts).bind fun raw hraw => ?_
  obtain ⟨-, hraw⟩ := hraw
  refine (Settles.each fun seq hseq => h _ (.raw hraw hseq)).bind fun expanded hexpanded => ?_
  obtain ⟨k, hexpanded⟩ := hexpanded
  refine Settles.then (Settles.each fun alt halt => ?_) fun _ => Run.ends_done _
  unfold abnfSplitGroup
  split
  · rename_i helper
    refine (settles_const ends_helperKind).bind fun kind hkind => .ite (fun hgroup => ?_) fun _ =>
      settles_const (Run.ends_done _)
    obtain ⟨-, hkind⟩ := hkind
    refine (settles_const ends_rawAlts).bind fun inner hinner => ?_
    obtain ⟨-, hinner⟩ := hinner
    split
    · rename_i seq
      refine (settles_const (ends_lastFact.bind fun _ _ => Run.ends_done _)).bind fun owned howned => ?_
      obtain ⟨-, howned⟩ := howned
      refine .ite (fun hown => Settles.then ?_ fun _ => Run.ends_done _) fun _ => settles_const (Run.ends_done _)
      exact h _ (.split hraw hexpanded halt (hgroup ▸ hkind) hinner (hown ▸ howned))
    · exact settles_const (Run.ends_done _)
  · exact settles_const (Run.ends_done _)

theorem settles_key {el : El} (h : ∀ c, Enters cx lifted (.key el) c → c.Settles cx lifted) :
    Settles fun k => abnfKey cx k el := by
  refine Settles.succ ?_
  cases el with
  | tok t => exact settles_const (Run.ends_done _)
  | tail seq => exact settles_const (Run.ends_done _)
  | grp seq =>
    refine Settles.then (Settles.then (Settles.each fun el hel => ?_) fun _ => Run.ends_done _) fun _ => Run.ends_done _
    exact h _ (.keyGrp hel)
  | ref n =>
    refine (settles_const ends_helperKind).bind fun kind hkind => ?_
    obtain ⟨-, hkind⟩ := hkind
    refine .ite (fun _ => settles_const (Run.ends_done _)) fun hplain => .ite (fun hstar => ?_) fun hstar =>
      .ite (fun hrep => ?_) fun hrep => ?_
    · refine (settles_const ends_loopItem).bind fun item hitem => Settles.then ?_ fun _ => Run.ends_done _
      exact h _ (.keyStar (hstar ▸ hkind) hitem.choose_spec)
    · refine (settles_const ends_repParts).bind fun parts hparts => Settles.then ?_ fun _ => Run.ends_done _
      exact h _ (.keyRep (hrep ▸ hkind) hparts.choose_spec)
    · refine Settles.bind (h _ (.keyAlts hkind ⟨hplain, hstar, hrep⟩)) fun alts halts => ?_
      refine Settles.then (Settles.each_row (fun _ => Run.ends_done _) fun el hel => ?_) fun ks =>
        (Run.ends_ofOption _).bind fun _ _ => Run.ends_done _
      exact h _ (.keyEl hkind ⟨hplain, hstar, hrep⟩ halts.choose_spec hel)

theorem settles_atom {el : El} (h : Atomic cx el → Settles fun k => abnfText cx lifted k (.el el)) :
    Settles fun k => abnfText cx lifted k (.atom el) := by
  have halone : Atomic cx el → Settles fun k => (abnfText cx lifted k (.el el)).bind fun t =>
    (.done (grouped t) : Out Text) :=
    fun hatom => (h hatom).then fun _ => Run.ends_done _
  refine Settles.succ ?_
  cases el with
  | tok t => exact settles_const ends_tokenText
  | tail seq => exact halone trivial
  | grp seq => exact h trivial
  | ref n =>
    refine (settles_const ends_helperKind).bind fun kind hkind => ?_
    obtain ⟨-, hkind⟩ := hkind
    refine .ite (fun hgroup => h ⟨kind, hkind, fun hne => absurd hgroup hne⟩) fun _ => .ite (fun _ => ?_) fun hopt =>
      .ite (fun _ => h ⟨kind, hkind, fun _ heq => absurd heq hopt⟩) fun _ =>
        halone ⟨kind, hkind, fun _ heq => absurd heq hopt⟩
    refine (settles_const ends_optGroup).bind fun group hgroup => ?_
    have hatom : Atomic cx (.ref n) := ⟨kind, hkind, fun _ _ => ⟨group, hgroup.choose_spec⟩⟩
    exact .ite (fun _ => h hatom) fun _ => halone hatom

theorem settles_text {node : Node} (h : ∀ c, Enters cx lifted (.text node) c → c.Settles cx lifted) :
    Settles fun k => abnfText cx lifted k node := by
  rcases node with x | el | el
  · refine Settles.succ (Settles.then (Settles.each_row (fun _ => Run.ends_done _) fun el hel => ?_) fun _ =>
      Run.ends_done _)
    exact h _ (.textAlts hel)
  · refine Settles.succ ?_
    cases el with
    | tok t => exact settles_const ends_tokenText
    | tail seq => exact Settles.then (h _ .textTail) fun _ => Run.ends_done _
    | grp seq => exact Settles.then (h _ .textGrp) fun _ => Run.ends_done _
    | ref n =>
      refine (settles_const ends_helperKind).bind fun kind hkind => ?_
      obtain ⟨-, hkind⟩ := hkind
      refine (settles_const (Run.ends_ofOption kind)).bind fun kind' hk => ?_
      obtain rfl : kind = some kind' := Run.ofOption_eq_done.1 hk.choose_spec
      -- one goal for each kind, in the order in which the render asks
      refine .ite (fun _ => settles_const ends_refText) fun _ => .ite (fun hstar => ?_) fun _ =>
        .ite (fun hplus => ?_) fun _ =>
        .ite (fun hopt => ?_) fun _ => .ite (fun hrep => ?_) fun _ => .ite (fun hgroup => ?_) fun _ =>
          settles_const (Run.ends_refused _)
      · refine (settles_const ends_loopItem).bind fun item hitem => Settles.then ?_ fun _ => Run.ends_done _
        exact h _ (.textStar (hstar ▸ hkind) hitem.choose_spec)
      · subst hplus
        refine Settles.bind (h _ (.textRef hkind (.inl rfl))) fun alts halts => ?_
        refine (settles_const (Run.ends_ofOption _)).bind fun item hitem => Settles.then ?_ fun _ => Run.ends_done _
        exact h _ (.textPlus hkind halts.choose_spec (Run.ofOption_eq_done.1 hitem.choose_spec))
      · subst hopt
        refine Settles.bind (h _ (.textRef hkind (.inr (.inl rfl)))) fun alts halts => ?_
        refine (settles_const (Run.ends_ofOption _)).bind fun inner hinner => ?_
        have hinner := Run.ofOption_eq_done.1 hinner.choose_spec
        refine (settles_const ends_optGroup).bind fun group hgroup => .ite (fun hg => ?_) fun hg => ?_
        · have hgroup := hg ▸ hgroup.choose_spec
          refine (settles_const (Run.ends_ofOption _)).bind fun name hname => ?_
          have hname := Run.ofOption_eq_done.1 hname.choose_spec
          refine Settles.bind (h _ (.optAlts hkind halts.choose_spec hinner hgroup hname)) fun innerAlts hinnerAlts =>
            ?_
          refine Settles.then ?_ fun _ => Run.ends_done _
          exact h _ (.optText hkind halts.choose_spec hinner hgroup hname hinnerAlts.choose_spec)
        · refine Settles.then ?_ fun _ => Run.ends_done _
          exact h _ (.textOpt hkind halts.choose_spec hinner ((Bool.not_eq_true _).mp hg ▸ hgroup.choose_spec))
      · refine (settles_const ends_repParts).bind fun parts hparts => Settles.then ?_ fun _ => Run.ends_done _
        exact h _ (.textRep (hrep ▸ hkind) hparts.choose_spec)
      · subst hgroup
        refine Settles.bind (h _ (.textRef hkind (.inr (.inr rfl)))) fun alts halts => Settles.then ?_ fun _ =>
          Run.ends_done _
        exact h _ (.textGroup hkind halts.choose_spec)
  · exact settles_atom fun hatom => h _ (.atom hatom)

/-- A call settles where those that it makes do. -/
theorem Call.settles {c : Call} (h : ∀ c', Enters cx lifted c c' → c'.Settles cx lifted) : c.Settles cx lifted := by
  cases c with
  | expand alt => exact settles_expand h
  | alts name => exact settles_alts h
  | key el => exact settles_key h
  | text node => exact settles_text h

/-! ## The calls that a call makes end before it -/

/-- A rule's alternatives are expanded with the fuel they are read with; other calls cost fuel. -/
def Call.rank : Call → Nat
  | .alts _ => 1
  | _ => 0

variable {c c' : Call} {k : Nat}

theorem ends_of_expand {alt : Seq} (h : (abnfExpand cx k alt).Ends) (hc : Enters cx lifted (.expand alt) c) :
    ∃ j, c.Ends cx lifted j ∧ 2 * j + c.rank < 2 * k := by
  rcases k with _ | k
  · exact absurd rfl h
  cases hc with
  | @tail alt n tails tail hfact htails hturn =>
    rw [abnfExpand, iterate] at h
    have hall := ((h.right hfact).right htails).left
    have hends :=
      Steady.ends_each (f := fun k t => abnfExpand cx k (alt.dropLast ++ t)) (fun t => steady_expand _) hall hturn
    exact ⟨k, hends, show 2 * k + 0 < 2 * (k + 1) by omega⟩

theorem ends_of_alts {name : Text} (h : (abnfAlts cx k name).Ends) (hc : Enters cx lifted (.alts name) c) :
    ∃ j, c.Ends cx lifted j ∧ 2 * j + c.rank < 2 * k + 1 := by
  cases hc with
  | raw hraw hturn =>
    exact ⟨k, Steady.ends_each (fun alt => steady_expand alt) (h.right hraw).left hturn,
      show 2 * k + 0 < 2 * k + 1 by omega⟩
  | @split _ raw n expanded helper seq hraw hexpanded hturn hkind hinner howned =>
    have hsteady : Steady fun n => Run.each (abnfExpand cx n) raw :=
      fun n m hle => Run.Grows.each (fun alt => steady_expand alt n m hle) raw
    have hexpanded' := hsteady.done hexpanded (h.right hraw).left
    have hsplit := Steady.ends_each (fun alt => steady_splitGroup alt) ((h.right hraw).right hexpanded').left hturn
    unfold abnfSplitGroup at hsplit
    simp only [hkind, hinner, howned, Run.done_bind, if_true] at hsplit
    exact ⟨k, hsplit.left, show 2 * k + 0 < 2 * k + 1 by omega⟩

theorem ends_of_key {el : El} (h : (abnfKey cx k el).Ends) (hc : Enters cx lifted (.key el) c) :
    ∃ j, c.Ends cx lifted j ∧ 2 * j + c.rank < 2 * k := by
  rcases k with _ | k
  · exact absurd rfl h
  rw [abnfKey, iterate] at h
  have hlt : 2 * k + 1 < 2 * (k + 1) := by omega
  cases hc with
  | keyGrp hturn => exact ⟨k, Steady.ends_each (fun el => steady_key el) h.left.left hturn, Nat.lt_of_succ_lt hlt⟩
  | keyStar hkind hitem =>
    replace h := h.right hkind
    rw [if_neg (by decide), if_pos rfl] at h
    exact ⟨k, (h.right hitem).left, Nat.lt_of_succ_lt hlt⟩
  | keyRep hkind hparts =>
    replace h := h.right hkind
    rw [if_neg (by decide), if_neg (by decide), if_pos rfl] at h
    exact ⟨k, (h.right hparts).left, Nat.lt_of_succ_lt hlt⟩
  | keyAlts hkind hby =>
    replace h := h.right hkind
    rw [if_neg hby.1, if_neg hby.2.1, if_neg hby.2.2] at h
    exact ⟨k, h.left, hlt⟩
  | keyEl hkind hby halts hturn =>
    replace h := h.right hkind
    rw [if_neg hby.1, if_neg hby.2.1, if_neg hby.2.2] at h
    have hrows := (h.right (steady_alts.done halts h.left)).left
    have hends := Steady.ends_each_row (fun el => steady_key el) (fun ks => ⟨_, rfl⟩) hrows hturn
    exact ⟨k, hends, Nat.lt_of_succ_lt hlt⟩

theorem ends_of_text {node : Node} (h : (abnfText cx lifted k node).Ends) (hc : Enters cx lifted (.text node) c) :
    ∃ j, c.Ends cx lifted j ∧ 2 * j + c.rank < 2 * k := by
  rcases k with _ | k
  · exact absurd rfl h
  rw [abnfText, iterate] at h
  have hlt : 2 * k + 1 < 2 * (k + 1) := by omega
  have hsome : ∀ {n : Text} {kind : Text} {f : Text → Out Text}, abnfHelperKind cx n = .done (some kind) →
      ((abnfHelperKind cx n).bind fun kind => (Run.ofOption kind).bind f).Ends → (f kind).Ends :=
    fun hkind h => (h.right hkind).right rfl
  cases hc with
  | textAlts hturn =>
    have hends := Steady.ends_each_row (fun el => steady_text (.el el)) (fun ts => ⟨_, rfl⟩) h.left hturn
    exact ⟨k, hends, Nat.lt_of_succ_lt hlt⟩
  | textTail => exact ⟨k, h.left, Nat.lt_of_succ_lt hlt⟩
  | textGrp => exact ⟨k, h.left, Nat.lt_of_succ_lt hlt⟩
  | textStar hkind hitem =>
    replace h := hsome hkind h
    rw [if_neg (by decide), if_pos rfl] at h
    exact ⟨k, (h.right hitem).left, Nat.lt_of_succ_lt hlt⟩
  | textRep hkind hparts =>
    replace h := hsome hkind h
    rw [if_neg (by decide), if_neg (by decide), if_neg (by decide), if_neg (by decide), if_pos rfl] at h
    exact ⟨k, (h.right hparts).left, Nat.lt_of_succ_lt hlt⟩
  | textRef hkind hby =>
    rcases hby with rfl | rfl | rfl
    · replace h := hsome hkind h
      rw [if_neg (by decide), if_neg (by decide), if_pos rfl] at h
      exact ⟨k, h.left, hlt⟩
    · replace h := hsome hkind h
      rw [if_neg (by decide), if_neg (by decide), if_neg (by decide), if_pos rfl] at h
      exact ⟨k, h.left, hlt⟩
    · replace h := hsome hkind h
      rw [if_neg (by decide), if_neg (by decide), if_neg (by decide), if_neg (by decide), if_neg (by decide),
        if_pos rfl] at h
      exact ⟨k, h.left, hlt⟩
  | textPlus hkind halts hitem =>
    replace h := hsome hkind h
    rw [if_neg (by decide), if_neg (by decide), if_pos rfl] at h
    replace h := h.right (steady_alts.done halts h.left)
    rw [hitem] at h
    exact ⟨k, (h.right rfl).left, Nat.lt_of_succ_lt hlt⟩
  | textOpt hkind halts hinner hgroup =>
    replace h := hsome hkind h
    rw [if_neg (by decide), if_neg (by decide), if_neg (by decide), if_pos rfl] at h
    replace h := h.right (steady_alts.done halts h.left)
    rw [hinner] at h
    replace h := (h.right rfl).right hgroup
    exact ⟨k, h.left, Nat.lt_of_succ_lt hlt⟩
  | optAlts hkind halts hinner hgroup hname =>
    replace h := hsome hkind h
    rw [if_neg (by decide), if_neg (by decide), if_neg (by decide), if_pos rfl] at h
    replace h := h.right (steady_alts.done halts h.left)
    rw [hinner] at h
    replace h := (h.right rfl).right hgroup
    rw [if_pos rfl, hname] at h
    exact ⟨k, (h.right rfl).left, hlt⟩
  | optText hkind halts hinner hgroup hname hinnerAlts =>
    replace h := hsome hkind h
    rw [if_neg (by decide), if_neg (by decide), if_neg (by decide), if_pos rfl] at h
    replace h := h.right (steady_alts.done halts h.left)
    rw [hinner] at h
    replace h := (h.right rfl).right hgroup
    rw [if_pos rfl, hname] at h
    replace h := h.right rfl
    exact ⟨k, (h.right (steady_alts.done hinnerAlts h.left)).left, Nat.lt_of_succ_lt hlt⟩
  | textGroup hkind halts =>
    replace h := hsome hkind h
    rw [if_neg (by decide), if_neg (by decide), if_neg (by decide), if_neg (by decide), if_neg (by decide),
      if_pos rfl] at h
    exact ⟨k, (h.right (steady_alts.done halts h.left)).left, Nat.lt_of_succ_lt hlt⟩
  | @atom el hatom =>
    refine ⟨k, ?_, Nat.lt_of_succ_lt hlt⟩
    cases el with
    | tok t => exact hatom.elim
    | tail seq => exact h.left
    | grp seq => exact h
    | ref n =>
      obtain ⟨kind, hkind, hopt⟩ := hatom
      replace h := h.right hkind
      split at h
      · exact h
      · rename_i hgroup
        split at h
        · rename_i heq
          obtain ⟨group, hrun⟩ := hopt hgroup heq
          replace h := h.right hrun
          split at h
          · exact h
          · exact h.left
        · split at h
          · exact h
          · exact h.left

/-- A call that ends makes calls that end with less. -/
theorem Call.Ends.enters (h : c.Ends cx lifted k) (hc : Enters cx lifted c c') :
    ∃ j, c'.Ends cx lifted j ∧ 2 * j + c'.rank < 2 * k + c.rank := by
  cases c with
  | expand alt => exact ends_of_expand h hc
  | alts name => exact ends_of_alts h hc
  | key el => exact ends_of_key h hc
  | text node => exact ends_of_text h hc

theorem Call.Settles.ends (h : c.Settles cx lifted) : ∃ k, c.Ends cx lifted k := by
  cases c with
  | expand alt => exact Base.Settles.ends h
  | alts name => exact Base.Settles.ends h
  | key el => exact Base.Settles.ends h
  | text node => exact Base.Settles.ends h

theorem Call.Ends.acc (h : c.Ends cx lifted k) : Acc (fun b a => Enters cx lifted a b) c := by
  generalize hn : 2 * k + c.rank = n
  induction n using Nat.strongRecOn generalizing c k with
  | ind n ih =>
    refine .intro c fun c' hc => ?_
    obtain ⟨j, hj, hlt⟩ := h.enters hc
    exact ih _ (hn ▸ hlt) hj rfl

/-- A call comes to an end where no endless chain of calls starts from it. -/
theorem settles_iff_acc : c.Settles cx lifted ↔ Acc (fun b a => Enters cx lifted a b) c := by
  constructor
  · intro h
    obtain ⟨k, hk⟩ := h.ends
    exact hk.acc
  · intro h
    induction h with
    | intro c _ ih => exact Call.settles ih

end

end TabnasAbnf.Render
