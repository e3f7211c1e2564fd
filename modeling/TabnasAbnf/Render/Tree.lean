/-
What the render writes, as a tree: the helpers followed, each repetition with its counts, and the text of
each. A text that `abnf-text` writes is the text of its tree (`abnfText_tree`).
-/
import TabnasAbnf.Base.NumberText
import TabnasAbnf.Render.File

namespace TabnasAbnf.Render

open TabnasAbnf.Base

/-! ## Trees -/

/-- How often a repetition repeats its item. -/
inductive Count
  | star | plus | upToOne
  | times (min : Nat) (max : Option Nat)
  deriving DecidableEq, Repr

def Count.min : Count → Nat
  | .star | .upToOne => 0
  | .plus => 1
  | .times min _ => min

def Count.max : Count → Option Nat
  | .star | .plus => none
  | .upToOne => some 1
  | .times _ max => max

/-- An element written: a terminal, a name, or what is written around other elements. -/
inductive Tree
  | lit (text : Text) (cs : Bool)
  | cls (pat flags : Text)
  | tok (name : Text)
  | ref (name : Text)
  | group (alts : List (List Tree))
  | option (alts : List (List Tree))
  | tail (seq : List Tree)
  | rep (count : Count) (item : Tree)

/-- Whether a repetition applies to an element as it is. -/
def Tree.isItem : Tree → Bool
  | .tail _ | .rep _ _ => false
  | _ => true

/-! ## The tree of an element -/

section

variable (cx : Context) (lifted : List Text)

def treeTok (t : Text) : Out Tree :=
  if abnfAmong t lifted then .done (.tok (abnfBare t))
  else (abnfToken cx t).bind fun info => .done <|
    match info with
    | .lit text cs => .lit text cs
    | .cls pat flags => .cls pat flags
    | .engine name => .tok name

/-- The counts of a repetition. -/
def RepParts.count (parts : RepParts) : Count :=
  .times parts.min (if parts.max = [] then none else some (ofDigits 10 parts.max))

mutual

def treeAlts : Nat → List Seq → Out (List (List Tree))
  | 0, _ => .spent
  | n + 1, x => Run.each (fun seq => Run.each (treeEl n) seq) x

def treeEl : Nat → El → Out Tree
  | 0, _ => .spent
  | _ + 1, .tok t => treeTok cx lifted t
  | n + 1, .tail seq => (treeAlts n [seq]).bind fun alts => .done (.tail alts.flatten)
  | n + 1, .grp seq => (treeAlts n [seq]).bind fun alts => .done (.group alts)
  | n + 1, .ref name => (abnfHelperKind cx name).bind fun kind => (Run.ofOption kind).bind fun kind =>
    if kind = [] then .done (.ref name)
    else if kind = "star".toList then
      (abnfLoopItem cx name (abnfRule cx name)).bind fun item => (treeAtom n item).bind fun t => .done (.rep .star t)
    else if kind = "plus".toList then
      (abnfAlts cx n name).bind fun alts => (Run.ofOption (alts.head?.bind List.head?)).bind fun item =>
        (treeAtom n item).bind fun t => .done (.rep .plus t)
    else if kind = "opt".toList then
      (abnfAlts cx n name).bind fun alts => (Run.ofOption (optInner alts)).bind fun inner =>
        (abnfOptGroup cx name).bind fun group =>
          if group then
            (Run.ofOption inner.name?).bind fun innerName => (abnfAlts cx n innerName).bind fun innerAlts =>
              (treeAlts n innerAlts).bind fun alts => .done (.option alts)
          else (treeAtom n inner).bind fun t => .done (.rep .upToOne t)
    else if kind = "rep".toList then
      (abnfRepParts cx name).bind fun parts => (treeAtom n parts.item).bind fun t => .done (.rep parts.count t)
    else if kind = "group".toList then
      (abnfAlts cx n name).bind fun alts => (treeAlts n alts).bind fun alts => .done (.group alts)
    else .refused (.helperKind name kind)

/-- The element a repetition applies to. -/
def treeAtom : Nat → El → Out Tree
  | 0, _ => .spent
  | _ + 1, .tok t => treeTok cx lifted t
  | n + 1, el => treeEl n el

end

end

/-! ## The text of a tree -/

def Count.text : Count → Text
  | .star => ['*']
  | .plus => ['1', '*']
  | .upToOne => "0*1".toList
  | .times min none => abnfNum min ++ ['*']
  | .times min (some max) =>
    if min = max then abnfNum min else (if min = 0 then [] else abnfNum min) ++ ['*'] ++ abnfNum max

/-- `abnf-class-text`, as a run. -/
def clsText (pat flags : Text) : Out Text :=
  match abnfClassText pat flags with
  | .ok t => .done t
  | .error why => .refused (.cls why)

/-- Alternatives between slashes. -/
def slashed (ts : List Text) : Text := abnfTrimEnds (stringJoin " / ".toList ts)

/-- An element in brackets. -/
def bracketed (t : Text) : Text := "[ ".toList ++ t ++ " ]".toList

mutual

def Tree.text : Tree → Out Text
  | .lit text cs => litText text cs
  | .cls pat flags => clsText pat flags
  | .tok name | .ref name => abnfRefText name
  | .group alts => (altsTexts alts).bind fun ts => .done (grouped (slashed ts))
  | .option alts => (altsTexts alts).bind fun ts => .done (bracketed (slashed ts))
  | .tail seq => (seqTexts seq).bind fun ts => .done (bracketed (slashed [stringJoin [' '] ts]))
  | .rep count item => item.text.bind fun t => .done (count.text ++ if item.isItem then t else grouped t)

def seqTexts : List Tree → Out (List Text)
  | [] => .done []
  | t :: ts => t.text.bind fun s => (seqTexts ts).bind fun ss => .done (s :: ss)

def altsTexts : List (List Tree) → Out (List Text)
  | [] => .done []
  | seq :: alts => (seqTexts seq).bind fun ts => (altsTexts alts).bind fun ss => .done (stringJoin [' '] ts :: ss)

end

/-- The text of an element a repetition applies to. -/
def itemText (t : Tree) : Out Text := t.text.bind fun s => .done (if t.isItem then s else grouped s)

/-- The text of alternatives. -/
def altsText (alts : List (List Tree)) : Out Text := (altsTexts alts).bind fun ts => .done (slashed ts)

/-! ## What the render writes -/

section

variable {cx : Context} {lifted : List Text}

theorem abnfMatchToken_engine {t m name : Text} (h : abnfMatchToken t m = .done (.engine name)) : False := by
  unfold abnfMatchToken at h
  simp only at h
  split_ifs at h <;> cases h

/-- An engine's token is one of four. -/
theorem abnfToken_engine {t name : Text} (h : abnfToken cx t = .done (.engine name)) : abnfLegalName name = true := by
  unfold abnfToken at h
  split at h
  · cases h
  · exact (abnfMatchToken_engine h).elim
  · obtain ⟨cls, -, h⟩ := Run.bind_eq_done h
    cases h
  · unfold abnfEngineToken at h
    split at h
    · rename_i ht
      cases h
      rcases ht with rfl | rfl | rfl | rfl <;> decide
    · cases h

theorem abnfTokenText_tree (hl : ∀ t ∈ lifted, abnfLegalName (abnfBare t) = true) {t out : Text}
    (h : abnfTokenText cx lifted t = .done out) :
    ∃ tree, treeTok cx lifted t = .done tree ∧ tree.text = .done out ∧ tree.isItem = true := by
  have hname : ∀ name, abnfLegalName name = true → (Tree.tok name).text = .done name := fun name hn => by
    rw [Tree.text, abnfRefText, if_pos hn]
  unfold abnfTokenText at h
  unfold treeTok
  split at h
  · rename_i hmem
    cases h
    rw [if_pos hmem]
    refine ⟨_, rfl, hname _ ?_, rfl⟩
    obtain ⟨t', ht', hsame⟩ : ∃ t' ∈ lifted, t' = t := by
      simpa [abnfAmong, abnfSame_iff] using hmem
    exact hl t (hsame ▸ ht')
  · rename_i hmem
    rw [if_neg hmem]
    obtain ⟨info, hinfo, h⟩ := Run.bind_eq_done h
    rw [hinfo]
    rcases info with ⟨text, cs⟩ | ⟨pat, flags⟩ | name
    · exact ⟨_, rfl, h, rfl⟩
    · exact ⟨.cls pat flags, rfl, h, rfl⟩
    · cases h
      exact ⟨.tok out, rfl, hname _ (abnfToken_engine hinfo), rfl⟩

/-- A count's digits. -/
theorem abnfNum_digits (n : Nat) :
    abnfNum n ≠ [] ∧ (abnfNum n).all (isDigit 10) = true ∧ ofDigits 10 (abnfNum n) = n := by
  have hnum : abnfNum n = Nat.toDigits 10 n := rfl
  have hspec := @toDigits_spec 10 n (by decide) (by decide)
  rw [hnum]
  exact ⟨List.length_pos_iff.1 Nat.length_toDigits_pos, hspec⟩

theorem RepParts.count_text {name : Text} {parts : RepParts} (h : abnfRepParts cx name = .done parts) :
    parts.count.text =
      if parts.max = [] then abnfNum parts.min ++ ['*'] else if abnfSame (abnfNum parts.min) parts.max then
        abnfNum parts.min
      else (if abnfNum parts.min = ['0'] then [] else abnfNum parts.min) ++ ['*'] ++ parts.max := by
  have hinj : ∀ {m n : Nat}, abnfNum m = abnfNum n → m = n := fun {m n} he => by
    rw [← (abnfNum_digits m).2.2, he, (abnfNum_digits n).2.2]
  rw [RepParts.count]
  rcases (made_repParts h).2 with hmax | ⟨m, hmax⟩
  · rw [if_pos hmax, if_pos hmax]
    rfl
  · have hne := (abnfNum_digits m).1
    rw [hmax, if_neg hne, if_neg hne, (abnfNum_digits m).2.2]
    simp only [Count.text]
    have hsame : abnfSame (abnfNum parts.min) (abnfNum m) = true ↔ parts.min = m := by
      rw [abnfSame_iff]
      exact ⟨hinj, fun he => by rw [he]⟩
    have hzero : abnfNum parts.min = ['0'] ↔ parts.min = 0 := by
      rw [show ['0'] = abnfNum (0 : Nat) from rfl]
      exact ⟨hinj, fun he => by rw [he]⟩
    simp only [hsame, hzero]

theorem text_item {t : Tree} {s : Text} (ht : t.text = .done s) (hi : t.isItem = true) : itemText t = .done s := by
  rw [itemText, ht, Run.done_bind, if_pos hi]

theorem text_alone {t : Tree} {s : Text} (ht : t.text = .done s) (hi : t.isItem = false) :
    itemText t = .done (grouped s) := by
  rw [itemText, ht, Run.done_bind, hi, if_neg Bool.false_ne_true]

theorem group_text {alts : List (List Tree)} {s : Text} (h : altsText alts = .done s) :
    (Tree.group alts).text = .done (grouped s) := by
  obtain ⟨ts, hts, hs⟩ := Run.bind_eq_done h
  cases hs
  rw [Tree.text, hts]
  rfl

theorem option_text {alts : List (List Tree)} {s : Text} (h : altsText alts = .done s) :
    (Tree.option alts).text = .done (bracketed s) := by
  obtain ⟨ts, hts, hs⟩ := Run.bind_eq_done h
  cases hs
  rw [Tree.text, hts]
  rfl

theorem tail_text {seq : List Tree} {s : Text} (h : altsText [seq] = .done s) :
    (Tree.tail seq).text = .done (bracketed s) := by
  obtain ⟨ts, hts, hs⟩ := Run.bind_eq_done h
  obtain ⟨ss, hss, hts⟩ := Run.bind_eq_done hts
  cases hts
  cases hs
  rw [Tree.text, hss]
  rfl

theorem rep_text {count : Count} {item : Tree} {s : Text} (h : itemText item = .done s) :
    (Tree.rep count item).text = .done (count.text ++ s) := by
  obtain ⟨t, ht, hs⟩ := Run.bind_eq_done h
  cases hs
  rw [Tree.text, ht]
  rfl

/-- The texts of a sequence's trees. -/
theorem seqTexts_of_forall₂ {ts : List Text} {trees : List Tree}
    (h : List.Forall₂ (fun s t => t.text = .done s) ts trees) :
    seqTexts trees = .done ts := by
  induction h with
  | nil => rfl
  | cons ht _ ih => rw [seqTexts, ht, Run.done_bind, ih, Run.done_bind]

theorem altsTexts_of_forall₂ {ts : List Text} {alts : List (List Tree)}
    (h : List.Forall₂ (fun s trees => ∃ ss, seqTexts trees = .done ss ∧ s = stringJoin [' '] ss) ts alts) :
    altsTexts alts = .done ts := by
  induction h with
  | nil => rfl
  | cons ht _ ih =>
    obtain ⟨ss, hss, rfl⟩ := ht
    rw [altsTexts, hss, Run.done_bind, ih, Run.done_bind]

/-- The text of alternatives is that of their trees. -/
theorem follows_alts {self : Node → Out Text} {g : El → Out Tree}
    (h : ∀ el, (self (.el el)).Follows (g el) fun s t => t.text = .done s) (x : List Seq) :
    ((Run.each (abnfSeqText self) x).bind fun ts => (.done (slashed ts) : Out Text)).Follows
      (Run.each (fun seq => Run.each g seq) x) fun s alts => altsText alts = .done s := by
  have hseq : ∀ seq, (abnfSeqText self seq).Follows (Run.each g seq) fun s trees =>
      ∃ ss, seqTexts trees = .done ss ∧ s = stringJoin [' '] ss := by
    intro seq s hs
    obtain ⟨ss, hss, hs⟩ := Run.bind_eq_done hs
    cases hs
    obtain ⟨trees, htrees, hall⟩ := Run.Follows.each (fun el _ => h el) ss hss
    exact ⟨trees, htrees, ss, seqTexts_of_forall₂ hall, rfl⟩
  intro s hs
  obtain ⟨ts, hts, hs⟩ := Run.bind_eq_done hs
  cases hs
  obtain ⟨alts, halts, hall⟩ := Run.Follows.each (fun seq _ => hseq seq) ts hts
  refine ⟨alts, halts, ?_⟩
  show altsText alts = _
  rw [altsText, altsTexts_of_forall₂ hall]
  rfl

/-- One sequence's tree. -/
theorem treeAlts_single {n : Nat} {seq : Seq} {alts : List (List Tree)} (h : treeAlts cx lifted n [seq] = .done alts) :
    ∃ trees, alts = [trees] := by
  cases n with
  | zero => cases h
  | succ n =>
    obtain ⟨trees, -, h⟩ := Run.bind_eq_done h
    cases h
    exact ⟨trees, rfl⟩

/-- A reference's tree takes a repetition as it is where the reference is to a rule of the author's, to a group
or to an option over one. -/
theorem treeEl_isItem {n : Nat} {name : Text} {kind : Option Text} {t : Tree} (hk : abnfHelperKind cx name = .done kind)
    (h : treeEl cx lifted n (.ref name) = .done t) :
    if kind = some "group".toList then t.isItem = true
    else if kind = some "opt".toList then ∀ group, abnfOptGroup cx name = .done group → t.isItem = group
    else t.isItem = decide (kind = some []) := by
  cases n with
  | zero => cases h
  | succ n =>
    rw [treeEl, hk, Run.done_bind] at h
    rcases kind with _ | kind
    · cases h
    rw [Run.ofOption, Run.done_bind] at h
    simp only [Option.some.injEq]
    -- only an option asks what it is over before it is written
    split_ifs at h with hname hstar hplus hopt hrep hgroup
    · subst hname
      cases h
      rw [if_neg (by decide), if_neg (by decide)]
      rfl
    · subst hstar
      obtain ⟨item, -, h⟩ := Run.bind_eq_done h
      obtain ⟨tree, -, h⟩ := Run.bind_eq_done h
      cases h
      rw [if_neg (by decide), if_neg (by decide)]
      rfl
    · subst hplus
      obtain ⟨alts, -, h⟩ := Run.bind_eq_done h
      obtain ⟨item, -, h⟩ := Run.bind_eq_done h
      obtain ⟨tree, -, h⟩ := Run.bind_eq_done h
      cases h
      rw [if_neg (by decide), if_neg (by decide)]
      rfl
    · subst hopt
      rw [if_neg (by decide), if_pos rfl]
      intro group hgroup
      obtain ⟨alts, -, h⟩ := Run.bind_eq_done h
      obtain ⟨inner, -, h⟩ := Run.bind_eq_done h
      rw [hgroup, Run.done_bind] at h
      cases group with
      | true =>
        rw [if_pos rfl] at h
        obtain ⟨innerName, -, h⟩ := Run.bind_eq_done h
        obtain ⟨innerAlts, -, h⟩ := Run.bind_eq_done h
        obtain ⟨trees, -, h⟩ := Run.bind_eq_done h
        cases h
        rfl
      | false =>
        rw [if_neg Bool.false_ne_true] at h
        obtain ⟨tree, -, h⟩ := Run.bind_eq_done h
        cases h
        rfl
    · subst hrep
      obtain ⟨parts, -, h⟩ := Run.bind_eq_done h
      obtain ⟨tree, -, h⟩ := Run.bind_eq_done h
      cases h
      rw [if_neg (by decide), if_neg (by decide)]
      rfl
    · subst hgroup
      obtain ⟨alts, -, h⟩ := Run.bind_eq_done h
      obtain ⟨trees, -, h⟩ := Run.bind_eq_done h
      cases h
      rw [if_pos rfl]
      rfl

/-- What the render writes for a node at a depth is a tree's text. -/
structure WritesTrees (cx : Context) (lifted : List Text) (n : Nat) : Prop where
  alts : ∀ x, (abnfText cx lifted n (.alts x)).Follows (treeAlts cx lifted n x) fun s alts => altsText alts = .done s
  el : ∀ el, (abnfText cx lifted n (.el el)).Follows (treeEl cx lifted n el) fun s t => t.text = .done s
  atom : ∀ el, (abnfText cx lifted n (.atom el)).Follows (treeAtom cx lifted n el) fun s t => itemText t = .done s

/-- A reference's text, by the kind of the helper it is to. -/
theorem WritesTrees.ref {n : Nat} (ih : WritesTrees cx lifted n) (name : Text) :
    (abnfElText cx n lifted (abnfText cx lifted n) (.ref name)).Follows
      (treeEl cx lifted (n + 1) (.ref name)) fun s t =>
      t.text = .done s := by
  have hitem : ∀ count el,
    ((abnfText cx lifted n (.atom el)).bind fun t => (.done (Count.text count ++ t) : Out Text)).Follows
      ((treeAtom cx lifted n el).bind fun t => (.done (.rep count t) : Out Tree)) fun s t => t.text = .done s :=
        fun count el =>
    (ih.atom el).map fun _ _ hs => rep_text hs
  rw [treeEl]
  refine .after fun kind _ => .after fun kind _ => .ite (fun _ => ?_) fun _ => .ite (fun _ => ?_) fun _ =>
    .ite (fun _ => ?_) fun _ => .ite (fun _ => ?_) fun _ => .ite (fun _ => ?_) fun _ => .ite (fun _ => ?_) fun _ => ?_
  · intro s hs
    exact ⟨.ref name, rfl, hs⟩
  · exact .after fun item _ => hitem .star item
  · exact .after fun alts _ => .after fun item _ => hitem .plus item
  · refine .after fun alts _ => .after fun inner _ => .after fun group _ => .ite (fun _ => ?_) fun _ =>
      hitem .upToOne inner
    exact .after fun innerName _ => .after fun innerAlts _ => (ih.alts innerAlts).map fun _ _ hs => option_text hs
  · refine .after fun parts hparts => ?_
    refine (ih.atom parts.item).map fun s t hs => ?_
    rw [rep_text hs, RepParts.count_text hparts]
  · exact .after fun alts _ => (ih.alts alts).map fun _ _ hs => group_text hs
  · exact Run.follows_refused _

theorem WritesTrees.succ_el (hl : ∀ t ∈ lifted, abnfLegalName (abnfBare t) = true) {n : Nat}
    (ih : WritesTrees cx lifted n) (el : El) :
    (abnfText cx lifted (n + 1) (.el el)).Follows (treeEl cx lifted (n + 1) el) fun s t => t.text = .done s := by
  change (abnfElText cx n lifted (abnfText cx lifted n) el).Follows _ _
  cases el with
  | tok t =>
    intro s hs
    obtain ⟨tree, htree, htext, -⟩ := abnfTokenText_tree hl hs
    exact ⟨tree, htree, htext⟩
  | tail seq =>
    rw [treeEl]
    refine ((ih.alts [seq]).mono fun s alts halts hs => ?_).map fun s alts hs => tail_text hs
    obtain ⟨trees, rfl⟩ := treeAlts_single halts
    rwa [List.flatten_singleton]
  | grp seq =>
    rw [treeEl]
    exact (ih.alts [seq]).map fun _ _ hs => group_text hs
  | ref name => exact ih.ref name

/-- An item is written as it is, or in a group of its own. -/
theorem WritesTrees.succ_atom (hl : ∀ t ∈ lifted, abnfLegalName (abnfBare t) = true) {n : Nat}
    (ih : WritesTrees cx lifted n) (el : El) :
    (abnfText cx lifted (n + 1) (.atom el)).Follows (treeAtom cx lifted (n + 1) el) fun s t =>
      itemText t = .done s := by
  change (abnfAtomText cx lifted (abnfText cx lifted n) el).Follows _ _
  -- as a repetition's item a tree is written as it is, or in a group of its own
  have hasis : (∀ t, treeEl cx lifted n el = .done t → t.isItem = true) →
      (abnfText cx lifted n (.el el)).Follows (treeEl cx lifted n el) fun s t => itemText t = .done s := fun hitem =>
    (ih.el el).mono fun s t ht hs => text_item hs (hitem t ht)
  have halone : (∀ t, treeEl cx lifted n el = .done t → t.isItem = false) →
      ((abnfText cx lifted n (.el el)).bind fun t => (.done (grouped t) : Out Text)).Follows (treeEl cx lifted n el)
        fun s t =>
        itemText t = .done s := by
    intro hitem s hs
    obtain ⟨s', hs', hs⟩ := Run.bind_eq_done hs
    cases hs
    obtain ⟨t, ht, htext⟩ := ih.el el s' hs'
    exact ⟨t, ht, text_alone htext (hitem t ht)⟩
  cases el with
  | tok t =>
    intro s hs
    obtain ⟨tree, htree, htext, hitem⟩ := abnfTokenText_tree hl hs
    exact ⟨tree, htree, text_item htext hitem⟩
  | tail seq =>
    refine halone fun t ht => ?_
    cases n with
    | zero => cases ht
    | succ n =>
      obtain ⟨alts, -, ht⟩ := Run.bind_eq_done ht
      cases ht
      rfl
  | grp seq =>
    refine hasis fun t ht => ?_
    cases n with
    | zero => cases ht
    | succ n =>
      obtain ⟨alts, -, ht⟩ := Run.bind_eq_done ht
      cases ht
      rfl
  | ref name =>
    intro s hs
    obtain ⟨kind, hkind, hs⟩ := Run.bind_eq_done hs
    have hspec := fun t => @treeEl_isItem cx lifted n name kind t hkind
    split_ifs at hs hspec with hgroup hopt hname
    · exact hasis hspec s hs
    · obtain ⟨group, hover, hs⟩ := Run.bind_eq_done hs
      cases group with
      | true => exact hasis (fun t ht => hspec t ht true hover) s hs
      | false => exact halone (fun t ht => hspec t ht false hover) s hs
    · exact hasis (fun t ht => by rw [hspec t ht, hname]; rfl) s hs
    · exact halone (fun t ht => by rw [hspec t ht, decide_eq_false hname]) s hs

/-- What is written is the text of a tree. -/
theorem abnfText_tree (hl : ∀ t ∈ lifted, abnfLegalName (abnfBare t) = true) (n : Nat) : WritesTrees cx lifted n := by
  induction n with
  | zero => exact ⟨fun _ => Run.follows_spent, fun _ => Run.follows_spent, fun _ => Run.follows_spent⟩
  | succ n ih => exact ⟨follows_alts ih.el, ih.succ_el hl, ih.succ_atom hl⟩

end

end TabnasAbnf.Render
