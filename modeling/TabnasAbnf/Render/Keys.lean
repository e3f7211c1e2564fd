/-
What keys tell. A key is the text of an element's form, with the names of tokens and rules in it and brackets around
what a helper is over, and the form says what the element generates: where no name holds a mark that the text of a form
is divided by, elements with one key generate the same.
-/
import TabnasAbnf.Render.Inlined
import TabnasAbnf.Render.Unsub

namespace TabnasAbnf.Render

open TabnasAbnf.Base
open scoped Computability

/-! ## Forms -/

/-- What keys are the texts of: a name, a counted repetition, or a helper's alternatives under its kind. -/
inductive Form
  | leaf (w : Text)
  | rep (min max : Text) (f : Form)
  | node (kind : Text) (alts : List (List Form))

/-- The marks between the names in a key. -/
def isMark (c : Char) : Bool := c == ' ' || c == '(' || c == '|' || c == ')'

def noMark (w : Text) : Bool := w.all fun c => !isMark c

def repKey (min max k : Text) : Text := "rep(".toList ++ min ++ [','] ++ max ++ [','] ++ k ++ [')']

def kindKey (kind : Text) (ks : List Text) : Text := kind ++ ['('] ++ stringJoin ['|'] ks ++ [')']

mutual

def Form.text : Form → Text
  | .leaf w => w
  | .rep min max f => repKey min max f.text
  | .node kind alts => kindKey kind (formAltsTexts alts)

def formSeqTexts : List Form → List Text
  | [] => []
  | f :: seq => f.text :: formSeqTexts seq

def formAltsTexts : List (List Form) → List Text
  | [] => []
  | seq :: alts => stringJoin [' '] (formSeqTexts seq) :: formAltsTexts alts

end

/-- A name in a key: a rule's is marked. -/
def leafEl : Text → El
  | '@' :: name => .ref name
  | w => .tok w

mutual

/-- What a form's elements generate. -/
def Form.words : Form → Language El
  | .leaf w => single (leafEl w)
  | .rep min max f => repeated f.words (ofDigits 10 min) (if max = [] then none else some (ofDigits 10 max))
  | .node kind alts => if kind = ['*'] then (formAltsWords alts)∗ else formAltsWords alts

def formSeqWords : List Form → Language El
  | [] => 1
  | f :: seq => f.words * formSeqWords seq

def formAltsWords : List (List Form) → Language El
  | [] => 0
  | seq :: alts => formSeqWords seq + formAltsWords alts

end

mutual

/-- No name in the form is empty or holds a mark, and it has alternatives wherever a helper's are. -/
def Form.Well : Form → Prop
  | .leaf w => w ≠ [] ∧ noMark w = true
  | .rep min max f => ',' ∉ min ∧ ',' ∉ max ∧ f.Well
  | .node kind alts => kind ≠ [] ∧ noMark kind = true ∧ kind ≠ "rep".toList ∧ alts ≠ [] ∧ formAltsWell alts

def formSeqWell : List Form → Prop
  | [] => True
  | f :: seq => f.Well ∧ formSeqWell seq

def formAltsWell : List (List Form) → Prop
  | [] => True
  | seq :: alts => formSeqWell seq ∧ formAltsWell alts

end

/-! ## The form that a text is of -/

/-- Words that end at the first of some marks can be told from what follows. -/
theorem split_marks {p : Char → Bool} {w w' s s' : Text} (hw : ∀ c ∈ w, p c = false) (hw' : ∀ c ∈ w', p c = false)
    (hs : ∀ c ∈ s.head?, p c = true) (hs' : ∀ c ∈ s'.head?, p c = true) (h : w ++ s = w' ++ s') : w = w' ∧ s = s' := by
  induction w generalizing w' with
  | nil =>
    cases w' with
    | nil => exact ⟨rfl, h⟩
    | cons c w' =>
      rw [List.nil_append] at h
      have hmark := hs c (by rw [h]; rfl)
      rw [hw' c List.mem_cons_self] at hmark
      cases hmark
  | cons c w ih =>
    cases w' with
    | nil =>
      rw [List.nil_append] at h
      have hmark := hs' c (by rw [← h]; rfl)
      rw [hw c List.mem_cons_self] at hmark
      cases hmark
    | cons c' w' =>
      rw [List.cons_append, List.cons_append, List.cons.injEq] at h
      obtain ⟨rfl, rfl⟩ :=
        ih (fun d hd => hw d (List.mem_cons_of_mem _ hd)) (fun d hd => hw' d (List.mem_cons_of_mem _ hd)) h.2
      rw [h.1]
      exact ⟨rfl, rfl⟩

/-- Texts before a comma. -/
theorem split_comma {w w' s s' : Text} (hw : ',' ∉ w) (hw' : ',' ∉ w') (h : w ++ ',' :: s = w' ++ ',' :: s') :
    w = w' ∧ s = s' := by
  have hplain : ∀ {v : Text}, ',' ∉ v → ∀ c ∈ v, (c == ',') = false := by
    intro v hv c hc
    rw [beq_eq_false_iff_ne]
    rintro rfl
    exact hv hc
  obtain ⟨rfl, hs⟩ := split_marks (p := (· == ',')) (hplain hw) (hplain hw') (by simp) (by simp) h
  exact ⟨rfl, (List.cons.inj hs).2⟩

theorem noMark_iff {w : Text} : noMark w = true ↔ ∀ c ∈ w, isMark c = false := by
  simp [noMark]

theorem split_noMark {w w' s s' : Text} (hw : noMark w = true) (hw' : noMark w' = true)
    (hs : ∀ c ∈ s.head?, isMark c = true)
    (hs' : ∀ c ∈ s'.head?, isMark c = true) (h : w ++ s = w' ++ s') : w = w' ∧ s = s' :=
  split_marks (noMark_iff.1 hw) (noMark_iff.1 hw') hs hs' h

/-- What stands behind the first of some joined texts. -/
def joinRest (c : Char) : List Text → Text
  | [] => []
  | x :: xs => c :: stringJoin [c] (x :: xs)

theorem stringJoin_rest (c : Char) (x : Text) (xs : List Text) : stringJoin [c] (x :: xs) = x ++ joinRest c xs := by
  rcases xs with _ | ⟨y, ys⟩
  · simp [stringJoin, joinRest]
  · rw [stringJoin_cons _ _ (List.cons_ne_nil _ _), joinRest, List.append_assoc, List.singleton_append]

theorem Form.text_leaf (w : Text) : (Form.leaf w).text = w := by rw [Form.text]

theorem Form.text_repKey (min max : Text) (f : Form) : (Form.rep min max f).text = repKey min max f.text := by
  rw [Form.text]

theorem Form.text_rep (min max : Text) (f : Form) (s : Text) :
    (Form.rep min max f).text ++ s = "rep".toList ++ '(' :: (min ++ ',' :: (max ++ ',' :: (f.text ++ ')' :: s))) := by
  rw [Form.text_repKey]
  unfold repKey
  simp only [List.append_assoc, List.cons_append, List.nil_append]
  rfl

theorem Form.text_node (kind : Text) (alts : List (List Form)) (s : Text) :
    (Form.node kind alts).text ++ s = kind ++ '(' :: (stringJoin ['|'] (formAltsTexts alts) ++ ')' :: s) := by
  rw [Form.text, kindKey]
  simp only [List.append_assoc, List.cons_append, List.nil_append]

/-- What may stand behind a form, behind a sequence and behind alternatives. -/
def Ends (marks : List Char) (s : Text) : Prop := ∀ c ∈ s.head?, c ∈ marks

theorem Ends.mark {marks : List Char} {s : Text} (h : Ends marks s) (hall : marks.all isMark = true) :
    ∀ c ∈ s.head?, isMark c = true := fun c hc => List.all_eq_true.1 hall c (h c hc)

/-- A form's text begins with no mark. -/
theorem Form.text_head {f : Form} (h : f.Well) : ∃ c s, f.text = c :: s ∧ isMark c = false := by
  have hfirst : ∀ {w s : Text}, w ≠ [] → noMark w = true → ∃ c s', w ++ s = c :: s' ∧ isMark c = false := by
    intro w s hne hw
    obtain ⟨c, w, rfl⟩ := List.exists_cons_of_ne_nil hne
    exact ⟨c, _, rfl, noMark_iff.1 hw c List.mem_cons_self⟩
  rw [← List.append_nil f.text]
  cases f with
  | leaf w =>
    rw [Form.Well] at h
    rw [Form.text_leaf]
    exact hfirst h.1 h.2
  | rep min max f =>
    rw [Form.text_rep]
    exact hfirst (by decide) (by decide)
  | node kind alts =>
    rw [Form.Well] at h
    rw [Form.text_node]
    exact hfirst h.1 h.2.1

theorem mark_cons {c : Char} {s : Text} (h : isMark c = true) : ∀ d ∈ (c :: s).head?, isMark d = true := by
  intro d hd
  cases hd
  exact h

theorem Ends.cons {marks : List Char} {c : Char} {s : Text} (h : c ∈ marks) : Ends marks (c :: s) := by
  intro d hd
  cases hd
  exact h

/-- A name is not taken for a form with brackets. -/
theorem leaf_ne {w kind s t : Text} (hw : noMark w = true) (hkind : noMark kind = true) (hs : Ends [' ', '|', ')'] s) :
    w ++ s ≠ kind ++ '(' :: t := by
  intro heq
  obtain ⟨-, rfl⟩ := split_noMark hw hkind (hs.mark (by decide)) (mark_cons (by decide)) heq
  exact absurd (hs '(' rfl) (by decide)

/-- Forms with brackets have one name in front of them. -/
theorem open_inj {kind kind' s s' : Text} (hkind : noMark kind = true) (hkind' : noMark kind' = true)
    (heq : kind ++ '(' :: s = kind' ++ '(' :: s') : kind = kind' ∧ s = s' := by
  obtain ⟨rfl, hs⟩ := split_noMark hkind hkind' (mark_cons (by decide)) (mark_cons (by decide)) heq
  exact ⟨rfl, (List.cons.inj hs).2⟩

mutual

theorem Form.text_inj :
    ∀ (f f' : Form) {s s' : Text}, f.Well → f'.Well → Ends [' ', '|', ')'] s → Ends [' ', '|', ')'] s' →
    f.text ++ s = f'.text ++ s' → f = f' ∧ s = s'
  | .leaf w, f', s, s', h, h', hs, hs', heq => by
    rw [Form.Well] at h
    rw [Form.text_leaf] at heq
    cases f' with
    | leaf w' =>
      rw [Form.Well] at h'
      rw [Form.text_leaf] at heq
      obtain ⟨rfl, rfl⟩ := split_noMark h.2 h'.2 (hs.mark (by decide)) (hs'.mark (by decide)) heq
      exact ⟨rfl, rfl⟩
    | rep min max f =>
      rw [Form.text_rep] at heq
      exact absurd heq (leaf_ne h.2 (by decide) hs)
    | node kind alts =>
      rw [Form.Well] at h'
      rw [Form.text_node] at heq
      exact absurd heq (leaf_ne h.2 h'.2.1 hs)
  | .rep min max f, f', s, s', h, h', hs, hs', heq => by
    rw [Form.Well] at h
    rw [Form.text_rep] at heq
    cases f' with
    | leaf w' =>
      rw [Form.Well] at h'
      rw [Form.text_leaf] at heq
      exact absurd heq.symm (leaf_ne h'.2 (by decide) hs')
    | rep min' max' f' =>
      rw [Form.Well] at h'
      rw [Form.text_rep] at heq
      have hinner := (open_inj (by decide) (by decide) heq).2
      obtain ⟨hmin, hinner⟩ := split_comma h.1 h'.1 hinner
      obtain ⟨hmax, hinner⟩ := split_comma h.2.1 h'.2.1 hinner
      obtain ⟨hf, hrest⟩ := Form.text_inj f f' h.2.2 h'.2.2 (.cons (by decide)) (.cons (by decide)) hinner
      rw [hmin, hmax, hf]
      exact ⟨rfl, (List.cons.inj hrest).2⟩
    | node kind alts =>
      rw [Form.Well] at h'
      rw [Form.text_node] at heq
      exact absurd (open_inj (by decide) h'.2.1 heq).1.symm h'.2.2.1
  | .node kind alts, f', s, s', h, h', hs, hs', heq => by
    rw [Form.Well] at h
    rw [Form.text_node] at heq
    cases f' with
    | leaf w' =>
      rw [Form.Well] at h'
      rw [Form.text_leaf] at heq
      exact absurd heq.symm (leaf_ne h'.2 h.2.1 hs')
    | rep min' max' f' =>
      rw [Form.text_rep] at heq
      exact absurd (open_inj h.2.1 (by decide) heq).1 h.2.2.1
    | node kind' alts' =>
      rw [Form.Well] at h'
      rw [Form.text_node] at heq
      obtain ⟨hkind, hinner⟩ := open_inj h.2.1 h'.2.1 heq
      obtain ⟨halts, hrest⟩ := formAltsTexts_inj alts alts' h.2.2.2.2 h'.2.2.2.2 h.2.2.2.1 h'.2.2.2.1 hinner
      rw [hkind, halts]
      exact ⟨rfl, hrest⟩

theorem formSeqTexts_inj :
    ∀ (seq seq' : List Form) {s s' : Text}, formSeqWell seq → formSeqWell seq' → Ends ['|', ')'] s →
    Ends ['|', ')'] s' → stringJoin [' '] (formSeqTexts seq) ++ s = stringJoin [' '] (formSeqTexts seq') ++ s' →
      seq = seq' ∧ s = s'
  | [], seq', s, s', h, h', hs, hs', heq => by
    cases seq' with
    | nil => exact ⟨rfl, heq⟩
    | cons f' seq' =>
      rw [formSeqWell] at h'
      obtain ⟨c, t, ht, hc⟩ := Form.text_head h'.1
      rw [formSeqTexts, formSeqTexts, stringJoin_rest, ht] at heq
      have hmark := hs.mark (by decide) c (by rw [show s = _ from heq]; rfl)
      rw [hc] at hmark
      cases hmark
  | f :: seq, seq', s, s', h, h', hs, hs', heq => by
    rw [formSeqWell] at h
    cases seq' with
    | nil =>
      obtain ⟨c, t, ht, hc⟩ := Form.text_head h.1
      rw [formSeqTexts, formSeqTexts, stringJoin_rest, ht] at heq
      have hmark := hs'.mark (by decide) c (by rw [show s' = _ from heq.symm]; rfl)
      rw [hc] at hmark
      cases hmark
    | cons f' seq' =>
      rw [formSeqWell] at h'
      rw [formSeqTexts, formSeqTexts, stringJoin_rest, stringJoin_rest, List.append_assoc, List.append_assoc] at heq
      have hends : ∀ {seq : List Form} {s : Text}, Ends ['|', ')'] s →
          Ends [' ', '|', ')'] (joinRest ' ' (formSeqTexts seq) ++ s) := by
        intro seq s hs
        cases seq with
        | nil => exact fun c hc => List.mem_cons_of_mem _ (hs c hc)
        | cons g seq => exact .cons List.mem_cons_self
      obtain ⟨hf, hrest⟩ := Form.text_inj f f' h.1 h'.1 (hends hs) (hends hs') heq
      rw [hf]
      -- a space is followed by a sequence, and nothing else ends in one
      cases seq with
      | nil =>
        cases seq' with
        | nil => exact ⟨rfl, hrest⟩
        | cons g' seq' =>
          have hblank := hs ' ' (by rw [show s = _ from hrest]; rfl)
          exact absurd hblank (by decide)
      | cons g seq =>
        cases seq' with
        | nil =>
          have hblank := hs' ' ' (by rw [show s' = _ from hrest.symm]; rfl)
          exact absurd hblank (by decide)
        | cons g' seq' =>
          obtain ⟨hseq, hs⟩ := formSeqTexts_inj (g :: seq) (g' :: seq') h.2 h'.2 hs hs' (List.cons.inj hrest).2
          rw [hseq]
          exact ⟨rfl, hs⟩

theorem formAltsTexts_inj : ∀ (alts alts' : List (List Form)) {s s' : Text}, formAltsWell alts → formAltsWell alts' →
    alts ≠ [] → alts' ≠ [] →
      stringJoin ['|'] (formAltsTexts alts) ++ ')' :: s = stringJoin ['|'] (formAltsTexts alts') ++ ')' :: s' →
        alts = alts' ∧ s = s'
  | [], _, _, _, _, _, hne, _, _ => absurd rfl hne
  | _ :: _, [], _, _, _, _, _, hne, _ => absurd rfl hne
  | seq :: alts, seq' :: alts', s, s', h, h', _, _, heq => by
    rw [formAltsWell] at h h'
    rw [formAltsTexts, formAltsTexts, stringJoin_rest, stringJoin_rest, List.append_assoc, List.append_assoc] at heq
    have hends :
        ∀ {alts : List (List Form)} {s : Text}, Ends ['|', ')'] (joinRest '|' (formAltsTexts alts) ++ ')' :: s) := by
      intro alts s
      cases alts with
      | nil => exact .cons (by decide)
      | cons seq alts => exact .cons (by decide)
    obtain ⟨hseq, hrest⟩ := formSeqTexts_inj seq seq' h.1 h'.1 hends hends heq
    rw [hseq]
    cases alts with
    | nil =>
      cases alts' with
      | nil => exact ⟨rfl, (List.cons.inj hrest).2⟩
      | cons g' alts' => exact absurd (List.cons.inj hrest).1 (by decide)
    | cons g alts =>
      cases alts' with
      | nil => exact absurd (List.cons.inj hrest).1 (by decide)
      | cons g' alts' =>
        obtain ⟨halts, hs⟩ := formAltsTexts_inj (g :: alts) (g' :: alts') h.2 h'.2 (List.cons_ne_nil _ _)
          (List.cons_ne_nil _ _) (List.cons.inj hrest).2
        rw [halts]
        exact ⟨rfl, hs⟩

end

/-- Forms can be told by their texts. -/
theorem Form.text_injective {f f' : Form} (h : f.Well) (h' : f'.Well) (heq : f.text = f'.text) : f = f' := by
  have hnil : Ends [' ', '|', ')'] [] := fun c hc => by cases hc
  exact (Form.text_inj f f' h h' hnil hnil (by rw [heq])).1

/-! ## Elements that have forms -/

/-- A token or a reference. -/
def Bare (el : El) : Prop := ∃ name, el = .tok name ∨ el = .ref name

/-- No tail repeat is in the element. -/
inductive Tailless : El → Prop
  | bare {el} : Bare el → Tailless el
  | grp {seq} : (∀ el ∈ seq, Tailless el) → Tailless (.grp seq)

section

variable {cx : Context} {name : Text} {el item : El}

theorem bare_chainWalk {left : Nat} {acc els : Seq} (hacc : ∀ el ∈ acc, Bare el)
    (h : abnfChainWalk cx left name acc = .done els) :
    ∀ el ∈ els, Bare el := by
  have hstep : ∀ {name : Text} {acc : Seq}, (∀ el ∈ acc, Bare el) →
      ∀ el ∈ acc ++ abnfEntryEls (abnfOpen (abnfRule cx name)).head?, Bare el := by
    intro name acc hacc el hel
    rcases List.mem_append.1 hel with hel | hel
    · exact hacc el hel
    · rcases ho : abnfOpen (abnfRule cx name) with _ | ⟨alt, alts⟩
      · rw [ho] at hel
        cases hel
      · rw [ho] at hel
        exact mem_entryEls hel
  induction left generalizing name acc with
  | zero =>
    rcases chainWalk_done h with ⟨-, rfl⟩ | ⟨-, left', hleft, -⟩
    · exact hstep hacc
    · cases hleft
  | succ left ih =>
    rcases chainWalk_done h with ⟨-, rfl⟩ | ⟨-, left', hleft, h⟩
    · exact hstep hacc
    · cases hleft
      exact ih (hstep hacc) h

theorem bare_chain {els : Seq} (h : abnfChain cx name = .done els) : ∀ el ∈ els, Bare el := bare_chainWalk (by simp) h

theorem bare_simpleAlts (r : Option Json) : AllEls Bare (abnfSimpleAlts r) := by
  intro seq hseq
  rcases List.mem_append.1 hseq with hseq | hseq
  · split at hseq
    · cases hseq
    · rw [List.eq_of_mem_replicate hseq]
      simp
  · obtain ⟨alt, -, hseq⟩ := List.mem_flatMap.1 (List.mem_of_mem_filter ((abnfNumberOrder_perm _).mem_iff.1 hseq))
    rw [List.eq_of_mem_replicate hseq]
    exact fun el => mem_entryEls

theorem bare_dispatchAlts {alts : List Seq} (h : abnfDispatchAlts cx name (abnfRule cx name) = .done alts) :
    AllEls Bare alts := by
  unfold abnfDispatchAlts at h
  simp only at h
  split at h
  · cases h
  · split at h
    · obtain ⟨heads, hheads, h⟩ := Run.bind_eq_done h
      cases h
      intro seq hseq
      rcases List.mem_append.1 hseq with hseq | hseq
      · obtain ⟨i, -, hi⟩ := Run.mem_each hheads hseq
        exact bare_chain hi
      · split at hseq
        · rw [List.mem_singleton.1 hseq]
          simp
        · cases hseq
    · intro seq hseq
      obtain ⟨i, -, hi⟩ := Run.mem_each h hseq
      split at hi
      · exact bare_chain hi
      · cases hi
        simp
    · cases h

/-- The alternatives of a rule that is no tail repeat are of tokens and references. -/
theorem bare_rawAlts {raw : List Seq} (htail : abnfIsTail name (abnfRule cx name) = false)
    (h : abnfRawAlts cx name = .done raw) : AllEls Bare raw := by
  unfold abnfRawAlts at h
  simp only [htail, Bool.false_eq_true, if_false] at h
  split at h
  · exact bare_dispatchAlts h
  · split at h
    · cases h
      exact bare_simpleAlts _
    · split at h
      · cases h
        exact bare_simpleAlts _
      · obtain ⟨seq, hseq, h⟩ := Run.bind_eq_done h
        cases h
        intro seq' hseq'
        rw [List.mem_singleton.1 hseq']
        exact bare_chain hseq

theorem Loop.item_bare {loop : Text} (h : Loop cx loop item) : Bare item := by
  obtain ⟨alt, -, hcont⟩ := h.continues
  cases hcont with
  | token hitem _ _ _ _ => exact ⟨_, .inl hitem⟩
  | step _ _ hstep => exact ⟨_, .inr hstep.item_eq.1⟩

theorem Only.bare {seq : Seq} (h : Only cx name seq) (hlossless : Lossless cx name) : ∀ el ∈ seq, Bare el := by
  obtain ⟨raw, hraw, hmem⟩ := h
  exact bare_rawAlts hlossless.tail hraw seq ((hmem seq).2 rfl)

theorem Copies.item_bare {seq : Seq} (h : Copies cx name item seq) (honly : Only cx name seq)
    (hlossless : Lossless cx name) :
    Bare item := by
  cases h with
  | exactly _ => exact honly.bare hlossless item (List.mem_replicate.2 ⟨Nat.succ_ne_zero _, rfl⟩)
  | atLeast _ hloop => exact hloop.item_bare
  | upTo hchain =>
    have haround := hchain.innermost.2
    exact haround.alts.bare haround.lossless item List.mem_cons_self

/-- The names that a spec is made of hold no mark of a key, and each factored tail and group has an alternative. -/
structure KeyNames (cx : Context) : Prop extends PlainNames cx where
  tokens : ∀ t ∈ usedTokens cx, t ≠ [] ∧ noMark t = true
  rules : ∀ n ∈ usedRules cx, noMark n = true
  filled :
    ∀ n ∈ usedRules cx, ∀ kind, abnfHelperKind cx n = .done (some kind) → kind = "fact".toList ∨ kind = "group".toList →
    abnfRawAlts cx n ≠ .done []

/-- An element the key of which tells what it generates. -/
structure Keyed (cx : Context) (el : El) : Prop where
  formed : Formed cx el
  made : Made cx el
  tailless : Tailless el

theorem keyed_inherited : Inherited cx (Keyed cx) := by
  constructor
  · intro name kind alts hkind hk h halts seq hseq el hel
    have hbare := bare_rawAlts (h.formed.inside hkind hk).1.tail halts
    exact ⟨formed_inherited.inside hkind hk h.formed halts seq hseq el hel, made_rawAlts halts seq hseq el hel,
      .bare (hbare seq hseq el hel)⟩
  · exact fun h =>
      ⟨.grp fun el hel => (h el hel).formed, .grp fun el hel => (h el hel).made, .grp fun el hel => (h el hel).tailless⟩

/-! ## Words there are -/

theorem single_ne_zero {α : Type} (a : α) : single a ≠ (0 : Language α) := fun h => by
  have hmem : [a] ∈ single a := rfl
  rw [h] at hmem
  exact Language.notMem_zero _ hmem

theorem ne_zero_of_mem {α : Type} {l : Language α} {w : List α} (h : w ∈ l) : l ≠ 0 := by
  rintro rfl
  exact Language.notMem_zero w h

theorem exists_word {α : Type} {l : Language α} (h : l ≠ 0) : ∃ w, w ∈ l := by
  by_contra hnone
  refine h (Language.ext fun w => iff_of_false (fun hw => hnone ⟨w, hw⟩) (Language.notMem_zero w))

theorem seqWords_ne_zero {seq : Seq} (h : ∀ el ∈ seq, el.words cx ≠ 0) : seqWords cx seq ≠ 0 := by
  induction seq with
  | nil => exact ne_zero_of_mem Language.nil_mem_one
  | cons el seq ih =>
    obtain ⟨u, hu⟩ := exists_word (h el List.mem_cons_self)
    obtain ⟨w, hw⟩ := exists_word (ih fun e he => h e (List.mem_cons_of_mem _ he))
    rw [seqWords]
    exact ne_zero_of_mem (Language.append_mem_mul hu hw)

theorem one_add_ne_zero {α : Type} (l : Language α) : 1 + l ≠ 0 :=
  ne_zero_of_mem ((Language.mem_add _ _ _).2 (.inl Language.nil_mem_one))

theorem altsWords_ne_zero {alts : List Seq} (hne : alts ≠ []) (h : ∀ seq ∈ alts, ∀ el ∈ seq, el.words cx ≠ 0) :
    altsWords cx alts ≠ 0 := by
  obtain ⟨seq, alts, rfl⟩ := List.exists_cons_of_ne_nil hne
  obtain ⟨w, hw⟩ := exists_word (seqWords_ne_zero (h seq List.mem_cons_self))
  exact ne_zero_of_mem (mem_altsWords.2 ⟨seq, List.mem_cons_self, hw⟩)

/-- A helper of the shape of its kind generates some word. -/
theorem Formed.words_ne_zero (hnames : KeyNames cx) (h : Formed cx el) (hmade : Made cx el) : el.words cx ≠ 0 := by
  induction h with
  | tok =>
    rw [El.words]
    exact single_ne_zero _
  | rule hrule =>
    rw [words_rule hrule]
    exact single_ne_zero _
  | tail => exact one_add_ne_zero _
  | grp _ ih =>
    cases hmade with
    | grp hall => exact seqWords_ne_zero fun e he => ih e he (hall e he)
  | star _ hloop _ _ =>
    rw [words_made hloop.made, hloop.words]
    exact ne_zero_of_mem (Language.nil_mem_kstar _)
  | plus hkind hlossless honly _ hloop _ ih =>
    rw [words_made (made_of_kind hkind (by decide)), honly.words hlossless]
    obtain ⟨raw, hraw, hmem⟩ := honly
    have hmades := made_rawAlts hraw _ ((hmem _).2 rfl)
    refine seqWords_ne_zero fun e he => ?_
    rcases List.mem_cons.1 he with rfl | he
    · exact ih (hmades e List.mem_cons_self)
    · rw [List.mem_singleton.1 he, words_made hloop.made, hloop.words]
      exact ne_zero_of_mem (Language.nil_mem_kstar _)
  | opt hover _ _ _ =>
    rw [hover.words]
    exact one_add_ne_zero _
  | rep hkind hlossless honly hcopies _ ih =>
    rw [words_made (made_of_kind hkind (by decide)), honly.words hlossless]
    obtain ⟨raw, hraw, hmem⟩ := honly
    have hmades := made_rawAlts hraw _ ((hmem _).2 rfl)
    refine seqWords_ne_zero fun e he => ?_
    have hitem : ∀ {n item}, e ∈ List.replicate n item → (Made cx item → item.words cx ≠ 0) → e.words cx ≠ 0 := by
      intro n item hin ih
      have heq := List.eq_of_mem_replicate hin
      exact heq ▸ ih (heq ▸ hmades e he)
    cases hcopies with
    | exactly _ => exact hitem he ih
    | atLeast _ hloop =>
      rcases List.mem_append.1 he with he | he
      · exact hitem he ih
      · rw [List.mem_singleton.1 he, words_made hloop.made, hloop.words]
        exact ne_zero_of_mem (Language.nil_mem_kstar _)
    | upTo hchain =>
      rcases List.mem_append.1 he with he | he
      · exact hitem he ih
      · rw [List.mem_singleton.1 he, hchain.words]
        exact ne_zero_of_mem (mem_repeated.2 ⟨0, le_rfl, fun _ _ => Nat.zero_le _, Language.nil_mem_one⟩)
  | @alts name kind raw hkind hk hlossless hraw _ ih =>
    rw [words_made (made_of_kind hkind (by rcases hk with rfl | rfl <;> decide)), ← rawAlts_words hlossless hraw]
    refine altsWords_ne_zero (fun hnil => ?_) fun seq hseq e he => ih seq hseq e he (made_rawAlts hraw seq hseq e he)
    rw [hnil] at hraw
    cases hmade with
    | ref hin => exact hnames.filled _ hin _ hkind hk hraw

/-! ## Keys are texts of forms -/

/-- The text is of a form that generates the language. -/
def Tells (k : Text) (l : Language El) : Prop := ∃ f : Form, f.Well ∧ f.text = k ∧ f.words = l

theorem seq_form {self : El → Out Text} {seq : Seq} {ks : List Text}
    (hself : ∀ el ∈ seq, ∀ k, self el = .done k → Tells k (el.words cx)) (h : Run.each self seq = .done ks) :
    ∃ fs, formSeqWell fs ∧ formSeqTexts fs = ks ∧ formSeqWords fs = seqWords cx seq := by
  induction seq generalizing ks with
  | nil =>
    cases h
    refine ⟨[], ?_, rfl, ?_⟩
    · rw [formSeqWell]
      trivial
    · rw [formSeqWords, seqWords]
  | cons el seq ih =>
    obtain ⟨k, hk, h⟩ := Run.bind_eq_done h
    obtain ⟨ks', hks, h⟩ := Run.bind_eq_done h
    cases h
    obtain ⟨f, hf, rfl, hwords⟩ := hself el List.mem_cons_self k hk
    obtain ⟨fs, hfs, rfl, hseq⟩ := ih (fun e he => hself e (List.mem_cons_of_mem _ he)) hks
    refine ⟨f :: fs, ?_, ?_, ?_⟩
    · rw [formSeqWell]
      exact ⟨hf, hfs⟩
    · rw [formSeqTexts]
    · rw [formSeqWords, seqWords, hwords, hseq]

theorem alts_form {self : El → Out Text} {alts : List Seq} {ks : List Text}
    (hself : ∀ seq ∈ alts, ∀ el ∈ seq, ∀ k, self el = .done k → Tells k (el.words cx))
    (h : Run.each (keySeq self) alts = .done ks) :
    ∃ fss, formAltsWell fss ∧ formAltsTexts fss = ks ∧ formAltsWords fss = altsWords cx alts := by
  induction alts generalizing ks with
  | nil =>
    cases h
    refine ⟨[], ?_, rfl, ?_⟩
    · rw [formAltsWell]
      trivial
    · rw [formAltsWords]
      rfl
  | cons seq alts ih =>
    obtain ⟨k, hk, h⟩ := Run.bind_eq_done h
    obtain ⟨ks', hks, h⟩ := Run.bind_eq_done h
    cases h
    obtain ⟨js, hjs, hk⟩ := Run.bind_eq_done hk
    cases hk
    obtain ⟨fs, hfs, rfl, hseq⟩ := seq_form (hself seq List.mem_cons_self) hjs
    obtain ⟨fss, hfss, rfl, halts⟩ := ih (fun seq' hseq' => hself seq' (List.mem_cons_of_mem _ hseq')) hks
    refine ⟨fs :: fss, ?_, ?_, ?_⟩
    · rw [formAltsWell]
      exact ⟨hfs, hfss⟩
    · rw [formAltsTexts]
    · rw [formAltsWords, hseq, halts, ← List.singleton_append, altsWords_append, altsWords_single]

/-- A key under a kind, of alternatives that there are. -/
theorem tells_kind (kind : Text) {fss : List (List Form)} {l : Language El} (hkind : kind ≠ [])
    (hmark : noMark kind = true)
    (hrep : kind ≠ "rep".toList) (hstar : kind ≠ ['*']) (hwell : formAltsWell fss) (hwords : formAltsWords fss = l)
    (hne : l ≠ 0) : Tells (kindKey kind (formAltsTexts fss)) l := by
  refine ⟨.node kind fss, ?_, ?_, ?_⟩
  · rw [Form.Well]
    refine ⟨hkind, hmark, hrep, ?_, hwell⟩
    rintro rfl
    rw [formAltsWords] at hwords
    exact hne hwords.symm
  · rw [Form.text]
  · rw [Form.words, if_neg hstar, hwords]

theorem leafEl_tok {t : Text} (h : t.head? ≠ some '@') : leafEl t = .tok t := by
  unfold leafEl
  split
  · exact absurd rfl h
  · rfl

theorem comma_abnfNum (n : Nat) : ',' ∉ abnfNum n := fun h =>
  absurd (List.all_eq_true.1 (abnfNum_digits n).2.1 _ h) (by decide)

theorem kindKey_single (kind k : Text) : kindKey kind [k] = kind ++ ['('] ++ k ++ [')'] := by
  rw [kindKey, stringJoin_rest, joinRest, List.append_nil]

/-- Only a rule that is not the compiler's is read as one. -/
theorem Formed.kind (h : Formed cx (.ref name)) : abnfMade cx name = .done false ∨
    ∃ kind, kind ≠ [] ∧ abnfHelperKind cx name = .done (some kind) := by
  cases h with
  | rule hmade => exact .inl hmade
  | star hkind _ _ => exact .inr ⟨_, by decide, hkind⟩
  | plus hkind _ _ _ _ _ => exact .inr ⟨_, by decide, hkind⟩
  | opt hover _ _ => exact .inr ⟨_, by decide, hover.kind⟩
  | rep hkind _ _ _ _ => exact .inr ⟨_, by decide, hkind⟩
  | alts hkind hk _ _ _ =>
    refine .inr ⟨_, ?_, hkind⟩
    rcases hk with rfl | rfl <;> decide

theorem Formed.loop (h : Formed cx (.ref name)) (hkind : abnfHelperKind cx name = .done (some "star".toList)) :
    ∃ item, Loop cx name item ∧ Formed cx item := by
  have hother : ∀ {other : Text}, abnfHelperKind cx name = .done (some other) → "star".toList = other := fun hother =>
    Option.some.inj (Run.done.inj (hkind.symm.trans hother))
  cases h with
  | rule hmade =>
    rw [abnfHelperKind, hmade] at hkind
    cases hkind
  | star _ hloop hitem => exact ⟨_, hloop, hitem⟩
  | plus hkind' _ _ _ _ _ => exact absurd (hother hkind') (by decide)
  | opt hover _ _ => exact absurd (hother hover.kind) (by decide)
  | rep hkind' _ _ _ _ => exact absurd (hother hkind') (by decide)
  | alts hkind' hk _ _ _ => rcases hk with rfl | rfl <;> exact absurd (hother hkind') (by decide)

theorem Formed.counted (h : Formed cx (.ref name)) (hkind : abnfHelperKind cx name = .done (some "rep".toList)) :
    ∃ item seq, Lossless cx name ∧ Only cx name seq ∧ Copies cx name item seq ∧ Formed cx item := by
  have hother : ∀ {other : Text}, abnfHelperKind cx name = .done (some other) → "rep".toList = other := fun hother =>
    Option.some.inj (Run.done.inj (hkind.symm.trans hother))
  cases h with
  | rule hmade =>
    rw [abnfHelperKind, hmade] at hkind
    cases hkind
  | star hkind' _ _ => exact absurd (hother hkind') (by decide)
  | plus hkind' _ _ _ _ _ => exact absurd (hother hkind') (by decide)
  | opt hover _ _ => exact absurd (hother hover.kind) (by decide)
  | rep _ hlossless honly hcopies hitem => exact ⟨_, _, hlossless, honly, hcopies, hitem⟩
  | alts hkind' hk _ _ _ => rcases hk with rfl | rfl <;> exact absurd (hother hkind') (by decide)

/-- The alternatives of a helper that is neither a loop nor a counted repetition. -/
theorem Formed.body {kind : Text} (h : Formed cx (.ref name)) (hkind : abnfHelperKind cx name = .done (some kind))
    (hne : kind ≠ []) (hstar : kind ≠ "star".toList) (hrep : kind ≠ "rep".toList) :
    (kind = "plus".toList ∨ kind = "opt".toList ∨ kind = "fact".toList ∨ kind = "group".toList) ∧ Lossless cx name ∧
      ∃ raw, abnfRawAlts cx name = .done raw ∧ AllEls (Formed cx) raw := by
  have hsame : ∀ {other : Text}, abnfHelperKind cx name = .done (some other) → kind = other := fun hother =>
    Option.some.inj (Run.done.inj (hkind.symm.trans hother))
  cases h with
  | rule hmade =>
    rw [abnfHelperKind, hmade] at hkind
    exact absurd (Option.some.inj (Run.done.inj hkind)).symm hne
  | star hkind' _ _ => exact absurd (hsame hkind') hstar
  | rep hkind' _ _ _ _ => exact absurd (hsame hkind') hrep
  | plus hkind' hlossless honly hloopKind hloop hitem =>
    obtain ⟨raw, hraw, hmem⟩ := honly
    refine ⟨.inl (hsame hkind'), hlossless, raw, hraw, fun seq hseq el hel => ?_⟩
    rw [(hmem seq).1 hseq] at hel
    rcases List.mem_cons.1 hel with rfl | hel
    · exact hitem
    · rw [List.mem_singleton.1 hel]
      exact .star hloopKind hloop hitem
  | opt hover _ hinner =>
    obtain ⟨raw, hraw, hmem⟩ := hover.alts
    refine ⟨.inr (.inl (hsame hover.kind)), hover.lossless, raw, hraw, fun seq hseq el hel => ?_⟩
    rcases (hmem seq).1 hseq with rfl | rfl
    · cases hel
    · rwa [List.mem_singleton.1 hel]
  | alts hkind' hk hlossless hraw hall =>
    rw [hsame hkind']
    exact ⟨.inr (.inr hk), hlossless, _, hraw, hall⟩

theorem Keyed.inside {seq : Seq} (h : Keyed cx (.grp seq)) : ∀ el ∈ seq, Keyed cx el := by
  intro el hel
  cases h.formed with
  | grp hformed =>
    cases h.made with
    | grp hmade =>
      cases h.tailless with
      | bare hbare => rcases hbare with ⟨t, ht | ht⟩ <;> cases ht
      | grp htailless => exact ⟨hformed el hel, hmade el hel, htailless el hel⟩

/-- The key of a reference to a rule or to a helper. -/
theorem Keyed.tells_ref (hnames : KeyNames cx) {n : Nat} {k : Text} (h : Keyed cx (.ref name))
    (ih : ∀ {el k}, Keyed cx el → abnfKey cx n el = .done k → Tells k (el.words cx))
    (hk : keyBody cx n (abnfKey cx n) (.ref name) = .done k) : Tells k ((El.ref name).words cx) := by
  obtain ⟨kind, hkind, hk⟩ := Run.bind_eq_done hk
  split at hk
  · rename_i hrule
    subst hrule
    cases hk
    cases h.made with
    | ref hn =>
      refine ⟨.leaf ('@' :: name), ?_, Form.text_leaf _, ?_⟩
      · rw [Form.Well]
        refine ⟨List.cons_ne_nil _ _, noMark_iff.2 fun c hc => ?_⟩
        rcases List.mem_cons.1 hc with rfl | hc
        · decide
        · exact noMark_iff.1 (hnames.rules name hn) c hc
      · have hmade : abnfMade cx name = .done false := by
          rcases h.formed.kind with hmade | ⟨other, hne, hother⟩
          · exact hmade
          · exact absurd (Option.some.inj (Run.done.inj (hother.symm.trans hkind))) hne
        rw [words_rule hmade, Form.words]
        rfl
  · rename_i hhelper
    split at hk
    · rename_i hstar
      subst hstar
      obtain ⟨item, hitem, hk⟩ := Run.bind_eq_done hk
      obtain ⟨key, hkey, hk⟩ := Run.bind_eq_done hk
      cases hk
      obtain ⟨item', hloop, hformed⟩ := h.formed.loop hkind
      cases hloop.item_eq hitem
      obtain ⟨f, hf, rfl, hwords⟩ := ih ⟨hformed, made_loopItem hitem, .bare hloop.item_bare⟩ hkey
      refine ⟨.node ['*'] [[f]], ?_, ?_, ?_⟩
      · rw [Form.Well]
        refine ⟨by decide, by decide, by decide, List.cons_ne_nil _ _, ?_⟩
        rw [formAltsWell, formSeqWell, formSeqWell, formAltsWell]
        exact ⟨⟨hf, trivial⟩, trivial⟩
      · rw [Form.text, formAltsTexts, formAltsTexts, kindKey_single, formSeqTexts, formSeqTexts,
          stringJoin_rest, joinRest,
          List.append_nil]
        rfl
      · rw [Form.words, if_pos rfl, formAltsWords, formAltsWords, formSeqWords, formSeqWords, mul_one, add_zero, hwords,
          words_made hloop.made, hloop.words]
    · rename_i hstar
      split at hk
      · rename_i hrep
        subst hrep
        obtain ⟨parts, hparts, hk⟩ := Run.bind_eq_done hk
        obtain ⟨key, hkey, hk⟩ := Run.bind_eq_done hk
        cases hk
        obtain ⟨item, seq, hlossless, honly, hcopies, hformed⟩ := h.formed.counted hkind
        obtain ⟨hread, hseq⟩ := hcopies.parts honly hparts
        obtain ⟨hmade, hmax⟩ := made_repParts hparts
        rcases ih ⟨hread ▸ hformed, hmade, .bare (hread ▸ hcopies.item_bare honly hlossless)⟩ hkey with
          ⟨f, hf, rfl, hwords⟩
        refine ⟨.rep (abnfNum parts.min) parts.max f, ?_, Form.text_repKey _ _ _, ?_⟩
        · rw [Form.Well]
          refine ⟨comma_abnfNum _, ?_, hf⟩
          rcases hmax with hmax | ⟨m, hmax⟩
          · rw [hmax]
            simp
          · rw [hmax]
            exact comma_abnfNum m
        · rw [Form.words, hwords, (abnfNum_digits parts.min).2.2, words_made (made_of_kind hkind (by decide)),
            honly.words hlossless, hseq, hread]
          rfl
      · rename_i hrep
        obtain ⟨alts, halts, hk⟩ := Run.bind_eq_done hk
        obtain ⟨ks, hks, hk⟩ := Run.bind_eq_done hk
        rcases kind with _ | kind
        · cases hk
        · cases hk
          have hne : kind ≠ [] := fun hnil => hhelper (by rw [hnil])
          rcases h.formed.body hkind hne (fun he => hstar (by rw [he])) (fun he => hrep (by rw [he])) with
            ⟨hkinds, hlossless, raw, hraw, hall⟩
          have hkeyed : AllEls (Keyed cx) raw := fun seq hseq el hel =>
            ⟨hall seq hseq el hel, made_rawAlts hraw seq hseq el hel,
              .bare (bare_rawAlts hlossless.tail hraw seq hseq el hel)⟩
          rcases alts_form (fun seq hseq el hel k => ih (keyed_inherited.alts hraw hkeyed halts seq hseq el hel))
            hks with
            ⟨fss, hwell, rfl, hwords⟩
          have hsame : altsWords cx alts = (El.ref name).words cx := by
            rw [alts_words hraw hall halts, rawAlts_words hlossless hraw, words_made (made_of_kind hkind hne)]
          rw [hsame] at hwords
          refine tells_kind kind hne ?_ (fun he => hrep (by rw [he])) ?_ hwell hwords
            (h.formed.words_ne_zero hnames h.made)
          · rcases hkinds with rfl | rfl | rfl | rfl <;> decide
          · rcases hkinds with rfl | rfl | rfl | rfl <;> decide

/-- An element's key is the text of a form that generates what the element does. -/
theorem Keyed.tells (hnames : KeyNames cx) {n : Nat} {k : Text} (h : Keyed cx el) (hk : abnfKey cx n el = .done k) :
    Tells k (el.words cx) := by
  induction n generalizing el k with
  | zero => cases hk
  | succ n ih =>
    change keyBody cx n (abnfKey cx n) el = .done k at hk
    cases el with
    | tok t =>
      cases hk
      cases h.made with
      | tok ht =>
        refine ⟨.leaf k, ?_, Form.text_leaf k, ?_⟩
        · rw [Form.Well]
          exact hnames.tokens k ht
        · rw [Form.words, leafEl_tok (hnames.token k ht).1, El.words]
    | tail seq =>
      cases h.tailless with
      | bare hbare => rcases hbare with ⟨t, ht | ht⟩ <;> cases ht
    | grp seq =>
      obtain ⟨ks, hks, hk⟩ := Run.bind_eq_done hk
      cases hk
      have hone : Run.each (keySeq (abnfKey cx n)) [seq] = .done [ks] := by
        rw [Run.each, hks]
        rfl
      have hall : ∀ seq' ∈ [seq], ∀ el ∈ seq', ∀ k, abnfKey cx n el = .done k → Tells k (el.words cx) := by
        intro seq' hseq' el hel k
        rw [List.mem_singleton.1 hseq'] at hel
        exact ih (h.inside el hel)
      obtain ⟨fss, hwell, htexts, hwords⟩ := alts_form hall hone
      have hne := h.formed.words_ne_zero hnames h.made
      rw [El.words, ← altsWords_single] at hne ⊢
      have htells := tells_kind "group".toList (by decide) (by decide) (by decide) (by decide) hwell hwords hne
      rw [htexts, kindKey_single] at htells
      exact htells
    | ref name => exact h.tells_ref hnames ih hk

/-- Elements with one key generate the same. -/
theorem key_words (hnames : KeyNames cx) {el' : El} {n n' : Nat} {k : Text} (h : Keyed cx el) (h' : Keyed cx el')
    (hk : abnfKey cx n el = .done k) (hk' : abnfKey cx n' el' = .done k) : el.words cx = el'.words cx := by
  obtain ⟨f, hf, htext, hwords⟩ := h.tells hnames hk
  obtain ⟨f', hf', htext', hwords'⟩ := h'.tells hnames hk'
  rw [← hwords, ← hwords', Form.text_injective hf hf' (htext.trans htext'.symm)]

/-- Sequences with one list of keys generate the same. -/
theorem seqKeys_words (hnames : KeyNames cx) {n n' : Nat} {seq seq' : Seq} {ks : List Text}
    (h : ∀ el ∈ seq, Keyed cx el)
    (h' : ∀ el ∈ seq', Keyed cx el) (hks : abnfSeqKeys cx n seq = .done ks) (hks' : abnfSeqKeys cx n' seq' = .done ks) :
    seqWords cx seq = seqWords cx seq' := by
  induction seq generalizing seq' ks with
  | nil =>
    cases hks
    rw [List.eq_nil_of_length_eq_zero (Run.each_eq_done hks').length_eq]
  | cons el seq ih =>
    obtain ⟨k, hk, hks⟩ := Run.bind_eq_done hks
    obtain ⟨ks', hrest, hks⟩ := Run.bind_eq_done hks
    cases hks
    cases seq' with
    | nil => cases hks'
    | cons el' seq' =>
      obtain ⟨k', hk', hks'⟩ := Run.bind_eq_done hks'
      obtain ⟨ks'', hrest', hks'⟩ := Run.bind_eq_done hks'
      cases hks'
      rw [seqWords, seqWords, key_words hnames (h el List.mem_cons_self) (h' el' List.mem_cons_self) hk hk',
        ih (fun e he => h e (List.mem_cons_of_mem _ he)) (fun e he => h' e (List.mem_cons_of_mem _ he)) hrest hrest']

/-- Keys that are joined can be told apart. -/
theorem Keyed.key_plain (hnames : KeyNames cx) {n : Nat} {k : Text} (h : Keyed cx el) (hk : abnfKey cx n el = .done k) :
    k ≠ [] ∧ '\x01' ∉ k := by
  refine ⟨?_, (hnames.toPlainNames.key h.made hk).1⟩
  obtain ⟨f, hf, rfl, -⟩ := h.tells hnames hk
  obtain ⟨c, s, hs, -⟩ := Form.text_head hf
  rw [hs]
  exact List.cons_ne_nil _ _

end

end TabnasAbnf.Render
