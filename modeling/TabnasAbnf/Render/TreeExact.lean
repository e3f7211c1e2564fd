/-
What is written, read back. A tree's text is read as the tree, names as references and repetitions by their
bounds, exactly where each class is written as what it is, each list of alternatives holds one and each count
is a number JavaScript has.
-/
import TabnasAbnf.Render.TreeText

namespace TabnasAbnf.Render

open TabnasAbnf.Base TabnasAbnf.Meta

/-! ## Counts -/

/-- An element repeated: itself, a star, a plus, an option or a repetition, by its bounds. -/
def Count.around (count : Count) (e : Ir) : Ir :=
  if count.min = 1 ∧ count.max = some 1 then e
  else if count.min = 0 ∧ count.max = none then .star e
  else if count.min = 1 ∧ count.max = none then .plus e
  else if count.min = 0 ∧ count.max = some 1 then .opt e none
  else .rep (.fin count.min) (count.max.elim .inf .fin) e

/-- Counts that JavaScript's numbers hold. -/
def Count.Held (count : Count) : Prop := double count.min = .fin count.min ∧ ∀ m ∈ count.max, double m = .fin m

/-- The bounds a count is read as. -/
def Count.bounds (count : Count) : JsNum × JsNum := (double count.min, count.max.elim .inf double)

theorem parseInt_num {n : Nat} {t : Tok} (ht : t.text = abnfNum n) : parseInt t.text 10 = double n := by
  obtain ⟨hne, hd, hn⟩ := abnfNum_digits n
  rw [ht, parseInt_digits (List.all_eq_true.1 hd) hne, hn]

def countDigits (n : Nat) : Digits := ⟨abnfNum n, (abnfNum_digits n).1, (abnfNum_digits n).2.1⟩

/-- A count's text is a repeat of its bounds. -/
theorem prefix_count (count : Count) : PrefixText count.text fun r => Ts.boundsOf r = count.bounds := by
  have hzero : double 0 = .fin 0 := double_of_lt (by decide)
  have hatleast : ∀ n : Nat, PrefixText (abnfNum n ++ ['*']) fun r => Ts.boundsOf r = (double n, .inf) := fun n =>
    (prefix_atleast (countDigits n)).mono fun r hr => by
      obtain ⟨t, rfl, ht⟩ := hr
      rw [Ts.boundsOf, parseInt_num ht]
  have hbounded : ∀ n m : Nat, PrefixText (abnfNum n ++ '*' :: abnfNum m) fun r =>
    Ts.boundsOf r = (double n, double m) :=
    fun n m => (prefix_bounded (countDigits n) (countDigits m)).mono fun r hr => by
      obtain ⟨t, t', rfl, ht, ht'⟩ := hr
      rw [Ts.boundsOf, parseInt_num ht, parseInt_num ht']
  -- each form of a count is a prefix of a form that the reader has
  cases count with
  | star =>
    refine prefix_star.mono fun r hr => ?_
    rw [hr, Ts.boundsOf, Count.bounds, ← hzero]
    rfl
  | plus => exact hatleast 1
  | upToOne => exact hbounded 0 1
  | times min max =>
    rcases max with _ | max
    · exact hatleast min
    · rw [Count.text]
      split
      · rename_i heq
        subst heq
        refine (prefix_exact (countDigits min)).mono fun r hr => ?_
        obtain ⟨t, rfl, ht⟩ := hr
        rw [Ts.boundsOf, parseInt_num ht]
        rfl
      · split
        · rename_i hmin
          subst hmin
          refine (prefix_atmost (countDigits max)).mono fun r hr => ?_
          obtain ⟨t, rfl, ht⟩ := hr
          rw [Ts.boundsOf, parseInt_num ht, Count.bounds, ← hzero]
          rfl
        · have h := hbounded min max
          rw [List.append_assoc]
          exact h

/-- A number JavaScript's do not hold is past the bounds that have a form of their own. -/
theorem double_not_held {n : Nat} (h : double n ≠ .fin n) : 2 ^ 53 ≤ n ∧ double n ≠ .fin 0 ∧ double n ≠ .fin 1 := by
  have hge : 2 ^ 53 ≤ n := by
    by_contra hlt
    exact h (double_of_lt (by omega))
  refine ⟨hge, fun hd => ?_, fun hd => ?_⟩
  · have hle := double_fin_ge hge hd
    omega
  · have hle := double_fin_ge hge hd
    omega

/-- A repeat is read as the count's exactly where the count is held. -/
theorem wrap_eq_around {count : Count} {r : Reps} (hr : Ts.boundsOf r = count.bounds) (e e' : Ir) :
    Ts.wrap r e = count.around e' ↔ count.Held ∧ e = e' := by
  -- bounds that are held are the numbers themselves
  by_cases hheld : count.Held
  · have hmin : (count.bounds).1 = .fin count.min := hheld.1
    have hmax : (count.bounds).2 = count.max.elim .inf .fin := by
      rw [Count.bounds]
      cases hm : count.max with
      | none => rfl
      | some m => exact hheld.2 m hm
    have hwrap : Ts.wrap r e = count.around e := by
      unfold Ts.wrap Count.around
      rw [hr]
      simp only [hmin, hmax]
      cases count.max <;> simp
    rw [hwrap]
    simp only [hheld, true_and]
    refine ⟨fun h => ?_, fun h => by rw [h]⟩
    unfold Count.around at h
    split_ifs at h <;> first | exact h | (cases h; rfl)
  · -- a bound that is not held is past every bound a form of its own is written for
    simp only [hheld, false_and, iff_false]
    intro h
    by_cases hmin : double count.min = .fin count.min
    · have hmax : ∃ m, count.max = some m ∧ double m ≠ .fin m := by
        by_contra hno
        push Not at hno
        exact hheld ⟨hmin, hno⟩
      obtain ⟨m, hm, hne⟩ := hmax
      obtain ⟨hge, -, hone⟩ := double_not_held hne
      have hm1 : m ≠ 1 := by omega
      unfold Ts.wrap Count.around at h
      simp only [hr, Count.bounds, hmin, hm, Option.elim_some, hone, Option.some.injEq, hm1, reduceCtorEq, and_false,
        if_false] at h
      split_ifs at h
      rw [Element.rep.injEq] at h
      exact hne h.2.1
    · obtain ⟨hge, hzero, hone⟩ := double_not_held hmin
      have hmin0 : count.min ≠ 0 := by omega
      have hmin1 : count.min ≠ 1 := by omega
      unfold Ts.wrap Count.around at h
      simp only [hr, Count.bounds, hzero, hone, hmin0, hmin1, false_and, if_false, Element.rep.injEq] at h
      exact hmin h.1

/-! ## What a tree is read as -/

mutual

/-- A tree and the trees in it. -/
def Tree.nodes : Tree → List Tree
  | .group alts => .group alts :: nodesAlts alts
  | .option alts => .option alts :: nodesAlts alts
  | .tail seq => .tail seq :: nodesSeq seq
  | .rep count item => .rep count item :: item.nodes
  | t => [t]

def nodesSeq : List Tree → List Tree
  | [] => []
  | t :: ts => t.nodes ++ nodesSeq ts

def nodesAlts : List (List Tree) → List Tree
  | [] => []
  | seq :: alts => nodesSeq seq ++ nodesAlts alts

end

/-- Whether a node is one that its text is read as, where some classes are. -/
def Tree.Meets (P : Text → Text → Prop) : Tree → Prop
  | .cls pat flags => (classOf pat flags).isSome = true ∧ P pat flags
  | .group alts | .option alts => alts ≠ []
  | .rep count _ => count.Held
  | _ => True

/-- Whether what a node itself is written as gives it back. -/
def Tree.Whole (t : Tree) : Prop := t.Meets ClassWhole

mutual

/-- An element read is a tree's: a literal or a class by what it matches, a name as a reference, a repetition
by its bounds, with a group around an item that takes none as it is. -/
def Tree.Back : Tree → Ir → Prop
  | .lit text cs, e => Spelt asciiFold text (cs || !text.any isLetter) e
  | .cls pat flags, e => ∃ cls, classOf pat flags = some cls ∧ IsClass cls e
  | .tok name, e | .ref name, e => ∃ sp, e = .ref name sp
  | .group alts, e => ∃ es sp, e = .group es sp ∧ BackAlts alts es
  | .option alts, e => ∃ es sp sp', e = .opt (.group es sp) sp' ∧ BackAlts alts es
  | .tail seq, e => ∃ es sp sp', e = .opt (.group [es] sp) sp' ∧ BackSeq seq es
  | .rep count item, e =>
    ∃ i, e = count.around i ∧ if item.isItem then item.Back i else ∃ i' sp, i = .group [[i']] sp ∧ item.Back i'

def BackSeq : List Tree → List Ir → Prop
  | [], [] => True
  | t :: ts, e :: es => t.Back e ∧ BackSeq ts es
  | _, _ => False

def BackAlts : List (List Tree) → List (List Ir) → Prop
  | [], [] => True
  | seq :: alts, es :: as => BackSeq seq es ∧ BackAlts alts as
  | _, _ => False

end

/-! ## Texts read as they should be -/

section

variable {X Y : Type} {D : List Tok → List Tok → X → Prop} {f : X → Y} {s : Text} {R : Prop}

theorem readsIf_repeated {Q : Ir → Prop} (count : Count) (h : ReadsIf DAtoms atomsIr s (One Q) R) (hs : Opens s) :
    ReadsIf DElems elemsIr (count.text ++ s) (One fun e => ∃ i, e = count.around i ∧ Q i) (count.Held ∧ R) := by
  obtain ⟨ls, hp⟩ := h
  obtain ⟨ls', hp'⟩ := phrase_repeated (prefix_count count) hp hs
  refine ⟨ls', hp'.mono ?_⟩
  rintro ⟨⟨r, a⟩, es⟩ ⟨hr, ha⟩
  rw [atomsIr, one_cons, seqIr_eq_nil] at ha
  rw [elemsIr, one_cons, seqIr_eq_nil, elemIr]
  simp only [wrap_eq_around hr, and_assoc, exists_and_left, exists_eq_left', ← ha]
  exact and_left_comm

theorem readsIf_grouped {Q : List (List Ir) → Prop} (h : ReadsIf DAlts altsIr s Q R) :
    ReadsIf DAtoms atomsIr (grouped s) (One fun e => ∃ es sp, e = .group es sp ∧ Q es) R := by
  refine h.bracket .group rfl rfl fun t t' as => ?_
  constructor
  · rintro ⟨es, sp, he, hQ⟩
    cases he
    exact hQ
  · exact fun hQ => ⟨_, _, rfl, hQ⟩

theorem readsIf_bracketed {Q : List (List Ir) → Prop} (h : ReadsIf DAlts altsIr s Q R) :
    ReadsIf DAtoms atomsIr (bracketed s) (One fun e => ∃ es sp sp', e = .opt (.group es sp) sp' ∧ Q es) R := by
  refine h.bracket .opt rfl rfl fun t t' as => ?_
  constructor
  · rintro ⟨es, sp, sp', he, hQ⟩
    cases he
    exact hQ
  · exact fun hQ => ⟨_, _, _, rfl, hQ⟩

theorem seqReadsIf_nil : SeqReadsIf 0 [] (BackSeq []) True := by
  refine ⟨[], phrase_seq_nil.mono ?_⟩
  rintro _ rfl
  exact ⟨le_rfl, iff_true_intro trivial⟩

/-- An element in a group of its own. -/
theorem readsIf_alone {Q : Ir → Prop} (h : ReadsIf DElems elemsIr s (One Q) R) :
    ReadsIf DAtoms atomsIr (Render.grouped s) (One fun e => ∃ i sp, e = .group [[i]] sp ∧ Q i) R := by
  refine (readsIf_grouped h.single.alternative).congr (fun es => one_congr fun e => ?_) Iff.rfl
  constructor
  · rintro ⟨i, sp, rfl, hQ⟩
    exact ⟨_, sp, rfl, _, rfl, i, rfl, hQ⟩
  · rintro ⟨_, sp, rfl, _, rfl, i, rfl, hQ⟩
    exact ⟨i, sp, rfl, hQ⟩

/-- The space cut off alternatives is no token. -/
theorem readsIf_slashed {ss : List Text} {Q : Y → Prop} (hss : Pieced ss) (h : ReadsIf D f (between ss) Q R) :
    ReadsIf D f (slashed ss) Q R := by
  rw [slashed_eq hss]
  split
  · rename_i hp
    obtain ⟨b, hb⟩ := hp
    rw [← hb] at h ⊢
    obtain ⟨ls, hp⟩ := h
    exact ⟨ls, hp.of_space⟩
  · exact h

end

/-! ## Trees read back -/

/-- Each class among nodes has a property. -/
def Classes (P : Text → Text → Prop) (ts : List Tree) : Prop := ∀ pat flags, .cls pat flags ∈ ts → P pat flags

/-- Classes that are classes. -/
def Valid (ts : List Tree) : Prop := Classes (fun pat flags => (classOf pat flags).isSome = true) ts

/-- Classes that are written. -/
def Rendered (ts : List Tree) : Prop := Classes (fun pat flags => ∃ out, abnfClassText pat flags = .ok out) ts

/-- Nodes that are written as what they are. -/
def Kept (ts : List Tree) : Prop := ∀ t ∈ ts, t.Whole

/-- What is written for an element that a repetition applies to as it is. -/
def ItemReads (t : Tree) (s : Text) : Prop :=
  (Solid s ∧ Opens s) ∧ ReadsIf DAtoms atomsIr s (One t.Back) (Kept t.nodes)

def ElReads (t : Tree) (s : Text) : Prop :=
  Solid s ∧ ReadsIf DElems elemsIr s (One t.Back) (Kept t.nodes) ∧ (t.isItem = true → ItemReads t s)

theorem ItemReads.el {t : Tree} {s : Text} (h : ItemReads t s) : ElReads t s := ⟨h.1.1, h.2.once, fun _ => h⟩

theorem kept_single {t : Tree} : Kept [t] ↔ t.Whole := by simp [Kept]

theorem kept_append {ts ts' : List Tree} : Kept (ts ++ ts') ↔ Kept ts ∧ Kept ts' := by
  simp only [Kept, List.forall_mem_append]

theorem kept_cons {t : Tree} {ts : List Tree} : Kept (t :: ts) ↔ t.Whole ∧ Kept ts := List.forall_mem_cons

theorem lit_reads {text s : Text} {cs : Bool} (h : litText text cs = .done s) : ItemReads (.lit text cs) s := by
  unfold litText at h
  split at h
  · rename_i out hout
    cases h
    refine ⟨abnfLitText_solid hout, ?_⟩
    have hback : AtomText s (Spelt asciiFold text (cs || !text.any isLetter)) := by
      by_cases hne : text = []
      · subst hne
        cases hout
        refine (@atomText_string [] rfl).mono ?_
        rintro e ⟨sp, rfl⟩
        exact spelt_term (by simp)
      · exact abnfLitText_atom (fun _ _ => rfl) hne hout
    have hread := ReadsIf.of_atom hback fun e he => (he : (Tree.lit text cs).Back e)
    exact hread.congr (fun _ => Iff.rfl) (iff_true_intro (kept_single.2 trivial))
  · cases h

theorem cls_reads {pat flags s : Text} (hv : (classOf pat flags).isSome = true) (h : clsText pat flags = .done s) :
    ItemReads (.cls pat flags) s := by
  obtain ⟨cls, hcls⟩ := Option.isSome_iff_exists.1 hv
  unfold clsText at h
  split at h
  · rename_i out hout
    cases h
    obtain ⟨hsolid, hread⟩ := class_solid hcls hout
    refine ⟨hsolid, hread.congr (fun es => one_congr fun e => ?_) ?_⟩
    · simp only [Tree.Back, hcls, Option.some.injEq, exists_eq_left']
    · rw [show (Tree.cls pat flags).nodes = [.cls pat flags] from rfl, kept_single, Tree.Whole, Tree.Meets, hv]
      exact and_iff_right rfl
  · cases h

/-- A name ABNF can spell is a rule name of the meta-grammar. -/
theorem legal_ruleName {name : Text} (h : abnfLegalName name = true) : isRuleName name = true := by
  simp only [abnfLegalName, Bool.and_eq_true] at h
  obtain ⟨⟨⟨hne, hwithin⟩, hdash⟩, hdigit⟩ := h
  have hchar : ∀ c ∈ name, isNameChar c = true := by
    intro c hc
    have hr := List.all_eq_true.1 hwithin c hc
    simp only [List.any_cons, List.any_nil, Bool.or_false, Bool.or_eq_true, decide_eq_true_eq] at hr
    simp only [isNameChar, isLetter, isDigit_ten, Bool.or_eq_true, decide_eq_true_eq, char_le, beq_iff_eq,
      ← Char.toNat_inj]
    have h0 : ('0' : Char).toNat = 48 := rfl
    have h9 : ('9' : Char).toNat = 57 := rfl
    have ha : ('a' : Char).toNat = 97 := rfl
    have hz : ('z' : Char).toNat = 122 := rfl
    have hA : ('A' : Char).toNat = 65 := rfl
    have hZ : ('Z' : Char).toNat = 90 := rfl
    have hd : ('-' : Char).toNat = 45 := rfl
    omega
  rcases name with _ | ⟨c, name⟩
  · cases hne
  · rw [isRuleName, Bool.and_eq_true, List.all_eq_true]
    refine ⟨?_, fun d hd => hchar d (List.mem_cons_of_mem _ hd)⟩
    have hstarts : ∀ d : Char, abnfStarts [d] (c :: name) = true ↔ d = c := fun d => by
      rw [abnfStarts_iff (List.cons_ne_nil _ _)]
      simp
    have hc := hchar c List.mem_cons_self
    rw [isNameChar, Bool.or_eq_true, Bool.or_eq_true] at hc
    rcases hc with (hc | hc) | hc
    · exact hc
    · -- a digit is one of those no name begins with
      have hmem : c ∈ ['0', '1', '2', '3', '4', '5', '6', '7', '8', '9'] := by
        rw [isDigit_ten, decide_eq_true_eq, char_le, char_le] at hc
        simp only [List.mem_cons, List.not_mem_nil, or_false, ← Char.toNat_inj, Char.reduceToNat] at hc ⊢
        omega
      rw [List.isEmpty_iff, List.filter_eq_nil_iff] at hdigit
      exact absurd ((hstarts c).2 rfl) (hdigit [c] (List.mem_map_of_mem hmem))
    · rw [Bool.not_eq_true', ← Bool.not_eq_true, hstarts] at hdash
      exact absurd (beq_iff_eq.1 hc).symm hdash

theorem ruleName_bare {name : Text} (h : isRuleName name = true) : name.all isBare = true := by
  rcases name with _ | ⟨c, name⟩
  · rfl
  · rw [isRuleName, Bool.and_eq_true] at h
    have hc : [c].all isBare = true := all_bare (q := isLetter) (by decide) (by rw [List.all_cons, h.1]; rfl)
    rw [← List.singleton_append, List.all_append, hc, all_bare (by decide) h.2]
    rfl

theorem name_reads {t : Tree} {name s : Text} (ht : t = .tok name ∨ t = .ref name) (h : abnfRefText name = .done s) :
    ItemReads t s := by
  unfold abnfRefText at h
  split at h
  · rename_i hlegal
    cases h
    have hrule := legal_ruleName hlegal
    have hne : name ≠ [] := by
      rintro rfl
      cases hrule
    have hwhole : Kept t.nodes ↔ True := by
      rcases ht with rfl | rfl <;> exact iff_true_intro (kept_single.2 trivial)
    refine ⟨⟨solid_of_bare hne (ruleName_bare hrule), ?_⟩, (ReadsIf.name hrule).congr (fun es => ?_) hwhole⟩
    · intro c hc
      rcases name with _ | ⟨d, name⟩
      · cases hc
      · cases hc
        exact letter_not_digit (Bool.and_eq_true_iff.1 hrule).1
    · rcases ht with rfl | rfl <;> rfl
  · cases h

theorem backSeq_cons {t : Tree} {ts : List Tree} {es : List Ir} :
    BackSeq (t :: ts) es ↔ ∃ e es', es = e :: es' ∧ t.Back e ∧ BackSeq ts es' := by
  rcases es with _ | ⟨e, es⟩
  · simp [BackSeq]
  · simp only [BackSeq, List.cons.injEq]
    constructor
    · exact fun h => ⟨e, es, ⟨rfl, rfl⟩, h⟩
    · rintro ⟨e', es', ⟨rfl, rfl⟩, h⟩
      exact h

theorem backAlts_cons {seq : List Tree} {alts : List (List Tree)} {as : List (List Ir)} :
    BackAlts (seq :: alts) as ↔ ∃ es as', as = es :: as' ∧ BackSeq seq es ∧ BackAlts alts as' := by
  rcases as with _ | ⟨es, as⟩
  · simp [BackAlts]
  · simp only [BackAlts, List.cons.injEq]
    constructor
    · exact fun h => ⟨es, as, ⟨rfl, rfl⟩, h⟩
    · rintro ⟨es', as', ⟨rfl, rfl⟩, h⟩
      exact h

theorem backSeq_length : (ts : List Tree) → ∀ es, BackSeq ts es → es.length = ts.length
  | [], [], _ => rfl
  | [], _ :: _, h => h.elim
  | _ :: _, [], h => h.elim
  | _ :: ts, _ :: es, h => by rw [List.length_cons, List.length_cons, backSeq_length ts es h.2]

/-- A sequence's text is empty or begins and ends with no space. -/
def SeqReads (seq : List Tree) (s : Text) : Prop :=
  (seq = [] ∧ s = [] ∨ Solid s) ∧ SeqReadsIf seq.length s (BackSeq seq) (Kept (nodesSeq seq))

/-- Alternatives' texts between slashes: where there is none, an empty one is read. -/
def AltsReads (alts : List (List Tree)) (ss : List Text) : Prop :=
  Pieced ss ∧ ss.length = alts.length ∧
    ReadsIf DAlts altsIr (between ss) (BackAlts alts) (alts ≠ [] ∧ Kept (nodesAlts alts))

theorem readsSeq_nil : SeqReads [] (stringJoin [' '] []) :=
  ⟨.inl ⟨rfl, rfl⟩, seqReadsIf_nil.congr (fun _ => Iff.rfl) (iff_true_intro fun _ h => by cases h)⟩

theorem ElReads.seq {t : Tree} {ts : List Tree} {s : Text} {ss : List Text} (h : ElReads t s)
    (hlen : ss.length = ts.length)
    (h' : SeqReads ts (stringJoin [' '] ss)) : SeqReads (t :: ts) (stringJoin [' '] (s :: ss)) := by
  rcases ts with _ | ⟨t', ts⟩
  · rw [List.length_nil, List.length_eq_zero_iff] at hlen
    subst hlen
    have hs : stringJoin [' '] [s] = s := by simp [stringJoin]
    rw [hs]
    refine ⟨.inr h.1, h.2.1.single.congr (fun es => ?_) ?_⟩
    · rw [backSeq_cons]
      constructor
      · rintro ⟨e, es', rfl, ht, hnil⟩
        rcases es' with _ | ⟨e', es'⟩
        · exact ⟨e, rfl, ht⟩
        · exact hnil.elim
      · rintro ⟨e, rfl, ht⟩
        exact ⟨e, [], rfl, ht, trivial⟩
    · rw [nodesSeq, nodesSeq, List.append_nil]
  · have hne : ss ≠ [] := by
      rintro rfl
      cases hlen
    have hsolid : Solid (stringJoin [' '] ss) := h'.1.resolve_left fun hnil => List.cons_ne_nil _ _ hnil.1
    rw [stringJoin_cons _ _ hne, List.append_assoc]
    have hspace : Quiet [' '] := ⟨by decide, .of_plain (by decide)⟩
    refine ⟨.inr (h.1.append hspace hsolid),
      (SeqReadsIf.cons h.2.1 h'.2 (backSeq_length _)).congr (fun es => backSeq_cons) ?_⟩
    rw [nodesSeq, kept_append]

theorem SeqReads.alts {seq : List Tree} {alts : List (List Tree)} {s : Text} {ss : List Text} (h : SeqReads seq s)
    (h' : AltsReads alts ss) : AltsReads (seq :: alts) (s :: ss) := by
  obtain ⟨hpieced, hlen, hread⟩ := h'
  refine ⟨List.forall_mem_cons.2 ⟨h.1.imp And.right id, hpieced⟩, by rw [List.length_cons, List.length_cons, hlen], ?_⟩
  have hkept : (seq :: alts ≠ [] ∧ Kept (nodesAlts (seq :: alts))) ↔ Kept (nodesSeq seq) ∧ Kept (nodesAlts alts) := by
    rw [nodesAlts, kept_append]
    simp
  rcases alts with _ | ⟨seq', alts⟩
  · rw [List.length_nil, List.length_eq_zero_iff] at hlen
    subst hlen
    refine h.2.alternative.congr (fun as => ?_) (hkept.trans ⟨And.left, fun hk => ⟨hk, fun _ hm => by cases hm⟩⟩)
    rw [backAlts_cons]
    constructor
    · rintro ⟨es, as', rfl, hes, hnil⟩
      rcases as' with _ | ⟨es', as'⟩
      · exact ⟨es, rfl, hes⟩
      · exact hnil.elim
    · rintro ⟨es, rfl, hes⟩
      exact ⟨es, [], rfl, hes, trivial⟩
  · rcases ss with _ | ⟨s', ss⟩
    · cases hlen
    rw [between]
    refine (h.2.slash (fun rest => ?_) hread).congr (fun as => backAlts_cons) (hkept.trans ?_)
    · split
      · rename_i hempty
        rw [hempty.1, hempty.2]
        exact .nil
      · exact .space .nil
    · simp

/-- Where there is no alternative, an empty one is read. -/
theorem readsAlts_nil : AltsReads [] [] := by
  have hpieced : Pieced [] := fun _ h => by cases h
  have hread : ReadsIf DAlts altsIr (between []) (BackAlts []) (([] : List (List Tree)) ≠ [] ∧
    Kept (nodesAlts [])) := by
    refine ⟨[], (phrase_alts_single phrase_seq_nil).mono ?_⟩
    rintro _ ⟨_, rfl, rfl⟩
    exact ⟨fun hback => hback.elim, fun hne => absurd rfl hne.1⟩
  exact ⟨hpieced, rfl, hread⟩

/-- Alternatives in a group, or in brackets, as the text cuts them. -/
theorem AltsReads.slashed {alts : List (List Tree)} {ss : List Text} (h : AltsReads alts ss) :
    ReadsIf DAlts altsIr (slashed ss) (BackAlts alts) (alts ≠ [] ∧ Kept (nodesAlts alts)) := readsIf_slashed h.1 h.2.2

theorem abnfNum_bare (n : Nat) : (abnfNum n).all isBare = true := all_bare (by decide) (abnfNum_digits n).2.1

theorem count_solid (count : Count) : Solid count.text := by
  have hne : ∀ n : Nat, abnfNum n ≠ [] := fun n => (abnfNum_digits n).1
  cases count with
  | star => exact solid_of_bare (by decide) (by decide)
  | plus => exact solid_of_bare (by decide) (by decide)
  | upToOne => exact solid_of_bare (by decide) (by decide)
  | times min max =>
    rcases max with _ | max
    · refine solid_of_bare (by simp [Count.text]) ?_
      rw [Count.text, List.all_append, abnfNum_bare]
      rfl
    · rw [Count.text]
      split_ifs
      · exact solid_of_bare (hne _) (abnfNum_bare _)
      · refine solid_of_bare (by simp) ?_
        rw [List.nil_append, List.all_append, abnfNum_bare]
        rfl
      · refine solid_of_bare (by simp) ?_
        rw [List.all_append, List.all_append, abnfNum_bare, abnfNum_bare]
        rfl

mutual

theorem Tree.reads : (t : Tree) → Valid t.nodes → ∀ s, t.text = .done s → ElReads t s
  | .lit text cs, _, s, h => (lit_reads h).el
  | .cls pat flags, hv, s, h => (cls_reads (hv pat flags List.mem_cons_self) h).el
  | .tok name, _, s, h => (name_reads (.inl rfl) h).el
  | .ref name, _, s, h => (name_reads (.inr rfl) h).el
  | .group alts, hv, s, h => by
    obtain ⟨ss, hss, h⟩ := Run.bind_eq_done h
    cases h
    have hread := alts_reads alts (fun pat flags hm => hv pat flags (List.mem_cons_of_mem _ hm)) ss hss
    have hitem : ItemReads (.group alts) (grouped (slashed ss)) :=
      ⟨⟨solid_grouped (slashed_quiet hread.1), opens_grouped _⟩,
        (readsIf_grouped hread.slashed).congr (fun _ => Iff.rfl) kept_cons⟩
    exact hitem.el
  | .option alts, hv, s, h => by
    obtain ⟨ss, hss, h⟩ := Run.bind_eq_done h
    cases h
    have hread := alts_reads alts (fun pat flags hm => hv pat flags (List.mem_cons_of_mem _ hm)) ss hss
    have hitem : ItemReads (.option alts) (bracketed (slashed ss)) :=
      ⟨⟨solid_bracketed (slashed_quiet hread.1), opens_bracketed _⟩,
        (readsIf_bracketed hread.slashed).congr (fun _ => Iff.rfl) kept_cons⟩
    exact hitem.el
  | .tail seq, hv, s, h => by
    obtain ⟨ss, hss, h⟩ := Run.bind_eq_done h
    cases h
    obtain ⟨-, hseq⟩ := seq_reads seq (fun pat flags hm => hv pat flags (List.mem_cons_of_mem _ hm)) ss hss
    have halts := hseq.alts readsAlts_nil
    have hread := (readsIf_bracketed halts.slashed).once
    refine ⟨solid_bracketed (slashed_quiet halts.1), hread.congr (fun es => one_congr fun e => ?_) ?_, nofun⟩
    · rw [Tree.Back]
      simp only [backAlts_cons]
      constructor
      · rintro ⟨es, sp, sp', rfl, hes⟩
        exact ⟨_, sp, sp', rfl, es, [], rfl, hes, trivial⟩
      · rintro ⟨_, sp, sp', rfl, es, as', rfl, hes, hnil⟩
        rcases as' with _ | ⟨es', as'⟩
        · exact ⟨es, sp, sp', rfl, hes⟩
        · exact hnil.elim
    · rw [Tree.nodes, kept_cons, nodesAlts, nodesAlts, List.append_nil]
      simp [Tree.Whole, Tree.Meets]
  | .rep count item, hv, s, h => by
    obtain ⟨t, ht, h⟩ := Run.bind_eq_done h
    cases h
    have hitem := Tree.reads item (fun pat flags hm => hv pat flags (List.mem_cons_of_mem _ hm)) t ht
    -- an item is repeated as it is written, anything else in a group
    rcases Bool.eq_false_or_eq_true item.isItem with hi | hi
    · rw [if_pos hi]
      obtain ⟨⟨hsolid, hopens⟩, hread⟩ := hitem.2.2 hi
      refine ⟨(count_solid count).append .nil hsolid,
        (readsIf_repeated count hread hopens).congr (fun es => one_congr fun e => ?_) kept_cons, nofun⟩
      rw [Tree.Back]
      simp only [hi, if_true]
    · have hno : ¬ item.isItem = true := by rw [hi]; exact Bool.false_ne_true
      rw [if_neg hno]
      have hread := readsIf_repeated count (readsIf_alone hitem.2.1) (opens_grouped t)
      refine ⟨(count_solid count).append (t := grouped t) .nil (solid_grouped hitem.1.quiet),
        hread.congr (fun es => one_congr fun e => ?_) kept_cons, nofun⟩
      rw [Tree.Back]
      simp only [hi, Bool.false_eq_true, if_false]

theorem seq_reads : (ts : List Tree) → Valid (nodesSeq ts) → ∀ ss, seqTexts ts = .done ss →
    ss.length = ts.length ∧ SeqReads ts (stringJoin [' '] ss)
  | [], _, ss, h => by
    cases h
    exact ⟨rfl, readsSeq_nil⟩
  | t :: ts, hv, ss, h => by
    obtain ⟨s, hs, h⟩ := Run.bind_eq_done h
    obtain ⟨ss', hss', h⟩ := Run.bind_eq_done h
    cases h
    have hel := Tree.reads t (fun pat flags hm => hv pat flags (List.mem_append_left _ hm)) s hs
    obtain ⟨hlen, hseq⟩ := seq_reads ts (fun pat flags hm => hv pat flags (List.mem_append_right _ hm)) ss' hss'
    exact ⟨by rw [List.length_cons, List.length_cons, hlen], hel.seq hlen hseq⟩

theorem alts_reads : (alts : List (List Tree)) → Valid (nodesAlts alts) → ∀ ss, altsTexts alts = .done ss →
    AltsReads alts ss
  | [], _, ss, h => by
    cases h
    exact readsAlts_nil
  | seq :: alts, hv, ss, h => by
    obtain ⟨ts, hts, h⟩ := Run.bind_eq_done h
    obtain ⟨ss', hss', h⟩ := Run.bind_eq_done h
    cases h
    obtain ⟨-, hseq⟩ := seq_reads seq (fun pat flags hm => hv pat flags (List.mem_append_left _ hm)) ts hts
    exact hseq.alts (alts_reads alts (fun pat flags hm => hv pat flags (List.mem_append_right _ hm)) ss' hss')

end

/-! ## What is written, read back -/

section

variable {P : Text → Text → Prop} {t : Tree} {ts ts' : List Tree}

theorem classes_cons (h : ∀ pat flags, t = .cls pat flags → P pat flags) (hts : Classes P ts) :
    Classes P (t :: ts) := by
  intro pat flags hm
  rcases List.mem_cons.1 hm with heq | hm
  · exact h pat flags heq.symm
  · exact hts pat flags hm

theorem classes_append (h : Classes P ts) (h' : Classes P ts') : Classes P (ts ++ ts') := by
  intro pat flags hm
  exact (List.mem_append.1 hm).elim (h pat flags) (h' pat flags)

theorem classes_nil : Classes P [] := fun _ _ hm => by cases hm

theorem Kept.valid (h : Kept ts) : Valid ts := fun _ _ hm => (h _ hm).1

end

mutual

/-- The classes of a tree that something is are classes. -/
theorem Tree.Back.valid : (t : Tree) → ∀ e, t.Back e → Valid t.nodes
  | .lit _ _, _, _ => classes_cons (by simp) classes_nil
  | .cls pat flags, _, h => by
    obtain ⟨cls, hcls, -⟩ := h
    refine classes_cons (fun pat' flags' heq => ?_) classes_nil
    cases heq
    rw [hcls]
    rfl
  | .tok _, _, _ => classes_cons (by simp) classes_nil
  | .ref _, _, _ => classes_cons (by simp) classes_nil
  | .group alts, _, h => by
    obtain ⟨es, -, -, h⟩ := h
    exact classes_cons (by simp) (backAlts_valid alts es h)
  | .option alts, _, h => by
    obtain ⟨es, -, -, -, h⟩ := h
    exact classes_cons (by simp) (backAlts_valid alts es h)
  | .tail seq, _, h => by
    obtain ⟨es, -, -, -, h⟩ := h
    exact classes_cons (by simp) (backSeq_valid seq es h)
  | .rep count item, _, h => by
    obtain ⟨i, -, h⟩ := h
    refine classes_cons (by simp) ?_
    split at h
    · exact Tree.Back.valid item i h
    · obtain ⟨i', -, -, h⟩ := h
      exact Tree.Back.valid item i' h

theorem backSeq_valid : (ts : List Tree) → ∀ es, BackSeq ts es → Valid (nodesSeq ts)
  | [], _, _ => classes_nil
  | t :: ts, _, h => by
    obtain ⟨e, es, -, ht, hts⟩ := backSeq_cons.1 h
    exact classes_append (Tree.Back.valid t e ht) (backSeq_valid ts es hts)

theorem backAlts_valid : (alts : List (List Tree)) → ∀ as, BackAlts alts as → Valid (nodesAlts alts)
  | [], _, _ => classes_nil
  | seq :: alts, _, h => by
    obtain ⟨es, as, -, hseq, halts⟩ := backAlts_cons.1 h
    exact classes_append (backSeq_valid seq es hseq) (backAlts_valid alts as halts)

end

/-- Trees' text is read back as the trees exactly where there is one at least, and where each node is written as
what it is. -/
theorem altsText_exact {alts : List (List Tree)} {out : Text} (h : altsText alts = .done out) :
    ReadsAlts out (BackAlts alts) ↔ alts ≠ [] ∧ Kept (nodesAlts alts) := by
  obtain ⟨ss, hss, hout⟩ := Run.bind_eq_done h
  cases hout
  have hexact : Valid (nodesAlts alts) →
    (ReadsAlts (slashed ss) (BackAlts alts) ↔ alts ≠ [] ∧ Kept (nodesAlts alts)) := by
    intro hv
    exact (alts_reads alts hv ss hss).slashed.reads
  constructor
  · intro hread
    obtain ⟨as, has⟩ := hread.holds
    exact (hexact (backAlts_valid alts as has)).1 hread
  · exact fun hk => (hexact hk.2.valid).2 hk

mutual

/-- The classes of a tree that is written are written. -/
theorem Tree.written : (t : Tree) → ∀ s, t.text = .done s → Rendered t.nodes
  | .lit _ _, _, _ => classes_cons (by simp) classes_nil
  | .cls pat flags, s, h => by
    refine classes_cons (fun pat' flags' heq => ?_) classes_nil
    cases heq
    simp only [Tree.text, clsText] at h
    split at h
    · rename_i out hout
      exact ⟨out, hout⟩
    · cases h
  | .tok _, _, _ => classes_cons (by simp) classes_nil
  | .ref _, _, _ => classes_cons (by simp) classes_nil
  | .group alts, _, h => by
    obtain ⟨ss, hss, -⟩ := Run.bind_eq_done h
    exact classes_cons (by simp) (alts_written alts ss hss)
  | .option alts, _, h => by
    obtain ⟨ss, hss, -⟩ := Run.bind_eq_done h
    exact classes_cons (by simp) (alts_written alts ss hss)
  | .tail seq, _, h => by
    obtain ⟨ss, hss, -⟩ := Run.bind_eq_done h
    exact classes_cons (by simp) (seq_written seq ss hss)
  | .rep count item, _, h => by
    obtain ⟨t, ht, -⟩ := Run.bind_eq_done h
    exact classes_cons (by simp) (Tree.written item t ht)

theorem seq_written : (ts : List Tree) → ∀ ss, seqTexts ts = .done ss → Rendered (nodesSeq ts)
  | [], _, _ => classes_nil
  | t :: ts, _, h => by
    obtain ⟨s, hs, h⟩ := Run.bind_eq_done h
    obtain ⟨ss, hss, -⟩ := Run.bind_eq_done h
    exact classes_append (Tree.written t s hs) (seq_written ts ss hss)

theorem alts_written : (alts : List (List Tree)) → ∀ ss, altsTexts alts = .done ss → Rendered (nodesAlts alts)
  | [], _, _ => classes_nil
  | seq :: alts, _, h => by
    obtain ⟨ts, hts, h⟩ := Run.bind_eq_done h
    obtain ⟨ss, hss, -⟩ := Run.bind_eq_done h
    exact classes_append (seq_written seq ts hts) (alts_written alts ss hss)

end

/-- Whether two ranges of a class hold a dash. -/
def TwoDashes (pat flags : Text) : Prop := ∃ cls ∈ classOf pat flags, 2 ≤ dashCount cls.spans

theorem Tree.Meets.mono {P Q : Text → Text → Prop} {t : Tree} (h : t.Meets P)
    (hPQ : ∀ pat flags, t = .cls pat flags → (classOf pat flags).isSome = true → P pat flags → Q pat flags) :
    t.Meets Q := by
  cases t with
  | cls pat flags => exact ⟨h.1, hPQ pat flags rfl h.1 h.2⟩
  | lit text cs => trivial
  | tok name => trivial
  | ref name => trivial
  | group alts => exact h
  | option alts => exact h
  | tail seq => trivial
  | rep count item => exact h

/-- Nodes whose classes are spelt plainly are kept; those of nodes that are kept are, or two of their ranges hold
a dash. -/
theorem kept_plain {ts : List Tree} (hw : Rendered ts) :
    ((∀ t ∈ ts, t.Meets ClassPlain) → Kept ts) ∧
      (Kept ts → ∀ t ∈ ts, t.Meets fun pat flags => ClassPlain pat flags ∨ TwoDashes pat flags) := by
  have hplain : ∀ pat flags, .cls pat flags ∈ ts → (classOf pat flags).isSome = true →
      (ClassPlain pat flags → ClassWhole pat flags) ∧
        (ClassWhole pat flags → ClassPlain pat flags ∨ TwoDashes pat flags) := by
    intro pat flags hm hsome
    obtain ⟨out, hout⟩ := hw pat flags hm
    obtain ⟨cls, hcls⟩ := Option.isSome_iff_exists.1 hsome
    obtain ⟨hpat, hflags, hjs⟩ := classOf_spec hcls
    have hiff := whole_plain hpat hflags hjs hout
    exact ⟨hiff.1, fun h => (hiff.2 h).imp id fun hdash => ⟨cls, hcls, hdash⟩⟩
  constructor
  · exact fun h t ht => (h t ht).mono fun pat flags heq hsome => (hplain pat flags (heq ▸ ht) hsome).1
  · exact fun h t ht => (h t ht).mono fun pat flags heq hsome => (hplain pat flags (heq ▸ ht) hsome).2

/-- A token that is lifted has a name ABNF can spell. -/
theorem lifted_legal {cx : Context} {used t : Text} (h : abnfLifted cx used t = .done true) :
    abnfLegalName (abnfBare t) = true := by
  obtain ⟨info, -, h⟩ := Run.bind_eq_done h
  cases info with
  | lit text cs => exact (Bool.and_eq_true_iff.1 (Run.done.inj h)).1
  | cls pat flags => cases h
  | engine name => cases h

/-- Alternatives that are written are those of trees, and are read back as those where each list of alternatives
holds one at least, each class is spelt plainly and each count is a number JavaScript has; and elsewhere only if two
ranges of a class hold a dash. -/
theorem abnfText_exact {cx : Context} {lifted : List Text} {used : Text}
    (hl : ∀ t ∈ lifted, abnfLifted cx used t = .done true)
    {n : Nat} {x : List Seq} {out : Text} (h : abnfText cx lifted n (.alts x) = .done out) :
    ∃ alts, treeAlts cx lifted n x = .done alts ∧
      ((alts ≠ [] ∧ ∀ t ∈ nodesAlts alts, t.Meets ClassPlain) → ReadsAlts out (BackAlts alts)) ∧
        (ReadsAlts out (BackAlts alts) → alts ≠ [] ∧
          ∀ t ∈ nodesAlts alts, t.Meets fun pat flags => ClassPlain pat flags ∨ TwoDashes pat flags) := by
  have hlegal : ∀ t ∈ lifted, abnfLegalName (abnfBare t) = true := fun t ht => lifted_legal (hl t ht)
  obtain ⟨alts, halts, htext⟩ := (abnfText_tree hlegal n).alts x out h
  obtain ⟨ss, hss, -⟩ := Run.bind_eq_done htext
  have hplain := kept_plain (alts_written alts ss hss)
  refine ⟨alts, halts, ?_⟩
  rw [altsText_exact htext]
  exact ⟨fun hk => ⟨hk.1, hplain.1 hk.2⟩, fun hk => ⟨hk.1, hplain.2 hk.2⟩⟩

/-- A loop over a token that is the class of the letters, and a token that is lifted. -/
def letters : Context where
  rules := [("_gen1_star".toList, openClose [[], [("s", "#C"), ("r", "_gen1_star")]] [])]
  fixed := [("#KEY".toList, .str "word".toList)]
  matchTokens := [("#C".toList, .str "@/^[\\u0061-\\u007a]/".toList)]
  prov := some (alternate [("_gen1_star", "a")])
  start := ['a']

/-- `*%x61-7A [ KEY ] /` is read as the loop and a tail, or nothing. -/
theorem abnfText_exact_letters :
    ReadsAlts "*%x61-7A [ KEY ] /".toList
      (BackAlts [[.rep .star (.cls "[\\u0061-\\u007a]".toList []), .tail [.tok "KEY".toList]], []]) := by
  let ps : List Piece := [fourPiece ['0', '0', '6', '1'] true rfl rfl, fourPiece ['0', '0', '7', 'a'] false rfl rfl]
  let x : List Seq := [[.ref "_gen1_star".toList, .tail [.tok "#KEY".toList]], []]
  have hout : abnfText letters ["#KEY".toList] 4 (.alts x) = .done "*%x61-7A [ KEY ] /".toList := by decide +kernel
  have hloop : abnfHelperKind letters "_gen1_star".toList = .done (some "star".toList) := by decide +kernel
  have hitem : abnfLoopItem letters "_gen1_star".toList (abnfRule letters "_gen1_star".toList) =
    .done (.tok "#C".toList) := by
    rfl
  have htok : abnfToken letters "#C".toList = .done (.cls (patternText false ps) []) := by decide +kernel
  have hl : ∀ t ∈ ["#KEY".toList], abnfLifted letters [] t = .done true := by
    intro t ht
    cases List.mem_singleton.1 ht
    decide +kernel
  obtain ⟨alts, halts, hreads, -⟩ := abnfText_exact hl hout
  have htree : treeAlts letters ["#KEY".toList] 4 x =
      .done [[.rep .star (.cls (patternText false ps) []), .tail [.tok "KEY".toList]], []] := by
    simp only [x, treeAlts, treeEl, treeAtom, treeTok, Run.each, hloop, hitem, htok, Run.done_bind, Run.ofOption]
    rfl
  cases halts.symm.trans htree
  refine hreads ⟨List.cons_ne_nil _ _, fun t ht => ?_⟩
  simp only [nodesAlts, nodesSeq, Tree.nodes, List.append_nil, List.cons_append, List.nil_append, List.mem_cons,
    List.not_mem_nil, or_false] at ht
  rcases ht with rfl | rfl | rfl | rfl
  · exact ⟨double_of_lt (by decide), fun m hm => by cases hm⟩
  · refine ⟨by decide +kernel, fun qs hqs => ?_⟩
    cases patternText_injective hqs
    exact .of_unfolded (by decide +kernel) (by decide +kernel)
  · trivial
  · trivial

/-- `a` over a class, which is the token `#C`. -/
def classRule (pat : String) : Json :=
  .obj [("rule".toList, .obj [startWrapper "a", (['a'], openClose [[("s", "#C")]] [])]),
    ("options".toList, .obj [("rule".toList, alternate [("start", "__start__")]),
      ("match".toList, .obj [("token".toList, alternate [("#C", "@/^" ++ pat ++ "/")])])])]

/-- The text written for a class with a dash after a range's high end is read as a range and a reference to a
rule `-`. -/
theorem abnfText_dash :
    let pat := "[\\u0061-\\u007a-\\u0039]"
    let cx := abnfContext (classRule pat)
    let body := "%x61-7A-".toList
    abnfFile (classRule pat) 4 = .done ("a = ".toList ++ body ++ ['\n']) ∧
      abnfText cx [] 2 (.alts [[.tok "#C".toList]]) = .done body ∧
      treeAlts cx [] 2 [[.tok "#C".toList]] = .done [[.cls pat.toList []]] ∧
      jsClass false pat.toList = some ⟨false, false, [(0x61, 0x7A), (0x2D, 0x2D), (0x39, 0x39)]⟩ ∧
      (ReadsAlts body fun as => ∃ e sp, as = [[e, .ref ['-'] sp]]) ∧
        ¬ ReadsAlts body (BackAlts [[.cls pat.toList []]]) := by
  intro pat cx body
  have htok : abnfToken cx "#C".toList = .done (.cls pat.toList []) := by decide +kernel
  let m : Member :=
    .span (fourPiece ['0', '0', '6', '1'] true rfl rfl) (fourPiece ['0', '0', '7', 'a'] true rfl rfl)
  have htext : abnfMemberText pat.toList m.ends = .ok body := by decide +kernel
  obtain ⟨htwo, hnone⟩ := dangling_reads (m := m) (by decide) (by decide) rfl htext
  refine ⟨by decide +kernel, by decide +kernel, ?_, by decide +kernel, htwo,
    fun hread => hnone (Tree.cls pat.toList []).Back ?_⟩
  · simp only [treeAlts, treeEl, treeTok, Run.each, htok, Run.done_bind]
    rfl
  · refine readsAs_iff.2 (hread.mono fun as has => ?_)
    obtain ⟨es, as', rfl, hes, hnil⟩ := backAlts_cons.1 has
    obtain ⟨e, es', rfl, he, hnil'⟩ := backSeq_cons.1 hes
    rcases as' with _ | ⟨_, _⟩
    · rcases es' with _ | ⟨_, _⟩
      · exact ⟨e, rfl, he⟩
      · exact hnil'.elim
    · exact hnil.elim

end TabnasAbnf.Render
