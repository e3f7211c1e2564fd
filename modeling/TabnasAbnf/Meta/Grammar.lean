/-
The documented grammar of ABNF sources, as derivations over tokens, and the rule table against it: a
reading without holes is a derivation, and a derivation is what the reading makes of its tokens. A
bareword before `=` or `=/`, or a prose value before `=`, is no atom: it begins a production.
-/
import TabnasAbnf.Meta.Numeric
import TabnasAbnf.Meta.Ts

namespace TabnasAbnf.Meta

open TabnasAbnf.Engine TabnasAbnf.Base TabnasAbnf.Passes

/-! ## Derivations -/

mutual

/-- `STRING | %s STRING | %i STRING | NUMVAL | IDENT | PROSE | '(' alts ')' | '[' alts ']'`: the
atom at the front of the tokens, and the tokens it leaves. -/
inductive DAtom : List Tok → List Tok → CAtom → Prop
  | st {t ts} : t.kind = .ST → DAtom (t :: ts) ts (.leaf (.st t))
  | ss {p t ts} : p.kind = .SS → t.kind = .ST → DAtom (p :: t :: ts) ts (.leaf (.ss p t))
  | si {p t ts} : p.kind = .SI → t.kind = .ST → DAtom (p :: t :: ts) ts (.leaf (.si p t))
  | nv {t ts} : t.kind = .NV → DAtom (t :: ts) ts (.leaf (.nv t))
  | tx {t ts} : t.kind = .TX → kindOf ts.head? ≠ .DEF → kindOf ts.head? ≠ .DEFA →
    DAtom (t :: ts) ts (.leaf (.tx t))
  | pv {t ts} : t.kind = .PV → kindOf ts.head? ≠ .DEF → DAtom (t :: ts) ts (.leaf (.pv t))
  | group {g op cl ts rest as} : opensWith op.kind = some g → DAlts ts (cl :: rest) as →
    cl.kind = g.closer → DAtom (op :: ts) rest (.group g op cl as)

/-- `*element`, an element being `[NUM '*' NUM | NUM '*' | '*' NUM | '*' | NUM] atom`. -/
inductive DSeq : List Tok → List Tok → CSeq → Prop
  | nil {ts} : DSeq ts ts []
  | cons {ts ts₁ ts₂ rest r a es} : Prefix ts r ts₁ → DAtom ts₁ ts₂ a → DSeq ts₂ rest es →
    DSeq ts rest ((r, a) :: es)

/-- `seq *('/' seq)`. -/
inductive DAlts : List Tok → List Tok → CAlts → Prop
  | one {ts rest s} : DSeq ts rest s → DAlts ts rest [s]
  | cons {ts t ts₁ rest s as} : DSeq ts (t :: ts₁) s → t.kind = .ALT → DAlts ts₁ rest as →
    DAlts ts rest (s :: as)

end

/-- One or more productions, each `(IDENT '=' | IDENT '=/' | PROSE '=') alts`. -/
inductive DProds : List Tok → List Tok → List CProd → Prop
  | one {ts ts₁ rest h name as} : headOf ts = some (h, name, ts₁) → DAlts ts₁ rest as →
    DProds ts rest [⟨h, name, as⟩]
  | cons {ts ts₁ ts₂ rest h name as ps} : headOf ts = some (h, name, ts₁) → DAlts ts₁ ts₂ as →
    DProds ts₂ rest ps → DProds ts rest (⟨h, name, as⟩ :: ps)

/-- The source derives the productions. -/
def Derives (ts : List Tok) (ps : List CProd) : Prop := DProds ts [] ps

/-! ## A reading without holes is a derivation -/

/-- A stray `=` ahead, which nothing but a production takes. -/
def Stuck (ts : List Tok) : Prop := kindOf ts.head? = .DEF ∨ kindOf ts.head? = .DEFA

theorem leafOf_derives {ts rest : List Tok} {l : Leaf} (h : leafOf ts = some (l, rest)) (hs : ¬ Stuck rest) :
    DAtom ts rest (.leaf l) := by
  have hdef : kindOf rest.head? ≠ .DEF := fun hk => hs (.inl hk)
  have hdefa : kindOf rest.head? ≠ .DEFA := fun hk => hs (.inr hk)
  unfold leafOf at h
  repeat' split at h
  all_goals first | (cases h; done) | skip
  · cases h; exact .st ‹_›
  · cases h; exact .pv ‹_› hdef
  · cases h; exact .tx ‹_› hdef hdefa
  · cases h; exact .ss ‹_› ‹_›
  · cases h; exact .si ‹_› ‹_›

section

variable (stop : Tok → Bool) (deep : Nat → Bool)

/-- What is read without a hole, and not up to a stray `=`, derives from the tokens it takes. -/
theorem derives_closed :
    ReadClosed stop deep (fun _ ts as rest => wholeAlts as = true → ¬ Stuck rest → DAlts ts rest as)
    (fun _ _ ts es rest => wholeSeq es = true → ¬ Stuck rest → DSeq ts rest es)
    (fun _ ts a rest => a.whole = true → ¬ Stuck rest → DAtom ts rest a) where
  last k ts s rest hs _ hw hstuck := .one (hs (by simpa [wholeAlts] using hw) hstuck)
  slash k ts s t ts₁ as rest hs hk has hw hstuck := by
    simp only [wholeAlts, Bool.and_eq_true] at hw
    exact .cons (hs hw.1 (by simp [Stuck, hk])) hk (has hw.2 hstuck)
  stops _ _ _ _ _ _ := .nil
  item k ph ts a ts₁ es rest ha hes hend hw hstuck := by
    simp only [wholeSeq, Bool.and_eq_true] at hw
    -- a sequence that has begun stops at a stray `=`
    have hs₁ : ¬ Stuck ts₁ := by
      intro hst
      have hstops : endsBefore .closing ts₁ = true := by
        obtain hk | hk := hst <;> simp [endsBefore, hk, seqEnds]
      obtain ⟨-, rfl⟩ := hend hstops
      exact hstuck hst
    exact .cons (prefixOf_takes ts) (ha hw.1 hs₁) (hes hw.2 hstuck)
  value _ _ _ hk _ _ _ := .nv hk
  bracket k g t ts as ts₁ hg _ has hw hstuck := by
    obtain _ | ⟨cl, ts₁⟩ := ts₁
    · cases hw
    · rw [closeAtom] at hw hstuck ⊢
      split at hw
      · rename_i hcl
        rw [if_pos hcl]
        refine .group hg (has hw ?_) hcl
        cases g <;> simp [Stuck, hcl, GroupKind.closer]
      · cases hw
  leaf k ts l rest hl _ hstuck := leafOf_derives hl hstuck

theorem readProds_derives (n : Nat) {ts rest : List Tok} {ps : List CProd}
    (h : (readProds stop deep n ts).res = .ok (ps, rest)) (hw : ∀ p ∈ ps, p.whole = true) (hs : ¬ Stuck rest) :
    DProds ts rest ps := by
  refine readProds_induct (A := fun ts as rest => wholeAlts as = true → ¬ Stuck rest → DAlts ts rest as)
    (P := fun ts ps rest => (∀ p ∈ ps, p.whole = true) → ¬ Stuck rest → DProds ts rest ps)
    (fun n ts as rest halts => ((derives_closed stop deep).reads n).1 0 _ _ _ halts) ?_ ?_ n h hw hs
  · intro ts hd name ts₁ as rest hhead has hw hs
    exact .one hhead (has (hw _ List.mem_cons_self) hs)
  · intro ts hd name ts₁ as ts₂ ps rest hhead has hnext hps hw hs
    have hs₂ : ¬ Stuck ts₂ := by
      obtain ⟨⟨hd', name', ts₃⟩, hh⟩ := Option.isSome_iff_exists.1 hnext
      obtain ⟨d, rfl, hk⟩ := headOf_some hh
      intro hst
      rcases hst with hst | hst <;> rw [List.head?_cons, kindOf_some] at hst <;> rw [hst] at hk <;> cases hk
    exact .cons hhead (has (hw _ List.mem_cons_self) hs₂) (hps (fun p hp => hw p (List.mem_cons_of_mem _ hp)) hs)

/-- Productions read without a hole derive from the source. -/
theorem reading_derives {ts : List Tok} {ps : List CProd} (h : (reading stop deep ts).res = .ok ps)
    (hne : ps ≠ []) (hw : ∀ p ∈ ps, p.whole = true) : Derives ts ps := by
  obtain ⟨-, rfl⟩ | h := readTop_eq_ok h
  · exact absurd rfl hne
  · exact readProds_derives stop deep _ h hw (by simp [Stuck])

end

/-! ## A derivation is what its tokens read as -/

/-- The numeric values among the tokens. -/
def numericsOf (ts : List Tok) : List Tok := ts.filter fun t => t.kind = .NV

theorem DAtom.head {ts rest : List Tok} {a : CAtom} (h : DAtom ts rest a) :
    kindOf ts.head? ∈ ATOM ∧ ∀ ph, endsBefore ph ts = false := by
  cases h with
  | st hk => simp [hk, ATOM, endsBefore, seqEnds]
  | ss hk _ => simp [hk, ATOM, endsBefore, seqEnds]
  | si hk _ => simp [hk, ATOM, endsBefore, seqEnds]
  | nv hk => simp [hk, ATOM, endsBefore, seqEnds]
  | tx hk h₁ h₂ =>
    refine ⟨by simp [hk, ATOM], fun ph => ?_⟩
    simp only [endsBefore, List.head?_cons, kindOf_some, List.tail_cons, hk]
    cases ph <;> cases hx : kindOf rest.head? <;> simp_all [seqEnds]
  | pv hk h₁ =>
    refine ⟨by simp [hk, ATOM], fun ph => ?_⟩
    simp only [endsBefore, List.head?_cons, kindOf_some, List.tail_cons, hk]
    cases ph <;> cases hx : kindOf rest.head? <;> simp_all [seqEnds]
  | @group g op cl ts _ as hg _ _ =>
    have hk : op.kind = .LP ∨ op.kind = .OB := by
      cases hk : op.kind <;> simp_all [opensWith]
    rcases hk with hk | hk <;> simp [hk, ATOM, endsBefore, seqEnds]

theorem endsBefore_count (ph : Phase) {t : Tok} {ts : List Tok} (h : t.kind = .NUM ∨ t.kind = .STAR) :
    endsBefore ph (t :: ts) = false := by
  rcases h with h | h <;> cases ph <;> simp [endsBefore, h, seqEnds]

/-- Before an atom the repeat taken is the one derived. -/
theorem Prefix.eq_prefixOf {ts ts₁ : List Tok} {r : Reps} (h : Prefix ts r ts₁) (ha : kindOf ts₁.head? ∈ ATOM) :
    prefixOf ts = (r, ts₁) := by
  obtain _ | ⟨t, ts₁⟩ := ts₁
  · simp [ATOM] at ha
  rw [List.head?_cons, kindOf_some] at ha
  have hnum : t.kind ≠ .NUM := fun hk => by simp [hk, ATOM] at ha
  have hstar : t.kind ≠ .STAR := fun hk => by simp [hk, ATOM] at ha
  cases h with
  | once => simp [prefixOf, fits, hnum, hstar]
  | bounded hn hs hm => simp [prefixOf, fits, hn, hs, hm, ha]
  | atleast hn hs => simp [prefixOf, fits, hn, hs, hnum, ha]
  | atmost hs hm => simp [prefixOf, fits, hs, hm, ha]
  | star hs => simp [prefixOf, fits, hs, hnum, ha]
  | exact hn => simp [prefixOf, fits, hn, hstar, ha]

theorem endsBefore_closing {ts : List Tok} (h : endsBefore .opening ts = true) : endsBefore .closing ts = true := by
  unfold endsBefore at h ⊢
  generalize kindOf ts.head? = k₁ at *
  generalize kindOf ts.tail.head? = k₂ at *
  cases k₁ <;> cases k₂ <;> simp_all [seqEnds]

/-- An element does not end the sequence it is in. -/
theorem endsBefore_element {ts ts₁ rest : List Tok} {r : Reps} {a : CAtom} (h : Prefix ts r ts₁)
    (ha : DAtom ts₁ rest a) (ph : Phase) : endsBefore ph ts = false := by
  cases h with
  | once => exact ha.head.2 ph
  | bounded hn _ _ => exact endsBefore_count ph (.inl hn)
  | atleast hn _ => exact endsBefore_count ph (.inl hn)
  | atmost hs _ => exact endsBefore_count ph (.inr hs)
  | star hs => exact endsBefore_count ph (.inr hs)
  | exact hn => exact endsBefore_count ph (.inl hn)

theorem Prefix.numerics {ts ts₁ : List Tok} {r : Reps} (h : Prefix ts r ts₁) : numericsOf ts = numericsOf ts₁ := by
  cases h <;> simp_all [numericsOf]

/-- What a rule reads, leaves and logs once its fuel suffices. -/
def ReadsTo {α : Type} (f : Nat → Reading (α × List Tok)) (ts : List Tok) (a : α) (rest : List Tok) : Prop :=
  ∃ n log, (∀ n' ≥ n, f n' = ⟨log, .ok (a, rest)⟩) ∧ log ++ numericsOf rest = numericsOf ts

theorem leaf_reads {ts rest : List Tok} {l : Leaf} (hl : leafOf ts = some (l, rest))
    (hnv : kindOf ts.head? ≠ .NV) (ho : opensWith (kindOf ts.head?) = none) (k : Nat)
    (hlog : numericsOf rest = numericsOf ts) :
    ReadsTo (fun n => readAtom (fun _ => false) (fun _ => false) n k ts) ts (.leaf l) rest := by
  refine ⟨1, [], fun n hn => ?_, hlog⟩
  obtain _ | n := n
  · omega
  obtain _ | ⟨t, ts⟩ := ts
  · cases hl
  rw [List.head?_cons, kindOf_some] at hnv ho
  simp only [readAtom, if_neg hnv, ho, hl]
  rfl

mutual

theorem DAtom.reads {ts rest : List Tok} {a : CAtom} : DAtom ts rest a → ∀ k,
    ReadsTo (fun n => readAtom (fun _ => false) (fun _ => false) n k ts) ts a rest ∧ a.whole = true
  | .st hk, k => ⟨leaf_reads (by simp [leafOf, hk]) (by simp [hk]) (by simp [hk, opensWith]) k
      (by simp [numericsOf, hk]), rfl⟩
  | .ss hk hk', k => ⟨leaf_reads (by simp [leafOf, hk, hk']) (by simp [hk]) (by simp [hk, opensWith]) k
      (by simp [numericsOf, hk, hk']), rfl⟩
  | .si hk hk', k => ⟨leaf_reads (by simp [leafOf, hk, hk']) (by simp [hk]) (by simp [hk, opensWith]) k
      (by simp [numericsOf, hk, hk']), rfl⟩
  | .tx hk _ _, k => ⟨leaf_reads (by simp [leafOf, hk]) (by simp [hk]) (by simp [hk, opensWith]) k
      (by simp [numericsOf, hk]), rfl⟩
  | .pv hk _, k => ⟨leaf_reads (by simp [leafOf, hk]) (by simp [hk]) (by simp [hk, opensWith]) k
      (by simp [numericsOf, hk]), rfl⟩
  | @DAtom.nv t ts hk, k => by
    refine ⟨⟨1, [t], fun n hn => ?_, by simp [numericsOf, hk]⟩, rfl⟩
    obtain _ | n := n
    · omega
    simp [readAtom, hk, decode]
  | @DAtom.group g op cl ts rest as hg has hcl, k => by
    have hends : endsBefore .opening (cl :: rest) = true := by
      cases g <;> simp [endsBefore, hcl, GroupKind.closer, seqEnds]
    have halt : kindOf (cl :: rest).head? ≠ .ALT := by
      cases g <;> simp [hcl, GroupKind.closer]
    have hop : op.kind ≠ .NV := fun hk => by simp [hk, opensWith] at hg
    have hclnv : cl.kind ≠ .NV := by cases g <;> simp [hcl, GroupKind.closer]
    obtain ⟨⟨n, log, hread, hlog⟩, hw⟩ := DAlts.reads has hends halt (k + 1)
    refine ⟨⟨n + 1, log, fun n' hn' => ?_, ?_⟩, hw⟩
    · obtain _ | n' := n'
      · omega
      simp only [readAtom, if_neg hop, hg, Bool.false_eq_true, if_false, Reading.map,
        hread n' (by omega), Reading.bind, Reading.ok, List.append_nil, closeAtom, if_pos hcl]
    · simpa [numericsOf, hop, hclnv] using hlog

theorem DSeq.reads {ts rest : List Tok} {es : CSeq} : DSeq ts rest es → endsBefore .opening rest = true → ∀ k ph,
    ReadsTo (fun n => readSeq (fun _ => false) (fun _ => false) n k ph ts) ts es rest ∧ wholeSeq es = true
  | .nil, he, k, ph => by
    have hph : endsBefore ph ts = true := by
      cases ph
      · exact he
      · exact endsBefore_closing he
    refine ⟨⟨1, [], fun n hn => ?_, rfl⟩, rfl⟩
    obtain _ | n := n
    · omega
    simp only [readSeq, if_pos hph]
    rfl
  | .cons hp ha hes, he, k, ph => by
    obtain ⟨⟨n₁, log₁, hread₁, hlog₁⟩, hw₁⟩ := DAtom.reads ha k
    obtain ⟨⟨n₂, log₂, hread₂, hlog₂⟩, hw₂⟩ := DSeq.reads hes he k .closing
    refine ⟨⟨max n₁ n₂ + 1, log₁ ++ log₂, fun n hn => ?_, ?_⟩, by rw [wholeSeq, hw₁, hw₂]; rfl⟩
    · obtain _ | n := n
      · omega
      simp only [readSeq, endsBefore_element hp ha ph, hp.eq_prefixOf ha.head.1, Bool.false_eq_true, if_false,
        Reading.map, hread₁ n (by omega), hread₂ n (by omega), Reading.bind, Reading.ok, List.append_nil]
    · rw [List.append_assoc, hlog₂, hlog₁, hp.numerics]

theorem DAlts.reads {ts rest : List Tok} {as : CAlts} : DAlts ts rest as → endsBefore .opening rest = true →
    kindOf rest.head? ≠ .ALT → ∀ k,
    ReadsTo (fun n => readAlts (fun _ => false) (fun _ => false) n k ts) ts as rest ∧ wholeAlts as = true
  | .one hs, he, hn, k => by
    obtain ⟨⟨n, log, hread, hlog⟩, hw⟩ := DSeq.reads hs he k .opening
    refine ⟨⟨n + 1, log, fun n' hn' => ?_, hlog⟩, by simp [wholeAlts, hw]⟩
    obtain _ | n' := n'
    · omega
    obtain _ | ⟨t, rest⟩ := rest
    · simp only [readAlts, hread n' (by omega), Reading.bind, Reading.ok, List.append_nil]
    · rw [List.head?_cons, kindOf_some] at hn
      simp only [readAlts, hread n' (by omega), Reading.bind, if_neg hn, Reading.ok, List.append_nil]
  | .cons hs hk has, he, hn, k => by
    obtain ⟨⟨n₁, log₁, hread₁, hlog₁⟩, hw₁⟩ := DSeq.reads hs (by simp [endsBefore, hk, seqEnds]) k .opening
    obtain ⟨⟨n₂, log₂, hread₂, hlog₂⟩, hw₂⟩ := DAlts.reads has he hn k
    refine ⟨⟨max n₁ n₂ + 1, log₁ ++ log₂, fun n hn => ?_, ?_⟩, by rw [wholeAlts, hw₁, hw₂]; rfl⟩
    · obtain _ | n := n
      · omega
      simp only [readAlts, hread₁ n (by omega), hread₂ n (by omega), Reading.bind, if_pos hk, Reading.map,
        Reading.ok, List.append_nil]
    · rw [List.append_assoc, hlog₂, ← hlog₁]
      simp [numericsOf, hk]

end

theorem head_ends {ts rest : List Tok} {h : HeadKind} {name : Tok} (hh : headOf ts = some (h, name, rest)) :
    endsBefore .opening ts = true ∧ kindOf ts.head? ≠ .ALT := by
  obtain ⟨d, rfl, hk⟩ := headOf_some hh
  simp only [endsBefore, List.head?_cons, kindOf_some, List.tail_cons]
  revert hk
  cases name.kind <;> cases d.kind <;> simp [headKind, seqEnds]

theorem DProds.head {ts rest : List Tok} {ps : List CProd} (h : DProds ts rest ps) : (headOf ts).isSome = true := by
  cases h with
  | one hh _ => rw [hh]; rfl
  | cons hh _ _ => rw [hh]; rfl

theorem head_numerics {ts rest : List Tok} {h : HeadKind} {name : Tok} (hh : headOf ts = some (h, name, rest)) :
    numericsOf ts = numericsOf rest := by
  obtain ⟨d, rfl, hk⟩ := headOf_some hh
  have hn : name.kind ≠ .NV := fun hn => by rw [hn] at hk; cases hk
  have hd : d.kind ≠ .NV := fun hd => by rw [hd] at hk; revert hk; cases name.kind <;> simp [headKind]
  simp [numericsOf, hn, hd]

theorem DProds.reads {ts : List Tok} {ps : List CProd} {rest : List Tok} (h : DProds ts rest ps) (hr : rest = []) :
    ReadsTo (fun n => readProds (fun _ => false) (fun _ => false) n ts) ts ps rest ∧
      ∀ p ∈ ps, p.whole = true := by
  induction h with
  | @one ts ts₁ rest h name as hh has =>
    subst hr
    obtain ⟨⟨n, log, hread, hlog⟩, hw⟩ := has.reads rfl (by simp) 0
    refine ⟨⟨n + 1, log, fun n' hn' => ?_, by rw [hlog, head_numerics hh]⟩, by simpa [CProd.whole] using hw⟩
    obtain _ | n' := n'
    · omega
    simp only [readProds, hh, hread n' (by omega), Reading.bind]
    simp [headOf, Reading.ok]
  | @cons ts ts₁ ts₂ rest h name as ps hh has hps ih =>
    obtain ⟨⟨n₂, log₂, hread₂, hlog₂⟩, hw₂⟩ := ih hr
    obtain ⟨⟨h', name', ts₃⟩, hh'⟩ := Option.isSome_iff_exists.1 hps.head
    obtain ⟨⟨n₁, log₁, hread₁, hlog₁⟩, hw₁⟩ := has.reads (head_ends hh').1 (head_ends hh').2 0
    refine ⟨⟨max n₁ n₂ + 1, log₁ ++ log₂, fun n hn => ?_, ?_⟩, ?_⟩
    · obtain _ | n := n
      · omega
      simp only [readProds, hh, hread₁ n (by omega), hread₂ n (by omega), Reading.bind, hps.head, if_true,
        Reading.map, Reading.ok, List.append_nil]
    · rw [List.append_assoc, hlog₂, hlog₁, head_numerics hh]
    · simpa [CProd.whole] using ⟨hw₁, hw₂⟩

/-- A derived source reads as the productions it derives, and logs its numeric values. -/
theorem Derives.reading {ts : List Tok} {ps : List CProd} (h : Derives ts ps) :
    Meta.reading (fun _ => false) (fun _ => false) ts = ⟨numericsOf ts, .ok ps⟩ ∧ ps ≠ [] ∧
      ∀ p ∈ ps, p.whole = true := by
  obtain ⟨⟨n, log, hread, hlog⟩, hw⟩ := DProds.reads h rfl
  have hne : ps ≠ [] := by cases h <;> exact List.cons_ne_nil _ _
  refine ⟨?_, hne, hw⟩
  obtain _ | ⟨t, ts⟩ := ts
  · cases h.head
  have hfuel := readProds_upTo (fun _ => false) (fun _ => false) (le_max_left (fuelFor (t :: ts)) n) (t :: ts)
  have hmax := hread (max (fuelFor (t :: ts)) n) (le_max_right _ _)
  simp only at hmax
  rw [hmax] at hfuel
  have hends := readProds_ends (fun _ => false) (fun _ => false) (fuelFor (t :: ts)) (t :: ts) (by simp [fuelFor])
  rw [Meta.reading, readTop, hfuel.resolve_left hends]
  simp only [numericsOf, List.filter_nil, List.append_nil] at hlog
  simp [Reading.bind, Reading.ok, hlog, numericsOf]

/-- A source derives one list of productions at most. -/
theorem Derives.unique {ts : List Tok} {ps ps' : List CProd} (h : Derives ts ps) (h' : Derives ts ps') : ps = ps' := by
  have he := h.reading.1.symm.trans h'.reading.1
  simpa using he

/-! ## The parse -/

/-- What a source derives is what its reading is, holes apart. -/
theorem derives_iff {ts : List Tok} {ps : List CProd} :
    Derives ts ps ↔ (reading (fun _ => false) (fun _ => false) ts).res = .ok ps ∧ ps ≠ [] ∧
      ∀ p ∈ ps, p.whole = true := by
  constructor
  · intro h
    obtain ⟨hr, hne, hw⟩ := h.reading
    exact ⟨by rw [hr], hne, hw⟩
  · rintro ⟨hr, hne, hw⟩
    exact reading_derives _ _ hr hne hw

/-- With a value that stops the run, a source reads as productions exactly when it does without and
none of the values decoded stops it. -/
theorem reading_stop_iff {stop : Tok → Bool} {ts : List Tok} {ps : List CProd} :
    (reading stop (fun _ => false) ts).res = .ok ps ↔
      (reading (fun _ => false) (fun _ => false) ts).res = .ok ps ∧
        ∀ t ∈ (reading (fun _ => false) (fun _ => false) ts).log, stop t = false := by
  have hcut := reading_cut stop (fun _ => false) ts
  unfold Cut at hcut
  cases hf : (reading (fun _ => false) (fun _ => false) ts).log.find? stop with
  | none =>
    rw [hf] at hcut
    rw [hcut]
    exact ⟨fun h => ⟨h, by simpa using List.find?_eq_none.1 hf⟩, And.left⟩
  | some t =>
    rw [hf] at hcut
    rw [hcut]
    refine ⟨nofun, fun ⟨_, h⟩ => ?_⟩
    have hs := h t (List.mem_of_find?_eq_some hf)
    rw [List.find?_some hf] at hs
    cases hs

/-- The tree passes the checks exactly when it is not empty and has no hole. -/
theorem holesRejected_ok {α β ε : Type} {B : Builder α β} (hB : B.Honest) {ps : List CProd} {rules : Rules α β} :
    checked (holesRejected (ε := ε)) (ps.map B.prod) = .ok rules ↔
      ps ≠ [] ∧ (∀ p ∈ ps, p.whole = true) ∧ rules = ps.map B.prod := by
  rw [holesRejected_prods hB]
  by_cases hps : ps = []
  · simp [hps]
  · rw [if_neg hps]
    cases hf : ps.find? (!·.whole) with
    | none =>
      have hw : ∀ p ∈ ps, p.whole = true := by simpa using List.find?_eq_none.1 hf
      simp only [Except.ok.injEq, ne_eq, hps, not_false_eq_true, true_and]
      exact ⟨fun h => ⟨hw, h.symm⟩, fun h => h.2.symm⟩
    | some p =>
      simp only [reduceCtorEq, false_iff, not_and]
      intro _ hw
      have hp := List.find?_some hf
      rw [hw p (List.mem_of_find?_eq_some hf)] at hp
      cases hp

theorem parseAbnf_ok {α ε : Type} {num : Tok → Except ε α} {val : Tok → α} {stop : Tok → Bool}
    {refusal : Tok → ε} (hstop : ∀ t, stop t = true → num t = .error (refusal t))
    (hval : ∀ t, stop t = false → num t = .ok (val t)) {d₀ : Nat} {engine : Ts.Engine α ε}
    (he : (Ts.grammar num).Implements .abnf d₀ engine) (ts : List Tok) (rules : Rules α JsNum) :
    Ts.parseAbnf engine holesRejected ts = .ok rules ↔
      ∃ ps, Derives ts ps ∧ (∀ t ∈ ts, t.kind = .NV → stop t = false) ∧ rules = ps.map (Ts.builder val).prod := by
  rw [Ts.parseAbnf_eq hstop hval he]
  constructor
  · intro h
    cases hx : (reading stop (fun _ => false) ts).res with
    | error e => rw [hx] at h; cases e <;> cases h
    | ok ps =>
      rw [hx] at h
      obtain ⟨hne, hw, rfl⟩ := (holesRejected_ok (Ts.builder_honest val)).1 h
      obtain ⟨hread, hlog⟩ := reading_stop_iff.1 hx
      have hd : Derives ts ps := derives_iff.2 ⟨hread, hne, hw⟩
      rw [hd.reading.1] at hlog
      exact ⟨ps, hd, fun t ht hk => hlog t (by simp [numericsOf, ht, hk]), rfl⟩
  · rintro ⟨ps, hd, hs, rfl⟩
    obtain ⟨hread, hne, hw⟩ := hd.reading
    have hx : (reading stop (fun _ => false) ts).res = .ok ps := by
      refine reading_stop_iff.2 ⟨by rw [hread], fun t ht => ?_⟩
      rw [hread] at ht
      obtain ⟨ht, hk⟩ := List.mem_filter.1 ht
      exact hs t ht (by simpa using hk)
    rw [hx]
    exact (holesRejected_ok (Ts.builder_honest val)).2 ⟨hne, hw, rfl⟩

/-- The engine with `parseNumericValue`. -/
def Ts.numericEngine (d₀ : Nat) : Ts.Engine (NumericElement Units) NumericError :=
  Ts.machine Ts.numericOf Ts.valueOf (fun t => !Ts.readable t) Ts.refusalOf Ts.numericOf_refused
    Ts.numericOf_readable d₀

/-- The parse ends on every source, and accepts those that derive from the grammar with every numeric
value readable; it builds the productions of the derivation, with the counts as `parseInt` reads them.
A source derives one list of productions at most, and counts below `2^53` are read exactly. -/
theorem parseAbnf_accepts {d₀ : Nat} {engine : Ts.Engine (NumericElement Units) NumericError}
    (he : (Ts.grammar Ts.numericOf).Implements .abnf d₀ engine) (ts : List Tok) :
    (∃ out, (Ts.grammar Ts.numericOf).Yields ((Ts.grammar Ts.numericOf).start .abnf d₀ [] ts) out) ∧
    (∀ rules, Ts.parseAbnf engine holesRejected ts = .ok rules ↔
      ∃ ps, Derives ts ps ∧ (∀ t ∈ ts, t.kind = .NV → Ts.readable t = true) ∧
        rules = ps.map (Ts.builder Ts.valueOf).prod) ∧
    (∀ ps ps', Derives ts ps → Derives ts ps' → ps = ps') ∧
    ∀ t ∈ ts, ∀ n : Digits, t.lex = .NUM n → n.value < 2 ^ 53 → parseInt t.text 10 = .fin n.value := by
  refine ⟨?_, fun rules => ?_, fun _ _ => Derives.unique, fun t _ n hn hlt => ?_⟩
  · obtain ⟨out, hy, -⟩ := (Ts.discipline Ts.numericOf Ts.valueOf (fun t => !Ts.readable t) Ts.refusalOf
      Ts.numericOf_refused Ts.numericOf_readable d₀).runs_top ts (w := []) (fuelFor ts) (reading_ends _ _ ts)
    exact ⟨out, hy⟩
  · simpa using parseAbnf_ok Ts.numericOf_refused Ts.numericOf_readable he ts rules
  · rw [Tok.text, hn]
    exact n.parseInt hlt

/-- `a = *"x"`. -/
theorem parseAbnf_accepts_star :
    ∃ rules, Ts.parseAbnf (Ts.numericEngine 0) holesRejected
        [⟨.TX ['a'], 0, 1, 1, 1⟩, ⟨.DEF, 2, 1, 1, 3⟩, ⟨.STAR, 4, 1, 1, 5⟩, ⟨.ST ['x'], 5, 3, 1, 6⟩] = .ok rules ∧
      rules.map (·.name) = [['a']] := by
  refine ⟨_, ((parseAbnf_accepts (Grammar.engine_implements _ _ _ _) _).2.1 _).2
    ⟨[⟨.plain, ⟨.TX ['a'], 0, 1, 1, 1⟩, [[(.star, .leaf (.st ⟨.ST ['x'], 5, 3, 1, 6⟩))]]⟩], ?_, by decide, rfl⟩, rfl⟩
  exact .one rfl (.one (.cons (.star rfl) (.st rfl) .nil))

/-- `a = %x110000` derives and is not accepted; `a = 9007199254740993"x"` is accepted with the bound
9007199254740992. -/
theorem parseAbnf_rejects_derived :
    (∃ ts ps, Derives ts ps ∧ ∀ rules, Ts.parseAbnf (Ts.numericEngine 0) holesRejected ts ≠ .ok rules) ∧
    Ts.boundsOf (.exact ⟨.NUM ⟨['9', '0', '0', '7', '1', '9', '9', '2', '5', '4', '7', '4', '0', '9', '9', '3'],
      by decide⟩, 4, 16, 1, 5⟩) =
      (.fin 9007199254740992, .fin 9007199254740992) := by
  refine ⟨⟨[⟨.TX ['a'], 0, 1, 1, 1⟩, ⟨.DEF, 2, 1, 1, 3⟩,
      ⟨.NV ⟨['%', 'x', '1', '1', '0', '0', '0', '0'], by decide⟩, 4, 8, 1, 5⟩],
    [⟨.plain, ⟨.TX ['a'], 0, 1, 1, 1⟩,
      [[(.once, .leaf (.nv ⟨.NV ⟨['%', 'x', '1', '1', '0', '0', '0', '0'], by decide⟩, 4, 8, 1, 5⟩))]]⟩],
    .one rfl (.one (.cons .once (.nv rfl) .nil)), fun rules h => ?_⟩, rfl⟩
  obtain ⟨ps, -, hs, -⟩ := (parseAbnf_ok Ts.numericOf_refused Ts.numericOf_readable
    (Grammar.engine_implements _ _ _ _) _ rules).1 h
  exact absurd (hs _ (List.mem_cons_of_mem _ (List.mem_cons_of_mem _ List.mem_cons_self)) rfl) (by decide)

end TabnasAbnf.Meta
