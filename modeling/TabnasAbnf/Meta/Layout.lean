/-
Where the productions of a source stand in it. Each span covers exactly the tokens its production or
element is written by, a bracket's up to the closing bracket that matches it; elements lie within the
group around them, siblings follow one another, and each production's elements lie between its name and
the next production's. `withCoreRules` adds productions without a span at any depth.
-/
import TabnasAbnf.Meta.CoreRules
import TabnasAbnf.Meta.Grammar

namespace TabnasAbnf.Meta

open TabnasAbnf.Engine TabnasAbnf.Base TabnasAbnf.Passes

variable {α β ε : Type}

/-! ## Brackets -/

/-- The bracket a token closes. -/
def closesWith : Kind → Option GroupKind
  | .RP => some .group
  | .CB => some .opt
  | _ => none

/-- The brackets open once one of a kind is closed: the latest of the kind is, and those opened since
are dropped. -/
def closeTo (g : GroupKind) : List GroupKind → Option (List GroupKind)
  | [] => none
  | k :: st => if k = g then some st else closeTo g st

/-- The brackets open after a token, the latest first. -/
def openStep (st : List GroupKind) (t : Tok) : Option (List GroupKind) :=
  match opensWith t.kind with
  | some g => some (g :: st)
  | none =>
    match closesWith t.kind with
    | some g => closeTo g st
    | none => some st

/-- The brackets open after tokens, unless one of them closes a bracket that none of them opens. -/
def openAfter (st : List GroupKind) (ts : List Tok) : Option (List GroupKind) := ts.foldlM openStep st

/-- The tokens stand between an opening bracket and the closing bracket that matches it. -/
def Encloses (g : GroupKind) (body : List Tok) : Prop := ∃ st, openAfter [] body = some st ∧ g ∉ st

theorem openAfter_append (st : List GroupKind) (ts us : List Tok) :
    openAfter st (ts ++ us) = (openAfter st ts).bind fun st => openAfter st us := List.foldlM_append

theorem openAfter_cons (st : List GroupKind) (t : Tok) (ts : List Tok) :
    openAfter st (t :: ts) = (openStep st t).bind fun st => openAfter st ts := List.foldlM_cons

@[simp] theorem opensWith_closer (g : GroupKind) : opensWith g.closer = none := by cases g <;> rfl

@[simp] theorem closesWith_closer (g : GroupKind) : closesWith g.closer = some g := by cases g <;> rfl

theorem openStep_opens {t : Tok} {g : GroupKind} (h : opensWith t.kind = some g) (st : List GroupKind) :
    openStep st t = some (g :: st) := by rw [openStep, h]

theorem openStep_closes {t : Tok} {g : GroupKind} (h : t.kind = g.closer) (st : List GroupKind) :
    openStep st t = closeTo g st := by rw [openStep, h, opensWith_closer, closesWith_closer]

theorem openStep_other {t : Tok} (h : opensWith t.kind = none) (h' : closesWith t.kind = none) (st : List GroupKind) :
    openStep st t = some st := by rw [openStep, h, h']

theorem closeTo_append {g : GroupKind} {st st' : List GroupKind} (h : closeTo g st = some st') (base : List GroupKind) :
    closeTo g (st ++ base) = some (st' ++ base) := by
  induction st with
  | nil => cases h
  | cons k st ih =>
    rw [closeTo] at h
    rw [List.cons_append, closeTo]
    split at h
    · cases h
      rw [if_pos ‹_›]
    · rw [if_neg ‹_›]
      exact ih h

theorem closeTo_none {g : GroupKind} {st : List GroupKind} (h : g ∉ st) : closeTo g st = none := by
  induction st with
  | nil => rfl
  | cons k st ih =>
    rw [List.mem_cons, not_or] at h
    rw [closeTo, if_neg (Ne.symm h.1), ih h.2]

theorem closeTo_past {g : GroupKind} {st : List GroupKind} (h : g ∉ st) (base : List GroupKind) :
    closeTo g (st ++ g :: base) = some base := by
  induction st with
  | nil => exact if_pos rfl
  | cons k st ih =>
    rw [List.mem_cons, not_or] at h
    rw [List.cons_append, closeTo, if_neg (Ne.symm h.1), ih h.2]

theorem openStep_append {t : Tok} {st st' : List GroupKind} (h : openStep st t = some st') (base : List GroupKind) :
    openStep (st ++ base) t = some (st' ++ base) := by
  unfold openStep at h ⊢
  cases ho : opensWith t.kind with
  | some g =>
    rw [ho] at h
    cases h
    rfl
  | none =>
    rw [ho] at h
    cases hc : closesWith t.kind with
    | some g =>
      rw [hc] at h
      exact closeTo_append h base
    | none =>
      rw [hc] at h
      cases h
      rfl

/-- Brackets open before tokens that close none of them stay open. -/
theorem openAfter_frame {ts : List Tok} {st st' : List GroupKind} (h : openAfter st ts = some st')
    (base : List GroupKind) : openAfter (st ++ base) ts = some (st' ++ base) := by
  induction ts generalizing st with
  | nil => cases h; rfl
  | cons t ts ih =>
    rw [openAfter_cons] at h
    obtain ⟨mid, hstep, hrest⟩ := Option.bind_eq_some_iff.1 h
    rw [openAfter_cons, openStep_append hstep, Option.bind_some]
    exact ih hrest

/-- A bracket has one matching bracket at most. -/
theorem Encloses.unique {g : GroupKind} {body body' more more' : List Tok} {cl cl' : Tok} (h : Encloses g body)
    (h' : Encloses g body') (hc : cl.kind = g.closer) (hc' : cl'.kind = g.closer)
    (heq : body ++ cl :: more = body' ++ cl' :: more') : body = body' := by
  -- past its matching bracket no body goes on
  have hlong : ∀ {body body' x : List Tok} {cl : Tok}, Encloses g body → Encloses g body' → cl.kind = g.closer →
      body' ≠ body ++ cl :: x := by
    rintro body body' x cl ⟨st, hst, hg⟩ ⟨st', hst', -⟩ hc rfl
    rw [openAfter_append, hst, Option.bind_some, openAfter_cons, openStep_closes hc, closeTo_none hg] at hst'
    cases hst'
  rcases List.append_eq_append_iff.1 heq with ⟨x, hx, hcl⟩ | ⟨x, hx, hcl⟩
  · obtain _ | ⟨c, x⟩ := x
    · rw [hx, List.append_nil]
    · cases hcl
      exact absurd hx (hlong h h' hc)
  · obtain _ | ⟨c, x⟩ := x
    · rw [hx, List.append_nil]
    · cases hcl
      exact absurd hx (hlong h' h hc')

/-! ## Elements over their tokens -/

/-- One span from the start of a token to the end of another. -/
def covering (a b : Tok) : Span := ⟨a.sI, b.sI + b.len, a.rI, a.cI⟩

/-- An item under a repeat, or bare. -/
inductive Repeated : Element α β → Element α β → Prop
  | bare (e) : Repeated e e
  | star (e) : Repeated (.star e) e
  | plus (e) : Repeated (.plus e) e
  | opt (e) : Repeated (.opt e none) e
  | rep (min max e) : Repeated (.rep min max e) e

section

variable (sp : α → Option Span)

mutual

/-- The element the tokens write, without its repeat, each span in it the one of the tokens it covers.
`sp` is the span of a numeric value. A bracket that is never closed leaves a hole. -/
inductive AtomAt : Element α β → List Tok → Prop
  | string {t literal caseSensitive} : t.kind = .ST →
    AtomAt (.term literal caseSensitive (some (covering t t))) [t]
  | prefixed {p t literal caseSensitive} : p.kind = .SS ∨ p.kind = .SI → t.kind = .ST →
    AtomAt (.term literal caseSensitive (some (covering p t))) [p, t]
  | value {t a} : t.kind = .NV → sp a = some (covering t t) → AtomAt (.value a) [t]
  | prose {t text} : t.kind = .PV → AtomAt (.prose text (some (covering t t))) [t]
  | ref {t name} : t.kind = .TX → AtomAt (.ref name (some (covering t t))) [t]
  | group {op cl body alts} : op.kind = .LP → cl.kind = .RP → Encloses .group body → AltsAt alts body →
    AtomAt (.group alts (some (covering op cl))) (op :: (body ++ [cl]))
  | opt {op cl body alts} : op.kind = .OB → cl.kind = .CB → Encloses .opt body → AltsAt alts body →
    AtomAt (.opt (.group alts (some (covering op cl))) (some (covering op cl))) (op :: (body ++ [cl]))
  | hole {op g body alts} : opensWith op.kind = some g → AltsAt alts body → AtomAt .hole (op :: body)

/-- Elements one after the other, each with the counts and stars of its repeat before it. -/
inductive SeqAt : List (Element α β) → List Tok → Prop
  | nil : SeqAt [] []
  | cons {e x es pre seg rest} : Repeated e x → (∀ t ∈ pre, t.kind = .NUM ∨ t.kind = .STAR) → AtomAt x seg →
    SeqAt es rest → SeqAt (e :: es) (pre ++ (seg ++ rest))

/-- Sequences with a slash between them. -/
inductive AltsAt : List (List (Element α β)) → List Tok → Prop
  | one {s seg} : SeqAt s seg → AltsAt [s] seg
  | cons {s as seg slash rest} : SeqAt s seg → slash.kind = .ALT → AltsAt as rest →
    AltsAt (s :: as) (seg ++ slash :: rest)

end

/-- Productions one after the other, each over its name, its `=` or `=/` and its alternatives, with
the span of its name. -/
inductive ProdsAt : Rules α β → List Tok → Prop
  | nil : ProdsAt [] []
  | cons {p ps name d body rest} : p.name = name.text → p.sp = some (covering name name) →
    d.kind = .DEF ∨ d.kind = .DEFA → AltsAt sp p.alts body → ProdsAt ps rest →
    ProdsAt (p :: ps) (name :: d :: (body ++ rest))

end

/-! ## A reading lays its elements out -/

/-- The wrapping of a builder is a repeat of the item. -/
def Builder.Repeats (B : Builder α β) : Prop := ∀ r e, Repeated (B.wrap r e) e

theorem Prefix.split {ts rest : List Tok} {r : Reps} (h : Prefix ts r rest) :
    ∃ pre, ts = pre ++ rest ∧ ∀ t ∈ pre, t.kind = .NUM ∨ t.kind = .STAR := by
  cases h with
  | once => exact ⟨[], rfl, by simp⟩
  | bounded hn hs hm => exact ⟨[_, _, _], rfl, by simp [hn, hs, hm]⟩
  | atleast hn hs => exact ⟨[_, _], rfl, by simp [hn, hs]⟩
  | atmost hs hm => exact ⟨[_, _], rfl, by simp [hs, hm]⟩
  | star hs => exact ⟨[_], rfl, by simp [hs]⟩
  | exact hn => exact ⟨[_], rfl, by simp [hn]⟩

theorem opensWith_group {k : Kind} (h : opensWith k = some .group) : k = .LP := by
  cases k <;> simp_all [opensWith]

theorem opensWith_opt {k : Kind} (h : opensWith k = some .opt) : k = .OB := by
  cases k <;> simp_all [opensWith]

/-- A token that is no bracket. -/
theorem openAfter_plain {t : Tok} {k : Kind} (h : t.kind = k) (hk : opensWith k = none ∧ closesWith k = none)
    (st : List GroupKind) (ts : List Tok) : openAfter st (t :: ts) = openAfter st ts := by
  rw [openAfter_cons, openStep_other (h ▸ hk.1) (h ▸ hk.2), Option.bind_some]

theorem openAfter_counts {pre : List Tok} (h : ∀ t ∈ pre, t.kind = .NUM ∨ t.kind = .STAR) (st : List GroupKind)
    (ts : List Tok) : openAfter st (pre ++ ts) = openAfter st ts := by
  induction pre with
  | nil => rfl
  | cons t pre ih =>
    have hrest := ih fun u hu => h u (List.mem_cons_of_mem _ hu)
    rcases h t List.mem_cons_self with ht | ht
    · exact (openAfter_plain ht (by decide) st _).trans hrest
    · exact (openAfter_plain ht (by decide) st _).trans hrest

/-- Where alternatives end. -/
def AltsEnd (ts : List Tok) : Prop := endsBefore .closing ts = true ∧ kindOf ts.head? ≠ .ALT

/-- The tokens up to `rest` are as `P` says; brackets they leave open are not closed by the token after
them, where the alternatives around them end too. -/
def Laid (P : List Tok → Prop) (ts rest : List Tok) : Prop :=
  ∃ seg st, ts = seg ++ rest ∧ P seg ∧ openAfter [] seg = some st ∧ (∀ g ∈ st, kindOf rest.head? ≠ g.closer) ∧
    (st ≠ [] → AltsEnd rest)

section

variable {sp : α → Option Span} {B : Builder α β} {stop : Tok → Bool} {deep : Nat → Bool}

theorem Laid.leaf {P : List Tok → Prop} (seg : List Tok) {rest : List Tok} (hP : P seg)
    (hseg : openAfter [] seg = some []) :
    Laid P (seg ++ rest) rest := ⟨seg, [], rfl, hP, hseg, by simp, fun h => absurd rfl h⟩

theorem leafOf_laid {ts rest : List Tok} {l : Leaf} (h : leafOf ts = some (l, rest)) :
    Laid (AtomAt sp (B.leaf l)) ts rest := by
  have hone : ∀ {t : Tok} {k : Kind}, t.kind = k → opensWith k = none ∧ closesWith k = none →
      openAfter [] [t] = some [] := fun ht hk => openAfter_plain ht hk [] []
  have htwo : ∀ {p t : Tok} {k k' : Kind}, p.kind = k → t.kind = k' → opensWith k = none ∧ closesWith k = none →
      opensWith k' = none ∧ closesWith k' = none → openAfter [] [p, t] = some [] :=
    fun hp ht hk hk' => (openAfter_plain hp hk [] _).trans (openAfter_plain ht hk' [] [])
  unfold leafOf at h
  repeat' split at h
  all_goals first | (cases h; done) | skip
  · cases h
    exact .leaf [_] (.string ‹_›) (hone ‹_› (by decide))
  · cases h
    exact .leaf [_] (.prose ‹_›) (hone ‹_› (by decide))
  · cases h
    exact .leaf [_] (.ref ‹_›) (hone ‹_› (by decide))
  · cases h
    exact .leaf [_, _] (.prefixed (.inl ‹_›) ‹_›) (htwo ‹_› ‹_› (by decide) (by decide))
  · cases h
    exact .leaf [_, _] (.prefixed (.inr ‹_›) ‹_›) (htwo ‹_› ‹_› (by decide) (by decide))

/-- A bracket read with what is in it: closed by the token after it, or a hole. -/
theorem closeAtom_laid {g : GroupKind} {op : Tok} {as : CAlts} {ts ts₁ rest : List Tok} {a : CAtom}
    (hg : opensWith op.kind = some g) (hlaid : Laid (AltsAt sp (B.alts as)) ts ts₁) (hend : AltsEnd ts₁)
    (hc : closeAtom g op as ts₁ = (a, rest)) : Laid (AtomAt sp (B.atom a)) (op :: ts) rest := by
  obtain ⟨body, st, rfl, halts, hst, hnot, -⟩ := hlaid
  have hopen : ∀ us, openAfter [] (op :: (body ++ us)) = openAfter (st ++ [g]) us := by
    intro us
    rw [openAfter_cons, openStep_opens hg, Option.bind_some, openAfter_append]
    exact congrArg (Option.bind · fun st => openAfter st us) (openAfter_frame hst [g])
  have hhole : kindOf ts₁.head? ≠ g.closer → Laid (AtomAt sp (B.atom .hole)) (op :: (body ++ ts₁)) ts₁ := by
    refine fun hk => ⟨op :: body, st ++ [g], rfl, .hole hg halts, ?_, fun k hk' => ?_, fun _ => hend⟩
    · have h := hopen []
      rwa [List.append_nil] at h
    · rcases List.mem_append.1 hk' with hk' | hk'
      · exact hnot k hk'
      · rwa [List.mem_singleton.1 hk']
  obtain _ | ⟨cl, ts₁⟩ := ts₁
  · cases hc
    exact hhole (by cases g <;> exact Kind.noConfusion)
  · rw [closeAtom] at hc
    split at hc
    · rename_i hcl
      cases hc
      have hgst : g ∉ st := fun hm => hnot g hm hcl
      have hbody : Encloses g body := ⟨st, hst, hgst⟩
      refine ⟨op :: (body ++ [cl]), [], by simp, ?_, ?_, by simp, fun h => absurd rfl h⟩
      · cases g with
        | group => exact .group (opensWith_group hg) hcl hbody halts
        | opt => exact .opt (opensWith_opt hg) hcl hbody halts
      · rw [hopen, openAfter_cons, openStep_closes hcl, closeTo_past hgst]
        rfl
    · rename_i hcl
      cases hc
      exact hhole hcl

/-- What the rules read is laid out over the tokens that they take. -/
theorem laid_closed (hB : B.Repeats) (hnum : ∀ t, stop t = false → sp (B.num t) = some (spanOf t)) :
    ReadClosed stop deep (fun _ ts as rest => Laid (AltsAt sp (B.alts as)) ts rest ∧ AltsEnd rest)
      (fun _ _ ts es rest => Laid (SeqAt sp (B.seq es)) ts rest ∧ endsBefore .closing rest = true)
      (fun _ ts a rest => Laid (AtomAt sp (B.atom a)) ts rest) where
  last k ts s rest hs hk := by
    obtain ⟨⟨seg, st, rfl, hs, hst, hnot, hend⟩, hstop⟩ := hs
    refine ⟨⟨seg, st, rfl, .one hs, hst, hnot, hend⟩, hstop, ?_⟩
    cases rest with
    | nil => exact Kind.noConfusion
    | cons t rest => exact hk t rfl
  slash k ts s t ts₁ as rest hs hk has := by
    obtain ⟨⟨seg, st, rfl, hs, hst, -, hend⟩, -⟩ := hs
    obtain ⟨⟨more, st', rfl, has, hst', hnot', hend'⟩, hends⟩ := has
    -- before a slash every bracket is closed
    obtain _ | ⟨g, st⟩ := st
    · refine ⟨⟨seg ++ t :: more, st', by simp, .cons hs hk has, ?_, hnot', hend'⟩, hends⟩
      rw [openAfter_append, hst, Option.bind_some, openAfter_plain hk (by decide), hst']
    · exact absurd hk (hend (List.cons_ne_nil _ _)).2
  stops k ph ts hend := by
    refine ⟨.leaf [] .nil rfl, ?_⟩
    cases ph with
    | opening => exact endsBefore_closing hend
    | closing => exact hend
  item k ph ts a ts₁ es rest ha hes hend := by
    obtain ⟨pre, hpre, hcounts⟩ := (prefixOf_takes ts).split
    obtain ⟨seg, st, hseg, ha, hst, hnot, hopen⟩ := ha
    rw [hpre, hseg]
    obtain _ | ⟨g, st⟩ := st
    · obtain ⟨⟨more, st', rfl, hes, hst', hnot', hend'⟩, hstop⟩ := hes
      refine ⟨⟨pre ++ (seg ++ more), st', by simp, .cons (hB _ _) hcounts ha hes, ?_, hnot', hend'⟩, hstop⟩
      rw [openAfter_counts hcounts, openAfter_append, hst, Option.bind_some, hst']
    · -- after a bracket that is left open the sequence ends
      have hends := hopen (List.cons_ne_nil _ _)
      obtain ⟨rfl, rfl⟩ := hend hends.1
      refine ⟨⟨pre ++ (seg ++ []), g :: st, by simp, .cons (hB _ _) hcounts ha .nil, ?_, hnot, hopen⟩, hends.1⟩
      rw [openAfter_counts hcounts, List.append_nil, hst]
  value k t ts hk hs := .leaf [t] (.value hk (hnum t hs)) (openAfter_plain hk (by decide) [] [])
  bracket k g t ts as ts₁ hg _ has := closeAtom_laid hg has.1 has.2 rfl
  leaf k ts l rest hl := leafOf_laid hl

theorem headOf_head {ts rest : List Tok} {h : HeadKind} {name : Tok} (hh : headOf ts = some (h, name, rest)) :
    ∃ d, ts = name :: d :: rest ∧ (d.kind = .DEF ∨ d.kind = .DEFA) := by
  obtain ⟨d, rfl, hk⟩ := headOf_some hh
  refine ⟨d, rfl, ?_⟩
  revert hk
  cases name.kind <;> cases d.kind <;> simp [headKind]

theorem readProds_laid (hB : B.Repeats) (hnum : ∀ t, stop t = false → sp (B.num t) = some (spanOf t)) (n : Nat)
    {ts rest : List Tok} {ps : List CProd} (h : (readProds stop deep n ts).res = .ok (ps, rest)) :
    ∃ seg, ts = seg ++ rest ∧ ProdsAt sp (ps.map B.prod) seg := by
  refine readProds_induct (A := fun ts as rest => Laid (AltsAt sp (B.alts as)) ts rest)
    (P := fun ts ps rest => ∃ seg, ts = seg ++ rest ∧ ProdsAt sp (ps.map B.prod) seg)
    (fun n ts as rest halts => (((laid_closed hB hnum).reads n).1 0 _ _ _ halts).1) ?_ ?_ n h
  · intro ts hd name ts₁ as rest hhead has
    obtain ⟨d, rfl, hkind⟩ := headOf_head hhead
    obtain ⟨body, st, rfl, has, -⟩ := has
    exact ⟨name :: d :: (body ++ []), by simp, .cons rfl rfl hkind has .nil⟩
  · intro ts hd name ts₁ as ts₂ ps rest hhead has _ hps
    obtain ⟨d, rfl, hkind⟩ := headOf_head hhead
    obtain ⟨body, st, rfl, has, -⟩ := has
    obtain ⟨more, rfl, hmore⟩ := hps
    exact ⟨name :: d :: (body ++ more), by simp, .cons rfl rfl hkind has hmore⟩

/-- What a source reads as is laid out over its tokens. -/
theorem reading_laid (hB : B.Repeats) (hnum : ∀ t, stop t = false → sp (B.num t) = some (spanOf t))
    {ts : List Tok} {ps : List CProd} (h : (reading stop deep ts).res = .ok ps) : ProdsAt sp (ps.map B.prod) ts := by
  obtain ⟨rfl, rfl⟩ | h := readTop_eq_ok h
  · exact .nil
  · obtain ⟨seg, hseg, hlaid⟩ := readProds_laid hB hnum _ h
    rwa [hseg, List.append_nil]

end

/-! ## What follows for spans -/

/-- Tokens at increasing positions that do not overlap. -/
def Spaced (ts : List Tok) : Prop := ts.Pairwise fun t u => t.sI + t.len ≤ u.sI

instance (ts : List Tok) : Decidable (Spaced ts) := inferInstanceAs (Decidable (ts.Pairwise _))

section

variable (sp : α → Option Span)

/-- The span of an element, looking through repeats. -/
def Element.span : Element α β → Option Span
  | .term _ _ s | .prose _ s | .ref _ s | .group _ s => s
  | .value a => sp a
  | .opt inner s => s.or inner.span
  | .star inner | .plus inner | .rep _ _ inner => inner.span
  | .hole => none

/-- Whether an element is a hole, looking through repeats. -/
def Element.missing : Element α β → Bool
  | .opt inner _ | .star inner | .plus inner | .rep _ _ inner => inner.missing
  | .hole => true
  | _ => false

mutual

/-- An element and all those in it. -/
def Element.all : Element α β → List (Element α β)
  | .group alts s => .group alts s :: allAlts alts
  | .opt inner s => .opt inner s :: inner.all
  | .star inner => .star inner :: inner.all
  | .plus inner => .plus inner :: inner.all
  | .rep min max inner => .rep min max inner :: inner.all
  | e => [e]

def allSeq : List (Element α β) → List (Element α β)
  | [] => []
  | e :: es => e.all ++ allSeq es

def allAlts : List (List (Element α β)) → List (Element α β)
  | [] => []
  | s :: as => allSeq s ++ allAlts as

end

/-- An element has a span unless it is a hole, and the span lies from `lo` on and up to `hi`. -/
structure Inside (lo hi : Nat) (e : Element α β) : Prop where
  placed : e.missing = false → (e.span sp).isSome
  bounds : ∀ s, e.span sp = some s → lo ≤ s.s ∧ s.s ≤ s.e ∧ s.e ≤ hi

/-- The first element ends where the second starts, or before. -/
def Precedes (e f : Element α β) : Prop := ∀ s t, e.span sp = some s → f.span sp = some t → s.e ≤ t.s

/-- Spans in their order: elements within the group around them, siblings one after the other, and
everything of a production after its name and before the name of a later one. -/
structure Ordered (rules : Rules α β) : Prop where
  placed : ∀ p ∈ rules, ∀ e ∈ allAlts p.alts, e.missing = false → (e.span sp).isSome
  within : ∀ p ∈ rules, ∀ alts s, .group alts s ∈ allAlts p.alts →
    ∃ b, s = some b ∧ ∀ e ∈ alts.flatten, Inside sp b.s b.e e
  siblings : ∀ p ∈ rules, p.alts.flatten.Pairwise (Precedes sp) ∧
    ∀ alts s, .group alts s ∈ allAlts p.alts → alts.flatten.Pairwise (Precedes sp)
  after : ∀ p ∈ rules, ∃ n, p.sp = some n ∧ ∀ e ∈ allAlts p.alts, ∀ s, e.span sp = some s → n.e ≤ s.s
  before : rules.Pairwise fun p q => ∃ n, q.sp = some n ∧ ∀ e ∈ allAlts p.alts, ∀ s, e.span sp = some s → s.e ≤ n.s

/-- Elements between two places, those of each group between its brackets and one after the other. -/
structure Tidy (lo hi : Nat) (all : List (Element α β)) : Prop where
  inside : ∀ e ∈ all, Inside sp lo hi e
  groups : ∀ alts s, .group alts s ∈ all → ∃ b, s = some b ∧ (∀ e ∈ alts.flatten, Inside sp b.s b.e e) ∧
    alts.flatten.Pairwise (Precedes sp)

end

/-- Tokens one after the other from one place to another. -/
structure Spread (lo hi : Nat) (ts : List Tok) : Prop where
  le : lo ≤ hi
  spaced : Spaced ts
  inside : ∀ t ∈ ts, lo ≤ t.sI ∧ t.sI + t.len ≤ hi

namespace Spread

variable {lo hi : Nat} {t : Tok} {ts us : List Tok}

theorem cons (h : Spread lo hi (t :: ts)) : lo ≤ t.sI ∧ t.sI + t.len ≤ hi ∧ Spread (t.sI + t.len) hi ts := by
  obtain ⟨-, hspaced, hin⟩ := h
  obtain ⟨ht, hts⟩ := List.pairwise_cons.1 hspaced
  obtain ⟨hlo, hhi⟩ := hin t List.mem_cons_self
  exact ⟨hlo, hhi, hhi, hts, fun u hu => ⟨ht u hu, (hin u (List.mem_cons_of_mem _ hu)).2⟩⟩

/-- Where the first tokens end, the others go on. -/
theorem append (h : Spread lo hi (ts ++ us)) : ∃ mid, Spread lo mid ts ∧ Spread mid hi us := by
  obtain ⟨hle, hspaced, hin⟩ := h
  obtain ⟨hts, hus, hcross⟩ := List.pairwise_append.1 hspaced
  obtain _ | ⟨u, us⟩ := us
  · exact ⟨hi, ⟨hle, hts, fun t ht => hin t (by simp [ht])⟩, le_rfl, .nil, by simp⟩
  · obtain ⟨hlo, hhi⟩ := hin u (by simp)
    refine ⟨u.sI, ⟨hlo, hts, fun t ht => ⟨(hin t (by simp [ht])).1, hcross t ht u List.mem_cons_self⟩⟩,
      by omega, hus, fun t ht => ⟨?_, (hin t (List.mem_append_right _ ht)).2⟩⟩
    rcases List.mem_cons.1 ht with rfl | ht
    · exact le_rfl
    · exact (Nat.le_add_right _ _).trans ((List.pairwise_cons.1 hus).1 t ht)

/-- Tokens that are spaced lie between the place before them and the place after. -/
theorem of_spaced (h : Spaced ts) : ∃ hi, Spread 0 hi ts := by
  induction ts using List.reverseRecOn with
  | nil => exact ⟨0, le_rfl, h, by simp⟩
  | append_singleton ts t _ =>
    refine ⟨t.sI + t.len, Nat.zero_le _, h, fun u hu => ⟨Nat.zero_le _, ?_⟩⟩
    rcases List.mem_append.1 hu with hu | hu
    · exact ((List.pairwise_append.1 h).2.2 u hu t (by simp)).trans (Nat.le_add_right _ _)
    · rw [List.mem_singleton.1 hu]

end Spread

section

variable {sp : α → Option Span} {lo hi lo' hi' : Nat} {e f x : Element α β} {all more : List (Element α β)}

theorem Inside.mono (h : Inside sp lo hi e) (hl : lo' ≤ lo) (hh : hi ≤ hi') : Inside sp lo' hi' e := by
  refine ⟨h.placed, fun s hs => ?_⟩
  obtain ⟨h₁, h₂, h₃⟩ := h.bounds s hs
  exact ⟨hl.trans h₁, h₂, h₃.trans hh⟩

theorem Inside.of_span {s : Span} (hs : e.span sp = some s) (h : lo ≤ s.s ∧ s.s ≤ s.e ∧ s.e ≤ hi) :
    Inside sp lo hi e := by
  refine ⟨fun _ => by rw [hs]; rfl, fun t ht => ?_⟩
  cases hs.symm.trans ht
  exact h

theorem Inside.precedes {mid : Nat} (h : Inside sp lo mid e) (h' : Inside sp mid hi f) : Precedes sp e f :=
  fun s t hs ht => (h.bounds s hs).2.2.trans (h'.bounds t ht).1

namespace Tidy

theorem mono (h : Tidy sp lo hi all) (hl : lo' ≤ lo) (hh : hi ≤ hi') : Tidy sp lo' hi' all :=
  ⟨fun e he => (h.inside e he).mono hl hh, h.groups⟩

theorem append (h : Tidy sp lo hi all) (h' : Tidy sp lo hi more) : Tidy sp lo hi (all ++ more) :=
  ⟨fun e he => (List.mem_append.1 he).elim (h.inside e) (h'.inside e),
    fun alts s hg => (List.mem_append.1 hg).elim (h.groups alts s) (h'.groups alts s)⟩

theorem nil : Tidy sp lo hi ([] : List (Element α β)) := ⟨by simp, by simp⟩

/-- One more element, which is not a group. -/
theorem cons (h : Tidy sp lo hi all) (he : Inside sp lo hi e) (hg : ∀ alts s, e ≠ .group alts s) :
    Tidy sp lo hi (e :: all) := by
  refine ⟨fun x hx => ?_, fun alts s hs => ?_⟩
  · rcases List.mem_cons.1 hx with rfl | hx
    · exact he
    · exact h.inside x hx
  · rcases List.mem_cons.1 hs with rfl | hs
    · exact absurd rfl (hg alts s)
    · exact h.groups alts s hs

end Tidy

theorem mem_all (e : Element α β) : e ∈ e.all := by cases e <;> exact List.mem_cons_self

/-- A repeat is where its item is. -/
theorem Repeated.tidy (h : Repeated e x) (hx : Tidy sp lo hi x.all) : Tidy sp lo hi e.all := by
  obtain ⟨hplaced, hbounds⟩ := hx.inside x (mem_all x)
  cases h with
  | bare => exact hx
  | star => exact hx.cons ⟨hplaced, hbounds⟩ fun _ _ h => by cases h
  | plus => exact hx.cons ⟨hplaced, hbounds⟩ fun _ _ h => by cases h
  | opt => exact hx.cons ⟨hplaced, hbounds⟩ fun _ _ h => by cases h
  | rep => exact hx.cons ⟨hplaced, hbounds⟩ fun _ _ h => by cases h

/-- A leaf over its tokens. -/
theorem Tidy.leaf {a b : Tok} (he : e.all = [e]) (hg : ∀ alts s, e ≠ .group alts s)
    (hs : e.span sp = some (covering a b))
    (hlo : lo ≤ a.sI) (hab : a.sI ≤ b.sI + b.len) (hhi : b.sI + b.len ≤ hi) : Tidy sp lo hi e.all := by
  rw [he]
  exact Tidy.nil.cons (.of_span hs ⟨hlo, hab, hhi⟩) hg

/-- What stands in brackets, and the group they make. -/
theorem Tidy.group {op cl : Tok} {body : List Tok} {alts : List (List (Element α β))}
    (hs : Spread lo hi (op :: (body ++ [cl])))
    (h : ∀ l h, Spread l h body → Tidy sp l h (allAlts alts) ∧ alts.flatten.Pairwise (Precedes sp) ∧
      ∀ e ∈ alts.flatten, Inside sp l h e) :
    Tidy sp lo hi (Element.group alts (some (covering op cl))).all := by
  obtain ⟨hlo, -, hs⟩ := hs.cons
  obtain ⟨mid, hbody, hcl⟩ := hs.append
  obtain ⟨hmid, hhi, -⟩ := hcl.cons
  obtain ⟨htidy, hpair, hin⟩ := h _ _ hbody
  have hle := hbody.le
  have hb : (covering op cl).s = op.sI ∧ (covering op cl).e = cl.sI + cl.len := ⟨rfl, rfl⟩
  refine ⟨fun e he => ?_, fun alts' s hg => ?_⟩
  · rcases List.mem_cons.1 he with rfl | he
    · exact .of_span rfl ⟨by omega, by omega, by omega⟩
    · exact (htidy.inside e he).mono (by omega) (by omega)
  · rcases List.mem_cons.1 hg with hg | hg
    · cases hg
      exact ⟨_, rfl, fun e he => (hin e he).mono (by omega) (by omega), hpair⟩
    · exact htidy.groups alts' s hg

mutual

/-- Elements laid out over spaced tokens are tidy. -/
theorem AtomAt.tidy {seg : List Tok} {lo hi : Nat} {e : Element α β} :
    AtomAt sp e seg → Spread lo hi seg → Tidy sp lo hi e.all
  | .string _, hs | .prose _, hs | .ref _, hs => by
    obtain ⟨hlo, hhi, -⟩ := hs.cons
    exact .leaf rfl (fun _ _ h => by cases h) rfl hlo (Nat.le_add_right _ _) hhi
  | .value _ hsp, hs => by
    obtain ⟨hlo, hhi, -⟩ := hs.cons
    exact .leaf rfl (fun _ _ h => by cases h) hsp hlo (Nat.le_add_right _ _) hhi
  | .prefixed _ _, hs => by
    obtain ⟨hlo, -, hs⟩ := hs.cons
    obtain ⟨hlo', hhi, -⟩ := hs.cons
    exact .leaf rfl (fun _ _ h => by cases h) rfl hlo (by omega) hhi
  | .group _ _ _ halts, hs => Tidy.group hs fun _ _ hb => AltsAt.tidy halts hb
  | .opt _ _ _ halts, hs => by
    have htidy := Tidy.group hs fun _ _ hb => AltsAt.tidy halts hb
    have hin := htidy.inside _ (mem_all _)
    exact htidy.cons (.of_span rfl (hin.bounds _ rfl)) fun _ _ h => by cases h
  | .hole _ _, _ => by
    refine Tidy.nil.cons ⟨fun h => ?_, fun s h => ?_⟩ fun _ _ h => ?_
    · cases h
    · cases h
    · cases h

theorem SeqAt.tidy {seg : List Tok} {lo hi : Nat} {es : List (Element α β)} :
    SeqAt sp es seg → Spread lo hi seg →
      Tidy sp lo hi (allSeq es) ∧ es.Pairwise (Precedes sp) ∧ ∀ e ∈ es, Inside sp lo hi e
  | .nil, _ => ⟨.nil, .nil, by simp⟩
  | .cons hr _ ha hes, hs => by
    obtain ⟨mid, hpre, hs⟩ := hs.append
    obtain ⟨mid', hseg, hs⟩ := hs.append
    have he := hr.tidy (AtomAt.tidy ha hseg)
    obtain ⟨htidy, hpair, hin⟩ := SeqAt.tidy hes hs
    have hle := hpre.le
    have hle' := hseg.le
    have hle'' := hs.le
    refine ⟨(he.mono (by omega) (by omega)).append (htidy.mono (by omega) le_rfl), List.pairwise_cons.2 ⟨?_, hpair⟩, ?_⟩
    · exact fun f hf => (he.inside _ (mem_all _)).precedes (hin f hf)
    · intro f hf
      rcases List.mem_cons.1 hf with rfl | hf
      · exact (he.inside _ (mem_all _)).mono (by omega) (by omega)
      · exact (hin f hf).mono (by omega) le_rfl

theorem AltsAt.tidy {seg : List Tok} {lo hi : Nat} {as : List (List (Element α β))} :
    AltsAt sp as seg → Spread lo hi seg →
      Tidy sp lo hi (allAlts as) ∧ as.flatten.Pairwise (Precedes sp) ∧ ∀ e ∈ as.flatten, Inside sp lo hi e
  | .one hseq, hs => by simpa [allAlts] using SeqAt.tidy hseq hs
  | .cons hseq _ has, hs => by
    obtain ⟨mid, hseg, hs⟩ := hs.append
    obtain ⟨hlo, hhi, hs⟩ := hs.cons
    obtain ⟨htidy, hpair, hin⟩ := SeqAt.tidy hseq hseg
    obtain ⟨htidy', hpair', hin'⟩ := AltsAt.tidy has hs
    have hle := hseg.le
    refine ⟨(htidy.mono le_rfl (by omega)).append (htidy'.mono (by omega) le_rfl), ?_, ?_⟩
    · refine List.pairwise_append.2 ⟨hpair, hpair', fun e he f hf => ?_⟩
      exact (hin e he).precedes ((hin' f hf).mono (by omega) le_rfl)
    · intro e he
      rcases List.mem_append.1 he with he | he
      · exact (hin e he).mono le_rfl (by omega)
      · exact (hin' e he).mono (by omega) le_rfl

end

/-- Productions laid out over spaced tokens are in order, from the first token on. -/
theorem ProdsAt.ordered {ts : List Tok} {rules : Rules α β} (h : ProdsAt sp rules ts) (hs : Spread lo hi ts) :
    Ordered sp rules ∧ ∀ p ∈ rules, ∃ n, p.sp = some n ∧ lo ≤ n.s := by
  induction h generalizing lo with
  | nil => exact ⟨⟨by simp, by simp, by simp, by simp, .nil⟩, by simp⟩
  | @cons p ps name d body rest _ hsp _ halts _ ih =>
    obtain ⟨hname, -, hs⟩ := hs.cons
    obtain ⟨hd, -, hs⟩ := hs.cons
    -- the first production ends before the stretch of the rest begins
    obtain ⟨mid, hbody, hrest⟩ := hs.append
    obtain ⟨⟨hplaced, hwithin, hsiblings, hafter, hbefore⟩, hlater⟩ := ih hrest
    obtain ⟨htidy, hpair, -⟩ := halts.tidy hbody
    have hle := hbody.le
    refine ⟨⟨?_, ?_, ?_, ?_, List.pairwise_cons.2 ⟨?_, hbefore⟩⟩, ?_⟩
    · intro q hq e he
      rcases List.mem_cons.1 hq with rfl | hq
      · exact (htidy.inside e he).placed
      · exact hplaced q hq e he
    · intro q hq alts s hg
      rcases List.mem_cons.1 hq with rfl | hq
      · obtain ⟨b, hb, hin, -⟩ := htidy.groups alts s hg
        exact ⟨b, hb, hin⟩
      · exact hwithin q hq alts s hg
    · intro q hq
      rcases List.mem_cons.1 hq with rfl | hq
      · refine ⟨hpair, fun alts s hg => ?_⟩
        obtain ⟨b, -, -, hgroup⟩ := htidy.groups alts s hg
        exact hgroup
      · exact hsiblings q hq
    · intro q hq
      rcases List.mem_cons.1 hq with rfl | hq
      · refine ⟨_, hsp, fun e he s hs => ?_⟩
        exact (Nat.le_trans hd (Nat.le_add_right _ _)).trans ((htidy.inside e he).bounds s hs).1
      · exact hafter q hq
    · intro q hq
      obtain ⟨n, hn, hmid⟩ := hlater q hq
      exact ⟨n, hn, fun e he s hs => ((htidy.inside e he).bounds s hs).2.2.trans hmid⟩
    · intro q hq
      rcases List.mem_cons.1 hq with rfl | hq
      · exact ⟨_, hsp, hname⟩
      · obtain ⟨n, hn, hmid⟩ := hlater q hq
        exact ⟨n, hn, by omega⟩

end

end TabnasAbnf.Meta
