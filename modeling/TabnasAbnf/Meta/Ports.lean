/-
The ports against one another. Where no count reaches `2^53`, no port refuses a numeric value, no
term names a surrogate and no bracket is nested past the Rust port's cap, the three parses end the
same way: with the same productions, or refused at the same token, or by the same malformed
production. The elements of the Go and the Rust port are compared with TypeScript's by `Element.map`.
-/
import TabnasAbnf.Meta.Grammar
import TabnasAbnf.Meta.Refusal

namespace TabnasAbnf.Meta

open TabnasAbnf.Engine TabnasAbnf.Base TabnasAbnf.Passes

variable {α β γ δ ε : Type}

/-! ## Elements under a change of values and bounds -/

section

variable (f : α → γ) (g : β → δ)

mutual

def Element.map : Element α β → Element γ δ
  | .term literal caseSensitive sp => .term literal caseSensitive sp
  | .value a => .value (f a)
  | .prose text sp => .prose text sp
  | .ref name sp => .ref name sp
  | .group alts sp => .group (mapAlts alts) sp
  | .opt inner sp => .opt inner.map sp
  | .star inner => .star inner.map
  | .plus inner => .plus inner.map
  | .rep min max inner => .rep (g min) (g max) inner.map
  | .hole => .hole

def mapSeq : List (Element α β) → List (Element γ δ)
  | [] => []
  | e :: es => e.map :: mapSeq es

def mapAlts : List (List (Element α β)) → List (List (Element γ δ))
  | [] => []
  | s :: as => mapSeq s :: mapAlts as

end

def mapRules (ps : Rules α β) : Rules γ δ := ps.map (Production.map (mapSeq f g))

theorem mapAlts_eq (as : List (List (Element α β))) : mapAlts f g as = as.map (mapSeq f g) := by
  induction as with
  | nil => rfl
  | cons s as ih => rw [mapAlts, List.map_cons, ih]

theorem map_bracket (k : GroupKind) (alts : List (List (Element α β))) (sp : Option Span) :
    (bracket k alts sp).map f g = bracket k (mapAlts f g alts) sp := by
  cases k <;> rfl

end

/-! ## What a tree is made of -/

/-- The counts a repeat holds. -/
def Reps.counts : Reps → List Tok
  | .once | .star => []
  | .bounded n m => [n, m]
  | .atleast n | .exact n => [n]
  | .atmost m => [m]

section

variable (P : Tok → Prop)

mutual

/-- Every count of a tree is a count with `P`, and every numeric value a numeric value with `P`. -/
def CAtom.Over : CAtom → Prop
  | .leaf (.nv t) => t.kind = .NV ∧ P t
  | .leaf _ => True
  | .group _ _ _ as => AltsOver as
  | .hole => True

def SeqOver : CSeq → Prop
  | [] => True
  | (r, a) :: es => (∀ t ∈ r.counts, t.kind = .NUM ∧ P t) ∧ a.Over ∧ SeqOver es

def AltsOver : CAlts → Prop
  | [] => True
  | s :: as => SeqOver s ∧ AltsOver as

end

/-- A reading that decodes only numeric values with `P`, and ends with `Q`. -/
def Reading.Meets (Q : α → Prop) (x : Reading α) : Prop :=
  (∀ t ∈ x.log, t.kind = .NV ∧ P t) ∧ ∀ a, x.res = .ok a → Q a

end

namespace Reading.Meets

variable {P : Tok → Prop} {Q : α → Prop} {R : β → Prop}

theorem ok {a : α} (h : Q a) : (Reading.ok a).Meets P Q := by
  refine ⟨fun t ht => absurd ht (List.not_mem_nil), fun b hb => ?_⟩
  cases hb
  exact h

theorem halt (h : Halt) : (Reading.halt h : Reading α).Meets P Q :=
  ⟨fun t ht => absurd ht (List.not_mem_nil), fun b hb => by cases hb⟩

theorem bind {x : Reading α} {f : α → Reading β} (hx : x.Meets P Q) (hf : ∀ a, Q a → (f a).Meets P R) :
    (x.bind f).Meets P R := by
  obtain ⟨hlog, hres⟩ := hx
  cases hr : x.res with
  | error e =>
    rw [Reading.bind_error hr]
    exact ⟨hlog, fun b hb => by cases hb⟩
  | ok a =>
    obtain ⟨hlog', hres'⟩ := hf a (hres a hr)
    rw [Reading.bind_ok hr]
    refine ⟨fun t ht => ?_, hres'⟩
    rcases List.mem_append.1 ht with ht | ht
    · exact hlog t ht
    · exact hlog' t ht

theorem map {x : Reading α} {g : α → β} (hx : x.Meets P Q) (hg : ∀ a, Q a → R (g a)) : (x.map g).Meets P R :=
  hx.bind fun a ha => ok (hg a ha)

end Reading.Meets

section

variable {P : Tok → Prop} {ts rest : List Tok}

theorem Prefix.over {r : Reps} (h : Prefix ts r rest) (hP : ∀ t ∈ ts, P t) :
    (∀ t ∈ r.counts, t.kind = .NUM ∧ P t) ∧ ∀ t ∈ rest, P t := by
  cases h <;> simp_all [Reps.counts]

theorem leafOf_over {l : Leaf} (h : leafOf ts = some (l, rest)) (hP : ∀ t ∈ ts, P t) :
    (CAtom.leaf l).Over P ∧ ∀ t ∈ rest, P t := by
  unfold leafOf at h
  repeat' split at h
  all_goals first | (cases h; done) | skip
  all_goals cases h
  all_goals exact ⟨trivial, by simp_all⟩

theorem closeAtom_over {as : CAlts} (g : GroupKind) (op : Tok) (has : AltsOver P as) (hP : ∀ t ∈ ts, P t) :
    (closeAtom g op as ts).1.Over P ∧ ∀ t ∈ (closeAtom g op as ts).2, P t := by
  obtain _ | ⟨t, ts⟩ := ts
  · exact ⟨trivial, hP⟩
  · rw [closeAtom]
    split
    · exact ⟨has, fun t' ht' => hP t' (List.mem_cons_of_mem _ ht')⟩
    · exact ⟨trivial, hP⟩

theorem headOf_over {h : HeadKind} {name : Tok} (hh : headOf ts = some (h, name, rest)) (hP : ∀ t ∈ ts, P t) :
    ∀ t ∈ rest, P t := by
  obtain ⟨d, rfl, -⟩ := headOf_some hh
  exact fun t ht => hP t (List.mem_cons_of_mem _ (List.mem_cons_of_mem _ ht))

end

section

variable {P : Tok → Prop} (stop : Tok → Bool) (deep : Nat → Bool)

/-- What is read of tokens with `P` is made of tokens with `P`, and so is what is left. -/
theorem read_over (n : Nat) :
    (∀ k ts, (∀ t ∈ ts, P t) → (readAlts stop deep n k ts).Meets P fun r => AltsOver P r.1 ∧ ∀ t ∈ r.2, P t) ∧
    (∀ k ph ts, (∀ t ∈ ts, P t) →
      (readSeq stop deep n k ph ts).Meets P fun r => SeqOver P r.1 ∧ ∀ t ∈ r.2, P t) ∧
    (∀ k ts, (∀ t ∈ ts, P t) → (readAtom stop deep n k ts).Meets P fun r => r.1.Over P ∧ ∀ t ∈ r.2, P t) := by
  induction n with
  | zero => exact ⟨fun _ _ _ => .halt _, fun _ _ _ _ => .halt _, fun _ _ _ => .halt _⟩
  | succ n ih =>
    obtain ⟨ihAlts, ihSeq, ihAtom⟩ := ih
    refine ⟨fun k ts hP => ?_, fun k ph ts hP => ?_, fun k ts hP => ?_⟩
    · rw [readAlts]
      refine (ihSeq k .opening ts hP).bind fun r hr => ?_
      obtain ⟨s, _ | ⟨t, ts₁⟩⟩ := r
      · exact .ok ⟨⟨hr.1, trivial⟩, hr.2⟩
      · simp only
        split
        · exact (ihAlts k ts₁ fun t' ht' => hr.2 t' (List.mem_cons_of_mem _ ht')).map
            fun r' hr' => ⟨⟨hr.1, hr'.1⟩, hr'.2⟩
        · exact .ok ⟨⟨hr.1, trivial⟩, hr.2⟩
    · rw [readSeq]
      split
      · exact .ok ⟨trivial, hP⟩
      · obtain ⟨hcounts, hrest⟩ := (prefixOf_takes ts).over hP
        refine (ihAtom k _ hrest).bind fun r hr => (ihSeq k .closing r.2 hr.2).map fun r' hr' => ?_
        exact ⟨⟨hcounts, hr.1, hr'.1⟩, hr'.2⟩
    · obtain _ | ⟨t, ts⟩ := ts
      · exact .halt _
      have hts : ∀ t' ∈ ts, P t' := fun t' ht' => hP t' (List.mem_cons_of_mem _ ht')
      rw [readAtom]
      split
      · rename_i hk
        unfold decode
        split
        · exact .halt _
        · refine ⟨fun t' ht' => ?_, fun r hr => ?_⟩
          · rw [List.mem_singleton.1 ht']
            exact ⟨hk, hP t List.mem_cons_self⟩
          · cases hr
            exact ⟨⟨hk, hP t List.mem_cons_self⟩, hts⟩
      · split
        · split
          · exact .halt _
          · exact (ihAlts (k + 1) ts hts).map fun r hr => closeAtom_over _ t hr.1 hr.2
        · split
          · rename_i hl
            exact .ok (leafOf_over hl hP)
          · exact .halt _

theorem readProds_over (n : Nat) {ts : List Tok} (hP : ∀ t ∈ ts, P t) :
    (readProds stop deep n ts).Meets P fun r => ∀ p ∈ r.1, AltsOver P p.alts := by
  induction n generalizing ts with
  | zero => exact .halt _
  | succ n ih =>
    rw [readProds]
    split
    · exact .halt _
    · rename_i h name ts₁ hh
      refine ((read_over stop deep n).1 0 ts₁ (headOf_over hh hP)).bind fun r hr => ?_
      obtain ⟨as, ts₂⟩ := r
      simp only
      split
      · refine (ih hr.2).map fun r' hr' p hp => ?_
        rcases List.mem_cons.1 hp with rfl | hp
        · exact hr.1
        · exact hr' p hp
      · exact .ok fun p hp => by rw [List.mem_singleton.1 hp]; exact hr.1

theorem reading_over {ts : List Tok} (hP : ∀ t ∈ ts, P t) :
    (reading stop deep ts).Meets P fun ps => ∀ p ∈ ps, AltsOver P p.alts := by
  unfold reading
  obtain _ | ⟨t, ts⟩ := ts
  · exact .ok fun p hp => absurd hp List.not_mem_nil
  · refine (readProds_over stop deep _ hP).bind fun r hr => ?_
    obtain ⟨ps, rest⟩ := r
    simp only
    split
    · exact .ok hr
    · exact .halt _

end

/-! ## Builders that agree -/

/-- One builder's elements are the other's under a change of values and bounds, for trees whose
counts and numeric values have `P`. -/
structure Builder.Agrees (B : Builder α β) (B' : Builder γ δ) (f : α → γ) (g : β → δ) (P : Tok → Prop) : Prop where
  num : ∀ t, t.kind = .NV → P t → f (B.num t) = B'.num t
  wrap : ∀ r e, (∀ t ∈ r.counts, t.kind = .NUM ∧ P t) → e ≠ .hole →
    (B.wrap r e).map f g = B'.wrap r (e.map f g)

namespace Builder.Agrees

variable {B : Builder α β} {B' : Builder γ δ} {f : α → γ} {g : β → δ} {P : Tok → Prop}

theorem atom_ne_hole (B : Builder α β) {a : CAtom} (h : a.whole = true) : B.atom a ≠ .hole := by
  cases a with
  | leaf l => cases l <;> (intro hm; simp only [Builder.atom, Builder.leaf, reduceCtorEq] at hm)
  | group k op cl as => cases k <;> (intro hm; simp only [Builder.atom, bracket, reduceCtorEq] at hm)
  | hole => cases h

mutual

theorem atom (hB : B.Agrees B' f g P) : (a : CAtom) → a.whole = true → a.Over P → (B.atom a).map f g = B'.atom a
  | .leaf (.nv t), _, ho => congrArg Element.value (hB.num t ho.1 ho.2)
  | .leaf (.ss _ _), _, _ | .leaf (.si _ _), _, _ | .leaf (.st _), _, _ | .leaf (.pv _), _, _
  | .leaf (.tx _), _, _ => rfl
  | .group k op cl as, hw, ho => by
    rw [Builder.atom, map_bracket, alts hB as hw ho]
    rfl

theorem seq (hB : B.Agrees B' f g P) : (es : CSeq) → wholeSeq es = true → SeqOver P es →
    mapSeq f g (B.seq es) = B'.seq es
  | [], _, _ => rfl
  | (r, a) :: es, hw, ho => by
    obtain ⟨hwa, hws⟩ := Bool.and_eq_true_iff.1 hw
    rw [Builder.seq, mapSeq, hB.wrap r _ ho.1 (atom_ne_hole B hwa), atom hB a hwa ho.2.1, seq hB es hws ho.2.2]
    rfl

theorem alts (hB : B.Agrees B' f g P) : (as : CAlts) → wholeAlts as = true → AltsOver P as →
    mapAlts f g (B.alts as) = B'.alts as
  | [], _, _ => rfl
  | s :: as, hw, ho => by
    obtain ⟨hws, hwa⟩ := Bool.and_eq_true_iff.1 hw
    rw [Builder.alts, mapAlts, seq hB s hws ho.1, alts hB as hwa ho.2]
    rfl

end

theorem prod (hB : B.Agrees B' f g P) {p : CProd} (hw : p.whole = true) (ho : AltsOver P p.alts) :
    (B.prod p).map (mapSeq f g) = B'.prod p := by
  have halts := hB.alts p.alts hw ho
  rw [mapAlts_eq] at halts
  simp only [Production.map, Builder.prod, halts]

/-- The checks end the same way on the productions of a tree. -/
theorem holesRejected (hB : B.Agrees B' f g P) (hh : B.Honest) (hh' : B'.Honest) {ps : List CProd}
    (ho : ∀ p ∈ ps, AltsOver P p.alts) :
    (checked Meta.holesRejected (ps.map B.prod)).map (mapRules f g) =
      (checked Meta.holesRejected (ps.map B'.prod) : Except (Cause ε) _) := by
  rw [holesRejected_prods hh, holesRejected_prods hh']
  split
  · rfl
  · cases hf : ps.find? (!·.whole) with
    | some p => rfl
    | none =>
      have hw : ∀ p ∈ ps, p.whole = true := by simpa using List.find?_eq_none.1 hf
      simp only [Except.map, mapRules, List.map_map, Except.ok.injEq]
      exact List.map_congr_left fun p hp => hB.prod (hw p hp) (ho p hp)

end Builder.Agrees

/-! ## Counts and bounds -/

theorem Tok.digits {t : Tok} (h : t.kind = .NUM) : t.text ≠ [] ∧ ∀ c ∈ t.text, isDigit 10 c = true := by
  obtain ⟨l, _, _, _, _⟩ := t
  cases l <;> cases h
  rename_i n
  exact ⟨n.2.1, List.all_eq_true.1 n.2.2⟩

/-- The number a token's digits name. -/
def Tok.count (t : Tok) : Nat := ofDigits 10 t.text

/-- A count below `2^53` is read as it stands by the three ports. -/
theorem count_agrees {t : Tok} (hk : t.kind = .NUM) (h : t.count < 2 ^ 53) :
    parseInt t.text 10 = .fin t.count ∧ Go.atoi t.text = (t.count : Int) ∧ Rust.count_of t.text = .fin t.count := by
  obtain ⟨hne, hd⟩ := t.digits hk
  have hparse : parseInt t.text 10 = .fin t.count := parseInt_of_lt hd hne h
  refine ⟨hparse, ?_, by rw [Rust.count_of, hparse]⟩
  have hlt : ofDigits 10 t.text < 2 ^ 63 := lt_trans h (by decide)
  rw [Go.atoi, if_pos ⟨hne, List.all_eq_true.2 hd, hlt⟩]
  rfl

theorem Go.wrap_eq {maxInfinity : Int} {r : Reps} {e : Element α Int} (he : e ≠ .hole) :
    Go.wrap maxInfinity r e =
      Go.repeated maxInfinity (Go.boundsOf maxInfinity r).1 (Go.boundsOf maxInfinity r).2 e := by
  cases e with
  | hole => exact absurd rfl he
  | _ => rfl

/-- A Go bound as TypeScript has it. -/
def Go.boundOf (maxInfinity b : Int) : JsNum := if b = maxInfinity then .inf else .fin b.toNat

/-- The bounds the Go port makes: its mark for no bound, and counts. -/
def Go.IsBound (maxInfinity b : Int) : Prop := b = maxInfinity ∨ ∃ n : Nat, n < 2 ^ 53 ∧ b = n

section

variable {maxInfinity : Int} (hinf : ∀ n : Nat, n < 2 ^ 53 → maxInfinity ≠ n)

include hinf

theorem Go.boundOf_count {n : Nat} (h : n < 2 ^ 53) : Go.boundOf maxInfinity n = .fin n := by
  rw [Go.boundOf, if_neg fun he => hinf n h he.symm, Int.toNat_natCast]

theorem Go.boundOf_eq_count {b : Int} (hb : Go.IsBound maxInfinity b) {n : Nat} (h : n < 2 ^ 53) :
    Go.boundOf maxInfinity b = .fin n ↔ b = n := by
  rcases hb with rfl | ⟨m, hm, rfl⟩
  · simp only [Go.boundOf, if_true, reduceCtorEq, false_iff]
    exact hinf n h
  · rw [Go.boundOf_count hinf hm, JsNum.fin.injEq, Int.natCast_inj]

theorem Go.boundOf_eq_inf {b : Int} (hb : Go.IsBound maxInfinity b) :
    Go.boundOf maxInfinity b = .inf ↔ b = maxInfinity := by
  rcases hb with rfl | ⟨m, hm, rfl⟩
  · simp [Go.boundOf]
  · rw [Go.boundOf_count hinf hm]
    simp only [reduceCtorEq, false_iff]
    exact fun he => hinf m hm he.symm

/-- The bounds of a repeat are bounds the port makes, and the same as TypeScript's. -/
theorem Go.boundsOf_agree {r : Reps} (h : ∀ t ∈ r.counts, t.kind = .NUM ∧ t.count < 2 ^ 53) :
    Go.IsBound maxInfinity (Go.boundsOf maxInfinity r).1 ∧ Go.IsBound maxInfinity (Go.boundsOf maxInfinity r).2 ∧
      (Go.boundOf maxInfinity (Go.boundsOf maxInfinity r).1, Go.boundOf maxInfinity (Go.boundsOf maxInfinity r).2) =
        Ts.boundsOf r := by
  have hmax : Go.IsBound maxInfinity maxInfinity ∧ Go.boundOf maxInfinity maxInfinity = .inf :=
    ⟨.inl rfl, if_pos rfl⟩
  have hnat : ∀ n : Nat, n < 2 ^ 53 → Go.IsBound maxInfinity n ∧ Go.boundOf maxInfinity n = .fin n := fun n hn =>
    ⟨.inr ⟨n, hn, rfl⟩, Go.boundOf_count hinf hn⟩
  have hcount : ∀ t ∈ r.counts, Go.IsBound maxInfinity (Go.atoi t.text) ∧
      Go.boundOf maxInfinity (Go.atoi t.text) = parseInt t.text 10 := by
    intro t ht
    obtain ⟨hk, hlt⟩ := h t ht
    obtain ⟨hp, ha, -⟩ := count_agrees hk hlt
    rw [ha, hp]
    exact hnat _ hlt
  have h0 := hnat 0 (by decide)
  have h1 := hnat 1 (by decide)
  cases r with
  | once => exact ⟨h1.1, h1.1, Prod.ext h1.2 h1.2⟩
  | bounded n m =>
    have hn := hcount n (by simp [Reps.counts])
    have hm := hcount m (by simp [Reps.counts])
    exact ⟨hn.1, hm.1, Prod.ext hn.2 hm.2⟩
  | atleast n =>
    have hn := hcount n (by simp [Reps.counts])
    exact ⟨hn.1, hmax.1, Prod.ext hn.2 hmax.2⟩
  | atmost m =>
    have hm := hcount m (by simp [Reps.counts])
    exact ⟨h0.1, hm.1, Prod.ext h0.2 hm.2⟩
  | star => exact ⟨h0.1, hmax.1, Prod.ext h0.2 hmax.2⟩
  | exact n =>
    have hn := hcount n (by simp [Reps.counts])
    exact ⟨hn.1, hn.1, Prod.ext hn.2 hn.2⟩

theorem Go.wrap_agrees (f : α → γ) {r : Reps} (h : ∀ t ∈ r.counts, t.kind = .NUM ∧ t.count < 2 ^ 53)
    {e : Element α Int} (he : e ≠ .hole) :
    (Go.wrap maxInfinity r e).map f (Go.boundOf maxInfinity) = Ts.wrap r (e.map f (Go.boundOf maxInfinity)) := by
  obtain ⟨hmin, hmax, hb⟩ := Go.boundsOf_agree hinf h
  rw [Go.wrap_eq he, Ts.wrap, ← hb]
  generalize (Go.boundsOf maxInfinity r).1 = min at *
  generalize (Go.boundsOf maxInfinity r).2 = max at *
  have hmin0 : Go.boundOf maxInfinity min = .fin 0 ↔ min = 0 := Go.boundOf_eq_count hinf hmin (by decide)
  have hmin1 : Go.boundOf maxInfinity min = .fin 1 ↔ min = 1 := Go.boundOf_eq_count hinf hmin (by decide)
  have hmax1 : Go.boundOf maxInfinity max = .fin 1 ↔ max = 1 := Go.boundOf_eq_count hinf hmax (by decide)
  have hmaxi := Go.boundOf_eq_inf hinf hmax
  simp only [hmin0, hmin1, hmax1, hmaxi, Go.repeated]
  repeat' split
  all_goals rfl

end

theorem Rust.wrap_agrees (f : α → γ) {r : Reps} (h : ∀ t ∈ r.counts, t.kind = .NUM ∧ t.count < 2 ^ 53)
    {e : Element α JsNum} (he : e ≠ .hole) : (Rust.wrap r e).map f id = Ts.wrap r (e.map f id) := by
  have hbounds : Rust.boundsOf r = Ts.boundsOf r := by
    have hcount : ∀ t ∈ r.counts, Rust.count_of t.text = parseInt t.text 10 := fun t ht => by
      obtain ⟨hp, -, hc⟩ := count_agrees (h t ht).1 (h t ht).2
      rw [hc, hp]
    cases r <;> simp_all [Rust.boundsOf, Ts.boundsOf, Reps.counts]
  have hwrap : Rust.wrap r e = Rust.repeated (Rust.boundsOf r).1 (Rust.boundsOf r).2 e := by
    cases e with
    | hole => exact absurd rfl he
    | _ => rfl
  rw [hwrap, hbounds, Ts.wrap, Rust.repeated]
  simp only
  repeat' split
  all_goals rfl

/-! ## The parses -/

/-- A token the ports have in common: a count they can all hold, a numeric value none of them refuses
and all of them can hold. -/
structure Tok.Common (t : Tok) : Prop where
  count : t.kind = .NUM → t.count < 2 ^ 53
  ts : t.kind = .NV → Ts.readable t = true
  go : t.kind = .NV → (Go.numericOf t).2 = none
  rust : t.kind = .NV → (Rust.numericOf t).2 = none
  surrogate : t.kind = .NV → namesSurrogate t.text = false

instance (t : Tok) : Decidable t.Common :=
  decidable_of_iff ((t.kind = .NUM → t.count < 2 ^ 53) ∧ (t.kind = .NV → Ts.readable t = true) ∧
      (t.kind = .NV → (Go.numericOf t).2 = none) ∧ (t.kind = .NV → (Rust.numericOf t).2 = none) ∧
      (t.kind = .NV → namesSurrogate t.text = false))
    ⟨fun ⟨h₁, h₂, h₃, h₄, h₅⟩ => ⟨h₁, h₂, h₃, h₄, h₅⟩, fun h => ⟨h.1, h.2, h.3, h.4, h.5⟩⟩

theorem Tok.Common.agrees {t : Tok} (h : t.Common) (hk : t.kind = .NV) :
    (Go.numericOf t).1.units = Ts.valueOf t ∧ (Rust.numericOf t).1.units = Ts.valueOf t := by
  have hsrc : isNumericSource t.text = true := by
    obtain ⟨l, _, _, _, _⟩ := t
    cases l <;> cases hk
    rename_i src
    exact src.2
  obtain ⟨hts, hrust⟩ := numeric_agrees hsrc (some (spanOf t)) (h.go hk) (h.surrogate hk)
  have hval : Ts.valueOf t = (Go.numericOf t).1.units := by
    rw [Ts.valueOf, Ts.numericOf, hts]
    rfl
  exact ⟨hval.symm, by rw [Rust.numericOf, hrust, hval]; rfl⟩

theorem Go.builder_agrees {maxInfinity : Int} (hinf : ∀ n : Nat, n < 2 ^ 53 → maxInfinity ≠ n) :
    (Go.builder maxInfinity Go.numericOf).Agrees (Ts.builder Ts.valueOf) NumericElement.units
      (Go.boundOf maxInfinity) Tok.Common where
  num _ hk h := (h.agrees hk).1
  wrap _ _ h he := Go.wrap_agrees hinf _ (fun t ht => ⟨(h t ht).1, (h t ht).2.count (h t ht).1⟩) he

theorem Rust.builder_agrees :
    (Rust.builder Rust.numericOf).Agrees (Ts.builder Ts.valueOf) NumericElement.units id Tok.Common where
  num _ hk h := (h.agrees hk).2
  wrap _ _ h he := Rust.wrap_agrees _ (fun t ht => ⟨(h t ht).1, (h t ht).2.count (h t ht).1⟩) he

section

variable {tokens : List Tok} (hc : ∀ t ∈ tokens, t.Common)

include hc

/-- With common tokens the TypeScript parse never stops at a value. -/
theorem Ts.parseAbnf_common {d₀ : Nat} {engine : Ts.Engine (NumericElement Units) NumericError}
    (he : (Ts.grammar Ts.numericOf).Implements .abnf d₀ engine)
    (check : Check (NumericElement Units) JsNum NumericError) :
    Ts.parseAbnf engine check tokens =
      match (fullReading tokens).res with
      | .ok ps => checked check (ps.map (Ts.builder Ts.valueOf).prod)
      | .error (.unexpected t) => .error (.engine t)
      | .error _ => .error .depth := by
  have hcut := reading_cut (fun t => !Ts.readable t) (fun _ => false) tokens
  have hlog := (reading_over (fun _ => false) (fun _ => false) hc).1
  have hfind : (reading (fun _ => false) (fun _ => false) tokens).log.find? (fun t => !Ts.readable t) = none := by
    refine List.find?_eq_none.2 fun t ht => ?_
    rw [(hlog t ht).2.ts (hlog t ht).1]
    simp
  rw [Cut, hfind] at hcut
  rw [Ts.parseAbnf_eq Ts.numericOf_refused Ts.numericOf_readable he, hcut, fullReading]
  cases hx : (reading (fun _ => false) (fun _ => false) tokens).res with
  | ok ps => rfl
  | error e =>
    cases e with
    | refused t => exact absurd (reading_refused hx) Bool.false_ne_true
    | _ => rfl

theorem log_recorded {num : Tok → α × Option ε} (h : ∀ t : Tok, t.Common → t.kind = .NV → (num t).2 = none) :
    ((fullReading tokens).log.findSome? fun t => (num t).2) = none := by
  have hlog := (reading_over (fun _ => false) (fun _ => false) hc).1
  exact List.findSome?_eq_none_iff.2 fun t ht => h t (hlog t ht).2 (hlog t ht).1

theorem Go.parseAbnf_common {maxInfinity : Int} {d₀ : Nat} {engine : Go.Engine (NumericElement Text) NumericError}
    (he : (Go.grammar maxInfinity Go.numericOf).Implements .abnf d₀ engine)
    (check : Check (NumericElement Text) Int NumericError) :
    Go.parseAbnf engine check tokens =
      match (fullReading tokens).res with
      | .ok ps => checked check (ps.map (Go.builder maxInfinity Go.numericOf).prod)
      | .error (.unexpected t) => .error (.engine t)
      | .error _ => .error .depth := by
  have hrec : ((fullReading tokens).log.findSome? fun t => (Go.numericOf t).2) = none :=
    log_recorded hc fun t h hk => h.go hk
  rw [fullReading] at hrec ⊢
  rw [Go.parseAbnf, Go.parseAbnfRaw_eq he, hrec]
  cases hx : (reading (fun _ => false) (fun _ => false) tokens).res with
  | ok ps => rfl
  | error e =>
    cases e with
    | refused t => exact absurd (reading_refused hx) Bool.false_ne_true
    | deep => exact absurd hx (reading_uncapped _ _)
    | unexpected t => rfl
    | spent => exact absurd hx (reading_ends _ _ _)

theorem Rust.parse_abnf_common {d₀ : Nat} {engine : Rust.Engine (NumericElement Text) NumericError}
    (he : (Rust.grammar Rust.numericOf).Implements .abnf d₀ engine) (hs : shallow (Rust.tooDeep d₀) 0 tokens = true)
    (check : Check (NumericElement Text) JsNum NumericError) (slot : Option NumericError) :
    (Rust.parse_abnf engine check slot tokens).1 =
      match (fullReading tokens).res with
      | .ok ps => checked check (ps.map (Rust.builder Rust.numericOf).prod)
      | .error (.unexpected t) => .error (.engine t)
      | .error _ => .error .depth := by
  have hrec : ((fullReading tokens).log.findSome? fun t => (Rust.numericOf t).2) = none :=
    log_recorded hc fun t h hk => h.rust hk
  rw [fullReading] at hrec ⊢
  rw [Rust.parse_abnf, Rust.parse_abnf_raw_eq he, reading_shallow (Rust.tooDeep_mono d₀) _ hs]
  simp only [hrec]
  cases hx : (reading (fun _ => false) (fun _ => false) tokens).res with
  | ok ps => rfl
  | error e =>
    cases e with
    | refused t => exact absurd (reading_refused hx) Bool.false_ne_true
    | deep => exact absurd hx (reading_uncapped _ _)
    | unexpected t => rfl
    | spent => exact absurd hx (reading_ends _ _ _)

end

/-- The three ports end the same way on every source of common tokens that nests no bracket past the
Rust port's cap: with the same productions, or refused at the same token or by the same malformed
production. -/
theorem ports_agree {maxInfinity : Int} (hinf : ∀ n : Nat, n < 2 ^ 53 → maxInfinity ≠ n) {d₁ d₂ d₃ : Nat}
    {ts : Ts.Engine (NumericElement Units) NumericError} {go : Go.Engine (NumericElement Text) NumericError}
    {rust : Rust.Engine (NumericElement Text) NumericError}
    (hts : (Ts.grammar Ts.numericOf).Implements .abnf d₁ ts)
    (hgo : (Go.grammar maxInfinity Go.numericOf).Implements .abnf d₂ go)
    (hrust : (Rust.grammar Rust.numericOf).Implements .abnf d₃ rust)
    (tokens : List Tok) (hc : ∀ t ∈ tokens, t.Common) (hs : shallow (Rust.tooDeep d₃) 0 tokens = true)
    (slot : Option NumericError) :
    (Go.parseAbnf go holesRejected tokens).map (mapRules NumericElement.units (Go.boundOf maxInfinity)) =
      Ts.parseAbnf ts holesRejected tokens ∧
    (Rust.parse_abnf rust holesRejected slot tokens).1.map (mapRules NumericElement.units id) =
      Ts.parseAbnf ts holesRejected tokens := by
  rw [Ts.parseAbnf_common hc hts, Go.parseAbnf_common hc hgo, Rust.parse_abnf_common hc hrust hs]
  have hover := (reading_over (fun _ => false) (fun _ => false) hc).2
  cases hx : (fullReading tokens).res with
  | ok ps =>
    have hps := hover ps hx
    exact ⟨(Go.builder_agrees hinf).holesRejected (Go.builder_honest _ _) (Ts.builder_honest _) hps,
      Rust.builder_agrees.holesRejected (Rust.builder_honest _) (Ts.builder_honest _) hps⟩
  | error e => cases e <;> exact ⟨rfl, rfl⟩

/-- `a = 2*3( %x41 / [ "b" ] )` builds the same productions, and `a = 2*( %x41` is the same
malformed production. -/
theorem ports_agree_group :
    let a : Tok := ⟨.TX ['a'], 0, 1, 1, 1⟩
    let num (n : Digits) (i : Nat) : Tok := ⟨.NUM n, i, 1, 1, i + 1⟩
    let nv : Tok := ⟨.NV ⟨['%', 'x', '4', '1'], by decide⟩, 8, 4, 1, 9⟩
    let good : List Tok := [a, ⟨.DEF, 2, 1, 1, 3⟩, num ⟨['2'], by decide⟩ 4, ⟨.STAR, 5, 1, 1, 6⟩,
      num ⟨['3'], by decide⟩ 6, ⟨.LP, 7, 1, 1, 8⟩, nv, ⟨.ALT, 13, 1, 1, 14⟩, ⟨.OB, 15, 1, 1, 16⟩,
      ⟨.ST ['b'], 17, 3, 1, 18⟩, ⟨.CB, 21, 1, 1, 22⟩, ⟨.RP, 23, 1, 1, 24⟩]
    let bad : List Tok := [a, ⟨.DEF, 2, 1, 1, 3⟩, num ⟨['2'], by decide⟩ 4, ⟨.STAR, 5, 1, 1, 6⟩, ⟨.LP, 6, 1, 1, 7⟩, nv]
    let ts := Ts.numericEngine 0
    let go := Go.machine 9223372036854775807 Go.numericOf 0
    let rust := Rust.machine Rust.numericOf 0
    (Go.parseAbnf go holesRejected good).map (mapRules NumericElement.units (Go.boundOf 9223372036854775807)) =
        Ts.parseAbnf ts holesRejected good ∧
      (Rust.parse_abnf rust holesRejected none good).1.map (mapRules NumericElement.units id) =
        Ts.parseAbnf ts holesRejected good ∧
      (Go.parseAbnf go holesRejected bad).map (mapRules NumericElement.units (Go.boundOf 9223372036854775807)) =
        Ts.parseAbnf ts holesRejected bad ∧
      (Rust.parse_abnf rust holesRejected none bad).1.map (mapRules NumericElement.units id) =
        Ts.parseAbnf ts holesRejected bad := by
  intro a num nv good bad ts go rust
  have hinf : ∀ n : Nat, n < 2 ^ 53 → (9223372036854775807 : Int) ≠ n := by omega
  obtain ⟨h₁, h₂⟩ := ports_agree hinf (Grammar.engine_implements _ _ _ _ : Grammar.Implements _ _ _ ts)
    (Grammar.engine_implements _ _ _ _ : Grammar.Implements _ _ _ go)
    (Grammar.engine_implements _ _ _ _ : Grammar.Implements _ _ _ rust) good (by decide) (by decide) none
  obtain ⟨h₃, h₄⟩ := ports_agree hinf (Grammar.engine_implements _ _ _ _ : Grammar.Implements _ _ _ ts)
    (Grammar.engine_implements _ _ _ _ : Grammar.Implements _ _ _ go)
    (Grammar.engine_implements _ _ _ _ : Grammar.Implements _ _ _ rust) bad (by decide) (by decide) none
  exact ⟨h₁, h₂, h₃, h₄⟩

/-! ## Where they part -/

/-- `n` brackets around a reference. -/
def nest (i : Nat) : Nat → List Tok
  | 0 => [⟨.TX ['b'], i, 1, 1, i + 1⟩]
  | n + 1 => ⟨.LP, i, 1, 1, i + 1⟩ :: (nest (i + 1) n ++ [⟨.RP, i + 2 * n + 2, 1, 1, i + 2 * n + 3⟩])

/-- `a = ((…(b)…))`. -/
def nested (n : Nat) : List Tok := ⟨.TX ['a'], 0, 1, 1, 1⟩ :: ⟨.DEF, 2, 1, 1, 3⟩ :: nest 4 n

theorem nest_length (i n : Nat) : (nest i n).length = 2 * n + 1 := by
  induction n generalizing i with
  | zero => rfl
  | succ n ih =>
    rw [nest, List.length_cons, List.length_append, ih, List.length_singleton]
    omega

theorem nest_derives (i n : Nat) (rest : List Tok) (h₁ : kindOf rest.head? ≠ .DEF) (h₂ : kindOf rest.head? ≠ .DEFA) :
    ∃ a, DAtom (nest i n ++ rest) rest a := by
  induction n generalizing i rest with
  | zero => exact ⟨_, .tx rfl h₁ h₂⟩
  | succ n ih =>
    obtain ⟨a, ha⟩ := ih (i + 1) (⟨.RP, i + 2 * n + 2, 1, 1, i + 2 * n + 3⟩ :: rest)
      (by simp [Tok.kind, Lexeme.kind]) (by simp [Tok.kind, Lexeme.kind])
    refine ⟨.group .group ⟨.LP, i, 1, 1, i + 1⟩ ⟨.RP, i + 2 * n + 2, 1, 1, i + 2 * n + 3⟩ [[(.once, a)]], ?_⟩
    rw [nest, List.cons_append, List.append_assoc]
    exact .group rfl (.one (.cons .once ha .nil)) rfl

theorem nest_kind {i n : Nat} {t : Tok} (h : t ∈ nest i n) : t.kind ≠ .NV := by
  induction n generalizing i with
  | zero =>
    rw [List.mem_singleton.1 h]
    simp [Tok.kind, Lexeme.kind]
  | succ n ih =>
    rw [nest, List.mem_cons, List.mem_append, List.mem_singleton] at h
    rcases h with rfl | h | rfl
    · simp [Tok.kind, Lexeme.kind]
    · exact ih h
    · simp [Tok.kind, Lexeme.kind]

theorem nested_kind {n : Nat} {t : Tok} (h : t ∈ nested n) : t.kind ≠ .NV := by
  rw [nested, List.mem_cons, List.mem_cons] at h
  rcases h with rfl | rfl | h
  · decide
  · decide
  · exact nest_kind h

/-- Alternatives end where their first atom ends the run. -/
theorem DAtom.alts_error {ts rest : List Tok} {a : CAtom} (ha : DAtom ts rest a) {stop : Tok → Bool}
    {deep : Nat → Bool} {fuel k : Nat} {h : Halt} (hatom : (readAtom stop deep fuel k ts).res = .error h) :
    (readAlts stop deep (fuel + 1 + 1) k ts).res = .error h := by
  have hseq : (readSeq stop deep (fuel + 1) k .opening ts).res = .error h := by
    rw [readSeq, ha.head.2 .opening, Prefix.once.eq_prefixOf ha.head.1, if_neg Bool.false_ne_true,
      Reading.bind_error hatom]
  rw [readAlts, Reading.bind_error hseq]

/-- A run past its cap ends there, whatever the brackets hold. -/
theorem nest_deep (stop : Tok → Bool) {deep : Nat → Bool} {k j : Nat} (hd : deep (k + j) = true) {n fuel : Nat}
    (hj : j < n) (hfuel : 3 * j < fuel) (i : Nat) (rest : List Tok) :
    (readAtom stop deep fuel k (nest i n ++ rest)).res = .error .deep := by
  induction j generalizing k n fuel i rest with
  | zero =>
    obtain _ | n := n
    · omega
    obtain _ | fuel := fuel
    · omega
    rw [Nat.add_zero] at hd
    simp [nest, readAtom, opensWith, Tok.kind, Lexeme.kind, hd, Reading.halt]
  | succ j ih =>
    obtain _ | n := n
    · omega
    obtain _ | _ | _ | fuel := fuel
    all_goals try omega
    by_cases hk : deep k = true
    · simp [nest, readAtom, opensWith, Tok.kind, Lexeme.kind, hk, Reading.halt]
    · have hd' : deep (k + 1 + j) = true := by rwa [show k + 1 + j = k + (j + 1) by omega]
      have hatom := ih hd' (by omega : j < n) (by omega : 3 * j < fuel) (i + 1)
        (⟨.RP, i + 2 * n + 2, 1, 1, i + 2 * n + 3⟩ :: rest)
      obtain ⟨a, ha⟩ := nest_derives (i + 1) n (⟨.RP, i + 2 * n + 2, 1, 1, i + 2 * n + 3⟩ :: rest)
        (by simp [Tok.kind, Lexeme.kind]) (by simp [Tok.kind, Lexeme.kind])
      rw [nest, List.cons_append, List.append_assoc, List.singleton_append]
      generalize nest (i + 1) n ++ ⟨.RP, i + 2 * n + 2, 1, 1, i + 2 * n + 3⟩ :: rest = ts at hatom ha ⊢
      rw [readAtom, if_neg (by simp [Tok.kind, Lexeme.kind])]
      simp only [opensWith, Tok.kind, Lexeme.kind, hk]
      rw [if_neg Bool.false_ne_true, Reading.map, Reading.bind_error (ha.alts_error hatom)]

/-- `nested n` reads as a production, and a run whose cap it passes refuses it. -/
theorem nested_reads (n : Nat) : (∃ ps, Derives (nested n) ps) ∧
    ∀ (stop : Tok → Bool) (deep : Nat → Bool) (j : Nat), deep j = true → j < n →
      (reading stop deep (nested n)).res = .error .deep := by
  obtain ⟨a, ha⟩ := nest_derives 4 n [] (by simp) (by simp)
  rw [List.append_nil] at ha
  refine ⟨⟨_, .one rfl (.one (.cons .once ha .nil))⟩, fun stop deep j hd hj => ?_⟩
  have hfuel : fuelFor (nested n) = 6 * n + 10 + 1 + 1 + 1 := by
    rw [fuelFor, nested, List.length_cons, List.length_cons, nest_length]
    omega
  have hatom : (readAtom stop deep (6 * n + 10) 0 (nest 4 n)).res = .error .deep := by
    have hdeep : deep (0 + j) = true := by rwa [Nat.zero_add]
    simpa using nest_deep stop hdeep hj (by omega : 3 * j < 6 * n + 10) 4 []
  have hprods : (readProds stop deep (6 * n + 10 + 1 + 1 + 1) (nested n)).res = .error .deep := by
    rw [nested, readProds, show headOf (⟨.TX ['a'], 0, 1, 1, 1⟩ :: ⟨.DEF, 2, 1, 1, 3⟩ :: nest 4 n) =
      some (.plain, ⟨.TX ['a'], 0, 1, 1, 1⟩, nest 4 n) from rfl]
    exact congrArg Reading.res (Reading.bind_error (ha.alts_error hatom))
  rw [reading, hfuel]
  exact congrArg Reading.res (Reading.bind_error hprods)

/-- The Rust port alone refuses brackets nested past its cap. -/
theorem nested_part {n : Nat} (hn : 512 ≤ n) {ts : Ts.Engine (NumericElement Units) NumericError}
    {rust : Rust.Engine (NumericElement Text) NumericError} {d₁ : Nat}
    (hts : (Ts.grammar Ts.numericOf).Implements .abnf d₁ ts)
    (hrust : (Rust.grammar Rust.numericOf).Implements .abnf 0 rust) :
    (∃ rules, Ts.parseAbnf ts holesRejected (nested n) = .ok rules) ∧
      (Rust.parse_abnf rust holesRejected none (nested n)).1 = .error .depth := by
  obtain ⟨⟨ps, hps⟩, hd⟩ := nested_reads n
  refine ⟨⟨_, (parseAbnf_ok Ts.numericOf_refused Ts.numericOf_readable hts _ _).2 ⟨ps, hps, ?_, rfl⟩⟩, ?_⟩
  · exact fun t ht hk => absurd hk (nested_kind ht)
  · have hdeep := hd (fun _ => false) (Rust.tooDeep 0) 511 (by decide) (by omega)
    have hlog := (reading_over (fun _ => false) (Rust.tooDeep 0) (P := fun t => t.kind ≠ .NV)
      fun t ht => nested_kind (n := n) ht).1
    have hnone : ((reading (fun _ => false) (Rust.tooDeep 0) (nested n)).log.findSome? fun t =>
        (Rust.numericOf t).2) = none :=
      List.findSome?_eq_none_iff.2 fun t ht => absurd (hlog t ht).1 (hlog t ht).2
    rw [Rust.parse_abnf, Rust.parse_abnf_raw_eq hrust]
    simp only [hdeep, hnone]
    rfl

/-- `a = %xD800` is read by every port and is not the same element in all of them; `nested 600` has
no count and no numeric value, and the Rust port alone refuses it. -/
theorem ports_part :
    let nv : Tok := ⟨.NV ⟨['%', 'x', 'D', '8', '0', '0'], by decide⟩, 4, 6, 1, 5⟩
    let surrogate : List Tok := [⟨.TX ['a'], 0, 1, 1, 1⟩, ⟨.DEF, 2, 1, 1, 3⟩, nv]
    let ts := Ts.numericEngine 0
    let go := Go.machine 9223372036854775807 Go.numericOf 0
    let rust := Rust.machine Rust.numericOf 0
    (Ts.readable nv = true ∧ (Go.numericOf nv).2 = none ∧ (Rust.numericOf nv).2 = none) ∧
      (Go.parseAbnf go holesRejected surrogate).map (mapRules NumericElement.units (Go.boundOf 9223372036854775807)) ≠
        Ts.parseAbnf ts holesRejected surrogate ∧
      (Rust.parse_abnf rust holesRejected none surrogate).1.map (mapRules NumericElement.units id) ≠
        Ts.parseAbnf ts holesRejected surrogate ∧
      (∃ rules, Ts.parseAbnf ts holesRejected (nested 600) = .ok rules) ∧
      (Rust.parse_abnf rust holesRejected none (nested 600)).1 = .error .depth := by
  intro nv surrogate ts go rust
  have hts : (Ts.grammar Ts.numericOf).Implements .abnf 0 ts := Grammar.engine_implements _ _ _ _
  have hgo : (Go.grammar 9223372036854775807 Go.numericOf).Implements .abnf 0 go := Grammar.engine_implements _ _ _ _
  have hrust : (Rust.grammar Rust.numericOf).Implements .abnf 0 rust := Grammar.engine_implements _ _ _ _
  have hd : Derives surrogate [⟨.plain, ⟨.TX ['a'], 0, 1, 1, 1⟩, [[(.once, .leaf (.nv nv))]]⟩] :=
    .one rfl (.one (.cons .once (.nv rfl) .nil))
  have htsOk := (parseAbnf_ok Ts.numericOf_refused Ts.numericOf_readable hts surrogate _).2
    ⟨_, hd, by decide, rfl⟩
  have hread : (reading (fun _ => false) (fun _ => false) surrogate) = _ := hd.reading.1
  have hshallow : reading (fun _ => false) (Rust.tooDeep 0) surrogate = _ :=
    (reading_shallow (Rust.tooDeep_mono 0) _ (by decide)).trans hread
  refine ⟨by decide, ?_, ?_, ?_, ?_⟩
  · rw [htsOk, Go.parseAbnf, Go.parseAbnfRaw_eq hgo, hread]
    intro h
    cases h
  · rw [htsOk, Rust.parse_abnf, Rust.parse_abnf_raw_eq hrust, hshallow]
    intro h
    cases h
  · exact (nested_part (by decide) hts hrust).1
  · exact (nested_part (by decide) hts hrust).2

end TabnasAbnf.Meta
