/-
The reading of a token sequence: what the rule table makes of it, as a recursive descent over the
rules. Two things can end a reading besides a token nothing takes: a numeric value the run throws
on (`stop`) and a bracket opened too deep (`deep`). A reading also logs the numeric values it
decodes, in order, whether or not their element survives.
-/
import TabnasAbnf.Engine.Machine
import TabnasAbnf.Meta.Tree

namespace TabnasAbnf.Meta

open TabnasAbnf.Base TabnasAbnf.Engine

/-! ## Readings -/

/-- Why a reading ends without a tree. `spent` is a reading cut short by its fuel. -/
inductive Halt
  | refused (t : Tok)
  | deep
  | unexpected (at_ : Option Tok)
  | spent
  deriving DecidableEq

/-- A reading: the numeric values decoded, and the result or the reason there is none. -/
structure Reading (α : Type) where
  log : List Tok
  res : Except Halt α

namespace Reading

variable {α β γ : Type}

def ok (a : α) : Reading α := ⟨[], .ok a⟩

def halt (h : Halt) : Reading α := ⟨[], .error h⟩

def bind (x : Reading α) (f : α → Reading β) : Reading β :=
  match x.res with
  | .ok a => ⟨x.log ++ (f a).log, (f a).res⟩
  | .error h => ⟨x.log, .error h⟩

def map (g : α → β) (x : Reading α) : Reading β := x.bind fun a => ok (g a)

theorem bind_ok {x : Reading α} {f : α → Reading β} {a : α} (h : x.res = .ok a) :
    x.bind f = ⟨x.log ++ (f a).log, (f a).res⟩ := by rw [bind, h]

theorem bind_error {x : Reading α} {f : α → Reading β} {h : Halt} (hx : x.res = .error h) :
    x.bind f = ⟨x.log, .error h⟩ := by rw [bind, hx]

@[simp] theorem ok_bind (a : α) (f : α → Reading β) : (ok a).bind f = f a := rfl

@[simp] theorem halt_bind (h : Halt) (f : α → Reading β) : (halt h).bind f = halt h := rfl

/-- What a bind ends with, its first half ended with first. -/
theorem bind_eq_ok {x : Reading α} {f : α → Reading β} {b : β} (h : (x.bind f).res = .ok b) :
    ∃ a, x.res = .ok a ∧ (f a).res = .ok b := by
  cases hx : x.res with
  | ok a => rw [bind_ok hx] at h; exact ⟨a, rfl, h⟩
  | error e => rw [bind_error hx] at h; cases h

theorem bind_eq_error {x : Reading α} {f : α → Reading β} {e : Halt}
    (h : (x.bind f).res = .error e) :
    x.res = .error e ∨ ∃ a, x.res = .ok a ∧ (f a).res = .error e := by
  cases hx : x.res with
  | ok a => rw [bind_ok hx] at h; exact .inr ⟨a, rfl, h⟩
  | error e' => rw [bind_error hx] at h; cases h; exact .inl rfl

end Reading

/-! ## The tokens ahead -/

/-- The repeat the tokens ahead begin with, and what follows it. A repeat counts only with an
atom's token right after it; otherwise nothing is taken. -/
def prefixOf (ts : List Tok) : Reps × List Tok :=
  if fits kindOf [[.NUM], [.STAR], [.NUM], ATOM] ts then
    match ts with
    | n :: _ :: m :: ts => (.bounded n m, ts)
    | ts => (.once, ts)
  else if fits kindOf [[.NUM], [.STAR], ATOM] ts then
    match ts with
    | n :: _ :: ts => (.atleast n, ts)
    | ts => (.once, ts)
  else if fits kindOf [[.STAR], [.NUM], ATOM] ts then
    match ts with
    | _ :: m :: ts => (.atmost m, ts)
    | ts => (.once, ts)
  else if fits kindOf [[.STAR], ATOM] ts then (.star, ts.tail)
  else if fits kindOf [[.NUM], ATOM] ts then
    match ts with
    | n :: ts => (.exact n, ts)
    | ts => (.once, ts)
  else (.once, ts)

theorem fits_cons {slot : List Kind} {s : List (List Kind)} (hz : Kind.ZZ ∉ slot) {ts : List Tok}
    (h : fits kindOf (slot :: s) ts = true) :
    ∃ t rest, ts = t :: rest ∧ t.kind ∈ slot ∧ fits kindOf s rest = true := by
  cases ts with
  | nil => simp [fits, hz] at h
  | cons t rest =>
    simp only [fits, List.head?_cons, kindOf_some, List.tail_cons, Bool.and_eq_true] at h
    exact ⟨t, rest, rfl, by simpa using h.1, h.2⟩

/-- A repeat and what it leaves: `[NUM '*' NUM | NUM '*' | '*' NUM | '*' | NUM]`. -/
inductive Prefix : List Tok → Reps → List Tok → Prop
  | once {ts} : Prefix ts .once ts
  | bounded {n s m ts} : n.kind = .NUM → s.kind = .STAR → m.kind = .NUM →
    Prefix (n :: s :: m :: ts) (.bounded n m) ts
  | atleast {n s ts} : n.kind = .NUM → s.kind = .STAR → Prefix (n :: s :: ts) (.atleast n) ts
  | atmost {s m ts} : s.kind = .STAR → m.kind = .NUM → Prefix (s :: m :: ts) (.atmost m) ts
  | star {s ts} : s.kind = .STAR → Prefix (s :: ts) .star ts
  | exact {n ts} : n.kind = .NUM → Prefix (n :: ts) (.exact n) ts

theorem prefixOf_takes (ts : List Tok) : Prefix ts (prefixOf ts).1 (prefixOf ts).2 := by
  unfold prefixOf
  split
  · rename_i h
    obtain ⟨n, _, rfl, hn, h⟩ := fits_cons (by decide) h
    obtain ⟨s, _, rfl, hs, h⟩ := fits_cons (by decide) h
    obtain ⟨m, ts, rfl, hm, -⟩ := fits_cons (by decide) h
    exact .bounded (by simpa using hn) (by simpa using hs) (by simpa using hm)
  split
  · rename_i h
    obtain ⟨n, _, rfl, hn, h⟩ := fits_cons (by decide) h
    obtain ⟨s, ts, rfl, hs, -⟩ := fits_cons (by decide) h
    exact .atleast (by simpa using hn) (by simpa using hs)
  split
  · rename_i h
    obtain ⟨s, _, rfl, hs, h⟩ := fits_cons (by decide) h
    obtain ⟨m, ts, rfl, hm, -⟩ := fits_cons (by decide) h
    exact .atmost (by simpa using hs) (by simpa using hm)
  split
  · rename_i h
    obtain ⟨s, _, rfl, hs, -⟩ := fits_cons (by decide) h
    exact .star (by simpa using hs)
  split
  · rename_i h
    obtain ⟨n, _, rfl, hn, -⟩ := fits_cons (by decide) h
    exact .exact (by simpa using hn)
  · exact .once

/-- The head two kinds of token make. -/
def headKind : Kind → Kind → Option HeadKind
  | .TX, .DEF => some .plain
  | .PV, .DEF => some .prose
  | .TX, .DEFA => some .inc
  | _, _ => none

/-- The head the tokens ahead begin with, and what follows it. -/
def headOf : List Tok → Option (HeadKind × Tok × List Tok)
  | n :: d :: ts => (headKind n.kind d.kind).map (·, n, ts)
  | _ => none

theorem headOf_some {ts rest : List Tok} {h : HeadKind} {name : Tok} (hh : headOf ts = some (h, name, rest)) :
    ∃ d, ts = name :: d :: rest ∧ headKind name.kind d.kind = some h := by
  match ts with
  | [] | [_] => cases hh
  | a :: d :: ts =>
    obtain ⟨h', hk, heq⟩ := Option.map_eq_some_iff.1 hh
    cases heq
    exact ⟨d, rfl, hk⟩

/-- Whether a sequence ends before tokens of these kinds. A sequence that has begun also ends
before a stray `=`, which a sequence yet to begin takes for an element. -/
def seqEnds : Phase → Kind → Kind → Bool
  | _, .TX, .DEF | _, .TX, .DEFA | _, .PV, .DEF => true
  | _, .ALT, _ | _, .ZZ, _ | _, .RP, _ | _, .CB, _ => true
  | .closing, .DEF, _ | .closing, .DEFA, _ => true
  | _, _, _ => false

def endsBefore (ph : Phase) (ts : List Tok) : Bool :=
  seqEnds ph (kindOf ts.head?) (kindOf ts.tail.head?)

/-- The atom without brackets the tokens ahead begin with, numeric values apart. -/
def leafOf : List Tok → Option (Leaf × List Tok)
  | [] => none
  | t :: ts =>
    match t.kind with
    | .ST => some (.st t, ts)
    | .PV => some (.pv t, ts)
    | .TX => some (.tx t, ts)
    | .SS =>
      match ts with
      | t' :: ts => if t'.kind = .ST then some (.ss t t', ts) else none
      | [] => none
    | .SI =>
      match ts with
      | t' :: ts => if t'.kind = .ST then some (.si t t', ts) else none
      | [] => none
    | _ => none

/-- The bracket a token opens. -/
def opensWith : Kind → Option GroupKind
  | .LP => some .group
  | .OB => some .opt
  | _ => none

/-- The token that closes a bracket. -/
def GroupKind.closer : GroupKind → Kind
  | .group => .RP
  | .opt => .CB

/-- The atom a numeric value is, unless the run stops at it. -/
def decode (stop : Tok → Bool) (t : Tok) (ts : List Tok) : Reading (CAtom × List Tok) :=
  if stop t then .halt (.refused t) else ⟨[t], .ok (.leaf (.nv t), ts)⟩

/-- The atom a bracket makes of the alternatives read after it: a group if its own closer is ahead,
and a hole that takes nothing otherwise. -/
def closeAtom (g : GroupKind) (op : Tok) (as : CAlts) : List Tok → CAtom × List Tok
  | t :: ts => if t.kind = g.closer then (.group g op t as, ts) else (.hole, t :: ts)
  | [] => (.hole, [])

/-! ## The rules -/

section

variable (stop : Tok → Bool) (deep : Nat → Bool)

mutual

/-- `alts`: sequences between slashes. -/
def readAlts : Nat → Nat → List Tok → Reading (CAlts × List Tok)
  | 0, _, _ => .halt .spent
  | n + 1, k, ts =>
    (readSeq n k .opening ts).bind fun (s, ts) =>
      match ts with
      | t :: ts' =>
        if t.kind = .ALT then (readAlts n k ts').map fun (as, ts) => (s :: as, ts)
        else .ok ([s], t :: ts')
      | [] => .ok ([s], [])

/-- `seq` with the elements after the first `ph`: none read yet, or some. -/
def readSeq : Nat → Nat → Phase → List Tok → Reading (CSeq × List Tok)
  | 0, _, _, _ => .halt .spent
  | n + 1, k, ph, ts =>
    if endsBefore ph ts then .ok ([], ts)
    else
      (readAtom n k (prefixOf ts).2).bind fun (a, ts') =>
        (readSeq n k .closing ts').map fun (es, rest) => (((prefixOf ts).1, a) :: es, rest)

/-- `atom`, `k` brackets deep. -/
def readAtom : Nat → Nat → List Tok → Reading (CAtom × List Tok)
  | 0, _, _ => .halt .spent
  | _ + 1, _, [] => .halt (.unexpected none)
  | n + 1, k, t :: ts =>
    if t.kind = .NV then decode stop t ts
    else
      match opensWith t.kind with
      | some g =>
        if deep k then .halt .deep
        else
          (readAlts n (k + 1) ts).map fun (as, ts) => closeAtom g t as ts
      | none =>
        match leafOf (t :: ts) with
        | some (l, ts) => .ok (.leaf l, ts)
        | none => .halt (.unexpected t)

end

/-- `prod`, and the productions after it. -/
def readProds : Nat → List Tok → Reading (List CProd × List Tok)
  | 0, _ => .halt .spent
  | n + 1, ts =>
    match headOf ts with
    | none => .halt (.unexpected ts.head?)
    | some (h, name, ts) =>
      (readAlts stop deep n 0 ts).bind fun (as, ts) =>
        if (headOf ts).isSome then
          (readProds n ts).map fun (ps, ts) => (⟨h, name, as⟩ :: ps, ts)
        else .ok ([⟨h, name, as⟩], ts)

/-- `abnf`: productions up to the end of the source. -/
def readTop (n : Nat) : List Tok → Reading (List CProd)
  | [] => .ok []
  | t :: ts =>
    (readProds stop deep n (t :: ts)).bind fun (ps, rest) =>
      if rest = [] then .ok ps else .halt (.unexpected rest.head?)

end

/-! ## What the rules read -/

/-- What is said of the tokens a rule is given, of what it reads of them and of what it leaves, as the rules make it
up. -/
structure ReadClosed (stop : Tok → Bool) (deep : Nat → Bool) (PA : Nat → List Tok → CAlts → List Tok → Prop)
    (PS : Nat → Phase → List Tok → CSeq → List Tok → Prop) (PT : Nat → List Tok → CAtom → List Tok → Prop) : Prop where
  last : ∀ k ts s rest, PS k .opening ts s rest → (∀ t ∈ rest.head?, t.kind ≠ .ALT) → PA k ts [s] rest
  slash : ∀ k ts s t ts₁ as rest, PS k .opening ts s (t :: ts₁) → t.kind = .ALT → PA k ts₁ as rest →
    PA k ts (s :: as) rest
  stops : ∀ k ph ts, endsBefore ph ts = true → PS k ph ts [] ts
  /-- After an element the sequence goes on unless it ends there. -/
  item : ∀ k ph ts a ts₁ es rest, PT k (prefixOf ts).2 a ts₁ → PS k .closing ts₁ es rest →
    (endsBefore .closing ts₁ = true → es = [] ∧ rest = ts₁) → PS k ph ts (((prefixOf ts).1, a) :: es) rest
  value : ∀ k t ts, t.kind = .NV → stop t = false → PT k (t :: ts) (.leaf (.nv t)) ts
  bracket : ∀ k g t ts as ts₁, opensWith t.kind = some g → deep k = false → PA (k + 1) ts as ts₁ →
    PT k (t :: ts) (closeAtom g t as ts₁).1 (closeAtom g t as ts₁).2
  leaf : ∀ k ts l rest, leafOf ts = some (l, rest) → PT k ts (.leaf l) rest

section

variable {stop : Tok → Bool} {deep : Nat → Bool}

theorem readSeq_stopped {n k : Nat} {ts rest : List Tok} {es : CSeq} (hend : endsBefore .closing ts = true)
    (h : (readSeq stop deep n k .closing ts).res = .ok (es, rest)) : es = [] ∧ rest = ts := by
  cases n with
  | zero => cases h
  | succ n =>
    rw [readSeq, if_pos hend] at h
    cases h
    exact ⟨rfl, rfl⟩

/-- What the rules make up holds of what they read. -/
theorem ReadClosed.reads {PA : Nat → List Tok → CAlts → List Tok → Prop}
    {PS : Nat → Phase → List Tok → CSeq → List Tok → Prop}
    {PT : Nat → List Tok → CAtom → List Tok → Prop} (hc : ReadClosed stop deep PA PS PT) (n : Nat) :
    (∀ k ts as rest, (readAlts stop deep n k ts).res = .ok (as, rest) → PA k ts as rest) ∧
    (∀ k ph ts es rest, (readSeq stop deep n k ph ts).res = .ok (es, rest) → PS k ph ts es rest) ∧
    (∀ k ts a rest, (readAtom stop deep n k ts).res = .ok (a, rest) → PT k ts a rest) := by
  induction n with
  | zero => refine ⟨fun k ts as rest h => ?_, fun k ph ts es rest h => ?_, fun k ts a rest h => ?_⟩ <;> cases h
  | succ n ih =>
    obtain ⟨ihAlts, ihSeq, ihAtom⟩ := ih
    -- one rule of the closure for each way that a reader succeeds
    refine ⟨fun k ts as rest h => ?_, fun k ph ts es rest h => ?_, fun k ts a rest h => ?_⟩
    · rw [readAlts] at h
      obtain ⟨⟨s, ts₁⟩, hseq, h⟩ := Reading.bind_eq_ok h
      have hs := ihSeq _ _ _ _ _ hseq
      obtain _ | ⟨t, ts₁⟩ := ts₁
      · cases h
        exact hc.last _ _ _ _ hs (by simp)
      · simp only at h
        split at h
        · rename_i hk
          obtain ⟨⟨as', rest'⟩, halts, h⟩ := Reading.bind_eq_ok h
          cases h
          exact hc.slash _ _ _ _ _ _ _ hs hk (ihAlts _ _ _ _ halts)
        · rename_i hk
          cases h
          exact hc.last _ _ _ _ hs (by simpa using hk)
    · rw [readSeq] at h
      split at h
      · rename_i hend
        cases h
        exact hc.stops _ _ _ hend
      · obtain ⟨⟨a, ts₁⟩, hatom, h⟩ := Reading.bind_eq_ok h
        obtain ⟨⟨es', rest'⟩, hseq, h⟩ := Reading.bind_eq_ok h
        cases h
        exact hc.item _ _ _ _ _ _ _ (ihAtom _ _ _ _ hatom) (ihSeq _ _ _ _ _ hseq) fun hend => readSeq_stopped hend hseq
    · obtain _ | ⟨t, ts⟩ := ts
      · rw [readAtom] at h
        cases h
      rw [readAtom] at h
      split at h
      · rename_i hk
        unfold decode at h
        split at h
        · cases h
        · rename_i hs
          cases h
          exact hc.value _ _ _ hk (Bool.not_eq_true _ ▸ hs)
      · split at h
        · rename_i g hg
          split at h
          · cases h
          · rename_i hd
            obtain ⟨⟨as, ts₁⟩, halts, h⟩ := Reading.bind_eq_ok h
            have hatom := hc.bracket _ _ _ _ _ _ hg (Bool.not_eq_true _ ▸ hd) (ihAlts _ _ _ _ halts)
            have hclose : closeAtom g t as ts₁ = (a, rest) := Except.ok.inj h
            rwa [hclose] at hatom
        · split at h
          · rename_i l rest' hl
            cases h
            exact hc.leaf _ _ _ _ hl
          · cases h

/-- Productions hold what they make up, one after another. -/
theorem readProds_induct {A : List Tok → CAlts → List Tok → Prop} {P : List Tok → List CProd → List Tok → Prop}
    (halts : ∀ n ts as rest, (readAlts stop deep n 0 ts).res = .ok (as, rest) → A ts as rest)
    (last : ∀ ts h name ts₁ as rest, headOf ts = some (h, name, ts₁) → A ts₁ as rest → P ts [⟨h, name, as⟩] rest)
    (more : ∀ ts h name ts₁ as ts₂ ps rest, headOf ts = some (h, name, ts₁) → A ts₁ as ts₂ →
      (headOf ts₂).isSome = true →
      P ts₂ ps rest → P ts (⟨h, name, as⟩ :: ps) rest) (n : Nat) {ts rest : List Tok} {ps : List CProd}
    (h : (readProds stop deep n ts).res = .ok (ps, rest)) : P ts ps rest := by
  induction n generalizing ts ps with
  | zero => cases h
  | succ n ih =>
    rw [readProds] at h
    split at h
    · cases h
    · rename_i hd name ts₁ hhead
      obtain ⟨⟨as, ts₂⟩, has, h⟩ := Reading.bind_eq_ok h
      simp only at h
      split at h
      · rename_i hnext
        obtain ⟨⟨ps', rest'⟩, hps, h⟩ := Reading.bind_eq_ok h
        cases h
        exact more _ _ _ _ _ _ _ _ hhead (halts _ _ _ _ has) hnext (ih hps)
      · cases h
        exact last _ _ _ _ _ _ hhead (halts _ _ _ _ has)

/-- A source is read to its end. -/
theorem readTop_eq_ok {n : Nat} {ts : List Tok} {ps : List CProd} (h : (readTop stop deep n ts).res = .ok ps) :
    (ts = [] ∧ ps = []) ∨ (readProds stop deep n ts).res = .ok (ps, []) := by
  obtain _ | ⟨t, ts⟩ := ts
  · cases h
    exact .inl ⟨rfl, rfl⟩
  · obtain ⟨⟨ps', rest⟩, hps, h⟩ := Reading.bind_eq_ok h
    simp only at h
    split at h
    · rename_i hrest
      cases h
      subst hrest
      exact .inr hps
    · cases h

end

end TabnasAbnf.Meta
