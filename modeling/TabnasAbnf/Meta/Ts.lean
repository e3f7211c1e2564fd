/-
The TypeScript front end's hooks and actions over `abnfRules`, and the parse they make. A rule's
node is a JavaScript value; an array is a reference into the heap, so a rule that inherits the node
of the rule that pushed it appends to that rule's array. `num` is what the port makes of a numeric
value: an element, or the error it throws.
-/
import TabnasAbnf.Base.Store
import TabnasAbnf.Meta.Ast
import TabnasAbnf.Meta.Relate
import TabnasAbnf.Meta.Run

namespace TabnasAbnf.Meta

open TabnasAbnf.Engine TabnasAbnf.Base TabnasAbnf.Passes

/-- The token an alternate matched in a place. -/
def tokAt (o : List (Option Tok)) (i : Nat) : Option Tok := o[i]?.join

/-- The text of the token an alternate matched in a place. -/
def textAt (o : List (Option Tok)) (i : Nat) : Text := ((tokAt o i).map Tok.text).getD []

/-- A record that keeps the first diagnostic holds the first of those met. -/
theorem foldl_or {γ ε : Type} (f : γ → Option ε) (log : List γ) (r : Option ε) :
    log.foldl (fun r t => r.or (f t)) r = r.or (log.findSome? f) := by
  induction log generalizing r with
  | nil => simp
  | cons t log ih =>
    rw [List.foldl_cons, ih, List.findSome?_cons]
    cases r <;> cases f t <;> simp

namespace Ts

variable {α ε : Type}

/-! ## Values -/

inductive Val (α : Type)
  | undefined
  | array (addr : Nat)
  | term (literal : Text) (caseSensitive : Bool) (sp : Option Span)
  | value (a : α)
  | prose (text : Text) (sp : Option Span)
  | ref (name : Text) (sp : Option Span)
  | group (alts : Val α) (sp : Option Span)
  | opt (inner : Val α) (sp : Option Span)
  | star (inner : Val α)
  | plus (inner : Val α)
  | rep (min max : JsNum) (inner : Val α)
  | production (name : Text) (alts : Val α) (incremental : Bool) (sp : Option Span)
  deriving DecidableEq

/-- The arrays made so far, by their address. -/
abbrev Heap (α : Type) := Store (List (Val α))

/-- `[]`. -/
def newArray (h : Heap α) : Val α × Heap α := (.array h.length, h ++ [[]])

/-- `v.push(x)`. -/
def push (v x : Val α) (h : Heap α) : Heap α :=
  match v with
  | .array a => h.modify a (· ++ [x])
  | _ => h

/-- A rule's bag `u`. -/
structure Bag where
  name : Text := []
  nameTkn : Option Tok := none
  incremental : Bool := false
  min : JsNum := .nan
  max : JsNum := .nan
  groupKind : Option GroupKind := none
  open_ : Option Tok := none

abbrev Rule (α : Type) := Inst RuleName Tok (Val α) Bag

/-! ## Hooks and actions -/

def bo (r : Rule α) (h : Heap α) : Rule α × Heap α :=
  match r.name with
  | .abnf | .alts | .seq =>
    let (node, h) := newArray h
    ({ r with node }, h)
  | .elem => ({ r with u := { r.u with min := .fin 1, max := .fin 1 } }, h)
  | .atom => ({ r with node := .undefined }, h)
  | .prod => (r, h)

def bc (r : Rule α) (h : Heap α) : Rule α × Heap α :=
  match r.name with
  | .prod =>
    match r.child with
    | none | some .undefined => (r, h)
    | some alts =>
      (r, push r.node (.production r.u.name alts r.u.incremental (r.u.nameTkn.map spanOf)) h)
  | .alts =>
    match r.child with
    | none | some .undefined => (r, h)
    | some seq => (r, push r.node seq h)
  | _ => (r, h)

def cond (c : CondRef) (r : Rule α) : Bool :=
  match c with
  | .atomGroupC => r.u.groupKind = some .group
  | .atomOptC => r.u.groupKind = some .opt

/-- The atom under the repeat its bounds name. -/
def repeated (min max : JsNum) (item : Val α) : Val α :=
  if min = .fin 1 ∧ max = .fin 1 then item
  else if min = .fin 0 ∧ max = .inf then .star item
  else if min = .fin 1 ∧ max = .inf then .plus item
  else if min = .fin 0 ∧ max = .fin 1 then .opt item none
  else .rep min max item

/-- A rule's bag with bounds. -/
def withBounds (r : Rule α) (min max : JsNum) : Rule α := { r with u := { r.u with min, max } }

def act (num : Tok → Except ε α) (a : ActRef) (r : Rule α) (h : Heap α) :
    Except ε (Rule α × Heap α) :=
  match a with
  | .prodName =>
    .ok ({ r with u := { r.u with name := textAt r.o 0, nameTkn := tokAt r.o 0, incremental := false } }, h)
  | .prodNameProse =>
    .ok ({ r with u := { r.u with name := textAt r.o 0, nameTkn := tokAt r.o 0 } }, h)
  | .prodNameInc =>
    .ok ({ r with u := { r.u with name := textAt r.o 0, nameTkn := tokAt r.o 0, incremental := true } }, h)
  | .elemRepBounded => .ok (withBounds r (parseInt (textAt r.o 0) 10) (parseInt (textAt r.o 2) 10), h)
  | .elemRepAtleast => .ok (withBounds r (parseInt (textAt r.o 0) 10) .inf, h)
  | .elemRepAtmost => .ok (withBounds r (.fin 0) (parseInt (textAt r.o 1) 10), h)
  | .elemRepStar => .ok (withBounds r (.fin 0) .inf, h)
  | .elemRepExact => .ok (withBounds r (parseInt (textAt r.o 0) 10) (parseInt (textAt r.o 0) 10), h)
  | .elemClose => .ok (r, push r.node (repeated r.u.min r.u.max (r.child.getD .undefined)) h)
  | .atomSs =>
    .ok ({ r with node := .term (textAt r.o 1) true (spanTo (tokAt r.o 0) (tokAt r.o 1)) }, h)
  | .atomSi =>
    .ok ({ r with node := .term (textAt r.o 1) false (spanTo (tokAt r.o 0) (tokAt r.o 1)) }, h)
  | .atomSt => .ok ({ r with node := .term (textAt r.o 0) false ((tokAt r.o 0).map spanOf) }, h)
  | .atomNv =>
    match tokAt r.o 0 with
    | none => .ok (r, h)
    | some t => (num t).map fun a => ({ r with node := .value a }, h)
  | .atomPv =>
    .ok ({ r with node := .prose ((textAt r.o 0).drop 1).dropLast ((tokAt r.o 0).map spanOf) }, h)
  | .atomTx => .ok ({ r with node := .ref (textAt r.o 0) ((tokAt r.o 0).map spanOf) }, h)
  | .atomLp => .ok ({ r with u := { r.u with groupKind := some .group, open_ := tokAt r.o 0 } }, h)
  | .atomOb => .ok ({ r with u := { r.u with groupKind := some .opt, open_ := tokAt r.o 0 } }, h)
  | .atomGroupClose =>
    .ok ({ r with node := .group (r.child.getD .undefined) (spanTo r.u.open_ (tokAt r.c 0)) }, h)
  | .atomOptClose =>
    let bracket := spanTo r.u.open_ (tokAt r.c 0)
    .ok ({ r with node := .opt (.group (r.child.getD .undefined) bracket) bracket }, h)

/-- `abnfRules` with its hooks, conditions and actions. -/
def grammar (num : Tok → Except ε α) :
    Grammar Kind RuleName CondRef ActRef Tok (Val α) Bag (Heap α) ε where
  table := abnfRules
  kind := kindOf
  blank := .undefined
  bag := {}
  bo
  bc
  cond
  act := act num

/-! ## The production list -/

/-- The values an array holds. -/
def items (h : Heap α) : Val α → Option (List (Val α))
  | .array a => h[a]?
  | _ => none

/-- A value of the parse as the element it is, through the arrays it refers to. What is no element
is a hole. -/
def elementOf (h : Heap α) : Nat → Val α → Element α JsNum
  | 0, _ => .hole
  | n + 1, v =>
    match v with
    | .term literal cs sp => .term literal cs sp
    | .value a => .value a
    | .prose text sp => .prose text sp
    | .ref name sp => .ref name sp
    | .group alts sp =>
      match items h alts with
      | some as => .group (as.map fun s => ((items h s).getD []).map (elementOf h n)) sp
      | none => .hole
    | .opt inner sp => .opt (elementOf h n inner) sp
    | .star inner => .star (elementOf h n inner)
    | .plus inner => .plus (elementOf h n inner)
    | .rep min max inner => .rep min max (elementOf h n inner)
    | .undefined | .array _ | .production _ _ _ _ => .hole

/-- An element's values nest no deeper than this before each array they refer to. -/
def depthOf (h : Heap α) : Nat := 4 * h.length + 4

def productionOf (h : Heap α) : Val α → Option (Production (List (Element α JsNum)))
  | .production name alts incremental sp =>
    (items h alts).map fun as =>
      { name, incremental, sp
        alts := as.map fun s => ((items h s).getD []).map (elementOf h (depthOf h)) }
  | _ => none

/-- The production list the parse answers. -/
def productions (h : Heap α) (v : Val α) : Rules α JsNum :=
  ((items h v).getD []).filterMap (productionOf h)

/-! ## What a value stands for -/

/-- The bounds an action reads off a repeat. -/
def boundsOf : Reps → JsNum × JsNum
  | .once => (.fin 1, .fin 1)
  | .bounded n m => (parseInt n.text 10, parseInt m.text 10)
  | .atleast n => (parseInt n.text 10, .inf)
  | .atmost m => (.fin 0, parseInt m.text 10)
  | .star => (.fin 0, .inf)
  | .exact n => (parseInt n.text 10, parseInt n.text 10)

/-- The element under the repeat its bounds name. -/
def wrap (r : Reps) (e : Element α JsNum) : Element α JsNum :=
  let (min, max) := boundsOf r
  if min = .fin 1 ∧ max = .fin 1 then e
  else if min = .fin 0 ∧ max = .inf then .star e
  else if min = .fin 1 ∧ max = .inf then .plus e
  else if min = .fin 0 ∧ max = .fin 1 then .opt e none
  else .rep min max e

/-- The elements of the port, `val` being what it makes of a numeric value. -/
def builder (val : Tok → α) : Builder α JsNum := ⟨val, wrap⟩

theorem builder_honest (val : Tok → α) : (builder val).Honest := by
  intro r e
  simp only [builder, wrap]
  repeat' split
  all_goals rfl

section

variable (val : Tok → α)

def leafVal : Leaf → Val α
  | .ss p t => .term t.text true (spanTo (some p) (some t))
  | .si p t => .term t.text false (spanTo (some p) (some t))
  | .st t => .term t.text false (some (spanOf t))
  | .nv t => .value (val t)
  | .pv t => .prose (t.text.drop 1).dropLast (some (spanOf t))
  | .tx t => .ref t.text (some (spanOf t))

def bracketVal (g : GroupKind) (alts : Val α) (sp : Option Span) : Val α :=
  match g with
  | .group => .group alts sp
  | .opt => .opt (.group alts sp) sp

variable (h : Heap α)

mutual

/-- The value is the atom; the arrays it refers to were made at `lo` or later. -/
def IsAtom : CAtom → Nat → Val α → Prop
  | .leaf l, _, v => v = leafVal val l
  | .group g op cl as, lo, v => ∃ a vs, v = bracketVal g (.array a) (spanTo (some op) (some cl)) ∧
      lo ≤ a ∧ h[a]? = some vs ∧ AreAlts as (a + 1) vs
  | .hole, _, v => v = .undefined

/-- The values are the elements of a sequence. -/
def AreSeq : CSeq → Nat → List (Val α) → Prop
  | [], _, vs => vs = []
  | (r, a) :: es, lo, vs => ∃ u vs', vs = repeated (boundsOf r).1 (boundsOf r).2 u :: vs' ∧
      IsAtom a lo u ∧ AreSeq es lo vs'

/-- The values are arrays that hold sequences. -/
def AreAlts : CAlts → Nat → List (Val α) → Prop
  | [], _, vs => vs = []
  | s :: as, lo, vs => ∃ a us vs', vs = .array a :: vs' ∧ lo ≤ a ∧ h[a]? = some us ∧
      AreSeq s (a + 1) us ∧ AreAlts as lo vs'

end

/-- The values are productions. -/
def AreProds : List CProd → Nat → List (Val α) → Prop
  | [], _, vs => vs = []
  | p :: ps, lo, vs => ∃ a us vs', vs = .production p.name.text (.array a) (p.head = .inc)
      (some (spanOf p.name)) :: vs' ∧ lo ≤ a ∧ h[a]? = some us ∧ AreAlts val h p.alts (a + 1) us ∧
      AreProds ps lo vs'

end

/-! ## Frames -/

variable {val : Tok → α} {h h' : Heap α}

mutual

theorem IsAtom.frame : (a : CAtom) → {lo lo' : Nat} → {v : Val α} → IsAtom val h a lo v → lo' ≤ lo →
    SameFrom lo' h h' → IsAtom val h' a lo' v
  | .leaf _, _, _, _, hv, _, _ => hv
  | .group _ _ _ as, _, _, _, ⟨a, vs, hv, hlo, ha, has⟩, hl, hs =>
    ⟨a, vs, hv, hl.trans hlo, hs.get (hl.trans hlo) ha,
      AreAlts.frame as has le_rfl (hs.mono (Nat.le_succ_of_le (hl.trans hlo)))⟩
  | .hole, _, _, _, hv, _, _ => hv

theorem AreSeq.frame : (es : CSeq) → {lo lo' : Nat} → {vs : List (Val α)} → AreSeq val h es lo vs →
    lo' ≤ lo → SameFrom lo' h h' → AreSeq val h' es lo' vs
  | [], _, _, _, hv, _, _ => hv
  | (_, a) :: es, _, _, _, ⟨u, vs', hv, ha, hes⟩, hl, hs =>
    ⟨u, vs', hv, IsAtom.frame a ha hl hs, AreSeq.frame es hes hl hs⟩

theorem AreAlts.frame : (as : CAlts) → {lo lo' : Nat} → {vs : List (Val α)} → AreAlts val h as lo vs →
    lo' ≤ lo → SameFrom lo' h h' → AreAlts val h' as lo' vs
  | [], _, _, _, hv, _, _ => hv
  | s :: as, _, _, _, ⟨a, us, vs', hv, hlo, ha, hus, has⟩, hl, hs =>
    ⟨a, us, vs', hv, hl.trans hlo, hs.get (hl.trans hlo) ha,
      AreSeq.frame s hus le_rfl (hs.mono (Nat.le_succ_of_le (hl.trans hlo))),
      AreAlts.frame as has hl hs⟩

end

theorem AreProds.frame {ps : List CProd} {lo lo' : Nat} {vs : List (Val α)}
    (hp : AreProds val h ps lo vs) (hl : lo' ≤ lo) (hs : SameFrom lo' h h') :
    AreProds val h' ps lo' vs := by
  induction ps generalizing vs with
  | nil => exact hp
  | cons p ps ih =>
    obtain ⟨a, us, vs', hv, hlo, ha, hus, hps⟩ := hp
    exact ⟨a, us, vs', hv, hl.trans hlo, hs.get (hl.trans hlo) ha,
      hus.frame _ le_rfl (hs.mono (Nat.le_succ_of_le (hl.trans hlo))), ih hps⟩

/-- The value is an array made since `b`, and `P` holds of what it holds. -/
def IsArray (b h : Heap α) (v : Val α) (P : Nat → List (Val α) → Prop) : Prop :=
  ∃ a vs, v = .array a ∧ b.length ≤ a ∧ h[a]? = some vs ∧ P (a + 1) vs

theorem isArray_new {P : Nat → List (Val α) → Prop} (hP : ∀ lo, P lo []) :
    IsArray h (h ++ [[]]) (.array h.length) P :=
  ⟨h.length, [], rfl, le_rfl, get_new h [], hP _⟩

/-- An append to an array keeps what the heap held before `b`, and the array holds one value more. -/
theorem isArray_push {b h₀ h : Heap α} {v x : Val α} {P : Nat → List (Val α) → Prop}
    (P' : Heap α → Nat → List (Val α) → Prop) (hv : IsArray b h₀ v P) (hb : Extends b h)
    (hf : Extends h₀ h)
    (hP : ∀ lo vs h', lo ≤ h₀.length → SameFrom lo h h' → P lo vs → P' h' lo (vs ++ [x])) :
    Extends b (push v x h) ∧ IsArray b (push v x h) v (P' (push v x h)) := by
  obtain ⟨a, vs, rfl, hlo, ha, hvs⟩ := hv
  have hlt : a < h₀.length := (List.getElem?_eq_some_iff.1 ha).1
  exact ⟨extends_modify hb hlo, a, vs ++ [x], rfl, hlo, get_modify (hf.get ha), hP _ _ _ hlt sameFrom_modify hvs⟩

theorem AreSeq.snoc {es : CSeq} {r : Reps} {a : CAtom} {lo : Nat} {vs : List (Val α)} {u : Val α}
    (hes : AreSeq val h es lo vs) (ha : IsAtom val h a lo u) :
    AreSeq val h (es ++ [(r, a)]) lo (vs ++ [repeated (boundsOf r).1 (boundsOf r).2 u]) := by
  induction es generalizing vs with
  | nil => rw [show vs = [] from hes]; exact ⟨u, [], rfl, ha, rfl⟩
  | cons e es ih =>
    obtain ⟨u', vs', rfl, ha', hes'⟩ := hes
    exact ⟨u', _, rfl, ha', ih hes'⟩

theorem AreAlts.snoc {as : CAlts} {s : CSeq} {lo a : Nat} {vs us : List (Val α)}
    (has : AreAlts val h as lo vs) (hlo : lo ≤ a) (ha : h[a]? = some us) (hs : AreSeq val h s (a + 1) us) :
    AreAlts val h (as ++ [s]) lo (vs ++ [.array a]) := by
  induction as generalizing vs with
  | nil => rw [show vs = [] from has]; exact ⟨a, us, [], rfl, hlo, ha, hs, rfl⟩
  | cons s' as ih =>
    obtain ⟨a', us', vs', rfl, hlo', ha', hus, has'⟩ := has
    exact ⟨a', us', _, rfl, hlo', ha', hus, ih has'⟩

theorem AreProds.snoc {ps : List CProd} {p : CProd} {lo a : Nat} {vs us : List (Val α)}
    (hps : AreProds val h ps lo vs) (hlo : lo ≤ a) (ha : h[a]? = some us)
    (has : AreAlts val h p.alts (a + 1) us) :
    AreProds val h (ps ++ [p]) lo
      (vs ++ [.production p.name.text (.array a) (p.head = .inc) (some (spanOf p.name))]) := by
  induction ps generalizing vs with
  | nil => rw [show vs = [] from hps]; exact ⟨a, us, [], rfl, hlo, ha, has, rfl⟩
  | cons p' ps ih =>
    obtain ⟨a', us', vs', rfl, hlo', ha', hus, hps'⟩ := hps
    exact ⟨a', us', _, rfl, hlo', ha', hus, ih hps'⟩

/-! ## The laws -/

theorem abnfRules_tabled (num : Tok → Except ε α) : Tabled (grammar num) := fun _ _ _ _ => rfl

/-- The port's hooks and actions build the tree a reading names, in arrays shared by reference. A
value `num` refuses ends the run. -/
def discipline (num : Tok → Except ε α) (val : Tok → α) (stop : Tok → Bool) (refusal : Tok → ε)
    (hstop : ∀ t, stop t = true → num t = .error (refusal t))
    (hval : ∀ t, stop t = false → num t = .ok (val t)) (d₀ : Nat) :
    Discipline (grammar num) d₀ Unit where
  stop := stop
  deep := fun _ => false
  Refused t e := e = refusal t
  TooDeep _ := False
  record := fun _ => ()
  note := fun _ _ => ()
  Frame := Extends
  Prods b h v ps := IsArray b h v (AreProds val h ps)
  Alts b h v as := IsArray b h v (AreAlts val h as)
  Seq b h v es := IsArray b h v (AreSeq val h es)
  Atom b h v a := IsAtom val h a b.length v
  Bounds u r := (u.min, u.max) = boundsOf r
  Named u k name := u.name = name.text ∧ u.nameTkn = some name ∧ u.incremental = decide (k = .inc)
  Opened u g t := u.groupKind = some g ∧ u.open_ = some t
  tabled := abnfRules_tabled num
  frame_refl := Extends.refl
  frame_trans := Extends.trans
  atom_frame ha hf := ha.frame _ le_rfl (hf.sameFrom _)
  bo_abnf := by
    rintro ⟨name, _, _, _, _, _, _, _⟩ h rfl
    exact ⟨_, _, rfl, rfl, extends_new h [], isArray_new fun _ => rfl⟩
  bo_prod := by rintro ⟨name, _, _, _, _, _, _, _⟩ h rfl; rfl
  bo_alts := by
    rintro ⟨name, _, _, _, _, _, _, _⟩ h rfl
    exact ⟨_, _, rfl, rfl, extends_new h [], isArray_new fun _ => rfl⟩
  bo_seq := by
    rintro ⟨name, _, _, _, _, _, _, _⟩ h rfl
    exact ⟨_, _, rfl, rfl, extends_new h [], isArray_new fun _ => rfl⟩
  bo_elem := by rintro ⟨name, _, _, _, _, _, _, _⟩ h rfl; exact ⟨_, rfl, rfl⟩
  bo_atom := by
    rintro ⟨name, _, _, _, _, _, _, _⟩ h rfl
    exact ⟨_, _, rfl, rfl, .refl h, rfl⟩
  bc_none := by
    rintro ⟨name, _, _, _, _, _, _, _⟩ h ⟨h₁, h₂⟩
    cases name <;> first | rfl | exact absurd rfl h₁ | exact absurd rfl h₂
  bc_alts := by
    rintro ⟨name, v, _, _, _, _, _, _⟩ b h₀ h u as s rfl rfl hb has hf ⟨a, us, rfl, hlo, ha, hus⟩
    refine ⟨_, rfl, rfl, isArray_push (AreAlts val · (as ++ [s])) has hb hf fun lo vs h' hl hs hvs => ?_⟩
    have hlo' : lo ≤ a := hl.trans hlo
    exact (hvs.frame _ le_rfl (((hf.sameFrom lo).trans hf.1 hs))).snoc hlo' (hs.get hlo' ha)
      (hus.frame _ le_rfl (hs.mono (by omega)))
  bc_prod := by
    rintro ⟨name, v, ⟨_, _, _, _, _, _, _⟩, _, _, _, _, _⟩ b h₀ h u ps k n as rfl rfl hb ⟨rfl, rfl, rfl⟩ hps hf
      ⟨a, us, rfl, hlo, ha, hus⟩
    refine ⟨_, rfl, rfl, isArray_push (AreProds val · (ps ++ [⟨k, n, as⟩])) hps hb hf
      fun lo vs h' hl hs hvs => ?_⟩
    have hlo' : lo ≤ a := hl.trans hlo
    exact (hvs.frame le_rfl (((hf.sameFrom lo).trans hf.1 hs))).snoc (p := ⟨k, n, as⟩) hlo' (hs.get hlo' ha)
      (hus.frame _ le_rfl (hs.mono (by omega)))
  act_head := by
    rintro ⟨_, _, _, _, _, _, _, _⟩ h k name d rfl rfl
    cases k <;> exact ⟨_, rfl, rfl, rfl, rfl⟩
  act_reps := by
    intro inst h a r hr
    obtain ⟨_, _, _, o, _, _, _, _⟩ := inst
    unfold repsSeen at hr
    split at hr <;> cases hr <;> (subst_vars; exact ⟨_, rfl, rfl⟩)
  act_elem := by
    rintro ⟨name, v, u', _, _, _, _, _⟩ b h₀ h u es r a rfl hb hbounds hes hf ha
    have hmin : u'.min = (boundsOf r).1 := congrArg Prod.fst hbounds
    have hmax : u'.max = (boundsOf r).2 := congrArg Prod.snd hbounds
    refine ⟨_, rfl, rfl, isArray_push (AreSeq val · (es ++ [(r, a)])) hes hb hf fun lo vs h' hl hs hvs => ?_⟩
    simp only [hmin, hmax, Option.getD_some]
    exact (hvs.frame _ le_rfl ((hf.sameFrom lo).trans hf.1 hs)).snoc (ha.frame _ hl hs)
  act_leaf := by
    rintro ⟨_, _, _, o, _, _, _, _⟩ b h a l hl hb
    unfold leafSeen at hl
    split at hl <;> (try split at hl) <;> cases hl <;> (subst_vars; exact ⟨_, h, rfl, rfl, .refl h, rfl⟩)
  act_refuse := by
    rintro ⟨_, _, _, _, _, _, _, _⟩ h t rfl - hs
    exact ⟨refusal t, by simp [grammar, act, tokAt, hstop t hs, Except.map], rfl⟩
  act_nv := by
    rintro ⟨_, _, _, _, _, _, _, _⟩ b h t rfl - hs hb
    refine ⟨.value (val t), h, ?_, rfl, .refl h, rfl⟩
    simp [grammar, act, tokAt, hval t hs, Except.map]
  act_deep := by
    rintro _ _ _ _ _ ⟨⟩
  act_open := by
    rintro ⟨_, _, _, _, _, _, _, _⟩ h g k t - - rfl
    cases g <;> exact ⟨_, rfl, rfl, rfl⟩
  cond_bag := by
    rintro ⟨_, _, _, _, _, _, _, _⟩ c rfl
    cases c <;> rfl
  cond_open := by
    rintro ⟨_, _, ⟨_, _, _, _, _, _, _⟩, _, _, _, _, _⟩ g t ⟨rfl, rfl⟩ c
    cases c <;> cases g <;> rfl
  act_close := by
    rintro ⟨_, _, ⟨_, _, _, _, _, _, _⟩, _, _, _, _, _⟩ b h₀ h u g op cl as ⟨rfl, rfl⟩ rfl rfl hb hf
      ⟨a, us, rfl, hlo, ha, hus⟩
    refine ⟨bracketVal g (.array a) (spanTo (some op) (some cl)), h, ?_, rfl, .refl h,
      a, us, rfl, hb.1.trans hlo, ha, hus⟩
    cases g <;> rfl

/-! ## The parse -/

theorem elementOf_repeated {n : Nat} {r : Reps} {u : Val α} {e : Element α JsNum}
    (h₀ : elementOf h n u = e) (h₁ : elementOf h (n + 1) u = e) :
    elementOf h (n + 1) (repeated (boundsOf r).1 (boundsOf r).2 u) = wrap r e := by
  unfold repeated wrap
  repeat' split
  all_goals simp_all [elementOf]

theorem elementOf_group {n a : Nat} {vs : List (Val α)} (ha : h[a]? = some vs) (sp : Option Span) :
    elementOf h (n + 1) (.group (.array a) sp) =
      .group (vs.map fun s => ((items h s).getD []).map (elementOf h n)) sp := by
  rw [elementOf, show items h (.array a) = some vs from ha]

mutual

/-- Read through the arrays it refers to, a value is the element its atom is. -/
theorem IsAtom.elementOf : (a : CAtom) → {lo n : Nat} → {v : Val α} → IsAtom val h a lo v →
    4 * (h.length - lo) + 2 ≤ n → Ts.elementOf h n v = (builder val).atom a
  | .leaf l, _, n + 1, _, hv, _ => by
    rw [show _ = _ from hv]
    cases l <;> rfl
  | .group g op cl as, lo, n + 2, _, ⟨a, vs, hv, hlo, ha, has⟩, hn => by
    have hlt : a < h.length := (List.getElem?_eq_some_iff.1 ha).1
    subst hv
    rw [Builder.atom]
    cases g with
    | group => rw [bracketVal, elementOf_group ha, AreAlts.map as has (n + 1) (by omega), bracket]
    | opt =>
      rw [bracketVal, Ts.elementOf, elementOf_group ha, AreAlts.map as has n (by omega), bracket]
  | .hole, _, n + 1, _, hv, _ => by
    rw [show _ = _ from hv]
    rfl

theorem AreSeq.map : (es : CSeq) → {lo : Nat} → {vs : List (Val α)} → AreSeq val h es lo vs →
    (n : Nat) → 4 * (h.length - lo) + 3 ≤ n → vs.map (Ts.elementOf h n) = (builder val).seq es
  | [], _, _, hv, _, _ => by rw [show _ = _ from hv]; rfl
  | (r, a) :: es, _, _, ⟨u, vs', hv, ha, hes⟩, n + 1, hn => by
    rw [hv, List.map_cons, AreSeq.map es hes (n + 1) hn, elementOf_repeated
      (IsAtom.elementOf a ha (by omega)) (IsAtom.elementOf a ha (by omega))]
    rfl

theorem AreAlts.map : (as : CAlts) → {lo : Nat} → {vs : List (Val α)} → AreAlts val h as lo vs →
    (n : Nat) → 4 * (h.length - lo) + 3 ≤ n →
    (vs.map fun s => ((items h s).getD []).map (Ts.elementOf h n)) = (builder val).alts as
  | [], _, _, hv, _, _ => by rw [show _ = _ from hv]; rfl
  | s :: as, _, _, ⟨a, us, vs', hv, hlo, ha, hus, has⟩, n, hn => by
    rw [hv, List.map_cons, AreAlts.map as has n hn]
    simp only [items, ha, Option.getD_some]
    rw [AreSeq.map s hus n (by omega)]
    rfl

end

theorem productions_eq {b : Heap α} {v : Val α} {ps : List CProd}
    (hv : IsArray b h v (AreProds val h ps)) : productions h v = ps.map (builder val).prod := by
  obtain ⟨a, vs, rfl, -, ha, hps⟩ := hv
  have hmap : ∀ (ps : List CProd) (vs : List (Val α)) (lo : Nat), AreProds val h ps lo vs →
      vs.filterMap (productionOf h) = ps.map (builder val).prod := by
    intro ps
    induction ps with
    | nil => rintro vs lo hv; rw [show vs = [] from hv]; rfl
    | cons p ps ih =>
      rintro _ lo ⟨a, us, vs', rfl, hlo, ha, hus, hps⟩
      have hprod : productionOf h (.production p.name.text (.array a) (decide (p.head = .inc))
          (some (spanOf p.name))) = some ((builder val).prod p) := by
        rw [productionOf, show items h (.array a) = some us from ha, Option.map_some,
          AreAlts.map p.alts hus (depthOf h) (by simp only [depthOf]; omega)]
        rfl
      rw [List.filterMap_cons, hprod, ih vs' lo hps, List.map_cons]
  simp only [productions, items, ha, Option.getD_some]
  exact hmap ps vs _ hps

/-- An engine for the front end. -/
abbrev Engine (α ε : Type) := Heap α → List Tok → Outcome Tok (Val α) (Heap α) ε

/-- The machine itself, as an engine. -/
def machine (num : Tok → Except ε α) (val : Tok → α) (stop : Tok → Bool) (refusal : Tok → ε)
    (hstop : ∀ t, stop t = true → num t = .error (refusal t))
    (hval : ∀ t, stop t = false → num t = .ok (val t)) (d₀ : Nat) : Engine α ε :=
  (grammar num).engine .abnf d₀ (discipline num val stop refusal hstop hval d₀).halts

/-- `parseAbnf`, with the check it ends with. -/
def parseAbnf (engine : Engine α ε) (check : Check α JsNum ε) (ts : List Tok) :
    Except (Cause ε) (Rules α JsNum) :=
  match engine [] ts with
  | .done v h => checked check (productions h v)
  | .unexpected t _ => .error (.engine t)
  | .failed e _ => .error (.numeric e)

/-- The parse answers what the reading of the tokens does: its productions if they pass the checks,
or the reason the reading ends. -/
theorem parseAbnf_eq {num : Tok → Except ε α} {stop : Tok → Bool} {refusal : Tok → ε}
    (hstop : ∀ t, stop t = true → num t = .error (refusal t))
    (hval : ∀ t, stop t = false → num t = .ok (val t)) {d₀ : Nat} {engine : Engine α ε}
    (he : (grammar num).Implements .abnf d₀ engine) (check : Check α JsNum ε) (ts : List Tok) :
    parseAbnf engine check ts =
      match (reading stop (fun _ => false) ts).res with
      | .ok ps => checked check (ps.map (builder val).prod)
      | .error (.refused t) => .error (.numeric (refusal t))
      | .error (.unexpected t) => .error (.engine t)
      | .error .deep | .error .spent => .error .depth := by
  let D := discipline num val stop refusal hstop hval d₀
  obtain ⟨out, hy, -, hout⟩ := D.runs_top ts (w := []) (fuelFor ts) (reading_ends stop _ ts)
  rw [parseAbnf, he [] ts out hy]
  cases hx : (reading stop (fun _ => false) ts).res with
  | ok ps =>
    rw [show (readTop D.stop D.deep (fuelFor ts) ts).res = .ok ps from hx] at hout
    obtain ⟨v, hv, hps⟩ := hout
    rw [hv]
    simp only
    rw [productions_eq hps]
  | error e =>
    rw [show (readTop D.stop D.deep (fuelFor ts) ts).res = .error e from hx] at hout
    cases e with
    | spent => exact absurd hx (reading_ends stop _ ts)
    | refused t => cases out <;> first | exact hout.elim | exact congrArg _ (congrArg _ hout)
    | deep => exact absurd hx (reading_uncapped stop ts)
    | unexpected t =>
      cases out <;> first | exact hout.elim | exact congrArg _ (congrArg _ hout.symm)

/-- Where the parse ends in a value, the tokens read as productions, and the value is theirs. -/
theorem engine_done {num : Tok → Except ε α} {stop : Tok → Bool} {refusal : Tok → ε}
    (hstop : ∀ t, stop t = true → num t = .error (refusal t))
    (hval : ∀ t, stop t = false → num t = .ok (val t)) {d₀ : Nat} {engine : Engine α ε}
    (he : (grammar num).Implements .abnf d₀ engine) {ts : List Tok} :
    (∀ {v h}, engine [] ts = .done v h →
      ∃ ps, (reading stop (fun _ => false) ts).res = .ok ps ∧ productions h v = ps.map (builder val).prod) ∧
    ∀ {ps}, (reading stop (fun _ => false) ts).res = .ok ps →
      ∃ v h, engine [] ts = .done v h ∧ productions h v = ps.map (builder val).prod := by
  let D := discipline num val stop refusal hstop hval d₀
  obtain ⟨out, hy, -, hout⟩ := D.runs_top ts (w := []) (fuelFor ts) (reading_ends stop _ ts)
  rw [he [] ts out hy]
  cases hx : (reading stop (fun _ => false) ts).res with
  | ok ps =>
    rw [show (readTop D.stop D.deep (fuelFor ts) ts).res = .ok ps from hx] at hout
    obtain ⟨v, hv, hps⟩ := hout
    refine ⟨fun h => ⟨ps, rfl, ?_⟩, fun h => ?_⟩
    · rw [hv] at h
      cases h
      exact productions_eq hps
    · cases h
      exact ⟨v, _, hv, productions_eq hps⟩
  | error e =>
    rw [show (readTop D.stop D.deep (fuelFor ts) ts).res = .error e from hx] at hout
    refine ⟨fun h => ?_, fun h => by cases h⟩
    subst h
    cases e <;> exact hout.elim

end Ts

end TabnasAbnf.Meta
