/-
The Go port's hooks and actions over `AbnfRules`, and the parse they make. A rule's node is nil, a
pointer to a slice or an element; a slice is appended to through its pointer and copied where the
source dereferences it. A refused numeric value is recorded in the parse's meta and the parse
carries on. `maxInfinity` is the bound that stands for no bound.
-/
import TabnasAbnf.Meta.Ts

namespace TabnasAbnf.Meta.Go

open TabnasAbnf.Engine TabnasAbnf.Base TabnasAbnf.Passes

variable {α ε : Type}

/-! ## Nodes -/

abbrev Elem (α : Type) := Element α Int

/-- What a pointer points to, with its type. -/
inductive Cell (α : Type)
  | productionList (ps : List (Production (List (Elem α))))
  | alts (as : List (List (Elem α)))
  | seq (es : List (Elem α))

inductive Node (α : Type)
  | nil
  | ptr (addr : Nat)
  | element (e : Elem α)

/-- The slices made so far and the recorder in the parse's meta, which keeps the first diagnostic. -/
structure World (α ε : Type) where
  cells : Store (Cell α) := []
  msg : Option ε := none

/-- What a node points to. -/
def World.deref (w : World α ε) : Node α → Option (Cell α)
  | .ptr a => w.cells[a]?
  | _ => none

/-- `&cell`. -/
def World.new (w : World α ε) (cell : Cell α) : Node α × World α ε :=
  (.ptr w.cells.length, { w with cells := w.cells ++ [cell] })

/-- `*ptr = f(*ptr)`. -/
def World.update (w : World α ε) (v : Node α) (f : Cell α → Cell α) : World α ε :=
  match v with
  | .ptr a => { w with cells := w.cells.modify a f }
  | _ => w

def Cell.addProduction (p : Production (List (Elem α))) : Cell α → Cell α
  | .productionList ps => .productionList (ps ++ [p])
  | c => c

def Cell.addSeq (s : List (Elem α)) : Cell α → Cell α
  | .alts as => .alts (as ++ [s])
  | c => c

def Cell.addElement (e : Elem α) : Cell α → Cell α
  | .seq es => .seq (es ++ [e])
  | c => c

structure Bag where
  name : Text := []
  nameTkn : Option Tok := none
  incremental : Bool := false
  min : Int := 0
  max : Int := 0
  groupKind : Option GroupKind := none
  open_ : Option Tok := none

abbrev Rule (α : Type) := Inst RuleName Tok (Node α) Bag

/-- `strconv.Atoi` on a count's digits, zero where it fails: past the 64-bit integers. -/
def atoi (s : Text) : Int :=
  if s ≠ [] ∧ s.all (isDigit 10) ∧ ofDigits 10 s < 2 ^ 63 then ofDigits 10 s else 0

/-! ## Hooks and actions -/

def bo (r : Rule α) (w : World α ε) : Rule α × World α ε :=
  match r.name with
  | .abnf => let (node, w) := w.new (.productionList []); ({ r with node }, w)
  | .alts => let (node, w) := w.new (.alts []); ({ r with node }, w)
  | .seq => let (node, w) := w.new (.seq []); ({ r with node }, w)
  | .elem => ({ r with u := { r.u with min := 1, max := 1 } }, w)
  | .atom => ({ r with node := .nil }, w)
  | .prod => (r, w)

/-- What the node of the rule pushed last points to. -/
def childCell (r : Rule α) (w : World α ε) : Option (Cell α) := r.child.bind w.deref

def bc (r : Rule α) (w : World α ε) : Rule α × World α ε :=
  match r.name with
  | .prod =>
    match childCell r w with
    | some (.alts as) =>
      let prod := { name := r.u.name, alts := as, incremental := r.u.incremental
                    sp := r.u.nameTkn.map spanOf }
      (r, w.update r.node (.addProduction prod))
    | _ => (r, w)
  | .alts =>
    match childCell r w with
    | some (.seq s) => (r, w.update r.node (.addSeq s))
    | _ => (r, w)
  | _ => (r, w)

def cond (c : CondRef) (r : Rule α) : Bool :=
  match c with
  | .atomGroupC => r.u.groupKind = some .group
  | .atomOptC => r.u.groupKind = some .opt

/-- `childAlts`. -/
def childAlts (r : Rule α) (w : World α ε) : List (List (Elem α)) :=
  match childCell r w with
  | some (.alts as) => as
  | _ => []

/-- The item under the repeat its bounds name. -/
def repeated (maxInfinity min max : Int) (item : Elem α) : Elem α :=
  if min = 1 ∧ max = 1 then item
  else if min = 0 ∧ max = maxInfinity then .star item
  else if min = 1 ∧ max = maxInfinity then .plus item
  else if min = 0 ∧ max = 1 then .opt item none
  else .rep min max item

def withBounds (r : Rule α) (min max : Int) : Rule α := { r with u := { r.u with min, max } }

/-- `rec.record`: only the first diagnostic is kept. -/
def World.record (w : World α ε) (err : Option ε) : World α ε := { w with msg := w.msg.or err }

def act (maxInfinity : Int) (num : Tok → α × Option ε) (a : ActRef) (r : Rule α) (w : World α ε) :
    Except Empty (Rule α × World α ε) :=
  match a with
  | .prodName | .prodNameProse =>
    .ok ({ r with u := { r.u with name := textAt r.o 0, nameTkn := tokAt r.o 0, incremental := false } }, w)
  | .prodNameInc =>
    .ok ({ r with u := { r.u with name := textAt r.o 0, nameTkn := tokAt r.o 0, incremental := true } }, w)
  | .elemRepBounded => .ok (withBounds r (atoi (textAt r.o 0)) (atoi (textAt r.o 2)), w)
  | .elemRepAtleast => .ok (withBounds r (atoi (textAt r.o 0)) maxInfinity, w)
  | .elemRepAtmost => .ok (withBounds r 0 (atoi (textAt r.o 1)), w)
  | .elemRepStar => .ok (withBounds r 0 maxInfinity, w)
  | .elemRepExact => .ok (withBounds r (atoi (textAt r.o 0)) (atoi (textAt r.o 0)), w)
  | .elemClose =>
    match r.child with
    | some (.element item) =>
      .ok (r, w.update r.node (.addElement (repeated maxInfinity r.u.min r.u.max item)))
    | _ => .ok (r, w.update r.node (.addElement .hole))
  | .atomSs =>
    .ok ({ r with node := .element (.term (textAt r.o 1) true (spanTo (tokAt r.o 0) (tokAt r.o 1))) }, w)
  | .atomSi =>
    .ok ({ r with node := .element (.term (textAt r.o 1) false (spanTo (tokAt r.o 0) (tokAt r.o 1))) }, w)
  | .atomSt =>
    .ok ({ r with node := .element (.term (textAt r.o 0) false ((tokAt r.o 0).map spanOf)) }, w)
  | .atomNv =>
    match tokAt r.o 0 with
    | none => .ok (r, w)
    | some t => .ok ({ r with node := .element (.value (num t).1) }, w.record (num t).2)
  | .atomPv =>
    let text := ((textAt r.o 0).drop 1).dropLast
    .ok ({ r with node := .element (.prose text ((tokAt r.o 0).map spanOf)) }, w)
  | .atomTx => .ok ({ r with node := .element (.ref (textAt r.o 0) ((tokAt r.o 0).map spanOf)) }, w)
  | .atomLp => .ok ({ r with u := { r.u with groupKind := some .group, open_ := tokAt r.o 0 } }, w)
  | .atomOb => .ok ({ r with u := { r.u with groupKind := some .opt, open_ := tokAt r.o 0 } }, w)
  | .atomGroupClose =>
    .ok ({ r with node := .element (.group (childAlts r w) (spanTo r.u.open_ (tokAt r.c 0))) }, w)
  | .atomOptClose =>
    let bracket := spanTo r.u.open_ (tokAt r.c 0)
    .ok ({ r with node := .element (.opt (.group (childAlts r w) bracket) bracket) }, w)

/-- `AbnfRules` with its hooks, conditions and actions. -/
def grammar (maxInfinity : Int) (num : Tok → α × Option ε) :
    Grammar Kind RuleName CondRef ActRef Tok (Node α) Bag (World α ε) Empty where
  table := AbnfRules
  kind := kindOf
  blank := .nil
  bag := {}
  bo
  bc
  cond
  act := act maxInfinity num

/-! ## What a node stands for -/

/-- The bounds an action reads off a repeat. -/
def boundsOf (maxInfinity : Int) : Reps → Int × Int
  | .once => (1, 1)
  | .bounded n m => (atoi n.text, atoi m.text)
  | .atleast n => (atoi n.text, maxInfinity)
  | .atmost m => (0, atoi m.text)
  | .star => (0, maxInfinity)
  | .exact n => (atoi n.text, atoi n.text)

/-- The element under the repeat its bounds name; a hole is not wrapped. -/
def wrap (maxInfinity : Int) (r : Reps) : Elem α → Elem α
  | .hole => .hole
  | e => repeated maxInfinity (boundsOf maxInfinity r).1 (boundsOf maxInfinity r).2 e

def builder (maxInfinity : Int) (num : Tok → α × Option ε) : Builder α Int :=
  ⟨fun t => (num t).1, wrap maxInfinity⟩

theorem repeated_hasHole (maxInfinity min max : Int) (e : Elem α) :
    (repeated maxInfinity min max e).hasHole = e.hasHole := by
  unfold repeated
  repeat' split
  all_goals rfl

theorem builder_honest (maxInfinity : Int) (num : Tok → α × Option ε) :
    (builder maxInfinity num).Honest := by
  intro r e
  cases e <;> first | rfl | exact repeated_hasHole ..

/-- The node of an atom: nil for a hole. -/
def atomNode (B : Builder α Int) : CAtom → Node α
  | .hole => .nil
  | a => .element (B.atom a)

theorem AbnfRules_tabled (maxInfinity : Int) (num : Tok → α × Option ε) :
    Tabled (grammar maxInfinity num) := AbnfRules_pick

/-- The node points to the cell, made since `b`. -/
def PointsTo (b w : World α ε) (v : Node α) (c : Cell α) : Prop :=
  ∃ a, v = .ptr a ∧ b.cells.length ≤ a ∧ w.cells[a]? = some c

theorem PointsTo.deref {b w w' : World α ε} {v : Node α} {c : Cell α} (h : PointsTo b w v c)
    (hf : Extends w.cells w'.cells) : w'.deref v = some c := by
  obtain ⟨a, rfl, -, ha⟩ := h
  exact hf.get ha

/-- An update through a pointer to a cell made since `b` leaves what `b` holds. -/
theorem PointsTo.update {b w₀ w : World α ε} {v : Node α} {c : Cell α} (h : PointsTo b w₀ v c)
    (hb : Extends b.cells w.cells) (hf : Extends w₀.cells w.cells) (f : Cell α → Cell α) :
    (w.update v f).msg = w.msg ∧ Extends b.cells (w.update v f).cells ∧
      PointsTo b (w.update v f) v (f c) := by
  obtain ⟨a, rfl, hlo, ha⟩ := h
  exact ⟨rfl, extends_modify hb hlo, a, rfl, hlo, get_modify (hf.get ha)⟩

theorem pointsTo_new (w : World α ε) (c : Cell α) :
    Extends w.cells (w.new c).2.cells ∧ PointsTo w (w.new c).2 (w.new c).1 c :=
  ⟨extends_new _ _, _, rfl, le_rfl, get_new _ _⟩

theorem act_item {maxInfinity : Int} {num : Tok → α × Option ε} {r : Reps} {a : CAtom} {inst : Rule α}
    {w : World α ε} (hc : inst.child = some (atomNode (builder maxInfinity num) a))
    (hb : (inst.u.min, inst.u.max) = boundsOf maxInfinity r) :
    act maxInfinity num .elemClose inst w =
      .ok (inst, w.update inst.node (.addElement (wrap maxInfinity r ((builder maxInfinity num).atom a)))) := by
  have hmin : inst.u.min = (boundsOf maxInfinity r).1 := congrArg Prod.fst hb
  have hmax : inst.u.max = (boundsOf maxInfinity r).2 := congrArg Prod.snd hb
  cases a with
  | hole => simp only [act, hc, atomNode, Builder.atom, wrap]
  | leaf l => cases l <;> simp only [act, hc, atomNode, Builder.atom, Builder.leaf, wrap, hmin, hmax]
  | group g op cl as =>
    cases g <;> simp only [act, hc, atomNode, Builder.atom, bracket, wrap, hmin, hmax]

/-- The port's hooks and actions build the tree a reading names, in slices behind pointers. Nothing
ends the run but a token no alternate takes; the first value refused is recorded. -/
def discipline (maxInfinity : Int) (num : Tok → α × Option ε) (d₀ : Nat) :
    Discipline (grammar maxInfinity num) d₀ (Option ε) where
  stop := fun _ => false
  deep := fun _ => false
  Refused _ _ := False
  TooDeep _ := False
  record := World.msg
  note r t := r.or (num t).2
  Frame b w := Extends b.cells w.cells
  Prods b w v ps := PointsTo b w v (.productionList (ps.map (builder maxInfinity num).prod))
  Alts b w v as := PointsTo b w v (.alts ((builder maxInfinity num).alts as))
  Seq b w v es := PointsTo b w v (.seq ((builder maxInfinity num).seq es))
  Atom _ _ v a := v = atomNode (builder maxInfinity num) a
  Bounds u r := (u.min, u.max) = boundsOf maxInfinity r
  Named u k name := u.name = name.text ∧ u.nameTkn = some name ∧ u.incremental = decide (k = .inc)
  Opened u g t := u.groupKind = some g ∧ u.open_ = some t
  tabled := AbnfRules_tabled maxInfinity num
  frame_refl _ := .refl _
  frame_trans := Extends.trans
  atom_frame ha _ := ha
  bo_abnf := by
    rintro ⟨name, _, _, _, _, _, _, _⟩ w rfl
    exact ⟨_, _, rfl, rfl, pointsTo_new w _⟩
  bo_prod := by rintro ⟨name, _, _, _, _, _, _, _⟩ w rfl; rfl
  bo_alts := by
    rintro ⟨name, _, _, _, _, _, _, _⟩ w rfl
    exact ⟨_, _, rfl, rfl, pointsTo_new w _⟩
  bo_seq := by
    rintro ⟨name, _, _, _, _, _, _, _⟩ w rfl
    exact ⟨_, _, rfl, rfl, pointsTo_new w _⟩
  bo_elem := by rintro ⟨name, _, _, _, _, _, _, _⟩ w rfl; exact ⟨_, rfl, rfl⟩
  bo_atom := by
    rintro ⟨name, _, _, _, _, _, _, _⟩ w rfl
    exact ⟨_, _, rfl, rfl, .refl _, rfl⟩
  bc_none := by
    rintro ⟨name, _, _, _, _, _, _, _⟩ w ⟨h₁, h₂⟩
    cases name <;> first | rfl | exact absurd rfl h₁ | exact absurd rfl h₂
  bc_alts := by
    rintro ⟨name, v, _, _, _, _, _, _⟩ b w₀ w u as s rfl rfl hb has hf hs
    have hd := hs.deref (.refl _)
    refine ⟨w.update v (.addSeq ((builder maxInfinity num).seq s)),
      by simp only [grammar, bc, childCell, Option.bind_some, hd], ?_⟩
    simpa [Cell.addSeq, Builder.alts] using has.update hb hf (.addSeq _)
  bc_prod := by
    rintro ⟨name, v, ⟨_, _, _, _, _, _, _⟩, _, _, _, _, _⟩ b w₀ w u ps k n as rfl rfl hb ⟨rfl, rfl, rfl⟩ hps hf has
    have hd := has.deref (.refl _)
    refine ⟨w.update v (.addProduction ((builder maxInfinity num).prod ⟨k, n, as⟩)),
      by simp only [grammar, bc, childCell, Option.bind_some, hd]; rfl, ?_⟩
    simpa [Cell.addProduction] using hps.update hb hf (.addProduction _)
  act_head := by
    rintro ⟨_, _, _, _, _, _, _, _⟩ w k name d rfl rfl
    cases k <;> exact ⟨_, rfl, rfl, rfl, rfl⟩
  act_reps := by
    intro inst w a r hr
    obtain ⟨_, _, _, o, _, _, _, _⟩ := inst
    unfold repsSeen at hr
    split at hr <;> cases hr <;> (subst_vars; exact ⟨_, rfl, rfl⟩)
  act_elem := by
    rintro inst b w₀ w u es r a hc hb hbounds hes hf rfl
    let item := (builder maxInfinity num).wrap r ((builder maxInfinity num).atom a)
    refine ⟨w.update inst.node (.addElement item), act_item hc hbounds, ?_⟩
    simpa [Cell.addElement, Builder.seq] using hes.update hb hf (.addElement item)
  act_leaf := by
    rintro ⟨_, _, _, o, _, _, _, _⟩ b w a l hl hb
    unfold leafSeen at hl
    split at hl <;> (try split at hl) <;> cases hl <;> (subst_vars; exact ⟨_, w, rfl, rfl, .refl _, rfl⟩)
  act_refuse := by rintro _ _ _ _ _ ⟨⟩
  act_nv := by
    rintro ⟨_, _, _, _, _, _, _, _⟩ b w t rfl - - hb
    exact ⟨_, _, rfl, rfl, .refl _, rfl⟩
  act_deep := by rintro _ _ _ _ _ ⟨⟩
  act_open := by
    rintro ⟨_, _, _, _, _, _, _, _⟩ w g k t - - rfl
    cases g <;> exact ⟨_, rfl, rfl, rfl⟩
  cond_bag := by
    rintro ⟨_, _, _, _, _, _, _, _⟩ c rfl
    cases c <;> rfl
  cond_open := by
    rintro ⟨_, _, ⟨_, _, _, _, _, _, _⟩, _, _, _, _, _⟩ g t ⟨rfl, rfl⟩ c
    cases c <;> cases g <;> rfl
  act_close := by
    rintro ⟨_, _, ⟨_, _, _, _, _, _, _⟩, _, _, _, _, _⟩ b w₀ w u g op cl as ⟨rfl, rfl⟩ rfl rfl hb hf has
    have hd := has.deref (.refl _)
    refine ⟨_, w, ?_, rfl, .refl _, rfl⟩
    cases g <;> simp [grammar, act, closeAct, childAlts, childCell, hd, tokAt, atomNode, Builder.atom, bracket]

/-! ## The parse -/

abbrev Engine (α ε : Type) :=
  World α ε → List Tok → Outcome Tok (Node α) (World α ε) Empty

/-- The machine itself, as an engine. -/
def machine (maxInfinity : Int) (num : Tok → α × Option ε) (d₀ : Nat) : Engine α ε :=
  (grammar maxInfinity num).engine .abnf d₀ (discipline maxInfinity num d₀).halts

/-- `parseAbnfRaw`: the production list or the engine's error, with the first diagnostic recorded.
The recorder is new for each parse. -/
def parseAbnfRaw (engine : Engine α ε) (ts : List Tok) :
    Except (Option Tok) (Rules α Int) × Option ε :=
  match engine {} ts with
  | .done v w =>
    match w.deref v with
    | some (.productionList ps) => (.ok ps, w.msg)
    | _ => (.ok [], w.msg)
  | .unexpected t w => (.error t, w.msg)

/-- `parseAbnf`, with the check it ends with: the diagnostic comes before the engine's error. -/
def parseAbnf (engine : Engine α ε) (check : Check α Int ε) (ts : List Tok) : Except (Cause ε) (Rules α Int) :=
  match parseAbnfRaw engine ts with
  | (_, some e) => .error (.numeric e)
  | (.error t, none) => .error (.engine t)
  | (.ok ps, none) => checked check ps

/-- What the engine answers: the productions of the reading or its end, and the first diagnostic
among the values decoded. -/
theorem parseAbnfRaw_eq {maxInfinity : Int} {num : Tok → α × Option ε} {d₀ : Nat} {engine : Engine α ε}
    (he : (grammar maxInfinity num).Implements .abnf d₀ engine) (ts : List Tok) :
    parseAbnfRaw engine ts =
      (match (reading (fun _ => false) (fun _ => false) ts).res with
        | .ok ps => .ok (ps.map (builder maxInfinity num).prod)
        | .error (.unexpected t) => .error t
        | .error _ => .error none,
      (reading (fun _ => false) (fun _ => false) ts).log.findSome? fun t => (num t).2) := by
  let D := discipline maxInfinity num d₀
  obtain ⟨out, hy, hlog, hout⟩ := D.runs_top ts (w := {}) (fuelFor ts) (reading_ends _ _ ts)
  change out.world.msg = _ at hlog
  change out.world.msg = (reading (fun _ => false) (fun _ => false) ts).log.foldl
    (fun r t => r.or (num t).2) none at hlog
  rw [foldl_or, Option.none_or] at hlog
  rw [parseAbnfRaw, he {} ts out hy, ← hlog]
  -- no token stops the reader and no depth does, so that only an unexpected one is refused
  cases hx : (reading (fun _ => false) (fun _ => false) ts).res with
  | ok ps =>
    rw [show (readTop D.stop D.deep (fuelFor ts) ts).res = .ok ps from hx] at hout
    obtain ⟨v, hv, hps⟩ := hout
    cases out with
    | done v' w =>
      obtain ⟨rfl, -⟩ := Outcome.done.inj hv
      have hd : w.deref v' = some (.productionList (ps.map (builder maxInfinity num).prod)) :=
        PointsTo.deref hps (.refl _)
      simp only [hd]
      rfl
    | unexpected => cases hv
    | failed e => exact e.elim
  | error e =>
    rw [show (readTop D.stop D.deep (fuelFor ts) ts).res = .error e from hx] at hout
    cases e with
    | spent => exact absurd hx (reading_ends _ _ ts)
    | deep => exact absurd hx (reading_uncapped _ ts)
    | refused t => cases out <;> exact hout.elim
    | unexpected t =>
      cases out with
      | unexpected t' w => rw [show t = t' from hout]; rfl
      | done => exact hout.elim
      | failed e => exact e.elim

end TabnasAbnf.Meta.Go
