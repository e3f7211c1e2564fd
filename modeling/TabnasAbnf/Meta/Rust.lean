/-
The Rust port's hooks and actions over `GRAMMAR_TEXT`, and the parse they make. A rule's node is a
shared cell that holds a value; `set_node` rebinds the rule to a new cell and `push_node` writes
through the cell it has. A refused numeric value is recorded in a slot of the thread and the parse
carries on; brackets nested past `MAX_GROUP_DEPTH` end it.
-/
import TabnasAbnf.Meta.Ts

namespace TabnasAbnf.Meta.Rust

open TabnasAbnf.Engine TabnasAbnf.Base TabnasAbnf.Passes

variable {α ε : Type}

/-! ## Nodes -/

abbrev Elem (α : Type) := Element α JsNum

/-- The values of the parse, by the place they are built for. -/
inductive Value (α : Type)
  | undefined
  | productions (ps : List (Production (List (Elem α))))
  | alts (as : List (List (Elem α)))
  | seq (es : List (Elem α))
  | element (e : Elem α)

/-- The node cells made so far, the first of them the root's, and the slot `NUM_ERR` of the thread. -/
structure World (α ε : Type) where
  cells : Store (Value α) := [.undefined]
  numErr : Option ε := none

/-- The value in a cell. -/
def World.borrow (w : World α ε) (node : Nat) : Value α := w.cells[node]?.getD .undefined

structure Bag where
  name : Text := []
  nameSp : Option Span := none
  incremental : Bool := false
  min : JsNum := .fin 0
  max : JsNum := .fin 0
  groupKind : Option GroupKind := none
  openTkn : Option Span := none

abbrev Rule := Inst RuleName Tok Nat Bag

def set_node (r : Rule) (value : Value α) (w : World α ε) : Rule × World α ε :=
  ({ r with node := w.cells.length }, { w with cells := w.cells ++ [value] })

/-- A change to the value in a rule's cell, through the cell. -/
def borrow_mut (r : Rule) (f : Value α → Value α) (w : World α ε) : World α ε :=
  { w with cells := w.cells.modify r.node f }

def Value.push_production (p : Production (List (Elem α))) : Value α → Value α
  | .productions ps => .productions (ps ++ [p])
  | v => v

def Value.push_seq (s : List (Elem α)) : Value α → Value α
  | .alts as => .alts (as ++ [s])
  | v => v

def Value.push_element (e : Elem α) : Value α → Value α
  | .seq es => .seq (es ++ [e])
  | v => v

/-- What the node of the rule pushed last holds. -/
def child_node (r : Rule) (w : World α ε) : Value α := (r.child.map w.borrow).getD .undefined

/-- The first diagnostic of the parse is kept. -/
def record_num_err (e : ε) (w : World α ε) : World α ε :=
  { w with numErr := w.numErr.or (some e) }

/-- A count's digits as a number: rounded once, zero where there are none. -/
def count_of (src : Text) : JsNum :=
  match parseInt src 10 with
  | .nan => .fin 0
  | n => n

/-- A prose value without its angle brackets, or all of it where it has not both. -/
def strip_angles (source : Text) : Text :=
  match source with
  | '<' :: rest => if rest.getLast? = some '>' then rest.dropLast else source
  | _ => source

theorem strip_angles_eq {t : Tok} (hk : t.kind = .PV) : strip_angles t.text = (t.text.drop 1).dropLast := by
  obtain ⟨l, _, _, _, _⟩ := t
  cases l <;> cases hk
  simp [Tok.text, Lexeme.text, strip_angles]

def MAX_GROUP_DEPTH : Nat := 2048

/-- The refusal an action answers with. -/
inductive ActionError
  | abnf_group_depth
  deriving DecidableEq

/-! ## Hooks and actions -/

def bo (r : Rule) (w : World α ε) : Rule × World α ε :=
  match r.name with
  | .abnf => set_node r (.productions []) w
  | .alts => set_node r (.alts []) w
  | .seq => set_node r (.seq []) w
  | .elem => ({ r with u := { r.u with min := .fin 1, max := .fin 1 } }, w)
  | .atom => set_node r .undefined w
  | .prod => (r, w)

def bc (r : Rule) (w : World α ε) : Rule × World α ε :=
  match r.name with
  | .prod =>
    match child_node r w with
    | .alts as =>
      let prod := { name := r.u.name, alts := as, incremental := r.u.incremental, sp := r.u.nameSp }
      (r, borrow_mut r (.push_production prod) w)
    | _ => (r, w)
  | .alts =>
    match child_node r w with
    | .seq s => (r, borrow_mut r (.push_seq s) w)
    | _ => (r, w)
  | _ => (r, w)

def cond (c : CondRef) (r : Rule) : Bool :=
  match c with
  | .atomGroupC => r.u.groupKind = some .group
  | .atomOptC => r.u.groupKind = some .opt

/-- The item under the repeat its bounds name. -/
def repeated (min max : JsNum) (item : Elem α) : Elem α :=
  if min = .fin 1 ∧ max = .fin 1 then item
  else if min = .fin 0 ∧ max = .inf then .star item
  else if min = .fin 1 ∧ max = .inf then .plus item
  else if min = .fin 0 ∧ max = .fin 1 then .opt item none
  else .rep min max item

def withBounds (r : Rule) (min max : JsNum) : Rule := { r with u := { r.u with min, max } }

/-- The count in a place, zero where there is no token. -/
def countAt (o : List (Option Tok)) (i : Nat) : JsNum :=
  ((tokAt o i).map fun t => count_of t.text).getD (.fin 0)

/-- `@prod-name` and its siblings: nothing where there is no token. -/
def prod_name (r : Rule) (incremental : Bool) : Rule :=
  match tokAt r.o 0 with
  | none => r
  | some t => { r with u := { r.u with name := t.text, nameSp := some (spanOf t), incremental } }

def open_group (r : Rule) (kind : GroupKind) (w : World α ε) :
    Except ActionError (Rule × World α ε) :=
  if MAX_GROUP_DEPTH < r.d then .error .abnf_group_depth
  else .ok ({ r with u := { r.u with groupKind := some kind, openTkn := (tokAt r.o 0).map spanOf } }, w)

/-- The span from a remembered bracket to the closing one. -/
def group_span (r : Rule) : Option Span :=
  match r.u.openTkn, (tokAt r.c 0).map spanOf with
  | some o, some c => some ⟨o.s, c.e, o.r, o.c⟩
  | some o, none => some o
  | none, c => c

/-- The alternatives a bracket closes on. -/
def child_alts (r : Rule) (w : World α ε) : List (List (Elem α)) :=
  match child_node r w with
  | .alts as => as
  | _ => []

def act (num : Tok → α × Option ε) (a : ActRef) (r : Rule) (w : World α ε) :
    Except ActionError (Rule × World α ε) :=
  match a with
  | .prodName | .prodNameProse => .ok (prod_name r false, w)
  | .prodNameInc => .ok (prod_name r true, w)
  | .elemRepBounded => .ok (withBounds r (countAt r.o 0) (countAt r.o 2), w)
  | .elemRepAtleast => .ok (withBounds r (countAt r.o 0) .inf, w)
  | .elemRepAtmost => .ok (withBounds r (.fin 0) (countAt r.o 1), w)
  | .elemRepStar => .ok (withBounds r (.fin 0) .inf, w)
  | .elemRepExact => .ok (withBounds r (countAt r.o 0) (countAt r.o 0), w)
  | .elemClose =>
    match child_node r w with
    | .element item => .ok (r, borrow_mut r (.push_element (repeated r.u.min r.u.max item)) w)
    | _ => .ok (r, borrow_mut r (.push_element .hole) w)
  | .atomSs =>
    match tokAt r.o 0, tokAt r.o 1 with
    | some p, some t => .ok (set_node r (.element (.term t.text true (spanTo (some p) (some t)))) w)
    | _, _ => .ok (r, w)
  | .atomSi =>
    match tokAt r.o 0, tokAt r.o 1 with
    | some p, some t => .ok (set_node r (.element (.term t.text false (spanTo (some p) (some t)))) w)
    | _, _ => .ok (r, w)
  | .atomSt =>
    match tokAt r.o 0 with
    | some t => .ok (set_node r (.element (.term t.text false (some (spanOf t)))) w)
    | none => .ok (r, w)
  | .atomNv =>
    match tokAt r.o 0 with
    | some t =>
      let w := match (num t).2 with
        | some e => record_num_err e w
        | none => w
      .ok (set_node r (.element (.value (num t).1)) w)
    | none => .ok (r, w)
  | .atomPv =>
    match tokAt r.o 0 with
    | some t => .ok (set_node r (.element (.prose (strip_angles t.text) (some (spanOf t)))) w)
    | none => .ok (r, w)
  | .atomTx =>
    match tokAt r.o 0 with
    | some t => .ok (set_node r (.element (.ref t.text (some (spanOf t)))) w)
    | none => .ok (r, w)
  | .atomLp => open_group r .group w
  | .atomOb => open_group r .opt w
  | .atomGroupClose => .ok (set_node r (.element (.group (child_alts r w) (group_span r))) w)
  | .atomOptClose =>
    .ok (set_node r (.element (.opt (.group (child_alts r w) (group_span r)) (group_span r))) w)

/-- `GRAMMAR_TEXT` with its hooks, conditions and actions. -/
def grammar (num : Tok → α × Option ε) :
    Grammar Kind RuleName CondRef ActRef Tok Nat Bag (World α ε) ActionError where
  table := GRAMMAR_TEXT
  kind := kindOf
  blank := 0
  bag := {}
  bo
  bc
  cond
  act := act num

/-! ## What a cell stands for -/

/-- The bounds an action reads off a repeat. -/
def boundsOf : Reps → JsNum × JsNum
  | .once => (.fin 1, .fin 1)
  | .bounded n m => (count_of n.text, count_of m.text)
  | .atleast n => (count_of n.text, .inf)
  | .atmost m => (.fin 0, count_of m.text)
  | .star => (.fin 0, .inf)
  | .exact n => (count_of n.text, count_of n.text)

/-- The element under the repeat its bounds name; a hole is not wrapped. -/
def wrap (r : Reps) : Elem α → Elem α
  | .hole => .hole
  | e => repeated (boundsOf r).1 (boundsOf r).2 e

def builder (num : Tok → α × Option ε) : Builder α JsNum := ⟨fun t => (num t).1, wrap⟩

theorem repeated_hasHole (min max : JsNum) (e : Elem α) : (repeated min max e).hasHole = e.hasHole := by
  unfold repeated
  repeat' split
  all_goals rfl

theorem builder_honest (num : Tok → α × Option ε) : (builder num).Honest := by
  intro r e
  cases e <;> first | rfl | exact repeated_hasHole ..

/-- The value of an atom: undefined for a hole. -/
def atomValue (B : Builder α JsNum) : CAtom → Value α
  | .hole => .undefined
  | a => .element (B.atom a)

theorem GRAMMAR_TEXT_tabled (num : Tok → α × Option ε) : Tabled (grammar num) := by
  intro _ _ _ _
  rw [show (grammar num).table = GRAMMAR_TEXT from rfl, GRAMMAR_TEXT_eq]
  rfl

/-- The cell, made since `b`, holds the value. -/
def Holds (b w : World α ε) (node : Nat) (v : Value α) : Prop :=
  b.cells.length ≤ node ∧ w.cells[node]? = some v

theorem Holds.borrow {b w w' : World α ε} {node : Nat} {v : Value α} (h : Holds b w node v)
    (hf : Extends w.cells w'.cells) : w'.borrow node = v := by
  rw [World.borrow, hf.get h.2, Option.getD_some]

/-- A change through a cell made since `b` leaves what `b` holds. -/
theorem Holds.update {b w₀ w : World α ε} {r : Rule} {v : Value α} (h : Holds b w₀ r.node v)
    (hb : Extends b.cells w.cells) (hf : Extends w₀.cells w.cells) (f : Value α → Value α) :
    (borrow_mut r f w).numErr = w.numErr ∧ Extends b.cells (borrow_mut r f w).cells ∧
      Holds b (borrow_mut r f w) r.node (f v) :=
  ⟨rfl, extends_modify hb h.1, h.1, get_modify (hf.get h.2)⟩

/-- A rule rebound to a new cell leaves every cell there was. -/
theorem holds_set {b w : World α ε} (r : Rule) (v : Value α) (hb : b.cells.length ≤ w.cells.length) :
    Extends w.cells (set_node r v w).2.cells ∧ Holds b (set_node r v w).2 (set_node r v w).1.node v :=
  ⟨extends_new _ _, hb, get_new _ _⟩

theorem record_num_err_eq (w : World α ε) (x : Option ε) :
    (match x with
      | some e => record_num_err e w
      | none => w) = { w with numErr := w.numErr.or x } := by
  cases x <;> simp [record_num_err]

theorem act_item {num : Tok → α × Option ε} {r : Reps} {a : CAtom} {inst : Rule} {w : World α ε}
    (hc : child_node inst w = atomValue (builder num) a) (hb : (inst.u.min, inst.u.max) = boundsOf r) :
    act num .elemClose inst w =
      .ok (inst, borrow_mut inst (.push_element (wrap r ((builder num).atom a))) w) := by
  have hmin : inst.u.min = (boundsOf r).1 := congrArg Prod.fst hb
  have hmax : inst.u.max = (boundsOf r).2 := congrArg Prod.snd hb
  cases a with
  | hole => simp only [act, hc, atomValue, Builder.atom, wrap]
  | leaf l => cases l <;> simp only [act, hc, atomValue, Builder.atom, Builder.leaf, wrap, hmin, hmax]
  | group g op cl as =>
    cases g <;> simp only [act, hc, atomValue, Builder.atom, bracket, wrap, hmin, hmax]

/-- Whether an atom `k` levels down is past the cap, its root `d₀` deep. -/
def tooDeep (d₀ k : Nat) : Bool := decide (MAX_GROUP_DEPTH < d₀ + 5 + 4 * k)

theorem group_span_eq {inst : Rule} {op cl : Tok} (ho : inst.u.openTkn = some (spanOf op))
    (hc : inst.c = [some cl]) : group_span inst = spanTo (some op) (some cl) := by
  simp [group_span, ho, hc, tokAt, spanTo]

/-- The port's hooks and actions build the tree a reading names, in values copied out of cells. A
bracket past the cap ends the run; the first value refused is recorded. -/
def discipline (num : Tok → α × Option ε) (d₀ : Nat) :
    Discipline (grammar num) d₀ (Option ε) where
  stop := fun _ => false
  deep := tooDeep d₀
  Refused _ _ := False
  TooDeep _ := True
  record := World.numErr
  note r t := r.or (num t).2
  Frame b w := Extends b.cells w.cells
  Prods b w v ps := Holds b w v (.productions (ps.map (builder num).prod))
  Alts b w v as := Holds b w v (.alts ((builder num).alts as))
  Seq b w v es := Holds b w v (.seq ((builder num).seq es))
  Atom b w v a := w.cells[v]? = some (atomValue (builder num) a)
  Bounds u r := (u.min, u.max) = boundsOf r
  Named u k name := u.name = name.text ∧ u.nameSp = some (spanOf name) ∧
    u.incremental = decide (k = .inc)
  Opened u g t := u.groupKind = some g ∧ u.openTkn = some (spanOf t)
  tabled := GRAMMAR_TEXT_tabled num
  frame_refl _ := .refl _
  frame_trans := Extends.trans
  atom_frame ha hf := hf.get ha
  bo_abnf := by
    intro inst w hn
    have hbo : bo inst w = set_node inst (.productions []) w := by simp only [bo, hn]
    exact ⟨_, _, hbo, rfl, holds_set inst _ le_rfl⟩
  bo_prod := by rintro ⟨name, _, _, _, _, _, _, _⟩ w rfl; rfl
  bo_alts := by
    intro inst w hn
    have hbo : bo inst w = set_node inst (.alts []) w := by simp only [bo, hn]
    exact ⟨_, _, hbo, rfl, holds_set inst _ le_rfl⟩
  bo_seq := by
    intro inst w hn
    have hbo : bo inst w = set_node inst (.seq []) w := by simp only [bo, hn]
    exact ⟨_, _, hbo, rfl, holds_set inst _ le_rfl⟩
  bo_elem := by rintro ⟨name, _, _, _, _, _, _, _⟩ w rfl; exact ⟨_, rfl, rfl⟩
  bo_atom := by
    rintro ⟨name, _, _, _, _, _, _, _⟩ w rfl
    exact ⟨_, _, rfl, rfl, extends_new _ _, get_new _ _⟩
  bc_none := by
    rintro ⟨name, _, _, _, _, _, _, _⟩ w ⟨h₁, h₂⟩
    cases name <;> first | rfl | exact absurd rfl h₁ | exact absurd rfl h₂
  bc_alts := by
    rintro inst b w₀ w u as s hn hc hb has hf hs
    have hd : child_node inst w = .seq ((builder num).seq s) := by
      rw [child_node, hc]; exact hs.borrow (.refl _)
    refine ⟨borrow_mut inst (.push_seq ((builder num).seq s)) w, by simp only [grammar, bc, hn, hd], ?_⟩
    simpa [Value.push_seq, Builder.alts] using has.update hb hf (.push_seq _)
  bc_prod := by
    rintro inst b w₀ w u ps k n as hn hc hb ⟨hname, hsp, hinc⟩ hps hf has
    have hd : child_node inst w = .alts ((builder num).alts as) := by
      rw [child_node, hc]; exact has.borrow (.refl _)
    refine ⟨borrow_mut inst (.push_production ((builder num).prod ⟨k, n, as⟩)) w,
      by simp only [grammar, bc, hn, hd, hname, hsp, hinc]; rfl, ?_⟩
    simpa [Value.push_production] using hps.update hb hf (.push_production _)
  act_head := by
    rintro ⟨_, _, _, _, _, _, _, _⟩ w k name d rfl rfl
    cases k <;> exact ⟨_, rfl, rfl, rfl, rfl⟩
  act_reps := by
    intro inst w a r hr
    obtain ⟨_, _, _, o, _, _, _, _⟩ := inst
    unfold repsSeen at hr
    split at hr <;> cases hr <;> (subst_vars; exact ⟨_, rfl, rfl⟩)
  act_elem := by
    rintro inst b w₀ w u es r a hc hb hbounds hes hf ha
    have hd : child_node inst w = atomValue (builder num) a := by
      rw [child_node, hc, Option.map_some, World.borrow, ha]; rfl
    let item := (builder num).wrap r ((builder num).atom a)
    refine ⟨borrow_mut inst (.push_element item) w, act_item hd hbounds, ?_⟩
    simpa [Value.push_element, Builder.seq] using hes.update hb hf (.push_element item)
  act_leaf := by
    rintro inst b w a l hl hb
    obtain ⟨_, _, _, o, _, _, _, _⟩ := inst
    refine ⟨w.cells.length, { w with cells := w.cells ++ [.element ((builder num).leaf l)] }, ?_, rfl,
      extends_new _ _, get_new _ _⟩
    unfold leafSeen at hl
    split at hl
    case h_4 t ho =>
      split at hl <;> cases hl
      rename_i hk
      subst ho
      change Except.ok (set_node _ (.element (.prose (strip_angles t.text) (some (spanOf t)))) w) = _
      rw [strip_angles_eq hk]
      rfl
    all_goals cases hl <;> subst_vars <;> rfl
  act_refuse := by rintro _ _ _ _ _ ⟨⟩
  act_nv := by
    rintro ⟨_, _, _, _, _, _, _, _⟩ b w t rfl - - hb
    refine ⟨w.cells.length,
      ⟨w.cells ++ [.element (.value (num t).1)], w.numErr.or (num t).2⟩, ?_, rfl, extends_new _ _, get_new _ _⟩
    change Except.ok (set_node _ _ (match (num t).2 with
      | some e => record_num_err e w
      | none => w)) = _
    rw [record_num_err_eq]
    rfl
  act_deep := by
    rintro inst w g k hd hk
    have hlt : MAX_GROUP_DEPTH < inst.d := by rw [hd]; exact of_decide_eq_true hk
    exact ⟨.abnf_group_depth, by cases g <;> exact if_pos hlt, trivial⟩
  act_open := by
    rintro inst w g k t hd hk ho
    have hlt : ¬ MAX_GROUP_DEPTH < inst.d := by rw [hd]; exact of_decide_eq_false hk
    have hopen : open_group inst g w = .ok ({ inst with
        u := { inst.u with groupKind := some g, openTkn := some (spanOf t) } }, w) := by
      rw [open_group, if_neg hlt, ho]; rfl
    exact ⟨{ inst.u with groupKind := some g, openTkn := some (spanOf t) },
      by cases g <;> exact hopen, rfl, rfl⟩
  cond_bag := by
    rintro ⟨_, _, _, _, _, _, _, _⟩ c rfl
    cases c <;> rfl
  cond_open := by
    rintro ⟨_, _, ⟨_, _, _, _, _, _, _⟩, _, _, _, _, _⟩ g t ⟨rfl, rfl⟩ c
    cases c <;> cases g <;> rfl
  act_close := by
    rintro inst b w₀ w u g op cl as ⟨-, hop⟩ hcl hc hb hf has
    have hd : child_alts inst w = (builder num).alts as := by
      rw [child_alts, child_node, hc, Option.map_some, has.borrow (.refl _)]
      rfl
    refine ⟨w.cells.length, { w with cells := w.cells ++ [atomValue (builder num) (.group g op cl as)] },
      ?_, rfl, extends_new _ _, get_new _ _⟩
    cases g <;> simp [grammar, act, closeAct, hd, group_span_eq hop hcl, set_node, atomValue, Builder.atom, bracket]

/-! ## The parse -/

abbrev Engine (α ε : Type) :=
  World α ε → List Tok → Outcome Tok Nat (World α ε) ActionError

/-- The machine itself, as an engine. -/
def machine (num : Tok → α × Option ε) (d₀ : Nat) : Engine α ε :=
  (grammar num).engine .abnf d₀ (discipline num d₀).halts

/-- `RawError`. -/
inductive RawError (ε : Type)
  | engine (at_ : Option Tok)
  | depth
  | numeric (e : ε)

/-- `parse_abnf_raw`, with what the slot holds before and after it: the slot is cleared before the
parse and taken after it, whether the parse ends well or not. -/
def parse_abnf_raw (engine : Engine α ε) (slot : Option ε) (ts : List Tok) :
    Except (RawError ε) (Rules α JsNum × Option ε) × Option ε :=
  let clear_num_err : World α ε := { ({ numErr := slot } : World α ε) with numErr := none }
  let parsed := engine clear_num_err ts
  let num_err := parsed.world.numErr
  (match parsed with
    | .done v w =>
      match w.borrow v with
      | .productions ps => .ok (ps, num_err)
      | _ => .ok ([], num_err)
    | .unexpected t _ => .error ((num_err.map .numeric).getD (.engine t))
    | .failed .abnf_group_depth _ => .error ((num_err.map .numeric).getD .depth),
   none)

/-- What the engine answers: the productions of the reading or its end, and the first diagnostic
among the values decoded, whatever the slot held before. -/
theorem parse_abnf_raw_eq {num : Tok → α × Option ε} {d₀ : Nat} {engine : Engine α ε}
    (he : (grammar num).Implements .abnf d₀ engine) (slot : Option ε) (ts : List Tok) :
    parse_abnf_raw engine slot ts =
      (let x := reading (fun _ => false) (tooDeep d₀) ts
       let num_err := x.log.findSome? fun t => (num t).2
       match x.res with
        | .ok ps => .ok (ps.map (builder num).prod, num_err)
        | .error (.unexpected t) => .error ((num_err.map .numeric).getD (.engine t))
        | .error _ => .error ((num_err.map .numeric).getD .depth),
      none) := by
  let D := discipline num d₀
  -- the engine yields what the run of its grammar does, which the reader says
  obtain ⟨out, hy, hlog, hout⟩ := D.runs_top ts (w := {}) (fuelFor ts) (reading_ends _ _ ts)
  change out.world.numErr = (reading (fun _ => false) (tooDeep d₀) ts).log.foldl
    (fun r t => r.or (num t).2) none at hlog
  rw [foldl_or, Option.none_or] at hlog
  simp only [parse_abnf_raw, he {} ts out hy, ← hlog]
  cases hx : (reading (fun _ => false) (tooDeep d₀) ts).res with
  | ok ps =>
    rw [show (readTop D.stop D.deep (fuelFor ts) ts).res = .ok ps from hx] at hout
    obtain ⟨v, hv, hps⟩ := hout
    cases out with
    | done v' w =>
      obtain ⟨rfl, -⟩ := Outcome.done.inj hv
      have hd : w.borrow v' = .productions (ps.map (builder num).prod) := Holds.borrow hps (.refl _)
      simp only [hd]
    | unexpected => cases hv
    | failed => cases hv
  | error e =>
    rw [show (readTop D.stop D.deep (fuelFor ts) ts).res = .error e from hx] at hout
    cases e with
    | spent => exact absurd hx (reading_ends _ _ ts)
    | refused t => cases out <;> exact hout.elim
    | deep =>
      cases out with
      | failed e w => rfl
      | done => exact hout.elim
      | unexpected => exact hout.elim
    | unexpected t =>
      cases out with
      | unexpected t' w => rw [show t = t' from hout]
      | done => exact hout.elim
      | failed => exact hout.elim

/-- `parse_abnf`, with the check it ends with. A list without productions is refused before the
diagnostic is looked at. -/
def parse_abnf (engine : Engine α ε) (check : Check α JsNum ε) (slot : Option ε) (ts : List Tok) :
    Except (Cause ε) (Rules α JsNum) × Option ε :=
  let (raw, slot) := parse_abnf_raw engine slot ts
  (match raw with
    | .error (.numeric e) => .error (.numeric e)
    | .error .depth => .error .depth
    | .error (.engine t) => .error (.engine t)
    | .ok (ps, num_err) =>
      if ps.isEmpty then .error .noProductions
      else
        match num_err with
        | some e => .error (.numeric e)
        | none => check ps,
   slot)

end TabnasAbnf.Meta.Rust
