/-
A push-down machine over rule tables: every rule has alternates to open with and alternates to
close with, tried in order against a few tokens of lookahead; the alternate taken runs an action,
gives tokens back, and pushes a rule, replaces its own rule, or lets the rule go on. A pushed or
replacing rule starts from the node of the rule it came from, so nodes are shared the way the
tables' actions share them: by reference, through `World`.

The machine is stated as a step function and a run relation. An engine is whatever agrees with
the run relation on a table (`Implements`).
-/
import Mathlib.Logic.Relation
import Mathlib.Data.List.Basic
import Mathlib.Data.Nat.Find

namespace TabnasAbnf.Engine

/-! ## Tables -/

/-- An alternate: the kinds of token each place admits, how many tokens it gives back, the rule
it pushes or replaces its own with, its condition and its action. -/
structure Alt (Kind Rule Cond Act : Type) where
  s : List (List Kind) := []
  b : Nat := 0
  p : Option Rule := none
  r : Option Rule := none
  c : Option Cond := none
  a : Option Act := none
  deriving DecidableEq

structure RuleSpec (Kind Rule Cond Act : Type) where
  opens : List (Alt Kind Rule Cond Act)
  closes : List (Alt Kind Rule Cond Act)

/-- Whether a rule is being opened or closed. -/
inductive Phase
  | opening
  | closing
  deriving DecidableEq, Repr

def RuleSpec.alts {Kind Rule Cond Act : Type} (spec : RuleSpec Kind Rule Cond Act) :
    Phase → List (Alt Kind Rule Cond Act)
  | .opening => spec.opens
  | .closing => spec.closes

/-- A rule at work: its node, its scratch bag, the tokens its open and close alternates matched
(`none` stands for the end of the source), the node of the rule it pushed last, and its depth.
A replacing rule is not `pushed`: the rule below keeps the node of the one that was. -/
structure Inst (Rule Tok Node Bag : Type) where
  name : Rule
  node : Node
  u : Bag
  o : List (Option Tok) := []
  c : List (Option Tok) := []
  child : Option Node := none
  d : Nat
  pushed : Bool := true

/-- A rule table with what its names mean: the kinds of tokens, the hooks run before a rule opens
and before it closes, the conditions and the actions. An action may fail, which ends the run. -/
structure Grammar (Kind Rule Cond Act Tok Node Bag World Err : Type) where
  table : Rule → RuleSpec Kind Rule Cond Act
  kind : Option Tok → Kind
  blank : Node
  bag : Bag
  bo : Inst Rule Tok Node Bag → World → Inst Rule Tok Node Bag × World
  bc : Inst Rule Tok Node Bag → World → Inst Rule Tok Node Bag × World
  cond : Cond → Inst Rule Tok Node Bag → Bool
  act : Act → Inst Rule Tok Node Bag → World → Except Err (Inst Rule Tok Node Bag × World)

/-- The machine between two steps. -/
structure Cfg (Rule Tok Node Bag World : Type) where
  inst : Inst Rule Tok Node Bag
  phase : Phase
  stack : List (Inst Rule Tok Node Bag)
  toks : List Tok
  world : World

/-- How a run ends: with the start rule's node, at a token no alternate takes, or in an action. -/
inductive Outcome (Tok Node World Err : Type)
  | done (node : Node) (w : World)
  | unexpected (at_ : Option Tok) (w : World)
  | failed (e : Err) (w : World)

def Outcome.world {Tok Node World Err : Type} : Outcome Tok Node World Err → World
  | .done _ w | .unexpected _ w | .failed _ w => w

variable {Kind Rule Cond Act Tok Node Bag World Err : Type} [DecidableEq Kind]

/-! ## One step -/

/-- Whether the tokens ahead fit the places of a pattern; past the last token lies the end. -/
def fits (kind : Option Tok → Kind) : List (List Kind) → List Tok → Bool
  | [], _ => true
  | slot :: s, toks => slot.contains (kind toks.head?) && fits kind s toks.tail

@[simp] theorem fits_nil (kind : Option Tok → Kind) (toks : List Tok) : fits kind [] toks = true := rfl

/-- The first `n` tokens ahead. -/
def ahead : Nat → List Tok → List (Option Tok)
  | 0, _ => []
  | n + 1, toks => toks.head? :: ahead n toks.tail

namespace Grammar

variable (G : Grammar Kind Rule Cond Act Tok Node Bag World Err)

/-- The first alternate whose pattern fits and whose condition holds. -/
def select (alts : List (Alt Kind Rule Cond Act)) (inst : Inst Rule Tok Node Bag)
    (toks : List Tok) : Option (Alt Kind Rule Cond Act) :=
  alts.find? fun alt => fits G.kind alt.s toks && alt.c.all (G.cond · inst)

def hook : Phase → Inst Rule Tok Node Bag → World → Inst Rule Tok Node Bag × World
  | .opening => G.bo
  | .closing => G.bc

def runAct : Option Act → Inst Rule Tok Node Bag → World → Except Err (Inst Rule Tok Node Bag × World)
  | none, inst, w => .ok (inst, w)
  | some a, inst, w => G.act a inst w

/-- A rule started by `from_`: it has the node of that rule and a bag of its own. -/
def spawn (name : Rule) (from_ : Inst Rule Tok Node Bag) (d : Nat) (pushed : Bool) :
    Inst Rule Tok Node Bag :=
  { name, node := from_.node, u := G.bag, d, pushed }

/-- The tokens an alternate matched, kept on the rule. -/
def seen (phase : Phase) (n : Nat) (inst : Inst Rule Tok Node Bag) (toks : List Tok) :
    Inst Rule Tok Node Bag :=
  match phase with
  | .opening => { inst with o := ahead n toks }
  | .closing => { inst with c := ahead n toks }

/-- The rule below a finished one: it sees the node of the rule it pushed. -/
def resume (below inst : Inst Rule Tok Node Bag) : Inst Rule Tok Node Bag :=
  if inst.pushed then { below with child := some inst.node } else below

/-- Where the run goes once an alternate's action has run. -/
def move (phase : Phase) (alt : Alt Kind Rule Cond Act) (inst : Inst Rule Tok Node Bag)
    (stack : List (Inst Rule Tok Node Bag)) (toks : List Tok) (w : World) :
    Cfg Rule Tok Node Bag World ⊕ Outcome Tok Node World Err :=
  match alt.p, alt.r, phase with
  | some q, _, _ => .inl ⟨G.spawn q inst (inst.d + 1) true, .opening, inst :: stack, toks, w⟩
  | none, some q, _ =>
    .inl ⟨G.spawn q inst inst.d false, .opening, match stack with
      | [] => []
      | below :: stack => resume below inst :: stack, toks, w⟩
  | none, none, .opening => .inl ⟨inst, .closing, stack, toks, w⟩
  | none, none, .closing =>
    match stack with
    | below :: stack => .inl ⟨resume below inst, .closing, stack, toks, w⟩
    | [] => .inr (if toks.isEmpty then .done inst.node w else .unexpected toks.head? w)

/-- One step: the hook of the phase, the first alternate that matches, its action, and the move
it asks for. -/
def step (σ : Cfg Rule Tok Node Bag World) : Cfg Rule Tok Node Bag World ⊕ Outcome Tok Node World Err :=
  let (inst, w) := G.hook σ.phase σ.inst σ.world
  match G.select ((G.table inst.name).alts σ.phase) inst σ.toks with
  | none => .inr (.unexpected σ.toks.head? w)
  | some alt =>
    match G.runAct alt.a (seen σ.phase alt.s.length inst σ.toks) w with
    | .error e => .inr (.failed e w)
    | .ok (inst, w) => G.move σ.phase alt inst σ.stack (σ.toks.drop (alt.s.length - alt.b)) w

/-! ## Runs -/

def Next (σ τ : Cfg Rule Tok Node Bag World) : Prop := G.step σ = .inl τ

/-- Any number of steps. -/
def Steps : Cfg Rule Tok Node Bag World → Cfg Rule Tok Node Bag World → Prop :=
  Relation.ReflTransGen G.Next

/-- The run from `σ` ends with `out`. -/
def Yields (σ : Cfg Rule Tok Node Bag World) (out : Outcome Tok Node World Err) : Prop :=
  ∃ τ, G.Steps σ τ ∧ G.step τ = .inr out

/-- The machine at the start rule, which is `d` deep. -/
def start (root : Rule) (d : Nat) (w : World) (toks : List Tok) : Cfg Rule Tok Node Bag World :=
  ⟨{ name := root, node := G.blank, u := G.bag, d }, .opening, [], toks, w⟩

/-- The same run with its steps counted. -/
def run : Nat → Cfg Rule Tok Node Bag World → Option (Outcome Tok Node World Err)
  | 0, _ => none
  | n + 1, σ =>
    match G.step σ with
    | .inl τ => run n τ
    | .inr out => some out

/-- An engine for a table: on every source where the run ends, it answers what the run does. -/
def Implements (root : Rule) (d : Nat) (parse : World → List Tok → Outcome Tok Node World Err) : Prop :=
  ∀ w toks out, G.Yields (G.start root d w toks) out → parse w toks = out

variable {G}

theorem Steps.refl (σ : Cfg Rule Tok Node Bag World) : G.Steps σ σ := Relation.ReflTransGen.refl

theorem Steps.trans {σ τ υ : Cfg Rule Tok Node Bag World} (h : G.Steps σ τ) (h' : G.Steps τ υ) :
    G.Steps σ υ := Relation.ReflTransGen.trans h h'

theorem Steps.of_step {σ τ : Cfg Rule Tok Node Bag World} (h : G.step σ = .inl τ) : G.Steps σ τ :=
  Relation.ReflTransGen.single h

theorem Steps.yields {σ τ : Cfg Rule Tok Node Bag World} {out : Outcome Tok Node World Err}
    (h : G.Steps σ τ) (h' : G.Yields τ out) : G.Yields σ out := by
  obtain ⟨υ, hs, ho⟩ := h'
  exact ⟨υ, h.trans hs, ho⟩

theorem Yields.of_step {σ : Cfg Rule Tok Node Bag World} {out : Outcome Tok Node World Err}
    (h : G.step σ = .inr out) : G.Yields σ out := ⟨σ, .refl σ, h⟩

/-- A run ends in one way only. -/
theorem Yields.unique {σ : Cfg Rule Tok Node Bag World} {o₁ o₂ : Outcome Tok Node World Err}
    (h₁ : G.Yields σ o₁) (h₂ : G.Yields σ o₂) : o₁ = o₂ := by
  obtain ⟨τ, hs, ho⟩ := h₁
  induction hs using Relation.ReflTransGen.head_induction_on with
  | refl =>
    obtain ⟨υ, hs', ho'⟩ := h₂
    rcases Relation.ReflTransGen.cases_head hs' with rfl | ⟨ρ, hρ, -⟩
    · exact Sum.inr.inj (ho.symm.trans ho')
    · rw [Next, ho] at hρ; cases hρ
  | head hn _ ih =>
    obtain ⟨υ, hs', ho'⟩ := h₂
    rcases Relation.ReflTransGen.cases_head hs' with rfl | ⟨ρ, hρ, hs''⟩
    · rw [Next, ho'] at hn; cases hn
    · rw [Next] at hn hρ
      rw [hn] at hρ; cases hρ
      exact ih ⟨υ, hs'', ho'⟩

theorem run_yields {n : Nat} {σ : Cfg Rule Tok Node Bag World} {out : Outcome Tok Node World Err}
    (h : G.run n σ = some out) : G.Yields σ out := by
  induction n generalizing σ with
  | zero => cases h
  | succ n ih =>
    rw [run] at h
    cases hs : G.step σ with
    | inl τ => rw [hs] at h; exact (Steps.of_step hs).yields (ih h)
    | inr o => rw [hs] at h; cases h; exact .of_step hs

theorem yields_run {σ : Cfg Rule Tok Node Bag World} {out : Outcome Tok Node World Err}
    (h : G.Yields σ out) : ∃ n, G.run n σ = some out := by
  obtain ⟨τ, hs, ho⟩ := h
  induction hs using Relation.ReflTransGen.head_induction_on with
  | refl => exact ⟨1, by simp [run, ho]⟩
  | head hn _ ih =>
    obtain ⟨n, hn'⟩ := ih
    exact ⟨n + 1, by rw [run, show G.step _ = _ from hn]; exact hn'⟩

/-! ## The machine as an engine -/

variable (G)

/-- Every run from the start ends. -/
def Halts (root : Rule) (d : Nat) : Prop :=
  ∀ w toks, ∃ n, (G.run n (G.start root d w toks)).isSome = true

/-- An engine for a table whose runs all end: it runs the machine until it has ended. -/
def engine (root : Rule) (d : Nat) (h : G.Halts root d) (w : World) (toks : List Tok) : Outcome Tok Node World Err :=
  (G.run (Nat.find (h w toks)) (G.start root d w toks)).get (Nat.find_spec (h w toks))

theorem engine_implements (root : Rule) (d : Nat) (h : G.Halts root d) :
    G.Implements root d (G.engine root d h) := fun _ _ _ hy =>
  Yields.unique (run_yields (Option.some_get _).symm) hy

end Grammar

/-! ## What an alternate asks for -/

/-- An alternate without its pattern: the rule it pushes, the rule it replaces its own with, its
action with the number of tokens the action sees, and the number of tokens it takes. -/
structure Ask (Rule Act : Type) where
  p : Option Rule := none
  r : Option Rule := none
  a : Option (Act × Nat) := none
  take : Nat := 0
  deriving DecidableEq

def Alt.ask (alt : Alt Kind Rule Cond Act) : Ask Rule Act :=
  ⟨alt.p, alt.r, alt.a.map (·, alt.s.length), alt.s.length - alt.b⟩

/-- The first alternate whose pattern fits the tokens ahead and whose condition holds. -/
def pick (kind : Option Tok → Kind) (cond : Cond → Bool) (alts : List (Alt Kind Rule Cond Act))
    (toks : List Tok) : Option (Alt Kind Rule Cond Act) :=
  alts.find? fun alt => fits kind alt.s toks && alt.c.all cond

namespace Grammar

variable (G : Grammar Kind Rule Cond Act Tok Node Bag World Err)

def asks (ph : Phase) (inst : Inst Rule Tok Node Bag) (toks : List Tok) : Option (Ask Rule Act) :=
  (pick G.kind (G.cond · inst) ((G.table inst.name).alts ph) toks).map Alt.ask

variable {G} {ph : Phase} {inst₀ inst inst' : Inst Rule Tok Node Bag}
  (stack : List (Inst Rule Tok Node Bag)) {toks : List Tok} {w₀ w w' : World}
  {p r : Option Rule} {n m : Nat} {a : Act}

theorem asks_some {k : Ask Rule Act} (h : G.asks ph inst toks = some k) :
    ∃ alt, G.select ((G.table inst.name).alts ph) inst toks = some alt ∧ alt.p = k.p ∧ alt.r = k.r ∧
      alt.a.map (·, alt.s.length) = k.a ∧ alt.s.length - alt.b = k.take := by
  obtain ⟨alt, ha, rfl⟩ := Option.map_eq_some_iff.1 h
  exact ⟨alt, ha, rfl, rfl, rfl, rfl⟩

/-- No alternate fits: the run ends at the token ahead. -/
theorem step_none (hh : G.hook ph inst₀ w₀ = (inst, w)) (ha : G.asks ph inst toks = none) :
    G.step ⟨inst₀, ph, stack, toks, w₀⟩ = .inr (.unexpected toks.head? w) := by
  have hs : G.select ((G.table inst.name).alts ph) inst toks = none := Option.map_eq_none_iff.1 ha
  simp only [step, hh, hs]

/-- An alternate without an action goes where it asks to. -/
theorem step_plain (hh : G.hook ph inst₀ w₀ = (inst, w))
    (ha : G.asks ph inst toks = some ⟨p, r, none, n⟩) :
    ∃ alt m, alt.p = p ∧ alt.r = r ∧
      G.step ⟨inst₀, ph, stack, toks, w₀⟩ = G.move ph alt (seen ph m inst toks) stack (toks.drop n) w := by
  obtain ⟨alt, hs, hp, hr, hact, rfl⟩ := asks_some ha
  have hnone : alt.a = none := Option.map_eq_none_iff.1 hact
  refine ⟨alt, alt.s.length, hp, hr, ?_⟩
  simp only [step, hh, hs, hnone, runAct]

/-- An alternate with an action that succeeds goes where it asks to, from what the action left. -/
theorem step_act (hh : G.hook ph inst₀ w₀ = (inst, w))
    (ha : G.asks ph inst toks = some ⟨p, r, some (a, m), n⟩)
    (hact : G.act a (seen ph m inst toks) w = .ok (inst', w')) :
    ∃ alt, alt.p = p ∧ alt.r = r ∧
      G.step ⟨inst₀, ph, stack, toks, w₀⟩ = G.move ph alt inst' stack (toks.drop n) w' := by
  obtain ⟨alt, hs, hp, hr, hmap, rfl⟩ := asks_some ha
  obtain ⟨b, hb, heq⟩ := Option.map_eq_some_iff.1 hmap
  cases heq
  refine ⟨alt, hp, hr, ?_⟩
  simp only [step, hh, hs, hb, runAct, hact]

/-- An action that fails ends the run. -/
theorem step_fail {e : Err} (hh : G.hook ph inst₀ w₀ = (inst, w))
    (ha : G.asks ph inst toks = some ⟨p, r, some (a, m), n⟩)
    (hact : G.act a (seen ph m inst toks) w = .error e) :
    G.step ⟨inst₀, ph, stack, toks, w₀⟩ = .inr (.failed e w) := by
  obtain ⟨alt, hs, -, -, hmap, -⟩ := asks_some ha
  obtain ⟨b, hb, heq⟩ := Option.map_eq_some_iff.1 hmap
  cases heq
  simp only [step, hh, hs, hb, runAct, hact]

omit [DecidableEq Kind] in
variable (G) {stack} in
theorem move_push {alt : Alt Kind Rule Cond Act} {q : Rule} (hp : alt.p = some q) :
    G.move ph alt inst stack toks w =
      .inl ⟨G.spawn q inst (inst.d + 1) true, .opening, inst :: stack, toks, w⟩ := by
  simp only [move, hp]

omit [DecidableEq Kind] in
variable (G) {stack} in
theorem move_turn {alt : Alt Kind Rule Cond Act} (hp : alt.p = none) (hr : alt.r = none) :
    G.move .opening alt inst stack toks w = .inl ⟨inst, .closing, stack, toks, w⟩ := by
  simp only [move, hp, hr]

omit [DecidableEq Kind] in
variable (G) {stack} in
theorem move_pop {alt : Alt Kind Rule Cond Act} {below : Inst Rule Tok Node Bag}
    (hp : alt.p = none) (hr : alt.r = none) :
    G.move .closing alt inst (below :: stack) toks w =
      .inl ⟨resume below inst, .closing, stack, toks, w⟩ := by
  simp only [move, hp, hr]

omit [DecidableEq Kind] in
variable (G) {stack} in
theorem move_replace {alt : Alt Kind Rule Cond Act} {q : Rule} {below : Inst Rule Tok Node Bag}
    (hp : alt.p = none) (hr : alt.r = some q) :
    G.move ph alt inst (below :: stack) toks w =
      .inl ⟨G.spawn q inst inst.d false, .opening, resume below inst :: stack, toks, w⟩ := by
  simp only [move, hp, hr]

@[simp] theorem seen_name : (seen ph n inst toks).name = inst.name := by cases ph <;> rfl
@[simp] theorem seen_node : (seen ph n inst toks).node = inst.node := by cases ph <;> rfl
@[simp] theorem seen_u : (seen ph n inst toks).u = inst.u := by cases ph <;> rfl
@[simp] theorem seen_child : (seen ph n inst toks).child = inst.child := by cases ph <;> rfl
@[simp] theorem seen_d : (seen ph n inst toks).d = inst.d := by cases ph <;> rfl
@[simp] theorem seen_pushed : (seen ph n inst toks).pushed = inst.pushed := by cases ph <;> rfl

end Grammar

end TabnasAbnf.Engine
