/-
How a port's hooks and actions build the tree a reading names. A `Discipline` says what a node of
the port holds (`Prods`, `Alts`, `Seq`, `Atom`: each `b w v x`, node `v` holds `x` in world `w` and
was built since world `b`), what a step may change (`Frame`) and what each hook and action does to
them. From these laws alone the machine runs as the reading says: `runs_top`.
-/
import TabnasAbnf.Meta.Control

namespace TabnasAbnf.Meta

open TabnasAbnf.Engine TabnasAbnf.Base

/-- The atom without brackets an action reads off the tokens its alternate matched. -/
def leafSeen : ActRef → List (Option Tok) → Option Leaf
  | .atomSs, [some p, some t] => some (.ss p t)
  | .atomSi, [some p, some t] => some (.si p t)
  | .atomSt, [some t] => some (.st t)
  | .atomPv, [some t] => if t.kind = .PV then some (.pv t) else none
  | .atomTx, [some t] => some (.tx t)
  | _, _ => none

/-- The action on an opening bracket. -/
def openAct : GroupKind → ActRef
  | .group => .atomLp
  | .opt => .atomOb

/-- The rules without a hook before they close. -/
def NoClose (r : RuleName) : Prop := r ≠ .prod ∧ r ≠ .alts

section

variable {V B W E : Type}

/-! ## The laws -/

/-- A port's nodes: what they hold and how the hooks and actions fill them, from a root `d₀` deep.
`record` is where the port notes a numeric value it decodes. -/
structure Discipline (G : Grammar Kind RuleName CondRef ActRef Tok V B W E) (d₀ : Nat) (R : Type) where
  stop : Tok → Bool
  deep : Nat → Bool
  Refused : Tok → E → Prop
  TooDeep : E → Prop
  record : W → R
  note : R → Tok → R
  Frame : W → W → Prop
  Prods : W → W → V → List CProd → Prop
  Alts : W → W → V → CAlts → Prop
  Seq : W → W → V → CSeq → Prop
  Atom : W → W → V → CAtom → Prop
  Bounds : B → Reps → Prop
  Named : B → HeadKind → Tok → Prop
  Opened : B → GroupKind → Tok → Prop
  tabled : Tabled G
  frame_refl : ∀ w, Frame w w
  frame_trans : ∀ {w w' w''}, Frame w w' → Frame w' w'' → Frame w w''
  atom_frame : ∀ {b w w' v a}, Atom b w v a → Frame w w' → Atom b w' v a
  bo_abnf : ∀ inst w, inst.name = .abnf → ∃ v w', G.bo inst w = ({ inst with node := v }, w') ∧
    record w' = record w ∧ Frame w w' ∧ Prods w w' v []
  bo_prod : ∀ inst w, inst.name = .prod → G.bo inst w = (inst, w)
  bo_alts : ∀ inst w, inst.name = .alts → ∃ v w', G.bo inst w = ({ inst with node := v }, w') ∧
    record w' = record w ∧ Frame w w' ∧ Alts w w' v []
  bo_seq : ∀ inst w, inst.name = .seq → ∃ v w', G.bo inst w = ({ inst with node := v }, w') ∧
    record w' = record w ∧ Frame w w' ∧ Seq w w' v []
  bo_elem : ∀ inst w, inst.name = .elem → ∃ u, G.bo inst w = ({ inst with u := u }, w) ∧
    Bounds u .once
  bo_atom : ∀ inst w, inst.name = .atom → ∃ v w', G.bo inst w = ({ inst with node := v }, w') ∧
    record w' = record w ∧ Frame w w' ∧ Atom w w' v .hole
  bc_none : ∀ inst w, NoClose inst.name → G.bc inst w = (inst, w)
  bc_alts : ∀ {inst b w₀ w u as s}, inst.name = .alts → inst.child = some u → Frame b w →
    Alts b w₀ inst.node as → Frame w₀ w → Seq w₀ w u s →
    ∃ w', G.bc inst w = (inst, w') ∧ record w' = record w ∧ Frame b w' ∧
      Alts b w' inst.node (as ++ [s])
  bc_prod : ∀ {inst b w₀ w u ps h name as}, inst.name = .prod → inst.child = some u → Frame b w →
    Named inst.u h name → Prods b w₀ inst.node ps → Frame w₀ w → Alts w₀ w u as →
    ∃ w', G.bc inst w = (inst, w') ∧ record w' = record w ∧ Frame b w' ∧
      Prods b w' inst.node (ps ++ [⟨h, name, as⟩])
  act_head : ∀ inst w h name d, inst.u = G.bag → inst.o = [some name, d] →
    ∃ u, G.act (headAct h) inst w = .ok ({ inst with u := u }, w) ∧ Named u h name
  act_reps : ∀ inst w a r, repsSeen a inst.o = some r →
    ∃ u, G.act a inst w = .ok ({ inst with u := u }, w) ∧ Bounds u r
  act_elem : ∀ {inst b w₀ w u es r a}, inst.child = some u → Frame b w → Bounds inst.u r →
    Seq b w₀ inst.node es → Frame w₀ w → Atom w₀ w u a →
    ∃ w', G.act .elemClose inst w = .ok (inst, w') ∧ record w' = record w ∧ Frame b w' ∧
      Seq b w' inst.node (es ++ [(r, a)])
  act_leaf : ∀ {inst b w a l}, leafSeen a inst.o = some l → Frame b w →
    ∃ v w', G.act a inst w = .ok ({ inst with node := v }, w') ∧ record w' = record w ∧
      Frame w w' ∧ Atom b w' v (.leaf l)
  act_refuse : ∀ inst w t, inst.o = [some t] → t.kind = .NV → stop t = true →
    ∃ e, G.act .atomNv inst w = .error e ∧ Refused t e
  act_nv : ∀ {inst b w t}, inst.o = [some t] → t.kind = .NV → stop t = false → Frame b w →
    ∃ v w', G.act .atomNv inst w = .ok ({ inst with node := v }, w') ∧
      record w' = note (record w) t ∧ Frame w w' ∧ Atom b w' v (.leaf (.nv t))
  act_deep : ∀ inst w g k, inst.d = d₀ + 5 + 4 * k → deep k = true →
    ∃ e, G.act (openAct g) inst w = .error e ∧ TooDeep e
  act_open : ∀ inst w g k t, inst.d = d₀ + 5 + 4 * k → deep k = false → inst.o = [some t] →
    ∃ u, G.act (openAct g) inst w = .ok ({ inst with u := u }, w) ∧ Opened u g t
  cond_bag : ∀ inst c, inst.u = G.bag → G.cond c inst = false
  cond_open : ∀ {inst g t}, Opened inst.u g t → ∀ c, G.cond c inst = decide (c = closeCond g)
  act_close : ∀ {inst b w₀ w u g op cl as}, Opened inst.u g op → inst.c = [some cl] →
    inst.child = some u → Frame b w₀ → Frame w₀ w → Alts w₀ w u as →
    ∃ v w', G.act (closeAct g) inst w = .ok ({ inst with node := v }, w') ∧ record w' = record w ∧
      Frame w w' ∧ Atom b w' v (.group g op cl as)

variable {G : Grammar Kind RuleName CondRef ActRef Tok V B W E} {d₀ : Nat} {R : Type}

namespace Discipline

variable (D : Discipline G d₀ R)

/-! ## Runs that follow a reading -/

/-- An outcome for a reading's end without a tree. -/
def Ends : Halt → Outcome Tok V W E → Prop
  | .refused t, .failed e _ => D.Refused t e
  | .deep, .failed e _ => D.TooDeep e
  | .unexpected a, .unexpected a' _ => a = a'
  | _, _ => False

/-- The run from `σ` follows the reading: it comes to a configuration for the tree, or it ends as
the reading does. The values decoded on the way are noted in order. -/
def Follows {α : Type} (σ : Cfg RuleName Tok V B W) (x : Reading α)
    (post : α → Cfg RuleName Tok V B W → Prop) : Prop :=
  match x.res with
  | .ok a => ∃ τ, G.Steps σ τ ∧ D.record τ.world = x.log.foldl D.note (D.record σ.world) ∧ post a τ
  | .error h => h ≠ .spent →
    ∃ out, G.Yields σ out ∧ D.Ends h out ∧
      D.record out.world = x.log.foldl D.note (D.record σ.world)

variable {D} {α β : Type} {σ τ : Cfg RuleName Tok V B W} {x : Reading α}
  {post : α → Cfg RuleName Tok V B W → Prop} {post' : β → Cfg RuleName Tok V B W → Prop}

theorem follows_ok {a : α} (h : post a σ) : D.Follows σ (.ok a) post := ⟨σ, .refl σ, rfl, h⟩

/-- Steps that note nothing come before the run. -/
theorem Follows.after (hs : G.Steps σ τ) (hr : D.record τ.world = D.record σ.world)
    (h : D.Follows τ x post) : D.Follows σ x post := by
  unfold Follows at h ⊢
  rw [← hr]
  cases hx : x.res with
  | ok a =>
    simp only [hx] at h
    obtain ⟨υ, hυ, hlog, hp⟩ := h
    exact ⟨υ, hs.trans hυ, hlog, hp⟩
  | error e =>
    simp only [hx] at h
    intro hne
    obtain ⟨out, ho, he, hlog⟩ := h hne
    exact ⟨out, hs.yields ho, he, hlog⟩

theorem Follows.bind {f : α → Reading β} (h : D.Follows σ x post)
    (hf : ∀ a τ, post a τ → D.Follows τ (f a) post') : D.Follows σ (x.bind f) post' := by
  unfold Follows at h
  cases hx : x.res with
  | ok a =>
    simp only [hx] at h
    obtain ⟨τ, hτ, hlog, hp⟩ := h
    have hfa := hf a τ hp
    rw [Reading.bind_ok hx]
    unfold Follows at hfa ⊢
    cases hy : (f a).res with
    | ok b =>
      simp only [hy] at hfa ⊢
      obtain ⟨υ, hυ, hlog', hp'⟩ := hfa
      exact ⟨υ, hτ.trans hυ, by rw [hlog', hlog, List.foldl_append], hp'⟩
    | error e =>
      simp only [hy] at hfa ⊢
      intro hne
      obtain ⟨out, ho, he, hlog'⟩ := hfa hne
      exact ⟨out, hτ.yields ho, he, by rw [hlog', hlog, List.foldl_append]⟩
  | error e =>
    rw [Reading.bind_error hx]
    simpa only [hx, Follows] using h

theorem Follows.map {g : α → β} (h : D.Follows σ x post) (hg : ∀ a τ, post a τ → post' (g a) τ) :
    D.Follows σ (x.map g) post' := h.bind fun a τ hp => follows_ok (hg a τ hp)

/-- A run that ends at once. -/
theorem follows_halt {h : Halt} {out : Outcome Tok V W E} (hs : G.step σ = .inr out)
    (he : D.Ends h out) (hr : D.record out.world = D.record σ.world) :
    D.Follows σ (.halt h : Reading α) post := fun _ => ⟨out, .of_step hs, he, hr⟩

theorem follows_spent : D.Follows σ (.halt .spent : Reading α) post := fun h => absurd rfl h

end Discipline

end

end TabnasAbnf.Meta
