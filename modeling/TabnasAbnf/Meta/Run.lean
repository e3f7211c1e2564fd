/-
The machine runs as the reading says, in every port: one lemma for what a rule's steps do, and by
induction on the reading's fuel what a whole rule does, from the atoms up to the source.
-/
import TabnasAbnf.Meta.Discipline
import TabnasAbnf.Meta.Fuel

namespace TabnasAbnf.Meta

open TabnasAbnf.Engine TabnasAbnf.Base

namespace Discipline

variable {V B W E : Type} {G : Grammar Kind RuleName CondRef ActRef Tok V B W E} {d₀ : Nat} {R : Type}
  (D : Discipline G d₀ R)

/-- The rule below sees the node of a pushed rule that finished. -/
def Back (below : Inst RuleName Tok V B) (v : V) (stack : List (Inst RuleName Tok V B))
    (rest : List Tok) (w : W) : Cfg RuleName Tok V B W :=
  ⟨{ below with child := some v }, .closing, stack, rest, w⟩

theorem resume_pushed {below inst : Inst RuleName Tok V B} (h : inst.pushed = true) :
    Grammar.resume below inst = { below with child := some inst.node } := by
  simp [Grammar.resume, h]

/-- What every fuel `n` reads, the machine runs: alternatives from the sequence about to start,
a sequence from either phase, an atom from its start. -/
structure Runs (n : Nat) : Prop where
  alts : ∀ {k inst stack below ts w as b}, inst.name = .alts → inst.pushed = true →
    inst.d = d₀ + 2 + 4 * k → D.Frame b w → D.Alts b w inst.node as →
    D.Follows ⟨G.spawn .seq inst (inst.d + 1) true, .opening, inst :: below :: stack, ts, w⟩
      (readAlts D.stop D.deep n k ts) fun r τ => ∃ w', τ = Back below inst.node stack r.2 w' ∧
        D.Frame b w' ∧ D.Alts b w' inst.node (as ++ r.1)
  seq : ∀ {k ph inst₀ inst stack below ts w₀ w es b}, G.hook ph inst₀ w₀ = (inst, w) →
    D.record w = D.record w₀ → inst.name = .seq → inst.pushed = true → inst.d = d₀ + 3 + 4 * k →
    D.Frame b w → D.Seq b w inst.node es →
    D.Follows ⟨inst₀, ph, below :: stack, ts, w₀⟩ (readSeq D.stop D.deep n k ph ts)
      fun r τ => ∃ w', τ = Back below inst.node stack r.2 w' ∧ D.Frame b w' ∧
        D.Seq b w' inst.node (es ++ r.1)
  atom : ∀ {k inst stack below ts w}, inst.name = .atom → inst.pushed = true → inst.u = G.bag →
    inst.d = d₀ + 5 + 4 * k →
    D.Follows ⟨inst, .opening, below :: stack, ts, w⟩ (readAtom D.stop D.deep n k ts)
      fun r τ => ∃ v w', τ = Back below v stack r.2 w' ∧ D.Frame w w' ∧ D.Atom w w' v r.1

/-! ## Alternatives -/

variable {D} {n k : Nat} (inst below : Inst RuleName Tok V B)
  (stack : List (Inst RuleName Tok V B)) (ts : List Tok) {w : W}

/-- `alts` closing over a sequence: it keeps the sequence, then starts another after a slash or
goes back. -/
theorem alts_step {b w₀ u as s} (hn : inst.name = .alts) (hp : inst.pushed = true)
    (hc : inst.child = some u) (hb : D.Frame b w) (ha : D.Alts b w₀ inst.node as)
    (hf : D.Frame w₀ w) (hs : D.Seq w₀ w u s) :
    ∃ w' inst', D.record w' = D.record w ∧ D.Frame b w' ∧ D.Alts b w' inst.node (as ++ [s]) ∧
      inst'.name = .alts ∧ inst'.pushed = true ∧ inst'.d = inst.d ∧ inst'.node = inst.node ∧
      G.step ⟨inst, .closing, below :: stack, ts, w⟩ = .inl (if kindOf ts.head? = .ALT
        then ⟨G.spawn .seq inst' (inst'.d + 1) true, .opening, inst' :: below :: stack, ts.tail, w'⟩
        else Back below inst.node stack ts w') := by
  obtain ⟨w', hbc, hr, hb', ha'⟩ := D.bc_alts hn hc hb ha hf hs
  have hh : G.hook .closing inst w = (inst, w') := hbc
  have hask := asks_alts_close D.tabled inst ts hn
  by_cases hk : kindOf ts.head? = .ALT
  · rw [if_pos hk] at hask
    obtain ⟨alt, m, hpush, -, hstep⟩ := Grammar.step_plain (below :: stack) hh hask
    rw [Grammar.move_push G hpush] at hstep
    exact ⟨w', Grammar.seen .closing m inst ts, hr, hb', ha', by simpa, by simpa, by simp, by simp,
      by rw [hstep, if_pos hk, List.drop_one]⟩
  · rw [if_neg hk] at hask
    obtain ⟨alt, m, hpush, hrep, hstep⟩ := Grammar.step_plain (below :: stack) hh hask
    rw [Grammar.move_pop G hpush hrep, resume_pushed (by simpa)] at hstep
    exact ⟨w', inst, hr, hb', ha', hn, hp, rfl, rfl,
      by rw [hstep, if_neg hk, Grammar.seen_node, List.drop_zero]; rfl⟩

theorem Runs.alts_succ (h : D.Runs n) {b as} (hn : inst.name = .alts) (hp : inst.pushed = true)
    (hd : inst.d = d₀ + 2 + 4 * k) (hb : D.Frame b w) (ha : D.Alts b w inst.node as) :
    D.Follows ⟨G.spawn .seq inst (inst.d + 1) true, .opening, inst :: below :: stack, ts, w⟩
      (readAlts D.stop D.deep (n + 1) k ts) fun r τ => ∃ w', τ = Back below inst.node stack r.2 w' ∧
        D.Frame b w' ∧ D.Alts b w' inst.node (as ++ r.1) := by
  rw [readAlts]
  obtain ⟨v, w₁, hbo, hr₁, hf₁, hs₁⟩ := D.bo_seq (G.spawn .seq inst (inst.d + 1) true) w rfl
  have hh : G.hook .opening (G.spawn .seq inst (inst.d + 1) true) w = _ := hbo
  refine (h.seq (k := k) hh hr₁ rfl rfl (by simp only [Grammar.spawn]; omega) hf₁ hs₁).bind ?_
  rintro ⟨s, ts⟩ _ ⟨w₂, rfl, hf₂, hs₂⟩
  obtain ⟨w₃, inst', hr₃, hb₃, ha₃, hn', hp', hd', hv', hstep⟩ :=
    alts_step { inst with child := some v } below stack ts hn hp rfl (D.frame_trans hb hf₂) ha hf₂ hs₂
  by_cases hk : kindOf ts.head? = .ALT
  · obtain _ | ⟨t, ts⟩ := ts
    · simp at hk
    rw [if_pos hk] at hstep
    simp only [show t.kind = .ALT from hk, if_true]
    have ha' : D.Alts b w₃ inst'.node (as ++ [s]) := by rw [hv']; exact ha₃
    refine Follows.after (.of_step hstep) hr₃ ((h.alts hn' hp' (hd'.trans hd) hb₃ ha').map ?_)
    rintro ⟨as', rest⟩ _ ⟨w₄, rfl, hb₄, ha₄⟩
    rw [hv'] at ha₄ ⊢
    exact ⟨w₄, rfl, hb₄, by simpa using ha₄⟩
  · rw [if_neg hk] at hstep
    refine Follows.after (.of_step hstep) hr₃ ?_
    obtain _ | ⟨t, ts⟩ := ts
    · exact follows_ok ⟨w₃, rfl, hb₃, ha₃⟩
    · simp only [show t.kind ≠ .ALT from hk, if_false]
      exact follows_ok ⟨w₃, rfl, hb₃, ha₃⟩

/-! ## Sequences -/

/-- `elem` from its start to its atom's start: it reads the repeat. -/
theorem elem_open (hn : inst.name = .elem) (hp : inst.pushed = true) :
    ∃ inst', G.step ⟨inst, .opening, stack, ts, w⟩ =
        .inl ⟨G.spawn .atom inst' (inst'.d + 1) true, .opening, inst' :: stack, (prefixOf ts).2, w⟩ ∧
      inst'.name = .elem ∧ inst'.pushed = true ∧ inst'.d = inst.d ∧ inst'.node = inst.node ∧
      D.Bounds inst'.u (prefixOf ts).1 := by
  obtain ⟨u, hbo, hu⟩ := D.bo_elem inst w hn
  have hh : G.hook .opening inst w = _ := hbo
  obtain ⟨act, take, hask, hdrop, hact⟩ :=
    asks_elem_open D.tabled { inst with u } ts hn
  cases act with
  | none =>
    obtain ⟨alt, m, hpush, -, hstep⟩ := Grammar.step_plain stack hh hask
    rw [Grammar.move_push G hpush, hdrop] at hstep
    exact ⟨_, hstep, by simpa, by simpa, by simp, by simp, by simpa [show (prefixOf ts).1 = .once from hact]⟩
  | some am =>
    obtain ⟨a, m⟩ := am
    obtain ⟨u', hrun, hu'⟩ := D.act_reps (Grammar.seen .opening m { inst with u := u } ts) w a _ hact
    obtain ⟨alt, hpush, -, hstep⟩ := Grammar.step_act stack hh hask hrun
    rw [Grammar.move_push G hpush, hdrop] at hstep
    exact ⟨_, hstep, by simpa, by simpa, by simp, by simp, hu'⟩

/-- `elem` closing over its atom: it adds the element to the sequence it shares a node with. -/
theorem elem_close {b w₀ u v es r a} (hn : inst.name = .elem) (hp : inst.pushed = true)
    (hc : inst.child = some u) (hv : inst.node = v) (hb : D.Frame b w) (hr : D.Bounds inst.u r)
    (hs : D.Seq b w₀ v es) (hf : D.Frame w₀ w) (ha : D.Atom w₀ w u a) :
    ∃ w', G.step ⟨inst, .closing, below :: stack, ts, w⟩ = .inl (Back below v stack ts w') ∧
      D.record w' = D.record w ∧ D.Frame b w' ∧ D.Seq b w' v (es ++ [(r, a)]) := by
  subst hv
  have hh : G.hook .closing inst w = (inst, w) := D.bc_none inst w (by simp [NoClose, hn])
  have hask := asks_elem_close D.tabled inst ts hn
  obtain ⟨w', hact, hr', hb', hs'⟩ := D.act_elem
    (show (Grammar.seen .closing 0 inst ts).child = some u by simpa) hb (by simpa) (by simpa) hf ha
  obtain ⟨alt, hpush, hrep, hstep⟩ := Grammar.step_act (below :: stack) hh hask hact
  rw [Grammar.move_pop G hpush hrep, resume_pushed (by simpa)] at hstep
  exact ⟨w', by rw [hstep, Grammar.seen_node, List.drop_zero]; rfl, hr', hb', by simpa using hs'⟩

theorem endsBefore_closing {ph : Phase} (h : endsBefore ph ts = true) : endsBefore .closing ts = true := by
  have hk : ∀ k₁ k₂, seqEnds ph k₁ k₂ = true → seqEnds .closing k₁ k₂ = true := by
    cases ph <;> exact forall_kinds (by decide)
  exact hk _ _ h

include D in
theorem seq_leave {inst₀ w₀} (hh : G.hook .closing inst₀ w₀ = (inst, w)) (hn : inst.name = .seq)
    (hp : inst.pushed = true) (he : endsBefore .closing ts = true) :
    G.step ⟨inst₀, .closing, below :: stack, ts, w₀⟩ = .inl (Back below inst.node stack ts w) := by
  have hask := asks_seq D.tabled .closing inst ts hn
  rw [if_pos he] at hask
  obtain ⟨alt, m, hpush, hrep, hstep⟩ := Grammar.step_plain (below :: stack) hh hask
  rw [Grammar.move_pop G hpush hrep, resume_pushed (by simpa), Grammar.seen_node] at hstep
  exact hstep

include D in
/-- `seq` at its end goes back, from either phase. -/
theorem seq_end {ph inst₀ w₀} (hh : G.hook ph inst₀ w₀ = (inst, w)) (hn : inst.name = .seq)
    (hp : inst.pushed = true) (he : endsBefore ph ts = true) :
    G.Steps ⟨inst₀, ph, below :: stack, ts, w₀⟩ (Back below inst.node stack ts w) := by
  cases ph with
  | closing => exact .of_step (seq_leave (D := D) inst below stack ts hh hn hp he)
  | opening =>
    have hask := asks_seq D.tabled .opening inst ts hn
    rw [if_pos he] at hask
    obtain ⟨alt, m, hpush, hrep, hstep⟩ := Grammar.step_plain (below :: stack) hh hask
    rw [Grammar.move_turn G hpush hrep] at hstep
    have hh' : G.hook .closing (Grammar.seen .opening m inst ts) w = _ :=
      D.bc_none _ w (by simp [NoClose, hn])
    have hleave := seq_leave (D := D) _ below stack ts hh' (by simpa) (by simpa)
      (endsBefore_closing ts he)
    rw [Grammar.seen_node] at hleave
    exact (Grammar.Steps.of_step hstep).trans (.of_step hleave)

theorem Runs.seq_succ (h : D.Runs n) {ph inst₀ w₀ es b} (hh : G.hook ph inst₀ w₀ = (inst, w))
    (hr : D.record w = D.record w₀) (hn : inst.name = .seq) (hp : inst.pushed = true)
    (hd : inst.d = d₀ + 3 + 4 * k) (hb : D.Frame b w) (hs : D.Seq b w inst.node es) :
    D.Follows ⟨inst₀, ph, below :: stack, ts, w₀⟩ (readSeq D.stop D.deep (n + 1) k ph ts)
      fun r τ => ∃ w', τ = Back below inst.node stack r.2 w' ∧ D.Frame b w' ∧
        D.Seq b w' inst.node (es ++ r.1) := by
  rw [readSeq]
  by_cases he : endsBefore ph ts = true
  · rw [if_pos he]
    exact Follows.after (seq_end (D := D) inst below stack ts hh hn hp he) hr (follows_ok ⟨w, rfl, hb, by simpa⟩)
  · have hask := asks_seq D.tabled ph inst ts hn
    rw [if_neg he] at hask ⊢
    obtain ⟨alt, m, hpush, -, hstep⟩ := Grammar.step_plain (below :: stack) hh hask
    rw [Grammar.move_push G hpush, List.drop_zero] at hstep
    obtain ⟨e, hstep', hen, hep, hed, hev, hreps⟩ := elem_open (D := D)
      (G.spawn .elem (Grammar.seen ph m inst ts) ((Grammar.seen ph m inst ts).d + 1) true)
      (Grammar.seen ph m inst ts :: below :: stack) ts (w := w) rfl rfl
    simp only [Grammar.spawn, Grammar.seen_node, Grammar.seen_d] at hed hev
    refine Follows.after (.trans (.of_step hstep) (.of_step hstep')) hr ?_
    refine (h.atom (k := k) rfl rfl rfl (by simp only [Grammar.spawn]; omega)).bind ?_
    rintro ⟨a, ts'⟩ _ ⟨v, w₁, rfl, hf₁, ha₁⟩
    obtain ⟨w₂, hstep₂, hr₂, hb₂, hs₂⟩ := elem_close { e with child := some v }
      (Grammar.seen ph m inst ts) (below :: stack) ts' hen hep rfl hev (D.frame_trans hb hf₁) hreps hs
      hf₁ ha₁
    refine Follows.after (.of_step hstep₂) hr₂ ?_
    have hh' : G.hook .closing { Grammar.seen ph m inst ts with child := some inst.node } w₂ =
        ({ Grammar.seen ph m inst ts with child := some inst.node }, w₂) :=
      D.bc_none _ _ (by simp [NoClose, hn])
    have hs' : D.Seq b w₂ (Grammar.seen ph m inst ts).node (es ++ [((prefixOf ts).1, a)]) := by simpa
    refine (h.seq (k := k) hh' rfl (by simpa) (by simpa) (by simpa) hb₂ hs').map ?_
    rintro ⟨es', rest⟩ _ ⟨w₃, rfl, hb₃, hs₃⟩
    exact ⟨w₃, by simp, hb₃, by simpa using hs₃⟩

/-! ## Atoms -/

variable (D) in
/-- `alts` from its start to its first sequence. -/
theorem alts_open (hn : inst.name = .alts) :
    ∃ w' inst', D.record w' = D.record w ∧ D.Frame w w' ∧ D.Alts w w' inst'.node [] ∧
      inst'.name = .alts ∧ inst'.pushed = inst.pushed ∧ inst'.d = inst.d ∧
      G.step ⟨inst, .opening, stack, ts, w⟩ =
        .inl ⟨G.spawn .seq inst' (inst'.d + 1) true, .opening, inst' :: stack, ts, w'⟩ := by
  obtain ⟨v, w', hbo, hr, hf, ha⟩ := D.bo_alts inst w hn
  have hh : G.hook .opening inst w = _ := hbo
  have hask := asks_alts_open D.tabled { inst with node := v } ts hn
  obtain ⟨alt, m, hpush, -, hstep⟩ := Grammar.step_plain stack hh hask
  rw [Grammar.move_push G hpush, List.drop_zero] at hstep
  exact ⟨w', _, hr, hf, by simpa, by simpa, by simp, by simp, hstep⟩

variable (D) in
include D in
/-- An atom with nothing to close goes back. -/
theorem atom_leave (hn : inst.name = .atom) (hp : inst.pushed = true) (hu : inst.u = G.bag) :
    G.step ⟨inst, .closing, below :: stack, ts, w⟩ = .inl (Back below inst.node stack ts w) := by
  have hh : G.hook .closing inst w = _ := D.bc_none inst w (by simp [NoClose, hn])
  have hask := asks_atom_leave D.tabled inst ts hn fun c => D.cond_bag inst c hu
  obtain ⟨alt, m, hpush, hrep, hstep⟩ := Grammar.step_plain (below :: stack) hh hask
  rw [Grammar.move_pop G hpush hrep, resume_pushed (by simpa), Grammar.seen_node] at hstep
  exact hstep

variable (D) in
/-- An atom closing over the alternatives in its bracket: it closes the bracket, or goes back as the
hole it is. -/
theorem atom_close {b w₀ w₁ u g op as} (hn : inst.name = .atom) (hp : inst.pushed = true)
    (ho : D.Opened inst.u g op) (hc : inst.child = some u) (hb : D.Frame b w₀)
    (hhole : D.Atom b w₁ inst.node .hole) (hf₁ : D.Frame w₁ w) (hf : D.Frame w₀ w)
    (ha : D.Alts w₀ w u as) :
    ∃ v w', D.record w' = D.record w ∧ D.Frame w w' ∧
      G.step ⟨inst, .closing, below :: stack, ts, w⟩ =
        .inl (Back below v stack (closeAtom g op as ts).2 w') ∧
      D.Atom b w' v (closeAtom g op as ts).1 := by
  have hh : G.hook .closing inst w = _ := D.bc_none inst w (by simp [NoClose, hn])
  have hask := asks_atom_close D.tabled inst ts hn g (D.cond_open ho)
  by_cases hk : kindOf ts.head? = g.closer
  · obtain _ | ⟨t, ts⟩ := ts
    · cases g <;> simp [GroupKind.closer] at hk
    have ht : closeAtom g op as (t :: ts) = (.group g op t as, ts) := if_pos hk
    rw [if_pos hk] at hask
    obtain ⟨v, w', hact, hr, hf', ha'⟩ := D.act_close
      (show D.Opened (Grammar.seen .closing 1 inst (t :: ts)).u g op by simpa) rfl (by simpa) hb hf ha
    obtain ⟨alt, hpush, hrep, hstep⟩ := Grammar.step_act (below :: stack) hh hask hact
    rw [Grammar.move_pop G hpush hrep, resume_pushed (by simpa)] at hstep
    exact ⟨v, w', hr, hf', by rw [hstep, ht]; rfl, by rw [ht]; exact ha'⟩
  · have ht : closeAtom g op as ts = (.hole, ts) := by
      obtain _ | ⟨t, ts⟩ := ts
      · rfl
      · exact if_neg hk
    rw [if_neg hk] at hask
    obtain ⟨alt, m, hpush, hrep, hstep⟩ := Grammar.step_plain (below :: stack) hh hask
    rw [Grammar.move_pop G hpush hrep, resume_pushed (by simpa), Grammar.seen_node] at hstep
    exact ⟨inst.node, w, rfl, D.frame_refl w, by rw [hstep, ht]; rfl,
      by rw [ht]; exact D.atom_frame hhole hf₁⟩

/-- What `atom` asks for before an atom without brackets. -/
theorem leafOf_asks {t : Tok} {ts rest : List Tok} {l : Leaf} (h : leafOf (t :: ts) = some (l, rest)) :
    ∃ a m, atomAsk (kindOf (t :: ts).head?) (kindOf (t :: ts).tail.head?) =
        some { a := some (a, m), take := m } ∧
      leafSeen a (ahead m (t :: ts)) = some l ∧ (t :: ts).drop m = rest := by
  unfold leafOf at h
  simp only [List.head?_cons, kindOf_some, List.tail_cons]
  cases hk : t.kind <;> simp only [hk, reduceCtorEq] at h
  case ST => cases h; exact ⟨.atomSt, 1, rfl, rfl, rfl⟩
  case PV => cases h; exact ⟨.atomPv, 1, rfl, if_pos hk, rfl⟩
  case TX => cases h; exact ⟨.atomTx, 1, rfl, rfl, rfl⟩
  case SS =>
    obtain _ | ⟨t', ts⟩ := ts
    · cases h
    · by_cases hst : t'.kind = .ST <;> simp only [hst, if_true, if_false] at h <;> cases h
      exact ⟨.atomSs, 2, by simp [hst, atomAsk], rfl, rfl⟩
  case SI =>
    obtain _ | ⟨t', ts⟩ := ts
    · cases h
    · by_cases hst : t'.kind = .ST <;> simp only [hst, if_true, if_false] at h <;> cases h
      exact ⟨.atomSi, 2, by simp [hst, atomAsk], rfl, rfl⟩

theorem atomAsk_prefix {k k' : Kind} (hk : k = .SS ∨ k = .SI) (hk' : k' ≠ .ST) : atomAsk k k' = none := by
  rcases hk with rfl | rfl <;> cases k' <;> first | rfl | exact absurd rfl hk'

theorem leafOf_none {t : Tok} {ts : List Tok} (h : leafOf (t :: ts) = none) (hnv : t.kind ≠ .NV)
    (ho : opensWith t.kind = none) :
    atomAsk (kindOf (t :: ts).head?) (kindOf (t :: ts).tail.head?) = none := by
  unfold leafOf at h
  simp only [List.head?_cons, kindOf_some, List.tail_cons]
  cases hk : t.kind <;> simp only [hk, reduceCtorEq] at h
  case NV => exact absurd hk hnv
  case LP => rw [hk] at ho; cases ho
  case OB => rw [hk] at ho; cases ho
  case SS | SI =>
    refine atomAsk_prefix (by simp) fun hst => ?_
    obtain _ | ⟨t', ts⟩ := ts
    · cases hst
    · simp [show t'.kind = .ST from hst] at h
  all_goals rfl

variable (D) in
include D in
/-- An atom that is built as it opens goes back with it. -/
theorem atom_taken {inst₁ : Inst RuleName Tok V B} {w₁ w₂ : W} {a : ActRef} {m j : Nat} {v : V}
    (hh : G.hook .opening inst w = (inst₁, w₁)) (hn : inst₁.name = .atom) (hp : inst₁.pushed = true)
    (hu : inst₁.u = G.bag) (hask : G.asks .opening inst₁ ts = some { a := some (a, m), take := j })
    (hact : G.act a (Grammar.seen .opening m inst₁ ts) w₁ =
      .ok ({ Grammar.seen .opening m inst₁ ts with node := v }, w₂)) :
    G.Steps ⟨inst, .opening, below :: stack, ts, w⟩ (Back below v stack (ts.drop j) w₂) := by
  obtain ⟨alt, hpush, hrep, hstep⟩ := Grammar.step_act (below :: stack) hh hask hact
  rw [Grammar.move_turn G hpush hrep] at hstep
  exact (Grammar.Steps.of_step hstep).trans (.of_step (atom_leave D
    { Grammar.seen .opening m inst₁ ts with node := v } below stack _ (by simpa) (by simpa) (by simpa)))

theorem Runs.atom_succ (h : D.Runs n) (hn : inst.name = .atom) (hp : inst.pushed = true)
    (hu : inst.u = G.bag) (hd : inst.d = d₀ + 5 + 4 * k) :
    D.Follows ⟨inst, .opening, below :: stack, ts, w⟩ (readAtom D.stop D.deep (n + 1) k ts)
      fun r τ => ∃ v w', τ = Back below v stack r.2 w' ∧ D.Frame w w' ∧ D.Atom w w' v r.1 := by
  obtain ⟨v, w₁, hbo, hr₁, hf₁, ha₁⟩ := D.bo_atom inst w hn
  have hh : G.hook .opening inst w = _ := hbo
  have hask := asks_atom_open D.tabled { inst with node := v } ts hn
  obtain _ | ⟨t, ts⟩ := ts
  · rw [readAtom]
    exact follows_halt (Grammar.step_none (below :: stack) hh hask) rfl hr₁
  rw [readAtom]
  -- a numeric value is decoded as it is taken, and may be refused there
  by_cases hnv : t.kind = .NV
  · rw [if_pos hnv, decode]
    simp only [List.head?_cons, kindOf_some, hnv] at hask
    by_cases hs : D.stop t = true
    · rw [if_pos hs]
      obtain ⟨e, hact, he⟩ :=
        D.act_refuse (Grammar.seen .opening 1 { inst with node := v } (t :: ts)) w₁ t rfl hnv hs
      exact follows_halt (Grammar.step_fail (below :: stack) hh hask hact) he hr₁
    · rw [if_neg hs]
      obtain ⟨v', w₂, hact, hr₂, hf₂, ha₂⟩ := D.act_nv
        (show (Grammar.seen .opening 1 { inst with node := v } (t :: ts)).o = [some t] from rfl) hnv
        (by simpa using hs) hf₁
      have hsteps := atom_taken D inst below stack (t :: ts) hh hn hp hu hask hact
      exact ⟨_, hsteps, by simp [Back, hr₂, hr₁], v', w₂, rfl, D.frame_trans hf₁ hf₂, ha₂⟩
  rw [if_neg hnv]
  -- a bracket pushes the alternatives within it, which come back to the close; any other token is a leaf or
  -- fits nothing
  cases ho : opensWith t.kind with
  | some g =>
    have hask' : G.asks .opening { inst with node := v } (t :: ts) =
        some { p := some .alts, a := some (openAct g, 1), take := 1 } := by
      rw [hask]
      simp only [List.head?_cons, kindOf_some]
      cases hk : t.kind <;> simp only [hk, opensWith] at ho <;> cases ho <;> rfl
    by_cases hdeep : D.deep k = true
    · simp only [hdeep, if_true]
      obtain ⟨e, hact, he⟩ :=
        D.act_deep (Grammar.seen .opening 1 { inst with node := v } (t :: ts)) w₁ g k (by simpa) hdeep
      exact follows_halt (Grammar.step_fail (below :: stack) hh hask' hact) he hr₁
    · simp only [hdeep]
      obtain ⟨u, hact, hop⟩ := D.act_open (Grammar.seen .opening 1 { inst with node := v } (t :: ts)) w₁ g k
        t (by simpa) (by simpa using hdeep) rfl
      obtain ⟨alt, hpush, -, hstep⟩ := Grammar.step_act (below :: stack) hh hask' hact
      rw [Grammar.move_push G hpush] at hstep
      obtain ⟨w₂, inst₂, hr₂, hf₂, has₂, hn₂, hp₂, hd₂, hstep₂⟩ := alts_open D
        (G.spawn .alts { Grammar.seen .opening 1 { inst with node := v } (t :: ts) with u := u }
          (inst.d + 1) true)
        ({ Grammar.seen .opening 1 { inst with node := v } (t :: ts) with u := u } :: below :: stack) ts
        (w := w₁) rfl
      refine Follows.after (.trans (.of_step hstep) (.of_step hstep₂)) (hr₂.trans hr₁) ?_
      refine Follows.bind (h.alts (k := k + 1) hn₂ hp₂ (by rw [hd₂]; simp only [Grammar.spawn]; omega)
        hf₂ has₂) ?_
      rintro ⟨as, rest⟩ _ ⟨w₃, rfl, hf₃, has₃⟩
      obtain ⟨v', w₄, hr₄, hf₄, hstep₄, ha₄⟩ := atom_close D
        { ({ Grammar.seen .opening 1 { inst with node := v } (t :: ts) with u := u } :
            Inst RuleName Tok V B) with child := some inst₂.node } below stack rest hn hp hop rfl hf₁ ha₁
        hf₃ hf₃ has₃
      exact Follows.after (.of_step hstep₄) hr₄
        (follows_ok ⟨v', w₄, rfl, D.frame_trans hf₁ (D.frame_trans hf₃ hf₄), ha₄⟩)
  | none =>
    cases hl : leafOf (t :: ts) with
    | none =>
      rw [leafOf_none hl hnv ho] at hask
      exact follows_halt (Grammar.step_none (below :: stack) hh hask) rfl hr₁
    | some lr =>
      obtain ⟨l, rest⟩ := lr
      obtain ⟨a, m, ha, hseen, hdrop⟩ := leafOf_asks hl
      obtain ⟨v', w₂, hact, hr₂, hf₂, ha₂⟩ := D.act_leaf
        (show leafSeen a (Grammar.seen .opening m { inst with node := v } (t :: ts)).o = some l from hseen) hf₁
      have hsteps := atom_taken D inst below stack (t :: ts) hh hn hp hu (hask.trans ha) hact
      rw [hdrop] at hsteps
      exact Follows.after hsteps (hr₂.trans hr₁)
        (follows_ok ⟨v', w₂, rfl, D.frame_trans hf₁ hf₂, ha₂⟩)

variable (D) in
/-- The machine runs as the reading says, whatever its fuel. -/
theorem runs (n : Nat) : D.Runs n := by
  induction n with
  | zero =>
    refine ⟨fun _ _ _ _ _ => ?_, fun _ _ _ _ _ _ _ => ?_, fun _ _ _ _ => ?_⟩
    · rw [readAlts]; exact follows_spent
    · rw [readSeq]; exact follows_spent
    · rw [readAtom]; exact follows_spent
  | succ n ih =>
    exact ⟨fun hn hp hd hb ha => ih.alts_succ _ _ _ _ hn hp hd hb ha,
      fun hh hr hn hp hd hb hs => ih.seq_succ _ _ _ _ hh hr hn hp hd hb hs,
      fun hn hp hu hd => ih.atom_succ _ _ _ _ hn hp hu hd⟩

/-! ## Productions -/

theorem headKind_eq (ts : List Tok) :
    headKind (kindOf ts.head?) (kindOf ts.tail.head?) = (headOf ts).map (·.1) := by
  match ts with
  | [] => rfl
  | [t] => cases hk : t.kind <;> simp [headOf, headKind, hk]
  | n :: d :: ts => simp [headOf, Function.comp_def]

/-- The rule below the productions, which share its node. -/
def Kept (below below' : Inst RuleName Tok V B) : Prop :=
  below'.name = below.name ∧ below'.node = below.node

omit D in
theorem kept_resume (below inst : Inst RuleName Tok V B) : Kept below (Grammar.resume below inst) := by
  unfold Grammar.resume
  split <;> exact ⟨rfl, rfl⟩

/-- `prod` closing over its alternatives: it keeps the production, then starts the next one or goes
back. -/
theorem prod_step {b w₀ u ps h name as} (hn : inst.name = .prod) (hc : inst.child = some u)
    (hb : D.Frame b w) (hname : D.Named inst.u h name) (hps : D.Prods b w₀ inst.node ps)
    (hf : D.Frame w₀ w) (ha : D.Alts w₀ w u as) :
    ∃ w' below' next, D.record w' = D.record w ∧ D.Frame b w' ∧
      D.Prods b w' inst.node (ps ++ [⟨h, name, as⟩]) ∧ Kept below below' ∧
      next.name = .prod ∧ next.u = G.bag ∧ next.d = inst.d ∧ next.node = inst.node ∧
      G.step ⟨inst, .closing, below :: stack, ts, w⟩ = .inl (if (headOf ts).isSome
        then ⟨next, .opening, below' :: stack, ts, w'⟩
        else ⟨below', .closing, stack, ts, w'⟩) := by
  obtain ⟨w', hbc, hr, hb', hps'⟩ := D.bc_prod hn hc hb hname hps hf ha
  have hh : G.hook .closing inst w = (inst, w') := hbc
  have hask := asks_prod_close D.tabled inst ts hn
  rw [headKind_eq, Option.isSome_map] at hask
  by_cases hk : (headOf ts).isSome = true
  · rw [if_pos hk] at hask
    obtain ⟨alt, m, hpush, hrep, hstep⟩ := Grammar.step_plain (below :: stack) hh hask
    rw [Grammar.move_replace G hpush hrep] at hstep
    refine ⟨w', _, _, hr, hb', hps', kept_resume below _, ?_, ?_, ?_, ?_,
      by rw [hstep, if_pos hk, List.drop_zero]⟩ <;> simp [Grammar.spawn]
  · rw [if_neg hk] at hask
    obtain ⟨alt, m, hpush, hrep, hstep⟩ := Grammar.step_plain (below :: stack) hh hask
    rw [Grammar.move_pop G hpush hrep] at hstep
    exact ⟨w', _, G.spawn .prod inst inst.d false, hr, hb', hps', kept_resume below _, rfl, rfl, rfl, rfl,
      by rw [hstep, if_neg hk, List.drop_zero]⟩

variable (D) in
theorem prods_run (n : Nat) {b ps} (hn : inst.name = .prod) (hu : inst.u = G.bag) (hd : inst.d = d₀ + 1)
    (hb : D.Frame b w) (hps : D.Prods b w inst.node ps) :
    D.Follows ⟨inst, .opening, below :: stack, ts, w⟩ (readProds D.stop D.deep n ts) fun r τ =>
      ∃ below' w', τ = ⟨below', .closing, stack, r.2, w'⟩ ∧ Kept below below' ∧ D.Frame b w' ∧
        D.Prods b w' inst.node (ps ++ r.1) := by
  induction n generalizing inst below ts w ps with
  | zero => rw [readProds]; exact follows_spent
  | succ n ih =>
    rw [readProds]
    have hh : G.hook .opening inst w = _ := D.bo_prod inst w hn
    have hask := asks_prod_open D.tabled inst ts hn
    rw [headKind_eq] at hask
    -- a production begins with a name and a defining token, or there is none
    cases hhead : headOf ts with
    | none =>
      rw [hhead] at hask
      exact follows_halt (Grammar.step_none (below :: stack) hh hask) rfl rfl
    | some hr =>
      obtain ⟨h, name, rest⟩ := hr
      rw [hhead] at hask
      obtain ⟨d, rfl, -⟩ := headOf_some hhead
      obtain ⟨u, hact, hnamed⟩ := D.act_head (Grammar.seen .opening 2 inst (name :: d :: rest)) w h name
        (some d) (by simpa) rfl
      obtain ⟨alt, hpush, -, hstep⟩ := Grammar.step_act (below :: stack) hh hask hact
      rw [Grammar.move_push G hpush] at hstep
      obtain ⟨w₁, inst₁, hr₁, hf₁, has₁, hn₁, hp₁, hd₁, hstep₁⟩ := alts_open D
        (G.spawn .alts { Grammar.seen .opening 2 inst (name :: d :: rest) with u := u } (inst.d + 1) true)
        ({ Grammar.seen .opening 2 inst (name :: d :: rest) with u := u } :: below :: stack) rest
        (w := w) rfl
      refine Follows.after (.trans (.of_step hstep) (.of_step hstep₁)) hr₁ ?_
      refine ((D.runs n).alts (k := 0) hn₁ hp₁ (by rw [hd₁]; simp only [Grammar.spawn]; omega) hf₁
        has₁).bind ?_
      rintro ⟨as, ts⟩ _ ⟨w₂, rfl, hf₂, has₂⟩
      obtain ⟨w₃, below', next, hr₃, hb₃, hps₃, hkept, hn₃, hu₃, hd₃, hv₃, hstep₃⟩ := prod_step (D := D)
        { ({ Grammar.seen .opening 2 inst (name :: d :: rest) with u := u } : Inst RuleName Tok V B) with
          child := some inst₁.node } below stack ts hn rfl (D.frame_trans hb hf₂) hnamed
        (by simpa using hps) hf₂ has₂
      -- the close goes round for a head that follows
      by_cases hk : (headOf ts).isSome = true
      · rw [if_pos hk] at hstep₃
        simp only [hk, if_true]
        have hps' : D.Prods b w₃ next.node (ps ++ [⟨h, name, as⟩]) := by rw [hv₃]; exact hps₃
        refine Follows.after (.of_step hstep₃) hr₃ ((ih next below' ts hn₃ hu₃ (by rw [hd₃]; simpa) hb₃
          hps').map ?_)
        rintro ⟨ps', rest'⟩ _ ⟨below'', w₄, rfl, hkept', hb₄, hps₄⟩
        rw [hv₃] at hps₄
        exact ⟨below'', w₄, rfl, ⟨hkept'.1.trans hkept.1, hkept'.2.trans hkept.2⟩, hb₄,
          by simpa using hps₄⟩
      · rw [if_neg hk] at hstep₃
        simp only [hk]
        exact Follows.after (.of_step hstep₃) hr₃
          (follows_ok ⟨below', w₃, rfl, hkept, hb₃, by simpa using hps₃⟩)

/-! ## The source -/

variable (D) in
include D in
/-- `abnf` closing over its productions: at the end of the source the run is done. -/
theorem abnf_close (hn : inst.name = .abnf) :
    G.step ⟨inst, .closing, [], ts, w⟩ =
      .inr (if ts = [] then .done inst.node w else .unexpected ts.head? w) := by
  have hh : G.hook .closing inst w = _ := D.bc_none inst w (by simp [NoClose, hn])
  have hask := asks_abnf_close D.tabled inst ts hn
  obtain _ | ⟨t, ts⟩ := ts
  · obtain ⟨alt, m, hpush, hrep, hstep⟩ := Grammar.step_plain [] hh hask
    rw [hstep]
    simp [Grammar.move, hpush, hrep]
  · rw [if_neg (by simpa using t.kind_ne_ZZ)] at hask
    exact Grammar.step_none [] hh hask

variable (D) in
/-- The run over a whole source ends as its reading does: with a node that holds the productions
read, or where the reading ends. The values decoded are noted in order either way. -/
theorem runs_top (n : Nat) (hne : (readTop D.stop D.deep n ts).res ≠ .error .spent) :
    ∃ out, G.Yields (G.start .abnf d₀ w ts) out ∧
      D.record out.world = (readTop D.stop D.deep n ts).log.foldl D.note (D.record w) ∧
      match (readTop D.stop D.deep n ts).res with
      | .ok ps => ∃ v, out = .done v out.world ∧ D.Prods w out.world v ps
      | .error h => D.Ends h out := by
  obtain ⟨v, w₁, hbo, hr₁, hf₁, hps₁⟩ :=
    D.bo_abnf { name := .abnf, node := G.blank, u := G.bag, d := d₀ } w rfl
  have hh : G.hook .opening { name := .abnf, node := G.blank, u := G.bag, d := d₀ } w = _ := hbo
  have hask := asks_abnf_open D.tabled { name := .abnf, node := v, u := G.bag, d := d₀ } ts rfl
  obtain _ | ⟨t, ts⟩ := ts
  · -- nothing to read: the top rule closes at once
    obtain ⟨alt, m, hpush, hrep, hstep⟩ := Grammar.step_plain [] hh hask
    rw [Grammar.move_turn G hpush hrep] at hstep
    have hend := abnf_close D (Grammar.seen .opening m { name := .abnf, node := v, u := G.bag, d := d₀ } [])
      [] (w := w₁) (by simp)
    exact ⟨_, (Grammar.Steps.of_step hstep).yields (.of_step hend), hr₁, v, by simp [Outcome.world],
      hps₁⟩
  · rw [if_neg (by simpa using t.kind_ne_ZZ)] at hask
    obtain ⟨alt, m, hpush, -, hstep⟩ := Grammar.step_plain [] hh hask
    rw [Grammar.move_push G hpush, List.drop_zero] at hstep
    -- the productions are read under the top rule, which closes at the end of the tokens
    have hrun := prods_run D
      (G.spawn .prod (Grammar.seen .opening m { name := .abnf, node := v, u := G.bag, d := d₀ } (t :: ts))
        (d₀ + 1) true)
      (Grammar.seen .opening m { name := .abnf, node := v, u := G.bag, d := d₀ } (t :: ts)) [] (t :: ts) n
      (b := w) rfl rfl rfl hf₁ hps₁
    rw [readTop] at hne ⊢
    cases hx : (readProds D.stop D.deep n (t :: ts)).res with
    | error h =>
      simp only [Follows, hx] at hrun
      rw [Reading.bind_error hx] at hne ⊢
      obtain ⟨out, ho, he, hlog⟩ := hrun fun h' => hne (by rw [h'])
      exact ⟨out, (Grammar.Steps.of_step hstep).yields ho, by rw [hlog, hr₁], he⟩
    | ok r =>
      obtain ⟨ps, rest⟩ := r
      simp only [Follows, hx] at hrun
      obtain ⟨_, hsteps, hlog, below', w₂, rfl, hkept, -, hps₂⟩ := hrun
      have hend := abnf_close D below' rest (w := w₂) (hkept.1.trans (by simp))
      refine ⟨_, ((Grammar.Steps.of_step hstep).trans hsteps).yields (.of_step hend), ?_⟩
      rw [Reading.bind_ok hx]
      by_cases hrest : rest = []
      · simp only [hrest, if_true, Reading.ok, List.append_nil]
        refine ⟨by rw [← hr₁]; exact hlog, below'.node, rfl, ?_⟩
        rw [hkept.2]
        exact hps₂
      · simp only [hrest, if_false, Reading.halt, List.append_nil]
        exact ⟨by rw [← hr₁]; exact hlog, rfl⟩

include D in
variable (D) in
/-- Every run over a source ends. -/
theorem halts : G.Halts .abnf d₀ := by
  intro w ts
  obtain ⟨out, hy, -⟩ := D.runs_top ts (w := w) (fuelFor ts) (reading_ends D.stop D.deep ts)
  obtain ⟨n, hn⟩ := Grammar.yields_run hy
  exact ⟨n, by rw [hn]; rfl⟩

end Discipline

end TabnasAbnf.Meta
