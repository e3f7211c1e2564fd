/-
Calls that many callers make on one object at once. A history tells who called what and was answered what, in
order. It is linearizable where each call can be given a point between the call and its answer such that the calls,
done one after the other at these points, are answered the same.
-/
import Mathlib.Data.List.Induction
import Mathlib.Logic.Function.Basic

namespace TabnasAbnf.Base

/-! ## Histories -/

/-- An object that is called: what a call does to its state, and what it answers. -/
structure Object (X O R : Type) where
  init : X
  apply : O → X → X × R

/-- A call is made, is done, and is answered. -/
inductive Event (O R : Type)
  | call (op : O)
  | commit (op : O) (r : R)
  | ret (r : R)

/-- Whether a caller sees an event. -/
def Event.visible {O R : Type} : Event O R → Bool
  | .commit _ _ => false
  | _ => true

def Event.isCall {O R : Type} : Event O R → Bool
  | .call _ => true
  | _ => false

/-- The answer that an event gives. -/
def Event.answer {O R : Type} : Event O R → Option R
  | .ret r => some r
  | _ => none

/-- Where a caller stands between two events. -/
inductive Stand (O R : Type)
  | idle
  | called (op : O)
  | committed (r : R)

variable {T X O R C : Type} [DecidableEq T]

abbrev Trace (T O R : Type) := List (T × Event O R)

/-- What callers see of a trace. -/
def Trace.history (tr : Trace T O R) : Trace T O R := tr.filter fun e => e.2.visible

/-- The calls that are done, in order, with their answers. -/
def Trace.commits (tr : Trace T O R) : List (O × R) :=
  tr.filterMap fun e =>
    match e.2 with
    | .commit op r => some (op, r)
    | _ => none

/-- One event: a call is made by a caller that waits for no answer, it is done on the object, and the caller is
answered what it is done with. -/
inductive Play (obj : Object X O R) : (T → Stand O R) → X → T × Event O R → (T → Stand O R) → X → Prop
  | call {s x t op} : s t = .idle → Play obj s x (t, .call op) (Function.update s t (.called op)) x
  | commit {s x t op} : s t = .called op → Play obj s x (t, .commit op (obj.apply op x).2)
    (Function.update s t (.committed (obj.apply op x).2)) (obj.apply op x).1
  | ret {s x t r} : s t = .committed r → Play obj s x (t, .ret r) (Function.update s t .idle) x

/-- A trace in which each caller's calls are made, done and answered one after the other. -/
inductive Plays (obj : Object X O R) : (T → Stand O R) → X → Trace T O R → (T → Stand O R) → X → Prop
  | nil {s x} : Plays obj s x [] s x
  | cons {s x e s₁ x₁ tr s' x'} : Play obj s x e s₁ x₁ → Plays obj s₁ x₁ tr s' x' → Plays obj s x (e :: tr) s' x'

/-- The calls of a history can be done one after the other, each between the call and its answer. -/
def Linearizable (obj : Object X O R) (h : Trace T O R) : Prop :=
  ∃ tr s x, Plays obj (fun _ => .idle) obj.init tr s x ∧ tr.history = h

section

variable {obj : Object X O R} {s s₁ s' : T → Stand O R} {x x₁ x' : X} {tr tr' : Trace T O R} {e : T × Event O R}

omit [DecidableEq T] in
@[simp] theorem history_append : Trace.history (tr ++ tr') = tr.history ++ tr'.history := List.filter_append ..

omit [DecidableEq T] in
@[simp] theorem commits_append : Trace.commits (tr ++ tr') = tr.commits ++ tr'.commits := List.filterMap_append

omit [DecidableEq T] in
theorem history_cons : Trace.history (e :: tr) = if e.2.visible then e :: tr.history else tr.history :=
  List.filter_cons ..

theorem Plays.append (hp : Plays obj s x tr s₁ x₁) (hp' : Plays obj s₁ x₁ tr' s' x') :
    Plays obj s x (tr ++ tr') s' x' := by
  induction hp with
  | nil => exact hp'
  | cons he _ ih => exact .cons he (ih hp')

theorem Plays.split (hp : Plays obj s x (tr ++ tr') s' x') :
    ∃ s₁ x₁, Plays obj s x tr s₁ x₁ ∧ Plays obj s₁ x₁ tr' s' x' := by
  induction tr generalizing s x with
  | nil => exact ⟨s, x, .nil, hp⟩
  | cons e tr ih =>
    rw [List.cons_append] at hp
    cases hp with
    | cons he hp =>
      obtain ⟨s₁, x₁, h₁, h₂⟩ := ih hp
      exact ⟨s₁, x₁, .cons he h₁, h₂⟩

/-! ## The object, one call after the other -/

/-- Calls done one after the other, with what they are answered. -/
inductive Replays (obj : Object X O R) : X → List (O × R) → X → Prop
  | nil {x : X} : Replays obj x [] x
  | cons {x : X} {op : O} {ops : List (O × R)} {x' : X} : Replays obj (obj.apply op x).1 ops x' →
    Replays obj x ((op, (obj.apply op x).2) :: ops) x'

theorem Plays.replays (hp : Plays obj s x tr s' x') : Replays obj x tr.commits x' := by
  induction hp with
  | nil => exact .nil
  | cons he _ ih =>
    cases he with
    | call _ => exact ih
    | commit _ => exact .cons ih
    | ret _ => exact ih

theorem Replays.split {ops ops' : List (O × R)} (hr : Replays obj x (ops ++ ops') x') :
    ∃ x₁, Replays obj x ops x₁ ∧ Replays obj x₁ ops' x' := by
  induction ops generalizing x with
  | nil => exact ⟨x, .nil, hr⟩
  | cons o ops ih =>
    rw [List.cons_append] at hr
    cases hr with
    | cons hr =>
      obtain ⟨x₁, h₁, h₂⟩ := ih hr
      exact ⟨x₁, .cons h₁, h₂⟩

theorem Replays.uncons {op : O} {r : R} {ops : List (O × R)} (hr : Replays obj x ((op, r) :: ops) x') :
    r = (obj.apply op x).2 ∧ Replays obj (obj.apply op x).1 ops x' := by
  cases hr with
  | cons hr => exact ⟨rfl, hr⟩

/-- What the state keeps of the calls done so far. -/
theorem Replays.invariant {P : List (O × R) → X → Prop}
    (hstep : ∀ done x op, P done x → P (done ++ [(op, (obj.apply op x).2)]) (obj.apply op x).1)
    {done ops : List (O × R)}
    (hr : Replays obj x ops x') (h : P done x) : P (done ++ ops) x' := by
  induction hr generalizing done with
  | nil => rwa [List.append_nil]
  | cons _ ih =>
    have hnext := ih (hstep _ _ _ h)
    rwa [List.append_assoc, List.singleton_append] at hnext

/-! ## Calls in real time -/

/-- A caller comes to an answer by its call being done. -/
theorem Play.committed {t : T} {r : R} (he : Play obj s x e s' x') (hs : s t ≠ .committed r) :
    (∃ op, e = (t, .commit op r)) ∨ e ≠ (t, .ret r) ∧ s' t ≠ .committed r := by
  cases he with
  | @call u op hu =>
    refine .inr ⟨by simp, ?_⟩
    by_cases htu : t = u
    · subst htu
      rw [Function.update_self]
      exact fun h => by cases h
    · rwa [Function.update_of_ne htu]
  | @commit u op hu =>
    by_cases htu : t = u
    · subst htu
      by_cases hr : (obj.apply op x).2 = r
      · subst hr
        exact .inl ⟨op, rfl⟩
      · refine .inr ⟨by simp, ?_⟩
        rw [Function.update_self]
        exact fun h => hr (Stand.committed.inj h)
    · refine .inr ⟨by simp, ?_⟩
      rwa [Function.update_of_ne htu]
  | @ret u r' hu =>
    refine .inr ⟨fun h => ?_, ?_⟩
    · cases h
      exact hs hu
    · by_cases htu : t = u
      · subst htu
        rw [Function.update_self]
        exact fun h => by cases h
      · rwa [Function.update_of_ne htu]

/-- A caller that is answered has had its call done. -/
theorem Plays.committed {t : T} {r : R} (hp : Plays obj s x tr s' x') (hs : s t ≠ .committed r)
    (hr : (t, Event.ret r) ∈ tr) : ∃ op, (t, Event.commit op r) ∈ tr := by
  induction hp with
  | nil => cases hr
  | cons he _ ih =>
    rcases he.committed hs with ⟨op, rfl⟩ | ⟨hne, hs'⟩
    · exact ⟨op, List.mem_cons_self⟩
    · rcases List.mem_cons.1 hr with heq | hr
      · exact absurd heq.symm hne
      · obtain ⟨op, hin⟩ := ih hs' hr
        exact ⟨op, List.mem_cons_of_mem _ hin⟩

omit [DecidableEq T] in
theorem mem_commits {t : T} {op : O} {r : R} (h : (t, Event.commit op r) ∈ tr) : (op, r) ∈ tr.commits :=
  List.mem_filterMap.2 ⟨_, h, rfl⟩

omit [DecidableEq T] in
/-- What callers see is counted in the history as in the trace. -/
theorem countP_history {p : T × Event O R → Bool} (hp : ∀ e, p e = true → e.2.visible = true) :
    tr.history.countP p = tr.countP p := by
  rw [Trace.history, List.countP_filter]
  refine List.countP_congr fun e _ => ?_
  rw [Bool.and_eq_true]
  exact and_iff_left_of_imp (hp e)

omit [DecidableEq T] in
theorem mem_history : e ∈ tr.history ↔ e ∈ tr ∧ e.2.visible = true := List.mem_filter

omit [DecidableEq T] in
theorem commits_mem {op : O} {r : R} (h : (op, r) ∈ tr.commits) : ∃ t, (t, Event.commit op r) ∈ tr := by
  obtain ⟨⟨t, ev⟩, hin, hev⟩ := List.mem_filterMap.1 h
  rcases ev with op' | ⟨op', r'⟩ | r' <;> cases hev
  exact ⟨t, hin⟩

omit [DecidableEq T] in
/-- Where a history is two, the trace is one of each. -/
theorem history_split {h h' : Trace T O R} (heq : tr.history = h ++ h') :
    ∃ tr₁ tr₂, tr = tr₁ ++ tr₂ ∧ tr₁.history = h ∧ tr₂.history = h' := List.filter_eq_append_iff.1 heq

/-- A step of one caller leaves where every other stands. -/
theorem Play.other {t u : T} {ev : Event O R} (he : Play obj s x (u, ev) s' x') (htu : t ≠ u) : s' t = s t := by
  cases he <;> exact Function.update_of_ne htu _ _

/-- A call that is done has been made. -/
theorem Plays.made {t : T} {op : O} {r : R} (hp : Plays obj s x tr s' x') (hs : s t ≠ .called op)
    (hdone : (t, Event.commit op r) ∈ tr) : (t, Event.call op) ∈ tr := by
  induction hp with
  | nil => cases hdone
  | @cons s x e s₁ x₁ tr s' x' he _ ih =>
    rcases List.mem_cons.1 hdone with rfl | hdone
    · cases he with
      | commit hu => exact absurd hu hs
    · by_cases hcall : e = (t, .call op)
      · exact hcall ▸ List.mem_cons_self
      · refine List.mem_cons_of_mem _ (ih ?_ hdone)
        obtain ⟨u, ev⟩ := e
        by_cases htu : t = u
        · subst htu
          cases he with
          | call hu =>
            rw [Function.update_self]
            exact fun heq => hcall (by cases heq; rfl)
          | commit hu => rw [Function.update_self]; simp
          | ret hu => rw [Function.update_self]; simp
        · rwa [he.other htu]

/-- An answer waits for its caller to take it. -/
theorem Plays.waits {t : T} {r : R} (hp : Plays obj s x tr s' x') (hs : s t = .committed r)
    (hnone : ∀ e ∈ tr, e.2.visible = true → e.1 ≠ t) : s' t = .committed r := by
  induction hp with
  | nil => exact hs
  | @cons s x e s₁ x₁ tr s' x' he _ ih =>
    obtain ⟨u, ev⟩ := e
    refine ih ?_ fun e hin => hnone e (List.mem_cons_of_mem _ hin)
    by_cases htu : t = u
    · subst htu
      cases he with
      | call hu => exact absurd rfl (hnone _ List.mem_cons_self rfl)
      | commit hu =>
        rw [hs] at hu
        cases hu
      | ret hu => exact absurd rfl (hnone _ List.mem_cons_self rfl)
    · rw [he.other htu, hs]

/-- A call that is made and not yet answered is done in between, on what the object is then. -/
theorem Plays.done {t : T} {op : O} {r : R} (hp : Plays obj s x tr s' x') (hs : s t = .called op)
    (hs' : s' t = .committed r)
    (hnone : ∀ e ∈ tr, e.2.visible = true → e.1 ≠ t) :
    ∃ tr₁ tr₂ s₁ x₁, tr = tr₁ ++ (t, .commit op r) :: tr₂ ∧ Plays obj s x tr₁ s₁ x₁ ∧ r = (obj.apply op x₁).2 := by
  induction hp with
  | nil =>
    rw [hs] at hs'
    cases hs'
  | @cons s x e s₁ x₁ tr s' x' he hrest ih =>
    obtain ⟨u, ev⟩ := e
    have hnone' : ∀ e ∈ tr, e.2.visible = true → e.1 ≠ t := fun e hin => hnone e (List.mem_cons_of_mem _ hin)
    by_cases htu : t = u
    · subst htu
      cases he with
      | call hu => exact absurd rfl (hnone _ List.mem_cons_self rfl)
      | @commit t op' hu =>
        rw [hs] at hu
        cases hu
        have hwait := hrest.waits (Function.update_self ..) hnone'
        rw [hs'] at hwait
        cases hwait
        exact ⟨[], tr, s, x, rfl, .nil, rfl⟩
      | ret hu => exact absurd rfl (hnone _ List.mem_cons_self rfl)
    · obtain ⟨tr₁, tr₂, s₂, x₂, rfl, hpre, hr⟩ := ih ((he.other htu).trans hs) hs' hnone'
      exact ⟨_ :: tr₁, tr₂, s₂, x₂, rfl, .cons he hpre, hr⟩

omit [DecidableEq T] in
/-- Where an event is seen, and what the trace is before and after. -/
theorem history_first {h : Trace T O R} (heq : tr.history = e :: h) :
    ∃ tr₁ tr₂ : Trace T O R, tr = tr₁ ++ e :: tr₂ ∧ tr₁.history = [] ∧ tr₂.history = h := by
  obtain ⟨tr₁, tr₂, rfl, hnone, -, hrest⟩ := List.filter_eq_cons_iff.1 heq
  exact ⟨tr₁, tr₂, rfl, List.filter_eq_nil_iff.2 hnone, hrest⟩

/-- A call that is answered is done between its being made and its being answered. -/
theorem Plays.between {t : T} {op : O} {r : R} {h₁ h₂ h₃ : Trace T O R} (hp : Plays obj s x tr s' x')
    (heq : tr.history = h₁ ++ (t, .call op) :: (h₂ ++ (t, .ret r) :: h₃)) (hnone : ∀ e ∈ h₂, e.1 ≠ t) :
    ∃ (tr₁ tr₂ : Trace T O R) (s₁ : T → Stand O R) (x₁ : X) (g g' : Trace T O R), tr = tr₁ ++ (t, .commit op r) :: tr₂ ∧
      Plays obj s x tr₁ s₁ x₁ ∧ r = (obj.apply op x₁).2 ∧
      h₂ = g ++ g' ∧ tr₁.history = h₁ ++ (t, .call op) :: g ∧ tr₂.history = g' ++ (t, .ret r) :: h₃ := by
  obtain ⟨tra, _, rfl, rfl, hfrom⟩ := history_split heq
  obtain ⟨trb, _, rfl, hb, hafter⟩ := history_first hfrom
  obtain ⟨trc, _, rfl, rfl, hto⟩ := history_split hafter
  obtain ⟨trd, tr', rfl, hd, rfl⟩ := history_first hto
  obtain ⟨s₁, x₁, hpa, hp⟩ := hp.split
  obtain ⟨s₂, x₂, hpb, hp⟩ := hp.split
  cases hp with
  | cons hcall hp =>
  rw [← List.append_assoc] at hp
  obtain ⟨s₄, x₄, hpd, hp⟩ := hp.split
  cases hp with
  | cons hret hp =>
  cases hcall with
  | call hidle =>
  cases hret with
  | ret hcom =>
  have hquiet : ∀ e ∈ trc ++ trd, e.2.visible = true → e.1 ≠ t := by
    intro e hin hvis
    have hseen : e ∈ Trace.history (trc ++ trd) := List.mem_filter.2 ⟨hin, hvis⟩
    rw [history_append, hd, List.append_nil] at hseen
    exact hnone e hseen
  obtain ⟨trm, trn, s₅, x₅, hcd, hpm, hr⟩ := hpd.done (Function.update_self ..) hcom hquiet
  have hh : Trace.history trc = Trace.history trm ++ Trace.history trn := by
    have hboth := congrArg Trace.history hcd
    rw [history_append, hd, List.append_nil] at hboth
    rw [hboth, history_append]
    rfl
  refine ⟨tra ++ trb ++ (t, .call op) :: trm, trn ++ (t, .ret r) :: tr', s₅, x₅, trm.history, Trace.history trn, ?_,
    (hpa.append hpb).append (.cons (.call hidle) hpm), hr, hh, ?_, ?_⟩
  · rw [← List.append_assoc trc, hcd]
    simp
  · simp [hb, history_cons, Event.visible]
  · simp [history_cons, Event.visible]

/-- Callers come into a stand by one kind of event and go out of it by another: no more go out than came in, those
that are still there counted with the former. -/
theorem Plays.flow (into out : Event O R → Bool) (within : Stand O R → Prop)
    (hstep : ∀ {s s' : T → Stand O R} {x x' : X} {t : T} {e : Event O R}, Play obj s x (t, e) s' x' →
      (into e = false → within (s' t) → within (s t)) ∧
        (out e = true → into e = false ∧ within (s t) ∧ ¬ within (s' t)))
    (hs : ∀ t, ¬ within (s t)) (hp : Plays obj s x tr s' x') {ts : List T} (hts : ts.Nodup)
    (hin : ∀ t ∈ ts, within (s' t)) :
    tr.countP (fun e => out e.2) + ts.length ≤ tr.countP fun e => into e.2 := by
  -- from the last event back
  induction tr using List.reverseRec generalizing s' x' ts with
  | nil =>
    cases hp
    rcases ts with _ | ⟨t, ts⟩
    · exact Nat.le_refl _
    · exact absurd (hin t List.mem_cons_self) (hs t)
  | append_singleton tr e ih =>
    obtain ⟨s₁, x₁, hpre, hlast⟩ := hp.split
    cases hlast with
    | cons he hnil =>
      cases hnil
      obtain ⟨t, e⟩ := e
      obtain ⟨hkeep, hout⟩ := hstep he
      have hother : ∀ u, u ≠ t → within (s' u) → within (s₁ u) := by
        intro u hut hu
        cases he <;> rwa [Function.update_of_ne hut] at hu
      simp only [List.countP_append, List.countP_singleton]
      rcases hi : into e with _ | _
      · rcases ho : out e with _ | _
        · have hmore := ih hpre hts fun u hu => by
            by_cases hut : u = t
            · exact hut ▸ hkeep hi (hut ▸ hin u hu)
            · exact hother u hut (hin u hu)
          simpa using hmore
        · -- one that goes out was there
          obtain ⟨-, hwas, hnot⟩ := hout ho
          have hfresh : t ∉ ts := fun ht => hnot (hin t ht)
          have hmore := ih hpre (List.nodup_cons.2 ⟨hfresh, hts⟩) fun u hu => by
            rcases List.mem_cons.1 hu with rfl | hu
            · exact hwas
            · exact hother u (fun hut => hfresh (hut ▸ hu)) (hin u hu)
          rw [List.length_cons] at hmore
          simp only [if_true, Bool.false_eq_true, if_false]
          omega
      · have ho : out e = false := Bool.eq_false_iff.2 fun ho => by
          rw [(hout ho).1] at hi
          cases hi
        have hmore := ih hpre (hts.erase t) fun u hu => by
          obtain ⟨hut, hu⟩ := hts.mem_erase_iff.1 hu
          exact hother u hut (hin u hu)
        have hlen : ts.length ≤ (ts.erase t).length + 1 := by
          rw [List.length_erase]
          split <;> omega
        rw [ho]
        simp only [if_true, Bool.false_eq_true, if_false]
        omega

/-- No more calls are done than are made. -/
theorem Plays.commits_le (hs : ∀ t, s t = .idle) (hp : Plays obj s x tr s' x') :
    tr.commits.length ≤ tr.countP fun e => e.2.isCall := by
  have hflow := hp.flow Event.isCall (· matches .commit _ _) (fun st => ∃ op, st = .called op) ?_
    (fun t => by rw [hs t]; simp) List.nodup_nil (by simp)
  · refine Nat.le_trans (Nat.le_of_eq ?_) hflow
    rw [Trace.commits, List.length_filterMap_eq_countP]
    refine List.countP_congr fun e _ => ?_
    rcases e with ⟨t, op | ⟨op, r⟩ | r⟩ <;> simp
  · intro s s' x x' t e he
    cases he with
    | call hu => exact ⟨fun h => (by cases h), fun h => (by cases h)⟩
    | commit hu => exact ⟨fun _ _ => ⟨_, hu⟩, fun _ => ⟨rfl, ⟨_, hu⟩, by simp⟩⟩
    | ret hu => exact ⟨fun _ h => (by simp at h), fun h => (by cases h)⟩

/-- No more answers of a kind are given than calls are done with. -/
theorem Plays.rets_le (hs : ∀ t, s t = .idle) (hp : Plays obj s x tr s' x') (f : R → Bool) :
    (tr.countP fun e => e.2.answer.any f) ≤ tr.commits.countP fun done => f done.2 := by
  have hflow := hp.flow (fun e => match e with | .commit _ r => f r | _ => false) (fun e => e.answer.any f)
    (fun st => ∃ r, st = .committed r ∧ f r = true) ?_ (fun t => by rw [hs t]; simp) List.nodup_nil (by simp)
  · refine Nat.le_trans hflow (Nat.le_of_eq ?_)
    rw [Trace.commits, List.countP_filterMap]
    refine List.countP_congr fun e _ => ?_
    rcases e with ⟨t, op | ⟨op, r⟩ | r⟩ <;> simp
  · intro s s' x x' t e he
    cases he with
    | call hu => exact ⟨fun _ h => (by simp at h), fun h => (by cases h)⟩
    | @commit t op hu =>
      refine ⟨fun hf h => ?_, fun h => (by cases h)⟩
      rw [Function.update_self] at h
      obtain ⟨r, heq, hr⟩ := h
      cases heq
      exact absurd (hr.symm.trans hf) (by simp)
    | @ret t r hu => exact ⟨fun _ h => (by simp at h), fun h => ⟨rfl, ⟨r, hu, h⟩, by simp⟩⟩

/-! ## Simulations -/

/-- Runs of a system whose steps show an event or none. -/
inductive Runs (step : C → Option (T × Event O R) → C → Prop) : C → Trace T O R → C → Prop
  | nil {c : C} : Runs step c [] c
  | snoc {c c₁ c' : C} {h : Trace T O R} {e : Option (T × Event O R)} : Runs step c h c₁ → step c₁ e c' →
    Runs step c (h ++ e.toList) c'

omit [DecidableEq T] in
/-- A run goes on from its first step. -/
theorem Runs.head {step : C → Option (T × Event O R) → C → Prop} {c c₁ c' : C} {h : Trace T O R}
    {e : Option (T × Event O R)}
    (he : step c e c₁) (hr : Runs step c₁ h c') : Runs step c (e.toList ++ h) c' := by
  induction hr with
  | nil =>
    rw [List.append_nil]
    exact .snoc .nil he
  | snoc _ he' ih =>
    have hmore := Runs.snoc ih he'
    rwa [List.append_assoc] at hmore

omit [DecidableEq T] in
theorem Runs.append {step : C → Option (T × Event O R) → C → Prop} {c c₁ c' : C} {h h' : Trace T O R}
    (hr : Runs step c h c₁) (hr' : Runs step c₁ h' c') : Runs step c (h ++ h') c' := by
  induction hr' with
  | nil => rwa [List.append_nil]
  | snoc _ he ih =>
    rw [← List.append_assoc]
    exact .snoc ih he

/-- A system that follows the object: each of its steps is some events of a trace that show what the step shows. -/
structure Simulates (obj : Object X O R) (step : C → Option (T × Event O R) → C → Prop) (init : C)
    (sim : C → (T → Stand O R) → X → Prop) : Prop where
  init : sim init (fun _ => .idle) obj.init
  step : ∀ {c c' s x e}, sim c s x → step c e c' →
    ∃ tr s' x', Plays obj s x tr s' x' ∧ tr.history = e.toList ∧ sim c' s' x'

section

variable {step : C → Option (T × Event O R) → C → Prop} {init c : C} {sim : C → (T → Stand O R) → X → Prop}
  {h : Trace T O R}

theorem Simulates.runs (hsim : Simulates obj step init sim) (hr : Runs step init h c) :
    ∃ tr s x, Plays obj (fun _ => .idle) obj.init tr s x ∧ tr.history = h ∧ sim c s x := by
  induction hr with
  | nil => exact ⟨[], _, _, .nil, rfl, hsim.init⟩
  | snoc _ he ih =>
    obtain ⟨tr, s, x, hp, rfl, hc⟩ := ih
    obtain ⟨tr', s', x', hp', hvis, hc'⟩ := hsim.step hc he
    exact ⟨tr ++ tr', s', x', hp.append hp', by rw [history_append, hvis], hc'⟩

/-- What is seen of a system that follows an object is linearizable. -/
theorem Simulates.linearizable (hsim : Simulates obj step init sim) (hr : Runs step init h c) : Linearizable obj h := by
  obtain ⟨tr, s, x, hp, hh, -⟩ := hsim.runs hr
  exact ⟨tr, s, x, hp, hh⟩

end

end

end TabnasAbnf.Base
