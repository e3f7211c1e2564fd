/-
The C library's calls, made by any callers at once, are answered as if each were done at one moment between its
being made and its being answered: `loadGrammar` where the instance is put in the registry, `freeGrammar` where the
handle is deleted, `parseWith` where the handle is looked up. That a parse is answered as if the parser had been
free then is what the mutex that all parses share is for.
-/
import TabnasAbnf.Clib.Calls

namespace TabnasAbnf.Clib

open TabnasAbnf.Base

/-! ## The parser, one parse at a time -/

/-- How many steps of work a parse takes from a state, and how it ends. It leaves the parser at rest. -/
inductive Engine.Ends {σ : Type} (eng : Engine σ) (rest : σ → Prop) : Nat → σ → Outcome → Prop
  | done {s o} : eng.work s = .inr o → rest s → Ends eng rest 0 s o
  | more {n s s' o} : eng.work s = .inl s' → Ends eng rest n s' o → Ends eng rest (n + 1) s o

/-- A parser at rest parses each source to its own end, whatever it parsed before, and is at rest again. -/
def Engine.Answers {σ : Type} (eng : Engine σ) (rest : σ → Prop) (answer : Bytes → Outcome) : Prop :=
  ∀ s src, rest s → ∃ n, eng.Ends rest n (eng.start src s) (answer src)

/-! ## What a place in a call says of the call -/

def Writing.task : Writing → Task
  | .load => .load
  | .free handle => .free handle

/-- A call stands where it has been made and not yet done, or where it has been done, to be answered so. -/
def Agrees (unmarshal : Bytes → Option Render.Json) (answer : Bytes → Outcome) : Pc → Stand Op Reply → Prop
  | .idle, .idle => True
  | .lock w, .called op | .wait w, .called op | .write w, .called op => op.task unmarshal = w.task
  | .put _, .called op => op.task unmarshal = .load
  | .rlock handle src, .called op | .read handle src, .called op => op.task unmarshal = .parse handle src
  | .runlock g src, .committed r => r = if g.isSome then (answer src).reply else unknownHandle
  | .lockMu _ src, .committed r | .lockShared _ src, .committed r | .start _ src, .committed r => r = (answer src).reply
  | .work _, .committed _ => True
  | .unlockShared _ o, .committed r | .unlockMu _ o, .committed r => r = o.reply
  | .unlock r, .committed r' | .ret r, .committed r' => r' = r
  | _, _ => False

section

variable {T σ : Type} [DecidableEq T] {unmarshal : Bytes → Option Render.Json} {answer : Bytes → Outcome}
  {rest : σ → Prop} {eng : Engine σ} {c c' : State T σ} {s : T → Stand Op Reply} {tb : Table} {t : T} {p q : Pc}
  {st : Stand Op Reply}

variable (unmarshal answer rest eng) in
/-- The registry is the table, but for a handle that is counted and not yet put in; a parse under way ends as it was
said to; the parser is at rest where none is. -/
structure Sim (c : State T σ) (s : T → Stand Op Reply) (tb : Table) : Prop where
  inv : Inv c
  agrees : ∀ t, Agrees unmarshal answer (c.pc t) (s t)
  loaded : ∀ handle, tb.loaded handle = (c.loaded handle).isSome
  counted : ∀ t id, c.pc t = .put id → id = c.nextID ∧ c.nextID = tb.nextID + 1
  nextID : (∀ t id, c.pc t ≠ .put id) → c.nextID = tb.nextID
  working : ∀ t g, c.pc t = .work g → ∃ n o, eng.Ends rest n c.engine o ∧ s t = .committed o.reply
  atRest : (∀ t g, c.pc t ≠ .work g) → rest c.engine

/-- Neither the registry nor the parser is at work in a place. -/
def Pc.Plain : Pc → Prop
  | .put _ | .work _ => False
  | _ => True

theorem Pc.Plain.ne_put (h : p.Plain) (id : Int64) : p ≠ .put id := by
  rintro rfl
  exact h

theorem Pc.Plain.ne_work (h : p.Plain) (g : Nat) : p ≠ .work g := by
  rintro rfl
  exact h

theorem update_cases {α : Type} {f : T → α} {a : α} {P : T → α → Prop} (ht : P t a)
    (hf : ∀ u, u ≠ t → P u (f u)) (u : T) :
    P u (Function.update f t a u) := by
  by_cases hut : u = t
  · subst hut
    rwa [Function.update_self]
  · rw [Function.update_of_ne hut]
    exact hf u hut

theorem agrees_update (h : ∀ t, Agrees unmarshal answer (c.pc t) (s t)) (hp : Agrees unmarshal answer p st) (u : T) :
    Agrees unmarshal answer (Function.update c.pc t p u) (Function.update s t st u) := by
  by_cases hut : u = t
  · subst hut
    rwa [Function.update_self, Function.update_self]
  · rw [Function.update_of_ne hut, Function.update_of_ne hut]
    exact h u

/-- A place that some other call has stays. -/
theorem update_eq_other (hp : p ≠ q) {u : T} (hu : Function.update c.pc t p u = q) : u ≠ t ∧ c.pc u = q := by
  by_cases hut : u = t
  · subst hut
    rw [Function.update_self] at hu
    exact absurd hu hp
  · rw [Function.update_of_ne hut] at hu
    exact ⟨hut, hu⟩

/-- A place that no call has had, none has. -/
theorem update_ne_iff (hp : p ≠ q) (hq : c.pc t ≠ q) : (∀ u, Function.update c.pc t p u ≠ q) ↔ ∀ u, c.pc u ≠ q := by
  constructor
  · intro h u hu
    by_cases hut : u = t
    · subst hut
      exact hq hu
    · exact h u (by rwa [Function.update_of_ne hut])
  · exact fun h u hu => h u (update_eq_other hp hu).2

/-- A step between plain places that counts no handle and leaves the parser. -/
theorem Sim.plain {tb' : Table} (h : Sim unmarshal answer rest eng c s tb) (hpc : c'.pc = Function.update c.pc t p)
    (hl : ∀ handle, tb'.loaded handle = (c'.loaded handle).isSome) (hn : c'.nextID = c.nextID ∧ tb'.nextID = tb.nextID)
    (he : c'.engine = c.engine) (hinv : Inv c') (hq : c.pc t = q) (hplain : q.Plain ∧ p.Plain)
    (hst : Agrees unmarshal answer p st) : Sim unmarshal answer rest eng c' (Function.update s t st) tb' where
  inv := hinv
  agrees u := by
    rw [hpc]
    exact agrees_update h.agrees hst u
  loaded := hl
  counted u id hu := by
    rw [hpc] at hu
    rw [hn.1, hn.2]
    exact h.counted u id (update_eq_other (hplain.2.ne_put id) hu).2
  nextID hnone := by
    rw [hn.1, hn.2]
    refine h.nextID fun u id => ?_
    rw [hpc] at hnone
    exact (update_ne_iff (hplain.2.ne_put id) (hq ▸ hplain.1.ne_put id)).1 (fun u => hnone u id) u
  working u g hu := by
    rw [hpc] at hu
    obtain ⟨hut, hu⟩ := update_eq_other (hplain.2.ne_work g) hu
    rw [he, Function.update_of_ne hut]
    exact h.working u g hu
  atRest hnone := by
    rw [he]
    refine h.atRest fun u g => ?_
    rw [hpc] at hnone
    exact (update_ne_iff (hplain.2.ne_work g) (hq ▸ hplain.1.ne_work g)).1 (fun u => hnone u g) u

/-- Such a step that shows and does nothing. -/
theorem Sim.silent (h : Sim unmarshal answer rest eng c s tb) (hpc : c'.pc = Function.update c.pc t p)
    (hl : c'.loaded = c.loaded) (hn : c'.nextID = c.nextID) (he : c'.engine = c.engine) (hinv : Inv c')
    (hq : c.pc t = q)
    (hplain : q.Plain ∧ p.Plain) (hst : ∀ st, Agrees unmarshal answer q st → Agrees unmarshal answer p st) :
    ∃ tr s' tb', Plays (library unmarshal answer) s tb tr s' tb' ∧ tr.history = [] ∧
      Sim unmarshal answer rest eng c' s' tb' := by
  have hloaded : ∀ handle, tb.loaded handle = (c'.loaded handle).isSome := by
    rw [hl]
    exact h.loaded
  have hsim := h.plain hpc hloaded ⟨hn, rfl⟩ he hinv hq hplain (hst _ (hq ▸ h.agrees t))
  rw [Function.update_eq_self] at hsim
  exact ⟨[], s, tb, .nil, rfl, hsim⟩

omit [DecidableEq T] in
/-- A call that stands where it is to be done. -/
theorem Sim.called (h : Sim unmarshal answer rest eng c s tb) {task : Task} (hq : c.pc t = q)
    (hcalled : ∀ st, Agrees unmarshal answer q st → ∃ op, st = .called op ∧ op.task unmarshal = task) :
    ∃ op, s t = .called op ∧ op.task unmarshal = task := hcalled _ (hq ▸ h.agrees t)

/-- A call that is done now. -/
theorem plays_commit {op : Op} {task : Task} (hs : s t = .called op) (htask : op.task unmarshal = task) :
    Plays (library unmarshal answer) s tb [(t, .commit op (tb.run answer task).2)]
      (Function.update s t (.committed (tb.run answer task).2)) (tb.run answer task).1 := by
  subst htask
  exact .cons (.commit hs) .nil

theorem agrees_write {w : Writing} (st : Stand Op Reply) (h : Agrees unmarshal answer (.write w) st) :
    ∃ op, st = .called op ∧ op.task unmarshal = w.task := by
  cases st with
  | called op => exact ⟨op, rfl, h⟩
  | idle => exact h.elim
  | committed r => exact h.elim

theorem agrees_put {id : Int64} (st : Stand Op Reply) (h : Agrees unmarshal answer (.put id) st) :
    ∃ op, st = .called op ∧ op.task unmarshal = .load := by
  cases st with
  | called op => exact ⟨op, rfl, h⟩
  | idle => exact h.elim
  | committed r => exact h.elim

theorem agrees_read {handle : Int64} {src : Bytes} (st : Stand Op Reply)
    (h : Agrees unmarshal answer (.read handle src) st) :
    ∃ op, st = .called op ∧ op.task unmarshal = .parse handle src := by
  cases st with
  | called op => exact ⟨op, rfl, h⟩
  | idle => exact h.elim
  | committed r => exact h.elim

/-- The handle is counted, and is put in at the next step. -/
theorem Sim.count (h : Sim unmarshal answer rest eng c s tb) (hq : c.pc t = .write .load)
    (hinv : Inv ({ c with nextID := c.nextID + 1 }.to t (.put (c.nextID + 1)))) :
    Sim unmarshal answer rest eng ({ c with nextID := c.nextID + 1 }.to t (.put (c.nextID + 1))) s tb := by
  -- no other call writes
  have halone : ∀ u id, c.pc u ≠ .put id := by
    intro u id hu
    have hut := h.inv.reg.writer.unique (t := u) (u := t) (by rw [hu]; trivial) (by rw [hq]; trivial)
    subst hut
    rw [hq] at hu
    cases hu
  have hnext := h.nextID halone
  refine ⟨hinv, fun u => ?_, h.loaded, ?_, fun hnone => absurd (Function.update_self ..) (hnone t (c.nextID + 1)),
    fun u g hu => h.working u g (update_eq_other (by simp) hu).2, fun hnone => h.atRest fun u g => ?_⟩
  · have hput : Agrees unmarshal answer (.put (c.nextID + 1)) (s t) := by
      obtain ⟨op, hs, htask⟩ := h.called hq agrees_write
      rw [hs]
      exact htask
    have hagrees := @agrees_update _ _ _ _ _ c s t _ _ h.agrees hput u
    rwa [Function.update_eq_self] at hagrees
  · refine update_cases (P := fun _ (p : Pc) => ∀ id, p = .put id → id = c.nextID + 1 ∧
      c.nextID + 1 = tb.nextID + 1) ?_ ?_
    · intro id hid
      cases hid
      exact ⟨rfl, by rw [hnext]⟩
    · exact fun u _ id hu => absurd hu (halone u id)
  · exact (update_ne_iff (by simp) (by rw [hq]; simp)).1 (fun u => hnone u g) u

/-- The instance is put in the registry: the load is done. -/
theorem Sim.put {id : Int64} (h : Sim unmarshal answer rest eng c s tb) (hq : c.pc t = .put id)
    (hpc : c'.pc = Function.update c.pc t (.unlock (.handle id)))
    (hl : c'.loaded = Function.update c.loaded id (some c.made)) (hn : c'.nextID = c.nextID) (he : c'.engine = c.engine)
    (hinv : Inv c') :
    Sim unmarshal answer rest eng c' (Function.update s t (.committed (tb.run answer .load).2))
      (tb.run answer .load).1 := by
  obtain ⟨hid, hnext⟩ := h.counted t id hq
  have hid' : tb.nextID + 1 = id := by rw [hid, hnext]
  refine ⟨hinv, fun u => ?_, fun handle => ?_, fun u id' hu => ?_, fun _ => ?_, fun u g hu => ?_, fun hnone => ?_⟩
  · rw [hpc]
    have hput : Agrees unmarshal answer (.unlock (.handle id)) (.committed (tb.run answer .load).2) :=
      congrArg Reply.handle hid'
    exact agrees_update h.agrees hput u
  · rw [hl]
    show Function.update tb.loaded (tb.nextID + 1) true handle = _
    rw [hid']
    by_cases hh : handle = id
    · subst hh
      rw [Function.update_self, Function.update_self]
      rfl
    · rw [Function.update_of_ne hh, Function.update_of_ne hh, h.loaded]
  · -- no other call writes
    rw [hpc] at hu
    obtain ⟨hut, hu⟩ := update_eq_other (by simp) hu
    exact absurd (h.inv.reg.writer.unique (by rw [hu]; trivial) (by rw [hq]; trivial)) hut
  · rw [hn, hnext]
    rfl
  · rw [hpc] at hu
    obtain ⟨hut, hu⟩ := update_eq_other (by simp) hu
    rw [he, Function.update_of_ne hut]
    exact h.working u g hu
  · rw [he]
    refine h.atRest fun u g => ?_
    rw [hpc] at hnone
    exact (update_ne_iff (by simp) (by rw [hq]; simp)).1 (fun u => hnone u g) u

/-- The handle is deleted: the call is done. -/
theorem Sim.free {handle : Int64} (h : Sim unmarshal answer rest eng c s tb) (hq : c.pc t = .write (.free handle))
    (hinv : Inv ({ c with loaded := Function.update c.loaded handle none }.to t (.unlock .released))) :
    Sim unmarshal answer rest eng ({ c with loaded := Function.update c.loaded handle none }.to t (.unlock .released))
      (Function.update s t (.committed (tb.run answer (.free handle)).2)) (tb.run answer (.free handle)).1 := by
  refine h.plain rfl (fun handle' => ?_) ⟨rfl, rfl⟩ rfl hinv hq ⟨trivial, trivial⟩ rfl
  show Function.update tb.loaded handle false handle' = (Function.update c.loaded handle none handle').isSome
  by_cases hh : handle' = handle
  · subst hh
    rw [Function.update_self, Function.update_self]
    rfl
  · rw [Function.update_of_ne hh, Function.update_of_ne hh, h.loaded]

omit [DecidableEq T] in
/-- A call that stands in the parser is the only one. -/
theorem Sim.alone (h : Sim unmarshal answer rest eng c s tb) (hq : (c.pc t).Parses) {u : T} {g : Nat}
    (hu : c.pc u = .work g) :
    u = t := h.inv.sharedMu.unique (by rw [hu]; trivial) hq

/-- The parser is entered at rest. -/
theorem Sim.start (hE : eng.Answers rest answer) (h : Sim unmarshal answer rest eng c s tb) {g : Nat} {src : Bytes}
    (hq : c.pc t = .start g src) (hinv : Inv ({ c with engine := eng.start src c.engine }.to t (.work g))) :
    Sim unmarshal answer rest eng ({ c with engine := eng.start src c.engine }.to t (.work g)) s tb := by
  have hin : (c.pc t).Parses := by rw [hq]; trivial
  have hrest : rest c.engine := by
    refine h.atRest fun u g' hu => ?_
    have hut := h.alone hin hu
    subst hut
    rw [hq] at hu
    cases hu
  have hs : s t = .committed (answer src).reply := by
    have hagrees := h.agrees t
    rw [hq] at hagrees
    rcases hst : s t with _ | op | r
    · rw [hst] at hagrees
      exact hagrees.elim
    · rw [hst] at hagrees
      exact hagrees.elim
    · rw [hst] at hagrees
      exact congrArg Stand.committed hagrees
  obtain ⟨n, hn⟩ := hE c.engine src hrest
  refine ⟨hinv, fun u => ?_, h.loaded,
    fun u id hu => h.counted u id (update_eq_other (by simp) hu).2, fun hnone => ?_, ?_,
    fun hnone => absurd (Function.update_self ..) (hnone t g)⟩
  · have hwork : Agrees unmarshal answer (.work g) (s t) := by
      rw [hs]
      trivial
    have hagrees := @agrees_update _ _ _ _ _ c s t _ _ h.agrees hwork u
    rwa [Function.update_eq_self] at hagrees
  · exact h.nextID fun u id => (update_ne_iff (by simp) (by rw [hq]; simp)).1 (fun u => hnone u id) u
  · refine update_cases (P := fun u (p : Pc) => ∀ g', p = .work g' →
      ∃ n o, eng.Ends rest n (eng.start src c.engine) o ∧ s u = .committed o.reply) ?_ ?_
    · exact fun _ _ => ⟨n, _, hn, hs⟩
    · exact fun u hut g' hu => absurd (h.alone hin hu) hut

omit [DecidableEq T] in
/-- The parser works on. -/
theorem Sim.work (h : Sim unmarshal answer rest eng c s tb) {g : Nat} {e : σ} (hq : c.pc t = .work g)
    (hwork : eng.work c.engine = .inl e) : Sim unmarshal answer rest eng { c with engine := e } s tb := by
  have hin : (c.pc t).Parses := by rw [hq]; trivial
  refine ⟨⟨h.inv.reg, h.inv.mu, h.inv.sharedMu, h.inv.built⟩, h.agrees, h.loaded, h.counted, h.nextID,
    fun u g' hu => ?_,
    fun hnone => absurd hq (hnone t g)⟩
  obtain ⟨n, o, hends, hs⟩ := h.working u g' hu
  cases hends with
  | done hdone _ =>
    rw [hwork] at hdone
    cases hdone
  | more hmore hends =>
    rw [hwork] at hmore
    cases hmore
    exact ⟨_, o, hends, hs⟩

/-- The parser ends as it was said to, at rest. -/
theorem Sim.ends (h : Sim unmarshal answer rest eng c s tb) {g : Nat} {o : Outcome} (hq : c.pc t = .work g)
    (hwork : eng.work c.engine = .inr o) (hinv : Inv (c.to t (.unlockShared g o))) :
    Sim unmarshal answer rest eng (c.to t (.unlockShared g o)) s tb := by
  have hin : (c.pc t).Parses := by rw [hq]; trivial
  obtain ⟨n, o', hends, hs⟩ := h.working t g hq
  have hdone : o' = o ∧ rest c.engine := by
    cases hends with
    | done hdone hrest =>
      rw [hwork] at hdone
      exact ⟨(Sum.inr.inj hdone).symm, hrest⟩
    | more hmore _ =>
      rw [hwork] at hmore
      cases hmore
  obtain ⟨rfl, hrest⟩ := hdone
  refine ⟨hinv, fun u => ?_, h.loaded, fun u id hu => h.counted u id (update_eq_other (by simp) hu).2, fun hnone => ?_,
    fun u g' hu => ?_, fun _ => hrest⟩
  · have hdone : Agrees unmarshal answer (.unlockShared g o') (s t) := by
      rw [hs]
      exact rfl
    have hagrees := @agrees_update _ _ _ _ _ c s t _ _ h.agrees hdone u
    rwa [Function.update_eq_self] at hagrees
  · exact h.nextID fun u id => (update_ne_iff (by simp) (by rw [hq]; simp)).1 (fun u => hnone u id) u
  · obtain ⟨hut, hu⟩ := update_eq_other (by simp) hu
    exact absurd (h.alone hin hu) hut

/-- Each step of a call is none of its caller's, or does the call. -/
theorem Sim.advance (hE : eng.Answers rest answer) (h : Sim unmarshal answer rest eng c s tb)
    (hstep : Clib.advance eng t c = some c') :
    ∃ tr s' tb', Plays (library unmarshal answer) s tb tr s' tb' ∧ tr.history = [] ∧
      Sim unmarshal answer rest eng c' s' tb' := by
  have hinv := h.inv.advance hstep
  unfold Clib.advance at hstep
  rcases hpc : c.pc t with _ | w | w | (_ | handle) | id' | r | ⟨handle, src⟩ | ⟨handle, src⟩ | ⟨_ | g, src⟩ |
    ⟨g, src⟩ | ⟨g, src⟩ |
    ⟨g, src⟩ | g | ⟨g, o⟩ | ⟨g, o⟩ | r
  all_goals simp only [hpc] at hstep
  · cases hstep
  · -- `lock`
    split at hstep
    · cases hstep
      exact h.silent rfl rfl rfl rfl hinv hpc ⟨trivial, trivial⟩ fun st hst => by cases st <;> exact hst
    · cases hstep
  · -- `wait`
    split at hstep
    · cases hstep
      exact h.silent rfl rfl rfl rfl hinv hpc ⟨trivial, trivial⟩ fun st hst => by cases st <;> exact hst
    · cases hstep
  · -- `write`, to load
    cases hstep
    exact ⟨[], s, tb, .nil, rfl, h.count hpc hinv⟩
  · -- `write`, to free
    cases hstep
    obtain ⟨op, hs, htask⟩ := h.called hpc agrees_write
    exact ⟨_, _, _, plays_commit hs htask, rfl, h.free hpc hinv⟩
  · -- `put`
    cases hstep
    obtain ⟨op, hs, htask⟩ := h.called hpc agrees_put
    exact ⟨_, _, _, plays_commit hs htask, rfl, h.put hpc rfl rfl rfl rfl hinv⟩
  · -- `unlock`
    cases hstep
    exact h.silent rfl rfl rfl rfl hinv hpc ⟨trivial, trivial⟩ fun st hst => by cases st <;> exact hst
  · -- `rlock`
    split at hstep
    · cases hstep
      exact h.silent rfl rfl rfl rfl hinv hpc ⟨trivial, trivial⟩ fun st hst => by cases st <;> exact hst
    · cases hstep
  · -- `read`
    cases hstep
    obtain ⟨op, hs, htask⟩ := h.called hpc agrees_read
    refine ⟨_, _, _, plays_commit hs htask, rfl, h.plain rfl h.loaded ⟨rfl, rfl⟩ rfl hinv hpc ⟨trivial, trivial⟩ ?_⟩
    show _ = if (c.loaded handle).isSome then _ else _
    rw [← h.loaded handle]
    rfl
  · -- `runlock`, of a handle that is not loaded
    cases hstep
    exact h.silent rfl rfl rfl rfl hinv hpc ⟨trivial, trivial⟩ fun st hst => by cases st <;> exact hst
  · -- `runlock`
    cases hstep
    exact h.silent rfl rfl rfl rfl hinv hpc ⟨trivial, trivial⟩ fun st hst => by cases st <;> exact hst
  · -- `lockMu`
    split at hstep
    · cases hstep
      exact h.silent rfl rfl rfl rfl hinv hpc ⟨trivial, trivial⟩ fun st hst => by cases st <;> exact hst
    · cases hstep
  · -- `lockShared`
    split at hstep
    · cases hstep
      exact h.silent rfl rfl rfl rfl hinv hpc ⟨trivial, trivial⟩ fun st hst => by cases st <;> exact hst
    · cases hstep
  · -- `start`
    cases hstep
    exact ⟨[], s, tb, .nil, rfl, h.start hE hpc hinv⟩
  · -- `work`
    split at hstep
    · rename_i hwork
      cases hstep
      exact ⟨[], s, tb, .nil, rfl, h.work hpc hwork⟩
    · rename_i hwork
      cases hstep
      exact ⟨[], s, tb, .nil, rfl, h.ends hpc hwork hinv⟩
  · -- `unlockShared`
    cases hstep
    exact h.silent rfl rfl rfl rfl hinv hpc ⟨trivial, trivial⟩ fun st hst => by cases st <;> exact hst
  · -- `unlockMu`
    cases hstep
    exact h.silent rfl rfl rfl rfl hinv hpc ⟨trivial, trivial⟩ fun st hst => by cases st <;> exact hst
  · cases hstep

omit [DecidableEq T] in
theorem Sim.init {e : σ} (he : rest e) :
    Sim unmarshal answer rest eng ({ engine := e } : State T σ) (fun _ => .idle) (library unmarshal answer).init where
  inv := .start e
  agrees _ := trivial
  loaded _ := rfl
  counted _ _ h := by cases h
  nextID _ := rfl
  working _ _ h := by cases h
  atRest _ := he

theorem Task.entry_plain (task : Task) : task.entry.Plain := by cases task <;> trivial

/-- A call that is not answered at once stands before its first step. -/
theorem agrees_entry {op : Op} (h : ∀ r, op.task unmarshal ≠ .answer r) :
    Agrees unmarshal answer (op.task unmarshal).entry (.called op) := by
  rcases htask : op.task unmarshal with r | _ | ⟨handle, src⟩ | handle
  · exact absurd htask (h r)
  · exact htask
  · exact htask
  · exact htask

theorem agrees_idle {st : Stand Op Reply} (h : Agrees unmarshal answer .idle st) : st = .idle := by
  cases st with
  | idle => rfl
  | called op => exact h.elim
  | committed r => exact h.elim

theorem agrees_ret {r : Reply} {st : Stand Op Reply} (h : Agrees unmarshal answer (.ret r) st) : st = .committed r := by
  cases st with
  | idle => exact h.elim
  | called op => exact h.elim
  | committed r' => exact congrArg Stand.committed h

/-- A call is made; one that is answered at once is done at once. -/
theorem Sim.call (h : Sim unmarshal answer rest eng c s tb) {op : Op} (hq : c.pc t = .idle)
    (hinv : Inv (c.to t (op.task unmarshal).entry)) :
    ∃ tr s' tb', Plays (library unmarshal answer) s tb tr s' tb' ∧ tr.history = [(t, .call op)] ∧
      Sim unmarshal answer rest eng (c.to t (op.task unmarshal).entry) s' tb' := by
  have hs : s t = .idle := agrees_idle (hq ▸ h.agrees t)
  have hcall : Plays (library unmarshal answer) s tb [(t, .call op)] (Function.update s t (.called op)) tb :=
    .cons (.call hs) .nil
  have hplain : ∀ st, Agrees unmarshal answer (op.task unmarshal).entry st →
      Sim unmarshal answer rest eng (c.to t (op.task unmarshal).entry) (Function.update s t st) tb := fun st hst =>
    h.plain rfl h.loaded ⟨rfl, rfl⟩ rfl hinv hq ⟨trivial, Task.entry_plain _⟩ hst
  by_cases hans : ∃ r, op.task unmarshal = .answer r
  · obtain ⟨r, htask⟩ := hans
    have hcommit : Plays (library unmarshal answer) _ tb _ _ tb :=
      plays_commit (t := t) (Function.update_self t _ s) htask
    rw [Function.update_idem] at hcommit
    refine ⟨_, _, _, hcall.append hcommit, rfl, hplain _ ?_⟩
    rw [htask]
    exact rfl
  · exact ⟨_, _, _, hcall, rfl, hplain _ (agrees_entry fun r hr => hans ⟨r, hr⟩)⟩

/-- A call is answered what it was done with. -/
theorem Sim.ret (h : Sim unmarshal answer rest eng c s tb) {r : Reply} (hq : c.pc t = .ret r)
    (hinv : Inv (c.to t .idle)) :
    ∃ tr s' tb', Plays (library unmarshal answer) s tb tr s' tb' ∧ tr.history = [(t, .ret r)] ∧
      Sim unmarshal answer rest eng (c.to t .idle) s' tb' :=
  ⟨_, _, _, .cons (.ret (agrees_ret (hq ▸ h.agrees t))) .nil, rfl,
    h.plain rfl h.loaded ⟨rfl, rfl⟩ rfl hinv hq ⟨trivial, trivial⟩ trivial⟩

theorem Sim.step {ev : Option (T × Event Op Reply)} (hE : eng.Answers rest answer)
    (h : Sim unmarshal answer rest eng c s tb)
    (hstep : Step unmarshal eng c ev c') :
    ∃ tr s' tb', Plays (library unmarshal answer) s tb tr s' tb' ∧ tr.history = ev.toList ∧
      Sim unmarshal answer rest eng c' s' tb' := by
  have hinv := h.inv.step hstep
  cases hstep with
  | call hpc => exact h.call hpc hinv
  | advance hadv => exact h.advance hE hadv
  | ret hpc => exact h.ret hpc hinv

/-- The library follows the table of handles, step by step. -/
theorem simulates (hE : eng.Answers rest answer) {e : σ} (he : rest e) :
    Simulates (library unmarshal answer) (Step unmarshal eng) ({ engine := e } : State T σ)
      (Sim unmarshal answer rest eng) where
  init := .init he
  step h hstep := h.step hE hstep

/-- Whatever calls any callers make at once, and however their steps interleave, each is answered as if it had been
done at one moment between its being made and its being answered, alone, on the table of handles; a parse of a handle
that is loaded at that moment is answered what the parser makes of its source. -/
theorem calls_linearizable (hE : eng.Answers rest answer) {e : σ} (he : rest e) {hist : Trace T Op Reply}
    (hr : Runs (Step unmarshal eng) { engine := e } hist c) : Linearizable (library unmarshal answer) hist :=
  (simulates hE he).linearizable hr

/-! ## A schedule played -/

variable (unmarshal eng) in
/-- The run of a schedule: whose call is made, or goes on, or is answered, where it can. -/
def drive : List (T × Option Op) → State T σ → Option (Trace T Op Reply × State T σ)
  | [], c => some ([], c)
  | (t, some op) :: more, c =>
    match c.pc t with
    | .idle => (drive more (c.to t (op.task unmarshal).entry)).map fun r => ((t, .call op) :: r.1, r.2)
    | _ => none
  | (t, none) :: more, c =>
    match c.pc t with
    | .ret r => (drive more (c.to t .idle)).map fun out => ((t, .ret r) :: out.1, out.2)
    | _ => (advance eng t c).bind (drive more)

theorem drive_runs {schedule : List (T × Option Op)} {hist : Trace T Op Reply}
    (h : drive unmarshal eng schedule c = some (hist, c')) :
    Runs (Step unmarshal eng) c hist c' := by
  induction schedule generalizing c hist with
  | nil =>
    cases h
    exact .nil
  | cons item more ih =>
    rcases item with ⟨t, _ | op⟩
    · rw [drive] at h
      split at h
      · rename_i hpc
        obtain ⟨⟨hist', c₁⟩, hrest, heq⟩ := Option.map_eq_some_iff.1 h
        cases heq
        exact .head (.ret hpc) (ih hrest)
      · obtain ⟨c₁, hadv, hrest⟩ := Option.bind_eq_some_iff.1 h
        exact .head (.advance hadv) (ih hrest)
    · rw [drive] at h
      split at h
      · rename_i hpc
        obtain ⟨⟨hist', c₁⟩, hrest, heq⟩ := Option.map_eq_some_iff.1 h
        cases heq
        exact .head (.call hpc) (ih hrest)
      · cases h

end

/-- A parser that takes its source byte by byte and then accepts it. -/
def taker : Engine Bytes where
  start src _ := src
  work
    | [] => .inr .accepted
    | _ :: src => .inl src

theorem taker_answers : taker.Answers (· = []) fun _ => .accepted := by
  intro s src _
  refine ⟨src.length, ?_⟩
  show taker.Ends _ _ src _
  induction src with
  | nil => exact .done rfl rfl
  | cons b src ih => exact .more rfl ih

/-- `a=a`. -/
def aSource : Buffer := ⟨some [97, 61, 97], 3⟩

/-- One caller loads a parser, and frees it while another caller's parse has looked it up. -/
def loadFreeSchedule : List (Bool × Option Op) :=
  (true, some (.grammar ⟨none, 0⟩)) :: List.replicate 6 (true, none) ++
    [(false, some (.parse 1 aSource)), (false, none), (false, none), (true, some (.grammarFree 1)), (true, none),
      (false, none)] ++
      List.replicate 4 (true, none) ++ List.replicate 10 (false, none)

def loadFreeHistory : Trace Bool Op Reply :=
  [(true, .call (.grammar ⟨none, 0⟩)), (true, .ret (.handle 1)), (false, .call (.parse 1 aSource)),
    (true, .call (.grammarFree 1)), (true, .ret .released), (false, .ret .accept)]

/-- The parse is answered after the handle is gone, as if it had been done before. -/
theorem calls_linearizable_loadFree :
    (∃ c, Runs (Step (fun _ => none) taker) { engine := [] } loadFreeHistory c) ∧
      Linearizable (library (fun _ => none) fun _ => .accepted) loadFreeHistory := by
  have hdrive : ∃ c, drive (fun _ => none) taker loadFreeSchedule { engine := [] } = some (loadFreeHistory, c) :=
    ⟨_, rfl⟩
  obtain ⟨c, hdrive⟩ := hdrive
  exact ⟨⟨c, drive_runs hdrive⟩, calls_linearizable taker_answers rfl (drive_runs hdrive)⟩

end TabnasAbnf.Clib
