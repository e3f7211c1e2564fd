/-
The C library under callers that do not wait for one another: where each call stands in `loadGrammar`, `parseWith`
and `freeGrammar`, and what its next step does to the registry, its lock, the instances' mutexes and the parser that
all instances drive. What stands within a lock is what its holder is (`Inv`), in every state that is reached.
-/
import TabnasAbnf.Base.Locks
import TabnasAbnf.Clib.Core

namespace TabnasAbnf.Clib

open TabnasAbnf.Base

/-! ## Where a call stands -/

/-- The registry's writers: `loadGrammar` and `freeGrammar`. -/
inductive Writing
  | load
  | free (handle : Int64)

/-- Before which step a call stands. Of the instance a handle stands for, `g` is the address. -/
inductive Pc
  | idle
  /-- `reg.Lock()`, which waits for another writer. -/
  | lock (w : Writing)
  /-- `reg.Lock()`, which waits for those reading. No reader comes in any more. -/
  | wait (w : Writing)
  /-- `nextID++`, or `delete(loaded, handle)`. -/
  | write (w : Writing)
  /-- `loaded[id] = &instance{parse: p}`. -/
  | put (id : Int64)
  /-- `reg.Unlock()`. -/
  | unlock (r : Reply)
  /-- `reg.RLock()`. -/
  | rlock (handle : Int64) (src : Bytes)
  /-- `g := loaded[handle]`. -/
  | read (handle : Int64) (src : Bytes)
  /-- `reg.RUnlock()`. -/
  | runlock (g : Option Nat) (src : Bytes)
  /-- `g.mu.Lock()`. -/
  | lockMu (g : Nat) (src : Bytes)
  /-- `sharedMu.Lock()`. -/
  | lockShared (g : Nat) (src : Bytes)
  /-- `plug.ParseAbnf(src)`, to be entered. -/
  | start (g : Nat) (src : Bytes)
  /-- `plug.ParseAbnf(src)`, under way. -/
  | work (g : Nat)
  /-- The deferred `sharedMu.Unlock()`, after a panic too. -/
  | unlockShared (g : Nat) (o : Outcome)
  /-- `g.mu.Unlock()`. -/
  | unlockMu (g : Nat) (o : Outcome)
  | ret (r : Reply)

def Task.entry : Task → Pc
  | .answer r => .ret r
  | .load => .lock .load
  | .parse handle src => .rlock handle src
  | .free handle => .lock (.free handle)

/-- Within `reg.Lock()`, or waiting within it for readers. -/
def Pc.Writer : Pc → Prop
  | .wait _ | .write _ | .put _ | .unlock _ => True
  | _ => False

/-- Past `reg.Lock()`. -/
def Pc.Writes : Pc → Prop
  | .write _ | .put _ | .unlock _ => True
  | _ => False

/-- Within `reg.RLock()`. -/
def Pc.Reads : Pc → Prop
  | .read _ _ | .runlock _ _ => True
  | _ => False

/-- Within the mutex of an instance. -/
def Pc.Holds (g : Nat) : Pc → Prop
  | .lockShared g' _ | .start g' _ | .work g' | .unlockShared g' _ | .unlockMu g' _ => g' = g
  | _ => False

/-- Within `sharedMu`. -/
def Pc.Parses : Pc → Prop
  | .start _ _ | .work _ | .unlockShared _ _ => True
  | _ => False

/-- An instance that the call has looked up. -/
def Pc.Knows (g : Nat) : Pc → Prop
  | .runlock g' _ => g' = some g
  | .lockMu g' _ => g' = g
  | pc => pc.Holds g

/-! ## The library -/

/-- The parser behind all instances: a parse starts from what the last one left, and works until it ends. -/
structure Engine (σ : Type) where
  start : Bytes → σ → σ
  work : σ → σ ⊕ Outcome

/-- The library's variables: the registry with its lock, the instances built so far with their mutexes, the mutex all
parses share, and the parser. A lock names its holder. -/
structure State (T σ : Type) where
  writer : Option T := none
  readers : List T := []
  nextID : Int64 := 0
  loaded : Int64 → Option Nat := fun _ => none
  made : Nat := 0
  mu : Nat → Option T := fun _ => none
  sharedMu : Option T := none
  engine : σ
  pc : T → Pc := fun _ => .idle

variable {T σ : Type} [DecidableEq T]

def State.to (c : State T σ) (t : T) (p : Pc) : State T σ := { c with pc := Function.update c.pc t p }

/-- The next step of a call, where it does not wait for another. -/
def advance (eng : Engine σ) (t : T) (c : State T σ) : Option (State T σ) :=
  match c.pc t with
  | .idle | .ret _ => none
  | .lock w => if c.writer = none then some ({ c with writer := some t }.to t (.wait w)) else none
  | .wait w => if c.readers = [] then some (c.to t (.write w)) else none
  | .write .load => some ({ c with nextID := c.nextID + 1 }.to t (.put (c.nextID + 1)))
  | .put id => some ({ c with
      loaded := Function.update c.loaded id (some c.made)
      made := c.made + 1
      mu := Function.update c.mu c.made none }.to t (.unlock (.handle id)))
  | .write (.free handle) => some ({ c with loaded := Function.update c.loaded handle none }.to t (.unlock .released))
  | .unlock r => some ({ c with writer := none }.to t (.ret r))
  | .rlock handle src =>
      if c.writer = none then some ({ c with readers := t :: c.readers }.to t (.read handle src)) else none
  | .read handle src => some (c.to t (.runlock (c.loaded handle) src))
  | .runlock none _ => some ({ c with readers := c.readers.erase t }.to t (.ret unknownHandle))
  | .runlock (some g) src => some ({ c with readers := c.readers.erase t }.to t (.lockMu g src))
  | .lockMu g src =>
    if c.mu g = none then some ({ c with mu := Function.update c.mu g (some t) }.to t (.lockShared g src)) else none
  | .lockShared g src => if c.sharedMu = none then some ({ c with sharedMu := some t }.to t (.start g src)) else none
  | .start g src => some ({ c with engine := eng.start src c.engine }.to t (.work g))
  | .work g =>
    match eng.work c.engine with
    | .inl s => some { c with engine := s }
    | .inr o => some (c.to t (.unlockShared g o))
  | .unlockShared g o => some ({ c with sharedMu := none }.to t (.unlockMu g o))
  | .unlockMu g o => some ({ c with mu := Function.update c.mu g none }.to t (.ret o.reply))

/-- A caller makes a call, a call goes on, or a call is answered. -/
inductive Step (unmarshal : Bytes → Option Render.Json) (eng : Engine σ) :
    State T σ → Option (T × Event Op Reply) → State T σ → Prop
  | call {c t op} : c.pc t = .idle → Step unmarshal eng c (some (t, .call op)) (c.to t (op.task unmarshal).entry)
  | advance {c t c'} : advance eng t c = some c' → Step unmarshal eng c none c'
  | ret {c t r} : c.pc t = .ret r → Step unmarshal eng c (some (t, .ret r)) (c.to t .idle)

/-! ## Who is within which lock -/

/-- The registry's lock is held by the one call that writes; no one reads while another writes. -/
structure Registry (pc : T → Pc) (holder : Option T) (among : List T) : Prop where
  writer : Held Pc.Writer pc holder
  readers : Shared Pc.Reads pc among
  writes : ∀ t, (pc t).Writes → among = []

/-- The instances that are loaded or looked up have been built. -/
structure Built (pc : T → Pc) (held : Int64 → Option Nat) (made : Nat) : Prop where
  loaded : ∀ handle g, held handle = some g → g < made
  known : ∀ t g, (pc t).Knows g → g < made

/-- Each lock is held by the one call that stands within it. -/
structure Inv (c : State T σ) : Prop where
  reg : Registry c.pc c.writer c.readers
  mu : ∀ g, Held (Pc.Holds g) c.pc (c.mu g)
  sharedMu : Held Pc.Parses c.pc c.sharedMu
  built : Built c.pc c.loaded c.made

section

variable {c c' : State T σ} {t : T} {p q : Pc} {eng : Engine σ} {at_ : T → Pc}

theorem Pc.Writes.writer (h : p.Writes) : p.Writer := by
  cases p <;> trivial

theorem Pc.Holds.knows {g : Nat} (h : p.Holds g) : p.Knows g := by
  cases p <;> first | exact h | exact h.elim

/-- A step of one call leaves what holds of every other. -/
theorem forall_update {P : Pc → Prop} (h : ∀ u, P (at_ u)) (hp : P p) (u : T) : P (Function.update at_ t p u) := by
  by_cases hut : u = t
  · subst hut
    rwa [Function.update_self]
  · rw [Function.update_of_ne hut]
    exact h u

theorem writes_update {among : List T} (h : ∀ u, (at_ u).Writes → among = []) (hp : p.Writes → among = []) (u : T) :
    (Function.update at_ t p u).Writes → among = [] := forall_update (P := fun p => p.Writes → among = []) h hp u

theorem Registry.keep {holder : Option T} {among : List T} (h : Registry at_ holder among) (hq : at_ t = q)
    (hw : p.Writer ↔ q.Writer) (hr : p.Reads ↔ q.Reads) (hws : p.Writes → q.Writes) :
    Registry (Function.update at_ t p) holder among where
  writer := h.writer.keep hq hw
  readers := h.readers.keep hq hr
  writes := writes_update h.writes fun hp => h.writes t (hq ▸ hws hp)

theorem Built.keep {held : Int64 → Option Nat} {made : Nat} (h : Built at_ held made) (hk : ∀ g, p.Knows g → g < made) :
    Built (Function.update at_ t p) held made where
  loaded := h.loaded
  known := forall_update (P := fun p => ∀ g, p.Knows g → g < made) h.known hk

theorem Registry.wait {among : List T} {w : Writing} (h : Registry at_ none among) (hq : at_ t = .lock w) :
    Registry (Function.update at_ t (.wait w)) (some t) among where
  writer := h.writer.acquire trivial
  readers := h.readers.keep hq .rfl
  writes := writes_update h.writes False.elim

theorem Registry.unlock {holder : Option T} {among : List T} {r : Reply} (h : Registry at_ holder among)
    (hq : at_ t = .unlock r) : Registry (Function.update at_ t (.ret r)) none among where
  writer := h.writer.release hq trivial id
  readers := h.readers.keep hq .rfl
  writes := writes_update h.writes False.elim

/-- Where no one has the lock to write, a reader comes in. -/
theorem Registry.rlock {among : List T} {handle : Int64} {src : Bytes} (h : Registry at_ none among)
    (hq : at_ t = .rlock handle src) : Registry (Function.update at_ t (.read handle src)) none (t :: among) where
  writer := h.writer.keep hq .rfl
  readers := h.readers.join hq id trivial
  writes := writes_update (fun u hu => by cases (h.writer u).1 hu.writer) False.elim

theorem Registry.runlock {holder : Option T} {among : List T} {g : Option Nat} {src : Bytes}
    (h : Registry at_ holder among)
    (hq : at_ t = .runlock g src) (hw : ¬ p.Writer) (hr : ¬ p.Reads) :
    Registry (Function.update at_ t p) holder (among.erase t) where
  writer := h.writer.keep hq (iff_of_false hw id)
  readers := h.readers.leave hr
  writes := writes_update (fun u hu => by rw [h.writes u hu]; rfl) fun hp => absurd hp.writer hw

/-- An instance's mutex is taken, or given back, and the others stay with their holders. -/
theorem held_update {mu : Nat → Option T} {g : Nat} {holder : Option T} (h : ∀ g, Held (Pc.Holds g) at_ (mu g))
    (hg : Held (Pc.Holds g) (Function.update at_ t p) holder) (hp : ∀ g', g' ≠ g → (p.Holds g' ↔ (at_ t).Holds g'))
    (g' : Nat) :
    Held (Pc.Holds g') (Function.update at_ t p) (Function.update mu g holder g') := by
  by_cases hgg : g' = g
  · subst hgg
    rwa [Function.update_self]
  · rw [Function.update_of_ne hgg]
    exact (h g').keep rfl (hp g' hgg)

/-- Every step of a call keeps each lock with the call that stands within it. -/
theorem Inv.advance (h : Inv c) (hstep : advance eng t c = some c') : Inv c' := by
  unfold Clib.advance at hstep
  rcases hpc : c.pc t with _ | w | w | (_ | handle) | id' | r | ⟨handle, src⟩ | ⟨handle, src⟩ | ⟨_ | g, src⟩ |
    ⟨g, src⟩ | ⟨g, src⟩ |
    ⟨g, src⟩ | g | ⟨g, o⟩ | ⟨g, o⟩ | r
  all_goals simp only [hpc] at hstep
  · cases hstep
  · -- `lock`
    split at hstep
    · rename_i hfree
      cases hstep
      refine ⟨?_, fun g => (h.mu g).keep hpc .rfl, h.sharedMu.keep hpc .rfl, h.built.keep fun _ => False.elim⟩
      have hreg := h.reg
      rw [hfree] at hreg
      exact hreg.wait hpc
    · cases hstep
  · -- `wait`
    split at hstep
    · rename_i hnone
      cases hstep
      exact ⟨⟨h.reg.writer.keep hpc .rfl, h.reg.readers.keep hpc .rfl, fun _ _ => hnone⟩,
        fun g => (h.mu g).keep hpc .rfl,
        h.sharedMu.keep hpc .rfl, h.built.keep fun _ => False.elim⟩
    · cases hstep
  · -- `write`, to load
    cases hstep
    exact ⟨h.reg.keep hpc .rfl .rfl id, fun g => (h.mu g).keep hpc .rfl, h.sharedMu.keep hpc .rfl,
      h.built.keep fun _ => False.elim⟩
  · -- `write`, to free
    cases hstep
    refine ⟨h.reg.keep hpc .rfl .rfl id, fun g => (h.mu g).keep hpc .rfl, h.sharedMu.keep hpc .rfl, ?_⟩
    refine ⟨fun handle' g hg => ?_, (h.built.keep fun _ => False.elim).known⟩
    by_cases hh : handle' = handle
    · subst hh
      simp only [State.to, Function.update_self] at hg
      cases hg
    · simp only [State.to, Function.update_of_ne hh] at hg
      exact h.built.loaded handle' g hg
  · -- `put`: the instance is built at an address that no call knows
    cases hstep
    have hfresh : ∀ u, ¬ (c.pc u).Holds c.made :=
      fun u hu => absurd (h.built.known u _ (Pc.Holds.knows hu)) (Nat.lt_irrefl _)
    refine ⟨h.reg.keep hpc .rfl .rfl id, ?_, h.sharedMu.keep hpc .rfl, ⟨fun handle g hg => ?_, ?_⟩⟩
    · refine held_update h.mu (fun u => ?_) fun g _ => ?_
      · exact iff_of_false (forall_update (P := fun p => ¬ p.Holds c.made) hfresh id u) (by simp)
      · rw [hpc]
        exact .rfl
    · by_cases hh : handle = id'
      · subst hh
        simp only [State.to, Function.update_self, Option.some.injEq] at hg
        exact hg ▸ Nat.lt_succ_self _
      · simp only [State.to, Function.update_of_ne hh] at hg
        exact Nat.lt_succ_of_lt (h.built.loaded handle g hg)
    · exact fun u g hg => Nat.lt_succ_of_lt ((h.built.keep fun _ => False.elim).known u g hg)
  · -- `unlock`
    cases hstep
    exact ⟨h.reg.unlock hpc, fun g => (h.mu g).keep hpc .rfl, h.sharedMu.keep hpc .rfl,
      h.built.keep fun _ => False.elim⟩
  · -- `rlock`
    split at hstep
    · rename_i hfree
      cases hstep
      refine ⟨?_, fun g => (h.mu g).keep hpc .rfl, h.sharedMu.keep hpc .rfl, h.built.keep fun _ => False.elim⟩
      have hreg := h.reg
      rw [hfree] at hreg
      exact hfree ▸ hreg.rlock hpc
    · cases hstep
  · -- `read`
    cases hstep
    exact ⟨h.reg.keep hpc .rfl .rfl False.elim, fun g => (h.mu g).keep hpc .rfl, h.sharedMu.keep hpc .rfl,
      h.built.keep fun g hg => h.built.loaded handle g hg⟩
  · -- `runlock`, of a handle that is not loaded
    cases hstep
    exact ⟨h.reg.runlock hpc id id, fun g => (h.mu g).keep hpc .rfl, h.sharedMu.keep hpc .rfl,
      h.built.keep fun _ => False.elim⟩
  · -- `runlock`
    cases hstep
    refine ⟨h.reg.runlock hpc id id, fun g => (h.mu g).keep hpc .rfl, h.sharedMu.keep hpc .rfl,
      h.built.keep fun g' hg' => ?_⟩
    exact h.built.known t g' (by rw [hpc]; exact congrArg some hg')
  · -- `lockMu`
    split at hstep
    · rename_i hfree
      cases hstep
      have hg := h.mu g
      rw [hfree] at hg
      refine ⟨h.reg.keep hpc .rfl .rfl id, held_update h.mu (hg.acquire rfl) fun g' hne => ?_, h.sharedMu.keep hpc .rfl,
        h.built.keep fun g' hg' => h.built.known t g' (by rw [hpc]; exact hg')⟩
      rw [hpc]
      exact iff_of_false (Ne.symm hne) id
    · cases hstep
  · -- `lockShared`
    split at hstep
    · rename_i hfree
      cases hstep
      have hs := h.sharedMu
      rw [hfree] at hs
      exact ⟨h.reg.keep hpc .rfl .rfl id, fun g => (h.mu g).keep hpc .rfl, hs.acquire trivial,
        h.built.keep fun g' hg' => h.built.known t g' (by rw [hpc]; exact hg')⟩
    · cases hstep
  · -- `start`
    cases hstep
    exact ⟨h.reg.keep hpc .rfl .rfl id, fun g => (h.mu g).keep hpc .rfl, h.sharedMu.keep hpc .rfl,
      h.built.keep fun g' hg' => h.built.known t g' (by rw [hpc]; exact hg')⟩
  · -- `work`
    split at hstep
    · cases hstep
      exact ⟨h.reg, h.mu, h.sharedMu, h.built⟩
    · cases hstep
      exact ⟨h.reg.keep hpc .rfl .rfl id, fun g => (h.mu g).keep hpc .rfl, h.sharedMu.keep hpc .rfl,
        h.built.keep fun g' hg' => h.built.known t g' (by rw [hpc]; exact hg')⟩
  · -- `unlockShared`
    cases hstep
    exact ⟨h.reg.keep hpc .rfl .rfl id, fun g => (h.mu g).keep hpc .rfl, h.sharedMu.release hpc trivial id,
      h.built.keep fun g' hg' => h.built.known t g' (by rw [hpc]; exact hg')⟩
  · -- `unlockMu`
    cases hstep
    refine ⟨h.reg.keep hpc .rfl .rfl id, held_update h.mu ((h.mu g).release hpc rfl id) fun g' hne => ?_,
      h.sharedMu.keep hpc .rfl, h.built.keep fun _ => False.elim⟩
    rw [hpc]
    exact iff_of_false id (Ne.symm hne)
  · cases hstep

/-- Outside every lock. -/
structure Pc.Out (p : Pc) : Prop where
  writer : ¬ p.Writer
  reads : ¬ p.Reads
  knows : ∀ g, ¬ p.Knows g
  parses : ¬ p.Parses

theorem Task.entry_out (task : Task) : task.entry.Out := by
  cases task <;> exact ⟨id, id, fun _ => id, id⟩

/-- A call that is made or answered is outside every lock, before and after. -/
theorem Inv.out (h : Inv c) (hq : c.pc t = q) (ho : q.Out) (hp : p.Out) : Inv (c.to t p) where
  reg :=
    h.reg.keep hq (iff_of_false hp.writer ho.writer) (iff_of_false hp.reads ho.reads)
      fun hw => absurd hw.writer hp.writer
  mu g :=
    (h.mu g).keep hq (iff_of_false (fun hg => hp.knows g (Pc.Holds.knows hg)) fun hg => ho.knows g (Pc.Holds.knows hg))
  sharedMu := h.sharedMu.keep hq (iff_of_false hp.parses ho.parses)
  built := h.built.keep fun g hg => absurd hg (hp.knows g)

theorem Inv.step {unmarshal : Bytes → Option Render.Json} {e : Option (T × Event Op Reply)} (h : Inv c)
    (hstep : Step unmarshal eng c e c') : Inv c' := by
  cases hstep with
  | call hpc => exact h.out hpc ⟨id, id, fun _ => id, id⟩ (Task.entry_out _)
  | advance hadv => exact h.advance hadv
  | ret hpc => exact h.out hpc ⟨id, id, fun _ => id, id⟩ ⟨id, id, fun _ => id, id⟩

omit [DecidableEq T] in
theorem Inv.start (s : σ) : Inv ({ engine := s } : State T σ) where
  reg :=
    ⟨fun _ => iff_of_false id (by simp), ⟨List.nodup_nil, fun _ => iff_of_false List.not_mem_nil id⟩,
      fun _ => False.elim⟩
  mu _ _ := iff_of_false id (by simp)
  sharedMu _ := iff_of_false id (by simp)
  built := ⟨fun _ _ hg => (by cases hg), fun _ _ => False.elim⟩

/-- In every state that callers reach each lock is with the call that stands within it. -/
theorem inv_runs {unmarshal : Bytes → Option Render.Json} {s : σ} {hist : Trace T Op Reply}
    (hr : Runs (Step unmarshal eng) { engine := s } hist c) : Inv c := by
  induction hr with
  | nil => exact .start s
  | snoc _ he ih => exact ih.step he

end

end TabnasAbnf.Clib
