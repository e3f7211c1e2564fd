/-
What callers of the C library cannot do to one another, whoever calls what: no two of them touch one variable at once,
none waits for ever on a lock, and all calls that are made are answered.
-/
import Mathlib.Algebra.Order.BigOperators.Group.List
import TabnasAbnf.Clib.Linear

namespace TabnasAbnf.Clib

open TabnasAbnf.Base

variable {T σ : Type} [DecidableEq T] {unmarshal : Bytes → Option Render.Json} {answer : Bytes → Outcome}
  {rest : σ → Prop}
  {eng : Engine σ} {c c' : State T σ} {e : σ} {hist : Trace T Op Reply} {s : T → Stand Op Reply} {tb : Table} {t u : T}

/-! ## Races -/

/-- The variables that calls share. -/
inductive Var
  | nextID | loaded | parser
  deriving DecidableEq

/-- What the next step of a call touches, and whether it writes. -/
def Pc.touches : Pc → Option (Var × Bool)
  | .write .load => some (.nextID, true)
  | .write (.free _) | .put _ => some (.loaded, true)
  | .read _ _ => some (.loaded, false)
  | .start _ _ | .work _ => some (.parser, true)
  | _ => none

/-- What is written is guarded by a lock that its writer has alone. -/
theorem touches_guarded {p : Pc} {x : Var} {w : Bool} (h : p.touches = some (x, w)) :
    if x = .parser then p.Parses else if w = true then p.Writes else p.Reads := by
  rcases p with _ | w | w | (_ | handle) | id' | r | ⟨handle, src⟩ | ⟨handle, src⟩ | ⟨g, src⟩ | ⟨g, src⟩ | ⟨g, src⟩ |
    ⟨g, src⟩ | g | ⟨g, o⟩ | ⟨g, o⟩ | r <;> cases h <;> trivial

/-- Wherever callers get to, no variable is touched by one call's next step while another's writes it. -/
theorem no_race (hr : Runs (Step unmarshal eng) { engine := e } hist c) {x : Var} {w : Bool} (htu : t ≠ u)
    (ht : (c.pc t).touches = some (x, true)) : (c.pc u).touches ≠ some (x, w) := by
  intro hu
  have hinv := inv_runs hr
  have hts := touches_guarded ht
  have hus := touches_guarded hu
  by_cases hx : x = .parser
  · simp only [hx, if_true] at hts hus
    exact htu (hinv.sharedMu.unique hts hus)
  · simp only [hx, if_false, if_true] at hts hus
    rcases w with _ | _
    · -- a reader is among those that the writer waited for
      rw [if_neg (by simp)] at hus
      have hin := (hinv.reg.readers.2 u).2 hus
      rw [hinv.reg.writes t hts] at hin
      cases hin
    · exact htu (hinv.reg.writer.unique hts.writer (Pc.Writes.writer hus))

/-- Two callers parse with one instance, while a third frees it and a fourth comes to look it up. -/
def meetSchedule : List (Fin 4 × Option Op) :=
  (0, some (.grammar ⟨none, 0⟩)) :: List.replicate 6 (0, none) ++
    (0, some (.parse 1 aSource)) :: List.replicate 6 (0, none) ++
      (1, some (.parse 1 aSource)) :: List.replicate 3 (1, none) ++
        [(2, some (.grammarFree 1)), (2, none), (2, none), (3, some (.parse 1 aSource))]

def meetHistory : Trace (Fin 4) Op Reply :=
  [(0, .call (.grammar ⟨none, 0⟩)), (0, .ret (.handle 1)), (0, .call (.parse 1 aSource)), (1, .call (.parse 1 aSource)),
    (2, .call (.grammarFree 1)), (3, .call (.parse 1 aSource))]

/-- One parse is in the parser and the other waits for it; the handle is struck out and the lookup waits for that. -/
theorem no_race_meet :
    ∃ c, drive (fun _ => none) taker meetSchedule { engine := [] } = some (meetHistory, c) ∧
      (c.pc 0).touches = some (.parser, true) ∧ (c.pc 1).touches ≠ some (.parser, true) ∧
        (c.pc 2).touches = some (.loaded, true) ∧ (c.pc 3).touches ≠ some (.loaded, false) := by
  have hdrive : ∃ c, drive (fun _ => none) taker meetSchedule { engine := [] } = some (meetHistory, c) ∧
      (c.pc 0).touches = some (.parser, true) ∧ (c.pc 2).touches = some (.loaded, true) := ⟨_, rfl, rfl, rfl⟩
  obtain ⟨c, hdrive, hparser, hloaded⟩ := hdrive
  exact ⟨c, hdrive, hparser, no_race (drive_runs hdrive) (by decide) hparser, hloaded,
    no_race (drive_runs hdrive) (by decide) hloaded⟩

/-! ## Deadlock -/

/-- A call that goes on or is answered, while no new one is made. -/
inductive Goes (eng : Engine σ) (c : State T σ) : State T σ → Prop
  | advance {t : T} {c' : State T σ} : advance eng t c = some c' → Goes eng c c'
  | ret {t : T} {r : Reply} : c.pc t = .ret r → Goes eng c (c.to t .idle)

/-- A call that holds the registry's lock does not wait but for readers. -/
theorem advance_writer (hread : c.readers = []) (h : (c.pc t).Writer) : (advance eng t c).isSome := by
  rcases hpc : c.pc t with _ | w | w | (_ | handle) | id' | r | ⟨handle, src⟩ | ⟨handle, src⟩ | ⟨g, src⟩ |
    ⟨g, src⟩ | ⟨g, src⟩ |
    ⟨g, src⟩ | g | ⟨g, o⟩ | ⟨g, o⟩ | r <;> rw [hpc] at h <;> first | exact h.elim | simp [advance, hpc, hread]

/-- A reader does not wait. -/
theorem advance_reads (h : (c.pc t).Reads) : (advance eng t c).isSome := by
  rcases hpc : c.pc t with _ | w | w | w | id' | r | ⟨handle, src⟩ | ⟨handle, src⟩ | ⟨_ | g, src⟩ |
    ⟨g, src⟩ | ⟨g, src⟩ |
    ⟨g, src⟩ | g | ⟨g, o⟩ | ⟨g, o⟩ | r <;> rw [hpc] at h <;> first | exact h.elim | simp [advance, hpc]

/-- A call in the parser does not wait. -/
theorem advance_parses (h : (c.pc t).Parses) : (advance eng t c).isSome := by
  rcases hpc : c.pc t with _ | w | w | w | id' | r | ⟨handle, src⟩ | ⟨handle, src⟩ | ⟨g, src⟩ | ⟨g, src⟩ | ⟨g, src⟩ |
    ⟨g, src⟩ | g | ⟨g, o⟩ | ⟨g, o⟩ | r <;> rw [hpc] at h <;> try exact h.elim
  · simp [advance, hpc]
  · rcases hwork : eng.work c.engine with s | o <;> simp [advance, hpc, hwork]
  · simp [advance, hpc]

/-- A call that holds an instance does not wait but for the parser. -/
theorem advance_holds {g : Nat} (hs : c.sharedMu = none) (h : (c.pc t).Holds g) : (advance eng t c).isSome := by
  rcases hpc : c.pc t with _ | w | w | w | id' | r | ⟨handle, src⟩ | ⟨handle, src⟩ | ⟨g, src⟩ | ⟨g, src⟩ | ⟨g, src⟩ |
    ⟨g, src⟩ | g | ⟨g, o⟩ | ⟨g, o⟩ | r <;> rw [hpc] at h <;> try exact h.elim
  · simp [advance, hpc, hs]
  all_goals first | exact advance_parses (by rw [hpc]; trivial) | simp [advance, hpc]

/-- Where no lock is held, no call waits. -/
theorem advance_free (hw : c.writer = none) (hread : c.readers = []) (hm : ∀ g, c.mu g = none) (hs : c.sharedMu = none)
    (hidle : c.pc t ≠ .idle) (hret : ∀ r, c.pc t ≠ .ret r) : (advance eng t c).isSome := by
  rcases hpc : c.pc t with _ | w | w | (_ | handle) | id' | r | ⟨handle, src⟩ | ⟨handle, src⟩ | ⟨_ | g, src⟩ |
    ⟨g, src⟩ | ⟨g, src⟩ |
    ⟨g, src⟩ | g | ⟨g, o⟩ | ⟨g, o⟩ | r
  · exact absurd hpc hidle
  all_goals first
    | exact absurd hpc (hret _)
    | exact advance_parses (by rw [hpc]; trivial)
    | simp [advance, hpc, hw, hread, hm, hs]

variable (eng) in
/-- From the innermost lock out: no one holds it where no one goes on, so no one waits for it. -/
theorem goes_busy (hinv : Inv c) (hbusy : c.pc t ≠ .idle) : ∃ c', Goes eng c c' := by
  by_contra hstuck
  have hnone : ∀ u, ¬ (advance eng u c).isSome := by
    intro u hu
    obtain ⟨c', hadv⟩ := Option.isSome_iff_exists.1 hu
    exact hstuck ⟨c', .advance hadv⟩
  have hshared : c.sharedMu = none := by
    rcases hs : c.sharedMu with _ | u
    · rfl
    · exact absurd (advance_parses ((hinv.sharedMu u).2 hs)) (hnone u)
  have hmu : ∀ g, c.mu g = none := by
    intro g
    rcases hm : c.mu g with _ | u
    · rfl
    · exact absurd (advance_holds hshared ((hinv.mu g u).2 hm)) (hnone u)
  have hread : c.readers = [] := by
    rcases hs : c.readers with _ | ⟨u, us⟩
    · rfl
    · exact absurd (advance_reads ((hinv.reg.readers.2 u).1 (hs ▸ List.mem_cons_self))) (hnone u)
  have hwriter : c.writer = none := by
    rcases hw : c.writer with _ | u
    · rfl
    · exact absurd (advance_writer hread ((hinv.reg.writer u).2 hw)) (hnone u)
  exact hnone t (advance_free hwriter hread hmu hshared hbusy fun r hret => hstuck ⟨_, .ret hret⟩)

/-- Calls never wait for one another in a circle, whatever the parser does: unless every caller has been answered, some
call goes on or is answered next. -/
theorem deadlock_free (hr : Runs (Step unmarshal eng) { engine := e } hist c) (hbusy : c.pc t ≠ .idle) :
    ∃ c', Goes eng c c' := goes_busy eng (inv_runs hr) hbusy

theorem deadlock_free_meet :
    ∃ c, drive (fun _ => none) taker meetSchedule { engine := [] } = some (meetHistory, c) ∧ ∃ c', Goes taker c c' := by
  have hdrive : ∃ c, drive (fun _ => none) taker meetSchedule { engine := [] } = some (meetHistory, c) ∧
      c.pc 3 = .rlock 1 [97, 61, 97] := ⟨_, rfl, rfl⟩
  obtain ⟨c, hdrive, hpc⟩ := hdrive
  exact ⟨c, hdrive, deadlock_free (drive_runs hdrive) (by rw [hpc]; simp)⟩

/-! ## The end of all calls -/

/-- How many steps a call is from its end at most, those of the parser counted as one. -/
def Pc.left : Pc → Nat
  | .idle => 0
  | .ret _ => 1
  | .unlock _ => 2
  | .put _ => 3
  | .write _ => 4
  | .wait _ => 5
  | .lock _ => 6
  | .unlockMu _ _ => 2
  | .unlockShared _ _ => 3
  | .work _ => 4
  | .start _ _ => 5
  | .lockShared _ _ => 6
  | .lockMu _ _ => 7
  | .runlock _ _ => 8
  | .read _ _ => 9
  | .rlock _ _ => 10

/-- A step brings its call nearer to its end, or the parser to its. -/
theorem advance_left (h : advance eng t c = some c') :
    (∃ p, c'.pc = Function.update c.pc t p ∧ p.left < (c.pc t).left) ∨
      ∃ g s', c.pc t = .work g ∧ eng.work c.engine = .inl s' ∧ c' = { c with engine := s' } := by
  unfold advance at h
  rcases hpc : c.pc t with _ | w | w | (_ | handle) | id' | r | ⟨handle, src⟩ | ⟨handle, src⟩ | ⟨_ | g, src⟩ |
    ⟨g, src⟩ | ⟨g, src⟩ |
    ⟨g, src⟩ | g | ⟨g, o⟩ | ⟨g, o⟩ | r
  all_goals simp only [hpc] at h
  case work g =>
    split at h
    · rename_i hwork
      cases h
      exact .inr ⟨g, _, rfl, hwork, rfl⟩
    · cases h
      exact .inl ⟨_, rfl, by simp [Pc.left]⟩
  all_goals try split at h
  all_goals cases h
  all_goals exact .inl ⟨_, rfl, by simp [Pc.left]⟩

/-- The steps that are left of the calls of some callers. -/
def State.left (c : State T σ) (ts : List T) : Nat := (ts.map fun t => (c.pc t).left).sum

theorem left_lt {ts : List T} {p : Pc} (ht : t ∈ ts) (hpc : c'.pc = Function.update c.pc t p)
    (hp : p.left < (c.pc t).left) :
    c'.left ts < c.left ts := by
  refine List.sum_lt_sum (fun u => (c'.pc u).left) (fun u => (c.pc u).left) (fun u _ => ?_) ⟨t, ht, ?_⟩
  · rw [hpc]
    by_cases hut : u = t
    · subst hut
      rw [Function.update_self]
      exact Nat.le_of_lt hp
    · rw [Function.update_of_ne hut]
  · rwa [hpc, Function.update_self]

variable (unmarshal) in
theorem Goes.step (h : Goes eng c c') : ∃ e, Step unmarshal eng c e c' := by
  cases h with
  | advance hadv => exact ⟨none, .advance hadv⟩
  | ret hpc => exact ⟨_, .ret hpc⟩

theorem to_other {p : Pc} (htu : t ≠ u) : (c.to u p).pc t = c.pc t := Function.update_of_ne htu _ _

/-- Who waits for an answer has made a call. -/
theorem busy_made (hr : Runs (Step unmarshal eng) { engine := e } hist c) (hbusy : c.pc t ≠ .idle) :
    t ∈ hist.map Prod.fst := by
  induction hr with
  | nil => exact absurd rfl hbusy
  | @snoc c c' h ev _ he ih =>
    rw [List.map_append, List.mem_append]
    cases he with
    | @call u op hu =>
      by_cases htu : t = u
      · exact .inr (htu ▸ List.mem_cons_self)
      · exact .inl (ih (by rwa [to_other htu] at hbusy))
    | @advance u _ hadv =>
      refine .inl (ih fun hidle => hbusy ?_)
      rcases advance_left hadv with ⟨p, hpc, hlt⟩ | ⟨g, s', -, -, rfl⟩
      · have htu : t ≠ u := by
          rintro rfl
          rw [hidle] at hlt
          cases hlt
        rw [hpc, Function.update_of_ne htu, hidle]
      · exact hidle
    | @ret u r hu =>
      by_cases htu : t = u
      · exact .inr (htu ▸ List.mem_cons_self)
      · exact .inl (ih (by rwa [to_other htu] at hbusy))

/-- The callers that wait for an answer stay among those that have made a call. -/
theorem Goes.busy (h : Goes eng c c') (ht : c.pc t = .idle) : c'.pc t = .idle := by
  cases h with
  | @advance u c' hadv =>
    rcases advance_left hadv with ⟨p, hpc, hlt⟩ | ⟨g, s', -, -, rfl⟩
    · have htu : t ≠ u := by
        rintro rfl
        rw [ht] at hlt
        cases hlt
      rw [hpc, Function.update_of_ne htu, ht]
    · exact ht
  | @ret u r hu =>
    by_cases htu : t = u
    · subst htu
      exact Function.update_self ..
    · rw [to_other htu, ht]

omit [DecidableEq T] in
/-- The parse under way has so many steps to its end. -/
theorem Sim.ends_in (h : Sim unmarshal answer rest eng c s tb) :
    ∃ m, ∀ t g, c.pc t = .work g → ∃ o, eng.Ends rest m c.engine o := by
  by_cases hwork : ∃ t g, c.pc t = .work g
  · obtain ⟨t, g, hpc⟩ := hwork
    obtain ⟨m, o, hends, -⟩ := h.working t g hpc
    exact ⟨m, fun _ _ _ => ⟨o, hends⟩⟩
  · exact ⟨0, fun t g hpc => absurd ⟨t, g, hpc⟩ hwork⟩

/-- Each step lowers what is left, or brings the parser nearer to its end. -/
theorem Goes.left {ts : List T} (h : Goes eng c c') (hts : ∀ t, t ∉ ts → c.pc t = .idle) :
    c'.left ts < c.left ts ∨ ∃ t g s', c.pc t = .work g ∧ eng.work c.engine = .inl s' ∧
      c' = { c with engine := s' } := by
  have hin : ∀ t, c.pc t ≠ .idle → t ∈ ts := fun t => not_imp_comm.1 (hts t)
  cases h with
  | @advance t c' hadv =>
    rcases advance_left hadv with ⟨p, hpc, hlt⟩ | hwork
    · refine .inl (left_lt (hin t fun hidle => ?_) hpc hlt)
      rw [hidle] at hlt
      cases hlt
    · exact .inr ⟨t, hwork⟩
  | @ret t r hpc =>
    refine .inl (left_lt (hin t (by simp [hpc])) rfl ?_)
    rw [hpc]
    exact Nat.zero_lt_one

/-- By the steps that are left, and then by those of the parse under way. -/
theorem acc_goes (hE : eng.Answers rest answer) (ts : List T) (n : Nat) :
    ∀ m (c : State T σ) s tb, Sim unmarshal answer rest eng c s tb → (∀ t, t ∉ ts → c.pc t = .idle) → c.left ts = n →
      (∀ t g, c.pc t = .work g → ∃ o, eng.Ends rest m c.engine o) → Acc (fun c' c => Goes eng c c') c := by
  induction n using Nat.strong_induction_on with
  | _ n ihn =>
    intro m
    induction m using Nat.strong_induction_on with
    | _ m ihm =>
      intro c s tb h hts hn hm
      refine .intro c fun c' hgoes => ?_
      have hidle : ∀ t, t ∉ ts → c'.pc t = .idle := fun t ht => hgoes.busy (hts t ht)
      obtain ⟨ev, hstep⟩ := hgoes.step unmarshal
      obtain ⟨-, s', tb', -, -, h'⟩ := h.step hE hstep
      rcases hgoes.left hts with hlt | ⟨t, g, e', hpc, hwork, rfl⟩
      · obtain ⟨m', hm'⟩ := h'.ends_in
        exact ihn _ (hn ▸ hlt) m' c' s' tb' h' hidle rfl hm'
      · obtain ⟨o, hends⟩ := hm t g hpc
        cases hends with
        | done hdone _ =>
          rw [hwork] at hdone
          cases hdone
        | @more m' _ _ _ hmore hends =>
          rw [hwork] at hmore
          cases hmore
          exact ihm m' (Nat.lt_succ_self m') _ s' tb' h' hidle hn fun _ _ _ => ⟨o, hends⟩

/-- Unless new calls are made without end, all calls end: from wherever callers get to, calls that go on in any order
come, after finitely many steps, to where every caller has been answered. -/
theorem calls_end (hE : eng.Answers rest answer) (he : rest e) (hr : Runs (Step unmarshal eng) { engine := e } hist c) :
    Acc (fun c' c => Goes eng c c') c ∧
      ∀ h c', Runs (Step unmarshal eng) c h c' → (∀ c'', ¬ Goes eng c' c'') → ∀ t, c'.pc t = .idle := by
  constructor
  · obtain ⟨-, s, tb, -, -, h⟩ := (simulates hE he).runs hr
    obtain ⟨m, hm⟩ := h.ends_in
    exact acc_goes hE (hist.map Prod.fst) _ m c s tb h (fun t => not_imp_comm.1 (busy_made hr)) rfl hm
  · intro h c' hr' hstuck t
    by_contra hbusy
    obtain ⟨c'', hgoes⟩ := goes_busy eng (inv_runs (hr.append hr')) hbusy
    exact hstuck c'' hgoes

theorem calls_end_meet :
    ∃ c, drive (fun _ => none) taker meetSchedule { engine := [] } = some (meetHistory, c) ∧
      Acc (fun c' c => Goes taker c c') c := by
  have hdrive : ∃ c, drive (fun _ => none) taker meetSchedule { engine := [] } = some (meetHistory, c) := ⟨_, rfl⟩
  obtain ⟨c, hdrive⟩ := hdrive
  exact ⟨c, hdrive, (calls_end taker_answers rfl (drive_runs hdrive)).1⟩

end TabnasAbnf.Clib
