/-
What callers may rely on about handles, whoever loads, parses and frees at once: a handle is given once, it answers
until it is freed, and once freed it stays refused. Handles are counted in 64 bits, so all of it is within 2 ^ 64 calls.
-/
import TabnasAbnf.Clib.Linear

namespace TabnasAbnf.Clib

open TabnasAbnf.Base

/-- The handle that a reply gives. -/
def Reply.given : Reply → Option Int64
  | .handle id => some id
  | _ => none

/-- The handles that are given, in order. -/
def givenBy (done : List (Op × Reply)) : List Int64 := done.filterMap fun d => d.2.given

variable {unmarshal : Bytes → Option Render.Json} {answer : Bytes → Outcome} {tb tb' : Table} {done : List (Op × Reply)}
  {op : Op} {task : Task} {id : Int64}

@[simp] theorem givenBy_append {done' : List (Op × Reply)} : givenBy (done ++ done') = givenBy done ++ givenBy done' :=
  List.filterMap_append

theorem givenBy_singleton {r : Reply} : givenBy [(op, r)] = r.given.toList := by
  rw [givenBy, List.filterMap_cons]
  cases r.given <;> rfl

theorem mem_givenBy {r : Reply} (h : (op, r) ∈ done) (hr : r.given = some id) : id ∈ givenBy done :=
  List.mem_filterMap.2 ⟨_, h, hr⟩

/-! ## One call on the table -/

theorem refusal_given {text : Bytes} {r : Reply} (h : optionsRefusal unmarshal text = some r) : r.given = none := by
  rw [optionsRefusal] at h
  split at h
  · cases h
  · split at h <;> cases h <;> rfl

/-- A call that is answered at once is given no handle. -/
theorem task_answer {r : Reply} (h : op.task unmarshal = .answer r) : r.given = none := by
  rcases op with _ | opts | ⟨handle, src⟩ | handle <;> simp only [Op.task] at h
  · cases h
    rfl
  · split at h
    · cases h
      rfl
    · split at h <;> cases h
      rename_i hrefusal
      exact refusal_given hrefusal
  · split at h <;> cases h
    rfl
  · cases h

theorem outcome_given (o : Outcome) : o.reply.given = none := by
  rcases o with _ | err | v
  · rfl
  · rw [Outcome.reply]
    split <;> rfl
  · rfl

variable (answer tb id) in
/-- A call that is no load gives no handle, counts none, and loads none. -/
theorem run_other (hload : task ≠ .load) (hans : ∀ r, task = .answer r → r.given = none) :
    (tb.run answer task).2.given = none ∧ (tb.run answer task).1.nextID = tb.nextID ∧
      ((tb.run answer task).1.loaded id = true → tb.loaded id = true) := by
  rcases task with r | _ | ⟨handle, src⟩ | handle
  · exact ⟨hans r rfl, rfl, fun h => h⟩
  · exact absurd rfl hload
  · refine ⟨?_, rfl, fun h => h⟩
    simp only [Table.run]
    split
    · exact outcome_given _
    · rfl
  · refine ⟨rfl, rfl, fun h => ?_⟩
    simp only [Table.run] at h
    by_cases hid : id = handle
    · subst hid
      rw [Function.update_self] at h
      cases h
    · rwa [Function.update_of_ne hid] at h

/-- Only `tabnas_grammar_free` frees. -/
theorem task_free (h : op.task unmarshal = .free id) : op = .grammarFree id := by
  rcases op with _ | opts | ⟨handle, src⟩ | handle <;> simp only [Op.task] at h
  · cases h
  · split at h
    · cases h
    · split at h <;> cases h
  · split at h <;> cases h
  · cases h
    rfl

/-! ## The handles given so far -/

/-- The handles given are 1, 2 and so on, as 64 bits count them, and only these are loaded. -/
structure Counted (done : List (Op × Reply)) (tb : Table) : Prop where
  given : givenBy done = (List.range (givenBy done).length).map fun n => Int64.ofNat (n + 1)
  nextID : tb.nextID = Int64.ofNat (givenBy done).length
  loaded : ∀ id, tb.loaded id = true → id ∈ givenBy done

theorem ofNat_succ (n : Nat) : Int64.ofNat n + 1 = Int64.ofNat (n + 1) := by
  apply Int64.toBitVec.inj
  exact (BitVec.ofNat_add n 1).symm

theorem Counted.step (h : Counted done tb) (op : Op) :
    Counted (done ++ [(op, ((library unmarshal answer).apply op tb).2)])
      ((library unmarshal answer).apply op tb).1 := by
  by_cases hload : op.task unmarshal = .load
  · have hgiven : givenBy [(op, (tb.run answer .load).2)] = [tb.nextID + 1] := rfl
    have hall : givenBy (done ++ [(op, (tb.run answer .load).2)]) = givenBy done ++ [tb.nextID + 1] := by
      rw [givenBy_append, hgiven]
    have hnext : tb.nextID + 1 = Int64.ofNat ((givenBy done).length + 1) := by rw [h.nextID, ofNat_succ]
    show Counted (done ++ [(op, (tb.run answer (op.task unmarshal)).2)]) (tb.run answer (op.task unmarshal)).1
    rw [hload]
    refine ⟨?_, ?_, fun id hid => ?_⟩
    · rw [hall, List.length_append, List.length_singleton, List.range_succ, List.map_append, ← h.given, hnext]
      rfl
    · rw [hall, List.length_append, List.length_singleton]
      exact hnext
    · rw [hall]
      by_cases heq : id = tb.nextID + 1
      · exact heq ▸ List.mem_append_right _ List.mem_cons_self
      · simp only [Table.run, Function.update_of_ne heq] at hid
        exact List.mem_append_left _ (h.loaded id hid)
  · have hother := fun id => run_other answer tb id hload fun r => task_answer
    have hall : givenBy (done ++ [(op, (tb.run answer (op.task unmarshal)).2)]) = givenBy done := by
      rw [givenBy_append, givenBy_singleton, (hother 0).1, Option.toList_none, List.append_nil]
    refine ⟨?_, ?_, fun id hid => ?_⟩
    · exact hall.symm ▸ h.given
    · exact ((hother 0).2.1.trans h.nextID).trans (congrArg (fun l => Int64.ofNat (List.length l)) hall.symm)
    · exact hall.symm ▸ h.loaded id ((hother id).2.2 hid)

theorem counted (hr : Replays (library unmarshal answer) (library unmarshal answer).init done tb) :
    Counted done tb := by
  have hstart : Counted [] (library unmarshal answer).init := ⟨rfl, rfl, fun _ h => by cases h⟩
  have hall := hr.invariant (P := Counted) (fun _ _ op h => h.step op) hstart
  rwa [List.nil_append] at hall

theorem givenBy_length_le (done : List (Op × Reply)) : (givenBy done).length ≤ done.length :=
  List.length_filterMap_le _ _

/-- Within 2 ^ 64 calls no handle is given twice. -/
theorem Counted.nodup (h : Counted done tb) (hlen : done.length ≤ 2 ^ 64) : (givenBy done).Nodup := by
  rw [h.given]
  refine List.Nodup.map_on (fun m hm n hn heq => ?_) List.nodup_range
  have hle := Nat.le_trans (givenBy_length_le done) hlen
  rw [List.mem_range] at hm hn
  have hbits : (m + 1) % 2 ^ 64 = (n + 1) % 2 ^ 64 := congrArg (fun i : Int64 => i.toBitVec.toNat) heq
  omega

/-! ## A handle through calls -/

/-- What is not given is not loaded anew. -/
theorem unloaded_replays (hr : Replays (library unmarshal answer) tb done tb') (hnone : id ∉ givenBy done)
    (h : tb.loaded id = false) : tb'.loaded id = false := by
  induction hr with
  | nil => exact h
  | @cons tb op ops tb' _ ih =>
    rw [← List.singleton_append, givenBy_append, givenBy_singleton, List.mem_append, not_or] at hnone
    refine ih hnone.2 ?_
    by_cases hload : op.task unmarshal = .load
    · have hne : id ≠ tb.nextID + 1 := by
        intro heq
        refine hnone.1 (Option.mem_toList.2 ?_)
        show (tb.run answer (op.task unmarshal)).2.given = some id
        rw [hload, heq]
        rfl
      show (tb.run answer (op.task unmarshal)).1.loaded id = false
      rw [hload]
      simp only [Table.run, Function.update_of_ne hne]
      exact h
    · have hother := run_other answer tb id hload fun r => task_answer
      rcases hafter : ((library unmarshal answer).apply op tb).1.loaded id with _ | _
      · rfl
      · exact absurd (hother.2.2 hafter) (by simp [h])

/-- What is not freed stays loaded. -/
theorem loaded_replays (hr : Replays (library unmarshal answer) tb done tb') (hnone : ∀ d ∈ done, d.1 ≠ .grammarFree id)
    (h : tb.loaded id = true) : tb'.loaded id = true := by
  induction hr with
  | nil => exact h
  | @cons tb op ops tb' _ ih =>
    refine ih (fun d hd => hnone d (List.mem_cons_of_mem _ hd)) ?_
    have hop : op ≠ .grammarFree id := hnone _ List.mem_cons_self
    show (tb.run answer (op.task unmarshal)).1.loaded id = true
    rcases htask : op.task unmarshal with r | _ | ⟨handle, src⟩ | handle
    · exact h
    · simp only [Table.run]
      by_cases heq : id = tb.nextID + 1
      · rw [heq, Function.update_self]
      · rwa [Function.update_of_ne heq]
    · exact h
    · simp only [Table.run]
      have hne : id ≠ handle := by
        rintro rfl
        exact hop (task_free htask)
      rwa [Function.update_of_ne hne]

/-- A handle that is given is loaded. -/
theorem given_loaded {r : Reply} (hr : ((library unmarshal answer).apply op tb).2 = r) (hid : r.given = some id) :
    ((library unmarshal answer).apply op tb).1.loaded id = true := by
  subst hr
  by_cases hload : op.task unmarshal = .load
  · show (tb.run answer (op.task unmarshal)).1.loaded id = true
    replace hid : (tb.run answer (op.task unmarshal)).2.given = some id := hid
    rw [hload] at hid ⊢
    cases hid
    exact Function.update_self ..
  · have hother := (run_other answer tb id hload fun r => task_answer).1
    exact absurd (hother.symm.trans hid) (by simp)

/-! ## Handles among calls made at once -/

section

variable {T σ : Type} [DecidableEq T] {rest : σ → Prop} {eng : Engine σ} {c : State T σ} {e : σ}
  {hist h₀ h₁ h₂ h₃ h₄ : Trace T Op Reply}
  {s s' : T → Stand Op Reply} {tr : Trace T Op Reply} {t u v : T} {r q : Reply} {src : Buffer} {text : Bytes}

theorem calls_counted (hp : Plays (library unmarshal answer) (fun _ => .idle) (library unmarshal answer).init tr s tb)
    (hcalls : tr.history.countP (·.2.isCall) ≤ 2 ^ 64) : (givenBy tr.commits).Nodup := by
  refine (counted hp.replays).nodup (Nat.le_trans (hp.commits_le fun _ => rfl) ?_)
  rw [countP_history fun e he => ?_] at hcalls
  · exact hcalls
  rcases e with ⟨t, op | ⟨op, r⟩ | r⟩
  · rfl
  · cases he
  · rfl

/-- Whatever calls are made at once, no two loads are answered with one handle, within 2 ^ 64 calls. -/
theorem handles_distinct (hE : eng.Answers rest answer) (he : rest e)
    (hr : Runs (Step unmarshal eng) { engine := e } hist c)
    (hcalls : hist.countP (·.2.isCall) ≤ 2 ^ 64) (id : Int64) :
    (hist.countP fun e => e.2.answer.any fun r => r.given = some id) ≤ 1 := by
  obtain ⟨tr, s, tb, hp, rfl⟩ := (simulates hE he).linearizable hr
  have hnodup := calls_counted hp hcalls
  rw [countP_history fun e he => ?_]
  · refine Nat.le_trans (hp.rets_le (fun _ => rfl) _) ?_
    have hcount := List.nodup_iff_count_le_one.1 hnodup id
    rw [List.count, givenBy, List.countP_filterMap] at hcount
    refine Nat.le_trans (Nat.le_of_eq (List.countP_congr fun d _ => ?_)) hcount
    rcases d.2.given with _ | id' <;> simp
  · rcases e with ⟨t, op | ⟨op, r⟩ | r⟩
    · rfl
    · cases he
    · rfl

/-- Two callers load a parser at once: the second comes while the first counts the handles up. -/
def loadLoadSchedule : List (Bool × Option Op) :=
  [(true, some (.grammar ⟨none, 0⟩)), (true, none), (true, none), (false, some (.grammar ⟨none, 0⟩)), (true, none),
    (true, none), (true, none), (false, none), (false, none), (true, none)] ++ List.replicate 4 (false, none)

def loadLoadHistory : Trace Bool Op Reply :=
  [(true, .call (.grammar ⟨none, 0⟩)), (false, .call (.grammar ⟨none, 0⟩)), (true, .ret (.handle 1)),
    (false, .ret (.handle 2))]

theorem handles_distinct_loads :
    (∃ c, Runs (Step (fun _ => none) taker) { engine := [] } loadLoadHistory c) ∧
      (loadLoadHistory.countP fun e => e.2.answer.any fun r => r.given = some 1) ≤ 1 ∧
        (loadLoadHistory.countP fun e => e.2.answer.any fun r => r.given = some 2) ≤ 1 := by
  have hdrive : ∃ c, drive (fun _ => none) taker loadLoadSchedule { engine := [] } = some (loadLoadHistory, c) :=
    ⟨_, rfl⟩
  obtain ⟨c, hdrive⟩ := hdrive
  have hr := drive_runs hdrive
  exact ⟨⟨c, hr⟩, handles_distinct taker_answers rfl hr (by decide) 1,
    handles_distinct taker_answers rfl hr (by decide) 2⟩

/-- Once `tabnas_grammar_free` has returned, every parse of the handle that is made then is refused, whatever is
loaded in the meantime, within 2 ^ 64 calls. -/
theorem freed_refused (hE : eng.Answers rest answer) (he : rest e)
    (hr : Runs (Step unmarshal eng) { engine := e }
      (h₀ ++ (t, .call (.grammarFree id)) ::
        (h₁ ++ (t, .ret q) :: (h₂ ++ (u, .call (.parse id src)) :: (h₃ ++ (u, .ret r) :: h₄)))) c)
    (hgiven : (v, Event.ret (.handle id)) ∈ h₀) (ht : ∀ e ∈ h₁, e.1 ≠ t) (hu : ∀ e ∈ h₃, e.1 ≠ u)
    (hsrc : goBytes src = some text)
    (hcalls : (h₀ ++ (t, .call (.grammarFree id)) ::
      (h₁ ++ (t, .ret q) :: (h₂ ++ (u, .call (.parse id src)) :: (h₃ ++ (u, .ret r) :: h₄)))).countP
        (·.2.isCall) ≤ 2 ^ 64) :
    r = unknownHandle := by
  obtain ⟨tr, s, tb, hp, heq⟩ := (simulates hE he).linearizable hr
  rw [← heq] at hcalls
  have hnodup := calls_counted hp hcalls
  obtain ⟨tr₁, tr₂, s₁, tb₁, g, g', rfl, hpre, -, -, hseen, hafter⟩ := hp.between heq ht
  obtain ⟨s₂, tb₂, -, hrest⟩ := hp.split
  cases hrest with
  | cons hfree hrest =>
  rw [← List.cons_append, ← List.append_assoc] at hafter
  obtain ⟨tr₃, tr₄, s₃, tb₃, -, -, rfl, hmid, rfl, -, -, -⟩ := hrest.between hafter hu
  -- the handle is given before it is freed, so not afterwards
  have hgiven' : id ∈ givenBy tr₁.commits := by
    have hin : (v, Event.ret (.handle id)) ∈ tr₁.history := hseen ▸ List.mem_append_left _ hgiven
    obtain ⟨op, hdone⟩ := hpre.committed (by simp) (mem_history.1 hin).1
    exact mem_givenBy (mem_commits hdone) rfl
  have hnot : id ∉ givenBy tr₃.commits := by
    rw [commits_append, givenBy_append] at hnodup
    intro hin
    refine List.disjoint_of_nodup_append hnodup hgiven' ?_
    rw [← List.singleton_append, commits_append, commits_append, givenBy_append, givenBy_append]
    exact List.mem_append_right _ (List.mem_append_left _ hin)
  have hunloaded : tb₃.loaded id = false := by
    refine unloaded_replays hmid.replays hnot ?_
    cases hfree with
    | commit _ => exact Function.update_self ..
  show (tb₃.run answer (Op.task unmarshal (.parse id src))).2 = _
  simp only [Op.task, hsrc, Table.run, hunloaded, Bool.false_eq_true, if_false]

/-- A parser is loaded and freed, and then parsed with. -/
def freedHistory (r : Reply) : Trace Bool Op Reply :=
  [(true, .call (.grammar ⟨none, 0⟩)), (true, .ret (.handle 1)), (true, .call (.grammarFree 1)), (true, .ret .released),
    (false, .call (.parse 1 aSource)), (false, .ret r)]

def freedSchedule : List (Bool × Option Op) :=
  (true, some (.grammar ⟨none, 0⟩)) :: List.replicate 6 (true, none) ++ (true, some (.grammarFree 1)) ::
    List.replicate 5 (true, none) ++ (false, some (.parse 1 aSource)) :: List.replicate 4 (false, none)

theorem freed_refused_parse :
    ∃ r, (∃ c, Runs (Step (fun _ => none) taker) { engine := [] } (freedHistory r) c) ∧ r = unknownHandle := by
  have hdrive : ∃ c, drive (fun _ => none) taker freedSchedule { engine := [] } = some (freedHistory unknownHandle,
    c) := ⟨_, rfl⟩
  obtain ⟨c, hdrive⟩ := hdrive
  have hr : Runs (Step (fun _ => none) taker) { engine := [] }
    ([(true, .call (.grammar ⟨none, 0⟩)), (true, .ret (.handle 1))] ++
    (true, .call (.grammarFree 1)) :: ([] ++ (true, .ret .released) :: ([] ++ (false, .call (.parse 1 aSource)) ::
      ([] ++ (false, .ret unknownHandle) :: [])))) c := drive_runs hdrive
  have hgiven : (true, Event.ret (Reply.handle 1)) ∈ [(true, Event.call (Op.grammar ⟨none, 0⟩)),
    (true, .ret (.handle 1))] := by
    simp
  exact ⟨_, ⟨c, hr⟩, freed_refused taker_answers rfl hr hgiven (by simp) (by simp) rfl (by decide)⟩

/-- A handle that is given answers what the parser makes of the source, as long as no one has called to free it: an
error is an answer, and only a panic a failed call. -/
theorem loaded_answers (hE : eng.Answers rest answer) (he : rest e)
    (hr : Runs (Step unmarshal eng) { engine := e } (h₀ ++ (u, .call (.parse id src)) :: (h₁ ++ (u, .ret r) :: h₂)) c)
    (hgiven : (v, Event.ret (.handle id)) ∈ h₀) (hu : ∀ e ∈ h₁, e.1 ≠ u) (hsrc : goBytes src = some text)
    (hfree : ∀ t, (t, Event.call (.grammarFree id)) ∉ h₀ ++ h₁) :
    r = match answer text with
      | .accepted => .accept
      | .failed err => .reject (errPayload err)
      | .panicked v => .failure .internal (firstLine v.message) := by
  obtain ⟨tr, s, tb, hp, heq⟩ := (simulates hE he).linearizable hr
  obtain ⟨tr₁, tr₂, s₁, tb₁, g, g', rfl, hpre, rfl, rfl, hseen, -⟩ := hp.between heq hu
  -- the load is done before, and no free
  have hload : ∃ op, (op, Reply.handle id) ∈ tr₁.commits := by
    have hin : (v, Event.ret (.handle id)) ∈ tr₁.history := hseen ▸ List.mem_append_left _ hgiven
    obtain ⟨op, hdone⟩ := hpre.committed (by simp) (mem_history.1 hin).1
    exact ⟨op, mem_commits hdone⟩
  have hnone : ∀ d ∈ tr₁.commits, d.1 ≠ .grammarFree id := by
    rintro ⟨op, q⟩ hd rfl
    obtain ⟨t, hdone⟩ := commits_mem hd
    have hcall := mem_history.2 ⟨hpre.made (by simp) hdone, rfl⟩
    rw [hseen, List.mem_append, List.mem_cons] at hcall
    refine hfree t ?_
    rcases hcall with hin | heq | hin
    · exact List.mem_append_left _ hin
    · cases heq
    · exact List.mem_append_right _ (List.mem_append_left _ hin)
  have hloaded : tb₁.loaded id = true := by
    obtain ⟨op, hin⟩ := hload
    obtain ⟨done, done', hsplit⟩ := List.append_of_mem hin
    have hall := hpre.replays
    rw [hsplit] at hall hnone
    obtain ⟨tb₀, -, hrest⟩ := hall.split
    obtain ⟨hid, hrest⟩ := hrest.uncons
    exact loaded_replays hrest (fun d hd => hnone d (by simp [hd])) (given_loaded hid.symm rfl)
  show (tb₁.run answer (Op.task unmarshal (.parse id src))).2 = _
  simp only [Op.task, hsrc, Table.run, hloaded, if_true]
  rcases answer text with _ | err | v
  · rfl
  · exact reply_failed err
  · rfl

def loadedHistory (r : Reply) : Trace Bool Op Reply :=
  [(true, .call (.grammar ⟨none, 0⟩)), (true, .ret (.handle 1)), (false, .call (.parse 1 aSource)), (false, .ret r)]

def loadedSchedule : List (Bool × Option Op) :=
  (true, some (.grammar ⟨none, 0⟩)) :: List.replicate 6 (true, none) ++
    (false, some (.parse 1 aSource)) :: List.replicate 13 (false, none)

theorem loaded_answers_parse :
    ∃ r, (∃ c, Runs (Step (fun _ => none) taker) { engine := [] } (loadedHistory r) c) ∧ r = .accept := by
  have hdrive : ∃ c, drive (fun _ => none) taker loadedSchedule { engine := [] } = some (loadedHistory .accept, c) :=
    ⟨_, rfl⟩
  obtain ⟨c, hdrive⟩ := hdrive
  have hr : Runs (Step (fun _ => none) taker) { engine := [] }
    ([(true, .call (.grammar ⟨none, 0⟩)), (true, .ret (.handle 1))] ++
    (false, .call (.parse 1 aSource)) :: ([] ++ (false, .ret .accept) :: [])) c := drive_runs hdrive
  have hgiven : (true, Event.ret (Reply.handle 1)) ∈ [(true, Event.call (Op.grammar ⟨none, 0⟩)),
    (true, .ret (.handle 1))] := by
    simp
  exact ⟨_, ⟨c, hr⟩, loaded_answers taker_answers rfl hr hgiven (by simp) rfl (by simp)⟩

end

end TabnasAbnf.Clib
