/-
Least closure by passes over a list: each pass adds every item that is needed and not defined, and an
item added may make others needed, in the same pass or in a later one. What is added is what is reached
from the start through items that are themselves added.
-/
import Mathlib.Data.List.Nodup
import Mathlib.Data.List.Basic

namespace TabnasAbnf.Base

variable {α N : Type} [DecidableEq N]

/-- A closure under way: the names defined and needed so far, the items added, and whether the pass
under way has added one. -/
structure Work (α N : Type) where
  defined : List N
  needed : List N
  out : List α
  added : Bool

section

variable (name : α → N) (scan : α → List N → List N)

def visit (w : Work α N) (a : α) : Work α N :=
  if name a ∈ w.defined ∨ name a ∉ w.needed then w
  else { defined := name a :: w.defined, needed := scan a w.needed, out := w.out ++ [a], added := true }

def sweep (items : List α) (w : Work α N) : Work α N := items.foldl (visit name scan) { w with added := false }

/-- The items a pass may still add. -/
def pending (items : List α) (w : Work α N) : Nat := (items.filter fun a => decide (name a ∉ w.defined)).length

/-! ## A pass -/

theorem visit_defined {w : Work α N} {a : α} {n : N} (h : n ∈ w.defined) : n ∈ (visit name scan w a).defined := by
  unfold visit
  split
  · exact h
  · exact List.mem_cons_of_mem _ h

theorem sweep_defined {items : List α} {w : Work α N} {n : N} (h : n ∈ w.defined) :
    n ∈ (items.foldl (visit name scan) w).defined := by
  induction items generalizing w with
  | nil => exact h
  | cons a items ih => exact ih (visit_defined name scan h)

/-- A pass that has added nothing has skipped every item, and left everything as it was. -/
theorem foldl_skipped {items : List α} {w : Work α N} (h : (items.foldl (visit name scan) w).added = false) :
    items.foldl (visit name scan) w = w ∧ ∀ a ∈ items, name a ∈ w.defined ∨ name a ∉ w.needed := by
  have hkeep : ∀ (items : List α) (w : Work α N), w.added = true → (items.foldl (visit name scan) w).added = true := by
    intro items
    induction items with
    | nil => exact fun w hw => hw
    | cons a items ih =>
      intro w hw
      refine ih _ ?_
      unfold visit
      split
      · exact hw
      · rfl
  induction items generalizing w with
  | nil => exact ⟨rfl, by simp⟩
  | cons a items ih =>
    rw [List.foldl_cons] at h ⊢
    by_cases ha : name a ∈ w.defined ∨ name a ∉ w.needed
    · have hv : visit name scan w a = w := if_pos ha
      rw [hv] at h ⊢
      obtain ⟨hw, hall⟩ := ih h
      exact ⟨hw, List.forall_mem_cons.2 ⟨ha, hall⟩⟩
    · have hv : (visit name scan w a).added = true := by
        unfold visit
        rw [if_neg ha]
      rw [hkeep items _ hv] at h
      cases h

/-- A pass that has added an item leaves fewer to add. -/
theorem pending_sweep {items : List α} {w : Work α N} (h : (sweep name scan items w).added = true) :
    pending name items (sweep name scan items w) < pending name items w := by
  have hnew : ∀ (l : List α) (w : Work α N), w.added = false → (l.foldl (visit name scan) w).added = true →
      ∃ a ∈ l, name a ∉ w.defined ∧ name a ∈ (l.foldl (visit name scan) w).defined := by
    intro l
    induction l with
    | nil =>
      intro w hw h
      rw [List.foldl_nil, hw] at h
      cases h
    | cons a l ih =>
      intro w hw h
      by_cases ha : name a ∈ w.defined ∨ name a ∉ w.needed
      · have hv : visit name scan w a = w := if_pos ha
        rw [List.foldl_cons, hv] at h ⊢
        obtain ⟨b, hb, hd⟩ := ih w hw h
        exact ⟨b, List.mem_cons_of_mem _ hb, hd⟩
      · refine ⟨a, List.mem_cons_self, fun hd => ha (.inl hd), ?_⟩
        rw [List.foldl_cons]
        refine sweep_defined name scan ?_
        unfold visit
        rw [if_neg ha]
        exact List.mem_cons_self
  rcases hnew items { w with added := false } rfl h with ⟨a, ha, hold, hdef⟩
  have hsub : (items.filter fun a => decide (name a ∉ (sweep name scan items w).defined)).Sublist
      (items.filter fun a => decide (name a ∉ w.defined)) := by
    refine List.monotone_filter_right _ fun b hb => ?_
    rw [decide_eq_true_eq] at hb ⊢
    exact fun hd => hb (sweep_defined name scan hd)
  refine Nat.lt_of_le_of_ne hsub.length_le fun hlen => ?_
  -- the item added is not among those left
  have hmem : a ∈ items.filter fun a => decide (name a ∉ (sweep name scan items w).defined) := by
    rw [hsub.eq_of_length hlen, List.mem_filter]
    exact ⟨ha, decide_eq_true hold⟩
  exact of_decide_eq_true (List.mem_filter.1 hmem).2 hdef

/-- Passes until one adds nothing. -/
def saturate (items : List α) (w : Work α N) : Work α N :=
  if _h : (sweep name scan items w).added = true then saturate items (sweep name scan items w)
  else sweep name scan items w
termination_by pending name items w
decreasing_by exact pending_sweep name scan (by assumption)

end

/-! ## What is added -/

/-- The names reached from the start, through items whose names were not defined at the start. -/
inductive Reached (name : α → N) (refs : α → N → Prop) (items : List α) (defined start : N → Prop) : N → Prop
  | start {n} : start n → Reached name refs items defined start n
  | step {a n} : a ∈ items → ¬ defined (name a) → Reached name refs items defined start (name a) → refs a n →
    Reached name refs items defined start n

omit [DecidableEq N] in
/-- What is reached through items seen through a function, which reference the same names. -/
theorem reached_map {γ : Type} {name : α → N} {refs : α → N → Prop} {f : γ → α} {refs' : γ → N → Prop}
    {items : List γ} {defined start : N → Prop} (h : ∀ c ∈ items, ∀ n, refs (f c) n ↔ refs' c n) (n : N) :
    Reached name refs (items.map f) defined start n ↔ Reached (fun c => name (f c)) refs' items defined start n := by
  constructor
  · intro hr
    induction hr with
    | start hs => exact .start hs
    | step ha hd _ hr ih =>
      obtain ⟨c, hc, rfl⟩ := List.mem_map.1 ha
      exact .step hc hd ih ((h c hc _).1 hr)
  · intro hr
    induction hr with
    | start hs => exact .start hs
    | step hc hd _ hr ih => exact .step (List.mem_map_of_mem hc) hd ih ((h _ hc _).2 hr)

/-- What holds of the work at every point. -/
structure Closing (name : α → N) (refs : α → N → Prop) (items : List α) (defined start : N → Prop)
    (w : Work α N) : Prop where
  mem_defined : ∀ n, n ∈ w.defined ↔ defined n ∨ ∃ a ∈ w.out, name a = n
  mem_needed : ∀ n, n ∈ w.needed ↔ start n ∨ ∃ a ∈ w.out, refs a n
  mem_out : ∀ a ∈ w.out, a ∈ items ∧ ¬ defined (name a) ∧ Reached name refs items defined start (name a)
  nodup : (w.out.map name).Nodup

namespace Closing

variable {name : α → N} {scan : α → List N → List N} {refs : α → N → Prop} {items : List α} {defined start : N → Prop}
  {w : Work α N}

omit [DecidableEq N] in
theorem reached (h : Closing name refs items defined start w) {n : N} (hn : n ∈ w.needed) :
    Reached name refs items defined start n := by
  rcases (h.mem_needed n).1 hn with hs | ⟨a, ha, hr⟩
  · exact .start hs
  · obtain ⟨hi, hd, hra⟩ := h.mem_out a ha
    exact .step hi hd hra hr

theorem visit (hscan : ∀ a needed n, n ∈ scan a needed ↔ n ∈ needed ∨ refs a n)
    (h : Closing name refs items defined start w) {a : α} (ha : a ∈ items) :
    Closing name refs items defined start (Base.visit name scan w a) := by
  unfold Base.visit
  split
  · exact h
  · rename_i hskip
    push Not at hskip
    obtain ⟨hnew, hneed⟩ := hskip
    have hout : ∀ b ∈ w.out, name b ≠ name a := fun b hb he => hnew ((h.mem_defined _).2 (.inr ⟨b, hb, he⟩))
    constructor
    · intro n
      rw [List.mem_cons, h.mem_defined]
      simp only [List.mem_append, List.mem_singleton]
      constructor
      · rintro (rfl | hd | ⟨b, hb, rfl⟩)
        · exact .inr ⟨a, .inr rfl, rfl⟩
        · exact .inl hd
        · exact .inr ⟨b, .inl hb, rfl⟩
      · rintro (hd | ⟨b, hb | rfl, rfl⟩)
        · exact .inr (.inl hd)
        · exact .inr (.inr ⟨b, hb, rfl⟩)
        · exact .inl rfl
    · intro n
      rw [hscan, h.mem_needed]
      simp only [List.mem_append, List.mem_singleton]
      constructor
      · rintro ((hs | ⟨b, hb, hr⟩) | hr)
        · exact .inl hs
        · exact .inr ⟨b, .inl hb, hr⟩
        · exact .inr ⟨a, .inr rfl, hr⟩
      · rintro (hs | ⟨b, hb | rfl, hr⟩)
        · exact .inl (.inl hs)
        · exact .inl (.inr ⟨b, hb, hr⟩)
        · exact .inr hr
    · intro b hb
      rcases List.mem_append.1 hb with hb | hb
      · exact h.mem_out b hb
      · rw [List.mem_singleton.1 hb]
        exact ⟨ha, fun hd => hnew ((h.mem_defined _).2 (.inl hd)), h.reached hneed⟩
    · rw [List.map_append, List.nodup_append]
      refine ⟨h.nodup, by simp, ?_⟩
      intro m hm m' hm' he
      obtain ⟨b, hb, rfl⟩ := List.mem_map.1 hm
      rw [List.map_singleton, List.mem_singleton] at hm'
      exact hout b hb (he.trans hm')

theorem foldl (hscan : ∀ a needed n, n ∈ scan a needed ↔ n ∈ needed ∨ refs a n) {l : List α} (hl : l ⊆ items)
    (h : Closing name refs items defined start w) :
    Closing name refs items defined start (l.foldl (Base.visit name scan) w) := by
  induction l generalizing w with
  | nil => exact h
  | cons a l ih => exact ih (fun b hb => hl (List.mem_cons_of_mem _ hb)) (h.visit hscan (hl List.mem_cons_self))

theorem sweep (hscan : ∀ a needed n, n ∈ scan a needed ↔ n ∈ needed ∨ refs a n)
    (h : Closing name refs items defined start w) :
    Closing name refs items defined start (Base.sweep name scan items w) :=
  foldl hscan (List.Subset.refl _) ⟨h.mem_defined, h.mem_needed, h.mem_out, h.nodup⟩

theorem saturate (hscan : ∀ a needed n, n ∈ scan a needed ↔ n ∈ needed ∨ refs a n)
    (h : Closing name refs items defined start w) :
    Closing name refs items defined start (Base.saturate name scan items w) := by
  induction w using saturate.induct name scan items with
  | case1 w hadd ih =>
    rw [Base.saturate, dif_pos hadd]
    exact ih (h.sweep hscan)
  | case2 w hadd =>
    rw [Base.saturate, dif_neg hadd]
    exact h.sweep hscan

end Closing

/-- Nothing is left to add at the end. -/
theorem saturate_closed (name : α → N) (scan : α → List N → List N) (items : List α) (w : Work α N) :
    ∀ a ∈ items, name a ∈ (saturate name scan items w).defined ∨ name a ∉ (saturate name scan items w).needed := by
  induction w using saturate.induct name scan items with
  | case1 w hadd ih =>
    rw [saturate, dif_pos hadd]
    exact ih
  | case2 w hadd =>
    rw [saturate, dif_neg hadd]
    have hfalse : (sweep name scan items w).added = false := by simpa using hadd
    obtain ⟨hw, hall⟩ := foldl_skipped name scan hfalse
    have hsweep : sweep name scan items w = { w with added := false } := hw
    rw [hsweep]
    exact hall

/-- Only items are added, whatever the scan finds. -/
theorem saturate_subset (name : α → N) (scan : α → List N → List N) (items : List α) (w : Work α N) :
    ∀ a ∈ (saturate name scan items w).out, a ∈ w.out ∨ a ∈ items := by
  have hsweep : ∀ (l : List α) (w : Work α N), ∀ a ∈ (l.foldl (visit name scan) w).out, a ∈ w.out ∨ a ∈ l := by
    intro l
    induction l with
    | nil => exact fun w a ha => .inl ha
    | cons b l ih =>
      intro w a ha
      rcases ih _ a ha with ha | ha
      · unfold visit at ha
        split at ha
        · exact .inl ha
        · rcases List.mem_append.1 ha with ha | ha
          · exact .inl ha
          · rw [List.mem_singleton.1 ha]
            exact .inr List.mem_cons_self
      · exact .inr (List.mem_cons_of_mem _ ha)
  induction w using saturate.induct name scan items with
  | case1 w hadd ih =>
    rw [saturate, dif_pos hadd]
    intro a ha
    rcases ih a ha with ha | ha
    · exact hsweep items { w with added := false } a ha
    · exact .inr ha
  | case2 w hadd =>
    rw [saturate, dif_neg hadd]
    exact hsweep items { w with added := false }

/-- What is added, item by item: those reached whose names were not defined at the start. -/
theorem saturate_out {name : α → N} {scan : α → List N → List N} {refs : α → N → Prop} {items : List α}
    {defined needed : List N} (hscan : ∀ a needed n, n ∈ scan a needed ↔ n ∈ needed ∨ refs a n)
    (hnames : (items.map name).Nodup) :
    let w := saturate name scan items ⟨defined, needed, [], false⟩
    Closing name refs items (· ∈ defined) (· ∈ needed) w ∧
      ∀ a, a ∈ w.out ↔ a ∈ items ∧ name a ∉ defined ∧ Reached name refs items (· ∈ defined) (· ∈ needed) (name a) := by
  have h₀ : Closing name refs items (· ∈ defined) (· ∈ needed) (⟨defined, needed, [], false⟩ : Work α N) :=
    ⟨by simp, by simp, by simp, by simp⟩
  have h := h₀.saturate hscan
  have hclosed := saturate_closed name scan items ⟨defined, needed, [], false⟩
  simp only
  generalize saturate name scan items ⟨defined, needed, [], false⟩ = w at h hclosed ⊢
  -- an item needed at the end is one added, unless its name was defined at the start
  have hadded : ∀ a ∈ items, name a ∉ defined → name a ∈ w.needed → a ∈ w.out := by
    intro a ha hd hn
    rcases hclosed a ha with hdef | hneed
    · rcases (h.mem_defined _).1 hdef with hd' | ⟨b, hb, he⟩
      · exact absurd hd' hd
      · rwa [← List.inj_on_of_nodup_map hnames (h.mem_out b hb).1 ha he]
    · exact absurd hn hneed
  have hneeded : ∀ n, Reached name refs items (· ∈ defined) (· ∈ needed) n → n ∈ w.needed := by
    intro n hr
    induction hr with
    | start hs => exact (h.mem_needed _).2 (.inl hs)
    | step ha hd _ hr ih => exact (h.mem_needed _).2 (.inr ⟨_, hadded _ ha hd ih, hr⟩)
  refine ⟨h, fun a => ⟨h.mem_out a, ?_⟩⟩
  rintro ⟨ha, hd, hr⟩
  exact hadded a ha hd (hneeded _ hr)

/-! ## The order of the passes -/

section

variable {name : α → N} {scan : α → List N → List N} {refs : α → N → Prop} {items : List α}

/-- The items a pass may add: those needed and not defined. -/
def due (name : α → N) (items : List α) (w : Work α N) : List α :=
  items.filter fun a => decide (name a ∉ w.defined ∧ name a ∈ w.needed)

theorem mem_due {w : Work α N} {a : α} : a ∈ due name items w ↔ a ∈ items ∧ name a ∉ w.defined ∧ name a ∈ w.needed := by
  rw [due, List.mem_filter, decide_eq_true_eq]

/-- Where every reference goes to an item before it, a pass adds what is due at its beginning, in order. -/
theorem foldl_out (hscan : ∀ a needed n, n ∈ scan a needed ↔ n ∈ needed ∨ refs a n) (hnames : (items.map name).Nodup)
    (hbefore : items.Pairwise fun a b => ¬ refs a (name b)) (w : Work α N) :
    (items.foldl (visit name scan) w).out = w.out ++ due name items w ∧
      (∀ n, n ∈ (items.foldl (visit name scan) w).defined ↔ n ∈ w.defined ∨ ∃ a ∈ due name items w, name a = n) ∧
      ∀ n, n ∈ (items.foldl (visit name scan) w).needed ↔ n ∈ w.needed ∨ ∃ a ∈ due name items w, refs a n := by
  induction items generalizing w with
  | nil => simp [due]
  | cons a items ih =>
    rw [List.map_cons, List.nodup_cons] at hnames
    rw [List.pairwise_cons] at hbefore
    by_cases ha : name a ∉ w.defined ∧ name a ∈ w.needed
    · -- what the item makes needed stands before it, so the rest of the pass is due as it was
      have hv : visit name scan w a =
          { defined := name a :: w.defined, needed := scan a w.needed, out := w.out ++ [a], added := true } := by
        rw [visit, if_neg]
        rintro (hd | hn)
        · exact ha.1 hd
        · exact hn ha.2
      have hrest : due name items (visit name scan w a) = due name items w := by
        refine List.filter_congr fun b hb => ?_
        rw [decide_eq_decide, hv, List.mem_cons, hscan, not_or]
        constructor
        · rintro ⟨⟨-, hd⟩, hn | hr⟩
          · exact ⟨hd, hn⟩
          · exact absurd hr (hbefore.1 b hb)
        · rintro ⟨hd, hn⟩
          exact ⟨⟨fun he => hnames.1 (List.mem_map.2 ⟨b, hb, he⟩), hd⟩, .inl hn⟩
      have hdue : due name (a :: items) w = a :: due name items w := List.filter_cons_of_pos (decide_eq_true ha)
      obtain ⟨hout, hdef, hneed⟩ := ih hnames.2 hbefore.2 (visit name scan w a)
      rw [hrest] at hout hdef hneed
      rw [List.foldl_cons, hdue]
      refine ⟨?_, fun n => ?_, fun n => ?_⟩
      · rw [hout, hv, List.append_assoc]
        rfl
      · rw [hdef, hv, List.mem_cons, List.exists_mem_cons_iff, ← or_assoc]
        exact or_congr_left (or_comm.trans (or_congr_right eq_comm))
      · rw [hneed, hv, hscan, List.exists_mem_cons_iff, or_assoc]
    · -- an item that is not due leaves the work as it is
      have hv : visit name scan w a = w := if_pos (by tauto)
      have hdue : due name (a :: items) w = due name items w := List.filter_cons_of_neg (by simpa using ha)
      rw [List.foldl_cons, hv, hdue]
      exact ih hnames.2 hbefore.2 w

/-- What later passes add begins, among items without which nothing is referenced, with one that is due
at the first of them. -/
theorem saturate_rest (hscan : ∀ a needed n, n ∈ scan a needed ↔ n ∈ needed ∨ refs a n)
    (hnames : (items.map name).Nodup)
    (hbefore : items.Pairwise fun a b => ¬ refs a (name b)) {keep : α → Bool}
    (hkeep : ∀ a ∈ items, keep a = false → ∀ n, ¬ refs a n) (w : Work α N) :
    ∃ rest, (saturate name scan items w).out = w.out ++ rest ∧
      ∀ q, (rest.filter keep).head? = some q → q ∈ due name items w := by
  induction w using saturate.induct name scan items with
  | case1 w hadd ih =>
    rcases foldl_out hscan hnames hbefore { w with added := false } with ⟨hout, hdef, hneed⟩
    obtain ⟨rest, hrest, hhead⟩ := ih
    refine ⟨due name items w ++ rest, ?_, fun q hq => ?_⟩
    · rw [saturate, dif_pos hadd, hrest]
      exact (congrArg (· ++ rest) hout).trans (List.append_assoc ..)
    · rw [List.filter_append, List.head?_append] at hq
      cases hfirst : ((due name items w).filter keep).head? with
      | some p =>
        rw [hfirst, Option.some_or, Option.some.injEq] at hq
        exact hq ▸ (List.mem_filter.1 (List.mem_of_head? hfirst)).1
      | none =>
        -- nothing added by this pass references anything, so nothing is due at the next
        rw [hfirst, Option.none_or] at hq
        have hnone : ∀ a ∈ due name items w, ∀ n, ¬ refs a n := by
          intro a ha
          refine hkeep a (mem_due.1 ha).1 (Bool.eq_false_iff.2 fun hk => ?_)
          have hempty := List.head?_eq_none_iff.1 hfirst
          rw [List.filter_eq_nil_iff] at hempty
          exact hempty a ha hk
        obtain ⟨hi, hd, hn⟩ := mem_due.1 (hhead q hq)
        have hdueq : q ∈ due name items w := by
          refine mem_due.2 ⟨hi, fun hd' => hd ((hdef _).2 (.inl hd')), ?_⟩
          rcases (hneed _).1 hn with hn | ⟨a, ha, hr⟩
          · exact hn
          · exact absurd hr (hnone a ha _)
        exact absurd ((hdef _).2 (.inr ⟨q, hdueq, rfl⟩)) hd
  | case2 w hadd =>
    rcases foldl_out hscan hnames hbefore { w with added := false } with ⟨hout, -, -⟩
    refine ⟨due name items w, ?_, fun q hq => (List.mem_filter.1 (List.mem_of_head? hq)).1⟩
    rw [saturate, dif_neg hadd]
    exact hout

/-- The first pass adds what is needed at the start, in order; what later ones add begins, among items
without which nothing is referenced, with one that an item of the first pass references. -/
theorem saturate_first (hscan : ∀ a needed n, n ∈ scan a needed ↔ n ∈ needed ∨ refs a n)
    (hnames : (items.map name).Nodup)
    (hbefore : items.Pairwise fun a b => ¬ refs a (name b)) {keep : α → Bool}
    (hkeep : ∀ a ∈ items, keep a = false → ∀ n, ¬ refs a n) (w : Work α N) :
    ∃ rest, (saturate name scan items w).out = w.out ++ due name items w ++ rest ∧
      ∀ q, (rest.filter keep).head? = some q → q ∈ items ∧ ∃ p ∈ due name items w, keep p = true ∧ refs p (name q) := by
  rcases foldl_out hscan hnames hbefore { w with added := false } with ⟨hout, hdef, hneed⟩
  by_cases hadd : (sweep name scan items w).added = true
  · obtain ⟨rest, hrest, hhead⟩ := saturate_rest hscan hnames hbefore hkeep (sweep name scan items w)
    refine ⟨rest, ?_, fun q hq => ?_⟩
    · rw [saturate, dif_pos hadd, hrest]
      exact congrArg (· ++ rest) hout
    · obtain ⟨hi, hd, hn⟩ := mem_due.1 (hhead q hq)
      refine ⟨hi, ?_⟩
      rcases (hneed _).1 hn with hn | ⟨p, hp, hr⟩
      · have hq' : q ∈ due name items w := mem_due.2 ⟨hi, fun hd' => hd ((hdef _).2 (.inl hd')), hn⟩
        exact absurd ((hdef _).2 (.inr ⟨q, hq', rfl⟩)) hd
      · refine ⟨p, hp, ?_, hr⟩
        by_contra hk
        exact hkeep p (mem_due.1 hp).1 (Bool.eq_false_iff.2 hk) _ hr
  · refine ⟨[], ?_, by simp⟩
    rw [saturate, dif_neg hadd, List.append_nil]
    exact hout

end

/-! ## Closures that run alike -/

section

variable {β : Type} {f : α → β} {name : α → N} {name' : β → N} {scan : α → List N → List N}
  {scan' : β → List N → List N}

/-- A closure over other items: the same names defined and needed, and the items that stand for those added. -/
structure Work.Like (f : α → β) (w : Work α N) (w' : Work β N) : Prop where
  defined : ∀ n, n ∈ w'.defined ↔ n ∈ w.defined
  needed : ∀ n, n ∈ w'.needed ↔ n ∈ w.needed
  out : w'.out = w.out.map f
  added : w'.added = w.added

variable {items : List α} (hname : ∀ a ∈ items, name' (f a) = name a)
  (hscan : ∀ a ∈ items, ∀ needed needed', (∀ n, n ∈ needed' ↔ n ∈ needed) →
    ∀ n, n ∈ scan' (f a) needed' ↔ n ∈ scan a needed)

include hname hscan

theorem Work.Like.visit {w : Work α N} {w' : Work β N} (h : Work.Like f w w') {a : α} (ha : a ∈ items) :
    Work.Like f (visit name scan w a) (Base.visit name' scan' w' (f a)) := by
  have hskip : name' (f a) ∈ w'.defined ∨ name' (f a) ∉ w'.needed ↔ name a ∈ w.defined ∨ name a ∉ w.needed := by
    rw [hname a ha, h.defined, h.needed]
  unfold Base.visit
  by_cases hs : name a ∈ w.defined ∨ name a ∉ w.needed
  · rw [if_pos hs, if_pos (hskip.2 hs)]
    exact h
  · rw [if_neg hs, if_neg (mt hskip.1 hs)]
    refine ⟨fun n => ?_, hscan a ha _ _ h.needed, ?_, rfl⟩
    · rw [List.mem_cons, List.mem_cons, hname a ha, h.defined]
    · rw [h.out, List.map_append]
      rfl

theorem Work.Like.sweep {w : Work α N} {w' : Work β N} (h : Work.Like f w w') :
    Work.Like f (sweep name scan items w) (Base.sweep name' scan' (items.map f) w') := by
  have hrun : ∀ (l : List α), l ⊆ items → ∀ {w : Work α N} {w' : Work β N}, Work.Like f w w' →
      Work.Like f (l.foldl (Base.visit name scan) w) ((l.map f).foldl (Base.visit name' scan') w') := by
    intro l
    induction l with
    | nil => exact fun _ _ _ h => h
    | cons a l ih =>
      intro hl w w' h
      exact ih (fun b hb => hl (List.mem_cons_of_mem _ hb)) (h.visit hname hscan (hl List.mem_cons_self))
  exact hrun items (List.Subset.refl _) ⟨h.defined, h.needed, h.out, rfl⟩

/-- Passes over items that stand for others, pass by pass. -/
theorem Work.Like.saturate {w : Work α N} {w' : Work β N} (h : Work.Like f w w') :
    Work.Like f (saturate name scan items w) (Base.saturate name' scan' (items.map f) w') := by
  have hsweep := h.sweep hname hscan
  rw [Base.saturate, Base.saturate.eq_def name' scan']
  by_cases ha : (Base.sweep name scan items w).added = true
  · rw [dif_pos ha, dif_pos (hsweep.added.trans ha)]
    exact hsweep.saturate
  · rw [dif_neg ha, dif_neg (by rwa [hsweep.added])]
    exact hsweep
termination_by pending name items w
decreasing_by exact pending_sweep name scan (by assumption)

end

end TabnasAbnf.Base
