/-
Letters that give way to languages, and systems of languages: the least languages such that each state's holds what its
own right sides give, where the states in them stand for theirs. A system that writes states for what other states give,
and writes them in no cycle, has the same least languages.
-/
import Mathlib.Algebra.BigOperators.Ring.List
import Mathlib.Order.FixedPoints
import TabnasAbnf.Base.Yield

namespace TabnasAbnf.Base

open scoped Computability

section

variable {σ α β γ : Type}

/-! ## Letters that give way to languages -/

/-- Each letter of a word gives way to one of its words. -/
def expand (f : α → Language β) (l : Language α) : Language β := {w | ∃ x ∈ l, w ∈ (x.map f).prod}

variable {f g : α → Language β} {l m : Language α}

theorem mem_expand {w : List β} : w ∈ expand f l ↔ ∃ x ∈ l, w ∈ (x.map f).prod := Iff.rfl

theorem sum_mono {F G : γ → Language α} {xs : List γ} (h : ∀ x ∈ xs, F x ≤ G x) : (xs.map F).sum ≤ (xs.map G).sum := by
  intro w hw
  obtain ⟨x, hx, hw⟩ := mem_sum.1 hw
  exact mem_sum.2 ⟨x, hx, h x hx hw⟩

theorem prod_map_mono (h : ∀ a, f a ≤ g a) (x : List α) : (x.map f).prod ≤ (x.map g).prod := by
  induction x with
  | nil => exact le_rfl
  | cons a x ih =>
    rw [List.map_cons, List.prod_cons, List.map_cons, List.prod_cons]
    exact mul_le_mul' (h a) ih

theorem expand_mono (h : ∀ a, f a ≤ g a) (hl : l ≤ m) : expand f l ≤ expand g m := by
  rintro w ⟨x, hx, hw⟩
  exact ⟨x, hl hx, prod_map_mono h x hw⟩

@[simp] theorem expand_one : expand f 1 = 1 := by
  ext w
  rw [mem_expand]
  constructor
  · rintro ⟨x, hx, hw⟩
    rwa [(Language.mem_one x).1 hx] at hw
  · intro hw
    exact ⟨[], Language.nil_mem_one, hw⟩

@[simp] theorem expand_single (a : α) : expand f (single a) = f a := by
  ext w
  rw [mem_expand]
  constructor
  · rintro ⟨x, hx, hw⟩
    rwa [mem_single.1 hx, List.map_singleton, List.prod_singleton] at hw
  · intro hw
    refine ⟨[a], rfl, ?_⟩
    rwa [List.map_singleton, List.prod_singleton]

@[simp] theorem expand_mul : expand f (l * m) = expand f l * expand f m := by
  ext w
  rw [mem_expand, Language.mem_mul]
  constructor
  · rintro ⟨x, hx, hw⟩
    obtain ⟨u, hu, v, hv, rfl⟩ := Language.mem_mul.1 hx
    rw [List.map_append, List.prod_append, Language.mem_mul] at hw
    obtain ⟨a, ha, b, hb, rfl⟩ := hw
    exact ⟨a, ⟨u, hu, ha⟩, b, ⟨v, hv, hb⟩, rfl⟩
  · rintro ⟨a, ⟨u, hu, ha⟩, b, ⟨v, hv, hb⟩, rfl⟩
    refine ⟨u ++ v, Language.append_mem_mul hu hv, ?_⟩
    rw [List.map_append, List.prod_append]
    exact Language.append_mem_mul ha hb

theorem expand_sum (h : γ → Language α) (xs : List γ) :
    expand f (xs.map h).sum = (xs.map fun x => expand f (h x)).sum := by
  ext w
  rw [mem_expand, mem_sum]
  constructor
  · rintro ⟨x, hx, hw⟩
    obtain ⟨c, hc, hx⟩ := mem_sum.1 hx
    exact ⟨c, hc, x, hx, hw⟩
  · rintro ⟨c, hc, x, hx, hw⟩
    exact ⟨x, mem_sum.2 ⟨c, hc, hx⟩, hw⟩

theorem expand_map (h : γ → α) (l : Language γ) : expand f (l.map h) = expand (fun c => f (h c)) l := by
  ext w
  constructor
  · rintro ⟨_, ⟨x, hx, rfl⟩, hw⟩
    refine ⟨x, hx, ?_⟩
    rwa [List.map_map] at hw
  · rintro ⟨x, hx, hw⟩
    refine ⟨_, ⟨x, hx, rfl⟩, ?_⟩
    rwa [List.map_map]

theorem map_expand (h : β → γ) : (expand f l).map h = expand (fun a => (f a).map h) l := by
  have hprod : ∀ x : List α, Language.map h (x.map f).prod = (x.map fun a => (f a).map h).prod := by
    intro x
    rw [map_list_prod, List.map_map]
    rfl
  ext w
  constructor
  · rintro ⟨u, ⟨x, hx, hu⟩, rfl⟩
    refine ⟨x, hx, ?_⟩
    rw [← hprod]
    exact ⟨u, hu, rfl⟩
  · rintro ⟨x, hx, hw⟩
    rw [← hprod] at hw
    obtain ⟨u, hu, rfl⟩ := hw
    exact ⟨u, ⟨x, hx, hu⟩, rfl⟩

/-! ## Systems -/

/-- What right sides give, where each state's words are given. -/
def throughAll (L : σ → Language α) (l : Language (α ⊕ σ)) : Language α := expand (Sum.elim single L) l

theorem throughAll_mono {L M : σ → Language α} (h : ∀ s, L s ≤ M s) (l : Language (α ⊕ σ)) :
    throughAll L l ≤ throughAll M l := by
  refine expand_mono (fun x => ?_) le_rfl
  rcases x with a | s
  · exact le_rfl
  · exact h s

/-- What the right sides give from languages of the states. -/
def gives (S : σ → Language (α ⊕ σ)) : (σ → Language α) →o (σ → Language α) where
  toFun L s := throughAll L (S s)
  monotone' _ _ h s := throughAll_mono h (S s)

/-- The least languages that hold what the right sides give. -/
noncomputable def solution (S : σ → Language (α ⊕ σ)) : σ → Language α := OrderHom.lfp (gives S)

variable {S W : σ → Language (α ⊕ σ)} {L : σ → Language α}

theorem solution_eq (s : σ) : throughAll (solution S) (S s) = solution S s := congrFun (OrderHom.map_lfp (gives S)) s

theorem solution_le (h : ∀ s, throughAll L (S s) ≤ L s) (s : σ) : solution S s ≤ L s := OrderHom.lfp_le (gives S) h s

/-- Letters exchanged in what right sides give are exchanged in the right sides. -/
theorem map_throughAll (f : α → β) (L : σ → Language α) (l : Language (α ⊕ σ)) :
    (throughAll L l).map f = throughAll (fun s => (L s).map f) (l.map (Sum.map f id)) := by
  rw [throughAll, map_expand, throughAll, expand_map]
  congr 1
  funext x
  rcases x with a | s
  · exact map_single f a
  · rfl

/-- Letters may be exchanged before or after. -/
theorem solution_map (f : α → β) (s : σ) : (solution S s).map f = solution (fun s => (S s).map (Sum.map f id)) s := by
  apply le_antisymm
  · rintro _ ⟨w, hw, rfl⟩
    -- the words that are in the language once their letters are exchanged
    let M : σ → Language α := fun s => {w | w.map f ∈ solution (fun s => (S s).map (Sum.map f id)) s}
    have hM : ∀ s, (M s).map f ≤ solution (fun s => (S s).map (Sum.map f id)) s := by
      rintro s _ ⟨u, hu, rfl⟩
      exact hu
    refine (solution_le (L := M) (fun s w hw => ?_) s) hw
    show w.map f ∈ solution (fun s => (S s).map (Sum.map f id)) s
    rw [← solution_eq]
    refine throughAll_mono hM _ ?_
    rw [← map_throughAll]
    exact ⟨w, hw, rfl⟩
  · refine solution_le (L := fun s => (solution S s).map f) (fun s => ?_) s
    rw [← map_throughAll, solution_eq]

/-! ## Letters that lead on to states -/

/-- The right sides with the letters that lead on to states followed. -/
def followed (follow : α → α ⊕ σ) (rules : σ → List (List (α ⊕ σ))) (s : σ) : List (List (α ⊕ σ)) :=
  (rules s).map fun rhs => rhs.map (Sum.elim follow .inr)

/-- Following letters within the words of states is following them in the right sides. -/
theorem through_followed {follow : α → α ⊕ σ} {F G : σ → Language α}
    (h : ∀ s, F s = expand (fun a => Sum.elim single F (follow a)) (G s)) (rhs : List (α ⊕ σ)) :
    through F (rhs.map (Sum.elim follow .inr)) = expand (fun a => Sum.elim single F (follow a)) (through G rhs) := by
  induction rhs with
  | nil => rw [List.map_nil, through_nil, through_nil, expand_one]
  | cons x rhs ih =>
    rw [List.map_cons, ← List.singleton_append, through_append, ih]
    rcases x with a | s
    · rw [through_cons_single, expand_mul, expand_single, through, List.map_singleton, List.prod_singleton,
        Sum.elim_inl]
    · rw [through_cons_state, expand_mul, ← h, Sum.elim_inr, through_cons_state, through_nil, mul_one]

/-- Where letters that lead on to starts of states are followed, the starts' languages are those of the system of what
the starts yield with the letters in it. -/
theorem language_followed {ν : Type} {rules : σ → List (List (α ⊕ σ))} {start : ν → σ} {follow : α → α ⊕ ν} (n : ν) :
    language (followed (fun a => (follow a).map id start) rules) (start n) =
      solution (fun n => (language rules (start n)).map follow) n := by
  let F := language (followed (fun a => (follow a).map id start) rules)
  have hletter : ∀ (L : σ → Language α) (a : α),
      Sum.elim single L ((follow a).map id start) = Sum.elim single (fun n => L (start n)) (follow a) := by
    intro L a
    rcases follow a with b | m <;> rfl
  apply le_antisymm
  · -- what a state yields, the letters in it given the system's languages
    let B := solution fun n => (language rules (start n)).map follow
    let M : σ → Language α := fun s => expand (fun a => Sum.elim single B (follow a)) (language rules s)
    have hstart : ∀ n, M (start n) = B n := by
      intro n
      refine Eq.trans ?_ (solution_eq n)
      rw [throughAll, expand_map]
    have hM : ∀ s, M s = expand (fun a => Sum.elim single M ((follow a).map id start)) (language rules s) := by
      intro s
      simp only [hletter, hstart]
      rfl
    refine le_of_le_of_eq (language_le (L := M) (fun s rhs hrhs => ?_) (start n)) (hstart n)
    obtain ⟨rhs', hrhs', rfl⟩ := List.mem_map.1 hrhs
    rw [through_followed hM, hM s, language_eq]
    exact expand_mono (fun _ => le_rfl) fun w hw => mem_sum.2 ⟨rhs', hrhs', hw⟩
  · refine solution_le (L := fun n => F (start n)) (fun n => ?_) n
    rw [throughAll, expand_map]
    rintro w ⟨x, hx, hw⟩
    -- the words of letters that are followed within a state's language
    let M : σ → Language α := fun s => {x | (x.map fun a => Sum.elim single F ((follow a).map id start)).prod ≤ F s}
    have hword : ∀ rhs x, x ∈ through M rhs → (x.map fun a => Sum.elim single F ((follow a).map id start)).prod ≤
        through F (rhs.map (Sum.elim (fun a => (follow a).map id start) .inr)) := by
      intro rhs
      induction rhs with
      | nil =>
        intro x hx
        rw [(Language.mem_one x).1 hx]
        exact le_rfl
      | cons y rhs ih =>
        intro x hx
        rw [List.map_cons, ← List.singleton_append, through_append]
        rcases y with a | s
        · rw [through_cons_single, mem_single_mul] at hx
          obtain ⟨u, hu, rfl⟩ := hx
          rw [List.map_cons, List.prod_cons]
          refine mul_le_mul' ?_ (ih u hu)
          rw [through, List.map_singleton, List.prod_singleton, Sum.elim_inl]
        · rw [through_cons_state, Language.mem_mul] at hx
          obtain ⟨u, hu, v, hv, rfl⟩ := hx
          rw [List.map_append, List.prod_append, Sum.elim_inr, through_cons_state, through_nil, mul_one]
          exact mul_le_mul' hu (ih v hv)
    refine language_le (L := M) (fun s rhs hrhs x hx => ?_) (start n) hx ?_
    · refine (hword rhs x hx).trans ?_
      show _ ≤ language _ s
      rw [language_eq]
      exact fun w hw => mem_sum.2 ⟨_, List.mem_map_of_mem hrhs, hw⟩
    · simp only [hletter]
      exact hw

/-- The least languages of states that lead only to one another do not depend on the others. -/
theorem solution_congr {p : σ → Prop} (hclosed : ∀ s, p s → ∀ x ∈ S s, ∀ t, .inr t ∈ x → p t)
    (h : ∀ s, p s → S s = W s) {s : σ}
    (hs : p s) : solution S s = solution W s := by
  have hle : ∀ {S W : σ → Language (α ⊕ σ)}, (∀ s, p s → ∀ x ∈ S s, ∀ t, .inr t ∈ x → p t) → (∀ s, p s → S s = W s) →
      ∀ s, p s → solution S s ≤ solution W s := by
    intro S W hclosed h s hs
    -- any words at all for the states that are not led to
    let M : σ → Language α := fun s => {w | p s → w ∈ solution W s}
    refine fun w hw => solution_le (L := M) (fun s w hw hs => ?_) s hw hs
    obtain ⟨x, hx, hw⟩ := hw
    rw [← solution_eq, ← h s hs]
    refine ⟨x, hx, ?_⟩
    have hsame : ∀ y ∈ x, Sum.elim single M y = Sum.elim single (solution W) y := by
      rintro (a | t) hy
      · rfl
      · ext u
        exact ⟨fun hu => hu (hclosed s hs x hx t hy), fun hu _ => hu⟩
    rwa [← List.map_congr_left hsame]
  refine le_antisymm (hle hclosed h s hs) (hle (fun s hs => ?_) (fun s hs => (h s hs).symm) s hs)
  rw [← h s hs]
  exact hclosed s hs

/-! ## States written for what they give -/

/-- A state's right sides in one system give what parts of its right sides in another do, and in these it writes some
states for what they give there. -/
def Folds (wrote : σ → σ → Prop) (S W : σ → Language (α ⊕ σ)) (s : σ) : Prop :=
  ∃ part : (σ → Language α) → (σ → Language α) → Language α,
    (∀ L, throughAll L (S s) = part L fun t => throughAll L (S t)) ∧
      (∀ L, ∃ M, (∀ t, M t = L t ∨ M t = throughAll L (S t)) ∧ throughAll L (W s) = part L M) ∧
        ∀ L M M', (∀ t, wrote s t → M t ≤ M' t) → part L M ≤ part L M'

/-- Where states are written in no cycle, the least languages are the same. -/
theorem solution_fold {wrote : σ → σ → Prop} (hwf : WellFounded fun s t => wrote t s) (h : ∀ s, Folds wrote S W s) :
    solution W = solution S := by
  funext s
  apply le_antisymm
  · -- the languages of the one solve the other
    refine solution_le (fun s => ?_) s
    obtain ⟨part, hS, hW, hmono⟩ := h s
    obtain ⟨M, hM, heq⟩ := hW (solution S)
    rw [heq, ← solution_eq, hS]
    refine hmono _ _ _ fun t _ => ?_
    rcases hM t with h | h
    · rw [h, solution_eq]
    · rw [h]
  · refine solution_le (fun s => ?_) s
    -- on the states that are written, from those in which none are
    induction s using hwf.induction with
    | _ s ih =>
      obtain ⟨part, hS, hW, hmono⟩ := h s
      obtain ⟨M, hM, heq⟩ := hW (solution W)
      rw [← solution_eq, heq, hS]
      refine hmono _ _ _ fun t ht => ?_
      rcases hM t with h | h
      · rw [h]
        exact ih t ht
      · rw [h]

/-- A state whose right sides are left as they are. -/
theorem Folds.same {wrote : σ → σ → Prop} {s : σ} (h : W s = S s) : Folds wrote S W s := by
  refine ⟨fun L _ => throughAll L (S s), fun _ => rfl, fun L => ⟨L, fun _ => .inl rfl, ?_⟩, fun _ _ _ _ => le_rfl⟩
  rw [h]

end

end TabnasAbnf.Base
