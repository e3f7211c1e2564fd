/-
Systems of rules over letters and states: a state yields the words that its right sides do. The languages of the
states are the least ones that hold what their right sides give; and words that are repeated.
-/
import Mathlib.Computability.Language
import Mathlib.Order.CompletePartialOrder

namespace TabnasAbnf.Base

open scoped Computability

section

variable {σ α β : Type}

/-! ## What right sides yield -/

/-- The letters of a right side stay, and each state in it gives way to what a right side of the state yields. -/
inductive Yields (rules : σ → List (List (α ⊕ σ))) : List (α ⊕ σ) → List α → Prop
  | nil : Yields rules [] []
  | letter {a rhs w} : Yields rules rhs w → Yields rules (.inl a :: rhs) (a :: w)
  | state {s inner rhs u w} : inner ∈ rules s → Yields rules inner u → Yields rules rhs w →
    Yields rules (.inr s :: rhs) (u ++ w)

/-- The words that a state yields. -/
def language (rules : σ → List (List (α ⊕ σ))) (s : σ) : Language α := {w | Yields rules [.inr s] w}

/-- The word of one letter. -/
def single (a : α) : Language α := {[a]}

/-- The words of a right side, where each state's are given. -/
def through (L : σ → Language α) (rhs : List (α ⊕ σ)) : Language α := (rhs.map (Sum.elim single L)).prod

variable {rules : σ → List (List (α ⊕ σ))} {L : σ → Language α}

theorem mem_single {a : α} {w : List α} : w ∈ single a ↔ w = [a] := Iff.rfl

@[simp] theorem through_nil : through L [] = 1 := rfl

@[simp] theorem through_cons_single (a : α) (rhs : List (α ⊕ σ)) :
    through L (.inl a :: rhs) = single a * through L rhs := by
  rw [through, List.map_cons, List.prod_cons]
  rfl

@[simp] theorem through_cons_state (s : σ) (rhs : List (α ⊕ σ)) : through L (.inr s :: rhs) = L s * through L rhs := by
  rw [through, List.map_cons, List.prod_cons]
  rfl

theorem through_append (rhs rhs' : List (α ⊕ σ)) : through L (rhs ++ rhs') = through L rhs * through L rhs' := by
  rw [through, List.map_append, List.prod_append]
  rfl

/-- A word that begins with a letter's. -/
theorem mem_single_mul {a : α} {l : Language α} {w : List α} : w ∈ single a * l ↔ ∃ u ∈ l, w = a :: u := by
  rw [Language.mem_mul]
  constructor
  · rintro ⟨v, hv, u, hu, rfl⟩
    rw [mem_single.1 hv]
    exact ⟨u, hu, rfl⟩
  · rintro ⟨u, hu, rfl⟩
    exact ⟨[a], rfl, u, hu, rfl⟩

/-- A sum of languages. -/
theorem mem_sum {f : β → Language α} {xs : List β} {w : List α} : w ∈ (xs.map f).sum ↔ ∃ x ∈ xs, w ∈ f x := by
  induction xs with
  | nil => simp
  | cons x xs ih => rw [List.map_cons, List.sum_cons, Language.mem_add, ih, List.exists_mem_cons_iff]

/-- A sum of one language, however often. -/
theorem sum_same {f : β → Language α} {xs : List β} {l : Language α} (hne : xs ≠ []) (h : ∀ x ∈ xs, f x = l) :
    (xs.map f).sum = l := by
  obtain ⟨x, xs, rfl⟩ := List.exists_cons_of_ne_nil hne
  ext w
  rw [mem_sum]
  constructor
  · rintro ⟨y, hy, hw⟩
    rwa [h y hy] at hw
  · intro hw
    exact ⟨x, List.mem_cons_self, by rwa [h x List.mem_cons_self]⟩

theorem yields_state {s : σ} {w : List α} : Yields rules [.inr s] w ↔ ∃ rhs ∈ rules s, Yields rules rhs w := by
  constructor
  · intro h
    cases h with
    | state hin hu hw =>
      cases hw
      rw [List.append_nil]
      exact ⟨_, hin, hu⟩
  · rintro ⟨rhs, hin, hu⟩
    rw [← List.append_nil w]
    exact .state hin hu .nil

theorem yields_iff {rhs : List (α ⊕ σ)} {w : List α} : Yields rules rhs w ↔ w ∈ through (language rules) rhs := by
  induction rhs generalizing w with
  | nil =>
    constructor
    · intro h
      cases h
      exact Language.nil_mem_one
    · intro h
      rw [(Language.mem_one w).1 h]
      exact .nil
  | cons x rhs ih =>
    rcases x with a | s
    · rw [through_cons_single, mem_single_mul]
      constructor
      · intro h
        cases h with
        | letter hw => exact ⟨_, ih.1 hw, rfl⟩
      · rintro ⟨u, hu, rfl⟩
        exact .letter (ih.2 hu)
    · rw [through_cons_state, Language.mem_mul]
      constructor
      · intro h
        cases h with
        | state hin hu hw => exact ⟨_, yields_state.2 ⟨_, hin, hu⟩, _, ih.1 hw, rfl⟩
      · rintro ⟨u, hu, w, hw, rfl⟩
        obtain ⟨inner, hin, hu⟩ := yields_state.1 hu
        exact .state hin hu (ih.2 hw)

/-- A state's words are those of its right sides. -/
theorem language_eq (s : σ) : language rules s = ((rules s).map (through (language rules))).sum := by
  ext w
  rw [mem_sum]
  simp only [← yields_iff]
  exact yields_state

/-! ## The least languages -/

/-- Languages that hold what the right sides give hold what the states yield. -/
theorem language_le (h : ∀ s, ∀ rhs ∈ rules s, through L rhs ≤ L s) (s : σ) : language rules s ≤ L s := by
  -- on the derivation: each state in it gives what its languages hold
  have hall : ∀ rhs w, Yields rules rhs w → w ∈ through L rhs := by
    intro rhs w hw
    induction hw with
    | nil => exact Language.nil_mem_one
    | letter _ ih =>
      rw [through_cons_single, mem_single_mul]
      exact ⟨_, ih, rfl⟩
    | state hin _ _ ihu ihw =>
      rw [through_cons_state]
      exact Language.append_mem_mul (h _ _ hin ihu) ihw
  intro w hw
  obtain ⟨rhs, hin, hw⟩ := yields_state.1 hw
  exact h s rhs hin (hall rhs w hw)

theorem through_mono {M : σ → Language α} (h : ∀ s, L s ≤ M s) (rhs : List (α ⊕ σ)) :
    through L rhs ≤ through M rhs := by
  induction rhs with
  | nil => exact le_rfl
  | cons x rhs ih =>
    rcases x with a | s
    · rw [through_cons_single, through_cons_single]
      exact mul_le_mul_right ih _
    · rw [through_cons_state, through_cons_state]
      exact mul_le_mul' (h s) ih

/-- Bounds on some of the states that each right side keeps, where the states in it keep theirs. -/
theorem language_bound {bound : σ → Language α → Prop}
    (h : ∀ s l, bound s l → ∀ rhs ∈ rules s, ∀ L : σ → Language α, (∀ s, L s ≤ language rules s) →
      (∀ s l, bound s l → L s ≤ l) → through L rhs ≤ l) {s : σ} {l : Language α} (hs : bound s l) :
    language rules s ≤ l := by
  -- what a state yields, cut to what bounds it: these languages hold what the right sides give
  let M : σ → Language α := fun s => {w | w ∈ language rules s ∧ ∀ l, bound s l → w ∈ l}
  have hle : ∀ s, M s ≤ language rules s := fun s w hw => hw.1
  have hbound : ∀ s l, bound s l → M s ≤ l := fun s l hl w hw => hw.2 l hl
  refine fun w hw => (language_le (L := M) (fun s rhs hrhs w hw => ⟨?_, fun l hl => ?_⟩) s hw).2 l hs
  · rw [language_eq, mem_sum]
    exact ⟨rhs, hrhs, through_mono hle rhs hw⟩
  · exact h s l hl rhs hrhs M hle hbound hw

/-! ## Words that are repeated -/

/-- The words of a number of words in a row. -/
def repeated (l : Language α) (min : Nat) (max : Option Nat) : Language α :=
  {w | ∃ i, min ≤ i ∧ (∀ m ∈ max, i ≤ m) ∧ w ∈ l ^ i}

variable {l : Language α} {w : List α}

theorem mem_repeated {min : Nat} {max : Option Nat} :
    w ∈ repeated l min max ↔ ∃ i, min ≤ i ∧ (∀ m ∈ max, i ≤ m) ∧ w ∈ l ^ i := Iff.rfl

theorem repeated_exactly (n : Nat) : repeated l n (some n) = l ^ n := by
  ext w
  rw [mem_repeated]
  constructor
  · rintro ⟨i, hmin, hmax, hw⟩
    rwa [Nat.le_antisymm (hmax n rfl) hmin] at hw
  · intro hw
    exact ⟨n, le_rfl, by simp, hw⟩

theorem repeated_atLeast (n : Nat) : repeated l n none = l ^ n * l∗ := by
  ext w
  rw [mem_repeated, Language.kstar_eq_iSup_pow, Language.mul_iSup, Language.mem_iSup]
  simp only [← pow_add]
  constructor
  · rintro ⟨i, hmin, -, hw⟩
    exact ⟨i - n, by rwa [Nat.add_sub_cancel' hmin]⟩
  · rintro ⟨i, hw⟩
    exact ⟨n + i, Nat.le_add_right n i, by simp, hw⟩

theorem repeated_add (n d : Nat) : repeated l n (some (n + d)) = l ^ n * repeated l 0 (some d) := by
  ext w
  rw [mem_repeated, Language.mem_mul]
  constructor
  · rintro ⟨i, hmin, hmax, hw⟩
    have hle : i ≤ n + d := hmax _ rfl
    rw [← Nat.add_sub_cancel' hmin, pow_add, Language.mem_mul] at hw
    obtain ⟨u, hu, v, hv, rfl⟩ := hw
    exact ⟨u, hu, v, ⟨i - n, Nat.zero_le _, by simp; omega, hv⟩, rfl⟩
  · rintro ⟨u, hu, v, ⟨i, -, hmax, hv⟩, rfl⟩
    have hle : i ≤ d := hmax _ rfl
    refine ⟨n + i, Nat.le_add_right n i, by simp; omega, ?_⟩
    rw [pow_add]
    exact Language.append_mem_mul hu hv

/-- One word more, or none. -/
theorem repeated_succ (d : Nat) : repeated l 0 (some (d + 1)) = 1 + l * repeated l 0 (some d) := by
  ext w
  rw [mem_repeated, Language.mem_add, Language.mem_mul]
  constructor
  · rintro ⟨_ | i, -, hmax, hw⟩
    · exact .inl hw
    · have hle : i + 1 ≤ d + 1 := hmax _ rfl
      rw [pow_succ', Language.mem_mul] at hw
      obtain ⟨u, hu, v, hv, rfl⟩ := hw
      exact .inr ⟨u, hu, v, ⟨i, Nat.zero_le i, by simp; omega, hv⟩, rfl⟩
  · rintro (hw | ⟨u, hu, v, ⟨i, -, hmax, hv⟩, rfl⟩)
    · exact ⟨0, le_rfl, by simp, hw⟩
    · have hle : i ≤ d := hmax _ rfl
      refine ⟨i + 1, Nat.zero_le _, by simp; omega, ?_⟩
      rw [pow_succ']
      exact Language.append_mem_mul hu hv

/-- At most one. -/
theorem repeated_option : repeated l 0 (some 1) = 1 + l := by
  rw [show (1 : Nat) = 0 + 1 from rfl, repeated_succ, repeated_exactly, pow_zero, mul_one]

theorem map_repeated (f : α → β) (min : Nat) (max : Option Nat) :
    (repeated l min max).map f = repeated (l.map f) min max := by
  ext w
  constructor
  · rintro ⟨u, ⟨i, hmin, hmax, hu⟩, rfl⟩
    refine ⟨i, hmin, hmax, ?_⟩
    rw [← map_pow]
    exact ⟨u, hu, rfl⟩
  · rintro ⟨i, hmin, hmax, hw⟩
    rw [← map_pow] at hw
    obtain ⟨u, hu, rfl⟩ := hw
    exact ⟨u, ⟨i, hmin, hmax, hu⟩, rfl⟩

theorem map_single (f : α → β) (a : α) : (single a).map f = single (f a) := by
  ext w
  constructor
  · rintro ⟨u, hu, rfl⟩
    rw [mem_single.1 hu]
    rfl
  · intro hw
    rw [mem_single.1 hw]
    exact ⟨[a], rfl, rfl⟩

/-- A letter repeated is the only letter there is. -/
theorem eq_of_mem_repeated {a b : α} {min : Nat} {max : Option Nat} (hw : w ∈ repeated (single a) min max)
    (hb : b ∈ w) : b = a := by
  obtain ⟨i, -, -, hw⟩ := hw
  induction i generalizing w with
  | zero =>
    rw [pow_zero, Language.mem_one] at hw
    rw [hw] at hb
    cases hb
  | succ i ih =>
    rw [pow_succ', mem_single_mul] at hw
    obtain ⟨u, hu, rfl⟩ := hw
    rcases List.mem_cons.1 hb with rfl | hb
    · rfl
    · exact ih hb hu

end

end TabnasAbnf.Base
