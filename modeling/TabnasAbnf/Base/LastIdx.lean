/-
The last place of a list that satisfies a test, and prefixes cut by two nested tests.
-/
import Mathlib.Data.List.Induction
import Mathlib.Data.List.TakeWhile
import Mathlib.Order.Basic

namespace TabnasAbnf.Base

variable {X Y : Type} {P Q : X → Bool} {l : List X} {x : X} {i : Nat}

/-- The last place that satisfies the test. -/
def lastIdx (P : X → Bool) : List X → Option Nat
  | [] => none
  | x :: l =>
    match lastIdx P l with
    | some i => some (i + 1)
    | none => if P x then some 0 else none

@[simp] theorem lastIdx_nil : lastIdx P [] = none := rfl

theorem lastIdx_snoc (l : List X) (x : X) :
    lastIdx P (l ++ [x]) = if P x then some l.length else lastIdx P l := by
  induction l with
  | nil => by_cases h : P x <;> simp [lastIdx, h]
  | cons y l ih =>
    rw [List.cons_append, lastIdx, ih]
    by_cases h : P x <;> simp [lastIdx, h]

theorem lastIdx_eq_none : lastIdx P l = none ↔ ∀ x ∈ l, P x = false := by
  induction l using List.reverseRecOn with
  | nil => simp
  | append_singleton l x ih =>
    rw [lastIdx_snoc]
    cases hx : P x with
    | true => simp [hx]
    | false =>
      simp only [Bool.false_eq_true, if_false, ih, List.mem_append, List.mem_singleton]
      exact ⟨fun h y hy => hy.elim (h y) fun he => he ▸ hx, fun h y hy => h y (.inl hy)⟩

theorem lastIdx_some (h : lastIdx P l = some i) : ∃ x, l[i]? = some x ∧ P x = true := by
  induction l generalizing i with
  | nil => cases h
  | cons y l ih =>
    rw [lastIdx] at h
    cases hl : lastIdx P l with
    | some j =>
      rw [hl] at h
      cases h
      exact ih hl
    | none =>
      by_cases hy : P y <;> simp only [hl, hy, if_true, if_false, Bool.false_eq_true, reduceCtorEq] at h
      cases h
      exact ⟨y, rfl, hy⟩

theorem lastIdx_lt (h : lastIdx P l = some i) : i < l.length := by
  obtain ⟨x, hx, -⟩ := lastIdx_some h
  exact (List.getElem?_eq_some_iff.1 hx).1

/-- The last place, around which the list splits. -/
theorem lastIdx_split {a b : List X} (hx : P x = true) (hb : ∀ y ∈ b, P y = false) :
    lastIdx P (a ++ x :: b) = some a.length := by
  induction a with
  | nil => rw [List.nil_append, lastIdx, lastIdx_eq_none.2 hb]; exact if_pos hx
  | cons y a ih => rw [List.cons_append, lastIdx, ih]; rfl

theorem exists_last (h : ∃ x ∈ l, P x = true) :
    ∃ a x b, l = a ++ x :: b ∧ P x = true ∧ ∀ y ∈ b, P y = false := by
  induction l with
  | nil => obtain ⟨x, hx, -⟩ := h; cases hx
  | cons y l ih =>
    by_cases hl : ∃ x ∈ l, P x = true
    · obtain ⟨a, x, b, rfl, hx, hb⟩ := ih hl
      exact ⟨y :: a, x, b, rfl, hx, hb⟩
    · obtain ⟨x, hx, hPx⟩ := h
      rcases List.mem_cons.1 hx with rfl | hx
      · exact ⟨[], x, l, rfl, hPx, fun z hz => Bool.eq_false_iff.2 fun hz' => hl ⟨z, hz, hz'⟩⟩
      · exact absurd ⟨x, hx, hPx⟩ hl

/-- A test through a map. -/
theorem lastIdx_map {f : Y → X} {l : List Y} : lastIdx P (l.map f) = lastIdx (P ∘ f) l := by
  induction l with
  | nil => rfl
  | cons y l ih => simp only [List.map_cons, lastIdx, ih, Function.comp]

/-- Where the test holds of a prefix only, the last place is the prefix's. -/
theorem lastIdx_takeWhile (h : ∀ x ∈ l.drop (l.takeWhile P).length, P x = false) :
    lastIdx P l = if (l.takeWhile P).length = 0 then none else some ((l.takeWhile P).length - 1) := by
  induction l with
  | nil => rfl
  | cons y l ih =>
    by_cases hy : P y
    · rw [List.takeWhile_cons_of_pos hy] at h ⊢
      have hl := ih (by simpa using h)
      rw [List.length_cons, if_neg (Nat.succ_ne_zero _), Nat.add_sub_cancel, lastIdx, hl]
      cases (l.takeWhile P).length with
      | zero => simp [hy]
      | succ n => simp
    · rw [List.takeWhile_cons_of_neg hy] at h ⊢
      rw [lastIdx_eq_none.2 (by simpa using h)]
      rfl

/-- The places past a prefix of increasing values that are below a bound are not. -/
theorem drop_takeWhile_lt {l : List Nat} (h : l.Pairwise (· < ·)) (a : Nat) :
    ∀ x ∈ l.drop (l.takeWhile (· < a)).length, (decide (x < a)) = false := by
  induction l with
  | nil => simp
  | cons y l ih =>
    obtain ⟨hy, hl⟩ := List.pairwise_cons.1 h
    by_cases hya : y < a
    · rw [List.takeWhile_cons_of_pos (by simpa using hya)]
      simpa using ih hl
    · rw [List.takeWhile_cons_of_neg (by simpa using hya)]
      simp only [List.length_nil, List.drop_zero, List.mem_cons, forall_eq_or_imp]
      exact ⟨decide_eq_false hya, fun x hx => decide_eq_false fun hxa => hya ((hy x hx).trans hxa)⟩

/-- A longer prefix goes on from where a shorter one ends. -/
theorem takeWhile_from (h : ∀ x, P x = true → Q x = true) (l : List X) :
    (l.takeWhile P).length + ((l.drop (l.takeWhile P).length).takeWhile Q).length =
      (l.takeWhile Q).length := by
  induction l with
  | nil => rfl
  | cons y l ih =>
    by_cases hy : P y
    · rw [List.takeWhile_cons_of_pos hy, List.takeWhile_cons_of_pos (h y hy)]
      simp only [List.length_cons, List.drop_succ_cons]
      omega
    · rw [List.takeWhile_cons_of_neg hy]
      simp

end TabnasAbnf.Base
