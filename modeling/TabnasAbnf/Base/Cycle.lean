/-
Cycles of a relation: none where a measure falls along every edge that is not one into a single point, and
none new where edges are put in front of edges that were there without them. An endless path that comes to
finitely many points again and again has one.
-/
import Mathlib.Data.Set.Finite.Lattice
import Mathlib.Data.Set.Finite.List
import Mathlib.Logic.Relation
import Mathlib.Order.Interval.Finset.Nat

namespace TabnasAbnf.Base

open Relation

section

variable {α γ : Type} {R S : α → α → Prop}

/-- A measure that never rises along an edge does not rise along a path. -/
theorem measure_le [Preorder γ] {f : α → γ} (hle : ∀ x y, R x y → f y ≤ f x) {x y : α} (h : ReflTransGen R x y) :
    f y ≤ f x := by
  induction h with
  | refl => exact le_refl _
  | tail _ hr ih => exact le_trans (hle _ _ hr) ih

/-- A cycle whose edges do not raise a measure keeps it, so each of its points is where an edge that keeps
the measure ends; where all such edges end in one point, the cycle is an edge from that point to itself. -/
theorem acyclic_of_measure [PartialOrder γ] {f : α → γ} {P : α → Prop} (hle : ∀ x y, R x y → f y ≤ f x)
    (hkeep : ∀ x y, R x y → f y = f x → P y) (hone : ∀ x y, P x → P y → x = y) (hirr : ∀ x, ¬ R x x) (x : α) :
    ¬ TransGen R x x := by
  intro hcycle
  obtain ⟨y, hxy, hyx⟩ := TransGen.head'_iff.1 hcycle
  obtain ⟨z, hxz, hzx⟩ := TransGen.tail'_iff.1 hcycle
  have hy : P y := hkeep _ _ hxy (le_antisymm (hle _ _ hxy) (measure_le hle hyx))
  have hx : P x := hkeep _ _ hzx (le_antisymm (hle _ _ hzx) (measure_le hle hxz))
  rw [hone _ _ hy hx] at hxy
  exact hirr x hxy

/-- Edges of `S` in front of an edge of `R` that give an edge of `R` again. -/
theorem absorb (habs : ∀ x y z, S x y → R y z → R x z) {x y z : α} (h : ReflTransGen S x y) (hr : R y z) : R x z := by
  induction h using ReflTransGen.head_induction_on with
  | refl => exact hr
  | head hs _ ih => exact habs _ _ _ hs ih

/-- A path of both kinds of edges is one of `S` alone, or one of `R` and then one of `S`. -/
theorem path_of_absorb (habs : ∀ x y z, S x y → R y z → R x z) {x y : α} (h : TransGen (fun a b => R a b ∨ S a b) x y) :
    TransGen S x y ∨ ∃ w, TransGen R x w ∧ ReflTransGen S w y := by
  induction h with
  | single hxy =>
    rcases hxy with hr | hs
    · exact .inr ⟨_, .single hr, .refl⟩
    · exact .inl (.single hs)
  | tail _ hyz ih =>
    rcases hyz with hr | hs
    · rcases ih with hp | ⟨w, hw, hp⟩
      · exact .inr ⟨_, .single (absorb habs hp.to_reflTransGen hr), .refl⟩
      · exact .inr ⟨_, hw.tail (absorb habs hp hr), .refl⟩
    · rcases ih with hp | ⟨w, hw, hp⟩
      · exact .inl (hp.tail hs)
      · exact .inr ⟨w, hw, hp.tail hs⟩

/-- Edges without a cycle that are absorbed by what follows them make no cycle. -/
theorem cycle_of_absorb (habs : ∀ x y z, S x y → R y z → R x z) (hacyclic : ∀ x, ¬ TransGen S x x) {x : α}
    (h : TransGen (fun a b => R a b ∨ S a b) x x) : ∃ z, TransGen R z z := by
  rcases path_of_absorb habs h with hp | ⟨w, hw, hp⟩
  · exact absurd hp (hacyclic x)
  · -- the edges of `S` that lead back are absorbed by the first edge of `R`
    obtain ⟨y, hxy, hyw⟩ := TransGen.head'_iff.1 hw
    exact ⟨w, TransGen.head'_iff.2 ⟨y, absorb habs hp hxy, hyw⟩⟩

end

/-! ## Endless paths -/

section

variable {α β : Type} {R : α → α → Prop} {path : Nat → α}

/-- A point that starts no endless path is on no cycle. -/
theorem acyclic_of_acc {x : α} (h : Acc (fun b a => R a b) x) : ¬ TransGen R x x := by
  induction h with
  | intro x _ ih =>
    intro hcycle
    obtain ⟨y, hxy, hyx⟩ := TransGen.head'_iff.1 hcycle
    exact ih y hxy (TransGen.tail' hyx hxy)

theorem acc_of_path {x y : α} (h : Acc (fun b a => R a b) x) (hxy : ReflTransGen R x y) : Acc (fun b a => R a b) y := by
  induction hxy with
  | refl => exact h
  | tail _ hr ih => exact ih.inv hr

theorem path_trans (hpath : ∀ n, R (path n) (path (n + 1))) {i j : Nat} (h : i < j) : TransGen R (path i) (path j) := by
  induction h with
  | refl => exact .single (hpath i)
  | step _ ih => exact ih.tail (hpath _)

theorem path_reflTrans (hpath : ∀ n, R (path n) (path (n + 1))) (n : Nat) : ReflTransGen R (path 0) (path n) := by
  induction n with
  | zero => exact .refl
  | succ n ih => exact ih.tail (hpath n)

/-- Of infinitely many places each with one of finitely many labels, three have the same. -/
theorem exists_thrice {S : Set Nat} (hS : S.Infinite) {l : List β} {label : Nat → β} (hl : ∀ i ∈ S, label i ∈ l) :
    ∃ i j k, i ∈ S ∧ j ∈ S ∧ k ∈ S ∧ i < j ∧ j < k ∧ label j = label i ∧ label k = label j := by
  have hfiber : ∃ b, {i ∈ S | label i = b}.Infinite := by
    by_contra hnone
    rw [not_exists] at hnone
    refine hS (((List.finite_toSet l).biUnion fun b _ => Set.not_infinite.1 (hnone b)).subset fun i hi => ?_)
    exact Set.mem_biUnion (hl i hi) ⟨hi, rfl⟩
  obtain ⟨b, hb⟩ := hfiber
  obtain ⟨i, hi, hbi⟩ := hb.nonempty
  obtain ⟨j, ⟨hj, hbj⟩, hij⟩ := hb.exists_gt i
  obtain ⟨k, ⟨hk, hbk⟩, hjk⟩ := hb.exists_gt j
  exact ⟨i, j, k, hi, hj, hk, hij, hjk, hbj.trans hbi.symm, hbk.trans hbj.symm⟩

/-- An endless path that comes to finitely many points again and again has a cycle through one of them. -/
theorem cycle_of_often (hpath : ∀ n, R (path n) (path (n + 1))) {l : List α} (hl : ∀ n, ∃ m, n ≤ m ∧ path m ∈ l) :
    ∃ m, TransGen R (path m) (path m) := by
  have hinf : {m | path m ∈ l}.Infinite := by
    refine Set.infinite_of_forall_exists_gt fun n => ?_
    obtain ⟨m, hle, hm⟩ := hl (n + 1)
    exact ⟨m, hm, hle⟩
  obtain ⟨i, j, -, -, -, -, hij, -, heq, -⟩ := exists_thrice hinf fun i hi => hi
  refine ⟨i, ?_⟩
  conv => rhs; rw [← heq]
  exact path_trans hpath hij

/-- A sequence of numbers has infinitely many places that it does not come below any more. -/
theorem low_places (f : Nat → Nat) : {i | ∀ j, i ≤ j → f i ≤ f j}.Infinite := by
  refine Set.infinite_of_forall_exists_gt fun n => ?_
  have hne : ∃ m, ∃ i, n < i ∧ f i = m := ⟨_, n + 1, Nat.lt_succ_self n, rfl⟩
  classical
  obtain ⟨i, hi, heq⟩ := Nat.find_spec hne
  refine ⟨i, fun j hj => ?_, hi⟩
  rw [heq]
  exact Nat.find_min' hne ⟨j, by omega, rfl⟩

end

end TabnasAbnf.Base
