/-
Sorting by ranks: the entry at each place is the one that as many others come before.
-/
import Mathlib.Data.Fintype.EquivFin
import Mathlib.Data.List.GetD
import Mathlib.Data.List.Sort
import Mathlib.Order.MinMax

namespace TabnasAbnf.Base

variable {α β : Type} [LinearOrder β]

/-- How many entries of a list come before an entry. -/
def rankOf (key : α → β) (l : List α) (x : α) : Nat := l.countP fun y => key y < key x

/-- A list with each entry at its rank. -/
def rankSort (key : α → β) (l : List α) : List α :=
  (List.range l.length).filterMap fun k => (l.filter fun x => rankOf key l x == k).head?

variable {key : α → β} {l l' : List α}

/-- The first of the entries that pass is the only one that does. -/
theorem head_filter_eq {p : α → Bool} {l : List α} {x : α} (hx : x ∈ l) (h : ∀ y ∈ l, p y = true ↔ y = x) :
    (l.filter p).head? = some x := by
  have hall : ∀ y ∈ l.filter p, y = x := fun y hy => (h y (List.mem_of_mem_filter hy)).1 (List.of_mem_filter hy)
  have hmem : x ∈ l.filter p := List.mem_filter.2 ⟨hx, (h x hx).2 rfl⟩
  obtain ⟨y, ys, hys⟩ := List.exists_cons_of_ne_nil (List.ne_nil_of_mem hmem)
  rw [hys, List.head?_cons, hall y (hys ▸ List.mem_cons_self)]

/-- The last of the numbers that a test holds of. -/
theorem last_filter_range {n last : Nat} {p : Nat → Bool} (h : ((List.range n).filter p).getLast? = some last) :
    last < n ∧ p last = true ∧ ∀ i < n, p i = true → i ≤ last := by
  obtain ⟨front, hfront⟩ := List.getLast?_eq_some_iff.1 h
  have hmem : ∀ i, i ∈ front ++ [last] ↔ i < n ∧ p i = true := by
    intro i
    rw [← hfront, List.mem_filter, List.mem_range]
  have hsorted := (List.pairwise_lt_range (n := n)).filter p
  rw [hfront, List.pairwise_append] at hsorted
  have hlast := (hmem last).1 (List.mem_append_right _ List.mem_cons_self)
  refine ⟨hlast.1, hlast.2, fun i hi hp => ?_⟩
  rcases List.mem_append.1 ((hmem i).2 ⟨hi, hp⟩) with hin | hin
  · exact Nat.le_of_lt (hsorted.2.2 i hin last List.mem_cons_self)
  · exact Nat.le_of_eq (List.mem_singleton.1 hin)

/-- A list found entry by entry. -/
theorem filterMap_range {f : Nat → Option α} (h : ∀ k (hk : k < l.length), f k = some l[k]) :
    (List.range l.length).filterMap f = l := by
  induction l generalizing f with
  | nil => rfl
  | cons x l ih =>
    have hx : f 0 = some x := h 0 (Nat.zero_lt_succ _)
    have hl := ih (f := f ∘ Nat.succ) fun k hk => h (k + 1) (Nat.succ_lt_succ hk)
    rw [List.length_cons, List.range_succ_eq_map, List.filterMap_cons_some hx, List.filterMap_map, hl]

theorem rankOf_perm (h : l.Perm l') (x : α) : rankOf key l x = rankOf key l' x := h.countP_eq _

/-- In a sorted list an entry's rank is its place. -/
theorem rankOf_getElem (h : l.Pairwise (key · < key ·)) {j : Nat} (hj : j < l.length) : rankOf key l l[j] = j := by
  induction l generalizing j with
  | nil => exact absurd hj (Nat.not_lt_zero j)
  | cons x l ih =>
    obtain ⟨hx, hl⟩ := List.pairwise_cons.1 h
    rw [rankOf, List.countP_cons]
    cases j with
    | zero =>
      -- nothing comes before the first
      rw [List.getElem_cons_zero, if_neg (by simp), Nat.add_zero, List.countP_eq_zero]
      intro y hy
      simpa using (hx y hy).le
    | succ j =>
      have hj : j < l.length := Nat.lt_of_succ_lt_succ hj
      rw [List.getElem_cons_succ, if_pos (by simpa using hx _ (List.getElem_mem hj))]
      exact congrArg (· + 1) (ih hl hj)

/-- The entry that as many others come before as a place counts is the one at that place in order. -/
theorem head_rank (hperm : l'.Perm l) (h : l'.Pairwise (key · < key ·)) {k : Nat} (hk : k < l'.length) :
    (l.filter fun x => rankOf key l x == k).head? = some l'[k] := by
  refine head_filter_eq (hperm.mem_iff.1 (List.getElem_mem hk)) fun x hx => ?_
  obtain ⟨j, hj, rfl⟩ := List.mem_iff_getElem.1 (hperm.mem_iff.2 hx)
  rw [beq_iff_eq, ← rankOf_perm hperm, rankOf_getElem h hj]
  constructor
  · rintro rfl
    rfl
  · intro he
    rw [← rankOf_getElem h hj, he, rankOf_getElem h hk]

/-- Put at their ranks, the entries are in the order of their keys. -/
theorem rankSort_eq (hperm : l'.Perm l) (h : l'.Pairwise (key · < key ·)) : rankSort key l = l' := by
  unfold rankSort
  rw [← hperm.length_eq]
  exact filterMap_range fun k hk => head_rank hperm h hk

/-- Entries with keys of their own have an order of their keys. -/
theorem exists_sorted (h : (l.map key).Nodup) : ∃ l' : List α, l'.Perm l ∧ l'.Pairwise (key · < key ·) := by
  refine ⟨l.mergeSort fun x y => key x ≤ key y, List.mergeSort_perm _ _, ?_⟩
  have hsorted : (l.mergeSort fun x y => key x ≤ key y).Pairwise fun x y => decide (key x ≤ key y) = true := by
    refine List.pairwise_mergeSort (fun x y z hxy hyz => ?_) (fun x y => ?_) l
    · simpa using le_trans (by simpa using hxy) (by simpa using hyz)
    · simpa using le_total (key x) (key y)
  have hnodup : (l.mergeSort fun x y => key x ≤ key y).Pairwise (key · ≠ key ·) := by
    rw [← List.pairwise_map (f := key) (R := (· ≠ ·))]
    exact (((List.mergeSort_perm l _).map key).nodup_iff).2 h
  refine (hsorted.and hnodup).imp fun hxy => ?_
  exact lt_of_le_of_ne (by simpa using hxy.1) hxy.2

theorem rankSort_spec (h : (l.map key).Nodup) :
    (rankSort key l).Perm l ∧ (rankSort key l).Pairwise (key · < key ·) := by
  obtain ⟨l', hperm, hsorted⟩ := exists_sorted h
  rw [rankSort_eq hperm hsorted]
  exact ⟨hperm, hsorted⟩

/-! ## Some places of a list in order -/

/-- The place whose entry comes to a place when those at some places are put in the order of their keys among them. -/
def slotSource (key : Nat → β) (slots : List Nat) (i : Nat) : Nat :=
  if i ∈ slots then (rankSort key slots).getD (rankOf id slots i) i else i

section

variable {key : Nat → β} {slots : List Nat}

theorem slotSource_of_not_mem {i : Nat} (h : i ∉ slots) : slotSource key slots i = i := if_neg h

/-- A place's rank among places in order is where it stands. -/
theorem rankOf_slot (hslots : slots.Pairwise (· < ·)) {k : Nat} (hk : k < slots.length) :
    rankOf id slots slots[k] = k := by
  have hsorted : slots.Pairwise (id · < id ·) := hslots
  exact rankOf_getElem hsorted hk

variable (hslots : slots.Pairwise (· < ·)) (hkey : (slots.map key).Nodup)
include hslots hkey

theorem getElem?_rankSort {i : Nat} (hi : i ∈ slots) :
    (rankSort key slots)[rankOf id slots i]? = some (slotSource key slots i) := by
  obtain ⟨k, hk, rfl⟩ := List.mem_iff_getElem.1 hi
  have hlen : rankOf id slots slots[k] < (rankSort key slots).length := by
    rw [rankOf_slot hslots hk, (rankSort_spec hkey).1.length_eq]
    exact hk
  rw [slotSource, if_pos hi, List.getD_eq_getElem _ _ hlen, List.getElem?_eq_getElem hlen]

theorem slotSource_mem {i : Nat} (hi : i ∈ slots) : slotSource key slots i ∈ slots :=
  (rankSort_spec hkey).1.mem_iff.1 (List.mem_of_getElem? (getElem?_rankSort hslots hkey hi))

/-- At the places put in order the keys rise. -/
theorem slotSource_lt {i j : Nat} (hi : i ∈ slots) (hj : j ∈ slots) (hij : i < j) :
    key (slotSource key slots i) < key (slotSource key slots j) := by
  have hsi := getElem?_rankSort hslots hkey hi
  have hsj := getElem?_rankSort hslots hkey hj
  obtain ⟨a, ha, rfl⟩ := List.mem_iff_getElem.1 hi
  obtain ⟨b, hb, rfl⟩ := List.mem_iff_getElem.1 hj
  have hab : a < b := by
    by_contra hba
    rcases (not_lt.1 hba).eq_or_lt with heq | hlt
    · subst heq
      exact lt_irrefl _ hij
    · exact lt_asymm hij (List.pairwise_iff_getElem.1 hslots b a hb ha hlt)
  rw [rankOf_slot hslots ha, List.getElem?_eq_some_iff] at hsi
  rw [rankOf_slot hslots hb, List.getElem?_eq_some_iff] at hsj
  obtain ⟨ha', hsi⟩ := hsi
  obtain ⟨hb', hsj⟩ := hsj
  rw [← hsi, ← hsj]
  exact List.pairwise_iff_getElem.1 (rankSort_spec hkey).2 a b ha' hb' hab

theorem slotSource_injective : Function.Injective (slotSource key slots) := by
  intro i j h
  by_cases hi : i ∈ slots <;> by_cases hj : j ∈ slots
  · rcases lt_trichotomy i j with hij | hij | hij
    · exact absurd h (ne_of_apply_ne key (slotSource_lt hslots hkey hi hj hij).ne)
    · exact hij
    · exact absurd h (ne_of_apply_ne key (slotSource_lt hslots hkey hj hi hij).ne')
  · rw [slotSource_of_not_mem hj] at h
    exact absurd (h ▸ slotSource_mem hslots hkey hi) hj
  · rw [slotSource_of_not_mem hi] at h
    exact absurd (h.symm ▸ slotSource_mem hslots hkey hj) hi
  · rwa [slotSource_of_not_mem hi, slotSource_of_not_mem hj] at h

/-- Where the places are those of a list, each of its places is where one comes from. -/
theorem exists_slotPerm {n : Nat} (hn : ∀ i ∈ slots, i < n) :
    ∃ σ : Equiv.Perm (Fin n), ∀ i, (σ i : Nat) = slotSource key slots i := by
  have hlt : ∀ i : Fin n, slotSource key slots i < n := by
    intro i
    by_cases hi : (i : Nat) ∈ slots
    · exact hn _ (slotSource_mem hslots hkey hi)
    · rw [slotSource_of_not_mem hi]
      exact i.isLt
  have hinj : Function.Injective fun i : Fin n => (⟨slotSource key slots i, hlt i⟩ : Fin n) := by
    intro i j h
    exact Fin.ext (slotSource_injective hslots hkey (Fin.mk.inj h))
  exact ⟨Equiv.ofBijective _ (Finite.injective_iff_bijective.1 hinj), fun i => rfl⟩

end

/-! ## The greatest of some numbers -/

/-- The greatest of some numbers, zero of none. -/
def greatest (l : List Nat) : Nat := l.foldr max 0

theorem greatest_le_iff {l : List Nat} {n : Nat} : greatest l ≤ n ↔ ∀ x ∈ l, x ≤ n := by
  induction l with
  | nil => simp [greatest]
  | cons y l ih =>
    rw [List.forall_mem_cons, ← ih]
    exact max_le_iff

theorem le_greatest {l : List Nat} {x : Nat} (h : x ∈ l) : x ≤ greatest l := greatest_le_iff.1 (le_refl _) x h

theorem greatest_mem {l : List Nat} (h : l ≠ []) : greatest l ∈ l := by
  induction l with
  | nil => exact absurd rfl h
  | cons y l ih =>
    change max y (greatest l) ∈ y :: l
    by_cases hl : l = []
    · subst hl
      simp [greatest]
    · rcases le_total y (greatest l) with hle | hle
      · rw [max_eq_right hle]
        exact List.mem_cons_of_mem _ (ih hl)
      · rw [max_eq_left hle]
        exact List.mem_cons_self

/-- The first of the numbers that none passes is the greatest. -/
theorem head_greatest (l : List Nat) :
    (l.filter fun c => (l.filter fun d => decide (c < d)).isEmpty).headD 0 = greatest l := by
  by_cases hl : l = []
  · subst hl
    rfl
  · rw [List.headD_eq_head?_getD, head_filter_eq (greatest_mem hl), Option.getD_some]
    intro c hc
    rw [List.isEmpty_iff, List.filter_eq_nil_iff]
    simp only [decide_eq_true_eq, Nat.not_lt]
    rw [← greatest_le_iff]
    constructor
    · intro hle
      exact le_antisymm (le_greatest hc) hle
    · rintro rfl
      exact le_refl _

end TabnasAbnf.Base
