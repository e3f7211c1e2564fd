/-
Spans of natural numbers: the numbers a list of them covers, lists sorted and merged where spans overlap or
meet, and lists that tile an interval.
-/
import Mathlib.Data.List.Induction
import Mathlib.Data.Nat.Basic

namespace TabnasAbnf.Base

/-- The numbers from a low end to a high end. -/
@[ext] structure NatSpan where
  lo : Nat
  hi : Nat
  le : lo ≤ hi

namespace NatSpan

/-- A span with its high end moved up, where another reaches further. -/
def upTo (s : NatSpan) (h : Nat) : NatSpan := ⟨s.lo, max s.hi h, le_trans s.le (le_max_left _ _)⟩

end NatSpan

/-! ## What a list of spans covers -/

/-- A number of one of the spans. -/
def Covers (l : List NatSpan) (n : Nat) : Prop := ∃ s ∈ l, s.lo ≤ n ∧ n ≤ s.hi

theorem covers_nil (n : Nat) : ¬ Covers [] n := fun ⟨_, hs, _⟩ => List.not_mem_nil hs

theorem covers_append {l l' : List NatSpan} {n : Nat} : Covers (l ++ l') n ↔ Covers l n ∨ Covers l' n := by
  unfold Covers
  simp only [List.mem_append, or_and_right, exists_or]

theorem covers_singleton {s : NatSpan} {n : Nat} : Covers [s] n ↔ s.lo ≤ n ∧ n ≤ s.hi := by
  unfold Covers
  simp

theorem covers_cons {s : NatSpan} {l : List NatSpan} {n : Nat} :
    Covers (s :: l) n ↔ (s.lo ≤ n ∧ n ≤ s.hi) ∨ Covers l n := by
  rw [← List.singleton_append, covers_append, covers_singleton]

theorem Covers.of_mem {l : List NatSpan} {s : NatSpan} (h : s ∈ l) : Covers l s.lo ∧ Covers l s.hi :=
  ⟨⟨s, h, le_refl _, s.le⟩, s, h, s.le, le_refl _⟩

theorem covers_perm {l l' : List NatSpan} (h : l.Perm l') (n : Nat) : Covers l n ↔ Covers l' n := by
  unfold Covers
  simp only [h.mem_iff]

/-! ## Separated spans -/

/-- Spans in order, with a number between any two. -/
def Separated (l : List NatSpan) : Prop := l.Pairwise fun s t => s.hi + 1 < t.lo

/-- The first of the numbers separated spans cover is the first span's low end. -/
theorem Separated.le {s : NatSpan} {l : List NatSpan} (h : Separated (s :: l)) {n : Nat} (hn : Covers (s :: l) n) :
    s.lo ≤ n ∧ (n ≤ s.hi ∨ s.hi + 1 < n ∧ Covers l n) := by
  obtain ⟨hs, -⟩ := List.pairwise_cons.1 h
  rcases covers_cons.1 hn with hn | ⟨t, ht, hlo, hhi⟩
  · exact ⟨hn.1, .inl hn.2⟩
  · have hlt := hs t ht
    have hle := s.le
    exact ⟨by omega, .inr ⟨by omega, t, ht, hlo, hhi⟩⟩

theorem Separated.head_eq {s t : NatSpan} {l l' : List NatSpan} (h : Separated (s :: l)) (h' : Separated (t :: l'))
    (hc : ∀ n, Covers (s :: l) n ↔ Covers (t :: l') n) : s.lo = t.lo ∧ s.hi ≤ t.hi := by
  have hslo := (h'.le ((hc _).1 (Covers.of_mem List.mem_cons_self).1)).1
  have htlo := (h.le ((hc _).2 (Covers.of_mem List.mem_cons_self).1)).1
  refine ⟨by omega, ?_⟩
  -- the number after `t` is in no other span, so `s` ends there too
  by_contra hlt
  have hle := t.le
  have hcov : Covers (s :: l) (t.hi + 1) := covers_cons.2 (.inl ⟨by omega, by omega⟩)
  rcases (h'.le ((hc _).1 hcov)).2 with h1 | h1
  · omega
  · omega

/-- Separated spans are those of the numbers they cover. -/
theorem Separated.ext {l l' : List NatSpan} (h : Separated l) (h' : Separated l') (hc : ∀ n, Covers l n ↔ Covers l' n) :
    l = l' := by
  induction l generalizing l' with
  | nil =>
    rcases l' with _ | ⟨t, l'⟩
    · rfl
    · exact absurd ((hc _).2 (Covers.of_mem List.mem_cons_self).1) (covers_nil _)
  | cons s l ih =>
    rcases l' with _ | ⟨t, l'⟩
    · exact absurd ((hc _).1 (Covers.of_mem List.mem_cons_self).1) (covers_nil _)
    · have hlo := h.head_eq h' hc
      have hhi := h'.head_eq h fun n => (hc n).symm
      have hst : s = t := NatSpan.ext hlo.1 (le_antisymm hlo.2 hhi.2)
      subst hst
      have hrest : ∀ {l l' : List NatSpan}, Separated (s :: l) → Separated (s :: l') →
          (∀ n, Covers (s :: l) n ↔ Covers (s :: l') n) → ∀ n, Covers l n → Covers l' n := by
        intro l l' hl hl' hc n hn
        have hout : s.hi + 1 < n := by
          obtain ⟨t, ht, hlo, -⟩ := hn
          have := (List.pairwise_cons.1 hl).1 t ht
          omega
        rcases (hl'.le ((hc n).1 (covers_cons.2 (.inr hn)))).2 with h1 | h1
        · omega
        · exact h1.2
      rw [ih (List.pairwise_cons.1 h).2 (List.pairwise_cons.1 h').2 fun n =>
        ⟨hrest h h' hc n, hrest h' h (fun n => (hc n).symm) n⟩]

/-! ## Merging -/

/-- Spans merged, and the next in order of low ends. -/
def mergeInto (m : List NatSpan) (s : NatSpan) : List NatSpan :=
  match m.getLast? with
  | some t => if t.hi + 1 < s.lo then m ++ [s] else m.dropLast ++ [t.upTo s.hi]
  | none => [s]

/-- Spans in the order of their low ends, merged where they overlap or meet. -/
def mergeSpans (l : List NatSpan) : List NatSpan := l.foldl mergeInto []

theorem mergeSpans_concat (l : List NatSpan) (s : NatSpan) : mergeSpans (l ++ [s]) = mergeInto (mergeSpans l) s := by
  simp [mergeSpans]

theorem mergeInto_ne_nil (m : List NatSpan) (s : NatSpan) : mergeInto m s ≠ [] := by
  unfold mergeInto
  split
  · split <;> simp
  · simp

theorem mergeInto_concat (m : List NatSpan) (t s : NatSpan) : mergeInto (m ++ [t]) s =
    if t.hi + 1 < s.lo then m ++ [t] ++ [s] else m ++ [t.upTo s.hi] := by
  unfold mergeInto
  rw [List.getLast?_concat, List.dropLast_concat]

/-- What separated spans cover next to the last one's low end. -/
theorem Separated.last_lo {m : List NatSpan} {t : NatSpan} (h : Separated (m ++ [t])) {n : Nat} (hn : n + 1 = t.lo) :
    ¬ Covers (m ++ [t]) n := by
  intro hc
  obtain ⟨-, -, hlt⟩ := List.pairwise_append.1 h
  rcases covers_append.1 hc with ⟨u, hu, -, hhi⟩ | ht
  · have := hlt u hu t (List.mem_singleton_self t)
    omega
  · have := (covers_singleton.1 ht).1
    omega

/-- Merging keeps the spans apart, and what they cover. -/
theorem mergeSpans_spec {l : List NatSpan} (h : l.Pairwise (·.lo ≤ ·.lo)) :
    Separated (mergeSpans l) ∧ ∀ n, Covers (mergeSpans l) n ↔ Covers l n := by
  induction l using List.reverseRecOn with
  | nil => exact ⟨List.Pairwise.nil, fun _ => Iff.rfl⟩
  | append_singleton l s ih =>
    obtain ⟨hl, -, hs⟩ := List.pairwise_append.1 h
    obtain ⟨hsep, hcov⟩ := ih hl
    rw [mergeSpans_concat]
    rcases List.eq_nil_or_concat (mergeSpans l) with hm | ⟨m, t, hm⟩
    · rw [hm] at hcov ⊢
      refine ⟨List.pairwise_singleton _ _, fun n => ?_⟩
      rw [covers_append, ← hcov n]
      exact (or_iff_right (covers_nil n)).symm
    · rw [List.concat_eq_append] at hm
      rw [hm] at hsep hcov ⊢
      obtain ⟨hsepm, -, hlt⟩ := List.pairwise_append.1 hsep
      rw [mergeInto_concat]
      have htle := t.le
      split
      · rename_i hgap
        constructor
        · refine List.pairwise_append.2 ⟨hsep, List.pairwise_singleton _ _, fun u hu v hv => ?_⟩
          rw [List.mem_singleton.1 hv]
          rcases List.mem_append.1 hu with hu | hu
          · have := hlt u hu t (List.mem_singleton_self t)
            omega
          · rw [List.mem_singleton.1 hu]
            exact hgap
        · intro n
          rw [covers_append, hcov n, covers_append]
      · rename_i hmeet
        -- the last span merged begins no later than the next of the sorted list
        have hlo : t.lo ≤ s.lo := by
          by_contra hbefore
          obtain ⟨u, hu, hulo, huhi⟩ :=
            (hcov t.lo).1 (Covers.of_mem (List.mem_append_right m (List.mem_singleton_self t))).1
          have hus := hs u hu s (List.mem_singleton_self s)
          exact hsep.last_lo (by omega) ((hcov (t.lo - 1)).2 ⟨u, hu, by omega, by omega⟩)
        constructor
        · refine List.pairwise_append.2 ⟨hsepm, List.pairwise_singleton _ _, fun u hu v hv => ?_⟩
          rw [List.mem_singleton.1 hv]
          exact hlt u hu t (List.mem_singleton_self t)
        · intro n
          have hspan : Covers [t.upTo s.hi] n ↔ Covers [t] n ∨ Covers [s] n := by
            have hsle := s.le
            rw [covers_singleton, covers_singleton, covers_singleton]
            simp only [NatSpan.upTo]
            omega
          rw [covers_append, hspan, ← or_assoc, ← covers_append, hcov n, covers_append]

/-- Where the next span begins past all before it, it begins past the last merged. -/
theorem past_last {l m : List NatSpan} {t : NatSpan} (hm : mergeSpans l = m ++ [t]) (h : l.Pairwise (·.lo ≤ ·.lo))
    (n : Nat) :
    (∀ u ∈ l, u.hi < n) ↔ t.hi < n := by
  obtain ⟨hsep, hcov⟩ := mergeSpans_spec h
  rw [hm] at hsep hcov
  obtain ⟨-, -, hlt⟩ := List.pairwise_append.1 hsep
  constructor
  · intro hall
    obtain ⟨u, hu, -, hhi⟩ := (hcov t.hi).1 (Covers.of_mem (List.mem_append_right m (List.mem_singleton_self t))).2
    have := hall u hu
    omega
  · intro ht u hu
    have htle := t.le
    rcases covers_append.1 ((hcov u.hi).2 (Covers.of_mem hu).2) with ⟨v, hv, -, hhi⟩ | hlast
    · have := hlt v hv t (List.mem_singleton_self t)
      omega
    · have := (covers_singleton.1 hlast).2
      omega

/-! ## Tilings -/

/-- Spans that follow one another without a gap, from a number to another. -/
def Tiles (c d : Nat) : List NatSpan → Prop
  | [] => False
  | [s] => s.lo = c ∧ s.hi = d
  | s :: t :: l => s.lo = c ∧ Tiles (s.hi + 1) d (t :: l)

theorem tiles_ends {c d : Nat} {l : List NatSpan} : Tiles c d l ↔
    (∃ s, l.head? = some s ∧ s.lo = c) ∧ (∃ s, l.getLast? = some s ∧ s.hi = d) ∧
      ∀ p ∈ l.zip l.tail, p.2.lo = p.1.hi + 1 := by
  induction l generalizing c with
  | nil => simp [Tiles]
  | cons s l ih =>
    rcases l with _ | ⟨t, l⟩
    · simp [Tiles]
    · rw [Tiles, ih]
      simp only [List.head?_cons, Option.some.injEq, exists_eq_left', List.getLast?_cons_cons, List.tail_cons,
        List.zip_cons_cons, List.forall_mem_cons]
      constructor
      · rintro ⟨hs, ht, hlast, hrest⟩
        exact ⟨hs, hlast, ht, hrest⟩
      · rintro ⟨hs, hlast, ht, hrest⟩
        exact ⟨hs, ht, hlast, hrest⟩

/-- Spans tile an interval where they are in order, apart, and cover just it. -/
theorem tiles_iff {c d : Nat} {l : List NatSpan} (hne : l ≠ []) :
    Tiles c d l ↔ l.Pairwise (·.hi < ·.lo) ∧ ∀ n, Covers l n ↔ c ≤ n ∧ n ≤ d := by
  induction l generalizing c with
  | nil => exact absurd rfl hne
  | cons s l ih =>
    have hsle := s.le
    rcases l with _ | ⟨t, l⟩
    · simp only [Tiles, covers_singleton, List.pairwise_singleton, true_and]
      constructor
      · rintro ⟨rfl, rfl⟩ n
        rfl
      · intro h
        have hlo := (h s.lo).1 ⟨le_refl _, hsle⟩
        have hhi := (h s.hi).1 ⟨hsle, le_refl _⟩
        have hc := (h c).2 ⟨le_refl _, by omega⟩
        have hd := (h d).2 ⟨by omega, le_refl _⟩
        exact ⟨by omega, by omega⟩
    · rw [Tiles, ih (List.cons_ne_nil t l), List.pairwise_cons (a := s)]
      constructor
      · rintro ⟨rfl, hpair, hcov⟩
        have hafter : ∀ u ∈ t :: l, s.hi < u.lo := fun u hu => by
          have := (hcov u.lo).1 (Covers.of_mem hu).1
          omega
        refine ⟨⟨hafter, hpair⟩, fun n => ?_⟩
        have hd := (hcov t.lo).1 (Covers.of_mem List.mem_cons_self).1
        rw [covers_cons, hcov n]
        omega
      · rintro ⟨⟨hafter, hpair⟩, hcov⟩
        have hlo := (hcov s.lo).1 (Covers.of_mem List.mem_cons_self).1
        have ht := (hcov t.lo).1 (Covers.of_mem (List.mem_cons_of_mem _ List.mem_cons_self)).1
        have hc : s.lo = c := by
          -- the first number is covered by the first span, as the others start later
          rcases covers_cons.1 ((hcov c).2 ⟨le_refl _, by omega⟩) with h | ⟨u, hu, hulo, -⟩
          · omega
          · have := hafter u hu
            omega
        refine ⟨hc, hpair, fun n => ?_⟩
        constructor
        · rintro ⟨u, hu, hulo, huhi⟩
          have := hafter u hu
          exact ⟨by omega, ((hcov n).1 (covers_cons.2 (.inr ⟨u, hu, hulo, huhi⟩))).2⟩
        · rintro ⟨hn, hd⟩
          rcases covers_cons.1 ((hcov n).2 ⟨by omega, hd⟩) with h | h
          · omega
          · exact h

/-- Spans that share no number. -/
def NatSpan.Apart (s t : NatSpan) : Prop := s.hi < t.lo ∨ t.hi < s.lo

theorem pairwise_apart {l : List NatSpan} (h : l.Pairwise (·.lo ≤ ·.lo)) :
    l.Pairwise (·.hi < ·.lo) ↔ l.Pairwise NatSpan.Apart := by
  constructor
  · exact fun hl => hl.imp Or.inl
  · intro hl
    refine (hl.and h).imp fun {s t} hst => ?_
    rcases hst.1 with hlt | hlt
    · exact hlt
    · have := t.le
      have := hst.2
      omega

theorem forall_apart {l l' : List NatSpan} :
    (∀ s ∈ l, ∀ t ∈ l', NatSpan.Apart s t) ↔ ∀ n, ¬ (Covers l n ∧ Covers l' n) := by
  constructor
  · rintro h n ⟨⟨s, hs, hslo, hshi⟩, t, ht, htlo, hthi⟩
    rcases h s hs t ht with hlt | hlt <;> omega
  · intro h s hs t ht
    by_contra hmeet
    unfold NatSpan.Apart at hmeet
    have := s.le
    have := t.le
    exact h (max s.lo t.lo) ⟨⟨s, hs, by omega, by omega⟩, t, ht, by omega, by omega⟩

/-- Two lists of separated spans, put in order, tile an interval where they share no number and cover just
it between them. -/
theorem tiles_union {c d : Nat} {l a b : List NatSpan} (hperm : l.Perm (a ++ b)) (hne : l ≠ [])
    (hsorted : l.Pairwise (·.lo ≤ ·.lo)) (ha : Separated a) (hb : Separated b) :
    Tiles c d l ↔ (∀ n, ¬ (Covers a n ∧ Covers b n)) ∧ ∀ n, Covers a n ∨ Covers b n ↔ c ≤ n ∧ n ≤ d := by
  have hsymm : ∀ {s t : NatSpan}, s.Apart t → t.Apart s := Or.symm
  have hsep : ∀ {m : List NatSpan}, Separated m → m.Pairwise NatSpan.Apart :=
    fun hm => hm.imp fun hlt => .inl (by omega)
  have hcov : ∀ n, Covers l n ↔ Covers a n ∨ Covers b n := fun n => by rw [covers_perm hperm, covers_append]
  rw [tiles_iff hne, pairwise_apart hsorted, hperm.pairwise_iff hsymm, List.pairwise_append, forall_apart]
  simp only [hcov]
  exact and_congr_left fun _ => ⟨fun h => h.2.2, fun h => ⟨hsep ha, hsep hb, h⟩⟩

end TabnasAbnf.Base
