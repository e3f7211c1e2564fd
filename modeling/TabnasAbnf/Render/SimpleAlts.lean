/-
A rule's alternatives read from its open alternates: what a dispatch's lookahead copies fold into, and what
alternates alike stay.
-/
import TabnasAbnf.Base.NumberText
import TabnasAbnf.Render.Elements
import Mathlib.Data.List.GetD
import Mathlib.Data.List.Induction

namespace TabnasAbnf.Render

open TabnasAbnf.Base

/-! ## The first of each kind -/

section

variable {α : Type} {key : α → Text} {v : List α}

/-- The places where a key differs from the one before it, and of those the first of their kind, are the
places of the keys that stand nowhere before. -/
theorem uniquePlaces_eq {ks : List Text} (hks : ∀ k ∈ ks, k ≠ ['\x00']) {i : Nat} (hi : i < ks.length)
    {runs : List Nat} (hruns : ∀ j, j ∈ runs ↔ j < ks.length ∧ ks.getD j [] ≠ (['\x00'] :: ks).getD j []) :
    (ks.getD i [] ≠ (['\x00'] :: ks).getD i [] ∧ ∀ j ∈ runs, ¬ (j < i ∧ ks.getD j [] = ks.getD i [])) ↔
      ∀ j < i, ks.getD j [] ≠ ks.getD i [] := by
  have hfirst : ∀ j < ks.length, (∀ m < j, ks.getD m [] ≠ ks.getD j []) →
    ks.getD j [] ≠ (['\x00'] :: ks).getD j [] := by
    intro j hj hbefore
    cases j with
    | zero =>
      rw [List.getD_cons_zero, List.getD_eq_getElem _ _ hj]
      exact hks _ (List.getElem_mem hj)
    | succ m => exact (hbefore m (Nat.lt_succ_self m)).symm
  constructor
  · rintro ⟨-, hnone⟩ j hj heq
    -- the least place of the key is the start of a run
    have hex : ∃ j, j < i ∧ ks.getD j [] = ks.getD i [] := ⟨j, hj, heq⟩
    obtain ⟨hlt, hkey⟩ := Nat.find_spec hex
    refine hnone (Nat.find hex) ((hruns _).2 ⟨by omega, hfirst _ (by omega) fun m hm hm' => ?_⟩) ⟨hlt, hkey⟩
    exact Nat.find_min hex hm ⟨by omega, hm'.trans hkey⟩
  · intro hbefore
    exact ⟨hfirst i hi hbefore, fun j _ hj => hbefore j hj.1 hj.2⟩

/-- The items whose keys stand nowhere before. -/
theorem abnfUnique_eq (hkey : ∀ x, key x ≠ ['\x00']) (v : List α) : abnfUnique key v =
    ((List.range v.length).filter fun i => decide (∀ j < i, (v.map key).getD j [] ≠ (v.map key).getD i [])).filterMap
      (v[·]?) := by
  have hks : ∀ k ∈ v.map key, k ≠ ['\x00'] := by
    intro k hk
    obtain ⟨x, -, rfl⟩ := List.mem_map.1 hk
    exact hkey x
  unfold abnfUnique
  dsimp only
  rw [List.filter_filter, List.length_map]
  refine congrArg _ (List.filter_congr fun i hi => ?_)
  have hi : i < (v.map key).length := by
    rw [List.length_map]
    exact List.mem_range.1 hi
  have hruns : ∀ j, j ∈ (List.range v.length).filter (fun i =>
      !abnfSame ((v.map key).getD i []) ((['\x00'] :: v.map key).getD i [])) ↔
        j < (v.map key).length ∧ (v.map key).getD j [] ≠ (['\x00'] :: v.map key).getD j [] := by
    intro j
    simp only [List.mem_filter, List.mem_range, List.length_map, Bool.not_eq_true', Bool.eq_false_iff, ne_eq,
      abnfSame_iff]
  rw [Bool.eq_iff_iff, decide_eq_true_eq, Bool.and_eq_true, ← uniquePlaces_eq hks hi hruns]
  simp only [List.isEmpty_iff, List.filter_eq_nil_iff, Bool.and_eq_true, decide_eq_true_eq, abnfSame_iff,
    Bool.not_eq_true', Bool.eq_false_iff, ne_eq]
  exact and_comm

/-- One more item is kept where none before it has its key. -/
theorem abnfUnique_concat (hkey : ∀ x, key x ≠ ['\x00']) (v : List α) (x : α) :
    abnfUnique key (v ++ [x]) = abnfUnique key v ++ if key x ∈ v.map key then [] else [x] := by
  have hlen : (v.map key).length = v.length := List.length_map _
  rw [abnfUnique_eq hkey, abnfUnique_eq hkey, List.length_append, List.length_singleton, List.range_succ,
    List.filter_append, List.filterMap_append, List.map_append]
  have hget : ∀ {i}, i < v.length → (v.map key ++ [x].map key).getD i [] = (v.map key).getD i [] := fun hi => by
    rw [List.getD_eq_getElem?_getD, List.getD_eq_getElem?_getD, List.getElem?_append_left (by omega)]
  have hlast : (v.map key ++ [x].map key).getD v.length [] = key x := by
    rw [List.getD_eq_getElem?_getD, List.getElem?_append_right (by omega), hlen, Nat.sub_self]
    rfl
  congr 1
  · rw [List.filter_congr (q := fun i => decide (∀ j < i, (v.map key).getD j [] ≠ (v.map key).getD i []))]
    · refine List.filterMap_congr fun i hi => ?_
      exact List.getElem?_append_left (List.mem_range.1 (List.mem_of_mem_filter hi))
    · intro i hi
      have hi := List.mem_range.1 hi
      refine decide_eq_decide.2 (forall₂_congr fun j hj => ?_)
      rw [hget hi, hget (by omega)]
  -- the last item is kept where no one before it has its key
  · have hmem : key x ∈ v.map key ↔ ¬ ∀ j < v.length, (v.map key ++ [x].map key).getD j [] ≠
        (v.map key ++ [x].map key).getD v.length [] := by
      rw [hlast, List.mem_iff_getElem]
      simp only [not_forall, ne_eq, not_not, exists_prop]
      constructor
      · rintro ⟨j, hj, he⟩
        rw [hlen] at hj
        exact ⟨j, hj, by rw [hget hj, List.getD_eq_getElem _ _ (by omega), he]⟩
      · rintro ⟨j, hj, he⟩
        rw [hget hj, List.getD_eq_getElem _ _ (by omega)] at he
        exact ⟨j, by omega, he⟩
    by_cases hx : key x ∈ v.map key
    · rw [if_pos hx, List.filter_singleton, decide_eq_false (hmem.1 hx)]
      rfl
    · rw [if_neg hx, List.filter_singleton, decide_eq_true (not_not.1 (mt hmem.2 hx))]
      simp

end

/-! ## Elements told apart -/

mutual

/-- Whether two elements are the same. -/
def El.same : El → El → Bool
  | .tok a, .tok b => a == b
  | .ref a, .ref b => a == b
  | .tail a, .tail b => Seq.same a b
  | .grp a, .grp b => Seq.same a b
  | _, _ => false

def Seq.same : List El → List El → Bool
  | [], [] => true
  | a :: as, b :: bs => a.same b && Seq.same as bs
  | _, _ => false

end

mutual

theorem El.same_iff : (a b : El) → (a.same b = true ↔ a = b)
  | .tok a, b => by cases b <;> simp [El.same]
  | .ref a, b => by cases b <;> simp [El.same]
  | .tail a, b => by cases b <;> simp [El.same, Seq.same_iff]
  | .grp a, b => by cases b <;> simp [El.same, Seq.same_iff]

theorem Seq.same_iff : (as bs : List El) → (Seq.same as bs = true ↔ as = bs)
  | [], bs => by cases bs <;> simp [Seq.same]
  | a :: as, bs => by cases bs <;> simp [Seq.same, El.same_iff, Seq.same_iff]

end

instance : DecidableEq El := fun a b => decidable_of_iff _ (El.same_iff a b)

/-! ## Keys told apart -/

/-- Token names that joined by spaces and bars can be told apart. -/
def Plain (alt : Json) : Prop := ∀ t ∈ abnfS alt, t ≠ [] ∧ ' ' ∉ t ∧ '|' ∉ t

/-- Two alternates alike in everything: their whole pattern, their backtrack and the rule they hand over to. -/
def Alike (a b : Json) : Prop := abnfS a = abnfS b ∧ abnfB a = abnfB b ∧ abnfTarget a = abnfTarget b

instance (a b : Json) : Decidable (Alike a b) := inferInstanceAs (Decidable (_ ∧ _ ∧ _))

theorem abnfNum_eq (n : Int) : abnfNum n = if n < 0 then '-' :: decimal n.natAbs else decimal n.toNat := rfl

theorem not_mem_decimal {c : Char} (h : c.isDigit = false) (n : Nat) : c ∉ decimal n := by
  intro hc
  rw [(decimal_spec n).1 c hc] at h
  cases h

theorem bar_not_mem_abnfNum (n : Int) : '|' ∉ abnfNum n := by
  rw [abnfNum_eq]
  split
  · simp [not_mem_decimal (c := '|') rfl]
  · exact not_mem_decimal rfl _

theorem abnfNum_injective {m n : Int} (h : abnfNum m = abnfNum n) : m = n := by
  have hminus : ∀ {k k' : Nat}, '-' :: decimal k ≠ decimal k' := fun he =>
    not_mem_decimal (c := '-') rfl _ (he ▸ List.mem_cons_self)
  rw [abnfNum_eq, abnfNum_eq] at h
  split_ifs at h with hm hn hn
  · have habs := decimal_injective (List.cons.inj h).2
    omega
  · exact absurd h hminus
  · exact absurd h.symm hminus
  · have hnat := decimal_injective h
    omega

/-- The token an element is, and the rule it refers to. -/
def El.tokName : El → Option Text
  | .tok name => some name
  | _ => none

def El.refName : El → Option Text
  | .ref name => some name
  | _ => none

section

variable {a b : Json}

theorem Plain.consumed (h : Plain a) : ∀ t ∈ abnfConsumed a, t ≠ [] ∧ ' ' ∉ t ∧ '|' ∉ t := fun t ht =>
  h t (List.mem_of_mem_take ht)

theorem bar_not_mem_join {ts : List Text} (h : ∀ t ∈ ts, t ≠ [] ∧ ' ' ∉ t ∧ '|' ∉ t) : '|' ∉ stringJoin [' '] ts := by
  induction ts with
  | nil => simp [stringJoin]
  | cons t ts ih =>
    obtain ⟨ht, hts⟩ := List.forall_mem_cons.1 h
    by_cases hne : ts = []
    · subst hne
      simpa [stringJoin] using ht.2.2
    · rw [stringJoin_cons _ _ hne, List.mem_append, List.mem_append]
      simp [ht.2.2, ih hts]

/-- What stands before the first of a character, and after it. -/
theorem append_cons_inj {c : Char} {s t x y : Text} (hs : c ∉ s) (ht : c ∉ t) (h : s ++ c :: x = t ++ c :: y) :
    s = t ∧ x = y := by
  have hsplit := congrArg (split [c]) h
  have hx : split [c] (s ++ c :: x) = s :: split [c] x := split_append_char hs x
  have hy : split [c] (t ++ c :: y) = t :: split [c] y := split_append_char ht y
  rw [hx, hy, List.cons.injEq] at hsplit
  rw [hsplit.1] at h
  exact ⟨hsplit.1, (List.cons.inj (List.append_cancel_left h)).2⟩

theorem join_bar_inj {ts ts' : List Text} {x y : Text} (h : ∀ t ∈ ts, t ≠ [] ∧ ' ' ∉ t ∧ '|' ∉ t)
    (h' : ∀ t ∈ ts', t ≠ [] ∧ ' ' ∉ t ∧ '|' ∉ t)
    (he : stringJoin [' '] ts ++ '|' :: x = stringJoin [' '] ts' ++ '|' :: y) : ts = ts' ∧ x = y := by
  obtain ⟨hjoin, hrest⟩ := append_cons_inj (bar_not_mem_join h) (bar_not_mem_join h') he
  exact ⟨stringJoin_nonempty_injective (fun t ht => ⟨(h t ht).1, (h t ht).2.1⟩)
    (fun t ht => ⟨(h' t ht).1, (h' t ht).2.1⟩)
    hjoin, hrest⟩

/-- What an alternate consumes and hands over to is what it reads as. -/
theorem entryEls_iff :
    abnfEntryEls a = abnfEntryEls b ↔ abnfConsumed a = abnfConsumed b ∧ abnfTarget a = abnfTarget b := by
  have htoks : ∀ a : Json, (abnfEntryEls a).filterMap El.tokName = abnfConsumed a ∧
      (abnfEntryEls a).filterMap El.refName = if abnfTarget a = [] then [] else [abnfTarget a] := by
    intro a
    have hmap : ∀ ts : List Text, (ts.map El.tok).filterMap El.tokName = ts ∧
      (ts.map El.tok).filterMap El.refName = [] := by
      intro ts
      induction ts with
      | nil => exact ⟨rfl, rfl⟩
      | cons t ts ih => exact ⟨congrArg (t :: ·) ih.1, ih.2⟩
    unfold abnfEntryEls
    split
    · exact hmap _
    · rw [List.filterMap_append, List.filterMap_append, (hmap _).1, (hmap _).2]
      exact ⟨List.append_nil _, rfl⟩
  constructor
  · intro h
    have hc := congrArg (List.filterMap El.tokName) h
    have ht := congrArg (List.filterMap El.refName) h
    rw [(htoks a).1, (htoks b).1] at hc
    rw [(htoks a).2, (htoks b).2] at ht
    refine ⟨hc, ?_⟩
    split_ifs at ht with h1 h2 h2
    · rw [h1, h2]
    · exact List.singleton_inj.1 ht
  · rintro ⟨hc, ht⟩
    simp only [abnfEntryEls, hc, ht]

theorem entryKey_iff (ha : Plain a) (hb : Plain b) :
    abnfEntryKey a = abnfEntryKey b ↔ abnfEntryEls a = abnfEntryEls b := by
  rw [entryEls_iff]
  constructor
  · intro h
    unfold abnfEntryKey at h
    rw [List.append_assoc, List.append_assoc] at h
    exact join_bar_inj ha.consumed hb.consumed h
  · rintro ⟨hc, ht⟩
    simp only [abnfEntryKey, hc, ht]

theorem wholeKey_iff (ha : Plain a) (hb : Plain b) : abnfWholeKey a = abnfWholeKey b ↔ Alike a b := by
  constructor
  · intro h
    unfold abnfWholeKey at h
    simp only [List.append_assoc, List.singleton_append] at h
    obtain ⟨hs, hrest⟩ := join_bar_inj ha hb h
    obtain ⟨hnum, ht⟩ := append_cons_inj (bar_not_mem_abnfNum _) (bar_not_mem_abnfNum _) hrest
    exact ⟨hs, abnfNum_injective hnum, ht⟩
  · rintro ⟨hs, hb, ht⟩
    simp only [abnfWholeKey, hs, hb, ht]

/-- Alternates alike read as one alternative. -/
theorem Alike.entryEls (h : Alike a b) : abnfEntryEls a = abnfEntryEls b := by
  refine entryEls_iff.2 ⟨?_, h.2.2⟩
  simp only [abnfConsumed, h.1, h.2.1]

end

/-! ## How often an alternative stands -/

/-- How many of the alternates are alike one of them in everything. -/
def alikeCount (opens : List Json) (a : Json) : Nat := (opens.filter fun (b : Json) => decide (Alike b a)).length

/-- The greatest number of alternates alike in everything that read as an alternative. -/
def mostAlike (opens : List Json) (e : Seq) : Nat :=
  greatest ((opens.filter fun (a : Json) => decide (abnfEntryEls a = e)).map (alikeCount opens))

section

variable {opens : List Json} {e : Seq}

theorem abnfCopies_eq (hplain : ∀ a ∈ opens, Plain a) {alt : Json} (halt : alt ∈ opens) :
    abnfCopies opens alt = mostAlike opens (abnfEntryEls alt) := by
  have hgroup : (opens.filter fun (a : Json) => abnfSame (abnfEntryKey a) (abnfEntryKey alt)) =
      opens.filter fun (a : Json) => decide (abnfEntryEls a = abnfEntryEls alt) := by
    refine List.filter_congr fun a ha => ?_
    rw [Bool.eq_iff_iff, abnfSame_iff, decide_eq_true_eq, entryKey_iff (hplain a ha) (hplain alt halt)]
  unfold abnfCopies mostAlike
  dsimp only
  rw [hgroup, head_greatest]
  refine congrArg _ (List.map_congr_left fun a ha => ?_)
  obtain ⟨hmem, hreads⟩ := List.mem_filter.1 ha
  rw [List.filter_filter]
  refine congrArg _ (List.filter_congr fun b hb => ?_)
  rw [Bool.eq_iff_iff, Bool.and_eq_true, abnfSame_iff, decide_eq_true_eq, decide_eq_true_eq,
    wholeKey_iff (hplain b hb) (hplain a hmem)]
  exact and_iff_left_of_imp fun h => h.entryEls.trans (of_decide_eq_true hreads)

/-- Of the items with a key, the first is kept. -/
theorem filter_abnfUnique {α : Type} {key : α → Text} (hkey : ∀ x, key x ≠ ['\x00']) (v : List α) (k : Text) :
    (abnfUnique key v).filter (fun x => decide (key x = k)) = (v.filter fun x => decide (key x = k)).head?.toList := by
  induction v using List.reverseRecOn with
  | nil => rfl
  | append_singleton v x ih =>
    rw [abnfUnique_concat hkey, List.filter_append, List.filter_append, List.head?_append, ih]
    rcases hv : v.filter (fun x => decide (key x = k)) with _ | ⟨y, ys⟩
    · -- the key stands nowhere before
      have hnone : key x = k → key x ∉ v.map key := by
        rintro rfl hmem
        obtain ⟨y, hy, hyk⟩ := List.mem_map.1 hmem
        exact absurd hyk (by simpa using List.filter_eq_nil_iff.1 hv y hy)
      by_cases hk : key x = k
      · rw [if_neg (hnone hk), List.filter_singleton, decide_eq_true hk]
        rfl
      · split
        · rw [List.filter_singleton, decide_eq_false hk]
          rfl
        · rw [List.filter_singleton, decide_eq_false hk]
          rfl
    · have hy : y ∈ v ∧ key y = k := by
        have hmem := List.mem_filter.1 (hv ▸ List.mem_cons_self : y ∈ v.filter fun x => decide (key x = k))
        exact ⟨hmem.1, of_decide_eq_true hmem.2⟩
      have hrest : (if key x ∈ v.map key then [] else [x]).filter (fun x => decide (key x = k)) = [] := by
        by_cases hk : key x = k
        · rw [if_pos (List.mem_map.2 ⟨y, hy.1, hy.2.trans hk.symm⟩)]
          rfl
        · split
          · rfl
          · rw [List.filter_singleton, decide_eq_false hk]
            rfl
      rw [hrest]
      rfl

theorem entryKey_ne (a : Json) : abnfEntryKey a ≠ ['\x00'] := by
  intro h
  have hbar : '|' ∈ abnfEntryKey a := by
    unfold abnfEntryKey
    simp
  rw [h] at hbar
  revert hbar
  decide

/-- The alternatives of the alternates, copies folded. -/
def foldedAlts (opens : List Json) : List Seq :=
  (abnfUnique (fun (alt : Json) => abnfEntryKey alt) opens).flatMap fun alt =>
    List.replicate (abnfCopies opens alt) (abnfEntryEls alt)

theorem count_replicates {α : Type} (us : List α) (n : α → Nat) (f : α → Seq) (e : Seq) :
    (us.flatMap fun u => List.replicate (n u) (f u)).count e = ((us.filter fun u => decide (f u = e)).map n).sum := by
  induction us with
  | nil => rfl
  | cons u us ih =>
    rw [List.flatMap_cons, List.count_append, ih, List.count_replicate, List.filter_cons]
    by_cases h : f u = e
    · rw [if_pos (by simpa using h), if_pos (by simpa using h), List.map_cons, List.sum_cons]
    · rw [if_neg (by simpa using h), if_neg (by simpa using h), Nat.zero_add]

theorem count_foldedAlts (hplain : ∀ a ∈ opens, Plain a) (e : Seq) :
    (foldedAlts opens).count e = mostAlike opens e := by
  unfold foldedAlts
  rw [count_replicates]
  by_cases hex : ∃ a ∈ opens, abnfEntryEls a = e
  · obtain ⟨a, ha, rfl⟩ := hex
    have hone : (abnfUnique (fun (alt : Json) => abnfEntryKey alt) opens).filter
        (fun (u : Json) => decide (abnfEntryEls u = abnfEntryEls a)) =
          (opens.filter fun (u : Json) => decide (abnfEntryKey u = abnfEntryKey a)).head?.toList := by
      rw [← filter_abnfUnique (fun x => entryKey_ne x)]
      refine List.filter_congr fun u hu => decide_eq_decide.2 ?_
      exact (entryKey_iff (hplain u (mem_abnfUnique hu)) (hplain a ha)).symm
    have hmem : a ∈ opens.filter fun (u : Json) => decide (abnfEntryKey u = abnfEntryKey a) :=
      List.mem_filter.2 ⟨ha, decide_eq_true rfl⟩
    obtain ⟨u, us, hus⟩ := List.exists_cons_of_ne_nil (List.ne_nil_of_mem hmem)
    obtain ⟨hu, hkey⟩ := List.mem_filter.1 (hus ▸ List.mem_cons_self : u ∈ opens.filter _)
    have hels := (entryKey_iff (hplain u hu) (hplain a ha)).1 (of_decide_eq_true hkey)
    rw [hone, hus]
    change (([u] : List Json).map (abnfCopies opens)).sum = _
    rw [List.map_singleton, List.sum_singleton, abnfCopies_eq hplain hu, hels]
  · have hnone : (abnfUnique (fun (alt : Json) => abnfEntryKey alt) opens).filter
        (fun (u : Json) => decide (abnfEntryEls u = e)) = [] :=
      List.filter_eq_nil_iff.2 fun u hu he => hex ⟨u, mem_abnfUnique hu, of_decide_eq_true he⟩
    have hreads : (opens.filter fun (a : Json) => decide (abnfEntryEls a = e)) = [] :=
      List.filter_eq_nil_iff.2 fun a ha he => hex ⟨a, ha, of_decide_eq_true he⟩
    rw [hnone, mostAlike, hreads]
    rfl

/-- The empty alternatives of a rule. -/
def emptyAlts (opens : List Json) : List Seq :=
  if ((foldedAlts opens).filter List.isEmpty).isEmpty then []
  else List.replicate
    (if (opens.filter fun (alt : Json) => abnfBareEmpty alt).length < 2 then 1
      else (opens.filter fun (alt : Json) => abnfBareEmpty alt).length) []

theorem abnfSimpleAlts_eq (r : Option Json) : abnfSimpleAlts r =
    emptyAlts (abnfOpen r) ++ abnfNumberOrder ((foldedAlts (abnfOpen r)).filter (!·.isEmpty)) := rfl

/-- An alternative that is not empty stands as often as the most of the alternates alike that read as it. -/
theorem count_abnfSimpleAlts {r : Option Json} (hplain : ∀ a ∈ abnfOpen r, Plain a) (he : e ≠ []) :
    (abnfSimpleAlts r).count e = mostAlike (abnfOpen r) e := by
  have hempty : (emptyAlts (abnfOpen r)).count e = 0 := by
    rw [List.count_eq_zero]
    unfold emptyAlts
    split
    · exact List.not_mem_nil
    · exact fun h => he (List.eq_of_mem_replicate h)
  rw [abnfSimpleAlts_eq, List.count_append, hempty, Nat.zero_add, (abnfNumberOrder_perm _).count_eq, List.count_filter,
    count_foldedAlts hplain]
  simpa using he

end

/-! ## A lookahead copy more -/

section

variable {pre post : List Json} {x a : Json}

/-- One more item with the key of one before it is not kept. -/
theorem abnfUnique_insert {α : Type} {key : α → Text} (hkey : ∀ x, key x ≠ ['\x00']) {pre post : List α} {x : α}
    (hx : key x ∈ pre.map key) : abnfUnique key (pre ++ x :: post) = abnfUnique key (pre ++ post) := by
  induction post using List.reverseRecOn with
  | nil => rw [abnfUnique_concat hkey, if_pos hx, List.append_nil, List.append_nil]
  | append_singleton post y ih =>
    rw [← List.cons_append, ← List.append_assoc, ← List.append_assoc, abnfUnique_concat hkey,
      abnfUnique_concat hkey, ih]
    have hmem : key y ∈ (pre ++ x :: post).map key ↔ key y ∈ (pre ++ post).map key := by
      simp only [List.map_append, List.map_cons, List.mem_append, List.mem_cons]
      constructor
      · rintro (h | h | h)
        · exact .inl h
        · exact .inl (h ▸ hx)
        · exact .inr h
      · rintro (h | h)
        · exact .inl h
        · exact .inr (.inr h)
    simp only [hmem]

/-- An alternate alike none of the others is counted by itself, and counts for none of them. -/
theorem alikeCount_insert (hfresh : ∀ y ∈ pre ++ post, ¬ Alike x y) {y : Json} (hy : y ∈ pre ++ post) :
    alikeCount (pre ++ x :: post) y = alikeCount (pre ++ post) y := by
  unfold alikeCount
  rw [List.filter_append, List.filter_cons_of_neg (by simpa using hfresh y hy), ← List.filter_append]

theorem alikeCount_self (hfresh : ∀ y ∈ pre ++ post, ¬ Alike x y) : alikeCount (pre ++ x :: post) x = 1 := by
  have hnone : ∀ l : List Json, (∀ y ∈ l, ¬ Alike x y) → l.filter (fun (b : Json) => decide (Alike b x)) = [] := by
    intro l hl
    refine List.filter_eq_nil_iff.2 fun y hy h => hl y hy ?_
    obtain ⟨hs, hb, ht⟩ := of_decide_eq_true h
    exact ⟨hs.symm, hb.symm, ht.symm⟩
  unfold alikeCount
  rw [List.filter_append, hnone pre fun y hy => hfresh y (List.mem_append_left _ hy),
    List.filter_cons_of_pos (by simp [Alike]), hnone post fun y hy => hfresh y (List.mem_append_right _ hy)]
  rfl

theorem alikeCount_pos {opens : List Json} (ha : a ∈ opens) : 1 ≤ alikeCount opens a := by
  refine List.length_pos_iff.2 (List.ne_nil_of_mem (List.mem_filter.2 ⟨ha, ?_⟩))
  simp [Alike]

/-- It is no more than the alternates that read as it already counted. -/
theorem mostAlike_insert (ha : a ∈ pre) (hels : abnfEntryEls x = abnfEntryEls a)
    (hfresh : ∀ y ∈ pre ++ post, ¬ Alike x y)
    (e : Seq) : mostAlike (pre ++ x :: post) e = mostAlike (pre ++ post) e := by
  have ha' : a ∈ pre ++ post := List.mem_append_left _ ha
  have hmem : ∀ {y}, y ∈ pre ++ x :: post ↔ y = x ∨ y ∈ pre ++ post := by
    intro y
    simp only [List.mem_append, List.mem_cons]
    tauto
  refine le_antisymm (greatest_le_iff.2 fun n hn => ?_) (greatest_le_iff.2 fun n hn => ?_)
  · obtain ⟨y, hy, rfl⟩ := List.mem_map.1 hn
    obtain ⟨hy, hreads⟩ := List.mem_filter.1 hy
    rcases hmem.1 hy with rfl | hy
    · rw [alikeCount_self hfresh]
      refine le_trans (alikeCount_pos ha') (le_greatest (List.mem_map_of_mem (List.mem_filter.2 ⟨ha', ?_⟩)))
      rwa [← hels]
    · rw [alikeCount_insert hfresh hy]
      exact le_greatest (List.mem_map_of_mem (List.mem_filter.2 ⟨hy, hreads⟩))
  · obtain ⟨y, hy, rfl⟩ := List.mem_map.1 hn
    obtain ⟨hy, hreads⟩ := List.mem_filter.1 hy
    rw [← alikeCount_insert hfresh hy]
    exact le_greatest (List.mem_map_of_mem (List.mem_filter.2 ⟨hmem.2 (.inr hy), hreads⟩))

theorem foldedAlts_insert (hplain : ∀ y ∈ pre ++ x :: post, Plain y) (ha : a ∈ pre)
    (hels : abnfEntryEls x = abnfEntryEls a)
    (hfresh : ∀ y ∈ pre ++ post, ¬ Alike x y) : foldedAlts (pre ++ x :: post) = foldedAlts (pre ++ post) := by
  have hold : ∀ {y}, y ∈ pre ++ post → y ∈ pre ++ x :: post := by
    intro y hy
    rcases List.mem_append.1 hy with h | h
    · exact List.mem_append_left _ h
    · exact List.mem_append_right _ (List.mem_cons_of_mem _ h)
  have hx : Plain x := hplain x (List.mem_append_right _ List.mem_cons_self)
  have hkey : abnfEntryKey x = abnfEntryKey a := (entryKey_iff hx (hplain a (hold (List.mem_append_left _ ha)))).2 hels
  unfold foldedAlts
  rw [abnfUnique_insert (fun x => entryKey_ne x) (List.mem_map.2 ⟨a, ha, hkey.symm⟩)]
  refine List.flatMap_congr fun u hu => ?_
  have humem := mem_abnfUnique hu
  rw [abnfCopies_eq hplain (hold humem), abnfCopies_eq (fun y hy => hplain y (hold hy)) humem,
    mostAlike_insert ha hels hfresh]

/-- An alternate more that consumes and hands over as one before it does, and is alike none, changes
nothing, where it is not bare. -/
theorem abnfSimpleAlts_insert {r r' : Option Json} (hr : abnfOpen r = pre ++ post)
    (hr' : abnfOpen r' = pre ++ x :: post)
    (hplain : ∀ y ∈ pre ++ x :: post, Plain y) (ha : a ∈ pre) (hels : abnfEntryEls x = abnfEntryEls a)
    (hfresh : ∀ y ∈ pre ++ post, ¬ Alike x y) (hbare : abnfBareEmpty x = false) :
    abnfSimpleAlts r' = abnfSimpleAlts r := by
  have hbares : ((pre ++ x :: post).filter fun (alt : Json) => abnfBareEmpty alt) =
      (pre ++ post).filter fun (alt : Json) => abnfBareEmpty alt := by
    rw [List.filter_append, List.filter_cons_of_neg (by simp [hbare]), ← List.filter_append]
  rw [abnfSimpleAlts_eq, abnfSimpleAlts_eq, hr, hr', foldedAlts_insert hplain ha hels hfresh]
  unfold emptyAlts
  rw [foldedAlts_insert hplain ha hels hfresh, hbares]

end

/-! ## The law -/

/-- Lookahead copies of one alternative are folded, and the alternates alike in everything are as many
alternatives as there are of them. -/
theorem abnfSimpleAlts_copies :
    (∀ (r r' : Option Json) (pre post : List Json) (x a : Json), abnfOpen r = pre ++ post →
      abnfOpen r' = pre ++ x :: post →
      (∀ y ∈ pre ++ x :: post, Plain y) → a ∈ pre → abnfConsumed x = abnfConsumed a → abnfTarget x = abnfTarget a →
      (∀ y ∈ pre ++ post, ¬ (abnfS x = abnfS y ∧ abnfB x = abnfB y)) → abnfBareEmpty x = false →
      abnfSimpleAlts r' = abnfSimpleAlts r) ∧
    ∀ (r : Option Json) (e : Seq), (∀ a ∈ abnfOpen r, Plain a) → e ≠ [] →
      (abnfSimpleAlts r).count e = mostAlike (abnfOpen r) e := by
  constructor
  · intro r r' pre post x a hr hr' hplain ha hconsumed htarget hfresh hbare
    refine abnfSimpleAlts_insert hr hr' hplain ha (entryEls_iff.2 ⟨hconsumed, htarget⟩) (fun y hy h => ?_) hbare
    exact hfresh y hy ⟨h.1, h.2.1⟩
  · exact fun r e hplain he => count_abnfSimpleAlts hplain he

/-- An alternate of a pattern, a backtrack and a rule to push. -/
def patternAlt (s : String) (b : Int) (p : String) : Json :=
  .obj [(['s'], .str s.toList), (['b'], .num b), (['p'], .str p.toList)]

def openRule (opens : List Json) : Option Json := some (.obj [("open".toList, .arr opens)])

theorem abnfSimpleAlts_copies_lookahead :
    abnfSimpleAlts (openRule [patternAlt "#A #B" 1 "x", patternAlt "#A #C" 1 "x"]) =
        abnfSimpleAlts (openRule [patternAlt "#A #B" 1 "x"]) ∧
      (abnfSimpleAlts (openRule [patternAlt "#A #B" 1 "x", patternAlt "#A #B" 1 "x"])).count
        [.tok "#A".toList, .ref ['x']] =
        mostAlike [patternAlt "#A #B" 1 "x", patternAlt "#A #B" 1 "x"] [.tok "#A".toList, .ref ['x']] := by
  have hplain : ∀ s : String, (∀ t ∈ abnfS (patternAlt s 1 "x"), t ≠ [] ∧ ' ' ∉ t ∧ '|' ∉ t) →
    Plain (patternAlt s 1 "x") :=
    fun _ h => h
  constructor
  · refine abnfSimpleAlts_copies.1 _ _ [patternAlt "#A #B" 1 "x"] [] (patternAlt "#A #C" 1 "x")
      (patternAlt "#A #B" 1 "x") rfl
      rfl ?_ List.mem_cons_self (by decide) (by decide) ?_ (by decide)
    · intro y hy
      rcases List.mem_pair.1 hy with rfl | rfl
      · exact hplain _ (by decide)
      · exact hplain _ (by decide)
    · intro y hy
      rw [List.mem_singleton.1 hy]
      decide
  · refine abnfSimpleAlts_copies.2 _ _ (fun a ha => ?_) (List.cons_ne_nil _ _)
    have ha : a ∈ [patternAlt "#A #B" 1 "x", patternAlt "#A #B" 1 "x"] := ha
    rcases List.mem_pair.1 ha with rfl | rfl
    · exact hplain _ (by decide)
    · exact hplain _ (by decide)

/-- A bare alternate with another backtrack is one more empty alternative, and a bar in a name makes two
alternatives one. -/
theorem abnfSimpleAlts_bare_bar :
    (abnfConsumed (patternAlt "" 1 "") = abnfConsumed (patternAlt "" 0 "") ∧
      abnfTarget (patternAlt "" 1 "") = abnfTarget (patternAlt "" 0 "") ∧
      ¬
        (abnfS (patternAlt "" 1 "") = abnfS (patternAlt "" 0 "") ∧
        abnfB (patternAlt "" 1 "") = abnfB (patternAlt "" 0 "")) ∧
      abnfSimpleAlts (openRule [patternAlt "" 0 "", patternAlt "" 1 ""]) ≠
        abnfSimpleAlts (openRule [patternAlt "" 0 ""])) ∧
    (abnfSimpleAlts (openRule [patternAlt "x|y" 0 "", patternAlt "x" 0 "y|"])).count [.tok ['x'], .ref "y|".toList] ≠
      mostAlike [patternAlt "x|y" 0 "", patternAlt "x" 0 "y|"] [.tok ['x'], .ref "y|".toList] := by
  refine ⟨⟨by decide, by decide, by decide, by decide +kernel⟩, by decide +kernel⟩

end TabnasAbnf.Render
