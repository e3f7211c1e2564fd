/-
No annotation is lost and none is doubled. `owner` is the production a claim follows, `home` the
resulting production an incremental or a base comes to, `dest` the two together: attaching and
merging put each claim on its `dest` and nowhere else, or fail for one of the reasons `faulty` lists.
-/
import TabnasAbnf.Base.Encoding
import TabnasAbnf.Base.Store
import TabnasAbnf.Passes.Merge
import Mathlib.Data.List.Pairwise
import Mathlib.Data.List.ReduceOption

namespace TabnasAbnf.Passes

open TabnasAbnf.Base TabnasAbnf.Meta

variable {S : Type}

/-! ## Where a claim belongs -/

/-- The productions of a parse: at least one, each with its span, in increasing order, none annotated. -/
structure Parsed (ps : List (Production S)) : Prop where
  some : ps ≠ []
  spanned : ∀ p ∈ ps, p.sp.isSome = true
  increasing : ps.Pairwise fun p q => p.start < q.start
  bare : ∀ p ∈ ps, p.value = none

section

variable (ps : List (Production S))

/-- The last production that starts before an offset, by a search over all of them. -/
def owner (a : Nat) : Option Nat := lastIdx (fun p => decide (p.start < a)) ps

/-- The base productions, which the merge keeps. -/
def bases : List (Production S) := ps.filter fun p => !p.incremental

/-- The place among the bases of the latest of a name. -/
def latest (name : Text) : Option Nat := lastIdx (fun p => decide (p.name = name)) ps

/-- The latest base of the name of the production in a place, at or before it. -/
def home (j : Nat) : Option Nat := ps[j]?.bind fun p => latest (bases (ps.take (j + 1))) p.name

/-- The resulting production a claim comes to. -/
def dest (c : Claim) : Option Nat := (owner ps c.start).bind (home ps)

end

/-- The members a claim may name. -/
def Claim.Proper (c : Claim) : Prop :=
  match c.kind with
  | .array => c.members = []
  | .object => (∀ m ∈ c.members, memberName m = true) ∧ c.members.Nodup

theorem objectError_eq_none {rule : Text} {names seen : List Text} :
    objectError rule seen names = none ↔
      (∀ m ∈ names, memberName m = true) ∧ (∀ m ∈ names, m ∉ seen) ∧ names.Nodup := by
  induction names generalizing seen with
  | nil => simp [objectError]
  | cons name names ih =>
    rw [objectError]
    by_cases hn : memberName name = true
    · by_cases hs : name ∈ seen
      · simp [hn, hs]
      · simp only [hn, Bool.true_eq_false, if_false, hs, ih, List.mem_cons, forall_eq_or_imp, not_or,
          List.nodup_cons, true_and, not_false_eq_true]
        constructor
        · rintro ⟨h₁, h₂, h₃⟩
          exact ⟨h₁, fun m hm => (h₂ m hm).2, fun hm => (h₂ name hm).1 rfl, h₃⟩
        · rintro ⟨h₁, h₂, h₃, h₄⟩
          exact ⟨h₁, fun m hm => ⟨fun he => h₃ (he ▸ hm), h₂ m hm⟩, h₄⟩
    · simp [hn]

theorem memberError_eq_none {c : Claim} {rule : Text} : c.memberError rule = none ↔ c.Proper := by
  unfold Claim.memberError Claim.Proper
  cases c.kind with
  | array => simp
  | object => simp [objectError_eq_none]

/-! ## The cursor -/

/-- How many productions start before an offset, counted from the front. -/
def below (ps : List (Production S)) (a : Nat) : Nat := ((ps.map Production.start).takeWhile (· < a)).length

theorem owner_eq {ps : List (Production S)} (h : Parsed ps) (a : Nat) :
    owner ps a = if below ps a = 0 then none else some (below ps a - 1) := by
  have hs : (ps.map Production.start).Pairwise (· < ·) := List.pairwise_map.2 h.increasing
  rw [owner, show (fun p : Production S => decide (p.start < a)) = (fun s => decide (s < a)) ∘ Production.start
    from rfl, ← lastIdx_map, lastIdx_takeWhile (drop_takeWhile_lt hs a)]
  rfl

theorem orderedBy_eq {ps : List (Production S)} (h : Parsed ps) : orderedBy ps = List.range ps.length := by
  have hall : (List.range ps.length).filter (fun i => (ps[i]?.bind (·.sp)).isSome) = List.range ps.length := by
    refine List.filter_eq_self.2 fun i hi => ?_
    have hlt : i < ps.length := List.mem_range.1 hi
    rw [List.getElem?_eq_getElem hlt]
    exact h.spanned _ (List.getElem_mem hlt)
  rw [orderedBy, hall]
  refine (List.pairwise_iff_getElem.2 fun i j hi hj hij => ?_ : List.Pairwise _ _).insertionSort_eq
  rw [List.length_range] at hi hj
  have hlt := List.pairwise_iff_getElem.1 h.increasing i j hi hj hij
  simp only [List.getElem_range, List.getElem?_eq_getElem hi, List.getElem?_eq_getElem hj, Option.map_some,
    Option.getD_some]
  exact hlt.le

theorem placed_eq {ps : List (Production S)} (h : Parsed ps) :
    (placed ps).map (·.2) = ps.map Production.start ∧ ∀ i < ps.length, ((placed ps)[i]?.map (·.1)) = some i := by
  unfold placed
  rw [orderedBy_eq h]
  refine ⟨List.ext_getElem (by simp) fun i hi hi' => ?_, fun i hi => by simp [hi]⟩
  have hlt : i < ps.length := by simpa using hi'
  simp [List.getElem?_eq_getElem hlt]

theorem below_le (ps : List (Production S)) (a : Nat) : below ps a ≤ ps.length := by
  have h := (List.takeWhile_prefix (· < a) (l := ps.map Production.start)).length_le
  simpa [below] using h

/-- The claim to the production a full search finds. -/
def attachFound (ps prods : List (Production S)) (c : Claim) : Except AnnotationError (List (Production S)) :=
  match owner ps c.start with
  | none => .error (.beforeAny c.body)
  | some i => annotate prods i c

/-- A claim moves the cursor to the production a full search finds. -/
theorem attachOne_eq {ps prods : List (Production S)} (h : Parsed ps) {a : Nat} {c : Claim} (ha : a ≤ c.start) :
    attachOne (placed ps) (prods, below ps a) c =
      (attachFound ps prods c).map (·, below ps c.start) := by
  obtain ⟨hstarts, hplace⟩ := placed_eq h
  have hidx : below ps a + (((placed ps).drop (below ps a)).takeWhile (·.2 < c.start)).length =
      below ps c.start := by
    have hlen : (((placed ps).drop (below ps a)).takeWhile (·.2 < c.start)).length =
        (((ps.map Production.start).drop (below ps a)).takeWhile (· < c.start)).length := by
      rw [← hstarts, ← List.map_drop, List.takeWhile_map, List.length_map]
      rfl
    rw [hlen]
    exact takeWhile_from (fun x hx => decide_eq_true ((of_decide_eq_true hx).trans_le ha)) _
  unfold attachOne attachFound
  simp only [hidx, owner_eq h]
  have hle := below_le ps c.start
  cases hb : below ps c.start with
  | zero => rfl
  | succ k =>
    obtain ⟨⟨i, s⟩, hi, rfl⟩ := Option.map_eq_some_iff.1 (hplace k (by omega))
    simp only [hi, if_neg (Nat.succ_ne_zero _), Nat.add_sub_cancel]

/-- Every claim goes where a full search over the productions puts it. -/
def attachBySearch (cs : List Claim) (ps : List (Production S)) : Except AnnotationError (List (Production S)) :=
  cs.foldlM (attachFound ps) ps

/-- Claims in increasing order. -/
def Increasing (cs : List Claim) : Prop := cs.Pairwise fun c d => c.start < d.start

/-- The cursor, which only moves forward, finds what a full search finds. -/
theorem attachClaims_eq {ps : List (Production S)} (h : Parsed ps) {cs : List Claim} (hc : Increasing cs) :
    attachClaims cs ps = attachBySearch cs ps := by
  have hne : placed ps ≠ [] := by
    intro hp
    have hlen := congrArg List.length (placed_eq h).1
    rw [hp] at hlen
    exact h.some (List.length_eq_zero_iff.1 (by simpa using hlen.symm))
  have hrun : ∀ (cs : List Claim) (prods : List (Production S)) (a : Nat), Increasing cs →
      (∀ c ∈ cs, a ≤ c.start) →
      (cs.foldlM (attachOne (placed ps)) (prods, below ps a)).map (·.1) = cs.foldlM (attachFound ps) prods := by
    intro cs
    induction cs with
    | nil => intro prods a _ _; rfl
    | cons c cs ih =>
      intro prods a hinc ha
      obtain ⟨hlt, hinc⟩ := List.pairwise_cons.1 hinc
      rw [List.foldlM_cons, attachOne_eq h (ha c List.mem_cons_self), List.foldlM_cons]
      cases hf : attachFound ps prods c with
      | error e => rfl
      | ok prods' => exact ih prods' c.start hinc fun d hd => (hlt d hd).le
  have hzero : below ps 0 = 0 := by simp [below]
  rw [attachClaims, if_neg hne, attachBySearch, ← hrun cs ps 0 hc (by simp), hzero]

/-! ## Attaching -/

/-- A production without its annotation. -/
def bareOf (p : Production S) : Production S := { p with value := none }

/-- Every claim names members it may and follows a production no other claim follows. -/
structure Attachable (ps : List (Production S)) (cs : List Claim) : Prop where
  owned : ∀ c ∈ cs, (owner ps c.start).isSome = true
  proper : ∀ c ∈ cs, c.Proper
  apart : cs.Pairwise fun c d => owner ps c.start ≠ owner ps d.start

/-- The productions with the annotations of the claims that follow them. -/
structure Attached (ps : List (Production S)) (cs : List Claim) (prods : List (Production S)) : Prop where
  same : prods.map bareOf = ps.map bareOf
  value : ∀ j p, prods[j]? = some p →
    ∀ v, p.value = some v ↔ ∃ c ∈ cs, owner ps c.start = some j ∧ c.valued = v

theorem attachable_snoc {ps : List (Production S)} {cs : List Claim} {c : Claim} :
    Attachable ps (cs ++ [c]) ↔ Attachable ps cs ∧ (owner ps c.start).isSome = true ∧ c.Proper ∧
      ∀ d ∈ cs, owner ps d.start ≠ owner ps c.start := by
  constructor
  · rintro ⟨ho, hp, ha⟩
    obtain ⟨ha₁, -, ha₂⟩ := List.pairwise_append.1 ha
    exact ⟨⟨fun d hd => ho d (by simp [hd]), fun d hd => hp d (by simp [hd]), ha₁⟩, ho c (by simp),
      hp c (by simp), fun d hd => ha₂ d hd c (by simp)⟩
  · rintro ⟨⟨ho, hp, ha⟩, hoc, hpc, hac⟩
    refine ⟨?_, ?_, List.pairwise_append.2 ⟨ha, List.pairwise_singleton _ _, fun d hd e he => ?_⟩⟩
    · simpa [or_imp, forall_and] using ⟨ho, hoc⟩
    · simpa [or_imp, forall_and] using ⟨hp, hpc⟩
    · rw [List.mem_singleton.1 he]
      exact hac d hd

theorem Attached.length {ps prods : List (Production S)} {cs : List Claim} (h : Attached ps cs prods) :
    prods.length = ps.length := by
  simpa using congrArg List.length h.same

/-- One more claim: attached to its production, or refused. -/
theorem attached_step {ps prods : List (Production S)} {cs : List Claim} (h : Attached ps cs prods) (c : Claim) :
    match attachFound ps prods c with
    | .ok prods' => ((owner ps c.start).isSome = true ∧ c.Proper ∧
        ∀ d ∈ cs, owner ps d.start ≠ owner ps c.start) ∧ Attached ps (cs ++ [c]) prods'
    | .error _ => ¬ ((owner ps c.start).isSome = true ∧ c.Proper ∧
        ∀ d ∈ cs, owner ps d.start ≠ owner ps c.start) := by
  unfold attachFound
  -- the claim has an owner, fits it, and is its first, or is refused
  cases ho : owner ps c.start with
  | none => simp
  | some i =>
    have hi : i < prods.length := by rw [h.length]; exact lastIdx_lt ho
    simp only [annotate, List.getElem?_eq_getElem hi]
    cases hm : c.memberError prods[i].name with
    | some e =>
      rintro ⟨-, hp, -⟩
      rw [memberError_eq_none.2 hp] at hm
      cases hm
    | none =>
      have hp : c.Proper := memberError_eq_none.1 hm
      have hv := h.value i prods[i] (List.getElem?_eq_getElem hi)
      cases hval : prods[i].value with
      | some v =>
        rintro ⟨-, -, hapart⟩
        obtain ⟨d, hd, hod, -⟩ := (hv v).1 hval
        exact hapart d hd hod
      | none =>
        have hfree : ∀ d ∈ cs, owner ps d.start ≠ some i := by
          intro d hd hod
          have hd' := (hv d.valued).2 ⟨d, hd, hod, rfl⟩
          rw [hval] at hd'
          cases hd'
        refine ⟨⟨rfl, hp, hfree⟩, ?_, fun j p hj v => ?_⟩
        · rw [List.map_set, ← h.same]
          refine List.ext_getElem? fun j => ?_
          by_cases hji : i = j
          · subst hji
            simp [hi, bareOf]
          · simp [hji]
        · by_cases hji : i = j
          · subst hji
            rw [List.getElem?_set_self hi] at hj
            cases hj
            simp only [Option.some.injEq, List.mem_append, List.mem_singleton, or_and_right, exists_or,
              exists_eq_left, ho, true_and]
            exact ⟨.inr, fun hc => hc.elim (fun ⟨d, hd, hod, _⟩ => absurd hod (hfree d hd)) id⟩
          · rw [List.getElem?_set_ne hji] at hj
            rw [h.value j p hj v]
            simp only [List.mem_append, List.mem_singleton, or_and_right, exists_or, exists_eq_left, ho,
              Option.some.injEq, hji, false_and, or_false]

/-- Attaching answers the annotated productions, or the claims are not attachable. -/
theorem attached_run {ps : List (Production S)} (hps : Parsed ps) (cs : List Claim) :
    match cs.foldlM (attachFound ps) ps with
    | .ok prods => Attachable ps cs ∧ Attached ps cs prods
    | .error _ => ¬ Attachable ps cs := by
  induction cs using List.reverseRecOn with
  | nil =>
    refine ⟨⟨by simp, by simp, .nil⟩, rfl, fun j p hp v => ?_⟩
    rw [hps.bare p (List.mem_of_getElem? hp)]
    simp
  | append_singleton cs c ih =>
    rw [List.foldlM_append]
    cases hr : cs.foldlM (attachFound ps) ps with
    | error e =>
      rw [hr] at ih
      exact fun h => ih (attachable_snoc.1 h).1
    | ok prods =>
      rw [hr] at ih
      have hstep := attached_step ih.2 c
      rw [show (Except.ok prods >>= fun init => [c].foldlM (attachFound ps) init) = attachFound ps prods c
        from by simp only [List.foldlM_cons, List.foldlM_nil, bind_pure]; rfl]
      cases hf : attachFound ps prods c with
      | error e =>
        rw [hf] at hstep
        exact fun h => hstep (attachable_snoc.1 h).2
      | ok prods' =>
        rw [hf] at hstep
        exact ⟨attachable_snoc.2 ⟨ih.1, hstep.1⟩, hstep.2⟩

/-! ## Merging -/

/-- Every incremental has a base, and no two annotated productions come to one base. -/
structure Mergeable (ps : List (Production S)) : Prop where
  based : ∀ j p, ps[j]? = some p → p.incremental = true → (home ps j).isSome = true
  apart : ∀ i j p q k, i < j → ps[i]? = some p → ps[j]? = some q → p.value.isSome = true →
    q.value.isSome = true → home ps i = some k → home ps j ≠ some k

/-- The bases, each with the annotation of a production that comes to it. -/
structure Merged (ps : List (Production S)) (m : Merging S) : Prop where
  kept : m.out.map (fun b => (b.name, b.sp)) = (bases ps).map fun b => (b.name, b.sp)
  byName : ∀ name, m.byName.lookup name = latest (bases ps) name
  value : ∀ k b, m.out[k]? = some b → ∀ v, b.value = some v ↔
    ∃ j p, ps[j]? = some p ∧ home ps j = some k ∧ p.value = some v

section

variable {ps : List (Production S)} {q : Production S}

theorem home_lt {j k : Nat} (h : home ps j = some k) : k < (bases ps).length := by
  obtain ⟨p, hp, hk⟩ := Option.bind_eq_some_iff.1 h
  have hle : (bases (ps.take (j + 1))).length ≤ (bases ps).length :=
    ((List.take_sublist _ ps).filter _).length_le
  exact (lastIdx_lt hk).trans_le hle

theorem home_append {j : Nat} (hj : j < ps.length) : home (ps ++ [q]) j = home ps j := by
  rw [home, home, List.getElem?_append_left hj, List.take_append_of_le_length (by omega)]

theorem home_last : home (ps ++ [q]) ps.length = latest (bases (ps ++ [q])) q.name := by
  rw [home, List.getElem?_concat_length, List.take_of_length_le (by simp)]
  rfl

theorem bases_inc (hq : q.incremental = true) : bases (ps ++ [q]) = bases ps := by
  simp [bases, List.filter_append, hq]

theorem bases_base (hq : q.incremental = false) : bases (ps ++ [q]) = bases ps ++ [q] := by
  simp [bases, List.filter_append, hq]

theorem home_base (hq : q.incremental = false) : home (ps ++ [q]) ps.length = some (bases ps).length := by
  rw [home_last, bases_base hq, latest, lastIdx_snoc, decide_eq_true rfl, if_pos rfl]

theorem getElem?_snoc {X : Type} {l : List X} {x y : X} {j : Nat} (h : (l ++ [x])[j]? = some y) :
    (j < l.length ∧ l[j]? = some y) ∨ (j = l.length ∧ x = y) := by
  by_cases hj : j < l.length
  · rw [List.getElem?_append_left hj] at h
    exact .inl ⟨hj, h⟩
  · have hj' : j = l.length := by
      have := (List.getElem?_eq_some_iff.1 h).1
      simp only [List.length_append, List.length_singleton] at this
      omega
    subst hj'
    rw [List.getElem?_concat_length] at h
    exact .inr ⟨rfl, Option.some.inj h⟩

/-- What a further production must meet for the merge to go on. -/
def Joins (ps : List (Production S)) (q : Production S) : Prop :=
  (q.incremental = true → (latest (bases ps) q.name).isSome = true) ∧
    ∀ i p k, ps[i]? = some p → p.value.isSome = true → q.value.isSome = true → home ps i = some k →
      home (ps ++ [q]) ps.length ≠ some k

theorem mergeable_snoc : Mergeable (ps ++ [q]) ↔ Mergeable ps ∧ Joins ps q := by
  have hget : ∀ {i p}, ps[i]? = some p → i < ps.length := fun h => (List.getElem?_eq_some_iff.1 h).1
  have hleft : ∀ {i p}, ps[i]? = some p → (ps ++ [q])[i]? = some p := fun h => by
    rw [List.getElem?_append_left (hget h), h]
  constructor
  · rintro ⟨hb, ha⟩
    refine ⟨⟨fun j p hj hi => ?_, fun i j p p' k hij hp hp' hv hv' hk => ?_⟩, fun hi => ?_,
      fun i p k hp hv hv' hk => ?_⟩
    · have h := hb j p (hleft hj) hi
      rwa [home_append (hget hj)] at h
    · have h := ha i j p p' k hij (hleft hp) (hleft hp') hv hv' (by rwa [home_append (hget hp)])
      rwa [home_append (hget hp')] at h
    · have h := hb ps.length q List.getElem?_concat_length hi
      rwa [home_last, bases_inc hi] at h
    · exact ha i ps.length p q k (hget hp) (hleft hp) List.getElem?_concat_length hv hv'
        (by rwa [home_append (hget hp)])
  · rintro ⟨⟨hb, ha⟩, hq, hj⟩
    refine ⟨fun j p hp hi => ?_, fun i j p p' k hij hp hp' hv hv' hk => ?_⟩
    · obtain ⟨hlt, hp⟩ | ⟨rfl, rfl⟩ := getElem?_snoc hp
      · rw [home_append hlt]
        exact hb j p hp hi
      · rw [home_last, bases_inc hi]
        exact hq hi
    · obtain ⟨hlt, hp⟩ | ⟨rfl, -⟩ := getElem?_snoc hp
      · rw [home_append hlt] at hk
        obtain ⟨hlt', hp'⟩ | ⟨rfl, rfl⟩ := getElem?_snoc hp'
        · rw [home_append hlt']
          exact ha i j p p' k hij hp hp' hv hv' hk
        · exact hj i p k hp hv hv' hk
      · have := (List.getElem?_eq_some_iff.1 hp').1
        simp only [List.length_append, List.length_singleton] at this
        omega

theorem Merged.length {m : Merging S} (h : Merged ps m) : m.out.length = (bases ps).length := by
  simpa using congrArg List.length h.kept

/-- The productions at home in a place are those before, and the last one where it is. -/
theorem exists_home_snoc {k : Nat} {P : Production S → Prop} :
    (∃ j p, (ps ++ [q])[j]? = some p ∧ home (ps ++ [q]) j = some k ∧ P p) ↔
      (∃ j p, ps[j]? = some p ∧ home ps j = some k ∧ P p) ∨ (home (ps ++ [q]) ps.length = some k ∧ P q) := by
  constructor
  · rintro ⟨j, p, hp, hj, hP⟩
    obtain ⟨hlt, hp⟩ | ⟨rfl, rfl⟩ := getElem?_snoc hp
    · exact .inl ⟨j, p, hp, by rwa [home_append hlt] at hj, hP⟩
    · exact .inr ⟨hj, hP⟩
  · rintro (⟨j, p, hp, hj, hP⟩ | ⟨hj, hP⟩)
    · have hlt := (List.getElem?_eq_some_iff.1 hp).1
      exact ⟨j, p, by rw [List.getElem?_append_left hlt, hp], by rw [home_append hlt, hj], hP⟩
    · exact ⟨ps.length, q, List.getElem?_concat_length, hj, hP⟩

/-- A base is kept after the others, with its own annotation. -/
theorem Merged.base {m : Merging S} (h : Merged ps m) (hq : q.incremental = false) :
    Joins ps q ∧ Merged (ps ++ [q]) { out := m.out ++ [clean q], byName := (q.name, m.out.length) :: m.byName } := by
  have hhome : home (ps ++ [q]) ps.length = some (bases ps).length := home_base hq
  refine ⟨⟨fun hi => absurd (hq.symm.trans hi) Bool.false_ne_true, fun i p k hp _ _ hk hlast => ?_⟩,
    ⟨?_, fun name => ?_, fun k b hk v => ?_⟩⟩
  · -- no production before it has its place
    rw [hhome] at hlast
    cases hlast
    exact absurd (home_lt hk) (lt_irrefl _)
  · rw [bases_base hq, List.map_append, List.map_append, h.kept]
    rfl
  · rw [bases_base hq, latest, lastIdx_snoc, List.lookup_cons, h.length, h.byName]
    by_cases hn : q.name = name
    · simp [hn]
    · simp [hn, beq_eq_false_iff_ne.2 (Ne.symm hn), latest]
  · rw [exists_home_snoc, hhome, ← h.length, Option.some.injEq]
    obtain ⟨hlt, hk⟩ | ⟨rfl, rfl⟩ := getElem?_snoc hk
    · rw [h.value k b hk v]
      exact ⟨.inl, fun hor => hor.resolve_right fun hlast => absurd hlt (hlast.1 ▸ lt_irrefl _)⟩
    · refine ⟨fun hv => .inr ⟨rfl, hv⟩, fun hor => (hor.resolve_left ?_).2⟩
      rintro ⟨j, p, -, hj, -⟩
      exact absurd (h.length ▸ home_lt hj) (lt_irrefl _)

/-- An incremental extends the latest base of its name, where one of the two has no annotation. -/
theorem Merged.extend {m : Merging S} (h : Merged ps m) (hq : q.incremental = true) {i : Nat}
    (hl : latest (bases ps) q.name = some i) (hi : i < m.out.length)
    (hone : ¬ (q.value.isSome = true ∧ m.out[i].value.isSome = true)) :
    Joins ps q ∧ Merged (ps ++ [q]) { m with out := m.out.modify i (extended q) } := by
  have hhome : home (ps ++ [q]) ps.length = some i := by rw [home_last, bases_inc hq, hl]
  have hvi := h.value i m.out[i] (List.getElem?_eq_getElem hi)
  refine ⟨⟨fun _ => by rw [hl]; rfl, fun j p k hp hv hqv hk hlast => ?_⟩, ?_, fun name => ?_, fun k b hk v => ?_⟩
  · -- an annotation that came to the base before is the base's
    rw [hhome] at hlast
    cases hlast
    obtain ⟨v, hv⟩ := Option.isSome_iff_exists.1 hv
    exact hone ⟨hqv, by rw [(hvi v).2 ⟨j, p, hp, hk, hv⟩]; rfl⟩
  · rw [bases_inc hq, ← h.kept]
    refine List.ext_getElem? fun j => ?_
    by_cases hji : i = j
    · subst hji
      simp [hi, extended]
    · simp [hji]
  · rw [bases_inc hq]
    exact h.byName name
  · rw [exists_home_snoc, hhome, Option.some.injEq]
    by_cases hki : i = k
    · subst hki
      rw [get_modify (List.getElem?_eq_getElem hi)] at hk
      cases hk
      simp only [extended, Option.or_eq_some_iff, ← hvi v, true_and]
      constructor
      · rintro (h | ⟨-, h⟩)
        · exact .inl h
        · exact .inr h
      · rintro (h | h)
        · exact .inl h
        · cases hb : m.out[i].value with
          | none => exact .inr ⟨rfl, h⟩
          | some u => exact absurd ⟨by rw [h]; rfl, by rw [hb]; rfl⟩ hone
    · rw [get_modify_ne hki] at hk
      rw [h.value k b hk v]
      simp [hki]

/-- One more production: merged, or refused. -/
theorem merged_step {m : Merging S} (h : Merged ps m) :
    match mergeOne m q with
    | .ok m' => Joins ps q ∧ Merged (ps ++ [q]) m'
    | .error _ => ¬ Joins ps q := by
  unfold mergeOne
  cases hq : q.incremental with
  | false => exact h.base hq
  | true =>
    simp only [if_true, h.byName]
    cases hl : latest (bases ps) q.name with
    | none =>
      rintro ⟨hj, -⟩
      have hbased := hj hq
      rw [hl] at hbased
      cases hbased
    | some i =>
      have hi : i < m.out.length := by
        rw [h.length]
        exact lastIdx_lt hl
      simp only [List.getElem?_eq_getElem hi, Option.bind_some]
      by_cases hboth : q.value.isSome = true ∧ m.out[i].value.isSome = true
      · rw [if_pos hboth]
        rintro ⟨-, hj⟩
        obtain ⟨v, hv⟩ := Option.isSome_iff_exists.1 hboth.2
        obtain ⟨j, p, hp, hk, hpv⟩ := (h.value i m.out[i] (List.getElem?_eq_getElem hi) v).1 hv
        have hhome : home (ps ++ [q]) ps.length = some i := by rw [home_last, bases_inc hq, hl]
        exact hj j p i hp (by rw [hpv]; rfl) hboth.1 hk hhome
      · rw [if_neg hboth]
        exact h.extend hq hl hi hboth

/-- The merge answers the bases with the annotations that come to them, or the productions are not
mergeable. -/
theorem merged_run (ps : List (Production S)) :
    match ps.foldlM mergeOne {} with
    | .ok m => Mergeable ps ∧ Merged ps m
    | .error _ => ¬ Mergeable ps := by
  induction ps using List.reverseRecOn with
  | nil => exact ⟨⟨by simp, by simp⟩, rfl, fun _ => rfl, by simp⟩
  | append_singleton ps q ih =>
    rw [List.foldlM_append]
    cases hr : ps.foldlM mergeOne {} with
    | error e =>
      rw [hr] at ih
      exact fun h => ih (mergeable_snoc.1 h).1
    | ok m =>
      rw [hr] at ih
      have hstep := merged_step (q := q) ih.2
      rw [show (Except.ok m >>= fun init => [q].foldlM mergeOne init) = mergeOne m q
        from by simp only [List.foldlM_cons, List.foldlM_nil, bind_pure]; rfl]
      cases hf : mergeOne m q with
      | error e =>
        rw [hf] at hstep
        exact fun h => hstep (mergeable_snoc.1 h).2
      | ok m' =>
        rw [hf] at hstep
        exact ⟨mergeable_snoc.2 ⟨ih.1, hstep.1⟩, hstep.2⟩

end

/-! ## The comments of a source -/

theorem claim?_start {comment : Comment} {c : Claim} (h : claim? comment = some c) : c.start = comment.start := by
  unfold claim? at h
  split at h
  · obtain ⟨ms, -, rfl⟩ := Option.map_eq_some_iff.1 h
    rfl
  · split at h
    · obtain ⟨ms, -, rfl⟩ := Option.map_eq_some_iff.1 h
      rfl
    · cases h

/-- The place a comment the scan is in started, or the place of the scan. -/
def Scan.origin : Scan → Nat → Nat
  | .comment start _, _ => start
  | _, i => i

theorem yielded_start {start : Nat} {body : Text} : ∀ c ∈ yielded start body, c.start = start := by
  unfold yielded
  split <;> simp

theorem yielded_pairwise (start : Nat) (body : Text) :
    (yielded start body).Pairwise fun c d => c.start < d.start := by
  unfold yielded
  split <;> simp

/-- The comments from a place on start there or later, in increasing order. -/
theorem scanComments_increasing {width : Char → Nat} (hw : ∀ c, 0 < width c) (cs : Text) (s : Scan) (i : Nat)
    (hs : ∀ start body, s = .comment start body → start < i) :
    (∀ c ∈ scanComments width s i cs, s.origin i ≤ c.start) ∧
      (scanComments width s i cs).Pairwise fun c d => c.start < d.start := by
  induction cs generalizing s i with
  | nil =>
    cases s with
    | comment start body =>
      exact ⟨fun c hc => (yielded_start c hc).ge, yielded_pairwise start body⟩
    | content => exact ⟨by simp [scanComments], .nil⟩
    | quoted close => exact ⟨by simp [scanComments], .nil⟩
  | cons ch cs ih =>
    have hi := hw ch
    cases s with
    | content =>
      -- outside a comment every state the scan goes to starts no earlier than here
      have hgo : ∀ s', (∀ start body, s' = .comment start body → start = i) →
          (∀ c ∈ scanComments width s' (i + width ch) cs, i ≤ c.start) ∧
            (scanComments width s' (i + width ch) cs).Pairwise fun c d => c.start < d.start := by
        intro s' hs'
        obtain ⟨h₁, h₂⟩ := ih s' (i + width ch) fun start body h => by rw [hs' start body h]; omega
        refine ⟨fun c hc => le_trans ?_ (h₁ c hc), h₂⟩
        cases s' with
        | comment start body => exact (hs' start body rfl).ge
        | content => exact Nat.le_add_right ..
        | quoted close => exact Nat.le_add_right ..
      rw [scanComments]
      split
      · exact hgo _ nofun
      · split
        · exact hgo _ nofun
        · split
          · exact hgo _ fun start body h => by cases h; rfl
          · exact hgo _ nofun
    | quoted close =>
      rw [scanComments]
      obtain ⟨h₁, h₂⟩ := ih (if ch = close then .content else .quoted close) (i + width ch)
        fun start body h => by split at h <;> cases h
      refine ⟨fun c hc => le_trans ?_ (h₁ c hc), h₂⟩
      split <;> exact Nat.le_add_right ..
    | comment start body =>
      have hlt : start < i := hs start body rfl
      rw [scanComments]
      split
      · obtain ⟨h₁, h₂⟩ := ih .content (i + width ch) nofun
        -- a comment ends, and what is found behind it starts behind its start
        have hle : ∀ c ∈ scanComments width .content (i + width ch) cs, start < c.start :=
          fun c hc => by have := h₁ c hc; simp only [Scan.origin] at this; omega
        refine ⟨fun c hc => ?_, List.pairwise_append.2 ⟨yielded_pairwise start body, h₂, fun c hc d hd => ?_⟩⟩
        · obtain hc | hc := List.mem_append.1 hc
          · exact (yielded_start c hc).ge
          · exact (hle c hc).le
        · rw [yielded_start c hc]
          exact hle d hd
      · exact ih (.comment start (body ++ [ch])) (i + width ch) fun _ _ h => by cases h; omega

/-- The claims among a source's comments are in increasing order. -/
theorem annotationComments_increasing {width : Char → Nat} (hw : ∀ c, 0 < width c) (src : Text) :
    Increasing ((annotationComments width src).filterMap claim?) := by
  have h := (scanComments_increasing hw src .content 0 nofun).2
  refine h.filterMap claim? fun c d hcd c' hc' d' hd' => ?_
  rw [claim?_start hc', claim?_start hd']
  exact hcd

/-! ## Both passes -/

/-- Why the two passes fail: a claim before every production, members an `@array` names, a member of
an `@object` that is no rule name or is repeated, two claims that come to one production, or an
incremental without a base before it. -/
inductive Faulty (ps : List (Production S)) (cs : List Claim) : Prop
  | beforeAny (c : Claim) (hc : c ∈ cs) (h : ∀ p ∈ ps, c.start ≤ p.start)
  | namesMembers (c : Claim) (hc : c ∈ cs) (hk : c.kind = .array) (h : c.members ≠ [])
  | notRuleName (c : Claim) (hc : c ∈ cs) (hk : c.kind = .object) (m : Text) (hm : m ∈ c.members)
      (h : memberName m = false)
  | namesTwice (c : Claim) (hc : c ∈ cs) (hk : c.kind = .object) (h : ¬ c.members.Nodup)
  | moreThanOne (i j : Nat) (c d : Claim) (k : Nat) (hne : i ≠ j) (hi : cs[i]? = some c)
      (hj : cs[j]? = some d) (hc : dest ps c = some k) (hd : dest ps d = some k)
  | noBase (j : Nat) (p : Production S) (hj : ps[j]? = some p) (hp : p.incremental = true)
      (h : ∀ i < j, ∀ b, ps[i]? = some b → b.incremental = false → b.name ≠ p.name)

section

variable {ps prods : List (Production S)} {cs : List Claim}

theorem home_isSome {j : Nat} {p : Production S} (hp : ps[j]? = some p) :
    (home ps j).isSome = true ↔
      ∃ i ≤ j, ∃ b, ps[i]? = some b ∧ b.incremental = false ∧ b.name = p.name := by
  have hnone : home ps j = none ↔ ∀ b ∈ bases (ps.take (j + 1)), b.name ≠ p.name := by
    rw [home, hp, Option.bind_some, latest, lastIdx_eq_none]
    simp
  rw [← not_iff_not, Bool.not_eq_true, Option.isSome_eq_false_iff, Option.isNone_iff_eq_none, hnone]
  constructor
  · rintro h ⟨i, hij, b, hb, hinc, hn⟩
    refine h b (List.mem_filter.2 ⟨List.mem_of_getElem? (i := i) ?_, by simp [hinc]⟩) hn
    rw [List.getElem?_take_of_lt (by omega), hb]
  · intro h b hb hn
    obtain ⟨hb, hinc⟩ := List.mem_filter.1 hb
    obtain ⟨i, hi⟩ := List.mem_iff_getElem?.1 hb
    have hlt := (List.getElem?_eq_some_iff.1 hi).1
    rw [List.length_take] at hlt
    rw [List.getElem?_take_of_lt (by omega)] at hi
    exact h ⟨i, by omega, b, hi, by simpa using hinc, hn⟩

theorem home_bare (ps : List (Production S)) (j : Nat) : home (ps.map bareOf) j = home ps j := by
  unfold home bases latest
  rw [← List.map_take, List.getElem?_map, List.filter_map]
  cases ps[j]? with
  | none => rfl
  | some p =>
    rw [Option.map_some, Option.bind_some, Option.bind_some, lastIdx_map]
    rfl

theorem Attached.home (h : Attached ps cs prods) (j : Nat) : home prods j = Passes.home ps j := by
  rw [← home_bare prods, h.same, home_bare]

theorem Attached.get (h : Attached ps cs prods) {j : Nat} {q : Production S} (hq : prods[j]? = some q) :
    ∃ p, ps[j]? = some p ∧ p.name = q.name ∧ p.incremental = q.incremental := by
  have hb : (ps.map bareOf)[j]? = some (bareOf q) := by rw [← h.same, List.getElem?_map, hq]; rfl
  rw [List.getElem?_map] at hb
  obtain ⟨p, hp, he⟩ := Option.map_eq_some_iff.1 hb
  exact ⟨p, hp, congrArg (·.name) he, congrArg (·.incremental) he⟩

/-- An annotated production is one a claim follows. -/
theorem Attached.claimed (h : Attached ps cs prods) {j : Nat} {q : Production S} (hq : prods[j]? = some q)
    (hv : q.value.isSome = true) : ∃ c ∈ cs, owner ps c.start = some j := by
  obtain ⟨v, hv⟩ := Option.isSome_iff_exists.1 hv
  obtain ⟨c, hc, ho, -⟩ := (h.value j q hq v).1 hv
  exact ⟨c, hc, ho⟩

/-- The production a claim follows is annotated. -/
theorem Attached.annotated (h : Attached ps cs prods) {c : Claim} (hc : c ∈ cs) {j : Nat}
    (ho : owner ps c.start = some j) : ∃ q, prods[j]? = some q ∧ q.value = some c.valued := by
  have hj : j < prods.length := by rw [h.length]; exact lastIdx_lt ho
  exact ⟨prods[j], List.getElem?_eq_getElem hj, (h.value j _ (List.getElem?_eq_getElem hj) _).2 ⟨c, hc, ho, rfl⟩⟩

/-- Without a fault every production comes to a base. -/
theorem home_of_not_faulty (hf : ¬ Faulty ps cs) {j : Nat} {p : Production S} (hp : ps[j]? = some p) :
    (home ps j).isSome = true := by
  rw [home_isSome hp]
  cases hi : p.incremental with
  | false => exact ⟨j, le_rfl, p, hp, hi, rfl⟩
  | true =>
    by_contra hno
    exact hf (.noBase j p hp hi fun i hij b hb hinc hn => hno ⟨i, hij.le, b, hb, hinc, hn⟩)

theorem attachable_of_not_faulty (hf : ¬ Faulty ps cs) : Attachable ps cs := by
  have howned : ∀ c ∈ cs, (owner ps c.start).isSome = true := by
    intro c hc
    by_contra hno
    have hnone : owner ps c.start = none := by simpa using hno
    refine hf (.beforeAny c hc fun p hp => ?_)
    simpa using lastIdx_eq_none.1 hnone p hp
  refine ⟨howned, fun c hc => ?_, List.pairwise_iff_getElem.2 fun i j hi hj hij he => ?_⟩
  · unfold Claim.Proper
    cases hk : c.kind with
    | array => exact by_contra fun h => hf (.namesMembers c hc hk h)
    | object =>
      refine ⟨fun m hm => ?_, by_contra fun h => hf (.namesTwice c hc hk h)⟩
      by_contra h
      exact hf (.notRuleName c hc hk m hm (by simpa using h))
  · obtain ⟨a, ha⟩ := Option.isSome_iff_exists.1 (howned cs[i] (List.getElem_mem hi))
    obtain ⟨p, hp, -⟩ := lastIdx_some ha
    obtain ⟨k, hk⟩ := Option.isSome_iff_exists.1 (home_of_not_faulty hf hp)
    exact hf (.moreThanOne i j _ _ k hij.ne (List.getElem?_eq_getElem hi) (List.getElem?_eq_getElem hj)
      (by rw [dest, ha, Option.bind_some, hk]) (by rw [dest, ← he, ha, Option.bind_some, hk]))

theorem mergeable_of_not_faulty (h : Attached ps cs prods) (hf : ¬ Faulty ps cs) : Mergeable prods := by
  refine ⟨fun j q hq _ => ?_, fun i j p q k hij hp hq hv hv' hk hk' => ?_⟩
  · obtain ⟨p, hp, -⟩ := h.get hq
    rw [h.home]
    exact home_of_not_faulty hf hp
  · obtain ⟨c, hc, ho⟩ := h.claimed hp hv
    obtain ⟨d, hd, ho'⟩ := h.claimed hq hv'
    obtain ⟨a, ha⟩ := List.mem_iff_getElem?.1 hc
    obtain ⟨b, hb⟩ := List.mem_iff_getElem?.1 hd
    rw [h.home] at hk hk'
    refine hf (.moreThanOne a b c d k ?_ ha hb (by rw [dest, ho, Option.bind_some, hk])
      (by rw [dest, ho', Option.bind_some, hk']))
    rintro rfl
    rw [ha] at hb
    cases hb
    rw [ho] at ho'
    exact hij.ne (Option.some.inj ho')

theorem not_faulty (ha : Attachable ps cs) (h : Attached ps cs prods) (hm : Mergeable prods) :
    ¬ Faulty ps cs := by
  -- each fault is ruled out by what attaching or merging has asked
  rintro (⟨c, hc, hp⟩ | ⟨c, hc, hk, hn⟩ | ⟨c, hc, hk, m, hm', hn⟩ | ⟨c, hc, hk, hn⟩ |
    ⟨i, j, c, d, k, hne, hi, hj, hck, hdk⟩ | ⟨j, p, hj, hinc, hn⟩)
  · have hnone : owner ps c.start = none := lastIdx_eq_none.2 fun p hp' => by simpa using hp p hp'
    have := ha.owned c hc
    rw [hnone] at this
    cases this
  · have := ha.proper c hc
    rw [Claim.Proper, hk] at this
    exact hn this
  · have := ha.proper c hc
    rw [Claim.Proper, hk] at this
    rw [this.1 m hm'] at hn
    cases hn
  · have := ha.proper c hc
    rw [Claim.Proper, hk] at this
    exact hn this.2
  · obtain ⟨a, hoa, hka⟩ := Option.bind_eq_some_iff.1 hck
    obtain ⟨b, hob, hkb⟩ := Option.bind_eq_some_iff.1 hdk
    obtain ⟨p, hp, hpv⟩ := h.annotated (List.mem_of_getElem? hi) hoa
    obtain ⟨q, hq, hqv⟩ := h.annotated (List.mem_of_getElem? hj) hob
    -- the two claims belong to two productions of one base, both of which hold a value then
    have hab : a ≠ b := by
      rintro rfl
      obtain ⟨hil, hic⟩ := List.getElem?_eq_some_iff.1 hi
      obtain ⟨hjl, hjd⟩ := List.getElem?_eq_some_iff.1 hj
      obtain hij | hij := hne.lt_or_gt
      · exact List.pairwise_iff_getElem.1 ha.apart i j hil hjl hij (by rw [hic, hjd, hoa, hob])
      · exact List.pairwise_iff_getElem.1 ha.apart j i hjl hil hij (by rw [hic, hjd, hoa, hob])
    rw [← h.home] at hka hkb
    obtain hlt | hlt := hab.lt_or_gt
    · exact hm.apart a b p q k hlt hp hq (by rw [hpv]; rfl) (by rw [hqv]; rfl) hka hkb
    · exact hm.apart b a q p k hlt hq hp (by rw [hqv]; rfl) (by rw [hpv]; rfl) hkb hka
  · have hlt : j < prods.length := by rw [h.length]; exact (List.getElem?_eq_some_iff.1 hj).1
    obtain ⟨p', hp', hname, hinc'⟩ := h.get (List.getElem?_eq_getElem hlt)
    rw [hj] at hp'
    cases hp'
    have hs := hm.based j _ (List.getElem?_eq_getElem hlt) (hinc'.symm.trans hinc)
    rw [h.home, home_isSome hj] at hs
    obtain ⟨i, hij, b, hb, hbi, hbn⟩ := hs
    obtain hij | rfl := hij.lt_or_eq
    · exact hn i hij b hb hbi hbn
    · rw [hj] at hb
      cases hb
      rw [hinc] at hbi
      cases hbi

theorem countP_eq_range {X : Type} (P : X → Bool) (l : List X) :
    l.countP P = ((List.range l.length).filter fun k => l[k]?.any P).length := by
  induction l using List.reverseRecOn with
  | nil => rfl
  | append_singleton l x ih =>
    have hleft : (List.range l.length).filter (fun k => (l ++ [x])[k]?.any P) =
        (List.range l.length).filter fun k => l[k]?.any P :=
      List.filter_congr fun k hk => by rw [List.getElem?_append_left (List.mem_range.1 hk)]
    rw [List.length_append, List.length_singleton, List.range_succ, List.filter_append, hleft,
      List.length_append, ← ih, List.countP_append]
    cases hx : P x <;> simp [hx]

/-- The claims' places in a list of productions, one for each annotated production. -/
theorem count_annotated {out : List (Production S)} {f : Claim → Option Nat}
    (hsite : ∀ c ∈ cs, ∃ k b, f c = some k ∧ out[k]? = some b ∧ b.value = some c.valued)
    (hapart : cs.Pairwise fun c d => f c ≠ f d)
    (hclaim : ∀ k b, out[k]? = some b → b.value.isSome = true → ∃ c ∈ cs, f c = some k) :
    out.countP (fun b => b.value.isSome) = cs.length := by
  have hlen : (cs.map f).length = ((cs.map f).reduceOption).length := by
    symm
    rw [List.reduceOption_length_eq_iff]
    intro x hx
    obtain ⟨c, hc, rfl⟩ := List.mem_map.1 hx
    obtain ⟨k, b, hk, -⟩ := hsite c hc
    rw [hk]
    rfl
  have hnodup : (cs.map f).reduceOption.Nodup := by
    rw [List.reduceOption, List.Nodup, List.pairwise_filterMap, List.pairwise_map]
    exact hapart.imp fun hne a ha b hb hab => hne (by rw [show f _ = some a from ha, show f _ = some b from hb, hab])
  rw [countP_eq_range, ← @List.length_map _ _ cs f, hlen]
  refine List.Perm.length_eq ((List.perm_ext_iff_of_nodup (List.nodup_range.filter _) hnodup).2 fun k => ?_)
  rw [List.mem_filter, List.mem_range, List.reduceOption_mem_iff, List.mem_map]
  constructor
  · rintro ⟨hk, hv⟩
    rw [List.getElem?_eq_getElem hk] at hv
    exact hclaim k _ (List.getElem?_eq_getElem hk) hv
  · rintro ⟨c, hc, hk⟩
    obtain ⟨k', b, hk', hb, hv⟩ := hsite c hc
    rw [hk] at hk'
    cases hk'
    exact ⟨(List.getElem?_eq_some_iff.1 hb).1, by rw [hb]; simp [hv]⟩

theorem Attached.bases (h : Attached ps cs prods) :
    (Passes.bases prods).map (fun b => (b.name, b.sp)) = (Passes.bases ps).map fun b => (b.name, b.sp) := by
  have hb : ∀ l : List (Production S), (Passes.bases l).map (fun b => (b.name, b.sp)) =
      (Passes.bases (l.map bareOf)).map fun b => (b.name, b.sp) := by
    intro l
    rw [Passes.bases, Passes.bases, List.filter_map, List.map_map]
    rfl
  rw [hb prods, h.same, ← hb]

/-- Each claim is on the production it comes to. -/
theorem Attached.site (h : Attached ps cs prods) (ha : Attachable ps cs) (hm : Mergeable prods) {m : Merging S}
    (hmerged : Merged prods m) {c : Claim} (hc : c ∈ cs) :
    ∃ k b, dest ps c = some k ∧ m.out[k]? = some b ∧ b.value = some c.valued := by
  obtain ⟨j, ho⟩ := Option.isSome_iff_exists.1 (ha.owned c hc)
  obtain ⟨q, hq, hqv⟩ := h.annotated hc ho
  obtain ⟨p, hp, -⟩ := h.get hq
  obtain ⟨k, hk⟩ := Option.isSome_iff_exists.1 (home_of_not_faulty (not_faulty ha h hm) hp)
  have hk' : Passes.home prods j = some k := by rw [h.home, hk]
  have hlt : k < m.out.length := by rw [hmerged.length]; exact home_lt hk'
  refine ⟨k, m.out[k], by rw [dest, ho, Option.bind_some, hk], List.getElem?_eq_getElem hlt, ?_⟩
  exact (hmerged.value k _ (List.getElem?_eq_getElem hlt) _).2 ⟨j, q, hq, hk', hqv⟩

/-- An annotated production is one a claim comes to. -/
theorem Attached.dest (h : Attached ps cs prods) {m : Merging S} (hmerged : Merged prods m) {k : Nat}
    {b : Production S} (hb : m.out[k]? = some b) (hv : b.value.isSome = true) :
    ∃ c ∈ cs, Passes.dest ps c = some k := by
  obtain ⟨v, hv⟩ := Option.isSome_iff_exists.1 hv
  obtain ⟨j, q, hq, hk, hqv⟩ := (hmerged.value k b hb v).1 hv
  obtain ⟨c, hc, ho⟩ := h.claimed hq (by rw [hqv]; rfl)
  exact ⟨c, hc, by rw [Passes.dest, ho, Option.bind_some, ← h.home, hk]⟩

/-- No two claims come to one production. -/
theorem dest_apart (hf : ¬ Faulty ps cs) (hsite : ∀ c ∈ cs, ∃ k, dest ps c = some k) :
    cs.Pairwise fun c d => dest ps c ≠ dest ps d := by
  refine List.pairwise_iff_getElem.2 fun i j hi hj hij he => ?_
  obtain ⟨k, hk⟩ := hsite cs[i] (List.getElem_mem hi)
  exact hf (.moreThanOne i j _ _ k hij.ne (List.getElem?_eq_getElem hi) (List.getElem?_eq_getElem hj) hk
    (he.symm.trans hk))

end

/-- What the two passes answer: the cursor gives each claim the owner a full search would, also past
comments that claim nothing; the bases are kept, every claim is on its `dest`, no two claims on one,
and no other production is annotated; and the passes fail exactly when the productions or the claims
are faulty. -/
theorem attachAndMerge_conserves {ps : List (Production S)} (hps : Parsed ps) {cs : List Claim}
    (hc : Increasing cs) :
    (attachClaims cs ps = attachBySearch cs ps ∧
      ∀ comments, comments.filterMap claim? = cs → attachComments comments ps = attachBySearch cs ps) ∧
    (∀ out, attachAndMerge cs ps = .ok out →
      out.map (fun b => (b.name, b.sp)) = (bases ps).map (fun b => (b.name, b.sp)) ∧
      (∀ c ∈ cs, ∃ k b, dest ps c = some k ∧ out[k]? = some b ∧ b.value = some c.valued) ∧
      cs.Pairwise (fun c d => dest ps c ≠ dest ps d) ∧
      (∀ k b, out[k]? = some b → b.value.isSome = true → ∃ c ∈ cs, dest ps c = some k) ∧
      out.countP (fun b => b.value.isSome) = cs.length) ∧
    ((∃ e, attachAndMerge cs ps = .error e) ↔ Faulty ps cs) := by
  have hsearch := attachClaims_eq hps hc
  refine ⟨⟨hsearch, fun comments he => by rw [Passes.attachComments_eq, he, hsearch]⟩, ?_⟩
  unfold attachAndMerge mergeIncrementals
  rw [hsearch, attachBySearch]
  -- attaching ends in an error or in the productions that carry their claims, and so does merging them
  have hattach := attached_run hps cs
  cases hr : cs.foldlM (attachFound ps) ps with
  | error e =>
    rw [hr] at hattach
    refine ⟨fun out h => (nomatch h), ⟨fun _ => ?_, fun _ => ⟨_, rfl⟩⟩⟩
    by_contra hf
    exact hattach (attachable_of_not_faulty hf)
  | ok prods =>
    rw [hr] at hattach
    obtain ⟨ha, h⟩ := hattach
    have hmerge := merged_run prods
    cases hm : prods.foldlM mergeOne {} with
    | error e =>
      rw [hm] at hmerge
      simp only [hm, Except.map]
      refine ⟨fun out h => (nomatch h), ⟨fun _ => ?_, fun _ => ⟨_, rfl⟩⟩⟩
      by_contra hf
      exact hmerge (mergeable_of_not_faulty h hf)
    | ok m =>
      rw [hm] at hmerge
      obtain ⟨hm', hmerged⟩ := hmerge
      have hf := not_faulty ha h hm'
      simp only [hm, Except.map]
      refine ⟨fun out ho => ?_, ⟨fun ⟨_, he⟩ => (by cases he), fun hfault => absurd hfault hf⟩⟩
      cases ho
      have hsite := fun c (hc : c ∈ cs) => h.site ha hm' hmerged hc
      have hapart := dest_apart hf fun c hc => (hsite c hc).imp fun k ⟨_, hk, _⟩ => hk
      exact ⟨hmerged.kept.trans h.bases, hsite, hapart, fun k b hb hv => h.dest hmerged hb hv,
        count_annotated hsite hapart fun k b hb hv => h.dest hmerged hb hv⟩

/-- `b` and the increment of `a` are annotated: the second annotation comes to the base of `a`. -/
theorem attachAndMerge_conserves_incremental :
    let src := "a = \"1\"\nb = \"2\" ; @array\na =/ \"3\" ; @object x y\n".toList
    ∃ out, attachAndMerge ((annotationComments utf16Encoding.width src).filterMap claim?)
        [⟨['a'], [1], false, some ⟨0, 1, 1, 1⟩, none⟩, ⟨['b'], [2], false, some ⟨8, 9, 2, 1⟩, none⟩,
          ⟨['a'], [3], true, some ⟨25, 26, 3, 1⟩, none⟩] = .ok out ∧
      out.map (fun b => (b.name, b.sp)) = [(['a'], some ⟨0, 1, 1, 1⟩), (['b'], some ⟨8, 9, 2, 1⟩)] ∧
      out.countP (fun b => b.value.isSome) = 2 := by
  intro src
  refine ⟨[⟨['a'], [1, 3], false, some ⟨0, 1, 1, 1⟩, some (.object [['x'], ['y']])⟩,
    ⟨['b'], [2], false, some ⟨8, 9, 2, 1⟩, some .array⟩], by decide +kernel, ?_⟩
  have hps : Parsed [⟨['a'], [1], false, some ⟨0, 1, 1, 1⟩, none⟩,
      ⟨['b'], [2], false, some ⟨8, 9, 2, 1⟩, none⟩, ⟨['a'], [3], true, some ⟨25, 26, 3, 1⟩, none⟩] :=
    ⟨by decide, by decide, by decide, by decide⟩
  have hc := annotationComments_increasing utf16Encoding.width_pos src
  have hall :=
    (attachAndMerge_conserves hps hc).2.1 [⟨['a'], [1, 3], false, some ⟨0, 1, 1, 1⟩, some (.object [['x'], ['y']])⟩,
    ⟨['b'], [2], false, some ⟨8, 9, 2, 1⟩, some .array⟩] (by decide +kernel)
  exact ⟨hall.1, hall.2.2.2.2⟩

end TabnasAbnf.Passes
