/-
References written back. The compiler puts a referenced rule's alternatives in place of a reference that
leads an alternative; the render looks for such runs among a rule's alternatives and writes the reference
again, one rule at a time, against the alternatives the rules had in the spec.
-/
import Mathlib.Data.List.GetD
import Mathlib.Data.Prod.Lex
import TabnasAbnf.Base.Cycle
import TabnasAbnf.Render.DirectCore
import TabnasAbnf.Render.Elements

namespace TabnasAbnf.Render

open TabnasAbnf.Base Relation

/-! ## The rules the text can name -/

/-- The start wrapper pushes the grammar's start rule. -/
def abnfStartRule (cx : Context) : Text :=
  let r := abnfRule cx cx.start
  if abnfWrapper r then abnfP (abnfOpen r).head? else cx.start

/-- Whether a rule is one the author wrote. -/
def isUser (cx : Context) (name : Text) : Out Bool :=
  (abnfMade cx name).bind fun made => .done (!made && abnfSame (abnfKind (abnfRule cx name)) "user".toList)

/-- The rules of the text, the start rule first. -/
def abnfOrdered (cx : Context) : Out (List Text) :=
  (Run.select (isUser cx) (cx.rules.map Prod.fst)).bind fun names =>
    .done (abnfStartRule cx :: names.filter fun n => !abnfSame n (abnfStartRule cx))

/-- The rules a reference can be written back to. -/
def abnfNamed (cx : Context) : Out (List Text) :=
  (abnfOrdered cx).bind fun ordered => (abnfDirectCore cx).bind fun direct => .done (ordered ++ direct)

/-! ## Candidates -/

/-- A rule with its alternatives' keys. -/
structure Cand where
  name : Text
  keys : List (List Text)
  deriving DecidableEq, Repr

def abnfAliasKeys (ks : List (List Text)) : Bool :=
  match ks with
  | [[k]] => abnfStarts ['@'] k
  | _ => false

def altKeys (cx : Context) (fuel : Nat) (alts : List Seq) : Out (List (List Text)) :=
  Run.each (abnfSeqKeys cx fuel) alts

def abnfCandidates (cx : Context) (fuel : Nat) (names : List Text) : Out (List Cand) :=
  (Run.each (fun n => (abnfAlts cx fuel n).bind fun alts => (altKeys cx fuel alts).bind fun keys => .done ⟨n, keys⟩)
    names).bind
    fun cs => .done (cs.filter fun c => !abnfAliasKeys c.keys)

/-- Whether alternatives are one alternative of one reference to a rule. -/
def abnfAlias (cx : Context) (alts : List Seq) : Out Bool :=
  match alts with
  | [[.ref name]] => (abnfHelperKind cx name).bind fun kind => .done (kind = some [])
  | _ => .done false

/-- Whether the alternative's keys begin with the candidate alternative's, and what follows them. -/
def abnfPrefixTail (ks cs : List Text) : Text :=
  if ks.length < cs.length then ['\x00']
  else if abnfSame (stringJoin ['\x01'] (ks.take cs.length)) (stringJoin ['\x01'] cs) then
    stringJoin ['\x01'] (ks.drop cs.length)
  else ['\x00']

/-- Whether the candidate's alternatives, each followed by one same tail, stand from place `i` on. -/
def abnfCandMatches (c : Cand) (ka : List (List Text)) (i : Nat) : Out Bool :=
  if ka.length < i + c.keys.length then .done false
  else (Run.ofOption c.keys.head?).bind fun cs =>
    let first := abnfPrefixTail (ka.getD i []) cs
    .done (decide (first ≠ ['\x00']) && ((List.range c.keys.length).filter fun j =>
      !abnfSame (abnfPrefixTail (ka.getD (i + j) []) (c.keys.getD j [])) first).isEmpty)

/-- The candidate, other than the rule itself, that stands at place `i`: the one with the most alternatives,
and the first of those. -/
def abnfCandAt (cands : List Cand) (ka : List (List Text)) (i : Nat) (self : Text) : Out (Option Cand) :=
  (Run.select (fun (c : Cand) => if abnfSame c.name self then .done false else abnfCandMatches c ka i) cands).bind
    fun hits =>
    .done (hits.filter fun c => (hits.filter fun d => decide (c.keys.length < d.keys.length)).isEmpty).head?

/-! ## A rule's alternatives with the references written back -/

/-- Whether the run at place `j` covers the later place `i`. -/
def covers (best : List (Option Cand)) (j i : Nat) : Bool :=
  (best[j]?.join).any fun c => decide (j < i) && decide (i < j + c.keys.length)

/-- Whether a run stands at a place that no run before it covers. -/
def accepted (best : List (Option Cand)) (i : Nat) : Bool :=
  (best[i]?.join).isSome && ((List.range best.length).filter fun j => covers best j i).isEmpty

/-- What is written for the alternative at place `i`. -/
def abnfUnsubAt (alts : List Seq) (best : List (Option Cand)) (i : Nat) : List Seq :=
  match if accepted best i then best[i]?.join else none with
  | some c => [.ref c.name :: (alts.getD i []).drop (c.keys.headD []).length]
  | none =>
    if ((List.range best.length).filter fun j => accepted best j && covers best j i).isEmpty then
      [alts.getD i []] else []

/-- The candidates that stand at the places of a rule's alternatives. -/
def bestCands (cx : Context) (fuel : Nat) (cands : List Cand) (self : Text) (alts : List Seq) :
    Out (List (Option Cand)) :=
  (altKeys cx fuel alts).bind fun ka => Run.each (fun i => abnfCandAt cands ka i self) (List.range alts.length)

def unsubOut (alts : List Seq) (best : List (Option Cand)) : List Seq :=
  (List.range alts.length).flatMap (abnfUnsubAt alts best)

def abnfUnsub (cx : Context) (fuel : Nat) (cands : List Cand) (self : Text) (alts : List Seq) : Out (List Seq) :=
  if cands.isEmpty then .done alts
  else (bestCands cx fuel cands self alts).bind fun best =>
    (abnfAlias cx (unsubOut alts best)).bind fun isAlias => .done (if isAlias then alts else unsubOut alts best)

/-- The alternatives written for a rule. -/
def written (cx : Context) (fuel : Nat) (cands : List Cand) (name : Text) : Out (List Seq) :=
  (abnfAlts cx fuel name).bind fun alts => abnfUnsub cx fuel cands name alts

/-! ## What a match says -/

theorem abnfPrefixTail_ne {ks cs : List Text} (h : abnfPrefixTail ks cs ≠ ['\x00']) :
    cs.length ≤ ks.length ∧ stringJoin ['\x01'] (ks.take cs.length) = stringJoin ['\x01'] cs := by
  unfold abnfPrefixTail at h
  split at h
  · exact absurd rfl h
  · rename_i hlen
    split at h
    · rename_i hsame
      exact ⟨by omega, abnfSame_iff.1 hsame⟩
    · exact absurd rfl h

/-- A candidate that stands at a place has one tail behind all its alternatives. -/
theorem abnfCandMatches_tail {c : Cand} {ka : List (List Text)} {i : Nat} (h : abnfCandMatches c ka i = .done true) :
    i + c.keys.length ≤ ka.length ∧ 0 < c.keys.length ∧
      ∃ tail, tail ≠ ['\x00'] ∧ ∀ j < c.keys.length, abnfPrefixTail (ka.getD (i + j) []) (c.keys.getD j []) = tail := by
  unfold abnfCandMatches at h
  split at h
  · cases h
  · rename_i hlen
    obtain ⟨cs, hcs, h⟩ := Run.bind_eq_done h
    have hpos : 0 < c.keys.length := by
      rcases hk : c.keys with _ | ⟨k, ks⟩
      · rw [hk] at hcs
        cases hcs
      · exact Nat.succ_pos _
    simp only [Run.done.injEq, Bool.and_eq_true, decide_eq_true_eq, List.isEmpty_iff, List.filter_eq_nil_iff,
      List.mem_range,
      Bool.not_eq_true', Bool.not_eq_false, abnfSame_iff] at h
    exact ⟨by omega, hpos, _, h.1, h.2⟩

theorem abnfCandMatches_spec {c : Cand} {ka : List (List Text)} {i : Nat} (h : abnfCandMatches c ka i = .done true) :
    i + c.keys.length ≤ ka.length ∧ 0 < c.keys.length ∧
      ∀ j < c.keys.length, abnfPrefixTail (ka.getD (i + j) []) (c.keys.getD j []) ≠ ['\x00'] := by
  obtain ⟨hlen, hpos, tail, hne, hall⟩ := abnfCandMatches_tail h
  exact ⟨hlen, hpos, fun j hj => by rwa [hall j hj]⟩

theorem abnfCandAt_spec {cands : List Cand} {ka : List (List Text)} {i : Nat} {self : Text} {c : Cand}
    (h : abnfCandAt cands ka i self = .done (some c)) :
    c ∈ cands ∧ c.name ≠ self ∧ abnfCandMatches c ka i = .done true := by
  obtain ⟨hits, hh, h⟩ := Run.bind_eq_done h
  have hc : c ∈ hits := List.mem_of_mem_filter (List.mem_of_mem_head? (Run.done.inj h))
  obtain ⟨hmem, hp⟩ := (Run.mem_select hh).1 hc
  split at hp
  · cases hp
  · rename_i hne
    exact ⟨hmem, fun he => hne (abnfSame_iff.2 he), hp⟩

theorem mem_abnfCandidates {cx : Context} {fuel : Nat} {names : List Text} {cands : List Cand}
    (h : abnfCandidates cx fuel names = .done cands) {c : Cand} (hc : c ∈ cands) :
    c.name ∈ names ∧ ∃ alts, abnfAlts cx fuel c.name = .done alts ∧ altKeys cx fuel alts = .done c.keys := by
  obtain ⟨all, hall, h⟩ := Run.bind_eq_done h
  cases h
  obtain ⟨n, hn, hk⟩ := Run.mem_each hall (List.mem_of_mem_filter hc)
  obtain ⟨alts, halts, hk⟩ := Run.bind_eq_done hk
  obtain ⟨keys, hkeys, he⟩ := Run.bind_eq_done hk
  cases he
  exact ⟨hn, alts, halts, hkeys⟩

/-! ## The measure -/

/-- How many alternatives, and how many elements in all. -/
def weight (ka : List (List Text)) : Nat ×ₗ Nat := toLex (ka.length, (ka.map List.length).sum)

theorem sum_le_of_forall₂ {xs ys : List Nat} (h : List.Forall₂ (· ≤ ·) xs ys) :
    xs.sum ≤ ys.sum ∧ (ys.sum ≤ xs.sum → xs = ys) := by
  induction h with
  | nil => exact ⟨le_refl _, fun _ => rfl⟩
  | cons hxy _ ih =>
    obtain ⟨hle, heq⟩ := ih
    rw [List.sum_cons, List.sum_cons]
    refine ⟨by omega, fun hge => ?_⟩
    rw [heq (by omega), show _ = _ from le_antisymm hxy (by omega)]

/-- A candidate that stands at a place of a rule's alternatives weighs no more than the rule; if it weighs as
much, it is all of them. -/
theorem weight_le {c : Cand} {ka : List (List Text)} {i : Nat} (h : abnfCandMatches c ka i = .done true) :
    weight c.keys ≤ weight ka ∧ (weight c.keys = weight ka → i = 0 ∧ c.keys.map List.length = ka.map List.length) := by
  obtain ⟨hlen, hpos, hall⟩ := abnfCandMatches_spec h
  unfold weight
  rcases Nat.lt_or_ge c.keys.length ka.length with hlt | hge
  · refine ⟨(Prod.Lex.toLex_lt_toLex.2 (.inl hlt)).le, fun he => ?_⟩
    exact absurd (congrArg Prod.fst (toLex_inj.1 he)) (Nat.ne_of_lt hlt)
  · obtain rfl : i = 0 := by omega
    have heq : c.keys.length = ka.length := by omega
    have hfor : List.Forall₂ (· ≤ ·) (c.keys.map List.length) (ka.map List.length) := by
      rw [List.forall₂_iff_get]
      refine ⟨by simpa using heq, fun j hj hj' => ?_⟩
      rw [List.length_map] at hj hj'
      have hle := (abnfPrefixTail_ne (hall j hj)).1
      rw [Nat.zero_add, List.getD_eq_getElem _ _ hj, List.getD_eq_getElem _ _ hj'] at hle
      simpa using hle
    obtain ⟨hle, hsame⟩ := sum_le_of_forall₂ hfor
    refine ⟨Prod.Lex.toLex_le_toLex.2 (.inr ⟨heq, hle⟩), fun he => ⟨rfl, hsame ?_⟩⟩
    exact (congrArg Prod.snd (toLex_inj.1 he)).ge

/-! ## What is written -/

theorem abnfUnsubAt_accepted {alts : List Seq} {best : List (Option Cand)} {i : Nat} {c : Cand}
    (hacc : accepted best i = true) (hbest : best[i]?.join = some c) :
    abnfUnsubAt alts best i = [.ref c.name :: (alts.getD i []).drop (c.keys.headD []).length] := by
  rw [abnfUnsubAt, if_pos hacc, hbest]

/-- What is written is an alternative of the rule, or begins with a reference to a candidate that stands at an
accepted place. -/
theorem mem_unsubOut {alts : List Seq} {best : List (Option Cand)} {seq : Seq} (h : seq ∈ unsubOut alts best) :
    seq ∈ alts ∨ ∃ i c, i < alts.length ∧ accepted best i = true ∧ best[i]?.join = some c ∧
      seq = .ref c.name :: (alts.getD i []).drop (c.keys.headD []).length := by
  obtain ⟨i, hi, hseq⟩ := List.mem_flatMap.1 h
  rw [List.mem_range] at hi
  unfold abnfUnsubAt at hseq
  split at hseq
  · rename_i c hc
    rcases Bool.eq_false_or_eq_true (accepted best i) with ha | ha
    · rw [if_pos ha] at hc
      exact .inr ⟨i, c, hi, ha, hc, List.mem_singleton.1 hseq⟩
    · rw [if_neg (by simp [ha])] at hc
      cases hc
  · split at hseq
    · rw [List.mem_singleton.1 hseq, List.getD_eq_getElem _ _ hi]
      exact .inl (List.getElem_mem hi)
    · cases hseq

/-- A candidate that is all of a rule's alternatives is written as one reference. -/
theorem unsubOut_whole {alts : List Seq} {best : List (Option Cand)} {c : Cand} (hacc : accepted best 0 = true)
    (hbest : best[0]?.join = some c) (hpos : 0 < alts.length) (hlen : best.length = alts.length)
    (hkeys : c.keys.map List.length = alts.map List.length) : unsubOut alts best = [[.ref c.name]] := by
  have hcount : c.keys.length = alts.length := by simpa using congrArg List.length hkeys
  have hnone : ∀ i, 0 < i → i < alts.length → abnfUnsubAt alts best i = [] := by
    intro i hi hlt
    have hcov : covers best 0 i = true := by
      rw [covers, hbest, Option.any_some, Bool.and_eq_true, decide_eq_true_eq, decide_eq_true_eq]
      omega
    have h0 : 0 ∈ List.range best.length := List.mem_range.2 (by omega)
    have hrej : accepted best i ≠ true := by
      intro ha
      rw [accepted, Bool.and_eq_true, List.isEmpty_iff, List.filter_eq_nil_iff] at ha
      exact ha.2 0 h0 hcov
    rw [abnfUnsubAt, if_neg hrej, if_neg]
    rw [List.isEmpty_iff, List.filter_eq_nil_iff]
    exact fun hall => hall 0 h0 (by rw [hacc, hcov]; rfl)
  obtain ⟨n, hn⟩ : ∃ n, alts.length = n + 1 := ⟨alts.length - 1, by omega⟩
  rw [unsubOut, hn, List.range_succ_eq_map, List.flatMap_cons, abnfUnsubAt_accepted hacc hbest,
    List.flatMap_eq_nil_iff.2 fun i hi => ?_]
  · -- nothing follows the reference
    have hdrop : (alts.getD 0 []).length = (c.keys.headD []).length := by
      rcases alts with _ | ⟨seq, alts⟩
      · cases hn
      · rcases hk : c.keys with _ | ⟨k, ks⟩
        · rw [hk] at hcount
          cases hcount
        · rw [hk] at hkeys
          exact (List.cons.inj hkeys).1.symm
    rw [List.drop_eq_nil_of_le hdrop.le, List.append_nil]
  · obtain ⟨j, hj, rfl⟩ := List.mem_map.1 hi
    rw [List.mem_range] at hj
    exact hnone (j + 1) (by omega) (by omega)

/-! ## Leading references -/

section

variable (cx : Context) (fuel : Nat) (cands : List Cand)

/-- An alternative written for `x` begins with a reference to `y` that was not there. -/
def Introduces (x y : Text) : Prop :=
  ∃ alts best, abnfAlts cx fuel x = .done alts ∧ bestCands cx fuel cands x alts = .done best ∧
    abnfAlias cx (unsubOut alts best) = .done false ∧
    ∃ i c, i < alts.length ∧ accepted best i = true ∧ best[i]?.join = some c ∧ c.name = y

/-- An alternative begins with a reference to a rule, one that the text writes by its name. -/
def Leads (alts : List Seq) (y : Text) : Prop := (∃ rest, .ref y :: rest ∈ alts) ∧ abnfHelperKind cx y = .done (some [])

/-- An alternative of the rule `x` begins with a reference to `y`. -/
def RuleLeads (x y : Text) : Prop := ∃ alts, abnfAlts cx fuel x = .done alts ∧ Leads cx alts y

/-- An alternative written for the rule `x` does. -/
def WrittenLeads (x y : Text) : Prop := ∃ alts, written cx fuel cands x = .done alts ∧ Leads cx alts y

/-- Elements' keys tell references from other elements, and joined keys can be taken apart. -/
def KeysApart : Prop :=
  ∀ x alts, abnfAlts cx fuel x = .done alts → ∀ seq ∈ alts, ∀ el ∈ seq, ∀ k, abnfKey cx fuel el = .done k →
    '\x01' ∉ k ∧ ∀ z, k = '@' :: z → el = .ref z

variable {cx fuel cands}

/-- The keys of a rule's alternatives. -/
theorem altKeys_get {alts : List Seq} {ka : List (List Text)} (h : altKeys cx fuel alts = .done ka) :
    ka.map List.length = alts.map List.length ∧
      ∀ i (hi : i < alts.length) (hi' : i < ka.length), abnfSeqKeys cx fuel alts[i] = .done ka[i] := by
  have hfor := Run.each_eq_done h
  refine ⟨?_, fun i hi hi' => hfor.get (i := i) hi hi'⟩
  clear h
  induction hfor with
  | nil => rfl
  | cons hk _ ih => rw [List.map_cons, List.map_cons, ih, (Run.each_eq_done hk).length_eq]

theorem KeysApart.no_joint (happ : KeysApart cx fuel) {x : Text} {alts : List Seq} {seq : Seq} {ks : List Text}
    (halts : abnfAlts cx fuel x = .done alts) (hseq : seq ∈ alts) (hks : abnfSeqKeys cx fuel seq = .done ks) :
    ∀ k ∈ ks, '\x01' ∉ k := by
  intro k hk
  obtain ⟨el, hel, hkey⟩ := Run.mem_each hks hk
  exact (happ x alts halts seq hseq el hel k hkey).1

theorem stringJoin_injective {c : Char} {xs ys : List Text} (hlen : xs.length = ys.length) (hx : ∀ x ∈ xs, c ∉ x)
    (hy : ∀ y ∈ ys, c ∉ y) (h : stringJoin [c] xs = stringJoin [c] ys) : xs = ys := by
  rcases xs with _ | ⟨x, xs⟩
  · exact (List.length_eq_zero_iff.1 hlen.symm).symm
  · have hne : ys ≠ [] := by
      rintro rfl
      cases hlen
    rw [← List.splitOn_intercalate c hx (List.cons_ne_nil _ _), ← List.splitOn_intercalate c hy hne]
    exact congrArg _ h

/-- The key of a reference written by its name. -/
theorem abnfKey_ref {z k : Text} (hkind : abnfHelperKind cx z = .done (some []))
    (h : abnfKey cx fuel (.ref z) = .done k) :
    k = '@' :: z := by
  rcases fuel with _ | n
  · cases h
  · rw [abnfKey, iterate, keyBody, hkind, Run.done_bind, if_pos rfl] at h
    exact (Run.done.inj h).symm

/-- The candidate at a place is the one found there. -/
theorem bestCands_at {self : Text} {alts : List Seq} {best : List (Option Cand)} {i : Nat} {c : Cand}
    (hbest : bestCands cx fuel cands self alts = .done best) (hc : best[i]?.join = some c) :
    ∃ ka, altKeys cx fuel alts = .done ka ∧ best.length = alts.length ∧
      abnfCandAt cands ka i self = .done (some c) := by
  obtain ⟨ka, hka, hbest⟩ := Run.bind_eq_done hbest
  have hfor := Run.each_eq_done hbest
  have hlen : best.length = alts.length := by rw [← hfor.length_eq, List.length_range]
  obtain ⟨hi, hget⟩ := List.getElem?_eq_some_iff.1 (Option.join_eq_some_iff.1 hc)
  have hat := hfor.get (i := i) (by rw [List.length_range, ← hlen]; exact hi) hi
  simp only [List.get_eq_getElem, List.getElem_range, hget] at hat
  exact ⟨ka, hka, hlen, hat⟩

/-- The elements written for a rule are its own, and references to candidates. -/
theorem written_els {name : Text} {out : List Seq} (h : written cx fuel cands name = .done out) :
    AllEls (fun el => (∃ alts, abnfAlts cx fuel name = .done alts ∧ ∃ seq ∈ alts, el ∈ seq) ∨
      ∃ c ∈ cands, el = .ref c.name)
      out := by
  obtain ⟨alts, halts, h⟩ := Run.bind_eq_done h
  have hkept : ∀ seq ∈ alts, ∀ el ∈ seq, (∃ alts, abnfAlts cx fuel name = .done alts ∧ ∃ seq ∈ alts, el ∈ seq) ∨
      ∃ c ∈ cands, el = .ref c.name :=
    fun seq hseq el hel => .inl ⟨alts, halts, seq, hseq, hel⟩
  unfold abnfUnsub at h
  split at h
  · exact Run.done.inj h ▸ hkept
  · obtain ⟨best, hbest, h⟩ := Run.bind_eq_done h
    obtain ⟨isAlias, -, h⟩ := Run.bind_eq_done h
    cases h
    split
    · exact hkept
    · intro seq hseq el hel
      rcases mem_unsubOut hseq with hin | ⟨i, c, hi, -, hc, rfl⟩
      · exact hkept seq hin el hel
      · rcases List.mem_cons.1 hel with rfl | hel
        · obtain ⟨ka, -, -, hat⟩ := bestCands_at hbest hc
          exact .inr ⟨c, (abnfCandAt_spec hat).1, rfl⟩
        · rw [List.getD_eq_getElem _ _ hi] at hel
          exact hkept _ (List.getElem_mem hi) el (List.mem_of_mem_drop hel)

/-- An introduced reference is to a candidate whose alternatives stand among the rule's. -/
theorem Introduces.stands {x y : Text} (h : Introduces cx fuel cands x y) :
    ∃ alts ka best i c, abnfAlts cx fuel x = .done alts ∧ altKeys cx fuel alts = .done ka ∧
      best.length = alts.length ∧ abnfAlias cx (unsubOut alts best) = .done false ∧ accepted best i = true ∧
      best[i]?.join = some c ∧ c ∈ cands ∧ c.name = y ∧ x ≠ y ∧ abnfCandMatches c ka i = .done true := by
  obtain ⟨alts, best, halts, hbest, halias, i, c, -, hacc, hc, rfl⟩ := h
  obtain ⟨ka, hka, hlen, hat⟩ := bestCands_at hbest hc
  obtain ⟨hmem, hne, hm⟩ := abnfCandAt_spec hat
  exact ⟨alts, ka, best, i, c, halts, hka, hlen, halias, hacc, hc, hmem, rfl, Ne.symm hne, hm⟩

/-- What a rule weighs. -/
def ruleWeight (cx : Context) (fuel : Nat) (x : Text) : Nat ×ₗ Nat :=
  match (abnfAlts cx fuel x).bind (altKeys cx fuel) with
  | .done ka => weight ka
  | _ => toLex (0, 0)

theorem ruleWeight_eq {x : Text} {alts : List Seq} {ka : List (List Text)} (halts : abnfAlts cx fuel x = .done alts)
    (hka : altKeys cx fuel alts = .done ka) : ruleWeight cx fuel x = weight ka := by
  rw [ruleWeight, halts, Run.done_bind, hka]

/-! ## Names that keep keys apart -/

/-- No token that is consumed has a name that begins as a reference's key does, nor has a helper's kind, and
no name holds the character that joins keys. -/
structure PlainNames (cx : Context) : Prop where
  token : ∀ t ∈ usedTokens cx, t.head? ≠ some '@' ∧ '\x01' ∉ t
  rule : ∀ n ∈ usedRules cx, '\x01' ∉ n ∧ ∀ kind, abnfHelperKind cx n = .done (some kind) → kind.head? ≠ some '@'

theorem not_mem_abnfNum (n : Nat) : '\x01' ∉ abnfNum n := by
  intro h
  unfold abnfNum at h
  rw [if_neg (by omega)] at h
  have := Nat.isDigit_of_mem_toDigits (by decide) (by decide) h
  revert this
  decide

theorem not_mem_stringJoin {c d : Char} {ks : List Text} (hd : c ≠ d) (h : ∀ k ∈ ks, c ∉ k) :
    c ∉ stringJoin [d] ks := by
  induction ks with
  | nil => simp [stringJoin]
  | cons k ks ih =>
    rcases ks with _ | ⟨k', ks⟩
    · simpa [stringJoin] using h k List.mem_cons_self
    · rw [stringJoin_cons _ _ (List.cons_ne_nil _ _)]
      simp only [List.mem_append, List.mem_singleton, not_or]
      exact ⟨⟨h k List.mem_cons_self, hd⟩, ih fun k hk => h k (List.mem_cons_of_mem _ hk)⟩

/-- The characters of a helper's kind are of its name, or of `fact`. -/
theorem abnfHelperKind_chars {n kind : Text} (h : abnfHelperKind cx n = .done (some kind))
    (hn : '\x01' ∉ n) : '\x01' ∉ kind := by
  obtain ⟨made, -, h⟩ := Run.bind_eq_done h
  split at h
  · cases h
    simp
  · split at h
    · rename_i hgen
      have h := Run.done.inj h
      split at h
      · intro hc
        have hpart := List.mem_of_getElem? h
        have hin := (mem_piece hpart _ hc).1
        obtain ⟨rest, rfl⟩ := (abnfStarts_iff (by decide)).1 hgen
        rw [abnfAfter_append (by decide)] at hin
        exact hn (List.mem_append_right _ hin)
      · cases h
        simp
    · cases h
      split <;> decide

/-- An element's key holds no joint, and begins as a reference's does only if it is one. -/
theorem PlainNames.key (hp : PlainNames cx) {el : El} {k : Text} (hm : Made cx el) (h : abnfKey cx fuel el = .done k) :
    '\x01' ∉ k ∧ ∀ z, k = '@' :: z → el = .ref z := by
  induction fuel generalizing el k with
  | zero => cases h
  | succ n ih =>
    have hseq : ∀ {seq : Seq} {ks : Text}, (∀ el ∈ seq, Made cx el) →
      keySeq (abnfKey cx n) seq = .done ks → '\x01' ∉ ks := by
      intro seq ks hseq hks
      obtain ⟨keys, hkeys, hks⟩ := Run.bind_eq_done hks
      cases hks
      refine not_mem_stringJoin (by decide) fun key hkey => ?_
      obtain ⟨el, hel, hrun⟩ := Run.mem_each hkeys hkey
      exact (ih (hseq el hel) hrun).1
    -- each form of a key begins with a mark of its own, and the at sign is that of a rule alone
    rw [abnfKey, iterate] at h
    cases hm with
    | tok ht =>
      cases h
      refine ⟨(hp.token _ ht).2, fun z hz => ?_⟩
      exact absurd (by rw [hz]; rfl) (hp.token _ ht).1
    | tail =>
      cases h
      exact ⟨by decide, fun z hz => absurd (List.cons.inj hz).1 (by decide)⟩
    | grp hg =>
      obtain ⟨ks, hks, h⟩ := Run.bind_eq_done h
      cases h
      refine ⟨?_, fun z hz => absurd (List.cons.inj hz).1 (by decide)⟩
      simp only [List.mem_append, not_or]
      exact ⟨⟨by decide, hseq hg hks⟩, by decide⟩
    | @ref name hr =>
      obtain ⟨kind, hkind, h⟩ := Run.bind_eq_done h
      split at h
      · cases h
        refine ⟨?_, fun z hz => by rw [(List.cons.inj hz).2]⟩
        simp only [List.mem_cons, not_or]
        exact ⟨by decide, (hp.rule name hr).1⟩
      · split at h
        · obtain ⟨item, hitem, h⟩ := Run.bind_eq_done h
          obtain ⟨key, hkey, h⟩ := Run.bind_eq_done h
          cases h
          refine ⟨?_, fun z hz => absurd (List.cons.inj hz).1 (by decide)⟩
          simp only [List.mem_append, not_or]
          exact ⟨⟨by decide, (ih (made_loopItem hitem) hkey).1⟩, by decide⟩
        · split at h
          · obtain ⟨parts, hparts, h⟩ := Run.bind_eq_done h
            obtain ⟨key, hkey, h⟩ := Run.bind_eq_done h
            cases h
            obtain ⟨hitem, hmax⟩ := made_repParts hparts
            have hmax' : '\x01' ∉ parts.max := by
              rcases hmax with hmax | ⟨m, hmax⟩
              · rw [hmax]
                simp
              · rw [hmax]
                exact not_mem_abnfNum m
            refine ⟨?_, fun z hz => absurd (List.cons.inj hz).1 (by decide)⟩
            simp only [List.mem_append, not_or]
            exact ⟨⟨⟨⟨⟨⟨by decide, not_mem_abnfNum _⟩, by decide⟩, hmax'⟩, by decide⟩, (ih hitem hkey).1⟩, by decide⟩
          · rename_i hempty _ _
            obtain ⟨alts, halts, h⟩ := Run.bind_eq_done h
            obtain ⟨ks, hks, h⟩ := Run.bind_eq_done h
            rcases kind with _ | kind
            · cases h
            · cases h
              constructor
              · simp only [List.mem_append, not_or]
                refine ⟨⟨⟨abnfHelperKind_chars hkind (hp.rule name hr).1, by decide⟩, ?_⟩, by decide⟩
                refine not_mem_stringJoin (by decide) fun key hkey => ?_
                obtain ⟨seq, hmem, hrun⟩ := Run.mem_each hks hkey
                exact hseq (made_alts halts seq hmem) hrun
              · intro z hz
                rcases kind with _ | ⟨c, kind⟩
                · exact absurd rfl hempty
                · exact absurd (congrArg some (List.cons.inj hz).1) ((hp.rule name hr).2 _ hkind)

theorem PlainNames.keysApart (hp : PlainNames cx) : KeysApart cx fuel :=
  fun _ _ halts seq hseq el hel _ hk => hp.key (made_alts halts seq hseq el hel) hk

/-! ## No new cycle -/

variable {names : List Text} (hcands : abnfCandidates cx fuel names = .done cands)
include hcands

theorem Introduces.weight_le {x y : Text} (h : Introduces cx fuel cands x y) :
    y ∈ names ∧ ruleWeight cx fuel y ≤ ruleWeight cx fuel x ∧
      (ruleWeight cx fuel y = ruleWeight cx fuel x → abnfHelperKind cx y ≠ .done (some [])) := by
  obtain ⟨alts, ka, best, i, c, halts, hka, hlen, halias, hacc, hbest, hmem, rfl, -, hm⟩ := h.stands
  obtain ⟨hname, altsY, hy, hky⟩ := mem_abnfCandidates hcands hmem
  rw [ruleWeight_eq halts hka, ruleWeight_eq hy hky]
  obtain ⟨hle, heq⟩ := TabnasAbnf.Render.weight_le hm
  refine ⟨hname, hle, fun he hkind => ?_⟩
  -- a rule that would be left one reference is left as it was
  obtain ⟨rfl, hkeys⟩ := heq he
  rw [(altKeys_get hka).1] at hkeys
  have hpos : 0 < alts.length := by
    have := congrArg List.length hkeys
    rw [List.length_map, List.length_map] at this
    exact this ▸ (abnfCandMatches_spec hm).2.1
  rw [unsubOut_whole hacc hbest hpos hlen hkeys, abnfAlias, hkind, Run.done_bind] at halias
  simp at halias

/-- What leads an alternative of an introduced reference's rule leads one of the rule it is introduced in. -/
theorem Introduces.absorb (happ : KeysApart cx fuel) {x y z : Text} (h : Introduces cx fuel cands x y)
    (hz : RuleLeads cx fuel y z) : RuleLeads cx fuel x z := by
  obtain ⟨alts, ka, best, i, c, halts, hka, hlen, halias, hacc, hbest, hmem, rfl, -, hm⟩ := h.stands
  obtain ⟨hname, altsY, hy, hky⟩ := mem_abnfCandidates hcands hmem
  obtain ⟨altsZ, hyz, ⟨rest, hrest⟩, hkind⟩ := hz
  obtain rfl : altsY = altsZ := Run.done.inj (hy.symm.trans hyz)
  obtain ⟨j, hj, hseq⟩ := List.mem_iff_getElem.1 hrest
  obtain ⟨hcount, -, hall⟩ := abnfCandMatches_spec hm
  have hkeysLen : c.keys.length = altsY.length := by simpa using congrArg List.length (altKeys_get hky).1
  have hkaLen : ka.length = alts.length := by simpa using congrArg List.length (altKeys_get hka).1
  have hcj := (altKeys_get hky).2 j hj (by omega)
  have hkj := (altKeys_get hka).2 (i + j) (by omega) (by omega)
  obtain ⟨hshort, hjoin⟩ := abnfPrefixTail_ne (hall j (by omega))
  rw [List.getD_eq_getElem _ _ (show i + j < ka.length by omega),
    List.getD_eq_getElem _ _ (show j < c.keys.length by omega)]
    at hshort hjoin
  have htake := stringJoin_injective (by rw [List.length_take]; omega)
    (fun k hk => happ.no_joint halts (List.getElem_mem _) hkj k (List.mem_of_mem_take hk))
    (happ.no_joint hy (List.getElem_mem _) hcj) hjoin
  generalize c.keys[j] = cs at hcj hshort htake
  generalize hks : ka[i + j] = ks at hkj hshort htake
  -- both key lists begin with the key of the reference
  rw [hseq] at hcj
  cases Run.each_eq_done hcj with
  | @cons _ k _ cs hk _ =>
    rw [abnfKey_ref hkind hk] at htake
    rcases ks with _ | ⟨k', ks⟩
    · cases hshort
    · rw [List.length_cons, List.take_succ_cons, List.cons.injEq] at htake
      have hfor := Run.each_eq_done hkj
      generalize halt : alts[i + j] = alt at hfor
      cases hfor with
      | @cons el _ seq _ hel _ =>
        have hin : el :: seq ∈ alts := halt ▸ List.getElem_mem _
        have href := (happ x alts halts _ hin el List.mem_cons_self k' hel).2 z htake.1
        rw [href] at hin
        exact ⟨alts, halts, ⟨seq, hin⟩, hkind⟩

omit hcands in
/-- What leads an alternative written for a rule led one of the rule's, or was introduced. -/
theorem WrittenLeads.kept_or_introduced {x y : Text} (h : WrittenLeads cx fuel cands x y) :
    RuleLeads cx fuel x y ∨ Introduces cx fuel cands x y := by
  obtain ⟨out, hout, ⟨rest, hrest⟩, hkind⟩ := h
  obtain ⟨alts, halts, hout⟩ := Run.bind_eq_done hout
  unfold abnfUnsub at hout
  split at hout
  · cases hout
    exact .inl ⟨out, halts, ⟨rest, hrest⟩, hkind⟩
  · obtain ⟨best, hbest, hout⟩ := Run.bind_eq_done hout
    obtain ⟨isAlias, halias, hout⟩ := Run.bind_eq_done hout
    cases hout
    rcases Bool.eq_false_or_eq_true isAlias with rfl | rfl
    · exact .inl ⟨alts, halts, ⟨rest, hrest⟩, hkind⟩
    · rcases mem_unsubOut hrest with hin | ⟨i, c, hi, hacc, hc, heq⟩
      · exact .inl ⟨alts, halts, ⟨rest, hin⟩, hkind⟩
      · cases heq
        exact .inr ⟨alts, best, halts, hbest, halias, i, c, hi, hacc, hc, rfl⟩

omit hcands in
/-- Of the rules a reference can be written back to, the start rule alone may be a helper. -/
theorem abnfNamed_kind (hnames : abnfNamed cx = .done names) {n : Text} (hn : n ∈ names) :
    n = abnfStartRule cx ∨ abnfHelperKind cx n = .done (some []) := by
  have hkind : ∀ {t : Bool → Bool} (_ : t true = false),
      (abnfMade cx n).bind (fun made => (.done (t made) : Out Bool)) = .done true →
        abnfHelperKind cx n = .done (some []) := by
    intro t ht h
    obtain ⟨made, hm, h⟩ := Run.bind_eq_done h
    rcases Bool.eq_false_or_eq_true made with rfl | rfl
    · rw [ht] at h
      cases h
    · rw [abnfHelperKind, hm, Run.done_bind]
      rfl
  obtain ⟨ordered, ho, hnames⟩ := Run.bind_eq_done hnames
  obtain ⟨direct, hd, hnames⟩ := Run.bind_eq_done hnames
  cases hnames
  rcases List.mem_append.1 hn with hn | hn
  · obtain ⟨users, hu, ho⟩ := Run.bind_eq_done ho
    cases ho
    rcases List.mem_cons.1 hn with rfl | hn
    · exact .inl rfl
    · exact .inr (hkind (t := fun made => !made && _) rfl ((Run.mem_select hu).1 (List.mem_of_mem_filter hn)).2)
  · exact .inr (hkind (t := fun made => !made && _) rfl (mem_abnfDirectCore hd hn).2)

/-- The references written back make no cycle of their own, and where keys tell references apart, as they do
in a spec of plain names, the written rules have no cycle of leading references that the spec's rules do not
have. -/
theorem abnfUnsub_acyclic (hnames : abnfNamed cx = .done names) :
    (∀ x, ¬ TransGen (Introduces cx fuel cands) x x) ∧
      (KeysApart cx fuel → (∃ x, TransGen (WrittenLeads cx fuel cands) x x) → ∃ z, TransGen (RuleLeads cx fuel) z z) ∧
      (PlainNames cx → KeysApart cx fuel) := by
  have hacyclic : ∀ x, ¬ TransGen (Introduces cx fuel cands) x x := by
    refine acyclic_of_measure (f := ruleWeight cx fuel) (P := (· = abnfStartRule cx))
      (fun x y h => (h.weight_le hcands).2.1)
      (fun x y h he => ?_) (fun x y hx hy => hx.trans hy.symm) fun x h => ?_
    · obtain ⟨hn, -, hkeep⟩ := h.weight_le hcands
      exact (abnfNamed_kind hnames hn).resolve_right (hkeep he)
    · obtain ⟨alts, ka, best, i, c, -, -, -, -, -, -, -, -, hne, -⟩ := h.stands
      exact hne rfl
  refine ⟨hacyclic, fun happ hcycle => ?_, fun hp => hp.keysApart⟩
  obtain ⟨x, hx⟩ := hcycle
  exact cycle_of_absorb (fun x y z h hl => h.absorb hcands happ hl) hacyclic
    (TransGen.mono (fun _ _ h => h.kept_or_introduced) _ _ hx)

end

/-! ## A token named as a reference -/

section

/-- An alternate whose fields are texts. -/
def alternate (fields : List (String × String)) : Json := .obj (fields.map fun f => (f.1.toList, .str f.2.toList))

def openClose (opens closes : List (List (String × String))) : Json :=
  .obj [("open".toList, .arr (opens.map alternate)), ("close".toList, .arr (closes.map alternate))]

/-- A rule that is a reference and then tokens. -/
def refThen (name ref tokens : String) : List (Text × Json) :=
  [(name.toList, openClose [[("p", ref)]] [[("r", name ++ "$step1")]]),
    ((name ++ "$step1").toList, openClose [[("s", tokens)]] [])]

def startWrapper (name : String) : Text × Json := ("__start__".toList, openClose [[("p", name)]] [[("s", "#ZZ")]])

/-- A spec of rules, fixed tokens and a start rule. -/
def specOf (rules : List (Text × Json)) (start : String) (tokens : List (String × String)) : Json :=
  .obj [("rule".toList, .obj rules),
    ("options".toList, .obj [("rule".toList, .obj [("start".toList, .str start.toList)]),
    ("fixed".toList, .obj [("token".toList, alternate tokens)])])]

/-- `a = a X`, `b = a X Y`. -/
def leftRecursive : Context where
  rules := startWrapper "b" :: refThen "a" "a" "#X" ++ refThen "b" "a" "#X #Y"
  start := "__start__".toList

/-- `a = @c X Y`, `b = c X`, `c = a Y`, where `@c` is a token. -/
def tokenNamedAt : Context where
  rules :=
    startWrapper "a" :: (['a'], openClose [[("s", "@c #X #Y")]] []) :: refThen "b" "c" "#X" ++ refThen "c" "a" "#Y"
  start := "__start__".toList

theorem abnfAlts_leftRecursive :
    abnfAlts leftRecursive 3 ['a'] = .done [[.ref ['a'], .tok "#X".toList]] ∧
      abnfAlts leftRecursive 3 ['b'] = .done [[.ref ['a'], .tok "#X".toList, .tok "#Y".toList]] := by
  constructor <;>
  · unfold abnfAlts abnfRawAlts abnfChain abnfChainWalk abnfChainWalk
    rfl

/-- In `b = a X Y` the reference is written back, as `b = a Y`; the cycle of `a` was there. -/
theorem abnfUnsub_acyclic_leftRecursive :
    let cands : List Cand := [⟨['b'], [["@a".toList, "#X".toList, "#Y".toList]]⟩, ⟨['a'], [["@a".toList, "#X".toList]]⟩]
    abnfCandidates leftRecursive 3 [['b'], ['a']] = .done cands ∧ Introduces leftRecursive 3 cands ['b'] ['a'] ∧
      (∀ x, ¬ TransGen (Introduces leftRecursive 3 cands) x x) ∧ KeysApart leftRecursive 3 ∧
      ∃ z, TransGen (RuleLeads leftRecursive 3) z z := by
  intro cands
  have hcands : abnfCandidates leftRecursive 3 [['b'], ['a']] = .done cands := by decide +kernel
  obtain ⟨hacyclic, hcycle, hplain⟩ := abnfUnsub_acyclic hcands rfl
  have happ : KeysApart leftRecursive 3 := by
    refine hplain ⟨by decide, fun n hn => ?_⟩
    have hkinds : (usedRules leftRecursive).all fun n =>
        decide ('\x01' ∉ n) && (abnfHelperKind leftRecursive n == .done (some [])) := by decide +kernel
    have hn := List.all_eq_true.1 hkinds n hn
    rw [Bool.and_eq_true, decide_eq_true_eq, beq_iff_eq] at hn
    refine ⟨hn.1, fun kind hk => ?_⟩
    cases hn.2.symm.trans hk
    simp
  refine ⟨hcands, ?_, hacyclic, happ, hcycle happ ⟨['a'], .single ?_⟩⟩
  · refine ⟨_, [some ⟨['a'], [["@a".toList, "#X".toList]]⟩], abnfAlts_leftRecursive.2, by decide +kernel, by rfl, 0, _,
      by decide, by decide, rfl, rfl⟩
  · refine ⟨[[.ref ['a'], .tok "#X".toList]], ?_, ⟨[.tok "#X".toList], List.mem_cons_self⟩, by decide +kernel⟩
    rw [written, abnfAlts_leftRecursive.1, Run.done_bind]
    have hbest : bestCands leftRecursive 3 cands ['a'] [[.ref ['a'], .tok "#X".toList]] = .done [none] := by
      decide +kernel
    rw [abnfUnsub, hbest]
    rfl

theorem abnfAlts_missing {cx : Context} {n : Nat} {x : Text} (h : abnfRule cx x = none) :
    abnfAlts cx n x = .done [] := by
  unfold abnfAlts abnfRawAlts
  rw [h]
  rfl

theorem abnfAlts_tokenNamedAt :
    abnfAlts tokenNamedAt 3 ['b'] = .done [[.ref ['c'], .tok "#X".toList]] ∧
      abnfAlts tokenNamedAt 3 ['c'] = .done [[.ref ['a'], .tok "#Y".toList]] := by
  constructor <;>
  · unfold abnfAlts abnfRawAlts abnfChain abnfChainWalk abnfChainWalk
    rfl

/-- No reference leads an alternative of `a`. -/
theorem ruleLeads_tokenNamedAt {x y : Text} (h : RuleLeads tokenNamedAt 3 x y) :
    (x = ['b'] ∧ y = ['c']) ∨ (x = ['c'] ∧ y = ['a']) ∨ (x = "__start__".toList ∧ y = ['a']) := by
  obtain ⟨alts, halts, ⟨rest, hrest⟩, -⟩ := h
  have hlead : ∀ alts' : List Seq, abnfAlts tokenNamedAt 3 x = .done alts' → .ref y :: rest ∈ alts' := by
    intro alts' h
    rwa [Run.done.inj (h.symm.trans halts)]
  rcases hr : abnfRule tokenNamedAt x with _ | r
  · cases hlead _ (abnfAlts_missing hr)
  · have hx : x ∈ tokenNamedAt.rules.map Prod.fst := List.mem_map_of_mem (lookup_mem hr)
    have hnames : tokenNamedAt.rules.map Prod.fst =
        ["__start__".toList, ['a'], ['b'], "b$step1".toList, ['c'], "c$step1".toList] := by decide
    simp only [hnames, List.mem_cons, List.not_mem_nil, or_false] at hx
    rcases hx with rfl | rfl | rfl | rfl | rfl | rfl
    · have hin := hlead [[.ref ['a']]] rfl
      simp only [List.mem_singleton, List.cons.injEq, El.ref.injEq] at hin
      exact .inr (.inr ⟨rfl, hin.1⟩)
    · have hin := hlead [[.tok "@c".toList, .tok "#X".toList, .tok "#Y".toList]] rfl
      simp at hin
    · have hin := hlead _ abnfAlts_tokenNamedAt.1
      simp only [List.mem_singleton, List.cons.injEq, El.ref.injEq] at hin
      exact .inl ⟨rfl, hin.1⟩
    · have hin := hlead [[.tok "#X".toList]] rfl
      simp at hin
    · have hin := hlead _ abnfAlts_tokenNamedAt.2
      simp only [List.mem_singleton, List.cons.injEq, El.ref.injEq] at hin
      exact .inr (.inl ⟨rfl, hin.1⟩)
    · have hin := hlead [[.tok "#Y".toList]] rfl
      simp at hin

/-- A token named as a reference is taken for one: `a` is written as `b Y`, and `a`, `b` and `c` go round. -/
theorem abnfUnsub_cycle_token :
    ∃ names cands, abnfNamed tokenNamedAt = .done names ∧ abnfCandidates tokenNamedAt 3 names = .done cands ∧
      TransGen (WrittenLeads tokenNamedAt 3 cands) ['a'] ['a'] ∧ ∀ z, ¬ TransGen (RuleLeads tokenNamedAt 3) z z := by
  let cands : List Cand := [⟨['a'], [["@c".toList, "#X".toList, "#Y".toList]]⟩, ⟨['b'], [["@c".toList, "#X".toList]]⟩,
    ⟨['c'], [["@a".toList, "#Y".toList]]⟩]
  refine ⟨[['a'], ['b'], ['c']], cands, rfl, by decide +kernel, ?_, ?_⟩
  · have hab : WrittenLeads tokenNamedAt 3 cands ['a'] ['b'] := by
      refine ⟨[[.ref ['b'], .tok "#Y".toList]], ?_, ⟨_, List.mem_cons_self⟩, by decide +kernel⟩
      have hbest : bestCands tokenNamedAt 3 cands ['a'] [[.tok "@c".toList, .tok "#X".toList, .tok "#Y".toList]] =
          .done [some ⟨['b'], [["@c".toList, "#X".toList]]⟩] := by decide +kernel
      have halts : abnfAlts tokenNamedAt 3 ['a'] = .done [[.tok "@c".toList, .tok "#X".toList, .tok "#Y".toList]] := by
        rfl
      rw [written, halts, Run.done_bind, abnfUnsub, hbest]
      rfl
    have hbc : WrittenLeads tokenNamedAt 3 cands ['b'] ['c'] := by
      refine ⟨[[.ref ['c'], .tok "#X".toList]], ?_, ⟨_, List.mem_cons_self⟩, by decide +kernel⟩
      have hbest : bestCands tokenNamedAt 3 cands ['b'] [[.ref ['c'], .tok "#X".toList]] = .done [none] := by
        decide +kernel
      rw [written, abnfAlts_tokenNamedAt.1, Run.done_bind, abnfUnsub, hbest]
      rfl
    have hca : WrittenLeads tokenNamedAt 3 cands ['c'] ['a'] := by
      refine ⟨[[.ref ['a'], .tok "#Y".toList]], ?_, ⟨_, List.mem_cons_self⟩, by decide +kernel⟩
      have hbest : bestCands tokenNamedAt 3 cands ['c'] [[.ref ['a'], .tok "#Y".toList]] = .done [none] := by
        decide +kernel
      rw [written, abnfAlts_tokenNamedAt.2, Run.done_bind, abnfUnsub, hbest]
      rfl
    exact .tail (.tail (.single hab) hbc) hca
  · -- every edge goes down this order
    let rank : Text → Nat := fun x => if x = ['a'] then 0 else if x = ['c'] then 1 else 2
    have hdown : ∀ x y, RuleLeads tokenNamedAt 3 x y → rank y < rank x := by
      intro x y h
      rcases ruleLeads_tokenNamedAt h with ⟨rfl, rfl⟩ | ⟨rfl, rfl⟩ | ⟨rfl, rfl⟩ <;> decide
    exact acyclic_of_measure (f := rank) (P := fun _ => False) (fun x y h => (hdown x y h).le)
      (fun x y h he => (hdown x y h).ne he) (fun _ _ h => h.elim) fun x h => (hdown x x h).false

end

end TabnasAbnf.Render
