/-
What writing a reference back keeps: with each reference written put back to its candidate's alternatives,
each followed by what follows the reference, the keys are those of the rule's alternatives again.
-/
import TabnasAbnf.Render.Unsub

namespace TabnasAbnf.Render

open TabnasAbnf.Base

/-! ## Runs of a list's places -/

/-- Places of a list that each give a run from there on, or one entry, or nothing where a run before them
reaches over them, give the list. -/
theorem flatMap_runs {α : Type} {l : List α} {acc : Nat → Prop} {len : Nat → Nat} {f : Nat → List α}
    (hrun : ∀ i < l.length, acc i → 0 < len i ∧ i + len i ≤ l.length ∧ f i = (l.drop i).take (len i))
    (hfree : ∀ i j, acc i → acc j → i < j → i + len i ≤ j)
    (hover : ∀ i < l.length, ¬ acc i → (∃ j, acc j ∧ j < i ∧ i < j + len j) → f i = [])
    (hone : ∀ i (hi : i < l.length), ¬ acc i → (¬ ∃ j, acc j ∧ j < i ∧ i < j + len j) → f i = [l[i]]) :
    (List.range l.length).flatMap f = l := by
  -- from a place no run reaches over, the rest of the places give the rest of the list
  have hfrom : ∀ m k, k + m = l.length → (¬ ∃ j, acc j ∧ j < k ∧ k < j + len j) →
    (List.range' k m).flatMap f = l.drop k := by
    intro m
    induction m using Nat.strong_induction_on with
    | _ m ih =>
      intro k hk hfirst
      rcases Nat.eq_zero_or_pos m with rfl | hm
      · rw [List.drop_eq_nil_of_le (by omega)]
        rfl
      · by_cases ha : acc k
        · obtain ⟨hpos, hle, hf⟩ := hrun k (by omega) ha
          obtain ⟨n, hn⟩ : ∃ n, len k = n + 1 := ⟨len k - 1, by omega⟩
          have hnext : ¬ ∃ j, acc j ∧ j < k + len k ∧ k + len k < j + len j := by
            rintro ⟨j, hj, hlt, hreach⟩
            rcases Nat.lt_trichotomy j k with hjk | rfl | hjk
            · exact hfirst ⟨j, hj, hjk, by omega⟩
            · omega
            · have := hfree k j ha hj hjk
              omega
          have hrest : (List.range' (k + 1) n).flatMap f = [] := by
            rw [List.flatMap_eq_nil_iff]
            intro j hj
            rw [List.mem_range'_1] at hj
            refine hover j (by omega) (fun hja => ?_) ⟨k, ha, by omega, by omega⟩
            have := hfree k j ha hja (by omega)
            omega
          have hsplit : List.range' k m = List.range' k (len k) ++ List.range' (k + len k) (m - len k) := by
            rw [← Nat.one_mul (len k), Nat.one_mul, List.range'_append_1]
            congr 1
            omega
          rw [hsplit, List.flatMap_append, ih (m - len k) (by omega) (k + len k) (by omega) hnext, hn, List.range'_succ,
            List.flatMap_cons, hrest, List.append_nil, hf, ← hn, ← List.drop_drop, List.take_append_drop]
        · have hnext : ¬ ∃ j, acc j ∧ j < k + 1 ∧ k + 1 < j + len j := by
            rintro ⟨j, hj, hlt, hreach⟩
            rcases Nat.lt_succ_iff_lt_or_eq.1 hlt with hjk | rfl
            · exact hfirst ⟨j, hj, hjk, by omega⟩
            · exact ha hj
          obtain ⟨n, rfl⟩ : ∃ n, m = n + 1 := ⟨m - 1, by omega⟩
          rw [List.range'_succ, List.flatMap_cons, hone k (by omega) ha hfirst,
            ih n (by omega) (k + 1) (by omega) hnext,
            List.singleton_append, ← List.drop_eq_getElem_cons]
  rw [List.range_eq_range', hfrom l.length 0 (by omega) (by rintro ⟨j, -, hj, -⟩; omega)]
  rfl

/-! ## What is written, and what it stands for -/

/-- An alternative written: one of the rule's own, or a reference to a candidate and what follows it. -/
inductive Written
  | kept (seq : Seq)
  | ref (c : Cand) (rest : Seq)

namespace Written

def text : Written → Seq
  | kept seq => seq
  | ref c rest => .ref c.name :: rest

/-- The keys of what it stands for: a reference for its candidate's alternatives, each with what follows. -/
def keys (cx : Context) (fuel : Nat) : Written → Out (List (List Text))
  | kept seq => (abnfSeqKeys cx fuel seq).bind fun ks => .done [ks]
  | ref c rest => (abnfSeqKeys cx fuel rest).bind fun ks => .done (c.keys.map (· ++ ks))

end Written

/-- What is written at a place. -/
def writtenAt (alts : List Seq) (best : List (Option Cand)) (i : Nat) : List Written :=
  if accepted best i then
    (best[i]?.join).toList.map fun c => .ref c ((alts.getD i []).drop (c.keys.headD []).length)
  else if ((List.range best.length).filter fun j => accepted best j && covers best j i).isEmpty then
    [.kept (alts.getD i [])]
  else []

/-- The keys of what is written at a place. -/
def keysAt (ka : List (List Text)) (best : List (Option Cand)) (i : Nat) : List (List Text) :=
  if accepted best i then
    (best[i]?.join).toList.flatMap fun c => c.keys.map (· ++ (ka.getD i []).drop (c.keys.headD []).length)
  else if ((List.range best.length).filter fun j => accepted best j && covers best j i).isEmpty then [ka.getD i []]
  else []

section

variable {cx : Context} {fuel : Nat} {cands : List Cand} {self : Text} {alts : List Seq} {ka : List (List Text)}
  {best : List (Option Cand)} {i : Nat}

theorem accepted_some (h : accepted best i = true) : ∃ c, best[i]?.join = some c := by
  rw [accepted, Bool.and_eq_true] at h
  exact Option.isSome_iff_exists.1 h.1

theorem abnfUnsubAt_text (alts : List Seq) (best : List (Option Cand)) (i : Nat) :
    abnfUnsubAt alts best i = (writtenAt alts best i).map Written.text := by
  unfold writtenAt
  rcases Bool.eq_false_or_eq_true (accepted best i) with ha | ha
  · obtain ⟨c, hc⟩ := accepted_some ha
    rw [abnfUnsubAt_accepted ha hc, if_pos ha, hc]
    rfl
  · unfold abnfUnsubAt
    rw [ha, if_neg Bool.false_ne_true, if_neg Bool.false_ne_true]
    dsimp only
    split <;> rfl

theorem unsubOut_text (alts : List Seq) (best : List (Option Cand)) :
    unsubOut alts best = ((List.range alts.length).flatMap (writtenAt alts best)).map Written.text := by
  unfold unsubOut
  rw [List.map_flatMap]
  exact List.flatMap_congr fun i _ => abnfUnsubAt_text alts best i

/-! ## The keys -/

/-- Keys that can be told apart when they are joined. -/
structure PlainKeys (cands : List Cand) (ka : List (List Text)) : Prop where
  cand : ∀ c ∈ cands, ∀ ks ∈ c.keys, ∀ k ∈ ks, '\x01' ∉ k
  rule : ∀ ks ∈ ka, ∀ k ∈ ks, k ≠ [] ∧ '\x01' ∉ k

/-- Keys that begin with a candidate alternative's are those and what follows them. -/
theorem prefixTail_eq {ks cs : List Text} (hks : ∀ k ∈ ks, k ≠ [] ∧ '\x01' ∉ k) (hcs : ∀ k ∈ cs, '\x01' ∉ k)
    (h : abnfPrefixTail ks cs ≠ ['\x00']) :
    ks = cs ++ ks.drop cs.length ∧ abnfPrefixTail ks cs = stringJoin ['\x01'] (ks.drop cs.length) := by
  obtain ⟨hlen, hjoin⟩ := abnfPrefixTail_ne h
  have htake : ks.take cs.length = cs := by
    refine stringJoin_injective (by rw [List.length_take]; omega) (fun k hk => ?_) hcs hjoin
    exact (hks k (List.mem_of_mem_take hk)).2
  refine ⟨?_, ?_⟩
  · conv_lhs => rw [← List.take_append_drop cs.length ks, htake]
  · rw [abnfPrefixTail, if_neg (by omega), if_pos (abnfSame_iff.2 hjoin)]

/-- A candidate that stands at a place has the keys there, with one tail. -/
theorem candMatches_keys {c : Cand} (hplain : PlainKeys cands ka) (hc : c ∈ cands)
    (h : abnfCandMatches c ka i = .done true) :
    c.keys.map (· ++ (ka.getD i []).drop (c.keys.headD []).length) = (ka.drop i).take c.keys.length := by
  obtain ⟨hlen, hpos, tail, htail, hall⟩ := abnfCandMatches_tail h
  have hget : ∀ {l : List (List Text)} {j : Nat} (hj : j < l.length), l.getD j [] = l[j] := fun hj =>
    List.getD_eq_getElem _ _ hj
  -- each alternative of the candidate is followed by the one tail, which the joined text tells
  have hat : ∀ j (hj : j < c.keys.length),
    ka.getD (i + j) [] = c.keys[j] ++ (ka.getD (i + j) []).drop c.keys[j].length ∧
      tail = stringJoin ['\x01'] ((ka.getD (i + j) []).drop c.keys[j].length) := by
    intro j hj
    have hj' : i + j < ka.length := by omega
    have heq := hall j hj
    rw [hget hj, hget hj'] at heq
    rw [hget hj']
    obtain ⟨hks, ht⟩ := prefixTail_eq (hplain.rule _ (List.getElem_mem hj')) (hplain.cand c hc _ (List.getElem_mem hj))
      (by rwa [heq])
    exact ⟨hks, by rw [← ht, heq]⟩
  have hplainTail : ∀ j (hj : j < c.keys.length), ∀ k ∈ (ka.getD (i + j) []).drop c.keys[j].length,
    k ≠ [] ∧ '\x01' ∉ k := by
    intro j hj k hk
    have hj' : i + j < ka.length := by omega
    rw [hget hj'] at hk
    exact hplain.rule _ (List.getElem_mem hj') k (List.mem_of_mem_drop hk)
  have hhead : c.keys.headD [] = c.keys[0] := by
    rw [List.headD_eq_head?_getD, List.head?_eq_getElem?, List.getElem?_eq_getElem hpos, Option.getD_some]
  rw [hhead]
  refine List.ext_getElem ?_ fun j hj hj' => ?_
  · rw [List.length_map, List.length_take, List.length_drop]
    omega
  · rw [List.length_map] at hj
    have hi : i + j < ka.length := by omega
    have hsame : (ka.getD (i + j) []).drop c.keys[j].length = (ka.getD i []).drop c.keys[0].length := by
      refine stringJoin_nonempty_injective (hplainTail j hj) (hplainTail 0 hpos) ?_
      rw [← (hat j hj).2]
      exact (hat 0 hpos).2
    calc (c.keys.map (· ++ (ka.getD i []).drop c.keys[0].length))[j]
        = c.keys[j] ++ (ka.getD i []).drop c.keys[0].length := List.getElem_map _
      _ = ka.getD (i + j) [] := by rw [← hsame, ← (hat j hj).1]
      _ = ((ka.drop i).take c.keys.length)[j] := by rw [hget hi, List.getElem_take, List.getElem_drop]

/-- What the candidates at a rule's places are. -/
theorem bestCands_get (hka : altKeys cx fuel alts = .done ka) (hbest : bestCands cx fuel cands self alts = .done best) :
    best.length = ka.length ∧ alts.length = ka.length ∧
      ∀ i c, best[i]?.join = some c → c ∈ cands ∧ c.name ≠ self ∧ abnfCandMatches c ka i = .done true := by
  rw [bestCands, hka, Run.done_bind] at hbest
  have hfor := Run.each_eq_done hbest
  have hlen : alts.length = best.length := by simpa using hfor.length_eq
  have halts : ka.length = alts.length := by simpa using congrArg List.length (altKeys_get hka).1
  refine ⟨by omega, halts.symm, fun i c hc => ?_⟩
  have hi : i < best.length := by
    by_contra hge
    rw [List.getElem?_eq_none (by omega)] at hc
    cases hc
  have hat := hfor.get (i := i) (by rw [List.length_range]; omega) hi
  rw [List.getElem?_eq_getElem hi, Option.join_some] at hc
  simp only [List.get_eq_getElem, List.getElem_range, hc] at hat
  exact abnfCandAt_spec hat

/-- The runs that are accepted among candidates at a list's places, and the places that no run reaches over, give the
list. -/
theorem accepted_flatMap {α : Type} {l : List α} {f : Nat → List α}
    (hbest : ∀ i c, best[i]?.join = some c → 0 < c.keys.length ∧ i + c.keys.length ≤ l.length)
    (hlen : best.length = l.length)
    (hrun : ∀ i c, accepted best i = true → best[i]?.join = some c → f i = (l.drop i).take c.keys.length)
    (hover : ∀ i, accepted best i ≠ true →
      ((List.range best.length).filter fun j => accepted best j && covers best j i).isEmpty ≠ true → f i = [])
    (hone : ∀ i (hi : i < l.length), accepted best i ≠ true →
      ((List.range best.length).filter fun j => accepted best j && covers best j i).isEmpty = true → f i = [l[i]]) :
    (List.range l.length).flatMap f = l := by
  let len : Nat → Nat := fun i => ((best[i]?.join).map fun c => c.keys.length).getD 0
  have hlt : ∀ {i}, accepted best i = true → i < l.length := by
    intro i ha
    obtain ⟨c, hc⟩ := accepted_some ha
    have := hbest i c hc
    omega
  have hcovers : ∀ {i j}, accepted best j = true → (covers best j i = true ↔ j < i ∧ i < j + len j) := by
    intro i j ha
    obtain ⟨c, hc⟩ := accepted_some ha
    simp only [covers, len, hc, Option.any_some, Bool.and_eq_true, decide_eq_true_eq, Option.map_some, Option.getD_some]
  -- a place is reached over where an accepted run before it goes past it
  have hreach : ∀ i, ((List.range best.length).filter fun j => accepted best j && covers best j i).isEmpty = true ↔
      ¬ ∃ j, accepted best j = true ∧ j < i ∧ i < j + len j := by
    intro i
    rw [List.isEmpty_iff, List.filter_eq_nil_iff]
    constructor
    · rintro hall ⟨j, ha, hj⟩
      refine hall j (List.mem_range.2 (by rw [hlen]; exact hlt ha)) ?_
      rw [ha, (hcovers ha).2 hj]
      rfl
    · intro hno j _ hj
      rw [Bool.and_eq_true] at hj
      exact hno ⟨j, hj.1, (hcovers hj.1).1 hj.2⟩
  refine @flatMap_runs _ l (fun i => accepted best i = true) len f ?_ ?_ ?_ ?_
  · intro i hi ha
    obtain ⟨c, hc⟩ := accepted_some ha
    obtain ⟨hpos, hle⟩ := hbest i c hc
    have hlenc : len i = c.keys.length := by simp only [len, hc, Option.map_some, Option.getD_some]
    rw [hlenc]
    exact ⟨hpos, hle, hrun i c ha hc⟩
  · -- a place is accepted only where no run reaches over it
    intro i j hi hj hij
    by_contra hreached
    rw [accepted, Bool.and_eq_true, List.isEmpty_iff, List.filter_eq_nil_iff] at hj
    exact hj.2 i (List.mem_range.2 (by rw [hlen]; exact hlt hi)) ((hcovers hi).2 ⟨hij, by omega⟩)
  · exact fun i hi ha hreached => hover i ha fun h => (hreach i).1 h hreached
  · exact fun i hi ha hfree => hone i hi ha ((hreach i).2 hfree)

/-- The places' keys are the rule's. -/
theorem keysAt_flatMap (hplain : PlainKeys cands ka) (hlen : best.length = ka.length)
    (hbest : ∀ i c, best[i]?.join = some c → c ∈ cands ∧ c.name ≠ self ∧ abnfCandMatches c ka i = .done true) :
    (List.range ka.length).flatMap (keysAt ka best) = ka := by
  refine accepted_flatMap (fun i c hc => ?_) hlen (fun i c ha hc => ?_) (fun i ha hover => ?_)
    fun i hi ha hfree => ?_
  · obtain ⟨hle, hpos, -⟩ := abnfCandMatches_spec (hbest i c hc).2.2
    exact ⟨hpos, hle⟩
  · obtain ⟨hmem, -, hm⟩ := hbest i c hc
    rw [keysAt, if_pos ha, hc, ← candMatches_keys hplain hmem hm]
    exact List.append_nil _
  · rw [keysAt, if_neg ha, if_neg hover]
  · rw [keysAt, if_neg ha, if_pos hfree, List.getD_eq_getElem _ _ hi]

theorem each_writtenAt (hka : altKeys cx fuel alts = .done ka) (hi : i < alts.length) (hlen : alts.length = ka.length) :
    ∃ kss, Run.each (Written.keys cx fuel) (writtenAt alts best i) = .done kss ∧ kss.flatten = keysAt ka best i := by
  have hkeys : abnfSeqKeys cx fuel (alts.getD i []) = .done (ka.getD i []) := by
    rw [List.getD_eq_getElem _ _ hi, List.getD_eq_getElem _ _ (by omega : i < ka.length)]
    exact (altKeys_get hka).2 i hi (by omega)
  unfold writtenAt keysAt
  by_cases ha : accepted best i = true
  · obtain ⟨c, hc⟩ := accepted_some ha
    have hrest : abnfSeqKeys cx fuel ((alts.getD i []).drop (c.keys.headD []).length) =
        .done ((ka.getD i []).drop (c.keys.headD []).length) := Run.each_drop hkeys _
    rw [if_pos ha, if_pos ha, hc, Option.toList_some, List.map_singleton, List.flatMap_singleton]
    refine ⟨[c.keys.map (· ++ (ka.getD i []).drop (c.keys.headD []).length)], ?_, by simp⟩
    rw [Run.each, Written.keys, hrest]
    rfl
  · rw [if_neg ha, if_neg ha]
    split
    · refine ⟨[[ka.getD i []]], ?_, rfl⟩
      rw [Run.each, Written.keys, hkeys]
      rfl
    · exact ⟨[], rfl, rfl⟩

end

/-! ## The law -/

/-- What `abnf-unsub` answers is written, alternative by alternative, so that with each reference put back
to its candidate's alternatives the keys are the rule's. -/
def Exact (cx : Context) (fuel : Nat) (cands : List Cand) (self : Text) (alts : List Seq) (ka : List (List Text)) :
    Prop :=
  ∀ out, abnfUnsub cx fuel cands self alts = .done out →
    ∃ (ws : List Written) (kss : List (List (List Text))), out = ws.map Written.text ∧
      (∀ c rest, .ref c rest ∈ ws → c ∈ cands ∧ c.name ≠ self) ∧
      Run.each (Written.keys cx fuel) ws = .done kss ∧ kss.flatten = ka

section

variable {cx : Context} {fuel : Nat} {cands : List Cand} {self : Text} {alts : List Seq} {ka : List (List Text)}

/-- A rule's alternatives left as they are have its keys. -/
theorem exact_kept (hka : altKeys cx fuel alts = .done ka) :
    ∃ (ws : List Written) (kss : List (List (List Text))), alts = ws.map Written.text ∧
      (∀ c rest, .ref c rest ∈ ws → c ∈ cands ∧ c.name ≠ self) ∧
      Run.each (Written.keys cx fuel) ws = .done kss ∧ kss.flatten = ka := by
  refine ⟨alts.map .kept, ka.map ([·]), ?_, ?_, ?_, ?_⟩
  · rw [List.map_map]
    exact (List.map_id alts).symm
  · intro c rest h
    obtain ⟨seq, -, he⟩ := List.mem_map.1 h
    cases he
  · induction alts generalizing ka with
    | nil =>
      cases hka
      rfl
    | cons seq alts ih =>
      obtain ⟨ks, hks, hka⟩ := Run.bind_eq_done hka
      obtain ⟨ka', hka', hka⟩ := Run.bind_eq_done hka
      cases hka
      rw [List.map_cons, Run.each, Written.keys, hks, ih hka']
      rfl
  · rw [← List.flatMap_def]
    exact List.flatMap_singleton' ka

/-- Writing references back keeps the keys, where keys joined can be told apart. -/
theorem abnfUnsub_exact (hka : altKeys cx fuel alts = .done ka) (hplain : PlainKeys cands ka) :
    Exact cx fuel cands self alts ka := by
  intro out h
  unfold abnfUnsub at h
  split at h
  · cases h
    exact exact_kept hka
  · obtain ⟨best, hbest, h⟩ := Run.bind_eq_done h
    obtain ⟨isAlias, -, h⟩ := Run.bind_eq_done h
    cases h
    split
    · exact exact_kept hka
    · obtain ⟨hlen, halts, hget⟩ := bestCands_get hka hbest
      have hplaces : ∀ i ∈ List.range alts.length, ∃ kss, Run.each (Written.keys cx fuel) (writtenAt alts best i) =
        .done kss ∧
          kss.flatten = keysAt ka best i := fun i hi => each_writtenAt hka (List.mem_range.1 hi) halts
      obtain ⟨kss, hkss, hflat⟩ := Run.each_flatMap hplaces
      refine ⟨_, kss, unsubOut_text alts best, ?_, hkss, ?_⟩
      · intro c rest hmem
        obtain ⟨i, -, hi⟩ := List.mem_flatMap.1 hmem
        unfold writtenAt at hi
        split at hi
        · obtain ⟨c', hc', he⟩ := List.mem_map.1 hi
          cases he
          obtain ⟨hmem, hname, -⟩ := hget i c (Option.mem_toList.1 hc')
          exact ⟨hmem, hname⟩
        · split at hi
          · cases List.mem_singleton.1 hi
          · cases hi
      · rw [hflat, halts, keysAt_flatMap hplain hlen hget]

/-- A candidate with an alternative stands at a place or does not. -/
theorem exists_candMatches {c : Cand} (hc : c.keys ≠ []) (ka : List (List Text)) (i : Nat) :
    ∃ b, abnfCandMatches c ka i = .done b := by
  unfold abnfCandMatches
  split
  · exact ⟨false, rfl⟩
  · obtain ⟨ks, keys, hk⟩ := List.exists_cons_of_ne_nil hc
    rw [hk]
    exact ⟨_, rfl⟩

theorem exists_bestCands (hka : altKeys cx fuel alts = .done ka) (hcands : ∀ c ∈ cands, c.keys ≠ []) :
    ∃ best, bestCands cx fuel cands self alts = .done best := by
  rw [bestCands, hka, Run.done_bind]
  refine Run.exists_each fun i _ => ?_
  have hhits : ∃ hits, Run.select (fun (c : Cand) => if abnfSame c.name self then .done false else
    abnfCandMatches c ka i)
      cands = (.done hits : Out (List Cand)) := by
    have hc : ∀ c ∈ cands, ∃ b, (if abnfSame c.name self then (.done false : Out Bool) else abnfCandMatches c ka i) =
      .done b := by
      intro c hc
      split
      · exact ⟨false, rfl⟩
      · exact exists_candMatches (hcands c hc) ka i
    obtain ⟨bs, hbs⟩ := Run.exists_each hc
    rw [Run.select, hbs]
    exact ⟨_, rfl⟩
  obtain ⟨hits, hhits⟩ := hhits
  rw [abnfCandAt, hhits]
  exact ⟨_, rfl⟩

/-- An answer is given where each candidate has an alternative and the names that may be left alone have a
kind. -/
theorem exists_abnfUnsub (hka : altKeys cx fuel alts = .done ka) (hcands : ∀ c ∈ cands, c.keys ≠ [])
    (hkind : ∀ n, (∃ c ∈ cands, c.name = n) ∨ [.ref n] ∈ alts → ∃ kind, abnfHelperKind cx n = .done kind) :
    ∃ out, abnfUnsub cx fuel cands self alts = .done out := by
  unfold abnfUnsub
  split
  · exact ⟨alts, rfl⟩
  · obtain ⟨best, hbest⟩ : ∃ best, bestCands cx fuel cands self alts = .done best := exists_bestCands hka hcands
    obtain ⟨-, -, hget⟩ := bestCands_get hka hbest
    have halias : ∃ b, abnfAlias cx (unsubOut alts best) = .done b := by
      unfold abnfAlias
      split
      · rename_i name hout
        have hname : (∃ c ∈ cands, c.name = name) ∨ [.ref name] ∈ alts := by
          have hmem : [El.ref name] ∈ unsubOut alts best := by
            rw [hout]
            exact List.mem_cons_self
          rcases mem_unsubOut hmem with hseq | ⟨i, c, -, -, hc, hseq⟩
          · exact .inr hseq
          · rw [List.cons.injEq, El.ref.injEq] at hseq
            exact .inl ⟨c, (hget i c hc).1, hseq.1.symm⟩
        obtain ⟨kind, hk⟩ := hkind name hname
        rw [hk]
        exact ⟨_, rfl⟩
      · exact ⟨false, rfl⟩
    obtain ⟨b, hb⟩ := halias
    rw [hbest, Run.done_bind, hb]
    exact ⟨_, rfl⟩

/-- Writing references back answers, and keeps the keys, where keys joined can be told apart. -/
theorem abnfUnsub_keys (hka : altKeys cx fuel alts = .done ka) (hplain : PlainKeys cands ka) :
    Exact cx fuel cands self alts ka ∧
      ((∀ c ∈ cands, c.keys ≠ []) →
        (∀ n, (∃ c ∈ cands, c.name = n) ∨ [.ref n] ∈ alts → ∃ kind, abnfHelperKind cx n = .done kind) →
          ∃ out, abnfUnsub cx fuel cands self alts = .done out) :=
  ⟨abnfUnsub_exact hka hplain, exists_abnfUnsub hka⟩

end

/-! ## Keys that are the same joined -/

/-- `a = P Q T`, `b = P Q`, with `U+0001` in another of the two names in each rule. -/
def jointNames : Context where
  rules :=
    [startWrapper "a", (['a'], openClose [[("s", "p\x01q r t")]] []), (['b'], openClose [[("s", "p q\x01r")]] [])]
  start := "__start__".toList

/-- The tokens of `a` are taken for those of `b`, and written as a reference to it. -/
theorem abnfUnsub_joint :
    let alts : List Seq := [[.tok "p\x01q".toList, .tok ['r'], .tok ['t']]]
    let cands : List Cand := [⟨['b'], [[['p'], "q\x01r".toList]]⟩]
    let ka := [["p\x01q".toList, ['r'], ['t']]]
    abnfAlts jointNames 3 ['a'] = .done alts ∧ abnfCandidates jointNames 3 [['b']] = .done cands ∧
      altKeys jointNames 3 alts = .done ka ∧ ¬ Exact jointNames 3 cands ['a'] alts ka := by
  intro alts cands ka
  have halts : abnfAlts jointNames 3 ['a'] = .done alts := by
    unfold abnfAlts abnfRawAlts abnfChain abnfChainWalk abnfChainWalk
    rfl
  have hka : altKeys jointNames 3 alts = .done ka := rfl
  have hbest : bestCands jointNames 3 cands ['a'] alts = .done [some ⟨['b'], [[['p'], "q\x01r".toList]]⟩] := by
    decide +kernel
  have hout : abnfUnsub jointNames 3 cands ['a'] alts = .done [[.ref ['b'], .tok ['t']]] := by
    rw [abnfUnsub, hbest]
    rfl
  refine ⟨halts, by decide +kernel, hka, fun hexact => ?_⟩
  obtain ⟨ws, kss, htext, hmem, hkss, hflat⟩ := hexact _ hout
  obtain ⟨w, ws', rfl⟩ := List.exists_cons_of_ne_nil (l := ws) (by
    rintro rfl
    cases htext)
  rw [List.map_cons, List.cons.injEq] at htext
  obtain ⟨htext, hws⟩ := htext
  rw [List.map_eq_nil_iff.1 hws.symm] at hkss
  rcases w with seq | ⟨c, rest⟩
  · change _ = seq at htext
    subst htext
    have hkeys : Run.each (Written.keys jointNames 3) [.kept [.ref ['b'], .tok ['t']]] =
      .done [[["@b".toList, ['t']]]] := by
      decide +kernel
    rw [hkeys, Run.done.injEq] at hkss
    subst hkss
    exact absurd hflat (by decide)
  · obtain ⟨hc, -⟩ := hmem c rest List.mem_cons_self
    rw [List.mem_singleton.1 hc] at htext hkss
    change _ = El.ref ['b'] :: rest at htext
    rw [List.cons.injEq] at htext
    rw [← htext.2] at hkss
    have hkeys : Run.each (Written.keys jointNames 3) [.ref ⟨['b'], [[['p'], "q\x01r".toList]]⟩ [.tok ['t']]] =
        .done [[[['p'], "q\x01r".toList, ['t']]]] := by
      decide +kernel
    rw [hkeys, Run.done.injEq] at hkss
    subst hkss
    exact absurd hflat (by decide)

/-- `a = P Q T / P T / R / P Q / P`, where `b` and `c` are `P Q / P` and `d` is `P`. -/
def overlapNames : Context where
  rules := [startWrapper "a",
    (['a'], openClose [[("s", "p q t")], [("s", "p t")], [("s", "r")], [("s", "p q")], [("s", "p")]] []),
    (['b'], openClose [[("s", "p q")], [("s", "p")]] []), (['c'], openClose [[("s", "p q")], [("s", "p")]] []),
    (['d'], openClose [[("s", "p")]] [])]
  start := "__start__".toList

def overlapAlts : List Seq :=
  [[.tok ['p'], .tok ['q'], .tok ['t']], [.tok ['p'], .tok ['t']], [.tok ['r']], [.tok ['p'], .tok ['q']], [.tok ['p']]]

/-- Two candidates of equal keys, after one whose keys are part of theirs. -/
def overlapCands : List Cand :=
  [⟨['d'], [[['p']]]⟩, ⟨['b'], [[['p'], ['q']], [['p']]]⟩, ⟨['c'], [[['p'], ['q']], [['p']]]⟩]

theorem abnfUnsub_keys_overlap :
    Exact overlapNames 3 overlapCands ['a'] overlapAlts
        [[['p'], ['q'], ['t']], [['p'], ['t']], [['r']], [['p'], ['q']], [['p']]] ∧
      ∃ out, abnfUnsub overlapNames 3 overlapCands ['a'] overlapAlts = .done out := by
  have hplain : PlainKeys overlapCands [[['p'], ['q'], ['t']], [['p'], ['t']], [['r']], [['p'], ['q']], [['p']]] :=
    ⟨by decide, by decide⟩
  obtain ⟨hexact, hanswer⟩ := @abnfUnsub_keys overlapNames 3 overlapCands ['a'] overlapAlts _ rfl hplain
  refine ⟨hexact, hanswer (by decide) ?_⟩
  rintro n (⟨c, hc, rfl⟩ | hn)
  · simp only [overlapCands, List.mem_cons, List.not_mem_nil, or_false] at hc
    rcases hc with rfl | rfl | rfl
    all_goals exact ⟨_, rfl⟩
  · simp [overlapAlts] at hn

/-- `b` is taken before `c`, and before `d`, which would leave more. -/
example : abnfUnsub overlapNames 3 overlapCands ['a'] overlapAlts =
    .done [[.ref ['b'], .tok ['t']], [.tok ['r']], [.ref ['b']]] := by rfl

end TabnasAbnf.Render
