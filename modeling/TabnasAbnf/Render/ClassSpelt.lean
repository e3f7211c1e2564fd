/-
Which spellings of a class are written as the class. Where no two dashes and no surrogate pair stand next to each
other, what is written are the ranges that JavaScript reads. Where they do, JavaScript reads a dash as a member that is
never written, so such a class is written as itself only if another of its ranges holds a dash.
-/
import TabnasAbnf.Render.ClassExact

namespace TabnasAbnf.Render

open TabnasAbnf.Base TabnasAbnf.Meta

/-! ## Plain spellings -/

/-- Of two pieces next to each other at most one has a dash, and matched by code points they are no surrogate pair. -/
def DashesApart (u : Bool) (ps : List Piece) : Prop :=
  ps.IsChain fun p q => (p.dash && q.dash) = false ∧ (u && p.pairs q) = false

/-- The characters and ranges that pieces spell. -/
def spelt : List Piece → List Member
  | [] => []
  | [p] => [.one p]
  | p :: q :: ps => if p.dash then .span p q :: spelt ps else .one p :: spelt (q :: ps)

/-- A class spelt in a way that is written as the class. -/
structure PlainClass (u : Bool) (ps : List Piece) : Prop where
  apart : DashesApart u ps
  /-- What a string holds is one character: it is spelt with four digits at most. -/
  short : ∀ m ∈ spelt ps, m.short = true
  /-- A letter that is written as a range of one is spelt in both cases. -/
  cased : ∀ m ∈ spelt ps, m.folds = true → ∀ n, lowerUnit n = lowerUnit m.low.value →
    InSpans ((spelt ps).map Member.range) n

instance (u : Bool) (ps : List Piece) : Decidable (DashesApart u ps) :=
  inferInstanceAs (Decidable (ps.IsChain fun p q => (p.dash && q.dash) = false ∧ (u && p.pairs q) = false))

/-- Dashes apart are enough where no member is read without regard to case. -/
theorem PlainClass.of_unfolded {u : Bool} {ps : List Piece} (hapart : DashesApart u ps)
    (h : ∀ m ∈ spelt ps, m.short = true ∧ m.folds = false) : PlainClass u ps := by
  refine ⟨hapart, fun m hm => (h m hm).1, fun m hm hfolds => ?_⟩
  rw [(h m hm).2] at hfolds
  cases hfolds

/-- How many of some ranges hold a dash. -/
def dashCount (spans : List (Nat × Nat)) : Nat := spans.countP fun s => decide (s.1 ≤ 0x2D ∧ 0x2D ≤ s.2)

theorem dashCount_cons (s : Nat × Nat) (spans : List (Nat × Nat)) :
    dashCount (s :: spans) = dashCount spans + if s.1 ≤ 0x2D ∧ 0x2D ≤ s.2 then 1 else 0 := by
  unfold dashCount
  rw [List.countP_cons]
  simp only [decide_eq_true_eq]

/-! ## What JavaScript reads -/

/-- The character that pieces begin with, whether a dash follows it, and the pieces behind. -/
def firstChar (u : Bool) (p : Piece) : List Piece → Nat × Bool × List Piece
  | [] => (p.value, p.dash, [])
  | q :: ps => if u && p.pairs q then (pairValue p.value q.value, q.dash, ps) else (p.value, p.dash, q :: ps)

section

variable {u : Bool} {p : Piece} {ps : List Piece} {spans : List (Nat × Nat)}

theorem pieceTokens_first (u : Bool) (p : Piece) (ps : List Piece) :
    pieceTokens u (p :: ps) = .cp (firstChar u p ps).1 ::
      ((if (firstChar u p ps).2.1 then [.dash] else []) ++ pieceTokens u (firstChar u p ps).2.2) := by
  rcases ps with _ | ⟨q, ps⟩
  · rw [pieceTokens, firstChar, pieceTokens, List.append_nil]
    rfl
  · rw [pieceTokens, firstChar]
    split <;> rfl

/-- A token before pieces is a member. -/
theorem jsRanges_member (u : Bool) (a : ClassToken) (ps : List Piece) :
    jsRanges (a :: pieceTokens u ps) = (jsRanges (pieceTokens u ps)).map ((a.value, a.value) :: ·) := by
  rcases ps with _ | ⟨p, ps⟩
  · rfl
  · rw [pieceTokens_first]
    rfl

/-- What a dash after a range's high end adds. -/
def strayDash (dash : Bool) : List (Nat × Nat) := if dash then [(0x2D, 0x2D)] else []

/-- Pieces begin with a character, or with a range; a dash after either is a member. -/
theorem jsRanges_first (h : jsRanges (pieceTokens u (p :: ps)) = some spans) {v : Nat} {dash : Bool} {rest : List Piece}
    (hfirst : firstChar u p ps = (v, dash, rest)) :
    (dash = false ∧ ∃ spans', jsRanges (pieceTokens u rest) = some spans' ∧ spans = (v, v) :: spans') ∨
      (dash = true ∧ rest = [] ∧ spans = [(v, v), (0x2D, 0x2D)]) ∨
        (dash = true ∧ ∃ r rs w dash' rest', rest = r :: rs ∧ firstChar u r rs = (w, dash', rest') ∧ v ≤ w ∧
          ∃ spans', jsRanges (pieceTokens u rest') = some spans' ∧ spans = (v, w) :: (strayDash dash' ++ spans')) := by
  rw [pieceTokens_first, hfirst] at h
  cases dash with
  | false =>
    rw [if_neg Bool.false_ne_true, List.nil_append, jsRanges_member] at h
    obtain ⟨spans', hspans, rfl⟩ := Option.map_eq_some_iff.1 h
    exact .inl ⟨rfl, spans', hspans, rfl⟩
  | true =>
    rcases rest with _ | ⟨r, rs⟩
    · cases h
      exact .inr (.inl ⟨rfl, rfl, rfl⟩)
    · rcases hr : firstChar u r rs with ⟨w, dash', rest'⟩
      have hrange : jsRanges (.cp v :: .dash :: pieceTokens u (r :: rs)) =
          if v ≤ w then (jsRanges ((if dash' then [.dash] else []) ++ pieceTokens u rest')).map ((v, w) :: ·) else
            none := by
        rw [pieceTokens_first, hr]
        rfl
      rw [if_pos rfl, List.singleton_append, hrange] at h
      split at h
      · rename_i hle
        obtain ⟨spans₁, hspans, rfl⟩ := Option.map_eq_some_iff.1 h
        refine .inr (.inr ⟨rfl, r, rs, w, dash', rest', rfl, hr, hle, ?_⟩)
        cases dash' with
        | false => exact ⟨spans₁, hspans, rfl⟩
        | true =>
          rw [if_pos rfl, List.singleton_append, jsRanges_member] at hspans
          obtain ⟨spans', hspans', rfl⟩ := Option.map_eq_some_iff.1 hspans
          exact ⟨spans', hspans', rfl⟩
      · cases h

theorem firstChar_pair {q : Piece} (h : (u && p.pairs q) = true) :
    firstChar u p (q :: ps) = (pairValue p.value q.value, q.dash, ps) := by rw [firstChar, if_pos h]

theorem firstChar_one (h : ∀ q ∈ ps.head?, (u && p.pairs q) = false) : firstChar u p ps = (p.value, p.dash, ps) := by
  rcases ps with _ | ⟨q, ps⟩
  · rfl
  · rw [firstChar, h q rfl, if_neg Bool.false_ne_true]

/-! ## Plain spellings are written as they are -/

theorem DashesApart.tail (h : DashesApart u (p :: ps)) : DashesApart u ps := by
  rcases ps with _ | ⟨q, ps⟩
  · exact .nil
  · exact (List.isChain_cons_cons.1 h).2

theorem DashesApart.head (h : DashesApart u (p :: ps)) :
    ∀ q ∈ ps.head?, (p.dash && q.dash) = false ∧ (u && p.pairs q) = false := by
  intro q hq
  rcases ps with _ | ⟨q', ps⟩
  · cases hq
  · cases hq
    exact (List.isChain_cons_cons.1 h).1

/-- Where dashes are apart, the members written are those spelt. -/
theorem members_apart (h : DashesApart u ps) : members false ps = spelt ps := by
  fun_induction spelt ps with
  | case1 => rfl
  | case2 p => rfl
  | case3 p q ps hd ih =>
    have hq : q.dash = false := by
      have hdash := (h.head q rfl).1
      rwa [hd, Bool.true_and] at hdash
    rw [members, if_pos hd, hq, ih h.tail.tail]
  | case4 p q ps hd ih => rw [members, if_neg hd, ih h.tail]

/-- Where dashes are apart, the ranges spelt are the class's, in order and closed. -/
theorem spelt_ranges (hlast : ∀ p ∈ ps.getLast?, p.dash = false) (hapart : DashesApart u ps)
    (h : jsRanges (pieceTokens u ps) = some spans) :
    spans = (spelt ps).map Member.range ∧ ∀ m ∈ spelt ps, m.dangling = false ∧ m.low.value ≤ m.high.value := by
  fun_induction spelt ps generalizing spans with
  | case1 =>
    cases h
    exact ⟨rfl, fun m hm => by cases hm⟩
  | case2 p =>
    have hp : p.dash = false := hlast p rfl
    rw [pieceTokens, Piece.dashes, hp, if_neg Bool.false_ne_true] at h
    cases h
    refine ⟨rfl, fun m hm => ?_⟩
    rw [List.mem_singleton.1 hm]
    exact ⟨rfl, le_rfl⟩
  | case3 p q ps hd ih =>
    have hpq := hapart.head q rfl
    rw [hd, Bool.true_and] at hpq
    have hq := hpq.1
    have hp : firstChar u p (q :: ps) = (p.value, true, q :: ps) := by
      rw [firstChar_one, hd]
      intro q' hq'
      exact (hapart.head q' hq').2
    have hqs : firstChar u q ps = (q.value, false, ps) := by
      rw [firstChar_one, hq]
      exact fun q' hq' => (hapart.tail.head q' hq').2
    rcases jsRanges_first h hp with ⟨hno, -⟩ | ⟨-, hnil, -⟩ | ⟨-, r, rs, w, dash, rest, heq, hr, hle, spans',
      hspans, rfl⟩
    · cases hno
    · cases hnil
    · cases heq
      cases hqs.symm.trans hr
      have hlast' : ∀ p' ∈ ps.getLast?, p'.dash = false := fun p' hp' => hlast p' (by
        rcases ps with _ | ⟨x, ps⟩
        · cases hp'
        · rwa [List.getLast?_cons_cons, List.getLast?_cons_cons])
      obtain ⟨rfl, hall⟩ := ih hlast' hapart.tail.tail hspans
      refine ⟨rfl, List.forall_mem_cons.2 ⟨⟨?_, hle⟩, hall⟩⟩
      rw [Member.dangling, hq, Bool.false_and]
  | case4 p q ps hd ih =>
    rw [Bool.not_eq_true] at hd
    have hp : firstChar u p (q :: ps) = (p.value, false, q :: ps) := by
      rw [firstChar_one, hd]
      exact fun q' hq' => (hapart.head q' hq').2
    rcases jsRanges_first h hp with ⟨-, spans', hspans, rfl⟩ | ⟨hno, -⟩ | ⟨hno, -⟩
    · rw [List.getLast?_cons_cons] at hlast
      obtain ⟨rfl, hall⟩ := ih hlast hapart.tail hspans
      exact ⟨rfl, List.forall_mem_cons.2 ⟨⟨rfl, le_rfl⟩, hall⟩⟩
    · cases hno
    · cases hno

/-! ## Other spellings -/

/-- No character alone is half of a surrogate pair: the render refuses one. -/
def NoHalves (ms : List Member) : Prop := ∀ p, .one p ∈ ms → p.braced = true ∨ p.value < 0xD800

/-- How many members hold a dash. -/
def dashesWritten (ms : List Member) : Nat := dashCount (ms.map Member.range)

theorem dashesWritten_one (p : Piece) (ms : List Member) :
    dashesWritten (.one p :: ms) = dashesWritten ms + if p.value ≤ 0x2D ∧ 0x2D ≤ p.value then 1 else 0 :=
  dashCount_cons ..

theorem dashesWritten_span (p q : Piece) (ms : List Member) :
    dashesWritten (.span p q :: ms) = dashesWritten ms + if p.value ≤ 0x2D ∧ 0x2D ≤ q.value then 1 else 0 :=
  dashCount_cons ..

theorem dashesWritten_high {p : Piece} (h : 0xDC00 ≤ p.value) (q : Piece) (ms : List Member) :
    dashesWritten (.span p q :: ms) = dashesWritten ms := by
  rw [dashesWritten_span, if_neg fun hle => by omega, Nat.add_zero]

theorem dashCount_stray (dash : Bool) (spans : List (Nat × Nat)) :
    dashCount (strayDash dash ++ spans) = dashCount spans + if dash then 1 else 0 := by
  cases dash with
  | false => rfl
  | true => exact dashCount_cons ..

theorem members_one (hd : p.dash = false) (ps : List Piece) : members false (p :: ps) = .one p :: members false ps := by
  rcases ps with _ | ⟨q, ps⟩
  · rfl
  · rw [members, hd, if_neg Bool.false_ne_true]

theorem DashesApart.cons (hp : ∀ q ∈ ps.head?, (p.dash && q.dash) = false ∧ (u && p.pairs q) = false)
    (h : DashesApart u ps) : DashesApart u (p :: ps) := by
  rcases ps with _ | ⟨q, ps⟩
  · exact List.IsChain.singleton _
  · exact List.isChain_cons_cons.2 ⟨hp q rfl, h⟩

theorem pairs_spec {q : Piece} (h : (u && p.pairs q) = true) :
    (p.dash = false ∧ p.braced = false ∧ 0xD800 ≤ p.value) ∧ q.braced = false ∧ 0xDC00 ≤ q.value ∧
      p.value ≤ pairValue p.value q.value := by
  simp only [Piece.pairs, isHigh, isLow, Bool.and_eq_true, Bool.not_eq_true', decide_eq_true_eq] at h
  refine ⟨⟨h.2.1.1.1.2, h.2.1.1.1.1, h.2.1.1.2.1⟩, h.2.1.2, h.2.2.1, ?_⟩
  unfold pairValue
  omega

/-- The low half of a pair is written as the low end of a range. -/
theorem members_half (hb : p.braced = false) (hv : 0xDC00 ≤ p.value) (h : NoHalves (members false (p :: ps))) :
    p.dash = true ∧ ∃ q qs, ps = q :: qs ∧ members false (p :: ps) = .span p q :: members q.dash qs := by
  have hone : .one p ∉ members false (p :: ps) := by
    intro hm
    rcases h p hm with hb' | hlt
    · rw [hb] at hb'
      cases hb'
    · omega
  rcases ps with _ | ⟨q, qs⟩
  · exact absurd (List.mem_singleton_self _) hone
  · rcases Bool.eq_false_or_eq_true p.dash with hd | hd
    · exact ⟨hd, q, qs, rfl, by rw [members, if_pos hd]⟩
    · rw [members, hd, if_neg Bool.false_ne_true] at hone
      exact absurd List.mem_cons_self hone

theorem NoHalves.tail {m : Member} {ms : List Member} (h : NoHalves (m :: ms)) : NoHalves ms :=
  fun p hp => h p (List.mem_cons_of_mem _ hp)

/-- Of pieces, no more members that hold a dash are written than JavaScript reads, whether both are at one place or what
is written is a piece ahead; and fewer, where dashes are not apart. -/
structure Counted (u : Bool) (ps : List Piece) : Prop where
  level : ∀ spans, jsRanges (pieceTokens u ps) = some spans → NoHalves (members false ps) →
    dashesWritten (members false ps) ≤ dashCount spans ∧
      (¬ DashesApart u ps → dashesWritten (members false ps) < dashCount spans)
  ahead : ∀ p qs, ps = p :: qs → ∀ spans, jsRanges (pieceTokens u ps) = some spans → NoHalves (members p.dash qs) →
    dashesWritten (members p.dash qs) ≤ dashCount spans

/-- Behind the high end of a range, what is written is at the same place or a piece ahead. -/
theorem high_end {w : Nat} {dash : Bool} {rest : List Piece} (ih : ∀ ps', ps'.length ≤ ps.length → Counted u ps')
    (hfirst : firstChar u p ps = (w, dash, rest)) (h : jsRanges (pieceTokens u rest) = some spans)
    (hms : NoHalves (members p.dash ps)) :
    p.value ≤ w ∧ dashesWritten (members p.dash ps) ≤ dashCount spans ∧
      (dash = false → rest = ps ∧ p.dash = false ∧ ∀ q ∈ ps.head?, (u && p.pairs q) = false) := by
  have hahead : ∀ qs : List Piece, qs.length ≤ ps.length → ∀ spans, jsRanges (pieceTokens u qs) = some spans →
      NoHalves (members true qs) → dashesWritten (members true qs) ≤ dashCount spans := by
    intro qs hlen spans hspans hqs
    rcases qs with _ | ⟨q, qs⟩
    · exact Nat.zero_le _
    · rw [members] at hqs ⊢
      exact (ih _ hlen).ahead q qs rfl spans hspans hqs
  by_cases hpair : ∃ q ∈ ps.head?, (u && p.pairs q) = true
  · obtain ⟨q, hq, hpair⟩ := hpair
    rcases ps with _ | ⟨q', qs⟩
    · cases hq
    cases hq
    rw [firstChar_pair hpair, Prod.mk.injEq, Prod.mk.injEq] at hfirst
    obtain ⟨rfl, rfl, rfl⟩ := hfirst
    obtain ⟨⟨hd, -, -⟩, hb, hv, hle⟩ := pairs_spec hpair
    rw [hd] at hms ⊢
    obtain ⟨hqd, x, xs, rfl, heq⟩ := members_half hb hv hms
    rw [heq] at hms ⊢
    refine ⟨hle, ?_, fun hno => by rw [hqd] at hno; cases hno⟩
    rw [dashesWritten_high hv]
    exact (ih _ (by simp)).ahead x xs rfl spans h hms.tail
  · push Not at hpair
    have hone : ∀ q ∈ ps.head?, (u && p.pairs q) = false := fun q hq => Bool.eq_false_iff.2 (hpair q hq)
    rw [firstChar_one hone] at hfirst
    cases hfirst
    refine ⟨le_rfl, ?_, fun hd => ⟨rfl, hd, hone⟩⟩
    rcases Bool.eq_false_or_eq_true p.dash with hd | hd
    · rw [hd] at hms ⊢
      exact hahead _ le_rfl spans h hms
    · rw [hd] at hms ⊢
      exact ((ih _ le_rfl).level spans h hms).1

/-- Level with what JavaScript reads. -/
theorem counted_level (ih : ∀ ps', ps'.length ≤ ps.length → Counted u ps')
    (h : jsRanges (pieceTokens u (p :: ps)) = some spans)
    (hms : NoHalves (members false (p :: ps))) :
    dashesWritten (members false (p :: ps)) ≤ dashCount spans ∧
      (¬ DashesApart u (p :: ps) → dashesWritten (members false (p :: ps)) < dashCount spans) := by
  have hone : ∀ q ∈ ps.head?, (u && p.pairs q) = false := by
    intro q _
    rw [Bool.eq_false_iff]
    intro hpair
    obtain ⟨⟨hd, hb, hv⟩, -⟩ := pairs_spec hpair
    rw [members_one hd] at hms
    rcases hms p List.mem_cons_self with hb' | hlt
    · rw [hb] at hb'
      cases hb'
    · omega
  rcases jsRanges_first h (firstChar_one hone) with
    ⟨hd, spans', hspans, rfl⟩ | ⟨hd, rfl, rfl⟩ | ⟨hd, r, rs, w, dash, rest, rfl, hr, hle, spans', hspans, rfl⟩
  · -- a character alone
    rw [members_one hd] at hms ⊢
    have hps := (ih _ le_rfl).level spans' hspans hms.tail
    rw [dashesWritten_one, dashCount_cons]
    refine ⟨Nat.add_le_add_right hps.1 _, fun hno => Nat.add_lt_add_right (hps.2 fun hapart => hno ?_) _⟩
    exact hapart.cons fun q hq => ⟨by rw [hd, Bool.false_and], hone q hq⟩
  · -- a dash at the end
    rw [members, dashesWritten_one, dashCount_cons, dashCount_cons]
    refine ⟨?_, fun hno => absurd (List.IsChain.singleton _) hno⟩
    exact Nat.add_le_add_right (Nat.zero_le _) _
  · -- a range
    rw [members, if_pos hd] at hms ⊢
    obtain ⟨hrw, hrest, hsame⟩ := high_end (fun ps' hlen => ih ps' (hlen.trans (Nat.le_succ _))) hr hspans hms.tail
    rw [dashesWritten_span, dashCount_cons, dashCount_stray]
    have hin : (if p.value ≤ 0x2D ∧ 0x2D ≤ r.value then 1 else 0) ≤ if p.value ≤ 0x2D ∧ 0x2D ≤ w then 1 else 0 := by
      split
      · rename_i hdash
        rw [if_pos ⟨hdash.1, hdash.2.trans hrw⟩]
      · exact Nat.zero_le _
    dsimp only
    rcases Bool.eq_false_or_eq_true dash with hdash | hdash
    · rw [hdash, if_pos rfl]
      exact ⟨by omega, fun _ => by omega⟩
    · -- nothing follows the high end, so dashes are not apart further on
      obtain ⟨rfl, hrd, hrone⟩ := hsame hdash
      rw [hrd] at hms hrest ⊢
      have hlevel := (ih rest (Nat.le_succ _)).level spans' hspans hms.tail
      refine ⟨by omega, fun hno => ?_⟩
      have hlt := hlevel.2 fun hapart => hno ?_
      · omega
      · refine (hapart.cons fun q hq => ⟨by rw [hrd, Bool.false_and], hrone q hq⟩).cons fun q hq => ?_
        cases hq
        exact ⟨by rw [hrd, Bool.and_false], hone r rfl⟩

/-- A piece ahead of what JavaScript reads. -/
theorem counted_ahead (ih : ∀ ps', ps'.length ≤ ps.length → Counted u ps')
    (h : jsRanges (pieceTokens u (p :: ps)) = some spans)
    (hms : NoHalves (members p.dash ps)) : dashesWritten (members p.dash ps) ≤ dashCount spans := by
  by_cases hpair : ∃ q ∈ ps.head?, (u && p.pairs q) = true
  · -- the low half of a pair is a range's low end
    obtain ⟨q, hq, hpair⟩ := hpair
    rcases ps with _ | ⟨q', qs⟩
    · cases hq
    cases hq
    obtain ⟨⟨hd, -, -⟩, hb, hv, -⟩ := pairs_spec hpair
    rw [hd] at hms ⊢
    obtain ⟨hqd, x, xs, rfl, heq⟩ := members_half hb hv hms
    rw [heq] at hms ⊢
    rw [dashesWritten_high hv]
    rcases jsRanges_first h (firstChar_pair hpair) with ⟨hno, -⟩ | ⟨-, hnil, -⟩ |
      ⟨-, r, rs, w, dash, rest, hrs, hr, -, spans', hspans, rfl⟩
    · rw [hqd] at hno
      cases hno
    · cases hnil
    · cases hrs
      have hend := (high_end (fun ps' hlen => ih ps' (by simp; omega)) hr hspans hms.tail).2.1
      rw [dashCount_cons, dashCount_stray]
      omega
  · push Not at hpair
    rcases jsRanges_first h (firstChar_one fun q hq => Bool.eq_false_iff.2 (hpair q hq)) with
      ⟨hd, spans', hspans, rfl⟩ | ⟨hd, rfl, rfl⟩ | ⟨hd, r, rs, w, dash, rest, rfl, hr, -, spans', hspans, rfl⟩
    · rw [hd] at hms ⊢
      rw [dashCount_cons]
      exact Nat.le_add_right_of_le ((ih _ le_rfl).level spans' hspans hms).1
    · rw [hd]
      exact Nat.zero_le _
    · rw [hd, members] at hms ⊢
      have hend := (high_end (fun ps' hlen => ih ps' (hlen.trans (Nat.le_succ _))) hr hspans hms).2.1
      rw [dashCount_cons, dashCount_stray]
      omega

theorem counted (u : Bool) (ps : List Piece) : Counted u ps := by
  induction hn : ps.length using Nat.strongRecOn generalizing ps with
  | ind n ih =>
    subst hn
    rcases ps with _ | ⟨p, ps⟩
    · exact ⟨fun _ _ _ => ⟨Nat.zero_le _, fun hno => absurd List.IsChain.nil hno⟩, nofun⟩
    · have hsmall : ∀ ps' : List Piece, ps'.length ≤ ps.length → Counted u ps' := fun ps' hlen =>
        ih _ (Nat.lt_succ_of_le hlen) ps' rfl
      refine ⟨fun spans h hms => counted_level hsmall h hms, ?_⟩
      rintro q qs heq spans h hms
      cases heq
      exact counted_ahead hsmall h hms

/-- A piece of four digits that is written alone is no half of a surrogate pair. -/
theorem noHalves_written {pat : Text} (h : ∀ m ∈ members false ps, ∃ t, abnfMemberText pat m.ends = .ok t) :
    NoHalves (members false ps) := by
  intro p hp
  rw [or_iff_not_imp_left, Bool.not_eq_true]
  intro hb
  obtain ⟨t, ht⟩ := h _ hp
  have hlen : p.written.length ≤ 4 := by
    obtain ⟨-, hw⟩ := Piece.core_unbraced hb
    unfold Piece.written
    rw [hb, if_neg Bool.false_ne_true]
    split
    · rename_i hz
      obtain ⟨s, hs⟩ := (abnfStarts_iff (List.cons_ne_nil _ _)).1 hz
      rw [← hs, abnfAfter_append (List.cons_ne_nil _ _), abnfHexUpper_length]
      rw [← hs, List.length_append] at hw
      omega
    · rw [abnfHexUpper_length, hw]
  have hascii : abnfAsciiCode (fourDigits p.written) = true := by
    have hsame : abnfSame p.written p.written = true := abnfSame_iff.2 rfl
    unfold abnfMemberText Member.ends at ht
    rw [if_pos hsame] at ht
    by_contra hno
    simp only [if_neg hno] at ht
    cases ht
  unfold abnfAsciiCode at hascii
  split at hascii
  · -- the first two of its four digits are zeros
    rename_i hz
    obtain ⟨s, hs⟩ := (abnfStarts_iff (List.cons_ne_nil _ _)).1 hz
    have hfour := fourDigits_length p.written_spec.1
    rw [← hs, List.length_append] at hfour
    have hdigits := fourDigits_digits (List.all_eq_true.2 p.written_spec.2.1)
    rw [← hs, List.all_append, Bool.and_eq_true] at hdigits
    have hvalue : p.value = ofDigits 16 s := by
      have hzero : ofDigits 16 ['0', '0'] = 0 := by decide
      rw [← p.written_spec.2.2.1, ← ofDigits_fourDigits, ← hs, ofDigits_append_eq, hzero, Nat.zero_mul, Nat.zero_add]
    have htwo : s.length = 2 := by
      rw [Nat.max_eq_left hlen, List.length_cons, List.length_singleton] at hfour
      omega
    have hlt := ofDigits_lt (List.all_eq_true.1 hdigits.2)
    rw [htwo] at hlt
    omega
  · cases hascii

/-! ## Which spellings are written as the class -/

theorem Member.holds_range {m : Member} {n : Nat} (h : m.low.value ≤ n ∧ n ≤ m.high.value) : m.Holds n := by
  unfold Member.Holds
  split
  · rename_i hfolds
    have heq : m.low.value = m.high.value := of_decide_eq_true (Bool.and_eq_true_iff.1 hfolds).2
    rw [Nat.le_antisymm (heq ▸ h.2) h.1]
  · exact h

/-- A plain class is written as the class. -/
theorem PlainClass.faithful {cls : JsClass} (hlast : ∀ p ∈ ps.getLast?, p.dash = false)
    (hcls : jsClass u (patternText false ps) = some cls) (h : PlainClass u ps) : Faithful u ps := by
  obtain ⟨spans, hspans, -, -⟩ := jsClass_ranges hcls
  obtain ⟨rfl, hall⟩ := spelt_ranges hlast h.apart hspans
  have hclass : classSpans u ps = (spelt ps).map Member.range := by rw [classSpans, hspans, Option.getD_some]
  rw [← members_apart h.apart] at hall hclass
  have hshort := h.short
  have hcased := h.cased
  rw [← members_apart h.apart] at hshort hcased
  refine ⟨fun m hm => (hall m hm).1, hshort, fun m hm => (hall m hm).2, fun n => ⟨?_, ?_⟩⟩
  · rintro ⟨m, hm, hn⟩
    unfold Member.Holds at hn
    split at hn
    · rename_i hfolds
      rw [hclass]
      exact hcased m hm hfolds n hn
    · rw [hclass]
      exact ⟨m.range, List.mem_map_of_mem hm, hn⟩
  · rw [hclass]
    rintro ⟨s, hs, hn⟩
    obtain ⟨m, hm, rfl⟩ := List.mem_map.1 hs
    exact ⟨m, hm, Member.holds_range hn⟩

/-- A class that is written as itself is plain, or two of its ranges hold a dash. -/
theorem Faithful.plain {cls : JsClass} (hlast : ∀ p ∈ ps.getLast?, p.dash = false)
    (hcls : jsClass u (patternText false ps) = some cls) (hhalves : NoHalves (members false ps)) (h : Faithful u ps) :
    PlainClass u ps ∨ 2 ≤ dashCount (classSpans u ps) := by
  obtain ⟨spans, hspans, -, -⟩ := jsClass_ranges hcls
  have hclass : classSpans u ps = spans := by rw [classSpans, hspans, Option.getD_some]
  by_cases hapart : DashesApart u ps
  · have hmembers := members_apart hapart
    refine .inl ⟨hapart, hmembers ▸ h.short, fun m hm hfolds n hn => ?_⟩
    rw [← (spelt_ranges hlast hapart hspans).1, ← hclass]
    refine (h.covers n).1 ⟨m, hmembers ▸ hm, ?_⟩
    rw [Member.Holds, if_pos hfolds]
    exact hn
  · -- a dash is read as a member that is not written, so one that is written is another
    have hlt := ((counted u ps).level spans hspans hhalves).2 hapart
    rw [hclass]
    right
    obtain ⟨s, hs, hdash⟩ : ∃ s ∈ spans, decide (s.1 ≤ 0x2D ∧ 0x2D ≤ s.2) = true :=
      List.countP_pos_iff.1 (Nat.zero_lt_of_lt hlt)
    obtain ⟨m, hm, hn⟩ := (h.covers 0x2D).2 ⟨s, hclass ▸ hs, of_decide_eq_true hdash⟩
    have hrange : m.low.value ≤ 0x2D ∧ 0x2D ≤ m.high.value := by
      unfold Member.Holds at hn
      split at hn
      · rename_i hfolds
        have heq : m.low.value = m.high.value := of_decide_eq_true (Bool.and_eq_true_iff.1 hfolds).2
        have hlow : m.low.value = 0x2D := by
          unfold lowerUnit at hn
          split at hn <;> split at hn <;> omega
        omega
      · exact hn
    have hpos : 0 < dashesWritten (members false ps) := by
      refine List.countP_pos_iff.2 ⟨m.range, List.mem_map_of_mem hm, ?_⟩
      exact decide_eq_true hrange
    omega

end

/-- A class whose pieces, if it is written of pieces, are spelt plainly. -/
def ClassPlain (pat flags : Text) : Prop := ∀ ps, pat = patternText false ps → PlainClass (flags == ['u']) ps

/-- A class that is plain is whole; one that is whole is plain, or two of its ranges hold a dash. -/
theorem whole_plain {pat flags out : Text} {cls : JsClass} (hpat : abnfClassPattern pat = true)
    (hflags : abnfFlagsFit pat flags = true) (hcls : jsClass (flags == ['u']) pat = some cls)
    (hout : abnfClassText pat flags = .ok out) :
    (ClassPlain pat flags → ClassWhole pat flags) ∧
      (ClassWhole pat flags → ClassPlain pat flags ∨ 2 ≤ dashCount cls.spans) := by
  rcases abnfClassText_cases hpat hflags hcls hout with ⟨rfl, rfl, rfl⟩ | ⟨ps, rfl, hrange⟩
  · exact ⟨fun _ ps h => absurd h.symm (patternText_ne_any ps),
      fun _ => .inl fun ps h => absurd h.symm (patternText_ne_any ps)⟩
  have hlast := abnfClassPattern_last hpat
  constructor
  · intro h qs hqs
    cases patternText_injective hqs
    exact (h ps rfl).faithful hlast hcls
  · intro h
    obtain ⟨-, text, htext, -⟩ := abnfRangeText_members hlast hrange
    have hspans : cls.spans = classSpans (flags == ['u']) ps := by rw [(jsClass_patternText hcls).1]
    rcases (h ps rfl).plain hlast hcls (noHalves_written fun m hm => ⟨_, htext m hm⟩) with hplain | hdash
    · exact .inl fun qs hqs => patternText_injective hqs ▸ hplain
    · exact .inr (hspans ▸ hdash)

/-- A class that is written is read as one element that is the class where it is spelt plainly, and elsewhere only
if two of its ranges hold a dash. -/
theorem abnfClassText_exact {pat flags out : Text} {cls : JsClass} (hpat : abnfClassPattern pat = true)
    (hflags : abnfFlagsFit pat flags = true) (hcls : jsClass (flags == ['u']) pat = some cls)
    (hout : abnfClassText pat flags = .ok out) :
    (ClassPlain pat flags → ReadsAs out (IsClass cls)) ∧
      (ReadsAs out (IsClass cls) → ClassPlain pat flags ∨ 2 ≤ dashCount cls.spans) := by
  rw [(class_readsIf hpat hflags hcls hout).reads_as]
  exact whole_plain hpat hflags hcls hout

/-- A member with a dash left over is read as two elements. -/
theorem dangling_reads {pat out : Text} {m : Member} (hlo : m.low.value ≤ 0x10FFFF) (hhi : m.high.value ≤ 0x10FFFF)
    (hdang : m.dangling = true) (h : abnfMemberText pat m.ends = .ok out) :
    (ReadsAlts out fun as => ∃ e sp, as = [[e, .ref ['-'] sp]]) ∧ ∀ P, ¬ ReadsAs out P := by
  obtain ⟨ls, hp⟩ := phrase_member hlo hhi h
  have hdash : Phrase DAtoms out ls fun x => ∃ sp, seqIr x.2 = [.ref ['-'] sp] := by
    refine hp.mono fun x hx => ?_
    rwa [Member.ReadsTo, hdang, if_pos rfl] at hx
  constructor
  · have htwo : ReadsIf DAtoms atomsIr out (fun es => ∃ e sp, es = [e, .ref ['-'] sp]) True := by
      refine ⟨ls, hdash.mono ?_⟩
      rintro ⟨a, es⟩ ⟨sp, hes⟩
      exact iff_true_intro ⟨atomIr a, sp, by rw [atomsIr, hes]⟩
    refine (htwo.once.single.alternative.reads.2 trivial).mono ?_
    rintro _ ⟨_, rfl, e, sp, rfl⟩
    exact ⟨e, sp, rfl⟩
  · intro P hreads
    have hnone : ReadsIf DAtoms atomsIr out (One P) False := by
      refine ⟨ls, hdash.mono ?_⟩
      rintro ⟨a, es⟩ ⟨sp, hes⟩
      rw [atomsIr, one_cons, hes]
      refine iff_false_intro ?_
      rintro ⟨hnil, -⟩
      cases hnil
    exact hnone.reads_as.1 hreads

/-- The piece of four digits. -/
def fourPiece (hex : Text) (dash : Bool) (digits : hex.all (isDigit 16) = true) (width : hex.length = 4) : Piece :=
  ⟨false, hex, dash, digits, width⟩

/-- `[\u0061-\u007a\u005f]` is written `( %x61-7A / "_" )`. -/
theorem abnfClassText_exact_words :
    ReadsAs "( %x61-7A / \"_\" )".toList (IsClass ⟨false, false, [(0x61, 0x7A), (0x5F, 0x5F)]⟩) := by
  let ps : List Piece := [fourPiece ['0', '0', '6', '1'] true rfl rfl, fourPiece ['0', '0', '7', 'a'] false rfl rfl,
    fourPiece ['0', '0', '5', 'f'] false rfl rfl]
  have hpat : abnfClassPattern (patternText false ps) = true := by decide +kernel
  have hflags : abnfFlagsFit (patternText false ps) [] = true := by decide +kernel
  have hcls : jsClass false (patternText false ps) = some ⟨false, false, [(0x61, 0x7A), (0x5F, 0x5F)]⟩ := by
    decide +kernel
  have hout : abnfClassText (patternText false ps) [] = .ok "( %x61-7A / \"_\" )".toList := by decide +kernel
  refine (abnfClassText_exact hpat hflags hcls hout).1 fun qs hqs => ?_
  cases patternText_injective hqs
  exact .of_unfolded (by decide +kernel) (by decide +kernel)

/-- `[\u0061-\u007a-\u0039]`, of the letters, a dash and `9`, is written `%x61-7A-`, which is read as a range and a
reference to a rule `-`. -/
theorem abnfClassText_dash :
    let pat := "[\\u0061-\\u007a-\\u0039]".toList
    let out := "%x61-7A-".toList
    abnfClassPattern pat = true ∧ abnfFlagsFit pat [] = true ∧
      jsClass false pat = some ⟨false, false, [(0x61, 0x7A), (0x2D, 0x2D), (0x39, 0x39)]⟩ ∧
      abnfClassText pat [] = .ok out ∧ (ReadsAlts out fun as => ∃ e sp, as = [[e, .ref ['-'] sp]]) ∧
      ∀ P, ¬ ReadsAs out P := by
  intro pat out
  refine ⟨by decide +kernel, by decide +kernel, by decide +kernel, by decide +kernel, ?_⟩
  let m : Member :=
    .span (fourPiece ['0', '0', '6', '1'] true rfl rfl) (fourPiece ['0', '0', '7', 'a'] true rfl rfl)
  have htext : abnfMemberText pat m.ends = .ok out := by decide +kernel
  exact dangling_reads (m := m) (by decide) (by decide) rfl htext

end TabnasAbnf.Render
