/-
The repeat counts of the Go port. A count is read by `strconv.Atoi`, whose error is dropped and read
as zero, and "no bound" is a number among the others. What the productions of a source mean is
compared with what the source writes, where a count has any length and no bound is none.
-/
import TabnasAbnf.Meta.Ports

namespace TabnasAbnf.Meta

open TabnasAbnf.Engine TabnasAbnf.Base TabnasAbnf.Passes

variable {α ε : Type}

/-! ## The bounds as written -/

/-- The low end of a repeat, zero where it is left out. -/
def Reps.low : Reps → Nat
  | .once => 1
  | .bounded n _ | .atleast n | .exact n => n.count
  | .atmost _ | .star => 0

/-- The high end of a repeat, none where it is left out. -/
def Reps.high : Reps → Option Nat
  | .once => some 1
  | .bounded _ m | .atmost m => some m.count
  | .exact n => some n.count
  | .atleast _ | .star => none

/-- An element repeated between two bounds: bare, a star, a plus, an option or a repetition. -/
def between (low : Int) (high : Option Int) (e : Element α (Option Int)) : Element α (Option Int) :=
  if low = 1 ∧ high = some 1 then e
  else if low = 0 ∧ high = none then .star e
  else if low = 1 ∧ high = none then .plus e
  else if low = 0 ∧ high = some 1 then .opt e none
  else .rep (some low) high e

/-- The productions of a tree with every repeat as it is written. -/
def written (num : Tok → α) : Builder α (Option Int) :=
  ⟨num, fun r e => between r.low (r.high.map Int.ofNat) e⟩

/-! ## The bounds as meant -/

namespace Go

variable (maxInfinity : Int)

/-- The high end a bound stands for. -/
def highOf (b : Int) : Option Int := if b = maxInfinity then none else some b

mutual

/-- An element with its bounds as they are meant: the mark is a bound only at the high end. -/
def meant : Element α Int → Element α (Option Int)
  | .term literal caseSensitive sp => .term literal caseSensitive sp
  | .value a => .value a
  | .prose text sp => .prose text sp
  | .ref name sp => .ref name sp
  | .group alts sp => .group (meantAlts alts) sp
  | .opt inner sp => .opt (meant inner) sp
  | .star inner => .star (meant inner)
  | .plus inner => .plus (meant inner)
  | .rep min max inner => .rep (some min) (highOf maxInfinity max) (meant inner)
  | .hole => .hole

def meantSeq : List (Element α Int) → List (Element α (Option Int))
  | [] => []
  | e :: es => meant e :: meantSeq es

def meantAlts : List (List (Element α Int)) → List (List (Element α (Option Int)))
  | [] => []
  | s :: as => meantSeq s :: meantAlts as

end

def meantRules (ps : Rules α Int) : Rules α (Option Int) := ps.map (Production.map (meantSeq maxInfinity))

theorem meantAlts_eq (as : List (List (Element α Int))) :
    meantAlts maxInfinity as = as.map (meantSeq maxInfinity) := by
  induction as with
  | nil => rfl
  | cons s as ih => rw [meantAlts, List.map_cons, ih]

theorem meant_bracket (k : GroupKind) (alts : List (List (Element α Int))) (sp : Option Span) :
    meant maxInfinity (bracket k alts sp) = bracket k (meantAlts maxInfinity alts) sp := by
  cases k <;> rfl

end Go

/-! ## One repeat -/

/-- A repeat the port can hold: each count is a 64-bit integer, and the high end is not the mark. -/
def Reps.Fits (maxInfinity : Int) (r : Reps) : Prop :=
  (∀ t ∈ r.counts, t.count < 2 ^ 63) ∧ ∀ n, r.high = some n → (n : Int) ≠ maxInfinity

theorem atoi_count {t : Tok} (hk : t.kind = .NUM) :
    Go.atoi t.text = if t.count < 2 ^ 63 then (t.count : Int) else 0 := by
  obtain ⟨hne, hd⟩ := t.digits hk
  have hall : t.text.all (isDigit 10) = true := List.all_eq_true.2 hd
  rw [Go.atoi]
  simp only [ne_eq, hne, not_false_eq_true, hall, true_and, Tok.count]
  rfl

theorem atoi_eq_count_iff {t : Tok} (hk : t.kind = .NUM) : Go.atoi t.text = (t.count : Int) ↔ t.count < 2 ^ 63 := by
  rw [atoi_count hk]
  split <;> omega

section

variable {maxInfinity : Int}

theorem Go.highOf_self : Go.highOf maxInfinity maxInfinity = none := if_pos rfl

theorem Go.highOf_eq_some {b n : Int} : Go.highOf maxInfinity b = some n ↔ b = n ∧ n ≠ maxInfinity := by
  unfold Go.highOf
  split
  · rename_i h
    subst h
    simp only [reduceCtorEq, false_iff, not_and, not_not]
    exact fun h => h.symm
  · rename_i h
    simp only [Option.some.injEq]
    exact ⟨fun he => ⟨he, he ▸ h⟩, And.left⟩

/-- The bounds an action reads mean what the repeat writes exactly where the port can hold it. -/
theorem Go.boundsOf_exact {r : Reps} (hk : ∀ t ∈ r.counts, t.kind = .NUM) :
    ((Go.boundsOf maxInfinity r).1 = r.low ∧
      Go.highOf maxInfinity (Go.boundsOf maxInfinity r).2 = r.high.map Int.ofNat) ↔
      r.Fits maxInfinity := by
  cases r with
  | once => simp [Go.boundsOf, Reps.low, Reps.high, Reps.Fits, Reps.counts, Go.highOf_eq_some]
  | bounded n m =>
    have hn := atoi_eq_count_iff (hk n (by simp [Reps.counts]))
    have hm := atoi_eq_count_iff (hk m (by simp [Reps.counts]))
    simp [Go.boundsOf, Reps.low, Reps.high, Reps.Fits, Reps.counts, Go.highOf_eq_some, hn, hm, and_assoc]
  | atleast n =>
    have hn := atoi_eq_count_iff (hk n (by simp [Reps.counts]))
    simp [Go.boundsOf, Reps.low, Reps.high, Reps.Fits, Reps.counts, Go.highOf_self, hn]
  | atmost m =>
    have hm := atoi_eq_count_iff (hk m (by simp [Reps.counts]))
    simp [Go.boundsOf, Reps.low, Reps.high, Reps.Fits, Reps.counts, Go.highOf_eq_some, hm]
  | star => simp [Go.boundsOf, Reps.low, Reps.high, Reps.Fits, Reps.counts, Go.highOf_self]
  | exact n =>
    have hn := atoi_eq_count_iff (hk n (by simp [Reps.counts]))
    simp [Go.boundsOf, Reps.low, Reps.high, Reps.Fits, Reps.counts, Go.highOf_eq_some, hn]

/-- What the port wraps an item in, by what its bounds mean. -/
theorem Go.meant_repeated (hinf : maxInfinity ≠ 1) (min max : Int) (x : Element α Int) :
    Go.meant maxInfinity (Go.repeated maxInfinity min max x) =
      between min (Go.highOf maxInfinity max) (Go.meant maxInfinity x) := by
  have hone : Go.highOf maxInfinity max = some 1 ↔ max = 1 := by
    rw [Go.highOf_eq_some]
    exact ⟨And.left, fun h => ⟨h, hinf.symm⟩⟩
  have hnone : Go.highOf maxInfinity max = none ↔ max = maxInfinity := by
    unfold Go.highOf
    split <;> simp_all
  unfold Go.repeated between
  simp only [hone, hnone]
  repeat' split
  all_goals rfl

theorem between_item {low : Int} {high : Option Int} {x y : Element α (Option Int)} :
    between low high x = between low high y ↔ x = y := by
  refine ⟨fun h => ?_, fun h => by rw [h]⟩
  unfold between at h
  repeat' split at h
  · exact h
  · exact Element.star.inj h
  · exact Element.plus.inj h
  · exact (Element.opt.inj h).1
  · exact (Element.rep.inj h).2.2

/-- Two wrapped items are the same only under the same bounds. -/
theorem between_bounds {low low' : Int} {high high' : Option Int} {x y : Element α (Option Int)}
    (hbare : ¬ (low = 1 ∧ high = some 1)) (hbare' : ¬ (low' = 1 ∧ high' = some 1))
    (h : between low high x = between low' high' y) : low = low' ∧ high = high' := by
  unfold between at h
  rw [if_neg hbare, if_neg hbare'] at h
  repeat' split at h
  all_goals cases h
  all_goals simp_all

/-- A repeat written for a bare item can be held. -/
theorem Reps.fits_of_bare (hinf : maxInfinity ≠ 1) {r : Reps} (hlow : r.low = 1) (hhigh : r.high = some 1) :
    r.Fits maxInfinity := by
  constructor
  · intro t ht
    cases r with
    | once | star => cases ht
    | atleast n => cases hhigh
    | atmost m => cases hlow
    | bounded n m =>
      rcases List.mem_pair.1 ht with rfl | rfl
      · exact lt_of_eq_of_lt hlow (by decide)
      · exact lt_of_eq_of_lt (Option.some.inj hhigh) (by decide)
    | exact n =>
      rw [List.mem_singleton.1 ht]
      exact lt_of_eq_of_lt hlow (by decide)
  · intro n hn
    obtain rfl : 1 = n := Option.some.inj (hhigh.symm.trans hn)
    exact hinf.symm

theorem atoi_eq_one {t : Tok} (hk : t.kind = .NUM) : Go.atoi t.text = 1 ↔ t.count = 1 := by
  rw [atoi_count hk]
  split <;> omega

/-- The port makes a bare item of the repeats written so. -/
theorem Go.bare_iff (hinf : maxInfinity ≠ 1) {r : Reps} (hk : ∀ t ∈ r.counts, t.kind = .NUM) :
    ((Go.boundsOf maxInfinity r).1 = 1 ∧ (Go.boundsOf maxInfinity r).2 = 1) ↔ r.low = 1 ∧ r.high = some 1 := by
  cases r with
  | once => simp [Go.boundsOf, Reps.low, Reps.high]
  | bounded n m =>
    have hn := atoi_eq_one (hk n (by simp [Reps.counts]))
    have hm := atoi_eq_one (hk m (by simp [Reps.counts]))
    simp [Go.boundsOf, Reps.low, Reps.high, hn, hm]
  | atleast n => simp [Go.boundsOf, Reps.low, Reps.high, hinf]
  | atmost m => simp [Go.boundsOf, Reps.low, Reps.high]
  | star => simp [Go.boundsOf, Reps.low, Reps.high]
  | exact n =>
    have hn := atoi_eq_one (hk n (by simp [Reps.counts]))
    simp [Go.boundsOf, Reps.low, Reps.high, hn]

/-- The element the port makes of a repeat means what is written exactly where the port can hold
the repeat, and means it of its item. -/
theorem Go.wrap_exact (hinf : maxInfinity ≠ 1) {r : Reps} (hk : ∀ t ∈ r.counts, t.kind = .NUM)
    {x : Element α Int} (hx : x ≠ .hole) (y : Element α (Option Int)) :
    Go.meant maxInfinity (Go.wrap maxInfinity r x) = between r.low (r.high.map Int.ofNat) y ↔
      r.Fits maxInfinity ∧ Go.meant maxInfinity x = y := by
  rw [Go.wrap_eq hx, Go.meant_repeated hinf]
  by_cases hf : r.Fits maxInfinity
  · obtain ⟨hlow, hhigh⟩ := (Go.boundsOf_exact hk).2 hf
    rw [hlow, hhigh, between_item]
    exact (and_iff_right hf).symm
  · refine ⟨fun h => ?_, fun h => absurd h.1 hf⟩
    -- neither side is the bare item, so the two wrappings can be told apart
    have hbare : ¬ (r.low = 1 ∧ r.high = some 1) := fun hb => hf (Reps.fits_of_bare hinf hb.1 hb.2)
    refine absurd ((Go.boundsOf_exact hk).1 (between_bounds ?_ ?_ h)) hf
    · rw [Go.highOf_eq_some]
      exact fun hb => hbare ((Go.bare_iff hinf hk).1 ⟨hb.1, hb.2.1⟩)
    · rintro ⟨hlow, hhigh⟩
      apply hbare
      constructor
      · exact_mod_cast hlow
      · obtain ⟨n, hn, h1⟩ := Option.map_eq_some_iff.1 hhigh
        rw [hn]
        exact congrArg some (Int.ofNat.inj h1)

end

/-! ## Trees -/

section

variable (maxInfinity : Int)

mutual

/-- Every repeat of a tree can be held. -/
def CAtom.Fits : CAtom → Prop
  | .leaf _ | .hole => True
  | .group _ _ _ as => AltsFit as

def SeqFits : CSeq → Prop
  | [] => True
  | (r, a) :: es => r.Fits maxInfinity ∧ a.Fits ∧ SeqFits es

def AltsFit : CAlts → Prop
  | [] => True
  | s :: as => SeqFits s ∧ AltsFit as

end

end

section

variable {maxInfinity : Int} (num : Tok → α × Option ε)

mutual

theorem Go.atom_exact (hinf : maxInfinity ≠ 1) : (a : CAtom) → a.whole = true → a.Over (fun _ => True) →
    (Go.meant maxInfinity ((Go.builder maxInfinity num).atom a) = (written fun t => (num t).1).atom a ↔
      a.Fits maxInfinity)
  | .leaf l, _, _ => by cases l <;> exact iff_of_true rfl trivial
  | .group k op cl as, hw, ho => by
    have has := Go.alts_exact hinf as hw ho
    rw [Builder.atom, Builder.atom, Go.meant_bracket, CAtom.Fits, ← has]
    cases k <;> simp [bracket]

theorem Go.seq_exact (hinf : maxInfinity ≠ 1) : (es : CSeq) → wholeSeq es = true → SeqOver (fun _ => True) es →
    (Go.meantSeq maxInfinity ((Go.builder maxInfinity num).seq es) = (written fun t => (num t).1).seq es ↔
      SeqFits maxInfinity es)
  | [], _, _ => iff_of_true rfl trivial
  | (r, a) :: es, hw, ho => by
    obtain ⟨hwa, hws⟩ := Bool.and_eq_true_iff.1 hw
    have hwrap := Go.wrap_exact hinf (fun t ht => (ho.1 t ht).1)
      (Builder.Agrees.atom_ne_hole (Go.builder maxInfinity num) hwa) ((written fun t => (num t).1).atom a)
    rw [Go.atom_exact hinf a hwa ho.2.1] at hwrap
    rw [Builder.seq, Builder.seq, Go.meantSeq, List.cons.injEq, Go.seq_exact hinf es hws ho.2.2, SeqFits, ← and_assoc]
    exact and_congr_left' hwrap

theorem Go.alts_exact (hinf : maxInfinity ≠ 1) : (as : CAlts) → wholeAlts as = true → AltsOver (fun _ => True) as →
    (Go.meantAlts maxInfinity ((Go.builder maxInfinity num).alts as) = (written fun t => (num t).1).alts as ↔
      AltsFit maxInfinity as)
  | [], _, _ => iff_of_true rfl trivial
  | s :: as, hw, ho => by
    obtain ⟨hws, hwa⟩ := Bool.and_eq_true_iff.1 hw
    rw [Builder.alts, Builder.alts, Go.meantAlts, List.cons.injEq, Go.seq_exact hinf s hws ho.1,
      Go.alts_exact hinf as hwa ho.2, AltsFit]

end

theorem Go.prods_exact (hinf : maxInfinity ≠ 1) {ps : List CProd} (hw : ∀ p ∈ ps, p.whole = true)
    (ho : ∀ p ∈ ps, AltsOver (fun _ => True) p.alts) :
    Go.meantRules maxInfinity (ps.map (Go.builder maxInfinity num).prod) = ps.map (written fun t => (num t).1).prod ↔
      ∀ p ∈ ps, AltsFit maxInfinity p.alts := by
  rw [Go.meantRules, List.map_map, List.map_inj_left]
  refine forall₂_congr fun p hp => ?_
  rw [← Go.alts_exact num hinf p.alts (hw p hp) (ho p hp), Go.meantAlts_eq]
  simp [Production.map, Builder.prod]

end

/-! ## A source -/

/-- The port accepts the sources that derive and name no value it refuses. -/
theorem Go.parseAbnf_ok {maxInfinity : Int} {num : Tok → α × Option ε} {d₀ : Nat} {engine : Go.Engine α ε}
    (he : (Go.grammar maxInfinity num).Implements .abnf d₀ engine) (tokens : List Tok) (rules : Rules α Int) :
    Go.parseAbnf engine holesRejected tokens = .ok rules ↔
      ∃ ps, Derives tokens ps ∧ (∀ t ∈ tokens, t.kind = .NV → (num t).2 = none) ∧
        rules = ps.map (Go.builder maxInfinity num).prod := by
  rw [Go.parseAbnf, Go.parseAbnfRaw_eq he]
  constructor
  · intro h
    cases hf : (reading (fun _ => false) (fun _ => false) tokens).log.findSome? fun t => (num t).2 with
    | some e => rw [hf] at h; cases h
    | none =>
      rw [hf] at h
      cases hx : (reading (fun _ => false) (fun _ => false) tokens).res with
      | error e => rw [hx] at h; cases e <;> cases h
      | ok ps =>
        rw [hx] at h
        obtain ⟨hne, hw, rfl⟩ := (holesRejected_ok (Go.builder_honest maxInfinity num)).1 h
        have hd : Derives tokens ps := derives_iff.2 ⟨hx, hne, hw⟩
        rw [hd.reading.1, List.findSome?_eq_none_iff] at hf
        exact ⟨ps, hd, fun t ht hk => hf t (by simp [numericsOf, ht, hk]), rfl⟩
  · rintro ⟨ps, hd, hnum, rfl⟩
    obtain ⟨hread, hne, hw⟩ := hd.reading
    have hf : ((numericsOf tokens).findSome? fun t => (num t).2) = none := by
      refine List.findSome?_eq_none_iff.2 fun t ht => ?_
      obtain ⟨ht, hk⟩ := List.mem_filter.1 ht
      exact hnum t ht (by simpa using hk)
    rw [hread]
    simp only [hf]
    exact (holesRejected_ok (Go.builder_honest maxInfinity num)).2 ⟨hne, hw, rfl⟩

/-- What a source derives counts with its count tokens. -/
theorem Derives.over {tokens : List Tok} {ps : List CProd} (h : Derives tokens ps) :
    ∀ p ∈ ps, AltsOver (fun _ => True) p.alts :=
  (reading_over (P := fun _ => True) (fun _ => false) (fun _ => false) fun _ _ => trivial).2 ps (derives_iff.1 h).1

/-- A source is refused or means what it writes exactly where the port can hold every repeat the
source derives: each count below `2^63`, and none at a high end the mark for no bound. Otherwise it
is accepted and means something else. -/
theorem Go.counts_exact {maxInfinity : Int} (hinf : maxInfinity ≠ 1) {num : Tok → α × Option ε} {d₀ : Nat}
    {engine : Go.Engine α ε} (he : (Go.grammar maxInfinity num).Implements .abnf d₀ engine) (tokens : List Tok) :
    (∀ rules, Go.parseAbnf engine holesRejected tokens = .ok rules →
      ∃ ps, Derives tokens ps ∧ Go.meantRules maxInfinity rules = ps.map (written fun t => (num t).1).prod) ↔
      ∀ ps, Derives tokens ps → (∀ t ∈ tokens, t.kind = .NV → (num t).2 = none) →
        ∀ p ∈ ps, AltsFit maxInfinity p.alts := by
  constructor
  · intro h ps hd hnum
    obtain ⟨ps', hd', hm⟩ := h _ ((Go.parseAbnf_ok he tokens _).2 ⟨ps, hd, hnum, rfl⟩)
    obtain rfl := hd.unique hd'
    exact (Go.prods_exact num hinf hd.reading.2.2 hd.over).1 hm
  · intro h rules hr
    obtain ⟨ps, hd, hnum, rfl⟩ := (Go.parseAbnf_ok he tokens rules).1 hr
    exact ⟨ps, hd, (Go.prods_exact num hinf hd.reading.2.2 hd.over).2 (h ps hd hnum)⟩

/-- `a = 2*3"x"` is refused or means what it writes. -/
theorem Go.counts_exact_held :
    let x : Tok := ⟨.ST ['x'], 7, 3, 1, 8⟩
    let num (n : Digits) (i : Nat) : Tok := ⟨.NUM n, i, 1, 1, i + 1⟩
    let tokens : List Tok :=
      [⟨.TX ['a'], 0, 1, 1, 1⟩, ⟨.DEF, 2, 1, 1, 3⟩, num ⟨['2'], by decide⟩ 4, ⟨.STAR, 5, 1, 1, 6⟩,
      num ⟨['3'], by decide⟩ 6, x]
    ∀ rules, Go.parseAbnf (Go.machine 9223372036854775807 Go.numericOf 0) holesRejected tokens = .ok rules →
      ∃ ps, Derives tokens ps ∧
        Go.meantRules 9223372036854775807 rules = ps.map (written fun t => (Go.numericOf t).1).prod := by
  intro x num tokens
  have hd : Derives tokens [⟨.plain, ⟨.TX ['a'], 0, 1, 1, 1⟩,
      [[(.bounded (num ⟨['2'], by decide⟩ 4) (num ⟨['3'], by decide⟩ 6), .leaf (.st x))]]⟩] :=
    .one rfl (.one (.cons (.bounded rfl rfl rfl) (.st rfl) .nil))
  refine (Go.counts_exact (by decide) (Grammar.engine_implements _ _ _ _) tokens).2 fun ps hps _ p hp => ?_
  obtain rfl := hps.unique hd
  rw [List.mem_singleton.1 hp]
  refine ⟨⟨⟨?_, ?_⟩, trivial, trivial⟩, trivial⟩
  · intro t ht
    rcases List.mem_pair.1 ht with rfl | rfl <;> decide
  · intro n hn
    obtain rfl : 3 = n := Option.some.inj hn
    decide

/-- `a = 9223372036854775808*"x"` is accepted, and its count is read as zero: the element is a star. -/
theorem Go.count_read_as_zero :
    let n : Digits := ⟨['9', '2', '2', '3', '3', '7', '2', '0', '3', '6', '8', '5', '4', '7', '7', '5', '8', '0', '8'],
      by decide⟩
    let x : Tok := ⟨.ST ['x'], 24, 3, 1, 25⟩
    let tokens : List Tok :=
      [⟨.TX ['a'], 0, 1, 1, 1⟩, ⟨.DEF, 2, 1, 1, 3⟩, ⟨.NUM n, 4, 19, 1, 5⟩, ⟨.STAR, 23, 1, 1, 24⟩, x]
    let go := Go.machine 9223372036854775807 Go.numericOf 0
    ∃ rules, Go.parseAbnf go holesRejected tokens = .ok rules ∧
      rules.map (·.alts) = [[[.star (.term ['x'] false (some (spanOf x)))]]] ∧
      ¬ ∃ ps, Derives tokens ps ∧
        Go.meantRules 9223372036854775807 rules = ps.map (written fun t => (Go.numericOf t).1).prod := by
  intro n x tokens go
  have hd : Derives tokens [⟨.plain, ⟨.TX ['a'], 0, 1, 1, 1⟩,
      [[(.atleast ⟨.NUM n, 4, 19, 1, 5⟩, .leaf (.st x))]]⟩] :=
    .one rfl (.one (.cons (.atleast rfl rfl) (.st rfl) .nil))
  refine ⟨_, (Go.parseAbnf_ok (Grammar.engine_implements _ _ _ _) tokens _).2 ⟨_, hd, ?_, rfl⟩, ?_, ?_⟩
  · have hkind : ∀ t ∈ tokens, t.kind ≠ .NV := by decide
    exact fun t ht hk => absurd hk (hkind t ht)
  · rfl
  · rintro ⟨ps, hps, hm⟩
    obtain rfl := hps.unique hd
    have hfit := (Go.prods_exact Go.numericOf (by decide) hd.reading.2.2 hd.over).1 hm _ List.mem_cons_self
    exact absurd (hfit.1.1.1 _ List.mem_cons_self) (by decide)

end TabnasAbnf.Meta
