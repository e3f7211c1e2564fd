/-
The Rust port's cap on rule levels, read as a bound on brackets. A bracket costs four levels, so what
the parse returns nests no brackets past the cap's share, and a source that nests fewer is never
refused for its depth, whatever else it holds.
-/
import TabnasAbnf.Meta.Numeric
import TabnasAbnf.Meta.Refusal

namespace TabnasAbnf.Meta

open TabnasAbnf.Engine TabnasAbnf.Base TabnasAbnf.Passes

variable {α β ε : Type}

/-! ## How deep brackets nest -/

mutual

/-- How deep brackets nest in an atom. -/
def CAtom.nest : CAtom → Nat
  | .leaf _ | .hole => 0
  | .group _ _ _ as => nestAlts as + 1

def nestSeq : CSeq → Nat
  | [] => 0
  | (_, a) :: es => max a.nest (nestSeq es)

def nestAlts : CAlts → Nat
  | [] => 0
  | s :: as => max (nestSeq s) (nestAlts as)

end

mutual

/-- How deep brackets nest in an element. An option in brackets holds them as a group. -/
def Element.brackets : Element α β → Nat
  | .group alts _ => bracketsAlts alts + 1
  | .opt inner _ | .star inner | .plus inner | .rep _ _ inner => inner.brackets
  | _ => 0

def bracketsSeq : List (Element α β) → Nat
  | [] => 0
  | e :: es => max e.brackets (bracketsSeq es)

def bracketsAlts : List (List (Element α β)) → Nat
  | [] => 0
  | s :: as => max (bracketsSeq s) (bracketsAlts as)

end

mutual

/-- How deep a walk over an element goes, every wrapping counted. -/
def Element.height : Element α β → Nat
  | .group alts _ => heightAlts alts + 1
  | .opt inner _ | .star inner | .plus inner | .rep _ _ inner => inner.height + 1
  | _ => 1

def heightSeq : List (Element α β) → Nat
  | [] => 0
  | e :: es => max e.height (heightSeq es)

def heightAlts : List (List (Element α β)) → Nat
  | [] => 0
  | s :: as => max (heightSeq s) (heightAlts as)

end

/-! ## A reading nests within the cap -/

theorem closeAtom_nest (g : GroupKind) (op : Tok) (as : CAlts) (ts : List Tok) :
    (closeAtom g op as ts).1.nest ≤ nestAlts as + 1 := by
  obtain _ | ⟨t, ts⟩ := ts
  · exact Nat.zero_le _
  · rw [closeAtom]
    split
    · exact le_rfl
    · exact Nat.zero_le _

section

variable {deep : Nat → Bool} {cap : Nat} (hcap : ∀ k, cap ≤ k → deep k = true) (stop : Tok → Bool)

include hcap

/-- What is read `k` brackets deep nests no more of them than the cap leaves. -/
theorem nest_closed :
    ReadClosed stop deep (fun k _ as _ => nestAlts as ≤ cap - k) (fun k _ _ es _ => nestSeq es ≤ cap - k)
    (fun k _ a _ => a.nest ≤ cap - k) where
  last _ _ _ _ hs _ := max_le hs (Nat.zero_le _)
  slash _ _ _ _ _ _ _ hs _ has := max_le hs has
  stops _ _ _ _ := Nat.zero_le _
  item _ _ _ _ _ _ _ ha hes _ := max_le ha hes
  value _ _ _ _ _ := Nat.zero_le _
  bracket k g t ts as ts₁ _ hd has := by
    have hk : k < cap := by
      by_contra hle
      rw [hcap k (by omega)] at hd
      cases hd
    have hclose := closeAtom_nest g t as ts₁
    omega
  leaf _ _ _ _ _ := Nat.zero_le _

theorem reading_nest {ts : List Tok} {ps : List CProd} (h : (reading stop deep ts).res = .ok ps) :
    ∀ p ∈ ps, nestAlts p.alts ≤ cap := by
  obtain ⟨-, rfl⟩ | h := readTop_eq_ok h
  · exact fun p hp => absurd hp List.not_mem_nil
  · refine readProds_induct (A := fun _ as _ => nestAlts as ≤ cap) (P := fun _ ps _ => ∀ p ∈ ps, nestAlts p.alts ≤ cap)
      (fun n ts as rest halts => ((nest_closed hcap stop).reads n).1 0 _ _ _ halts) ?_ ?_ _ h
    · intro _ _ _ _ _ _ _ has
      simpa using has
    · intro _ _ _ _ _ _ _ _ _ has _ hps
      simpa using ⟨has, hps⟩

end

/-! ## The elements of a tree -/

namespace Rust

theorem repeated_brackets (min max : JsNum) (e : Elem α) : (repeated min max e).brackets = e.brackets := by
  unfold repeated
  repeat' split
  all_goals rfl

theorem repeated_height (min max : JsNum) (e : Elem α) : (repeated min max e).height ≤ e.height + 1 := by
  unfold repeated
  repeat' split
  all_goals first | exact le_rfl | exact Nat.le_succ _

theorem wrap_brackets (r : Reps) (e : Elem α) : (wrap r e).brackets = e.brackets := by
  cases e <;> first | rfl | exact repeated_brackets ..

theorem wrap_height (r : Reps) (e : Elem α) : (wrap r e).height ≤ e.height + 1 := by
  cases e <;> first | exact Nat.le_succ _ | exact repeated_height ..

variable (num : Tok → α × Option ε)

mutual

theorem atom_brackets : (a : CAtom) → ((builder num).atom a).brackets = a.nest
  | .leaf l => by cases l <;> rfl
  | .group g op cl as => by
    rw [Builder.atom, CAtom.nest, ← alts_brackets as]
    cases g <;> rfl
  | .hole => rfl

theorem seq_brackets : (es : CSeq) → bracketsSeq ((builder num).seq es) = nestSeq es
  | [] => rfl
  | (r, a) :: es => by
    rw [Builder.seq, bracketsSeq, nestSeq, ← seq_brackets es, ← atom_brackets a]
    exact congrArg (max · _) (wrap_brackets r _)

theorem alts_brackets : (as : CAlts) → bracketsAlts ((builder num).alts as) = nestAlts as
  | [] => rfl
  | s :: as => by rw [Builder.alts, bracketsAlts, nestAlts, seq_brackets s, alts_brackets as]

end

mutual

/-- A bracket costs a walk three levels at most: a repeat, an option and its group. -/
theorem atom_height : (a : CAtom) → ((builder num).atom a).height ≤ 3 * a.nest + 1
  | .leaf l => by cases l <;> exact le_rfl
  | .group g op cl as => by
    have has := alts_height as
    rw [Builder.atom, CAtom.nest]
    cases g <;> simp only [bracket, Element.height] <;> omega
  | .hole => le_rfl

theorem seq_height : (es : CSeq) → heightSeq ((builder num).seq es) ≤ 3 * nestSeq es + 2
  | [] => Nat.zero_le _
  | (r, a) :: es => by
    have ha := atom_height a
    have hes := seq_height es
    have hwrap : ((builder num).wrap r ((builder num).atom a)).height ≤ ((builder num).atom a).height + 1 :=
      wrap_height r _
    rw [Builder.seq, heightSeq, nestSeq]
    omega

theorem alts_height : (as : CAlts) → heightAlts ((builder num).alts as) ≤ 3 * nestAlts as + 2
  | [] => Nat.zero_le _
  | s :: as => by
    have hs := seq_height s
    have has := alts_height as
    rw [Builder.alts, heightAlts, nestAlts]
    omega

end

/-! ## The parse -/

theorem tooDeep_cap (d₀ : Nat) : ∀ k, 511 ≤ k → tooDeep d₀ k = true := by
  intro k hk
  refine decide_eq_true ?_
  unfold MAX_GROUP_DEPTH
  omega

/-- The brackets of a source nest at most `n` deep. -/
def nestsWithin (n : Nat) (tokens : List Tok) : Bool := shallow (fun k => decide (n ≤ k)) 0 tokens

theorem shallow_imp {deep deep' : Nat → Bool} (h : ∀ k, deep' k = true → deep k = true) {k : Nat} {ts : List Tok}
    (hs : shallow deep k ts = true) : shallow deep' k ts = true := by
  induction ts generalizing k with
  | nil => rfl
  | cons t ts ih =>
    rw [shallow] at hs ⊢
    split
    · rename_i ho
      rw [if_pos ho, Bool.and_eq_true, Bool.not_eq_true'] at hs
      rw [Bool.and_eq_true, Bool.not_eq_true']
      refine ⟨Bool.eq_false_iff.2 fun hd => ?_, ih hs.2⟩
      rw [h k hd] at hs
      exact absurd hs.1 (by simp)
    · rename_i ho
      rw [if_neg ho] at hs
      split <;> rename_i hc
      · rw [if_pos hc] at hs
        exact ih hs
      · rw [if_neg hc] at hs
        exact ih hs

/-- Whatever the source, what the parse returns nests brackets at most 512 deep, and no walk over it
goes deeper than the bound that gives; and a source whose brackets nest at most 500 deep is never
refused for its depth. -/
theorem depth_bounded {num : Tok → α × Option ε} {d₀ : Nat} (hd : d₀ ≤ 1) {engine : Engine α ε}
    (he : (grammar num).Implements .abnf d₀ engine) (slot : Option ε) (tokens : List Tok) :
    (∀ rules num_err, (parse_abnf_raw engine slot tokens).1 = .ok (rules, num_err) → ∀ p ∈ rules,
      bracketsAlts p.alts ≤ 512 ∧ heightAlts p.alts ≤ 3 * 512) ∧
    (nestsWithin 500 tokens = true → (parse_abnf_raw engine slot tokens).1 ≠ .error .depth) := by
  rw [parse_abnf_raw_eq he]
  constructor
  · intro rules num_err h p hp
    cases hx : (reading (fun _ => false) (tooDeep d₀) tokens).res with
    | error e => simp only [hx] at h; cases e <;> cases h
    | ok ps =>
      simp only [hx, Except.ok.injEq, Prod.mk.injEq] at h
      obtain ⟨rfl, -⟩ := h
      obtain ⟨q, hq, rfl⟩ := List.mem_map.1 hp
      have hnest := reading_nest (tooDeep_cap d₀) (fun _ => false) hx q hq
      -- the tree built has the brackets of the tree read, and three levels for each
      have hb : bracketsAlts ((builder num).prod q).alts = nestAlts q.alts := alts_brackets num q.alts
      have hh : heightAlts ((builder num).prod q).alts ≤ 3 * nestAlts q.alts + 2 := alts_height num q.alts
      omega
  · intro hs h
    -- five hundred levels keep every depth that is asked under the cap
    have hshallow : shallow (tooDeep d₀) 0 tokens = true := by
      refine shallow_imp (fun k hk => ?_) hs
      have hlt : MAX_GROUP_DEPTH < d₀ + 5 + 4 * k := of_decide_eq_true hk
      unfold MAX_GROUP_DEPTH at hlt
      exact decide_eq_true (by omega)
    have hdeep := reading_not_deep (tooDeep_mono d₀) (fun _ => false) hshallow
    simp only at h
    cases hx : (reading (fun _ => false) (tooDeep d₀) tokens).res with
    | ok ps => rw [hx] at h; cases h
    | error e =>
      rw [hx] at h
      cases e with
      | deep => exact hdeep hx
      | refused t => exact absurd (reading_refused hx) Bool.false_ne_true
      | spent => exact reading_ends _ _ _ hx
      | unexpected t =>
        simp only at h
        cases hn : (reading (fun _ => false) (tooDeep d₀) tokens).log.findSome? fun t => (num t).2 with
        | none => rw [hn] at h; cases h
        | some e => rw [hn] at h; cases h

/-- `a = [ ( b ) ]`. -/
theorem depth_bounded_option :
    let tokens : List Tok := [⟨.TX ['a'], 0, 1, 1, 1⟩, ⟨.DEF, 2, 1, 1, 3⟩, ⟨.OB, 4, 1, 1, 5⟩, ⟨.LP, 6, 1, 1, 7⟩,
      ⟨.TX ['b'], 8, 1, 1, 9⟩, ⟨.RP, 10, 1, 1, 11⟩, ⟨.CB, 12, 1, 1, 13⟩]
    let parsed := (parse_abnf_raw (machine numericOf 0) none tokens).1
    (∀ rules num_err, parsed = .ok (rules, num_err) → ∀ p ∈ rules,
      bracketsAlts p.alts ≤ 512 ∧ heightAlts p.alts ≤ 3 * 512) ∧ parsed ≠ .error .depth := by
  intro tokens parsed
  have he : (grammar numericOf).Implements .abnf 0 (machine numericOf 0) := Grammar.engine_implements _ _ _ _
  obtain ⟨hbound, hdepth⟩ := depth_bounded (Nat.zero_le 1) he none tokens
  exact ⟨hbound, hdepth rfl⟩

end Rust

end TabnasAbnf.Meta
