/-
A reading always ends: each rule takes what it reads off the tokens, so a fuel of three for each
token is never spent (`reading_ends`), and no two fuels that suffice read differently.
-/
import TabnasAbnf.Meta.Reading

namespace TabnasAbnf.Meta

open TabnasAbnf.Engine

variable (stop : Tok → Bool) (deep : Nat → Bool)

/-! ## What is left -/

theorem prefixOf_length (ts : List Tok) : (prefixOf ts).2.length ≤ ts.length := by
  unfold prefixOf
  repeat' split
  all_goals simp only [List.length_cons, List.length_tail]; omega

theorem leafOf_length {ts rest : List Tok} {l : Leaf} (h : leafOf ts = some (l, rest)) :
    rest.length < ts.length := by
  unfold leafOf at h
  repeat' split at h
  all_goals first
    | (cases h; done)
    | (cases h; simp only [List.length_cons]; omega)

theorem closeAtom_length (g : GroupKind) (op : Tok) (as : CAlts) (ts : List Tok) :
    (closeAtom g op as ts).2.length ≤ ts.length := by
  unfold closeAtom
  repeat' split
  all_goals simp

/-- What a rule leaves is no longer than what it was given; an atom takes at least its token. -/
theorem length_closed : ReadClosed stop deep (fun _ ts _ rest => rest.length ≤ ts.length)
    (fun _ _ ts _ rest => rest.length ≤ ts.length) (fun _ ts _ rest => rest.length < ts.length) where
  last _ _ _ _ hs _ := hs
  slash k ts s t ts₁ as rest hs _ has := by
    rw [List.length_cons] at hs
    omega
  stops _ _ _ _ := le_rfl
  item k ph ts a ts₁ es rest ha hes _ := by
    have hp := prefixOf_length ts
    omega
  value _ _ _ _ _ := Nat.lt_succ_self _
  bracket k g t ts as ts₁ _ _ has := by
    have hclose := closeAtom_length g t as ts₁
    rw [List.length_cons]
    omega
  leaf _ _ _ _ hl := leafOf_length hl

theorem read_length (n : Nat) :
    (∀ k ts r, (readAlts stop deep n k ts).res = .ok r → r.2.length ≤ ts.length) ∧
    (∀ k ph ts r, (readSeq stop deep n k ph ts).res = .ok r → r.2.length ≤ ts.length) ∧
    (∀ k ts r, (readAtom stop deep n k ts).res = .ok r → r.2.length < ts.length) := by
  obtain ⟨hAlts, hSeq, hAtom⟩ := (length_closed stop deep).reads n
  exact ⟨fun k ts r => hAlts k ts r.1 r.2, fun k ph ts r => hSeq k ph ts r.1 r.2, fun k ts r => hAtom k ts r.1 r.2⟩

/-! ## Enough fuel -/

theorem read_ends (n : Nat) :
    (∀ k ts, 3 * ts.length + 3 ≤ n → (readAlts stop deep n k ts).res ≠ .error .spent) ∧
    (∀ k ph ts, 3 * ts.length + 2 ≤ n → (readSeq stop deep n k ph ts).res ≠ .error .spent) ∧
    (∀ k ts, 3 * ts.length + 1 ≤ n → (readAtom stop deep n k ts).res ≠ .error .spent) := by
  induction n with
  | zero => exact ⟨fun _ _ h => by omega, fun _ _ _ h => by omega, fun _ _ h => by omega⟩
  | succ n ih =>
    obtain ⟨ihAlts, ihSeq, ihAtom⟩ := ih
    -- what is left is no longer than what was read, and an atom leaves less
    obtain ⟨lAlts, lSeq, lAtom⟩ := read_length stop deep n
    refine ⟨fun k ts hn h => ?_, fun k ph ts hn h => ?_, fun k ts hn h => ?_⟩
    · rw [readAlts] at h
      rcases Reading.bind_eq_error h with hs | ⟨⟨s, ts₁⟩, hs, h⟩
      · exact ihSeq _ _ _ (by omega) hs
      have hl := lSeq _ _ _ _ hs
      obtain _ | ⟨t, ts₁⟩ := ts₁
      · cases h
      · simp only [List.length_cons] at h hl
        split at h
        · rcases Reading.bind_eq_error h with ha | ⟨⟨as, rest⟩, -, h⟩
          · exact ihAlts _ _ (by omega) ha
          · cases h
        · cases h
    · rw [readSeq] at h
      split at h
      · cases h
      · have hp := prefixOf_length ts
        rcases Reading.bind_eq_error h with ha | ⟨⟨a, ts₁⟩, ha, h⟩
        · exact ihAtom _ _ (by omega) ha
        have hl := lAtom _ _ _ ha
        simp only at hl
        rcases Reading.bind_eq_error h with hs | ⟨⟨es, rest⟩, -, h⟩
        · exact ihSeq _ _ _ (by omega) hs
        · cases h
    · obtain _ | ⟨t, ts⟩ := ts
      · rw [readAtom] at h; cases h
      rw [readAtom] at h
      simp only [List.length_cons] at hn
      split at h
      · unfold decode at h
        split at h <;> cases h
      · split at h
        · split at h
          · cases h
          · rcases Reading.bind_eq_error h with ha | ⟨⟨as, ts₁⟩, -, h⟩
            · exact ihAlts _ _ (by omega) ha
            · cases h
        · split at h <;> cases h

theorem readProds_ends (n : Nat) (ts : List Tok) (hn : 3 * ts.length + 4 ≤ n) :
    (readProds stop deep n ts).res ≠ .error .spent := by
  induction n generalizing ts with
  | zero => omega
  | succ n ih =>
    intro h
    rw [readProds] at h
    split at h
    · cases h
    · rename_i hd name rest hhead
      have hlen : rest.length + 2 ≤ ts.length := by
        obtain ⟨d, rfl, -⟩ := headOf_some hhead
        exact le_rfl
      rcases Reading.bind_eq_error h with ha | ⟨⟨as, ts₁⟩, ha, h⟩
      · exact (read_ends stop deep n).1 _ _ (by omega) ha
      have hl := (read_length stop deep n).1 _ _ _ ha
      simp only at h hl
      split at h
      · rcases Reading.bind_eq_error h with hp | ⟨_, -, h⟩
        · exact ih _ (by omega) hp
        · cases h
      · cases h

/-- A fuel no reading of the tokens spends. -/
def fuelFor (ts : List Tok) : Nat := 3 * ts.length + 4

/-- The reading of a source. -/
def reading (ts : List Tok) : Reading (List CProd) := readTop stop deep (fuelFor ts) ts

theorem reading_ends (ts : List Tok) : (reading stop deep ts).res ≠ .error .spent := by
  unfold reading
  obtain _ | ⟨t, ts⟩ := ts
  · rw [readTop]; nofun
  · rw [readTop]
    intro h
    rcases Reading.bind_eq_error h with hp | ⟨⟨ps, rest⟩, -, h⟩
    · exact readProds_ends stop deep _ _ le_rfl hp
    · simp only at h
      split at h <;> cases h

/-- Only a source without tokens reads as no productions. -/
theorem reading_nil {ts : List Tok} (h : (reading stop deep ts).res = .ok []) : ts = [] := by
  obtain ⟨rfl, -⟩ | h := readTop_eq_ok h
  · rfl
  · have hne := readProds_induct (A := fun _ _ _ => True) (P := fun _ ps _ => ps ≠ []) (fun _ _ _ _ _ => trivial)
      (fun _ _ _ _ _ _ _ _ => List.cons_ne_nil _ _) (fun _ _ _ _ _ _ _ _ _ _ _ _ => List.cons_ne_nil _ _) _ h
    exact absurd rfl hne

end TabnasAbnf.Meta
