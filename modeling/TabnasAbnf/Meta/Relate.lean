/-
Readings of one source compared. A relation on readings that every `bind` respects holds between
the readings of two runs as soon as it holds where they part: at a numeric value one run stops at,
at a bracket one run finds too deep, or at the end of one run's fuel (`read_rel`).
-/
import TabnasAbnf.Meta.Fuel

namespace TabnasAbnf.Meta

open TabnasAbnf.Engine

/-! ## Relations on readings -/

/-- Nothing was decoded and nothing refused. -/
def Reading.quiet {α : Type} (x : Reading α) : Bool :=
  x.log.isEmpty && match x.res with
    | .error (.refused _) => false
    | _ => true

theorem Reading.log_of_quiet {α : Type} {x : Reading α} (h : x.quiet = true) : x.log = [] :=
  List.isEmpty_iff.1 (Bool.and_eq_true_iff.1 h).1

theorem Reading.res_of_quiet {α : Type} {x : Reading α} (h : x.quiet = true) (t : Tok) :
    x.res ≠ .error (.refused t) := by
  intro hx
  have hr := (Bool.and_eq_true_iff.1 h).2
  rw [hx] at hr
  cases hr

/-- A relation on readings that holds of a quiet reading and itself, and goes through `bind`. -/
structure Congruence (Rel : ∀ {α : Type}, Reading α → Reading α → Prop) : Prop where
  refl : ∀ {α : Type} {x : Reading α}, x.quiet = true → Rel x x
  bind : ∀ {α β : Type} {x y : Reading α} {f g : α → Reading β}, Rel x y → (∀ a, Rel (f a) (g a)) →
    Rel (x.bind f) (y.bind g)

section

variable {Rel : ∀ {α : Type}, Reading α → Reading α → Prop} (hc : Congruence Rel)
  {stop stop' : Tok → Bool} {deep deep' : Nat → Bool}
  (hnv : ∀ t ts, Rel (decode stop t ts) (decode stop' t ts))
  (hdeep : ∀ (α : Type) (k : Nat) (x y : Reading α), Rel x y →
    Rel (if deep k then .halt .deep else x) (if deep' k then .halt .deep else y))

include hc hnv hdeep

theorem read_rel (n n' : Nat) (hle : n ≤ n')
    (hfuel : n ≠ n' → ∀ (α : Type) (y : Reading α), Rel (.halt .spent) y) :
    (∀ k ts, Rel (readAlts stop deep n k ts) (readAlts stop' deep' n' k ts)) ∧
    (∀ k ph ts, Rel (readSeq stop deep n k ph ts) (readSeq stop' deep' n' k ph ts)) ∧
    (∀ k ts, Rel (readAtom stop deep n k ts) (readAtom stop' deep' n' k ts)) := by
  induction n generalizing n' with
  | zero =>
    by_cases hn : 0 = n'
    · subst hn
      refine ⟨fun k ts => ?_, fun k ph ts => ?_, fun k ts => ?_⟩ <;> exact hc.refl rfl
    · refine ⟨fun k ts => ?_, fun k ph ts => ?_, fun k ts => ?_⟩ <;> exact hfuel hn _ _
  | succ n ih =>
    obtain _ | n' := n'
    · omega
    obtain ⟨ihAlts, ihSeq, ihAtom⟩ := ih n' (by omega) fun h => hfuel (by omega)
    refine ⟨fun k ts => ?_, fun k ph ts => ?_, fun k ts => ?_⟩
    · rw [readAlts, readAlts]
      refine hc.bind (ihSeq _ _ _) fun r => ?_
      obtain ⟨s, _ | ⟨t, ts₁⟩⟩ := r
      · exact hc.refl rfl
      · simp only
        split
        · exact hc.bind (ihAlts _ _) fun _ => hc.refl rfl
        · exact hc.refl rfl
    · rw [readSeq, readSeq]
      split
      · exact hc.refl rfl
      · exact hc.bind (ihAtom _ _) fun _ => hc.bind (ihSeq _ _ _) fun _ => hc.refl rfl
    · obtain _ | ⟨t, ts⟩ := ts
      · rw [readAtom, readAtom]; exact hc.refl rfl
      rw [readAtom, readAtom]
      split
      · exact hnv t ts
      · split
        · exact hdeep _ k _ _ (hc.bind (ihAlts _ _) fun _ => hc.refl rfl)
        · split <;> exact hc.refl rfl

theorem readProds_rel (n n' : Nat) (hle : n ≤ n')
    (hfuel : n ≠ n' → ∀ (α : Type) (y : Reading α), Rel (.halt .spent) y) (ts : List Tok) :
    Rel (readProds stop deep n ts) (readProds stop' deep' n' ts) := by
  induction n generalizing n' ts with
  | zero =>
    by_cases hn : 0 = n'
    · subst hn; exact hc.refl rfl
    · exact hfuel hn _ _
  | succ n ih =>
    obtain _ | n' := n'
    · omega
    have hle' : n ≤ n' := by omega
    have hf : n ≠ n' → ∀ (α : Type) (y : Reading α), Rel (.halt .spent) y := fun h => hfuel (by omega)
    rw [readProds, readProds]
    split
    · exact hc.refl rfl
    · refine hc.bind ((read_rel hc hnv hdeep n n' hle' hf).1 _ _) fun r => ?_
      obtain ⟨as, ts₁⟩ := r
      simp only
      split
      · exact hc.bind (ih n' hle' hf _) fun _ => hc.refl rfl
      · exact hc.refl rfl

theorem reading_rel (ts : List Tok) : Rel (reading stop deep ts) (reading stop' deep' ts) := by
  unfold reading
  obtain _ | ⟨t, ts⟩ := ts
  · exact hc.refl rfl
  · exact hc.bind (readProds_rel hc hnv hdeep _ _ le_rfl (fun h => absurd rfl h) _) fun _ => by
      simp only
      split <;> exact hc.refl rfl

end

/-! ## Readings that agree unless one halts -/

/-- The readings are the same, or the first one ends with `h`. -/
def UpTo (h : Halt) {α : Type} (x y : Reading α) : Prop := x.res = .error h ∨ x = y

theorem upTo_congruence (h : Halt) : Congruence (UpTo h) where
  refl _ := .inr rfl
  bind {α β x y f g} hxy hfg := by
    rcases hxy with hx | rfl
    · exact .inl (by rw [Reading.bind_error hx])
    · cases hx : x.res with
      | error e => exact .inr (by rw [Reading.bind_error hx, Reading.bind_error hx])
      | ok a =>
        rw [Reading.bind_ok hx, Reading.bind_ok hx]
        rcases hfg a with hf | hf
        · exact .inl hf
        · exact .inr (by rw [hf])

section

variable (stop : Tok → Bool) (deep : Nat → Bool)

theorem readProds_upTo {n n' : Nat} (h : n ≤ n') (ts : List Tok) :
    UpTo .spent (readProds stop deep n ts) (readProds stop deep n' ts) :=
  readProds_rel (upTo_congruence .spent) (fun _ _ => .inr rfl)
    (fun _ k _ _ hxy => by split <;> [exact .inr rfl; exact hxy]) n n' h (fun _ _ _ => .inl rfl) ts

/-- A run that refuses deep brackets reads what one that does not reads, unless it refuses one. -/
theorem reading_upTo_deep (ts : List Tok) :
    UpTo .deep (reading stop deep ts) (reading stop (fun _ => false) ts) :=
  reading_rel (upTo_congruence .deep) (fun _ _ => .inr rfl)
    (fun _ k _ _ hxy => by split <;> [exact .inl rfl; simpa using hxy]) ts

end

/-! ## A run that stops at a numeric value -/

/-- The first reading is the second one cut short at the first value decoded that `stop` names. -/
def Cut (stop : Tok → Bool) {α : Type} (x y : Reading α) : Prop :=
  match y.log.find? stop with
  | none => x = y
  | some t => x.res = .error (.refused t)

theorem cut_congruence (stop : Tok → Bool) : Congruence (Cut stop) where
  refl {α x} hx := by simp [Cut, Reading.log_of_quiet hx]
  bind {α β x y f g} hxy hfg := by
    unfold Cut at hxy
    cases hy : y.log.find? stop with
    | some t =>
      simp only [hy] at hxy
      unfold Cut
      rw [show (y.bind g).log.find? stop = some t by
        cases hr : y.res with
        | ok a => rw [Reading.bind_ok hr, List.find?_append, hy]; rfl
        | error e => rw [Reading.bind_error hr, hy]]
      exact by rw [Reading.bind_error hxy]
    | none =>
      simp only [hy] at hxy
      subst hxy
      cases hr : x.res with
      | error e => simp [Cut, Reading.bind_error hr, hy]
      | ok a =>
        have ha := hfg a
        unfold Cut at ha ⊢
        rw [Reading.bind_ok hr, Reading.bind_ok hr, List.find?_append, hy, Option.none_or]
        cases hg : (g a).log.find? stop with
        | none => simp only [hg] at ha; simp [ha]
        | some t => simp only [hg] at ha; exact ha

theorem decode_cut (stop : Tok → Bool) (t : Tok) (ts : List Tok) :
    Cut stop (decode stop t ts) (decode (fun _ => false) t ts) := by
  by_cases hs : stop t = true <;> simp [Cut, decode, hs, Reading.halt]

/-- A run that stops at refused values reads what one that carries on reads, cut short at the first
value refused. -/
theorem reading_cut (stop : Tok → Bool) (deep : Nat → Bool) (ts : List Tok) :
    Cut stop (reading stop deep ts) (reading (fun _ => false) deep ts) :=
  reading_rel (cut_congruence stop) (decode_cut stop)
    (fun _ k _ _ hxy => by split <;> [exact (cut_congruence stop).refl rfl; exact hxy]) ts

/-- A value refused is one `stop` names. -/
def Stops (stop : Tok → Bool) {α : Type} (x _y : Reading α) : Prop :=
  ∀ t, x.res = .error (.refused t) → stop t = true

theorem stops_congruence (stop : Tok → Bool) : Congruence (Stops stop) where
  refl hx t h := absurd h (Reading.res_of_quiet hx t)
  bind hxy hfg t h := by
    rcases Reading.bind_eq_error h with hx | ⟨a, -, hf⟩
    · exact hxy t hx
    · exact hfg a t hf

theorem reading_refused {stop : Tok → Bool} {deep : Nat → Bool} {ts : List Tok} {t : Tok}
    (h : (reading stop deep ts).res = .error (.refused t)) : stop t = true := by
  have hrel : Stops stop (reading stop deep ts) (reading stop deep ts) := by
    refine reading_rel (stops_congruence stop) (fun t ts t' h => ?_) (fun _ k x y hxy => ?_) ts
    · unfold decode at h
      split at h
      · rename_i hs
        cases h
        exact hs
      · cases h
    · split
      · intro t h
        cases h
      · exact hxy
  exact hrel t h

/-! ## Sources that nest no bracket too deep -/

/-- No bracket of the tokens opens too deep, `k` brackets being open before them: a bracket opens a
level, a closer ends one. -/
def shallow (deep : Nat → Bool) : Nat → List Tok → Bool
  | _, [] => true
  | k, t :: ts =>
    if (opensWith t.kind).isSome then !deep k && shallow deep (k + 1) ts
    else if t.kind = .RP ∨ t.kind = .CB then shallow deep (k - 1) ts
    else shallow deep k ts

section

variable {deep : Nat → Bool} (hm : ∀ {j k}, j ≤ k → deep j = true → deep k = true)

include hm

omit hm in
theorem shallow_skip {k : Nat} {t : Tok} {ts : List Tok} (ho : opensWith t.kind = none)
    (hc : t.kind ≠ .RP ∧ t.kind ≠ .CB) : shallow deep k (t :: ts) = shallow deep k ts := by
  rw [shallow]
  simp [ho, hc]

omit hm in
theorem shallow_repeat {k : Nat} {ts rest : List Tok} {r : Reps} (h : Prefix ts r rest) :
    shallow deep k ts = shallow deep k rest := by
  have hskip : ∀ {t : Tok} {ts : List Tok}, t.kind = .NUM ∨ t.kind = .STAR →
      shallow deep k (t :: ts) = shallow deep k ts := by
    rintro t ts (h | h) <;> exact shallow_skip (by rw [h]; rfl) (by rw [h]; decide)
  cases h with
  | once => rfl
  | bounded hn hs hm => rw [hskip (.inl hn), hskip (.inr hs), hskip (.inl hm)]
  | atleast hn hs => rw [hskip (.inl hn), hskip (.inr hs)]
  | atmost hs hm => rw [hskip (.inr hs), hskip (.inl hm)]
  | star hs => rw [hskip (.inr hs)]
  | exact hn => rw [hskip (.inl hn)]

omit hm in
theorem shallow_leaf {k : Nat} {ts rest : List Tok} {l : Leaf} (h : leafOf ts = some (l, rest)) :
    shallow deep k ts = shallow deep k rest := by
  have hskip : ∀ {t : Tok} {ts : List Tok}, t.kind ∈ [.ST, .PV, .TX, .SS, .SI] →
      shallow deep k (t :: ts) = shallow deep k ts := by
    intro t ts h
    refine shallow_skip ?_ ?_ <;> cases hk : t.kind <;> simp_all [opensWith]
  unfold leafOf at h
  repeat' split at h
  all_goals first | (cases h; done) | skip
  all_goals cases h
  all_goals simp only [List.mem_cons, *, true_or, or_true]

omit hm in
/-- A bracket's closer ends the level the bracket opened; without it the level only stays open. -/
theorem shallow_close {j k : Nat} (hj : k + 1 ≤ j) (g : GroupKind) (op : Tok) (as : CAlts) (ts : List Tok)
    (hs : shallow deep j ts = true) : ∃ j', k ≤ j' ∧ shallow deep j' (closeAtom g op as ts).2 = true := by
  obtain _ | ⟨t, ts⟩ := ts
  · exact ⟨k, le_rfl, rfl⟩
  by_cases ht : t.kind = g.closer
  · rw [show closeAtom g op as (t :: ts) = (.group g op t as, ts) from if_pos ht]
    refine ⟨j - 1, by omega, ?_⟩
    rw [shallow, ht] at hs
    cases g <;> simpa [GroupKind.closer, opensWith] using hs
  · rw [show closeAtom g op as (t :: ts) = (.hole, t :: ts) from if_neg ht]
    exact ⟨j, by omega, hs⟩

omit hm in
theorem shallow_open {j : Nat} {g : GroupKind} {t : Tok} {ts : List Tok} (hg : opensWith t.kind = some g)
    (hs : shallow deep j (t :: ts) = true) : deep j = false ∧ shallow deep (j + 1) ts = true := by
  rw [shallow] at hs
  simpa only [hg, Option.isSome_some, if_true, Bool.and_eq_true, Bool.not_eq_true'] using hs

omit hm in
/-- Tokens that nest no bracket too deep leave none that do. -/
theorem shallow_closed (stop : Tok → Bool) : ReadClosed stop deep
    (fun k ts _ rest => ∀ j, k ≤ j → shallow deep j ts = true → ∃ j', k ≤ j' ∧ shallow deep j' rest = true)
    (fun k _ ts _ rest => ∀ j, k ≤ j → shallow deep j ts = true → ∃ j', k ≤ j' ∧ shallow deep j' rest = true)
    (fun k ts _ rest => ∀ j, k ≤ j → shallow deep j ts = true → ∃ j', k ≤ j' ∧ shallow deep j' rest = true) where
  last _ _ _ _ hs _ := hs
  slash k ts s t ts₁ as rest hseq hk halts j hj hs := by
    obtain ⟨j', hj', hs'⟩ := hseq j hj hs
    rw [shallow_skip (by rw [hk]; rfl) (by rw [hk]; decide)] at hs'
    exact halts j' hj' hs'
  stops _ _ _ _ j hj hs := ⟨j, hj, hs⟩
  item k ph ts a ts₁ es rest hatom hseq _ j hj hs := by
    rw [shallow_repeat (prefixOf_takes ts)] at hs
    obtain ⟨j', hj', hs'⟩ := hatom j hj hs
    exact hseq j' hj' hs'
  value k t ts hk _ j hj hs := by
    rw [shallow_skip (by rw [hk]; rfl) (by rw [hk]; decide)] at hs
    exact ⟨j, hj, hs⟩
  bracket k g t ts as ts₁ hg _ halts j hj hs := by
    obtain ⟨j', hj', hs'⟩ := halts (j + 1) (by omega) (shallow_open hg hs).2
    exact shallow_close hj' g t as ts₁ hs'
  leaf k ts l rest hl j hj hs := ⟨j, hj, shallow_leaf hl ▸ hs⟩

/-- In tokens that nest no bracket too deep no bracket is refused. -/
theorem read_shallow (stop : Tok → Bool) (n : Nat) :
    (∀ k j ts, k ≤ j → shallow deep j ts = true → (readAlts stop deep n k ts).res ≠ .error .deep) ∧
    (∀ k j ph ts, k ≤ j → shallow deep j ts = true → (readSeq stop deep n k ph ts).res ≠ .error .deep) ∧
    (∀ k j ts, k ≤ j → shallow deep j ts = true → (readAtom stop deep n k ts).res ≠ .error .deep) := by
  induction n with
  | zero => refine ⟨fun k j ts _ _ h => ?_, fun k j ph ts _ _ h => ?_, fun k j ts _ _ h => ?_⟩ <;> cases h
  | succ n ih =>
    obtain ⟨ihAlts, ihSeq, ihAtom⟩ := ih
    -- what is left over is as shallow as what was read
    obtain ⟨-, leftSeq, leftAtom⟩ := (@shallow_closed deep stop).reads n
    refine ⟨fun k j ts hj hs h => ?_, fun k j ph ts hj hs h => ?_, fun k j ts hj hs h => ?_⟩
    · rw [readAlts] at h
      rcases Reading.bind_eq_error h with hseq | ⟨⟨s, ts₁⟩, hseq, h⟩
      · exact ihSeq _ _ _ _ hj hs hseq
      obtain ⟨j', hj', hs'⟩ := leftSeq _ _ _ _ _ hseq j hj hs
      obtain _ | ⟨t, ts₁⟩ := ts₁
      · cases h
      · simp only at h
        split at h
        · rename_i hk
          rw [shallow_skip (by rw [hk]; rfl) (by rw [hk]; decide)] at hs'
          rcases Reading.bind_eq_error h with halts | ⟨_, -, h⟩
          · exact ihAlts _ _ _ hj' hs' halts
          · cases h
        · cases h
    · rw [readSeq] at h
      split at h
      · cases h
      · rw [shallow_repeat (prefixOf_takes ts)] at hs
        rcases Reading.bind_eq_error h with hatom | ⟨⟨a, ts₁⟩, hatom, h⟩
        · exact ihAtom _ _ _ hj hs hatom
        obtain ⟨j', hj', hs'⟩ := leftAtom _ _ _ _ hatom j hj hs
        rcases Reading.bind_eq_error h with hseq | ⟨_, -, h⟩
        · exact ihSeq _ _ _ _ hj' hs' hseq
        · cases h
    · obtain _ | ⟨t, ts⟩ := ts
      · rw [readAtom] at h
        cases h
      rw [readAtom] at h
      split at h
      · unfold decode at h
        split at h <;> cases h
      · split at h
        · rename_i g hg
          obtain ⟨hnot, hs'⟩ := shallow_open hg hs
          split at h
          · rename_i hd
            rw [hm hj hd] at hnot
            cases hnot
          · rcases Reading.bind_eq_error h with halts | ⟨_, -, h⟩
            · exact ihAlts _ _ _ (by omega) hs' halts
            · cases h
        · split at h <;> cases h

theorem readProds_shallow (stop : Tok → Bool) (n : Nat) {j : Nat} {ts : List Tok}
    (hs : shallow deep j ts = true) : (readProds stop deep n ts).res ≠ .error .deep := by
  induction n generalizing j ts with
  | zero => intro h; cases h
  | succ n ih =>
    intro h
    rw [readProds] at h
    split at h
    · cases h
    · rename_i hd name rest hhead
      have hs' : shallow deep j rest = true := by
        obtain ⟨d, rfl, hk⟩ := headOf_some hhead
        have hn : opensWith name.kind = none ∧ name.kind ≠ .RP ∧ name.kind ≠ .CB ∧
            opensWith d.kind = none ∧ d.kind ≠ .RP ∧ d.kind ≠ .CB := by
          unfold headKind at hk
          split at hk <;> simp_all [opensWith]
        rwa [shallow_skip hn.1 ⟨hn.2.1, hn.2.2.1⟩, shallow_skip hn.2.2.2.1 hn.2.2.2.2] at hs
      rcases Reading.bind_eq_error h with ha | ⟨⟨as, ts₁⟩, ha, h⟩
      · exact (read_shallow hm stop n).1 0 j rest (Nat.zero_le j) hs' ha
      obtain ⟨j', -, hs₁⟩ := ((shallow_closed stop).reads n).1 _ _ _ _ ha j (Nat.zero_le j) hs'
      simp only at h
      split at h
      · rcases Reading.bind_eq_error h with hp | ⟨_, -, h⟩
        · exact ih hs₁ hp
        · cases h
      · cases h

theorem reading_not_deep (stop : Tok → Bool) {ts : List Tok} (hs : shallow deep 0 ts = true) :
    (reading stop deep ts).res ≠ .error .deep := by
  intro h
  unfold reading at h
  obtain _ | ⟨t, ts⟩ := ts
  · cases h
  · rcases Reading.bind_eq_error h with hp | ⟨⟨ps, rest⟩, -, h⟩
    · exact readProds_shallow hm stop _ hs hp
    · simp only at h
      split at h <;> cases h

/-- A source that nests no bracket too deep reads the same with and without the cap. -/
theorem reading_shallow (stop : Tok → Bool) {ts : List Tok} (hs : shallow deep 0 ts = true) :
    reading stop deep ts = reading stop (fun _ => false) ts :=
  (reading_upTo_deep stop deep ts).resolve_left (reading_not_deep hm stop hs)

end

theorem shallow_uncapped (k : Nat) (ts : List Tok) : shallow (fun _ => false) k ts = true := by
  induction ts generalizing k with
  | nil => rfl
  | cons t ts ih => simp [shallow, ih]

/-- Without a cap no bracket is too deep. -/
theorem reading_uncapped (stop : Tok → Bool) (ts : List Tok) :
    (reading stop (fun _ => false) ts).res ≠ .error .deep :=
  reading_not_deep (by simp) stop (shallow_uncapped 0 ts)

end TabnasAbnf.Meta
