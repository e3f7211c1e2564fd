/-
Throw at once, or record and carry on: given one decision of which numeric values are refused, the
three ports report the same cause for every source. TypeScript's action throws, so its parse ends
there; Go's and Rust's record the first refusal, in the parse's meta and in a slot of the thread, and
report it before any other cause. `verdict` is the cause they agree on.
-/
import TabnasAbnf.Meta.Go
import TabnasAbnf.Meta.Rust

namespace TabnasAbnf.Meta

open TabnasAbnf.Engine TabnasAbnf.Base TabnasAbnf.Passes

/-- A source: its tokens, and the annotations its comments claim. -/
structure Source where
  tokens : List Tok
  claims : List Claim

variable {α : Type}

/-! ## Two ways to refuse a value -/

/-- The value of a token, or the token it throws. -/
def throwing (refuse : Tok → Bool) (val : Tok → α) (t : Tok) : Except Tok α :=
  if refuse t then .error t else .ok (val t)

theorem throwing_stop (refuse : Tok → Bool) (val : Tok → α) (t : Tok) (h : refuse t = true) :
    throwing refuse val t = .error (id t) := by simp [throwing, h]

theorem throwing_val (refuse : Tok → Bool) (val : Tok → α) (t : Tok) (h : refuse t = false) :
    throwing refuse val t = .ok (val t) := by simp [throwing, h]

/-- The value of a token, whatever it is, with the token it records. -/
def recording (refuse : Tok → Bool) (val : Tok → α) (t : Tok) : α × Option Tok :=
  (val t, if refuse t then some t else none)

theorem findSome?_recording (refuse : Tok → Bool) (val : Tok → α) (log : List Tok) :
    log.findSome? (fun t => (recording refuse val t).2) = log.find? refuse := by
  induction log with
  | nil => rfl
  | cons t log ih =>
    rw [List.findSome?_cons, List.find?_cons, ih]
    cases h : refuse t <;> simp [recording, h]

/-! ## The verdict -/

/-- What a source reads as where no value ends the parse and no bracket is too deep. -/
def fullReading (ts : List Tok) : Reading (List CProd) := reading (fun _ => false) (fun _ => false) ts

/-- The numeric values a parse that carries on decodes, in order. -/
def decoded (ts : List Tok) : List Tok := (fullReading ts).log

/-- The cause a source is refused for, if it is: the first refused value among those decoded, then
the engine, then what the checks find. -/
def verdict (refuse : Tok → Bool) (s : Source) : Option (Cause Tok) :=
  match (decoded s.tokens).find? refuse with
  | some t => some (.numeric t)
  | none =>
    match (fullReading s.tokens).res with
    | .ok ps => passesCause Tok s.claims ps
    | .error (.unexpected t) => some (.engine t)
    | .error _ => some .depth

theorem passesCause_ne_numeric (claims : List Claim) (ps : List CProd) (t : Tok) :
    passesCause Tok claims ps ≠ some (.numeric t) := by
  unfold passesCause
  split
  · nofun
  · split
    · nofun
    · rename_i merged _
      cases firstHole merged <;> nofun

theorem verdict_numeric (refuse : Tok → Bool) (s : Source) (t : Tok) :
    verdict refuse s = some (.numeric t) ↔ (decoded s.tokens).find? refuse = some t := by
  unfold verdict
  cases h : (decoded s.tokens).find? refuse with
  | some t' => simp
  | none =>
    simp only [reduceCtorEq, iff_false]
    split
    · exact passesCause_ne_numeric _ _ t
    · nofun
    · nofun

/-! ## The ports -/

variable (refuse : Tok → Bool)

/-- The TypeScript parse, which throws. -/
theorem Ts.cause_eq (val : Tok → α) {d₀ : Nat} {engine : Ts.Engine α Tok}
    (he : (Ts.grammar (throwing refuse val)).Implements .abnf d₀ engine) (s : Source) :
    cause (Ts.parseAbnf engine (passes s.claims) s.tokens) = verdict refuse s := by
  have hcut := reading_cut refuse (fun _ => false) s.tokens
  rw [Ts.parseAbnf_eq (throwing_stop refuse val) (throwing_val refuse val) he]
  unfold Cut at hcut
  unfold verdict decoded fullReading
  cases hf : (reading (fun _ => false) (fun _ => false) s.tokens).log.find? refuse with
  | some t =>
    rw [hf] at hcut
    rw [hcut]
    rfl
  | none =>
    rw [hf] at hcut
    rw [hcut]
    cases hx : (reading (fun _ => false) (fun _ => false) s.tokens).res with
    | ok ps => exact passes_prods (Ts.builder_honest val) s.claims ps
    | error e =>
      cases e with
      | refused t =>
        exact absurd (reading_refused hx) Bool.false_ne_true
      | deep => rfl
      | unexpected t => rfl
      | spent => rfl

/-- The Go parse, which records in the parse's meta. -/
theorem Go.cause_eq (maxInfinity : Int) (val : Tok → α) {d₀ : Nat} {engine : Go.Engine α Tok}
    (he : (Go.grammar maxInfinity (recording refuse val)).Implements .abnf d₀ engine) (s : Source) :
    cause (Go.parseAbnf engine (passes s.claims) s.tokens) = verdict refuse s := by
  rw [Go.parseAbnf, Go.parseAbnfRaw_eq he, findSome?_recording]
  unfold verdict decoded fullReading
  cases (reading (fun _ => false) (fun _ => false) s.tokens).log.find? refuse with
  | some t => rfl
  | none =>
    cases hx : (reading (fun _ => false) (fun _ => false) s.tokens).res with
    | ok ps => exact passes_prods (Go.builder_honest maxInfinity _) s.claims ps
    | error e =>
      cases e with
      | refused t => exact absurd (reading_refused hx) Bool.false_ne_true
      | deep => exact absurd hx (reading_uncapped _ _)
      | unexpected t => rfl
      | spent => exact absurd hx (reading_ends _ _ _)

namespace Rust

variable {ε : Type}

/-- What the slot of a thread holds after a sequence of conversions. -/
def slotAfter (engine : Engine α ε) (slot : Option ε) (sources : List Source) : Option ε :=
  sources.foldl (fun slot s => (parse_abnf engine (passes s.claims) slot s.tokens).2) slot

theorem tooDeep_mono (d₀ : Nat) {j k : Nat} (h : j ≤ k) (hj : tooDeep d₀ j = true) : tooDeep d₀ k = true := by
  simp only [tooDeep, decide_eq_true_eq] at hj ⊢
  omega

/-- The Rust parse, which records in a slot of the thread, whatever the conversions before it left
there. -/
theorem cause_eq (val : Tok → α) {d₀ : Nat} {engine : Engine α Tok}
    (he : (grammar (recording refuse val)).Implements .abnf d₀ engine) (slot : Option Tok) (s : Source)
    (hs : shallow (tooDeep d₀) 0 s.tokens = true) :
    cause (parse_abnf engine (passes s.claims) slot s.tokens).1 = verdict refuse s := by
  rw [parse_abnf, parse_abnf_raw_eq he, reading_shallow (tooDeep_mono d₀) _ hs]
  simp only [findSome?_recording]
  unfold verdict decoded fullReading
  cases hx : (reading (fun _ => false) (fun _ => false) s.tokens).res with
  | ok ps =>
    by_cases hps : ps = []
    · subst hps
      rw [reading_nil _ _ hx]
      rfl
    · have hne : (ps.map (builder (recording refuse val)).prod).isEmpty = false := by simp [hps]
      have hchecks := passes_prods (ε := Tok) (builder_honest (recording refuse val)) s.claims ps
      rw [checked, if_neg (by simp [hne])] at hchecks
      simp only [hne, Bool.false_eq_true, if_false]
      cases (reading (fun _ => false) (fun _ => false) s.tokens).log.find? refuse with
      | some t => rfl
      | none => exact hchecks
  | error e =>
    cases e with
    | refused t => exact absurd (reading_refused hx) Bool.false_ne_true
    | deep => exact absurd hx (reading_uncapped _ _)
    | unexpected t =>
      cases (reading (fun _ => false) (fun _ => false) s.tokens).log.find? refuse <;> rfl
    | spent => exact absurd hx (reading_ends _ _ _)

end Rust

/-- The three ports refuse a source for the same cause: a numeric value exactly when one of those
decoded is refused, and then the first; whatever the element that held it came to, whatever else is
wrong with the source, and whatever conversions the thread ran before. -/
theorem refusals_agree {β γ : Type} (tsVal : Tok → α) (goVal : Tok → β) (rustVal : Tok → γ) (maxInfinity : Int)
    {d₁ d₂ d₃ : Nat} {ts : Ts.Engine α Tok} {go : Go.Engine β Tok} {rust : Rust.Engine γ Tok}
    (hts : (Ts.grammar (throwing refuse tsVal)).Implements .abnf d₁ ts)
    (hgo : (Go.grammar maxInfinity (recording refuse goVal)).Implements .abnf d₂ go)
    (hrust : (Rust.grammar (recording refuse rustVal)).Implements .abnf d₃ rust)
    (slot : Option Tok) (earlier : List Source) (s : Source)
    (hs : shallow (Rust.tooDeep d₃) 0 s.tokens = true) :
    cause (Ts.parseAbnf ts (passes s.claims) s.tokens) = verdict refuse s ∧
    cause (Go.parseAbnf go (passes s.claims) s.tokens) = verdict refuse s ∧
    cause (Rust.parse_abnf rust (passes s.claims) (Rust.slotAfter rust slot earlier) s.tokens).1 =
      verdict refuse s ∧
    ∀ t, verdict refuse s = some (.numeric t) ↔ (decoded s.tokens).find? refuse = some t :=
  ⟨Ts.cause_eq refuse tsVal hts s, Go.cause_eq refuse maxInfinity goVal hgo s,
    Rust.cause_eq refuse rustVal hrust _ s hs, verdict_numeric refuse s⟩

/-- `a = ( %x110000` drops the value with its unclosed group, and `b = =` is refused by the engine;
after a parse of the first the second is not blamed on its value. -/
theorem refusals_agree_dropped :
    let bad : NumericSource := ⟨['%', 'x', '1', '1', '0', '0', '0', '0'], by decide⟩
    let refuse : Tok → Bool := fun t => t.text == bad.1
    let val : Tok → Text := Tok.text
    let s : Source := ⟨[⟨.TX ['a'], 0, 1, 1, 1⟩, ⟨.DEF, 2, 1, 1, 3⟩, ⟨.LP, 4, 1, 1, 5⟩, ⟨.NV bad, 6, 8, 1, 7⟩], []⟩
    let s' : Source := ⟨[⟨.TX ['b'], 0, 1, 1, 1⟩, ⟨.DEF, 2, 1, 1, 3⟩, ⟨.DEF, 4, 1, 1, 5⟩], []⟩
    let ts := Ts.machine (throwing refuse val) val refuse id (throwing_stop refuse val) (throwing_val refuse val) 0
    let go := Go.machine 100 (recording refuse val) 0
    let rust := Rust.machine (recording refuse val) 0
    cause (Ts.parseAbnf ts (passes s.claims) s.tokens) = some (.numeric ⟨.NV bad, 6, 8, 1, 7⟩) ∧
    cause (Go.parseAbnf go (passes s.claims) s.tokens) = some (.numeric ⟨.NV bad, 6, 8, 1, 7⟩) ∧
    cause (Rust.parse_abnf rust (passes s.claims) none s.tokens).1 =
      some (.numeric ⟨.NV bad, 6, 8, 1, 7⟩) ∧
    cause (Rust.parse_abnf rust (passes s'.claims) (Rust.slotAfter rust none [s]) s'.tokens).1 =
      some (.engine (some ⟨.DEF, 4, 1, 1, 5⟩)) := by
  intro bad refuse val s s' ts go rust
  obtain ⟨h₁, h₂, h₃, -⟩ := refusals_agree refuse val val val 100
    (Grammar.engine_implements _ _ _ _ : Grammar.Implements _ _ _ ts)
    (Grammar.engine_implements _ _ _ _ : Grammar.Implements _ _ _ go)
    (Grammar.engine_implements _ _ _ _ : Grammar.Implements _ _ _ rust) none [] s (by decide)
  obtain ⟨-, -, h₄, -⟩ := refusals_agree refuse val val val 100
    (Grammar.engine_implements _ _ _ _ : Grammar.Implements _ _ _ ts)
    (Grammar.engine_implements _ _ _ _ : Grammar.Implements _ _ _ go)
    (Grammar.engine_implements _ _ _ _ : Grammar.Implements _ _ _ rust) none [s] s' (by decide)
  have hv : verdict refuse s = some (.numeric ⟨.NV bad, 6, 8, 1, 7⟩) := by decide
  have hv' : verdict refuse s' = some (.engine (some ⟨.DEF, 4, 1, 1, 5⟩)) := by decide
  exact ⟨h₁.trans hv, h₂.trans hv, h₃.trans hv, h₄.trans hv'⟩

end TabnasAbnf.Meta
