/-
The core rules of RFC 5234 and `withCoreRules`, which adds to a grammar each one it references, by any
number of references, and does not define.
-/
import TabnasAbnf.Base.Closure
import TabnasAbnf.Meta.Ast
import TabnasAbnf.Meta.Numeric

namespace TabnasAbnf.Meta

open TabnasAbnf.Base TabnasAbnf.Passes

/-! ## References -/

section

variable {α β : Type}

mutual

/-- The names an element references, at any depth. -/
def Element.refs : Element α β → List Text
  | .ref name _ => [name]
  | .opt inner _ | .star inner | .plus inner | .rep _ _ inner => inner.refs
  | .group alts _ => altsRefs alts
  | _ => []

/-- The names a sequence references. -/
def seqRefs : List (Element α β) → List Text
  | [] => []
  | e :: es => e.refs ++ seqRefs es

/-- The names alternatives reference. -/
def altsRefs : List (List (Element α β)) → List Text
  | [] => []
  | s :: as => seqRefs s ++ altsRefs as

end

/-- What `refsIn` of the shared compiler does: it puts every reference of a sequence into a set. -/
def CollectsRefs (refsIn : List (Element α β) → List Text → List Text) : Prop :=
  ∀ alt needed n, n ∈ refsIn alt needed ↔ n ∈ needed ∨ n ∈ seqRefs alt

end

/-! ## The core rules -/

inductive CoreRule
  | ALPHA | BIT | CHAR | CR | LF | CRLF | CTL | DIGIT | DQUOTE | HEXDIG | HTAB | OCTET | SP | VCHAR | WSP | LWSP
  deriving DecidableEq, Repr

namespace CoreRule

/-- In declaration order. -/
def all : List CoreRule :=
  [ALPHA, BIT, CHAR, CR, LF, CRLF, CTL, DIGIT, DQUOTE, HEXDIG, HTAB, OCTET, SP, VCHAR, WSP, LWSP]

theorem mem_all (r : CoreRule) : r ∈ all := by cases r <;> decide

def name : CoreRule → Text
  | ALPHA => ['A', 'L', 'P', 'H', 'A']
  | BIT => ['B', 'I', 'T']
  | CHAR => ['C', 'H', 'A', 'R']
  | CR => ['C', 'R']
  | LF => ['L', 'F']
  | CRLF => ['C', 'R', 'L', 'F']
  | CTL => ['C', 'T', 'L']
  | DIGIT => ['D', 'I', 'G', 'I', 'T']
  | DQUOTE => ['D', 'Q', 'U', 'O', 'T', 'E']
  | HEXDIG => ['H', 'E', 'X', 'D', 'I', 'G']
  | HTAB => ['H', 'T', 'A', 'B']
  | OCTET => ['O', 'C', 'T', 'E', 'T']
  | SP => ['S', 'P']
  | VCHAR => ['V', 'C', 'H', 'A', 'R']
  | WSP => ['W', 'S', 'P']
  | LWSP => ['L', 'W', 'S', 'P']

theorem name_injective {r r' : CoreRule} (h : r.name = r'.name) : r = r' := by
  cases r <;> cases r' <;> first | rfl | cases h

variable {L β : Type} (lit : Nat → L)

/-- A character, a range and a reference without a span. -/
def char (n : Nat) : Element (NumericElement L) β := .value (.term (lit n) none)

def range (lo hi : Nat) : Element (NumericElement L) β := .value (.regex lo hi none)

def quoted (c : Char) : Element (NumericElement L) β := .term [c] false none

def ref (r : CoreRule) : Element (NumericElement L) β := .ref r.name none

/-- A core rule's alternatives, as `CORE_RULES_ABNF` has them. -/
def alts : CoreRule → List (List (Element (NumericElement L) β))
  | ALPHA => [[range 0x41 0x5A], [range 0x61 0x7A]]
  | BIT => [[quoted '0'], [quoted '1']]
  | CHAR => [[range 0x01 0x7F]]
  | CR => [[char lit 0x0D]]
  | LF => [[char lit 0x0A]]
  | CRLF => [[ref CR, ref LF]]
  | CTL => [[range 0x00 0x1F], [char lit 0x7F]]
  | DIGIT => [[range 0x30 0x39]]
  | DQUOTE => [[char lit 0x22]]
  | HEXDIG => [[ref DIGIT], [quoted 'A'], [quoted 'B'], [quoted 'C'], [quoted 'D'], [quoted 'E'], [quoted 'F']]
  | HTAB => [[char lit 0x09]]
  | OCTET => [[range 0x00 0xFF]]
  | SP => [[char lit 0x20]]
  | VCHAR => [[range 0x21 0x7E]]
  | WSP => [[ref SP], [ref HTAB]]
  | LWSP => [[.star (.group [[ref WSP], [ref CRLF, ref WSP]] none)]]

def production (r : CoreRule) : Production (List (Element (NumericElement L) β)) :=
  { name := r.name, alts := r.alts lit }

/-- The core rules a core rule references. -/
def refs : CoreRule → List CoreRule
  | CRLF => [CR, LF]
  | HEXDIG => [DIGIT]
  | WSP => [SP, HTAB]
  | LWSP => [WSP, CRLF]
  | _ => []

theorem mem_refs {r : CoreRule} {n : Text} :
    n ∈ altsRefs (r.alts lit : List (List (Element (NumericElement L) β))) ↔ ∃ r' ∈ r.refs, r'.name = n := by
  cases r <;> simp [alts, refs, altsRefs, seqRefs, Element.refs, char, range, quoted, ref, eq_comm]
  tauto

end CoreRule

/-- The core rules, in declaration order. -/
def coreRules {L : Type} (β : Type) (lit : Nat → L) : Rules (NumericElement L) β :=
  CoreRule.all.map (CoreRule.production lit)

theorem coreRules_names {L β : Type} (lit : Nat → L) : ((coreRules β lit).map (·.name)).Nodup := by
  have hnames : (coreRules β lit).map (·.name) = CoreRule.all.map CoreRule.name := by
    rw [coreRules, List.map_map]
    rfl
  rw [hnames]
  decide

/-! ## The loop -/

section

variable {α β : Type} (refsIn : List (Element α β) → List Text → List Text)

/-- `scan`: every reference of the productions into the set. -/
def scanProds (prods : Rules α β) (needed : List Text) : List Text :=
  prods.foldl (fun needed p => p.alts.foldl (fun needed alt => refsIn alt needed) needed) needed

/-- The names a production references. -/
def prodRefs (p : Production (List (Element α β))) (n : Text) : Prop := n ∈ altsRefs p.alts

variable {refsIn}

theorem mem_scanProds (h : CollectsRefs refsIn) (prods : Rules α β) (needed : List Text) (n : Text) :
    n ∈ scanProds refsIn prods needed ↔ n ∈ needed ∨ ∃ p ∈ prods, prodRefs p n := by
  have halts : ∀ (as : List (List (Element α β))) (needed : List Text),
      n ∈ as.foldl (fun needed alt => refsIn alt needed) needed ↔ n ∈ needed ∨ n ∈ altsRefs as := by
    intro as
    induction as with
    | nil => simp [altsRefs]
    | cons s as ih =>
      intro needed
      rw [List.foldl_cons, ih, h, altsRefs, List.mem_append, or_assoc]
  unfold scanProds
  induction prods generalizing needed with
  | nil => simp
  | cons p prods ih =>
    rw [List.foldl_cons]
    refine (ih _).trans ?_
    rw [halts, List.exists_mem_cons_iff, or_assoc, prodRefs]

end

/-- `withCoreRules`: it refuses a production with a hole, and then goes over the entries of the map of
core rules. -/
def Ts.withCoreRules {β ε : Type} (refsIn : List (Element (NumericElement Units) β) → List Text → List Text)
    (user : Rules (NumericElement Units) β) : Except (Cause ε) (Rules (NumericElement Units) β) :=
  match rejectHoles user with
  | .error name => .error (.malformed name)
  | .ok () =>
    let core := (coreRules β fromCodePoint).map fun p => (p.name, p)
    let w := saturate Prod.fst (fun entry needed => scanProds refsIn [entry.2] needed) core
      ⟨user.map (·.name), scanProds refsIn user [], [], false⟩
    .ok (user ++ w.out.map Prod.snd)

/-- The map of core rules by name, at a name. -/
def Go.coreByName (β : Type) (name : Text) : Rules (NumericElement Text) β :=
  (((coreRules β Go.runeString).foldl (fun m p => (p.name, p) :: m) []).lookup name).toList

/-- `withCoreRules`: it goes over the names in order, and looks each production up by its name. -/
def Go.withCoreRules {β : Type} (refsIn : List (Element (NumericElement Text) β) → List Text → List Text)
    (user : Rules (NumericElement Text) β) : Rules (NumericElement Text) β :=
  let w := saturate id (fun name needed => scanProds refsIn (Go.coreByName β name) needed)
    ((coreRules β Go.runeString).map (·.name)) ⟨user.map (·.name), scanProds refsIn user [], [], false⟩
  user ++ w.out.flatMap (Go.coreByName β)

/-- `with_core_rules`: it goes over the productions. -/
def Rust.with_core_rules {β : Type} (refs_in : List (Element (NumericElement Text) β) → List Text → List Text)
    (user : Rules (NumericElement Text) β) : Rules (NumericElement Text) β :=
  let w := saturate (·.name) (fun p needed => scanProds refs_in [p] needed) (coreRules β fun n => [charOr n])
    ⟨user.map (·.name), scanProds refs_in user [], [], false⟩
  user ++ w.out

/-! ## The least closure -/

section

variable {L β : Type}

/-- The names needed of the core rules: those a user's production references, and those a core rule
references that the user does not define and that is needed. -/
def Needed (core user : Rules (NumericElement L) β) : Text → Prop :=
  Reached (·.name) prodRefs core (∃ p ∈ user, p.name = ·) (fun n => ∃ p ∈ user, prodRefs p n)

/-- The core rules added to a user's grammar: each one needed that the user does not define, once. -/
structure LeastClosure (core user out : Rules (NumericElement L) β) : Prop where
  mem : ∀ p, p ∈ out ↔ p ∈ core ∧ (∀ q ∈ user, q.name ≠ p.name) ∧ Needed core user p.name
  once : (out.map (·.name)).Nodup
  /-- Every core name referenced in the result is defined in it. -/
  defines : ∀ p ∈ user ++ out, ∀ q ∈ core, prodRefs p q.name → ∃ r ∈ user ++ out, r.name = q.name

theorem LeastClosure.of_closing {core user out : Rules (NumericElement L) β}
    (hmem : ∀ p, p ∈ out ↔ p ∈ core ∧ (∀ q ∈ user, q.name ≠ p.name) ∧ Needed core user p.name)
    (honce : (out.map (·.name)).Nodup) : LeastClosure core user out := by
  refine ⟨hmem, honce, fun p hp q hq hr => ?_⟩
  by_cases hu : ∃ r ∈ user, r.name = q.name
  · obtain ⟨r, hr, he⟩ := hu
    exact ⟨r, List.mem_append_left _ hr, he⟩
  · -- a name the user does not define is needed, so its core rule is added
    refine ⟨q, List.mem_append_right _ ((hmem q).2 ⟨hq, fun r hr' he => hu ⟨r, hr', he⟩, ?_⟩), rfl⟩
    rcases List.mem_append.1 hp with hp | hp
    · exact .start ⟨p, hp, hr⟩
    · obtain ⟨hc, hd, hn⟩ := (hmem p).1 hp
      exact .step hc (fun ⟨r, hr', he⟩ => hd r hr' he) hn hr

variable {A : Type} {name : A → Text} {scan : A → List Text → List Text}
  {f : Production (List (Element (NumericElement L) β)) → A}
  {g : A → Rules (NumericElement L) β} {core user : Rules (NumericElement L) β}
  {refsIn : List (Element (NumericElement L) β) → List Text → List Text}

/-- A loop over anything that stands for the core rules adds the least closure. -/
theorem leastClosure_saturate (hrefs : CollectsRefs refsIn) (hcore : (core.map (·.name)).Nodup)
    (hname : ∀ p, name (f p) = p.name) (hg : ∀ p ∈ core, g (f p) = [p])
    (hscan : ∀ a needed n, n ∈ scan a needed ↔ n ∈ needed ∨ ∃ p ∈ g a, prodRefs p n) :
    LeastClosure core user ((saturate name scan (core.map f)
      ⟨user.map (·.name), scanProds refsIn user [], [], false⟩).out.flatMap g) := by
  have hnames : ((core.map f).map name).Nodup := by
    rw [List.map_map]
    simpa only [Function.comp_def, hname] using hcore
  rcases @saturate_out _ _ _ name scan _ _ (user.map (·.name)) (scanProds refsIn user []) hscan hnames with
    ⟨hclosing, hout⟩
  generalize saturate name scan (core.map f) ⟨user.map (·.name), scanProds refsIn user [], [], false⟩ = w at *
  -- the two lists the work starts with, as the predicates of the closure
  have hdefined : (· ∈ user.map (·.name)) = fun n => ∃ p ∈ user, p.name = n := by
    funext n
    exact propext List.mem_map
  have hstart : (· ∈ scanProds refsIn user []) = fun n => ∃ p ∈ user, prodRefs p n := by
    funext n
    rw [mem_scanProds hrefs]
    simp
  have hneeded : ∀ n, Reached name (fun a n => ∃ p ∈ g a, prodRefs p n) (core.map f) (· ∈ user.map (·.name))
      (· ∈ scanProds refsIn user []) n ↔ Needed core user n := by
    intro n
    have hrefs' : ∀ p ∈ core, ∀ n, (∃ q ∈ g (f p), prodRefs q n) ↔ prodRefs p n := by
      intro p hp n
      rw [hg p hp]
      simp
    rw [hdefined, hstart, reached_map hrefs']
    simp only [hname]
    rfl
  -- what the work puts out is what is reached, once each
  refine .of_closing (fun p => ?_) ?_
  · rw [List.mem_flatMap]
    constructor
    · rintro ⟨a, ha, hp⟩
      obtain ⟨hi, hd, hr⟩ := (hout a).1 ha
      obtain ⟨q, hq, rfl⟩ := List.mem_map.1 hi
      rw [hg q hq, List.mem_singleton] at hp
      subst hp
      rw [hneeded, hname] at hr
      rw [hname] at hd
      exact ⟨hq, fun r hr' he => hd (List.mem_map.2 ⟨r, hr', he⟩), hr⟩
    · rintro ⟨hp, hd, hn⟩
      refine ⟨f p, (hout _).2 ⟨List.mem_map_of_mem hp, ?_, ?_⟩, by rw [hg p hp]; exact List.mem_singleton_self p⟩
      · rw [hname]
        intro hm
        obtain ⟨r, hr, he⟩ := List.mem_map.1 hm
        exact hd r hr he
      · rwa [hneeded, hname]
  · have hmap : (w.out.flatMap g).map (·.name) = w.out.map name := by
      rw [List.map_flatMap, List.map_eq_flatMap]
      refine List.flatMap_congr fun a ha => ?_
      obtain ⟨q, hq, rfl⟩ := List.mem_map.1 ((hout a).1 ha).1
      rw [hg q hq, hname]
      rfl
    rw [hmap]
    exact hclosing.nodup

end

/-- Each port adds to the user's productions, unchanged and in order, the least closure of the core rules
under references; TypeScript does once no production has a hole. -/
theorem withCoreRules_least {β₁ β₂ β₃ ε : Type}
    {tsRefsIn : List (Element (NumericElement Units) β₁) → List Text → List Text}
    {goRefsIn : List (Element (NumericElement Text) β₂) → List Text → List Text}
    {rustRefsIn : List (Element (NumericElement Text) β₃) → List Text → List Text}
    (hts : CollectsRefs tsRefsIn) (hgo : CollectsRefs goRefsIn) (hrust : CollectsRefs rustRefsIn) :
    (∀ user, ∃ out, LeastClosure (coreRules β₁ fromCodePoint) user out ∧
      (Ts.withCoreRules tsRefsIn user : Except (Cause ε) _) =
        match rejectHoles user with
        | .error name => .error (.malformed name)
        | .ok () => .ok (user ++ out)) ∧
    (∀ user, ∃ out, LeastClosure (coreRules β₂ Go.runeString) user out ∧ Go.withCoreRules goRefsIn user = user ++ out) ∧
    ∀ user, ∃ out, LeastClosure (coreRules β₃ fun n => [charOr n]) user out ∧
      Rust.with_core_rules rustRefsIn user = user ++ out := by
  refine ⟨fun user => ?_, fun user => ?_, fun user => ?_⟩
  · have hout := @leastClosure_saturate _ _ _ Prod.fst (fun entry needed => scanProds tsRefsIn [entry.2] needed)
      (fun p => (p.name, p)) (fun entry => [entry.2]) _ user _ hts (coreRules_names fromCodePoint) (fun _ => rfl)
      (fun _ _ => rfl) fun entry needed n => mem_scanProds hts _ _ _
    refine ⟨_, hout, ?_⟩
    unfold Ts.withCoreRules
    cases rejectHoles user with
    | error name => rfl
    | ok => simp only [List.map_eq_flatMap]
  · -- a production of the list is the one its name is looked up as
    have hlookup : ∀ p ∈ coreRules β₂ Go.runeString, Go.coreByName β₂ p.name = [p] := by
      intro p hp
      obtain ⟨r, -, rfl⟩ := List.mem_map.1 hp
      cases r <;> rfl
    exact ⟨_, @leastClosure_saturate _ _ _ id (fun name needed => scanProds goRefsIn (Go.coreByName β₂ name) needed)
      (·.name) (Go.coreByName β₂) _ user _ hgo (coreRules_names _) (fun _ => rfl) hlookup
      fun name needed n => mem_scanProds hgo _ _ _, rfl⟩
  · have hout := @leastClosure_saturate _ _ _ (·.name) (fun p needed => scanProds rustRefsIn [p] needed) id
      (fun p => [p]) _ user _ hrust (coreRules_names fun n => [charOr n]) (fun _ => rfl) (fun _ _ => rfl)
      fun p needed n => mem_scanProds hrust _ _ _
    refine ⟨_, hout, ?_⟩
    unfold Rust.with_core_rules
    simp only [List.map_id, List.flatMap_singleton']

/-- `a = HEXDIG` in each port. -/
theorem withCoreRules_least_hexdig :
    let tsUser : Rules (NumericElement Units) Unit := [{ name := ['a'], alts := [[.ref CoreRule.HEXDIG.name none]] }]
    let user : Rules (NumericElement Text) Unit := [{ name := ['a'], alts := [[.ref CoreRule.HEXDIG.name none]] }]
    (∃ out, LeastClosure (coreRules Unit fromCodePoint) tsUser out ∧
      (Ts.withCoreRules (fun alt needed => needed ++ seqRefs alt) tsUser : Except (Cause NumericError) _) =
        .ok (tsUser ++ out)) ∧
    (∃ out, LeastClosure (coreRules Unit Go.runeString) user out ∧
      Go.withCoreRules (fun alt needed => needed ++ seqRefs alt) user = user ++ out) ∧
    ∃ out, LeastClosure (coreRules Unit fun n => [charOr n]) user out ∧
      Rust.with_core_rules (fun alt needed => needed ++ seqRefs alt) user = user ++ out := by
  intro tsUser user
  have hts : CollectsRefs fun (alt : List (Element (NumericElement Units) Unit)) needed => needed ++ seqRefs alt :=
    fun _ _ _ => List.mem_append
  have hports : CollectsRefs fun (alt : List (Element (NumericElement Text) Unit)) needed => needed ++ seqRefs alt :=
    fun _ _ _ => List.mem_append
  have h := @withCoreRules_least Unit Unit Unit NumericError _ _ _ hts hports hports
  exact ⟨h.1 tsUser, h.2.1 user, h.2.2 user⟩

end TabnasAbnf.Meta
