/-
What the compiler's rules generate: a rule opens with one of its alternates and closes with one, and a rule of the
compiler's that it hands over to stands for the elements that rule generates. The alternatives read back from a
rule's alternates generate the same where no alternate holds more than the reading of it takes.
-/
import TabnasAbnf.Base.Yield
import TabnasAbnf.Render.Elements
import TabnasAbnf.Render.SimpleAlts

namespace TabnasAbnf.Render

open TabnasAbnf.Base

/-! ## Opening and closing -/

/-- A rule before its open alternates, or before its close ones. -/
inductive Stage
  | opening (name : Text)
  | closing (name : Text)

/-- A rule handed over to: one of the compiler's is followed, another is an element. -/
def symbol (cx : Context) (name : Text) : El ⊕ Stage :=
  if abnfMade cx name = .done true then .inr (.opening name) else .inl (.ref name)

/-- What an alternate of a rule gives: its tokens, and then the rule it pushes, after which the rule closes, or the one
that takes the rule's place, or what comes next where it hands over to none. -/
def side (cx : Context) (name : Text) (alt : Json) (next : List (El ⊕ Stage)) : List (El ⊕ Stage) :=
  (abnfConsumed alt).map (fun t => .inl (.tok t)) ++
    if abnfP alt = [] then (if abnfR alt = [] then next else [symbol cx (abnfR alt)])
    else [symbol cx (abnfP alt), .inr (.closing name)]

/-- A rule without close alternates closes. -/
def sides (cx : Context) : Stage → List (List (El ⊕ Stage))
  | .opening name => (abnfOpen (abnfRule cx name)).map fun alt => side cx name alt [.inr (.closing name)]
  | .closing name =>
    if (abnfClose (abnfRule cx name)).isEmpty then [[]]
    else (abnfClose (abnfRule cx name)).map fun alt => side cx name alt []

/-- What a rule generates from a stage on: sequences of tokens and of rules that are not the compiler's. -/
def generated (cx : Context) (s : Stage) : Language El := language (sides cx) s

mutual

/-- What an element stands for. -/
def El.words (cx : Context) : El → Language El
  | .tok t => single (.tok t)
  | .ref name => through (generated cx) [symbol cx name]
  | .tail seq => 1 + seqWords cx seq
  | .grp seq => seqWords cx seq

def seqWords (cx : Context) : List El → Language El
  | [] => 1
  | el :: seq => el.words cx * seqWords cx seq

end

def altsWords (cx : Context) (alts : List Seq) : Language El := (alts.map (seqWords cx)).sum

section

variable {cx : Context} {name : Text} {alt : Json}

theorem seqWords_append (seq seq' : Seq) : seqWords cx (seq ++ seq') = seqWords cx seq * seqWords cx seq' := by
  induction seq with
  | nil => rw [List.nil_append, seqWords, one_mul]
  | cons el seq ih => rw [List.cons_append, seqWords, seqWords, ih, mul_assoc]

theorem seqWords_single (el : El) : seqWords cx [el] = el.words cx := by
  rw [seqWords, seqWords, mul_one]

theorem seqWords_replicate (n : Nat) (el : El) : seqWords cx (List.replicate n el) = el.words cx ^ n := by
  induction n with
  | zero => rfl
  | succ n ih => rw [List.replicate_succ, seqWords, ih, pow_succ']

theorem mem_altsWords {alts : List Seq} {w : List El} : w ∈ altsWords cx alts ↔ ∃ seq ∈ alts, w ∈ seqWords cx seq :=
  mem_sum

theorem altsWords_single (seq : Seq) : altsWords cx [seq] = seqWords cx seq := by
  rw [altsWords, List.map_singleton, List.sum_singleton]

theorem altsWords_append (alts alts' : List Seq) :
    altsWords cx (alts ++ alts') = altsWords cx alts + altsWords cx alts' := by
  rw [altsWords, List.map_append, List.sum_append]
  rfl

/-- Alternatives with the same members, however often each stands, generate the same. -/
theorem altsWords_congr {alts alts' : List Seq} (h : ∀ seq, seq ∈ alts ↔ seq ∈ alts') :
    altsWords cx alts = altsWords cx alts' := by
  ext w
  simp only [mem_altsWords, h]

theorem altsWords_flatten (parts : List (List Seq)) : altsWords cx parts.flatten = (parts.map (altsWords cx)).sum := by
  induction parts with
  | nil => rfl
  | cons part parts ih => rw [List.flatten_cons, altsWords_append, ih, List.map_cons, List.sum_cons]

/-- A rule of the compiler's stands for what it generates. -/
theorem words_made (h : abnfMade cx name = .done true) : (El.ref name).words cx = generated cx (.opening name) := by
  rw [El.words, symbol, if_pos h, through_cons_state, through_nil, mul_one]

theorem words_rule (h : abnfMade cx name = .done false) : (El.ref name).words cx = single (.ref name) := by
  rw [El.words, symbol, if_neg (by rw [h]; decide), through_cons_single, through_nil, mul_one]

/-! ## An alternate's words -/

/-- An alternate that takes nothing and hands over to no rule. -/
def Idle (alt : Json) : Prop := abnfConsumed alt = [] ∧ abnfTarget alt = []

/-- An open alternate after which the rule closes. -/
def Stays (alt : Json) : Prop := abnfP alt ≠ [] ∨ abnfR alt = []

/-- A close alternate that a rule takes the place of, and that takes nothing. -/
def LeadsTo (alt : Json) (name : Text) : Prop := abnfConsumed alt = [] ∧ abnfP alt = [] ∧ abnfR alt = name ∧ name ≠ []

/-- The rule does no more after what it opens with. -/
def Closes (cx : Context) (name : Text) : Prop := ∀ alt ∈ abnfClose (abnfRule cx name), Idle alt

theorem Idle.target (h : Idle alt) : abnfP alt = [] ∧ abnfR alt = [] := by
  have htarget := h.2
  rw [abnfTarget] at htarget
  split at htarget
  · rename_i hp
    exact ⟨hp, htarget⟩
  · rename_i hp
    exact absurd htarget hp

theorem side_idle (h : Idle alt) (name : Text) (next : List (El ⊕ Stage)) : side cx name alt next = next := by
  rw [side, h.1, if_pos h.target.1, if_pos h.target.2]
  rfl

theorem symbol_made (h : abnfMade cx name = .done true) : symbol cx name = .inr (.opening name) := if_pos h

theorem side_leadsTo {other : Text} (h : LeadsTo alt other) (name : Text) (next : List (El ⊕ Stage)) :
    side cx name alt next = [symbol cx other] := by
  obtain ⟨htoks, hp, rfl, hr⟩ := h
  rw [side, htoks, if_pos hp, if_neg hr]
  rfl

/-- A token is a letter, and a reference to a rule of the compiler's leads on to it. -/
def El.symbol (cx : Context) : El → El ⊕ Stage
  | .ref name => Render.symbol cx name
  | el => .inl el

/-- What an alternate gives is what it is read as, and what the rule still does. -/
theorem side_eq (name : Text) (alt : Json) (next : List (El ⊕ Stage)) : side cx name alt next =
    (abnfEntryEls alt).map (El.symbol cx) ++
      if abnfP alt = [] then (if abnfR alt = [] then next else []) else [.inr (.closing name)] := by
  have htoks : (abnfConsumed alt).map (fun t => .inl (.tok t)) = ((abnfConsumed alt).map El.tok).map
    (El.symbol cx) := by
    rw [List.map_map]
    rfl
  rw [side, htoks, abnfEntryEls, abnfTarget]
  by_cases hp : abnfP alt = []
  · by_cases hr : abnfR alt = []
    · simp only [hp, hr, if_true]
    · simp only [hp, hr, if_true, if_false, List.map_append, List.append_nil]
      rfl
  · simp only [hp, if_false, List.map_append, List.append_assoc]
    rfl

theorem seqWords_symbols {seq : Seq} (h : ∀ el ∈ seq, ∃ name, el = .tok name ∨ el = .ref name) :
    through (generated cx) (seq.map (El.symbol cx)) = seqWords cx seq := by
  induction seq with
  | nil => rfl
  | cons el seq ih =>
    rw [List.map_cons, ← List.singleton_append, through_append,
      ih fun e he => h e (List.mem_cons_of_mem _ he), seqWords]
    rcases h el List.mem_cons_self with ⟨name, rfl | rfl⟩
    · rw [El.symbol, through_cons_single, through_nil, mul_one, El.words]
      exact fun _ h => by cases h
    · rfl

theorem mem_entryEls {el : El} (h : el ∈ abnfEntryEls alt) : ∃ name, el = .tok name ∨ el = .ref name := by
  unfold abnfEntryEls at h
  split at h
  · obtain ⟨t, -, rfl⟩ := List.mem_map.1 h
    exact ⟨t, .inl rfl⟩
  · rcases List.mem_append.1 h with h | h
    · obtain ⟨t, -, rfl⟩ := List.mem_map.1 h
      exact ⟨t, .inl rfl⟩
    · exact ⟨_, .inr (List.mem_singleton.1 h)⟩

theorem side_words (name : Text) (alt : Json) (next : List (El ⊕ Stage)) :
    through (generated cx) (side cx name alt next) =
    seqWords cx (abnfEntryEls alt) * if abnfP alt = [] then (if abnfR alt = [] then through (generated cx) next else 1)
      else generated cx (.closing name) := by
  rw [side_eq, through_append, seqWords_symbols fun el => mem_entryEls]
  congr 1
  split_ifs
  · rfl
  · rfl
  · rw [through_cons_state, through_nil, mul_one]

theorem opening_eq : generated cx (.opening name) =
    ((abnfOpen (abnfRule cx name)).map fun alt => through (generated cx)
    (side cx name alt [.inr (.closing name)])).sum := by
  rw [generated, language_eq, sides, List.map_map]
  rfl

theorem side_le_opening (h : alt ∈ abnfOpen (abnfRule cx name)) :
    through (generated cx) (side cx name alt [.inr (.closing name)]) ≤ generated cx (.opening name) := by
  rw [opening_eq]
  exact fun w hw => mem_sum.2 ⟨alt, h, hw⟩

theorem closing_eq (hne : abnfClose (abnfRule cx name) ≠ []) : generated cx (.closing name) =
    ((abnfClose (abnfRule cx name)).map fun alt => through (generated cx) (side cx name alt [])).sum := by
  rw [generated, language_eq, sides, if_neg (by simpa using hne), List.map_map]
  rfl

theorem closing_eq_one (h : Closes cx name) : generated cx (.closing name) = 1 := by
  by_cases hne : abnfClose (abnfRule cx name) = []
  · rw [generated, language_eq, sides, if_pos (by simpa using hne), List.map_singleton, List.sum_singleton, through_nil]
  · rw [closing_eq hne]
    exact sum_same hne fun alt halt => by rw [side_idle (h alt halt), through_nil]

/-- A rule that closes at once generates what its open alternates are read as. -/
theorem opening_words (h : Closes cx name) : generated cx (.opening name) =
    altsWords cx ((abnfOpen (abnfRule cx name)).map fun (alt : Json) => abnfEntryEls alt) := by
  rw [opening_eq, altsWords, List.map_map]
  congr 1
  refine List.map_congr_left fun alt _ => ?_
  rw [side_words, through_cons_state, through_nil, closing_eq_one h, mul_one, ite_self, ite_self, mul_one]
  rfl

/-- A rule of open alternates that are read alike, after which it closes. -/
theorem opening_stays {els : Seq} (hne : abnfOpen (abnfRule cx name) ≠ [])
    (h : ∀ alt ∈ abnfOpen (abnfRule cx name), Stays alt ∧ abnfEntryEls alt = els) :
    generated cx (.opening name) = seqWords cx els * generated cx (.closing name) := by
  rw [opening_eq]
  refine sum_same hne fun alt halt => ?_
  obtain ⟨hstays, rfl⟩ := h alt halt
  rw [side_words, through_cons_state, through_nil, mul_one]
  congr 1
  rcases hstays with hp | hr
  · rw [if_neg hp]
  · rw [if_pos hr, ite_self]

/-- A rule that, as it closes, rules with the same words take the place of. -/
theorem closing_leadsTo {l : Language El} (hne : abnfClose (abnfRule cx name) ≠ [])
    (h : ∀ alt ∈ abnfClose (abnfRule cx name), ∃ next, LeadsTo alt next ∧ (El.ref next).words cx = l) :
    generated cx (.closing name) = l := by
  rw [closing_eq hne]
  refine sum_same hne fun alt halt => ?_
  obtain ⟨next, hleads, rfl⟩ := h alt halt
  rw [side_leadsTo hleads]
  rfl

end

end TabnasAbnf.Render
