/-
A literal as an ABNF terminal: a quoted string where one can hold it, and otherwise a numeric value of
its characters' code points. The renderer has no character codes: it cuts the text at each ASCII
character it holds, then finds the other characters by blocks of 256, trying every escape.
-/
import TabnasAbnf.Render.Text

namespace TabnasAbnf.Render

open TabnasAbnf.Base

/-! ## Tables -/

/-- The sixteen hexadecimal digits. -/
def abnfHexDigits : List Text :=
  ['0', '1', '2', '3', '4', '5', '6', '7', '8', '9', 'A', 'B', 'C', 'D', 'E', 'F'].map ([·])

/-- The 256 pairs of digits. -/
def abnfHexPairs : List Text := abnfHexDigits.flatMap fun a => abnfHexDigits.map fun b => stringJoin [] [a, b]

/-- The ASCII characters, each with its two digits. -/
def abnfAscii : List (Text × Text) := (List.range 0x80).map fun n => ([Char.ofNat n], abnfHexPairs.getD n [])

/-- The start of each block of 256 code points in the Basic Multilingual Plane. -/
def abnfBlocks : List Nat := (List.range 256).map (· * 256)

/-! ## Cutting a text at its characters -/

/-- A piece of a literal's text: a run of its characters, or one character as its code point's
digits. -/
inductive Seg
  | raw (s : Text)
  | cp (h : Text)
  deriving DecidableEq, Repr

/-- A run cut at each place it holds a character, which is put back as its code point. -/
def abnfCutSeg (c h : Text) : Seg → List Seg
  | .raw s =>
    match split c s with
    | [] => []
    | p :: ps => .raw p :: ps.flatMap fun q => [.cp h, .raw q]
  | .cp h' => [.cp h']

def abnfKeptSeg : Seg → Bool
  | .raw [] => false
  | _ => true

/-- The pieces with each of the characters cut out in turn, the last first. -/
def abnfCodeWalk (chars : List (Text × Text)) (segs : List Seg) : List Seg :=
  chars.foldr (fun ch segs => (segs.flatMap (abnfCutSeg ch.1 ch.2)).filter abnfKeptSeg) segs

/-- The characters of a list that a text holds. -/
def heldIn (run : Text) (chars : List (Text × Text)) : List (Text × Text) :=
  chars.filter fun ch => !(split ch.1 run).tail.isEmpty

/-- The run without the characters, the last first. -/
def abnfStripChars (chars : List (Text × Text)) (s : Text) : Text :=
  chars.foldr (fun ch s => stringJoin [] (split ch.1 s)) s

/-! ## Characters past ASCII -/

/-- Why the renderer refuses a literal. -/
inductive LitRefusal
  | pastBmp (text : Text)
  | cannotSpell (text : Text)
  | sensitive (text : Text)
  | uncased (text : Text)
  deriving DecidableEq, Repr

/-- A code point's digits without leading zeros. -/
def abnfPointHex (hh l : Text) : Text :=
  if hh = ['0', '0'] then l
  else if abnfStarts ['0'] hh then stringJoin [] [abnfAfter ['0'] hh, l]
  else stringJoin [] [hh, l]

/-- The block of a run's least character. -/
def blockOf (run : Text) : Nat :=
  ((List.range abnfBlocks.length).filter fun i => charsWithin [(abnfBlocks.getD i 0, 65535)] run).getLastD 0

/-- The characters of a block, each with its digits. -/
def blockChars (b : Nat) : List (Text × Text) :=
  let hh := abnfHexPairs.getD b []
  abnfHexPairs.map fun l => (unquotedEscape (abnfHexLower hh ++ abnfHexLower l), abnfPointHex hh l)

/-- A list of characters, each a text of its own. -/
def Singles (chars : List (Text × Text)) : Prop := ∀ ch ∈ chars, ∃ c, ch.1 = [c]

theorem Singles.heldIn {chars : List (Text × Text)} (h : Singles chars) (run : Text) : Singles (heldIn run chars) :=
  fun ch hm => h ch (List.mem_of_mem_filter hm)

theorem mem_heldIn {chars : List (Text × Text)} {c : Char} {h run : Text} :
    ([c], h) ∈ heldIn run chars ↔ ([c], h) ∈ chars ∧ c ∈ run := by
  rw [heldIn, List.mem_filter, tail_split_isEmpty]
  simp

theorem hexPairs_hex : abnfHexPairs.all (fun h => !h.isEmpty && h.all (isDigit 16) && h.length == 2) = true := by
  decide +kernel

theorem hexPairs_mem {h : Text} (hm : h ∈ abnfHexPairs) : h ≠ [] ∧ h.all (isDigit 16) = true ∧ h.length = 2 := by
  have hall := List.all_eq_true.1 hexPairs_hex h hm
  simp only [Bool.and_eq_true, Bool.not_eq_true', List.isEmpty_eq_false_iff, beq_iff_eq] at hall
  exact ⟨hall.1.1, hall.1.2, hall.2⟩

theorem blockChars_singles (b : Nat) : Singles (blockChars b) := by
  intro ch hm
  obtain ⟨l, hl, rfl⟩ := List.mem_map.1 hm
  have hlow := (hexPairs_mem hl).2.2
  have hhigh : (abnfHexPairs.getD b []).length ≤ 2 := by
    rw [List.getD_eq_getElem?_getD]
    rcases hb : abnfHexPairs[b]? with _ | hh
    · simp
    · exact le_of_eq (hexPairs_mem (List.mem_of_getElem? hb)).2.2
  refine ⟨_, unquotedEscape_eq ?_⟩
  rw [List.length_append, abnfHexLower_length, abnfHexLower_length]
  omega

/-- What is left of a run are the characters not among those taken off. -/
theorem mem_stripChars {chars : List (Text × Text)} (h : Singles chars) {s : Text} {x : Char} :
    x ∈ abnfStripChars chars s ↔ x ∈ s ∧ ∀ ch ∈ chars, ch.1 ≠ [x] := by
  induction chars with
  | nil => simp [abnfStripChars]
  | cons ch chars ih =>
    obtain ⟨c, hc⟩ := h ch List.mem_cons_self
    have hih := ih fun ch' hm => h ch' (List.mem_cons_of_mem _ hm)
    rw [abnfStripChars, List.foldr_cons, ← abnfStripChars, hc, join_split_nil, List.mem_filter, hih]
    simp only [List.forall_mem_cons, hc, decide_eq_true_eq, ne_eq, List.cons.injEq, and_true]
    constructor
    · rintro ⟨⟨hs, hall⟩, hne⟩
      exact ⟨hs, Ne.symm hne, hall⟩
    · rintro ⟨hs, hne, hall⟩
      exact ⟨⟨hs, hall⟩, Ne.symm hne⟩

theorem stripChars_sublist {chars : List (Text × Text)} (h : Singles chars) (s : Text) :
    (abnfStripChars chars s).Sublist s := by
  induction chars with
  | nil => exact List.Sublist.refl s
  | cons ch chars ih =>
    obtain ⟨c, hc⟩ := h ch List.mem_cons_self
    rw [abnfStripChars, List.foldr_cons, ← abnfStripChars, hc, join_split_nil]
    exact List.filter_sublist.trans (ih fun ch' hm => h ch' (List.mem_cons_of_mem _ hm))

/-- A run is shorter without characters it holds. -/
theorem stripChars_length {chars : List (Text × Text)} (h : Singles chars) {run : Text}
    (hne : heldIn run chars ≠ []) : (abnfStripChars (heldIn run chars) run).length < run.length := by
  obtain ⟨⟨c', hx⟩, hm⟩ := List.exists_mem_of_ne_nil _ hne
  obtain ⟨c, hc⟩ := h.heldIn run _ hm
  simp only at hc
  subst hc
  have hsub := stripChars_sublist (h.heldIn run) run
  refine lt_of_le_of_ne hsub.length_le fun he => ?_
  have heq := hsub.eq_of_length he
  have hmem : c ∈ abnfStripChars (heldIn run chars) run := heq.symm ▸ (mem_heldIn.1 hm).2
  exact ((mem_stripChars (h.heldIn run)).1 hmem).2 _ hm rfl

/-- The characters of a run past ASCII, a block at a time. -/
def abnfWideChars (text run : Text) (acc : List (Text × Text)) : Except LitRefusal (List (Text × Text)) :=
  if run = [] then .ok acc
  else
    if _h : heldIn run (blockChars (blockOf run)) = [] then .error (.cannotSpell text)
    else
      abnfWideChars text (abnfStripChars (heldIn run (blockChars (blockOf run))) run)
        (acc ++ heldIn run (blockChars (blockOf run)))
termination_by run.length
decreasing_by exact stripChars_length (blockChars_singles _) (by assumption)

/-- `get :cp`, which a run has not. -/
def Seg.digits : Seg → Text
  | .cp h => h
  | .raw _ => []

/-- The code points of a piece that holds no ASCII character. -/
def abnfWideCodes (text : Text) : Seg → Except LitRefusal (List Text)
  | .raw raw =>
    if charsWithin [(128, 55295), (57344, 65535)] raw then do
      let found ← abnfWideChars text raw []
      .ok ((abnfCodeWalk found [.raw raw]).map Seg.digits)
    else .error (.pastBmp text)
  | .cp h => .ok [h]

/-- A literal's characters as their code points, in order. -/
def abnfCodes (text : Text) : Except LitRefusal (List Text) :=
  ((abnfCodeWalk (heldIn text abnfAscii) [.raw text]).mapM (abnfWideCodes text)).map List.flatten

def abnfHasLetter (text : Text) : Bool := !charsWithin [(0, 64), (91, 96), (123, 1114111)] text

/-- A literal as an ABNF terminal: a quoted string where one can hold it, `%s` before it when the match
is exact and the text holds a letter, and otherwise a numeric value. -/
def abnfLitText (text : Text) (cs : Bool) : Except LitRefusal Text :=
  let numeric := (abnfCodes text).map fun codes => ['%', 'x'] ++ stringJoin ['.'] codes
  if text = [] then .ok ['"', '"']
  else if charsWithin [(32, 33), (35, 126)] text then
    if cs then
      if abnfHasLetter text then .ok (['%', 's', '"'] ++ text ++ ['"']) else .ok (['"'] ++ text ++ ['"'])
    else .ok (['"'] ++ text ++ ['"'])
  else if cs then
    if abnfHasLetter text then .error (.sensitive text) else numeric
  else if abnfHasLetter text || charsWithin [(0, 127), (65536, 1114111)] text then numeric
  else .error (.uncased text)

/-! ## What the pieces hold -/

/-- Digits that are the code point of a character of the Basic Multilingual Plane. -/
structure IsCode (h : Text) : Prop where
  ne : h ≠ []
  hex : h.all (isDigit 16) = true
  valid : (ofDigits 16 h).isValidChar
  bmp : ofDigits 16 h < 65536

/-- The text a piece stands for. -/
def Seg.text : Seg → Text
  | .raw s => s
  | .cp h => [charOr (ofDigits 16 h)]

/-- A character with digits that are its code point. -/
def Spells (ch : Text × Text) : Prop := IsCode ch.2 ∧ ch.1 = (Seg.cp ch.2).text

/-- Pieces of a text: its code points, and runs that hold none of some characters. -/
structure Pieces (text : Text) (gone : List (Text × Text)) (segs : List Seg) : Prop where
  text : segs.flatMap Seg.text = text
  code : ∀ h, .cp h ∈ segs → IsCode h
  run : ∀ s, .raw s ∈ segs → s ≠ [] ∧ ∀ x ∈ s, ∀ ch ∈ gone, ch.1 ≠ [x]

theorem cutSeg_text {ch : Text × Text} (h : Spells ch) (seg : Seg) :
    (abnfCutSeg ch.1 ch.2 seg).flatMap Seg.text = seg.text := by
  cases seg with
  | cp h' => simp [abnfCutSeg]
  | raw s =>
    have hjoin : ∀ (p : Text) (ps : List Text),
        (Seg.raw p :: ps.flatMap fun q => [.cp ch.2, .raw q]).flatMap Seg.text = stringJoin ch.1 (p :: ps) := by
      intro p ps
      induction ps generalizing p with
      | nil => simp [stringJoin, Seg.text]
      | cons q ps ih =>
        rw [stringJoin_cons _ _ (List.cons_ne_nil q ps), ← ih q, h.2]
        simp [Seg.text]
    rw [abnfCutSeg]
    obtain ⟨p, ps, hp⟩ := List.exists_cons_of_ne_nil (split_ne_nil ch.1 s)
    rw [hp]
    simp only
    rw [hjoin, ← hp, join_split (by rw [h.2]; exact List.cons_ne_nil _ _)]
    rfl

theorem cutSeg_code {c h h' : Text} {seg : Seg} (hm : .cp h' ∈ abnfCutSeg c h seg) : h' = h ∨ seg = .cp h' := by
  cases seg with
  | cp h'' =>
    rw [abnfCutSeg, List.mem_singleton] at hm
    exact .inr hm.symm
  | raw s =>
    rw [abnfCutSeg] at hm
    cases hs : split c s with
    | nil => rw [hs] at hm; cases hm
    | cons p ps =>
      rw [hs] at hm
      simp at hm
      exact .inl hm.2

/-- A run cut from a run holds its characters but the one it was cut at. -/
theorem cutSeg_run {c : Char} {h s : Text} {seg : Seg} (hm : .raw s ∈ abnfCutSeg [c] h seg) :
    ∃ s', seg = .raw s' ∧ ∀ x ∈ s, x ∈ s' ∧ x ≠ c := by
  cases seg with
  | cp h'' => rw [abnfCutSeg, List.mem_singleton] at hm; cases hm
  | raw s' =>
    refine ⟨s', rfl, fun x hx => ?_⟩
    refine mem_piece ?_ x hx
    rw [abnfCutSeg] at hm
    cases hs : split [c] s' with
    | nil => rw [hs] at hm; cases hm
    | cons p ps =>
      rw [hs] at hm
      simpa using hm

theorem Pieces.step {text : Text} {gone : List (Text × Text)} {segs : List Seg} {ch : Text × Text}
    (h : Pieces text gone segs) (hch : Spells ch) :
    Pieces text (ch :: gone) ((segs.flatMap (abnfCutSeg ch.1 ch.2)).filter abnfKeptSeg) where
  text := by
    have hkept : ∀ segs : List Seg, (segs.filter abnfKeptSeg).flatMap Seg.text = segs.flatMap Seg.text := by
      intro segs
      induction segs with
      | nil => rfl
      | cons seg segs ih =>
        rw [List.filter_cons, List.flatMap_cons, ← ih]
        obtain (_ | ⟨x, s⟩) | h := seg <;> rfl
    rw [hkept, List.flatMap_assoc, ← h.text]
    exact List.flatMap_congr fun seg _ => cutSeg_text hch seg
  code h' hm := by
    obtain ⟨seg, hseg, hm⟩ := List.mem_flatMap.1 (List.mem_of_mem_filter hm)
    rcases cutSeg_code hm with rfl | rfl
    · exact hch.1
    · exact h.code _ hseg
  run s hm := by
    obtain ⟨hm, hkept⟩ := List.mem_filter.1 hm
    obtain ⟨seg, hseg, hm⟩ := List.mem_flatMap.1 hm
    have hs : s ≠ [] := by
      rintro rfl
      cases hkept
    rw [hch.2] at hm
    obtain ⟨s', rfl, hx⟩ := cutSeg_run hm
    refine ⟨hs, fun x hxs => List.forall_mem_cons.2 ⟨?_, (h.run s' hseg).2 x (hx x hxs).1⟩⟩
    rw [hch.2]
    exact fun he => (hx x hxs).2 (List.cons.inj he).1.symm

/-- The characters are cut out of the pieces, and the pieces stand for the text still. -/
theorem Pieces.walk {text : Text} {chars : List (Text × Text)} {segs : List Seg} (h : Pieces text [] segs)
    (hch : ∀ ch ∈ chars, Spells ch) : Pieces text chars (abnfCodeWalk chars segs) := by
  induction chars with
  | nil => exact h
  | cons ch chars ih =>
    rw [abnfCodeWalk, List.foldr_cons, ← abnfCodeWalk]
    exact (ih fun ch' hm => hch ch' (List.mem_cons_of_mem _ hm)).step (hch ch List.mem_cons_self)

theorem Pieces.start {text : Text} (h : text ≠ []) : Pieces text [] [.raw text] where
  text := by simp [Seg.text]
  code h' hm := by simp at hm
  run s hm := by
    cases List.mem_singleton.1 hm
    exact ⟨h, fun x _ ch hch => absurd hch List.not_mem_nil⟩

/-! ## What the tables hold -/

theorem hexPairs_value : abnfHexPairs.map (ofDigits 16) = List.range 256 := by decide +kernel

theorem hexPairs_getD {n : Nat} (h : n < 256) :
    abnfHexPairs.getD n [] ∈ abnfHexPairs ∧ ofDigits 16 (abnfHexPairs.getD n []) = n := by
  have hlen : abnfHexPairs.length = 256 := by
    rw [← List.length_map (ofDigits 16), hexPairs_value, List.length_range]
  have hn : n < abnfHexPairs.length := by omega
  have hget : abnfHexPairs.getD n [] = abnfHexPairs[n] := by
    rw [List.getD_eq_getElem?_getD, List.getElem?_eq_getElem hn, Option.getD_some]
  have hval : (abnfHexPairs.map (ofDigits 16))[n]? = some n := by
    rw [hexPairs_value, List.getElem?_range h]
  rw [List.getElem?_map, List.getElem?_eq_getElem hn] at hval
  rw [hget]
  exact ⟨List.getElem_mem hn, by simpa using hval⟩

theorem hexPairs_lt {h : Text} (hm : h ∈ abnfHexPairs) : ofDigits 16 h < 256 := by
  have hr := @List.mem_map_of_mem _ _ _ _ (ofDigits 16) hm
  rwa [hexPairs_value, List.mem_range] at hr

theorem ascii_spells {ch : Text × Text} (hm : ch ∈ abnfAscii) : Spells ch := by
  obtain ⟨n, hn, rfl⟩ := List.mem_map.1 hm
  have hlt : n < 0x80 := List.mem_range.1 hn
  obtain ⟨hpair, hval⟩ := hexPairs_getD (by omega : n < 256)
  obtain ⟨hne, hhex, -⟩ := hexPairs_mem hpair
  have hvalid : n.isValidChar := .inl (by omega)
  refine ⟨⟨hne, hhex, by rwa [hval], by rw [hval]; omega⟩, ?_⟩
  simp only [Seg.text, hval, charOr, if_pos hvalid]

/-- A pair's digits without leading zeros, before another's. -/
def leadHex (hh : Text) : Text :=
  if hh = ['0', '0'] then [] else if abnfStarts ['0'] hh then abnfAfter ['0'] hh else hh

theorem pointHex_eq (hh l : Text) : abnfPointHex hh l = leadHex hh ++ l := by
  unfold abnfPointHex leadHex
  split
  · rfl
  · split <;> simp [stringJoin, List.intercalate]

theorem leadHex_value : abnfHexPairs.all (fun hh => (leadHex hh).all (isDigit 16) &&
    ofDigits 16 (leadHex hh) == ofDigits 16 hh) = true := by decide +kernel

/-- Every escape of a block that holds no surrogate spells its character. -/
theorem blockChars_spells {b : Nat} (hb : b < 256) (hs : b < 0xD8 ∨ 0xDF < b) {ch : Text × Text}
    (hm : ch ∈ blockChars b) : Spells ch := by
  obtain ⟨l, hl, rfl⟩ := List.mem_map.1 hm
  obtain ⟨hpair, hval⟩ := hexPairs_getD hb
  generalize hhh : abnfHexPairs.getD b [] = hh at *
  obtain ⟨hne, hhex, hlen⟩ := hexPairs_mem hl
  have hlt := hexPairs_lt hl
  have hlead := List.all_eq_true.1 leadHex_value hh hpair
  rw [Bool.and_eq_true, beq_iff_eq] at hlead
  have hpow : 16 ^ 2 = 256 := rfl
  have hpoint : ofDigits 16 (abnfPointHex hh l) = b * 256 + ofDigits 16 l := by
    rw [pointHex_eq, ofDigits_append_eq, hlead.2, hval, hlen, hpow]
  have hescape : ofDigits 16 (abnfHexLower hh ++ abnfHexLower l) = b * 256 + ofDigits 16 l := by
    rw [@ofDigits_congr 16 _ (hh ++ l) (by simp [abnfHexLower_digits]), ofDigits_append_eq, hval, hlen, hpow]
  have hvalid : (b * 256 + ofDigits 16 l).isValidChar := by
    rcases hs with hs | hs
    · exact .inl (by omega)
    · exact .inr ⟨by omega, by omega⟩
  refine ⟨⟨?_, ?_, by rwa [hpoint], by rw [hpoint]; omega⟩, ?_⟩
  · rw [pointHex_eq]
    exact List.append_ne_nil_of_right_ne_nil _ hne
  · simp only [pointHex_eq, List.all_append, hlead.1, hhex, Bool.and_self]
  · simp only [Seg.text, hpoint]
    rw [unquotedEscape_eq, hescape]
    rw [List.length_append, abnfHexLower_length, abnfHexLower_length, hlen, (hexPairs_mem hpair).2.2]

/-! ## A run of characters past ASCII -/

/-- A run not empty has a least character. -/
theorem exists_least {run : Text} (h : run ≠ []) : ∃ c ∈ run, ∀ d ∈ run, c.toNat ≤ d.toNat := by
  induction run with
  | nil => exact absurd rfl h
  | cons x run ih =>
    by_cases hr : run = []
    · subst hr
      exact ⟨x, List.mem_cons_self, by simp⟩
    · obtain ⟨c, hc, hle⟩ := ih hr
      rcases le_total x.toNat c.toNat with hx | hx
      · exact ⟨x, List.mem_cons_self, List.forall_mem_cons.2 ⟨le_rfl, fun d hd => hx.trans (hle d hd)⟩⟩
      · exact ⟨c, List.mem_cons_of_mem _ hc, List.forall_mem_cons.2 ⟨hx, hle⟩⟩

/-- The last of the numbers below `n` that pass a test which holds up to `m` is `m`. -/
theorem getLastD_filter_range {p : Nat → Bool} {m n : Nat} (hm : m < n) (h : ∀ i < n, p i = decide (i ≤ m)) :
    ((List.range n).filter p).getLastD 0 = m := by
  obtain ⟨k, rfl⟩ := Nat.exists_eq_add_of_le hm
  have hlow : (List.range (m + 1)).filter p = List.range m ++ [m] := by
    rw [← List.range_succ, List.filter_eq_self]
    intro i hi
    have hlt := List.mem_range.1 hi
    rw [h i (by omega), decide_eq_true_eq]
    omega
  have hhigh : ((List.range k).map (m + 1 + ·)).filter p = [] := by
    rw [List.filter_eq_nil_iff]
    intro i hi
    obtain ⟨j, hj, rfl⟩ := List.mem_map.1 hi
    have hlt := List.mem_range.1 hj
    rw [h _ (by omega), decide_eq_true_eq]
    omega
  rw [Nat.succ_eq_add_one, List.range_add, List.filter_append, hlow, hhigh, List.append_nil, List.getLastD_concat]

/-- The block taken is one of the run's characters' own. -/
theorem blockOf_eq {run : Text} (hne : run ≠ []) (hb : ∀ c ∈ run, c.toNat < 65536) :
    ∃ c ∈ run, blockOf run = c.toNat / 256 := by
  obtain ⟨c, hc, hle⟩ := exists_least hne
  have hlt := hb c hc
  have hlen : abnfBlocks.length = 256 := by rw [abnfBlocks, List.length_map, List.length_range]
  refine ⟨c, hc, ?_⟩
  rw [blockOf, hlen]
  refine getLastD_filter_range (by omega) fun i hi => ?_
  have hstart : abnfBlocks.getD i 0 = i * 256 := by
    rw [abnfBlocks, List.getD_eq_getElem?_getD, List.getElem?_map, List.getElem?_range hi]
    rfl
  rw [Bool.eq_iff_iff, charsWithin, List.all_eq_true, decide_eq_true_eq, hstart]
  simp only [List.any_cons, List.any_nil, Bool.or_false, decide_eq_true_eq]
  constructor
  · intro hall
    have := hall c hc
    omega
  · intro hi d hd
    have h₁ := hle d hd
    have h₂ := hb d hd
    omega

/-- What is found of a run in the basic plane spells its characters, and all of them. -/
theorem wideChars_spec {text run : Text} {acc found : List (Text × Text)}
    (h : abnfWideChars text run acc = .ok found) (hb : ∀ c ∈ run, c.toNat < 65536) (hacc : ∀ ch ∈ acc, Spells ch) :
    (∀ ch ∈ found, Spells ch) ∧ acc ⊆ found ∧ ∀ c ∈ run, ∃ ch ∈ found, ch.1 = [c] := by
  induction run, acc using abnfWideChars.induct with
  | case1 acc =>
    rw [abnfWideChars, if_pos rfl] at h
    cases h
    exact ⟨hacc, List.Subset.refl _, by simp⟩
  | case2 run acc hne hnone =>
    rw [abnfWideChars, if_neg hne, dif_pos hnone] at h
    cases h
  | case3 run acc hne hsome ih =>
    rw [abnfWideChars, if_neg hne, dif_neg hsome] at h
    have hsingles := (blockChars_singles (blockOf run)).heldIn run
    have hstrip : ∀ c ∈ abnfStripChars (heldIn run (blockChars (blockOf run))) run, c.toNat < 65536 := fun c hc =>
      hb c ((mem_stripChars hsingles).1 hc).1
    -- the block of a character that is no surrogate holds none
    have hheld : ∀ ch ∈ heldIn run (blockChars (blockOf run)), Spells ch := by
      intro ch hm
      obtain ⟨c, hc, hblock⟩ := blockOf_eq hne hb
      have hlt := hb c hc
      have hvalid := c.valid
      refine blockChars_spells (by omega) ?_ (List.mem_of_mem_filter hm)
      have hcn : c.toNat < 0xD800 ∨ 0xDFFF < c.toNat := by
        rcases hvalid with hv | hv
        · exact .inl hv
        · exact .inr hv.1
      omega
    obtain ⟨hall, hsub, hrun⟩ := ih h hstrip (List.forall_mem_append.2 ⟨hacc, hheld⟩)
    refine ⟨hall, fun ch hm => hsub (List.mem_append_left _ hm), fun c hc => ?_⟩
    by_cases hm : c ∈ abnfStripChars (heldIn run (blockChars (blockOf run))) run
    · exact hrun c hm
    · rw [mem_stripChars hsingles] at hm
      push Not at hm
      obtain ⟨ch, hch, he⟩ := hm hc
      exact ⟨ch, hsub (List.mem_append_right _ hch), he⟩

/-! ## A literal's code points -/

/-- Digits that are the code points of a text, character by character. -/
structure Codes (text : Text) (hs : List Text) : Prop where
  code : ∀ h ∈ hs, IsCode h
  text : hs.map (fun h => charOr (ofDigits 16 h)) = text

theorem Codes.append {text text' : Text} {hs hs' : List Text} (h : Codes text hs) (h' : Codes text' hs') :
    Codes (text ++ text') (hs ++ hs') where
  code := List.forall_mem_append.2 ⟨h.code, h'.code⟩
  text := by rw [List.map_append, h.text, h'.text]

theorem Codes.bmp {text : Text} {hs : List Text} (h : Codes text hs) : ∀ c ∈ text, c.toNat < 65536 := by
  intro c hc
  rw [← h.text] at hc
  obtain ⟨d, hd, rfl⟩ := List.mem_map.1 hc
  rw [charOr_toNat (h.code d hd).valid]
  exact (h.code d hd).bmp

/-- Pieces without a run are the code points of their text. -/
theorem Pieces.codes {text : Text} {gone : List (Text × Text)} {segs : List Seg} (h : Pieces text gone segs)
    (hrun : ∀ s, .raw s ∉ segs) : Codes text (segs.map Seg.digits) where
  code d hm := by
    obtain ⟨seg, hseg, rfl⟩ := List.mem_map.1 hm
    cases seg with
    | raw s => exact absurd hseg (hrun s)
    | cp d => exact h.code d hseg
  text := by
    rw [List.map_map, ← h.text, List.map_eq_flatMap]
    refine List.flatMap_congr fun seg hseg => ?_
    cases seg with
    | raw s => exact absurd hseg (hrun s)
    | cp d => rfl

theorem wideCodes_spec {text : Text} {seg : Seg} {hs : List Text} (h : abnfWideCodes text seg = .ok hs)
    (hcode : ∀ d, seg = .cp d → IsCode d) (hne : seg ≠ .raw []) : Codes seg.text hs := by
  cases seg with
  | cp d =>
    cases h
    exact ⟨by simpa using hcode d rfl, rfl⟩
  | raw run =>
    rw [abnfWideCodes] at h
    split at h
    · rename_i hplane
      cases hf : abnfWideChars text run [] with
      | error e => rw [hf] at h; cases h
      | ok found =>
        rw [hf] at h
        cases h
        have hb : ∀ c ∈ run, c.toNat < 65536 := by
          intro c hc
          have hc := List.all_eq_true.1 hplane c hc
          simp only [List.any_cons, List.any_nil, Bool.or_false, Bool.or_eq_true, decide_eq_true_eq] at hc
          omega
        obtain ⟨hall, -, hrun⟩ := wideChars_spec hf hb (by simp)
        have hp := (Pieces.start (fun he => hne (he ▸ rfl)) : Pieces run [] [.raw run]).walk hall
        refine hp.codes fun s hs => ?_
        -- a run left over would hold a character that was cut out
        obtain ⟨hsne, hgone⟩ := hp.run s hs
        obtain ⟨x, s, rfl⟩ := List.exists_cons_of_ne_nil hsne
        have hx : x ∈ run := by
          rw [← hp.text]
          exact List.mem_flatMap.2 ⟨_, hs, List.mem_cons_self⟩
        obtain ⟨ch, hch, he⟩ := hrun x hx
        exact hgone x List.mem_cons_self ch hch he
    · cases h

/-- The code points a literal is cut into are its characters', in order. -/
theorem abnfCodes_spec {text : Text} {hs : List Text} (hne : text ≠ []) (h : abnfCodes text = .ok hs) :
    Codes text hs := by
  have hascii : ∀ ch ∈ heldIn text abnfAscii, Spells ch := fun ch hm => ascii_spells (List.mem_of_mem_filter hm)
  have hwalk := (Pieces.start hne).walk hascii
  -- segment by segment, the codes of each before those of the rest
  have hsegs : ∀ (segs : List Seg) (hss : List (List Text)), (∀ d, .cp d ∈ segs → IsCode d) → (.raw [] ∉ segs) →
      segs.mapM (abnfWideCodes text) = .ok hss → Codes (segs.flatMap Seg.text) hss.flatten := by
    intro segs
    induction segs with
    | nil =>
      intro hss _ _ hm
      cases hm
      exact ⟨by simp, rfl⟩
    | cons seg segs ih =>
      intro hss hcode hraw hm
      rw [List.mapM_cons] at hm
      cases hseg : abnfWideCodes text seg with
      | error e => rw [hseg] at hm; cases hm
      | ok d =>
        rw [hseg] at hm
        cases hrest : segs.mapM (abnfWideCodes text) with
        | error e => rw [hrest] at hm; cases hm
        | ok ds =>
          rw [hrest] at hm
          cases hm
          have hhead := wideCodes_spec hseg (fun c hc => hcode c (hc ▸ List.mem_cons_self))
            fun hc => hraw (hc ▸ List.mem_cons_self)
          exact hhead.append (ih ds (fun c hc => hcode c (List.mem_cons_of_mem _ hc))
            (fun hc => hraw (List.mem_cons_of_mem _ hc)) hrest)
  rw [abnfCodes] at h
  cases hm : (abnfCodeWalk (heldIn text abnfAscii) [.raw text]).mapM (abnfWideCodes text) with
  | error e => rw [hm] at h; cases h
  | ok hss =>
    rw [hm] at h
    cases h
    have := hsegs _ hss hwalk.code (fun hr => (hwalk.run [] hr).1 rfl) hm
    rwa [hwalk.text] at this

end TabnasAbnf.Render
