/-
The Go port's numeric values against TypeScript's, diagnostics included. Go takes a part only where
it is digits of the base throughout, and prints the integer they name; TypeScript takes the digits at
the part's front, and prints the double nearest to them. A literal of Go's is text from the start, so
that two surrogates side by side are never the character they encode.
-/
import Mathlib.Data.List.Induction
import TabnasAbnf.Base.NumberText
import TabnasAbnf.Meta.Lexer
import TabnasAbnf.Meta.NumVal

namespace TabnasAbnf.Meta

open TabnasAbnf.Base

/-! ## Diagnostics -/

/-- The text both ports refuse a part with. -/
def message (base : Char) (text shown : Text) : Text :=
  "numeric value '%".toList ++ base :: (text ++ '\'' :: (" is ".toList ++ (shown ++
    ", which is not a Unicode code point (the maximum is %x10FFFF).".toList)))

def Ts.diagnostic (e : NumericError) : Text := message e.base e.text (numberToString e.value)

namespace Go

/-- Why `strconv.ParseInt` answers no integer. -/
inductive IntError
  | ErrSyntax | ErrRange
  deriving DecidableEq, Repr

/-- `strconv.ParseInt(text, radix, 64)`, of text without a sign. -/
def ParseInt (text : Text) (radix : Nat) : Except IntError Nat :=
  if text.isEmpty || !text.all (isDigit radix) then .error .ErrSyntax
  else if ofDigits radix text < 2 ^ 63 then .ok (ofDigits radix text)
  else .error .ErrRange

/-- `big.Int.SetString`, of text without a sign. -/
def SetString (text : Text) (radix : Nat) : Option Nat :=
  if text.isEmpty || !text.all (isDigit radix) then none else some (ofDigits radix text)

/-- What the diagnostic prints of a part. -/
def shown (text : Text) (radix : Nat) : Text :=
  match ParseInt text radix with
  | .ok n => decimal n
  | .error _ =>
    match SetString text radix with
    | some v => decimal v
    | none => text

def diagnostic (e : NumericError) : Text := message e.base e.text (shown e.text (radixOf e.base))

/-- The parts of a body Go reads. -/
def partsRead (body : Text) : List Text := if '-' ∈ body then [(ends body).1, (ends body).2] else body.splitOn '.'

end Go

/-- A literal read back as text, a lone surrogate as U+FFFD. -/
def NumericElement.lossy : NumericElement Units → NumericElement Text
  | .term literal sp => .term (fromUtf16Lossy literal) sp
  | .regex lo hi sp => .regex lo hi sp

/-- Go's reading of a value is TypeScript's: the same diagnostic, or the same element. -/
def Go.ReadsAsTs (src : Text) (sp : Option Span) : Prop :=
  match Ts.parseNumericValue src sp, (Go.parseNumericValue src sp).2 with
  | .error e, some g => Ts.diagnostic e = Go.diagnostic g
  | .ok a, none => (Go.parseNumericValue src sp).1 = a.lossy
  | _, _ => False

/-! ## Messages -/

theorem message_inj {base : Char} {text text' shown shown' : Text} (h : '\'' ∉ text) (h' : '\'' ∉ text') :
    message base text shown = message base text' shown' ↔ text = text' ∧ shown = shown' := by
  constructor
  · intro hm
    unfold message at hm
    rw [List.append_cancel_left_eq, List.cons_inj_right] at hm
    have htake : ∀ t s : Text, '\'' ∉ t → (t ++ '\'' :: s).takeWhile (· ≠ '\'') = t := by
      intro t s ht
      have hpos : ∀ c ∈ t, decide (c ≠ '\'') = true := by
        intro c hc
        rw [decide_eq_true_eq]
        rintro rfl
        exact ht hc
      rw [List.takeWhile_append_of_pos hpos]
      simp
    have ht := congrArg (List.takeWhile (· ≠ '\'')) hm
    rw [htake _ _ h, htake _ _ h'] at ht
    subst ht
    rw [List.append_cancel_left_eq, List.cons_inj_right, List.append_cancel_left_eq, List.append_cancel_right_eq] at hm
    exact ⟨rfl, hm⟩
  · rintro ⟨rfl, rfl⟩
    rfl

/-- What stands in a part of a numeric value: digits, and in what a dash divides dots and dashes. -/
def isPartChar (c : Char) : Bool := isDigit 16 c || c == '-' || c == '.'

theorem mem_of_mem_splitOn {x c : Char} {part s : Text} (hp : part ∈ s.splitOn x) (hc : c ∈ part) : c ∈ s := by
  induction s generalizing part with
  | nil =>
    rw [List.splitOn_nil, List.mem_singleton] at hp
    rw [hp] at hc
    exact hc
  | cons d s ih =>
    rw [List.splitOn_cons_eq_if_modifyHead] at hp
    split at hp
    · rcases List.mem_cons.1 hp with rfl | hp
      · cases hc
      · exact List.mem_cons_of_mem _ (ih hp hc)
    · cases hs : s.splitOn x with
      | nil => exact absurd hs (List.splitOn_ne_nil x s)
      | cons q parts =>
        rw [hs, List.modifyHead_cons, List.mem_cons] at hp
        rcases hp with rfl | hp
        · rcases List.mem_cons.1 hc with rfl | hc
          · exact List.mem_cons_self
          · exact List.mem_cons_of_mem _ (ih (by rw [hs]; exact List.mem_cons_self) hc)
        · exact List.mem_cons_of_mem _ (ih (by rw [hs]; exact List.mem_cons_of_mem _ hp) hc)

theorem body_chars {src : Text} (h : isNumericSource src = true) : ∀ c ∈ (splitBase src).2, isPartChar c = true := by
  intro c hc
  unfold isNumericSource at h
  split at h
  · rename_i base body
    rw [Bool.and_eq_true, List.all_eq_true] at h
    cases hsep : (c == '-' || c == '.') with
    | true =>
      rw [isPartChar, Bool.or_assoc, hsep, Bool.or_true]
    | false =>
      obtain ⟨part, hp, hin⟩ := @mem_splitOnP (fun c => c == '-' || c == '.') c _ hsep hc
      have hd := h.2 part hp
      rw [Bool.and_eq_true, List.all_eq_true] at hd
      rw [isPartChar, hd.2 c hin]
      rfl
  · cases h

/-! ## Parts -/

/-- A part that is digits of the base and names a code point. -/
def strict (base : Char) (part : Text) : Bool := isPart base part && decide (partValue base part ≤ 0x10FFFF)

/-- A strict part is one TypeScript reads, as the same number. -/
theorem read_of_strict {base : Char} {part : Text} (h : strict base part = true) :
    unreadable base part = false ∧ valueRead base part = partValue base part := by
  rw [strict, Bool.and_eq_true, decide_eq_true_eq] at h
  obtain ⟨hp, hle⟩ := h
  have hv := valueRead_part hp
  refine ⟨?_, hv⟩
  rw [isPart, Bool.and_eq_true, Bool.not_eq_true', List.isEmpty_eq_false_iff, List.all_eq_true] at hp
  rw [unreadable, hv, digitsRead, List.takeWhile_eq_self_iff.2 hp.2, Bool.or_eq_false_iff, decide_eq_false_iff_not]
  exact ⟨List.isEmpty_eq_false_iff.2 hp.1, by omega⟩

section

variable {base : Char} (hb : base ∈ ['x', 'd', 'b', 'X', 'D', 'B']) {part : Text}

include hb

theorem radixOf_eq : Go.radixOf base = Ts.radixOf base := by
  simp only [List.mem_cons, List.not_mem_nil, or_false] at hb
  rcases hb with rfl | rfl | rfl | rfl | rfl | rfl <;> rfl

theorem radixOf_cases : Ts.radixOf base = 2 ∨ Ts.radixOf base = 10 ∨ Ts.radixOf base = 16 := by
  simp only [List.mem_cons, List.not_mem_nil, or_false] at hb
  rcases hb with rfl | rfl | rfl | rfl | rfl | rfl
  · exact .inr (.inr rfl)
  · exact .inr (.inl rfl)
  · exact .inl rfl
  · exact .inr (.inr rfl)
  · exact .inr (.inl rfl)
  · exact .inl rfl

theorem isPart_iff : isPart base part = true ↔ part ≠ [] ∧ part.all (isDigit (Go.radixOf base)) = true := by
  rw [isPart, radixOf_eq hb, Bool.and_eq_true, Bool.not_eq_true', List.isEmpty_eq_false_iff]

/-- Go takes a strict part as the number it names, and refuses any other under its own text. -/
theorem codePoint_strict (h : strict base part = true) : Go.codePoint base part = (partValue base part, none) := by
  rw [strict, Bool.and_eq_true, isPart_iff hb, decide_eq_true_eq, partValue, ← radixOf_eq hb] at h
  rw [Go.codePoint, if_pos h.1, partValue, ← radixOf_eq hb]
  exact if_pos h.2

theorem codePoint_not_strict (h : strict base part = false) :
    ∃ e, Go.codePoint base part = (0, some e) ∧ e.base = base ∧ e.text = part := by
  rw [Go.codePoint]
  split
  · rename_i hp
    have hgt : ¬ ofDigits (Go.radixOf base) part ≤ 0x10FFFF := by
      rw [strict, (isPart_iff hb).2 hp, Bool.true_and, decide_eq_false_iff_not, partValue, ← radixOf_eq hb] at h
      exact h
    exact ⟨_, if_neg hgt, rfl, rfl⟩
  · exact ⟨_, rfl, rfl, rfl⟩

/-- What Go prints of a part: the integer its digits name, or the part. -/
theorem shown_eq : Go.shown part (Go.radixOf base) =
    if isPart base part then decimal (partValue base part) else part := by
  unfold Go.shown Go.ParseInt Go.SetString
  rw [radixOf_eq hb, show (part.isEmpty || !part.all (isDigit (Ts.radixOf base))) = !isPart base part by
    rw [isPart, Bool.not_and, Bool.not_not]]
  cases isPart base part with
  | false => rfl
  | true =>
    simp only [Bool.not_true, Bool.false_eq_true, if_false, if_true]
    split
    · rename_i h
      split at h
      · cases h
        rfl
      · cases h
    · rfl

end

theorem isDigit_mono {r r' : Nat} (h : r ≤ r') {c : Char} (hc : isDigit r c = true) : isDigit r' c = true := by
  unfold isDigit at hc ⊢
  cases hv : digitVal c with
  | none => simp [hv] at hc
  | some v =>
    rw [hv, Option.any_some, decide_eq_true_eq] at hc
    rw [Option.any_some, decide_eq_true_eq]
    omega

/-- What TypeScript prints of a part that is not digits throughout is not the part. -/
theorem numberToString_ne {base : Char} (hb : base ∈ ['x', 'd', 'b', 'X', 'D', 'B']) {part : Text}
    (hp : isPart base part = false) (hc : ∀ c ∈ part, isPartChar c = true) :
    numberToString (parseInt part (Ts.radixOf base)) ≠ part := by
  intro h
  -- a number is written as NaN, as Infinity, with an exponent or as a decimal
  rcases numberToString_cases (parseInt part (Ts.radixOf base)) with
    ⟨-, hn⟩ | ⟨-, hn⟩ | ⟨n, hv, ⟨hplus, -⟩ | ⟨hn, -⟩⟩
  · cases hc 'N' (by rw [← h, hn]; simp)
  · cases hc 'I' (by rw [← h, hn]; simp)
  · rw [h] at hplus
    cases hc '+' hplus
  · -- a decimal, so that only a binary part can hold a digit that is not its base's
    rw [hn] at h
    have hdigits : ∀ c ∈ part, c.isDigit = true := by
      rw [← h]
      exact (decimal_spec _).1
    have hlen := decimal_length_pos (shortest n)
    rw [h] at hlen
    obtain ⟨c, hmem, hbad⟩ : ∃ c ∈ part, isDigit (Ts.radixOf base) c = false := by
      rw [isPart, List.isEmpty_eq_false_iff.2 (List.length_pos_iff.1 hlen), Bool.not_false, Bool.true_and] at hp
      simpa using List.all_eq_false.1 hp
    have hten : isDigit 10 c = true := by
      have hd := hdigits c hmem
      rw [Char.isDigit, Bool.and_eq_true, decide_eq_true_eq, decide_eq_true_eq] at hd
      rw [isDigit_ten, decide_eq_true_eq]
      exact hd
    rcases radixOf_cases hb with h2 | h10 | h16
    · rw [h2] at hbad hv
      have hne : part.takeWhile (isDigit 2) ≠ part := fun heq =>
        absurd (List.takeWhile_eq_self_iff.1 heq c hmem) (by simp [hbad])
      have hlt : (part.takeWhile (isDigit 2)).length < part.length :=
        lt_of_le_of_ne (List.takeWhile_sublist _).length_le fun heq =>
          hne ((List.takeWhile_sublist _).eq_of_length heq)
      unfold parseInt at hv
      cases hpre : part.takeWhile (isDigit 2) with
      | nil =>
        rw [hpre] at hv
        cases hv
      | cons d ds =>
        rw [hpre] at hv hlt
        have hpreDigits : ∀ c ∈ d :: ds, isDigit 2 c = true := by
          rw [← hpre]
          exact fun c hc => List.mem_takeWhile_imp hc
        have hbits := ofDigits_lt hpreDigits
        have hle := shortest_length_le (Nat.succ_pos ds.length) hbits hv
        rw [h] at hle
        rw [List.length_cons] at hlt
        omega
    · rw [h10, hten] at hbad
      cases hbad
    · rw [h16, isDigit_mono (by omega) hten] at hbad
      cases hbad

/-- A part that is digits of the base and yet not strict is one TypeScript refuses too. -/
theorem unreadable_of_isPart {base : Char} {part : Text} (hp : isPart base part = true)
    (h : strict base part = false) :
    unreadable base part = true ∧ parseInt part (Ts.radixOf base) = double (partValue base part) := by
  have hv := valueRead_part hp
  have hne : (digitsRead base part).isEmpty = false := by
    rw [isPart, Bool.and_eq_true, Bool.not_eq_true', List.all_eq_true] at hp
    rw [digitsRead, List.takeWhile_eq_self_iff.2 hp.2, hp.1]
  rw [strict, hp, Bool.true_and, decide_eq_false_iff_not] at h
  constructor
  · rw [unreadable, hv, Bool.or_eq_true, decide_eq_true_eq]
    exact .inr (by omega)
  · rw [parseInt_eq, hne, hv]
    rfl

/-- The two diagnostics are the same where they are of one part, which is digits throughout and whose
integer TypeScript prints as it is. -/
theorem diagnostic_eq_iff {base : Char} (hb : base ∈ ['x', 'd', 'b', 'X', 'D', 'B']) {part text : Text}
    (hs : strict base part = false) (hc : ∀ c ∈ part, isPartChar c = true) (ht : ∀ c ∈ text, isPartChar c = true)
    {g : NumericError} (hg : (Go.codePoint base part).2 = some g) :
    Ts.diagnostic (refused base text) = Go.diagnostic g ↔
      text = part ∧ isPart base part = true ∧ WrittenExactly (partValue base part) := by
  obtain ⟨e, he, hbase, htext⟩ := codePoint_not_strict hb hs
  rw [he, Option.some.injEq] at hg
  subst hg
  have hquote : ∀ t : Text, (∀ c ∈ t, isPartChar c = true) → '\'' ∉ t := by
    intro t hall hm
    cases hall _ hm
  unfold Ts.diagnostic Go.diagnostic refused
  rw [hbase, htext, message_inj (hquote _ ht) (hquote _ hc), shown_eq hb]
  constructor
  · rintro ⟨rfl, hshown⟩
    cases hp : isPart base text with
    | true =>
      rw [hp, if_pos rfl, (unreadable_of_isPart hp hs).2, numberToString_eq_decimal] at hshown
      exact ⟨rfl, rfl, hshown⟩
    | false =>
      rw [hp, if_neg Bool.false_ne_true] at hshown
      exact absurd hshown (numberToString_ne hb hp hc)
  · rintro ⟨rfl, hp, hw⟩
    rw [hp, if_pos rfl, (unreadable_of_isPart hp hs).2]
    exact ⟨rfl, numberToString_eq_decimal.2 hw⟩

/-! ## Surrogates side by side -/

/-- Whether no high surrogate stands right before a low one. -/
def noPair : List Nat → Bool
  | u :: v :: ns => !(isHigh u && isLow v) && noPair (v :: ns)
  | _ => true

/-- A code point read back before others: joined with the next where the two are a pair. -/
theorem fromUtf16Lossy_cons {n : Nat} {ns : List Nat} (h : ∀ m ∈ n :: ns, m ≤ 0x10FFFF) :
    fromUtf16Lossy ((n :: ns).flatMap fromCodePoint) =
      if isHigh n && ns.head?.any isLow then
        charOr (0x10000 + (n - 0xD800) * 0x400 + (ns.headD 0 - 0xDC00)) :: fromUtf16Lossy
          (ns.tail.flatMap fromCodePoint)
      else charOr n :: fromUtf16Lossy (ns.flatMap fromCodePoint) := by
  rw [List.flatMap_cons]
  by_cases hvalid : n.isValidChar
  · have hhigh : isHigh n = false := by
      have hs := (isValidChar_iff.1 hvalid).2
      simp only [isHigh, isSurrogate, decide_eq_false_iff_not] at hs ⊢
      omega
    rw [fromUtf16Lossy_fromCodePoint hvalid, hhigh]
    rfl
  · have hs : isSurrogate n = true := by
      by_contra hs
      exact hvalid (isValidChar_iff.2 ⟨h n List.mem_cons_self, by simpa using hs⟩)
    simp only [isSurrogate, decide_eq_true_eq] at hs
    rw [fromCodePoint, if_pos (by omega), List.singleton_append]
    cases ns with
    | nil => simp [fromUtf16Lossy]
    | cons v ns =>
      -- the unit that follows is low only where the code point is a low surrogate itself
      have hunit : ∃ u us, (v :: ns).flatMap fromCodePoint = u :: us ∧ isLow u = isLow v ∧
          (isLow v = true → u = v ∧ us = ns.flatMap fromCodePoint) := by
        rw [List.flatMap_cons, fromCodePoint]
        by_cases hv : v < 0x10000
        · rw [if_pos hv]
          exact ⟨v, _, rfl, rfl, fun _ => ⟨rfl, rfl⟩⟩
        · rw [if_neg hv]
          have hmax := h v (List.mem_cons_of_mem _ List.mem_cons_self)
          refine ⟨_, _, rfl, ?_, fun hl => ?_⟩
          · simp only [isLow, decide_eq_decide]
            omega
          · simp only [isLow, decide_eq_true_eq] at hl
            omega
      obtain ⟨u, us, hus, hlow, hpair⟩ := hunit
      rw [hus, fromUtf16Lossy, hlow, List.head?_cons, Option.any_some]
      cases hboth : isHigh n && isLow v with
      | true =>
        rw [Bool.and_eq_true] at hboth
        obtain ⟨rfl, rfl⟩ := hpair hboth.2
        rw [if_pos rfl, if_pos rfl, List.headD_cons, List.tail_cons]
      | false => rw [if_neg Bool.false_ne_true, if_neg Bool.false_ne_true]

theorem fromUtf16Lossy_length {ns : List Nat} (h : ∀ n ∈ ns, n ≤ 0x10FFFF) :
    (fromUtf16Lossy (ns.flatMap fromCodePoint)).length ≤ ns.length := by
  induction hk : ns.length using Nat.strongRecOn generalizing ns with
  | ind k ih =>
    cases ns with
    | nil => simp [fromUtf16Lossy]
    | cons n ns =>
      rw [List.length_cons] at hk
      have hns : ∀ m ∈ ns, m ≤ 0x10FFFF := fun m hm => h m (List.mem_cons_of_mem _ hm)
      rw [fromUtf16Lossy_cons h]
      split
      · have htail :=
          ih ns.tail.length (by rw [List.length_tail]; omega) (fun m hm => hns m (List.mem_of_mem_tail hm)) rfl
        rw [List.length_tail] at htail
        rw [List.length_cons]
        omega
      · have hrest := ih ns.length (by omega) hns rfl
        rw [List.length_cons]
        omega

/-- Code points are the characters they name one by one where no two of them are a pair. -/
theorem fromUtf16Lossy_map_iff {ns : List Nat} (h : ∀ n ∈ ns, n ≤ 0x10FFFF) :
    fromUtf16Lossy (ns.flatMap fromCodePoint) = ns.map charOr ↔ noPair ns = true := by
  induction ns with
  | nil => exact ⟨fun _ => rfl, fun _ => rfl⟩
  | cons n ns ih =>
    have hns : ∀ m ∈ ns, m ≤ 0x10FFFF := fun m hm => h m (List.mem_cons_of_mem _ hm)
    rw [fromUtf16Lossy_cons h]
    cases ns with
    | nil => simp [noPair, fromUtf16Lossy]
    | cons v ns =>
      rw [List.head?_cons, Option.any_some, noPair]
      cases hpair : isHigh n && isLow v with
      | false =>
        rw [if_neg Bool.false_ne_true, List.map_cons, List.cons_inj_right, ih hns, Bool.not_false, Bool.true_and]
      | true =>
        rw [if_pos rfl, Bool.not_true, Bool.false_and]
        refine ⟨fun heq => ?_, fun hf => absurd hf Bool.false_ne_true⟩
        have hlen := congrArg List.length heq
        have hle := fromUtf16Lossy_length fun m hm => hns m (List.mem_cons_of_mem v hm)
        rw [List.tail_cons, List.map_cons, List.map_cons, List.length_cons, List.length_cons, List.length_cons,
          List.length_map] at hlen
        omega

/-! ## The whole value -/

/-- Where Go's reading is TypeScript's: the first part that is not strict is digits throughout and
printed alike, or there is none and the value is a range, or one without two surrogates that pair. -/
def Go.SameReading (src : Text) : Prop :=
  let (base, body) := splitBase src
  match (Go.partsRead body).find? (fun part => !strict base part) with
  | some part => isPart base part = true ∧ WrittenExactly (partValue base part)
  | none => '-' ∈ body ∨ noPair ((body.splitOn '.').map (partValue base)) = true

/-- Go's refusal is of the first part that is not strict. -/
theorem Go.parseNumericValue_refused (src : Text) (sp : Option Span) :
    (Go.parseNumericValue src sp).2 =
      (Go.partsRead (splitBase src).2).findSome? fun part => (Go.codePoint (splitBase src).1 part).2 := by
  unfold Go.parseNumericValue Go.partsRead
  obtain ⟨base, body⟩ := splitBase src
  simp only
  by_cases hd : '-' ∈ body
  · rw [if_pos hd, if_pos hd, List.findSome?_cons, List.findSome?_cons, List.findSome?_nil]
    cases (Go.codePoint base (Go.ends body).1).2 with
    | some e => rfl
    | none => cases (Go.codePoint base (Go.ends body).2).2 <;> rfl
  · rw [if_neg hd, if_neg hd, List.findSome?_map]
    rfl

theorem findSome?_codePoint {base : Char} (hb : base ∈ ['x', 'd', 'b', 'X', 'D', 'B']) (parts : List Text) :
    (parts.findSome? fun part => (Go.codePoint base part).2) =
      (parts.find? fun part => !strict base part).bind fun part => (Go.codePoint base part).2 := by
  induction parts with
  | nil => rfl
  | cons part parts ih =>
    rw [List.findSome?_cons]
    cases hs : strict base part with
    | true =>
      rw [List.find?_cons_of_neg (by simp [hs]), codePoint_strict hb hs, ← ih]
    | false =>
      rw [List.find?_cons_of_pos (by simp [hs]), Option.bind_some]
      obtain ⟨e, he, -⟩ := codePoint_not_strict hb hs
      rw [he]

section

variable {base : Char}

/-- The first part that is not strict, where it is digits throughout, is the first TypeScript
refuses. -/
theorem find?_unreadable {parts : List Text} {part : Text}
    (h : (parts.find? fun part => !strict base part) = some part) (hp : isPart base part = true) :
    parts.find? (unreadable base) = some part := by
  obtain ⟨hs, pre, post, rfl, hpre⟩ := List.find?_eq_some_iff_append.1 h
  rw [Bool.not_eq_true'] at hs
  refine List.find?_eq_some_iff_append.2 ⟨(unreadable_of_isPart hp hs).1, pre, post, rfl, fun q hq => ?_⟩
  have hstrict := hpre q hq
  rw [Bool.not_not] at hstrict
  rw [(read_of_strict hstrict).1]
  rfl

theorem isPart_no_dash {part : Text} (h : isPart base part = true) : '-' ∉ part := by
  intro hm
  rw [isPart, Bool.and_eq_true, List.all_eq_true] at h
  have hd := h.2 _ hm
  have hnone : isDigit (Ts.radixOf base) '-' = false := rfl
  rw [hnone] at hd
  cases hd

/-- The characters of a part are the body's. -/
theorem partsRead_chars {body part : Text} (h : ∀ c ∈ body, isPartChar c = true) (hp : part ∈ Go.partsRead body) :
    ∀ c ∈ part, isPartChar c = true := by
  unfold Go.partsRead at hp
  split at hp
  · intro c hc
    apply h
    rcases List.mem_cons.1 hp with rfl | hp
    · exact (List.takeWhile_sublist _).subset hc
    · rw [List.mem_singleton.1 hp] at hc
      exact (List.dropWhile_sublist _).subset (List.mem_of_mem_drop hc)
  · exact fun c hc => h c (mem_of_mem_splitOn hp hc)

theorem tsPartsRead_chars {body part : Text} (h : ∀ c ∈ body, isPartChar c = true) (hp : part ∈ partsRead body) :
    ∀ c ∈ part, isPartChar c = true := by
  have hget : ∀ (i : Nat), ∀ c ∈ (body.splitOn '-').getD i [], isPartChar c = true := by
    intro i c hc
    rw [List.getD_eq_getElem?_getD] at hc
    cases hi : (body.splitOn '-')[i]? with
    | none => rw [hi] at hc; cases hc
    | some q =>
      rw [hi, Option.getD_some] at hc
      exact h c (mem_of_mem_splitOn (List.mem_of_getElem? hi) hc)
  unfold partsRead at hp
  split at hp
  · rcases List.mem_cons.1 hp with rfl | hp
    · exact hget 0
    · rw [List.mem_singleton.1 hp]
      exact hget 1
  · exact fun c hc => h c (mem_of_mem_splitOn hp hc)

/-- TypeScript refuses what Go does first, where that is digits throughout. -/
theorem find?_partsRead {body part : Text} (h : ((Go.partsRead body).find? fun part => !strict base part) = some part)
    (hp : isPart base part = true) : (partsRead body).find? (unreadable base) = some part := by
  unfold Go.partsRead at h
  unfold partsRead
  by_cases hd : '-' ∈ body
  · rw [if_pos hd] at h ⊢
    by_cases hlo : strict base (Go.ends body).1 = true
    · rw [List.find?_cons_of_neg (by simp [hlo]), List.find?_singleton] at h
      split at h
      · rename_i hhi
        cases h
        have heq := ends_eq hd (isPart_no_dash hp)
        rw [heq, List.find?_cons_of_neg (by simp [(read_of_strict hlo).1])]
        rw [Bool.not_eq_true'] at hhi
        rw [List.find?_cons_of_pos (unreadable_of_isPart hp hhi).1]
      · cases h
    · rw [Bool.not_eq_true] at hlo
      rw [List.find?_cons_of_pos (by simp [hlo])] at h
      cases h
      rw [ends_fst hd, List.find?_cons_of_pos (unreadable_of_isPart hp hlo).1]
  · rw [if_neg hd] at h ⊢
    exact find?_unreadable h hp

end

/-- The parts of a value that Go and TypeScript both read make the same element where no two
surrogates pair. -/
theorem element_eq_iff {src : Text} (hb : (splitBase src).1 ∈ ['x', 'd', 'b', 'X', 'D', 'B'])
    (hs : ∀ part ∈ Go.partsRead (splitBase src).2, strict (splitBase src).1 part = true) (sp : Option Span) :
    (partsRead (splitBase src).2).find? (unreadable (splitBase src).1) = none ∧
      ((Go.parseNumericValue src sp).1 = (elementRead (splitBase src).1 (splitBase src).2 sp).lossy ↔
        '-' ∈ (splitBase src).2 ∨
          noPair (((splitBase src).2.splitOn '.').map (partValue (splitBase src).1)) = true) := by
  revert hb hs
  unfold Go.parseNumericValue Go.partsRead partsRead elementRead
  obtain ⟨base, body⟩ := splitBase src
  intro hb hs
  simp only at hb hs ⊢
  -- the ends of a range are strict and read alike; dotted parts are joined, where a pair may arise
  by_cases hd : '-' ∈ body
  · rw [if_pos hd] at hs
    have hlo := hs _ List.mem_cons_self
    have hhi := hs _ (List.mem_cons_of_mem _ List.mem_cons_self)
    obtain ⟨rlo, vlo⟩ := read_of_strict hlo
    obtain ⟨rhi, vhi⟩ := read_of_strict hhi
    have hpart : isPart base (Go.ends body).2 = true := by
      rw [strict, Bool.and_eq_true] at hhi
      exact hhi.1
    simp only [if_pos hd, ends_eq hd (isPart_no_dash hpart), codePoint_strict hb hlo, codePoint_strict hb hhi, vlo, vhi]
    constructor
    · rw [List.find?_cons_of_neg (by simp [rlo]), List.find?_cons_of_neg (by simp [rhi]), List.find?_nil]
    · refine iff_of_true ?_ (.inl hd)
      split
      · rw [NumericElement.lossy, fromUtf16Lossy_one (vlo ▸ valueRead_le rlo), Go.runeString]
      · rfl
  · rw [if_neg hd] at hs
    have hread : ∀ part ∈ body.splitOn '.', valueRead base part = partValue base part := fun part hp =>
      (read_of_strict (hs part hp)).2
    have hmax : ∀ n ∈ (body.splitOn '.').map (partValue base), n ≤ 0x10FFFF := by
      intro n hn
      obtain ⟨part, hp, rfl⟩ := List.mem_map.1 hn
      have hpart := hs part hp
      rw [strict, Bool.and_eq_true, decide_eq_true_eq] at hpart
      exact hpart.2
    have hgo : ((body.splitOn '.').map (Go.codePoint base)).flatMap (fun p => Go.runeString p.1) =
        ((body.splitOn '.').map (partValue base)).map charOr := by
      rw [List.map_congr_left fun part hp => codePoint_strict hb (hs part hp), List.map_map, List.flatMap_map]
      exact List.map_eq_flatMap.symm
    simp only [hd, if_false, hgo, List.map_congr_left hread, false_or]
    constructor
    · rw [List.find?_eq_none]
      intro part hp
      simp [(read_of_strict (hs part hp)).1]
    · rw [NumericElement.lossy, ← fromUtf16Lossy_map_iff hmax, NumericElement.term.injEq, and_iff_left rfl]
      exact eq_comm

/-- Go reads a value as TypeScript does exactly where the first part that is not strict is digits
throughout and JavaScript prints its integer as it is, or there is none and no two surrogates of a
dotted value pair. -/
theorem readsAsTs_iff (src : NumericSource) (sp : Option Span) :
    Go.ReadsAsTs src.1 sp ↔ Go.SameReading src.1 := by
  have hb := splitBase_base src.2
  have hbody := body_chars src.2
  unfold Go.ReadsAsTs Go.SameReading
  rw [Ts.parseNumericValue_eq, Go.parseNumericValue_refused, findSome?_codePoint hb]
  simp only
  -- a part that the strict reader refuses, or none
  cases hgo : (Go.partsRead (splitBase src.1).2).find? (fun part => !strict (splitBase src.1).1 part) with
  | some part =>
    have hs : strict (splitBase src.1).1 part = false := by simpa using List.find?_some hgo
    obtain ⟨g, hg, -⟩ := codePoint_not_strict hb hs
    have hg' : (Go.codePoint (splitBase src.1).1 part).2 = some g := by rw [hg]
    have hc := partsRead_chars hbody (List.mem_of_find?_eq_some hgo)
    rw [Option.bind_some, hg']
    cases hts : (partsRead (splitBase src.1).2).find? (unreadable (splitBase src.1).1) with
    | none =>
      refine iff_of_false id fun h => ?_
      rw [find?_partsRead hgo h.1] at hts
      cases hts
    | some text =>
      have ht := tsPartsRead_chars hbody (List.mem_of_find?_eq_some hts)
      simp only
      rw [diagnostic_eq_iff hb hs hc ht hg']
      constructor
      · exact fun h => h.2
      · intro h
        rw [find?_partsRead hgo h.1, Option.some.injEq] at hts
        exact ⟨hts.symm, h⟩
  | none =>
    have hs : ∀ part ∈ Go.partsRead (splitBase src.1).2, strict (splitBase src.1).1 part = true := by
      intro part hp
      simpa using List.find?_eq_none.1 hgo part hp
    obtain ⟨hts, helem⟩ := element_eq_iff hb hs sp
    rw [hts]
    exact helem

/-- `%xD800.DC00` is the character U+10000 to TypeScript, and two that are U+FFFD to Go. -/
theorem not_readsAsTs_pair :
    isNumericSource ['%', 'x', 'D', '8', '0', '0', '.', 'D', 'C', '0', '0'] = true ∧
      ¬ Go.ReadsAsTs ['%', 'x', 'D', '8', '0', '0', '.', 'D', 'C', '0', '0'] none := by
  constructor
  · decide
  · intro h
    have hlit : Go.parseNumericValue ['%', 'x', 'D', '8', '0', '0', '.', 'D', 'C', '0', '0'] none =
        (.term ['\ufffd', '\ufffd'] none, none) := by decide
    have hts : Ts.parseNumericValue ['%', 'x', 'D', '8', '0', '0', '.', 'D', 'C', '0', '0'] none =
        .ok (.term [0xD800, 0xDC00] none) := by decide
    unfold Go.ReadsAsTs at h
    rw [hts, hlit] at h
    revert h
    decide

end TabnasAbnf.Meta
