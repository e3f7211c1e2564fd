/-
The scans for annotation comments. Each port's is a loop over the code units of its own strings, by
index; all three pass over the same quoted strings and prose values and find the same comments, each
between a `;` and a line feed (`scanFrom_eq`), so the ports differ in what they trim off them alone.
-/
import TabnasAbnf.Base.Encoding
import TabnasAbnf.Passes.Annotate

namespace TabnasAbnf.Passes

open TabnasAbnf.Base

/-! ## The loop -/

/-- The comment between two places, if it starts with `@` once it is trimmed. -/
def found (trim : Text → Text) (raw : Nat × Text) : Option Comment :=
  if (trim raw.2).head? = some '@' then some ⟨raw.1, trim raw.2⟩ else none

theorem found_at {trim : Text → Text} {i : Nat} {raw : Text} (h : (trim raw).head? = some '@') :
    found trim (i, raw) = some ⟨i, trim raw⟩ := if_pos h

theorem found_none {trim : Text → Text} {i : Nat} {raw : Text} (h : (trim raw).head? ≠ some '@') :
    found trim (i, raw) = none := if_neg h

/-- The loop over a source's code units from an index on, in as many steps: a quote or an angle
bracket goes on past its closing mark, and ends the loop where there is none; a semicolon yields what
stands before the next line feed. -/
def scanFrom (E : Encoding) (trim : Text → Text) (src : Text) : Nat → Nat → List Comment
  | 0, _ => []
  | fuel + 1, index =>
    match (E.encode src)[index]? with
    | none => []
    | some u =>
      if u = '"'.toNat ∨ u = '<'.toNat then
        let closer := if u = '<'.toNat then '>' else '"'
        match ((E.encode src).drop (index + 1)).idxOf? closer.toNat with
        | some off => scanFrom E trim src fuel (index + off + 2)
        | none => []
      else if u = ';'.toNat then
        let stop :=
          match ((E.encode src).drop index).idxOf? '\n'.toNat with
          | some off => index + off
          | none => (E.encode src).length
        (found trim (index, E.slice (index + 1) stop 0 src)).toList ++ scanFrom E trim src fuel (stop + 1)
      else scanFrom E trim src fuel (index + 1)

namespace Rust

/-- The characters `char::is_whitespace` holds of. -/
def is_whitespace (c : Char) : Bool :=
  c ∈ ['\t', '\n', '\x0b', '\x0c', '\r', ' ', '\u0085', '\u00a0', '\u1680', '\u2028', '\u2029', '\u202f', '\u205f',
    '\u3000'] || ('\u2000' ≤ c && c ≤ '\u200a')

def is_js_whitespace (c : Char) : Bool := '\ufeff' == c || (is_whitespace c && '\u0085' != c)

/-- `trim_matches`. -/
def trim_matches (p : Char → Bool) (s : Text) : Text := ((s.dropWhile p).reverse.dropWhile p).reverse

def annotation_comments (src : Text) : List Comment :=
  scanFrom utf8 (trim_matches is_js_whitespace) src (utf8.encode src).length 0

end Rust

namespace Go

/-- `unicode.IsSpace`. -/
def IsSpace (c : Char) : Bool :=
  c ∈ ['\t', '\n', '\x0b', '\x0c', '\r', ' ', '\u0085', '\u00a0', '\u1680', '\u2028', '\u2029', '\u202f', '\u205f',
    '\u3000'] || ('\u2000' ≤ c && c ≤ '\u200a')

/-- `strings.TrimSpace`. -/
def TrimSpace (s : Text) : Text := ((s.dropWhile IsSpace).reverse.dropWhile IsSpace).reverse

def annotationComments (src : Text) : List Comment := scanFrom utf8 TrimSpace src (utf8.encode src).length 0

end Go

/-! ## The comments of a source -/

/-- The comments of a source, untrimmed, each with the offset of its semicolon. -/
def rawComments (width : Char → Nat) : Scan → Nat → Text → List (Nat × Text)
  | .comment start body, _, [] => [(start, body)]
  | _, _, [] => []
  | .content, i, c :: cs =>
    if c = '"' then rawComments width (.quoted '"') (i + width c) cs
    else if c = '<' then rawComments width (.quoted '>') (i + width c) cs
    else if c = ';' then rawComments width (.comment i []) (i + width c) cs
    else rawComments width .content (i + width c) cs
  | .quoted close, i, c :: cs =>
    rawComments width (if c = close then .content else .quoted close) (i + width c) cs
  | .comment start body, i, c :: cs =>
    if c = '\n' then (start, body) :: rawComments width .content (i + width c) cs
    else rawComments width (.comment start (body ++ [c])) (i + width c) cs

theorem yielded_eq (start : Nat) (body : Text) : yielded start body = (found trim (start, body)).toList := by
  unfold yielded found
  split <;> rfl

/-- The character scan keeps of the comments those that start with `@`. -/
theorem scanComments_eq (width : Char → Nat) (s : Scan) (i : Nat) (cs : Text) :
    scanComments width s i cs = (rawComments width s i cs).filterMap (found trim) := by
  induction cs generalizing s i with
  | nil =>
    cases s with
    | content => rfl
    | quoted close => rfl
    | comment start body =>
      rw [scanComments, rawComments, yielded_eq, List.filterMap_cons, List.filterMap_nil]
      cases found trim (start, body) <;> rfl
  | cons c cs ih =>
    cases s with
    | content =>
      unfold scanComments rawComments
      repeat' split
      all_goals exact ih _ _
    | quoted close => exact ih _ _
    | comment start body =>
      unfold scanComments rawComments
      split
      · rw [yielded_eq, ih, List.filterMap_cons]
        cases found trim (start, body) <;> rfl
      · exact ih _ _

section

variable (E : Encoding)

/-- A quoted stretch is passed over to its closing mark. -/
theorem rawComments_quoted {close : Char} {mid : Text} (h : close ∉ mid) (i : Nat) (rest : Text) :
    rawComments E.width (.quoted close) i (mid ++ close :: rest) =
      rawComments E.width .content (i + (E.encode mid).length + E.width close) rest := by
  induction mid generalizing i with
  | nil => rw [List.nil_append, rawComments, if_pos rfl, E.encode_nil, List.length_nil, Nat.add_zero]
  | cons c mid ih =>
    rw [List.mem_cons, not_or] at h
    rw [List.cons_append, rawComments, if_neg (Ne.symm h.1), ih h.2, E.length_encode_cons, Nat.add_assoc, Nat.add_assoc,
      Nat.add_assoc, Nat.add_assoc]

theorem rawComments_open {c close : Char} (hc : c = '"' ∨ c = '<') (hclose : close = if c = '<' then '>' else '"')
    (i : Nat) (cs : Text) :
    rawComments E.width .content i (c :: cs) = rawComments E.width (.quoted close) (i + E.width c) cs := by
  subst hclose
  rcases hc with rfl | rfl <;> rfl

theorem rawComments_unclosed {close : Char} {cs : Text} (h : close ∉ cs) (i : Nat) :
    rawComments E.width (.quoted close) i cs = [] := by
  induction cs generalizing i with
  | nil => rfl
  | cons c cs ih =>
    rw [List.mem_cons, not_or] at h
    rw [rawComments, if_neg (Ne.symm h.1), ih h.2]

/-- A comment goes on to the line feed. -/
theorem rawComments_line {mid : Text} (h : '\n' ∉ mid) (start i : Nat) (body rest : Text) :
    rawComments E.width (.comment start body) i (mid ++ '\n' :: rest) =
      (start, body ++ mid) :: rawComments E.width .content (i + (E.encode mid).length + E.width '\n') rest := by
  induction mid generalizing i body with
  | nil => rw [List.nil_append, rawComments, if_pos rfl, E.encode_nil, List.length_nil, Nat.add_zero, List.append_nil]
  | cons c mid ih =>
    rw [List.mem_cons, not_or] at h
    rw [List.cons_append, rawComments, if_neg (Ne.symm h.1), ih h.2, E.length_encode_cons, List.append_assoc,
      List.singleton_append, Nat.add_assoc, Nat.add_assoc, Nat.add_assoc, Nat.add_assoc]

theorem rawComments_last {cs : Text} (h : '\n' ∉ cs) (start i : Nat) (body : Text) :
    rawComments E.width (.comment start body) i cs = [(start, body ++ cs)] := by
  induction cs generalizing i body with
  | nil => rw [rawComments, List.append_nil]
  | cons c cs ih =>
    rw [List.mem_cons, not_or] at h
    rw [rawComments, if_neg (Ne.symm h.1), ih h.2, List.append_assoc, List.singleton_append]

/-! ## The loop finds them -/

variable (trim : Text → Text)

/-- The unit at a place is the first of the text behind it. -/
theorem getElem?_place (pre post : Text) (j : Nat) :
    (E.encode (pre ++ post))[(E.encode pre).length + j]? = (E.encode post)[j]? := by
  rw [← List.getElem?_drop, E.encode_append, List.drop_left]

/-- The offset behind an ASCII character. -/
theorem length_encode_snoc {c : Char} (hc : c.toNat < 0x80) (pre : Text) :
    (E.encode (pre ++ [c])).length = (E.encode pre).length + 1 := by
  rw [E.encode_append, List.length_append, E.encode_cons, E.encode_nil, List.append_nil, E.ascii c hc,
    List.length_singleton]

theorem drop_snoc {c : Char} (hc : c.toNat < 0x80) (pre post : Text) :
    (E.encode (pre ++ c :: post)).drop ((E.encode pre).length + 1) = E.encode post := by
  have hsplit : pre ++ c :: post = (pre ++ [c]) ++ post := by simp
  rw [← length_encode_snoc E hc, hsplit, E.encode_append (pre ++ [c]), List.drop_left]

theorem getElem?_ascii {c : Char} (hc : c.toNat < 0x80) (pre post : Text) :
    (E.encode (pre ++ c :: post))[(E.encode pre).length]? = some c.toNat := by
  have hget := getElem?_place E pre (c :: post) 0
  rwa [Nat.add_zero, E.encode_cons, E.ascii c hc] at hget

/-- A quoted stretch takes one step, to the place behind its closing mark. -/
theorem scanFrom_quoted {c : Char} (hc : c = '"' ∨ c = '<') {close : Char}
    (hclose : close = if c = '<' then '>' else '"')
    {pre mid rest : Text} (hmid : close ∉ mid) (fuel : Nat) :
    scanFrom E trim (pre ++ c :: (mid ++ close :: rest)) (fuel + 1) (E.encode pre).length =
      scanFrom E trim (pre ++ c :: (mid ++ close :: rest)) fuel (E.encode (pre ++ c :: (mid ++ [close]))).length := by
  have hascii : c.toNat < 0x80 := by rcases hc with rfl | rfl <;> decide
  have hcloseAscii : close.toNat < 0x80 := by
    rw [hclose]
    split <;> decide
  have hlen : (E.encode (pre ++ c :: (mid ++ [close]))).length = (E.encode pre).length + (E.encode mid).length + 2 := by
    rw [← List.cons_append, ← List.append_assoc, length_encode_snoc E hcloseAscii, E.encode_append, List.length_append,
      E.encode_cons, E.ascii c hascii, List.length_append, List.length_singleton]
    omega
  rw [scanFrom, getElem?_ascii E hascii]
  simp only [Char.toNat_inj]
  rw [if_pos hc, ← hclose, drop_snoc E hascii, E.idxOf?_encode hcloseAscii hmid, hlen]

theorem scanFrom_unclosed {c : Char} (hc : c = '"' ∨ c = '<') {close : Char}
    (hclose : close = if c = '<' then '>' else '"') {pre cs : Text} (hcs : close ∉ cs) (fuel : Nat) :
    scanFrom E trim (pre ++ c :: cs) fuel (E.encode pre).length = [] := by
  have hascii : c.toNat < 0x80 := by rcases hc with rfl | rfl <;> decide
  have hcloseAscii : close.toNat < 0x80 := by
    rw [hclose]
    split <;> decide
  cases fuel with
  | zero => rfl
  | succ fuel =>
    rw [scanFrom, getElem?_ascii E hascii]
    simp only [Char.toNat_inj]
    rw [if_pos hc, ← hclose, drop_snoc E hascii, E.idxOf?_encode_none hcloseAscii hcs]

/-- A comment takes one step, to the place behind its line feed. -/
theorem scanFrom_line {pre mid rest : Text} (hmid : '\n' ∉ mid) (fuel : Nat) :
    scanFrom E trim (pre ++ ';' :: (mid ++ '\n' :: rest)) (fuel + 1) (E.encode pre).length =
      (found trim ((E.encode pre).length, mid)).toList ++
        scanFrom E trim (pre ++ ';' :: (mid ++ '\n' :: rest)) fuel
          (E.encode (pre ++ ';' :: (mid ++ ['\n']))).length := by
  have hsemi : (';' : Char).toNat < 0x80 := by decide
  have hlf : ('\n' : Char).toNat < 0x80 := by decide
  have hdrop : (E.encode (pre ++ ';' :: (mid ++ '\n' :: rest))).drop (E.encode pre).length =
      E.encode ((';' :: mid) ++ '\n' :: rest) := by
    rw [E.encode_append, List.drop_left, List.cons_append]
  have hidx : (E.encode ((';' :: mid) ++ '\n' :: rest)).idxOf? '\n'.toNat = some (E.encode (';' :: mid)).length :=
    E.idxOf?_encode hlf (by simp [hmid])
  have hlen : (E.encode (';' :: mid)).length = (E.encode mid).length + 1 := by
    rw [E.encode_cons, E.ascii _ hsemi, List.length_append, List.length_singleton, Nat.add_comm]
  have hslice := E.slice_between (pre ++ [';']) mid ('\n' :: rest)
  rw [length_encode_snoc E hsemi, List.append_assoc, List.singleton_append] at hslice
  have hplace : (E.encode (pre ++ ';' :: (mid ++ ['\n']))).length = (E.encode pre).length
    + (E.encode mid).length + 2 := by
    rw [← List.cons_append, ← List.append_assoc, length_encode_snoc E hlf, E.encode_append, List.length_append, hlen]
    omega
  rw [scanFrom, getElem?_ascii E hsemi]
  simp only [Char.toNat_inj]
  rw [if_neg (by decide), if_pos trivial, hdrop, hidx, hplace, hlen]
  simp only
  rw [show (E.encode pre).length + ((E.encode mid).length + 1) = (E.encode pre).length + 1
    + (E.encode mid).length by omega,
    hslice, show (E.encode pre).length + 1 + (E.encode mid).length + 1 =
      (E.encode pre).length + (E.encode mid).length + 2 by omega]

/-- The loop ends at the end of the source. -/
theorem scanFrom_end {src : Text} {index : Nat} (h : (E.encode src).length ≤ index) (fuel : Nat) :
    scanFrom E trim src fuel index = [] := by
  cases fuel with
  | zero => rfl
  | succ fuel => rw [scanFrom, List.getElem?_eq_none h]

theorem scanFrom_last {pre cs : Text} (hcs : '\n' ∉ cs) (fuel : Nat) :
    scanFrom E trim (pre ++ ';' :: cs) (fuel + 1) (E.encode pre).length =
      (found trim ((E.encode pre).length, cs)).toList := by
  have hsemi : (';' : Char).toNat < 0x80 := by decide
  have hdrop : (E.encode (pre ++ ';' :: cs)).drop (E.encode pre).length = E.encode (';' :: cs) := by
    rw [E.encode_append, List.drop_left]
  have hidx := E.idxOf?_encode_none (show ('\n' : Char).toNat < 0x80 by decide) (show '\n' ∉ ';' :: cs by simp [hcs])
  have hslice := E.slice_between (pre ++ [';']) cs []
  rw [List.append_nil, List.append_assoc, List.singleton_append] at hslice
  have hlen : (E.encode (pre ++ ';' :: cs)).length = (E.encode (pre ++ [';'])).length + (E.encode cs).length := by
    rw [← List.singleton_append, ← List.append_assoc, E.encode_append, List.length_append]
  rw [scanFrom, getElem?_ascii E hsemi]
  simp only [Char.toNat_inj]
  rw [if_neg (by decide), if_pos trivial, hdrop, hidx]
  simp only
  rw [scanFrom_end E trim (Nat.le_succ _), List.append_nil, hlen, ← length_encode_snoc E hsemi, hslice]

/-- Any other character of ASCII takes one step. -/
theorem scanFrom_other {c : Char} (hc : c.toNat < 0x80) (hq : ¬ (c = '"' ∨ c = '<')) (hs : c ≠ ';') (pre cs : Text)
    (fuel : Nat) :
    scanFrom E trim (pre ++ c :: cs) (fuel + 1) (E.encode pre).length =
      scanFrom E trim (pre ++ c :: cs) fuel (E.encode (pre ++ [c])).length := by
  rw [scanFrom, getElem?_ascii E hc, length_encode_snoc E hc]
  simp only [Char.toNat_inj]
  rw [if_neg hq, if_neg hs]

/-- Units past ASCII are passed over one by one. -/
theorem scanFrom_high {src : Text} {k index : Nat} (h : ∀ j < k, ∃ u, (E.encode src)[index + j]? = some u ∧ 0x80 ≤ u)
    (fuel : Nat) : scanFrom E trim src (fuel + k) index = scanFrom E trim src fuel (index + k) := by
  induction k generalizing index with
  | zero => rfl
  | succ k ih =>
    obtain ⟨u, hu, hge⟩ := h 0 (Nat.succ_pos k)
    rw [Nat.add_zero] at hu
    have hquote : ¬ (u = '"'.toNat ∨ u = '<'.toNat) := by
      have h34 : '"'.toNat = 34 := rfl
      have h60 : '<'.toNat = 60 := rfl
      omega
    have hsemi : u ≠ ';'.toNat := by
      have h59 : ';'.toNat = 59 := rfl
      omega
    rw [← Nat.add_assoc, scanFrom, hu]
    simp only
    rw [if_neg hquote, if_neg hsemi, ih fun j hj => ?_]
    · congr 1
      omega
    · have hnext := h (j + 1) (by omega)
      rwa [show index + (j + 1) = index + 1 + j by omega] at hnext

/-- A character past ASCII takes as many steps as it has units. -/
theorem scanFrom_wide {c : Char} (hc : 0x80 ≤ c.toNat) (pre cs : Text) (fuel : Nat) :
    scanFrom E trim (pre ++ c :: cs) (fuel + E.width c) (E.encode pre).length =
      scanFrom E trim (pre ++ c :: cs) fuel (E.encode (pre ++ [c])).length := by
  rw [scanFrom_high, E.encode_append, List.length_append, E.length_encode_cons, E.encode_nil, List.length_nil,
    Nat.add_zero]
  intro j hj
  have hlt : j < (E.units c).length := hj
  refine ⟨(E.units c)[j], ?_, (E.high c hc).2 _ (List.getElem_mem hlt)⟩
  rw [getElem?_place, E.encode_cons, List.getElem?_append_left hlt, List.getElem?_eq_getElem hlt]

/-- From the place before a text on, the loop finds the comments of that text. -/
theorem scanFrom_suffix {src pre post : Text} (hsrc : src = pre ++ post) {fuel : Nat}
    (hfuel : (E.encode post).length ≤ fuel) :
    scanFrom E trim src fuel (E.encode pre).length =
      (rawComments E.width .content (E.encode pre).length post).filterMap (found trim) := by
  induction hn : post.length using Nat.strongRecOn generalizing pre post fuel with
  | ind n ih =>
    subst hn
    cases post with
    | nil =>
      rw [List.append_nil] at hsrc
      rw [hsrc, scanFrom_end E trim le_rfl]
      rfl
    | cons c cs =>
      -- the scan goes on behind whatever it takes, which is never nothing
      have hgo : ∀ (mid rest : Text) (fuel' : Nat), mid ++ rest = c :: cs → mid ≠ [] → (E.encode rest).length ≤ fuel' →
          scanFrom E trim src fuel' (E.encode (pre ++ mid)).length =
            (rawComments E.width .content (E.encode (pre ++ mid)).length rest).filterMap (found trim) := by
        intro mid rest fuel' hcut hne hf
        have hlen := congrArg List.length hcut
        have hpos := List.length_pos_iff.2 hne
        rw [List.length_append] at hlen
        exact ih rest.length (by omega) (by rw [hsrc, ← hcut, List.append_assoc]) hf rfl
      rw [E.length_encode_cons] at hfuel
      have hw := E.width_pos c
      by_cases hascii : c.toNat < 0x80
      · obtain ⟨fuel, rfl⟩ : ∃ f, fuel = f + 1 := ⟨fuel - 1, by omega⟩
        by_cases hquote : c = '"' ∨ c = '<'
        · generalize hclose : (if c = '<' then '>' else '"') = close
          rw [rawComments_open E hquote hclose.symm]
          by_cases hm : close ∈ cs
          · -- to the closing mark
            obtain ⟨mid, rest, rfl, hnot⟩ := List.eq_append_cons_of_mem hm
            rw [hsrc, scanFrom_quoted E trim hquote hclose.symm hnot, ← hsrc, hgo (c :: (mid ++ [close])) rest fuel
              (by simp) (List.cons_ne_nil _ _)
                (by rw [E.encode_append, List.length_append, E.length_encode_cons] at hfuel; omega),
              rawComments_quoted E hnot]
            simp only [E.encode_append, E.encode_cons, E.encode_nil, List.length_append, List.append_nil,
              Encoding.width,
              Nat.add_assoc]
          · rw [hsrc, scanFrom_unclosed E trim hquote hclose.symm hm, rawComments_unclosed E hm]
            rfl
        · by_cases hsemi : c = ';'
          · subst hsemi
            rw [rawComments, if_neg (by decide), if_neg (by decide), if_pos rfl]
            by_cases hm : '\n' ∈ cs
            · -- to the line feed
              obtain ⟨mid, rest, rfl, hnot⟩ := List.eq_append_cons_of_mem hm
              rw [hsrc, scanFrom_line E trim hnot, ← hsrc, hgo (';' :: (mid ++ ['\n'])) rest fuel (by simp)
                (List.cons_ne_nil _ _)
                  (by rw [E.encode_append, List.length_append, E.length_encode_cons] at hfuel; omega),
                rawComments_line E hnot, List.nil_append, List.filterMap_cons]
              simp only [E.encode_append, E.encode_cons, E.encode_nil, List.length_append, List.append_nil,
                Encoding.width,
                Nat.add_assoc]
              cases found trim ((E.encode pre).length, mid) <;> rfl
            · rw [hsrc, scanFrom_last E trim hm, rawComments_last E hm, List.nil_append, List.filterMap_cons,
                List.filterMap_nil]
              cases found trim ((E.encode pre).length, cs) <;> rfl
          · rw [not_or] at hquote
            rw [hsrc, scanFrom_other E trim hascii (not_or.2 hquote) hsemi, ← hsrc,
              hgo [c] cs fuel rfl (List.cons_ne_nil _ _) (by omega), rawComments, if_neg hquote.1, if_neg hquote.2,
              if_neg hsemi, E.encode_append, List.length_append, E.length_encode_cons, E.encode_nil, List.length_nil,
              Nat.add_zero]
      · obtain ⟨fuel, rfl⟩ : ∃ f, fuel = f + E.width c := ⟨fuel - E.width c, by omega⟩
        have hne : ∀ d : Char, d.toNat < 0x80 → c ≠ d := by
          rintro d hd rfl
          exact hascii hd
        rw [hsrc, scanFrom_wide E trim (by omega), ← hsrc, hgo [c] cs fuel rfl (List.cons_ne_nil _ _) (by omega),
          rawComments, if_neg (hne _ (by decide)), if_neg (hne _ (by decide)), if_neg (hne _ (by decide)),
            E.encode_append,
          List.length_append, E.length_encode_cons, E.encode_nil, List.length_nil, Nat.add_zero]

/-- The loop finds the comments of a source. -/
theorem scanFrom_eq (src : Text) : scanFrom E trim src (E.encode src).length 0 =
    (rawComments E.width .content 0 src).filterMap (found trim) :=
  scanFrom_suffix E trim (List.nil_append src).symm le_rfl

end

/-- TypeScript's loop, over UTF-16 units, is the scan of the source's characters. -/
theorem annotationComments_units (src : Text) :
    scanFrom utf16Encoding trim src (utf16Encoding.encode src).length 0 =
      annotationComments utf16Encoding.width src := by
  rw [scanFrom_eq, annotationComments, scanComments_eq]

end TabnasAbnf.Passes
