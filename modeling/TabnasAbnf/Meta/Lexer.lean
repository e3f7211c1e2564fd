/-
The lexer of the front end. At a place it takes the longest token of its table, and where none begins the run of other
text up to a gap, a comment or a fixed token. What a text begins with decides the kinds of token it can begin with
(`Begins.opener`), so a token is the longest as soon as what follows cannot carry it on.
-/
import TabnasAbnf.Meta.Token
import Mathlib.Data.List.Basic

namespace TabnasAbnf.Meta

open TabnasAbnf.Base

/-! ## The token table -/

/-- `[0-9a-fA-F]`. -/
def isHexDigit (c : Char) : Bool := isDigit 16 c

/-- A character of a prose value: `[\x20-\x3D\x3F-\x7E]`. -/
def isProseChar (c : Char) : Bool := decide (0x20 ≤ c.toNat ∧ c.toNat ≤ 0x7E ∧ c ≠ '>')

/-- The fixed tokens. -/
def Lexeme.fixed : Lexeme → Option Text
  | .DEF => some ['='] | .DEFA => some ['=', '/'] | .ALT => some ['/'] | .STAR => some ['*']
  | .LP => some ['('] | .RP => some [')'] | .OB => some ['['] | .CB => some [']']
  | _ => none

def isLineEnd (c : Char) : Bool := c ∈ ['\n', '\r']

/-- What a run of space or line ends is made of. -/
def isGap (c : Char) : Bool := c ∈ [' ', '\t'] || isLineEnd c

/-- `string.chars`, which the options leave at the default. -/
def quoteMarks : List Char := ['"', '\'', '`']

/-- `string.escapeChar`: it takes the next character with it. -/
def escapeChar : Char := '\x7f'

/-- What stands between a mark and the next one of its kind. -/
def isStringBody (mark : Char) : Text → Bool
  | [] => true
  | [c] => c ≠ mark && c ≠ escapeChar
  | c :: d :: cs => if c = escapeChar then isStringBody mark cs else c ≠ mark && isStringBody mark (d :: cs)

/-- What ends a run of other text: a gap, a comment or a fixed token. -/
def endsText (c : Char) : Bool := isGap c || c ∈ [';', '[', ']', '=', '/', '*', '(', ')']

/-- The token a lexer takes at a place, before the text behind it. Where a run of other text ends
before its last character, the engine decides. -/
inductive Takes : Lexeme → Text → Text → Prop
  | fixed {l text rest} : l.fixed = some text → (l = .DEF → rest.head? ≠ some '/') → Takes l text rest
  | NUM {n : Digits} {rest} : Takes (.NUM n) n.1 rest
  | NV {n : NumericSource} {rest} : Takes (.NV n) n.1 rest
  | SS {c rest} : c = 's' ∨ c = 'S' → Takes .SS ['%', c] ('"' :: rest)
  | SI {c rest} : c = 'i' ∨ c = 'I' → Takes .SI ['%', c] ('"' :: rest)
  | PV {body rest} : body.all isProseChar = true → Takes (.PV body) ('<' :: (body ++ ['>'])) rest
  | ST {mark body val rest} : mark ∈ quoteMarks → isStringBody mark body = true → (escapeChar ∉ body → val = body) →
    Takes (.ST val) (mark :: (body ++ [mark])) rest
  | TX {text rest} : text ≠ [] → text.all (!endsText ·) = true → text.head?.any (· ∈ quoteMarks) = false →
    Takes (.TX text) text rest

/-! ## A text as its tokens -/

/-- What a string holds as it stands: an escape, and a line end in backquotes, are the engine's. -/
def isControl (c : Char) : Bool := decide (c.toNat < 0x20) || c == escapeChar

/-- A token that a text begins with, a string being what its text says. -/
def Begins (l : Lexeme) (text rest : Text) : Prop :=
  Takes l text rest ∧ (l.kind = .ST → ∀ c ∈ text, isControl c = false)

/-- Of two tokens at one place a run of other text gives way to any other token, and of two of a sort the shorter. -/
def GivesWay (l' : Lexeme) (text' : Text) (l : Lexeme) (text : Text) : Prop :=
  if l.kind = .TX then l'.kind = .TX ∧ text'.length ≤ text.length else l'.kind = .TX ∨ text'.length ≤ text.length

/-- The token that is taken at a place. -/
def Longest (l : Lexeme) (text rest : Text) : Prop :=
  Begins l text rest ∧
    ∀ l' text' rest', Begins l' text' rest' → text' ++ rest' = text ++ rest → GivesWay l' text' l text

/-- A text as its tokens. -/
inductive Lexes : Text → List Lexeme → Prop
  | nil : Lexes [] []
  | space {s ls} : Lexes s ls → Lexes (' ' :: s) ls
  | token {l text rest ls} : Longest l text rest → Lexes rest ls → Lexes (text ++ rest) (l :: ls)

/-! ## Names and strings of the grammar's own -/

/-- A character of a quoted string: `%x20-21 / %x23-7E`. -/
def isCharVal (c : Char) : Bool := decide (0x20 ≤ c.toNat ∧ c.toNat ≤ 0x7E ∧ c ≠ '"')

def isLetter (c : Char) : Bool := decide (('a' ≤ c ∧ c ≤ 'z') ∨ ('A' ≤ c ∧ c ≤ 'Z'))

/-- A character a rule name goes on with. -/
def isNameChar (c : Char) : Bool := isLetter c || isDigit 10 c || c == '-'

/-- `ALPHA *(ALPHA / DIGIT / "-")`. -/
def isRuleName : Text → Bool
  | [] => false
  | c :: cs => isLetter c && cs.all isNameChar

theorem letter_not_digit {c : Char} (h : isLetter c = true) : isDigit 10 c = false := by
  rw [isDigit_ten, decide_eq_false_iff_not]
  simp only [isLetter, decide_eq_true_eq, char_le] at h ⊢
  have h9 : ('9' : Char).toNat = 57 := rfl
  have ha : ('a' : Char).toNat = 97 := rfl
  have hA : ('A' : Char).toNat = 65 := rfl
  omega

/-- No character of a name ends a run of other text. -/
theorem name_not_ends {c : Char} (h : isNameChar c = true) : endsText c = false := by
  rw [Bool.eq_false_iff]
  intro he
  simp only [endsText, isGap, isLineEnd, Bool.or_eq_true, decide_eq_true_eq, List.mem_cons, List.not_mem_nil,
    or_false] at he
  rcases he with ((rfl | rfl) | (rfl | rfl)) | (rfl | rfl | rfl | rfl | rfl | rfl | rfl | rfl) <;> cases h

/-- Without an escape, what stands in a string is anything but its mark. -/
theorem isStringBody_iff {mark : Char} {body : Text} (h : escapeChar ∉ body) :
    isStringBody mark body = true ↔ mark ∉ body := by
  fun_induction isStringBody mark body with
  | case1 => exact iff_of_true rfl List.not_mem_nil
  | case2 c =>
    rw [List.mem_singleton, eq_comm] at h
    rw [Bool.and_eq_true, decide_eq_true_eq, decide_eq_true_eq, List.mem_singleton, eq_comm]
    exact ⟨And.left, fun hc => ⟨hc, h⟩⟩
  | case3 d cs => exact absurd List.mem_cons_self h
  | case4 c d cs _ ih =>
    rw [List.mem_cons, not_or] at h
    rw [Bool.and_eq_true, ih h.2, List.mem_cons (a := mark) (b := c), not_or, decide_eq_true_eq, ne_comm]

/-! ## What a token begins with -/

/-- What a character opens, other than a run of other text. -/
inductive Opener
  | digit | percent | angle | quote | equals | slash | star | lp | rp | ob | cb | other
  deriving DecidableEq

def opener (c : Char) : Opener :=
  if isDigit 10 c then .digit
  else
    match c with
    | '%' => .percent | '<' => .angle | '"' | '\'' | '`' => .quote | '=' => .equals | '/' => .slash | '*' => .star
    | '(' => .lp | ')' => .rp | '[' => .ob | ']' => .cb
    | _ => .other

/-- What opens a token. -/
def Lexeme.opener : Lexeme → Opener
  | .TX _ => .other | .NUM _ => .digit | .NV _ | .SS | .SI => .percent | .PV _ => .angle | .ST _ => .quote
  | .DEF | .DEFA => .equals | .ALT => .slash | .STAR => .star
  | .LP => .lp | .RP => .rp | .OB => .ob | .CB => .cb

theorem opener_digit {c : Char} (h : isDigit 10 c = true) : opener c = .digit := by
  unfold opener
  rw [if_pos h]

theorem opener_letter {c : Char} (h : isLetter c = true) : opener c = .other := by
  unfold opener
  rw [if_neg (by rw [letter_not_digit h]; exact Bool.false_ne_true)]
  split <;> first | rfl | cases h

theorem opener_quote {c : Char} : opener c = .quote ↔ c ∈ quoteMarks := by
  constructor
  · intro h
    unfold opener at h
    split at h
    · cases h
    · split at h <;> first | (cases h; done) | decide
  · intro h
    simp only [quoteMarks, List.mem_cons, List.not_mem_nil, or_false] at h
    rcases h with rfl | rfl | rfl <;> decide

theorem Lexeme.opener_ne_other {l : Lexeme} (h : l.kind ≠ .TX) : l.opener ≠ .other := by
  cases l <;> first | exact absurd rfl h | exact nofun

theorem numericSource_head {src : Text} (h : isNumericSource src = true) : ∃ cs, src = '%' :: cs := by
  unfold isNumericSource at h
  split at h
  · exact ⟨_, rfl⟩
  · cases h

theorem numericSource_length {src : Text} (h : isNumericSource src = true) : 2 < src.length := by
  unfold isNumericSource at h
  split at h
  · rename_i base body
    obtain _ | ⟨c, body⟩ := body
    · simp at h
    · simp
  · cases h

/-- A token begins with a character, which opens it unless it is a run of other text. -/
theorem Takes.opener {l : Lexeme} {text rest : Text} (h : Takes l text rest) :
    ∃ c cs, text = c :: cs ∧ (l.kind ≠ .TX → Meta.opener c = l.opener) := by
  cases h with
  | fixed hf _ => cases l <;> cases hf <;> exact ⟨_, _, rfl, fun _ => by decide⟩
  | @NUM n _ =>
    obtain ⟨_ | ⟨c, cs⟩, hne, hd⟩ := n
    · exact absurd rfl hne
    · exact ⟨c, cs, rfl, fun _ => opener_digit (List.all_eq_true.1 hd c List.mem_cons_self)⟩
  | @NV n _ =>
    obtain ⟨cs, hcs⟩ := numericSource_head n.2
    exact ⟨'%', cs, hcs, fun _ => rfl⟩
  | SS _ | SI _ | PV _ => exact ⟨_, _, rfl, fun _ => rfl⟩
  | ST hmark _ _ => exact ⟨_, _, rfl, fun _ => opener_quote.2 hmark⟩
  | TX hne _ _ =>
    obtain ⟨c, cs, rfl⟩ := List.exists_cons_of_ne_nil hne
    exact ⟨c, cs, rfl, fun hk => absurd rfl hk⟩

/-- A run of other text goes over nothing that ends one. -/
theorem Takes.run {l : Lexeme} {text rest : Text} (h : Takes l text rest) (hk : l.kind = .TX) :
    text.all (!endsText ·) = true := by
  cases h with
  | TX _ hall _ => exact hall
  | fixed hf _ => cases l <;> cases hf <;> cases hk
  | _ => cases hk

/-! ## The longest token -/

/-- A longer token is one that opens the same way. -/
theorem Longest.of_opener {l : Lexeme} {text rest : Text} (h : Begins l text rest) (hk : l.kind ≠ .TX)
    (hl : ∀ l' text' rest', l'.opener = l.opener → Begins l' text' rest' → text' ++ rest' = text ++ rest →
      text'.length ≤ text.length) : Longest l text rest := by
  refine ⟨h, fun l' text' rest' h' he => ?_⟩
  rw [GivesWay, if_neg hk, or_iff_not_imp_left]
  intro hk'
  refine hl l' text' rest' ?_ h' he
  obtain ⟨c, cs, rfl, hc⟩ := h.1.opener
  obtain ⟨c', cs', rfl, hc'⟩ := h'.1.opener
  rw [List.cons_append, List.cons_append, List.cons.injEq] at he
  rw [← hc hk, ← hc' hk', he.1]

/-- A text is not longer than another before the same rest unless what follows carries it on. -/
theorem length_le_of_carry {text text' rest rest' : Text} (he : text' ++ rest' = text ++ rest)
    (h : ∀ c cs, text' = text ++ c :: cs → rest = c :: (cs ++ rest') → False) : text'.length ≤ text.length := by
  rcases List.append_eq_append_iff.1 he with ⟨as, rfl, -⟩ | ⟨bs, rfl, hrest⟩
  · simp
  · obtain _ | ⟨c, cs⟩ := bs
    · simp
    · exact (h c cs rfl hrest).elim

/-- A run of other text where no other token opens, up to what ends it. -/
theorem longest_TX {c : Char} {cs rest : Text} (ho : opener c = .other) (hall : (c :: cs).all (!endsText ·) = true)
    (hr : ∀ d ∈ rest.head?, endsText d = true) : Longest (.TX (c :: cs)) (c :: cs) rest := by
  have hquote : c ∉ quoteMarks := fun hm => by
    rw [opener_quote.2 hm] at ho
    cases ho
  refine ⟨⟨.TX (List.cons_ne_nil _ _) hall (by simpa using hquote), nofun⟩, fun l' text' rest' h' he => ?_⟩
  have hk' : l'.kind = .TX := by
    by_contra hk'
    obtain ⟨c', cs', rfl, hc'⟩ := h'.1.opener
    rw [List.cons_append, List.cons_append, List.cons.injEq] at he
    exact Lexeme.opener_ne_other hk' (by rw [← hc' hk', he.1, ho])
  have hrun : (Lexeme.TX (c :: cs)).kind = .TX := rfl
  rw [GivesWay, if_pos hrun]
  refine ⟨hk', length_le_of_carry he fun d ds ht hrest => ?_⟩
  -- the run would go on over what ends it
  have hend : endsText d = true := hr d (by rw [hrest]; rfl)
  have hd := List.all_eq_true.1 (h'.1.run hk') d (by rw [ht]; simp)
  rw [hend] at hd
  cases hd

theorem longest_name {name rest : Text} (hn : isRuleName name = true) (hr : ∀ c ∈ rest.head?, endsText c = true) :
    Longest (.TX name) name rest := by
  obtain _ | ⟨c, cs⟩ := name
  · cases hn
  · rw [isRuleName, Bool.and_eq_true] at hn
    refine longest_TX (opener_letter hn.1) ?_ hr
    rw [List.all_cons, Bool.and_eq_true, Bool.not_eq_true']
    refine ⟨name_not_ends (by rw [isNameChar, hn.1]; rfl), ?_⟩
    rw [List.all_eq_true] at hn ⊢
    intro d hd
    rw [name_not_ends (hn.2 d hd)]
    rfl

/-- A dash that no numeric value takes is a run of other text. -/
theorem longest_dash {rest : Text} (hr : ∀ c ∈ rest.head?, endsText c = true) : Longest (.TX ['-']) ['-'] rest :=
  longest_TX rfl rfl hr

theorem longest_NUM {n : Digits} {rest : Text} (hr : ∀ c ∈ rest.head?, isDigit 10 c = false) :
    Longest (.NUM n) n.1 rest := by
  refine .of_opener ⟨.NUM, nofun⟩ nofun fun l' text' rest' ho h' he => length_le_of_carry he fun c cs ht hrest => ?_
  cases h'.1 with
  | @NUM n' _ =>
    subst hrest
    have hc := List.all_eq_true.1 n'.2.2 c (by rw [ht]; simp)
    rw [hr c rfl] at hc
    cases hc
  | fixed hf _ => cases l' <;> cases hf <;> cases ho
  | _ => cases ho

theorem Begins.no_escape {l : Lexeme} {text rest : Text} (h : Begins l text rest) (hk : l.kind = .ST) :
    escapeChar ∉ text := fun hm => absurd (h.2 hk _ hm) (by decide)

/-- Two texts up to the first mark after them. -/
theorem eq_of_mark {c : Char} {s s' t t' : Text} (hs : c ∉ s) (hs' : c ∉ s') (h : s ++ c :: t = s' ++ c :: t') :
    s = s' ∧ t = t' := by
  rcases List.append_eq_append_iff.1 h with ⟨as, rfl, ht⟩ | ⟨bs, rfl, ht⟩
  · rcases as with _ | ⟨a, as⟩
    · exact ⟨by simp, by simpa using ht⟩
    · cases ht
      exact absurd (List.mem_append_right _ List.mem_cons_self) hs'
  · rcases bs with _ | ⟨b, bs⟩
    · exact ⟨by simp, by simpa using ht.symm⟩
    · cases ht
      exact absurd (List.mem_append_right _ List.mem_cons_self) hs

/-- The string at a place is the one up to the next mark. -/
theorem Begins.string {v v' : Text} {text text' rest rest' : Text} (h : Begins (.ST v) text rest)
    (h' : Begins (.ST v') text' rest') (he : text' ++ rest' = text ++ rest) : v' = v ∧ text' = text := by
  have hesc := h.no_escape rfl
  have hesc' := h'.no_escape rfl
  obtain ⟨h, -⟩ := h
  obtain ⟨h', -⟩ := h'
  cases h with
  | fixed hf _ => cases hf
  | @ST mark body _ _ _ hbody hval =>
    cases h' with
    | fixed hf _ => cases hf
    | @ST mark' body' _ _ _ hbody' hval' =>
      have hb : escapeChar ∉ body := fun hm => hesc (by simp [hm])
      have hb' : escapeChar ∉ body' := fun hm => hesc' (by simp [hm])
      rw [isStringBody_iff hb] at hbody
      rw [isStringBody_iff hb'] at hbody'
      simp only [List.cons_append, List.cons.injEq, List.append_assoc, List.nil_append] at he
      obtain ⟨rfl, he⟩ := he
      obtain ⟨rfl, -⟩ := eq_of_mark hbody' hbody he
      exact ⟨(hval' hb').trans (hval hb).symm, rfl⟩

theorem longest_ST {val rest : Text} (hv : val.all isCharVal = true) :
    Longest (.ST val) ('"' :: (val ++ ['"'])) rest := by
  rw [List.all_eq_true] at hv
  have hplain : ∀ c ∈ '"' :: (val ++ ['"']), isControl c = false := by
    have hval : ∀ c ∈ val, isControl c = false := by
      intro c hc
      have hchar := of_decide_eq_true (hv c hc)
      have hesc : c ≠ escapeChar := by
        rintro rfl
        exact absurd hchar.2.1 (by decide)
      rw [isControl, Bool.or_eq_false_iff, decide_eq_false_iff_not, beq_eq_false_iff_ne]
      exact ⟨by omega, hesc⟩
    intro c hc
    rcases List.mem_cons.1 hc with rfl | hc
    · decide
    · rcases List.mem_append.1 hc with hc | hc
      · exact hval c hc
      · rw [List.mem_singleton.1 hc]
        decide
  have hesc : escapeChar ∉ val := fun hm =>
    absurd (hplain _ (List.mem_cons_of_mem _ (List.mem_append_left _ hm))) (by decide)
  have hmark : '"' ∉ val := fun hm => absurd (hv _ hm) (by decide)
  have hbegins : Begins (.ST val) ('"' :: (val ++ ['"'])) rest :=
    ⟨.ST (by decide) ((isStringBody_iff hesc).2 hmark) fun _ => rfl, fun _ => hplain⟩
  refine .of_opener hbegins nofun fun l' text' rest' ho h' he => ?_
  cases l' with
  | ST v' => exact (hbegins.string h' he).2 ▸ le_rfl
  | _ => cases ho

theorem longest_SS {c : Char} {rest : Text} (hc : c = 's' ∨ c = 'S') : Longest .SS ['%', c] ('"' :: rest) := by
  refine .of_opener ⟨.SS hc, nofun⟩ nofun fun l' text' rest' ho h' he => ?_
  cases h'.1 with
  | SS _ | SI _ => exact le_rfl
  | @NV n _ =>
    obtain ⟨src, hsrc⟩ := n
    unfold isNumericSource at hsrc
    split at hsrc
    · simp only [List.cons_append, List.cons.injEq, true_and] at he
      obtain ⟨rfl, -⟩ := he
      rcases hc with rfl | rfl <;> cases (Bool.and_eq_true_iff.1 hsrc).1
    · cases hsrc
  | fixed hf _ => cases l' <;> cases hf <;> cases ho
  | _ => cases ho

/-- What a numeric value goes on with: a digit, or a dash or a dot before one. -/
def carriesNumeric : Text → Bool
  | c :: d :: _ => isHexDigit c || ((c == '-' || c == '.') && isHexDigit d)
  | [c] => isHexDigit c
  | [] => false

/-- A character that separates nothing is in a piece. -/
theorem mem_splitOnP {p : Char → Bool} {c : Char} {s : Text} (hc : p c = false) (h : c ∈ s) :
    ∃ piece ∈ s.splitOnP p, c ∈ piece := by
  induction s with
  | nil => cases h
  | cons d s ih =>
    rw [List.splitOnP_cons_eq_if_modifyHead]
    rcases List.mem_cons.1 h with rfl | h
    · rw [hc, if_neg Bool.false_ne_true]
      obtain ⟨q, qs, hq⟩ := List.exists_cons_of_ne_nil (List.splitOnP_ne_nil p s)
      rw [hq]
      exact ⟨c :: q, List.mem_cons_self, List.mem_cons_self⟩
    · obtain ⟨piece, hp, hm⟩ := ih h
      split
      · exact ⟨piece, List.mem_cons_of_mem _ hp, hm⟩
      · obtain ⟨q, qs, hq⟩ := List.exists_cons_of_ne_nil (List.splitOnP_ne_nil p s)
        rw [hq] at hp ⊢
        rcases List.mem_cons.1 hp with rfl | hp
        · exact ⟨d :: piece, List.mem_cons_self, List.mem_cons_of_mem _ hm⟩
        · exact ⟨piece, List.mem_cons_of_mem _ hp, hm⟩

/-- What a longer source has past a source, the source goes on with. -/
theorem carriesNumeric_of_longer {src cs rest : Text} {c : Char} (hsrc : isNumericSource src = true)
    (hlong : isNumericSource (src ++ c :: cs) = true) : carriesNumeric (c :: (cs ++ rest)) = true := by
  unfold isNumericSource at hsrc
  split at hsrc
  · rename_i base body
    rw [List.cons_append, List.cons_append, isNumericSource, Bool.and_eq_true, List.all_eq_true] at hlong
    have hpieces := hlong.2
    by_cases hp : (c == '-' || c == '.') = true
    · rw [@List.splitOnP_append_cons _ (fun c => c == '-' || c == '.') _ _ _ hp] at hpieces
      have hcs : ∀ piece ∈ cs.splitOnP (fun c => c == '-' || c == '.'),
          piece ≠ [] ∧ ∀ d ∈ piece, isHexDigit d = true := by
        intro piece hm
        have hgood := Bool.and_eq_true_iff.1 (hpieces piece (List.mem_append_right _ hm))
        exact ⟨by simpa using hgood.1, List.all_eq_true.1 hgood.2⟩
      obtain _ | ⟨d, cs⟩ := cs
      · exact absurd rfl (hcs [] (by simp)).1
      rw [List.splitOnP_cons_eq_if_modifyHead] at hcs
      by_cases hd : (d == '-' || d == '.') = true
      · rw [if_pos hd] at hcs
        exact absurd rfl (hcs [] List.mem_cons_self).1
      · rw [if_neg hd] at hcs
        obtain ⟨q, qs, hq⟩ := List.exists_cons_of_ne_nil (List.splitOnP_ne_nil (fun c => c == '-' || c == '.') cs)
        rw [hq] at hcs
        have hhex := (hcs (d :: q) List.mem_cons_self).2 d List.mem_cons_self
        simp only [List.cons_append, carriesNumeric, hp, hhex, Bool.and_self, Bool.or_true]
    · have hmem : c ∈ body ++ c :: cs := List.mem_append_right body List.mem_cons_self
      obtain ⟨piece, hm, hc⟩ := @mem_splitOnP (fun c => c == '-' || c == '.') c _ (Bool.eq_false_iff.2 hp) hmem
      have hhex : isHexDigit c = true :=
        List.all_eq_true.1 (Bool.and_eq_true_iff.1 (hpieces piece hm)).2 c hc
      cases cs ++ rest <;> simp [carriesNumeric, hhex]
  · cases hsrc

theorem longest_NV {n : NumericSource} {rest : Text} (hr : carriesNumeric rest = false) :
    Longest (.NV n) n.1 rest := by
  refine .of_opener ⟨.NV, nofun⟩ nofun fun l' text' rest' ho h' he => length_le_of_carry he fun c cs ht hrest => ?_
  have hshort : ∀ d : Char, ['%', d] ≠ n.1 ++ c :: cs := fun d hd => by
    have hlen := congrArg List.length hd
    have hsrc := numericSource_length n.2
    simp only [List.length_cons, List.length_nil, List.length_append] at hlen
    omega
  cases h'.1 with
  | @NV n' _ =>
    subst hrest
    have hcarry : carriesNumeric (c :: (cs ++ rest')) = true := carriesNumeric_of_longer n.2 (ht ▸ n'.2)
    rw [hr] at hcarry
    cases hcarry
  | SS _ | SI _ => exact hshort _ ht
  | fixed hf _ => cases l' <;> cases hf <;> cases ho
  | _ => cases ho

theorem longest_fixed {l : Lexeme} {text rest : Text} (hf : l.fixed = some text) (hl : l.opener ≠ .equals) :
    Longest l text rest := by
  have hk : l.kind ≠ .TX ∧ l.kind ≠ .ST ∧ l ≠ .DEF := by
    cases l <;> cases hf <;> first | exact absurd rfl hl | exact ⟨nofun, nofun, nofun⟩
  have hbegins : Begins l text rest := ⟨.fixed hf fun hd => absurd hd hk.2.2, fun hs => absurd hs hk.2.1⟩
  refine .of_opener hbegins hk.1 fun l' text' rest' ho h' he => ?_
  cases h'.1 with
  | fixed hf' _ =>
    cases l <;> cases hf <;> cases l' <;> cases hf' <;> first | exact le_rfl | exact absurd rfl hl | cases ho
  | _ => cases l <;> first | (cases hf; done) | cases ho

/-- An equals sign before no slash. -/
theorem longest_DEF {rest : Text} (h : ∀ c ∈ rest.head?, c ≠ '/') : Longest .DEF ['='] rest := by
  have hbegins : Begins .DEF ['='] rest := ⟨.fixed rfl fun _ hd => h '/' hd rfl, nofun⟩
  refine .of_opener hbegins nofun fun l' text' rest' ho h' he => length_le_of_carry he fun c cs ht hrest => ?_
  cases h'.1 with
  | fixed hf _ =>
    cases l' <;> cases hf <;> first | (cases ho; done) | skip
    · cases ht
    · cases ht
      exact h '/' (by rw [hrest]; rfl) rfl
  | _ => cases ho

/-! ## One way to read a text -/

/-- A quoted text has one body. -/
theorem Begins.string_unique {v v' text rest rest' : Text} (h : Begins (.ST v) text rest)
    (h' : Begins (.ST v') text rest') : v = v' := by
  have hsame : Begins (.ST v') text rest := by
    refine ⟨?_, h'.2⟩
    cases h'.1 with
    | fixed hf _ => cases hf
    | ST hmark hbody hval => exact .ST hmark hbody hval
  exact (Begins.string h hsame rfl).1.symm

/-- Tokens of one text open alike. -/
theorem Takes.opener_eq {l l' : Lexeme} {text rest rest' : Text} (h : Takes l text rest) (h' : Takes l' text rest')
    (htx : l.kind ≠ .TX) (htx' : l'.kind ≠ .TX) : l.opener = l'.opener := by
  obtain ⟨c, cs, hc, hl⟩ := h.opener
  obtain ⟨c', cs', hc', hl'⟩ := h'.opener
  rw [hc'] at hc
  cases hc
  rw [← hl htx, ← hl' htx']

/-- What opens a token tells the lexemes apart, but for those that begin with a percent sign. -/
theorem Takes.unique {l l' : Lexeme} {text rest rest' : Text} (h : Takes l text rest) (h' : Takes l' text rest')
    (htx : l.kind ≠ .TX) (hst : ∀ v, l ≠ .ST v) (ho : l.opener = l'.opener) : l = l' := by
  have hnv : ∀ (n : NumericSource) (c : Char), n.1 ≠ ['%', c] := fun n c hn => by
    have hlen := numericSource_length n.2
    rw [hn] at hlen
    simp at hlen
  cases h with
  | fixed hf _ =>
    cases h' with
    | fixed hf' _ => cases l <;> cases hf <;> cases l' <;> cases hf' <;> rfl
    | _ => cases l <;> first | (cases hf; done) | cases ho
  | TX => exact absurd rfl htx
  | ST => exact absurd rfl (hst _)
  | @NUM n _ =>
    generalize hs : n.1 = s at h'
    cases h' with
    | NUM => rw [Subtype.ext hs]
    | fixed hf _ => cases l' <;> cases hf <;> cases ho
    | _ => cases ho
  | @NV n _ =>
    generalize hs : n.1 = s at h'
    cases h' with
    | NV => rw [Subtype.ext hs]
    | SS _ | SI _ => exact absurd hs (hnv _ _)
    | fixed hf _ => cases l' <;> cases hf <;> cases ho
    | _ => cases ho
  | @SS c _ hc =>
    generalize hs : ['%', c] = s at h'
    cases h' with
    | SS _ => rfl
    | SI hc' =>
      cases hs
      rcases hc with rfl | rfl <;> rcases hc' with hc' | hc' <;> cases hc'
    | NV => exact absurd hs.symm (hnv _ _)
    | fixed hf _ => cases l' <;> cases hf <;> cases ho
    | _ => cases ho
  | @SI c _ hc =>
    generalize hs : ['%', c] = s at h'
    cases h' with
    | SI _ => rfl
    | SS hc' =>
      cases hs
      rcases hc with rfl | rfl <;> rcases hc' with hc' | hc' <;> cases hc'
    | NV => exact absurd hs.symm (hnv _ _)
    | fixed hf _ => cases l' <;> cases hf <;> cases ho
    | _ => cases ho
  | @PV body _ _ =>
    generalize hs : '<' :: (body ++ ['>']) = s at h'
    cases h' with
    | PV _ =>
      rw [List.cons.injEq, List.append_cancel_right_eq] at hs
      rw [hs.2]
    | fixed hf _ => cases l' <;> cases hf <;> cases ho
    | _ => cases ho

/-- A token's text says which it is, unless it is a run of other text. -/
theorem Begins.unique {l l' : Lexeme} {text rest rest' : Text} (h : Begins l text rest) (h' : Begins l' text rest')
    (hk : l.kind = .TX ↔ l'.kind = .TX) : l = l' := by
  by_cases htx : l.kind = .TX
  · have htx' := hk.1 htx
    obtain ⟨h, -⟩ := h
    obtain ⟨h', -⟩ := h'
    cases l <;> cases htx
    cases l' <;> cases htx'
    cases h with
    | fixed hf _ => cases hf
    | TX =>
      cases h' with
      | fixed hf _ => cases hf
      | TX => rfl
  · have ho := h.1.opener_eq h'.1 htx fun ht => htx (hk.2 ht)
    by_cases hst : ∃ v, l = .ST v
    · obtain ⟨v, rfl⟩ := hst
      cases l' with
      | ST v' => rw [h.string_unique h']
      | _ => cases ho
    · exact h.1.unique h'.1 htx (fun v hv => hst ⟨v, hv⟩) ho

theorem Longest.unique {l l' : Lexeme} {text text' rest rest' : Text} (h : Longest l text rest)
    (h' : Longest l' text' rest') (he : text ++ rest = text' ++ rest') : l = l' ∧ rest = rest' := by
  obtain ⟨ha, hmax⟩ := h
  obtain ⟨ha', hmax'⟩ := h'
  have hway := hmax _ _ _ ha' he.symm
  have hway' := hmax' _ _ _ ha he
  -- each gives way to the other, so both are runs of other text or neither is, and they are as long
  have hsame : (l.kind = .TX ↔ l'.kind = .TX) ∧ text.length = text'.length := by
    unfold GivesWay at hway hway'
    split at hway <;> split at hway'
    · exact ⟨iff_of_true hway'.1 hway.1, le_antisymm hway'.2 hway.2⟩
    · rename_i hk hk'
      exact absurd hway.1 hk'
    · rename_i hk hk'
      exact absurd hway'.1 hk
    · rename_i hk hk'
      exact ⟨iff_of_false hk hk', le_antisymm (hway'.resolve_left hk) (hway.resolve_left hk')⟩
  obtain ⟨rfl, rfl⟩ := List.append_inj he hsame.2
  exact ⟨ha.unique ha' hsame.1, rfl⟩

/-- No token begins with a space or a line end. -/
theorem not_longest_gap {l : Lexeme} {text rest s : Text} {g : Char} (hg : g = ' ' ∨ g = '\n')
    (h : Longest l text rest) :
    text ++ rest ≠ g :: s := by
  obtain ⟨c, cs, rfl, hc⟩ := h.1.1.opener
  intro he
  rw [List.cons_append, List.cons.injEq] at he
  rw [he.1] at hc
  have hgap : opener g = .other ∧ endsText g = true := by rcases hg with rfl | rfl <;> decide
  by_cases hk : l.kind = .TX
  · have hrun := List.all_eq_true.1 (h.1.1.run hk) c List.mem_cons_self
    rw [he.1, hgap.2] at hrun
    cases hrun
  · exact Lexeme.opener_ne_other hk ((hc hk).symm.trans hgap.1)

/-- A text is at most one list of tokens. -/
theorem Lexes.unique {s : Text} {ls ls' : List Lexeme} (h : Lexes s ls) (h' : Lexes s ls') : ls = ls' := by
  induction h generalizing ls' with
  | nil =>
    generalize hs : ([] : Text) = s at h'
    cases h' with
    | nil => rfl
    | space => cases hs
    | token hl _ =>
      obtain ⟨c, cs, rfl, -⟩ := hl.1.1.opener
      cases hs
  | @space s ls _ ih =>
    generalize hs : ' ' :: s = s' at h'
    cases h' with
    | nil => cases hs
    | space h' => cases hs; exact ih h'
    | token hl _ => exact absurd hs.symm (not_longest_gap (.inl rfl) hl)
  | @token l text rest ls hl _ ih =>
    generalize hs : text ++ rest = s' at h'
    cases h' with
    | nil =>
      obtain ⟨c, cs, rfl, -⟩ := hl.1.1.opener
      cases hs
    | space h' => exact absurd hs (not_longest_gap (.inl rfl) hl)
    | token hl' h' =>
      obtain ⟨rfl, rfl⟩ := hl.unique hl' hs
      rw [ih h']

/-! ## The tokens of a text's front -/

/-- The tokens of a text up to what is left of it. -/
inductive LexesTo : Text → Text → List Lexeme → Prop
  | nil {rest} : LexesTo rest rest []
  | space {s rest ls} : LexesTo s rest ls → LexesTo (' ' :: s) rest ls
  | token {l text s rest ls} : Longest l text s → LexesTo s rest ls → LexesTo (text ++ s) rest (l :: ls)

theorem LexesTo.trans {s s' rest : Text} {ls ls' : List Lexeme} (h : LexesTo s s' ls) (h' : LexesTo s' rest ls') :
    LexesTo s rest (ls ++ ls') := by
  induction h with
  | nil => exact h'
  | space _ ih => exact .space (ih h')
  | token hl _ ih => exact .token hl (ih h')

theorem LexesTo.lexes {s rest : Text} {ls ls' : List Lexeme} (h : LexesTo s rest ls) (h' : Lexes rest ls') :
    Lexes s (ls ++ ls') := by
  induction h with
  | nil => exact h'
  | space _ ih => exact .space (ih h')
  | token hl _ ih => exact .token hl (ih h')

theorem LexesTo.all {s : Text} {ls : List Lexeme} (h : LexesTo s [] ls) : Lexes s ls := by
  have hl := h.lexes .nil
  rwa [List.append_nil] at hl

theorem Longest.lexesTo {l : Lexeme} {text rest : Text} (h : Longest l text rest) : LexesTo (text ++ rest) rest [l] :=
  .token h .nil

end TabnasAbnf.Meta
