/-
Phrases: a text before a space or the end, its tokens, and what the meta-grammar derives from them. What is
written in one element's place may be read as several, so an atom and an element stand here with what is read behind
them in the sequence.
-/
import TabnasAbnf.Meta.Terminal

namespace TabnasAbnf.Meta

open TabnasAbnf.Engine TabnasAbnf.Base TabnasAbnf.Passes

/-! ## The tokens of a text -/

/-- A text's tokens, before a space or the end. -/
def LexedAs (s : Text) (ls : List Lexeme) : Prop := ∀ rest, Ended rest → LexesTo (s ++ rest) rest ls

section

variable {s t : Text} {ls ls' : List Lexeme}

/-- A text before another that begins with a space. -/
theorem LexedAs.append (h : LexedAs s ls) (h' : LexedAs t ls') (ht : ∀ rest, Ended (t ++ rest)) :
    LexedAs (s ++ t) (ls ++ ls') := by
  intro rest hr
  rw [List.append_assoc]
  exact (h _ (ht rest)).trans (h' rest hr)

/-- A text that some tokens lead on to another. -/
theorem LexedAs.after (hl : ∀ rest, Ended rest → LexesTo (t ++ rest) (s ++ rest) ls) (h : LexedAs s ls') :
    LexedAs t (ls ++ ls') := fun rest hr => (hl rest hr).trans (h rest hr)

/-- A leading space is no token. -/
theorem LexedAs.of_space (h : LexedAs (' ' :: s) ls) : LexedAs s ls := by
  intro rest hr
  have hl := h rest hr
  rw [List.cons_append] at hl
  generalize hs : ' ' :: (s ++ rest) = s' at hl
  cases hl with
  | nil =>
    have hlen := congrArg List.length hs
    simp only [List.length_cons, List.length_append] at hlen
    omega
  | space hl =>
    cases hs
    exact hl
  | token hlong _ => exact absurd hs.symm (not_longest_gap (.inl rfl) hlong)

theorem LexedAs.lexes (h : LexedAs s ls) : Lexes s ls := by
  have hto := h [] (by simp [Ended])
  rw [List.append_nil] at hto
  exact hto.all

end

/-! ## Phrases -/

/-- A text and what is derived of its tokens, whatever follows them but a stray `=`. -/
def Phrase {X : Type} (D : List Tok → List Tok → X → Prop) (s : Text) (ls : List Lexeme) (P : X → Prop) : Prop :=
  LexedAs s ls ∧ ∀ toks rest : List Tok, toks.map Tok.lex = ls → ¬ Stuck rest →
    (∀ t ∈ toks, t.kind = .NV → Ts.readable t = true) ∧ ∃ x, D (toks ++ rest) rest x ∧ P x

/-- The element at the front of the tokens. -/
def DElem (ts rest : List Tok) (e : CElem) : Prop := ∃ mid, Prefix ts e.1 mid ∧ DAtom mid rest e.2

/-- The atom at the front of the tokens, and the elements behind it. -/
def DAtoms (ts rest : List Tok) (x : CAtom × CSeq) : Prop := ∃ mid, DAtom ts mid x.1 ∧ DSeq mid rest x.2

/-- The element at the front of the tokens, and the elements behind it. -/
def DElems (ts rest : List Tok) (x : CElem × CSeq) : Prop := ∃ mid, DElem ts mid x.1 ∧ DSeq mid rest x.2

theorem DSeq.append {ts mid rest : List Tok} {es es' : CSeq} (h : DSeq ts mid es) (h' : DSeq mid rest es') :
    DSeq ts rest (es ++ es') := by
  induction es generalizing ts with
  | nil =>
    cases h
    exact h'
  | cons e es ih =>
    cases h with
    | cons hp ha hes => exact .cons hp ha (ih hes)

theorem DElems.seq {ts rest : List Tok} {x : CElem × CSeq} (h : DElems ts rest x) : DSeq ts rest (x.1 :: x.2) := by
  obtain ⟨mid, ⟨mid', hp, ha⟩, hes⟩ := h
  exact .cons hp ha hes

section

variable {X : Type} {D : List Tok → List Tok → X → Prop} {s t : Text} {ls ls' : List Lexeme}

theorem Phrase.mono {P Q : X → Prop} (h : Phrase D s ls P) (hPQ : ∀ x, P x → Q x) : Phrase D s ls Q := by
  refine ⟨h.1, fun toks rest ht hr => ?_⟩
  obtain ⟨hnv, x, hx, hP⟩ := h.2 toks rest ht hr
  exact ⟨hnv, x, hx, hPQ x hP⟩

theorem Phrase.of_space {P : X → Prop} (h : Phrase D (' ' :: s) ls P) : Phrase D s ls P := ⟨h.1.of_space, h.2⟩

theorem DAtom.not_stuck {ts rest : List Tok} {a : CAtom} (h : DAtom ts rest a) : ¬ Stuck ts := by
  have hatom := h.head.1
  rintro (hk | hk) <;> rw [hk] at hatom <;> revert hatom <;> decide

theorem DElem.not_stuck {ts rest : List Tok} {e : CElem} (h : DElem ts rest e) : ¬ Stuck ts := by
  obtain ⟨mid, hp, ha⟩ := h
  obtain ⟨r, a⟩ := e
  cases hp with
  | once => exact ha.not_stuck
  | bounded hn _ _ => simp [Stuck, hn]
  | atleast hn _ => simp [Stuck, hn]
  | atmost hs _ => simp [Stuck, hs]
  | star hs => simp [Stuck, hs]
  | exact hn => simp [Stuck, hn]

theorem DSeq.not_stuck {ts rest : List Tok} {es : CSeq} (h : DSeq ts rest es) (hr : ¬ Stuck rest) : ¬ Stuck ts := by
  cases h with
  | nil => exact hr
  | @cons _ _ _ _ r a _ hp ha _ =>
    have hel : DElem ts _ (r, a) := ⟨_, hp, ha⟩
    exact hel.not_stuck

/-! ## Atoms -/

/-- An atom alone, with a property. -/
def OneAtom (P : Ir → Prop) (x : CAtom × CSeq) : Prop := x.2 = [] ∧ P (atomIr x.1)

theorem AtomText.phrase {P : Ir → Prop} (h : AtomText s P) : ∃ ls, Phrase DAtoms s ls (OneAtom P) := by
  obtain ⟨ls, hl, h⟩ := h
  refine ⟨ls, hl, fun toks rest ht _ => ?_⟩
  obtain ⟨a, ha, hnv, hP⟩ := h toks rest ht
  exact ⟨hnv, (a, []), ⟨rest, ha, .nil⟩, rfl, hP⟩

/-- A run of other text is a reference. -/
theorem phrase_run (h : ∀ rest, Ended rest → Longest (.TX s) s rest) :
    Phrase DAtoms s [.TX s] (OneAtom fun e => ∃ sp, e = .ref s sp) := by
  refine ⟨fun rest hr => (h rest hr).lexesTo, fun toks rest ht hr => ?_⟩
  obtain ⟨t, rfl, hlex⟩ := List.map_eq_singleton_iff.1 ht
  have hk : t.kind = .TX := by rw [Tok.kind, hlex]; rfl
  have htext : t.text = s := by rw [Tok.text, hlex]; rfl
  have hatom : DAtom ([t] ++ rest) rest (.leaf (.tx t)) := .tx hk (fun hd => hr (.inl hd)) fun hd => hr (.inr hd)
  refine ⟨by simp [hk], (_, []), ⟨rest, hatom, .nil⟩, rfl, some (spanOf t), ?_⟩
  rw [← htext]
  rfl

/-- A rule name is a reference. -/
theorem phrase_name (h : isRuleName s = true) : Phrase DAtoms s [.TX s] (OneAtom fun e => ∃ sp, e = .ref s sp) :=
  phrase_run fun _ hr => longest_name h hr.ends

/-- A dash that a numeric value does not take is a second element, a reference. -/
theorem phrase_dash {src : Text} (hsrc : isNumericSource src = true) {v : Option Span → NumericElement Units}
    (h : ∀ sp, Ts.parseNumericValue src sp = .ok (v sp)) :
    Phrase DAtoms (src ++ ['-']) [.NV ⟨src, hsrc⟩, .TX ['-']] fun x => ∃ sp, seqIr x.2 = [.ref ['-'] sp] := by
  have hdash := @phrase_run ['-'] fun rest hr => longest_dash hr.ends
  refine ⟨fun rest hr => ?_, fun toks rest ht hr => ?_⟩
  · have hcarry : carriesNumeric ('-' :: rest) = false := by
      rcases rest with _ | ⟨c, rest⟩
      · rfl
      · cases hr c rfl
        rfl
    have hvalue := (@longest_NV ⟨src, hsrc⟩ _ hcarry).lexesTo
    rw [List.append_assoc]
    exact hvalue.trans (hdash.1 rest hr)
  · obtain ⟨v, toks, rfl, hv, ht⟩ := List.map_eq_cons_iff.1 ht
    have hkv : v.kind = .NV := by rw [Tok.kind, hv]; rfl
    obtain ⟨hnv, ⟨a, _⟩, ⟨mid, ha, hes⟩, rfl, sp, href⟩ := hdash.2 toks rest ht hr
    refine ⟨List.forall_mem_cons.2 ⟨fun _ => (numericOf_text h hv).2, hnv⟩, (.leaf (.nv v), [(.once, a)]),
      ⟨_, .nv hkv, ?_⟩, sp, ?_⟩
    · exact .cons .once ha hes
    · rw [← href]
      rfl

/-! ## Brackets -/

/-- What opens a bracket. -/
def GroupKind.opening : GroupKind → Lexeme
  | .group => .LP
  | .opt => .OB

def GroupKind.closing : GroupKind → Lexeme
  | .group => .RP
  | .opt => .CB

/-- Alternatives in brackets are an atom. -/
theorem phrase_bracket {P : CAlts → Prop} (g : GroupKind) {op cl : Char} (hop : g.opening.fixed = some [op])
    (hcl : g.closing.fixed = some [cl]) (h : Phrase DAlts s ls P) :
    Phrase DAtoms ([op, ' '] ++ s ++ [' ', cl]) (g.opening :: (ls ++ [g.closing])) fun x =>
      x.2 = [] ∧ ∃ t t' as, x.1 = .group g t t' as ∧ P as := by
  have hopen : ∀ rest : Text, LexesTo ([op, ' '] ++ s ++ [' ', cl] ++ rest) (s ++ ([' ', cl] ++ rest)) [g.opening] := by
    intro rest
    have hto := @LexesTo.token g.opening [op] _ _ _ (longest_fixed hop (by cases g <;> decide))
      (.space (@LexesTo.nil (s ++ ([' ', cl] ++ rest))))
    simpa using hto
  have hclose : LexedAs [' ', cl] [g.closing] := fun rest _ =>
    .space (Longest.lexesTo (longest_fixed hcl (by cases g <;> decide)))
  refine ⟨fun rest hr => (hopen rest).trans ((h.1 _ (Ended.space _)).trans (hclose rest hr)), fun toks rest ht hr => ?_⟩
  obtain ⟨t, toks, rfl, hlop, ht⟩ := List.map_eq_cons_iff.1 ht
  obtain ⟨toks, cls, rfl, htoks, hcls⟩ := List.map_eq_append_iff.1 ht
  obtain ⟨t', rfl, hlcl⟩ := List.map_eq_singleton_iff.1 hcls
  have hko : opensWith t.kind = some g := by rw [Tok.kind, hlop]; cases g <;> rfl
  have hkc : t'.kind = g.closer := by rw [Tok.kind, hlcl]; cases g <;> rfl
  -- the closing mark ends what is within
  have hnot : ¬ Stuck (t' :: rest) := by
    cases g <;> simp [Stuck, hkc, GroupKind.closer]
  obtain ⟨hnv, as, has, hP⟩ := h.2 toks (t' :: rest) htoks hnot
  refine ⟨?_, (.group g t t' as, []), ⟨rest, ?_, .nil⟩, rfl, t, t', as, rfl, hP⟩
  · intro x hx hk
    rcases List.mem_cons.1 hx with rfl | hx
    · rw [hk] at hko
      cases hko
    · rcases List.mem_append.1 hx with hx | hx
      · exact hnv x hx hk
      · rw [List.mem_singleton.1 hx, hkc] at hk
        cases g <;> cases hk
  · rw [List.cons_append, List.append_assoc]
    exact .group hko has hkc

/-! ## Elements -/

theorem phrase_once {P : CAtom × CSeq → Prop} (h : Phrase DAtoms s ls P) :
    Phrase DElems s ls fun x => x.1.1 = .once ∧ P (x.1.2, x.2) := by
  refine ⟨h.1, fun toks rest ht hr => ?_⟩
  obtain ⟨hnv, ⟨a, es⟩, ⟨mid, ha, hes⟩, hP⟩ := h.2 toks rest ht hr
  exact ⟨hnv, ((.once, a), es), ⟨mid, ⟨_, .once, ha⟩, hes⟩, rfl, hP⟩

/-- A text is the tokens of a repeat, with a property, before what is no digit. -/
def PrefixText (p : Text) (Q : Reps → Prop) : Prop :=
  ∃ ls, (∀ rest : Text, (∀ c ∈ rest.head?, isDigit 10 c = false) → LexesTo (p ++ rest) rest ls) ∧
    ∀ toks mid : List Tok, toks.map Tok.lex = ls → (∀ t ∈ toks, t.kind ≠ .NV) ∧ ∃ r, Prefix (toks ++ mid) r mid ∧ Q r

theorem PrefixText.mono {p : Text} {Q R : Reps → Prop} (h : PrefixText p Q) (hQR : ∀ r, Q r → R r) :
    PrefixText p R := by
  obtain ⟨ls, hl, h⟩ := h
  refine ⟨ls, hl, fun toks mid ht => ?_⟩
  obtain ⟨hnv, r, hr, hQ⟩ := h toks mid ht
  exact ⟨hnv, r, hr, hQR r hQ⟩

/-! ## Repeats -/

section

variable (d d' : Digits)

theorem lexes_count {rest : Text} (h : ∀ c ∈ rest.head?, isDigit 10 c = false) : LexesTo (d.1 ++ rest) rest [.NUM d] :=
  (longest_NUM h).lexesTo

theorem lexes_star (rest : Text) : LexesTo ('*' :: rest) rest [.STAR] :=
  @LexesTo.token .STAR ['*'] _ _ _ (longest_fixed rfl (by decide)) .nil

theorem star_not_digit {rest : Text} : ∀ c ∈ ('*' :: rest).head?, isDigit 10 c = false := by
  intro c hc
  cases hc
  decide

theorem prefix_star : PrefixText ['*'] fun r => r = .star := by
  refine ⟨[.STAR], fun rest _ => lexes_star rest, fun toks mid ht => ?_⟩
  obtain ⟨s, rfl, hs⟩ := List.map_eq_singleton_iff.1 ht
  have hk : s.kind = .STAR := by rw [Tok.kind, hs]; rfl
  exact ⟨by simp [hk], _, .star hk, rfl⟩

theorem prefix_exact : PrefixText d.1 fun r => ∃ n : Tok, r = .exact n ∧ n.text = d.1 := by
  refine ⟨[.NUM d], fun rest hr => lexes_count d hr, fun toks mid ht => ?_⟩
  obtain ⟨n, rfl, hn⟩ := List.map_eq_singleton_iff.1 ht
  have hk : n.kind = .NUM := by rw [Tok.kind, hn]; rfl
  exact ⟨by simp [hk], _, .exact hk, n, rfl, by rw [Tok.text, hn]; rfl⟩

theorem prefix_atleast : PrefixText (d.1 ++ ['*']) fun r => ∃ n : Tok, r = .atleast n ∧ n.text = d.1 := by
  refine ⟨[.NUM d, .STAR], fun rest _ => ?_, fun toks mid ht => ?_⟩
  · rw [List.append_assoc]
    exact (lexes_count d star_not_digit).trans (lexes_star rest)
  · obtain ⟨n, toks, rfl, hn, ht⟩ := List.map_eq_cons_iff.1 ht
    obtain ⟨s, rfl, hs⟩ := List.map_eq_singleton_iff.1 ht
    have hk : n.kind = .NUM := by rw [Tok.kind, hn]; rfl
    have hk' : s.kind = .STAR := by rw [Tok.kind, hs]; rfl
    exact ⟨by simp [hk, hk'], _, .atleast hk hk', n, rfl, by rw [Tok.text, hn]; rfl⟩

theorem prefix_atmost : PrefixText ('*' :: d.1) fun r => ∃ m : Tok, r = .atmost m ∧ m.text = d.1 := by
  refine ⟨[.STAR, .NUM d], fun rest hr => ?_, fun toks mid ht => ?_⟩
  · exact (lexes_star (d.1 ++ rest)).trans (lexes_count d hr)
  · obtain ⟨s, toks, rfl, hs, ht⟩ := List.map_eq_cons_iff.1 ht
    obtain ⟨m, rfl, hm⟩ := List.map_eq_singleton_iff.1 ht
    have hk : s.kind = .STAR := by rw [Tok.kind, hs]; rfl
    have hk' : m.kind = .NUM := by rw [Tok.kind, hm]; rfl
    exact ⟨by simp [hk, hk'], _, .atmost hk hk', m, rfl, by rw [Tok.text, hm]; rfl⟩

theorem prefix_bounded : PrefixText (d.1 ++ '*' :: d'.1) fun r =>
    ∃ n m : Tok, r = .bounded n m ∧ n.text = d.1 ∧ m.text = d'.1 := by
  refine ⟨[.NUM d, .STAR, .NUM d'], fun rest hr => ?_, fun toks mid ht => ?_⟩
  · rw [List.append_assoc]
    exact (lexes_count d star_not_digit).trans ((lexes_star (d'.1 ++ rest)).trans (lexes_count d' hr))
  · obtain ⟨n, toks, rfl, hn, ht⟩ := List.map_eq_cons_iff.1 ht
    obtain ⟨s, toks, rfl, hs, ht⟩ := List.map_eq_cons_iff.1 ht
    obtain ⟨m, rfl, hm⟩ := List.map_eq_singleton_iff.1 ht
    have hk : n.kind = .NUM := by rw [Tok.kind, hn]; rfl
    have hk' : s.kind = .STAR := by rw [Tok.kind, hs]; rfl
    have hk'' : m.kind = .NUM := by rw [Tok.kind, hm]; rfl
    exact ⟨by simp [hk, hk', hk''], _, .bounded hk hk' hk'', n, m, rfl, by rw [Tok.text, hn]; rfl,
      by rw [Tok.text, hm]; rfl⟩

end

/-- A repeat before an atom is the atom's. -/
theorem phrase_repeated {p : Text} {Q : Reps → Prop} {P : CAtom × CSeq → Prop} (hp : PrefixText p Q)
    (h : Phrase DAtoms s ls P) (hs : ∀ c ∈ s.head?, isDigit 10 c = false) :
    ∃ ls', Phrase DElems (p ++ s) ls' fun x => Q x.1.1 ∧ P (x.1.2, x.2) := by
  obtain ⟨ls', hl, hread⟩ := hp
  have hnext : ∀ rest, Ended rest → ∀ c ∈ (s ++ rest).head?, isDigit 10 c = false := by
    intro rest hr c hc
    rcases s with _ | ⟨d, s⟩
    · rw [hr c hc]
      decide
    · exact hs c hc
  have hspell : LexedAs (p ++ s) (ls' ++ ls) :=
    LexedAs.after (fun rest hr => by rw [List.append_assoc]; exact hl _ (hnext rest hr)) h.1
  refine ⟨ls' ++ ls, hspell, fun toks rest ht hr => ?_⟩
  obtain ⟨toks₁, toks₂, rfl, ht₁, ht₂⟩ := List.map_eq_append_iff.1 ht
  obtain ⟨hnv, ⟨a, es⟩, ⟨mid, ha, hes⟩, hP⟩ := h.2 toks₂ rest ht₂ hr
  obtain ⟨hnv', r, hr', hQ⟩ := hread toks₁ (toks₂ ++ rest) ht₁
  refine ⟨?_, ((r, a), es), ⟨mid, ⟨_, by rw [List.append_assoc]; exact hr', ha⟩, hes⟩, hQ, hP⟩
  intro t ht hk
  rcases List.mem_append.1 ht with ht | ht
  · exact absurd hk (hnv' t ht)
  · exact hnv t ht hk

/-! ## Sequences and alternatives -/

theorem phrase_seq_nil : Phrase DSeq [] [] (· = []) := by
  refine ⟨fun rest _ => .nil, fun toks rest ht _ => ?_⟩
  rw [List.map_eq_nil_iff.1 ht]
  exact ⟨nofun, [], .nil, rfl⟩

theorem phrase_seq_single {P : CElem × CSeq → Prop} (h : Phrase DElems s ls P) :
    Phrase DSeq s ls fun es => ∃ x, es = x.1 :: x.2 ∧ P x := by
  refine ⟨h.1, fun toks rest ht hr => ?_⟩
  obtain ⟨hnv, x, hx, hP⟩ := h.2 toks rest ht hr
  exact ⟨hnv, _, hx.seq, x, rfl, hP⟩

theorem phrase_seq_cons {P : CElem × CSeq → Prop} {Q : CSeq → Prop} (h : Phrase DElems s ls P)
    (h' : Phrase DSeq t ls' Q) :
    Phrase DSeq (s ++ ' ' :: t) (ls ++ ls') fun es => ∃ x es', es = x.1 :: (x.2 ++ es') ∧ P x ∧ Q es' := by
  have hspace : LexedAs (' ' :: t) ls' := fun rest hr => .space (h'.1 rest hr)
  refine ⟨h.1.append hspace fun _ => Ended.space _, fun toks rest ht hr => ?_⟩
  obtain ⟨toks₁, toks₂, rfl, ht₁, ht₂⟩ := List.map_eq_append_iff.1 ht
  obtain ⟨hnv', es, hes, hQ⟩ := h'.2 toks₂ rest ht₂ hr
  obtain ⟨hnv, x, hx, hP⟩ := h.2 toks₁ (toks₂ ++ rest) ht₁ (hes.not_stuck hr)
  refine ⟨?_, _, ?_, x, es, rfl, hP, hQ⟩
  · exact fun t ht => (List.mem_append.1 ht).elim (hnv t) (hnv' t)
  · rw [List.append_assoc]
    exact hx.seq.append hes

theorem phrase_alts_single {P : CSeq → Prop} (h : Phrase DSeq s ls P) :
    Phrase DAlts s ls fun as => ∃ es, as = [es] ∧ P es := by
  refine ⟨h.1, fun toks rest ht hr => ?_⟩
  obtain ⟨hnv, es, hes, hP⟩ := h.2 toks rest ht hr
  exact ⟨hnv, [es], .one hes, es, rfl, hP⟩

/-- A sequence before a slash and what the text after it leads on to. -/
theorem phrase_alts_cons {w : Text} {P : CSeq → Prop} {Q : CAlts → Prop}
    (hw : ∀ rest, LexesTo (w ++ rest) (t ++ rest) [])
    (h : Phrase DSeq s ls P) (h' : Phrase DAlts t ls' Q) :
    Phrase DAlts (s ++ ' ' :: '/' :: w) (ls ++ .ALT :: ls') fun as => ∃ es as', as = es :: as' ∧ P es ∧ Q as' := by
  have hslash : LexedAs (' ' :: '/' :: w) (.ALT :: ls') := by
    have hto : ∀ rest, Ended rest → LexesTo (' ' :: '/' :: w ++ rest) (t ++ rest) [.ALT] := fun rest _ =>
      .space (@LexesTo.token .ALT ['/'] _ _ _ (longest_fixed rfl (by decide)) (hw rest))
    exact LexedAs.after hto h'.1
  refine ⟨h.1.append hslash fun _ => Ended.space _, fun toks rest ht hr => ?_⟩
  obtain ⟨toks₁, toks₂, rfl, ht₁, ht₂⟩ := List.map_eq_append_iff.1 ht
  obtain ⟨t, toks₂, rfl, hlex, ht₂⟩ := List.map_eq_cons_iff.1 ht₂
  have hk : t.kind = .ALT := by rw [Tok.kind, hlex]; rfl
  obtain ⟨hnv', as, has, hQ⟩ := h'.2 toks₂ rest ht₂ hr
  obtain ⟨hnv, es, hes, hP⟩ := h.2 toks₁ (t :: (toks₂ ++ rest)) ht₁ (by simp [Stuck, hk])
  refine ⟨?_, es :: as, ?_, es, as, rfl, hP, hQ⟩
  · intro x hx hk'
    rcases List.mem_append.1 hx with hx | hx
    · exact hnv x hx hk'
    · rcases List.mem_cons.1 hx with rfl | hx
      · rw [hk] at hk'
        cases hk'
      · exact hnv' x hx hk'
  · rw [List.append_assoc, List.cons_append]
    exact .cons hes hk has

/-- Sequences between slashes. -/
theorem phrase_alts {α : Type} {text : α → Text} {P : α → CSeq → Prop} {ms : List α} (hne : ms ≠ [])
    (h : ∀ m ∈ ms, ∃ ls, Phrase DSeq (text m) ls (P m)) :
    ∃ ls, Phrase DAlts ([' ', '/', ' '].intercalate (ms.map text)) ls fun as => List.Forall₂ P ms as := by
  induction ms with
  | nil => exact absurd rfl hne
  | cons m ms ih =>
    rw [List.forall_mem_cons] at h
    obtain ⟨ls, hm⟩ := h.1
    by_cases hms : ms = []
    · subst hms
      rw [List.map_singleton, List.intercalate_singleton]
      refine ⟨ls, (phrase_alts_single hm).mono ?_⟩
      rintro _ ⟨es, rfl, hes⟩
      exact .cons hes .nil
    · obtain ⟨ls', hrest⟩ := ih hms h.2
      have hspace : ∀ rest, LexesTo (' ' :: [' ', '/', ' '].intercalate (ms.map text) ++ rest)
          ([' ', '/', ' '].intercalate (ms.map text) ++ rest) [] := fun rest => .space .nil
      have hall := phrase_alts_cons hspace hm hrest
      rw [List.map_cons, List.intercalate_cons_of_ne_nil (by simpa using hms), List.append_assoc]
      refine ⟨_, hall.mono ?_⟩
      rintro _ ⟨es, as, rfl, hes, has⟩
      exact .cons hes has

end

/-! ## Reading -/

/-- A text is read as alternatives with a property: a rule it is the body of has those alone. -/
def ReadsAlts (s : Text) (Q : List (List (Element (NumericElement Units) JsNum)) → Prop) : Prop :=
  ∃ ls, Lexes s ls ∧ ∀ (name eq : Tok) (toks : List Tok), name.kind = .TX → eq.kind = .DEF →
    toks.map Tok.lex = ls → ∃ alts, Q alts ∧
      ∀ d₀ engine, (Ts.grammar Ts.numericOf).Implements .abnf d₀ engine →
        Ts.parseAbnf engine holesRejected (name :: eq :: toks) =
          .ok [{ name := name.text, alts, incremental := false, sp := some (spanOf name) }]

/-- What a text is read as, if it is read. -/
theorem ReadsAlts.holds {s : Text} {Q : List (List Ir) → Prop} (h : ReadsAlts s Q) : ∃ alts, Q alts := by
  obtain ⟨ls, -, hread⟩ := h
  rcases hread { lex := .TX [] } { lex := .DEF } (ls.map fun l => { lex := l }) rfl rfl (by simp [Function.comp_def])
    with ⟨alts, hQ, -⟩
  exact ⟨alts, hQ⟩

theorem ReadsAlts.mono {s : Text} {Q Q' : List (List Ir) → Prop} (h : ReadsAlts s Q) (hQ : ∀ as, Q as → Q' as) :
    ReadsAlts s Q' := by
  obtain ⟨ls, hl, hread⟩ := h
  refine ⟨ls, hl, fun name eq toks hn he ht => ?_⟩
  obtain ⟨alts, hQ', hparse⟩ := hread name eq toks hn he ht
  exact ⟨alts, hQ _ hQ', hparse⟩

/-- One element is one alternative of it. -/
theorem readsAs_iff {s : Text} {P : Ir → Prop} : ReadsAs s P ↔ ReadsAlts s fun as => ∃ e, as = [[e]] ∧ P e := by
  constructor
  · rintro ⟨ls, hl, h⟩
    refine ⟨ls, hl, fun name eq toks hn he ht => ?_⟩
    obtain ⟨e, hP, hparse⟩ := h name eq toks hn he ht
    exact ⟨_, ⟨e, rfl, hP⟩, hparse⟩
  · rintro ⟨ls, hl, h⟩
    refine ⟨ls, hl, fun name eq toks hn he ht => ?_⟩
    obtain ⟨_, ⟨e, rfl, hP⟩, hparse⟩ := h name eq toks hn he ht
    exact ⟨e, hP, hparse⟩

/-- What the tokens of a phrase parse to. -/
theorem Phrase.parse {s : Text} {ls : List Lexeme} {P : CAlts → Prop} (h : Phrase DAlts s ls P) {name eq : Tok}
    {toks : List Tok} (hn : name.kind = .TX) (he : eq.kind = .DEF) (ht : toks.map Tok.lex = ls) :
    ∃ as, P as ∧ ∀ d₀ engine, (Ts.grammar Ts.numericOf).Implements .abnf d₀ engine →
      Ts.parseAbnf engine holesRejected (name :: eq :: toks) =
        .ok [{ name := name.text, alts := altsIr as, incremental := false, sp := some (spanOf name) }] := by
  obtain ⟨hnv, as, has, hP⟩ := h.2 toks [] ht (by simp [Stuck])
  rw [List.append_nil] at has
  refine ⟨as, hP, fun d₀ engine himpl => ?_⟩
  have hhead : headOf (name :: eq :: toks) = some (.plain, name, toks) := by simp [headOf, headKind, hn, he]
  have hder : Derives (name :: eq :: toks) [⟨.plain, name, as⟩] := .one hhead has
  refine (parseAbnf_ok Ts.numericOf_refused Ts.numericOf_readable himpl _ _).2 ⟨_, hder, fun t hm hk => ?_, rfl⟩
  have htoks : t ∈ toks := by
    rcases List.mem_cons.1 hm with rfl | hm
    · rw [hn] at hk; cases hk
    · rcases List.mem_cons.1 hm with rfl | hm
      · rw [he] at hk; cases hk
      · exact hm
  rw [hnv t htoks hk]
  rfl

/-! ## Phrases read as they should be -/

/-- A text's phrase is read as what it should be exactly where a condition holds. -/
def ReadsIf {X Y : Type} (D : List Tok → List Tok → X → Prop) (f : X → Y) (s : Text) (Q : Y → Prop) (R : Prop) : Prop :=
  ∃ ls, Phrase D s ls fun x => Q (f x) ↔ R

/-- The elements that an atom's text is read as. -/
def atomsIr (x : CAtom × CSeq) : List Ir := atomIr x.1 :: seqIr x.2

def elemsIr (x : CElem × CSeq) : List Ir := elemIr x.1 :: seqIr x.2

/-- One element, with a property. -/
def One (Q : Ir → Prop) (es : List Ir) : Prop := ∃ e, es = [e] ∧ Q e

/-- A sequence's text is read as what it should be exactly where a condition holds, and as no fewer elements than it has
parts. -/
def SeqReadsIf (n : Nat) (s : Text) (Q : List Ir → Prop) (R : Prop) : Prop :=
  ∃ ls, Phrase DSeq s ls fun es => n ≤ es.length ∧ (Q (seqIr es) ↔ R)

theorem one_cons {Q : Ir → Prop} {e : Ir} {es : List Ir} : One Q (e :: es) ↔ es = [] ∧ Q e := by
  constructor
  · rintro ⟨_, ⟨rfl, rfl⟩, hQ⟩
    exact ⟨rfl, hQ⟩
  · rintro ⟨rfl, hQ⟩
    exact ⟨e, rfl, hQ⟩

theorem one_congr {Q Q' : Ir → Prop} (h : ∀ e, Q e ↔ Q' e) {es : List Ir} : One Q es ↔ One Q' es :=
  exists_congr fun e => and_congr_right fun _ => h e

theorem seqIr_cons (e : CElem) (es : CSeq) : seqIr (e :: es) = elemIr e :: seqIr es := rfl

theorem seqIr_append (es es' : CSeq) : seqIr (es ++ es') = seqIr es ++ seqIr es' := by
  induction es with
  | nil => rfl
  | cons e es ih => rw [List.cons_append, seqIr_cons, seqIr_cons, ih, List.cons_append]

theorem length_seqIr (es : CSeq) : (seqIr es).length = es.length := by
  induction es with
  | nil => rfl
  | cons e es ih => rw [seqIr_cons, List.length_cons, List.length_cons, ih]

theorem seqIr_eq_nil {es : CSeq} : seqIr es = [] ↔ es = [] := by
  rw [← List.length_eq_zero_iff, length_seqIr, List.length_eq_zero_iff]

section

variable {X Y : Type} {D : List Tok → List Tok → X → Prop} {f : X → Y} {s t : Text} {R R' : Prop}

theorem ReadsIf.congr {Q Q' : Y → Prop} (h : ReadsIf D f s Q R) (hQ : ∀ y, Q' y ↔ Q y) (hR : R' ↔ R) :
    ReadsIf D f s Q' R' := by
  obtain ⟨ls, hp⟩ := h
  exact ⟨ls, hp.mono fun x hx => by rw [hQ, hx, hR]⟩

theorem SeqReadsIf.congr {n : Nat} {Q Q' : List Ir → Prop} (h : SeqReadsIf n s Q R) (hQ : ∀ es, Q' es ↔ Q es)
    (hR : R' ↔ R) : SeqReadsIf n s Q' R' := by
  obtain ⟨ls, hp⟩ := h
  exact ⟨ls, hp.mono fun es hes => ⟨hes.1, by rw [hQ, hes.2, hR]⟩⟩

theorem ReadsIf.of_atom {P Q : Ir → Prop} (h : AtomText s P) (hPQ : ∀ e, P e → Q e) :
    ReadsIf DAtoms atomsIr s (One Q) True := by
  obtain ⟨ls, hp⟩ := h.phrase
  refine ⟨ls, hp.mono ?_⟩
  rintro ⟨a, es⟩ ⟨hes, ha⟩
  rw [atomsIr, one_cons, seqIr_eq_nil]
  exact iff_true_intro ⟨hes, hPQ _ ha⟩

theorem ReadsIf.name (h : isRuleName s = true) : ReadsIf DAtoms atomsIr s (One fun e => ∃ sp, e = .ref s sp) True := by
  refine ⟨_, (phrase_name h).mono ?_⟩
  rintro ⟨a, es⟩ ⟨hes, ha⟩
  rw [atomsIr, one_cons, seqIr_eq_nil]
  exact iff_true_intro ⟨hes, ha⟩

theorem ReadsIf.once {Q : List Ir → Prop} (h : ReadsIf DAtoms atomsIr s Q R) : ReadsIf DElems elemsIr s Q R := by
  obtain ⟨ls, hp⟩ := h
  refine ⟨ls, (phrase_once hp).mono ?_⟩
  rintro ⟨⟨r, a⟩, es⟩ ⟨rfl, ha⟩
  exact ha

/-- Alternatives in brackets. -/
theorem ReadsIf.bracket {Q : List (List Ir) → Prop} {Q' : Ir → Prop} (g : GroupKind) {op cl : Char}
    (hop : g.opening.fixed = some [op]) (hcl : g.closing.fixed = some [cl])
    (hQ : ∀ t t' as, Q' (atomIr (.group g t t' as)) ↔ Q (altsIr as)) (h : ReadsIf DAlts altsIr s Q R) :
    ReadsIf DAtoms atomsIr ([op, ' '] ++ s ++ [' ', cl]) (One Q') R := by
  obtain ⟨ls, hp⟩ := h
  refine ⟨_, (phrase_bracket g hop hcl hp).mono ?_⟩
  rintro ⟨_, es⟩ ⟨hes, t, t', as, rfl, ha⟩
  rw [atomsIr, one_cons, seqIr_eq_nil, hQ, ha]
  exact and_iff_right hes

theorem ReadsIf.single {Q : List Ir → Prop} (h : ReadsIf DElems elemsIr s Q R) : SeqReadsIf 1 s Q R := by
  obtain ⟨ls, hp⟩ := h
  refine ⟨ls, (phrase_seq_single hp).mono ?_⟩
  rintro _ ⟨x, rfl, hx⟩
  exact ⟨by simp, hx⟩

/-- What is written for an element may be read as several; a sequence that is read as no more than it has is read as
one element for each. -/
theorem SeqReadsIf.cons {n : Nat} {Q : Ir → Prop} {Q' : List Ir → Prop} (h : ReadsIf DElems elemsIr s (One Q) R)
    (h' : SeqReadsIf n t Q' R') (hn : ∀ es, Q' es → es.length = n) :
    SeqReadsIf (n + 1) (s ++ ' ' :: t) (fun es => ∃ e es', es = e :: es' ∧ Q e ∧ Q' es') (R ∧ R') := by
  obtain ⟨ls, hp⟩ := h
  obtain ⟨ls', hp'⟩ := h'
  refine ⟨_, (phrase_seq_cons hp hp').mono ?_⟩
  rintro _ ⟨⟨e, es⟩, es', rfl, he, hlen, hes⟩
  rw [elemsIr, one_cons, seqIr_eq_nil] at he
  refine ⟨by simp only [List.length_cons, List.length_append]; omega, ?_⟩
  rw [seqIr_cons, seqIr_append, ← he, ← hes]
  constructor
  · rintro ⟨_, _, heq, hQ, hQ'⟩
    cases heq
    have hnil : es = [] := by
      have hall := hn _ hQ'
      rw [List.length_append, length_seqIr, length_seqIr] at hall
      dsimp only at hall
      exact List.length_eq_zero_iff.1 (by omega)
    subst hnil
    exact ⟨⟨rfl, hQ⟩, hQ'⟩
  · rintro ⟨⟨rfl, hQ⟩, hQ'⟩
    exact ⟨_, _, rfl, hQ, hQ'⟩

theorem SeqReadsIf.alternative {n : Nat} {Q : List Ir → Prop} (h : SeqReadsIf n s Q R) :
    ReadsIf DAlts altsIr s (fun as => ∃ es, as = [es] ∧ Q es) R := by
  obtain ⟨ls, hp⟩ := h
  refine ⟨ls, (phrase_alts_single hp).mono ?_⟩
  rintro _ ⟨es, rfl, -, ha⟩
  rw [← ha]
  constructor
  · rintro ⟨e, he, hQ⟩
    cases he
    exact hQ
  · exact fun hQ => ⟨_, rfl, hQ⟩

theorem SeqReadsIf.slash {n : Nat} {w : Text} {Q : List Ir → Prop} {Q' : List (List Ir) → Prop}
    (hw : ∀ rest, LexesTo (w ++ rest) (t ++ rest) []) (h : SeqReadsIf n s Q R) (h' : ReadsIf DAlts altsIr t Q' R') :
    ReadsIf DAlts altsIr (s ++ ' ' :: '/' :: w) (fun as => ∃ es as', as = es :: as' ∧ Q es ∧ Q' as') (R ∧ R') := by
  obtain ⟨ls, hp⟩ := h
  obtain ⟨ls', hp'⟩ := h'
  refine ⟨_, (phrase_alts_cons hw hp hp').mono ?_⟩
  rintro _ ⟨es, as, rfl, ⟨-, hes⟩, has⟩
  rw [← hes, ← has]
  constructor
  · rintro ⟨e, es', he, hQ⟩
    cases he
    exact hQ
  · exact fun hQ => ⟨_, _, rfl, hQ⟩

/-- A text is read as what it should be exactly where the condition holds. -/
theorem ReadsIf.reads {Q : List (List Ir) → Prop} (h : ReadsIf DAlts altsIr s Q R) : ReadsAlts s Q ↔ R := by
  obtain ⟨ls, hp⟩ := h
  constructor
  · rintro ⟨ls', hlex, hread⟩
    cases hlex.unique hp.1.lexes
    let toks : List Tok := ls.map fun l => { lex := l }
    have htoks : toks.map Tok.lex = ls := by simp [toks, Function.comp_def]
    obtain ⟨alts, hQ, hparse⟩ := hread { lex := .TX [] } { lex := .DEF } toks rfl rfl htoks
    obtain ⟨as, hR, hparse'⟩ := @Phrase.parse _ _ _ hp { lex := .TX [] } { lex := .DEF } toks rfl rfl htoks
    have hboth := (hparse 0 (Ts.numericEngine 0) (Grammar.engine_implements _ _ _ _)).symm.trans
      (hparse' 0 (Ts.numericEngine 0) (Grammar.engine_implements _ _ _ _))
    simp only [Except.ok.injEq, List.cons.injEq, Production.mk.injEq, and_true, true_and] at hboth
    subst hboth
    exact hR.1 hQ
  · intro hR
    refine ⟨ls, hp.1.lexes, fun name eq toks hn he ht => ?_⟩
    obtain ⟨as, hQ, hparse⟩ := hp.parse hn he ht
    exact ⟨_, hQ.2 hR, hparse⟩

/-- The same of a text in one element's place. -/
theorem ReadsIf.reads_as {Q : Ir → Prop} (h : ReadsIf DAtoms atomsIr s (One Q) R) : ReadsAs s Q ↔ R := by
  rw [readsAs_iff, ← h.once.single.alternative.reads]
  have hone : ∀ as : List (List Ir), (∃ e, as = [[e]] ∧ Q e) ↔ ∃ es, as = [es] ∧ One Q es := by
    intro as
    constructor
    · rintro ⟨e, rfl, hQ⟩
      exact ⟨_, rfl, e, rfl, hQ⟩
    · rintro ⟨_, rfl, e, rfl, hQ⟩
      exact ⟨e, rfl, hQ⟩
  simp only [hone]

end

end TabnasAbnf.Meta
