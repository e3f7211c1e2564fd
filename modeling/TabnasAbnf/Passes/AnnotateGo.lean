/-
Value annotations in the Go port against TypeScript's. Go trims U+0085 where TypeScript trims U+FEFF,
its `\s` is five characters of ASCII, its `.` goes on over every character but a line feed, and it
splits members at spaces, tabs and commas alone. Whether this shows is a matter of each comment.
-/
import TabnasAbnf.Passes.AnnotatePorts
import TabnasAbnf.Meta.Lexer

namespace TabnasAbnf.Passes

open TabnasAbnf.Base TabnasAbnf.Meta

/-! ## A comment in three -/

/-- A character that TypeScript or Go trims. -/
def isBlank (c : Char) : Bool := isSpace c || Go.IsSpace c

/-- The blanks a comment begins with, what stands between the blanks, and the blanks it ends with. -/
def lead (raw : Text) : Text := raw.takeWhile isBlank

def core (raw : Text) : Text := ((raw.dropWhile isBlank).reverse.dropWhile isBlank).reverse

def trail (raw : Text) : Text := ((raw.dropWhile isBlank).reverse.takeWhile isBlank).reverse

/-- Whether Go's words after a keyword are TypeScript's: past the run of spaces Go takes, no blank
but a space or a tab. -/
def AlikeWords (body : Text) : Prop :=
  ∀ kind rest, keyword? body = some (kind, rest) → rest.head?.any isWord = false →
    ∀ c ∈ rest.dropWhile Go.reSpace, isSpace c = true → c = ' ' ∨ c = '\t'

/-- A comment Go reads as TypeScript does. If it begins with `@` behind its blanks, either both of
U+0085 and U+FEFF are among those, so that no port finds the `@`, or neither is there or among the
blanks it ends with, and the words are alike. -/
def Alike (raw : Text) : Prop :=
  (core raw).head? = some '@' →
    ('\u0085' ∈ lead raw ∧ '\ufeff' ∈ lead raw) ∨
      (('\u0085' ∉ lead raw ∧ '\ufeff' ∉ lead raw) ∧ ('\u0085' ∉ trail raw ∧ '\ufeff' ∉ trail raw) ∧
        AlikeWords (core raw))

theorem cut_eq (raw : Text) : raw = lead raw ++ (core raw ++ trail raw) := by
  unfold lead core trail
  rw [← List.reverse_append, List.takeWhile_append_dropWhile, List.reverse_reverse, List.takeWhile_append_dropWhile]

theorem lead_blank {raw : Text} : ∀ c ∈ lead raw, isBlank c = true := fun _ hc => List.mem_takeWhile_imp hc

theorem trail_blank {raw : Text} : ∀ c ∈ trail raw, isBlank c = true := fun _ hc =>
  List.mem_takeWhile_imp (List.mem_reverse.1 hc)

theorem dropWhile_head {p : Char → Bool} {s : Text} {c : Char} (h : (s.dropWhile p).head? = some c) : p c = false := by
  have hfirst := List.head?_dropWhile_not p s
  rw [h] at hfirst
  exact hfirst

theorem core_last {raw : Text} {c : Char} (h : (core raw).getLast? = some c) : isBlank c = false := by
  unfold core at h
  rw [List.getLast?_reverse] at h
  exact dropWhile_head h

theorem core_first {raw : Text} {c : Char} (h : (core raw).head? = some c) : isBlank c = false := by
  have hfirst : (raw.dropWhile isBlank).head? = some c := by
    have hcut : raw.dropWhile isBlank = core raw ++ trail raw := by
      unfold core trail
      rw [← List.reverse_append, List.takeWhile_append_dropWhile, List.reverse_reverse]
    rw [hcut, List.head?_append, h]
    rfl
  exact dropWhile_head hfirst

/-- No blanks stand behind an empty core. -/
theorem trail_of_core_nil {raw : Text} (h : core raw = []) : trail raw = [] := by
  by_contra hne
  have hcut : raw.dropWhile isBlank = core raw ++ trail raw := by
    unfold core trail
    rw [← List.reverse_append, List.takeWhile_append_dropWhile, List.reverse_reverse]
  rw [h, List.nil_append] at hcut
  obtain ⟨c, cs, hc⟩ := List.exists_cons_of_ne_nil hne
  have hfirst : isBlank c = false := dropWhile_head (by rw [hcut, hc]; rfl)
  have hblank := trail_blank c (by rw [hc]; exact List.mem_cons_self)
  rw [hfirst] at hblank
  cases hblank

/-! ## Trimming -/

section

variable {p : Char → Bool}

/-- Trimming at a text's end. -/
def trimEnd (p : Char → Bool) (s : Text) : Text := (s.reverse.dropWhile p).reverse

theorem trimEnd_append {s t : Text} {c : Char} (hc : s.getLast? = some c) (hp : p c = false) :
    trimEnd p (s ++ t) = s ++ trimEnd p t := by
  unfold trimEnd
  rw [List.reverse_append, List.dropWhile_append]
  split
  · rename_i h
    have hrev : s.reverse.dropWhile p = s.reverse := by
      cases hs : s.reverse with
      | nil => rfl
      | cons d ds =>
        have hd : d = c := by
          rw [← List.head?_reverse, hs] at hc
          exact Option.some.inj hc
        rw [hd, List.dropWhile_cons_of_neg (by simp [hp])]
    rw [List.isEmpty_iff.1 h, hrev, List.reverse_reverse, List.reverse_nil, List.append_nil]
  · rw [List.reverse_append, List.reverse_reverse]

/-- Trimming takes all of a text whose characters are all trimmed, and else leaves it with a last
character that is not. -/
theorem trimEnd_eq_nil {s : Text} : trimEnd p s = [] ↔ ∀ c ∈ s, p c = true := by
  unfold trimEnd
  rw [List.reverse_eq_nil_iff, List.dropWhile_eq_nil_iff]
  simp

theorem trimEnd_last {s : Text} {c : Char} (h : (trimEnd p s).getLast? = some c) : p c = false ∧ c ∈ s := by
  unfold trimEnd at h
  rw [List.getLast?_reverse] at h
  refine ⟨dropWhile_head h, ?_⟩
  have hm := List.mem_of_mem_head? (h ▸ rfl : c ∈ (s.reverse.dropWhile p).head?)
  exact List.mem_reverse.1 ((List.dropWhile_sublist _).subset hm)

/-- A comment as a port that trims only blanks finds it: where all of its first blanks are trimmed
and it begins with `@` behind them. -/
theorem found_eq (hp : ∀ c, p c = true → isBlank c = true) (start : Nat) (raw : Text) :
    found (fun s => trimEnd p (s.dropWhile p)) (start, raw) =
      if (core raw).head? = some '@' ∧ (lead raw).all p = true then
        some ⟨start, core raw ++ trimEnd p (trail raw)⟩ else none := by
  have hnot : ∀ c, isBlank c = false → p c = false := by
    intro c hc
    by_contra h
    rw [hp c (by simpa using h)] at hc
    cases hc
  have hat : isBlank '@' = false := by decide
  -- the blanks in front are all trimmed, or one of them is left in front
  by_cases hall : (lead raw).all p = true
  · have hdrop : raw.dropWhile p = (core raw ++ trail raw).dropWhile p := by
      conv_lhs => rw [cut_eq raw]
      exact List.dropWhile_append_of_pos (List.all_eq_true.1 hall)
    cases hcore : core raw with
    | nil =>
      rw [hcore, trail_of_core_nil hcore] at hdrop
      rw [found, hdrop]
      rfl
    | cons c cs =>
      have hc : p c = false := hnot c (core_first (by rw [hcore]; rfl))
      obtain ⟨d, hd⟩ : ∃ d, (core raw).getLast? = some d := by
        rw [hcore]
        exact ⟨_, List.getLast?_cons⟩
      have htrim : trimEnd p (raw.dropWhile p) = core raw ++ trimEnd p (trail raw) := by
        rw [hdrop, hcore, List.cons_append, List.dropWhile_cons_of_neg (by simp [hc]), ← List.cons_append, ← hcore,
          trimEnd_append hd (hnot d (core_last hd))]
      rw [found, htrim, hcore]
      simp [hall]
  · -- a blank that is not trimmed stands first
    have hne : (lead raw).dropWhile p ≠ [] := by
      intro hnil
      rw [List.dropWhile_eq_nil_iff] at hnil
      exact hall (List.all_eq_true.2 hnil)
    obtain ⟨d, ds, hd⟩ := List.exists_cons_of_ne_nil hne
    have hdp : p d = false := dropWhile_head (by rw [hd]; rfl)
    have hdrop : raw.dropWhile p = d :: (ds ++ (core raw ++ trail raw)) := by
      conv_lhs => rw [cut_eq raw, List.dropWhile_append, hd]
      rfl
    have hblank : isBlank d = true :=
      lead_blank d ((List.dropWhile_sublist _).subset (by rw [hd]; exact List.mem_cons_self))
    have htrim : trimEnd p (raw.dropWhile p) = d :: trimEnd p (ds ++ (core raw ++ trail raw)) := by
      rw [hdrop, ← List.singleton_append, trimEnd_append List.getLast?_singleton hdp]
      rfl
    rw [found, htrim, if_neg, if_neg fun h => hall h.2]
    rw [List.head?_cons, Option.some.injEq]
    rintro rfl
    rw [hat] at hblank
    cases hblank

end

/-- Of the blanks, TypeScript leaves U+0085 and Go leaves U+FEFF. -/
theorem blank_cases {c : Char} (h : isBlank c = true) :
    (isSpace c = true ↔ c ≠ '\u0085') ∧ (Go.IsSpace c = true ↔ c ≠ '\ufeff') := by
  by_cases hnel : c = '\u0085'
  · subst hnel
    decide
  · by_cases hbom : c = '\ufeff'
    · subst hbom
      decide
    · have hsame : isSpace c = Go.IsSpace c := by simp [isSpace, Go.IsSpace, hnel, hbom]
      rw [isBlank, ← hsame, Bool.or_self] at h
      rw [← hsame, h]
      exact ⟨iff_of_true rfl hnel, iff_of_true rfl hbom⟩

/-- Blanks are all trimmed where the one the port leaves is not among them. -/
theorem all_isSpace {s : Text} (h : ∀ c ∈ s, isBlank c = true) :
    (∀ c ∈ s, isSpace c = true) ↔ '\u0085' ∉ s := by
  constructor
  · intro hall hm
    cases hall _ hm
  · intro hnot c hc
    refine (blank_cases (h c hc)).1.2 ?_
    rintro rfl
    exact hnot hc

theorem all_IsSpace {s : Text} (h : ∀ c ∈ s, isBlank c = true) :
    (∀ c ∈ s, Go.IsSpace c = true) ↔ '\ufeff' ∉ s := by
  constructor
  · intro hall hm
    cases hall _ hm
  · intro hnot c hc
    refine (blank_cases (h c hc)).2.2 ?_
    rintro rfl
    exact hnot hc

/-- Blanks at an end are trimmed alike where both ports trim all of them. -/
theorem trimEnd_blank_eq {s : Text} (h : ∀ c ∈ s, isBlank c = true) :
    trimEnd isSpace s = trimEnd Go.IsSpace s ↔ '\u0085' ∉ s ∧ '\ufeff' ∉ s := by
  constructor
  · intro heq
    have hnil : trimEnd isSpace s = [] := by
      by_contra hne
      obtain ⟨c, hc⟩ : ∃ c, (trimEnd isSpace s).getLast? = some c := ⟨_, List.getLast?_eq_some_getLast hne⟩
      obtain ⟨hts, hm⟩ := trimEnd_last hc
      rw [heq] at hc
      obtain ⟨hgo, -⟩ := trimEnd_last hc
      have hblank := h c hm
      rw [isBlank, hts, hgo] at hblank
      cases hblank
    refine ⟨(all_isSpace h).1 (trimEnd_eq_nil.1 hnil), (all_IsSpace h).1 (trimEnd_eq_nil.1 ?_)⟩
    rw [← heq, hnil]
  · rintro ⟨hnel, hbom⟩
    rw [trimEnd_eq_nil.2 ((all_isSpace h).2 hnel), trimEnd_eq_nil.2 ((all_IsSpace h).2 hbom)]

/-! ## Claims -/

theorem reSpace_isSpace {c : Char} (h : Go.reSpace c = true) : isSpace c = true := by
  simp only [Go.reSpace, List.mem_cons, List.not_mem_nil, or_false, decide_eq_true_eq] at h
  rcases h with rfl | rfl | rfl | rfl | rfl <;> decide

theorem isLineTerminator_isSpace {c : Char} (h : isLineTerminator c = true) :
    isSpace c = true ∧ c ≠ ' ' ∧ c ≠ '\t' := by
  simp only [isLineTerminator, List.mem_cons, List.not_mem_nil, or_false, decide_eq_true_eq] at h
  rcases h with rfl | rfl | rfl | rfl <;> decide

theorem not_sep_of_part {sep : Char → Bool} {s part : Text} (h : part ∈ s.splitOnP sep) :
    ∀ c ∈ part, sep c = false := by
  induction s generalizing part with
  | nil =>
    rw [List.splitOnP_nil, List.mem_singleton] at h
    rw [h]
    intro c hc
    cases hc
  | cons d s ih =>
    rw [List.splitOnP_cons_eq_if_modifyHead] at h
    split at h
    · rcases List.mem_cons.1 h with rfl | h
      · intro c hc
        cases hc
      · exact ih h
    · rename_i hd
      obtain ⟨q, qs, hq⟩ := List.exists_cons_of_ne_nil (List.splitOnP_ne_nil sep s)
      rw [hq, List.modifyHead_cons, List.mem_cons] at h
      rcases h with rfl | h
      · intro c hc
        rcases List.mem_cons.1 hc with rfl | hc
        · simpa using hd
        · exact ih (hq ▸ List.mem_cons_self) c hc
      · exact ih (hq ▸ List.mem_cons_of_mem _ h)

/-- A character that separates nothing is in a word, and no word holds one that does. -/
theorem mem_wordsBetween {sep : Char → Bool} {s : Text} {c : Char} (hc : c ∈ s) (hs : sep c = false) :
    ∃ w ∈ wordsBetween sep s, c ∈ w := by
  obtain ⟨part, hp, hm⟩ := mem_splitOnP hs hc
  refine ⟨part, List.mem_filter.2 ⟨hp, ?_⟩, hm⟩
  rw [decide_eq_true_eq]
  rintro rfl
  cases hm

theorem not_sep_of_word {sep : Char → Bool} {s w : Text} (hw : w ∈ wordsBetween sep s) : ∀ c ∈ w, sep c = false :=
  not_sep_of_part (List.mem_filter.1 hw).1

theorem splitOnP_congr {p q : Char → Bool} {s : Text} (h : ∀ c ∈ s, p c = q c) : s.splitOnP p = s.splitOnP q := by
  induction s with
  | nil => rfl
  | cons c s ih =>
    rw [List.splitOnP_cons_eq_if_modifyHead, List.splitOnP_cons_eq_if_modifyHead, h c List.mem_cons_self,
      ih fun d hd => h d (List.mem_cons_of_mem _ hd)]

theorem after_eq {ps s rest : Text} (h : after ps s = some rest) : s = ps ++ rest := by
  induction ps generalizing s with
  | nil =>
    rw [after] at h
    exact Option.some.inj h
  | cons p ps ih =>
    cases s with
    | nil => cases h
    | cons c cs =>
      rw [after] at h
      split at h
      · rename_i hpc
        rw [hpc, List.cons_append, ← ih h]
      · cases h

theorem keyword?_suffix {body rest : Text} {kind : ClaimKind} (h : keyword? body = some (kind, rest)) :
    ∃ pre, body = pre ++ rest := by
  unfold keyword? at h
  cases hobj : after ['@', 'o', 'b', 'j', 'e', 'c', 't'] body with
  | some r =>
    rw [hobj] at h
    cases h
    exact ⟨_, after_eq hobj⟩
  | none =>
    rw [hobj] at h
    cases harr : after ['@', 'a', 'r', 'r', 'a', 'y'] body with
    | some r =>
      rw [harr] at h
      cases h
      exact ⟨_, after_eq harr⟩
    | none =>
      rw [harr] at h
      cases h

/-- Past Go's spaces, a text without a blank of TypeScript's alone is what both read. -/
theorem dropWhile_alike {rest : Text} (h : ∀ c ∈ rest.dropWhile Go.reSpace, isSpace c = true → c = ' ' ∨ c = '\t') :
    rest.dropWhile isSpace = rest.dropWhile Go.reSpace := by
  have hcut : rest.dropWhile isSpace = (rest.dropWhile Go.reSpace).dropWhile isSpace := by
    conv_lhs => rw [← List.takeWhile_append_dropWhile (p := Go.reSpace) (l := rest)]
    exact List.dropWhile_append_of_pos fun c hc => reSpace_isSpace (List.mem_takeWhile_imp hc)
  rw [hcut]
  cases hd : rest.dropWhile Go.reSpace with
  | nil => rfl
  | cons c cs =>
    have hgo : Go.reSpace c = false := dropWhile_head (by rw [hd]; rfl)
    refine List.dropWhile_cons_of_neg fun hs => ?_
    rcases h c (by rw [hd]; exact List.mem_cons_self) hs with rfl | rfl
    · cases hgo
    · cases hgo

/-- Go reads the words after a keyword as TypeScript does exactly where they hold no blank of
TypeScript's alone. -/
theorem words_eq_iff {rest : Text} (hlf : '\n' ∉ rest) :
    (spacesThenLine Go.reSpace Go.reDot rest).map (wordsBetween fun c => c == ' ' || c == '\t' || c == ',') =
        (spacesThenLine isSpace (fun c => !isLineTerminator c) rest).map (wordsBetween fun c => isSpace c || c == ',') ↔
      ∀ c ∈ rest.dropWhile Go.reSpace, isSpace c = true → c = ' ' ∨ c = '\t' := by
  have hdot : (rest.dropWhile Go.reSpace).all Go.reDot = true := by
    rw [List.all_eq_true]
    intro c hc
    rw [Go.reDot, decide_eq_true_eq]
    rintro rfl
    exact hlf ((List.dropWhile_sublist _).subset hc)
  rw [spacesThenLine_eq, spacesThenLine_eq, if_pos hdot, Option.map_some]
  constructor
  · intro h c hc hs
    by_contra hne
    rw [not_or] at hne
    split at h
    · rw [Option.map_some, Option.some.injEq] at h
      -- a separator of the one that the other keeps stands within a word there
      have hcomma : c ≠ ',' := by
        rintro rfl
        cases hs
      obtain ⟨w, hw, hcw⟩ : ∃ w ∈ wordsBetween (fun c => c == ' ' || c == '\t' || c == ',') (rest.dropWhile Go.reSpace),
          c ∈ w := mem_wordsBetween hc (by simp [hne.1, hne.2, hcomma])
      rw [h] at hw
      have hnot := not_sep_of_word hw c hcw
      rw [hs] at hnot
      cases hnot
    · cases h
  · intro h
    have hline : (rest.dropWhile Go.reSpace).all (fun c => !isLineTerminator c) = true := by
      rw [List.all_eq_true]
      intro c hc
      rw [Bool.not_eq_true']
      by_contra hlt
      obtain ⟨hs, h₁, h₂⟩ := isLineTerminator_isSpace (by simpa using hlt)
      rcases h c hc hs with hc | hc
      · exact h₁ hc
      · exact h₂ hc
    -- the two agree on what separates, and no line ends here
    have hsep : ∀ c ∈ rest.dropWhile Go.reSpace, (c == ' ' || c == '\t' || c == ',') = (isSpace c || c == ',') := by
      intro c hc
      cases hs : isSpace c with
      | true => rcases h c hc hs with rfl | rfl <;> rfl
      | false =>
        have h₁ : (c == ' ') = false := by
          rw [beq_eq_false_iff_ne]
          rintro rfl
          cases hs
        have h₂ : (c == '\t') = false := by
          rw [beq_eq_false_iff_ne]
          rintro rfl
          cases hs
        rw [h₁, h₂]
        rfl
    rw [dropWhile_alike h, if_pos hline, Option.map_some, wordsBetween, wordsBetween, splitOnP_congr hsep]

/-- Go claims of a comment what TypeScript does exactly where its words are alike. -/
theorem claim_eq_iff {c : Comment} (hlf : '\n' ∉ c.body) : Go.claim c = claim? c ↔ AlikeWords c.body := by
  rw [claim?_eq, Go.claim, claimBy, claimBy, captures, captures]
  cases hk : keyword? c.body with
  | none =>
    refine iff_of_true rfl fun kind rest h => ?_
    rw [hk] at h
    cases h
  | some m =>
    obtain ⟨kind, rest⟩ := m
    have hwords : AlikeWords c.body ↔ (rest.head?.any isWord = false →
        ∀ c ∈ rest.dropWhile Go.reSpace, isSpace c = true → c = ' ' ∨ c = '\t') := by
      constructor
      · exact fun h => h kind rest hk
      · intro h kind' rest' hk'
        rw [hk] at hk'
        cases hk'
        exact h
    rw [hwords]
    simp only
    cases hw : rest.head?.any isWord with
    | true => exact iff_of_true rfl fun h => absurd h (by simp)
    | false =>
      obtain ⟨pre, hpre⟩ := keyword?_suffix hk
      have hrest : '\n' ∉ rest := fun hm => hlf (by rw [hpre]; exact List.mem_append_right _ hm)
      have hmk : ∀ (o : Option Text) (sep : Char → Bool),
          (o.map (kind, ·)).map (fun m => (⟨c.start, c.body, m.1, wordsBetween sep m.2⟩ : Claim)) =
            (o.map (wordsBetween sep)).map (⟨c.start, c.body, kind, ·⟩) := by
        intro o sep
        rw [Option.map_map, Option.map_map]
        rfl
      have hinj : Function.Injective (fun ws => (⟨c.start, c.body, kind, ws⟩ : Claim)) := by
        intro ws ws' h
        cases h
        rfl
      rw [if_neg Bool.false_ne_true, if_neg Bool.false_ne_true, hmk, hmk, (Option.map_injective hinj).eq_iff,
        words_eq_iff hrest]
      exact ⟨fun h _ => h, fun h => h rfl⟩

/-! ## Comments -/

/-- Go finds and claims of a comment what TypeScript does exactly where it is alike. -/
theorem alike_iff {start : Nat} {raw : Text} (hlf : '\n' ∉ raw) :
    (found trim (start, raw) = found Go.TrimSpace (start, raw) ∧
      ∀ c, found Go.TrimSpace (start, raw) = some c → Go.claim c = claim? c) ↔ Alike raw := by
  have hts : found trim (start, raw) = if (core raw).head? = some '@' ∧ (lead raw).all isSpace = true then
      some ⟨start, core raw ++ trimEnd isSpace (trail raw)⟩ else none :=
    found_eq (fun c h => by rw [isBlank, h, Bool.true_or]) start raw
  have hgo : found Go.TrimSpace (start, raw) = if (core raw).head? = some '@' ∧ (lead raw).all Go.IsSpace = true then
      some ⟨start, core raw ++ trimEnd Go.IsSpace (trail raw)⟩ else none :=
    found_eq (fun c h => by rw [isBlank, h, Bool.or_true]) start raw
  rw [hts, hgo]
  unfold Alike
  by_cases hat : (core raw).head? = some '@'
  · have hnel : (lead raw).all isSpace = true ↔ '\u0085' ∉ lead raw :=
      List.all_eq_true.trans (all_isSpace lead_blank)
    have hbom : (lead raw).all Go.IsSpace = true ↔ '\ufeff' ∉ lead raw :=
      List.all_eq_true.trans (all_IsSpace lead_blank)
    simp only [hat, true_and, hnel, hbom, true_implies]
    by_cases h₁ : '\u0085' ∈ lead raw
    · by_cases h₂ : '\ufeff' ∈ lead raw
      · simp [h₁, h₂]
      · simp [h₁, h₂]
    · by_cases h₂ : '\ufeff' ∈ lead raw
      · simp [h₁, h₂]
      · rw [if_pos h₁, if_pos h₂]
        simp only [h₁, h₂, not_false_eq_true, and_self, false_or, true_and, Option.some.injEq,
          Comment.mk.injEq, List.append_cancel_left_eq, forall_eq']
        rw [trimEnd_blank_eq trail_blank]
        refine and_congr_right fun htrail => ?_
        have hnil : trimEnd Go.IsSpace (trail raw) = [] := trimEnd_eq_nil.2 ((all_IsSpace trail_blank).2 htrail.2)
        rw [hnil, List.append_nil]
        refine claim_eq_iff fun hm => hlf ?_
        rw [cut_eq raw]
        exact List.mem_append_right _ (List.mem_append_left _ hm)
  · simp [hat]

/-- The least offset a scan can still find a comment at. -/
def Scan.least (i : Nat) : Scan → Nat
  | .comment start _ => start
  | _ => i

/-- A scan finds comments one after the other, none of them over a line feed. -/
theorem rawComments_order {s : Scan} {i : Nat} {cs : Text} (hs : s.least i ≤ i)
    (hbody : ∀ start body, s = .comment start body → start < i ∧ '\n' ∉ body) :
    (rawComments (fun _ => 1) s i cs).Pairwise (fun r r' => r.1 < r'.1) ∧
      ∀ r ∈ rawComments (fun _ => 1) s i cs, s.least i ≤ r.1 ∧ '\n' ∉ r.2 := by
  induction cs generalizing s i with
  | nil =>
    cases s with
    | content => exact ⟨.nil, fun r hr => by cases hr⟩
    | quoted close => exact ⟨.nil, fun r hr => by cases hr⟩
    | comment start body =>
      refine ⟨List.pairwise_singleton _ _, fun r hr => ?_⟩
      rw [rawComments, List.mem_singleton] at hr
      rw [hr]
      exact ⟨le_rfl, (hbody start body rfl).2⟩
  | cons c cs ih =>
    -- in content and in quotes every later comment begins behind this place
    have hnext : ∀ s' : Scan, s'.least (i + 1) ≤ i + 1 → i ≤ s'.least (i + 1) →
        (∀ start body, s' = .comment start body → start < i + 1 ∧ '\n' ∉ body) →
        (rawComments (fun _ => 1) s' (i + 1) cs).Pairwise (fun r r' => r.1 < r'.1) ∧
          ∀ r ∈ rawComments (fun _ => 1) s' (i + 1) cs, i ≤ r.1 ∧ '\n' ∉ r.2 := by
      intro s' hs' hi hb
      obtain ⟨hpair, hall⟩ := ih hs' hb
      exact ⟨hpair, fun r hr => ⟨le_trans hi (hall r hr).1, (hall r hr).2⟩⟩
    have hplain : ∀ s' : Scan, s'.least (i + 1) = i + 1 → (∀ start body, s' ≠ .comment start body) →
        (rawComments (fun _ => 1) s' (i + 1) cs).Pairwise (fun r r' => r.1 < r'.1) ∧
          ∀ r ∈ rawComments (fun _ => 1) s' (i + 1) cs, i ≤ r.1 ∧ '\n' ∉ r.2 := fun s' hs' hb =>
      hnext s' (by omega) (by omega) fun start body h => absurd h (hb start body)
    cases s with
    | content =>
      rw [rawComments]
      split
      · exact hplain (.quoted '"') rfl (by simp)
      · split
        · exact hplain (.quoted '>') rfl (by simp)
        · split
          · refine hnext (.comment i []) (Nat.le_succ i) le_rfl fun start body h => ?_
            cases h
            exact ⟨Nat.lt_succ_self i, by simp⟩
          · exact hplain .content rfl (by simp)
    | quoted close =>
      rw [rawComments]
      split
      · exact hplain .content rfl (by simp)
      · exact hplain (.quoted close) rfl (by simp)
    | comment start body =>
      obtain ⟨hstart, hlf⟩ := hbody start body rfl
      rw [rawComments]
      split
      · obtain ⟨hpair, hall⟩ := hplain .content rfl (by simp)
        constructor
        · exact List.pairwise_cons.2 ⟨fun r hr => lt_of_lt_of_le hstart (hall r hr).1, hpair⟩
        · intro r hr
          rcases List.mem_cons.1 hr with rfl | hr
          · exact ⟨le_rfl, hlf⟩
          · exact ⟨le_trans hstart.le (hall r hr).1, (hall r hr).2⟩
      · rename_i hc
        refine ih (s := .comment start (body ++ [c])) (by simp only [Scan.least]; omega) fun start' body' h => ?_
        cases h
        refine ⟨by omega, ?_⟩
        rw [List.mem_append, List.mem_singleton, not_or]
        exact ⟨hlf, Ne.symm hc⟩

theorem commentsOf_order (src : Text) :
    (commentsOf src).Pairwise (fun r r' => r.1 < r'.1) ∧ ∀ r ∈ commentsOf src, '\n' ∉ r.2 := by
  obtain ⟨hpair, hall⟩ := @rawComments_order .content 0 src le_rfl fun _ _ h => by cases h
  exact ⟨hpair, fun r hr => (hall r hr).2⟩

/-- Comments at different places are found one by one. -/
theorem filterMap_found_eq {trim' : Text → Text} {raws : List (Nat × Text)}
    (hraws : raws.Pairwise fun r r' => r.1 < r'.1) :
    raws.filterMap (found trim) = raws.filterMap (found trim') ↔ ∀ r ∈ raws, found trim r = found trim' r := by
  have hstart : ∀ {t : Text → Text} {r : Nat × Text} {c : Comment}, found t r = some c → c.start = r.1 := by
    intro t r c h
    unfold found at h
    split at h
    · cases h
      rfl
    · cases h
  constructor
  · intro h
    induction raws with
    | nil => exact fun r hr => by cases hr
    | cons r raws ih =>
      rw [List.pairwise_cons] at hraws
      -- a comment found later starts later, so the first of a list is not found in the other's rest
      have hfar : ∀ {t : Text → Text} {c : Comment}, c ∈ raws.filterMap (found t) → r.1 < c.start := by
        intro t c hc
        obtain ⟨r', hr', hfound⟩ := List.mem_filterMap.1 hc
        rw [hstart hfound]
        exact hraws.1 r' hr'
      have hhead : found trim r = found trim' r := by
        rw [List.filterMap_cons, List.filterMap_cons] at h
        cases hts : found trim r with
        | none =>
          cases hgo : found trim' r with
          | none => rfl
          | some c =>
            rw [hts, hgo] at h
            simp only at h
            have hlt : r.1 < c.start := hfar (h ▸ List.mem_cons_self)
            rw [hstart hgo] at hlt
            omega
        | some c =>
          cases hgo : found trim' r with
          | none =>
            rw [hts, hgo] at h
            simp only at h
            have hlt : r.1 < c.start := hfar (h ▸ List.mem_cons_self)
            rw [hstart hts] at hlt
            omega
          | some c' =>
            rw [hts, hgo] at h
            simp only [List.cons.injEq] at h
            rw [h.1]
      intro r' hr'
      rcases List.mem_cons.1 hr' with rfl | hr'
      · exact hhead
      · refine ih hraws.2 ?_ r' hr'
        rw [List.filterMap_cons, List.filterMap_cons, hhead] at h
        cases hgo : found trim' r with
        | none =>
          rw [hgo] at h
          exact h
        | some c =>
          rw [hgo] at h
          exact List.cons.inj h |>.2
  · exact fun h => List.filterMap_congr h

/-- The Go port's pass is TypeScript's, on every list of productions, exactly where each comment of
the source is alike. -/
theorem sameAnnotations_iff_alike {S : Type} (src : Text) (prods : List (Production S)) :
    SameAnnotations src prods (Go.annotationComments src) Go.claim
        (Go.attachValueAnnotations src (prods.map (Production.place (utf8.offset src)))) ↔
      ∀ r ∈ commentsOf src, Alike r.2 := by
  obtain ⟨hpair, hlf⟩ := commentsOf_order src
  unfold Go.attachValueAnnotations Go.annotationComments
  rw [scanFrom_eq]
  -- the comments are alike where both scans find the same and both read it the same
  have halike : (∀ r ∈ commentsOf src, Alike r.2) ↔
      (commentsOf src).filterMap (found trim) = (commentsOf src).filterMap (found Go.TrimSpace) ∧
        ∀ r ∈ commentsOf src, ∀ c, found Go.TrimSpace r = some c → Go.claim c = claim? c := by
    rw [filterMap_found_eq hpair, ← forall₂_and]
    exact forall₂_congr fun r hr => (alike_iff (hlf r hr)).symm
  -- where a comment stands says nothing about how it is read
  have hplace : ∀ c : Comment, Go.claim (c.place (utf8.offset src)) = claim? (c.place (utf8.offset src)) ↔
      Go.claim c = claim? c := by
    intro c
    have hinj : Function.Injective (Claim.place (utf8.offset src)) := by
      intro d d' h
      obtain ⟨s, b, k, m⟩ := d
      obtain ⟨s', b', k', m'⟩ := d'
      simp only [Claim.place, Claim.mk.injEq] at h ⊢
      exact ⟨(utf8.offset_strictMono src).injective h.1, h.2⟩
    rw [claim?_place, Go.claim, claimBy_place, (Option.map_injective hinj).eq_iff]
    rfl
  rw [halike]
  constructor
  · intro h
    constructor
    · obtain ⟨cs, hts, hgo⟩ := h.sameFound
      rw [annotationComments, scanComments_eq, rawComments_place] at hts
      rw [rawComments_place] at hgo
      have hinj : ∀ E : Encoding, Function.Injective (List.map (Comment.place (E.offset src))) := by
        intro E
        refine List.map_injective_iff.2 fun c c' h => ?_
        obtain ⟨s, b⟩ := c
        obtain ⟨s', b'⟩ := c'
        simp only [Comment.place, Comment.mk.injEq] at h ⊢
        exact ⟨(E.offset_strictMono src).injective h.1, h.2⟩
      rw [hinj _ hts, hinj _ hgo]
    · intro r hr c hc
      refine (hplace c).1 (h.sameClaims _ ?_)
      rw [rawComments_place]
      exact List.mem_map_of_mem (List.mem_filterMap.2 ⟨r, hr, hc⟩)
  · rintro ⟨hfound, hclaims⟩
    refine .of_comments hfound fun c hc => ?_
    rw [rawComments_place] at hc
    obtain ⟨c, hm, rfl⟩ := List.mem_map.1 hc
    obtain ⟨r, hr, hfr⟩ := List.mem_filterMap.1 hm
    exact (hplace c).2 (hclaims r hr c hfr)

/-- `r = b c ; @object b` U+00A0 `c` names two members to TypeScript, and one that is no rule's name to
Go. -/
theorem not_sameAnnotations_nbsp :
    let src : Text :=
      ['r', ' ', '=', ' ', 'b', ' ', 'c', ' ', ';', ' ', '@', 'o', 'b', 'j', 'e', 'c', 't', ' ', 'b', '\u00a0', 'c']
    let prods : List (Production Unit) := [⟨['r'], [()], false, some ⟨0, 1, 1, 1⟩, none⟩]
    ¬ SameAnnotations src prods (Go.annotationComments src) Go.claim
      (Go.attachValueAnnotations src (prods.map (Production.place (utf8.offset src)))) := by
  intro src prods h
  have hfound : Go.annotationComments src =
      [⟨8, ['@', 'o', 'b', 'j', 'e', 'c', 't', ' ', 'b', '\u00a0', 'c']⟩] := by decide +kernel
  have hclaim := h.sameClaims _ (hfound ▸ List.mem_singleton_self _)
  revert hclaim
  decide +kernel

end TabnasAbnf.Passes
