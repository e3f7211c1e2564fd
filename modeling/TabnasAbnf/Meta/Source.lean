/-
Sources of several lines. No token goes over a line end, so the tokens of a source are those of its lines, one line
after another; and a source that the scan for comments passes over has no annotation.
-/
import TabnasAbnf.Meta.Phrase
import TabnasAbnf.Passes.Skipped

namespace TabnasAbnf.Meta

open TabnasAbnf.Engine TabnasAbnf.Base TabnasAbnf.Passes

/-- A source without comments as its tokens: a space and a line end are none. -/
inductive LexesLines : Text → List Lexeme → Prop
  | nil : LexesLines [] []
  | gap {c s ls} : c = ' ' ∨ c = '\n' → LexesLines s ls → LexesLines (c :: s) ls
  | token {l text rest ls} : Longest l text rest → LexesLines rest ls → LexesLines (text ++ rest) (l :: ls)

/-! ## Lines -/

section

variable {l : Lexeme} {text rest s more : Text} {ls : List Lexeme}

/-- No token goes over a line end. -/
theorem Begins.line (h : Begins l text rest) : '\n' ∉ text := by
  have hall : ∀ {p : Char → Bool} {s : Text}, p '\n' = false → s.all p = true → '\n' ∉ s := by
    intro p s hp hs hm
    have hn := List.all_eq_true.1 hs _ hm
    rw [hp] at hn
    cases hn
  obtain ⟨h, hcontrol⟩ := h
  cases h with
  | fixed hf _ => cases l <;> cases hf <;> decide
  | TX _ hrun _ => exact hall (by decide) hrun
  | @NUM n _ => exact hall (by decide) n.2.2
  | @NV n _ =>
    obtain ⟨src, hsrc⟩ := n
    unfold isNumericSource at hsrc
    split at hsrc
    · rename_i base body
      rw [Bool.and_eq_true, List.all_eq_true] at hsrc
      rw [List.mem_cons, List.mem_cons, not_or, not_or]
      refine ⟨by decide, fun he => ?_, fun hm => ?_⟩
      · rw [← he] at hsrc
        exact absurd hsrc.1 (by decide)
      · -- a line end separates nothing, so it is in a run of digits
        obtain ⟨piece, hp, hin⟩ := @mem_splitOnP (fun c => c == '-' || c == '.') '\n' body (by decide) hm
        have hdigit := List.all_eq_true.1 (Bool.and_eq_true_iff.1 (hsrc.2 piece hp)).2 _ hin
        exact absurd hdigit (by decide)
    · cases hsrc
  | SS hc | SI hc => rcases hc with rfl | rfl <;> decide
  | @PV body _ hb =>
    have hbody := hall (by decide) hb
    simp [hbody]
  | ST _ _ _ => exact fun hm => absurd (hcontrol rfl _ hm) (by decide)

/-- What follows a line end does not change what a token is. -/
theorem begins_line (hr : '\n' ∉ rest) : Begins l text (rest ++ '\n' :: more) ↔ Begins l text rest := by
  refine and_congr_left fun _ => ⟨fun h => ?_, fun h => ?_⟩
  · generalize hrest : rest ++ '\n' :: more = rest' at h
    cases h with
    | fixed hf hd =>
      refine .fixed hf fun hl hslash => hd hl ?_
      rw [← hrest, List.head?_append, hslash, Option.some_or]
    | TX hne hrun hq => exact .TX hne hrun hq
    | NUM => exact .NUM
    | NV => exact .NV
    | PV hb => exact .PV hb
    | ST hm hb hv => exact .ST hm hb hv
    | SS hc | SI hc =>
      rcases rest with _ | ⟨c, rest⟩
      · cases hrest
      · cases hrest
        first | exact .SS hc | exact .SI hc
  · cases h with
    | fixed hf hd =>
      refine .fixed hf fun hl => ?_
      rcases rest with _ | ⟨c, rest⟩
      · exact fun hslash => by cases hslash
      · exact hd hl
    | TX hne hrun hq => exact .TX hne hrun hq
    | NUM => exact .NUM
    | NV => exact .NV
    | PV hb => exact .PV hb
    | ST hm hb hv => exact .ST hm hb hv
    | SS hc => exact .SS hc
    | SI hc => exact .SI hc

/-- A text without a line end before one is the front of the line. -/
theorem front_of_line (ht : '\n' ∉ text) (h : text ++ rest = s ++ '\n' :: more) :
    ∃ s', s = text ++ s' ∧ rest = s' ++ '\n' :: more := by
  rcases List.append_eq_append_iff.1 h with ⟨as, rfl, hrest⟩ | ⟨bs, rfl, hrest⟩
  · exact ⟨as, rfl, hrest⟩
  · rcases bs with _ | ⟨b, bs⟩
    · exact ⟨[], by simp, hrest.symm⟩
    · cases hrest
      exact absurd (List.mem_append_right _ List.mem_cons_self) ht

theorem longest_line (hr : '\n' ∉ rest) : Longest l text (rest ++ '\n' :: more) ↔ Longest l text rest := by
  constructor
  · rintro ⟨ha, hmax⟩
    have ha := (begins_line hr).1 ha
    refine ⟨ha, fun l' text' rest' ha' he => ?_⟩
    have hr' : '\n' ∉ rest' := by
      intro hm
      have hin : '\n' ∈ text ++ rest := he ▸ List.mem_append_right _ hm
      exact (List.mem_append.1 hin).elim ha.line hr
    refine hmax l' text' (rest' ++ '\n' :: more) ((begins_line hr').2 ha') ?_
    rw [← List.append_assoc, he, List.append_assoc]
  · rintro ⟨ha, hmax⟩
    refine ⟨(begins_line hr).2 ha, fun l' text' rest' ha' he => ?_⟩
    rw [← List.append_assoc] at he
    obtain ⟨s', hs', rfl⟩ := front_of_line ha'.line he
    have hr' : '\n' ∉ s' := by
      intro hm
      have hin : '\n' ∈ text ++ rest := hs' ▸ List.mem_append_right _ hm
      exact (List.mem_append.1 hin).elim ha.line hr
    exact hmax l' text' s' ((begins_line hr').1 ha') hs'.symm

/-- The tokens of a line come before those of the lines after it. -/
theorem Lexes.lines (h : Lexes s ls) {ls' : List Lexeme} (h' : LexesLines rest ls') :
    LexesLines (s ++ '\n' :: rest) (ls ++ ls') ∧
    '\n' ∉ s := by
  induction h with
  | nil => exact ⟨.gap (.inr rfl) h', List.not_mem_nil⟩
  | space _ ih =>
    refine ⟨.gap (.inl rfl) ih.1, ?_⟩
    rw [List.mem_cons, not_or]
    exact ⟨by decide, ih.2⟩
  | token hl _ ih =>
    refine ⟨?_, fun hm => (List.mem_append.1 hm).elim hl.1.line ih.2⟩
    rw [List.append_assoc]
    exact .token ((longest_line ih.2).2 hl) ih.1

/-- A source is at most one list of tokens. -/
theorem LexesLines.unique {ls' : List Lexeme} (h : LexesLines s ls) (h' : LexesLines s ls') : ls = ls' := by
  induction h generalizing ls' with
  | nil =>
    generalize hs : ([] : Text) = s at h'
    cases h' with
    | nil => rfl
    | gap => cases hs
    | token hl _ =>
      obtain ⟨c, cs, rfl, -⟩ := hl.1.1.opener
      cases hs
  | @gap c s ls hc _ ih =>
    generalize hs : c :: s = s' at h'
    cases h' with
    | nil => cases hs
    | gap _ h' =>
      cases hs
      exact ih h'
    | token hl _ => exact absurd hs.symm (not_longest_gap hc hl)
  | @token l text rest ls hl _ ih =>
    generalize hs : text ++ rest = s' at h'
    cases h' with
    | nil =>
      obtain ⟨c, cs, rfl, -⟩ := hl.1.1.opener
      cases hs
    | gap hc _ => exact absurd hs (not_longest_gap hc hl)
    | token hl' h' =>
      obtain ⟨rfl, rfl⟩ := hl.unique hl' hs
      rw [ih h']

end

/-! ## Annotations -/

/-- A source that the scan passes over from content to content has no annotation. -/
theorem annotationComments_clear {s : Text} (h : Clear s) : annotationComments utf16Encoding.width s = [] := by
  have hclear := h.annotationsFrom utf16Encoding 0 []
  rw [List.append_nil] at hclear
  rw [annotationComments_eq, hclear]
  rfl

end TabnasAbnf.Meta
