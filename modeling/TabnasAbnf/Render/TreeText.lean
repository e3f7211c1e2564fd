/-
What the texts of trees begin and end with, and where `abnf-trim-ends` cuts: an element's text begins and ends
with no space, so what is taken off alternatives is the space beside an empty one. Each is on one line, and the scan for
annotations passes over it.
-/
import TabnasAbnf.Passes.Skipped
import TabnasAbnf.Render.ClassSpelt
import TabnasAbnf.Render.Tree

namespace TabnasAbnf.Render

open TabnasAbnf.Base TabnasAbnf.Meta TabnasAbnf.Passes

/-! ## One line -/

/-- A text on one line that the scan for annotations passes over. -/
structure Quiet (s : Text) : Prop where
  line : '\n' ∉ s
  clear : Clear s

/-- Whether a character is no space and no line end, and opens nothing that the scan passes over. -/
def isBare (c : Char) : Bool := !(c ∈ [' ', '\n', '"', '<', ';'])

/-- A text that begins with no digit. -/
def Opens (s : Text) : Prop := ∀ c ∈ s.head?, isDigit 10 c = false

section

variable {s t : Text}

theorem all_bare {q : Char → Bool} (hq : [' ', '\n', '"', '<', ';'].all (fun c => !q c) = true) (h : s.all q = true) :
    s.all isBare = true := by
  refine List.all_eq_true.2 fun c hc => ?_
  by_contra hno
  rw [isBare, Bool.not_eq_true', decide_eq_false_iff_not, not_not] at hno
  have hbad := List.all_eq_true.1 hq c hno
  rw [List.all_eq_true.1 h c hc] at hbad
  cases hbad

theorem Quiet.nil : Quiet [] := ⟨List.not_mem_nil, .nil⟩

theorem Quiet.append (hs : Quiet s) (ht : Quiet t) : Quiet (s ++ t) :=
  ⟨fun hm => (List.mem_append.1 hm).elim hs.line ht.line, hs.clear.append ht.clear⟩

theorem Quiet.of_bare (h : s.all isBare = true) : Quiet s :=
  ⟨fun hm => absurd (List.all_eq_true.1 h _ hm) (by decide), .of_all (by decide) h⟩

theorem Quiet.join {sep : Text} {ss : List Text} (hsep : Quiet sep) (h : ∀ s ∈ ss, Quiet s) :
    Quiet (stringJoin sep ss) := by
  induction ss with
  | nil => exact .nil
  | cons s ss ih =>
    rw [List.forall_mem_cons] at h
    rcases ss with _ | ⟨s', ss⟩
    · rw [stringJoin, List.intercalate_singleton]
      exact h.1
    · rw [stringJoin_cons _ _ (List.cons_ne_nil _ _)]
      exact (h.1.append hsep).append (ih h.2)

theorem Quiet.quoted (h : charsWithin [(32, 33), (35, 126)] s = true) : Quiet ('"' :: (s ++ ['"'])) := by
  have hno : ∀ c, charsWithin [(32, 33), (35, 126)] [c] = false → c ∉ s := by
    intro c hc hm
    have hin := List.all_eq_true.1 h c hm
    rw [charsWithin, List.all_cons, hin] at hc
    cases hc
  refine ⟨?_, .quoted (hno '"' rfl) .nil⟩
  simpa using hno '\n' rfl

/-! ## Ends of texts -/

/-- A text on one line that begins and ends with no space. -/
structure Solid (s : Text) : Prop where
  head : ∃ c ∈ s.head?, c ≠ ' '
  last : ∃ c ∈ s.getLast?, c ≠ ' '
  quiet : Quiet s

theorem solid_of_bare (hne : s ≠ []) (h : s.all isBare = true) : Solid s := by
  have hspace : ' ' ∉ s := fun hm => absurd (List.all_eq_true.1 h _ hm) (by decide)
  refine ⟨⟨s.head hne, List.head?_eq_some_head hne, ?_⟩, ⟨s.getLast hne, List.getLast?_eq_some_getLast hne, ?_⟩,
    .of_bare h⟩
  · exact fun he => hspace (he ▸ List.head_mem hne)
  · exact fun he => hspace (he ▸ List.getLast_mem hne)

theorem solid_between {c d : Char} (hc : c ≠ ' ') (hd : d ≠ ' ') (h : Quiet (c :: (s ++ [d]))) :
    Solid (c :: (s ++ [d])) :=
  ⟨⟨c, rfl, hc⟩, ⟨d, by rw [← List.cons_append, List.getLast?_concat]; rfl, hd⟩, h⟩

/-- A text that begins and one that ends with no space, whatever stands between them. -/
theorem Solid.append {m : Text} (hs : Solid s) (hm : Quiet m) (ht : Solid t) : Solid (s ++ (m ++ t)) := by
  obtain ⟨c, hc, hcs⟩ := hs.head
  obtain ⟨d, hd, hds⟩ := ht.last
  refine ⟨⟨c, ?_, hcs⟩, ⟨d, ?_, hds⟩, hs.quiet.append (hm.append ht.quiet)⟩
  · rw [List.head?_append, Option.mem_def.1 hc]
    rfl
  · rw [List.getLast?_append, List.getLast?_append, Option.mem_def.1 hd]
    rfl

theorem solid_grouped (h : Quiet s) : Solid (grouped s) := by
  have hopen : Quiet "( ".toList := ⟨by decide, .of_plain (by decide)⟩
  have hclose : Quiet " )".toList := ⟨by decide, .of_plain (by decide)⟩
  have hquiet := (hopen.append h).append hclose
  have hsolid := @solid_between (' ' :: (s ++ [' '])) '(' ')' (by decide) (by decide)
  simp only [List.cons_append, List.append_assoc, List.nil_append] at hsolid
  exact hsolid hquiet

theorem solid_bracketed (h : Quiet s) : Solid (bracketed s) := by
  have hopen : Quiet "[ ".toList := ⟨by decide, .of_plain (by decide)⟩
  have hclose : Quiet " ]".toList := ⟨by decide, .of_plain (by decide)⟩
  have hquiet := (hopen.append h).append hclose
  have hsolid := @solid_between (' ' :: (s ++ [' '])) '[' ']' (by decide) (by decide)
  simp only [List.cons_append, List.append_assoc, List.nil_append] at hsolid
  exact hsolid hquiet

theorem opens_grouped (s : Text) : Opens (grouped s) := fun c hc => by cases hc; decide

theorem opens_bracketed (s : Text) : Opens (bracketed s) := fun c hc => by cases hc; decide

end

/-! ## Trimming -/

/-- Alternatives between slashes, without the space after the last slash where nothing follows it. -/
def between : List Text → Text
  | [] => []
  | [s] => s
  | s :: s' :: ss => s ++ ' ' :: '/' :: if s' = [] ∧ ss = [] then [] else ' ' :: between (s' :: ss)

/-- Texts that are empty or begin and end with no space. -/
def Pieced (ss : List Text) : Prop := ∀ s ∈ ss, s = [] ∨ Solid s

theorem join_between (ss : List Text) :
    ∃ e, (e = [] ∨ e = [' '] ∧ between ss ≠ []) ∧ stringJoin [' ', '/', ' '] ss = between ss ++ e := by
  induction ss with
  | nil => exact ⟨[], .inl rfl, rfl⟩
  | cons s ss ih =>
    rcases ss with _ | ⟨s', ss⟩
    · exact ⟨[], .inl rfl, by simp [stringJoin, between]⟩
    · obtain ⟨e, he, hjoin⟩ := ih
      rw [stringJoin_cons _ _ (List.cons_ne_nil _ _), hjoin, between]
      have hne : ∀ w : Text, s ++ ' ' :: '/' :: w ≠ [] :=
        fun w => List.append_ne_nil_of_right_ne_nil _ (List.cons_ne_nil _ _)
      split
      · rename_i hempty
        obtain ⟨rfl, rfl⟩ := hempty
        have hnil : between [[]] = [] := rfl
        rcases he with rfl | ⟨-, hb⟩
        · exact ⟨[' '], .inr ⟨rfl, hne _⟩, by simp [hnil]⟩
        · exact absurd hnil hb
      · exact ⟨e, he.imp id fun h => ⟨h.1, hne _⟩, by simp⟩

/-- Alternatives between slashes do not end with a space. -/
theorem between_last {ss : List Text} (h : Pieced ss) : ∀ c ∈ (between ss).getLast?, c ≠ ' ' := by
  induction ss with
  | nil => exact fun c hc => by cases hc
  | cons s ss ih =>
    rcases ss with _ | ⟨s', ss⟩
    · intro c hc
      rcases h s List.mem_cons_self with rfl | hs
      · cases hc
      · obtain ⟨d, hd, hds⟩ := hs.last
        cases Option.mem_unique hd hc
        exact hds
    · intro c hc
      have ih := ih fun t ht => h t (List.mem_cons_of_mem _ ht)
      rw [between, List.getLast?_append] at hc
      split at hc
      · cases hc
        decide
      · rcases hb : (between (s' :: ss)).getLast? with _ | d
        · -- what follows the slash is not empty
          rename_i hempty
          have hnil := List.getLast?_eq_none_iff.1 hb
          rcases ss with _ | ⟨s'', ss⟩
          · exact absurd ⟨hnil, rfl⟩ hempty
          · rw [between] at hnil
            exact absurd hnil (List.append_ne_nil_of_right_ne_nil _ (List.cons_ne_nil _ _))
        · rw [show ' ' :: '/' :: ' ' :: between (s' :: ss) = [' ', '/', ' '] ++ between (s' :: ss) from rfl,
            List.getLast?_append, hb] at hc
          cases hc
          exact ih c hb

/-- What is cut off alternatives is the space beside an empty first or last one. -/
theorem slashed_eq {ss : List Text} (h : Pieced ss) :
    slashed ss = if [' '] <+: between ss then (between ss).tail else between ss := by
  -- what is trimmed at the end is the blank of the join alone
  have htrail : ∀ t : Text, (∀ c ∈ t.getLast?, c ≠ ' ') → ∀ e : Text, (e = [] ∨ e = [' ']) →
      (if abnfEnds [' '] (t ++ e) then abnfBefore [' '] (t ++ e) else t ++ e) = t := by
    intro t ht e he
    rcases he with rfl | rfl
    · rw [List.append_nil, if_neg]
      intro hends
      obtain ⟨t', rfl⟩ := abnfEnds_iff.1 hends
      exact ht ' ' (List.getLast?_concat) rfl
    · rw [if_pos (abnfEnds_iff.2 ⟨t, rfl⟩), abnfBefore_concat]
  have hstarts : ∀ t : Text, abnfStarts [' '] t = true ↔ [' '] <+: t := fun t => abnfStarts_iff (List.cons_ne_nil _ _)
  obtain ⟨e, he, hjoin⟩ := join_between ss
  have hlast := between_last h
  unfold slashed abnfTrimEnds
  rw [show " / ".toList = [' ', '/', ' '] from rfl, hjoin]
  rcases hb : between ss with _ | ⟨c, b⟩
  · have hnil : e = [] := he.resolve_right fun hr => hr.2 hb
    subst hnil
    rw [List.append_nil]
    rfl
  · rw [hb] at hlast
    have he' : e = [] ∨ e = [' '] := he.imp id And.left
    by_cases hc : c = ' '
    · subst hc
      have hafter : abnfAfter [' '] (' ' :: (b ++ e)) = b ++ e := abnfAfter_append (List.cons_ne_nil ' ' []) (b ++ e)
      have hstart : abnfStarts [' '] (' ' :: (b ++ e)) = true := (hstarts _).2 ⟨b ++ e, rfl⟩
      have hpre : [' '] <+: ' ' :: b := ⟨b, rfl⟩
      simp only [List.cons_append, hstart, if_true, if_pos hpre, hafter, List.tail_cons]
      refine htrail b ?_ e he'
      intro d hd
      refine hlast d ?_
      rcases b with _ | ⟨d', b⟩
      · cases hd
      · rw [List.getLast?_cons_cons]
        exact hd
    · have hno : ∀ t : Text, ¬ [' '] <+: c :: t := fun t hp => by
        obtain ⟨t', ht'⟩ := hp
        cases ht'
        exact hc rfl
      have hstart : abnfStarts [' '] (c :: b ++ e) = false := by
        rw [Bool.eq_false_iff]
        exact fun hs => hno _ ((hstarts _).1 hs)
      rw [if_neg (hno b), hstart, if_neg Bool.false_ne_true]
      exact htrail _ hlast e he'

theorem Pieced.quiet {ss : List Text} (h : Pieced ss) : ∀ s ∈ ss, Quiet s :=
  fun s hs => (h s hs).elim (fun hnil => hnil ▸ .nil) Solid.quiet

theorem between_quiet {ss : List Text} (h : ∀ s ∈ ss, Quiet s) : Quiet (between ss) := by
  have hslash : Quiet " /".toList := ⟨by decide, .of_plain (by decide)⟩
  have hspace : Quiet " ".toList := ⟨by decide, .of_plain (by decide)⟩
  induction ss with
  | nil => exact .nil
  | cons s ss ih =>
    rw [List.forall_mem_cons] at h
    rcases ss with _ | ⟨s', ss⟩
    · exact h.1
    · rw [between]
      split
      · exact h.1.append hslash
      · exact h.1.append (hslash.append (hspace.append (ih h.2)))

theorem slashed_quiet {ss : List Text} (h : Pieced ss) : Quiet (slashed ss) := by
  have hall := between_quiet h.quiet
  rw [slashed_eq h]
  split
  · rename_i hp
    obtain ⟨b, hb⟩ := hp
    rw [← hb] at hall ⊢
    refine ⟨fun hm => hall.line (List.mem_cons_of_mem _ hm), ?_⟩
    rcases hall.clear with _ | ⟨-, -, -, hclear⟩
    exact hclear
  · exact hall

/-! ## Terminals -/

theorem hex_bare {h : Text} (hd : h.all (isDigit 16) = true) : h.all isBare = true := all_bare (by decide) hd

theorem bare_join {d : Char} {hs : List Text} (hd : isBare d = true) (h : ∀ s ∈ hs, s.all isBare = true) :
    (stringJoin [d] hs).all isBare = true := by
  refine List.all_eq_true.2 fun c hc => ?_
  by_contra hno
  refine not_mem_stringJoin (fun heq : c = d => hno (heq ▸ hd)) (fun s hs hm => ?_) hc
  exact hno (List.all_eq_true.1 (h s hs) c hm)

theorem abnfLitText_solid {text s : Text} {cs : Bool} (h : abnfLitText text cs = .ok s) : Solid s ∧ Opens s := by
  have hquote : ∀ {t : Text}, charsWithin [(32, 33), (35, 126)] t = true →
      Solid ('"' :: (t ++ ['"'])) ∧ Opens ('"' :: (t ++ ['"'])) := fun ht =>
    ⟨solid_between (by decide) (by decide) (.quoted ht), fun c hc => by cases hc; decide⟩
  have hnumeric : text ≠ [] → (abnfCodes text).map (fun codes => ['%', 'x'] ++ stringJoin ['.'] codes) = .ok s →
      Solid s ∧ Opens s := by
    intro hne h
    rcases hcodes : abnfCodes text with e | hs
    · rw [hcodes] at h
      cases h
    · rw [hcodes] at h
      cases h
      refine ⟨solid_of_bare (List.cons_ne_nil _ _) ?_, fun c hc => by cases hc; decide⟩
      exact bare_join (by decide) fun d hd => hex_bare ((abnfCodes_spec hne hcodes).code d hd).hex
  unfold abnfLitText at h
  dsimp only at h
  split_ifs at h with hne hplain hcs hl hcs hl hl
  · cases h
    exact @hquote [] rfl
  · cases h
    have hsens : Quiet "%s".toList := .of_bare (by decide)
    refine ⟨?_, fun c hc => by cases hc; decide⟩
    have hsolid := @solid_between ('s' :: '"' :: text) '%' '"' (by decide) (by decide)
    exact hsolid (hsens.append (.quoted hplain))
  · cases h
    exact hquote hplain
  · cases h
    exact hquote hplain
  · exact hnumeric hne h
  · exact hnumeric hne h

theorem abnfMemberText_solid {pat t : Text} {m : Member} (h : abnfMemberText pat m.ends = .ok t) :
    Solid t ∧ Opens t := by
  have hbare : m.ends.1.all isBare = true ∧ m.ends.2.all isBare = true := by
    have hw : ∀ p : Piece, p.written.all isBare = true := fun p => hex_bare (List.all_eq_true.2 p.written_spec.2.1)
    rcases m with p | ⟨p, q⟩
    · exact ⟨hw p, hw p⟩
    · refine ⟨hw p, ?_⟩
      have hhigh : q.writtenHigh.all isBare = true := by
        unfold Piece.writtenHigh Piece.tail
        have hdash : ['-'].all isBare = true := rfl
        split_ifs <;> simp only [List.all_append, List.append_nil, hw q, hdash, Bool.and_self]
      exact hhigh
  have hrange : ∀ lo hi : Text, lo.all isBare = true → hi.all isBare = true →
      Solid (['%', 'x'] ++ lo ++ ['-'] ++ hi) ∧ Opens (['%', 'x'] ++ lo ++ ['-'] ++ hi) := by
    intro lo hi hlo hhi
    refine ⟨solid_of_bare (by simp) ?_, fun c hc => by cases hc; decide⟩
    rw [List.all_append, List.all_append, List.all_append, hlo, hhi]
    rfl
  unfold abnfMemberText at h
  dsimp only at h
  split_ifs at h
  · rcases hlit : abnfLitText (unquotedEscape (fourDigits m.ends.1)) true with e | s
    · rw [hlit] at h
      cases h
    · rw [hlit] at h
      cases h
      exact abnfLitText_solid hlit
  · cases h
    exact hrange _ _ hbare.1 hbare.1
  · cases h
    exact hrange _ _ hbare.1 hbare.2

theorem abnfRangeText_solid {ps : List Piece} {out : Text} (hlast : ∀ p ∈ ps.getLast?, p.dash = false)
    (h : abnfRangeText (patternText false ps) = .ok out) : Solid out ∧ Opens out := by
  obtain ⟨-, text, htext, hout⟩ := abnfRangeText_members hlast h
  have hall : ∀ m ∈ members false ps, Solid (text m) ∧ Opens (text m) := fun m hm => abnfMemberText_solid (htext m hm)
  rw [hout]
  split
  · rename_i hone
    obtain ⟨m, hm⟩ := List.length_eq_one_iff.1 hone
    rw [hm, List.map_singleton, List.intercalate_singleton]
    exact hall m (by rw [hm]; exact List.mem_singleton_self m)
  · refine ⟨solid_grouped ?_, opens_grouped _⟩
    refine .join ⟨by decide, .of_plain (by decide)⟩ fun s hs => ?_
    obtain ⟨m, hm, rfl⟩ := List.mem_map.1 hs
    exact (hall m hm).1.quiet

/-! ## Classes -/

/-- The class a pattern and its flags are, where they are one. -/
def classOf (pat flags : Text) : Option JsClass :=
  if abnfClassPattern pat && abnfFlagsFit pat flags then jsClass (flags == ['u']) pat else none

theorem classOf_spec {pat flags : Text} {cls : JsClass} (h : classOf pat flags = some cls) :
    abnfClassPattern pat = true ∧ abnfFlagsFit pat flags = true ∧ jsClass (flags == ['u']) pat = some cls := by
  unfold classOf at h
  split at h
  · rename_i hfit
    rw [Bool.and_eq_true] at hfit
    exact ⟨hfit.1, hfit.2, h⟩
  · cases h

/-- A class's text is read as one element that is the class exactly where the class is whole. -/
theorem class_solid {pat flags out : Text} {cls : JsClass} (hcls : classOf pat flags = some cls)
    (h : abnfClassText pat flags = .ok out) :
    (Solid out ∧ Opens out) ∧ ReadsIf DAtoms atomsIr out (One (IsClass cls)) (ClassWhole pat flags) := by
  obtain ⟨hpat, hflags, hjs⟩ := classOf_spec hcls
  refine ⟨?_, class_readsIf hpat hflags hjs h⟩
  rcases abnfClassText_cases hpat hflags hjs h with ⟨-, -, rfl⟩ | ⟨ps, rfl, hrange⟩
  · exact ⟨solid_of_bare (by decide) (by decide), fun c hc => by cases hc; decide⟩
  · exact abnfRangeText_solid (abnfClassPattern_last hpat) hrange

end TabnasAbnf.Render
