/-
What the passes look at. Of a production's span they compare where it starts, and of its sequences they look at
nothing, so productions in another count of places go through the passes as they are; and each port, over the bytes
or the UTF-16 units of a source, annotates the productions that its comments claim by characters.
-/
import TabnasAbnf.Passes.AnnotateGo
import TabnasAbnf.Passes.Merge

namespace TabnasAbnf.Passes

open TabnasAbnf.Base TabnasAbnf.Meta

variable {S S' : Type}

/-! ## Productions under a change of sequences and spans -/

/-- A production with other sequences and another span. -/
def Production.change (f : S → S') (g : Span → Span) (p : Production S) : Production S' :=
  { name := p.name, alts := p.alts.map f, incremental := p.incremental, sp := p.sp.map g, value := p.value }

section

variable (f : S → S') {g : Span → Span} (hg : ∀ sp, (g sp).s = sp.s) (prods : List (Production S))

include hg

theorem placed_change : placed (prods.map (Production.change f g)) = placed prods := by
  have hsp : ∀ i : Nat, ((prods.map (Production.change f g))[i]?.bind (·.sp)).isSome =
    (prods[i]?.bind (·.sp)).isSome := by
    intro i
    rw [List.getElem?_map]
    cases prods[i]? with
    | none => rfl
    | some p => exact Option.isSome_map
  have hstart : ∀ i : Nat, ((prods.map (Production.change f g))[i]?.map (·.start)) = prods[i]?.map (·.start) := by
    intro i
    rw [List.getElem?_map]
    cases prods[i]? with
    | none => rfl
    | some p => cases hp : p.sp <;> simp [Production.start, Production.change, hp, hg]
  unfold placed orderedBy
  simp only [hsp, hstart, List.length_map]

omit hg in
theorem annotate_change (i : Nat) (c : Claim) :
    annotate (prods.map (Production.change f g)) i c =
      (annotate prods i c).map (List.map (Production.change f g)) := by
  unfold annotate
  rw [List.getElem?_map]
  cases prods[i]? with
  | none => rfl
  | some p =>
    simp only [Option.map_some, show (p.change f g).name = p.name from rfl,
      show (p.change f g).value = p.value from rfl]
    cases c.memberError p.name with
    | some e => rfl
    | none =>
      cases p.value with
      | some v => rfl
      | none => simp [Except.map, List.map_set, Production.change]

/-- The annotations are those of the productions. -/
theorem attachBy_change (claim : Comment → Option Claim) (comments : List Comment) :
    attachBy claim comments (prods.map (Production.change f g)) =
      (attachBy claim comments prods).map (List.map (Production.change f g)) := by
  have hstep : ∀ (st : List (Production S) × Nat) (c : Comment),
      attachCommentBy claim (placed prods) (st.1.map (Production.change f g), st.2) c =
        (attachCommentBy claim (placed prods) st c).map fun st => (st.1.map (Production.change f g), st.2) := by
    intro st c
    unfold attachCommentBy attachOne
    cases claim c with
    | none => rfl
    | some cl =>
      simp only
      split
      · rfl
      · split
        · rfl
        · rw [annotate_change]
          cases annotate st.1 _ cl <;> rfl
  unfold attachBy
  rw [placed_change f hg]
  by_cases h : placed prods = []
  · rw [if_pos h, if_pos h]
    rfl
  · have hrun : comments.foldlM (attachCommentBy claim (placed prods)) (prods.map (Production.change f g), 0) =
        (comments.foldlM (attachCommentBy claim (placed prods)) (prods, 0)).map
          fun st => (st.1.map (Production.change f g), st.2) :=
      foldlM_map (g := fun st : List (Production S) × Nat => (st.1.map (Production.change f g), st.2)) hstep comments
        (prods, 0)
    rw [if_neg h, if_neg h, hrun]
    cases comments.foldlM (attachCommentBy claim (placed prods)) (prods, 0) <;> rfl

end

section

variable (f : S → S') (g : Span → Span)

def Merging.change (m : Merging S) : Merging S' := { out := m.out.map (Production.change f g), byName := m.byName }

theorem mergeOne_change (m : Merging S) (p : Production S) :
    mergeOne (m.change f g) (p.change f g) = (mergeOne m p).map (Merging.change f g) := by
  unfold mergeOne
  simp only [show (p.change f g).incremental = p.incremental from rfl, show (p.change f g).name = p.name from rfl,
    show (p.change f g).value = p.value from rfl, show (m.change f g).byName = m.byName from rfl,
    show (m.change f g).out = m.out.map (Production.change f g) from rfl, List.getElem?_map, List.length_map]
  by_cases hp : p.incremental = true
  · rw [if_pos hp, if_pos hp]
    cases m.byName.lookup p.name with
    | none => rfl
    | some i =>
      have hv : ((m.out[i]?.map (Production.change f g)).bind (·.value)) = m.out[i]?.bind (·.value) := by
        cases m.out[i]? <;> rfl
      simp only [hv]
      split
      · rfl
      · simp only [Except.map, Merging.change, Except.ok.injEq, Merging.mk.injEq, and_true]
        refine List.ext_getElem? fun j => ?_
        by_cases hji : i = j
        · subst hji
          simp only [List.getElem?_modify_eq, List.getElem?_map]
          cases m.out[i]? <;> simp [extended, Production.change]
        · simp [hji]
  · rw [if_neg hp, if_neg hp]
    simp [Except.map, Merging.change, clean, Production.change]

/-- The merge is that of the productions. -/
theorem mergeIncrementals_change (prods : List (Production S)) :
    mergeIncrementals (prods.map (Production.change f g)) =
      (mergeIncrementals prods).map (List.map (Production.change f g)) := by
  unfold mergeIncrementals
  rw [List.foldlM_map, show ({} : Merging S') = Merging.change f g {} from rfl,
    foldlM_map (fun m p => mergeOne_change f g m p)]
  cases prods.foldlM mergeOne {} <;> rfl

end

/-! ## The ports' annotations -/

section

variable {src : Text} {trim' : Text → Text} {claim : Comment → Option Claim}

/-- A pass that finds the comments of a source and claims of them what TypeScript does gives its productions, in
whatever count, the annotations they have by characters. -/
theorem attachBy_comments (E : Encoding)
    (hcomments : (commentsOf src).filterMap (found trim') = (commentsOf src).filterMap (found trim))
    (hclaims : ∀ c ∈ (commentsOf src).filterMap (found trim), ∀ f, claim (c.place f) = (claim? c).map (Claim.place f))
    (prods : List (Production S)) :
    attachBy claim ((rawComments E.width .content 0 src).filterMap (found trim'))
        (prods.map (Production.place (E.offset src))) =
      (attachBy claim? ((commentsOf src).filterMap (found trim)) prods).map
        (List.map (Production.place (E.offset src))) := by
  have hsame : ∀ c ∈ ((commentsOf src).filterMap (found trim)).map (Comment.place (E.offset src)),
      claim c = claim? c := by
    intro c hc
    obtain ⟨d, hd, rfl⟩ := List.mem_map.1 hc
    rw [hclaims d hd, claim?_place]
  rw [rawComments_place, hcomments, attachBy_congr hsame]
  exact attachBy_place (Count.offset E src) prods (claim?_place _) _

theorem Ts.attached (prods : List (Production S)) :
    attachValueAnnotations utf16Encoding.width src (prods.map (Production.place (utf16Encoding.offset src))) =
      (attachBy claim? ((commentsOf src).filterMap (found trim)) prods).map
        (List.map (Production.place (utf16Encoding.offset src))) := by
  rw [attachValueAnnotations, annotationComments, scanComments_eq, attachComments_eq_by]
  exact attachBy_comments utf16Encoding rfl (fun c _ f => claim?_place f c) prods

theorem Rust.attached (prods : List (Production S)) :
    Rust.attach_value_annotations src (prods.map (Production.place (utf8.offset src))) =
      (attachBy claim? ((commentsOf src).filterMap (found trim)) prods).map
        (List.map (Production.place (utf8.offset src))) := by
  have htrim : Rust.trim_matches Rust.is_js_whitespace = trim := by
    rw [Rust.is_js_whitespace_eq]
    rfl
  rw [Rust.attach_value_annotations, Rust.annotation_comments, scanFrom_eq]
  refine attachBy_comments utf8 (by rw [htrim]) (fun c _ f => ?_) prods
  rw [Rust.claim_eq, claim?_place]

/-- Go's pass, where each comment of the source is one it reads alike. -/
theorem Go.attached (halike : ∀ r ∈ commentsOf src, Alike r.2) (prods : List (Production S)) :
    Go.attachValueAnnotations src (prods.map (Production.place (utf8.offset src))) =
      (attachBy claim? ((commentsOf src).filterMap (found trim)) prods).map
        (List.map (Production.place (utf8.offset src))) := by
  have hread : ∀ r ∈ commentsOf src, found trim r = found Go.TrimSpace r ∧
      ∀ c, found Go.TrimSpace r = some c → Go.claim c = claim? c := fun r hr =>
    (alike_iff ((commentsOf_order src).2 r hr)).2 (halike r hr)
  rw [Go.attachValueAnnotations, Go.annotationComments, scanFrom_eq]
  refine attachBy_comments utf8 (List.filterMap_congr fun r hr => (hread r hr).1.symm) (fun c hc f => ?_) prods
  obtain ⟨r, hr, hfound⟩ := List.mem_filterMap.1 hc
  rw [(hread r hr).1] at hfound
  rw [Go.claim, claimBy_place, ← Go.claim, (hread r hr).2 c hfound]

end

end TabnasAbnf.Passes
