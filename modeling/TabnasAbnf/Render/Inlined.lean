/-
Helpers written in the places of their references, as what they generate: what a helper's rules generate, through
the helpers in it, is what the element written for it matches, where the helper has the shape that its kind is read in.
-/
import Mathlib.Algebra.BigOperators.Ring.List
import TabnasAbnf.Render.Repeats

namespace TabnasAbnf.Render

open TabnasAbnf.Base
open scoped Computability

/-! ## The shapes of helpers -/

/-- An element the reading of which keeps all that it stands for: each helper in it has the shape of its kind. -/
inductive Formed (cx : Context) : El → Prop
  | tok {t} : Formed cx (.tok t)
  | rule {name} : abnfMade cx name = .done false → Formed cx (.ref name)
  | tail {seq} : (∀ el ∈ seq, Formed cx el) → Formed cx (.tail seq)
  | grp {seq} : (∀ el ∈ seq, Formed cx el) → Formed cx (.grp seq)
  | star {name item} : abnfHelperKind cx name = .done (some "star".toList) → Loop cx name item → Formed cx item →
    Formed cx (.ref name)
  | plus {name loop item} : abnfHelperKind cx name = .done (some "plus".toList) → Lossless cx name →
    Only cx name [item, .ref loop] → abnfHelperKind cx loop = .done (some "star".toList) →
    Loop cx loop item → Formed cx item → Formed cx (.ref name)
  | opt {name inner} : Over cx name inner → lastFact cx [inner] = .done none → Formed cx inner → Formed cx (.ref name)
  | rep {name item seq} : abnfHelperKind cx name = .done (some "rep".toList) → Lossless cx name →
    Only cx name seq → Copies cx name item seq → Formed cx item → Formed cx (.ref name)
  | alts {name kind raw} : abnfHelperKind cx name = .done (some kind) → kind = "fact".toList ∨ kind = "group".toList →
    Lossless cx name → abnfRawAlts cx name = .done raw → (∀ seq ∈ raw, ∀ el ∈ seq, Formed cx el) → Formed cx (.ref name)

section

variable {cx : Context} {name : Text}

/-- A factored tail or a group that is formed. -/
theorem Formed.inside {kind : Text} (h : Formed cx (.ref name)) (hkind : abnfHelperKind cx name = .done (some kind))
    (hk : kind = "fact".toList ∨ kind = "group".toList) : Lossless cx name ∧ ∃ raw, abnfRawAlts cx name = .done raw ∧
      AllEls (Formed cx) raw := by
  have hne : ∀ {other : Text}, abnfHelperKind cx name = .done (some other) → other ≠ "fact".toList →
    other ≠ "group".toList →
      False := by
    intro other hother hfact hgroup
    cases hkind.symm.trans hother
    rcases hk with rfl | rfl
    · exact hfact rfl
    · exact hgroup rfl
  cases h with
  | rule hmade =>
    have hnone : abnfHelperKind cx name = .done (some []) := by
      rw [abnfHelperKind, hmade]
      rfl
    exact (hne hnone (by decide) (by decide)).elim
  | star hkind' _ _ => exact (hne hkind' (by decide) (by decide)).elim
  | plus hkind' _ _ _ _ _ => exact (hne hkind' (by decide) (by decide)).elim
  | opt hover _ _ => exact (hne hover.kind (by decide) (by decide)).elim
  | rep hkind' _ _ _ _ => exact (hne hkind' (by decide) (by decide)).elim
  | alts _ _ hlossless hraw hall => exact ⟨hlossless, _, hraw, hall⟩

theorem formed_inherited : Inherited cx (Formed cx) := by
  constructor
  · intro name kind alts hkind hk h halts
    obtain ⟨-, raw, hraw, hall⟩ := h.inside hkind hk
    cases hraw.symm.trans halts
    exact hall
  · exact .grp

/-- A factored tail or a group stands for its alternatives. -/
theorem Formed.words {kind : Text} {raw : List Seq} (h : Formed cx (.ref name))
    (hkind : abnfHelperKind cx name = .done (some kind)) (hk : kind = "fact".toList ∨ kind = "group".toList)
    (hraw : abnfRawAlts cx name = .done raw) : (El.ref name).words cx = altsWords cx raw := by
  have hne : kind ≠ [] := by
    rcases hk with rfl | rfl <;> decide
  rw [words_made (made_of_kind hkind hne), rawAlts_words (h.inside hkind hk).1 hraw]

/-! ## Alternatives read back -/

/-- The alternatives that some are read as, each as a number of them. -/
theorem parts_words {f : Seq → Out (List Seq)} {g : Seq → Language El} {alts : List Seq} {parts : List (List Seq)}
    (hf : ∀ alt ∈ alts, ∀ part, f alt = .done part → altsWords cx part = g alt) (h : Run.each f alts = .done parts) :
    altsWords cx parts.flatten = (alts.map g).sum := by
  rw [altsWords_flatten, Run.each_map_eq h hf]

theorem expand_words {n : Nat} {alt : Seq} {alts : List Seq} (halt : ∀ el ∈ alt, Formed cx el)
    (h : abnfExpand cx n alt = .done alts) : altsWords cx alts = seqWords cx alt := by
  induction n generalizing alt alts with
  | zero => cases h
  | succ n ih =>
    rw [abnfExpand, iterate] at h
    obtain ⟨fact, hfact, h⟩ := Run.bind_eq_done h
    split at h
    · rename_i name
      obtain ⟨front, rfl, hkind⟩ := lastFact_some hfact
      obtain ⟨tails, htails, h⟩ := Run.bind_eq_done h
      obtain ⟨parts, hparts, h⟩ := Run.bind_eq_done h
      cases h
      -- the alternative gives way to one for each of the tail's, which may end in a tail again
      have hformed := halt _ (List.mem_append_right _ List.mem_cons_self)
      have hinside := formed_inherited.inside hkind (.inl rfl) hformed htails
      rw [List.dropLast_concat] at hparts
      rw [parts_words (fun tail htail part hpart => ih (fun el hel => ?_) hpart) hparts, seqWords_append,
        seqWords_single,
        hformed.words hkind (.inl rfl) htails, altsWords, ← List.sum_map_mul_left]
      · simp only [seqWords_append]
      · rcases List.mem_append.1 hel with hel | hel
        · exact halt el (List.mem_append_left _ hel)
        · exact hinside tail htail el hel
    · cases h
      rw [altsWords_single]

/-- The groups that one was factored from generate what it does. -/
theorem splitGroup_words {n : Nat} {alt : Seq} {alts : List Seq} (halt : ∀ el ∈ alt, Formed cx el)
    (h : abnfSplitGroup cx n name alt = .done alts) : altsWords cx alts = seqWords cx alt := by
  rcases splitGroup_done h with rfl | ⟨helper, seq, ones, rfl, hkind, hinner, hones, rfl⟩
  · exact altsWords_single alt
  · have hformed := halt _ List.mem_cons_self
    have hinside := formed_inherited.inside hkind (.inr rfl) hformed hinner seq List.mem_cons_self
    rw [seqWords_single, hformed.words hkind (.inr rfl) hinner, altsWords_single, ← expand_words hinside hones,
      altsWords,
      List.map_map]
    refine congrArg List.sum (List.map_congr_left fun one _ => ?_)
    rw [Function.comp_apply, seqWords_single, El.words]

/-- A rule's alternatives, read back, generate what those the spec holds do. -/
theorem alts_words {n : Nat} {raw alts : List Seq} (hraw : abnfRawAlts cx name = .done raw)
    (hall : AllEls (Formed cx) raw)
    (h : abnfAlts cx n name = .done alts) : altsWords cx alts = altsWords cx raw := by
  obtain ⟨raw', hraw', h⟩ := Run.bind_eq_done h
  cases hraw.symm.trans hraw'
  obtain ⟨expanded, hexp, h⟩ := Run.bind_eq_done h
  obtain ⟨split, hsplit, h⟩ := Run.bind_eq_done h
  cases h
  rw [parts_words (fun alt halt part => splitGroup_words fun el hel => ?_) hsplit, ← altsWords,
    parts_words (fun alt halt part => expand_words fun el hel => hall alt halt el hel) hexp]
  · rfl
  · obtain ⟨part', hpart', halt⟩ := List.mem_flatten.1 halt
    obtain ⟨seq, hseq, hrun⟩ := Run.mem_each hexp hpart'
    exact formed_inherited.expand (hall seq hseq) hrun alt halt el hel

end

/-! ## The words of trees -/

mutual

/-- What an element that is written matches: sequences of terminals and of names. -/
def Tree.words : Tree → Language Tree
  | .lit text cs => single (.lit text cs)
  | .cls pat flags => single (.cls pat flags)
  | .tok name => single (.tok name)
  | .ref name => single (.ref name)
  | .group alts => treeAltsWords alts
  | .option alts => 1 + treeAltsWords alts
  | .tail seq => 1 + treeSeqWords seq
  | .rep count item => repeated item.words count.min count.max

def treeSeqWords : List Tree → Language Tree
  | [] => 1
  | t :: ts => t.words * treeSeqWords ts

def treeAltsWords : List (List Tree) → Language Tree
  | [] => 0
  | seq :: alts => treeSeqWords seq + treeAltsWords alts

end

/-- What a token or a rule's name is written as. -/
def writtenAs (cx : Context) (lifted : List Text) : El → Option Tree
  | .tok t =>
    match treeTok cx lifted t with
    | .done tree => some tree
    | _ => none
  | .ref name => some (.ref name)
  | _ => none

/-- The trees' words are the written words of the elements. -/
structure Preserves (cx : Context) (lifted : List Text) (n : Nat) : Prop where
  alts : ∀ x alts, AllEls (Formed cx) x → treeAlts cx lifted n x = .done alts →
    (treeAltsWords alts).map some = (altsWords cx x).map (writtenAs cx lifted)
  el : ∀ el t, Formed cx el → treeEl cx lifted n el = .done t →
    t.words.map some = (el.words cx).map (writtenAs cx lifted)
  atom : ∀ el t, Formed cx el → treeAtom cx lifted n el = .done t →
    t.words.map some = (el.words cx).map (writtenAs cx lifted)

section

variable {cx : Context} {lifted : List Text}

theorem treeTok_words {t : Text} {tree : Tree} (h : treeTok cx lifted t = .done tree) :
    tree.words.map some = ((El.tok t).words cx).map (writtenAs cx lifted) := by
  have hwritten : writtenAs cx lifted (.tok t) = some tree := by rw [writtenAs, h]
  have htree : tree.words = single tree := by
    unfold treeTok at h
    split at h
    · cases h
      rw [Tree.words]
    · obtain ⟨info, -, h⟩ := Run.bind_eq_done h
      cases h
      cases info <;> rw [Tree.words]
  rw [htree, El.words, map_single, map_single, hwritten]

theorem seqTrees_words {f : El → Out Tree} {seq : Seq}
    (hf : ∀ el ∈ seq, ∀ t, f el = .done t → t.words.map some = (el.words cx).map (writtenAs cx lifted))
    {trees : List Tree}
    (h : Run.each f seq = .done trees) :
    (treeSeqWords trees).map some = (seqWords cx seq).map (writtenAs cx lifted) := by
  induction seq generalizing trees with
  | nil =>
    cases h
    rw [treeSeqWords, seqWords, map_one, map_one]
  | cons el seq ih =>
    obtain ⟨t, ht, h⟩ := Run.bind_eq_done h
    obtain ⟨rest, hrest, h⟩ := Run.bind_eq_done h
    cases h
    rw [treeSeqWords, seqWords, map_mul, map_mul, hf el List.mem_cons_self t ht,
      ih (fun e he => hf e (List.mem_cons_of_mem _ he)) hrest]

theorem altsTrees_words {f : El → Out Tree} {x : List Seq}
    (hf : ∀ seq ∈ x, ∀ el ∈ seq, ∀ t, f el = .done t → t.words.map some = (el.words cx).map (writtenAs cx lifted))
    {alts : List (List Tree)} (h : Run.each (fun seq => Run.each f seq) x = .done alts) :
    (treeAltsWords alts).map some = (altsWords cx x).map (writtenAs cx lifted) := by
  induction x generalizing alts with
  | nil =>
    cases h
    rw [treeAltsWords, altsWords, List.map_nil, List.sum_nil, map_zero, map_zero]
  | cons seq x ih =>
    obtain ⟨trees, htrees, h⟩ := Run.bind_eq_done h
    obtain ⟨rest, hrest, h⟩ := Run.bind_eq_done h
    cases h
    have hx := ih (fun seq' hseq' => hf seq' (List.mem_cons_of_mem _ hseq')) hrest
    rw [treeAltsWords, ← List.singleton_append, altsWords_append, altsWords_single, map_add, map_add, hx,
      seqTrees_words (hf seq List.mem_cons_self) htrees]

/-! ## Options read back -/

theorem Over.filled {inner : El} {raw : List Seq} (hmem : ∀ seq, seq ∈ raw ↔ seq = [] ∨ seq = [inner]) :
    abnfFilled raw = some [inner] := by
  have hin : [inner] ∈ raw.filter (!·.isEmpty) := List.mem_filter.2 ⟨(hmem _).2 (.inr rfl), rfl⟩
  obtain ⟨first, rest, hfirst⟩ := List.exists_cons_of_ne_nil (List.ne_nil_of_mem hin)
  rw [abnfFilled, hfirst, List.head?_cons]
  have hfull := List.mem_filter.1 (hfirst ▸ List.mem_cons_self : first ∈ raw.filter (!·.isEmpty))
  rcases (hmem first).1 hfull.1 with rfl | rfl
  · cases hfull.2
  · rfl

/-- Whether an option is over a group. -/
theorem Over.group {name : Text} {inner : El} (h : Over cx name inner) {group : Bool}
    (hgroup : abnfOptGroup cx name = .done group) :
    group = true ↔ ∃ g, inner = .ref g ∧ abnfHelperKind cx g = .done (some "group".toList) := by
  obtain ⟨raw, hraw, hmem⟩ := h.alts
  unfold abnfOptGroup at hgroup
  rw [hraw, Run.done_bind, Over.filled hmem] at hgroup
  cases inner with
  | ref g =>
    obtain ⟨kind, hkind, hgroup⟩ := Run.bind_eq_done hgroup
    have hgroup := Run.done.inj hgroup
    rw [← hgroup, decide_eq_true_eq]
    constructor
    · rintro rfl
      exact ⟨g, rfl, hkind⟩
    · rintro ⟨_, heq, hkind'⟩
      cases heq
      exact Run.done.inj (hkind.symm.trans hkind')
  | tok t =>
    cases hgroup
    simp
  | tail seq =>
    cases hgroup
    simp
  | grp seq =>
    cases hgroup
    simp

/-- An alternative of an option is empty, or the one element, or a group that it was factored from. -/
theorem Over.mem_alts {n : Nat} {name : Text} {inner : El} {alts : List Seq} (h : Over cx name inner)
    (hfact : lastFact cx [inner] = .done none) (halts : abnfAlts cx n name = .done alts) {seq : Seq}
    (hseq : seq ∈ alts) :
    seq = [] ∨ seq = [inner] ∨
      ∃ one g, seq = [.grp one] ∧ inner = .ref g ∧ abnfHelperKind cx g = .done (some "group".toList) := by
  obtain ⟨raw, hraw, hmem⟩ := h.alts
  obtain ⟨raw', hraw', halts⟩ := Run.bind_eq_done halts
  cases hraw.symm.trans hraw'
  obtain ⟨expanded, hexp, halts⟩ := Run.bind_eq_done halts
  obtain ⟨split, hsplit, halts⟩ := Run.bind_eq_done halts
  cases halts
  -- neither alternative ends in a factored tail, so expanding leaves both
  have hexpand : ∀ alt ∈ expanded.flatten, alt = [] ∨ alt = [inner] := by
    intro alt halt
    obtain ⟨part, hpart, halt⟩ := List.mem_flatten.1 halt
    obtain ⟨alt', halt', hrun⟩ := Run.mem_each hexp hpart
    rcases (hmem alt').1 halt' with rfl | rfl
    · rw [expand_none rfl hrun] at halt
      exact .inl (List.mem_singleton.1 halt)
    · rw [expand_none hfact hrun] at halt
      exact .inr (List.mem_singleton.1 halt)
  obtain ⟨part, hpart, hseq⟩ := List.mem_flatten.1 hseq
  obtain ⟨alt, halt, hrun⟩ := Run.mem_each hsplit hpart
  rcases splitGroup_done hrun with rfl | ⟨g, _, ones, rfl, hkind, -, -, rfl⟩
  · rw [List.mem_singleton.1 hseq]
    exact (hexpand alt halt).imp_right .inl
  · obtain ⟨one, -, rfl⟩ := List.mem_map.1 hseq
    rcases hexpand _ halt with hnil | heq
    · cases hnil
    · cases heq
      exact .inr (.inr ⟨one, g, rfl, rfl, hkind⟩)

/-! ## Helpers written as what they generate -/

variable {n : Nat} {name : Text} {t : Tree}

/-- Alternatives that are all the same after a step that leaves them as they are. -/
theorem each_same {f : Seq → Out (List Seq)} {alt : Seq} {alts : List Seq} {parts : List (List Seq)}
    (hall : ∀ s, s ∈ alts ↔ s = alt) (hf : ∀ part, f alt = .done part → part = [alt])
    (h : Run.each f alts = .done parts) :
    ∀ s, s ∈ parts.flatten ↔ s = alt := by
  intro s
  rw [List.mem_flatten]
  constructor
  · rintro ⟨part, hpart, hs⟩
    obtain ⟨alt', halt', hrun⟩ := Run.mem_each h hpart
    rw [(hall alt').1 halt'] at hrun
    rw [hf part hrun] at hs
    exact List.mem_singleton.1 hs
  · rintro rfl
    obtain ⟨part, hpart, hrun⟩ := Run.mem_of_each h ((hall s).2 rfl)
    exact ⟨part, hpart, hf part hrun ▸ List.mem_cons_self⟩

/-- A sequence of more than one element, which does not end in a factored tail, is read back as it is. -/
theorem Only.alts_head {alt : Seq} {alts : List Seq} (honly : Only cx name alt) (hfact : lastFact cx alt = .done none)
    (hlen : alt.length ≠ 1) (h : abnfAlts cx n name = .done alts) : alts.head? = some alt := by
  obtain ⟨raw, hraw, h⟩ := Run.bind_eq_done h
  obtain ⟨expanded, hexp, h⟩ := Run.bind_eq_done h
  obtain ⟨split, hsplit, h⟩ := Run.bind_eq_done h
  cases h
  have hsame : ∀ part, abnfSplitGroup cx n name alt = .done part → part = [alt] := by
    intro part hpart
    rcases splitGroup_done hpart with rfl | ⟨helper, _, _, rfl, -⟩
    · rfl
    · exact absurd rfl hlen
  obtain ⟨raw', hraw', hmem⟩ := honly
  cases hraw'.symm.trans hraw
  have hall := each_same (each_same hmem (fun part => expand_none hfact) hexp) hsame hsplit
  obtain ⟨first, rest, hfirst⟩ := List.exists_cons_of_ne_nil (List.ne_nil_of_mem ((hall alt).2 rfl))
  rw [hfirst, List.head?_cons, (hall first).1 (hfirst ▸ List.mem_cons_self)]

/-- A repetition of a helper's one item. -/
theorem Preserves.item (ih : Preserves cx lifted n) {item : El} {count : Count} (hitem : Formed cx item)
    (h : ((treeAtom cx lifted n item).bind fun t => (.done (.rep count t) : Out Tree)) = .done t) :
    t.words.map some = (repeated (item.words cx) count.min count.max).map (writtenAs cx lifted) := by
  obtain ⟨inner, hinner, h⟩ := Run.bind_eq_done h
  cases h
  rw [Tree.words, map_repeated, map_repeated, ih.atom item inner hitem hinner]

theorem Preserves.star (ih : Preserves cx lifted n) {item : El}
    (hkind : abnfHelperKind cx name = .done (some "star".toList))
    (hloop : Loop cx name item) (hitem : Formed cx item) (h : treeEl cx lifted (n + 1) (.ref name) = .done t) :
    t.words.map some = ((El.ref name).words cx).map (writtenAs cx lifted) := by
  rw [treeEl, hkind, Run.done_bind, Run.ofOption, Run.done_bind, if_neg (by decide), if_pos rfl] at h
  obtain ⟨item', hitem', h⟩ := Run.bind_eq_done h
  cases hloop.item_eq hitem'
  rw [ih.item hitem h, words_made hloop.made, hloop.words]
  congr 1
  exact (repeated_atLeast 0).trans (one_mul _)

theorem Preserves.plus (ih : Preserves cx lifted n) {loop : Text} {item : El}
    (hkind : abnfHelperKind cx name = .done (some "plus".toList)) (hlossless : Lossless cx name)
    (honly : Only cx name [item, .ref loop]) (hstar : abnfHelperKind cx loop = .done (some "star".toList))
    (hloop : Loop cx loop item) (hitem : Formed cx item) (h : treeEl cx lifted (n + 1) (.ref name) = .done t) :
    t.words.map some = ((El.ref name).words cx).map (writtenAs cx lifted) := by
  rw [treeEl, hkind, Run.done_bind, Run.ofOption, Run.done_bind, if_neg (by decide), if_neg (by decide),
    if_pos rfl] at h
  obtain ⟨alts, halts, h⟩ := Run.bind_eq_done h
  obtain ⟨item', hitem', h⟩ := Run.bind_eq_done h
  -- the sequence ends in a star, which is no factored tail
  have hfact : lastFact cx [item, .ref loop] = .done none := by
    rw [lastFact, show [item, El.ref loop].getLast? = some (.ref loop) from rfl]
    simp only [hstar, Run.done_bind]
    rfl
  rw [Run.ofOption_eq_done, honly.alts_head hfact (by simp) halts] at hitem'
  cases hitem'
  rw [ih.item hitem h, words_made (made_of_kind hkind (by decide)), honly.words hlossless, seqWords, seqWords_single,
    words_made hloop.made, hloop.words]
  congr 1
  exact (repeated_atLeast 1).trans (by rw [pow_one])

theorem Preserves.opt (ih : Preserves cx lifted n) {inner : El} (hover : Over cx name inner)
    (hfact : lastFact cx [inner] = .done none) (hinner : Formed cx inner)
    (h : treeEl cx lifted (n + 1) (.ref name) = .done t) :
    t.words.map some = ((El.ref name).words cx).map (writtenAs cx lifted) := by
  rw [treeEl, hover.kind, Run.done_bind, Run.ofOption, Run.done_bind, if_neg (by decide), if_neg (by decide),
    if_neg (by decide), if_pos rfl] at h
  obtain ⟨alts, halts, h⟩ := Run.bind_eq_done h
  obtain ⟨inner', hinner', h⟩ := Run.bind_eq_done h
  obtain ⟨group, hgroup, h⟩ := Run.bind_eq_done h
  rw [Run.ofOption_eq_done] at hinner'
  have hread : inner' = inner ∨ (∃ one, inner' = .grp one) ∧ group = true := by
    obtain ⟨first, hfirst, hhead⟩ := Option.bind_eq_some_iff.1 hinner'
    have hin := List.mem_filter.1 (List.mem_of_mem_head? hfirst)
    rcases hover.mem_alts hfact halts hin.1 with rfl | rfl | ⟨one, g, rfl, hg⟩
    · cases hhead
    · exact .inl (Option.some.inj hhead).symm
    · exact .inr ⟨⟨one, (Option.some.inj hhead).symm⟩, (hover.group hgroup).2 ⟨g, hg⟩⟩
  rw [hover.words]
  cases group with
  | true =>
    obtain ⟨innerName, hname, h⟩ := Run.bind_eq_done h
    obtain ⟨innerAlts, hinnerAlts, h⟩ := Run.bind_eq_done h
    obtain ⟨trees, htrees, h⟩ := Run.bind_eq_done h
    cases h
    obtain ⟨g, rfl, hg⟩ := (hover.group hgroup).1 rfl
    -- a group that it was factored from has no name to be written by
    rcases hread with rfl | ⟨⟨one, rfl⟩, -⟩
    · cases hname
      obtain ⟨-, raw, hraw, hall⟩ := hinner.inside hg (.inr rfl)
      rw [Tree.words, hinner.words hg (.inr rfl) hraw, ← alts_words hraw hall hinnerAlts, map_add, map_add,
        map_one, map_one,
        ih.alts innerAlts trees (formed_inherited.alts hraw hall hinnerAlts) htrees]
    · cases hname
  | false =>
    rcases hread with rfl | ⟨-, hfalse⟩
    · rw [ih.item hinner h]
      congr 1
      exact repeated_option
    · cases hfalse

theorem Preserves.rep (ih : Preserves cx lifted n) {item : El} {seq : Seq}
    (hkind : abnfHelperKind cx name = .done (some "rep".toList)) (hlossless : Lossless cx name)
    (honly : Only cx name seq) (hcopies : Copies cx name item seq) (hitem : Formed cx item)
    (h : treeEl cx lifted (n + 1) (.ref name) = .done t) :
    t.words.map some = ((El.ref name).words cx).map (writtenAs cx lifted) := by
  rw [treeEl, hkind, Run.done_bind, Run.ofOption, Run.done_bind, if_neg (by decide), if_neg (by decide),
    if_neg (by decide), if_neg (by decide), if_pos rfl] at h
  obtain ⟨parts, hparts, h⟩ := Run.bind_eq_done h
  obtain ⟨hread, hwords⟩ := hcopies.parts honly hparts
  rw [ih.item (hread ▸ hitem) h, words_made (made_of_kind hkind (by decide)), honly.words hlossless, hwords, hread]

theorem Preserves.around (ih : Preserves cx lifted n) {kind : Text} {raw : List Seq}
    (hkind : abnfHelperKind cx name = .done (some kind)) (hk : kind = "fact".toList ∨ kind = "group".toList)
    (hlossless : Lossless cx name) (hraw : abnfRawAlts cx name = .done raw) (hall : AllEls (Formed cx) raw)
    (h : treeEl cx lifted (n + 1) (.ref name) = .done t) :
    t.words.map some = ((El.ref name).words cx).map (writtenAs cx lifted) := by
  rw [treeEl, hkind, Run.done_bind, Run.ofOption, Run.done_bind] at h
  rcases hk with rfl | rfl
  · rw [if_neg (by decide), if_neg (by decide), if_neg (by decide), if_neg (by decide), if_neg (by decide),
      if_neg (by decide)] at h
    cases h
  · rw [if_neg (by decide), if_neg (by decide), if_neg (by decide), if_neg (by decide), if_neg (by decide),
      if_pos rfl] at h
    obtain ⟨alts, halts, h⟩ := Run.bind_eq_done h
    obtain ⟨trees, htrees, h⟩ := Run.bind_eq_done h
    cases h
    rw [Tree.words, ih.alts alts trees (formed_inherited.alts hraw hall halts) htrees, alts_words hraw hall halts,
      words_made (made_of_kind hkind (by decide)), rawAlts_words hlossless hraw]

theorem Preserves.ref (ih : Preserves cx lifted n) (hf : Formed cx (.ref name))
    (h : treeEl cx lifted (n + 1) (.ref name) = .done t) :
    t.words.map some = ((El.ref name).words cx).map (writtenAs cx lifted) := by
  cases hf with
  | rule hmade =>
    have hkind : abnfHelperKind cx name = .done (some []) := by
      rw [abnfHelperKind, hmade]
      rfl
    rw [treeEl, hkind, Run.done_bind, Run.ofOption, Run.done_bind, if_pos rfl] at h
    cases h
    rw [Tree.words, words_rule hmade, map_single, map_single]
    rfl
  | star hkind hloop hitem => exact ih.star hkind hloop hitem h
  | plus hkind hlossless honly hstar hloop hitem => exact ih.plus hkind hlossless honly hstar hloop hitem h
  | opt hover hfact hinner => exact ih.opt hover hfact hinner h
  | rep hkind hlossless honly hcopies hitem => exact ih.rep hkind hlossless honly hcopies hitem h
  | alts hkind hk hlossless hraw hall => exact ih.around hkind hk hlossless hraw hall h

theorem Preserves.succ_el (ih : Preserves cx lifted n) (el : El) (t : Tree) (hf : Formed cx el)
    (h : treeEl cx lifted (n + 1) el = .done t) : t.words.map some = (el.words cx).map (writtenAs cx lifted) := by
  have hseq : ∀ {seq alts}, (∀ el ∈ seq, Formed cx el) → treeAlts cx lifted n [seq] = .done alts →
      (treeAltsWords alts).map some = (seqWords cx seq).map (writtenAs cx lifted) := by
    intro seq alts hall halts
    rw [ih.alts [seq] alts (fun seq' hseq' => List.mem_singleton.1 hseq' ▸ hall) halts, altsWords_single]
  cases el with
  | tok t => exact treeTok_words h
  | ref name => exact ih.ref hf h
  | tail seq =>
    obtain ⟨alts, halts, h⟩ := Run.bind_eq_done h
    cases h
    cases hf with
    | tail hall =>
      have hwords := hseq hall halts
      obtain ⟨trees, rfl⟩ := treeAlts_single halts
      rw [treeAltsWords, treeAltsWords, add_zero] at hwords
      rw [List.flatten_singleton, Tree.words, El.words, map_add, map_add, map_one, map_one, hwords]
  | grp seq =>
    obtain ⟨alts, halts, h⟩ := Run.bind_eq_done h
    cases h
    cases hf with
    | grp hall => rw [Tree.words, El.words, hseq hall halts]

theorem Preserves.succ_atom (ih : Preserves cx lifted n) (el : El) (t : Tree) (hf : Formed cx el)
    (h : treeAtom cx lifted (n + 1) el = .done t) : t.words.map some = (el.words cx).map (writtenAs cx lifted) := by
  cases el with
  | tok t => exact treeTok_words h
  | _ => exact ih.el _ t hf h

/-- The trees at each depth have the words of the elements they are of. -/
theorem tree_words (n : Nat) : Preserves cx lifted n := by
  induction n with
  | zero =>
    constructor
    · intro x alts _ h
      cases h
    · intro el t _ h
      cases h
    · intro el t _ h
      cases h
  | succ n ih =>
    exact ⟨fun x alts hall h => altsTrees_words (fun seq hseq el hel t => ih.el el t (hall seq hseq el hel)) h,
      ih.succ_el, ih.succ_atom⟩

/-- What is written for a helper of the shape that its kind is read in is an element that generates exactly what the
helper's alternates do. -/
theorem abnfText_generates (hl : ∀ t ∈ lifted, abnfLegalName (abnfBare t) = true) {s : Text}
    (hf : Formed cx (.ref name))
    (h : abnfText cx lifted n (.el (.ref name)) = .done s) :
    ∃ t, treeEl cx lifted n (.ref name) = .done t ∧ t.text = .done s ∧
      t.words.map some = ((El.ref name).words cx).map (writtenAs cx lifted) := by
  obtain ⟨t, ht, hs⟩ := (abnfText_tree hl n).el (.ref name) s h
  exact ⟨t, ht, hs, (tree_words n).el _ t hf ht⟩

end

end TabnasAbnf.Render
