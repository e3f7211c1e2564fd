/-
`mergeIncrementals` as the ports run it, over the alternatives as each keeps them: TypeScript pushes
onto an array it shares with the production, Go appends to a slice, Rust rebuilds a vector. Whatever
holds the alternatives, the merge fails or folds every incremental into the latest base of its name,
and for each name the alternatives of the source come out in their order.
-/
import TabnasAbnf.Base.LastIdx
import TabnasAbnf.Base.Sharing
import TabnasAbnf.Passes.Merge

namespace TabnasAbnf.Passes

open TabnasAbnf.Base TabnasAbnf.Meta

variable {H A S K : Type}

/-! ## The merge -/

/-- A production as a port holds it: its alternatives are behind an `A`, and `K` are the kinds of
node the compiler knows. -/
structure Entry (K A : Type) where
  name : Text
  alts : A
  incremental : Bool := false
  sp : Option Span := none
  nodeKind : Option K := none
  value : Option ValueAnnotation := none
  deriving DecidableEq, Repr

/-- The productions kept so far, and the latest of each name by its place among them. -/
structure Growing (H K A : Type) where
  heap : H
  out : List (Entry K A) := []
  byName : List (Text × Nat) := []

/-- The base with its alternatives grown and the annotation of an incremental. -/
def Entry.grown (p : Entry K A) (alts : A) (base : Entry K A) : Entry K A :=
  { base with alts, value := base.value.or p.value }

/-- The latest base of a name, with its place. -/
def Growing.base (m : Growing H K A) (name : Text) : Option (Nat × Entry K A) :=
  (m.byName.lookup name).bind fun i => (m.out[i]?).map (i, ·)

def growOne (L : Sharing H A S) (m : Growing H K A) (p : Entry K A) : Except MergeError (Growing H K A) :=
  if p.incremental then
    match m.base p.name with
    | none => .error (.noBase p.name)
    | some (i, base) =>
      let (heap, alts) := L.grow m.heap base.alts p.alts
      if p.value.isSome ∧ base.value.isSome then .error (.moreThanOne p.name)
      else .ok { m with heap, out := m.out.modify i (p.grown alts) }
  else
    .ok { m with out := m.out ++ [{ p with incremental := false }]
                 byName := (p.name, m.out.length) :: m.byName }

def growAll (L : Sharing H A S) (h : H) (prods : List (Entry K A)) : Except MergeError (H × List (Entry K A)) :=
  (prods.foldlM (growOne L) { heap := h }).map fun m => (m.heap, m.out)

namespace Ts

/-- `base.alts.push(...p.alts)`, on the arrays the productions came with. -/
def mergeIncrementals (h : Store (List S)) (prods : List (Entry K Nat)) :
    Except MergeError (Store (List S) × List (Entry K Nat)) := growAll (cells S) h prods

end Ts

namespace Go

/-- `base.Alts = append(base.Alts, p.Alts...)`. -/
def mergeIncrementals (zero : S) (spare : Nat → Nat) (h : Store (List S)) (prods : List (Entry K Slice)) :
    Except MergeError (Store (List S) × List (Entry K Slice)) := growAll (slices zero spare) h prods

end Go

namespace Rust

/-- `merged.extend(extra)`, on a copy of the base's alternatives. -/
def merge_incrementals (prods : List (Entry K (List S))) : Except MergeError (List (Entry K (List S))) :=
  (growAll (values S) () prods).map (·.2)

end Rust

/-! ## One merge for the three -/

/-- A production with its alternatives read off the heap. -/
def Entry.seen (L : Sharing H A S) (h : H) (p : Entry K A) : Entry K (List S) := { p with alts := L.read h p.alts }

def Growing.seen (L : Sharing H A S) (m : Growing H K A) : Growing Unit K (List S) :=
  { heap := (), out := m.out.map (·.seen L m.heap), byName := m.byName }

section

variable {L : Sharing H A S} {m m' : Growing H K A} {p : Entry K A} {rest : List (Entry K A)}

theorem growOne_base (hp : p.incremental = false) :
    growOne L m p = .ok { m with out := m.out ++ [{ p with incremental := false }]
                                 byName := (p.name, m.out.length) :: m.byName } := by
  rw [growOne, if_neg (by rw [hp]; exact Bool.false_ne_true)]

theorem growOne_noBase (hp : p.incremental = true) (hb : m.base p.name = none) :
    growOne L m p = .error (.noBase p.name) := by
  rw [growOne, if_pos hp, hb]

theorem growOne_twice (hp : p.incremental = true) {i : Nat} {base : Entry K A} (hb : m.base p.name = some (i, base))
    (hv : p.value.isSome = true) (hbv : base.value.isSome = true) :
    growOne L m p = .error (.moreThanOne p.name) := by
  rw [growOne, if_pos hp, hb]
  exact if_pos ⟨hv, hbv⟩

theorem growOne_grown (hp : p.incremental = true) {i : Nat} {base : Entry K A} (hb : m.base p.name = some (i, base))
    (hv : ¬ (p.value.isSome = true ∧ base.value.isSome = true)) :
    growOne L m p = .ok { m with heap := (L.grow m.heap base.alts p.alts).1
                                 out := m.out.modify i (p.grown (L.grow m.heap base.alts p.alts).2) } := by
  rw [growOne, if_pos hp, hb]
  exact if_neg hv

theorem modify_middle {X : Type} (pre : List X) (x : X) (post : List X) (f : X → X) :
    (pre ++ x :: post).modify pre.length f = pre ++ f x :: post := by
  induction pre with
  | nil => rfl
  | cons y pre ih => rw [List.cons_append, List.length_cons, List.modify_succ_cons, ih, List.cons_append]

theorem split_at {X : Type} {l : List X} {i : Nat} {x : X} (h : l[i]? = some x) :
    ∃ pre post, l = pre ++ x :: post ∧ pre.length = i := by
  obtain ⟨hi, rfl⟩ := List.getElem?_eq_some_iff.1 h
  refine ⟨l.take i, l.drop (i + 1), ?_, List.length_take_of_le hi.le⟩
  rw [← List.drop_eq_getElem_cons hi, List.take_append_drop]

theorem modify_congr {X : Type} {l : List X} {i : Nat} {x : X} {f g : X → X} (h : l[i]? = some x) (he : f x = g x) :
    l.modify i f = l.modify i g := by
  obtain ⟨pre, post, rfl, rfl⟩ := split_at h
  rw [modify_middle, modify_middle, he]

theorem base_seen (name : Text) :
    (m.seen L).base name = (m.base name).map fun b => (b.1, b.2.seen L m.heap) := by
  unfold Growing.base Growing.seen
  cases m.byName.lookup name with
  | none => rfl
  | some i =>
    simp only [Option.bind_some, List.getElem?_map]
    cases m.out[i]? <;> rfl

theorem base_get {name : Text} {i : Nat} {b : Entry K A} (h : m.base name = some (i, b)) : m.out[i]? = some b := by
  obtain ⟨j, -, hj⟩ := Option.bind_eq_some_iff.1 h
  obtain ⟨x, hx, he⟩ := Option.map_eq_some_iff.1 hj
  cases he
  exact hx

theorem growOne_seen (hown : L.Own m.heap ((m.out ++ p :: rest).map (·.alts))) :
    growOne (values S) (m.seen L) (p.seen L m.heap) = (growOne L m p).map (·.seen L) ∧
      ∀ m', growOne L m p = .ok m' → L.Own m'.heap ((m'.out ++ rest).map (·.alts)) ∧
        ∀ q ∈ rest, q.seen L m'.heap = q.seen L m.heap := by
  cases hp : p.incremental with
  | false =>
    have hp' : (p.seen L m.heap).incremental = false := hp
    rw [growOne_base hp, growOne_base hp']
    refine ⟨?_, fun m' he => ?_⟩
    · simp [Except.map, Growing.seen, Entry.seen]
    · cases he
      refine ⟨?_, fun q _ => rfl⟩
      simpa using hown
  | true =>
    have hp' : (p.seen L m.heap).incremental = true := hp
    have hseen : (m.seen L).base (p.seen L m.heap).name = _ := base_seen p.name
    cases hb : m.base p.name with
    | none =>
      rw [hb] at hseen
      rw [growOne_noBase hp hb, growOne_noBase hp' hseen]
      exact ⟨rfl, fun m' he => nomatch he⟩
    | some found =>
      obtain ⟨i, base⟩ := found
      rw [hb] at hseen
      by_cases hv : p.value.isSome = true ∧ base.value.isSome = true
      · rw [growOne_twice hp hb hv.1 hv.2, growOne_twice hp' hseen hv.1 hv.2]
        exact ⟨rfl, fun m' he => nomatch he⟩
      · obtain ⟨pre, post, hout, rfl⟩ := split_at (base_get hb)
        have hperm : ((m.out ++ p :: rest).map (·.alts)).Perm
            (base.alts :: p.alts :: (pre ++ post ++ rest).map (·.alts)) := by
          rw [hout, ← List.map_cons, ← List.map_cons]
          refine List.Perm.map _ (List.perm_middle.trans (.trans (.cons p ?_) (.swap ..)))
          simp
        -- the base owns its cells apart from the others, so that growing it leaves what they hold
        obtain ⟨hown', hread, hframe⟩ := (hown.perm hperm).grow
        rw [growOne_grown hp hb hv, growOne_grown hp' hseen hv]
        have hsame : ∀ q ∈ pre ++ post ++ rest,
            q.seen L (L.grow m.heap base.alts p.alts).1 = q.seen L m.heap := fun q hq => by
          rw [Entry.seen, Entry.seen, hframe q.alts (List.mem_map_of_mem hq)]
        refine ⟨?_, fun m' he => ?_⟩
        · have hpre : pre.map (·.seen L (L.grow m.heap base.alts p.alts).1) = pre.map (·.seen L m.heap) :=
            List.map_congr_left fun q hq => hsame q (by simp [hq])
          have hpost : post.map (·.seen L (L.grow m.heap base.alts p.alts).1) = post.map (·.seen L m.heap) :=
            List.map_congr_left fun q hq => hsame q (by simp [hq])
          have hlen : pre.length = (pre.map (·.seen L m.heap)).length := (List.length_map ..).symm
          simp only [Except.map, Growing.seen, hout, modify_middle, List.map_append, List.map_cons, hpre, hpost]
          rw [hlen, modify_middle]
          simp only [Entry.seen, Entry.grown, hread]
          rfl
        · cases he
          refine ⟨hown'.perm ?_, fun q hq => hsame q (by simp [hq])⟩
          rw [hout, modify_middle]
          simpa [Entry.grown] using List.perm_middle.symm
/-- A run over references is the run over what they read. -/
theorem growOne_run {ps : List (Entry K A)} (hown : L.Own m.heap ((m.out ++ ps).map (·.alts))) :
    (ps.map (·.seen L m.heap)).foldlM (growOne (values S)) (m.seen L) = (ps.foldlM (growOne L) m).map (·.seen L) := by
  induction ps generalizing m with
  | nil => rfl
  | cons p ps ih =>
    obtain ⟨hstep, hkeep⟩ := growOne_seen hown
    rw [List.map_cons, List.foldlM_cons, List.foldlM_cons, hstep]
    cases hm : growOne L m p with
    | error e => rfl
    | ok m' =>
      obtain ⟨hown', hsame⟩ := hkeep m' hm
      have hrest : ps.map (·.seen L m.heap) = ps.map (·.seen L m'.heap) :=
        List.map_congr_left fun q hq => (hsame q hq).symm
      rw [hrest]
      exact ih hown'

/-- The merge over references answers what the merge over values does. -/
theorem growAll_seen {h : H} {ps : List (Entry K A)} (hown : L.Own h (ps.map (·.alts))) :
    (growAll L h ps).map (fun r => r.2.map (·.seen L r.1)) = Rust.merge_incrementals (ps.map (·.seen L h)) := by
  have hrun := @growOne_run H A S K L { heap := h } ps hown
  unfold growAll Rust.merge_incrementals growAll
  rw [show ({ heap := () } : Growing Unit K (List S)) = Growing.seen L { heap := h } from rfl, hrun]
  cases ps.foldlM (growOne L) { heap := h } <;> rfl

end

/-! ## The alternatives of a merge -/

section

variable {ps : List (Entry K (List S))} {p q b : Entry K (List S)} {name : Text}

/-- The incrementals of a name before the next base of the name. -/
def increments (name : Text) (ps : List (Entry K A)) : List (Entry K A) :=
  (ps.takeWhile fun q => q.incremental || q.name ≠ name).filter (·.name = name)

/-- A base with the alternatives of its incrementals behind its own, and the first annotation among
them. -/
def Entry.absorbing (b : Entry K (List S)) (qs : List (Entry K (List S))) : Entry K (List S) :=
  { b with alts := b.alts ++ qs.flatMap (·.alts), value := b.value.or (qs.findSome? (·.value)) }

/-- The bases, each with its increments. -/
def merged : List (Entry K (List S)) → List (Entry K (List S))
  | [] => []
  | p :: ps => if p.incremental then merged ps else p.absorbing (increments p.name ps) :: merged ps

/-- A base of the name stands among the productions. -/
def HasBase (name : Text) (ps : List (Entry K A)) : Prop := ∃ b ∈ ps, b.name = name ∧ b.incremental = false

/-- An incremental the merge cannot take after these productions: there is no base of its name, or
it is annotated and so is its base, or another incremental that came to it. -/
inductive Blocked (pre : List (Entry K A)) (q : Entry K A) : Prop
  | noBase : q.incremental = true → ¬ HasBase q.name pre → Blocked pre q
  | moreThanOne {a b mid p} : q.incremental = true → q.value.isSome = true → pre = a ++ b :: mid →
    b.name = q.name → b.incremental = false → ¬ HasBase q.name mid → p ∈ b :: mid → p.name = q.name →
    p.value.isSome = true → Blocked pre q

/-- Why a merge fails. -/
def Refuses (ps : List (Entry K A)) : Prop := ∃ pre q post, ps = pre ++ q :: post ∧ Blocked pre q

/-- What the merge keeps of its productions. -/
structure Conserves (ps out : List (Entry K (List S))) : Prop where
  flagless : ∀ p ∈ out, p.incremental = false
  kept : out.map (fun b => (b.name, b.sp, b.nodeKind)) =
    (ps.filter (!·.incremental)).map fun b => (b.name, b.sp, b.nodeKind)
  alts : ∀ pre b post, ps = pre ++ b :: post → b.incremental = false →
    (out[(pre.filter (!·.incremental)).length]?).map (·.alts) =
      some (b.alts ++ (increments b.name post).flatMap (·.alts))
  byName : ∀ name, (out.filter (·.name = name)).flatMap (·.alts) = (ps.filter (·.name = name)).flatMap (·.alts)

/-! ## Increments -/

theorem hasBase_cons {name : Text} {p : Entry K A} {ps : List (Entry K A)} :
    HasBase name (p :: ps) ↔ (p.name = name ∧ p.incremental = false) ∨ HasBase name ps := by
  simp [HasBase]

theorem HasBase.split {name : Text} {ps : List (Entry K A)} (h : HasBase name ps) :
    ∃ a b mid, ps = a ++ b :: mid ∧ b.name = name ∧ b.incremental = false ∧ ¬ HasBase name mid := by
  obtain ⟨b, hb, hn, hi⟩ := h
  obtain ⟨a, b, mid, rfl, hP, hmid⟩ := @exists_last _ (fun e : Entry K A => decide (e.name = name) && !e.incremental)
    ps ⟨b, hb, by simp [hn, hi]⟩
  refine ⟨a, b, mid, rfl, (by simpa using hP : _ ∧ _).1, (by simpa using hP : _ ∧ _).2, ?_⟩
  rintro ⟨e, he, hen, hei⟩
  have := hmid e he
  simp [hen, hei] at this

theorem increments_cons {name : Text} {p : Entry K A} {ps : List (Entry K A)} :
    increments name (p :: ps) =
      if p.name = name then (if p.incremental then p :: increments name ps else []) else increments name ps := by
  unfold increments
  by_cases hn : p.name = name
  · cases hp : p.incremental <;> simp [hn, hp]
  · simp [hn]

/-- One more production comes after a base of the name, or is an increment. -/
theorem increments_snoc {name : Text} {q : Entry K A} (ps : List (Entry K A)) (hq : q.incremental = true)
    (hn : q.name = name) (hb : ¬ HasBase name ps) : increments name (ps ++ [q]) = increments name ps ++ [q] := by
  induction ps with
  | nil => simp [hq, hn, increments]
  | cons p ps ih =>
    rw [hasBase_cons, not_or] at hb
    rw [List.cons_append, increments_cons, increments_cons, ih hb.2]
    split
    · rename_i hpn
      rw [if_pos (by simpa [hpn] using hb.1), if_pos (by simpa [hpn] using hb.1), List.cons_append]
    · rfl

theorem increments_snoc_of_not {name : Text} {q : Entry K A} (ps : List (Entry K A))
    (h : q.incremental = false ∨ q.name ≠ name ∨ HasBase name ps) :
    increments name (ps ++ [q]) = increments name ps := by
  induction ps with
  | nil =>
    rw [List.nil_append, increments_cons]
    rcases h with hq | hn | ⟨b, hb, -⟩
    · simp [hq, increments]
    · simp [hn, increments]
    · cases hb
  | cons p ps ih =>
    rw [List.cons_append, increments_cons, increments_cons]
    by_cases hp : p.name = name ∧ p.incremental = false
    · simp [hp.1, hp.2]
    · rw [ih (by rwa [hasBase_cons, or_iff_right hp] at h)]

/-! ## The bases of a merge -/

theorem merged_flagless : ∀ p ∈ merged ps, p.incremental = false := by
  induction ps with
  | nil => intro p hp; cases hp
  | cons q ps ih =>
    rw [merged]
    split
    · exact ih
    · rename_i hq
      rintro p hp
      rcases List.mem_cons.1 hp with rfl | hp
      · simpa [Entry.absorbing] using hq
      · exact ih p hp

theorem merged_kept : (merged ps).map (fun b => (b.name, b.sp, b.nodeKind)) =
    (ps.filter (!·.incremental)).map fun b => (b.name, b.sp, b.nodeKind) := by
  induction ps with
  | nil => rfl
  | cons q ps ih =>
    rw [merged]
    cases hq : q.incremental <;> simp [hq, ih, Entry.absorbing]

theorem merged_names : (merged ps).map (·.name) = (ps.filter (!·.incremental)).map (·.name) := by
  have h := congrArg (List.map Prod.fst) (@merged_kept _ _ ps)
  rwa [List.map_map, List.map_map] at h

/-- An incremental leaves the places of the names. -/
theorem latest_inc (ps : List (Entry K (List S))) (hq : q.incremental = true) :
    lastIdx (fun e => decide (e.name = name)) (merged (ps ++ [q])) =
      lastIdx (fun e => decide (e.name = name)) (merged ps) := by
  have hnames : (merged (ps ++ [q])).map (·.name) = (merged ps).map (·.name) := by
    rw [merged_names, merged_names, List.filter_append]
    simp [hq]
  have hmap : ∀ l : List (Entry K (List S)), lastIdx (fun e => decide (e.name = name)) l =
      lastIdx (fun n => decide (n = name)) (l.map (·.name)) := fun l =>
    (@lastIdx_map Text _ (fun n => decide (n = name)) Entry.name l).symm
  rw [hmap, hnames, ← hmap]

theorem hasBase_merged : (∃ b ∈ merged ps, decide (b.name = name) = true) ↔ HasBase name ps := by
  induction ps with
  | nil => simp [merged, HasBase]
  | cons q ps ih =>
    rw [hasBase_cons, ← ih, merged]
    cases hq : q.incremental <;> simp [Entry.absorbing]

theorem latest_eq_none :
    lastIdx (fun e => decide (e.name = name)) (merged ps) = none ↔ ¬ HasBase name ps := by
  rw [← hasBase_merged, lastIdx_eq_none]
  simp

theorem merged_append (pre post : List (Entry K (List S))) :
    ∃ front, merged (pre ++ post) = front ++ merged post ∧ front.length = (pre.filter (!·.incremental)).length := by
  induction pre with
  | nil => exact ⟨[], rfl, rfl⟩
  | cons q pre ih =>
    obtain ⟨front, he, hlen⟩ := ih
    rw [List.cons_append, merged]
    cases hq : q.incremental with
    | true => exact ⟨front, by simpa using he, by simpa [hq] using hlen⟩
    | false => exact ⟨_ :: front, by rw [he]; rfl, by simpa [hq] using hlen⟩

/-- The latest base of a name in a merge, where the source has it. -/
theorem merged_split {a mid : List (Entry K (List S))} (hn : b.name = name) (hb : b.incremental = false)
    (hmid : ¬ HasBase name mid) :
    lastIdx (fun e => decide (e.name = name)) (merged (a ++ b :: mid)) = some (a.filter (!·.incremental)).length ∧
      (merged (a ++ b :: mid))[(a.filter (!·.incremental)).length]? = some (b.absorbing (increments name mid)) := by
  obtain ⟨front, he, hlen⟩ := merged_append a (b :: mid)
  rw [he, merged, hb, if_neg Bool.false_ne_true, ← hlen, hn]
  refine ⟨lastIdx_split (decide_eq_true hn) fun e he => ?_, by simp⟩
  exact lastIdx_eq_none.1 (latest_eq_none.2 hmid) e he

/-- For a name, the alternatives of a source are those of the increments it begins with and those of
its merge. -/
theorem merged_byName (ps : List (Entry K (List S))) (name : Text) :
    (ps.filter (·.name = name)).flatMap (·.alts) =
      (increments name ps).flatMap (·.alts) ++ ((merged ps).filter (·.name = name)).flatMap (·.alts) := by
  induction ps with
  | nil => rfl
  | cons q ps ih =>
    rw [increments_cons, merged]
    by_cases hn : q.name = name
    · subst hn
      cases hq : q.incremental with
      | true => simp [ih]
      | false => simp [ih, Entry.absorbing]
    · cases hq : q.incremental <;> simp [hn, ih, Entry.absorbing]

/-! ## The loop -/

theorem absorbing_nil (b : Entry K (List S)) : b.absorbing [] = b := by
  simp [Entry.absorbing]

theorem absorbing_snoc (b : Entry K (List S)) (qs : List (Entry K (List S))) :
    b.absorbing (qs ++ [q]) = q.grown ((b.absorbing qs).alts ++ q.alts) (b.absorbing qs) := by
  simp [Entry.absorbing, Entry.grown, Option.or_assoc]

theorem merged_base (ps : List (Entry K (List S))) (hq : q.incremental = false) :
    merged (ps ++ [q]) = merged ps ++ [q] := by
  induction ps with
  | nil => simp [merged, hq, increments, absorbing_nil]
  | cons p ps ih =>
    rw [List.cons_append, merged, merged, ih, increments_snoc_of_not ps (.inl hq)]
    split <;> rfl

theorem merged_orphan (ps : List (Entry K (List S))) (hq : q.incremental = true) (hb : ¬ HasBase q.name ps) :
    merged (ps ++ [q]) = merged ps := by
  induction ps with
  | nil => simp [merged, hq]
  | cons p ps ih =>
    rw [hasBase_cons, not_or] at hb
    rw [List.cons_append, merged, merged, ih hb.2]
    split
    · rfl
    · rename_i hp
      have hne : q.name ≠ p.name := fun he => hb.1 ⟨he.symm, by simpa using hp⟩
      rw [increments_snoc_of_not ps (.inr (.inl hne))]

/-- An incremental comes to the latest base of its name. -/
theorem merged_inc (ps : List (Entry K (List S))) (hq : q.incremental = true) {i : Nat}
    (hi : lastIdx (fun e => decide (e.name = q.name)) (merged ps) = some i) :
    merged (ps ++ [q]) = (merged ps).modify i fun b => q.grown (b.alts ++ q.alts) b := by
  induction ps generalizing i with
  | nil => cases hi
  | cons p ps ih =>
    rw [List.cons_append]
    cases hp : p.incremental with
    | true =>
      rw [merged, if_pos hp] at hi ⊢
      rw [ih hi, merged, if_pos hp]
    | false =>
      rw [merged, if_neg (by simp [hp]), lastIdx] at hi
      rw [merged, merged, if_neg (by simp [hp]), if_neg (by simp [hp])]
      -- the base stands in the rest, or it is this one and the rest has none
      cases hl : lastIdx (fun e => decide (e.name = q.name)) (merged ps) with
      | some j =>
        rw [hl] at hi
        cases hi
        have hbase : HasBase q.name ps := by
          by_contra hno
          rw [latest_eq_none.2 hno] at hl
          cases hl
        have hinc : increments p.name (ps ++ [q]) = increments p.name ps := by
          by_cases hn : q.name = p.name
          · exact increments_snoc_of_not ps (.inr (.inr (hn ▸ hbase)))
          · exact increments_snoc_of_not ps (.inr (.inl hn))
        rw [hinc, ih hl, List.modify_succ_cons]
      | none =>
        rw [hl] at hi
        have hbase := latest_eq_none.1 hl
        change (if decide (p.name = q.name) = true then some 0 else none) = some i at hi
        have hn : p.name = q.name := by
          by_contra hne
          rw [if_neg (by simpa using hne)] at hi
          cases hi
        rw [if_pos (decide_eq_true hn)] at hi
        cases hi
        rw [merged_orphan ps hq hbase, hn, increments_snoc ps hq rfl hbase, List.modify_zero_cons, absorbing_snoc]

theorem refuses_snoc : Refuses (ps ++ [q]) ↔ Refuses ps ∨ Blocked ps q := by
  constructor
  · rintro ⟨pre, r, post, he, hb⟩
    rcases List.eq_nil_or_concat post with rfl | ⟨post, s, rfl⟩
    · obtain ⟨rfl, hr⟩ := List.append_inj' he rfl
      cases hr
      exact .inr hb
    · rw [List.concat_eq_append, ← List.cons_append, ← List.append_assoc] at he
      obtain ⟨rfl, -⟩ := List.append_inj' he rfl
      exact .inl ⟨pre, r, post, rfl, hb⟩
  · rintro (⟨pre, r, post, rfl, hb⟩ | hb)
    · exact ⟨pre, r, post ++ [q], by simp, hb⟩
    · exact ⟨ps, q, [], rfl, hb⟩

theorem increments_eq_filter {ps : List (Entry K (List S))} (h : ¬ HasBase name ps) :
    increments name ps = ps.filter (·.name = name) := by
  induction ps with
  | nil => rfl
  | cons p ps ih =>
    rw [hasBase_cons, not_or] at h
    rw [increments_cons, ih h.2]
    by_cases hn : p.name = name
    · have hp : p.incremental = true := by simpa [hn] using h.1
      simp [hn, hp]
    · simp [hn]

theorem absorbing_annotated (b : Entry K (List S)) (qs : List (Entry K (List S))) :
    (b.absorbing qs).value.isSome = true ↔ ∃ p ∈ b :: qs, p.value.isSome = true := by
  simp [Entry.absorbing, List.findSome?_isSome_iff]

/-- An incremental is blocked by the base it comes to, where there is one. -/
theorem blocked_iff {a mid : List (Entry K (List S))} (hq : q.incremental = true) (hn : b.name = q.name)
    (hb : b.incremental = false) (hmid : ¬ HasBase q.name mid) :
    Blocked (a ++ b :: mid) q ↔
      q.value.isSome = true ∧ (b.absorbing (increments q.name mid)).value.isSome = true := by
  obtain ⟨hlast, hget⟩ := merged_split (a := a) hn hb hmid
  rw [absorbing_annotated]
  constructor
  · rintro (⟨-, hno⟩ | ⟨-, hv, he, hn', hb', hmid', hp, hpn, hpv⟩)
    · exact absurd ⟨b, by simp, hn, hb⟩ hno
    · rename_i a' b' mid' p
      -- the latest base does not depend on how the source is split
      rw [he] at hlast hget
      obtain ⟨hlast', hget'⟩ := merged_split (a := a') hn' hb' hmid'
      rw [Option.some.inj (hlast.symm.trans hlast'), hget'] at hget
      refine ⟨hv, (absorbing_annotated _ _).1 ?_⟩
      rw [← Option.some.inj hget, absorbing_annotated, increments_eq_filter hmid']
      refine ⟨p, ?_, hpv⟩
      rcases List.mem_cons.1 hp with rfl | hp
      · exact List.mem_cons_self
      · exact List.mem_cons_of_mem _ (List.mem_filter.2 ⟨hp, decide_eq_true hpn⟩)
  · rintro ⟨hv, p, hp, hpv⟩
    rw [increments_eq_filter hmid] at hp
    rcases List.mem_cons.1 hp with rfl | hp
    · exact .moreThanOne hq hv rfl hn hb hmid List.mem_cons_self hn hpv
    · obtain ⟨hp, hpn⟩ := List.mem_filter.1 hp
      exact .moreThanOne hq hv rfl hn hb hmid (List.mem_cons_of_mem _ hp) (of_decide_eq_true hpn) hpv

/-- What the loop holds after the productions before. -/
structure Grown (ps : List (Entry K (List S))) (m : Growing Unit K (List S)) : Prop where
  out : m.out = merged ps
  byName : ∀ name, m.byName.lookup name = lastIdx (fun e => decide (e.name = name)) (merged ps)

/-- One more production: taken, or blocked. -/
theorem grown_step {m : Growing Unit K (List S)} (h : Grown ps m) :
    match growOne (values S) m q with
    | .ok m' => ¬ Blocked ps q ∧ Grown (ps ++ [q]) m'
    | .error _ => Blocked ps q := by
  cases hq : q.incremental with
  | false =>
    rw [growOne_base hq]
    refine ⟨?_, ?_, fun name => ?_⟩
    · rintro (⟨hi, -⟩ | ⟨hi, -⟩) <;> exact Bool.false_ne_true (hq.symm.trans hi)
    · rw [merged_base ps hq, h.out, ← hq]
    · rw [merged_base ps hq, lastIdx_snoc, List.lookup_cons, h.out, h.byName]
      by_cases hn : q.name = name
      · simp [hn]
      · simp [hn, beq_eq_false_iff_ne.2 (Ne.symm hn)]
  | true =>
    -- without a base an increment is refused, and with one it grows the last
    by_cases hbase : HasBase q.name ps
    · obtain ⟨a, b, mid, rfl, hn, hi, hmid⟩ := hbase.split
      obtain ⟨hlast, hget⟩ := merged_split (a := a) hn hi hmid
      have hfound : m.base q.name = some ((a.filter (!·.incremental)).length,
          b.absorbing (increments q.name mid)) := by
        rw [Growing.base, h.byName, hlast, Option.bind_some, h.out, hget]
        rfl
      by_cases hv : q.value.isSome = true ∧ (b.absorbing (increments q.name mid)).value.isSome = true
      · rw [growOne_twice hq hfound hv.1 hv.2]
        exact (blocked_iff hq hn hi hmid).2 hv
      · rw [growOne_grown hq hfound hv]
        refine ⟨fun hb => hv ((blocked_iff hq hn hi hmid).1 hb), ?_, fun name => ?_⟩
        · rw [merged_inc _ hq hlast, h.out]
          exact modify_congr hget rfl
        · rw [latest_inc _ hq]
          exact h.byName name
    · have hnone : m.base q.name = none := by
        rw [Growing.base, h.byName, latest_eq_none.2 hbase]
        rfl
      rw [growOne_noBase hq hnone]
      exact .noBase hq hbase

/-- The loop answers the bases with their increments, or the productions are refused. -/
theorem grow_run (ps : List (Entry K (List S))) :
    match ps.foldlM (growOne (values S)) { heap := () } with
    | .ok m => ¬ Refuses ps ∧ Grown ps m
    | .error _ => Refuses ps := by
  induction ps using List.reverseRecOn with
  | nil => exact ⟨fun ⟨pre, q, post, he, _⟩ => by simp at he, rfl, fun _ => rfl⟩
  | append_singleton ps q ih =>
    rw [List.foldlM_append]
    cases hr : ps.foldlM (growOne (values S)) { heap := () } with
    | error e =>
      rw [hr] at ih
      exact refuses_snoc.2 (.inl ih)
    | ok m =>
      rw [hr] at ih
      have hstep := grown_step (q := q) ih.2
      rw [show (Except.ok m >>= fun init => [q].foldlM (growOne (values S)) init) = growOne (values S) m q
        from by simp only [List.foldlM_cons, List.foldlM_nil, bind_pure]; rfl]
      cases hf : growOne (values S) m q with
      | error e =>
        rw [hf] at hstep
        exact refuses_snoc.2 (.inr hstep)
      | ok m' =>
        rw [hf] at hstep
        exact ⟨fun h => (refuses_snoc.1 h).elim ih.1 hstep.1, hstep.2⟩

/-! ## What the merge keeps -/

theorem increments_of_not_refused (h : ¬ Refuses ps) (name : Text) : increments name ps = [] := by
  induction ps using List.reverseRecOn with
  | nil => rfl
  | append_singleton ps q ih =>
    rw [refuses_snoc, not_or] at h
    rw [increments_snoc_of_not ps, ih h.1]
    by_contra hne
    simp only [not_or, Bool.not_eq_false, ne_eq, not_not] at hne
    obtain ⟨hq, hn, hb⟩ := hne
    exact h.2 (.noBase hq (hn ▸ hb))

theorem merged_conserves (h : ¬ Refuses ps) : Conserves ps (merged ps) where
  flagless := merged_flagless
  kept := merged_kept
  alts := by
    rintro pre b post rfl hb
    obtain ⟨front, he, hlen⟩ := merged_append pre (b :: post)
    rw [he, merged, hb, ← hlen]
    simp [Entry.absorbing]
  byName name := by rw [merged_byName ps name, increments_of_not_refused h name]; rfl

/-- The merge fails on the productions it refuses, and keeps what it does not refuse. -/
structure Keeps (ps : List (Entry K (List S))) (answer : Except MergeError (List (Entry K (List S)))) : Prop where
  fails : (∃ e, answer = .error e) ↔ Refuses ps
  conserves : ∀ out, answer = .ok out → Conserves ps out

theorem merge_incrementals_keeps (ps : List (Entry K (List S))) : Keeps ps (Rust.merge_incrementals ps) := by
  have hrun := grow_run ps
  unfold Rust.merge_incrementals growAll
  cases hm : ps.foldlM (growOne (values S)) { heap := () } with
  | error e =>
    rw [hm] at hrun
    constructor
    · exact ⟨fun _ => hrun, fun _ => ⟨e, rfl⟩⟩
    · intro out h
      cases h
  | ok m =>
    rw [hm] at hrun
    obtain ⟨hno, hgrown⟩ := hrun
    constructor
    · refine ⟨fun h => ?_, fun h => absurd h hno⟩
      obtain ⟨e, he⟩ := h
      cases he
    · intro out h
      cases h
      change Conserves ps m.out
      rw [hgrown.out]
      exact merged_conserves hno

end

/-! ## The merge that does not look at node kinds -/

/-- A production without its node kind. -/
def Entry.forget (p : Entry K (List S)) : Production S := ⟨p.name, p.alts, p.incremental, p.sp, p.value⟩

def Growing.forget (m : Growing Unit K (List S)) : Merging S := { out := m.out.map Entry.forget, byName := m.byName }

theorem growOne_forget {ps : List (Entry K (List S))} {m : Growing Unit K (List S)} (h : Grown ps m)
    (q : Entry K (List S)) : mergeOne m.forget q.forget = (growOne (values S) m q).map Growing.forget := by
  cases hq : q.incremental with
  | false =>
    rw [growOne_base hq, mergeOne, if_neg (by simp [Entry.forget, hq])]
    simp [Except.map, Growing.forget, Entry.forget, clean]
  | true =>
    rw [mergeOne, if_pos (show q.forget.incremental = true from hq)]
    cases hl : m.byName.lookup q.name with
    | none =>
      have hb : m.base q.name = none := by rw [Growing.base, hl]; rfl
      rw [growOne_noBase hq hb, show m.forget.byName.lookup q.forget.name = none from hl]
      rfl
    | some i =>
      obtain ⟨b, hb, -⟩ := lastIdx_some ((h.byName q.name).symm.trans hl)
      rw [← h.out] at hb
      have hfound : m.base q.name = some (i, b) := by rw [Growing.base, hl, Option.bind_some, hb]; rfl
      rw [show m.forget.byName.lookup q.forget.name = some i from hl]
      simp only [Growing.forget, List.getElem?_map, hb, Option.map_some, Option.bind_some]
      by_cases hv : q.value.isSome = true ∧ b.value.isSome = true
      · rw [growOne_twice hq hfound hv.1 hv.2, if_pos (by exact hv)]
        rfl
      · rw [growOne_grown hq hfound hv, if_neg (by exact hv)]
        obtain ⟨pre, post, hout, rfl⟩ := split_at hb
        have hlen : pre.length = (pre.map Entry.forget).length := (List.length_map ..).symm
        simp only [Except.map, hout, modify_middle, List.map_append, List.map_cons]
        rw [hlen, modify_middle]
        simp only [Growing.forget, List.map_append, List.map_cons]
        rfl

/-- Forgetting node kinds before the merge or after it is the same. -/
theorem merge_incrementals_forget (ps : List (Entry K (List S))) :
    mergeIncrementals (ps.map Entry.forget) = (Rust.merge_incrementals ps).map (List.map Entry.forget) := by
  have hrun : (ps.map Entry.forget).foldlM mergeOne {} =
      (ps.foldlM (growOne (values S)) { heap := () }).map Growing.forget := by
    induction ps using List.reverseRecOn with
    | nil => rfl
    | append_singleton ps q ih =>
      have hgrown := grow_run ps
      rw [List.map_append, List.foldlM_append, List.foldlM_append, ih]
      cases hr : ps.foldlM (growOne (values S)) { heap := () } with
      | error e => rfl
      | ok m =>
        rw [hr] at hgrown
        have hstep := growOne_forget hgrown.2 q
        simp only [Except.map, List.map_cons, List.map_nil]
        change ([q.forget].foldlM mergeOne m.forget) = ([q].foldlM (growOne (values S)) m).map Growing.forget
        simp only [List.foldlM_cons, List.foldlM_nil, bind_pure]
        exact hstep
  unfold mergeIncrementals Rust.merge_incrementals growAll
  rw [hrun]
  cases ps.foldlM (growOne (values S)) { heap := () } <;> rfl

/-- The merge over references, read off the heap, is the merge of what the references hold. -/
theorem growAll_refines {L : Sharing H A S} {h : H} {ps : List (Entry K A)} (hown : L.Own h (ps.map (·.alts))) :
    (growAll L h ps).map (fun r => r.2.map fun p => (p.seen L r.1).forget) =
      mergeIncrementals (ps.map fun p => (p.seen L h).forget) := by
  have hforget := merge_incrementals_forget (ps.map (·.seen L h))
  rw [List.map_map, ← growAll_seen hown] at hforget
  refine Eq.trans ?_ hforget.symm
  cases growAll L h ps with
  | error e => rfl
  | ok r =>
    simp only [Except.map, List.map_map]
    rfl

/-! ## The ports -/

/-- Every port's merge keeps its productions: TypeScript's where no two share an array, Go's where no
two share room in an array, whatever room its new arrays get, and Rust's always. -/
theorem mergeIncrementals_keeps :
    (∀ (h : Store (List S)) (ps : List (Entry K Nat)), (cells S).Own h (ps.map (·.alts)) →
      Keeps (ps.map (·.seen (cells S) h))
        ((Ts.mergeIncrementals h ps).map fun r => r.2.map (·.seen (cells S) r.1))) ∧
    (∀ (zero : S) (spare : Nat → Nat) (h : Store (List S)) (ps : List (Entry K Slice)),
      (slices zero spare).Own h (ps.map (·.alts)) →
        Keeps (ps.map (·.seen (slices zero spare) h))
          ((Go.mergeIncrementals zero spare h ps).map fun r => r.2.map (·.seen (slices zero spare) r.1))) ∧
    ∀ ps : List (Entry K (List S)), Keeps ps (Rust.merge_incrementals ps) := by
  refine ⟨fun h ps hown => ?_, fun zero spare h ps hown => ?_, merge_incrementals_keeps⟩
  · rw [Ts.mergeIncrementals, growAll_seen hown]
    exact merge_incrementals_keeps _
  · rw [Go.mergeIncrementals, growAll_seen hown]
    exact merge_incrementals_keeps _

/-- Three arrays. -/
theorem own_cells : (cells Nat).Own [[1], [2], [3, 4]] [0, 1, 2] := by
  constructor
  · change ∀ a ∈ [0, 1, 2], a < 3
    decide
  · change [0, 1, 2].Pairwise (· ≠ ·)
    decide

/-- Three slices, of which the first has room. -/
theorem own_slices : (slices 0 id).Own [[1, 0, 0], [2], [3, 4]] [⟨0, 0, 1, 3⟩, ⟨1, 0, 1, 1⟩, ⟨2, 0, 2, 2⟩] := by
  constructor
  · intro s hs
    simp only [List.mem_cons, List.not_mem_nil, or_false] at hs
    rcases hs with rfl | rfl | rfl <;> exact ⟨by decide, fun _ => by decide⟩
  · simp [slices, Slice.Apart]

/-- `a = 1`, `b = 2`, `a =/ 3 4`, in three arrays, and in three slices of which the first has room. -/
theorem mergeIncrementals_keeps_arrays :
    let bases {A : Type} (x y : A) : List (Entry Unit A) := [⟨['a'], x, false, none, none, none⟩,
      ⟨['b'], y, false, none, none, none⟩]
    let ps {A : Type} (x y z : A) : List (Entry Unit A) := bases x y ++ [⟨['a'], z, true, none, none, none⟩]
    (Ts.mergeIncrementals [[1], [2], [3, 4]] (ps 0 1 2)).map (·.2) = .ok (bases 0 1) ∧
      (Go.mergeIncrementals 0 id [[1, 0, 0], [2], [3, 4]] (ps ⟨0, 0, 1, 3⟩ ⟨1, 0, 1, 1⟩ ⟨2, 0, 2, 2⟩)).map (·.2) =
        .ok (bases ⟨0, 0, 3, 3⟩ ⟨1, 0, 1, 1⟩) ∧
      Conserves (ps [1] [2] [3, 4]) (bases [1, 3, 4] [2]) ∧ ¬ Refuses (ps [1] [2] [3, 4]) := by
  intro bases ps
  obtain ⟨hts, hgo, -⟩ := @mergeIncrementals_keeps Nat Unit
  refine ⟨rfl, rfl, (hts _ (ps 0 1 2) own_cells).conserves _ rfl, fun hr => ?_⟩
  obtain ⟨e, he⟩ := (hgo 0 id _ (ps ⟨0, 0, 1, 3⟩ ⟨1, 0, 1, 1⟩ ⟨2, 0, 2, 2⟩) own_slices).fails.2 hr
  cases he

/-- Every port's merge, its arrays read off its heap and the node kinds left out, is the merge of values that the passes
run, refusals included. -/
theorem mergeIncrementals_refines :
    (∀ (h : Store (List S)) (ps : List (Entry K Nat)), (cells S).Own h (ps.map (·.alts)) →
      (Ts.mergeIncrementals h ps).map (fun r => r.2.map fun p => (p.seen (cells S) r.1).forget) =
        mergeIncrementals (ps.map fun p => (p.seen (cells S) h).forget)) ∧
    (∀ (zero : S) (spare : Nat → Nat) (h : Store (List S)) (ps : List (Entry K Slice)),
      (slices zero spare).Own h (ps.map (·.alts)) →
        (Go.mergeIncrementals zero spare h ps).map (fun r => r.2.map fun p => (p.seen (slices zero spare) r.1).forget) =
          mergeIncrementals (ps.map fun p => (p.seen (slices zero spare) h).forget)) ∧
    ∀ ps : List (Entry K (List S)),
      (Rust.merge_incrementals ps).map (List.map Entry.forget) = mergeIncrementals (ps.map Entry.forget) :=
  ⟨fun _ _ hown => growAll_refines hown, fun _ _ _ _ hown => growAll_refines hown,
    fun ps => (merge_incrementals_forget ps).symm⟩

/-- The increment of `a` takes the room behind its slice, and what is read is the merge of the lists. -/
theorem mergeIncrementals_refines_room :
    let ps : List (Entry Unit Slice) := [⟨['a'], ⟨0, 0, 1, 3⟩, false, none, none, none⟩,
      ⟨['b'], ⟨1, 0, 1, 1⟩, false, none, none, none⟩, ⟨['a'], ⟨2, 0, 2, 2⟩, true, none, none, none⟩]
    (Go.mergeIncrementals 0 id [[1, 0, 0], [2], [3, 4]] ps).map (·.1) = .ok [[1, 3, 4], [2], [3, 4]] ∧
      mergeIncrementals [⟨['a'], [1], false, none, none⟩, ⟨['b'], [2], false, none, none⟩,
        ⟨['a'], [3, 4], true, none, none⟩] = .ok [⟨['a'], [1, 3, 4], false, none, none⟩,
          ⟨['b'], [2], false, none, none⟩] := by
  intro ps
  exact ⟨rfl, ((@mergeIncrementals_refines Nat Unit).2.1 0 id _ ps own_slices).symm⟩

end TabnasAbnf.Passes
