/-
Objects by address. An object has data, references to what is its own, which a copy of it makes anew, and references
to what it shares, which a copy shares with it. A copy of a tree that shares nothing is apart from the tree; and a run
of addresses that nothing outside refers into is out of reach for whoever holds objects outside, whatever they write.
-/
import TabnasAbnf.Base.Store
import Mathlib.Data.List.Basic

namespace TabnasAbnf.Base

structure Obj (D : Type) where
  data : D
  own : List Nat
  shared : List Nat := []

variable {D : Type}

def Obj.links (o : Obj D) : List Nat := o.own ++ o.shared

abbrev Objects (D : Type) := Store (Obj D)

/-! ## Trees -/

inductive Rose (D : Type)
  | node (data : D) (kids : List (Rose D))

mutual

def Rose.depth : Rose D → Nat
  | .node _ ks => depthAll ks + 1

def depthAll : List (Rose D) → Nat
  | [] => 0
  | k :: ks => max k.depth (depthAll ks)

end

section

variable (ok : List Nat → Prop) (h : Objects D)

mutual

/-- An address holds a tree through what its objects own; `ok` is asked of what they share. -/
def Holds : Nat → Rose D → Prop
  | a, .node d ks => ∃ o, h[a]? = some o ∧ o.data = d ∧ ok o.shared ∧ HoldsAll o.own ks

def HoldsAll : List Nat → List (Rose D) → Prop
  | [], [] => True
  | a :: as, k :: ks => Holds a k ∧ HoldsAll as ks
  | _, _ => False

end

end

/-- What an address holds where nothing is shared. -/
abbrev HoldsBare (h : Objects D) : Nat → Rose D → Prop := Holds (· = []) h

abbrev HoldsBareAll (h : Objects D) : List Nat → List (Rose D) → Prop := HoldsAll (· = []) h

/-! ## Copies and stripping -/

/-- One address after another. -/
def copyEach (copy : Objects D → Nat → Objects D × Nat) : Objects D → List Nat → Objects D × List Nat
  | h, [] => (h, [])
  | h, a :: as =>
    let (h, b) := copy h a
    let (h, bs) := copyEach copy h as
    (h, b :: bs)

/-- A copy of what an address holds, `n` levels down: a new object with the fields of the old one, whose own objects
are then copied. -/
def copy : Nat → Objects D → Nat → Objects D × Nat
  | 0, h, a => (h, a)
  | n + 1, h, a =>
    match h[a]? with
    | none => (h, a)
    | some o =>
      let (h', own) := copyEach (copy n) (h ++ [o]) o.own
      (h'.modify h.length fun o => { o with own }, h.length)

/-- What an address holds, `n` levels down, made to share nothing, in place. -/
def strip : Nat → Objects D → Nat → Objects D
  | 0, h, _ => h
  | n + 1, h, a =>
    match h[a]? with
    | none => h
    | some o => o.own.foldl (strip n) (h.modify a fun o => { o with shared := [] })

/-! ## What holds a tree in another heap -/

section

variable {ok ok' : List Nat → Prop} {h h' : Objects D}

/-- Every object stays where it is with its data and its own objects; what it shares may change. -/
def Keeps (ok ok' : List Nat → Prop) (h h' : Objects D) : Prop :=
  ∀ (a : Nat) (o : Obj D), h[a]? = some o →
    ∃ o' : Obj D, h'[a]? = some o' ∧ o'.data = o.data ∧ o'.own = o.own ∧ (ok o.shared → ok' o'.shared)

mutual

theorem Holds.mono (hk : Keeps ok ok' h h') : (t : Rose D) → ∀ {a : Nat}, Holds ok h a t → Holds ok' h' a t
  | .node d ks, a, ⟨o, ho, hd, hok, hks⟩ => by
    obtain ⟨o', ho', hd', hown, hok'⟩ := hk a o ho
    exact ⟨o', ho', hd'.trans hd, hok' hok, hown ▸ HoldsAll.mono hk ks hks⟩

theorem HoldsAll.mono (hk : Keeps ok ok' h h') :
    (ts : List (Rose D)) → ∀ {as : List Nat}, HoldsAll ok h as ts → HoldsAll ok' h' as ts
  | [], [], _ => trivial
  | t :: ts, _ :: _, ⟨ht, hts⟩ => ⟨Holds.mono hk t ht, HoldsAll.mono hk ts hts⟩

end

theorem Extends.keeps (he : Extends h h') : Keeps ok ok h h' := fun _ o ho => ⟨o, he.get ho, rfl, rfl, id⟩

theorem Holds.extends (he : Extends h h') {a : Nat} {t : Rose D} (ht : Holds ok h a t) : Holds ok h' a t :=
  Holds.mono he.keeps t ht

theorem HoldsAll.extends (he : Extends h h') {as : List Nat} {ts : List (Rose D)} (hts : HoldsAll ok h as ts) :
    HoldsAll ok h' as ts := HoldsAll.mono he.keeps ts hts

/-- Addresses from `lo` up to `hi` whose objects refer to one another alone. -/
def Inward (lo hi : Nat) (h : Objects D) : Prop :=
  ∀ (a : Nat) (o : Obj D), lo ≤ a → a < hi → h[a]? = some o → ∀ l ∈ o.links, lo ≤ l ∧ l < hi

mutual

/-- What is held in such a run of addresses is held wherever the run is the same. -/
theorem Holds.inward {lo hi : Nat} (hin : Inward lo hi h) (hsame : ∀ a, lo ≤ a → a < hi → h'[a]? = h[a]?) :
    (t : Rose D) → ∀ {a : Nat}, lo ≤ a → a < hi → Holds ok h a t → Holds ok h' a t
  | .node d ks, a, hlo, hhi, ⟨o, ho, hd, hok, hks⟩ => by
    refine ⟨o, (hsame a hlo hhi).trans ho, hd, hok, HoldsAll.inward hin hsame ks (fun l hl => ?_) hks⟩
    exact hin a o hlo hhi ho l (List.mem_append_left _ hl)

theorem HoldsAll.inward {lo hi : Nat} (hin : Inward lo hi h) (hsame : ∀ a, lo ≤ a → a < hi → h'[a]? = h[a]?) :
    (ts : List (Rose D)) → ∀ {as : List Nat}, (∀ a ∈ as, lo ≤ a ∧ a < hi) → HoldsAll ok h as ts → HoldsAll ok h' as ts
  | [], [], _, _ => trivial
  | t :: ts, a :: as, has, ⟨ht, hts⟩ => by
    obtain ⟨⟨hlo, hhi⟩, has⟩ := List.forall_mem_cons.1 has
    exact ⟨Holds.inward hin hsame t hlo hhi ht, HoldsAll.inward hin hsame ts has hts⟩

end

end

/-! ## A copy -/

/-- Bare copies: what was there is as it was, and what is new refers to what is new alone. -/
structure Copied (h h' : Objects D) (bs : List Nat) (ts : List (Rose D)) : Prop where
  kept : Extends h h'
  holds : HoldsBareAll h' bs ts
  new : ∀ b ∈ bs, h.length ≤ b ∧ b < h'.length
  inward : Inward h.length h'.length h'

theorem Copied.nil (h : Objects D) : Copied h h [] [] :=
  ⟨.refl h, trivial, nofun, fun _ _ hlo hhi => absurd hlo (Nat.not_le_of_lt hhi)⟩

/-- One after another. -/
theorem Copied.append {h h' h'' : Objects D} {bs' : List Nat} {t : Rose D} {ts : List (Rose D)} {b : Nat}
    (hone : Copied h h' [b] [t])
    (hrest : Copied h' h'' bs' ts) : Copied h h'' (b :: bs') (t :: ts) := by
  have hle := hone.kept.1
  have hle' := hrest.kept.1
  refine ⟨hone.kept.trans hrest.kept, ⟨hone.holds.1.extends hrest.kept, hrest.holds⟩, fun c hc => ?_,
    fun c o hlo hhi hc => ?_⟩
  · rcases List.mem_cons.1 hc with rfl | hc
    · have hnew := hone.new _ List.mem_cons_self
      exact ⟨hnew.1, hnew.2.trans_le hle'⟩
    · have hnew := hrest.new c hc
      exact ⟨hle.trans hnew.1, hnew.2⟩
  · intro l hl
    by_cases hc' : c < h'.length
    · rw [hrest.kept.2 c hc'] at hc
      have hin := hone.inward c o hlo hc' hc l hl
      exact ⟨hin.1, hin.2.trans_le hle'⟩
    · have hin := hrest.inward c o (Nat.le_of_not_lt hc') hhi hc l hl
      exact ⟨hle.trans hin.1, hin.2⟩

theorem copyEach_copied {n : Nat} {f : Objects D → Nat → Objects D × Nat}
    (hf : ∀ h a t, t.depth ≤ n → HoldsBare h a t → Copied h (f h a).1 [(f h a).2] [t]) :
    (ts : List (Rose D)) → ∀ (h : Objects D) (as : List Nat), depthAll ts ≤ n → HoldsBareAll h as ts →
      Copied h (copyEach f h as).1 (copyEach f h as).2 ts
  | [], h, [], _, _ => .nil h
  | t :: ts, h, a :: as, hd, ⟨ht, hts⟩ => by
    rw [depthAll, Nat.max_le] at hd
    have hone := hf h a t hd.1 ht
    exact hone.append (copyEach_copied hf ts (f h a).1 as hd.2 (hts.extends hone.kept))

theorem copy_copied (n : Nat) : ∀ (h : Objects D) (a : Nat) (t : Rose D), t.depth ≤ n → HoldsBare h a t →
    Copied h (copy n h a).1 [(copy n h a).2] [t] := by
  induction n with
  | zero =>
    rintro h a ⟨d, ks⟩ hd
    rw [Rose.depth] at hd
    omega
  | succ n ih =>
    rintro h a ⟨d, ks⟩ hd ⟨o, ho, rfl, hshared, hks⟩
    rw [Rose.depth] at hd
    have hkids := copyEach_copied ih ks (h ++ [o]) o.own (by omega) (hks.extends (extends_new h o))
    rw [copy, ho]
    simp only
    generalize copyEach (copy n) (h ++ [o]) o.own = r at hkids
    obtain ⟨h', own⟩ := r
    have hlen : (h ++ [o]).length = h.length + 1 := List.length_append
    have hle := hkids.kept.1
    have hget : h'[h.length]? = some o := hkids.kept.get (get_new h o)
    rw [hlen] at hle
    -- the run behind the new object is not touched when it is given its own
    have hsame : ∀ c, (h ++ [o]).length ≤ c → c < h'.length →
        (h'.modify h.length fun o => { o with own })[c]? = h'[c]? := fun c hc _ => get_modify_ne (by omega)
    refine ⟨extends_modify ((extends_new h o).trans hkids.kept) le_rfl,
      ⟨⟨_, get_modify hget, rfl, hshared, ?_⟩, trivial⟩, ?_, ?_⟩
    · exact HoldsAll.inward hkids.inward hsame ks hkids.new hkids.holds
    · intro b hb
      rw [List.mem_singleton.1 hb, List.length_modify]
      exact ⟨le_rfl, by omega⟩
    · intro c o' hlo hhi hc l hl
      rw [List.length_modify] at hhi ⊢
      by_cases hceq : c = h.length
      · subst hceq
        rw [get_modify hget] at hc
        cases hc
        have hown : l ∈ own := by simpa [Obj.links, hshared] using hl
        have hnew := hkids.new l hown
        exact ⟨by omega, hnew.2⟩
      · rw [hsame c (by omega) hhi] at hc
        have hin := hkids.inward c o' (by omega) hhi hc l hl
        exact ⟨by omega, hin.2⟩

/-! ## Planting -/

mutual

/-- A tree as new objects, each behind its own. -/
def plant (h : Objects D) : Rose D → Objects D × Nat
  | .node d ks =>
    let (h', as) := plantAll h ks
    (h' ++ [⟨d, as, []⟩], h'.length)

def plantAll (h : Objects D) : List (Rose D) → Objects D × List Nat
  | [] => (h, [])
  | k :: ks =>
    let (h', a) := plant h k
    let (h'', as) := plantAll h' ks
    (h'', a :: as)

end

mutual

theorem plant_copied (h : Objects D) : (t : Rose D) → Copied h (plant h t).1 [(plant h t).2] [t]
  | .node d ks => by
    have hkids := plantAll_copied h ks
    rw [plant]
    generalize plantAll h ks = r at hkids
    obtain ⟨h', as⟩ := r
    simp only at hkids ⊢
    have hle := hkids.kept.1
    have hlen : (h' ++ [(⟨d, as, []⟩ : Obj D)]).length = h'.length + 1 := List.length_append
    refine ⟨hkids.kept.trans (extends_new h' _),
      ⟨⟨_, get_new h' _, rfl, rfl, hkids.holds.extends (extends_new h' _)⟩, trivial⟩,
      fun b hb => ?_, fun c o hlo hhi hc l hl => ?_⟩
    · rw [List.mem_singleton.1 hb, hlen]
      exact ⟨hle, Nat.lt_succ_self _⟩
    · by_cases hc' : c < h'.length
      · rw [(extends_new h' _).2 c hc'] at hc
        have hin := hkids.inward c o hlo hc' hc l hl
        exact ⟨hin.1, by omega⟩
      · obtain rfl : c = h'.length := by omega
        rw [get_new] at hc
        cases hc
        have hnew := hkids.new l (by simpa [Obj.links] using hl)
        exact ⟨hnew.1, by omega⟩

theorem plantAll_copied (h : Objects D) : (ts : List (Rose D)) → Copied h (plantAll h ts).1 (plantAll h ts).2 ts
  | [] => .nil h
  | t :: ts => (plant_copied h t).append (plantAll_copied _ ts)

end

/-! ## Stripping -/

/-- A heap with the shared references of some objects taken away. -/
structure Stripped (h h' : Objects D) : Prop where
  length : h'.length = h.length
  get : ∀ (a : Nat) (o : Obj D), h[a]? = some o → h'[a]? = some o ∨ h'[a]? = some { o with shared := [] }

namespace Stripped

variable {h h' h'' : Objects D}

theorem refl (h : Objects D) : Stripped h h := ⟨rfl, fun _ _ ho => .inl ho⟩

theorem trans (hs : Stripped h h') (hs' : Stripped h' h'') : Stripped h h'' := by
  refine ⟨hs'.length.trans hs.length, fun a o ho => ?_⟩
  rcases hs.get a o ho with ho' | ho'
  · exact hs'.get a o ho'
  · exact .inr ((hs'.get a _ ho').elim id id)

theorem keeps (hs : Stripped h h') {ok : List Nat → Prop} (hok : ok []) : Keeps ok ok h h' := by
  intro a o ho
  rcases hs.get a o ho with ho' | ho'
  · exact ⟨o, ho', rfl, rfl, id⟩
  · exact ⟨_, ho', rfl, rfl, fun _ => hok⟩

/-- No object refers to more than it did. -/
theorem links (hs : Stripped h h') {a : Nat} {o' : Obj D} (ho' : h'[a]? = some o') :
    ∃ o, h[a]? = some o ∧ ∀ l ∈ o'.links, l ∈ o.links := by
  have hlt : a < h.length := hs.length ▸ (List.getElem?_eq_some_iff.1 ho').1
  refine ⟨h[a], List.getElem?_eq_getElem hlt, fun l hl => ?_⟩
  rcases hs.get a _ (List.getElem?_eq_getElem hlt) with h' | h'
  · rw [ho'] at h'
    cases h'
    exact hl
  · rw [ho'] at h'
    cases h'
    exact List.mem_append_left _ (by simpa [Obj.links] using hl)

end Stripped

theorem foldl_stripped {f : Objects D → Nat → Objects D} (hf : ∀ h a, Stripped h (f h a)) (as : List Nat)
    (h : Objects D) :
    Stripped h (as.foldl f h) := by
  induction as generalizing h with
  | nil => exact .refl h
  | cons a as ih => exact (hf h a).trans (ih _)

theorem strip_stripped (n : Nat) (h : Objects D) (a : Nat) : Stripped h (strip n h a) := by
  induction n generalizing h a with
  | zero => exact .refl h
  | succ n ih =>
    rw [strip]
    cases ho : h[a]? with
    | none => exact .refl h
    | some o =>
      have hone : Stripped h (h.modify a fun o => { o with shared := [] }) := by
        refine ⟨List.length_modify .., fun c o' hc => ?_⟩
        by_cases hca : c = a
        · subst hca
          exact .inr (get_modify hc)
        · exact .inl ((get_modify_ne (Ne.symm hca)).trans hc)
      exact hone.trans (foldl_stripped ih o.own _)

theorem foldl_strip_bare {n : Nat} {f : Objects D → Nat → Objects D} (hf : ∀ h a, Stripped h (f h a))
    (hbare : ∀ h a t, t.depth ≤ n → Holds (fun _ => True) h a t → HoldsBare (f h a) a t) :
    (ts : List (Rose D)) → ∀ (h : Objects D) (as : List Nat), depthAll ts ≤ n → HoldsAll (fun _ => True) h as ts →
      HoldsBareAll (as.foldl f h) as ts
  | [], _, [], _, _ => trivial
  | t :: ts, h, a :: as, hd, ⟨ht, hts⟩ => by
    rw [depthAll, Nat.max_le] at hd
    refine ⟨?_, foldl_strip_bare hf hbare ts (f h a) as hd.2 (HoldsAll.mono ((hf h a).keeps trivial) ts hts)⟩
    have hkeep : Keeps (· = []) (· = []) (f h a) (as.foldl f (f h a)) := (foldl_stripped hf as (f h a)).keeps rfl
    exact Holds.mono hkeep t (hbare h a t hd.1 ht)

/-- What was held is held, and shares nothing. -/
theorem strip_bare (n : Nat) : ∀ (h : Objects D) (a : Nat) (t : Rose D), t.depth ≤ n → Holds (fun _ => True) h a t →
    HoldsBare (strip n h a) a t := by
  induction n with
  | zero =>
    rintro h a ⟨d, ks⟩ hd
    rw [Rose.depth] at hd
    omega
  | succ n ih =>
    rintro h a ⟨d, ks⟩ hd ⟨o, ho, rfl, -, hks⟩
    rw [Rose.depth] at hd
    rw [strip, ho]
    simp only
    have hget : (h.modify a fun o => { o with shared := [] })[a]? = some { o with shared := [] } := get_modify ho
    have hkeep : Keeps (fun _ => True) (fun _ => True) h (h.modify a fun o => { o with shared := [] }) := by
      intro c o' hc
      by_cases hca : c = a
      · subst hca
        exact ⟨_, get_modify hc, rfl, rfl, id⟩
      · exact ⟨o', (get_modify_ne (Ne.symm hca)).trans hc, rfl, rfl, id⟩
    refine ⟨{ o with shared := [] }, ?_, rfl, rfl, ?_⟩
    · rcases (foldl_stripped (strip_stripped n) o.own _).get a _ hget with h' | h' <;> exact h'
    · exact foldl_strip_bare (strip_stripped n) ih ks _ o.own (by omega) (HoldsAll.mono hkeep ks hks)

/-! ## Out of reach -/

def Within (lo hi a : Nat) : Prop := lo ≤ a ∧ a < hi

/-- What can be got at from some addresses. -/
inductive Reach (h : Objects D) (roots : List Nat) : Nat → Prop
  | root {a} : a ∈ roots → Reach h roots a
  | step {a o l} : Reach h roots a → h[a]? = some o → l ∈ o.links → Reach h roots l

/-- A run of addresses that is closed both ways: its objects refer to one another alone, and no other object refers to
them. Every reference is to an object. -/
structure Enclave (lo hi : Nat) (h : Objects D) : Prop where
  le : hi ≤ h.length
  bound : ∀ (a : Nat) (o : Obj D), h[a]? = some o → ∀ l ∈ o.links, l < h.length
  inward : Inward lo hi h
  outside : ∀ (a : Nat) (o : Obj D), h[a]? = some o → ¬ Within lo hi a → ∀ l ∈ o.links, ¬ Within lo hi l

/-- Addresses of objects outside. -/
def Outside (lo hi : Nat) (h : Objects D) (a : Nat) : Prop := a < h.length ∧ ¬ Within lo hi a

theorem Outside.mono {lo hi a : Nat} {h h' : Objects D} (ha : Outside lo hi h a) (hle : h.length ≤ h'.length) :
    Outside lo hi h' a := ⟨ha.1.trans_le hle, ha.2⟩

namespace Enclave

variable {lo hi : Nat} {h h' : Objects D} (he : Enclave lo hi h)

include he

theorem links {a : Nat} {o : Obj D} (ho : h[a]? = some o) (ha : ¬ Within lo hi a) : ∀ l ∈ o.links, Outside lo hi h l :=
  fun l hl => ⟨he.bound a o ho l hl, he.outside a o ho ha l hl⟩

/-- From outside, what is outside alone can be got at. -/
theorem reach {roots : List Nat} (hr : ∀ r ∈ roots, Outside lo hi h r) {a : Nat} (ha : Reach h roots a) :
    Outside lo hi h a := by
  induction ha with
  | root ha => exact hr _ ha
  | step _ ho hl ih => exact he.links ho ih.2 _ hl

/-- And from inside, what is inside. -/
theorem reach_within {roots : List Nat} (hr : ∀ r ∈ roots, Within lo hi r) {a : Nat} (ha : Reach h roots a) :
    Within lo hi a := by
  induction ha with
  | root ha => exact hr _ ha
  | step _ ho hl ih => exact he.inward _ _ ih.1 ih.2 ho _ hl

/-- New objects that refer to objects outside or to one another. -/
theorem append {fresh : Objects D}
    (hf : ∀ o ∈ fresh, ∀ l ∈ o.links, l < h.length + fresh.length ∧ ¬ Within lo hi l) : Enclave lo hi (h ++ fresh) := by
  have hcases : ∀ (a : Nat) (o : Obj D), (h ++ fresh)[a]? = some o → h[a]? = some o ∨ h.length ≤ a ∧ o ∈ fresh := by
    intro a o ho
    by_cases ha : a < h.length
    · exact .inl ((List.getElem?_append_left ha).symm.trans ho)
    · rw [List.getElem?_append_right (Nat.le_of_not_lt ha)] at ho
      exact .inr ⟨Nat.le_of_not_lt ha, List.mem_of_getElem? ho⟩
  have hlen : (h ++ fresh).length = h.length + fresh.length := List.length_append
  refine ⟨by have := he.le; omega, fun a o ho l hl => ?_, fun a o hlo hhi ho l hl => ?_, fun a o ho ha l hl => ?_⟩
  · rcases hcases a o ho with ho | ⟨-, ho⟩
    · have := he.bound a o ho l hl
      omega
    · rw [hlen]
      exact (hf o ho l hl).1
  · rcases hcases a o ho with ho | ⟨hle, -⟩
    · exact he.inward a o hlo hhi ho l hl
    · have := he.le
      omega
  · rcases hcases a o ho with ho | ⟨-, ho⟩
    · exact he.outside a o ho ha l hl
    · exact (hf o ho l hl).2

/-- An object outside is written over, with references to objects outside. -/
theorem set {a : Nat} {o : Obj D} (ha : ¬ Within lo hi a) (ho : ∀ l ∈ o.links, Outside lo hi h l) :
    Enclave lo hi (h.set a o) := by
  have hcases : ∀ (c : Nat) (o' : Obj D), (h.set a o)[c]? = some o' → h[c]? = some o' ∨ c = a ∧ o' = o := by
    intro c o' hc
    by_cases hca : a = c
    · subst hca
      rw [List.getElem?_set_self' (l := h)] at hc
      obtain ⟨_, -, rfl⟩ := Option.map_eq_some_iff.1 hc
      exact .inr ⟨rfl, rfl⟩
    · exact .inl ((List.getElem?_set_ne hca).symm.trans hc)
  refine ⟨by rw [List.length_set]; exact he.le, fun c o' hc l hl => ?_, fun c o' hlo hhi hc l hl => ?_,
    fun c o' hc hw l hl => ?_⟩
  · rw [List.length_set]
    rcases hcases c o' hc with hc | ⟨-, rfl⟩
    · exact he.bound c o' hc l hl
    · exact (ho l hl).1
  · rcases hcases c o' hc with hc | ⟨rfl, -⟩
    · exact he.inward c o' hlo hhi hc l hl
    · exact absurd ⟨hlo, hhi⟩ ha
  · rcases hcases c o' hc with hc | ⟨-, rfl⟩
    · exact he.outside c o' hc hw l hl
    · exact (ho l hl).2

theorem stripped (hs : Stripped h h') : Enclave lo hi h' := by
  refine ⟨hs.length ▸ he.le, fun a o ho l hl => ?_, fun a o hlo hhi ho l hl => ?_, fun a o ho ha l hl => ?_⟩
  all_goals rcases hs.links ho with ⟨o', ho', hsub⟩
  · rw [hs.length]
    exact he.bound a o' ho' l (hsub l hl)
  · exact he.inward a o' hlo hhi ho' l (hsub l hl)
  · exact he.outside a o' ho' ha l (hsub l hl)

theorem copied {bs : List Nat} {ts : List (Rose D)} (hc : Copied h h' bs ts) : Enclave lo hi h' := by
  have hle := hc.kept.1
  have hhi := he.le
  refine ⟨hhi.trans hle, fun a o ho l hl => ?_, fun a o hlo hlt ho l hl => ?_, fun a o ho ha l hl => ?_⟩
  · by_cases hlt : a < h.length
    · exact (he.bound a o ((hc.kept.2 a hlt).symm.trans ho) l hl).trans_le hle
    · exact (hc.inward a o (Nat.le_of_not_lt hlt) (List.getElem?_eq_some_iff.1 ho).1 ho l hl).2
  · exact he.inward a o hlo hlt ((hc.kept.2 a (hlt.trans_le hhi)).symm.trans ho) l hl
  · by_cases hlt : a < h.length
    · exact he.outside a o ((hc.kept.2 a hlt).symm.trans ho) ha l hl
    · have hin := hc.inward a o (Nat.le_of_not_lt hlt) (List.getElem?_eq_some_iff.1 ho).1 ho l hl
      exact fun hw => absurd (hw.2.trans_le hhi) (Nat.not_lt.2 hin.1)

/-- The copies are a run of their own. -/
theorem copies {bs : List Nat} {ts : List (Rose D)} (hc : Copied h h' bs ts) : Enclave h.length h'.length h' := by
  refine ⟨le_rfl, (he.copied hc).bound, hc.inward, fun a o ho ha l hl hw => ?_⟩
  have hlt : a < h.length := by
    have := (List.getElem?_eq_some_iff.1 ho).1
    rw [Within] at ha
    omega
  exact absurd (he.bound a o ((hc.kept.2 a hlt).symm.trans ho) l hl) (Nat.not_lt.2 hw.1)

/-- What can be got at from inside cannot be got at from outside. -/
theorem apart {roots roots' : List Nat} (hr : ∀ r ∈ roots, Within lo hi r)
    (hr' : ∀ r ∈ roots', Outside lo hi h r) {a : Nat}
    (ha : Reach h roots a) : ¬ Reach h roots' a := fun ha' => (he.reach hr' ha').2 (he.reach_within hr ha)

end Enclave

end TabnasAbnf.Base
