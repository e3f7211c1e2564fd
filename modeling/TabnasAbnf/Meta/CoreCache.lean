/-
The core rules as objects. TypeScript parses its core rules once and keeps the objects; a grammar has copies of the ones
it is given. Whatever callers write to the objects they can get at, in whatever order they parse and write, each grammar
is answered with the core rules as they were first parsed, and no object is in two grammars or in a grammar and the
cache.
-/
import TabnasAbnf.Base.Objects
import TabnasAbnf.Meta.CoreSpans
import TabnasAbnf.Meta.Fronts
import Mathlib.Logic.Relation

namespace TabnasAbnf.Meta

open TabnasAbnf.Engine TabnasAbnf.Base TabnasAbnf.Passes

/-! ## Rules as objects -/

/-- What an object is, apart from the objects it refers to. A span and an annotation are objects of their own, which a
copy shares. -/
inductive Item
  | production (name : Text) (incremental : Bool)
  | list
  | term (literal : Text) (caseSensitive : Bool)
  | value (a : NumericElement Units)
  | prose (text : Text)
  | ref (name : Text)
  | group | opt | star | plus
  | rep (min max : JsNum)
  | hole
  | span (sp : Span)
  | annotation (v : ValueAnnotation)

mutual

/-- The objects of an element, spans apart. -/
def Element.tree : Element (NumericElement Units) JsNum → Rose Item
  | .term literal caseSensitive _ => .node (.term literal caseSensitive) []
  | .value a => .node (.value a.deleteSp) []
  | .prose text _ => .node (.prose text) []
  | .ref name _ => .node (.ref name) []
  | .group alts _ => .node .group [.node .list (altTrees alts)]
  | .opt inner _ => .node .opt [inner.tree]
  | .star inner => .node .star [inner.tree]
  | .plus inner => .node .plus [inner.tree]
  | .rep min max inner => .node (.rep min max) [inner.tree]
  | .hole => .node .hole []

def seqTrees : List (Element (NumericElement Units) JsNum) → List (Rose Item)
  | [] => []
  | e :: es => e.tree :: seqTrees es

def altTrees : List (List (Element (NumericElement Units) JsNum)) → List (Rose Item)
  | [] => []
  | s :: as => .node .list (seqTrees s) :: altTrees as

end

def productionTree (p : Production (List (Element (NumericElement Units) JsNum))) : Rose Item :=
  .node (.production p.name p.incremental) [.node .list (altTrees p.alts)]

mutual

/-- The objects are those of the element without its spans. -/
theorem Element.tree_stripSpans : (e : Element (NumericElement Units) JsNum) →
    (e.stripSpans NumericElement.deleteSp).tree = e.tree
  | .term .. | .prose .. | .ref .. | .hole => rfl
  | .value a => by cases a <;> rfl
  | .group alts _ => by rw [Element.stripSpans, Element.tree, Element.tree, altTrees_stripAlts alts]
  | .opt inner _ | .star inner | .plus inner | .rep _ _ inner => by
    rw [Element.stripSpans, Element.tree, Element.tree, inner.tree_stripSpans]

theorem seqTrees_stripSeq : (es : List (Element (NumericElement Units) JsNum)) →
    seqTrees (stripSeq NumericElement.deleteSp es) = seqTrees es
  | [] => rfl
  | e :: es => by rw [stripSeq, seqTrees, seqTrees, e.tree_stripSpans, seqTrees_stripSeq es]

theorem altTrees_stripAlts : (as : List (List (Element (NumericElement Units) JsNum))) →
    altTrees (stripAlts NumericElement.deleteSp as) = altTrees as
  | [] => rfl
  | s :: as => by rw [stripAlts, altTrees, altTrees, seqTrees_stripSeq s, altTrees_stripAlts as]

end

/-! ## Names and references -/

/-- The name of the production at an address. -/
def nameAt (h : Objects Item) (a : Nat) : Text :=
  match h[a]? with
  | some ⟨.production name _, _, _⟩ => name
  | _ => []

/-- What `refsIn` finds at an address, `n` levels down. -/
def refsAt : Nat → Objects Item → Nat → List Text
  | 0, _, _ => []
  | n + 1, h, a =>
    match h[a]? with
    | none => []
    | some ⟨.ref name, _, _⟩ => [name]
    | some o => o.own.flatMap (refsAt n h)

mutual

def refsOf : Rose Item → List Text
  | .node (.ref name) _ => [name]
  | .node _ ks => refsOfAll ks

def refsOfAll : List (Rose Item) → List Text
  | [] => []
  | k :: ks => refsOf k ++ refsOfAll ks

end

mutual

theorem Element.refsOf_tree : (e : Element (NumericElement Units) JsNum) → refsOf e.tree = e.refs
  | .term .. | .prose .. | .ref .. | .value _ | .hole => rfl
  | .group alts _ => by
    rw [Element.tree, refsOf, refsOfAll, refsOf, altTrees_refsOf alts, refsOfAll, List.append_nil]
    rfl
    all_goals nofun
  | .opt inner _ | .star inner | .plus inner | .rep _ _ inner => by
    rw [Element.tree, refsOf, refsOfAll, inner.refsOf_tree, refsOfAll, List.append_nil]
    rfl
    all_goals nofun

theorem seqTrees_refsOf : (es : List (Element (NumericElement Units) JsNum)) → refsOfAll (seqTrees es) = seqRefs es
  | [] => rfl
  | e :: es => by rw [seqTrees, refsOfAll, seqRefs, e.refsOf_tree, seqTrees_refsOf es]

theorem altTrees_refsOf :
    (as : List (List (Element (NumericElement Units) JsNum))) → refsOfAll (altTrees as) = altsRefs as
  | [] => rfl
  | s :: as => by
    rw [altTrees, refsOfAll, refsOf, seqTrees_refsOf s, altTrees_refsOf as, altsRefs]
    nofun

end

theorem refsOf_productionTree (p : Production (List (Element (NumericElement Units) JsNum))) :
    refsOf (productionTree p) = altsRefs p.alts := by
  rw [productionTree, refsOf, refsOfAll, refsOf, altTrees_refsOf, refsOfAll, List.append_nil]
  all_goals nofun

section

variable {ok : List Nat → Prop} {h : Objects Item}

theorem refsOf_kids {d : Item} {ks : List (Rose Item)} (hd : ∀ name, d ≠ .ref name) :
    refsOf (.node d ks) = refsOfAll ks := by
  cases d with
  | ref name => exact absurd rfl (hd name)
  | _ => rfl

theorem flatMap_refs {n : Nat}
    (hn : ∀ (t : Rose Item) (a : Nat), t.depth ≤ n → Holds ok h a t → refsAt n h a = refsOf t) :
    (ts : List (Rose Item)) → ∀ {as : List Nat}, depthAll ts ≤ n → HoldsAll ok h as ts →
      as.flatMap (refsAt n h) = refsOfAll ts
  | [], [], _, _ => rfl
  | t :: ts, a :: as, hd, ⟨ht, hts⟩ => by
    rw [depthAll, Nat.max_le] at hd
    rw [List.flatMap_cons, refsOfAll, hn t a hd.1 ht, flatMap_refs hn ts hd.2 hts]

/-- The references found at an address are those of what it holds. -/
theorem refsAt_holds (n : Nat) :
    ∀ (t : Rose Item) (a : Nat), t.depth ≤ n → Holds ok h a t → refsAt n h a = refsOf t := by
  induction n with
  | zero =>
    rintro ⟨d, ks⟩ a hd
    rw [Rose.depth] at hd
    omega
  | succ n ih =>
    rintro ⟨d, ks⟩ a hd ⟨o, ho, rfl, -, hks⟩
    rw [Rose.depth] at hd
    have hkids := flatMap_refs ih ks (by omega) hks
    obtain ⟨d, own, shared⟩ := o
    rw [refsAt, ho]
    cases d with
    | ref name => rfl
    | _ => exact hkids.trans (refsOf_kids fun _ hd => by cases hd).symm

theorem nameAt_holds {a : Nat} {p : Production (List (Element (NumericElement Units) JsNum))}
    (ha : Holds ok h a (productionTree p)) : nameAt h a = p.name := by
  obtain ⟨⟨d, own, shared⟩, ho, hd, -⟩ := ha
  cases hd
  rw [nameAt, ho]

theorem names_refs {n : Nat} (ps : Rules (NumericElement Units) JsNum) {as : List Nat}
    (hd : ∀ p ∈ ps, (productionTree p).depth ≤ n) (has : HoldsAll ok h as (ps.map productionTree)) :
    as.map (nameAt h) = ps.map (·.name) ∧ as.flatMap (refsAt n h) = ps.flatMap fun p => altsRefs p.alts := by
  induction ps generalizing as with
  | nil =>
    obtain _ | ⟨a, as⟩ := as
    · exact ⟨rfl, rfl⟩
    · cases has
  | cons p ps ih =>
    obtain _ | ⟨a, as⟩ := as
    · cases has
    · obtain ⟨hdp, hdps⟩ := List.forall_mem_cons.1 hd
      obtain ⟨hnames, hrefs⟩ := ih hdps has.2
      rw [List.map_cons, List.map_cons, nameAt_holds has.1, hnames, List.flatMap_cons, List.flatMap_cons,
        refsAt_holds n _ a hdp has.1, refsOf_productionTree, hrefs]
      exact ⟨rfl, rfl⟩

end

/-! ## The module -/

/-- The objects of a process, `_coreRules`, and the addresses callers were given. -/
structure Module where
  heap : Objects Item := []
  cache : Option (List (Text × Nat)) := none
  held : List Nat := []

/-- `getCoreRules` once the core rules are parsed: their spans are deleted, and the map is made. -/
def coreMap (n : Nat) (h : Objects Item) (raw : List Nat) : Objects Item × List (Text × Nat) :=
  let h := raw.foldl (strip n) h
  (h, raw.map fun a => (nameAt h a, a))

/-- `withCoreRules` over objects. A copy has the names and references of what it is a copy of, so the copies are made
behind the loop that needs them. -/
def addCopies (n : Nat) (h : Objects Item) (core : List (Text × Nat)) (user : List Nat) : Objects Item × List Nat :=
  let w := saturate Prod.fst (fun e needed => needed ++ refsAt n h e.2) core
    ⟨user.map (nameAt h), user.flatMap (refsAt n h), [], false⟩
  copyEach (copy n) h (w.out.map Prod.snd)

/-- What the engine makes for a source: new objects, which refer to one another alone, and productions among them. -/
structure Made (h fresh : Objects Item) (roots : List Nat) (ps : Rules (NumericElement Units) JsNum) : Prop where
  links : ∀ o ∈ fresh, ∀ l ∈ o.links, h.length ≤ l ∧ l < h.length + fresh.length
  new : ∀ r ∈ roots, h.length ≤ r ∧ r < h.length + fresh.length
  holds : HoldsAll (fun _ => True) (h ++ fresh) roots (ps.map productionTree)

/-- `getCoreRules`: what is kept, or what the engine makes of the core rules' text. -/
inductive HasCore (n : Nat) (h : Objects Item) : Option (List (Text × Nat)) → Objects Item → List (Text × Nat) → Prop
  | kept {core} : HasCore n h (some core) h core
  | parsed {fresh raw ps} :
    Made h fresh raw ps → ps.map (stripSpans NumericElement.deleteSp) = coreRules JsNum fromCodePoint →
    HasCore n h none (coreMap n (h ++ fresh) raw).1 (coreMap n (h ++ fresh) raw).2

/-- The recursions over objects go as deep as the productions do. -/
def Deep (n : Nat) (ps : Rules (NumericElement Units) JsNum) : Prop :=
  ∀ p ∈ ps ++ coreRules JsNum fromCodePoint, (productionTree p).depth ≤ n

/-- A call of `parseAbnf` that answers a grammar: its own productions, annotated and merged, and the copies. -/
inductive Parses (m : Module) (user : Rules (NumericElement Units) JsNum) : List Nat → List Nat → Module → Prop
  | parses {n fresh own heap core} : Deep n user → Made m.heap fresh own user → rejectHoles user = .ok () →
    HasCore n (m.heap ++ fresh) m.cache heap core →
    Parses m user own (addCopies n heap core own).2
      ⟨(addCopies n heap core own).1, some core, own ++ (addCopies n heap core own).2 ++ m.held⟩

/-- One step: a call that answers, a call that throws at a hole, or a caller that writes to an object it can get at or
makes one, out of what it can get at. -/
inductive Step (m : Module) : Module → Prop
  | parse {user own copies m'} : Parses m user own copies m' → Step m m'
  | throw {n fresh roots user name heap core} :
    Deep n user → Made m.heap fresh roots user → rejectHoles user = .error name →
    HasCore n (m.heap ++ fresh) m.cache heap core → Step m ⟨heap, some core, m.held⟩
  | write {a o} :
    Reach m.heap m.held a → (∀ l ∈ o.links, Reach m.heap m.held l) → Step m { m with heap := m.heap.set a o }
  | make {o} : (∀ l ∈ o.links, Reach m.heap m.held l) →
    Step m { m with heap := m.heap ++ [o], held := m.heap.length :: m.held }

/-- The steps of a process from its start. -/
abbrev Run (m : Module) : Prop := Relation.ReflTransGen Step {} m

/-! ## What every step keeps -/

/-- The core rules as they were parsed, at addresses of a run. -/
def Pristine (lo hi : Nat) (h : Objects Item) (core : List (Text × Nat)) : Prop :=
  ∃ addr : CoreRule → Nat, core = CoreRule.all.map (fun r => (r.name, addr r)) ∧
    ∀ r, Within lo hi (addr r) ∧ HoldsBare h (addr r) (productionTree (r.production fromCodePoint))

/-- Nothing is cached and the run is empty, or the core rules are cached in it. -/
def Cached (lo hi : Nat) (h : Objects Item) : Option (List (Text × Nat)) → Prop
  | none => lo = hi
  | some core => Pristine lo hi h core

/-- The cache is in a run of addresses that is closed both ways, and callers were given none of them. -/
structure Isolated (lo hi : Nat) (m : Module) : Prop where
  enclave : Enclave lo hi m.heap
  held : ∀ r ∈ m.held, Outside lo hi m.heap r
  cached : Cached lo hi m.heap m.cache

section

variable {lo hi : Nat} {h h' : Objects Item} {core : List (Text × Nat)}

/-- The run holds what it does wherever it is the same. -/
theorem Pristine.same (hp : Pristine lo hi h core) (hin : Inward lo hi h)
    (hsame : ∀ a, lo ≤ a → a < hi → h'[a]? = h[a]?) :
    Pristine lo hi h' core := by
  obtain ⟨addr, rfl, hr⟩ := hp
  exact ⟨addr, rfl, fun r => ⟨(hr r).1, Holds.inward hin hsame _ (hr r).1.1 (hr r).1.2 (hr r).2⟩⟩

theorem Pristine.names (hp : Pristine lo hi h core) : core.map Prod.fst = CoreRule.all.map CoreRule.name := by
  obtain ⟨addr, rfl, -⟩ := hp
  rw [List.map_map]
  rfl

theorem Pristine.holds (hp : Pristine lo hi h core) :
    HoldsBareAll h (core.map Prod.snd) ((coreRules JsNum fromCodePoint).map productionTree) := by
  obtain ⟨addr, rfl, hr⟩ := hp
  rw [coreRules, List.map_map, List.map_map]
  generalize CoreRule.all = rs
  induction rs with
  | nil => trivial
  | cons r rs ih => exact ⟨(hr r).2, ih⟩

theorem Pristine.within (hp : Pristine lo hi h core) : ∀ r ∈ core.map Prod.snd, Within lo hi r := by
  obtain ⟨addr, rfl, hr⟩ := hp
  rw [List.map_map]
  intro a ha
  obtain ⟨r, -, rfl⟩ := List.mem_map.1 ha
  exact (hr r).1

theorem Pristine.extends (hp : Pristine lo hi h core) (he : Extends h h') : Pristine lo hi h' core := by
  obtain ⟨addr, rfl, hr⟩ := hp
  exact ⟨addr, rfl, fun r => ⟨(hr r).1, (hr r).2.extends he⟩⟩

theorem Extends.append (fresh : Objects Item) : Extends h (h ++ fresh) :=
  ⟨by rw [List.length_append]; omega, fun _ ha => List.getElem?_append_left ha⟩

/-- What holds a tree for each of some different things is an address for each of them. -/
theorem HoldsAll.addresses {D X : Type} [DecidableEq X] {ok : List Nat → Prop} {h : Objects D} {g : X → Rose D}
    {xs : List X}
    (hxs : xs.Nodup) {as : List Nat} (has : HoldsAll ok h as (xs.map g)) :
    ∃ addr : X → Nat, as = xs.map addr ∧ ∀ x ∈ xs, Holds ok h (addr x) (g x) := by
  induction xs generalizing as with
  | nil =>
    obtain _ | ⟨a, as⟩ := as
    · exact ⟨fun _ => 0, rfl, nofun⟩
    · cases has
  | cons x xs ih =>
    obtain _ | ⟨a, as⟩ := as
    · cases has
    · obtain ⟨hx, hxs⟩ := List.nodup_cons.1 hxs
      obtain ⟨addr, rfl, haddr⟩ := ih hxs has.2
      have hne : ∀ y ∈ xs, Function.update addr x a y = addr y := fun y hy =>
        Function.update_of_ne (fun he => hx (by rwa [← he])) _ _
      refine ⟨Function.update addr x a, ?_, fun y hy => ?_⟩
      · rw [List.map_cons, Function.update_self, List.map_congr_left hne]
      · rcases List.mem_cons.1 hy with rfl | hy
        · rw [Function.update_self]
          exact has.1
        · rw [hne y hy]
          exact haddr y hy

/-- Objects of the engine's come after the others and refer to one another. -/
theorem Made.enclave {fresh : Objects Item} {roots : List Nat} {ps : Rules (NumericElement Units) JsNum}
    (hm : Made h fresh roots ps) (he : Enclave lo hi h) : Enclave lo hi (h ++ fresh) := by
  refine he.append fun o ho l hl => ⟨(hm.links o ho l hl).2, fun hw => ?_⟩
  have := (hm.links o ho l hl).1
  have := he.le
  have := hw.2
  omega

theorem Made.outside {fresh : Objects Item} {roots : List Nat} {ps : Rules (NumericElement Units) JsNum}
    (hm : Made h fresh roots ps) (he : Enclave lo hi h) : ∀ r ∈ roots, Outside lo hi (h ++ fresh) r := by
  intro r hr
  have := hm.new r hr
  have := he.le
  rw [Outside, Within, List.length_append]
  omega

/-- An empty run moves: the engine's objects are a run of their own. -/
theorem Made.run {fresh : Objects Item} {roots : List Nat} {ps : Rules (NumericElement Units) JsNum}
    (hm : Made h fresh roots ps) (he : Enclave lo hi h) : Enclave h.length (h ++ fresh).length (h ++ fresh) := by
  have hall := hm.enclave he
  have hlen : (h ++ fresh).length = h.length + fresh.length := List.length_append
  refine ⟨le_rfl, hall.bound, fun a o hlo hhi ho l hl => ?_, fun a o ho ha l hl hw => ?_⟩
  · rw [List.getElem?_append_right hlo] at ho
    rw [hlen]
    exact hm.links o (List.mem_of_getElem? ho) l hl
  · have hlt : a < h.length := by
      have := (List.getElem?_eq_some_iff.1 ho).1
      rw [Within] at ha
      omega
    rw [List.getElem?_append_left hlt] at ho
    exact absurd (he.bound a o ho l hl) (Nat.not_lt.2 hw.1)

theorem depthAll_le {D : Type} {n : Nat} {ts : List (Rose D)} (h : ∀ t ∈ ts, t.depth ≤ n) : depthAll ts ≤ n := by
  induction ts with
  | nil => exact Nat.zero_le n
  | cons t ts ih =>
    obtain ⟨ht, hts⟩ := List.forall_mem_cons.1 h
    exact Nat.max_le.2 ⟨ht, ih hts⟩

/-- The trees of the core rules, whatever spans they were parsed with. -/
theorem coreTrees {ps : Rules (NumericElement Units) JsNum}
    (hps : ps.map (stripSpans NumericElement.deleteSp) = coreRules JsNum fromCodePoint) :
    ps.map productionTree = CoreRule.all.map fun r => productionTree (r.production fromCodePoint) := by
  have htree : ∀ p : Production (List (Element (NumericElement Units) JsNum)),
      productionTree (stripSpans NumericElement.deleteSp p) = productionTree p := by
    intro p
    rw [productionTree, productionTree, stripSpans, altTrees_stripAlts]
  calc ps.map productionTree = (ps.map (stripSpans NumericElement.deleteSp)).map productionTree := by
        rw [List.map_map]
        exact List.map_congr_left fun p _ => (htree p).symm
    _ = CoreRule.all.map fun r => productionTree (r.production fromCodePoint) := by
        rw [hps, coreRules, List.map_map]
        rfl

/-- Once `getCoreRules` has answered, the core rules are in a run of addresses closed both ways, and what was outside
still is. -/
theorem HasCore.isolated {n : Nat} {c : Option (List (Text × Nat))} (hc : HasCore n h c h' core)
    (hdeep : ∀ r : CoreRule, (productionTree (r.production fromCodePoint)).depth ≤ n) (he : Enclave lo hi h)
    (hcached : Cached lo hi h c) :
    ∃ lo' hi', Enclave lo' hi' h' ∧ Pristine lo' hi' h' core ∧ (∀ r, Outside lo hi h r → Outside lo' hi' h' r) ∧
      Keeps (fun _ => True) (fun _ => True) h h' := by
  cases hc with
  | kept => exact ⟨lo, hi, he, hcached, fun _ hr => hr, fun _ o ho => ⟨o, ho, rfl, rfl, id⟩⟩
  | @parsed fresh raw ps hm hps =>
    have hstripped : Stripped (h ++ fresh) (raw.foldl (strip n) (h ++ fresh)) := foldl_stripped (strip_stripped n) raw _
    have hheld : HoldsBareAll (raw.foldl (strip n) (h ++ fresh)) raw
        (CoreRule.all.map fun r => productionTree (r.production fromCodePoint)) := by
      have hholds := hm.holds
      rw [coreTrees hps] at hholds
      refine foldl_strip_bare (strip_stripped n) (strip_bare n) _ _ raw (depthAll_le fun t ht => ?_) hholds
      obtain ⟨r, -, rfl⟩ := List.mem_map.1 ht
      exact hdeep r
    obtain ⟨addr, hraw, haddr⟩ := HoldsAll.addresses (by decide : CoreRule.all.Nodup) hheld
    refine ⟨h.length, (h ++ fresh).length, (hm.run he).stripped hstripped, ⟨addr, ?_, fun r => ?_⟩, fun r hr => ?_, ?_⟩
    · show raw.map (fun a => (nameAt (raw.foldl (strip n) (h ++ fresh)) a, a)) = _
      generalize raw.foldl (strip n) (h ++ fresh) = h'' at haddr
      rw [hraw, List.map_map]
      refine List.map_congr_left fun r hr => ?_
      rw [Function.comp_apply, nameAt_holds (haddr r hr)]
      rfl
    · refine ⟨?_, haddr r (CoreRule.mem_all r)⟩
      have hmem : addr r ∈ raw := hraw ▸ List.mem_map_of_mem (CoreRule.mem_all r)
      have hnew := hm.new _ hmem
      exact ⟨hnew.1, by rw [List.length_append]; exact hnew.2⟩
    · have hlt := hr.1
      refine ⟨?_, fun hw => absurd hlt (Nat.not_lt.2 hw.1)⟩
      show r < (raw.foldl (strip n) (h ++ fresh)).length
      rw [hstripped.length, List.length_append]
      omega
    · have hkeep : Keeps (fun _ => True) (fun _ => True) (h ++ fresh) (raw.foldl (strip n) (h ++ fresh)) :=
        hstripped.keeps trivial
      exact fun a o ho => hkeep a o ((Extends.append fresh).get ho)

/-- The loop needs the core rules it needs of the productions, and the copies are bare and new. -/
theorem addCopies_copied {n : Nat} {user : Rules (NumericElement Units) JsNum} {own : List Nat}
    (hp : Pristine lo hi h core)
    (hown : HoldsAll (fun _ => True) h own (user.map productionTree)) (hd : ∀ p ∈ user, (productionTree p).depth ≤ n)
    (hdeep : ∀ r : CoreRule, (productionTree (r.production fromCodePoint)).depth ≤ n) :
    Copied h (addCopies n h core own).1 (addCopies n h core own).2
      ((addedRules user).map fun r => productionTree (r.production fromCodePoint)) := by
  obtain ⟨addr, rfl, haddr⟩ := hp
  obtain ⟨hnames, hrefs⟩ := names_refs user hd hown
  have hout : (saturate Prod.fst (fun e needed => needed ++ refsAt n h e.2) (CoreRule.all.map fun r => (r.name, addr r))
      ⟨user.map (·.name), user.flatMap fun p => altsRefs p.alts, [], false⟩).out =
        (addedRules user).map fun r => (r.name, addr r) := by
    have hlike : Work.Like (fun r : CoreRule => (r.name, addr r))
        (⟨user.map (·.name), user.flatMap fun p => altsRefs p.alts, [], false⟩ : Work CoreRule Text)
        ⟨user.map (·.name), user.flatMap fun p => altsRefs p.alts, [], false⟩ :=
      ⟨fun _ => Iff.rfl, fun _ => Iff.rfl, rfl, rfl⟩
    refine (hlike.saturate (fun _ _ => rfl) fun r _ needed needed' hneeded name => ?_).out
    have hcore : refsAt n h (addr r) =
        altsRefs (r.production fromCodePoint : Production (List (Element (NumericElement Units) JsNum))).alts := by
      rw [refsAt_holds n _ _ (hdeep r) (haddr r).2]
      exact refsOf_productionTree _
    rw [List.mem_append, hneeded, List.mem_append, List.mem_map, hcore]
    exact or_congr_right (CoreRule.mem_refs fromCodePoint)
  unfold addCopies
  rw [hnames, hrefs]
  simp only
  rw [hout, List.map_map]
  refine copyEach_copied (copy_copied n) _ h _ (depthAll_le fun t ht => ?_) ?_
  · obtain ⟨r, -, rfl⟩ := List.mem_map.1 ht
    exact hdeep r
  · generalize addedRules user = rs
    induction rs with
    | nil => trivial
    | cons r rs ih => exact ⟨(haddr r).2, ih⟩

/-- `getCoreRules` leaves the runs of addresses there are. -/
theorem HasCore.enclave {n : Nat} {c : Option (List (Text × Nat))} (hc : HasCore n h c h' core) (he : Enclave lo hi h) :
    Enclave lo hi h' ∧ h.length ≤ h'.length := by
  cases hc with
  | kept => exact ⟨he, le_rfl⟩
  | @parsed fresh raw ps hm hps =>
    have hstripped : Stripped (h ++ fresh) (raw.foldl (strip n) (h ++ fresh)) :=
      foldl_stripped (strip_stripped n) raw _
    refine ⟨(hm.enclave he).stripped hstripped, ?_⟩
    show h.length ≤ (raw.foldl (strip n) (h ++ fresh)).length
    rw [hstripped.length, List.length_append]
    omega

end

/-! ## One step -/

section

variable {lo hi n : Nat} {m m' : Module} {user : Rules (NumericElement Units) JsNum}

theorem Deep.core (hd : Deep n user) (r : CoreRule) :
    (productionTree (r.production fromCodePoint : Production (List (Element (NumericElement Units) JsNum)))).depth
      ≤ n :=
  hd _ (List.mem_append_right _ (List.mem_map_of_mem (CoreRule.mem_all r)))

/-- What is cached holds wherever the heap goes on. -/
theorem Isolated.cached_extends (h : Isolated lo hi m) (fresh : Objects Item) :
    Cached lo hi (m.heap ++ fresh) m.cache := by
  have hcached := h.cached
  cases hc : m.cache with
  | none =>
    rw [hc] at hcached
    exact hcached
  | some core =>
    rw [hc] at hcached
    exact hcached.extends (Extends.append fresh)

/-- A call that answers: the cache stays out of reach, and the heap is one that `getCoreRules` left and copies. -/
theorem Isolated.parses {own copies : List Nat} (h : Isolated lo hi m) (hp : Parses m user own copies m') :
    ∃ lo' hi', Isolated lo' hi' m' ∧ ∃ fresh heap, Made m.heap fresh own user ∧
      HoldsAll (fun _ => True) heap own (user.map productionTree) ∧
      (∀ {a b : Nat}, Enclave a b (m.heap ++ fresh) → Enclave a b heap) ∧ (m.heap ++ fresh).length ≤ heap.length ∧
      Copied heap m'.heap copies ((addedRules user).map fun r => productionTree (r.production fromCodePoint)) := by
  cases hp with
  | @parses n fresh own heap core hd hm hholes hc =>
    have he := hm.enclave h.enclave
    obtain ⟨lo', hi', he', hp', hout, hkeep⟩ := hc.isolated hd.core he (h.cached_extends fresh)
    have hown : HoldsAll (fun _ => True) heap own (user.map productionTree) := HoldsAll.mono hkeep _ hm.holds
    have hcopied := addCopies_copied hp' hown (fun p hp => hd p (List.mem_append_left _ hp)) hd.core
    have hle := hcopied.kept.1
    refine ⟨lo', hi', ⟨he'.copied hcopied, fun r hr => ?_, hp'.extends hcopied.kept⟩, fresh, heap, hm, hown,
      fun he => (hc.enclave he).1, (hc.enclave he).2, hcopied⟩
    rcases List.mem_append.1 hr with hr | hr
    · rcases List.mem_append.1 hr with hr | hr
      · exact (hout r (hm.outside h.enclave r hr)).mono hle
      · have hnew := hcopied.new r hr
        exact ⟨hnew.2, fun hw => absurd (hw.2.trans_le he'.le) (Nat.not_lt.2 hnew.1)⟩
    · refine (hout r ((h.held r hr).mono ?_)).mono hle
      rw [List.length_append]
      exact Nat.le_add_right _ _

theorem Isolated.step (h : Isolated lo hi m) (hs : Step m m') : ∃ lo' hi', Isolated lo' hi' m' := by
  cases hs with
  | parse hp =>
    obtain ⟨lo', hi', hiso, -⟩ := h.parses hp
    exact ⟨lo', hi', hiso⟩
  | @throw n fresh roots user name heap core hd hm hholes hc =>
    have he := hm.enclave h.enclave
    obtain ⟨lo', hi', he', hp', hout, -⟩ := hc.isolated hd.core he (h.cached_extends fresh)
    refine ⟨lo', hi', he', fun r hr => hout r ((h.held r hr).mono ?_), hp'⟩
    rw [List.length_append]
    exact Nat.le_add_right _ _
  | @write a o ha ho =>
    have houtside := h.enclave.reach h.held ha
    refine ⟨lo, hi, h.enclave.set houtside.2 fun l hl => h.enclave.reach h.held (ho l hl), fun r hr => ?_, ?_⟩
    · exact (h.held r hr).mono (by rw [List.length_set])
    · have hcached := h.cached
      show Cached lo hi (m.heap.set a o) m.cache
      cases hc : m.cache with
      | none =>
        rw [hc] at hcached
        exact hcached
      | some core =>
        rw [hc] at hcached
        refine hcached.same h.enclave.inward fun b hlo hhi => List.getElem?_set_ne ?_
        rintro rfl
        exact houtside.2 ⟨hlo, hhi⟩
  | @make o ho =>
    have hlinks : ∀ l ∈ o.links, Outside lo hi m.heap l := fun l hl => h.enclave.reach h.held (ho l hl)
    refine ⟨lo, hi, h.enclave.append fun o' ho' l hl => ?_, fun r hr => ?_, h.cached_extends [o]⟩
    · obtain rfl := List.mem_singleton.1 ho'
      exact ⟨(hlinks l hl).1.trans (by simp), (hlinks l hl).2⟩
    · rcases List.mem_cons.1 hr with rfl | hr
      · refine ⟨by simp, fun hw => absurd hw.2 (Nat.not_lt.2 h.enclave.le)⟩
      · exact (h.held r hr).mono (by simp)

/-- In every state of a process the cache is out of reach. -/
theorem Run.isolated (hr : Run m) : ∃ lo hi, Isolated lo hi m := by
  induction hr with
  | refl => exact ⟨0, 0, ⟨le_rfl, nofun, nofun, nofun⟩, nofun, rfl⟩
  | tail _ hs ih =>
    obtain ⟨lo, hi, h⟩ := ih
    exact h.step hs

end

/-! ## Calls -/

/-- What is planted could be what the engine makes. -/
theorem Copied.made {h h' : Objects Item} {roots : List Nat} {ps : Rules (NumericElement Units) JsNum}
    (hc : Copied h h' roots (ps.map productionTree)) : ∃ fresh, h' = h ++ fresh ∧ Made h fresh roots ps := by
  have hsplit : h' = h ++ h'.drop h.length := by
    refine List.ext_getElem? fun a => ?_
    by_cases ha : a < h.length
    · rw [List.getElem?_append_left ha, hc.kept.2 a ha]
    · rw [List.getElem?_append_right (Nat.le_of_not_lt ha), List.getElem?_drop]
      congr 1
      omega
  have hlen : h.length + (h'.drop h.length).length = h'.length := by
    have := hc.kept.1
    rw [List.length_drop]
    omega
  refine ⟨h'.drop h.length, hsplit, fun o ho l hl => ?_, fun r hr => ?_, ?_⟩
  · obtain ⟨i, hi⟩ := List.mem_iff_getElem?.1 ho
    rw [List.getElem?_drop] at hi
    rw [hlen]
    exact hc.inward _ o (Nat.le_add_right _ _) (List.getElem?_eq_some_iff.1 hi).1 hi l hl
  · rw [hlen]
    exact hc.new r hr
  · rw [← hsplit]
    exact HoldsAll.mono (fun _ o ho => ⟨o, ho, rfl, rfl, fun _ => trivial⟩) _ hc.holds

theorem Parses.held {m m' : Module} {user : Rules (NumericElement Units) JsNum} {own copies : List Nat}
    (hp : Parses m user own copies m') : ∀ {a : Nat}, a ∈ copies → a ∈ m'.held := by
  cases hp
  exact fun ha => List.mem_append_left _ (List.mem_append_right _ ha)

/-- In every state, a grammar without holes has a call that answers. -/
theorem exists_parses (m : Module) {user : Rules (NumericElement Units) JsNum} (hholes : rejectHoles user = .ok ()) :
    ∃ own copies m', Parses m user own copies m' := by
  obtain ⟨n, hn⟩ : ∃ n, Deep n user := by
    refine ⟨depthAll ((user ++ coreRules JsNum fromCodePoint).map productionTree), fun p hp => ?_⟩
    generalize user ++ coreRules JsNum fromCodePoint = ps at hp
    induction ps with
    | nil => cases hp
    | cons q ps ih =>
      rw [List.map_cons, depthAll]
      rcases List.mem_cons.1 hp with rfl | hp
      · exact le_max_left _ _
      · exact (ih hp).trans (le_max_right _ _)
  obtain ⟨fresh, -, hm⟩ := Copied.made (plantAll_copied m.heap (user.map productionTree))
  obtain ⟨heap, core, hc⟩ : ∃ heap core, HasCore n (m.heap ++ fresh) m.cache heap core := by
    cases m.cache with
    | some core => exact ⟨_, core, .kept⟩
    | none =>
      have himpl : (Ts.grammar Ts.numericOf).Implements .abnf 0 (Ts.numericEngine 0) :=
        Grammar.engine_implements _ _ _ _
      have hts : (coreTokens fun _ => ⟨.DEF, 0, 0, 0, 0⟩).map (·.lex) = coreSource := rfl
      obtain ⟨v, heap, -, hstrip⟩ := getCoreRules_parsed himpl hts
      obtain ⟨fresh', -, hm'⟩ :=
        Copied.made (plantAll_copied (m.heap ++ fresh) ((Ts.productions heap v).map productionTree))
      exact ⟨_, _, .parsed hm' hstrip⟩
  exact ⟨_, _, _, .parses hn hm hholes hc⟩

/-! ## What a call answers -/

/-- No object can be got at from both. -/
def Apart (h : Objects Item) (roots roots' : List Nat) : Prop := ∀ a, Reach h roots a → ¬ Reach h roots' a

/-- Whatever was parsed and written before, a call answers the grammar's own productions and bare copies of the core
rules it needs, as they are parsed from the text in the library; no object of either is in the other, in an earlier
grammar or in the cache; and the cache is as it was made. -/
theorem grammars_apart {refsIn : List (Element (NumericElement Units) JsNum) → List Text → List Text}
    (hrefs : CollectsRefs refsIn) {m m' : Module} {user : Rules (NumericElement Units) JsNum} {own copies : List Nat}
    (hrun : Run m) (hp : Parses m user own copies m') :
    HoldsAll (fun _ => True) m'.heap own (user.map productionTree) ∧
      (∃ added, (Ts.withCoreRules refsIn user : Except (Cause NumericError) _) = .ok (user ++ added) ∧
        HoldsBareAll m'.heap copies (added.map productionTree)) ∧
      Apart m'.heap own (copies ++ m.held) ∧ Apart m'.heap copies (own ++ m.held) ∧
      ∃ core, m'.cache = some core ∧ core.map Prod.fst = CoreRule.all.map CoreRule.name ∧
        HoldsBareAll m'.heap (core.map Prod.snd) ((coreRules JsNum fromCodePoint).map productionTree) ∧
        Apart m'.heap m'.held (core.map Prod.snd) := by
  obtain ⟨lo, hi, h⟩ := hrun.isolated
  obtain ⟨lo', hi', h', fresh, heap, hm, hown, hkept, hle, hcopied⟩ := h.parses hp
  have hlen : (m.heap ++ fresh).length = m.heap.length + fresh.length := List.length_append
  have hle' := hcopied.kept.1
  -- the grammar's own objects are a run, and so are the copies
  have hrunOwn := (hkept (hm.run h.enclave)).copied hcopied
  have hrunCopies := (hkept (hm.enclave h.enclave)).copies hcopied
  have hinOwn : ∀ r ∈ own, Within m.heap.length (m.heap ++ fresh).length r := fun r hr => by
    have hnew := hm.new r hr
    exact ⟨hnew.1, by omega⟩
  have hinCopies : ∀ r ∈ copies, Within heap.length m'.heap.length r := hcopied.new
  have hheld : ∀ r ∈ m.held, r < m.heap.length := fun r hr => (h.held r hr).1
  refine ⟨hown.extends hcopied.kept, ?_, fun a => hrunOwn.apart hinOwn fun r hr => ?_,
    fun a => hrunCopies.apart hinCopies fun r hr => ?_, ?_⟩
  · cases hp with
    | parses hd hm' hholes hc =>
      refine ⟨(addedRules user).map (CoreRule.production fromCodePoint), ?_, ?_⟩
      · rw [Ts.withCoreRules_eq hrefs, hholes]
      · rw [List.map_map]
        exact hcopied.holds
  · rcases List.mem_append.1 hr with hr | hr
    · have hnew := hcopied.new r hr
      exact ⟨hnew.2, fun hw => by have := hw.2; omega⟩
    · have hlt := hheld r hr
      exact ⟨by omega, fun hw => by have := hw.1; omega⟩
  · rcases List.mem_append.1 hr with hr | hr
    · have hin := (hinOwn r hr).2
      exact ⟨by omega, fun hw => by have := hw.1; omega⟩
    · have hlt := hheld r hr
      exact ⟨by omega, fun hw => by have := hw.1; omega⟩
  · cases hp with
    | @parses n fresh' _ heap' core hd hm' hholes hc =>
      have hp : Pristine lo' hi' _ core := h'.cached
      refine ⟨core, rfl, hp.names, hp.holds, fun a ha ha' => ?_⟩
      exact h'.enclave.apart hp.within h'.held ha' ha

/-- `a = CR`. -/
def usesCR : Rules (NumericElement Units) JsNum := [{ name := ['a'], alts := [[.ref ['C', 'R'] none]] }]

/-- `a = CR`, parsed twice; between the calls the caller renames the copy of `CR` that it was given. -/
theorem grammars_apart_renamed :
    ∃ (m m' : Module) (a : Nat) (own copies : List Nat), Run m ∧ a ∈ m.held ∧ nameAt m.heap a = ['X'] ∧
    Parses m usesCR own copies m' ∧
      HoldsBareAll m'.heap copies [productionTree (CoreRule.CR.production fromCodePoint)] ∧
        Apart m'.heap copies (own ++ m.held) := by
  have hholes : rejectHoles usesCR = .ok () := by rfl
  have hadded : addedRules usesCR = [.CR] := by decide +kernel
  obtain ⟨own, copies, m, hp⟩ := exists_parses {} hholes
  obtain ⟨lo, hi, h⟩ := Run.isolated .refl
  obtain ⟨-, -, -, -, heap, -, -, -, -, hcopied⟩ := h.parses hp
  rw [hadded] at hcopied
  obtain _ | ⟨a, _ | ⟨_, _⟩⟩ := copies
  · exact hcopied.holds.elim
  · obtain ⟨o, ho, -⟩ := hcopied.holds.1
    have ha : a ∈ m.held := hp.held List.mem_cons_self
    have hwrite : Step m { m with heap := m.heap.set a ⟨.production ['X'] false, [], []⟩ } := .write (.root ha) nofun
    have hrun : Run { m with heap := m.heap.set a ⟨.production ['X'] false, [], []⟩ } :=
      (Relation.ReflTransGen.single (.parse hp)).tail hwrite
    obtain ⟨own', copies', m', hp'⟩ :=
      exists_parses { m with heap := m.heap.set a ⟨.production ['X'] false, [], []⟩ } hholes
    have hrefs : CollectsRefs fun (alt : List (Element (NumericElement Units) JsNum)) needed => needed ++ seqRefs alt :=
      fun _ _ _ => List.mem_append
    obtain ⟨-, ⟨added, hok, hheld⟩, -, hapart, -⟩ := grammars_apart hrefs hrun hp'
    rw [Ts.withCoreRules_eq hrefs, hholes, hadded] at hok
    obtain rfl := List.append_cancel_left (Except.ok.inj hok)
    refine ⟨_, m', a, own', copies', hrun, ha, ?_, hp', hheld, hapart⟩
    rw [nameAt, List.getElem?_set_self (List.getElem?_eq_some_iff.1 ho).1]
  · exact hcopied.holds.2.elim

end TabnasAbnf.Meta
