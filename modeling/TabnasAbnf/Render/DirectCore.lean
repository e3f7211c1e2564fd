/-
The core rules a grammar referenced itself, read back from the order of a spec's rules. The compiler adds
core rules in passes over their list; every core rule references earlier ones alone, so the first pass
adds those the user's rules reference, and the list falls back where the second begins.
-/
import TabnasAbnf.Meta.CoreRules
import TabnasAbnf.Render.Helpers

namespace TabnasAbnf.Render

open TabnasAbnf.Base TabnasAbnf.Meta TabnasAbnf.Passes

/-! ## The first fall -/

/-- The places where a list of numbers falls, the number before the first being `-1`. -/
def falls (idx : List Int) : List Nat :=
  (List.range idx.length).filter fun i => decide (idx.getD i 0 < (-1 :: idx).getD i 0)

/-- A list that rises and goes on lower falls first where it goes on. -/
theorem falls_append {xs ys : List Int} (hpos : ∀ x ∈ xs, 0 ≤ x) (hx : xs.Pairwise (· < ·))
    (hy : ∀ y ∈ ys.head?, ∃ x ∈ xs, y < x) : (falls (xs ++ ys)).head? = ys.head?.map fun _ => xs.length := by
  unfold falls
  rw [List.length_append, List.range_add, List.filter_append]
  have hrise : (List.range xs.length).filter (fun i => decide ((xs ++ ys).getD i 0 < (-1 :: (xs ++ ys)).getD i 0)) =
    [] := by
    rw [List.filter_eq_nil_iff]
    intro i hi
    rw [List.mem_range] at hi
    rw [decide_eq_true_eq, not_lt, List.getD_eq_getElem?_getD, List.getD_eq_getElem?_getD,
      List.getElem?_append_left hi, List.getElem?_eq_getElem hi, Option.getD_some]
    cases i with
    | zero => exact le_trans (show (-1 : Int) ≤ 0 by decide) (hpos _ (List.getElem_mem hi))
    | succ i =>
      rw [List.getElem?_cons_succ, List.getElem?_append_left (by omega), List.getElem?_eq_getElem (by omega),
        Option.getD_some]
      exact (List.pairwise_iff_getElem.1 hx i (i + 1) (by omega) hi (by omega)).le
  rw [hrise, List.nil_append]
  rcases ys with _ | ⟨y, ys⟩
  · rfl
  · -- the last number before the fall is at least the one it falls below
    obtain ⟨x, hxm, hlt⟩ := hy y rfl
    obtain ⟨j, hj, rfl⟩ := List.getElem_of_mem hxm
    obtain ⟨n, hn⟩ : ∃ n, xs.length = n + 1 := ⟨xs.length - 1, by omega⟩
    have hlast : xs[j] ≤ xs[n] := by
      rcases Nat.lt_or_ge j n with h | h
      · exact (List.pairwise_iff_getElem.1 hx j n hj (by omega) h).le
      · obtain rfl : j = n := by omega
        exact le_refl _
    rw [List.length_cons, List.range_succ_eq_map, List.map_cons, List.filter_cons_of_pos]
    · rfl
    · rw [decide_eq_true_eq, Nat.add_zero, List.getD_eq_getElem?_getD, List.getD_eq_getElem?_getD,
        List.getElem?_append_right (le_refl _), Nat.sub_self, hn, List.getElem?_cons_succ,
        List.getElem?_append_left (show n < xs.length by omega), List.getElem?_eq_getElem (show n < xs.length by omega)]
      exact lt_of_lt_of_le hlt hlast

/-! ## The core rules -/

def abnfCoreOrder : List Text :=
  ["ALPHA".toList, "BIT".toList, "CHAR".toList, "CR".toList, "LF".toList, "CRLF".toList, "CTL".toList, "DIGIT".toList,
    "DQUOTE".toList, "HEXDIG".toList, "HTAB".toList, "OCTET".toList, "SP".toList, "VCHAR".toList, "WSP".toList,
    "LWSP".toList]

def abnfCoreIndex (name : Text) : Nat :=
  ((List.range abnfCoreOrder.length).filter fun i => abnfSame (abnfCoreOrder.getD i []) name).headD 99

/-- Whether a rule is one the compiler marked as core, and none of its own helpers. -/
def isCore (cx : Context) (name : Text) : Out Bool :=
  (abnfMade cx name).bind fun made => .done (!made && abnfSame (abnfKind (abnfRule cx name)) "core".toList)

/-- The core rules the grammar referenced itself. -/
def abnfDirectCore (cx : Context) : Out (List Text) :=
  (Run.select (isCore cx) (cx.rules.map Prod.fst)).bind fun core =>
    match (falls (core.map fun n => (abnfCoreIndex n : Int))).head? with
    | none => .done core
    | some i => .done (core.take i)

/-- The rules that are taken are marked as core. -/
theorem mem_abnfDirectCore {cx : Context} {direct : List Text} (h : abnfDirectCore cx = .done direct) {name : Text}
    (hname : name ∈ direct) : name ∈ cx.rules.map Prod.fst ∧ isCore cx name = .done true := by
  obtain ⟨core, hcore, h⟩ := Run.bind_eq_done h
  refine (Run.mem_select hcore).1 ?_
  split at h
  · cases h
    exact hname
  · cases h
    exact List.mem_of_mem_take hname

/-! ## The order of the core rules -/

/-- The place of a core rule in declaration order. -/
def place (r : CoreRule) : Nat := abnfCoreIndex r.name

theorem place_increasing : CoreRule.all.Pairwise fun r r' => place r < place r' := by decide

/-- A core rule references earlier ones alone. -/
theorem place_refs {r r' : CoreRule} (h : r' ∈ r.refs) : place r' < place r := by
  revert h
  cases r <;> simp only [CoreRule.refs, List.mem_cons, List.not_mem_nil, or_false, false_imp_iff] <;>
    (intro h; rcases h with rfl | rfl) <;> decide

section

variable {β ε : Type} {refsIn : List (Element (NumericElement Units) β) → List Text → List Text}

/-- The entries of the map of core rules. -/
def coreEntries (β : Type) : List (Text × Production (List (Element (NumericElement Units) β))) :=
  (coreRules β fromCodePoint).map fun p => (p.name, p)

theorem coreEntries_eq : coreEntries β = CoreRule.all.map fun r => (r.name, r.production fromCodePoint) := by
  rw [coreEntries, coreRules, List.map_map]
  rfl

theorem coreEntries_names : ((coreEntries β).map Prod.fst).Nodup := by
  have hnames := coreRules_names (β := β) fromCodePoint
  rwa [coreEntries, List.map_map]

theorem prodRefs_core {r : CoreRule} {n : Text} :
    prodRefs (r.production fromCodePoint : Production (List (Element (NumericElement Units) β))) n ↔
      ∃ r' ∈ r.refs, r'.name = n := CoreRule.mem_refs fromCodePoint

/-- No core rule references one at its place or after it. -/
theorem coreEntries_before : (coreEntries β).Pairwise fun a b => ¬ prodRefs a.2 b.1 := by
  rw [coreEntries_eq, List.pairwise_map]
  refine place_increasing.imp fun {r r'} hlt hr => ?_
  obtain ⟨s, hs, he⟩ := prodRefs_core.1 hr
  rw [CoreRule.name_injective he] at hs
  exact absurd (place_refs hs) (by omega)

theorem coreEntries_place : (coreEntries β).Pairwise fun a b => abnfCoreIndex a.1 < abnfCoreIndex b.1 := by
  rw [coreEntries_eq, List.pairwise_map]
  exact place_increasing

/-- An entry that references another is of a core rule after it. -/
theorem place_of_prodRefs {a b : Text × Production (List (Element (NumericElement Units) β))} (ha : a ∈ coreEntries β)
    (hr : prodRefs a.2 b.1) : abnfCoreIndex b.1 < abnfCoreIndex a.1 := by
  rw [coreEntries_eq] at ha
  obtain ⟨r, -, rfl⟩ := List.mem_map.1 ha
  obtain ⟨r', hr', he⟩ := prodRefs_core.1 hr
  rw [← he]
  exact place_refs hr'

theorem coreEntries_name {e : Text × Production (List (Element (NumericElement Units) β))} (he : e ∈ coreEntries β) :
    e.2.name = e.1 ∧ ∃ r : CoreRule, r.name = e.1 := by
  rw [coreEntries_eq] at he
  obtain ⟨r, -, rfl⟩ := List.mem_map.1 he
  exact ⟨rfl, r, rfl⟩

/-- The work `withCoreRules` begins with. -/
def coreStart (refsIn : List (Element (NumericElement Units) β) → List Text → List Text)
    (user : Rules (NumericElement Units) β) : Work (Text × Production (List (Element (NumericElement Units) β))) Text :=
  ⟨user.map (·.name), scanProds refsIn user [], [], false⟩

/-- The entries `withCoreRules` adds. -/
def coreAdded (refsIn : List (Element (NumericElement Units) β) → List Text → List Text)
    (user : Rules (NumericElement Units) β) : List (Text × Production (List (Element (NumericElement Units) β))) :=
  (saturate Prod.fst (fun entry needed => scanProds refsIn [entry.2] needed) (coreEntries β)
    (coreStart refsIn user)).out

theorem withCoreRules_added {user out : Rules (NumericElement Units) β}
    (h : (Ts.withCoreRules refsIn user : Except (Cause ε) _) = .ok (user ++ out)) :
    out = (coreAdded refsIn user).map Prod.snd := by
  unfold Ts.withCoreRules at h
  split at h
  · cases h
  · exact (List.append_cancel_left (Except.ok.inj h)).symm

variable (hrefs : CollectsRefs refsIn)
include hrefs

theorem coreScan (entry : Text × Production (List (Element (NumericElement Units) β))) (needed : List Text) (n : Text) :
    n ∈ scanProds refsIn [entry.2] needed ↔ n ∈ needed ∨ prodRefs entry.2 n := by
  rw [mem_scanProds hrefs, List.exists_mem_cons_iff]
  simp

/-- The names added: core rules the user does not define. -/
theorem coreAdded_mem {user : Rules (NumericElement Units) β} :
    (∀ e ∈ coreAdded refsIn user, e ∈ coreEntries β ∧ ∀ q ∈ user, q.name ≠ e.1) ∧
    ((coreAdded refsIn user).map Prod.fst).Nodup ∧
      ∀ e ∈ coreEntries β, (∀ q ∈ user, q.name ≠ e.1) → (∃ p ∈ user, prodRefs p e.1) → e ∈ coreAdded refsIn user := by
  rcases @saturate_out _ _ _ Prod.fst (fun entry needed => scanProds refsIn [entry.2] needed) _ (coreEntries β)
    (user.map (·.name)) (scanProds refsIn user []) (coreScan hrefs) coreEntries_names with ⟨hclosing, hout⟩
  refine ⟨fun e he => ?_, hclosing.nodup, fun e he hd hr => ?_⟩
  · obtain ⟨hi, hd, -⟩ := (hout e).1 he
    exact ⟨hi, fun q hq heq => hd (List.mem_map.2 ⟨q, hq, heq⟩)⟩
  · refine (hout e).2 ⟨he, fun hm => ?_, .start ?_⟩
    · obtain ⟨q, hq, heq⟩ := List.mem_map.1 hm
      exact hd q hq heq
    · rw [mem_scanProds hrefs]
      exact .inr hr

/-- The core rules a user's rules reference are added first, in declaration order; those left in the spec
after them begin with one that comes before one of them. -/
theorem coreAdded_first {user : Rules (NumericElement Units) β} {keys : List Text}
    (hlift : ∀ e ∈ coreAdded refsIn user, e.1 ∉ keys → ∀ n, ¬ prodRefs e.2 n) :
    ∃ rest, coreAdded refsIn user = due Prod.fst (coreEntries β) (coreStart refsIn user) ++ rest ∧
      ∀ q, (rest.filter fun e => decide (e.1 ∈ keys)).head? = some q →
        ∃ p ∈ due Prod.fst (coreEntries β) (coreStart refsIn user), p.1 ∈ keys ∧
          abnfCoreIndex q.1 < abnfCoreIndex p.1 := by
  classical
  -- a core rule that is not added does no harm
  let keep : Text × Production (List (Element (NumericElement Units) β)) → Bool := fun e =>
    decide (e.1 ∈ keys ∨ e ∉ coreAdded refsIn user)
  have hkeep : ∀ e ∈ coreEntries β, keep e = false → ∀ n, ¬ prodRefs e.2 n := by
    intro e _ hk
    rw [decide_eq_false_iff_not, not_or, not_not] at hk
    exact hlift e hk.2 hk.1
  rcases saturate_first (coreScan hrefs) coreEntries_names coreEntries_before hkeep (coreStart refsIn user) with
    ⟨rest, hrest, hhead⟩
  have hadded : coreAdded refsIn user = due Prod.fst (coreEntries β) (coreStart refsIn user) ++ rest :=
    hrest.trans (by rw [List.append_assoc]; rfl)
  have hsame : rest.filter (fun e => decide (e.1 ∈ keys)) = rest.filter keep := by
    refine List.filter_congr fun e he => ?_
    have hin : e ∈ coreAdded refsIn user := hadded ▸ List.mem_append_right _ he
    simp [keep, hin]
  refine ⟨rest, hadded, fun q hq => ?_⟩
  rw [hsame] at hq
  obtain ⟨-, p, hp, hkp, hr⟩ := hhead q hq
  have hin : p ∈ coreAdded refsIn user := hadded ▸ List.mem_append_left _ hp
  refine ⟨p, hp, ?_, place_of_prodRefs (mem_due.1 hp).1 hr⟩
  simpa [keep, hin] using hkp

end

/-! ## The core rules read back -/

/-- The core rules of one character, which the compiler may lift to tokens. -/
def liftable : List Text :=
  [CoreRule.CR.name, CoreRule.LF.name, CoreRule.DQUOTE.name, CoreRule.HTAB.name, CoreRule.SP.name]

/-- What the compiler makes of a grammar to which core rules were added: the spec keeps their order and
marks them, and no others, as core; it leaves out only such as it lifts. -/
structure Compiled (cx : Context) (added : List Text) : Prop where
  order : (cx.rules.map Prod.fst).filter (· ∈ added) = added.filter (· ∈ cx.rules.map Prod.fst)
  marked : ∀ n ∈ cx.rules.map Prod.fst, isCore cx n = .done (decide (n ∈ added))
  lifted : ∀ n ∈ added, n ∉ cx.rules.map Prod.fst → n ∈ liftable

theorem refs_of_liftable {r : CoreRule} (h : r.name ∈ liftable) : r.refs = [] := by
  revert h
  cases r <;> decide

section

variable {β ε : Type} {refsIn : List (Element (NumericElement Units) β) → List Text → List Text}

theorem prodRefs_liftable {e : Text × Production (List (Element (NumericElement Units) β))} (he : e ∈ coreEntries β)
    (hl : e.1 ∈ liftable) (n : Text) : ¬ prodRefs e.2 n := by
  rw [coreEntries_eq] at he
  obtain ⟨r, -, rfl⟩ := List.mem_map.1 he
  intro hr
  obtain ⟨r', hr', -⟩ := prodRefs_core.1 hr
  rw [refs_of_liftable hl] at hr'
  cases hr'

/-- The rules marked as core are those added by the first pass and left in the spec, and then those added
by later passes, which begin with a fall. -/
theorem abnfDirectCore_first (hrefs : CollectsRefs refsIn) {user : Rules (NumericElement Units) β} {cx : Context}
    (hc : Compiled cx ((coreAdded refsIn user).map Prod.fst)) :
    abnfDirectCore cx = .done (((due Prod.fst (coreEntries β) (coreStart refsIn user)).filter
      fun e => decide (e.1 ∈ cx.rules.map Prod.fst)).map Prod.fst) := by
  rcases @coreAdded_first _ _ hrefs user (cx.rules.map Prod.fst) fun e he hout n =>
    prodRefs_liftable ((coreAdded_mem hrefs).1 e he).1 (hc.lifted e.1 (List.mem_map_of_mem he) hout) n with
    ⟨rest, hadded, hhead⟩
  have hrise : (due Prod.fst (coreEntries β) (coreStart refsIn user)).Pairwise fun a b =>
      abnfCoreIndex a.1 < abnfCoreIndex b.1 := coreEntries_place.sublist List.filter_sublist
  have hcore : Run.select (isCore cx) (cx.rules.map Prod.fst) =
      .done (((coreAdded refsIn user).filter fun e => decide (e.1 ∈ cx.rules.map Prod.fst)).map Prod.fst) := by
    refine (Run.select_eq hc.marked).trans (congrArg _ (hc.order.trans ?_))
    rw [List.filter_map]
    rfl
  rw [abnfDirectCore, hcore, Run.done_bind, hadded, List.filter_append]
  generalize due Prod.fst (coreEntries β) (coreStart refsIn user) = first at hhead hrise ⊢
  generalize hxs : first.filter (fun e => decide (e.1 ∈ cx.rules.map Prod.fst)) = xs
  generalize hys : rest.filter (fun e => decide (e.1 ∈ cx.rules.map Prod.fst)) = ys at hhead
  have hxrise : (xs.map fun e => (abnfCoreIndex e.1 : Int)).Pairwise (· < ·) := by
    rw [List.pairwise_map, ← hxs]
    exact (hrise.sublist List.filter_sublist).imp fun hlt => by exact_mod_cast hlt
  -- what a later pass adds first stands before something the first pass added
  have hylow : ∀ y ∈ (ys.map fun e => (abnfCoreIndex e.1 : Int)).head?, ∃ x ∈ xs.map fun e =>
    (abnfCoreIndex e.1 : Int), y < x := by
    intro y hy
    rw [List.head?_map] at hy
    obtain ⟨q, hq, rfl⟩ := Option.map_eq_some_iff.1 hy
    obtain ⟨p, hp, hk, hlt⟩ := hhead q hq
    refine ⟨abnfCoreIndex p.1, List.mem_map.2 ⟨p, ?_, rfl⟩, by exact_mod_cast hlt⟩
    rw [← hxs, List.mem_filter]
    exact ⟨hp, decide_eq_true hk⟩
  have hxpos : ∀ x ∈ xs.map fun e => (abnfCoreIndex e.1 : Int), 0 ≤ x := by
    intro x hx
    obtain ⟨e, -, rfl⟩ := List.mem_map.1 hx
    exact Int.natCast_nonneg _
  have hfall := falls_append hxpos hxrise hylow
  rw [← List.map_append, List.head?_map, List.length_map] at hfall
  have hidx : ((xs ++ ys).map Prod.fst).map (fun n => (abnfCoreIndex n : Int)) =
      (xs ++ ys).map fun e => (abnfCoreIndex e.1 : Int) := by rw [List.map_map]; rfl
  rw [hidx, hfall]
  rcases ys with _ | ⟨q, ys⟩
  · simp
  · simp [List.take_left']

/-- `abnf-direct-core` undoes `withCoreRules`: of the rules of a spec compiled from a grammar with its core
rules added, it gives those core rules, in order, that a rule of the user's references. A grammar of the
same rules that references one of them has it added again. -/
theorem abnfDirectCore_direct (hrefs : CollectsRefs refsIn) {user out : Rules (NumericElement Units) β} {cx : Context}
    (hadd : (Ts.withCoreRules refsIn user : Except (Cause ε) _) = .ok (user ++ out))
    (hc : Compiled cx (out.map (·.name))) :
    ∃ direct, abnfDirectCore cx = .done direct ∧ direct.Sublist (cx.rules.map Prod.fst) ∧
      (∀ n, n ∈ direct ↔ (∃ r : CoreRule, r.name = n) ∧ (∀ q ∈ user, q.name ≠ n) ∧ (∃ p ∈ user, prodRefs p n) ∧
        n ∈ cx.rules.map Prod.fst) ∧
      ∀ n ∈ direct, ∀ user' out' : Rules (NumericElement Units) β, user'.map (·.name) = user.map (·.name) →
        (∃ p ∈ user', prodRefs p n) → (Ts.withCoreRules refsIn user' : Except (Cause ε) _) = .ok (user' ++ out') →
        n ∈ out'.map (·.name) := by
  have hname : ∀ user : Rules (NumericElement Units) β,
      ((coreAdded refsIn user).map Prod.snd).map (·.name) = (coreAdded refsIn user).map Prod.fst := by
    intro user
    rw [List.map_map]
    exact List.map_congr_left fun e he => (coreEntries_name ((coreAdded_mem hrefs).1 e he).1).1
  rw [withCoreRules_added hadd, hname] at hc
  have hmem : ∀ e ∈ coreEntries β, e ∈ due Prod.fst (coreEntries β) (coreStart refsIn user) ↔
      (∀ q ∈ user, q.name ≠ e.1) ∧ ∃ p ∈ user, prodRefs p e.1 := by
    intro e he
    rw [mem_due]
    simp only [he, true_and, coreStart, mem_scanProds hrefs, List.not_mem_nil, false_or, List.mem_map,
      not_exists, not_and]
  refine ⟨_, abnfDirectCore_first hrefs hc, ?_, fun n => ?_, ?_⟩
  · -- the rules read back are in the spec's order, as those marked as core are
    rcases @coreAdded_first _ _ hrefs user (cx.rules.map Prod.fst) fun e he hout n =>
      prodRefs_liftable ((coreAdded_mem hrefs).1 e he).1 (hc.lifted e.1 (List.mem_map_of_mem he) hout) n with
        ⟨rest, hadded, -⟩
    have hmarked : ((coreAdded refsIn user).map Prod.fst).filter (· ∈ cx.rules.map Prod.fst) =
        ((coreAdded refsIn user).filter fun e => decide (e.1 ∈ cx.rules.map Prod.fst)).map Prod.fst := by
      rw [List.filter_map]
      rfl
    have hsub : ((due Prod.fst (coreEntries β) (coreStart refsIn user)).filter
        fun e => decide (e.1 ∈ cx.rules.map Prod.fst)).Sublist
        ((coreAdded refsIn user).filter fun e => decide (e.1 ∈ cx.rules.map Prod.fst)) := by
      rw [hadded]
      exact (List.sublist_append_left _ _).filter _
    refine (hsub.map Prod.fst).trans ?_
    rw [← hmarked, ← hc.order]
    exact List.filter_sublist
  · rw [List.mem_map]
    constructor
    · rintro ⟨e, he, rfl⟩
      obtain ⟨hd, hk⟩ := List.mem_filter.1 he
      have hi := (mem_due.1 hd).1
      obtain ⟨hnew, hr⟩ := (hmem e hi).1 hd
      exact ⟨(coreEntries_name hi).2, hnew, hr, of_decide_eq_true hk⟩
    · rintro ⟨⟨r, rfl⟩, hnew, hr, hk⟩
      have hi : (r.name, r.production fromCodePoint) ∈ coreEntries β := by
        rw [coreEntries_eq]
        exact List.mem_map_of_mem (CoreRule.mem_all r)
      exact ⟨_, List.mem_filter.2 ⟨(hmem _ hi).2 ⟨hnew, hr⟩, decide_eq_true hk⟩, rfl⟩
  · intro n hn user' out' hsame hr' hadd'
    obtain ⟨e, he, rfl⟩ := List.mem_map.1 hn
    have hd := (List.mem_filter.1 he).1
    have hi := (mem_due.1 hd).1
    rw [withCoreRules_added hadd', hname]
    refine List.mem_map_of_mem ((coreAdded_mem hrefs).2.2 e hi (fun q hq heq => ?_) hr')
    -- the rules of the two grammars have the same names
    have hin : e.1 ∈ user.map (·.name) := hsame ▸ List.mem_map.2 ⟨q, hq, heq⟩
    obtain ⟨q', hq', heq'⟩ := List.mem_map.1 hin
    exact ((hmem e hi).1 hd).1 q' hq' heq'

end

/-- A rule with one alternate, marked as core or not. -/
def markedRule (kind : Text) : Json :=
  .obj [("open".toList, .arr [.obj [("k".toList, .obj [("node$".toList, .obj [("kind".toList, .str kind)])])]])]

/-- Adding the core rules to `a = HEXDIG` adds HEXDIG, and DIGIT after it. -/
theorem coreAdded_hexdig :
    (coreAdded (fun (alt : List (Element (NumericElement Units) Unit)) needed => needed ++ seqRefs alt)
      [{ name := ['a'], alts := [[.ref CoreRule.HEXDIG.name none]] }]).map Prod.fst =
      [CoreRule.HEXDIG.name, CoreRule.DIGIT.name] := by
  unfold coreAdded
  rw [saturate, dif_pos (by decide +kernel), saturate, dif_pos (by decide +kernel), saturate,
    dif_neg (by decide +kernel)]
  decide +kernel

/-- Of HEXDIG and DIGIT the first is the user's. -/
theorem abnfDirectCore_direct_hexdig :
    let refsIn := fun (alt : List (Element (NumericElement Units) Unit)) needed => needed ++ seqRefs alt
    let user : Rules (NumericElement Units) Unit := [{ name := ['a'], alts := [[.ref CoreRule.HEXDIG.name none]] }]
    let cx : Context :=
      { rules := [(['a'], markedRule "user".toList), (CoreRule.HEXDIG.name, markedRule "core".toList),
          (CoreRule.DIGIT.name, markedRule "core".toList)], start := [] }
    abnfDirectCore cx = .done [CoreRule.HEXDIG.name] ∧
    ∃ direct, abnfDirectCore cx = .done direct ∧ direct.Sublist (cx.rules.map Prod.fst) ∧
      (∀ n, n ∈ direct ↔ (∃ r : CoreRule, r.name = n) ∧ (∀ q ∈ user, q.name ≠ n) ∧ (∃ p ∈ user, prodRefs p n) ∧
        n ∈ cx.rules.map Prod.fst) ∧
      ∀ n ∈ direct, ∀ user' out' : Rules (NumericElement Units) Unit, user'.map (·.name) = user.map (·.name) →
        (∃ p ∈ user', prodRefs p n) →
        (Ts.withCoreRules refsIn user' : Except (Cause Unit) _) = .ok (user' ++ out') → n ∈ out'.map (·.name) := by
  intro refsIn user cx
  have hrefs : CollectsRefs refsIn := fun _ _ _ => List.mem_append
  have hadd : (Ts.withCoreRules refsIn user : Except (Cause Unit) _) =
      .ok (user ++ (coreAdded refsIn user).map Prod.snd) := by rfl
  have hnames : ((coreAdded refsIn user).map Prod.snd).map (·.name) = [CoreRule.HEXDIG.name, CoreRule.DIGIT.name] := by
    rw [← coreAdded_hexdig, List.map_map]
    exact List.map_congr_left fun e he => (coreEntries_name ((coreAdded_mem hrefs).1 e he).1).1
  refine ⟨by decide +kernel, abnfDirectCore_direct hrefs hadd ?_⟩
  rw [hnames]
  constructor <;> decide +kernel

end TabnasAbnf.Render
