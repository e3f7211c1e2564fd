/-
Runs of an evaluator: one ends with a value, with a refusal or at an operation that has no value, or it
is cut short by its fuel. A run settles when, with enough fuel, it always ends the same way.
-/
import Mathlib.Data.List.Basic

namespace TabnasAbnf.Base

/-! ## Runs -/

inductive Run (E α : Type)
  | done (a : α)
  | refused (e : E)
  | fault
  | spent
  deriving DecidableEq, Repr

namespace Run

variable {E α β : Type}

def bind (x : Run E α) (f : α → Run E β) : Run E β :=
  match x with
  | .done a => f a
  | .refused e => .refused e
  | .fault => .fault
  | .spent => .spent

instance : Monad (Run E) where
  pure := .done
  bind := bind

/-- The value of an option, or a fault where there is none. -/
def ofOption : Option α → Run E α
  | some a => .done a
  | none => .fault

/-- The runs of a list's items in order, to their values. -/
def each (f : α → Run E β) : List α → Run E (List β)
  | [] => .done []
  | a :: as => (f a).bind fun b => (each f as).bind fun bs => .done (b :: bs)

/-- The items a test holds of, in order. -/
def select (p : α → Run E Bool) (as : List α) : Run E (List α) :=
  (each p as).bind fun bs => .done ((as.zip bs).filterMap fun ab => if ab.2 then some ab.1 else none)

@[simp] theorem bind_eq (x : Run E α) (f : α → Run E β) : (x >>= f) = x.bind f := rfl

@[simp] theorem pure_eq (a : α) : (pure a : Run E α) = .done a := rfl

@[simp] theorem done_bind (a : α) (f : α → Run E β) : (done a : Run E α).bind f = f a := rfl

@[simp] theorem refused_bind (e : E) (f : α → Run E β) : (refused e : Run E α).bind f = .refused e := rfl

@[simp] theorem fault_bind (f : α → Run E β) : (fault : Run E α).bind f = .fault := rfl

@[simp] theorem spent_bind (f : α → Run E β) : (spent : Run E α).bind f = .spent := rfl

theorem ofOption_eq_done {o : Option α} {a : α} : (ofOption o : Run E α) = .done a ↔ o = some a := by
  cases o with
  | none => simp [ofOption]
  | some b => simp [ofOption]

/-- A bind that ends with a value has both its halves end with one. -/
theorem bind_eq_done {x : Run E α} {f : α → Run E β} {b : β} (h : x.bind f = .done b) :
    ∃ a, x = .done a ∧ f a = .done b := by
  cases x with
  | done a => exact ⟨a, rfl, h⟩
  | refused e => cases h
  | fault => cases h
  | spent => cases h

/-- The items' values, one by one. -/
theorem each_eq_done {f : α → Run E β} {as : List α} {bs : List β} (h : each f as = .done bs) :
    List.Forall₂ (fun a b => f a = .done b) as bs := by
  induction as generalizing bs with
  | nil =>
    cases h
    exact .nil
  | cons a as ih =>
    obtain ⟨b, hb, h⟩ := bind_eq_done h
    obtain ⟨bs', hbs, h⟩ := bind_eq_done h
    cases h
    exact .cons hb (ih hbs)

/-- What is the same of an item and of its value. -/
theorem each_map_eq {γ : Type} {f : α → Run E β} {g : β → γ} {k : α → γ} {as : List α} {bs : List β}
    (h : each f as = .done bs) (hg : ∀ a ∈ as, ∀ b, f a = .done b → g b = k a) : bs.map g = as.map k := by
  induction as generalizing bs with
  | nil =>
    cases h
    rfl
  | cons a as ih =>
    obtain ⟨b, hb, h⟩ := bind_eq_done h
    obtain ⟨bs', hbs, h⟩ := bind_eq_done h
    cases h
    rw [List.map_cons, List.map_cons, hg a List.mem_cons_self b hb, ih hbs fun a ha => hg a (List.mem_cons_of_mem _ ha)]

/-- Values that tell what they are of. -/
theorem each_map {f : α → Run E β} {g : β → α} {as : List α} {bs : List β} (h : each f as = .done bs)
    (hg : ∀ a b, f a = .done b → g b = a) : bs.map g = as :=
  (each_map_eq h fun a _ => hg a).trans (List.map_id' as)

/-- The values of a list's items but the first ones. -/
theorem each_drop {f : α → Run E β} {as : List α} {bs : List β} (h : each f as = .done bs) (n : Nat) :
    each f (as.drop n) = .done (bs.drop n) := by
  induction as generalizing bs n with
  | nil =>
    cases h
    rw [List.drop_nil, List.drop_nil]
    rfl
  | cons a as ih =>
    cases n with
    | zero => exact h
    | succ n =>
      obtain ⟨b, hb, h⟩ := bind_eq_done h
      obtain ⟨bs', hbs, h⟩ := bind_eq_done h
      cases h
      exact ih hbs n

theorem each_append {f : α → Run E β} {as as' : List α} {bs bs' : List β} (h : each f as = .done bs)
    (h' : each f as' = .done bs') : each f (as ++ as') = .done (bs ++ bs') := by
  induction as generalizing bs with
  | nil =>
    cases h
    exact h'
  | cons a as ih =>
    obtain ⟨b, hb, h⟩ := bind_eq_done h
    obtain ⟨cs, hcs, h⟩ := bind_eq_done h
    cases h
    rw [List.cons_append, each, hb, done_bind, ih hcs]
    rfl

/-- The values of lists put together, flattened, from those of each. -/
theorem each_flatMap {γ : Type} {f : α → Run E (List β)} {g : γ → List α} {h : γ → List β} {cs : List γ}
    (hc : ∀ c ∈ cs, ∃ bss, each f (g c) = .done bss ∧ bss.flatten = h c) :
    ∃ bss, each f (cs.flatMap g) = .done bss ∧ bss.flatten = cs.flatMap h := by
  induction cs with
  | nil => exact ⟨[], rfl, rfl⟩
  | cons c cs ih =>
    obtain ⟨⟨bss, hbss, hflat⟩, hcs⟩ := List.forall_mem_cons.1 hc
    obtain ⟨bss', hbss', hflat'⟩ := ih hcs
    refine ⟨bss ++ bss', ?_, ?_⟩
    · rw [List.flatMap_cons]
      exact each_append hbss hbss'
    · rw [List.flatten_append, hflat, hflat', List.flatMap_cons]

/-- Where each item has a value, so has the list. -/
theorem exists_each {f : α → Run E β} {as : List α} (h : ∀ a ∈ as, ∃ b, f a = .done b) :
    ∃ bs, each f as = .done bs := by
  induction as with
  | nil => exact ⟨[], rfl⟩
  | cons a as ih =>
    obtain ⟨⟨b, hb⟩, has⟩ := List.forall_mem_cons.1 h
    obtain ⟨bs, hbs⟩ := ih has
    exact ⟨b :: bs, by rw [each, hb, done_bind, hbs, done_bind]⟩

/-- Each value is some item's. -/
theorem mem_each {f : α → Run E β} {as : List α} {bs : List β} (h : each f as = .done bs) {b : β} (hb : b ∈ bs) :
    ∃ a ∈ as, f a = .done b := by
  have hall := each_eq_done h
  clear h
  induction hall with
  | nil => cases hb
  | cons ha _ ih =>
    rcases List.mem_cons.1 hb with rfl | hb
    · exact ⟨_, List.mem_cons_self, ha⟩
    · obtain ⟨a, hmem, ha⟩ := ih hb
      exact ⟨a, List.mem_cons_of_mem _ hmem, ha⟩

/-- Each item has a value among those of the list. -/
theorem mem_of_each {f : α → Run E β} {as : List α} {bs : List β} (h : each f as = .done bs) {a : α} (ha : a ∈ as) :
    ∃ b ∈ bs, f a = .done b := by
  have hall := each_eq_done h
  clear h
  induction hall with
  | nil => cases ha
  | cons hb _ ih =>
    rcases List.mem_cons.1 ha with rfl | ha
    · exact ⟨_, List.mem_cons_self, hb⟩
    · obtain ⟨b, hin, hb⟩ := ih ha
      exact ⟨b, List.mem_cons_of_mem _ hin, hb⟩

theorem exists_of_each {f : α → Run E β} {as : List α} {bs : List β} (h : each f as = .done bs) {a : α} (ha : a ∈ as) :
    ∃ b, f a = .done b := by
  obtain ⟨b, -, hb⟩ := mem_of_each h ha
  exact ⟨b, hb⟩

/-- A test that ends with a value on every item selects as a filter does. -/
theorem select_eq {p : α → Run E Bool} {q : α → Bool} {as : List α} (h : ∀ a ∈ as, p a = .done (q a)) :
    select p as = .done (as.filter q) := by
  have heach : each p as = .done (as.map q) := by
    induction as with
    | nil => rfl
    | cons a as ih =>
      rw [each, h a List.mem_cons_self, done_bind, ih fun b hb => h b (List.mem_cons_of_mem _ hb)]
      rfl
  rw [select, heach, done_bind]
  congr 1
  clear heach h
  induction as with
  | nil => rfl
  | cons a as ih =>
    rw [List.map_cons, List.zip_cons_cons, List.filterMap_cons, List.filter_cons, ih]
    cases q a <;> rfl

/-- Whether a test holds of an item. -/
def holds (p : α → Run E Bool) (a : α) : Bool :=
  match p a with
  | done b => b
  | _ => false

theorem holds_iff {p : α → Run E Bool} {a : α} : holds p a = true ↔ p a = .done true := by
  unfold holds
  cases p a <;> simp

/-- What is selected is what the test holds of. -/
theorem select_eq_done {p : α → Run E Bool} {as bs : List α} (h : select p as = .done bs) :
    bs = as.filter (holds p) := by
  obtain ⟨flags, hf, -⟩ := bind_eq_done h
  have hsame : ∀ a ∈ as, p a = .done (holds p a) := by
    intro a ha
    obtain ⟨b, hb⟩ := exists_of_each hf ha
    rw [holds, hb]
  exact (Run.done.inj ((select_eq hsame).symm.trans h)).symm

theorem mem_select {p : α → Run E Bool} {as bs : List α} (h : select p as = .done bs) {b : α} :
    b ∈ bs ↔ b ∈ as ∧ p b = .done true := by
  rw [select_eq_done h, List.mem_filter, holds_iff]

/-! ## Following -/

/-- Where a run ends with a value, so does another, and the values are related. -/
def Follows {γ : Type} (x : Run E α) (y : Run E γ) (R : α → γ → Prop) : Prop :=
  ∀ a, x = .done a → ∃ c, y = .done c ∧ R a c

section

variable {γ δ : Type} {R : α → γ → Prop} {S : β → δ → Prop} {x : Run E α} {y : Run E γ}

theorem Follows.refl_done {a : α} {c : γ} (h : R a c) : (done a : Run E α).Follows (done c : Run E γ) R := by
  intro a' ha
  cases ha
  exact ⟨c, rfl, h⟩

theorem follows_refused (e : E) : (refused e : Run E α).Follows y R := fun _ h => by cases h

theorem follows_spent : (spent : Run E α).Follows y R := fun _ h => by cases h

theorem Follows.bind {f : α → Run E β} {g : γ → Run E δ} (h : x.Follows y R)
    (hfg : ∀ a c, R a c → (f a).Follows (g c) S) : (x.bind f).Follows (y.bind g) S := by
  intro b hb
  obtain ⟨a, ha, hb⟩ := bind_eq_done hb
  obtain ⟨c, hc, hR⟩ := h a ha
  rw [hc, done_bind]
  exact hfg a c hR b hb

/-- Runs that start alike. -/
theorem Follows.after {z : Run E α} {f : α → Run E β} {g : α → Run E δ} (h : ∀ a, z = .done a → (f a).Follows (g a) S) :
    (z.bind f).Follows (z.bind g) S := by
  have hstart : z.Follows z fun a c => z = .done a ∧ a = c := fun a ha => ⟨a, ha, ha, rfl⟩
  refine hstart.bind fun a c hac => ?_
  obtain ⟨ha, rfl⟩ := hac
  exact h a ha

/-- What is made of the values. -/
theorem Follows.map {f : α → β} {g : γ → δ} (h : x.Follows y R) (hfg : ∀ a c, R a c → S (f a) (g c)) :
    (x.bind fun a => (done (f a) : Run E β)).Follows (y.bind fun c => (done (g c) : Run E δ)) S :=
  h.bind fun a c hR => .refl_done (hfg a c hR)

theorem Follows.mono {R' : α → γ → Prop} (h : x.Follows y R) (hR : ∀ a c, y = .done c → R a c → R' a c) :
    x.Follows y R' := by
  intro a ha
  obtain ⟨c, hc, hac⟩ := h a ha
  exact ⟨c, hc, hR a c hc hac⟩

theorem Follows.ite {p : Prop} [Decidable p] {x' : Run E α} {y' : Run E γ} (h : p → x.Follows y R)
    (h' : ¬ p → x'.Follows y' R) : (if p then x else x').Follows (if p then y else y') R := by
  by_cases hp : p
  · rw [if_pos hp, if_pos hp]
    exact h hp
  · rw [if_neg hp, if_neg hp]
    exact h' hp

/-- The items' runs, one by one. -/
theorem Follows.each {f : α → Run E β} {g : α → Run E δ} {as : List α} (h : ∀ a ∈ as, (f a).Follows (g a) S) :
    (Run.each f as).Follows (Run.each g as) (List.Forall₂ S) := by
  induction as with
  | nil => exact .refl_done .nil
  | cons a as ih =>
    intro bs hbs
    obtain ⟨b, hb, hbs⟩ := bind_eq_done hbs
    obtain ⟨bs', hbs', hbs⟩ := bind_eq_done hbs
    cases hbs
    obtain ⟨d, hd, hS⟩ := h a List.mem_cons_self b hb
    obtain ⟨ds, hds, hall⟩ := ih (fun c hc => h c (List.mem_cons_of_mem _ hc)) bs' hbs'
    exact ⟨d :: ds, by rw [Run.each, hd, done_bind, hds, done_bind], .cons hS hall⟩

end

/-! ## Ending -/

/-- The run is not cut short. -/
def Ends (x : Run E α) : Prop := x ≠ .spent

theorem ends_done (a : α) : Ends (done a : Run E α) := fun h => by cases h

theorem ends_refused (e : E) : Ends (refused e : Run E α) := fun h => by cases h

theorem ends_fault : Ends (fault : Run E α) := fun h => by cases h

theorem ends_ofOption (o : Option α) : Ends (ofOption o : Run E α) := by
  cases o with
  | none => exact ends_fault
  | some a => exact ends_done a

theorem Ends.ite {c : Prop} [Decidable c] {x y : Run E α} (hx : x.Ends) (hy : y.Ends) : (if c then x else y).Ends := by
  split
  · exact hx
  · exact hy

theorem Ends.bind {x : Run E α} {f : α → Run E β} (hx : x.Ends) (hf : ∀ a, x = .done a → (f a).Ends) :
    (x.bind f).Ends := by
  cases x with
  | done a => exact hf a rfl
  | refused e => exact ends_refused e
  | fault => exact ends_fault
  | spent => exact absurd rfl hx

theorem Ends.each {f : α → Run E β} {as : List α} (h : ∀ a ∈ as, (f a).Ends) : (each f as).Ends := by
  induction as with
  | nil => exact ends_done _
  | cons a as ih =>
    refine (h a List.mem_cons_self).bind fun b _ => ?_
    exact (ih fun c hc => h c (List.mem_cons_of_mem _ hc)).bind fun bs _ => ends_done _

theorem Ends.left {x : Run E α} {f : α → Run E β} (h : (x.bind f).Ends) : x.Ends := by
  rintro rfl
  exact h rfl

theorem Ends.right {x : Run E α} {f : α → Run E β} {a : α} (h : (x.bind f).Ends) (hx : x = .done a) : (f a).Ends := by
  subst hx
  exact h

/-- What ends with less fuel ends the same way with more. -/
def Grows (x y : Run E α) : Prop := x.Ends → y = x

theorem Grows.refl (x : Run E α) : x.Grows x := fun _ => rfl

theorem spent_grows (y : Run E α) : (spent : Run E α).Grows y := fun h => absurd rfl h

theorem Grows.bind {x y : Run E α} {f g : α → Run E β} (h : x.Grows y) (hfg : ∀ a, (f a).Grows (g a)) :
    (x.bind f).Grows (y.bind g) := by
  intro hends
  rw [h hends.left]
  cases x with
  | done a => exact hfg a hends
  | refused e => rfl
  | fault => rfl
  | spent => rfl

/-- Runs that start alike. -/
theorem Grows.after {x : Run E α} {f g : α → Run E β} (hfg : ∀ a, (f a).Grows (g a)) : (x.bind f).Grows (x.bind g) :=
  (Grows.refl x).bind hfg

/-- What is made of the value. -/
theorem Grows.then {x y : Run E α} {f : α → Run E β} (h : x.Grows y) : (x.bind f).Grows (y.bind f) :=
  h.bind fun _ => .refl _

theorem Grows.ite {c : Prop} [Decidable c] {x x' y y' : Run E α} (h : x.Grows y) (h' : x'.Grows y') :
    (if c then x else x').Grows (if c then y else y') := by
  by_cases hc : c
  · rwa [if_pos hc, if_pos hc]
  · rwa [if_neg hc, if_neg hc]

theorem Grows.each {f g : α → Run E β} (h : ∀ a, (f a).Grows (g a)) (as : List α) :
    (Run.each f as).Grows (Run.each g as) := by
  induction as with
  | nil => exact .refl _
  | cons a as ih => exact (h a).bind fun b => ih.then

end Run

/-! ## Settling -/

section

variable {α : Type} {p q : α → Prop} {a b : α} {as : List α}

/-- An item of a list whose turn comes: those before it all have the property. -/
def InTurn (p : α → Prop) (as : List α) (a : α) : Prop := ∃ before after, as = before ++ a :: after ∧ ∀ b ∈ before, p b

theorem InTurn.head : InTurn p (a :: as) a := ⟨[], as, rfl, fun _ h => absurd h List.not_mem_nil⟩

theorem InTurn.cons (hb : p b) (h : InTurn p as a) : InTurn p (b :: as) a := by
  obtain ⟨before, after, rfl, hall⟩ := h
  exact ⟨b :: before, after, rfl, List.forall_mem_cons.2 ⟨hb, hall⟩⟩

theorem InTurn.append (hall : ∀ b ∈ as, p b) {as' : List α} (h : InTurn p as' a) : InTurn p (as ++ as') a := by
  induction as with
  | nil => exact h
  | cons b as ih => exact .cons (hall b List.mem_cons_self) (ih fun c hc => hall c (List.mem_cons_of_mem _ hc))

theorem InTurn.mem (h : InTurn p as a) : a ∈ as := by
  obtain ⟨before, after, rfl, -⟩ := h
  simp

theorem InTurn.mono (h : InTurn p as a) (hpq : ∀ b ∈ as, p b → q b) : InTurn q as a := by
  obtain ⟨before, after, rfl, hall⟩ := h
  exact ⟨before, after, rfl, fun b hb => hpq b (List.mem_append_left _ hb) (hall b hb)⟩

/-- An item whose turn comes in a row whose turn comes. -/
theorem InTurn.flatten {rows : List (List α)} {row : List α} (hrow : InTurn (fun row => ∀ b ∈ row, p b) rows row)
    (h : InTurn p row a) : InTurn p rows.flatten a := by
  obtain ⟨before, after, rfl, hall⟩ := hrow
  rw [List.flatten_append, List.flatten_cons]
  refine .append (fun b hb => ?_) ?_
  · obtain ⟨row', hrow', hb⟩ := List.mem_flatten.1 hb
    exact hall row' hrow' b hb
  · obtain ⟨before', after', rfl, hall'⟩ := h
    exact ⟨before', after' ++ after.flatten, by simp, hall'⟩

/-- The row of an item whose turn comes among those of all rows. -/
theorem InTurn.row {rows : List (List α)} (h : InTurn p rows.flatten a) :
    ∃ row, InTurn (fun row => ∀ b ∈ row, p b) rows row ∧ InTurn p row a := by
  induction rows with
  | nil => exact absurd h.mem List.not_mem_nil
  | cons row rows ih =>
    obtain ⟨before, after, heq, hall⟩ := h
    rw [List.flatten_cons] at heq
    rcases List.append_eq_append_iff.1 heq with ⟨mid, rfl, hrest⟩ | ⟨mid, rfl, hrest⟩
    · -- it stands in a later row
      obtain ⟨row', hrow', hin⟩ := ih ⟨mid, after, hrest, fun b hb => hall b (List.mem_append_right _ hb)⟩
      exact ⟨row', .cons (fun b hb => hall b (List.mem_append_left _ hb)) hrow', hin⟩
    · rcases mid with _ | ⟨b, mid⟩
      · obtain ⟨row', hrow', hin⟩ := ih ⟨[], after, hrest.symm, fun _ h => absurd h List.not_mem_nil⟩
        exact ⟨row', .cons (fun b hb => hall b (by simpa using hb)) hrow', hin⟩
      · rw [List.cons_append, List.cons.injEq] at hrest
        exact ⟨_, .head, ⟨before, mid, by rw [hrest.1], hall⟩⟩

end

section

variable {E α β γ : Type} {f : Nat → Run E α} {n k : Nat} {a : α}

/-- With enough fuel the run ends, and always the same way. -/
def Settles (f : Nat → Run E α) : Prop := ∃ (x : Run E α) (n : Nat), x.Ends ∧ ∀ m, n ≤ m → f m = x

/-- With enough fuel the run ends with a value. -/
def Gives (f : Nat → Run E α) : Prop := ∃ n a, f n = .done a

/-- More fuel changes no end. -/
def Steady (f : Nat → Run E α) : Prop := ∀ n m, n ≤ m → (f n).Grows (f m)

theorem Settles.ends (h : Settles f) : ∃ n, (f n).Ends := by
  obtain ⟨x, n, hx, hall⟩ := h
  exact ⟨n, by rwa [hall n (Nat.le_refl n)]⟩

theorem Steady.settles (h : Steady f) (hn : (f n).Ends) : Settles f := ⟨f n, n, hn, fun m hm => h n m hm hn⟩

/-- What ends at all ends with the value that more or less fuel gives. -/
theorem Steady.done (h : Steady f) (hn : f n = .done a) (hk : (f k).Ends) : f k = .done a := by
  rcases Nat.le_total n k with hle | hle
  · exact (h n k hle (hn ▸ Run.ends_done a)).trans hn
  · exact (h k n hle hk).symm.trans hn

theorem Steady.done_le (h : Steady f) (hn : f n = .done a) (hle : n ≤ k) : f k = .done a :=
  (h n k hle (hn ▸ Run.ends_done a)).trans hn

theorem Steady.unique {b : α} (h : Steady f) (ha : f n = .done a) (hb : f k = .done b) : a = b :=
  Run.done.inj ((h.done ha (hb ▸ Run.ends_done b)).symm.trans hb)

/-- Where each item's run gives a value with some fuel, one fuel suffices for all. -/
theorem Steady.each {f : Nat → α → Run E β} (hf : ∀ a, Steady fun n => f n a) {as : List α}
    (h : ∀ a ∈ as, Gives fun n => f n a) : ∃ n bs, Run.each (f n) as = .done bs := by
  induction as with
  | nil => exact ⟨0, [], rfl⟩
  | cons a as ih =>
    obtain ⟨⟨n, b, hb⟩, has⟩ := List.forall_mem_cons.1 h
    obtain ⟨m, bs, hbs⟩ := ih has
    have hmore : Run.each (f (max n m)) as = .done bs :=
      (Run.Grows.each (fun c => hf c m _ (Nat.le_max_right n m)) as (hbs ▸ Run.ends_done bs)).trans hbs
    refine ⟨max n m, b :: bs, ?_⟩
    rw [Run.each, (hf a).done_le hb (Nat.le_max_left n m), Run.done_bind, hmore, Run.done_bind]

theorem settles_const {x : Run E α} (h : x.Ends) : Settles fun _ => x := ⟨x, 0, h, fun _ _ => rfl⟩

theorem Settles.bind {g : Nat → α → Run E β} (hf : Settles f)
    (hg : ∀ a, (∃ n, f n = .done a) → Settles fun n => g n a) :
    Settles fun n => (f n).bind (g n) := by
  obtain ⟨x, n, hx, hall⟩ := hf
  cases x with
  | done a =>
    obtain ⟨y, k, hy, hgall⟩ := hg a ⟨n, hall n (Nat.le_refl n)⟩
    refine ⟨y, max n k, hy, fun m hm => ?_⟩
    show (f m).bind (g m) = y
    rw [hall m (by omega), Run.done_bind]
    exact hgall m (by omega)
  | refused e =>
    refine ⟨.refused e, n, Run.ends_refused e, fun m hm => ?_⟩
    show (f m).bind (g m) = .refused e
    rw [hall m hm, Run.refused_bind]
  | fault =>
    refine ⟨.fault, n, Run.ends_fault, fun m hm => ?_⟩
    show (f m).bind (g m) = .fault
    rw [hall m hm, Run.fault_bind]
  | spent => exact absurd rfl hx

/-- What is made of the value without more fuel. -/
theorem Settles.then {g : α → Run E β} (hf : Settles f) (hg : ∀ a, (g a).Ends) : Settles fun n => (f n).bind g :=
  hf.bind fun a _ => settles_const (hg a)

theorem Settles.ite {c : Prop} [Decidable c] {f g : Nat → Run E α} (hf : c → Settles f) (hg : ¬ c → Settles g) :
    Settles fun n => if c then f n else g n := by
  by_cases hc : c
  · simpa only [if_pos hc] using hf hc
  · simpa only [if_neg hc] using hg hc

/-- What takes one unit of fuel more settles as well. -/
theorem Settles.succ (h : Settles fun n => f (n + 1)) : Settles f := by
  obtain ⟨x, n, hx, hall⟩ := h
  refine ⟨x, n + 1, hx, fun m hm => ?_⟩
  obtain ⟨k, rfl⟩ : ∃ k, m = k + 1 := ⟨m - 1, by omega⟩
  exact hall k (by omega)

end

/-! ## Items in turn -/

section

variable {E α β γ : Type} {f : Nat → α → Run E β} {g : List β → Run E γ} {as : List α} {rows : List (List α)}
  {a : α} {k : Nat}

/-- Items' runs settle one after another where those whose turn comes do. -/
theorem Settles.each (h : ∀ a, InTurn (fun b => Gives fun n => f n b) as a → Settles fun n => f n a) :
    Settles fun n => Run.each (f n) as := by
  induction as with
  | nil => exact settles_const (Run.ends_done _)
  | cons a as ih =>
    refine (h a .head).bind fun b hb => ?_
    have hrest := ih fun c hc => h c (.cons ⟨_, _, hb.choose_spec⟩ hc)
    exact hrest.then fun bs => Run.ends_done _

/-- An item whose turn comes has its run end where the run of all does. -/
theorem Steady.ends_each (hf : ∀ a, Steady fun n => f n a) (h : (Run.each (f k) as).Ends)
    (hr : InTurn (fun b => Gives fun n => f n b) as a) : (f k a).Ends := by
  obtain ⟨before, after, rfl, hall⟩ := hr
  induction before with
  | nil => exact h.left
  | cons b before ih =>
    obtain ⟨⟨n, c, hc⟩, hbefore⟩ := List.forall_mem_cons.1 hall
    exact ih hbefore (h.right ((hf b).done hc h.left)).left

theorem gives_row (h : Gives fun n => (Run.each (f n) as).bind g) : ∀ b ∈ as, Gives fun n => f n b := by
  intro b hb
  obtain ⟨n, c, hc⟩ := h
  obtain ⟨bs, hbs, -⟩ := Run.bind_eq_done hc
  exact ⟨n, Run.exists_of_each hbs hb⟩

/-- Rows of items, each of whose values one thing is made. -/
theorem Settles.each_row (hg : ∀ bs, (g bs).Ends)
    (h : ∀ a, InTurn (fun b => Gives fun n => f n b) rows.flatten a → Settles fun n => f n a) :
    Settles fun n => Run.each (fun row => (Run.each (f n) row).bind g) rows := by
  refine Settles.each fun row hrow => ?_
  have hrow' := hrow.mono fun row' _ => gives_row
  exact (Settles.each fun a ha => h a (hrow'.flatten ha)).then hg

theorem Steady.row (hf : ∀ a, Steady fun n => f n a) (row : List α) : Steady fun n => (Run.each (f n) row).bind g :=
  fun n m hle => (Run.Grows.each (fun a => hf a n m hle) row).then

theorem Steady.ends_each_row (hf : ∀ a, Steady fun n => f n a) (hg : ∀ bs, ∃ c, g bs = .done c)
    (h : (Run.each (fun row => (Run.each (f k) row).bind g) rows).Ends)
    (hr : InTurn (fun b => Gives fun n => f n b) rows.flatten a) : (f k a).Ends := by
  obtain ⟨row, hrow, ha⟩ := hr.row
  refine Steady.ends_each hf (Run.Ends.left (Steady.ends_each (Steady.row hf) h ?_)) ha
  refine hrow.mono fun row' _ hall => ?_
  obtain ⟨n, bs, hbs⟩ := Steady.each hf hall
  obtain ⟨c, hc⟩ := hg bs
  refine ⟨n, c, ?_⟩
  show (Run.each (f n) row').bind g = .done c
  rw [hbs, Run.done_bind, hc]

end

/-! ## Recursions with fuel -/

section

variable {E X Y : Type} (body : Nat → (X → Run E Y) → X → Run E Y)

/-- A recursion given fuel: a call has one unit less. -/
def iterate : Nat → X → Run E Y
  | 0, _ => .spent
  | n + 1, x => body n (iterate n) x

variable {body}

/-- A recursion given more fuel ends as it did. -/
theorem steady_iterate
    (hbody : ∀ {n m f g}, n ≤ m → (∀ x, (f x).Grows (g x)) → ∀ x, (body n f x).Grows (body m g x)) (x : X) :
    Steady fun n => iterate body n x := by
  intro n m h
  induction n generalizing m x with
  | zero => exact Run.spent_grows _
  | succ n ih =>
    cases m with
    | zero => omega
    | succ m => exact hbody (by omega) (fun x => ih x m (by omega)) x

end

end TabnasAbnf.Base
