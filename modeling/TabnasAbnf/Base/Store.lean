/-
Cells by address: values a program shares by reference. A cell is made at the next address; a
change to one cell leaves the others. `Extends b h` says `h` still holds what `b` did.
-/
import Mathlib.Order.Nat

namespace TabnasAbnf.Base

abbrev Store (X : Type) := List X

variable {X : Type} {b h h₁ h₂ h₃ : Store X} {a i : Nat} {x : X} {f : X → X}

/-- Everything `b` holds, `h` holds. -/
def Extends (b h : Store X) : Prop := b.length ≤ h.length ∧ ∀ a < b.length, h[a]? = b[a]?

/-- The cells from `lo` on hold in `h'` what they hold in `h`. -/
def SameFrom (lo : Nat) (h h' : Store X) : Prop := ∀ a, lo ≤ a → a < h.length → h'[a]? = h[a]?

theorem Extends.refl (h : Store X) : Extends h h := ⟨le_rfl, fun _ _ => rfl⟩

theorem Extends.trans (h : Extends h₁ h₂) (h' : Extends h₂ h₃) : Extends h₁ h₃ :=
  ⟨h.1.trans h'.1, fun a ha => (h'.2 a (ha.trans_le h.1)).trans (h.2 a ha)⟩

theorem Extends.get (hb : Extends b h) (ha : b[a]? = some x) : h[a]? = some x := by
  rw [hb.2 a (List.getElem?_eq_some_iff.1 ha).1, ha]

theorem Extends.sameFrom (h : Extends h₁ h₂) (lo : Nat) : SameFrom lo h₁ h₂ := fun a _ hlt => h.2 a hlt

theorem SameFrom.mono {lo lo' : Nat} (hs : SameFrom lo h₁ h₂) (hl : lo ≤ lo') : SameFrom lo' h₁ h₂ :=
  fun a ha hlt => hs a (hl.trans ha) hlt

theorem SameFrom.trans {lo : Nat} (h : SameFrom lo h₁ h₂) (hl : h₁.length ≤ h₂.length)
    (h' : SameFrom lo h₂ h₃) : SameFrom lo h₁ h₃ :=
  fun a ha hlt => (h' a ha (hlt.trans_le hl)).trans (h a ha hlt)

theorem SameFrom.get {lo : Nat} (hs : SameFrom lo h₁ h₂) (hl : lo ≤ a) (ha : h₁[a]? = some x) :
    h₂[a]? = some x := by
  rw [hs a hl (List.getElem?_eq_some_iff.1 ha).1, ha]

/-- The address of the next cell. -/
theorem get_new (h : Store X) (x : X) : (h ++ [x])[h.length]? = some x := List.getElem?_concat_length

theorem extends_new (h : Store X) (x : X) : Extends h (h ++ [x]) :=
  ⟨by simp, fun _ ha => List.getElem?_append_left ha⟩

theorem get_modify (ha : h[a]? = some x) : (h.modify a f)[a]? = some (f x) := by simp [ha]

theorem get_modify_ne (hi : a ≠ i) : (h.modify a f)[i]? = h[i]? := by simp [hi]

/-- A change to a cell made since `b` leaves what `b` holds. -/
theorem extends_modify (hb : Extends b h) (ha : b.length ≤ a) : Extends b (h.modify a f) :=
  ⟨by simpa using hb.1, fun i hi => by rw [get_modify_ne (by omega), hb.2 i hi]⟩

theorem sameFrom_modify : SameFrom (a + 1) h (h.modify a f) :=
  fun _ hi _ => get_modify_ne (by omega)

end TabnasAbnf.Base
