/-
Lists a program grows in place. `Sharing` says what a list is read from, when two of them cannot be
seen through one another, and that appending to one is a concatenation the others do not see. A list
is a value, a cell of a store, or a slice of an array with room to spare.
-/
import TabnasAbnf.Base.Store
import Mathlib.Data.List.Basic

namespace TabnasAbnf.Base

variable {H A S : Type}

/-- Lists behind references `A` into a heap `H`: `grow` appends the second list to the first, and
answers where the first is from then on. -/
structure Sharing (H A S : Type) where
  read : H → A → List S
  grow : H → A → A → H × A
  Valid : H → A → Prop
  Apart : A → A → Prop
  symm : ∀ {a b}, Apart a b → Apart b a
  grow_valid : ∀ {h a b}, Valid h a → Valid h b → Apart a b → Valid (grow h a b).1 (grow h a b).2
  grow_read : ∀ {h a b}, Valid h a → Valid h b → Apart a b →
    read (grow h a b).1 (grow h a b).2 = read h a ++ read h b
  grow_frame : ∀ {h a b c}, Valid h a → Valid h b → Valid h c → Apart a c →
    Valid (grow h a b).1 c ∧ read (grow h a b).1 c = read h c
  grow_apart : ∀ {h a b c}, Valid h a → Valid h b → Valid h c → Apart a c → Apart (grow h a b).2 c

/-- Each reference of a list can be read, and no two share. -/
structure Sharing.Own (L : Sharing H A S) (h : H) (as : List A) : Prop where
  valid : ∀ a ∈ as, L.Valid h a
  apart : as.Pairwise L.Apart

namespace Sharing.Own

variable {L : Sharing H A S} {h : H} {a b : A} {as bs : List A}

theorem perm (hown : L.Own h as) (hp : as.Perm bs) : L.Own h bs :=
  ⟨fun c hc => hown.valid c (hp.mem_iff.2 hc), (hp.pairwise_iff L.symm).1 hown.apart⟩

/-- One list grown by another: it reads as the two, and the rest as before. -/
theorem grow (hown : L.Own h (a :: b :: as)) :
    L.Own (L.grow h a b).1 ((L.grow h a b).2 :: as) ∧
      L.read (L.grow h a b).1 (L.grow h a b).2 = L.read h a ++ L.read h b ∧
      ∀ c ∈ as, L.read (L.grow h a b).1 c = L.read h c := by
  obtain ⟨hvalid, hapart⟩ := hown
  obtain ⟨hab, hbs⟩ := List.pairwise_cons.1 hapart
  have ha := hvalid a List.mem_cons_self
  have hb := hvalid b (List.mem_cons_of_mem _ List.mem_cons_self)
  have hrest : ∀ c ∈ as, L.Valid h c ∧ L.Apart a c := fun c hc =>
    ⟨hvalid c (by simp [hc]), hab c (by simp [hc])⟩
  have hapart' := hab b List.mem_cons_self
  refine ⟨⟨fun c hc => ?_, List.pairwise_cons.2 ⟨fun c hc => ?_, (List.pairwise_cons.1 hbs).2⟩⟩,
    L.grow_read ha hb hapart', fun c hc => (L.grow_frame ha hb (hrest c hc).1 (hrest c hc).2).2⟩
  · rcases List.mem_cons.1 hc with rfl | hc
    · exact L.grow_valid ha hb hapart'
    · exact (L.grow_frame ha hb (hrest c hc).1 (hrest c hc).2).1
  · exact L.grow_apart ha hb (hrest c hc).1 (hrest c hc).2

end Sharing.Own

/-! ## Values -/

/-- Lists as values. -/
def values (S : Type) : Sharing Unit (List S) S where
  read _ a := a
  grow _ a b := ((), a ++ b)
  Valid _ _ := True
  Apart _ _ := True
  symm _ := trivial
  grow_valid _ _ _ := trivial
  grow_read _ _ _ := rfl
  grow_frame _ _ _ _ := ⟨trivial, rfl⟩
  grow_apart _ _ _ _ := trivial

/-! ## Cells -/

/-- The list in a cell. -/
def cellAt (h : Store (List S)) (a : Nat) : List S := h[a]?.getD []

/-- Lists in the cells of a store, one reference each. -/
def cells (S : Type) : Sharing (Store (List S)) Nat S where
  read := cellAt
  grow h a b := (h.modify a (· ++ cellAt h b), a)
  Valid h a := a < h.length
  Apart a b := a ≠ b
  symm := Ne.symm
  grow_valid ha _ _ := by simpa using ha
  grow_read {h a b} ha _ _ := by simp [cellAt, ha]
  grow_frame {h a b c} _ _ hc hac := by
    constructor
    · simpa using hc
    · rw [cellAt, get_modify_ne hac, cellAt]
  grow_apart _ _ _ hac := hac

/-! ## Slices -/

/-- A slice: a window of an array, with the room behind it that belongs to it. -/
structure Slice where
  array : Nat
  off : Nat
  len : Nat
  cap : Nat
  deriving DecidableEq, Repr

namespace Slice

def read (h : Store (List S)) (s : Slice) : List S := ((cellAt h s.array).drop s.off).take s.len

/-- The window and its room lie in the array. A slice without room needs none. -/
def Valid (h : Store (List S)) (s : Slice) : Prop :=
  s.len ≤ s.cap ∧ (0 < s.cap → s.array < h.length ∧ s.off + s.cap ≤ (cellAt h s.array).length)

/-- Slices of different arrays, or without room. -/
def Apart (s t : Slice) : Prop := 0 < s.cap → 0 < t.cap → s.array ≠ t.array

/-- An array with a run of its elements written over. -/
def overwrite (i : Nat) (xs arr : List S) : List S := arr.take i ++ xs ++ arr.drop (i + xs.length)

/-- `append`: in the room behind the slice where it suffices, otherwise in a new array, which is as
much longer than the elements as `spare` says, filled with `zero`. -/
def append (zero : S) (spare : Nat → Nat) (h : Store (List S)) (s t : Slice) : Store (List S) × Slice :=
  let xs := t.read h
  let len := s.len + xs.length
  if len ≤ s.cap then (h.modify s.array (overwrite (s.off + s.len) xs), { s with len })
  else
    (h ++ [s.read h ++ xs ++ List.replicate (spare len) zero],
      { array := h.length, off := 0, len, cap := len + spare len })

section

variable {h : Store (List S)} {s t c : Slice} {i : Nat} {xs arr : List S}

theorem overwrite_nil : overwrite i [] arr = arr := by simp [overwrite]

theorem length_overwrite (hi : i + xs.length ≤ arr.length) : (overwrite i xs arr).length = arr.length := by
  simp only [overwrite, List.length_append, List.length_take, List.length_drop]
  omega

/-- A window followed by what is written right behind it. -/
theorem window_overwrite {off len : Nat} (hl : off + len ≤ arr.length) :
    ((overwrite (off + len) xs arr).drop off).take (len + xs.length) = (arr.drop off).take len ++ xs := by
  have htake : (arr.take (off + len)).drop off = (arr.drop off).take len := by
    rw [List.drop_take, Nat.add_sub_cancel_left]
  have hlen : ((arr.drop off).take len).length = len := by
    rw [List.length_take, List.length_drop]
    omega
  have hoff : off ≤ (arr.take (off + len)).length := by
    rw [List.length_take]
    omega
  rw [overwrite, List.append_assoc, List.drop_append_of_le_length hoff, htake, ← List.append_assoc,
    List.take_left' (by rw [List.length_append, hlen])]

theorem read_empty (hv : s.Valid h) (hc : s.cap = 0) : s.read h = [] := by
  have hlen : s.len = 0 := by have := hv.1; omega
  rw [read, hlen, List.take_zero]

theorem length_read (hv : s.Valid h) : (s.read h).length = s.len := by
  obtain ⟨hlen, hroom⟩ := hv
  rw [read, List.length_take, List.length_drop]
  by_cases hc : 0 < s.cap
  · have := (hroom hc).2
    omega
  · omega

theorem cellAt_modify {a b : Nat} {f : List S → List S} (ha : a < h.length) :
    cellAt (h.modify a f) b = if a = b then f (cellAt h b) else cellAt h b := by
  split
  · rename_i hab
    subst hab
    simp [cellAt, ha]
  · rename_i hab
    rw [cellAt, get_modify_ne hab, cellAt]

theorem cellAt_new {a : Nat} (ha : a < h.length) (x : List S) : cellAt (h ++ [x]) a = cellAt h a := by
  rw [cellAt, List.getElem?_append_left ha, cellAt]

theorem cellAt_last (x : List S) : cellAt (h ++ [x]) h.length = x := by simp [cellAt]

/-- What `append` answers: in place, where the slice has the room, or in a new array. -/
theorem append_cases (zero : S) (spare : Nat → Nat) (hs : s.Valid h) (ht : t.Valid h) :
    (s.len + t.len ≤ s.cap ∧ append zero spare h s t =
      (h.modify s.array (overwrite (s.off + s.len) (t.read h)), { s with len := s.len + t.len })) ∨
    ∃ arr n, (s.read h ++ t.read h) <+: arr ∧ s.len + t.len ≤ n ∧ n ≤ arr.length ∧
      append zero spare h s t = (h ++ [arr], ⟨h.length, 0, s.len + t.len, n⟩) := by
  unfold append
  simp only [length_read ht]
  by_cases hc : s.len + t.len ≤ s.cap
  · exact .inl ⟨hc, if_pos hc⟩
  · refine .inr ⟨_, _, ⟨_, rfl⟩, Nat.le_add_right .., ?_, if_neg hc⟩
    simp [length_read hs, length_read ht, Nat.add_assoc]

theorem append_valid (zero : S) (spare : Nat → Nat) (hs : s.Valid h) (ht : t.Valid h) :
    (append zero spare h s t).2.Valid (append zero spare h s t).1 := by
  obtain ⟨hc, he⟩ | ⟨arr, n, -, hn, harr, he⟩ := append_cases zero spare hs ht
  · rw [he]
    refine ⟨hc, fun hcap => ?_⟩
    obtain ⟨hlt, hroom⟩ := hs.2 hcap
    have hfit : s.off + s.len + (t.read h).length ≤ (cellAt h s.array).length := by
      rw [length_read ht]
      omega
    rw [cellAt_modify hlt, if_pos rfl, length_overwrite hfit]
    exact ⟨by simpa using hlt, hroom⟩
  · rw [he]
    refine ⟨hn, fun _ => ⟨by simp, ?_⟩⟩
    rw [cellAt_last]
    simpa using harr

theorem append_read (zero : S) (spare : Nat → Nat) (hs : s.Valid h) (ht : t.Valid h) :
    (append zero spare h s t).2.read (append zero spare h s t).1 = s.read h ++ t.read h := by
  obtain ⟨hc, he⟩ | ⟨arr, n, hpre, hn, harr, he⟩ := append_cases zero spare hs ht
  · rw [he]
    by_cases hcap : 0 < s.cap
    · obtain ⟨hlt, hroom⟩ := hs.2 hcap
      have hle : s.off + s.len ≤ (cellAt h s.array).length := by have := hs.1; omega
      have hwin : ((overwrite (s.off + s.len) (t.read h) (cellAt h s.array)).drop s.off).take
          (s.len + (t.read h).length) = s.read h ++ t.read h := window_overwrite hle
      rw [length_read ht] at hwin
      rwa [read, cellAt_modify hlt, if_pos rfl]
    · -- without room there was nothing to append, and nothing before it
      have hlen : s.len + t.len = 0 := by omega
      have ht0 : t.read h = [] := List.length_eq_zero_iff.1 (by rw [length_read ht]; omega)
      rw [read_empty hs (by omega), ht0]
      simp [read, hlen]
  · rw [he, read, cellAt_last, List.drop_zero]
    have hlen : (s.read h ++ t.read h).length = s.len + t.len := by
      rw [List.length_append, length_read hs, length_read ht]
    rw [← hlen]
    exact (List.prefix_iff_eq_take.1 hpre).symm

theorem append_frame (zero : S) (spare : Nat → Nat) (hs : s.Valid h) (ht : t.Valid h) (hc : c.Valid h)
    (hsc : s.Apart c) :
    c.Valid (append zero spare h s t).1 ∧ c.read (append zero spare h s t).1 = c.read h := by
  by_cases hcap : 0 < c.cap
  · obtain ⟨hlt, hroom⟩ := hc.2 hcap
    have hcell : cellAt (append zero spare h s t).1 c.array = cellAt h c.array ∧
        c.array < (append zero spare h s t).1.length := by
      obtain ⟨hfit, he⟩ | ⟨arr, n, -, -, -, he⟩ := append_cases zero spare hs ht
      · rw [he]
        refine ⟨?_, by simpa using hlt⟩
        by_cases hscap : 0 < s.cap
        · rw [cellAt_modify (hs.2 hscap).1, if_neg (hsc hscap hcap)]
        · have ht0 : t.read h = [] := List.length_eq_zero_iff.1 (by rw [length_read ht]; omega)
          rw [ht0, show overwrite (s.off + s.len) ([] : List S) = id from funext fun _ => overwrite_nil,
            List.modify_id]
      · rw [he]
        exact ⟨cellAt_new hlt arr, by simp; omega⟩
    refine ⟨⟨hc.1, fun _ => ⟨hcell.2, by rw [hcell.1]; exact hroom⟩⟩, ?_⟩
    rw [read, hcell.1, read]
  · have hv : ∀ h' : Store (List S), c.Valid h' := fun h' => ⟨hc.1, fun hpos => absurd hpos hcap⟩
    exact ⟨hv _, by rw [read_empty (hv _) (by omega), read_empty hc (by omega)]⟩

theorem append_apart (zero : S) (spare : Nat → Nat) (hs : s.Valid h) (ht : t.Valid h) (hc : c.Valid h)
    (hsc : s.Apart c) : (append zero spare h s t).2.Apart c := by
  obtain ⟨-, he⟩ | ⟨arr, n, -, -, -, he⟩ := append_cases zero spare hs ht
  · rw [he]
    exact hsc
  · rw [he]
    intro _ hcap
    exact (hc.2 hcap).1.ne'

end

end Slice

/-- Lists in slices. -/
def slices (zero : S) (spare : Nat → Nat) : Sharing (Store (List S)) Slice S where
  read h s := s.read h
  grow := Slice.append zero spare
  Valid h s := s.Valid h
  Apart := Slice.Apart
  symm h ht hs := (h hs ht).symm
  grow_valid hs ht _ := Slice.append_valid zero spare hs ht
  grow_read hs ht _ := Slice.append_read zero spare hs ht
  grow_frame hs ht hc hsc := Slice.append_frame zero spare hs ht hc hsc
  grow_apart hs ht hc hsc := Slice.append_apart zero spare hs ht hc hsc

end TabnasAbnf.Base
