/-
Text in code units. In an encoding where an ASCII character is the unit of its own code and every
other character is units past ASCII, a search for an ASCII character among the units finds it among
the characters; offsets keep the order of places, and a slice between two places is the text there.
-/
import TabnasAbnf.Base.Utf16

namespace TabnasAbnf.Base

/-- An encoding of characters that leaves ASCII as it is. -/
structure Encoding where
  units : Char → List Nat
  ascii : ∀ c, c.toNat < 0x80 → units c = [c.toNat]
  high : ∀ c, 0x80 ≤ c.toNat → units c ≠ [] ∧ ∀ u ∈ units c, 0x80 ≤ u

namespace Encoding

variable (E : Encoding)

def encode (t : Text) : List Nat := t.flatMap E.units

def width (c : Char) : Nat := (E.units c).length

/-- The offset of the place before the `k`-th character; places past the end count on by one. -/
def offset (t : Text) (k : Nat) : Nat := (E.encode (t.take k)).length + (k - t.length)

/-- The characters that begin from offset `i` on and before `j`, the text starting at offset `o`. -/
def slice (i j : Nat) : Nat → Text → Text
  | _, [] => []
  | o, c :: cs => if i ≤ o ∧ o < j then c :: slice i j (o + E.width c) cs else slice i j (o + E.width c) cs

theorem width_pos (c : Char) : 0 < E.width c := by
  unfold width
  by_cases h : c.toNat < 0x80
  · rw [E.ascii c h]
    exact Nat.one_pos
  · exact List.length_pos_iff.2 (E.high c (by omega)).1

@[simp] theorem encode_nil : E.encode [] = [] := rfl

@[simp] theorem encode_cons (c : Char) (t : Text) : E.encode (c :: t) = E.units c ++ E.encode t := List.flatMap_cons

theorem encode_append (t t' : Text) : E.encode (t ++ t') = E.encode t ++ E.encode t' := List.flatMap_append

theorem length_encode_cons (c : Char) (t : Text) : (E.encode (c :: t)).length = E.width c + (E.encode t).length := by
  rw [encode_cons, List.length_append]
  rfl

/-- Only the ASCII character has its code among its units. -/
theorem mem_units {c d : Char} (hd : d.toNat < 0x80) : d.toNat ∈ E.units c ↔ c = d := by
  constructor
  · intro h
    by_cases hc : c.toNat < 0x80
    · rw [E.ascii c hc, List.mem_singleton] at h
      exact Char.toNat_inj.1 h.symm
    · have hge := (E.high c (by omega)).2 _ h
      omega
  · rintro rfl
    rw [E.ascii c hd]
    exact List.mem_singleton_self _

theorem mem_encode {t : Text} {d : Char} (hd : d.toNat < 0x80) : d.toNat ∈ E.encode t ↔ d ∈ t := by
  unfold encode
  rw [List.mem_flatMap]
  constructor
  · rintro ⟨c, hc, hu⟩
    rwa [(E.mem_units hd).1 hu] at hc
  · exact fun h => ⟨d, h, (E.mem_units hd).2 rfl⟩

/-! ## Searching -/

theorem idxOf?_append {l l' : List Nat} {u : Nat} (h : u ∉ l) : (l ++ u :: l').idxOf? u = some l.length := by
  induction l with
  | nil => simp [List.idxOf?_cons]
  | cons v l ih =>
    rw [List.mem_cons, not_or] at h
    rw [List.cons_append, List.idxOf?_cons, if_neg (by simpa using fun heq => h.1 heq.symm), ih h.2]
    rfl

/-- The first ASCII character of a kind is found where it stands. -/
theorem idxOf?_encode {t rest : Text} {d : Char} (hd : d.toNat < 0x80) (h : d ∉ t) :
    (E.encode (t ++ d :: rest)).idxOf? d.toNat = some (E.encode t).length := by
  rw [encode_append, encode_cons, E.ascii d hd, List.singleton_append]
  exact idxOf?_append fun hm => h ((E.mem_encode hd).1 hm)

theorem idxOf?_encode_none {t : Text} {d : Char} (hd : d.toNat < 0x80) (h : d ∉ t) :
    (E.encode t).idxOf? d.toNat = none := by
  rw [List.idxOf?_eq_none_iff]
  exact fun hm => h ((E.mem_encode hd).1 hm)

/-! ## Slices -/

theorem slice_append (i j o : Nat) (t t' : Text) :
    E.slice i j o (t ++ t') = E.slice i j o t ++ E.slice i j (o + (E.encode t).length) t' := by
  induction t generalizing o with
  | nil => rfl
  | cons c t ih =>
    rw [List.cons_append, slice, slice, ih, E.length_encode_cons, Nat.add_assoc]
    split <;> rfl

theorem slice_before {i j o : Nat} {t : Text} (h : o + (E.encode t).length ≤ i) : E.slice i j o t = [] := by
  induction t generalizing o with
  | nil => rfl
  | cons c t ih =>
    rw [E.length_encode_cons] at h
    have hw := E.width_pos c
    rw [slice, if_neg (by omega), ih (by omega)]

theorem slice_past {i j o : Nat} {t : Text} (h : j ≤ o) : E.slice i j o t = [] := by
  induction t generalizing o with
  | nil => rfl
  | cons c t ih => rw [slice, if_neg (by omega), ih (by omega)]

theorem slice_inside {i j o : Nat} {t : Text} (hi : i ≤ o) (hj : o + (E.encode t).length ≤ j) :
    E.slice i j o t = t := by
  induction t generalizing o with
  | nil => rfl
  | cons c t ih =>
    rw [E.length_encode_cons] at hj
    have hw := E.width_pos c
    rw [slice, if_pos (by omega), ih (by omega) (by omega)]

/-- What stands between two places of a text. -/
theorem slice_between (pre mid post : Text) :
    E.slice (E.encode pre).length ((E.encode pre).length + (E.encode mid).length) 0 (pre ++ (mid ++ post)) = mid := by
  rw [slice_append, slice_append, E.slice_before (by omega), E.slice_inside (by omega) (by omega),
    E.slice_past (by omega), List.nil_append, List.append_nil]

/-! ## Offsets -/

theorem offset_succ (t : Text) (k : Nat) : E.offset t k < E.offset t (k + 1) := by
  unfold offset
  by_cases hk : k < t.length
  · rw [List.take_add_one, List.getElem?_eq_getElem hk, Option.toList_some, encode_append, List.length_append,
      encode_cons,
      encode_nil, List.append_nil]
    have hw := E.width_pos t[k]
    unfold width at hw
    omega
  · rw [List.take_of_length_le (by omega), List.take_of_length_le (by omega)]
    omega

/-- Offsets keep the order of places. -/
theorem offset_strictMono (t : Text) : StrictMono (E.offset t) := strictMono_nat_of_lt_succ (E.offset_succ t)

theorem offset_length (pre post : Text) : E.offset (pre ++ post) pre.length = (E.encode pre).length := by
  unfold offset
  rw [List.take_left, List.length_append]
  omega

end Encoding

/-- The bytes of a character in UTF-8. -/
def utf8Units (c : Char) : List Nat :=
  let n := c.toNat
  if n < 0x80 then [n]
  else if n < 0x800 then [0xC0 + n / 0x40, 0x80 + n % 0x40]
  else if n < 0x10000 then [0xE0 + n / 0x1000, 0x80 + n / 0x40 % 0x40, 0x80 + n % 0x40]
  else [0xF0 + n / 0x40000, 0x80 + n / 0x1000 % 0x40, 0x80 + n / 0x40 % 0x40, 0x80 + n % 0x40]

def utf8 : Encoding where
  units := utf8Units
  ascii := fun _ h => if_pos h
  high := by
    intro c h
    unfold utf8Units
    simp only
    rw [if_neg (by omega)]
    split
    · refine ⟨List.cons_ne_nil _ _, fun u hu => ?_⟩
      simp only [List.mem_cons, List.not_mem_nil, or_false] at hu
      omega
    · split
      · refine ⟨List.cons_ne_nil _ _, fun u hu => ?_⟩
        simp only [List.mem_cons, List.not_mem_nil, or_false] at hu
        omega
      · refine ⟨List.cons_ne_nil _ _, fun u hu => ?_⟩
        simp only [List.mem_cons, List.not_mem_nil, or_false] at hu
        omega

def utf16Encoding : Encoding where
  units := fun c => fromCodePoint c.toNat
  ascii := fun _ h => if_pos (Nat.lt_trans h (by decide))
  high := by
    intro c h
    unfold fromCodePoint
    split
    · exact ⟨List.cons_ne_nil _ _, fun u hu => by rw [List.mem_singleton.1 hu]; exact h⟩
    · refine ⟨List.cons_ne_nil _ _, fun u hu => ?_⟩
      simp only [List.mem_cons, List.not_mem_nil, or_false] at hu
      omega

end TabnasAbnf.Base
