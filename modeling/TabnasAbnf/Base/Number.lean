/-
JavaScript's numbers as far as digits reach them: `parseInt` answers `NaN`, an integral double or
`Infinity`. An integral double is kept as the natural number it is.
-/
import Mathlib.Algebra.Group.Nat.Defs
import Mathlib.Data.Nat.Log
import Mathlib.Tactic.Ring
import Mathlib.Data.List.TakeWhile

namespace TabnasAbnf.Base

/-- Text, as the characters it holds. -/
abbrev Text := List Char

/-- A number `parseInt` answers. -/
inductive JsNum
  | nan
  | fin (n : Nat)
  | inf
  deriving DecidableEq, Repr

/-! ## Rounding to a double -/

/-- The bits of `n` past the 53 a double's significand holds. -/
def excess (n : Nat) : Nat := Nat.log2 n + 1 - 53

/-- The double nearest to `n`, ties to the even significand; `Infinity` past the greatest. -/
def double (n : Nat) : JsNum :=
  let k := excess n
  let q := n / 2 ^ k
  let r := n % 2 ^ k
  let m := if 2 ^ k < 2 * r ∨ (2 * r = 2 ^ k ∧ q % 2 = 1) then q + 1 else q
  if Nat.log2 (m * 2 ^ k) < 1024 then .fin (m * 2 ^ k) else .inf

theorem excess_eq_zero {n : Nat} (h : n < 2 ^ 53) : excess n = 0 := by
  unfold excess
  by_cases h0 : n = 0
  · subst h0; decide
  · have := (Nat.log2_lt h0).2 h
    omega

/-- A double holds every integer below `2^53` exactly. -/
theorem double_of_lt {n : Nat} (h : n < 2 ^ 53) : double n = .fin n := by
  have hlt : Nat.log2 n < 1024 := by
    by_cases h0 : n = 0
    · subst h0; decide
    · have := (Nat.log2_lt h0).2 h
      omega
  unfold double
  rw [excess_eq_zero h]
  simp [Nat.mod_one, hlt]

/-- The significand an integer is rounded to holds the integer's leading bits. -/
theorem le_significand (n : Nat) :
    ∃ m, double n = (if Nat.log2 (m * 2 ^ excess n) < 1024 then .fin (m * 2 ^ excess n) else .inf) ∧
      n / 2 ^ excess n ≤ m ∧ m ≤ n / 2 ^ excess n + 1 := by
  unfold double
  refine ⟨_, rfl, ?_⟩
  split <;> omega

/-- An integer past a significand's bits keeps 53 of them. -/
theorem two_pow_le_div {n : Nat} (h : 2 ^ 53 ≤ n) : 2 ^ 52 ≤ n / 2 ^ excess n := by
  have h0 : n ≠ 0 := by omega
  have hlog : 53 ≤ Nat.log2 n := (Nat.le_log2 h0).2 h
  rw [Nat.le_div_iff_mul_le (Nat.two_pow_pos _), ← pow_add, show 52 + excess n = Nat.log2 n by unfold excess; omega]
  exact Nat.log2_self_le h0

/-- Rounding keeps an integer's highest bit. -/
theorem two_pow_log2_le {n m : Nat} (h : 2 ^ 53 ≤ n) (hm : n / 2 ^ excess n ≤ m) :
    2 ^ Nat.log2 n ≤ m * 2 ^ excess n := by
  have hlog : 53 ≤ Nat.log2 n := (Nat.le_log2 (by omega)).2 h
  calc 2 ^ Nat.log2 n ≤ 2 ^ (52 + excess n) := Nat.pow_le_pow_right (by omega) (by unfold excess; omega)
    _ = 2 ^ 52 * 2 ^ excess n := pow_add _ _ _
    _ ≤ m * 2 ^ excess n := Nat.mul_le_mul_right _ (le_trans (two_pow_le_div h) hm)

/-- The double of an integer past a significand's bits is past them too. -/
theorem double_fin_ge {n m : Nat} (h : 2 ^ 53 ≤ n) (hm : double n = .fin m) : 2 ^ 53 ≤ m := by
  obtain ⟨q, hd, hq, -⟩ := le_significand n
  rw [hd] at hm
  split at hm
  · rw [JsNum.fin.injEq] at hm
    have hlog : 53 ≤ Nat.log2 n := (Nat.le_log2 (by omega)).2 h
    rw [← hm]
    exact le_trans (Nat.pow_le_pow_right (by omega) hlog) (two_pow_log2_le h hq)
  · cases hm

/-- Rounding passes no power of two. -/
theorem double_fin_le {n m k : Nat} (h : n < 2 ^ k) (hm : double n = .fin m) : m ≤ 2 ^ k := by
  obtain ⟨q, hd, -, hq⟩ := le_significand n
  rw [hd] at hm
  split at hm
  · rw [JsNum.fin.injEq] at hm
    have hk : excess n ≤ k := by
      unfold excess
      by_cases h0 : n = 0
      · subst h0
        simp
      · have hlog := (Nat.log2_lt h0).2 h
        omega
    have hdiv : n / 2 ^ excess n < 2 ^ (k - excess n) := by
      rw [Nat.div_lt_iff_lt_mul (Nat.two_pow_pos _), ← pow_add, Nat.sub_add_cancel hk]
      exact h
    calc m = q * 2 ^ excess n := hm.symm
      _ ≤ 2 ^ (k - excess n) * 2 ^ excess n := Nat.mul_le_mul_right _ (by omega)
      _ = 2 ^ k := by rw [← pow_add, Nat.sub_add_cancel hk]
  · cases hm

/-- No double reaches an integer of `2^1024` or more. -/
theorem double_of_ge {n k : Nat} (hk : 1024 ≤ k) (h : 2 ^ k ≤ n) : double n = .inf := by
  have hn : 2 ^ 53 ≤ n := le_trans (Nat.pow_le_pow_right (by omega) (by omega)) h
  have h0 : n ≠ 0 := by omega
  obtain ⟨m, hd, hm, -⟩ := le_significand n
  have hbig := two_pow_log2_le hn hm
  have hne : m * 2 ^ excess n ≠ 0 := (lt_of_lt_of_le (Nat.two_pow_pos _) hbig).ne'
  rw [hd, if_neg]
  exact Nat.not_lt.2 (le_trans (le_trans hk ((Nat.le_log2 h0).2 h)) ((Nat.le_log2 hne).2 hbig))

example : double 9007199254740993 = .fin 9007199254740992 := by decide

/-! ## Digits -/

/-- The value of a digit in a base up to thirty-six. -/
def digitVal (c : Char) : Option Nat :=
  if '0' ≤ c ∧ c ≤ '9' then some (c.toNat - '0'.toNat)
  else if 'a' ≤ c ∧ c ≤ 'z' then some (c.toNat - 'a'.toNat + 10)
  else if 'A' ≤ c ∧ c ≤ 'Z' then some (c.toNat - 'A'.toNat + 10)
  else none

def isDigit (radix : Nat) (c : Char) : Bool := (digitVal c).any (· < radix)

theorem char_le {c d : Char} : c ≤ d ↔ c.toNat ≤ d.toNat := Iff.rfl

/-- The decimal digits are the characters from `0` to `9`. -/
theorem isDigit_ten {c : Char} : isDigit 10 c = decide ('0' ≤ c ∧ c ≤ '9') := by
  unfold isDigit digitVal
  simp only [char_le]
  have h0 : ('0' : Char).toNat = 48 := rfl
  have h9 : ('9' : Char).toNat = 57 := rfl
  have ha : ('a' : Char).toNat = 97 := rfl
  have hA : ('A' : Char).toNat = 65 := rfl
  split_ifs with h₁ h₂ h₃
  all_goals
    simp only [Option.any_some, Option.any_none]
    first | (rw [decide_eq_decide]; omega) | (symm; rw [decide_eq_false_iff_not]; omega)

/-- Text that is decimal digits and at least one, as a repetition count's source is. -/
abbrev Digits := { t : Text // t ≠ [] ∧ t.all (isDigit 10) = true }

/-- The number digits name in a base. -/
def ofDigits (radix : Nat) (ds : Text) : Nat :=
  ds.foldl (fun n c => n * radix + (digitVal c).getD 0) 0

theorem ofDigits_append (radix : Nat) (ds ds' : Text) :
    ofDigits radix (ds ++ ds') = ds'.foldl (fun n c => n * radix + (digitVal c).getD 0) (ofDigits radix ds) :=
  List.foldl_append

theorem ofDigits_append_eq (radix : Nat) (ds ds' : Text) :
    ofDigits radix (ds ++ ds') = ofDigits radix ds * radix ^ ds'.length + ofDigits radix ds' := by
  have hfold : ∀ (s : Text) (n : Nat), s.foldl (fun n c => n * radix + (digitVal c).getD 0) n =
      n * radix ^ s.length + ofDigits radix s := by
    intro s
    induction s with
    | nil => intro n; simp [ofDigits]
    | cons c s ih =>
      intro n
      have hcons : ofDigits radix (c :: s) = (0 * radix + (digitVal c).getD 0) * radix ^ s.length + ofDigits radix s :=
        ih _
      rw [List.foldl_cons, ih, hcons, List.length_cons, pow_succ]
      ring
  rw [ofDigits_append, hfold]

/-- Digits name a number below the base's power of how many they are. -/
theorem ofDigits_lt {radix : Nat} {ds : Text} (h : ∀ c ∈ ds, isDigit radix c = true) :
    ofDigits radix ds < radix ^ ds.length := by
  induction ds with
  | nil => simp [ofDigits]
  | cons c ds ih =>
    have hc : (digitVal c).getD 0 < radix := by
      have hd := h c List.mem_cons_self
      unfold isDigit at hd
      cases hv : digitVal c with
      | none => rw [hv] at hd; cases hd
      | some v => simpa [hv] using hd
    have hlt := ih fun d hd => h d (List.mem_cons_of_mem _ hd)
    have hcons : ofDigits radix (c :: ds) = (digitVal c).getD 0 * radix ^ ds.length + ofDigits radix ds := by
      have hone := ofDigits_append_eq radix [c] ds
      simpa [ofDigits] using hone
    rw [hcons, List.length_cons]
    calc (digitVal c).getD 0 * radix ^ ds.length + ofDigits radix ds
        < ((digitVal c).getD 0 + 1) * radix ^ ds.length := by rw [Nat.add_mul, Nat.one_mul]; omega
      _ ≤ radix * radix ^ ds.length := Nat.mul_le_mul_right _ hc
      _ = radix ^ (ds.length + 1) := by rw [pow_succ, Nat.mul_comm]

/-- A text is a number by its digits' values alone. -/
theorem ofDigits_congr {radix : Nat} {ds ds' : Text} (h : ds.map digitVal = ds'.map digitVal) :
    ofDigits radix ds = ofDigits radix ds' := by
  have hfold : ∀ (s : Text) (n : Nat), s.foldl (fun n c => n * radix + (digitVal c).getD 0) n =
      (s.map digitVal).foldl (fun n v => n * radix + v.getD 0) n := fun s n => by rw [List.foldl_map]
  rw [ofDigits, ofDigits, hfold, hfold, h]

theorem all_isDigit_congr {radix : Nat} {ds ds' : Text} (h : ds.map digitVal = ds'.map digitVal) :
    ds.all (isDigit radix) = ds'.all (isDigit radix) := by
  have hall : ∀ s : Text, s.all (isDigit radix) = (s.map digitVal).all fun v => v.any (· < radix) := fun s => by
    rw [List.all_map]
    rfl
  rw [hall, hall, h]

/-- JavaScript's `parseInt` on text without a sign, a blank or a base prefix at its front: the
longest prefix of digits of the base, rounded once to a double. -/
def parseInt (text : Text) (radix : Nat) : JsNum :=
  match text.takeWhile (isDigit radix) with
  | [] => .nan
  | d :: ds => double (ofDigits radix (d :: ds))

theorem parseInt_digits {text : Text} {radix : Nat} (hd : ∀ c ∈ text, isDigit radix c = true) (hne : text ≠ []) :
    parseInt text radix = double (ofDigits radix text) := by
  unfold parseInt
  rw [List.takeWhile_eq_self_iff.2 hd]
  cases text with
  | nil => exact absurd rfl hne
  | cons d ds => rfl

/-- Digits that name a number below `2^53` are read as that number. -/
theorem parseInt_of_lt {text : Text} {radix : Nat} (hd : ∀ c ∈ text, isDigit radix c = true)
    (hne : text ≠ []) (h : ofDigits radix text < 2 ^ 53) :
    parseInt text radix = .fin (ofDigits radix text) := by
  rw [parseInt_digits hd hne, double_of_lt h]

/-- The number a count's digits name. -/
def Digits.value (d : Digits) : Nat := ofDigits 10 d.1

theorem Digits.parseInt (d : Digits) (h : d.value < 2 ^ 53) : Base.parseInt d.1 10 = .fin d.value :=
  parseInt_of_lt (List.all_eq_true.1 d.2.2) d.2.1 h

end TabnasAbnf.Base
