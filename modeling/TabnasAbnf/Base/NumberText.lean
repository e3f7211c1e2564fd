/-
`Number::toString` on the numbers `parseInt` answers: the fewest significant digits that read back
as the same double, the closest of those to it, and an exponent from 1e21 on.
-/
import Mathlib.Data.Nat.Digits.Defs
import TabnasAbnf.Base.Number

namespace TabnasAbnf.Base

/-- A natural number in decimal. -/
def decimal (n : Nat) : Text := Nat.toDigits 10 n

/-- The decimal of `k` significant digits that is closest to `x` of those read back as it, the one
with the even last digit of two as close. -/
def nearDecimal (x k : Nat) : Option Nat :=
  let p := 10 ^ ((decimal x).length - k)
  let q := x / p
  if double (q * p) = .fin x then
    if double ((q + 1) * p) = .fin x ∧ (p < 2 * (x % p) ∨ (2 * (x % p) = p ∧ q % 2 = 1)) then some ((q + 1) * p)
    else some (q * p)
  else if double ((q + 1) * p) = .fin x then some ((q + 1) * p)
  else none

/-- The decimal a double is written as. -/
def shortest (x : Nat) : Nat :=
  ((List.range (decimal x).length).findSome? fun i => nearDecimal x (i + 1)).getD x

/-- A number's significant digits and its exponent. -/
def exponential (w : Nat) : Text :=
  let places := decimal ((decimal w).length - 1)
  match ((decimal w).reverse.dropWhile (· = '0')).reverse with
  | d :: e :: ds => d :: '.' :: e :: (ds ++ ['e', '+'] ++ places)
  | ds => ds ++ ['e', '+'] ++ places

/-- `Number::toString`. -/
def numberToString : JsNum → Text
  | .nan => ['N', 'a', 'N']
  | .inf => ['I', 'n', 'f', 'i', 'n', 'i', 't', 'y']
  | .fin x => if (decimal (shortest x)).length ≤ 21 then decimal (shortest x) else exponential (shortest x)

example : numberToString (double 99999999999999999999999) = ['1', 'e', '+', '2', '3'] := by decide +kernel

/-! ## Decimals -/

theorem decimal_spec (n : Nat) : (∀ c ∈ decimal n, c.isDigit = true) ∧ Nat.ofDigitChars 10 (decimal n) 0 = n :=
  ⟨fun _ hc => Nat.isDigit_of_mem_toDigits (by omega) (by omega) hc, Nat.ofDigitChars_toDigits (by omega) (by omega)⟩

theorem decimal_injective {n m : Nat} (h : decimal n = decimal m) : n = m := by
  rw [← (decimal_spec n).2, h, (decimal_spec m).2]

theorem decimal_length_le_iff {n k : Nat} (hk : 0 < k) : (decimal n).length ≤ k ↔ n < 10 ^ k :=
  Nat.length_toDigits_le_iff (by omega) hk

theorem decimal_length_pos (n : Nat) : 0 < (decimal n).length := Nat.length_toDigits_pos

theorem digitVal_digitChar {d : Nat} (h : d < 16) : digitVal d.digitChar = some d := by
  have hall : ∀ d : Fin 16, digitVal d.1.digitChar = some d.1 := by decide
  exact hall ⟨d, h⟩

/-- A number's digits are digits, and read back as it. -/
theorem toDigits_spec {b n : Nat} (hb : 1 < b) (hle : b ≤ 16) :
    (Nat.toDigits b n).all (isDigit b) = true ∧ ofDigits b (Nat.toDigits b n) = n := by
  induction n using Nat.strongRecOn with
  | ind n ih =>
    rw [Nat.toDigits_eq_if hb]
    split
    · rename_i h
      have hv := digitVal_digitChar (h.trans_le hle)
      constructor
      · simp [isDigit, hv, h]
      · simp [ofDigits, hv]
    · rename_i h
      have hpos : 0 < n := by omega
      obtain ⟨hd, hn⟩ := ih (n / b) (Nat.div_lt_self hpos hb)
      have hlt : n % b < b := Nat.mod_lt _ (by omega)
      have hv := digitVal_digitChar (hlt.trans_le hle)
      constructor
      · rw [List.all_append, hd]
        simp [isDigit, hv, hlt]
      · rw [ofDigits_append_eq, hn]
        simp only [ofDigits, List.length_singleton, pow_one, List.foldl_cons, List.foldl_nil, hv, Option.getD_some,
          Nat.zero_mul, Nat.zero_add]
        rw [Nat.mul_comm]
        exact Nat.div_add_mod n b

/-- An exponent is written with a sign. -/
theorem plus_mem_exponential (w : Nat) : '+' ∈ exponential w := by
  unfold exponential
  simp only
  split <;> simp

/-- What `Number::toString` answers: a word, an exponent's form, or a decimal. -/
theorem numberToString_cases (x : JsNum) :
    (x = .nan ∧ numberToString x = ['N', 'a', 'N']) ∨
      (x = .inf ∧ numberToString x = ['I', 'n', 'f', 'i', 'n', 'i', 't', 'y']) ∨
      ∃ n, x = .fin n ∧ ('+' ∈ numberToString x ∧ 21 < (decimal (shortest n)).length ∨
        numberToString x = decimal (shortest n) ∧ (decimal (shortest n)).length ≤ 21) := by
  cases x with
  | nan => exact .inl ⟨rfl, rfl⟩
  | inf => exact .inr (.inl ⟨rfl, rfl⟩)
  | fin n =>
    refine .inr (.inr ⟨n, rfl, ?_⟩)
    unfold numberToString
    simp only
    split
    · rename_i hle
      exact .inr ⟨rfl, hle⟩
    · rename_i hle
      exact .inl ⟨plus_mem_exponential _, by omega⟩

/-! ## The shortest decimal -/

/-- A decimal that is picked reads back as the double. -/
theorem double_nearDecimal {x k w : Nat} (h : nearDecimal x k = some w) :
    double w = .fin x ∧ (w = x / 10 ^ ((decimal x).length - k) * 10 ^ ((decimal x).length - k) ∨
      w = (x / 10 ^ ((decimal x).length - k) + 1) * 10 ^ ((decimal x).length - k)) := by
  unfold nearDecimal at h
  simp only at h
  split at h
  · rename_i hlo
    split at h
    · rename_i hhi
      cases h
      exact ⟨hhi.1, .inr rfl⟩
    · cases h
      exact ⟨hlo, .inl rfl⟩
  · split at h
    · rename_i hhi
      cases h
      exact ⟨hhi, .inr rfl⟩
    · cases h

/-- A double is written as a decimal that has no more digits than it, or is the power of ten after
it. -/
theorem shortest_le (x : Nat) : shortest x ≤ 10 ^ (decimal x).length := by
  have hx : x < 10 ^ (decimal x).length := (decimal_length_le_iff (decimal_length_pos x)).1 le_rfl
  unfold shortest
  cases hw : (List.range (decimal x).length).findSome? (fun i => nearDecimal x (i + 1)) with
  | none => exact hx.le
  | some w =>
    obtain ⟨i, hi, hwi⟩ := List.exists_of_findSome?_eq_some hw
    rw [List.mem_range] at hi
    obtain ⟨-, hw⟩ := double_nearDecimal hwi
    generalize hp : (decimal x).length - (i + 1) = p at hw
    have hlen : (decimal x).length = (i + 1) + p := by omega
    have hq : x / 10 ^ p < 10 ^ (i + 1) := by
      rw [Nat.div_lt_iff_lt_mul (Nat.pow_pos (by omega)), ← pow_add, ← hlen]
      exact hx
    rw [Option.getD_some, hlen, pow_add]
    rcases hw with rfl | rfl
    · exact Nat.mul_le_mul_right _ (by omega)
    · exact Nat.mul_le_mul_right _ (by omega)

/-- An integer every double below it and above it differs from is written as it is. -/
theorem shortest_of_lt {x : Nat} (h : x < 2 ^ 53) : shortest x = x := by
  unfold shortest
  cases hw : (List.range (decimal x).length).findSome? (fun i => nearDecimal x (i + 1)) with
  | none => rfl
  | some w =>
    obtain ⟨i, -, hwi⟩ := List.exists_of_findSome?_eq_some hw
    obtain ⟨hd, -⟩ := double_nearDecimal hwi
    rw [Option.getD_some]
    by_cases hlt : w < 2 ^ 53
    · rw [double_of_lt hlt, JsNum.fin.injEq] at hd
      exact hd
    · have hge := double_fin_ge (by omega) hd
      omega

/-- A number of `k` bits is written in at most `k` digits. -/
theorem shortest_length_le {v x k : Nat} (hk : 0 < k) (hv : v < 2 ^ k) (hx : double v = .fin x) :
    (decimal (shortest x)).length ≤ k := by
  rw [decimal_length_le_iff hk]
  by_cases hlt : v < 2 ^ 53
  · rw [double_of_lt hlt, JsNum.fin.injEq] at hx
    rw [← hx, shortest_of_lt hlt]
    exact lt_of_lt_of_le hv (Nat.pow_le_pow_left (by omega) _)
  · have hbig : 53 < k := (Nat.pow_lt_pow_iff_right (by omega : 1 < 2)).1 (lt_of_le_of_lt (by omega) hv)
    obtain ⟨j, rfl⟩ : ∃ j, k = j + 1 := ⟨k - 1, by omega⟩
    have hpow : 2 ^ (j + 1) < 10 ^ j :=
      calc 2 ^ (j + 1) ≤ 2 ^ (2 * j) := Nat.pow_le_pow_right (by omega) (by omega)
        _ = (2 ^ 2) ^ j := pow_mul _ _ _
        _ < 10 ^ j := Nat.pow_lt_pow_left (by decide) (by omega)
    have hlen : (decimal x).length ≤ j :=
      (decimal_length_le_iff (by omega)).2 (lt_of_le_of_lt (double_fin_le hv hx) hpow)
    calc shortest x ≤ 10 ^ (decimal x).length := shortest_le x
      _ ≤ 10 ^ j := Nat.pow_le_pow_right (by omega) hlen
      _ < 10 ^ (j + 1) := Nat.pow_lt_pow_right (by omega) (by omega)

/-- An integer that JavaScript writes as it is, though it holds it as a double. -/
def WrittenExactly (v : Nat) : Prop := v < 10 ^ 21 ∧ ∃ x, double v = .fin x ∧ shortest x = v

theorem numberToString_eq_decimal {v : Nat} : numberToString (double v) = decimal v ↔ WrittenExactly v := by
  have hdigits := (decimal_spec v).1
  constructor
  · intro h
    rcases numberToString_cases (double v) with ⟨-, hn⟩ | ⟨-, hn⟩ | ⟨n, hv, ⟨hplus, -⟩ | ⟨hn, hle⟩⟩
    · have hc := hdigits 'N' (by rw [← h, hn]; simp)
      cases hc
    · have hc := hdigits 'I' (by rw [← h, hn]; simp)
      cases hc
    · rw [h] at hplus
      cases hdigits '+' hplus
    · rw [hn] at h
      have heq := decimal_injective h
      rw [heq] at hle
      exact ⟨(decimal_length_le_iff (by omega)).1 hle, n, hv, heq⟩
  · rintro ⟨hlt, x, hx, hs⟩
    rw [hx, numberToString, hs, if_pos ((decimal_length_le_iff (by omega)).2 hlt)]

end TabnasAbnf.Base
