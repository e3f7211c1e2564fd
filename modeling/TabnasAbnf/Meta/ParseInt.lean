/-
`parse_int` of the Rust port: JavaScript's `parseInt`, rebuilt on digit strings of any length. A run
of digits a `u128` holds is cast once; a wider one goes through its decimal digits, and one past a
double's exponents is not read at all.
-/
import Mathlib.Data.Nat.Digits.Defs
import TabnasAbnf.Base.Number

namespace TabnasAbnf.Meta.Rust

open TabnasAbnf.Base

/-- `to_digit`, of a character that is a digit. -/
def to_digit (c : Char) : Nat := (digitVal c).getD 0

/-- The integer digits name after `exact`, where `checked_mul` and `checked_add` stay in a `u128`. -/
def checkedDigits (radix : Nat) : Nat → Text → Option Nat
  | exact, [] => some exact
  | exact, c :: cs =>
    if exact * radix < 2 ^ 128 ∧ exact * radix + to_digit c < 2 ^ 128 then
      checkedDigits radix (exact * radix + to_digit c) cs
    else none

/-- One digit more on a number's decimal digits, the lowest first: each slot times the radix and the
carry, then the digits of the carry that is left. -/
def pushDigit (radix : Nat) : Nat → List Nat → List Nat
  | carry, [] => Nat.digits 10 carry
  | carry, slot :: decimal =>
    (slot * radix + carry) % 10 :: pushDigit radix ((slot * radix + carry) / 10) decimal

/-- The decimal digits of the integer that digits name, the lowest first. -/
def decimalDigits (radix : Nat) (digits : Text) : List Nat :=
  digits.foldl (fun decimal c => pushDigit radix (to_digit c) decimal) [0]

/-- `char::from(b'0' + digit)`. -/
def decimalChar (digit : Nat) : Char := Char.ofNat ('0'.toNat + digit)

/-- `parse::<f64>` of decimal digits, which rounds once. -/
def parseF64 (digits : Text) : JsNum := double (ofDigits 10 digits)

/-- `log2` of the radix is exact: 10 aside, it is 2 or 16. -/
def parse_int_wide (digits : Text) (radix : Nat) : JsNum :=
  if radix = 10 then parseF64 digits
  else if 1100 < (digits.dropWhile (· = '0')).length * Nat.log2 radix then .inf
  else parseF64 ((decimalDigits radix digits).reverse.map decimalChar)

def parse_int (text : Text) (radix : Nat) : JsNum :=
  match text.takeWhile (isDigit radix) with
  | [] => .nan
  | d :: ds =>
    match checkedDigits radix 0 (d :: ds) with
    | some exact => double exact
    | none => parse_int_wide (d :: ds) radix

/-! ## The two paths -/

/-- Where the exact path ends, it has the integer. -/
theorem checkedDigits_eq {radix : Nat} {digits : Text} {exact n : Nat}
    (h : checkedDigits radix exact digits = some n) :
    digits.foldl (fun n c => n * radix + (digitVal c).getD 0) exact = n := by
  induction digits generalizing exact with
  | nil => exact Option.some.inj h
  | cons c cs ih =>
    rw [checkedDigits] at h
    split at h
    · exact ih h
    · cases h

/-- A digit more multiplies the number by the radix and adds the digit. -/
theorem ofDigits_pushDigit (radix carry : Nat) (decimal : List Nat) :
    Nat.ofDigits 10 (pushDigit radix carry decimal) = Nat.ofDigits 10 decimal * radix + carry := by
  induction decimal generalizing carry with
  | nil => rw [pushDigit, Nat.ofDigits_digits, Nat.ofDigits_nil, Nat.zero_mul, Nat.zero_add]
  | cons slot decimal ih =>
    rw [pushDigit, Nat.ofDigits_cons, Nat.ofDigits_cons, ih]
    have hdiv := Nat.div_add_mod (slot * radix + carry) 10
    generalize Nat.ofDigits 10 decimal = n
    generalize (slot * radix + carry) / 10 = q at hdiv ⊢
    generalize (slot * radix + carry) % 10 = r at hdiv ⊢
    calc r + 10 * (n * radix + q) = (10 * q + r) + 10 * (n * radix) := by ring
      _ = (slot * radix + carry) + 10 * (n * radix) := by rw [hdiv]
      _ = (slot + 10 * n) * radix + carry := by ring

theorem pushDigit_lt {radix carry : Nat} {decimal : List Nat} : ∀ d ∈ pushDigit radix carry decimal, d < 10 := by
  induction decimal generalizing carry with
  | nil => exact fun d hd => Nat.digits_lt_base (by omega) hd
  | cons slot decimal ih =>
    intro d hd
    rcases List.mem_cons.1 hd with rfl | hd
    · exact Nat.mod_lt _ (by omega)
    · exact ih d hd

/-- The decimal digits name the integer the source's digits do, and each is a digit. -/
theorem decimalDigits_spec (radix : Nat) (digits : Text) :
    Nat.ofDigits 10 (decimalDigits radix digits) = ofDigits radix digits ∧
      ∀ d ∈ decimalDigits radix digits, d < 10 := by
  unfold decimalDigits ofDigits
  have hrun : ∀ (decimal : List Nat) (n : Nat), Nat.ofDigits 10 decimal = n → (∀ d ∈ decimal, d < 10) →
      Nat.ofDigits 10 (digits.foldl (fun decimal c => pushDigit radix (to_digit c) decimal) decimal) =
          digits.foldl (fun n c => n * radix + (digitVal c).getD 0) n ∧
        ∀ d ∈ digits.foldl (fun decimal c => pushDigit radix (to_digit c) decimal) decimal, d < 10 := by
    induction digits with
    | nil => exact fun _ _ h hlt => ⟨h, hlt⟩
    | cons c cs ih =>
      intro decimal n h _
      refine ih _ _ ?_ pushDigit_lt
      rw [ofDigits_pushDigit, h]
      rfl
  exact hrun [0] 0 rfl (by simp)

theorem digitVal_decimalChar {d : Nat} (h : d < 10) : digitVal (decimalChar d) = some d := by
  have hall : ∀ d : Fin 10, digitVal (decimalChar d) = some d.1 := by decide
  exact hall ⟨d, h⟩

/-- Digits written highest first read back as the number they are. -/
theorem ofDigits_decimalChar {decimal : List Nat} (h : ∀ d ∈ decimal, d < 10) :
    ofDigits 10 (decimal.reverse.map decimalChar) = Nat.ofDigits 10 decimal := by
  induction decimal with
  | nil => rfl
  | cons d decimal ih =>
    rw [List.reverse_cons, List.map_append, ofDigits_append_eq, ih fun d hd => h d (List.mem_cons_of_mem _ hd),
      Nat.ofDigits_cons]
    have hd := digitVal_decimalChar (h d List.mem_cons_self)
    simp only [List.map_cons, List.map_nil, List.length_singleton, pow_one, ofDigits, List.foldl_cons,
      List.foldl_nil, hd,
      Option.getD_some, Nat.zero_mul, Nat.zero_add]
    omega

/-! ## The cut-off -/

/-- Digits whose first is not zero name at least the radix to one less than their number. -/
theorem pow_le_ofDigits {radix : Nat} {d : Char} {ds : Text} (h : 1 ≤ to_digit d) :
    radix ^ ds.length ≤ ofDigits radix (d :: ds) := by
  have hcons := ofDigits_append_eq radix [d] ds
  rw [List.singleton_append] at hcons
  rw [hcons, show ofDigits radix [d] = to_digit d by simp [ofDigits, to_digit]]
  calc radix ^ ds.length = 1 * radix ^ ds.length := (Nat.one_mul _).symm
    _ ≤ to_digit d * radix ^ ds.length := Nat.mul_le_mul_right _ h
    _ ≤ _ := Nat.le_add_right _ _

theorem ofDigits_dropWhile_zero (radix : Nat) (ds : Text) :
    ofDigits radix (ds.dropWhile (· = '0')) = ofDigits radix ds := by
  induction ds with
  | nil => rfl
  | cons d ds ih =>
    by_cases h : d = '0'
    · subst h
      rw [List.dropWhile_cons_of_pos (by decide), ih]
      have hcons := ofDigits_append_eq radix ['0'] ds
      rw [List.singleton_append, show ofDigits radix ['0'] = 0 by simp [ofDigits, digitVal]] at hcons
      rw [hcons, Nat.zero_mul, Nat.zero_add]
    · rw [List.dropWhile_cons_of_neg (by simpa using h)]

/-- A digit that is not `0` is worth at least one. -/
theorem one_le_to_digit {radix : Nat} {c : Char} (hd : isDigit radix c = true) (h0 : c ≠ '0') : 1 ≤ to_digit c := by
  by_contra hlt
  have hzero : digitVal c = some 0 := by
    unfold isDigit at hd
    unfold to_digit at hlt
    cases hv : digitVal c with
    | none => simp [hv] at hd
    | some v =>
      rw [hv] at hlt
      simp only [Option.getD_some] at hlt
      rw [show v = 0 by omega]
  refine h0 (Char.toNat_inj.1 ?_)
  unfold digitVal at hzero
  split at hzero
  · rename_i hc
    simp only [Char.le_def, Option.some.injEq] at hc hzero
    have h48 : '0'.toNat ≤ c.toNat := hc.1
    omega
  · split at hzero
    · simp at hzero
    · split at hzero
      · simp at hzero
      · cases hzero

/-- Where the cut-off stops, the number is past every double. -/
theorem double_of_wide {radix : Nat} (hr : radix = 2 ∨ radix = 16) {digits : Text}
    (hd : ∀ c ∈ digits, isDigit radix c = true)
    (h : 1100 < (digits.dropWhile (· = '0')).length * Nat.log2 radix) : double (ofDigits radix digits) = .inf := by
  rw [← ofDigits_dropWhile_zero]
  cases hs : digits.dropWhile (· = '0') with
  | nil => simp [hs] at h
  | cons d ds =>
    rw [hs, List.length_cons] at h
    have hmem : d ∈ digits := (List.dropWhile_sublist _).subset (hs ▸ List.mem_cons_self)
    have hfirst := List.head?_dropWhile_not (· = '0') digits
    rw [hs] at hfirst
    have hone := one_le_to_digit (hd d hmem) (by simpa using hfirst)
    have hpow : radix ^ ds.length ≤ ofDigits radix (d :: ds) := pow_le_ofDigits hone
    rcases hr with rfl | rfl
    · rw [show Nat.log2 2 = 1 by decide] at h
      exact double_of_ge (by omega) hpow
    · rw [show Nat.log2 16 = 4 by decide] at h
      rw [show 16 = 2 ^ 4 by decide, ← pow_mul] at hpow
      exact double_of_ge (by omega) hpow

/-- `parse_int` is JavaScript's `parseInt` in the three bases. -/
theorem parse_int_eq {radix : Nat} (hr : radix = 2 ∨ radix = 10 ∨ radix = 16) (text : Text) :
    parse_int text radix = parseInt text radix := by
  unfold parse_int parseInt
  have hd : ∀ c ∈ text.takeWhile (isDigit radix), isDigit radix c = true := fun c hc => List.mem_takeWhile_imp hc
  cases htake : text.takeWhile (isDigit radix) with
  | nil => rfl
  | cons d ds =>
    rw [htake] at hd
    simp only
    cases hexact : checkedDigits radix 0 (d :: ds) with
    | some n => rw [show ofDigits radix (d :: ds) = n from checkedDigits_eq hexact]
    | none =>
      simp only [parse_int_wide]
      by_cases h10 : radix = 10
      · rw [if_pos h10, parseF64, h10]
      · rw [if_neg h10]
        split
        · rename_i hwide
          exact (double_of_wide (by omega) hd hwide).symm
        · obtain ⟨hvalue, hlt⟩ := decimalDigits_spec radix (d :: ds)
          rw [parseF64, ofDigits_decimalChar hlt, hvalue]

end TabnasAbnf.Meta.Rust
