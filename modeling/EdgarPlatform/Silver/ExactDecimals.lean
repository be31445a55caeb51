import EdgarPlatform.Library.PythonDecimal
import Mathlib.Algebra.Order.AbsoluteValue.Basic

/-!
# Decimals that a column holds exactly

A database rounds the decimal places a column has no room for. So a figure is bound only if its last digit that is no zero and its first digit both have a place in the column. Neither test rounds, whatever the length of the coefficient.
-/

namespace EdgarPlatform.Silver

open Decimals (isZero value_rdropZeros)
open Digits (value)
open PythonDecimal (Decimal ofText ofText_text)

/-- How many of the first digits are left without the zeros at their end. -/
def countDigits (digits : List Char) : Nat → Nat
  | 0 => 0
  | n + 1 => if digits[n]? = some '0' then countDigits digits n else n + 1

/-- The figure a value is written as, if a decimal column of a precision and a scale holds it exactly. -/
def processBindParam (precision scale : Int) (value : Option (List Char)) : Except String (Option Decimal) :=
  match value with
  | none => .ok none
  | some text =>
      match ofText text with
      | none => .error "InvalidOperation"
      | some exact =>
          let whole := precision - scale
          let digits := countDigits exact.digits exact.digits.length
          let exponent := if exact.isFinite then exact.exponent + exact.digits.length - digits else 0
          if exact.isFinite = false ∨ (exact.isZero = false ∧ scale < -exponent) ∨ (exact.isZero = false ∧ whole ≤ exact.adjusted) then
            .error s!"A figure does not fit DECIMAL({precision},{scale}) exactly"
          else .ok (some exact)

/-- A column of a precision and a scale has a place for every digit of a figure. -/
def Fits (precision scale : Int) (figure : ℚ) : Prop := (∃ n : ℤ, figure = n * 10 ^ (-scale)) ∧ |figure| < 10 ^ (precision - scale)

theorem countDigits_take (digits : List Char) {n : Nat} (h : n ≤ digits.length) : countDigits digits n = ((digits.take n).rdropWhile isZero).length := by
  induction n with
  | zero => rfl
  | succ n ih =>
      have hn : n < digits.length := h
      have hdigit : digits[n]? = some '0' ↔ digits[n] = '0' := by rw [List.getElem?_eq_getElem hn, Option.some.injEq]
      rw [countDigits, List.take_succ_eq_append_getElem hn]
      split_ifs with hzero
      · have hyes : isZero digits[n] = true := decide_eq_true (hdigit.1 hzero)
        rw [ih hn.le, List.rdropWhile_concat_pos _ _ _ hyes]
      · have hnot : isZero digits[n] ≠ true := fun heq => hzero (hdigit.2 (of_decide_eq_true heq))
        rw [List.rdropWhile_concat_neg _ _ _ hnot, List.length_append, List.length_take_of_le hn.le]
        rfl

variable {coefficient : Nat}

theorem coefficient_eq (hne : coefficient ≠ 0) : ∃ m z : Nat, coefficient = m * 10 ^ z ∧ m % 10 ≠ 0 ∧
    (Nat.toDigits 10 coefficient).length = countDigits (Nat.toDigits 10 coefficient) (Nat.toDigits 10 coefficient).length + z := by
  have hvalue := value_rdropZeros (Nat.toDigits 10 coefficient)
  rw [Decimals.value_toDigits] at hvalue
  have hlength := (List.rdropWhile_prefix isZero (Nat.toDigits 10 coefficient)).length_le
  have hcount := countDigits_take (Nat.toDigits 10 coefficient) le_rfl
  rw [List.take_length] at hcount
  refine ⟨_, _, hvalue, ?_, by omega⟩
  have hkept : (Nat.toDigits 10 coefficient).rdropWhile isZero ≠ [] := by
    intro hnil
    rw [hnil] at hvalue
    exact hne (hvalue.trans (Nat.zero_mul _))
  have hlast : (Nat.toDigits 10 coefficient).rdropWhile isZero = ((Nat.toDigits 10 coefficient).rdropWhile isZero).dropLast ++ [_] :=
    (List.dropLast_append_getLast hkept).symm
  have hdigit : (((Nat.toDigits 10 coefficient).rdropWhile isZero).getLast hkept).isDigit = true :=
    Nat.isDigit_of_mem_toDigits (by decide) (by decide) ((List.rdropWhile_prefix isZero _).subset (List.getLast_mem hkept))
  have hnonzero : ((Nat.toDigits 10 coefficient).rdropWhile isZero).getLast hkept ≠ '0' := fun heq =>
    List.rdropWhile_last_not isZero _ hkept (decide_eq_true heq)
  rw [hlast, Decimals.value_append, List.length_singleton]
  have hless := (Digits.digit_lt hdigit).2
  intro hzero
  have hnone : Digits.digit (((Nat.toDigits 10 coefficient).rdropWhile isZero).getLast hkept) = 0 := by
    simp only [value, List.length_nil, pow_zero, pow_one, Nat.mul_one, Nat.add_zero] at hzero
    omega
  exact hnonzero (Digits.digit_inj hdigit (by decide) hnone)

theorem coefficient_bounds (hne : coefficient ≠ 0) :
    10 ^ ((Nat.toDigits 10 coefficient).length - 1) ≤ coefficient ∧ coefficient < 10 ^ (Nat.toDigits 10 coefficient).length := by
  have hdigits : ∀ c ∈ Nat.toDigits 10 coefficient, c.isDigit = true := fun c hc => Nat.isDigit_of_mem_toDigits (by decide) (by decide) hc
  have hvalue := Decimals.value_toDigits coefficient
  have hupper := Digits.value_lt hdigits
  rw [hvalue] at hupper
  refine ⟨?_, hupper⟩
  obtain hzero | hhead := PythonJson.toDigits_head coefficient
  · rw [hzero] at hvalue
    exact absurd hvalue.symm hne
  · obtain ⟨c, rest, hcons⟩ := List.exists_cons_of_ne_nil (Nat.toDigits_ne_nil (b := 10) (n := coefficient))
    rw [hcons] at hdigits hhead hvalue ⊢
    have hlower : 10 ^ rest.length ≤ value (c :: rest) := Digits.pow_le_value (hdigits c List.mem_cons_self) fun heq => hhead (congrArg some heq)
    rwa [hvalue] at hlower

variable {negative : Bool} {exponent precision scale : Int}

theorem ten_ne_zero : (10 : ℚ) ≠ 0 := by decide

def signOf (negative : Bool) : ℤ := if negative then -1 else 1

theorem rational_finite (negative : Bool) (coefficient : Nat) (exponent : Int) :
    (Decimal.finite negative coefficient exponent).rational = signOf negative * coefficient * 10 ^ exponent := by
  rw [Decimal.rational, signOf]
  cases negative <;> norm_num

theorem units_iff {m z : Nat} (hm : m % 10 ≠ 0) :
    (∃ n : ℤ, (Decimal.finite negative (m * 10 ^ z) exponent).rational = n * 10 ^ (-scale)) ↔ -(exponent + z) ≤ scale := by
  have hfigure : (Decimal.finite negative (m * 10 ^ z) exponent).rational = signOf negative * m * 10 ^ (exponent + z) := by
    rw [rational_finite, zpow_add₀ ten_ne_zero, zpow_natCast]
    push_cast
    ring
  rw [hfigure]
  constructor
  · rintro ⟨n, hn⟩
    by_contra hbehind
    obtain ⟨k, hk⟩ := Int.le.dest (show scale + 1 ≤ -(exponent + z) by omega)
    have hplace : -scale = ((k + 1 : Nat) : Int) + (exponent + z) := by
      push_cast
      omega
    rw [hplace, zpow_add₀ ten_ne_zero ((k + 1 : Nat) : Int), zpow_natCast, ← mul_assoc] at hn
    have hunits := mul_right_cancel₀ (zpow_ne_zero _ ten_ne_zero) hn
    have hint : signOf negative * m = n * 10 ^ k * 10 := by
      rw [mul_assoc, ← pow_succ]
      exact_mod_cast hunits
    rw [signOf] at hint
    split_ifs at hint <;> omega
  · intro hplaces
    obtain ⟨k, hk⟩ := Int.le.dest hplaces
    have hplace : exponent + z = (k : Int) + -scale := by omega
    refine ⟨signOf negative * m * 10 ^ k, ?_⟩
    rw [hplace, zpow_add₀ ten_ne_zero, zpow_natCast]
    push_cast
    ring

theorem abs_lt_iff (hne : coefficient ≠ 0) (whole : Int) :
    |(Decimal.finite negative coefficient exponent).rational| < 10 ^ whole ↔ exponent + (Nat.toDigits 10 coefficient).length - 1 < whole := by
  obtain ⟨hlower, hupper⟩ := coefficient_bounds hne
  have hpos : 0 < (Nat.toDigits 10 coefficient).length := List.length_pos_of_ne_nil Nat.toDigits_ne_nil
  have hmagnitude : |(Decimal.finite negative coefficient exponent).rational| = coefficient * 10 ^ exponent := by
    have hsign : |(signOf negative : ℚ)| = 1 := by
      rw [signOf]
      cases negative <;> norm_num
    rw [rational_finite, abs_mul, abs_mul, hsign, one_mul, Nat.abs_cast, abs_of_pos (zpow_pos (by norm_num) exponent)]
  have hlower' : (10 : ℚ) ^ ((Nat.toDigits 10 coefficient).length - 1) ≤ coefficient := by exact_mod_cast hlower
  have hupper' : (coefficient : ℚ) < 10 ^ (Nat.toDigits 10 coefficient).length := by exact_mod_cast hupper
  have hten : 0 < (10 : ℚ) ^ exponent := zpow_pos (by norm_num) exponent
  rw [hmagnitude]
  constructor
  · intro h
    by_contra hfirst
    have hplace : whole ≤ ((Nat.toDigits 10 coefficient).length - 1 : Nat) + exponent := by omega
    have hle : (10 : ℚ) ^ whole ≤ coefficient * 10 ^ exponent := by
      calc (10 : ℚ) ^ whole ≤ 10 ^ (((Nat.toDigits 10 coefficient).length - 1 : Nat) + exponent) := zpow_le_zpow_right₀ (by norm_num) hplace
        _ = 10 ^ ((Nat.toDigits 10 coefficient).length - 1) * 10 ^ exponent := by rw [zpow_add₀ ten_ne_zero, zpow_natCast]
        _ ≤ coefficient * 10 ^ exponent := mul_le_mul_of_nonneg_right hlower' hten.le
    exact absurd h (not_lt.2 hle)
  · intro hfirst
    have hplace : ((Nat.toDigits 10 coefficient).length : Int) + exponent ≤ whole := by omega
    calc (coefficient : ℚ) * 10 ^ exponent < 10 ^ (Nat.toDigits 10 coefficient).length * 10 ^ exponent := mul_lt_mul_of_pos_right hupper' hten
      _ = 10 ^ (((Nat.toDigits 10 coefficient).length : Int) + exponent) := by rw [zpow_add₀ ten_ne_zero, zpow_natCast]
      _ ≤ 10 ^ whole := zpow_le_zpow_right₀ (by norm_num) hplace

theorem fits_iff (negative : Bool) (coefficient : Nat) (exponent precision scale : Int) :
    Fits precision scale (Decimal.finite negative coefficient exponent).rational ↔
      coefficient = 0 ∨ (-(exponent + (Nat.toDigits 10 coefficient).length - countDigits (Nat.toDigits 10 coefficient) (Nat.toDigits 10 coefficient).length) ≤ scale ∧
        exponent + (Nat.toDigits 10 coefficient).length - 1 < precision - scale) := by
  by_cases hne : coefficient = 0
  · rw [hne]
    refine iff_of_true ⟨⟨0, ?_⟩, ?_⟩ (.inl rfl)
    · rw [rational_finite]
      norm_num
    · rw [rational_finite]
      norm_num
      exact zpow_pos (by norm_num) _
  · obtain ⟨m, z, hcoefficient, hm, hlength⟩ := coefficient_eq hne
    rw [Fits, abs_lt_iff hne, or_iff_right hne]
    refine and_congr_left' ?_
    conv_lhs => rw [hcoefficient]
    rw [units_iff hm]
    constructor <;> intro h <;> omega

/-- A decimal column binds a finite decimal just where it holds it exactly, and what it binds is the decimal. -/
theorem processBindParam_exact (negative : Bool) (coefficient : Nat) (exponent precision scale : Int) (bound : Option Decimal) :
    processBindParam precision scale (some (Decimal.finite negative coefficient exponent).text) = .ok bound ↔
      Fits precision scale (Decimal.finite negative coefficient exponent).rational ∧ bound = some (.finite negative coefficient exponent) := by
  have hzero : (Decimal.finite negative coefficient exponent).isZero = false ↔ coefficient ≠ 0 := decide_eq_false_iff_not
  rw [fits_iff, processBindParam, ofText_text]
  simp only [Decimal.isFinite, hzero, if_true, Bool.true_eq_false, false_or]
  rw [Except.ite_error_eq_ok, Except.ok.injEq, eq_comm]
  refine and_congr_left' ?_
  show ¬(coefficient ≠ 0 ∧ scale < -(exponent + (Nat.toDigits 10 coefficient).length -
    countDigits (Nat.toDigits 10 coefficient) (Nat.toDigits 10 coefficient).length) ∨
    coefficient ≠ 0 ∧ precision - scale ≤ exponent + (Nat.toDigits 10 coefficient).length - 1) ↔ _
  rw [← and_or_left, not_and_or, not_ne_iff, not_or, not_lt, not_le]

example : processBindParam 5 2 (some "-123.4500".toList) = .ok (some (.finite true 1234500 (-4))) := by decide

example : processBindParam 5 2 (some "1e3".toList) = .error "A figure does not fit DECIMAL(5,2) exactly" := by decide

end EdgarPlatform.Silver
