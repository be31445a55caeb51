import EdgarPlatform.Library.Decimals
import Mathlib.Data.List.DropRight

/-!
# Normal forms of decimal numbers

Every rational that is written in decimal is a sign, digits without zeros at either end and the power of ten they count, in one way. The same rational may instead be written out with a whole part that does not begin with a zero it could do without and any number of digits after the point.
-/

namespace Decimals

open Digits (value digit)
open JsonText (isDigits isWhole isFraction isExponent isUnsigned isNumber)

theorem takeWhile_digits {s rest : List Char} (h : ∀ c ∈ s, c.isDigit = true) (hrest : ∀ c tail, rest = c :: tail → c.isDigit = false) :
    (s ++ rest).takeWhile Char.isDigit = s ∧ (s ++ rest).dropWhile Char.isDigit = rest := by
  rw [List.takeWhile_append_of_pos h, List.dropWhile_append_of_pos h]
  cases rest with
  | nil => exact ⟨List.append_nil s, rfl⟩
  | cons c tail =>
      have hc := hrest c tail rfl
      rw [List.takeWhile_cons_of_neg (by rw [hc]; decide), List.dropWhile_cons_of_neg (by rw [hc]; decide)]
      exact ⟨List.append_nil s, rfl⟩

theorem isUnsigned_unsignedText {p : Parts} (hwhole : ∀ c ∈ p.whole, c.isDigit = true) (hisWhole : isWhole p.whole = true)
    (hfraction : ∀ c ∈ p.fraction, c.isDigit = true) (hexponent : ∀ e, p.exponent = some e → isExponent ('e' :: e) = true) :
    isUnsigned p.unsignedText = true := by
  have hmarked : isExponent (p.exponent.elim [] fun e => 'e' :: e) = true := by
    cases hp : p.exponent with
    | none => rfl
    | some e => exact hexponent e hp
  have hmark : ∀ c tail, (p.exponent.elim [] fun e => 'e' :: e) = c :: tail → c.isDigit = false := by
    intro c tail h
    cases hp : p.exponent with
    | none =>
        rw [hp] at h
        cases h
    | some e =>
        rw [hp] at h
        cases h
        decide
  by_cases hnil : p.fraction = []
  · obtain ⟨htake, hdrop⟩ := takeWhile_digits hwhole hmark
    rw [Parts.unsignedText, if_pos hnil, List.nil_append, isUnsigned, htake, hdrop, hisWhole, Bool.true_and]
    cases hp : p.exponent with
    | none => rfl
    | some e =>
        rw [hp] at hmarked
        exact hmarked
  · have hpoint : ∀ c tail, '.' :: (p.fraction ++ p.exponent.elim [] fun e => 'e' :: e) = c :: tail → c.isDigit = false :=
      fun c tail h => by cases h; decide
    obtain ⟨htake, hdrop⟩ := takeWhile_digits hwhole hpoint
    obtain ⟨htake', hdrop'⟩ := takeWhile_digits hfraction hmark
    rw [Parts.unsignedText, if_neg hnil, List.cons_append, isUnsigned, htake, hdrop, hisWhole, Bool.true_and, isFraction,
      if_pos rfl, htake', hdrop', hmarked, Bool.and_true]
    exact decide_eq_true hnil

theorem isNumber_spell {p : Parts} (hwhole : ∀ c ∈ p.whole, c.isDigit = true) (hisWhole : isWhole p.whole = true)
    (hfraction : ∀ c ∈ p.fraction, c.isDigit = true) (hexponent : ∀ e, p.exponent = some e → isExponent ('e' :: e) = true) :
    isNumber p.spell = true := by
  have hunsigned := isUnsigned_unsignedText hwhole hisWhole hfraction hexponent
  have hspell : p.spell = (if p.negative then ['-'] else []) ++ p.unsignedText := rfl
  cases hnegative : p.negative with
  | true =>
      rw [hspell, hnegative, if_pos rfl, List.singleton_append, isNumber, if_pos rfl]
      exact hunsigned
  | false =>
      have hne : p.whole ≠ [] := by
        intro hnil
        rw [hnil] at hisWhole
        cases hisWhole
      obtain ⟨c, rest, hcons⟩ := List.exists_cons_of_ne_nil hne
      have htext : p.unsignedText = c :: (rest ++ ((if p.fraction = [] then [] else '.' :: p.fraction) ++
          p.exponent.elim [] fun e => 'e' :: e)) := by
        rw [Parts.unsignedText, hcons, List.cons_append]
      rw [hspell, hnegative, if_neg Bool.false_ne_true, List.nil_append, htext, isNumber,
        if_neg (not_mark_of_isDigit (hwhole c (by rw [hcons]; exact List.mem_cons_self ..))).2.2, ← htext]
      exact hunsigned

theorem isDigits_toDigits (n : Nat) : isDigits (Nat.toDigits 10 n) = true := by
  rw [isDigits, Bool.and_eq_true]
  refine ⟨decide_eq_true Nat.toDigits_ne_nil, List.all_eq_true.2 fun c hc => ?_⟩
  exact Nat.isDigit_of_mem_toDigits (by decide) (by decide) hc

/-- The text of an integer is an exponent, and is read as that integer. -/
theorem exponent_intText (n : Int) :
    isExponent ('e' :: PythonJson.intText n) = true ∧ readExponent (PythonJson.intText n) = some n := by
  rw [PythonJson.intText]
  have hdigits := isDigits_toDigits n.natAbs
  split_ifs with hnegative
  · refine ⟨?_, ?_⟩
    · simp only [isExponent, hdigits]
      rfl
    · rw [readExponent, if_pos hdigits, value_toDigits]
      exact congrArg some (by omega)
  · have hvalue : ((value (Nat.toDigits 10 n.natAbs) : Nat) : Int) = n := by
      rw [value_toDigits]
      omega
    cases hcase : Nat.toDigits 10 n.natAbs with
    | nil => exact absurd hcase Nat.toDigits_ne_nil
    | cons c rest =>
        have hc : c.isDigit = true := Nat.isDigit_of_mem_toDigits (by decide) (by decide) (hcase ▸ List.mem_cons_self ..)
        have hsign : c ≠ '-' ∧ c ≠ '+' := by
          refine ⟨fun heq => ?_, fun heq => ?_⟩ <;> (rw [heq] at hc; cases hc)
        rw [hcase] at hdigits hvalue
        refine ⟨?_, ?_⟩
        · simp only [isExponent, hsign.1, hsign.2, hdigits]
          rfl
        · rw [readExponent, if_pos hdigits, hvalue]
          · exact fun digits heq => hsign.1 (List.head_eq_of_cons_eq heq)
          · exact fun digits heq => hsign.2 (List.head_eq_of_cons_eq heq)

def isZero (c : Char) : Bool := c = '0'

theorem value_replicate_zero (k : Nat) : value (List.replicate k '0') = 0 := by
  induction k with
  | zero => rfl
  | succ k ih =>
      rw [List.replicate_succ, value, ih]
      simp [digit]

theorem value_zeros {s : List Char} (h : ∀ c ∈ s, isZero c = true) : value s = 0 := by
  rw [List.eq_replicate_of_mem fun c hc => of_decide_eq_true (h c hc), value_replicate_zero]

theorem value_dropZeros (s : List Char) : value (s.dropWhile isZero) = value s := by
  induction s with
  | nil => rfl
  | cons c rest ih =>
      by_cases hc : isZero c = true
      · rw [List.dropWhile_cons_of_pos hc, ih, value, of_decide_eq_true hc]
        simp [digit]
      · rw [List.dropWhile_cons_of_neg hc]

theorem rdropWhile_append_rtakeWhile (p : Char → Bool) (s : List Char) : s.rdropWhile p ++ s.rtakeWhile p = s := by
  rw [List.rdropWhile, List.rtakeWhile, ← List.reverse_append, List.takeWhile_append_dropWhile, List.reverse_reverse]

theorem value_rdropZeros (s : List Char) :
    value s = value (s.rdropWhile isZero) * 10 ^ (s.length - (s.rdropWhile isZero).length) := by
  have hsplit := rdropWhile_append_rtakeWhile isZero s
  have hlength : s.length - (s.rdropWhile isZero).length = (s.rtakeWhile isZero).length := by
    have hlengths := congrArg List.length hsplit
    rw [List.length_append] at hlengths
    omega
  conv_lhs => rw [← hsplit]
  rw [value_append, hlength, value_zeros fun c hc => List.mem_rtakeWhile_imp hc, Nat.add_zero]

/-- A number that is not zero, by its sign, its digits without zeros at either end and the power of ten they count. -/
structure Numeral where
  negative : Bool
  digits : List Char
  power : Int
  digit : ∀ c ∈ digits, c.isDigit = true
  first : ∃ c rest, digits = c :: rest ∧ c ≠ '0'
  last : ∃ front c, digits = front ++ [c] ∧ c ≠ '0'

namespace Numeral

def rational (n : Numeral) : ℚ := (if n.negative then -1 else 1) * (value n.digits : ℚ) * 10 ^ n.power

def parts (n : Numeral) : Parts where
  negative := n.negative
  whole := n.digits
  fraction := []
  exponent := if n.power = 0 then none else some (PythonJson.intText n.power)

theorem isWhole_digits (n : Numeral) : isWhole n.digits = true := by
  obtain ⟨c, rest, hdigits, hc⟩ := n.first
  simp [isWhole, hdigits, hc]

theorem value_pos (n : Numeral) : 0 < value n.digits := by
  obtain ⟨c, rest, hdigits, hc⟩ := n.first
  have hle : 10 ^ rest.length ≤ value (c :: rest) := Digits.pow_le_value (n.digit c (hdigits ▸ List.mem_cons_self ..)) hc
  rw [hdigits]
  exact lt_of_lt_of_le (Nat.pow_pos (by decide)) hle

theorem value_mod (n : Numeral) : value n.digits % 10 ≠ 0 := by
  obtain ⟨front, c, hdigits, hc⟩ := n.last
  have hdigit : c.isDigit = true := n.digit c (by rw [hdigits]; simp)
  have hvalue : value n.digits = 10 * value front + Digits.digit c := by
    rw [hdigits, value_append]
    simp [value, Nat.mul_comm]
  have hlt := (Digits.digit_lt hdigit).2
  intro hzero
  have hnone : Digits.digit c = 0 := by omega
  exact hc (Digits.digit_inj hdigit (by decide) hnone)

theorem power_le {n m : Numeral} (h : (value n.digits : ℚ) * 10 ^ n.power = value m.digits * 10 ^ m.power) : m.power ≤ n.power := by
  by_contra hlt
  obtain ⟨k, hk⟩ := Int.le.dest (show n.power + 1 ≤ m.power by omega)
  have hpower : m.power = n.power + ((k + 1 : Nat) : Int) := by
    push_cast
    omega
  have hten : (10 : ℚ) ≠ 0 := by decide
  rw [hpower, zpow_add₀ hten, zpow_natCast, mul_comm ((10 : ℚ) ^ n.power), ← mul_assoc] at h
  have hvalues := mul_right_cancel₀ (zpow_ne_zero n.power hten) h
  have hnat : value n.digits = value m.digits * 10 ^ (k + 1) := by exact_mod_cast hvalues
  refine n.value_mod ?_
  rw [hnat, Nat.pow_succ, ← Nat.mul_assoc]
  exact Nat.mul_mod_left _ 10

/-- A rational has one normal form. -/
theorem rational_inj {n m : Numeral} (h : n.rational = m.rational) :
    n.negative = m.negative ∧ n.digits = m.digits ∧ n.power = m.power := by
  have hpos : ∀ n : Numeral, 0 < (value n.digits : ℚ) * 10 ^ n.power := fun n =>
    mul_pos (by exact_mod_cast n.value_pos) (zpow_pos (by decide) n.power)
  have hn := hpos n
  have hm := hpos m
  have hsign : n.negative = m.negative := by
    rw [rational, rational, mul_assoc, mul_assoc] at h
    cases hnegative : n.negative <;> cases hnegative' : m.negative <;> rw [hnegative, hnegative'] at h
    · simp only [if_true, if_false, Bool.false_eq_true] at h
      linarith
    · simp only [if_true, if_false, Bool.false_eq_true] at h
      linarith
  have hmagnitude : (value n.digits : ℚ) * 10 ^ n.power = value m.digits * 10 ^ m.power := by
    rw [rational, rational, hsign, mul_assoc, mul_assoc] at h
    refine mul_left_cancel₀ ?_ h
    split_ifs <;> decide
  have hpower : n.power = m.power := le_antisymm (power_le hmagnitude.symm) (power_le hmagnitude)
  rw [hpower] at hmagnitude
  have hvalue : value n.digits = value m.digits := by
    exact_mod_cast mul_right_cancel₀ (zpow_ne_zero m.power (by decide : (10 : ℚ) ≠ 0)) hmagnitude
  exact ⟨hsign, value_inj n.digit n.isWhole_digits m.digit m.isWhole_digits hvalue, hpower⟩

theorem exponent_parts (n : Numeral) : ∀ e, n.parts.exponent = some e → isExponent ('e' :: e) = true ∧ readExponent e = some n.power := by
  intro e he
  rw [parts] at he
  split_ifs at he with hzero
  cases he
  exact exponent_intText n.power

theorem isNumber_text (n : Numeral) : isNumber n.parts.spell = true :=
  isNumber_spell n.digit n.isWhole_digits (fun _ hc => absurd hc List.not_mem_nil) fun e he => (n.exponent_parts e he).1

theorem split_text (n : Numeral) : split n.parts.spell = n.parts := by
  obtain ⟨c, rest, hdigits, _⟩ := n.first
  exact split_spell n.digit (by rw [parts, hdigits]; exact List.cons_ne_nil _ _) fun _ hc => absurd hc List.not_mem_nil

theorem spell_parts (n : Numeral) :
    n.parts.spell = (if n.negative then ['-'] else []) ++
      if n.power = 0 then n.digits else n.digits ++ 'e' :: PythonJson.intText n.power := by
  rw [Parts.spell, parts]
  split_ifs with hnegative hpower <;> simp_all

theorem power_parts (n : Numeral) : n.parts.power = n.power := by
  rw [Parts.power]
  cases he : n.parts.exponent with
  | none =>
      rw [parts] at he
      split_ifs at he with hzero
      exact hzero.symm
  | some e => rw [Option.bind_some, (n.exponent_parts e he).2, Option.getD_some]

theorem rational_text (n : Numeral) : Decimals.rational n.parts.spell = n.rational := by
  have hdigits : n.parts.digits = n.digits := List.append_nil n.digits
  have hfraction : n.parts.fraction.length = 0 := rfl
  rw [Decimals.rational, split_text, Parts.rational, power_parts, hdigits, hfraction, rational]
  simp only [Nat.cast_zero, sub_zero]
  rfl

end Numeral

end Decimals
