import EdgarPlatform.Library.Decimals

/-!
# Integers as JSON writes them

The text of a number that has neither a point nor an exponent is digits without a leading zero, after a sign or not.
-/

namespace Decimals

open Digits (value IsInteger)
open JsonText (isWhole isFraction isExponent isUnsigned isNumber)
open PythonJson (isReal)

/-- The digits of an integer. -/
structure Written (s : List Char) : Prop where
  digits : ∀ c ∈ s, c.isDigit = true
  whole : isWhole s = true

variable {s : List Char}

theorem Written.ne_nil (h : Written s) : s ≠ [] := by
  rintro rfl
  exact absurd h.whole (by decide)

theorem Written.isInteger (h : Written s) : IsInteger (String.ofList s) := by
  rw [IsInteger, String.toList_ofList]
  exact ⟨h.digits, h.whole⟩

theorem written_of_isUnsigned (h : isUnsigned s = true) (hreal : isReal s = false) : Written s := by
  rw [isUnsigned, Bool.and_eq_true] at h
  have hnone : s.dropWhile Char.isDigit = [] := by
    cases hrest : s.dropWhile Char.isDigit with
    | nil => rfl
    | cons mark rest =>
        have hmark : mark ∈ s := List.dropWhile_subset _ (hrest ▸ List.mem_cons_self)
        have hplain := List.any_eq_false.1 hreal mark hmark
        have hfraction := h.2
        rw [hrest, isFraction] at hfraction
        simp only [Bool.or_eq_true, decide_eq_true_eq, not_or] at hplain
        rw [if_neg (by simpa using hplain.1.1)] at hfraction
        unfold isExponent at hfraction
        simp [hplain.1.2, hplain.2] at hfraction
  have hall : s.takeWhile Char.isDigit = s := by
    have := List.takeWhile_append_dropWhile (p := Char.isDigit) (l := s)
    rwa [hnone, List.append_nil] at this
  rw [hall] at h
  exact ⟨List.takeWhile_eq_self_iff.1 hall, h.1⟩

theorem written_of_isNumber (h : isNumber s = true) (hreal : isReal s = false) :
    (∃ digits, Written digits ∧ s = '-' :: digits ∧ integer s = -(value digits : Int)) ∨
      Written s ∧ s.head? ≠ some '-' ∧ integer s = value s := by
  cases s with
  | nil => exact absurd h Bool.false_ne_true
  | cons sign rest =>
      rw [isNumber] at h
      by_cases hsign : sign = '-'
      · rw [if_pos hsign] at h
        rw [isReal, List.any_cons, Bool.or_eq_false_iff] at hreal
        refine .inl ⟨rest, written_of_isUnsigned h hreal.2, by rw [hsign], ?_⟩
        rw [integer, List.head?_cons, hsign, if_pos rfl, List.tail_cons]
      · rw [if_neg hsign] at h
        have hhead : (sign :: rest).head? ≠ some '-' := fun heq => hsign (Option.some.inj heq)
        exact .inr ⟨written_of_isUnsigned h hreal, hhead, if_neg hhead⟩

end Decimals
