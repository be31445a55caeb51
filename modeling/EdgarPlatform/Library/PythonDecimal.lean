import EdgarPlatform.Library.Numerals

/-!
# Python's decimals

A finite decimal is a sign, an integer coefficient of any size and the power of ten it counts. It is written with all digits of its coefficient, by a power only where its point is far from them, and reads back as itself.
-/

namespace PythonDecimal

open Decimals (splitOnce splitOnce_none splitOnce_some isExponentMark isPoint isZero readExponent)
open Digits (value)

inductive Decimal where
  | finite (negative : Bool) (coefficient : Nat) (exponent : Int)
  | infinite (negative : Bool)
  | nan (negative signaling : Bool) (payload : List Char)
  deriving DecidableEq

namespace Decimal

def isFinite : Decimal → Bool
  | .finite .. => true
  | _ => false

def digits : Decimal → List Char
  | .finite _ coefficient _ => Nat.toDigits 10 coefficient
  | .infinite _ => ['0']
  | .nan _ _ payload => payload

def exponent : Decimal → Int
  | .finite _ _ exponent => exponent
  | _ => 0

def isZero : Decimal → Bool
  | .finite _ coefficient _ => coefficient = 0
  | _ => false

def adjusted : Decimal → Int
  | .finite _ coefficient exponent => exponent + (Nat.toDigits 10 coefficient).length - 1
  | _ => 0

def rational : Decimal → ℚ
  | .finite negative coefficient exponent => (if negative then -1 else 1) * (coefficient : ℚ) * 10 ^ exponent
  | _ => 0

end Decimal

def signText (negative : Bool) : List Char := if negative then ['-'] else []

def signedText (n : Int) : List Char := (if n < 0 then '-' else '+') :: Nat.toDigits 10 n.natAbs

/-- How many digits stand before the point. None are, and zeros after it, where this is not positive. -/
def dotPlace (digits : List Char) (exponent : Int) : Int :=
  if exponent ≤ 0 ∧ -6 < exponent + digits.length then exponent + digits.length else 1

def placed (digits : List Char) (dot : Int) : List Char × List Char :=
  if dot ≤ 0 then (['0'], List.replicate (-dot).toNat '0' ++ digits)
  else if digits.length ≤ dot then (digits ++ List.replicate (dot - digits.length).toNat '0', [])
  else (digits.take dot.toNat, digits.drop dot.toNat)

def finiteText (digits : List Char) (exponent : Int) : List Char :=
  let dot := dotPlace digits exponent
  let parts := placed digits dot
  parts.1 ++ (if parts.2 = [] then [] else '.' :: parts.2) ++ (if exponent + digits.length = dot then [] else 'E' :: signedText (exponent + digits.length - dot))

def Decimal.text : Decimal → List Char
  | .finite negative coefficient exponent => signText negative ++ finiteText (Nat.toDigits 10 coefficient) exponent
  | .infinite negative => signText negative ++ "Infinity".toList
  | .nan negative signaling payload => signText negative ++ (if signaling then "sNaN".toList else "NaN".toList) ++ payload

def named (negative : Bool) (body : List Char) : Option Decimal :=
  if body = "inf".toList ∨ body = "infinity".toList then some (.infinite negative)
  else if "nan".toList.isPrefixOf body ∧ (body.drop 3).all Char.isDigit = true then some (.nan negative false ((body.drop 3).dropWhile isZero))
  else if "snan".toList.isPrefixOf body ∧ (body.drop 4).all Char.isDigit = true then some (.nan negative true ((body.drop 4).dropWhile isZero))
  else none

/-- A decimal as its text is read: digits around a point and an exponent, after a sign or not. Nothing is rounded. -/
def ofText (s : List Char) : Option Decimal :=
  let negative : Bool := s.head? = some '-'
  let body := if s.head? = some '-' ∨ s.head? = some '+' then s.tail else s
  let mantissa := splitOnce isPoint (splitOnce isExponentMark body).1
  let digits := mantissa.1 ++ mantissa.2.getD []
  if digits ≠ [] ∧ digits.all Char.isDigit = true then
    ((splitOnce isExponentMark body).2.elim (some 0) readExponent).map fun power => .finite negative (value digits) (power - (mantissa.2.getD []).length)
  else named negative (body.map Char.toLower)

variable {digits : List Char}

theorem readExponent_signedText (n : Int) : readExponent (signedText n) = some n := by
  have hdigits := Decimals.isDigits_toDigits n.natAbs
  rw [signedText]
  split_ifs with hnegative
  · rw [readExponent, if_pos hdigits, Decimals.value_toDigits]
    exact congrArg some (by omega)
  · rw [readExponent, if_pos hdigits, Decimals.value_toDigits]
    exact congrArg some (by omega)

theorem value_zeros_append (k : Nat) (s : List Char) : value (List.replicate k '0' ++ s) = value s := by
  rw [Decimals.value_append, Decimals.value_replicate_zero, Nat.zero_mul, Nat.zero_add]

/-- Digits stand around the point as they were, and those after it count what the point is moved by. -/
theorem placed_spec (hdigits : ∀ c ∈ digits, c.isDigit = true) (hne : digits ≠ []) (exponent : Int) :
    (∀ c ∈ (placed digits (dotPlace digits exponent)).1 ++ (placed digits (dotPlace digits exponent)).2, c.isDigit = true) ∧
      (placed digits (dotPlace digits exponent)).1 ≠ [] ∧
      value ((placed digits (dotPlace digits exponent)).1 ++ (placed digits (dotPlace digits exponent)).2) = value digits ∧
      ((placed digits (dotPlace digits exponent)).2.length : Int) = digits.length - dotPlace digits exponent := by
  have hpos := List.length_pos_of_ne_nil hne
  have hbound : dotPlace digits exponent ≤ digits.length := by
    rw [dotPlace]
    split_ifs <;> omega
  rw [placed]
  generalize dotPlace digits exponent = dot at hbound
  split_ifs with hlow hwhole
  · refine ⟨fun c hc => ?_, List.cons_ne_nil _ _, ?_, ?_⟩
    · rw [List.singleton_append, List.mem_cons, List.mem_append] at hc
      obtain rfl | hc | hc := hc
      · rfl
      · rw [(List.mem_replicate.1 hc).2]
        rfl
      · exact hdigits c hc
    · show value (List.replicate 1 '0' ++ (List.replicate (-dot).toNat '0' ++ digits)) = value digits
      rw [value_zeros_append, value_zeros_append]
    · rw [List.length_append, List.length_replicate]
      omega
  · have hnone : (dot - digits.length).toNat = 0 := by omega
    rw [hnone, List.replicate_zero, List.append_nil, List.append_nil]
    refine ⟨hdigits, hne, rfl, ?_⟩
    show (0 : Int) = _
    omega
  · rw [List.take_append_drop]
    refine ⟨hdigits, fun hnil => ?_, rfl, ?_⟩
    · rw [List.take_eq_nil_iff] at hnil
      obtain hnil | hnil := hnil
      · omega
      · exact hne hnil
    · rw [List.length_drop]
      omega

theorem exponentMark_signedText {c : Char} (h : c.isDigit = true ∨ c = '.') : isExponentMark c = false := by
  obtain h | rfl := h
  · exact (Decimals.not_mark_of_isDigit h).2.1
  · rfl

/-- Digits, and the power of ten that is left, are read of the text of a finite decimal. -/
theorem ofText_placed {whole fraction : List Char} (hdigits : ∀ c ∈ whole ++ fraction, c.isDigit = true) (hwhole : whole ≠ []) (negative : Bool)
    (power : Int) : ofText (signText negative ++ (whole ++ (if fraction = [] then [] else '.' :: fraction) ++
      (if power = 0 then [] else 'E' :: signedText power))) = some (.finite negative (value (whole ++ fraction)) (power - fraction.length)) := by
  obtain ⟨first, rest, hcons⟩ := List.exists_cons_of_ne_nil hwhole
  have hmarks : ∀ c ∈ whole ++ (if fraction = [] then [] else '.' :: fraction), isExponentMark c = false := by
    intro c hc
    apply exponentMark_signedText
    obtain hc | hc := List.mem_append.1 hc
    · exact .inl (hdigits c (List.mem_append_left _ hc))
    · split_ifs at hc with hnil
      · exact absurd hc List.not_mem_nil
      · obtain rfl | hc := List.mem_cons.1 hc
        · exact .inr rfl
        · exact .inl (hdigits c (List.mem_append_right _ hc))
  have hbody : splitOnce isExponentMark (whole ++ (if fraction = [] then [] else '.' :: fraction) ++ (if power = 0 then [] else 'E' :: signedText power)) =
      (whole ++ (if fraction = [] then [] else '.' :: fraction), if power = 0 then none else some (signedText power)) := by
    by_cases hpower : power = 0
    · rw [if_pos hpower, if_pos hpower, List.append_nil]
      exact splitOnce_none hmarks
    · rw [if_neg hpower, if_neg hpower]
      exact splitOnce_some hmarks rfl
  have hpoint : splitOnce isPoint (whole ++ (if fraction = [] then [] else '.' :: fraction)) = (whole, if fraction = [] then none else some fraction) :=
    Decimals.splitOnce_point (p := ⟨false, whole, fraction, none⟩) fun c hc => hdigits c (List.mem_append_left _ hc)
  have hfraction : (if fraction = [] then none else some fraction).getD [] = fraction := by
    split_ifs with hnil
    · exact hnil.symm
    · rfl
  have hexponent : (if power = 0 then none else some (signedText power)).elim (some 0) readExponent = some power := by
    split_ifs with hpower
    · exact congrArg some hpower.symm
    · exact readExponent_signedText power
  have hread : whole ++ fraction ≠ [] ∧ (whole ++ fraction).all Char.isDigit = true :=
    ⟨List.append_ne_nil_of_left_ne_nil hwhole _, List.all_eq_true.2 hdigits⟩
  have hfirst : first.isDigit = true := hdigits first (by rw [hcons]; exact List.mem_cons_self)
  have hminus : first ≠ '-' := (Decimals.not_mark_of_isDigit hfirst).2.2
  have hplus : first ≠ '+' := by
    rintro rfl
    exact absurd hfirst (by decide)
  have hhead : ∀ more, (whole ++ more).head? = some first := fun more => by rw [hcons]; rfl
  rw [ofText]
  cases negative with
  | true =>
      simp only [signText, if_true, List.singleton_append, List.head?_cons, true_or, List.tail_cons, hbody, hpoint, hfraction, if_pos hread, hexponent,
        decide_true, Option.map_some]
  | false =>
      simp only [signText, Bool.false_eq_true, if_false, List.nil_append, List.append_assoc, hhead, Option.some.injEq, hminus, hplus, or_self] at hbody ⊢
      simp only [hbody, hpoint, hfraction, if_pos hread, hexponent, decide_false, Option.map_some]

theorem ofText_text (negative : Bool) (coefficient : Nat) (exponent : Int) :
    ofText (Decimal.finite negative coefficient exponent).text = some (.finite negative coefficient exponent) := by
  have hdigits : ∀ c ∈ Nat.toDigits 10 coefficient, c.isDigit = true := fun c hc => Nat.isDigit_of_mem_toDigits (by decide) (by decide) hc
  obtain ⟨hplaced, hwhole, hvalue, hlength⟩ := placed_spec hdigits Nat.toDigits_ne_nil exponent
  have hpower : (exponent + (Nat.toDigits 10 coefficient).length = dotPlace (Nat.toDigits 10 coefficient) exponent) ↔
      exponent + (Nat.toDigits 10 coefficient).length - dotPlace (Nat.toDigits 10 coefficient) exponent = 0 := sub_eq_zero.symm
  rw [Decimal.text, finiteText]
  simp only [hpower]
  rw [ofText_placed hplaced hwhole, hvalue, Decimals.value_toDigits, hlength]
  congr 2
  omega

end PythonDecimal
