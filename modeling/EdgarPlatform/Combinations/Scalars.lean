import EdgarPlatform.Library.Decimals

/-!
# Keys and scalars of combined tables

Rows are grouped and joined by keys that are texts or integers, and ordered by scalars of one kind. Integers have any length, so they are compared by their decimal texts.
-/

namespace EdgarPlatform.Combinations

open PythonJson JsonText

/-- The floats of the interpreter with the comparison of two of them, none of which is no number. -/
structure Numbers (F : Type) where
  compare : F → F → Ordering
  lawful : Std.TransCmp compare

def isMinus (c : Char) : Bool := c = '-'

/-- The order of two integers by their texts: those with a minus first, then by length and characters, the other way round below zero. -/
def integerCompare (a b : List Char) : Ordering :=
  let an := a.head? = some '-'
  let bn := b.head? = some '-'
  if an ≠ bn then compare (decide bn) (decide an)
  else
    let aa := a.dropWhile isMinus
    let bb := b.dropWhile isMinus
    let order := (compare aa.length bb.length).then (compare aa bb)
    if an then order.swap else order

inductive Key where
  | text (value : Text)
  | integer (text : List Char)
  deriving DecidableEq

inductive Scalar (F : Type) where
  | text (value : Text)
  | integer (text : List Char)
  | float (value : F)
  | bool (value : Bool)

variable {F : Type}

def Scalar.kind : Scalar F → Nat
  | .text _ => 0
  | .integer _ => 1
  | .float _ => 2
  | .bool _ => 3

/-- Texts are compared by their code points, which is how their bytes compare. -/
def Scalar.compare (numbers : Numbers F) : Scalar F → Scalar F → Ordering
  | .text a, .text b => Ord.compare a b
  | .integer a, .integer b => integerCompare a b
  | .float a, .float b => numbers.compare a b
  | .bool a, .bool b => Ord.compare a b
  | a, b => Ord.compare a.kind b.kind

def keyOf : Value F → Except String (Option Key)
  | .null => .ok none
  | .str value => .ok (some (.text value))
  | .int value => .ok (some (.integer (intText value)))
  | _ => .error "Combination keys must be text, integer or null; no implicit conversion"

def scalarOf (message : String) : Value F → Except String (Scalar F)
  | .str value => .ok (.text value)
  | .int value => .ok (.integer (intText value))
  | .float value => .ok (.float value)
  | .bool value => .ok (.bool value)
  | _ => .error message

theorem dropWhile_toDigits (n : Nat) : (Nat.toDigits 10 n).dropWhile isMinus = Nat.toDigits 10 n ∧ (Nat.toDigits 10 n).head? ≠ some '-' := by
  have hne : ∀ c ∈ Nat.toDigits 10 n, c ≠ '-' := fun c hc => (digits_ne_sign n c hc).1
  cases hdigits : Nat.toDigits 10 n with
  | nil => exact ⟨rfl, fun h => nomatch h⟩
  | cons c rest =>
      have hc := hne c (by rw [hdigits]; exact List.mem_cons_self ..)
      refine ⟨List.dropWhile_cons_of_neg (by simpa [isMinus] using hc), fun h => hc (Option.some.inj h)⟩

theorem sign_intText (n : Int) : (intText n).head? = some '-' ↔ n < 0 := by
  rw [intText]
  split_ifs with hneg
  · exact iff_of_true rfl hneg
  · exact iff_of_false (dropWhile_toDigits _).2 hneg

theorem magnitude_intText (n : Int) : (intText n).dropWhile isMinus = Nat.toDigits 10 n.natAbs := by
  rw [intText]
  split_ifs
  · rw [List.dropWhile_cons_of_pos rfl]
    exact (dropWhile_toDigits _).1
  · exact (dropWhile_toDigits _).1

theorem isDigit_toDigits (n : Nat) : ∀ c ∈ Nat.toDigits 10 n, c.isDigit = true :=
  fun _ hc => Nat.isDigit_of_mem_toDigits (by decide) (by decide) hc

theorem isWhole_toDigits (n : Nat) : isWhole (Nat.toDigits 10 n) = true := by
  simp only [isWhole, Bool.or_eq_true, decide_eq_true_eq, Bool.and_eq_true]
  obtain hzero | hhead := toDigits_head n
  · exact .inl hzero
  · exact .inr ⟨Nat.toDigits_ne_nil, hhead⟩

theorem compare_digit {c d : Char} (hc : c.isDigit = true) (hd : d.isDigit = true) :
    compare c d = compare (Digits.digit c) (Digits.digit d) := by
  obtain hlt | heq | hgt := lt_trichotomy c d
  · rw [compare_lt_iff_lt.2 hlt, compare_lt_iff_lt.2 ((Digits.digit_lt_digit_iff hc hd).2 hlt)]
  · rw [heq, compare_eq_iff_eq.2 rfl, compare_eq_iff_eq.2 rfl]
  · rw [compare_gt_iff_gt.2 hgt, compare_gt_iff_gt.2 ((Digits.digit_lt_digit_iff hd hc).2 hgt)]

theorem compare_value {a b : List Char} (ha : ∀ c ∈ a, c.isDigit = true) (hb : ∀ c ∈ b, c.isDigit = true)
    (hlength : a.length = b.length) : compare a b = compare (Digits.value a) (Digits.value b) := by
  induction a generalizing b with
  | nil =>
      rw [List.length_eq_zero_iff.1 hlength.symm]
      rfl
  | cons c rest ih =>
      cases b with
      | nil => cases hlength
      | cons d rest' =>
          have hrest : rest.length = rest'.length := Nat.succ.inj hlength
          have hmem : ∀ e ∈ rest, e.isDigit = true := fun e he => ha e (List.mem_cons_of_mem _ he)
          have hmem' : ∀ e ∈ rest', e.isDigit = true := fun e he => hb e (List.mem_cons_of_mem _ he)
          have hlt := Digits.value_lt hmem
          have hlt' := Digits.value_lt hmem'
          rw [← hrest] at hlt'
          rw [List.compare_cons_cons, ih hmem hmem' hrest, compare_digit (ha c (List.mem_cons_self ..)) (hb d (List.mem_cons_self ..)),
            Digits.value, Digits.value, ← hrest]
          generalize Digits.digit c = m
          generalize Digits.digit d = n
          obtain hdigit | rfl | hdigit := lt_trichotomy m n
          · have hmul := Nat.mul_le_mul_right (10 ^ rest.length) (Nat.succ_le_of_lt hdigit)
            rw [Nat.succ_mul] at hmul
            rw [compare_lt_iff_lt.2 hdigit]
            symm
            apply compare_lt_iff_lt.2
            omega
          · rw [compare_eq_iff_eq.2 rfl]
            show compare _ _ = _
            obtain hvalue | hvalue | hvalue := lt_trichotomy (Digits.value rest) (Digits.value rest')
            · rw [compare_lt_iff_lt.2 hvalue, compare_lt_iff_lt.2 (Nat.add_lt_add_left hvalue _)]
            · rw [hvalue, compare_eq_iff_eq.2 rfl, compare_eq_iff_eq.2 rfl]
            · rw [compare_gt_iff_gt.2 hvalue, compare_gt_iff_gt.2 (Nat.add_lt_add_left hvalue _)]
          · have hmul := Nat.mul_le_mul_right (10 ^ rest.length) (Nat.succ_le_of_lt hdigit)
            rw [Nat.succ_mul] at hmul
            rw [compare_gt_iff_gt.2 hdigit]
            symm
            apply compare_gt_iff_gt.2
            omega

theorem compare_toDigits (m n : Nat) : (compare (Nat.toDigits 10 m).length (Nat.toDigits 10 n).length).then
    (compare (Nat.toDigits 10 m) (Nat.toDigits 10 n)) = compare m n := by
  obtain hlt | heq | hgt := lt_trichotomy (Nat.toDigits 10 m).length (Nat.toDigits 10 n).length
  · have hvalue := Digits.value_lt_of_length_lt (isDigit_toDigits m) (isDigit_toDigits n) Nat.toDigits_ne_nil (isWhole_toDigits n) hlt
    rw [Decimals.value_toDigits, Decimals.value_toDigits] at hvalue
    rw [compare_lt_iff_lt.2 hlt, compare_lt_iff_lt.2 hvalue]
    rfl
  · rw [compare_eq_iff_eq.2 heq, compare_value (isDigit_toDigits m) (isDigit_toDigits n) heq, Decimals.value_toDigits,
      Decimals.value_toDigits]
    rfl
  · have hvalue := Digits.value_lt_of_length_lt (isDigit_toDigits n) (isDigit_toDigits m) Nat.toDigits_ne_nil (isWhole_toDigits m) hgt
    rw [Decimals.value_toDigits, Decimals.value_toDigits] at hvalue
    rw [compare_gt_iff_gt.2 hgt, compare_gt_iff_gt.2 hvalue]
    rfl

theorem compare_congr {a b : Nat} {m n : Int} (hlt : a < b ↔ m < n) (hgt : b < a ↔ n < m) : compare a b = compare m n := by
  obtain hless | heq | hmore := lt_trichotomy m n
  · rw [compare_lt_iff_lt.2 hless, compare_lt_iff_lt.2 (hlt.2 hless)]
  · rw [compare_eq_iff_eq.2 heq]
    apply compare_eq_iff_eq.2
    omega
  · rw [compare_gt_iff_gt.2 hmore, compare_gt_iff_gt.2 (hgt.2 hmore)]

theorem integerCompare_intText (m n : Int) : integerCompare (intText m) (intText n) = compare m n := by
  rw [integerCompare]
  simp only [magnitude_intText, compare_toDigits, sign_intText]
  by_cases hm : m < 0
  · by_cases hn : n < 0
    · rw [if_neg (by simp [hm, hn]), if_pos hm, ← Std.OrientedOrd.eq_swap]
      exact compare_congr (by omega) (by omega)
    · rw [if_pos (by simp [hm, hn]), compare_lt_iff_lt.2 (show m < n by omega)]
      simp [hm, hn]
      decide
  · by_cases hn : n < 0
    · rw [if_pos (by simp [hm, hn]), compare_gt_iff_gt.2 (show n < m by omega)]
      simp [hm, hn]
      decide
    · rw [if_neg (by simp [hm, hn]), if_neg hm]
      exact compare_congr (by omega) (by omega)

def bySize (a b : List Char) : Ordering := (compare a.length b.length).then (compare a b)

theorem bySize_lawful : Std.TransCmp bySize := inferInstanceAs (Std.TransCmp (compareLex (compareOn List.length) compare))

theorem integerCompare_eq (a b : List Char) : integerCompare a b =
    if a.head? = some '-' then
      if b.head? = some '-' then bySize (b.dropWhile isMinus) (a.dropWhile isMinus) else .lt
    else if b.head? = some '-' then .gt else bySize (a.dropWhile isMinus) (b.dropWhile isMinus) := by
  have hsize := bySize_lawful
  rw [integerCompare]
  by_cases ha : a.head? = some '-' <;> by_cases hb : b.head? = some '-'
  · rw [if_neg (by simp [ha, hb]), if_pos ha, if_pos ha, if_pos hb]
    exact hsize.toOrientedCmp.eq_swap.symm
  · rw [if_pos (by simp [ha, hb]), if_pos ha, if_neg hb, decide_eq_false hb, decide_eq_true ha]
    rfl
  · rw [if_pos (by simp [ha, hb]), if_neg ha, if_pos hb, decide_eq_true hb, decide_eq_false ha]
    rfl
  · rw [if_neg (by simp [ha, hb]), if_neg ha, if_neg ha, if_neg hb]
    rfl

theorem integerCompare_lawful : Std.TransCmp integerCompare := by
  have hsize := bySize_lawful
  refine { eq_swap := fun {a b} => ?_, isLE_trans := fun {a b c} hab hbc => ?_ }
  · rw [integerCompare_eq, integerCompare_eq b a]
    split_ifs
    · exact Std.OrientedCmp.eq_swap
    · rfl
    · rfl
    · exact Std.OrientedCmp.eq_swap
  · rw [integerCompare_eq] at hab hbc ⊢
    split_ifs at hab hbc ⊢
    · exact Std.TransCmp.isLE_trans hbc hab
    · cases hbc
    · rfl
    · rfl
    · cases hab
    · cases hbc
    · cases hab
    · exact Std.TransCmp.isLE_trans hab hbc

theorem Scalar.compare_of_kind_ne {numbers : Numbers F} {a b : Scalar F} (h : a.kind ≠ b.kind) :
    a.compare numbers b = Ord.compare a.kind b.kind := by
  cases a <;> cases b <;> first | rfl | exact absurd rfl h

theorem Scalar.kind_le {numbers : Numbers F} {a b : Scalar F} (h : (a.compare numbers b).isLE = true) : a.kind ≤ b.kind := by
  by_cases hkind : a.kind = b.kind
  · exact hkind.le
  · rw [compare_of_kind_ne hkind] at h
    exact Nat.isLE_compare.1 h

theorem Scalar.compare_lawful (numbers : Numbers F) : Std.TransCmp (Scalar.compare numbers) := by
  have hinteger := integerCompare_lawful
  have hfloat := numbers.lawful
  refine { eq_swap := fun {a b} => ?_, isLE_trans := fun {a b c} hab hbc => ?_ }
  · by_cases hkind : a.kind = b.kind
    · cases a <;> cases b <;> cases hkind
      · exact Std.OrientedOrd.eq_swap
      · exact hinteger.toOrientedCmp.eq_swap
      · exact hfloat.toOrientedCmp.eq_swap
      · exact Std.OrientedOrd.eq_swap
    · rw [compare_of_kind_ne hkind, compare_of_kind_ne (Ne.symm hkind)]
      exact Std.OrientedCmp.eq_swap
  · have hkind := kind_le hab
    have hkind' := kind_le hbc
    by_cases hless : a.kind < c.kind
    · rw [compare_of_kind_ne hless.ne]
      exact Nat.isLE_compare.2 hless.le
    · have hsame : a.kind = b.kind := by omega
      have hsame' : b.kind = c.kind := by omega
      cases a <;> cases b <;> cases hsame <;> cases c <;> cases hsame'
      · exact Std.TransOrd.isLE_trans hab hbc
      · exact hinteger.isLE_trans hab hbc
      · exact hfloat.isLE_trans hab hbc
      · exact Std.TransOrd.isLE_trans hab hbc

end EdgarPlatform.Combinations
