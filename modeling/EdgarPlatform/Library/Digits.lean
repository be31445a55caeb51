import EdgarPlatform.Library.JsonText
import Mathlib.Data.String.Basic
import Mathlib.Data.Prod.Lex

/-!
# Integers written in digits

A nonnegative integer of any size is compared through its text: the longer text is the greater integer, and of two texts of one length the later one. It holds of the texts of JSON, which do not begin with a zero that could be left out.
-/

namespace Digits

open JsonText (isWhole isNumber isUnsigned isDigits isFraction isExponent)

def digit (c : Char) : Nat := c.toNat - '0'.toNat

def value : List Char → Nat
  | [] => 0
  | c :: rest => digit c * 10 ^ rest.length + value rest

theorem digit_lt {c : Char} (h : c.isDigit = true) : '0'.toNat ≤ c.toNat ∧ digit c < 10 := by
  simp only [Char.isDigit, Bool.and_eq_true, decide_eq_true_eq, ge_iff_le, UInt32.le_iff_toNat_le] at h
  have hlow : '0'.toNat ≤ c.toNat := h.1
  have hhigh : c.toNat ≤ '9'.toNat := h.2
  have hzero : '0'.toNat = 48 := rfl
  have hnine : '9'.toNat = 57 := rfl
  rw [digit]
  omega

theorem digit_lt_digit_iff {c d : Char} (hc : c.isDigit = true) (hd : d.isDigit = true) :
    digit c < digit d ↔ c < d := by
  have hlow := (digit_lt hc).1
  have hlow' := (digit_lt hd).1
  have hlt : c < d ↔ c.toNat < d.toNat := Iff.rfl
  rw [hlt, digit, digit]
  omega

theorem digit_inj {c d : Char} (hc : c.isDigit = true) (hd : d.isDigit = true) (h : digit c = digit d) : c = d := by
  apply le_antisymm
  · exact not_lt.1 fun hlt => absurd ((digit_lt_digit_iff hd hc).2 hlt) (by omega)
  · exact not_lt.1 fun hlt => absurd ((digit_lt_digit_iff hc hd).2 hlt) (by omega)

theorem value_lt {s : List Char} (h : ∀ c ∈ s, c.isDigit = true) : value s < 10 ^ s.length := by
  induction s with
  | nil => exact Nat.one_pos
  | cons c rest ih =>
      have hrest := ih fun d hd => h d (List.mem_cons_of_mem _ hd)
      have hdigit := (digit_lt (h c (List.mem_cons_self ..))).2
      have hstep : digit c * 10 ^ rest.length + 10 ^ rest.length ≤ 10 * 10 ^ rest.length := by
        rw [← Nat.succ_mul]
        exact Nat.mul_le_mul_right _ hdigit
      rw [value, List.length_cons, Nat.pow_succ]
      omega

theorem pow_le_value {c : Char} {rest : List Char} (hc : c.isDigit = true) (hzero : c ≠ '0') :
    10 ^ rest.length ≤ value (c :: rest) := by
  have hpos : 0 < digit c := by
    refine Nat.pos_of_ne_zero fun h => hzero ?_
    exact digit_inj hc rfl h
  rw [value]
  exact Nat.le_add_right_of_le (Nat.le_mul_of_pos_left _ hpos)

theorem value_lt_iff_of_length_eq {a b : List Char} (ha : ∀ c ∈ a, c.isDigit = true) (hb : ∀ c ∈ b, c.isDigit = true)
    (hlength : a.length = b.length) : value a < value b ↔ a < b := by
  induction a generalizing b with
  | nil =>
      rw [List.length_eq_zero_iff.1 hlength.symm]
      simp
  | cons c rest ih =>
      cases b with
      | nil => cases hlength
      | cons d rest' =>
          have hrest : rest.length = rest'.length := Nat.succ.inj hlength
          have hmem : ∀ e ∈ rest, e.isDigit = true := fun e he => ha e (List.mem_cons_of_mem _ he)
          have hmem' : ∀ e ∈ rest', e.isDigit = true := fun e he => hb e (List.mem_cons_of_mem _ he)
          have hc := ha c (List.mem_cons_self ..)
          have hd := hb d (List.mem_cons_self ..)
          have hlt := value_lt hmem
          have hlt' := value_lt hmem'
          rw [List.cons_lt_cons_iff, ← ih hmem hmem' hrest, ← digit_lt_digit_iff hc hd, value, value, ← hrest]
          rw [← hrest] at hlt'
          have hsame : c = d ↔ digit c = digit d := ⟨fun h => h ▸ rfl, digit_inj hc hd⟩
          rw [hsame]
          constructor
          · intro h
            by_cases heq : digit c = digit d
            · rw [heq] at h
              exact .inr ⟨heq, by omega⟩
            · refine .inl (not_le.1 fun hle => ?_)
              have hmul := Nat.mul_le_mul_right (10 ^ rest.length) (Nat.succ_le_of_lt (lt_of_le_of_ne hle (Ne.symm heq)))
              rw [Nat.succ_mul] at hmul
              omega
          · rintro (h | ⟨h, hvalue⟩)
            · have hmul := Nat.mul_le_mul_right (10 ^ rest.length) (Nat.succ_le_of_lt h)
              rw [Nat.succ_mul] at hmul
              omega
            · rw [h]
              omega

theorem value_lt_of_length_lt {a b : List Char} (ha : ∀ c ∈ a, c.isDigit = true) (hb : ∀ c ∈ b, c.isDigit = true)
    (hne : a ≠ []) (hwhole : isWhole b = true) (hlength : a.length < b.length) : value a < value b := by
  cases b with
  | nil => cases hlength
  | cons c rest =>
      have hrest : 0 < rest.length := by
        have hpos := List.length_pos_of_ne_nil hne
        rw [List.length_cons] at hlength
        omega
      have hzero : c ≠ '0' := by
        rintro rfl
        cases rest with
        | nil => cases hrest
        | cons d rest' => simp [isWhole] at hwhole
      have hpow : 10 ^ a.length ≤ 10 ^ rest.length :=
        Nat.pow_le_pow_right (by omega) (Nat.le_of_lt_succ hlength)
      exact (value_lt ha).trans_le (hpow.trans (pow_le_value (hb c (List.mem_cons_self ..)) hzero))

def IsInteger (text : String) : Prop := (∀ c ∈ text.toList, c.isDigit = true) ∧ isWhole text.toList = true

theorem isInteger_of_all {text : String} (hdigits : text.toList.all Char.isDigit = true)
    (hwhole : isWhole text.toList = true) : IsInteger text :=
  ⟨List.all_eq_true.1 hdigits, hwhole⟩

theorem IsInteger.ne_nil {text : String} (h : IsInteger text) : text.toList ≠ [] := by
  intro hnil
  have hwhole := h.2
  rw [hnil] at hwhole
  cases hwhole

def number (text : String) : Nat := value text.toList

def order (text : String) : Nat ×ₗ String := toLex (text.length, text)

theorem order_lt_iff {a b : String} (ha : IsInteger a) (hb : IsInteger b) : order a < order b ↔ number a < number b := by
  have hlength : ∀ s : String, s.toList.length = s.length := fun s => String.length_toList
  rw [order, order, Prod.Lex.toLex_lt_toLex, String.lt_iff_toList_lt, ← hlength, ← hlength]
  show _ ↔ value a.toList < value b.toList
  obtain hlt | heq | hgt := lt_trichotomy a.toList.length b.toList.length
  · exact ⟨fun _ => value_lt_of_length_lt ha.1 hb.1 ha.ne_nil hb.2 hlt, fun _ => .inl hlt⟩
  · rw [value_lt_iff_of_length_eq ha.1 hb.1 heq]
    exact ⟨fun h => (h.resolve_left (by omega)).2, fun h => .inr ⟨heq, h⟩⟩
  · have hless := value_lt_of_length_lt hb.1 ha.1 hb.ne_nil ha.2 hgt
    refine ⟨fun h => ?_, fun h => absurd hless (by omega)⟩
    obtain h | ⟨h, _⟩ := h <;> omega

theorem order_le_iff {a b : String} (ha : IsInteger a) (hb : IsInteger b) : order a ≤ order b ↔ number a ≤ number b := by
  rw [← not_lt, order_lt_iff hb ha, not_lt]

theorem order_injective {a b : String} (h : order a = order b) : a = b := congrArg (fun key => (ofLex key).2) h

theorem number_inj {a b : String} (ha : IsInteger a) (hb : IsInteger b) (h : number a = number b) : a = b := by
  apply order_injective
  apply le_antisymm
  · exact (order_le_iff ha hb).2 h.le
  · exact (order_le_iff hb ha).2 h.ge

theorem isInteger_of_isNumber {text : String} (hdigits : text.toList.all Char.isDigit = true)
    (h : isNumber text.toList = true) : IsInteger text := by
  have hall : ∀ c ∈ text.toList, c.isDigit = true := List.all_eq_true.1 hdigits
  refine ⟨hall, ?_⟩
  cases hlist : text.toList with
  | nil =>
      rw [hlist] at h
      cases h
  | cons c rest =>
      rw [hlist] at h hall
      have hsign : c ≠ '-' := by
        rintro rfl
        exact absurd (hall '-' (List.mem_cons_self ..)) (by decide)
      rw [isNumber, if_neg hsign, isUnsigned, Bool.and_eq_true, List.takeWhile_eq_self_iff.2 hall] at h
      exact h.1

end Digits
