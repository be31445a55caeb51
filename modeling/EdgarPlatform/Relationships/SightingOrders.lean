import EdgarPlatform.Library.Integers
import EdgarPlatform.Relationships.Combined
import Mathlib.Data.Sum.Order

/-!
# Sightings in the order of their assertion ids

Sightings of one day are ordered by their assertion ids: integers of any size before texts. An integer is compared by how many digits it has and then by its digits, a negative one by what these leave of nines and of the greatest length, so the order of the keys is that of the values. A negative zero has a key of its own, just before that of zero.
-/

namespace EdgarPlatform.Relationships

open Records (Json)
open Decimals (Written written_of_isNumber)
open Digits (digit value)
open JsonText (isNumber)
open PythonJson (isReal)

/-- The order of two keys: their first parts that differ decide. -/
def orderKey (order : Nat × Nat × String) : Nat ×ₗ Nat ×ₗ String := toLex (order.1, toLex (order.2.1, order.2.2))

/-- The value of an assertion id: an integer, a negative zero just before zero, and after all integers a text. -/
def orderValue : Json → Option ((ℤ ×ₗ ℕ) ⊕ₗ String)
  | .str value => some (toLex (.inr value))
  | .bool value => some (toLex (.inl (toLex (if value then 1 else 0, 1))))
  | .num lexeme =>
      if isNumber lexeme.toList = true ∧ isReal lexeme.toList = false then
        some (toLex (.inl (toLex (Decimals.integer lexeme.toList, if lexeme = "-0" then 0 else 1))))
      else none
  | _ => none

/-- The text of a number in memory has a length that a machine word holds. -/
def InMemory (value : Json) : Prop := ∀ lexeme, value = .num lexeme → lexeme.length < 2 ^ 64

def integerOrder (negative : Bool) (digits : List Char) : Nat × Nat × String :=
  if negative then (0, 2 ^ 64 - 1 - digits.length, String.ofList (digits.map complement)) else (1, digits.length, String.ofList digits)

def integerValue (negative : Bool) (digits : List Char) : ℤ ×ₗ ℕ :=
  toLex (if negative then -(value digits : ℤ) else value digits, if negative ∧ digits = ['0'] then 0 else 1)

theorem digit_complement {c : Char} (h : c.isDigit = true) : (complement c).isDigit = true ∧ digit (complement c) + digit c = 9 := by
  have hdigits : ∀ d : Fin 10, (complement (Char.ofNat (48 + d))).isDigit = true ∧ digit (complement (Char.ofNat (48 + d))) + digit (Char.ofNat (48 + d)) = 9 := by
    decide
  obtain ⟨hle, hle'⟩ := Char.isDigit_iff_toNat.1 h
  have hzero : '0'.toNat = 48 := rfl
  have hnine : '9'.toNat = 57 := rfl
  have hc := hdigits ⟨c.toNat - 48, by omega⟩
  have hsum : 48 + (c.toNat - 48) = c.toNat := by omega
  simp only [hsum, Char.ofNat_toNat] at hc
  exact hc

theorem value_complement {s : List Char} (h : ∀ c ∈ s, c.isDigit = true) : value (s.map complement) + value s + 1 = 10 ^ s.length := by
  induction s with
  | nil => rfl
  | cons c rest ih =>
      have hrest := ih fun d hd => h d (List.mem_cons_of_mem _ hd)
      have hsum := (digit_complement (h c List.mem_cons_self)).2
      have hnine : digit (complement c) * 10 ^ rest.length + digit c * 10 ^ rest.length = 9 * 10 ^ rest.length := by
        rw [← Nat.add_mul, hsum]
      rw [List.map_cons, value, value, List.length_map, List.length_cons, Nat.pow_succ]
      omega

theorem complement_lt_iff {a b : List Char} (ha : ∀ c ∈ a, c.isDigit = true) (hb : ∀ c ∈ b, c.isDigit = true) (hlength : a.length = b.length) :
    a.map complement < b.map complement ↔ value b < value a := by
  have hdigits : ∀ s : List Char, (∀ c ∈ s, c.isDigit = true) → ∀ c ∈ s.map complement, c.isDigit = true := by
    intro s hs c hc
    obtain ⟨d, hd, rfl⟩ := List.mem_map.1 hc
    exact (digit_complement (hs d hd)).1
  have hsum := value_complement ha
  have hsum' := value_complement hb
  rw [← Digits.value_lt_iff_of_length_eq (hdigits a ha) (hdigits b hb) (by rw [List.length_map, List.length_map, hlength])]
  rw [hlength] at hsum
  omega

variable {a b : List Char}

theorem negative_lt_iff (ha : Written a) (hb : Written b) (hlength : a.length < 2 ^ 64) (hlength' : b.length < 2 ^ 64) :
    orderKey (integerOrder true a) < orderKey (integerOrder true b) ↔ value b < value a := by
  have hkey : ∀ s, orderKey (integerOrder true s) = toLex (0, toLex (2 ^ 64 - 1 - s.length, String.ofList (s.map complement))) := fun _ => rfl
  rw [hkey, hkey, Prod.Lex.toLex_lt_toLex, Prod.Lex.toLex_lt_toLex, String.lt_iff_toList_lt, String.toList_ofList, String.toList_ofList]
  obtain hlt | heq | hgt := lt_trichotomy a.length b.length
  · have hvalue := Digits.value_lt_of_length_lt ha.digits hb.digits ha.ne_nil hb.whole hlt
    constructor
    · rintro (h | ⟨_, h | ⟨h, _⟩⟩) <;> omega
    · omega
  · rw [complement_lt_iff ha.digits hb.digits heq, heq]
    constructor
    · rintro (h | ⟨_, h | ⟨_, h⟩⟩)
      · exact absurd h (lt_irrefl _)
      · exact absurd h (lt_irrefl _)
      · exact h
    · exact fun h => .inr ⟨rfl, .inr ⟨rfl, h⟩⟩
  · have hvalue := Digits.value_lt_of_length_lt hb.digits ha.digits hb.ne_nil ha.whole hgt
    have hless : 2 ^ 64 - 1 - a.length < 2 ^ 64 - 1 - b.length := by omega
    exact ⟨fun _ => hvalue, fun _ => .inr ⟨rfl, .inl hless⟩⟩

theorem positive_lt_iff (ha : Written a) (hb : Written b) :
    orderKey (integerOrder false a) < orderKey (integerOrder false b) ↔ value a < value b := by
  have hkey : ∀ s, orderKey (integerOrder false s) = toLex (1, toLex (s.length, String.ofList s)) := fun _ => rfl
  have horder := Digits.order_lt_iff ha.isInteger hb.isInteger
  rw [Digits.number, Digits.number, String.toList_ofList, String.toList_ofList] at horder
  rw [← horder, Digits.order, Digits.order, String.length_ofList, String.length_ofList, hkey, hkey, Prod.Lex.toLex_lt_toLex]
  exact ⟨fun h => (h.resolve_left (lt_irrefl 1)).2, fun h => .inr ⟨rfl, h⟩⟩

/-- Of two integers one is the lesser by sign and digits. A negative zero has the value of a zero and comes before it. -/
theorem integerValue_lt_iff (negative negative' : Bool) (ha : Written a) (hb : Written b) :
    integerValue negative a < integerValue negative' b ↔
      if negative = true then negative' = false ∨ value b < value a else negative' = false ∧ value a < value b := by
  rw [integerValue, integerValue, Prod.Lex.toLex_lt_toLex]
  cases negative <;> cases negative' <;> simp only [Bool.false_eq_true, false_and, true_and, if_true, if_false, reduceCtorEq, true_or, false_or]
  · omega
  · constructor
    · rintro (h | ⟨_, h⟩)
      · omega
      · split_ifs at h <;> omega
    · exact False.elim
  · refine iff_true_intro (or_iff_not_imp_left.2 fun hless => ?_)
    have hzero : value a = 0 := by omega
    rw [if_pos (Decimals.value_eq_zero ha.digits ha.whole hzero)]
    exact ⟨by omega, Nat.one_pos⟩
  · constructor
    · rintro (h | ⟨heq, h⟩)
      · omega
      · have hsame : a = b := Decimals.value_inj ha.digits ha.whole hb.digits hb.whole (by omega)
        rw [hsame] at h
        exact absurd h (lt_irrefl _)
    · omega

theorem integerOrder_lt_iff (negative negative' : Bool) (ha : Written a) (hb : Written b) (hlength : a.length < 2 ^ 64) (hlength' : b.length < 2 ^ 64) :
    orderKey (integerOrder negative a) < orderKey (integerOrder negative' b) ↔ integerValue negative a < integerValue negative' b := by
  have hkind : ∀ negative s, orderKey (integerOrder negative s) = toLex (if negative = true then 0 else 1, (ofLex (orderKey (integerOrder negative s))).2) := by
    intro negative s
    cases negative <;> rfl
  rw [integerValue_lt_iff negative negative' ha hb]
  cases negative <;> cases negative'
  · rw [positive_lt_iff ha hb]
    exact ⟨fun h => ⟨rfl, h⟩, And.right⟩
  · rw [hkind, hkind true, Prod.Lex.toLex_lt_toLex]
    simp
  · rw [hkind, hkind false, Prod.Lex.toLex_lt_toLex]
    simp
  · rw [negative_lt_iff ha hb hlength hlength']
    exact ⟨.inr, fun h => h.resolve_left Bool.noConfusion⟩

variable {left right : Json}

theorem readSightingOrder_value {v : (ℤ ×ₗ ℕ) ⊕ₗ String} (hvalue : orderValue left = some v) (hmemory : InMemory left) :
    (∃ negative digits, Written digits ∧ digits.length < 2 ^ 64 ∧ readSightingOrder left = .ok (integerOrder negative digits) ∧
      v = toLex (.inl (integerValue negative digits))) ∨ ∃ text, readSightingOrder left = .ok (2, 0, text) ∧ v = toLex (.inr text) := by
  cases left with
  | str text => exact .inr ⟨text, rfl, (Option.some.inj hvalue).symm⟩
  | bool flag =>
      cases flag
      · exact .inl ⟨false, ['0'], ⟨List.forall_mem_singleton.2 rfl, by decide⟩, by decide, rfl, (Option.some.inj hvalue).symm⟩
      · exact .inl ⟨false, ['1'], ⟨List.forall_mem_singleton.2 rfl, by decide⟩, by decide, rfl, (Option.some.inj hvalue).symm⟩
  | num lexeme =>
      rw [orderValue, Option.ite_none_right_eq_some, Option.some.injEq] at hvalue
      obtain ⟨⟨hnumber, hreal⟩, rfl⟩ := hvalue
      have hlength := hmemory lexeme rfl
      rw [← String.length_toList] at hlength
      refine .inl ?_
      have hspelled : ∀ text : List Char, lexeme = String.ofList text ↔ lexeme.toList = text := by
        intro text
        rw [← String.toList_inj, String.toList_ofList]
      have hdigits : ∀ s : List Char, Written s → ¬(s = [] ∨ s.any (fun c => decide ¬c.isDigit = true) = true) := by
        intro s hs
        simpa [hs.ne_nil] using hs.digits
      obtain ⟨digits, hwritten, hlist, hinteger⟩ | ⟨hwritten, hhead, hinteger⟩ := written_of_isNumber hnumber hreal
      · rw [hlist] at hlength
        refine ⟨true, digits, hwritten, Nat.lt_of_succ_lt hlength, ?_, ?_⟩
        · rw [readSightingOrder, hlist, List.head?_cons]
          simp only [if_true, List.tail_cons, if_neg (hdigits digits hwritten)]
          rfl
        · have hzero : lexeme = "-0" ↔ digits = ['0'] := by
            rw [show "-0" = String.ofList ['-', '0'] from rfl, hspelled, hlist, List.cons.injEq]
            simp
          rw [hinteger, integerValue]
          simp only [hzero, if_true, true_and]
      · refine ⟨false, lexeme.toList, hwritten, hlength, ?_, ?_⟩
        · rw [readSightingOrder]
          simp only [hhead, if_false, if_neg (hdigits lexeme.toList hwritten)]
          rfl
        · have hzero : lexeme ≠ "-0" := by
            rintro rfl
            exact hhead rfl
          rw [hinteger, integerValue]
          simp only [if_neg hzero, Bool.false_eq_true, false_and, if_false]
  | null => cases hvalue
  | arr items => cases hvalue
  | obj fields => cases hvalue

theorem orderKey_lt_iff {v w : (ℤ ×ₗ ℕ) ⊕ₗ String} {key other : Nat × Nat × String} (hleft : orderValue left = some v) (hright : orderValue right = some w)
    (hmemory : InMemory left) (hmemory' : InMemory right) (hkey : readSightingOrder left = .ok key) (hother : readSightingOrder right = .ok other) :
    orderKey key < orderKey other ↔ v < w := by
  have hinteger : ∀ negative digits, (integerOrder negative digits).1 < 2 := by
    intro negative digits
    cases negative
    · exact Nat.lt_succ_self 1
    · exact Nat.succ_pos 1
  obtain ⟨negative, a, ha, hlength, hleft', rfl⟩ | ⟨text, hleft', rfl⟩ := readSightingOrder_value hleft hmemory <;>
    obtain ⟨negative', b, hb, hlength', hright', rfl⟩ | ⟨text', hright', rfl⟩ := readSightingOrder_value hright hmemory' <;>
    obtain rfl := Except.ok.inj (hkey.symm.trans hleft') <;> obtain rfl := Except.ok.inj (hother.symm.trans hright')
  · rw [integerOrder_lt_iff negative negative' ha hb hlength hlength']
    exact Sum.Lex.inl_lt_inl_iff.symm
  · exact iff_of_true (Prod.Lex.toLex_lt_toLex.2 (.inl (hinteger negative a))) (Sum.Lex.inl_lt_inr _ _)
  · refine iff_of_false (fun h => ?_) Sum.Lex.not_inr_lt_inl
    obtain h | ⟨h, _⟩ := Prod.Lex.toLex_lt_toLex.1 h
    · exact absurd (hinteger negative' b) (by omega)
    · exact absurd (hinteger negative' b) (by omega)
  · have hkey : ∀ text : String, orderKey (2, 0, text) = toLex (2, toLex (0, text)) := fun _ => rfl
    rw [hkey, hkey, Prod.Lex.toLex_lt_toLex, Prod.Lex.toLex_lt_toLex]
    simp

/-- The keys of two assertion ids are in the order of their values, the numeric order of integers, the order of texts, and integers before texts. -/
theorem readSightingOrder_sorts {v w : (ℤ ×ₗ ℕ) ⊕ₗ String} (hleft : orderValue left = some v) (hright : orderValue right = some w)
    (hmemory : InMemory left) (hmemory' : InMemory right) :
    ∃ key other, readSightingOrder left = .ok key ∧ readSightingOrder right = .ok other ∧ cmp (orderKey key) (orderKey other) = cmp v w := by
  have hread : ∀ {value : Json} {v : (ℤ ×ₗ ℕ) ⊕ₗ String}, orderValue value = some v → InMemory value → ∃ key, readSightingOrder value = .ok key := by
    intro value v hvalue hmemory
    obtain ⟨_, _, _, _, hkey, _⟩ | ⟨_, hkey, _⟩ := readSightingOrder_value hvalue hmemory
    · exact ⟨_, hkey⟩
    · exact ⟨_, hkey⟩
  obtain ⟨key, hkey⟩ := hread hleft hmemory
  obtain ⟨other, hother⟩ := hread hright hmemory'
  refine ⟨key, other, hkey, hother, ?_⟩
  have hless := orderKey_lt_iff hleft hright hmemory hmemory' hkey hother
  have hmore := orderKey_lt_iff hright hleft hmemory' hmemory hother hkey
  simp only [cmp, cmpUsing, hless, hmore]

theorem minus_hundred_before_minus_nine : ∃ key other, readSightingOrder (.num "-100") = .ok key ∧ readSightingOrder (.num "-9") = .ok other ∧
    cmp (orderKey key) (orderKey other) = cmp (toLex (.inl (toLex (-100, 1))) : (ℤ ×ₗ ℕ) ⊕ₗ String) (toLex (.inl (toLex (-9, 1)))) :=
  @readSightingOrder_sorts (.num "-100") (.num "-9") _ _ (by decide) (by decide) (fun _ h => by cases h; decide) (fun _ h => by cases h; decide)

/-- A negative zero is no less than a zero, but its key is. -/
theorem negative_zero_before_zero : readSightingOrder (.num "-0") = .ok (0, 2 ^ 64 - 2, "9") ∧ readSightingOrder (.num "0") = .ok (1, 1, "0") ∧
    Decimals.integer "-0".toList = Decimals.integer "0".toList ∧ cmp (orderKey (0, 2 ^ 64 - 2, "9")) (orderKey (1, 1, "0")) = .lt :=
  ⟨by decide, by decide, by decide, by decide⟩

end EdgarPlatform.Relationships
