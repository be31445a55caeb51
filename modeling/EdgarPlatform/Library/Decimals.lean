import EdgarPlatform.Library.Digits
import EdgarPlatform.Library.PythonJson
import Mathlib.Algebra.Field.Rat
import Mathlib.Algebra.Order.Field.Rat
import Mathlib.Tactic.Ring
import Mathlib.Tactic.FieldSimp
import Mathlib.Tactic.Linarith

/-!
# Numbers written in decimal

The text of a JSON number is a sign, digits, digits after a point and an exponent, and stands for a rational of any size. A text is cut at the first of each mark, as a splitting reader does, and put together again from its parts.
-/

namespace Decimals

open Digits (value digit)
open JsonText (isDigits isWhole isFraction isExponent isUnsigned isNumber)

/-- The text up to the first mark, and the text after it where there is a mark. -/
def splitOnce (mark : Char → Bool) (s : List Char) : List Char × Option (List Char) :=
  (s.takeWhile fun c => !mark c, if (s.dropWhile fun c => !mark c) = [] then none else some (s.dropWhile fun c => !mark c).tail)

def isExponentMark (c : Char) : Bool := c = 'e' || c = 'E'

def isPoint (c : Char) : Bool := c = '.'

/-- The text of a number in its parts. -/
structure Parts where
  negative : Bool
  whole : List Char
  fraction : List Char
  exponent : Option (List Char)
  deriving DecidableEq

def unsigned (token : List Char) : List Char := if token.head? = some '-' then token.tail else token

def split (token : List Char) : Parts :=
  let mantissa := splitOnce isPoint (splitOnce isExponentMark (unsigned token)).1
  ⟨token.head? = some '-', mantissa.1, mantissa.2.getD [], (splitOnce isExponentMark (unsigned token)).2⟩

def readExponent : List Char → Option Int
  | '-' :: digits => if isDigits digits then some (-(value digits : Int)) else none
  | '+' :: digits => if isDigits digits then some (value digits) else none
  | digits => if isDigits digits then some (value digits) else none

namespace Parts

def digits (p : Parts) : List Char := p.whole ++ p.fraction

def power (p : Parts) : Int := (p.exponent.bind readExponent).getD 0

def rational (p : Parts) : ℚ :=
  (if p.negative then -1 else 1) * (value p.digits : ℚ) * 10 ^ (p.power - p.fraction.length)

def spell (p : Parts) : List Char :=
  (if p.negative then ['-'] else []) ++ (p.whole ++ ((if p.fraction = [] then [] else '.' :: p.fraction) ++
    p.exponent.elim [] fun e => 'e' :: e))

/-- Parts of the text of a number. -/
structure Sound (p : Parts) : Prop where
  whole : ∀ c ∈ p.whole, c.isDigit = true
  isWhole : isWhole p.whole = true
  fraction : ∀ c ∈ p.fraction, c.isDigit = true
  exponent : ∀ e, p.exponent = some e → ∃ n, readExponent e = some n

end Parts

def rational (token : List Char) : ℚ := (split token).rational

theorem splitOnce_none {mark : Char → Bool} {s : List Char} (h : ∀ c ∈ s, mark c = false) : splitOnce mark s = (s, none) := by
  have htake : (s.takeWhile fun c => !mark c) = s := List.takeWhile_eq_self_iff.2 fun c hc => by rw [h c hc]; rfl
  have hdrop : (s.dropWhile fun c => !mark c) = [] := List.dropWhile_eq_nil_iff.2 fun c hc => by rw [h c hc]; rfl
  rw [splitOnce, htake, hdrop, if_pos rfl]

theorem splitOnce_some {mark : Char → Bool} {front back : List Char} {c : Char} (h : ∀ c ∈ front, mark c = false)
    (hc : mark c = true) : splitOnce mark (front ++ c :: back) = (front, some back) := by
  have hfront : ∀ d ∈ front, (!mark d) = true := fun d hd => by rw [h d hd]; rfl
  have htake : ((front ++ c :: back).takeWhile fun c => !mark c) = front := by
    rw [List.takeWhile_append_of_pos hfront, List.takeWhile_cons_of_neg (by rw [hc]; decide), List.append_nil]
  have hdrop : ((front ++ c :: back).dropWhile fun c => !mark c) = c :: back := by
    rw [List.dropWhile_append_of_pos hfront, List.dropWhile_cons_of_neg (by rw [hc]; decide)]
  rw [splitOnce, htake, hdrop, if_neg (List.cons_ne_nil _ _), List.tail_cons]

theorem not_mark_of_isDigit {c : Char} (h : c.isDigit = true) : isPoint c = false ∧ isExponentMark c = false ∧ c ≠ '-' := by
  refine ⟨?_, ?_, ?_⟩
  · rw [isPoint, decide_eq_false_iff_not]
    intro heq
    rw [heq] at h
    cases h
  · rw [isExponentMark, Bool.or_eq_false_iff, decide_eq_false_iff_not, decide_eq_false_iff_not]
    refine ⟨fun heq => ?_, fun heq => ?_⟩ <;> (rw [heq] at h; cases h)
  · intro heq
    rw [heq] at h
    cases h

def Parts.unsignedText (p : Parts) : List Char :=
  p.whole ++ ((if p.fraction = [] then [] else '.' :: p.fraction) ++ p.exponent.elim [] fun e => 'e' :: e)

theorem splitOnce_exponent {p : Parts} (hwhole : ∀ c ∈ p.whole, c.isDigit = true) (hfraction : ∀ c ∈ p.fraction, c.isDigit = true) :
    splitOnce isExponentMark p.unsignedText = (p.whole ++ (if p.fraction = [] then [] else '.' :: p.fraction), p.exponent) := by
  have hmantissa : ∀ c ∈ p.whole ++ (if p.fraction = [] then [] else '.' :: p.fraction), isExponentMark c = false := by
    intro c hc
    obtain hc | hc := List.mem_append.1 hc
    · exact (not_mark_of_isDigit (hwhole c hc)).2.1
    · split_ifs at hc
      · exact (List.not_mem_nil hc).elim
      · obtain rfl | hc := List.mem_cons.1 hc
        · rfl
        · exact (not_mark_of_isDigit (hfraction c hc)).2.1
  rw [Parts.unsignedText, ← List.append_assoc]
  cases p.exponent with
  | none =>
      rw [Option.elim_none, List.append_nil]
      exact splitOnce_none hmantissa
  | some e => exact splitOnce_some hmantissa rfl

theorem splitOnce_point {p : Parts} (hwhole : ∀ c ∈ p.whole, c.isDigit = true) :
    splitOnce isPoint (p.whole ++ (if p.fraction = [] then [] else '.' :: p.fraction)) =
      (p.whole, if p.fraction = [] then none else some p.fraction) := by
  have hmarks : ∀ c ∈ p.whole, isPoint c = false := fun c hc => (not_mark_of_isDigit (hwhole c hc)).1
  split_ifs
  · rw [List.append_nil]
    exact splitOnce_none hmarks
  · exact splitOnce_some hmarks rfl

/-- A text put together from parts is cut into them. -/
theorem split_spell {p : Parts} (hwhole : ∀ c ∈ p.whole, c.isDigit = true) (hne : p.whole ≠ [])
    (hfraction : ∀ c ∈ p.fraction, c.isDigit = true) : split p.spell = p := by
  have hunsigned : unsigned p.spell = p.unsignedText ∧ (decide (p.spell.head? = some '-')) = p.negative := by
    obtain ⟨c, rest, hcons⟩ := List.exists_cons_of_ne_nil hne
    have hdigit := (not_mark_of_isDigit (hwhole c (by rw [hcons]; exact List.mem_cons_self ..))).2.2
    have hspell : p.spell = (if p.negative then ['-'] else []) ++ p.unsignedText := rfl
    have hhead : p.unsignedText.head? = some c := by rw [Parts.unsignedText, hcons]; rfl
    cases hnegative : p.negative with
    | false =>
        rw [hspell, hnegative, if_neg Bool.false_ne_true, List.nil_append, unsigned, hhead, if_neg (by simpa using hdigit)]
        exact ⟨rfl, decide_eq_false (by simpa using hdigit)⟩
    | true =>
        rw [hspell, hnegative, if_pos rfl]
        exact ⟨rfl, rfl⟩
  rw [split, hunsigned.1, hunsigned.2, splitOnce_exponent hwhole hfraction, splitOnce_point hwhole]
  have hgetD : (if p.fraction = [] then none else some p.fraction).getD [] = p.fraction := by
    split_ifs with h
    · exact h.symm
    · rfl
  rw [hgetD]

theorem readExponent_of_isExponent {c : Char} {e : List Char} (h : isExponent (c :: e) = true) :
    isExponentMark c = true ∧ ∃ n, readExponent e = some n := by
  unfold isExponent at h
  rw [Bool.and_eq_true] at h
  refine ⟨h.1, ?_⟩
  have hdigits := h.2
  cases e with
  | nil => cases hdigits
  | cons sign digits =>
      simp only at hdigits
      split_ifs at hdigits with hsign
      · rw [Bool.or_eq_true, decide_eq_true_eq, decide_eq_true_eq] at hsign
        obtain rfl | rfl := hsign
        · exact ⟨_, if_pos hdigits⟩
        · exact ⟨_, if_pos hdigits⟩
      · rw [readExponent.eq_def]
        split
        · rename_i heq
          cases heq
          exact absurd rfl hsign
        · rename_i heq
          cases heq
          exact absurd rfl hsign
        · exact ⟨_, if_pos hdigits⟩

/-- The digits of a number, its point and the digits after it, and what is left: an exponent or nothing. -/
theorem exists_parts {u : List Char} (h : isUnsigned u = true) :
    ∃ whole fraction marked, u = whole ++ (if fraction = [] then [] else '.' :: fraction) ++ marked ∧
      (∀ c ∈ whole, c.isDigit = true) ∧ isWhole whole = true ∧ (∀ c ∈ fraction, c.isDigit = true) ∧ isExponent marked = true := by
  rw [isUnsigned, Bool.and_eq_true] at h
  have hdigits : ∀ s : List Char, ∀ c ∈ s.takeWhile Char.isDigit, c.isDigit = true := fun s c hc => List.mem_takeWhile_imp hc
  have hsplit := List.takeWhile_append_dropWhile (p := Char.isDigit) (l := u)
  cases hrest : u.dropWhile Char.isDigit with
  | nil =>
      refine ⟨u.takeWhile Char.isDigit, [], [], ?_, hdigits u, h.1, fun c hc => (List.not_mem_nil hc).elim, rfl⟩
      rw [if_pos rfl, List.append_nil, List.append_nil]
      rw [hrest, List.append_nil] at hsplit
      exact hsplit.symm
  | cons mark rest =>
      have hfraction := h.2
      rw [hrest] at hsplit hfraction
      rw [isFraction] at hfraction
      split_ifs at hfraction with hpoint
      · rw [Bool.and_eq_true, decide_eq_true_eq] at hfraction
        refine ⟨u.takeWhile Char.isDigit, rest.takeWhile Char.isDigit, rest.dropWhile Char.isDigit, ?_, hdigits u, h.1,
          hdigits rest, hfraction.2⟩
        rw [if_neg hfraction.1, List.append_assoc, List.cons_append, List.takeWhile_append_dropWhile, ← hpoint]
        exact hsplit.symm
      · refine ⟨u.takeWhile Char.isDigit, [], mark :: rest, ?_, hdigits u, h.1, fun c hc => (List.not_mem_nil hc).elim, hfraction⟩
        rw [if_pos rfl, List.append_nil]
        exact hsplit.symm

theorem isUnsigned_unsigned {token : List Char} (h : isNumber token = true) : isUnsigned (unsigned token) = true := by
  cases token with
  | nil => cases h
  | cons c rest =>
      rw [isNumber] at h
      rw [unsigned, List.head?_cons, List.tail_cons]
      split_ifs at h with hsign
      · rw [if_pos (congrArg some hsign)]
        exact h
      · rw [if_neg fun heq => hsign (Option.some.inj heq)]
        exact h

/-- The parts of the text of a number. -/
theorem split_sound {token : List Char} (h : isNumber token = true) : (split token).Sound := by
  obtain ⟨whole, fraction, marked, hsplit, hwhole, hisWhole, hfraction, hexponent⟩ := exists_parts (isUnsigned_unsigned h)
  have hmantissa : ∀ c ∈ whole ++ (if fraction = [] then [] else '.' :: fraction), isExponentMark c = false := by
    intro c hc
    obtain hc | hc := List.mem_append.1 hc
    · exact (not_mark_of_isDigit (hwhole c hc)).2.1
    · split_ifs at hc
      · exact (List.not_mem_nil hc).elim
      · obtain rfl | hc := List.mem_cons.1 hc
        · rfl
        · exact (not_mark_of_isDigit (hfraction c hc)).2.1
  have hpoint : splitOnce isPoint (whole ++ (if fraction = [] then [] else '.' :: fraction)) =
      (whole, if fraction = [] then none else some fraction) :=
    splitOnce_point (p := ⟨false, whole, fraction, none⟩) hwhole
  have hgetD : (if fraction = [] then none else some fraction).getD [] = fraction := by
    split_ifs with hnil
    · exact hnil.symm
    · rfl
  cases marked with
  | nil =>
      rw [List.append_nil] at hsplit
      rw [split, hsplit, splitOnce_none hmantissa, hpoint, hgetD]
      exact ⟨hwhole, hisWhole, hfraction, fun e he => nomatch he⟩
  | cons mark e =>
      obtain ⟨hmark, hread⟩ := readExponent_of_isExponent hexponent
      rw [split, hsplit, splitOnce_some hmantissa hmark, hpoint, hgetD]
      refine ⟨hwhole, hisWhole, hfraction, fun e' he' => ?_⟩
      cases he'
      exact hread

theorem parts_of_integer {token : List Char} (hinteger : ∀ c ∈ token, isPoint c = false ∧ isExponentMark c = false) :
    (split token).whole = unsigned token ∧ (split token).fraction = [] ∧ (split token).exponent = none := by
  have hunsigned : ∀ c ∈ unsigned token, isPoint c = false ∧ isExponentMark c = false := by
    intro c hc
    rw [unsigned] at hc
    split_ifs at hc
    · exact hinteger c (List.mem_of_mem_tail hc)
    · exact hinteger c hc
  rw [split, splitOnce_none fun c hc => (hunsigned c hc).2, splitOnce_none fun c hc => (hunsigned c hc).1]
  exact ⟨rfl, rfl, rfl⟩

theorem value_eq_zero {s : List Char} (hdigits : ∀ c ∈ s, c.isDigit = true) (hwhole : isWhole s = true) (h : value s = 0) : s = ['0'] := by
  cases s with
  | nil => cases hwhole
  | cons c rest =>
      by_cases hzero : c = '0'
      · rw [hzero] at hwhole ⊢
        simpa [isWhole] using hwhole
      · have hpow : 10 ^ rest.length ≤ Digits.value (c :: rest) := Digits.pow_le_value (hdigits c (List.mem_cons_self ..)) hzero
        have hpos : 0 < 10 ^ rest.length := Nat.pow_pos (by decide)
        exact absurd h (by omega)

theorem value_inj {a b : List Char} (ha : ∀ c ∈ a, c.isDigit = true) (hwhole : isWhole a = true) (hb : ∀ c ∈ b, c.isDigit = true)
    (hwhole' : isWhole b = true) (h : value a = value b) : a = b := by
  have hinteger : ∀ s : List Char, (∀ c ∈ s, c.isDigit = true) → isWhole s = true → Digits.IsInteger (String.ofList s) := by
    intro s hs hsWhole
    rw [Digits.IsInteger, String.toList_ofList]
    exact ⟨hs, hsWhole⟩
  have hnumber : Digits.number (String.ofList a) = Digits.number (String.ofList b) := by
    rw [Digits.number, Digits.number, String.toList_ofList, String.toList_ofList]
    exact h
  have heq := congrArg String.toList (Digits.number_inj (hinteger a ha hwhole) (hinteger b hb hwhole') hnumber)
  rwa [String.toList_ofList, String.toList_ofList] at heq

/-- The integer a text without a point and without an exponent is of. -/
def integer (token : List Char) : Int := if token.head? = some '-' then -(value token.tail : Int) else value token

/-- The text of an integer is unlike that of any other, but for the zero with a sign. -/
theorem integer_inj {a b : List Char} (ha : isNumber a = true) (hb : isNumber b = true)
    (hinteger : ∀ c ∈ a, isPoint c = false ∧ isExponentMark c = false) (hinteger' : ∀ c ∈ b, isPoint c = false ∧ isExponentMark c = false)
    (hsigned : a ≠ ['-', '0']) (hsigned' : b ≠ ['-', '0']) (h : integer a = integer b) : a = b := by
  obtain ⟨hwhole, _⟩ := parts_of_integer hinteger
  obtain ⟨hwhole', _⟩ := parts_of_integer hinteger'
  have hsound := split_sound ha
  have hsound' := split_sound hb
  have hdigits : ∀ c ∈ unsigned a, c.isDigit = true := hwhole ▸ hsound.whole
  have hdigits' : ∀ c ∈ unsigned b, c.isDigit = true := hwhole' ▸ hsound'.whole
  have hisWhole : isWhole (unsigned a) = true := hwhole ▸ hsound.isWhole
  have hisWhole' : isWhole (unsigned b) = true := hwhole' ▸ hsound'.isWhole
  -- A text with a sign is a minus before digits that are not a zero alone.
  have hnegative : ∀ s : List Char, s.head? = some '-' → s ≠ ['-', '0'] → (∀ c ∈ s.tail, c.isDigit = true) → isWhole s.tail = true →
      s = '-' :: s.tail ∧ 0 < value s.tail := by
    intro s hhead hne hall hsWhole
    cases s with
    | nil => cases hhead
    | cons c rest =>
        have hc : c = '-' := Option.some.inj hhead
        subst hc
        refine ⟨rfl, Nat.pos_of_ne_zero fun hzero => hne ?_⟩
        rw [List.tail_cons] at hzero hall hsWhole
        rw [value_eq_zero hall hsWhole hzero]
  rw [integer, integer] at h
  rw [unsigned] at hdigits hdigits' hisWhole hisWhole'
  by_cases hsign : a.head? = some '-'
  · rw [if_pos hsign] at hdigits hisWhole h
    obtain ⟨heq, hpos⟩ := hnegative a hsign hsigned hdigits hisWhole
    by_cases hsign' : b.head? = some '-'
    · rw [if_pos hsign'] at hdigits' hisWhole' h
      obtain ⟨heq', _⟩ := hnegative b hsign' hsigned' hdigits' hisWhole'
      rw [heq, heq', value_inj hdigits hisWhole hdigits' hisWhole' (by omega)]
    · rw [if_neg hsign'] at h
      omega
  · rw [if_neg hsign] at hdigits hisWhole h
    by_cases hsign' : b.head? = some '-'
    · rw [if_pos hsign'] at hdigits' hisWhole' h
      obtain ⟨_, hpos⟩ := hnegative b hsign' hsigned' hdigits' hisWhole'
      omega
    · rw [if_neg hsign'] at hdigits' hisWhole' h
      exact value_inj hdigits hisWhole hdigits' hisWhole' (by omega)

theorem value_append (a b : List Char) : value (a ++ b) = value a * 10 ^ b.length + value b := by
  induction a with
  | nil => simp [value]
  | cons c rest ih =>
      rw [List.cons_append, value, value, ih, List.length_append, Nat.pow_add]
      ring

theorem ofDigitChars_eq (s : List Char) (start : Nat) : Nat.ofDigitChars 10 s start = start * 10 ^ s.length + value s := by
  induction s generalizing start with
  | nil => simp [Nat.ofDigitChars, value]
  | cons c rest ih =>
      have hstep : Nat.ofDigitChars 10 (c :: rest) start = Nat.ofDigitChars 10 rest (10 * start + digit c) := rfl
      rw [hstep, ih, value, List.length_cons, Nat.pow_succ]
      ring

theorem value_toDigits (n : Nat) : value (Nat.toDigits 10 n) = n := by
  have h := ofDigitChars_eq (Nat.toDigits 10 n) 0
  rw [Nat.ofDigitChars_ten_toDigits] at h
  omega

theorem toList_toString (n : Int) : (toString n).toList = PythonJson.intText n := by
  rw [PythonJson.intText]
  cases n with
  | ofNat m =>
      have htext : toString (Int.ofNat m) = Nat.repr m := rfl
      rw [htext, if_neg (by simp), Nat.repr, String.toList_ofList, Int.ofNat_eq_natCast, Int.natAbs_natCast]
  | negSucc m =>
      have htext : toString (Int.negSucc m) = "-" ++ Nat.repr (m + 1) := rfl
      rw [htext, if_pos (Int.negSucc_lt_zero m), String.toList_append, Nat.repr, Int.natAbs_negSucc]
      simp only [String.toList_ofList]
      rfl

/-- The text of an integer is the text of a number without a point, without an exponent and without a sign before a zero. -/
theorem integer_intText (n : Int) :
    integer (PythonJson.intText n) = n ∧ PythonJson.intText n ≠ ['-', '0'] ∧
      ∀ c ∈ PythonJson.intText n, isPoint c = false ∧ isExponentMark c = false := by
  have hmarks : ∀ c ∈ Nat.toDigits 10 n.natAbs, isPoint c = false ∧ isExponentMark c = false := by
    intro c hc
    have hmark := not_mark_of_isDigit (Nat.isDigit_of_mem_toDigits (by decide) (by decide) hc)
    exact ⟨hmark.1, hmark.2.1⟩
  rw [PythonJson.intText]
  split_ifs with hnegative
  · refine ⟨?_, fun heq => ?_, fun c hc => ?_⟩
    · rw [integer, List.head?_cons, if_pos rfl, List.tail_cons, value_toDigits]
      omega
    · have hvalue := value_toDigits n.natAbs
      rw [(List.cons.inj heq).2] at hvalue
      have hzero : value ['0'] = 0 := rfl
      omega
    · obtain rfl | hc := List.mem_cons.1 hc
      · exact ⟨rfl, rfl⟩
      · exact hmarks c hc
  · have hhead : (Nat.toDigits 10 n.natAbs).head? ≠ some '-' := by
      intro heq
      exact (not_mark_of_isDigit (Nat.isDigit_of_mem_toDigits (by decide) (by decide) (List.mem_of_mem_head? heq))).2.2 rfl
    refine ⟨?_, fun heq => hhead (by rw [heq]; rfl), hmarks⟩
    rw [integer, if_neg hhead, value_toDigits]
    omega

end Decimals
