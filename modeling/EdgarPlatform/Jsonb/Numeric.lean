import EdgarPlatform.Library.Numerals

/-!
# Numbers as PostgreSQL writes them

The text of a stored number is written out: no exponent, as many digits after the point as the number was written with less its exponent, and before the point no zero it could do without. Its digits are those of the number, moved across the point, so that its rational is the number's.
-/

namespace EdgarPlatform.Jsonb

open JsonText Decimals
open Digits (value)

def exponentRange : Int := 1073741823

def parseExponent (e : List Char) : Except String Int :=
  match readExponent e with
  | some n => if -2 ^ 63 ≤ n ∧ n < 2 ^ 63 then .ok n else .error "Numeric exponent out of range"
  | none => .error "Numeric exponent out of range"

def significant (digits : List Char) : Option Nat := digits.findIdx? fun c => !isZero c

/-- The digits before the point, once the point is moved to a place in them. -/
def integerDigits (digits : List Char) (point : Int) : List Char :=
  if significant digits = none ∨ point ≤ 0 then ['0']
  else
    let kept :=
      if digits.length ≤ point then (digits ++ List.replicate (point.toNat - digits.length) '0').dropWhile isZero
      else (digits.take point.toNat).dropWhile isZero
    if kept = [] then ['0'] else kept

def fractionDigits (digits : List Char) (point scale : Int) : List Char :=
  if significant digits = none then List.replicate scale.toNat '0'
  else if point ≤ 0 then List.replicate (-point).toNat '0' ++ digits
  else digits.drop point.toNat

/-- A zero keeps its digits after the point and neither its sign nor zeros an exponent would stand for. -/
def numeric (token : List Char) : Except String (List Char) := do
  let mantissa := (splitOnce isExponentMark (unsigned token)).1
  let exponent ← (splitOnce isExponentMark (unsigned token)).2.elim (.ok 0) parseExponent
  let whole := (splitOnce isPoint mantissa).1
  let fraction := (splitOnce isPoint mantissa).2.getD []
  if ¬ (-exponentRange ≤ exponent ∧ exponent ≤ exponentRange) then .error "PostgreSQL numeric exponent out of range"
  else do
    let digits := whole ++ fraction
    let scale : Int := max (fraction.length - exponent) 0
    if 16383 < scale then .error "PostgreSQL numeric scale out of range"
    else do
      let point : Int := whole.length + exponent
      let weight : Int := (significant digits).elim 0 fun i => point - i
      if 131072 < weight then .error "PostgreSQL numeric weight out of range"
      else do
        let written := integerDigits digits point ++ if 0 < scale then '.' :: fractionDigits digits point scale else []
        .ok (if token.head? = some '-' ∧ (significant digits).isSome then '-' :: written else written)

variable {digits : List Char}

theorem significant_eq_none : significant digits = none ↔ ∀ c ∈ digits, isZero c = true := by
  rw [significant, List.findIdx?_eq_none_iff]
  exact forall₂_congr fun c _ => by cases isZero c <;> simp

theorem value_of_significant_none (h : significant digits = none) : value digits = 0 :=
  value_zeros (significant_eq_none.1 h)

theorem value_pos_of_significant (hdigits : ∀ c ∈ digits, c.isDigit = true)
    (h : significant digits ≠ none) : 0 < value digits := by
  have hrest : digits.dropWhile isZero ≠ [] := fun hnil => h (significant_eq_none.2 (List.dropWhile_eq_nil_iff.1 hnil))
  obtain ⟨c, rest, hcons⟩ := List.exists_cons_of_ne_nil hrest
  have hhead := List.head?_dropWhile_not isZero digits
  rw [hcons] at hhead
  have hc : c ≠ '0' := by simpa [isZero] using hhead
  have hdigit : c.isDigit = true := hdigits c ((List.dropWhile_sublist _).subset (hcons ▸ List.mem_cons_self ..))
  have hle : 10 ^ rest.length ≤ value (c :: rest) := Digits.pow_le_value hdigit hc
  rw [← value_dropZeros, hcons]
  exact lt_of_lt_of_le (Nat.pow_pos (by decide)) hle

theorem significant_eq_some {i : Nat} :
    significant digits = some i ↔ ∃ c rest, digits = List.replicate i '0' ++ c :: rest ∧ c ≠ '0' := by
  constructor
  · intro h
    obtain ⟨hlt, hc, hfront⟩ := List.findIdx?_eq_some_iff_getElem.1 h
    refine ⟨digits[i], digits.drop (i + 1), ?_, by simpa [isZero] using hc⟩
    have htake : digits.take i = List.replicate i '0' := by
      refine List.eq_replicate_iff.2 ⟨List.length_take_of_le hlt.le, fun c hmem => ?_⟩
      obtain ⟨j, hj, rfl⟩ := List.mem_take_iff_getElem.1 hmem
      have hzero := hfront j (by omega)
      simpa [isZero] using hzero
    rw [← htake, ← List.drop_eq_getElem_cons hlt, List.take_append_drop]
  · rintro ⟨c, rest, rfl, hc⟩
    rw [significant, List.findIdx?_append]
    have hnone : (List.replicate i '0').findIdx? (fun c => !isZero c) = none :=
      List.findIdx?_eq_none_iff.2 fun d hd => by rw [List.eq_of_mem_replicate hd]; rfl
    have hsome : (c :: rest).findIdx? (fun c => !isZero c) = some 0 := by
      rw [List.findIdx?_cons, if_pos (by simpa [isZero] using hc)]
    rw [hnone, hsome, List.length_replicate]
    simp

theorem dropZeros_replicate {i : Nat} {c : Char} {rest : List Char} (hc : c ≠ '0') :
    (List.replicate i '0' ++ c :: rest).dropWhile isZero = c :: rest := by
  rw [List.dropWhile_append_of_pos fun d hd => by rw [List.eq_of_mem_replicate hd]; rfl]
  exact List.dropWhile_cons_of_neg (by simpa [isZero] using hc)

theorem isWhole_cons {c : Char} {rest : List Char} (hc : c ≠ '0') : isWhole (c :: rest) = true := by
  simp [isWhole, hc]

/-- What the digits are once the point is moved: how many are after it, what they count, and how many are before it. -/
structure Moved (digits integer fraction : List Char) (point scale : Int) : Prop where
  integerDigit : ∀ c ∈ integer, c.isDigit = true
  wellFormed : isWhole integer = true
  fractionDigit : ∀ c ∈ fraction, c.isDigit = true
  length : (fraction.length : Int) = scale
  counts : (value (integer ++ fraction) : ℚ) = value digits * 10 ^ (point - digits.length + scale)
  zero : significant (integer ++ fraction) = none ↔ significant digits = none
  weight : integer = ['0'] ∨ ∃ i, significant digits = some i ∧ (integer.length : Int) = point - i

theorem isDigit_zero : ∀ c ∈ ['0'], c.isDigit = true := by
  intro c hc
  rw [List.mem_singleton.1 hc]
  rfl

variable {point scale : Int}

theorem moved_of_zero (hscale : 0 ≤ scale) (h : significant digits = none) :
    Moved digits ['0'] (List.replicate scale.toNat '0') point scale := by
  have hall : ∀ c ∈ ['0'] ++ List.replicate scale.toNat '0', isZero c = true := by
    intro c hc
    rcases List.mem_append.1 hc with hc | hc
    · rw [List.mem_singleton.1 hc]
      rfl
    · rw [List.eq_of_mem_replicate hc]
      rfl
  refine ⟨isDigit_zero, by decide, fun c hc => ?_, ?_, ?_, ?_, .inl rfl⟩
  · rw [List.eq_of_mem_replicate hc]
    rfl
  · rw [List.length_replicate]
    omega
  · rw [value_zeros hall, value_of_significant_none h]
    simp
  · exact iff_of_true (significant_eq_none.2 hall) h

theorem significant_ne_none_of_mem {c : Char} (h : c ∈ digits) (hc : c ≠ '0') : significant digits ≠ none :=
  fun hnone => hc (of_decide_eq_true (significant_eq_none.1 hnone c h))

theorem moved_before (hdigits : ∀ c ∈ digits, c.isDigit = true) {i : Nat}
    (h : significant digits = some i) (hpoint : point ≤ 0) (hscale : scale = digits.length - point) :
    Moved digits ['0'] (List.replicate (-point).toNat '0' ++ digits) point scale := by
  obtain ⟨c, rest, hsplit, hc⟩ := significant_eq_some.1 h
  have hmem : c ∈ digits := by rw [hsplit]; simp
  have hvalue : value (['0'] ++ (List.replicate (-point).toNat '0' ++ digits)) = value digits := by
    rw [value_append, value_append, value_replicate_zero]
    simp [value, Digits.digit]
  refine ⟨isDigit_zero, by decide, fun d hd => ?_, ?_, ?_, ?_, .inl rfl⟩
  · rcases List.mem_append.1 hd with hd | hd
    · rw [List.eq_of_mem_replicate hd]
      rfl
    · exact hdigits d hd
  · rw [List.length_append, List.length_replicate]
    omega
  · have hpower : point - digits.length + scale = 0 := by omega
    rw [hvalue, hpower, zpow_zero, mul_one]
  · refine iff_of_false (significant_ne_none_of_mem ?_ hc) (by rw [h]; exact Option.some_ne_none i)
    exact List.mem_append_right _ (List.mem_append_right _ hmem)

theorem moved_after (hdigits : ∀ c ∈ digits, c.isDigit = true) {i : Nat}
    (h : significant digits = some i) (hpoint : (digits.length : Int) ≤ point) (hscale : scale = 0) :
    Moved digits ((digits ++ List.replicate (point.toNat - digits.length) '0').dropWhile isZero) [] point scale := by
  obtain ⟨c, rest, hsplit, hc⟩ := significant_eq_some.1 h
  have hlength : digits.length = i + (rest.length + 1) := by rw [hsplit]; simp
  have hkept : (digits ++ List.replicate (point.toNat - digits.length) '0').dropWhile isZero =
      c :: (rest ++ List.replicate (point.toNat - digits.length) '0') := by
    conv_lhs => rw [hsplit, List.append_assoc, List.cons_append]
    rw [dropZeros_replicate hc, hlength]
    simp
  have hmem : ∀ d ∈ digits ++ List.replicate (point.toNat - digits.length) '0', d.isDigit = true := by
    intro d hd
    rcases List.mem_append.1 hd with hd | hd
    · exact hdigits d hd
    · rw [List.eq_of_mem_replicate hd]
      rfl
  refine ⟨fun d hd => hmem d ((List.dropWhile_sublist _).subset hd), ?_, fun d hd => absurd hd List.not_mem_nil, ?_, ?_, ?_,
    .inr ⟨i, h, ?_⟩⟩
  · rw [hkept]
    exact isWhole_cons hc
  · rw [hscale]
    rfl
  · have hpower : point - digits.length + scale = ((point.toNat - digits.length : Nat) : Int) := by omega
    rw [List.append_nil, value_dropZeros, value_append, value_replicate_zero, List.length_replicate, hpower, zpow_natCast]
    push_cast
    ring
  · refine iff_of_false (significant_ne_none_of_mem ?_ hc) (by rw [h]; exact Option.some_ne_none i)
    rw [hkept]
    exact List.mem_append_left _ (List.mem_cons_self ..)
  · rw [hkept, List.length_cons, List.length_append, List.length_replicate]
    omega

theorem moved_within (hdigits : ∀ c ∈ digits, c.isDigit = true) {i : Nat}
    (h : significant digits = some i) (hpos : 0 < point) (hpoint : point < digits.length) (hscale : scale = digits.length - point) :
    Moved digits (if (digits.take point.toNat).dropWhile isZero = [] then ['0'] else (digits.take point.toNat).dropWhile isZero)
      (digits.drop point.toNat) point scale := by
  obtain ⟨c, rest, hsplit, hc⟩ := significant_eq_some.1 h
  have hmem : c ∈ digits := by rw [hsplit]; simp
  generalize hkept : (digits.take point.toNat).dropWhile isZero = kept
  have hkeptMem : ∀ d ∈ kept, d.isDigit = true :=
    fun d hd => hdigits d (List.mem_of_mem_take ((List.dropWhile_sublist _).subset (hkept ▸ hd)))
  have hlength : ((digits.drop point.toNat).length : Int) = scale := by
    rw [List.length_drop]
    omega
  have hvalue : ∀ integer : List Char, value integer = value kept →
      (value (integer ++ digits.drop point.toNat) : ℚ) = value digits * 10 ^ (point - digits.length + scale) := by
    intro integer hinteger
    have hpower : point - digits.length + scale = 0 := by omega
    have hwhole := value_append (digits.take point.toNat) (digits.drop point.toNat)
    rw [List.take_append_drop] at hwhole
    rw [hpower, zpow_zero, mul_one, value_append, hinteger, ← hkept, value_dropZeros, ← hwhole]
  have hzero : ∀ integer : List Char, value integer = value kept → (∀ d ∈ integer, d.isDigit = true) →
      (significant (integer ++ digits.drop point.toNat) = none ↔ significant digits = none) := by
    intro integer hinteger hall
    refine iff_of_false (fun hnone => ?_) (by rw [h]; exact Option.some_ne_none i)
    have hcount := hvalue integer hinteger
    have hpower : point - digits.length + scale = 0 := by omega
    rw [value_of_significant_none hnone, hpower, zpow_zero, mul_one] at hcount
    have hpositive := value_pos_of_significant hdigits (by rw [h]; exact Option.some_ne_none i)
    have heq : value digits = 0 := by exact_mod_cast hcount.symm
    omega
  split_ifs with hnil
  · have hinteger : value ['0'] = value kept := by rw [hnil]; rfl
    exact ⟨isDigit_zero, by decide, fun d hd => hdigits d (List.mem_of_mem_drop hd), hlength, hvalue _ hinteger,
      hzero _ hinteger isDigit_zero, .inl rfl⟩
  · have hi : i < point.toNat := by
      by_contra hle
      refine hnil ?_
      rw [← hkept, List.dropWhile_eq_nil_iff]
      intro d hd
      rw [hsplit, List.take_append_of_le_length (by rw [List.length_replicate]; omega)] at hd
      rw [List.eq_of_mem_replicate (List.mem_of_mem_take hd)]
      rfl
    have hform : kept = c :: rest.take (point.toNat - i - 1) := by
      obtain ⟨m, hm⟩ : ∃ m, point.toNat - i = m + 1 := ⟨point.toNat - i - 1, by omega⟩
      rw [← hkept, hsplit, List.take_append, List.length_replicate, hm, List.take_succ_cons, List.take_of_length_le
        (by rw [List.length_replicate]; omega), dropZeros_replicate hc, Nat.add_sub_cancel]
    have hdigitsLength : digits.length = i + (rest.length + 1) := by rw [hsplit]; simp
    refine ⟨hkeptMem, ?_, fun d hd => hdigits d (List.mem_of_mem_drop hd), hlength, hvalue kept rfl, hzero kept rfl hkeptMem,
      .inr ⟨i, h, ?_⟩⟩
    · rw [hform]
      exact isWhole_cons hc
    · rw [hform, List.length_cons, List.length_take]
      omega

theorem moved {digits : List Char} (hdigits : ∀ c ∈ digits, c.isDigit = true) (point : Int) {scale : Int}
    (hscale : scale = max (digits.length - point) 0) :
    Moved digits (integerDigits digits point) (if 0 < scale then fractionDigits digits point scale else []) point scale := by
  cases hfirst : significant digits with
  | none =>
      have hinteger : integerDigits digits point = ['0'] := if_pos (.inl hfirst)
      have hfraction : (if 0 < scale then fractionDigits digits point scale else []) = List.replicate scale.toNat '0' := by
        split_ifs with hpos
        · exact if_pos hfirst
        · have hzero : scale.toNat = 0 := by omega
          rw [hzero]
          rfl
      rw [hinteger, hfraction]
      exact moved_of_zero (by omega) hfirst
  | some i =>
      have hsome : significant digits ≠ none := by rw [hfirst]; exact Option.some_ne_none i
      obtain ⟨c, rest, hsplit, hc⟩ := significant_eq_some.1 hfirst
      have hlength : 0 < digits.length := by rw [hsplit]; simp
      rcases Int.lt_or_le 0 point with hpos | hle
      · have hnot : ¬ (significant digits = none ∨ point ≤ 0) := by
          rintro (hnone | hle)
          · exact hsome hnone
          · omega
        rw [integerDigits, if_neg hnot]
        rcases Int.lt_or_le point digits.length with hlt | hge
        · rw [if_pos (show 0 < scale by omega), if_neg (show ¬ (digits.length : Int) ≤ point by omega), fractionDigits,
            if_neg hsome, if_neg (show ¬ point ≤ 0 by omega)]
          exact moved_within hdigits hfirst hpos hlt (by omega)
        · have hscale : scale = 0 := by omega
          have hafter := moved_after hdigits hfirst hge hscale
          have hne : (digits ++ List.replicate (point.toNat - digits.length) '0').dropWhile isZero ≠ [] := by
            intro hnil
            have hwhole := hafter.wellFormed
            rw [hnil] at hwhole
            cases hwhole
          rw [if_neg (show ¬ 0 < scale by omega), if_pos hge, if_neg hne]
          exact hafter
      · rw [integerDigits, if_pos (.inr hle), if_pos (show 0 < scale by omega), fractionDigits, if_neg hsome, if_pos hle]
        exact moved_before hdigits hfirst hle (by omega)

variable {token : List Char}

theorem numeric_parts (h : isNumber token = true) :
    (splitOnce isExponentMark (unsigned token)).2.elim (.ok 0) parseExponent =
      (if (split token).exponent = none then .ok 0
        else if -2 ^ 63 ≤ (split token).power ∧ (split token).power < 2 ^ 63 then .ok (split token).power
        else .error "Numeric exponent out of range") := by
  have hexponent : (split token).exponent = (splitOnce isExponentMark (unsigned token)).2 := rfl
  rw [Parts.power, ← hexponent]
  cases he : (split token).exponent with
  | none => rfl
  | some e =>
      obtain ⟨n, hn⟩ := (split_sound h).exponent e he
      rw [Option.elim_some, parseExponent, hn, if_neg (by simp), Option.bind_some, hn]
      rfl

def scaleOf (token : List Char) : Int := max ((split token).fraction.length - (split token).power) 0

def pointOf (token : List Char) : Int := (split token).whole.length + (split token).power

/-- How many digits a number has before the point, no more than zero for one that begins after it. -/
def weightOf (token : List Char) : Int := (significant (split token).digits).elim 0 fun i => pointOf token - i

/-- The numbers that are accepted. -/
structure InRange (token : List Char) : Prop where
  exponent : -exponentRange ≤ (split token).power ∧ (split token).power ≤ exponentRange
  scale : scaleOf token ≤ 16383
  weight : weightOf token ≤ 131072

def writtenParts (token : List Char) : Parts where
  negative := token.head? = some '-' ∧ (significant (split token).digits).isSome
  whole := integerDigits (split token).digits (pointOf token)
  fraction := if 0 < scaleOf token then fractionDigits (split token).digits (pointOf token) (scaleOf token) else []
  exponent := none

theorem digits_split (h : isNumber token = true) : ∀ c ∈ (split token).digits, c.isDigit = true := by
  have hsound := split_sound h
  intro c hc
  rcases List.mem_append.1 hc with hc | hc
  · exact hsound.whole c hc
  · exact hsound.fraction c hc

theorem moved_written (h : isNumber token = true) :
    Moved (split token).digits (writtenParts token).whole (writtenParts token).fraction (pointOf token) (scaleOf token) := by
  refine moved (digits_split h) (pointOf token) ?_
  rw [scaleOf, pointOf, Parts.digits, List.length_append]
  push_cast
  congr 1
  ring

theorem numeric_eq_ok (h : isNumber token = true) {t : List Char} :
    numeric token = .ok t ↔ InRange token ∧ t = (writtenParts token).spell := by
  have hspell : (writtenParts token).spell =
      if token.head? = some '-' ∧ (significant (split token).digits).isSome then
        '-' :: (integerDigits (split token).digits (pointOf token) ++
          if 0 < scaleOf token then '.' :: fractionDigits (split token).digits (pointOf token) (scaleOf token) else [])
      else integerDigits (split token).digits (pointOf token) ++
        if 0 < scaleOf token then '.' :: fractionDigits (split token).digits (pointOf token) (scaleOf token) else [] := by
    have hfraction : (if (writtenParts token).fraction = [] then [] else '.' :: (writtenParts token).fraction) =
        if 0 < scaleOf token then '.' :: fractionDigits (split token).digits (pointOf token) (scaleOf token) else [] := by
      have hlength := (moved_written h).length
      by_cases hpos : 0 < scaleOf token
      · rw [if_pos hpos, if_neg fun hnil => ?_, writtenParts, if_pos hpos]
        rw [hnil, List.length_nil] at hlength
        omega
      · have hnil : (writtenParts token).fraction = [] := if_neg hpos
        rw [hnil, if_pos rfl, if_neg hpos]
    rw [Parts.spell, hfraction]
    simp only [writtenParts, decide_eq_true_eq, Option.elim_none, List.append_nil]
    split_ifs <;> rfl
  have hread := numeric_parts h
  have hwhole : (splitOnce isPoint (splitOnce isExponentMark (unsigned token)).1).1 = (split token).whole := rfl
  have hfraction : (splitOnce isPoint (splitOnce isExponentMark (unsigned token)).1).2.getD [] = (split token).fraction := rfl
  have hdigits : (split token).whole ++ (split token).fraction = (split token).digits := rfl
  rw [numeric, Except.bind_eq_ok]
  simp only [hwhole, hfraction, hdigits, hread]
  constructor
  · rintro ⟨exponent, hexponent, hok⟩
    have hpower : exponent = (split token).power := by
      split_ifs at hexponent with hnone
      · rw [← Except.ok.inj hexponent, Parts.power, hnone]
        rfl
      · exact (Except.ok.inj hexponent).symm
    subst hpower
    simp only [Except.ite_error_eq_ok, not_not, not_lt] at hok
    obtain ⟨hrange, hscale, hweight, hok⟩ := hok
    exact ⟨⟨hrange, hscale, hweight⟩, by rw [hspell]; exact (Except.ok.inj hok).symm⟩
  · rintro ⟨hrange, rfl⟩
    refine ⟨(split token).power, ?_, ?_⟩
    · split_ifs with hnone hbits
      · rw [Parts.power, hnone]
        rfl
      · rfl
      · have hexponent := hrange.exponent
        rw [exponentRange] at hexponent
        exact absurd ⟨by omega, by omega⟩ hbits
    · simp only [Except.ite_error_eq_ok, not_not, not_lt]
      exact ⟨hrange.exponent, hrange.scale, hrange.weight, by rw [hspell]; rfl⟩

theorem split_written (h : isNumber token = true) : split (writtenParts token).spell = writtenParts token := by
  have hmoved := moved_written h
  refine split_spell hmoved.integerDigit (fun hnil => ?_) hmoved.fractionDigit
  have hwhole := hmoved.wellFormed
  rw [hnil] at hwhole
  cases hwhole

theorem isNumber_written (h : isNumber token = true) : isNumber (writtenParts token).spell = true := by
  have hmoved := moved_written h
  exact isNumber_spell hmoved.integerDigit hmoved.wellFormed hmoved.fractionDigit fun _ he => (nomatch he)

theorem rational_written (h : isNumber token = true) :
    rational (writtenParts token).spell = rational token := by
  have hmoved := moved_written h
  have hdigits : (writtenParts token).digits = (writtenParts token).whole ++ (writtenParts token).fraction := rfl
  have hpower : (writtenParts token).power = 0 := rfl
  have hplace : pointOf token - (split token).digits.length = (split token).power - (split token).fraction.length := by
    rw [pointOf, Parts.digits, List.length_append]
    push_cast
    ring
  have hlength : (0 : Int) - (writtenParts token).fraction.length = -scaleOf token := by rw [hmoved.length, zero_sub]
  have hten : (10 : ℚ) ≠ 0 := by decide
  have hvalue : (value (writtenParts token).digits : ℚ) * 10 ^ ((0 : Int) - (writtenParts token).fraction.length) =
      value (split token).digits * 10 ^ ((split token).power - (split token).fraction.length) := by
    rw [hdigits, hmoved.counts, hlength, hplace, mul_assoc, ← zpow_add₀ hten]
    congr 2
    ring
  rw [rational, split_written h, Parts.rational, rational, Parts.rational, hpower, mul_assoc, mul_assoc, hvalue]
  by_cases hzero : significant (split token).digits = none
  · rw [value_of_significant_none hzero]
    simp
  · have hnegative : (writtenParts token).negative = (split token).negative := by
      have hsome : (significant (split token).digits).isSome = true := Option.isSome_iff_ne_none.2 hzero
      simp only [writtenParts, hsome, and_true]
      rfl
    rw [hnegative]

theorem zeros_of_isWhole {whole : List Char} (h : isWhole whole = true) (hzeros : ∀ c ∈ whole, isZero c = true) : whole = ['0'] := by
  cases whole with
  | nil => cases h
  | cons c rest =>
      have hc : c = '0' := of_decide_eq_true (hzeros c (List.mem_cons_self ..))
      rw [hc] at h ⊢
      simpa [isWhole] using h

theorem integerDigits_self {whole fraction : List Char} (h : isWhole whole = true) :
    integerDigits (whole ++ fraction) whole.length = whole := by
  have hpos : 0 < whole.length := by
    cases whole with
    | nil => cases h
    | cons c rest => exact Nat.succ_pos _
  have hdrop : whole = ['0'] ∨ whole.dropWhile isZero = whole := by
    cases whole with
    | nil => cases h
    | cons c rest =>
        by_cases hc : c = '0'
        · left
          rw [hc] at h ⊢
          simpa [isWhole] using h
        · exact .inr (List.dropWhile_cons_of_neg (by simpa [isZero] using hc))
  rw [integerDigits]
  by_cases hnone : significant (whole ++ fraction) = none
  · rw [if_pos (.inl hnone)]
    exact (zeros_of_isWhole h fun c hc => significant_eq_none.1 hnone c (List.mem_append_left _ hc)).symm
  · have hnot : ¬ (significant (whole ++ fraction) = none ∨ ((whole.length : Nat) : Int) ≤ 0) := by
      rintro (hzero | hle)
      · exact hnone hzero
      · omega
    rw [if_neg hnot]
    have hkept : (if (((whole ++ fraction).length : Nat) : Int) ≤ ((whole.length : Nat) : Int) then
          ((whole ++ fraction) ++ List.replicate (((whole.length : Nat) : Int).toNat - (whole ++ fraction).length) '0').dropWhile isZero
        else ((whole ++ fraction).take ((whole.length : Nat) : Int).toNat).dropWhile isZero) = whole.dropWhile isZero := by
      split_ifs with hall
      · have hfraction : fraction = [] := by
          rw [List.length_append] at hall
          exact List.length_eq_zero_iff.1 (by omega)
        have hcount : ((whole.length : Nat) : Int).toNat - (whole ++ fraction).length = 0 := by
          rw [List.length_append]
          omega
        rw [hcount, hfraction, List.append_nil, List.replicate_zero, List.append_nil]
      · rw [Int.toNat_natCast, List.take_left]
    simp only [hkept]
    rcases hdrop with rfl | hdrop
    · rfl
    · rw [hdrop]
      refine if_neg fun hnil => ?_
      rw [hnil] at hpos
      exact absurd hpos (by decide)

theorem fractionDigits_self {whole fraction : List Char} (h : isWhole whole = true) :
    (if (0 : Int) < fraction.length then fractionDigits (whole ++ fraction) whole.length fraction.length else []) = fraction := by
  have hpos : 0 < whole.length := by
    cases whole with
    | nil => cases h
    | cons c rest => exact Nat.succ_pos _
  split_ifs with hlength
  · rw [fractionDigits]
    split_ifs with hnone hle
    · rw [Int.toNat_natCast]
      exact (List.eq_replicate_of_mem fun c hc =>
        of_decide_eq_true (significant_eq_none.1 hnone c (List.mem_append_right _ hc))).symm
    · omega
    · rw [Int.toNat_natCast, List.drop_left]
  · exact (List.length_eq_zero_iff.1 (by omega)).symm

theorem numeric_written (h : isNumber token = true) (hrange : InRange token) :
    numeric (writtenParts token).spell = .ok (writtenParts token).spell := by
  have hmoved := moved_written h
  have hsplit := split_written h
  have hpower : (split (writtenParts token).spell).power = 0 := by rw [hsplit]; rfl
  have hdigits : (split (writtenParts token).spell).digits = (writtenParts token).whole ++ (writtenParts token).fraction := by
    rw [hsplit]
    rfl
  have hscale : scaleOf (writtenParts token).spell = (writtenParts token).fraction.length := by
    rw [scaleOf, hpower, hsplit]
    omega
  have hpoint : pointOf (writtenParts token).spell = (writtenParts token).whole.length := by
    rw [pointOf, hpower, hsplit, add_zero]
  refine (numeric_eq_ok (isNumber_written h)).2 ⟨⟨?_, ?_, ?_⟩, ?_⟩
  · rw [hpower, exponentRange]
    omega
  · rw [hscale, hmoved.length]
    exact hrange.scale
  · have hweight := hrange.weight
    rw [weightOf, hdigits, hpoint]
    cases hfirst : significant ((writtenParts token).whole ++ (writtenParts token).fraction) with
    | none => exact show (0 : Int) ≤ 131072 by decide
    | some i =>
        rw [Option.elim_some]
        rcases hmoved.weight with hwhole | ⟨j, hj, hlength⟩
        · rw [hwhole]
          show (1 : Int) - i ≤ 131072
          omega
        · rw [weightOf, hj, Option.elim_some] at hweight
          omega
  · have hparts : writtenParts (writtenParts token).spell = writtenParts token := by
      have hwhole : integerDigits ((writtenParts token).whole ++ (writtenParts token).fraction) (writtenParts token).whole.length =
          (writtenParts token).whole := integerDigits_self hmoved.wellFormed
      have hfraction : (if (0 : Int) < (writtenParts token).fraction.length then
          fractionDigits ((writtenParts token).whole ++ (writtenParts token).fraction) (writtenParts token).whole.length
            (writtenParts token).fraction.length else []) = (writtenParts token).fraction := fractionDigits_self hmoved.wellFormed
      have hnegative : (decide ((writtenParts token).spell.head? = some '-' ∧
          (significant ((writtenParts token).whole ++ (writtenParts token).fraction)).isSome)) = (writtenParts token).negative := by
        have hhead : decide ((writtenParts token).spell.head? = some '-') = (writtenParts token).negative := congrArg Parts.negative hsplit
        have hsame : (significant ((writtenParts token).whole ++ (writtenParts token).fraction)).isSome =
            (significant (split token).digits).isSome := by
          rw [Bool.eq_iff_iff, Option.isSome_iff_ne_none, Option.isSome_iff_ne_none, not_iff_not]
          exact hmoved.zero
        rw [Bool.decide_and, hhead, hsame, Bool.decide_coe, writtenParts, Bool.decide_and, Bool.decide_coe, Bool.and_assoc,
          Bool.and_self]
      rw [writtenParts.eq_def (writtenParts token).spell, hdigits, hscale, hpoint, hwhole, hfraction, hnegative]
      rfl
    rw [hparts]

/-- A number that is accepted is written as its rational, with as many digits after the point as it has less its exponent, in one way. -/
theorem numeric_keeps_the_value {token t : List Char} (h : isNumber token = true) (hok : numeric token = .ok t) :
    isNumber t = true ∧ rational t = rational token ∧
      ((split t).fraction.length : Int) = max ((split token).fraction.length - (split token).power) 0 ∧
      (split t).exponent = none ∧ isWhole (split t).whole = true ∧ ((split t).negative = true → rational t ≠ 0) ∧
      numeric t = .ok t := by
  obtain ⟨hrange, rfl⟩ := (numeric_eq_ok h).1 hok
  have hmoved := moved_written h
  have hsplit := split_written h
  refine ⟨isNumber_written h, rational_written h, ?_, ?_, ?_, fun hnegative => ?_, numeric_written h hrange⟩
  · rw [hsplit]
    exact hmoved.length
  · rw [hsplit]
    rfl
  · rw [hsplit]
    exact hmoved.wellFormed
  · rw [hsplit] at hnegative
    obtain ⟨_, hsome⟩ := of_decide_eq_true hnegative
    have hpos := value_pos_of_significant (digits_split h) (Option.isSome_iff_ne_none.1 hsome)
    rw [rational_written h, rational, Parts.rational]
    refine mul_ne_zero (mul_ne_zero (by split_ifs <;> decide) ?_) (zpow_ne_zero _ (by decide))
    exact_mod_cast hpos.ne'

end EdgarPlatform.Jsonb
