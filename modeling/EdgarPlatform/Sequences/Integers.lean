import EdgarPlatform.Library.Integers

/-!
# Integers in streamed JSON

Before a record is parsed its text is scanned for integers out of bounds, since a parser would read them as floating point. The scan steps over strings and reads a run of the characters numbers are written with as one token. In a text that is JSON these runs are its numbers.
-/

namespace EdgarPlatform.Sequences

open Decimals (Written written_of_isNumber)
open Digits (value)
open JsonText
open PythonJson (isReal)

/-- What follows the closing quotation mark of a string, past its escapes. -/
def skipString : List Char → List Char
  | [] => []
  | [_] => []
  | c :: d :: rest =>
      if c = '\\' then skipString rest
      else if c = '"' then d :: rest
      else skipString (d :: rest)

def isNumberChar (c : Char) : Bool := c = '-' || c = '+' || c = '.' || c = 'e' || c = 'E' || c.isDigit

/-- A signed integer of 64 bits, as a text is parsed: digits after a sign or not. -/
def parseI64 (text : List Char) : Option Int :=
  let digits := if text.head? = some '-' ∨ text.head? = some '+' then text.tail else text
  if digits ≠ [] ∧ digits.all Char.isDigit = true then
    let n : Int := if text.head? = some '-' then -(value digits : Int) else value digits
    if -2 ^ 63 ≤ n ∧ n < 2 ^ 63 then some n else none
  else none

theorem length_skipString (s : List Char) : (skipString s).length ≤ s.length := by
  fun_induction skipString s with
  | case1 => exact le_rfl
  | case2 => exact Nat.zero_le _
  | case3 d rest ih => exact ih.trans (by simp only [List.length_cons]; omega)
  | case4 => exact Nat.le_succ _
  | case5 c d rest _ _ ih => exact ih.trans (Nat.le_succ _)

variable {c : Char}

theorem isNumberChar_of_begins (h : (c = '-' || c.isDigit) = true) : isNumberChar c = true := by
  simp only [Bool.or_eq_true, decide_eq_true_eq] at h
  obtain rfl | h := h
  · rfl
  · simp [isNumberChar, h]

def checkIntegers (minimum : Int) (raw : List Char) : Except String Unit :=
  match raw with
  | [] => .ok ()
  | c :: rest =>
      if c = '"' then checkIntegers minimum (skipString rest)
      else if _ : (c = '-' || c.isDigit) = true then
        let number := (c :: rest).takeWhile isNumberChar
        if isReal number = false ∧ (parseI64 number).all (fun n => n < minimum) = true then .error "JSON integer exceeds signed 64-bit bound"
        else checkIntegers minimum ((c :: rest).dropWhile isNumberChar)
      else checkIntegers minimum rest
termination_by raw.length
decreasing_by
  · exact Nat.lt_succ_of_le (length_skipString rest)
  · rw [List.dropWhile_cons_of_pos (isNumberChar_of_begins ‹_›)]
    exact Nat.lt_succ_of_le (List.dropWhile_suffix isNumberChar).length_le
  · exact Nat.lt_succ_self _

mutual

/-- The tokens of a document that are numbers, in the order they are written. -/
def numbers : Doc → List (List Char)
  | .plain token => if isNumber token then [token] else []
  | .text _ => []
  | .array items => numbersOfItems items
  | .object fields => numbersOfFields fields

def numbersOfItems : List Doc → List (List Char)
  | [] => []
  | item :: rest => numbers item ++ numbersOfItems rest

def numbersOfFields : List (List Piece × Doc) → List (List Char)
  | [] => []
  | (_, value) :: rest => numbers value ++ numbersOfFields rest

end

/-- A number with neither a point nor an exponent is at least a minimum and within 64 bits. -/
def InBounds (minimum : Int) (token : List Char) : Prop :=
  isReal token = false → minimum ≤ Decimals.integer token ∧ -2 ^ 63 ≤ Decimals.integer token ∧ Decimals.integer token < 2 ^ 63

variable {minimum : Int} {s rest : List Char}

theorem checkIntegers_cons (hquote : c ≠ '"') (hbegins : (c = '-' || c.isDigit) = false) (rest : List Char) :
    checkIntegers minimum (c :: rest) = checkIntegers minimum rest := by
  rw [checkIntegers, if_neg hquote, dif_neg (by rw [hbegins]; exact Bool.false_ne_true)]

theorem checkIntegers_structural (hquote : c ≠ '"') (h : isStructural c = true) (rest : List Char) :
    checkIntegers minimum (c :: rest) = checkIntegers minimum rest := by
  apply checkIntegers_cons hquote
  rw [Bool.or_eq_false_iff, decide_eq_false_iff_not]
  constructor
  · rintro rfl
    exact absurd h (by decide)
  · by_contra hdigit
    rw [not_structural_of_isDigit (Bool.eq_true_of_not_eq_false hdigit)] at h
    exact Bool.false_ne_true h

theorem checkIntegers_blanks {blanks : List Char} (h : blanks.all isBlank = true) (s : List Char) :
    checkIntegers minimum (blanks ++ s) = checkIntegers minimum s := by
  induction blanks with
  | nil => rfl
  | cons c rest ih =>
      rw [List.all_cons, Bool.and_eq_true] at h
      have hstructural : isStructural c = true := by
        rw [isStructural, h.1]
        rfl
      have hquote : c ≠ '"' := by
        rintro rfl
        exact absurd h.1 (by decide)
      rw [List.cons_append, checkIntegers_structural hquote hstructural, ih h.2]

theorem checkIntegers_after (hquote : c ≠ '"') (hc : isStructural c = true) (h : After c s rest) :
    checkIntegers minimum s = checkIntegers minimum rest := by
  obtain ⟨blanks, hblanks, rfl⟩ := h
  rw [checkIntegers_blanks hblanks, checkIntegers_structural hquote hc]

theorem skipString_cons (hescape : c ≠ '\\') (hquote : c ≠ '"') {rest : List Char} (hrest : rest ≠ []) :
    skipString (c :: rest) = skipString rest := by
  obtain ⟨d, rest, rfl⟩ := List.exists_cons_of_ne_nil hrest
  rw [skipString, if_neg hescape, if_neg hquote]

theorem skipString_spell {pieces : List Piece} (h : pieces.all Piece.valid = true) (rest : List Char) :
    skipString (spellPieces pieces ++ '"' :: rest) = rest := by
  induction pieces with
  | nil => cases rest <;> rfl
  | cons piece pieces ih =>
      rw [List.all_cons, Bool.and_eq_true] at h
      have hne : spellPieces pieces ++ '"' :: rest ≠ [] := List.append_ne_nil_of_right_ne_nil _ (List.cons_ne_nil _ _)
      rw [spellPieces, List.flatMap_cons, List.append_assoc]
      show skipString (piece.spell ++ (spellPieces pieces ++ '"' :: rest)) = rest
      cases piece with
      | plain c =>
          have hvalid := h.1
          simp only [Piece.valid, Bool.and_eq_true, decide_eq_true_eq] at hvalid
          rw [Piece.spell, List.singleton_append, skipString_cons hvalid.1.2 hvalid.1.1 hne]
          exact ih h.2
      | escape c =>
          rw [Piece.spell, List.cons_append, List.cons_append, List.nil_append, skipString, if_pos rfl]
          exact ih h.2
      | code a b c d =>
          have hvalid := h.1
          simp only [Piece.valid, Bool.and_eq_true] at hvalid
          have hhex : ∀ x, isHex x = true → x ≠ '\\' ∧ x ≠ '"' := by
            intro x hx
            constructor <;> rintro rfl <;> exact absurd hx (by decide)
          have hplain : ∀ x, isHex x = true → ∀ more, more ≠ [] → skipString (x :: more) = skipString more :=
            fun x hx more hmore => skipString_cons (hhex x hx).1 (hhex x hx).2 hmore
          rw [Piece.spell, List.cons_append, List.cons_append, List.cons_append, List.cons_append, List.cons_append, List.cons_append, List.nil_append,
            skipString, if_pos rfl, hplain a hvalid.1.1.1 _ (List.cons_ne_nil _ _), hplain b hvalid.1.1.2 _ (List.cons_ne_nil _ _),
            hplain c hvalid.1.2 _ (List.cons_ne_nil _ _), hplain d hvalid.2 _ hne]
          exact ih h.2

theorem checkIntegers_string {pieces : List Piece} (hpieces : pieces.all Piece.valid = true) (h : After '"' s (spellPieces pieces ++ '"' :: rest)) :
    checkIntegers minimum s = checkIntegers minimum rest := by
  obtain ⟨blanks, hblanks, rfl⟩ := h
  rw [checkIntegers_blanks hblanks, checkIntegers, if_pos rfl, skipString_spell hpieces]

theorem isNumberChar_of_isDigit (h : c.isDigit = true) : isNumberChar c = true := by
  rw [isNumberChar, h]
  exact Bool.or_true _

theorem isNumberChar_of_isExponent (h : isExponent s = true) : ∀ c ∈ s, isNumberChar c = true := by
  have hdigits : ∀ digits, isDigits digits = true → ∀ c ∈ digits, isNumberChar c = true := by
    intro digits hd c hc
    rw [isDigits, Bool.and_eq_true] at hd
    exact isNumberChar_of_isDigit (List.all_eq_true.1 hd.2 c hc)
  cases s with
  | nil => exact fun c hc => absurd hc List.not_mem_nil
  | cons e rest =>
      unfold isExponent at h
      simp only [Bool.and_eq_true, Bool.or_eq_true, decide_eq_true_eq] at h
      obtain ⟨he, hrest⟩ := h
      intro c hc
      obtain rfl | hc := List.mem_cons.1 hc
      · obtain rfl | rfl := he <;> rfl
      · cases rest with
        | nil => exact absurd hc List.not_mem_nil
        | cons sign digits =>
            simp only at hrest
            split_ifs at hrest with hsign
            · obtain rfl | hc := List.mem_cons.1 hc
              · obtain rfl | rfl := hsign <;> rfl
              · exact hdigits digits hrest c hc
            · exact hdigits _ hrest c hc

theorem isNumberChar_of_split (h : ∀ c ∈ s.dropWhile Char.isDigit, isNumberChar c = true) : ∀ c ∈ s, isNumberChar c = true := by
  intro c hc
  rw [← List.takeWhile_append_dropWhile (p := Char.isDigit) (l := s), List.mem_append] at hc
  obtain hc | hc := hc
  · exact isNumberChar_of_isDigit (List.mem_takeWhile_imp hc)
  · exact h c hc

theorem isNumberChar_of_isUnsigned (h : isUnsigned s = true) : ∀ c ∈ s, isNumberChar c = true := by
  rw [isUnsigned, Bool.and_eq_true] at h
  apply isNumberChar_of_split
  have hfraction := h.2
  generalize s.dropWhile Char.isDigit = fraction at hfraction
  cases fraction with
  | nil => exact fun c hc => absurd hc List.not_mem_nil
  | cons dot rest =>
      rw [isFraction] at hfraction
      split_ifs at hfraction with hdot
      · rw [Bool.and_eq_true] at hfraction
        intro c hc
        obtain rfl | hc := List.mem_cons.1 hc
        · rw [hdot]
          rfl
        · exact isNumberChar_of_split (isNumberChar_of_isExponent hfraction.2) c hc
      · exact isNumberChar_of_isExponent hfraction

theorem isNumberChar_of_isNumber (h : isNumber s = true) : ∀ c ∈ s, isNumberChar c = true := by
  cases s with
  | nil => exact fun c hc => absurd hc List.not_mem_nil
  | cons sign rest =>
      rw [isNumber] at h
      split_ifs at h with hsign
      · intro c hc
        obtain rfl | hc := List.mem_cons.1 hc
        · rw [hsign]
          rfl
        · exact isNumberChar_of_isUnsigned h c hc
      · exact isNumberChar_of_isUnsigned h

theorem not_isNumberChar (h : isStructural c = true) : isNumberChar c = false := by
  rw [isNumberChar, Bool.or_eq_false_iff]
  constructor
  · simp only [Bool.or_eq_false_iff, decide_eq_false_iff_not]
    refine ⟨⟨⟨⟨?_, ?_⟩, ?_⟩, ?_⟩, ?_⟩ <;> rintro rfl <;> exact absurd h (by decide)
  · by_contra hdigit
    rw [not_structural_of_isDigit (Bool.eq_true_of_not_eq_false hdigit)] at h
    exact Bool.false_ne_true h

variable {token : List Char}

theorem takeWhile_number (h : isNumber token = true) (hends : Ends rest) :
    (token ++ rest).takeWhile isNumberChar = token ∧ (token ++ rest).dropWhile isNumberChar = rest := by
  have hall := isNumberChar_of_isNumber h
  rw [List.takeWhile_append_of_pos hall, List.dropWhile_append_of_pos hall]
  cases rest with
  | nil => exact ⟨List.append_nil _, rfl⟩
  | cons c tail =>
      have hc := not_isNumberChar (hends c tail rfl)
      rw [List.takeWhile_cons_of_neg (by rw [hc]; exact Bool.false_ne_true), List.dropWhile_cons_of_neg (by rw [hc]; exact Bool.false_ne_true)]
      exact ⟨List.append_nil _, rfl⟩

theorem parseI64_number (h : isNumber token = true) (hreal : isReal token = false) : parseI64 token =
    if -2 ^ 63 ≤ Decimals.integer token ∧ Decimals.integer token < 2 ^ 63 then some (Decimals.integer token) else none := by
  obtain ⟨digits, hwritten, rfl, hinteger⟩ | ⟨hwritten, hhead, hinteger⟩ := written_of_isNumber h hreal
  · rw [parseI64, hinteger]
    simp only [List.head?_cons, true_or, if_true, List.tail_cons]
    rw [if_pos ⟨hwritten.ne_nil, List.all_eq_true.2 hwritten.digits⟩]
  · have hplus : token.head? ≠ some '+' := fun heq => absurd (hwritten.digits '+' (List.mem_of_mem_head? heq)) (by decide)
    rw [parseI64, hinteger]
    simp only [hhead, hplus, false_or, if_false]
    rw [if_pos ⟨hwritten.ne_nil, List.all_eq_true.2 hwritten.digits⟩]

theorem checkIntegers_number (h : isNumber token = true) (hends : Ends rest) :
    checkIntegers minimum (token ++ rest) = .ok () ↔ InBounds minimum token ∧ checkIntegers minimum rest = .ok () := by
  obtain ⟨htake, hdrop⟩ := takeWhile_number h hends
  have hbegins : ∃ c tail, token = c :: tail ∧ (c = '-' || c.isDigit) = true := by
    cases token with
    | nil => exact absurd h Bool.false_ne_true
    | cons c tail =>
        refine ⟨c, tail, rfl, ?_⟩
        rw [isNumber] at h
        split_ifs at h with hsign
        · rw [Bool.or_eq_true, decide_eq_true_eq]
          exact .inl hsign
        · rw [isUnsigned, Bool.and_eq_true] at h
          by_contra hdigit
          rw [Bool.or_eq_true, not_or] at hdigit
          rw [List.takeWhile_cons_of_neg hdigit.2] at h
          exact absurd h.1 (by decide)
  obtain ⟨c, tail, rfl, hc⟩ := hbegins
  have hquote : c ≠ '"' := by
    rintro rfl
    exact absurd hc (by decide)
  rw [List.cons_append] at htake hdrop ⊢
  rw [checkIntegers, if_neg hquote, dif_pos hc]
  simp only [htake, hdrop]
  cases hreal : isReal (c :: tail) with
  | true =>
      have hbounds : InBounds minimum (c :: tail) := fun hnot => absurd (hreal.symm.trans hnot) (by decide)
      rw [if_neg fun hbad => absurd hbad.1 (by decide)]
      exact ⟨fun hrest => ⟨hbounds, hrest⟩, And.right⟩
  | false =>
      rw [parseI64_number h hreal]
      by_cases hrange : -2 ^ 63 ≤ Decimals.integer (c :: tail) ∧ Decimals.integer (c :: tail) < 2 ^ 63
      · rw [if_pos hrange, Option.all_some]
        split_ifs with hlow
        · have hless := of_decide_eq_true hlow.2
          exact iff_of_false (by simp) fun hboth => absurd (hboth.1 hreal).1 (by omega)
        · have hleast : ¬Decimals.integer (c :: tail) < minimum := fun hless => hlow ⟨rfl, decide_eq_true hless⟩
          exact ⟨fun hrest => ⟨fun _ => ⟨by omega, hrange⟩, hrest⟩, And.right⟩
      · rw [if_neg hrange, Option.all_none, if_pos ⟨rfl, rfl⟩]
        exact iff_of_false (by simp) fun hboth => absurd (hboth.1 hreal).2 hrange

theorem checkIntegers_name (h : JsonText.isName token = true) (rest : List Char) :
    checkIntegers minimum (token ++ rest) = checkIntegers minimum rest := by
  have hletters : ∀ letters : List Char, (∀ c ∈ letters, c ≠ '"' ∧ (c = '-' || c.isDigit) = false) →
      checkIntegers minimum (letters ++ rest) = checkIntegers minimum rest := by
    intro letters hall
    induction letters with
    | nil => rfl
    | cons c more ih =>
        obtain ⟨hquote, hbegins⟩ := hall c List.mem_cons_self
        rw [List.cons_append, checkIntegers_cons hquote hbegins, ih fun d hd => hall d (List.mem_cons_of_mem _ hd)]
  apply hletters
  simp only [JsonText.isName, Bool.or_eq_true, decide_eq_true_eq] at h
  obtain (rfl | rfl) | rfl := h <;> simp [Char.isDigit]

mutual

/-- The scan passes a document just where it passes the document's numbers, and goes on with what follows. -/
theorem checkIntegers_reads : ∀ {s : List Char} {d : Doc} {rest : List Char}, Reads s d rest →
    (checkIntegers minimum s = .ok () ↔ (∀ token ∈ numbers d, InBounds minimum token) ∧ checkIntegers minimum rest = .ok ())
  | _, .plain token, rest, .plain hblanks htoken hends => by
      rw [checkIntegers_blanks hblanks, numbers]
      by_cases hnumber : isNumber token = true
      · rw [checkIntegers_number hnumber hends, if_pos hnumber, List.forall_mem_singleton]
      · rw [isPlain, Bool.or_eq_true] at htoken
        rw [checkIntegers_name (htoken.resolve_right hnumber), if_neg hnumber]
        exact ⟨fun h => ⟨fun _ hmem => absurd hmem List.not_mem_nil, h⟩, And.right⟩
  | _, _, _, .text hpieces hopen => by
      rw [checkIntegers_string hpieces hopen, numbers]
      exact ⟨fun h => ⟨fun _ hmem => absurd hmem List.not_mem_nil, h⟩, And.right⟩
  | _, _, _, .noItems hopen hclose => by
      rw [checkIntegers_after (by decide) rfl hopen, checkIntegers_after (by decide) rfl hclose, numbers, numbersOfItems]
      exact ⟨fun h => ⟨fun _ hmem => absurd hmem List.not_mem_nil, h⟩, And.right⟩
  | _, _, _, .array hopen hitems => by
      rw [checkIntegers_after (by decide) rfl hopen, numbers]
      exact checkIntegers_items hitems
  | _, _, _, .noFields hopen hclose => by
      rw [checkIntegers_after (by decide) rfl hopen, checkIntegers_after (by decide) rfl hclose, numbers, numbersOfFields]
      exact ⟨fun h => ⟨fun _ hmem => absurd hmem List.not_mem_nil, h⟩, And.right⟩
  | _, _, _, .object hopen hfields => by
      rw [checkIntegers_after (by decide) rfl hopen, numbers]
      exact checkIntegers_fields hfields

theorem checkIntegers_items : ∀ {s : List Char} {items : List Doc} {rest : List Char}, ReadsItems s items rest →
    (checkIntegers minimum s = .ok () ↔ (∀ token ∈ numbersOfItems items, InBounds minimum token) ∧ checkIntegers minimum rest = .ok ())
  | _, _, _, .last hitem hclose => by
      rw [checkIntegers_reads hitem, checkIntegers_after (by decide) rfl hclose, numbersOfItems, numbersOfItems, List.append_nil]
  | _, _, _, .more hitem hcomma hitems => by
      rw [checkIntegers_reads hitem, checkIntegers_after (by decide) rfl hcomma, checkIntegers_items hitems, numbersOfItems, List.forall_mem_append, and_assoc]

theorem checkIntegers_fields : ∀ {s : List Char} {fields : List (List Piece × Doc)} {rest : List Char}, ReadsFields s fields rest →
    (checkIntegers minimum s = .ok () ↔ (∀ token ∈ numbersOfFields fields, InBounds minimum token) ∧ checkIntegers minimum rest = .ok ())
  | _, _, _, .last hkey hopen hcolon hvalue hclose => by
      rw [checkIntegers_string hkey hopen, checkIntegers_after (by decide) rfl hcolon, checkIntegers_reads hvalue,
        checkIntegers_after (by decide) rfl hclose, numbersOfFields, numbersOfFields, List.append_nil]
  | _, _, _, .more hkey hopen hcolon hvalue hcomma hfields => by
      rw [checkIntegers_string hkey hopen, checkIntegers_after (by decide) rfl hcolon, checkIntegers_reads hvalue,
        checkIntegers_after (by decide) rfl hcomma, checkIntegers_fields hfields, numbersOfFields, List.forall_mem_append, and_assoc]

end

/-- A JSON text is passed just where every number in it without a point and an exponent is at least the minimum and within 64 bits. -/
theorem checkIntegers_iff {raw : List Char} {doc : Doc} (minimum : Int) (h : parse raw = some doc) :
    checkIntegers minimum raw = .ok () ↔ ∀ token ∈ numbers doc, InBounds minimum token := by
  obtain ⟨blanks, hblanks, hreads⟩ := parse_eq_some.1 h
  have hrest : checkIntegers minimum blanks = .ok () := by
    have hnil : checkIntegers minimum (blanks ++ []) = checkIntegers minimum [] := checkIntegers_blanks hblanks []
    rw [List.append_nil] at hnil
    rw [hnil, checkIntegers]
  rw [checkIntegers_reads hreads]
  exact ⟨And.left, fun hall => ⟨hall, hrest⟩⟩

/-- An integer, a quoted number after an escape, and a number with an exponent. -/
def sampleDoc : Doc := .array [.plain "9223372036854775807".toList, .text [.escape '"', .plain '9'], .plain "1e99".toList]

theorem sampleDoc_valid : sampleDoc.Valid := by
  refine .array fun item hitem => ?_
  obtain rfl | hitem := List.mem_cons.1 hitem
  · exact .plain (by decide)
  · obtain rfl | rfl := List.mem_pair.1 hitem
    · exact .text (by decide)
    · exact .plain (by decide)

/-- Neither a quoted number nor one with an exponent is an integer out of bounds. -/
theorem sampleDoc_passes : sampleDoc.render = "[9223372036854775807,\"\\\"9\",1e99]".toList ∧ checkIntegers (-2 ^ 63) sampleDoc.render = .ok () := by
  refine ⟨by decide, (checkIntegers_iff (-2 ^ 63) (parse_render sampleDoc_valid)).2 fun token htoken => ?_⟩
  have hnumbers : numbers sampleDoc = ["9223372036854775807".toList, "1e99".toList] := by decide
  rw [hnumbers, List.mem_pair] at htoken
  obtain rfl | rfl := htoken
  · exact fun _ => by decide
  · exact fun hreal => absurd hreal (by decide)

/-- The least integer of 64 bits is refused where the minimum is above it. -/
theorem least_refused : checkIntegers (-(2 ^ 63 - 1)) "-9223372036854775808".toList = .error "JSON integer exceeds signed 64-bit bound" ∧
    (parse "-9223372036854775808".toList).map numbers = some ["-9223372036854775808".toList] ∧
    Decimals.integer "-9223372036854775808".toList = -2 ^ 63 := by
  decide +kernel

end EdgarPlatform.Sequences
