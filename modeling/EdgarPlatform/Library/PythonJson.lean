import EdgarPlatform.Library.JsonText
import EdgarPlatform.Library.IndexMap
import EdgarPlatform.Library.Runs
import Mathlib.Data.List.Lex
import Mathlib.Data.List.Chain

/-!
# JSON as an interpreter writes and reads it

The values of a dynamic language and the texts its standard library writes them as: every character outside printable ASCII escaped, the keys of an object in order, no blank between tokens, no number that is not finite. The reader is strict: it refuses a key written twice and a number past the range of its floats.

What is written is read back as the value with the keys of every object in order, so a comparison of objects by their keys sees no difference.
-/

namespace PythonJson

open JsonText

/-- A text as its code points, among which a surrogate may stand alone. -/
abbrev Text := List Nat

def Text.ofString (s : String) : Text := s.toList.map Char.toNat

def isLeading (unit : Nat) : Bool := 0xD800 ≤ unit && unit ≤ 0xDBFF

def isTrailing (unit : Nat) : Bool := 0xDC00 ≤ unit && unit ≤ 0xDFFF

/-- A text a document can hold: of two surrogates that make one character, the document holds the character. -/
structure Text.Valid (t : Text) : Prop where
  points : ∀ n ∈ t, n < 0x110000
  apart : t.IsChain fun a b => ¬(isLeading a = true ∧ isTrailing b = true)

def units (n : Nat) : List Nat :=
  if n < 0x10000 then [n] else [0xD800 + (n - 0x10000) / 0x400, 0xDC00 + (n - 0x10000) % 0x400]

/-- The code points of code units, every pair of surrogates joined. -/
def join : List Nat → Text
  | [] => []
  | [a] => [a]
  | a :: b :: rest =>
      if isLeading a && isTrailing b then (0x10000 + (a - 0xD800) * 0x400 + (b - 0xDC00)) :: join rest
      else a :: join (b :: rest)

theorem head_units {n : Nat} (h : n < 0x110000) :
    ∃ a rest, units n = a :: rest ∧ (isTrailing a = true → isTrailing n = true ∧ a = n) := by
  rw [units]
  split_ifs with hsmall
  · exact ⟨n, [], rfl, fun h => ⟨h, rfl⟩⟩
  · refine ⟨_, _, rfl, fun htrailing => ?_⟩
    simp only [isTrailing, Bool.and_eq_true, decide_eq_true_eq] at htrailing
    omega

theorem join_pair {n : Nat} (hlow : 0x10000 ≤ n) (hhigh : n < 0x110000) (rest : List Nat) :
    join (units n ++ rest) = n :: join rest := by
  have hleading : isLeading (0xD800 + (n - 0x10000) / 0x400) = true := by
    simp only [isLeading, Bool.and_eq_true, decide_eq_true_eq]
    omega
  have htrailing : isTrailing (0xDC00 + (n - 0x10000) % 0x400) = true := by
    simp only [isTrailing, Bool.and_eq_true, decide_eq_true_eq]
    omega
  rw [units, if_neg (by omega), List.cons_append, List.cons_append, List.nil_append, join, hleading, htrailing]
  simp only [Bool.and_self, if_true, List.cons.injEq, and_true]
  omega

variable {t : Text}

/-- The code points of a text are read back from its code units. -/
theorem join_units (h : t.Valid) : join (t.flatMap units) = t := by
  induction t with
  | nil => rfl
  | cons n rest ih =>
      have hn := h.points n (List.mem_cons_self ..)
      have hrest : Text.Valid rest := ⟨fun m hm => h.points m (List.mem_cons_of_mem _ hm), h.apart.tail⟩
      rw [List.flatMap_cons]
      by_cases hsmall : n < 0x10000
      · rw [units, if_pos hsmall, List.singleton_append]
        cases rest with
        | nil => rfl
        | cons m more =>
            -- what follows a leading surrogate does not begin with a trailing one
            obtain ⟨a, tail, hunits, htrailing⟩ := head_units (hrest.points m (List.mem_cons_self ..))
            have hapart := (List.isChain_cons_cons.1 h.apart).1
            have hjoined := ih hrest
            rw [List.flatMap_cons, hunits, List.cons_append] at hjoined ⊢
            rw [join, if_neg, hjoined]
            rw [Bool.and_eq_true]
            exact fun hboth => hapart ⟨hboth.1, (htrailing hboth.2).1⟩
      · rw [join_pair (by omega) hn, ih hrest]

def hex (n : Nat) : Char := Nat.digitChar (n % 16)

def hexValue (c : Char) : Nat :=
  if c.toNat ≤ '9'.toNat then c.toNat - '0'.toNat
  else if c.toNat ≤ 'F'.toNat then c.toNat - 'A'.toNat + 10
  else c.toNat - 'a'.toNat + 10

def escapeOf (unit : Nat) : Option Char :=
  if unit = 34 then some '"'
  else if unit = 92 then some '\\'
  else if unit = 8 then some 'b'
  else if unit = 9 then some 't'
  else if unit = 10 then some 'n'
  else if unit = 12 then some 'f'
  else if unit = 13 then some 'r'
  else none

def unescape (c : Char) : Nat :=
  if c = 'b' then 8
  else if c = 't' then 9
  else if c = 'n' then 10
  else if c = 'f' then 12
  else if c = 'r' then 13
  else c.toNat

def pieceOf (unit : Nat) : Piece :=
  match escapeOf unit with
  | some c => .escape c
  | none =>
      if 32 ≤ unit ∧ unit ≤ 126 then .plain (Char.ofNat unit)
      else .code (hex (unit / 4096)) (hex (unit / 256)) (hex (unit / 16)) (hex unit)

def unitOf : Piece → Nat
  | .plain c => c.toNat
  | .escape c => unescape c
  | .code a b c d => ((hexValue a * 16 + hexValue b) * 16 + hexValue c) * 16 + hexValue d

def spellText (t : Text) : List Piece := (t.flatMap units).map pieceOf

def readText (pieces : List Piece) : Text := join (pieces.map unitOf)

theorem hexValue_hex (n : Nat) : hexValue (hex n) = n % 16 ∧ isHex (hex n) = true := by
  have hall : ∀ m < 16, hexValue (Nat.digitChar m) = m ∧ isHex (Nat.digitChar m) = true := by decide
  exact hall _ (Nat.mod_lt _ (by decide))

theorem escapeOf_eq_some {unit : Nat} {c : Char} (h : escapeOf unit = some c) :
    unescape c = unit ∧ (Piece.escape c).valid = true := by
  rw [escapeOf] at h
  split_ifs at h with h1 h2 h3 h4 h5 h6 h7
  all_goals
    rw [← Option.some.inj h]
    refine ⟨?_, by decide⟩
    first
      | exact h1.symm
      | exact h2.symm
      | exact h3.symm
      | exact h4.symm
      | exact h5.symm
      | exact h6.symm
      | exact h7.symm

theorem escapeOf_eq_none {unit : Nat} (h : escapeOf unit = none) : unit ≠ 34 ∧ unit ≠ 92 := by
  refine ⟨?_, ?_⟩
  · rintro rfl
    cases h
  · rintro rfl
    cases h

theorem toNat_ofNat {n : Nat} (h : n ≤ 126) : (Char.ofNat n).toNat = n := by
  have hall : ∀ m < 127, (Char.ofNat m).toNat = m := by decide
  exact hall n (by omega)

theorem pieceOf_spec {unit : Nat} (h : unit < 0x10000) : unitOf (pieceOf unit) = unit ∧ (pieceOf unit).valid = true := by
  rw [pieceOf]
  cases hescape : escapeOf unit with
  | some c => exact escapeOf_eq_some hescape
  | none =>
      obtain ⟨hquote, hslash⟩ := escapeOf_eq_none hescape
      simp only
      split_ifs with hplain
      · have hnat := toNat_ofNat hplain.2
        refine ⟨hnat, ?_⟩
        have hne : ∀ d : Char, d.toNat ≠ unit → Char.ofNat unit ≠ d := by
          rintro d hd rfl
          exact hd hnat
        simp only [Piece.valid, hnat, Bool.and_eq_true, decide_eq_true_eq]
        exact ⟨⟨hne _ hquote.symm, hne _ hslash.symm⟩, hplain.1⟩
      · refine ⟨?_, ?_⟩
        · simp only [unitOf, (hexValue_hex _).1]
          omega
        · simp only [Piece.valid, (hexValue_hex _).2, Bool.and_self]

theorem units_lt (h : t.Valid) {unit : Nat} (hunit : unit ∈ t.flatMap units) : unit < 0x10000 := by
  obtain ⟨n, hn, hmem⟩ := List.mem_flatMap.1 hunit
  have hpoint := h.points n hn
  rw [units] at hmem
  split_ifs at hmem with hsmall
  · rw [List.mem_singleton.1 hmem]
    exact hsmall
  · simp only [List.mem_cons, List.not_mem_nil, or_false] at hmem
    omega

theorem spellText_valid (h : t.Valid) : (spellText t).all Piece.valid = true := by
  refine List.all_eq_true.2 fun piece hpiece => ?_
  obtain ⟨unit, hunit, rfl⟩ := List.mem_map.1 hpiece
  exact (pieceOf_spec (units_lt h hunit)).2

theorem readText_spellText (h : t.Valid) : readText (spellText t) = t := by
  rw [readText, spellText, List.map_map]
  refine Eq.trans (congrArg join ?_) (join_units h)
  refine (List.map_congr_left fun unit hunit => ?_).trans (List.map_id _)
  exact (pieceOf_spec (units_lt h hunit)).1

def intText (n : Int) : List Char := if n < 0 then '-' :: Nat.toDigits 10 n.natAbs else Nat.toDigits 10 n.natAbs

def intOf : List Char → Int
  | [] => 0
  | c :: rest => if c = '-' then -(Nat.ofDigitChars 10 rest 0 : Int) else (Nat.ofDigitChars 10 (c :: rest) 0 : Int)

/-- A number written with a point or an exponent, which is read as a float. -/
def isReal (token : List Char) : Bool := token.any fun c => c = '.' || c = 'e' || c = 'E'

theorem digits_ne_sign (n : Nat) : ∀ c ∈ Nat.toDigits 10 n, c ≠ '-' ∧ c ≠ '.' ∧ c ≠ 'e' ∧ c ≠ 'E' := by
  intro c hc
  have hdigit := Nat.isDigit_of_mem_toDigits (by decide) (by decide) hc
  refine ⟨?_, ?_, ?_, ?_⟩ <;>
    · rintro rfl
      cases hdigit

theorem intOf_intText (n : Int) : intOf (intText n) = n := by
  rw [intText]
  split_ifs with hneg
  · rw [intOf, if_pos rfl, Nat.ofDigitChars_ten_toDigits]
    omega
  · cases hdigits : Nat.toDigits 10 n.natAbs with
    | nil => exact absurd hdigits Nat.toDigits_ne_nil
    | cons c rest =>
        have hsign := (digits_ne_sign n.natAbs c (by rw [hdigits]; exact List.mem_cons_self ..)).1
        rw [intOf, if_neg hsign, ← hdigits, Nat.ofDigitChars_ten_toDigits]
        omega

theorem isReal_intText (n : Int) : isReal (intText n) = false := by
  have hdigits : isReal (Nat.toDigits 10 n.natAbs) = false := by
    refine List.any_eq_false.2 fun c hc => ?_
    obtain ⟨_, hdot, hlower, hupper⟩ := digits_ne_sign n.natAbs c hc
    simp [hdot, hlower, hupper]
  rw [intText]
  split_ifs
  · rw [isReal, List.any_cons]
    exact hdigits
  · exact hdigits

theorem toDigits_head (n : Nat) : Nat.toDigits 10 n = ['0'] ∨ (Nat.toDigits 10 n).head? ≠ some '0' := by
  induction n using Nat.strong_induction_on with
  | _ n ih =>
      by_cases hsmall : n < 10
      · rw [Nat.toDigits_of_lt_base hsmall]
        have hall : ∀ m < 10, [Nat.digitChar m] = ['0'] ∨ [Nat.digitChar m].head? ≠ some '0' := by decide
        exact hall n hsmall
      · have hdiv : 0 < n / 10 := Nat.div_pos (by omega) (by decide)
        have hsplit := Nat.toDigits_of_base_le (b := 10) (n := n) (by decide) (by omega)
        obtain hzero | hhead := ih (n / 10) (Nat.div_lt_self (by omega) (by decide))
        · have hvalue := Nat.ofDigitChars_ten_toDigits (n := n / 10)
          rw [hzero] at hvalue
          have : n / 10 = 0 := hvalue.symm
          omega
        · refine .inr ?_
          rw [hsplit, List.head?_append_of_ne_nil _ Nat.toDigits_ne_nil]
          exact hhead

theorem isUnsigned_toDigits (n : Nat) : isUnsigned (Nat.toDigits 10 n) = true := by
  have hall : ∀ c ∈ Nat.toDigits 10 n, Char.isDigit c = true :=
    fun c hc => Nat.isDigit_of_mem_toDigits (by decide) (by decide) hc
  rw [isUnsigned, List.takeWhile_eq_self_iff.2 hall, List.dropWhile_eq_nil_iff.2 hall]
  have hwhole : isWhole (Nat.toDigits 10 n) = true := by
    simp only [isWhole, Bool.or_eq_true, decide_eq_true_eq, Bool.and_eq_true]
    obtain hzero | hhead := toDigits_head n
    · exact .inl hzero
    · exact .inr ⟨Nat.toDigits_ne_nil, hhead⟩
  rw [hwhole]
  rfl

theorem isNumber_intText (n : Int) : isNumber (intText n) = true := by
  have hdigits := isUnsigned_toDigits n.natAbs
  rw [intText]
  split_ifs
  · rw [isNumber, if_pos rfl]
    exact hdigits
  · cases heq : Nat.toDigits 10 n.natAbs with
    | nil => exact absurd heq Nat.toDigits_ne_nil
    | cons c rest =>
        have hsign := (digits_ne_sign n.natAbs c (by rw [heq]; exact List.mem_cons_self ..)).1
        rw [isNumber, if_neg hsign, ← heq]
        exact hdigits

/-- The floats of the interpreter: what each is written as, unless it is not finite, and what a number is read as, unless it is past their range. What is written is read back. -/
structure Floats (F : Type) where
  write : F → Option (List Char)
  read : List Char → Option F
  lawful : ∀ {x token}, write x = some token → isNumber token = true ∧ isReal token = true ∧ read token = some x

inductive Value (F : Type) where
  | null
  | bool (value : Bool)
  | int (value : Int)
  | float (value : F)
  | str (value : Text)
  | list (items : List (Value F))
  | dict (fields : List (Text × Value F))

variable {F : Type}

@[elab_as_elim]
theorem Value.induct {motive : Value F → Prop} (null : motive .null) (bool : ∀ value, motive (.bool value))
    (int : ∀ value, motive (.int value)) (float : ∀ value, motive (.float value)) (str : ∀ value, motive (.str value))
    (list : ∀ items, (∀ item ∈ items, motive item) → motive (.list items))
    (dict : ∀ fields, (∀ field ∈ fields, motive field.2) → motive (.dict fields)) (v : Value F) : motive v :=
  @Value.rec F motive (fun items => ∀ item ∈ items, motive item) (fun fields => ∀ field ∈ fields, motive field.2) (fun field => motive field.2)
    null bool int float str list dict (fun _ h => nomatch h) (fun _ _ h hrest => List.forall_mem_cons.2 ⟨h, hrest⟩)
    (fun _ h => nomatch h) (fun _ _ h hrest => List.forall_mem_cons.2 ⟨h, hrest⟩) (fun _ _ h => h) v

/-- Every text of a value is one a document can hold, and every object has each key once. -/
inductive Value.Valid : Value F → Prop
  | null : Valid .null
  | bool (value : Bool) : Valid (.bool value)
  | int (value : Int) : Valid (.int value)
  | float (value : F) : Valid (.float value)
  | str {value : Text} (h : value.Valid) : Valid (.str value)
  | list {items : List (Value F)} (h : ∀ item ∈ items, Valid item) : Valid (.list items)
  | dict {fields : List (Text × Value F)} (hkeys : (fields.map Prod.fst).Nodup) (htexts : ∀ field ∈ fields, field.1.Valid)
      (h : ∀ field ∈ fields, Valid field.2) : Valid (.dict fields)

mutual
def Value.finite (floats : Floats F) : Value F → Bool
  | .float value => (floats.write value).isSome
  | .list items => finiteItems floats items
  | .dict fields => finiteFields floats fields
  | _ => true

def finiteItems (floats : Floats F) : List (Value F) → Bool
  | [] => true
  | item :: rest => item.finite floats && finiteItems floats rest

def finiteFields (floats : Floats F) : List (Text × Value F) → Bool
  | [] => true
  | (_, value) :: rest => value.finite floats && finiteFields floats rest
end

mutual
/-- The document of a value, the fields of every object in the order of their keys. -/
def Value.toDoc (floats : Floats F) : Value F → Doc
  | .null => .plain ['n', 'u', 'l', 'l']
  | .bool true => .plain ['t', 'r', 'u', 'e']
  | .bool false => .plain ['f', 'a', 'l', 's', 'e']
  | .int value => .plain (intText value)
  | .float value => .plain ((floats.write value).getD ['N', 'a', 'N'])
  | .str value => .text (spellText value)
  | .list items => .array (itemsToDocs floats items)
  | .dict fields =>
      .object ((Sorting.sortByKey Prod.fst (fieldsToDocs floats fields)).map fun field => (spellText field.1, field.2))

def itemsToDocs (floats : Floats F) : List (Value F) → List Doc
  | [] => []
  | item :: rest => item.toDoc floats :: itemsToDocs floats rest

def fieldsToDocs (floats : Floats F) : List (Text × Value F) → List (Text × Doc)
  | [] => []
  | (key, value) :: rest => (key, value.toDoc floats) :: fieldsToDocs floats rest
end

mutual
def Value.texts : Value F → List Text
  | .str value => [value]
  | .list items => itemsTexts items
  | .dict fields => fieldsTexts fields
  | _ => []

def itemsTexts : List (Value F) → List Text
  | [] => []
  | item :: rest => item.texts ++ itemsTexts rest

def fieldsTexts : List (Text × Value F) → List Text
  | [] => []
  | (key, value) :: rest => key :: (value.texts ++ fieldsTexts rest)
end

mutual
/-- The document of a value with its texts spelled in some way, the fields of every object in the order of their keys. -/
def Value.spelled (spell : Text → List Piece) (floats : Floats F) : Value F → Doc
  | .null => .plain ['n', 'u', 'l', 'l']
  | .bool true => .plain ['t', 'r', 'u', 'e']
  | .bool false => .plain ['f', 'a', 'l', 's', 'e']
  | .int value => .plain (intText value)
  | .float value => .plain ((floats.write value).getD ['N', 'a', 'N'])
  | .str value => .text (spell value)
  | .list items => .array (itemsSpelled spell floats items)
  | .dict fields =>
      .object ((Sorting.sortByKey Prod.fst (fieldsSpelled spell floats fields)).map fun field => (spell field.1, field.2))

def itemsSpelled (spell : Text → List Piece) (floats : Floats F) : List (Value F) → List Doc
  | [] => []
  | item :: rest => item.spelled spell floats :: itemsSpelled spell floats rest

def fieldsSpelled (spell : Text → List Piece) (floats : Floats F) : List (Text × Value F) → List (Text × Doc)
  | [] => []
  | (key, value) :: rest => (key, value.spelled spell floats) :: fieldsSpelled spell floats rest
end

def dumps (floats : Floats F) (v : Value F) : Except String (List Char) :=
  if v.finite floats then .ok (v.toDoc floats).render else .error "Out of range float values are not JSON compliant"

def readToken (floats : Floats F) (token : List Char) : Except String (Value F) :=
  if token = ['n', 'u', 'l', 'l'] then .ok .null
  else if token = ['t', 'r', 'u', 'e'] then .ok (.bool true)
  else if token = ['f', 'a', 'l', 's', 'e'] then .ok (.bool false)
  else if isReal token then
    match floats.read token with
    | some value => .ok (.float value)
    | none => .error "JSON number exceeds finite float range"
  else .ok (.int (intOf token))

mutual
def readDoc (floats : Floats F) : Doc → Except String (Value F)
  | .plain token => readToken floats token
  | .text pieces => .ok (.str (readText pieces))
  | .array items => (readItems floats items).map .list
  | .object fields =>
      (readFields floats fields).bind fun found =>
        if (found.map Prod.fst).Nodup then .ok (.dict found) else .error "duplicate JSON key"

def readItems (floats : Floats F) : List Doc → Except String (List (Value F))
  | [] => .ok []
  | item :: rest => (readDoc floats item).bind fun value => (readItems floats rest).map fun values => value :: values

def readFields (floats : Floats F) : List (List Piece × Doc) → Except String (List (Text × Value F))
  | [] => .ok []
  | (pieces, value) :: rest =>
      (readDoc floats value).bind fun value => (readFields floats rest).map fun found => (readText pieces, value) :: found
end

def loads (floats : Floats F) (raw : List Char) : Except String (Value F) :=
  match parse raw with
  | some d => readDoc floats d
  | none => .error "Not a JSON document"

mutual
def Value.normal : Value F → Value F
  | .list items => .list (normalItems items)
  | .dict fields => .dict (Sorting.sortByKey Prod.fst (normalFields fields))
  | other => other

def normalItems : List (Value F) → List (Value F)
  | [] => []
  | item :: rest => item.normal :: normalItems rest

def normalFields : List (Text × Value F) → List (Text × Value F)
  | [] => []
  | (key, value) :: rest => (key, value.normal) :: normalFields rest
end

variable {floats : Floats F}

theorem itemsToDocs_eq (items : List (Value F)) : itemsToDocs floats items = items.map (Value.toDoc floats) := by
  induction items with
  | nil => rfl
  | cons item rest ih => rw [itemsToDocs, ih, List.map_cons]

theorem fieldsToDocs_eq (fields : List (Text × Value F)) :
    fieldsToDocs floats fields = fields.map fun field => (field.1, field.2.toDoc floats) := by
  induction fields with
  | nil => rfl
  | cons field rest ih => rw [fieldsToDocs, ih, List.map_cons]

theorem normalItems_eq (items : List (Value F)) : normalItems items = items.map Value.normal := by
  induction items with
  | nil => rfl
  | cons item rest ih => rw [normalItems, ih, List.map_cons]

theorem normalFields_eq (fields : List (Text × Value F)) :
    normalFields fields = fields.map fun field => (field.1, field.2.normal) := by
  induction fields with
  | nil => rfl
  | cons field rest ih => rw [normalFields, ih, List.map_cons]

theorem finiteItems_eq (items : List (Value F)) : finiteItems floats items = items.all (Value.finite floats) := by
  induction items with
  | nil => rfl
  | cons item rest ih => rw [finiteItems, ih, List.all_cons]

theorem finiteFields_eq (fields : List (Text × Value F)) :
    finiteFields floats fields = fields.all fun field => field.2.finite floats := by
  induction fields with
  | nil => rfl
  | cons field rest ih => rw [finiteFields, ih, List.all_cons]

theorem itemsTexts_eq (items : List (Value F)) : itemsTexts items = items.flatMap Value.texts := by
  induction items with
  | nil => rfl
  | cons item rest ih => rw [itemsTexts, ih, List.flatMap_cons]

theorem fieldsTexts_eq (fields : List (Text × Value F)) :
    fieldsTexts fields = fields.flatMap fun field => field.1 :: field.2.texts := by
  induction fields with
  | nil => rfl
  | cons field rest ih => rw [fieldsTexts, ih, List.flatMap_cons, List.cons_append]

theorem itemsSpelled_eq (spell : Text → List Piece) (items : List (Value F)) :
    itemsSpelled spell floats items = items.map (Value.spelled spell floats) := by
  induction items with
  | nil => rfl
  | cons item rest ih => rw [itemsSpelled, ih, List.map_cons]

theorem fieldsSpelled_eq (spell : Text → List Piece) (fields : List (Text × Value F)) :
    fieldsSpelled spell floats fields = fields.map fun field => (field.1, field.2.spelled spell floats) := by
  induction fields with
  | nil => rfl
  | cons field rest ih => rw [fieldsSpelled, ih, List.map_cons]

theorem sortByKey_map {α β : Type} (f : α → β) (fields : List (Text × α)) :
    Sorting.sortByKey Prod.fst (fields.map fun field => (field.1, f field.2)) =
      (Sorting.sortByKey Prod.fst fields).map fun field => (field.1, f field.2) :=
  (List.map_insertionSort (fun a b : Text × α => a.1 ≤ b.1) (fun a b : Text × β => a.1 ≤ b.1)
    (fun field => (field.1, f field.2)) fields fun _ _ _ _ => Iff.rfl).symm

/-- A text is read back from its spelling. -/
structure Spells (spell : Text → List Piece) (t : Text) : Prop where
  valid : (spell t).all Piece.valid = true
  read : readText (spell t) = t

theorem toDoc_eq_spelled (v : Value F) : v.toDoc floats = v.spelled spellText floats := by
  induction v using Value.induct with
  | null => rfl
  | bool value => cases value <;> rfl
  | int value => rfl
  | float value => rfl
  | str value => rfl
  | list items ih => rw [Value.toDoc, Value.spelled, itemsToDocs_eq, itemsSpelled_eq, List.map_congr_left ih]
  | dict fields ih =>
      have hfields : (fields.map fun field => (field.1, field.2.toDoc floats)) =
          fields.map fun field => (field.1, field.2.spelled spellText floats) :=
        List.map_congr_left fun field hfield => by rw [ih field hfield]
      rw [Value.toDoc, Value.spelled, fieldsToDocs_eq, fieldsSpelled_eq, hfields]

theorem texts_list {items : List (Value F)} {item : Value F} (h : item ∈ items) (ht : t ∈ item.texts) :
    t ∈ (Value.list items).texts := by
  rw [Value.texts, itemsTexts_eq]
  exact List.mem_flatMap.2 ⟨item, h, ht⟩

theorem texts_dict {fields : List (Text × Value F)} {field : Text × Value F} (h : field ∈ fields)
    (ht : t = field.1 ∨ t ∈ field.2.texts) : t ∈ (Value.dict fields).texts := by
  rw [Value.texts, fieldsTexts_eq]
  exact List.mem_flatMap.2 ⟨field, h, List.mem_cons.2 ht⟩

theorem texts_valid {v : Value F} (h : v.Valid) : ∀ t ∈ v.texts, t.Valid := by
  induction h with
  | null => exact fun _ ht => (List.not_mem_nil ht).elim
  | bool value => exact fun _ ht => (List.not_mem_nil ht).elim
  | int value => exact fun _ ht => (List.not_mem_nil ht).elim
  | float value => exact fun _ ht => (List.not_mem_nil ht).elim
  | str h =>
      intro t ht
      rw [List.mem_singleton.1 ht]
      exact h
  | list _ ih =>
      intro t ht
      rw [Value.texts, itemsTexts_eq] at ht
      obtain ⟨item, hitem, ht⟩ := List.mem_flatMap.1 ht
      exact ih item hitem t ht
  | dict _ htexts _ ih =>
      intro t ht
      rw [Value.texts, fieldsTexts_eq] at ht
      obtain ⟨field, hfield, ht⟩ := List.mem_flatMap.1 ht
      obtain rfl | ht := List.mem_cons.1 ht
      · exact htexts field hfield
      · exact ih field hfield t ht

theorem spells_spellText {v : Value F} (h : v.Valid) : ∀ t ∈ v.texts, Spells spellText t :=
  fun t ht => ⟨spellText_valid (texts_valid h t ht), readText_spellText (texts_valid h t ht)⟩

section

variable {spell : Text → List Piece}

theorem spelled_valid {v : Value F} (hfinite : v.finite floats = true) (hspell : ∀ t ∈ v.texts, Spells spell t) :
    (v.spelled spell floats).Valid := by
  induction v using Value.induct with
  | null => exact .plain (by decide)
  | bool value => cases value <;> exact .plain (by decide)
  | int value =>
      refine .plain ?_
      rw [isPlain, isNumber_intText, Bool.or_true]
  | float value =>
      obtain ⟨token, hwrite⟩ := Option.isSome_iff_exists.1 hfinite
      rw [Value.spelled, hwrite]
      refine .plain ?_
      rw [Option.getD_some, isPlain, (floats.lawful hwrite).1, Bool.or_true]
  | str value => exact .text (hspell value (List.mem_singleton.2 rfl)).valid
  | list items ih =>
      rw [Value.finite, finiteItems_eq, List.all_eq_true] at hfinite
      rw [Value.spelled, itemsSpelled_eq]
      refine .array fun item hitem => ?_
      obtain ⟨value, hvalue, rfl⟩ := List.mem_map.1 hitem
      exact ih value hvalue (hfinite value hvalue) fun t ht => hspell t (texts_list hvalue ht)
  | dict fields ih =>
      rw [Value.finite, finiteFields_eq, List.all_eq_true] at hfinite
      rw [Value.spelled, fieldsSpelled_eq, sortByKey_map, List.map_map]
      refine .object (fun field hfield => ?_) fun field hfield => ?_
      · obtain ⟨member, hmember, rfl⟩ := List.mem_map.1 hfield
        exact (hspell member.1 (texts_dict (Sorting.mem_sortByKey.1 hmember) (.inl rfl))).valid
      · obtain ⟨member, hmember, rfl⟩ := List.mem_map.1 hfield
        have hmem := Sorting.mem_sortByKey.1 hmember
        exact ih member hmem (hfinite member hmem) fun t ht => hspell t (texts_dict hmem (.inr ht))

theorem readToken_number {token : List Char} (h : isNumber token = true) :
    readToken floats token = if isReal token then
      match floats.read token with
      | some value => .ok (.float value)
      | none => .error "JSON number exceeds finite float range"
    else .ok (.int (intOf token)) := by
  have hne : ∀ other, isNumber other = false → token ≠ other := by
    rintro other hother rfl
    rw [h] at hother
    cases hother
  rw [readToken, if_neg (hne _ (by decide)), if_neg (hne _ (by decide)), if_neg (hne _ (by decide))]

theorem readItems_map {items : List (Value F)} {f : Value F → Doc} {g : Value F → Value F}
    (h : ∀ item ∈ items, readDoc floats (f item) = .ok (g item)) : readItems floats (items.map f) = .ok (items.map g) := by
  induction items with
  | nil => rfl
  | cons item rest ih =>
      rw [List.map_cons, readItems, h item (List.mem_cons_self ..), ih fun other hother => h other (List.mem_cons_of_mem _ hother)]
      rfl

theorem readFields_map {fields : List (Text × Value F)} {f : Value F → Doc} {g : Value F → Value F}
    (htexts : ∀ field ∈ fields, Spells spell field.1) (h : ∀ field ∈ fields, readDoc floats (f field.2) = .ok (g field.2)) :
    readFields floats (fields.map fun field => (spell field.1, f field.2)) =
      .ok (fields.map fun field => (field.1, g field.2)) := by
  induction fields with
  | nil => rfl
  | cons field rest ih =>
      rw [List.map_cons, readFields, h field (List.mem_cons_self ..), (htexts field (List.mem_cons_self ..)).read,
        ih (fun other hother => htexts other (List.mem_cons_of_mem _ hother)) fun other hother => h other (List.mem_cons_of_mem _ hother)]
      rfl

/-- A value is read back from its document where its texts are read back from their spellings. -/
theorem readDoc_spelled {v : Value F} (h : v.Valid) (hfinite : v.finite floats = true) (hspell : ∀ t ∈ v.texts, Spells spell t) :
    readDoc floats (v.spelled spell floats) = .ok v.normal := by
  induction h with
  | null => rfl
  | bool value => cases value <;> rfl
  | int value =>
      rw [Value.spelled, readDoc, readToken_number (isNumber_intText value), isReal_intText, intOf_intText]
      rfl
  | float value =>
      obtain ⟨token, hwrite⟩ := Option.isSome_iff_exists.1 hfinite
      obtain ⟨hnumber, hreal, hread⟩ := floats.lawful hwrite
      rw [Value.spelled, hwrite, Option.getD_some, readDoc, readToken_number hnumber, hreal, hread]
      rfl
  | @str value _ =>
      rw [Value.spelled, readDoc, (hspell value (List.mem_singleton.2 rfl)).read]
      rfl
  | @list items _ ih =>
      rw [Value.finite, finiteItems_eq, List.all_eq_true] at hfinite
      rw [Value.spelled, itemsSpelled_eq, readDoc,
        readItems_map fun item hitem => ih item hitem (hfinite item hitem) fun t ht => hspell t (texts_list hitem ht),
        Value.normal, normalItems_eq]
      rfl
  | @dict fields hkeys htexts _ ih =>
      rw [Value.finite, finiteFields_eq, List.all_eq_true] at hfinite
      have hsorted : ∀ field ∈ Sorting.sortByKey Prod.fst fields, field ∈ fields := fun _ hfield => Sorting.mem_sortByKey.1 hfield
      have hnodup : (((Sorting.sortByKey Prod.fst fields).map fun field => (field.1, field.2.normal)).map Prod.fst).Nodup := by
        rw [List.map_map]
        exact ((Sorting.sortByKey_perm Prod.fst fields).map Prod.fst).nodup_iff.2 hkeys
      rw [Value.spelled, fieldsSpelled_eq, sortByKey_map, List.map_map, readDoc]
      show (readFields floats ((Sorting.sortByKey Prod.fst fields).map fun field => (spell field.1, field.2.spelled spell floats))).bind _ = _
      rw [readFields_map (fun field hfield => hspell field.1 (texts_dict (hsorted field hfield) (.inl rfl)))
        fun field hfield => ih field (hsorted field hfield) (hfinite field (hsorted field hfield))
          fun t ht => hspell t (texts_dict (hsorted field hfield) (.inr ht)), Value.normal, normalFields_eq, sortByKey_map]
      show (if _ then _ else _) = _
      rw [if_pos hnodup]

theorem loads_spelled {v : Value F} (h : v.Valid) (hfinite : v.finite floats = true) (hspell : ∀ t ∈ v.texts, Spells spell t) :
    loads floats (v.spelled spell floats).render = .ok v.normal := by
  rw [loads, parse_render (spelled_valid hfinite hspell)]
  exact readDoc_spelled h hfinite hspell

end

theorem loads_dumps {v : Value F} {raw : List Char} (h : v.Valid) (hraw : dumps floats v = .ok raw) :
    loads floats raw = .ok v.normal := by
  rw [dumps] at hraw
  split_ifs at hraw with hfinite
  rw [← Except.ok.inj hraw, toDoc_eq_spelled]
  exact loads_spelled h hfinite (spells_spellText h)

def Value.size (floats : Floats F) (v : Value F) : Nat := (v.toDoc floats).render.length

theorem length_of_dumps {v : Value F} {raw : List Char} (h : dumps floats v = .ok raw) : raw.length = v.size floats := by
  rw [dumps] at h
  split_ifs at h
  rw [← Except.ok.inj h]
  rfl

def weigh (weight : Char → Nat) (s : List Char) : Nat := (s.map weight).sum

theorem weigh_cons (weight : Char → Nat) (c : Char) (s : List Char) : weigh weight (c :: s) = weight c + weigh weight s := by
  rw [weigh, weigh, List.map_cons, List.sum_cons]

theorem weigh_append (weight : Char → Nat) (s t : List Char) : weigh weight (s ++ t) = weigh weight s + weigh weight t := by
  rw [weigh, weigh, weigh, List.map_append, List.sum_append]

theorem weigh_one (s : List Char) : weigh (fun _ => 1) s = s.length := by
  induction s with
  | nil => rfl
  | cons c rest ih => rw [weigh_cons, ih, List.length_cons, Nat.add_comm]

/-- Each mark between the tokens of a document weighs one. -/
structure Marks (weight : Char → Nat) : Prop where
  comma : weight ',' = 1
  quote : weight '"' = 1
  colon : weight ':' = 1
  list : weight '[' = 1 ∧ weight ']' = 1
  object : weight '\x7b' = 1 ∧ weight '\x7d' = 1

theorem marks_one : Marks fun _ => 1 := ⟨rfl, rfl, rfl, ⟨rfl, rfl⟩, ⟨rfl, rfl⟩⟩

def Value.weight (weight : Char → Nat) (spell : Text → List Piece) (floats : Floats F) (v : Value F) : Nat :=
  weigh weight (v.spelled spell floats).render

/-- What a field weighs beside its value: the key, two quotation marks and a colon. -/
def keyWeight (weight : Char → Nat) (spell : Text → List Piece) (key : Text) : Nat := weigh weight (spellPieces (spell key)) + 3

section

variable {weight : Char → Nat} {spell : Text → List Piece}

theorem weigh_renderItems (h : Marks weight) (docs : List Doc) :
    weigh weight (renderItems docs) = (docs.map fun d => weigh weight d.render).sum + (docs.length - 1) := by
  induction docs with
  | nil => rfl
  | cons d rest ih =>
      cases rest with
      | nil => simp [renderItems]
      | cons next rest =>
          rw [renderItems, weigh_append, weigh_cons, h.comma, ih]
          simp only [List.map_cons, List.sum_cons, List.length_cons]
          omega

theorem weigh_renderFields (h : Marks weight) (fields : List (List Piece × Doc)) :
    weigh weight (renderFields fields) =
      (fields.map fun field => weigh weight (spellPieces field.1) + 3 + weigh weight field.2.render).sum + (fields.length - 1) := by
  induction fields with
  | nil => rfl
  | cons field rest ih =>
      obtain ⟨key, value⟩ := field
      cases rest with
      | nil =>
          simp only [renderFields, weigh_cons, weigh_append, h.quote, h.colon, List.map_cons, List.map_nil, List.sum_cons, List.sum_nil,
            List.length_cons, List.length_nil]
          omega
      | cons next rest =>
          rw [renderFields]
          simp only [weigh_cons, weigh_append, h.quote, h.colon, h.comma, ih, List.map_cons, List.sum_cons, List.length_cons]
          omega

theorem weight_list (h : Marks weight) (items : List (Value F)) :
    (Value.list items).weight weight spell floats = (items.map (Value.weight weight spell floats)).sum + (items.length - 1) + 2 := by
  rw [Value.weight, Value.spelled, itemsSpelled_eq, Doc.render, weigh_cons, weigh_append, weigh_renderItems h, h.list.1, List.map_map,
    List.length_map, weigh_cons, h.list.2]
  show 1 + ((items.map (Value.weight weight spell floats)).sum + (items.length - 1) + (1 + 0)) = _
  omega

theorem weight_dict (h : Marks weight) (fields : List (Text × Value F)) :
    (Value.dict fields).weight weight spell floats =
      (fields.map fun field => keyWeight weight spell field.1 + field.2.weight weight spell floats).sum + (fields.length - 1) + 2 := by
  have hperm := Sorting.sortByKey_perm Prod.fst fields
  rw [Value.weight, Value.spelled, fieldsSpelled_eq, sortByKey_map, Doc.render, weigh_cons, weigh_append, weigh_renderFields h,
    h.object.1, List.map_map, List.map_map, List.length_map, List.length_map, hperm.length_eq, weigh_cons, h.object.2]
  have hsum := (hperm.map fun field => keyWeight weight spell field.1 + field.2.weight weight spell floats).sum_nat
  show 1 + (((Sorting.sortByKey Prod.fst fields).map fun field =>
    keyWeight weight spell field.1 + field.2.weight weight spell floats).sum + (fields.length - 1) + (1 + 0)) = _
  omega

end

theorem size_eq_weight (v : Value F) : v.size floats = v.weight (fun _ => 1) spellText floats := by
  rw [Value.size, Value.weight, weigh_one, toDoc_eq_spelled]

/-- What a field takes beside its value: the key, two quotation marks and a colon. -/
def keySize (key : Text) : Nat := (spellPieces (spellText key)).length + 3

def Value.get? (v : Value F) (key : Text) : Option (Value F) :=
  match v with
  | .dict fields => IndexMap.lookupEntry key fields
  | _ => none

theorem lookupEntry_perm {α : Type} {entries others : List (Text × α)} (hperm : entries.Perm others)
    (hnodup : (entries.map Prod.fst).Nodup) (key : Text) :
    IndexMap.lookupEntry key entries = IndexMap.lookupEntry key others := by
  have hnodup' : (others.map Prod.fst).Nodup := (hperm.map Prod.fst).nodup_iff.1 hnodup
  refine Option.ext fun value => ⟨fun h => ?_, fun h => ?_⟩
  · exact IndexMap.lookupEntry_of_mem hnodup' (hperm.mem_iff.1 (IndexMap.lookupEntry_eq_some h))
  · exact IndexMap.lookupEntry_of_mem hnodup (hperm.mem_iff.2 (IndexMap.lookupEntry_eq_some h))

theorem get?_normal {fields : List (Text × Value F)} (hkeys : (fields.map Prod.fst).Nodup) (key : Text) :
    (Value.dict fields).normal.get? key = (IndexMap.lookupEntry key fields).map Value.normal := by
  have hmap : (normalFields fields).map Prod.fst = fields.map Prod.fst := by
    rw [normalFields_eq, List.map_map]
    rfl
  rw [Value.normal, Value.get?, lookupEntry_perm (Sorting.sortByKey_perm Prod.fst _) _ key, normalFields_eq,
    IndexMap.lookupEntry_map]
  rw [((Sorting.sortByKey_perm Prod.fst _).map Prod.fst).nodup_iff, hmap]
  exact hkeys

end PythonJson
