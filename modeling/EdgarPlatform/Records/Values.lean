import EdgarPlatform.Library.IndexMap
import EdgarPlatform.Library.Runs
import Mathlib.Data.Rat.Floor

/-!
# Record values

The JSON values the calculations share. A number keeps the text it was written in, since a content hash is over that text. An object is read as a map in which a key written twice holds what it was written with last.
-/

namespace EdgarPlatform.Records

inductive Json where
  | null
  | bool (value : Bool)
  /-- A number, as the text it was written in. -/
  | num (lexeme : String)
  | str (value : String)
  | arr (items : List Json)
  | obj (fields : List (String × Json))

mutual
def Json.same : Json → Json → Bool
  | .null, .null => true
  | .bool a, .bool b => a == b
  | .num a, .num b => a == b
  | .str a, .str b => a == b
  | .arr a, .arr b => sameItems a b
  | .obj a, .obj b => sameFields a b
  | _, _ => false

def sameItems : List Json → List Json → Bool
  | [], [] => true
  | a :: rest, b :: rest' => a.same b && sameItems rest rest'
  | _, _ => false

def sameFields : List (String × Json) → List (String × Json) → Bool
  | [], [] => true
  | (k, a) :: rest, (k', b) :: rest' => k == k' && a.same b && sameFields rest rest'
  | _, _ => false
end

mutual
theorem Json.same_iff (a b : Json) : a.same b = true ↔ a = b := by
  cases a with
  | null => cases b <;> simp [Json.same]
  | bool x => cases b <;> simp [Json.same]
  | num x => cases b <;> simp [Json.same]
  | str x => cases b <;> simp [Json.same]
  | arr x => cases b <;> simp [Json.same, sameItems_iff x]
  | obj x => cases b <;> simp [Json.same, sameFields_iff x]

theorem sameItems_iff (xs ys : List Json) : sameItems xs ys = true ↔ xs = ys := by
  cases xs with
  | nil => cases ys <;> simp [sameItems]
  | cons x rest =>
      cases ys with
      | nil => simp [sameItems]
      | cons y rest' => simp [sameItems, x.same_iff y, sameItems_iff rest rest']

theorem sameFields_iff (xs ys : List (String × Json)) : sameFields xs ys = true ↔ xs = ys := by
  cases xs with
  | nil => cases ys <;> simp [sameFields]
  | cons x rest =>
      obtain ⟨k, j⟩ := x
      cases ys with
      | nil => simp [sameFields]
      | cons y rest' =>
          obtain ⟨k', j'⟩ := y
          simp [sameFields, j.same_iff j', sameFields_iff rest rest', and_assoc]
end

instance : DecidableEq Json := fun a b => decidable_of_iff (a.same b = true) (a.same_iff b)

abbrev Object := IndexMap String Json

def readText (body : Object) (key : String) : Except String String :=
  match body.get? key with
  | none => .error ("Missing record field: " ++ key)
  | some (.str value) => .ok value
  | some _ => .error "Invalid record value"

def readOptionalValue (body : Object) (key : String) : Json := (body.get? key).getD .null

def readTexts : Json → Except String (List String)
  | .arr items => items.mapM fun item =>
      match item with
      | .str value => .ok value
      | _ => .error "Invalid record value"
  | _ => .error "Invalid record value"

def readString : Json → Except String String
  | .str value => .ok value
  | _ => .error "Invalid record value"

def readFields : Json → Except String Object
  | .obj fields => .ok (.ofList fields)
  | _ => .error "Invalid record value"

def readObject (body : Object) (key : String) : Except String Object :=
  (body.get? key).elim (.ok .empty) readFields

def readArray (body : Object) (key : String) : Except String (List Json) :=
  match body.get? key with
  | none => .ok []
  | some (.arr items) => .ok items
  | some _ => .error "Invalid record value"

/-- The digits of a number's text before its exponent, and the exponent of its last digit. -/
def readDigits : List Char → Bool → Nat → Int → Nat × Int
  | [], _, mantissa, scale => (mantissa, scale)
  | c :: rest, fraction, mantissa, scale =>
      if c.isDigit then
        readDigits rest fraction (10 * mantissa + (c.toNat - '0'.toNat)) (if fraction then scale - 1 else scale)
      else if c = '.' then readDigits rest true mantissa scale
      else if c = 'e' ∨ c = 'E' then
        (mantissa, scale + ((String.ofList (rest.filter (· ≠ '+'))).toInt?.getD 0))
      else readDigits rest fraction mantissa scale

/-- A number's text is read as a double that is not zero: its magnitude is over half the least positive one. -/
def numberHasContent (lexeme : String) : Bool :=
  let (mantissa, scale) := readDigits lexeme.toList false 0 0
  if 0 ≤ scale then mantissa ≠ 0 else 10 ^ scale.natAbs < mantissa * 2 ^ 1075

def hasContent : Json → Bool
  | .null => false
  | .bool value => value
  | .num lexeme => numberHasContent lexeme
  | .str value => value ≠ ""
  | .arr items => items.length ≠ 0
  | .obj fields => fields.length ≠ 0

def hasValue (body : Object) (key : String) : Bool := (body.get? key).any hasContent

def writeChar (c : Char) : List Char :=
  if c = '"' then ['\\', '"']
  else if c = '\\' then ['\\', '\\']
  else if c.toNat = 8 then ['\\', 'b']
  else if c.toNat = 9 then ['\\', 't']
  else if c.toNat = 10 then ['\\', 'n']
  else if c.toNat = 12 then ['\\', 'f']
  else if c.toNat = 13 then ['\\', 'r']
  else if c.toNat < 32 then
    ['\\', 'u', '0', '0', Nat.digitChar (c.toNat / 16), Nat.digitChar (c.toNat % 16)]
  else [c]

def writeString (value : String) : String :=
  "\"" ++ String.ofList (value.toList.flatMap writeChar) ++ "\""

mutual
/-- The text of a value without blanks, each object's keys in order or as they stand. Number texts are kept. -/
def writeJson (sorted : Bool) : Json → String
  | .null => "null"
  | .bool value => if value then "true" else "false"
  | .num lexeme => lexeme
  | .str value => writeString value
  | .arr items => "[" ++ ",".intercalate (writeItems sorted items) ++ "]"
  | .obj fields =>
      let written := writeFields sorted fields
      let written := if sorted then Sorting.sortByKey Prod.fst (IndexMap.ofList written).entries else written
      "\x7b" ++ ",".intercalate (written.map fun field => writeString field.1 ++ ":" ++ field.2) ++ "\x7d"

def writeItems (sorted : Bool) : List Json → List String
  | [] => []
  | item :: rest => writeJson sorted item :: writeItems sorted rest

def writeFields (sorted : Bool) : List (String × Json) → List (String × String)
  | [] => []
  | (key, value) :: rest => (key, writeJson sorted value) :: writeFields sorted rest
end

def writeSortedJson (value : Json) : String := writeJson true value

def calculateContentHash (digest : String → String) (value : Json) : String := digest (writeSortedJson value)

def Object.toJson (body : Object) : Json := .obj body.entries

example : writeSortedJson (.obj [("z", .num "1.0"), ("a", .str "x\n"), ("z", .bool true)]) =
    "\x7b\"a\":\"x\\n\",\"z\":true\x7d" := by decide +kernel

/-! ### Comparing record values

Two values match when they are equal as Python values. A number's text is an integer, exact at any size, unless it has a point or an exponent: then it is the double nearest to it. Truth values count as the numbers 1 and 0.
-/

/-- What reading a number's text as a double gives. It is never a NaN, and the two zeros compare equal. -/
inductive Double where
  | finite (value : ℚ)
  | infinite (negative : Bool)
  deriving DecidableEq

def roundHalfEven (q : ℚ) : Int :=
  let below := ⌊q⌋
  if q - below < 1 / 2 then below
  else if 1 / 2 < q - below then below + 1
  else if below % 2 = 0 then below
  else below + 1

def binaryExponent (q : ℚ) : Int :=
  let guess : Int := (q.num.natAbs.log2 : Int) - (q.den.log2 : Int)
  if (2 : ℚ) ^ guess ≤ q then guess else guess - 1

/-- The double nearest to a rational, of 53 bits above the least positive one. -/
def roundDouble (q : ℚ) : Double :=
  if q = 0 then .finite 0
  else
    let unit : ℚ := 2 ^ max (binaryExponent |q| - 52) (-1074)
    let rounded := roundHalfEven (q / unit) * unit
    if 2 ^ 1024 ≤ |rounded| then .infinite (q < 0) else .finite rounded

def readRational (lexeme : String) : ℚ :=
  let (mantissa, scale) := readDigits lexeme.toList false 0 0
  (if lexeme.toList.head? = some '-' then -(mantissa : ℚ) else mantissa) * 10 ^ scale

def readDouble (lexeme : String) : Double := roundDouble (readRational lexeme)

def readNumberText : Json → Option String
  | .bool true => some "1"
  | .bool false => some "0"
  | .num lexeme => some lexeme
  | _ => none

def isInteger (lexeme : String) : Bool := lexeme.toList.all fun c => c ≠ '.' ∧ c ≠ 'e' ∧ c ≠ 'E'

def integerMatches (integer : String) : Double → Bool
  | .infinite _ => false
  | .finite value => value.den = 1 ∧ integer = toString value.num

def numbersMatch (a b : String) : Bool :=
  if isInteger a then if isInteger b then a = b else integerMatches a (readDouble b)
  else if isInteger b then integerMatches b (readDouble a)
  else readDouble a = readDouble b

mutual
/-- Two values match. Reading a part of a JSON value never fails. -/
def valuesMatch : Json → Json → Bool
  | .arr a, .arr b => itemsMatch a b
  | .obj a, .obj b => (IndexMap.ofList a).size = (IndexMap.ofList b).size ∧ fieldsMatch a (.ofList b) = true
  | .str a, .str b => a = b
  | .null, .null => true
  | a, b =>
      match readNumberText a, readNumberText b with
      | some a, some b => numbersMatch a b
      | _, _ => false

def itemsMatch : List Json → List Json → Bool
  | [], [] => true
  | a :: rest, b :: rest' => valuesMatch a b && itemsMatch rest rest'
  | _, _ => false

/-- Each field has a match. Of fields of one name the last is the object's. -/
def fieldsMatch : List (String × Json) → Object → Bool
  | [], _ => true
  | (key, value) :: rest, other =>
      (if key ∈ rest.map Prod.fst then true
        else match other.get? key with
          | none => false
          | some found => valuesMatch value found) && fieldsMatch rest other
end

example : valuesMatch (.num "1") (.num "1.0") = true ∧ valuesMatch (.bool false) (.num "-0.0") = true ∧
    valuesMatch (.num "9007199254740993") (.num "9007199254740992.0") = false ∧
    valuesMatch (.obj [("x", .arr [.num "1", .bool true])]) (.obj [("x", .arr [.num "1.0", .num "1"])]) = true := by
  decide +kernel

end EdgarPlatform.Records
