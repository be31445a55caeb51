import EdgarPlatform.Library.SortedMap
import EdgarPlatform.Records.Values

/-!
# The tree the readers build

Every reader builds one kind of tree, so that paths and checks read JSON and delimited text the same way. A JSON object's `$` is the text of its element and its `@x` are attributes; every other key is a child.
-/

namespace EdgarPlatform.Formats

open Records (Json)

inductive ScalarKind where
  | text
  | number
  | boolean
deriving DecidableEq

inductive Child (α : Type) where
  | one (el : α)
  | many (rows : List α)

structure El where
  text : Option String := none
  attrs : SortedMap String String := .empty
  /-- By name, in order. -/
  children : List (String × Child El) := []
  /-- A JSON scalar or a cell: a value, not an element holding one. -/
  scalar : Bool := false
  kind : ScalarKind := .text
  exactNumber : Option String := none
  /-- A JSON array, distinct from an object with an `item` key. -/
  array : Bool := false
  jsonKeys : Option (List String) := none

def El.ofScalar (text : Option String) : El := { text := text, scalar := true }

def El.child (el : El) (name : String) : Option (Child El) := IndexMap.lookupEntry name el.children

def El.setChild (el : El) (name : String) (child : Child El) : El :=
  { el with children := SortedMap.insertEntry name child el.children }

/-- A child under a name; another of the name makes them a list. -/
def El.addChild (el : El) (name : String) (child : El) : El :=
  el.setChild name <|
    match el.child name with
    | none => .one child
    | some (.one prev) => .many [prev, child]
    | some (.many rows) => .many (rows ++ [child])

@[simp] theorem El.child_setChild (el : El) (name other : String) (child : Child El) :
    (el.setChild name child).child other = if other = name then some child else el.child other :=
  SortedMap.lookupEntry_insertEntry name other child el.children

/-- A record as the readers hand it on: text under `$`, attributes under `@x`, a repeated child as a list. -/
inductive Raw where
  | null
  | text (value : String)
  | list (items : List Raw)
  | map (entries : List (String × Raw))

mutual

def El.raw (el : El) : Raw :=
  match el with
  | ⟨text, attrs, children, scalar, _, _, _, _⟩ =>
      if scalar then text.elim .null .text
      else
        let map : SortedMap String Raw := text.elim .empty fun text => SortedMap.empty.insert "$" (.text text)
        .map ((map.extend (attrs.entries.map fun entry => (entry.1, .text entry.2))).extend (rawChildren children)).entries
termination_by structural el

def rawChildren (children : List (String × Child El)) : List (String × Raw) :=
  match children with
  | [] => []
  | (name, .one el) :: rest => (name, el.raw) :: rawChildren rest
  | (name, .many rows) :: rest => (name, .list (rawRows rows)) :: rawChildren rest
termination_by structural children

def rawRows (rows : List El) : List Raw :=
  match rows with
  | [] => []
  | el :: rest => el.raw :: rawRows rest
termination_by structural rows

end

def isAttribute (key : String) : Bool := key.toList.head? = some '@'

/-- A field that is a text: `$` is the text of its element and `@x` an attribute. -/
def El.writeText (el : El) (key text : String) : El :=
  if key = "$" then { el with text := some text }
  else if isAttribute key then { el with attrs := el.attrs.insert key text }
  else el.addChild key (.ofScalar (some text))

mutual

/-- The tree of a JSON value. Numbers keep their spelling, and objects the order of their keys, where a contract reads them. -/
def jsonValue (exactNumbers pythonText : Bool) (value : Json) : El :=
  match value with
  | .null => .ofScalar none
  | .bool value => { El.ofScalar (some (if value then "true" else "false")) with kind := .boolean }
  | .num lexeme =>
      { El.ofScalar (some lexeme) with
        kind := .number
        exactNumber := if exactNumbers || pythonText then some lexeme else none }
  | .str value => .ofScalar (some value)
  | .arr items => { array := true, children := [("item", .many (jsonItems exactNumbers pythonText items))] }
  | .obj fields =>
      jsonFields exactNumbers pythonText { jsonKeys := if pythonText then some (fields.map Prod.fst) else none } fields
termination_by structural value

def jsonItems (exactNumbers pythonText : Bool) (items : List Json) : List El :=
  match items with
  | [] => []
  | value :: rest => jsonValue exactNumbers pythonText value :: jsonItems exactNumbers pythonText rest
termination_by structural items

/-- The fields of an object, written into its element one by one. -/
def jsonFields (exactNumbers pythonText : Bool) (el : El) (fields : List (String × Json)) : El :=
  match fields with
  | [] => el
  | (key, .str text) :: rest => jsonFields exactNumbers pythonText (el.writeText key text) rest
  | (key, .arr items) :: rest =>
      jsonFields exactNumbers pythonText (el.setChild key (.many (jsonItems exactNumbers pythonText items))) rest
  | (key, value) :: rest => jsonFields exactNumbers pythonText (el.addChild key (jsonValue exactNumbers pythonText value)) rest
termination_by structural fields

end

/-! ### Path lookups

A path names one step after another, split at its dots; a step may carry a filter that keeps the children whose own path reads a value. A filter's path is shorter than the path it is part of, so a lookup ends.
-/

inductive Found where
  | missing
  | el (el : El)
  | list (rows : List El)
  | text (value : String) (kind : ScalarKind) (exactNumber : Option String)

structure Mode where
  keepEmptyArrays : Bool
  keepNull : Bool
  literal : Bool

/-- The lookups there are: of values, with or without empty arrays, of shapes, and by literal names. -/
inductive Reader where
  | value (keepEmptyArrays : Bool)
  | shape
  | literal

def Reader.mode : Reader → Mode
  | .value keepEmptyArrays => ⟨keepEmptyArrays, false, false⟩
  | .shape => ⟨true, true, false⟩
  | .literal => ⟨true, true, true⟩

def depthAfter (depth : Int) (c : Char) : Int := if c = '[' then depth + 1 else if c = ']' then depth - 1 else depth

def segmentsFrom (depth : Int) : List Char → List (List Char)
  | [] => [[]]
  | c :: rest =>
      if c = '.' ∧ depth = 0 then [] :: segmentsFrom depth rest
      else
        match segmentsFrom (depthAfter depth c) rest with
        | [] => [[c]]
        | segment :: others => (c :: segment) :: others

def segments (path : List Char) : List (List Char) := segmentsFrom 0 path

def splitOnce (c : Char) (text : List Char) : Option (List Char × List Char) :=
  match text.dropWhile (· ≠ c) with
  | [] => none
  | _ :: rest => some (text.takeWhile (· ≠ c), rest)

def stripBracket (text : List Char) : Option (List Char) :=
  if text.getLast? = some ']' then some text.dropLast else none

/-- A segment's name and its filter: the path to read and the value wanted of it. -/
def readSegment (segment : List Char) : String × Option (List Char × List Char) :=
  match splitOnce '[' segment with
  | some (key, rest) => (String.ofList key, (stripBracket rest).bind (splitOnce '='))
  | none => (String.ofList segment, none)

def isBlank (c : Char) : Bool :=
  c.toNat ∈ [0x20, 0x85, 0xA0, 0x1680, 0x2028, 0x2029, 0x202F, 0x205F, 0x3000] ∨
    (0x9 ≤ c.toNat ∧ c.toNat ≤ 0xD) ∨ (0x2000 ≤ c.toNat ∧ c.toNat ≤ 0x200A)

def trimText (text : List Char) : List Char := ((text.dropWhile isBlank).reverse.dropWhile isBlank).reverse

def childRows : Option (Child El) → List El
  | none => []
  | some (.one child) => [child]
  | some (.many rows) => rows

def Found.isText (wanted : List Char) : Found → Bool
  | .text value _ _ => trimText value.toList = wanted
  | _ => false

def textOf (el : El) : Found := el.text.elim .missing fun text => .text text el.kind el.exactNumber

def foundRows (mode : Mode) (child : Option (Child El)) (filtered : Bool) (rows : List El) : Found :=
  match rows, child, filtered with
  | [], some (.many _), false => if mode.keepEmptyArrays then .list [] else .missing
  | [], _, _ => .missing
  | rows, some (.many _), false => .list rows
  | [row], _, _ => .el row
  | rows, _, _ => .list rows

/-- One step of a path from an element. `within` looks a filter's path up. -/
def stepInto (within : El → List Char → Except String Found) (mode : Mode) (key : String)
    (filter : Option (List Char × List Char)) (el : El) : Except String Found :=
  if mode.literal && el.scalar then .ok .missing
  else if key = "$" && !(mode.keepNull && (el.child key).isSome) then .ok (textOf el)
  else if isAttribute key && !(mode.keepNull && (el.child key).isSome) then
    .ok ((el.attrs.get? key).elim .missing fun text => .text text .text none)
  else
    match filter with
    | none => .ok (foundRows mode (el.child key) false (childRows (el.child key)))
    | some (sub, wanted) =>
        (Runs.selectM (fun row => do let found ← within row sub; .ok (found.isText wanted)) (childRows (el.child key))).map
          (foundRows mode (el.child key) true)

def follow (within : El → List Char → Except String Found) (mode : Mode) (path : List Char) (current : Found)
    (segment : List Char × Nat) : Except String Found :=
  let (key, filter) := readSegment segment.1
  match current with
  | .list _ =>
      if mode.literal then .ok .missing
      else .error ("path " ++ String.ofList path ++ " crosses a repeating group at segment " ++ toString segment.2 ++ "; use each")
  | .missing => .ok .missing
  | .text value kind exactNumber => .ok (if key = "$" && !mode.literal then .text value kind exactNumber else .missing)
  | .el el => stepInto within mode key filter el

def settle (mode : Mode) : Found → Found
  | .el el => if el.scalar && !(mode.keepNull && el.text.isNone) then textOf el else .el el
  | other => other

def lookupWithin : Nat → Mode → El → List Char → Except String Found
  | 0, _, _, _ => .error "a filter is shorter than its path"
  | fuel + 1, mode, start, path =>
      if path = ['.'] then .ok (.el start)
      else do
        let found ← (segments path).zipIdx.foldlM (follow (lookupWithin fuel ⟨false, false, false⟩) mode path) (.el start)
        .ok (settle mode found)

def lookup (reader : Reader) (start : El) (path : String) : Except String Found :=
  lookupWithin (path.toList.length + 1) reader.mode start path.toList

/-- What a lookup hands on. -/
inductive Value where
  | missing
  | text (value : String) (kind : ScalarKind) (exactNumber : Option String)
  | record (raw : Raw)
  | records (raws : List Raw)

def Found.value : Found → Value
  | .missing => .missing
  | .text value kind exactNumber => .text value kind exactNumber
  | .el found => .record found.raw
  | .list rows => .records (rawRows rows)

end EdgarPlatform.Formats
