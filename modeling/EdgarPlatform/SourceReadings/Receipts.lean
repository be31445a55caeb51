import EdgarPlatform.Control.Journal
import EdgarPlatform.Library.PythonJson

/-!
# Receipts of stored documents

A stored document is named by a receipt: where it is, and the hash of its bytes. The object store keeps bytes by their place, and what is read from it is compared with the hash.
-/

namespace EdgarPlatform.SourceReadings

open PythonJson

def partBytes : Nat := 8 * 1024 ^ 2

def partRows : Nat := 100000

def artifactRows : Nat := 10 ^ 12

def artifactBytes : Nat := 2 ^ 50

def maxArtifacts : Nat := 512

/-- The floats of the interpreter and the hash of bytes. -/
structure Codec (F : Type) where
  floats : Floats F
  sha256 : List Char → String
  sha256_valid : ∀ data, Control.validHash (sha256 data) = true

/-- The bytes of the object store by their place. A document is ASCII text, one byte a character. -/
abbrev Store := String → Option (List Char)

variable {F : Type}

def Value.text (s : String) : Value F := .str (Text.ofString s)

def Value.object (fields : List (String × Value F)) : Value F := .dict (fields.map fun field => (Text.ofString field.1, field.2))

def Value.keys : Value F → List Text
  | .dict fields => fields.map Prod.fst
  | _ => []

def Value.isDict : Value F → Bool
  | .dict _ => true
  | _ => false

def Value.hasKeys (v : Value F) (keys : List String) : Bool :=
  Value.isDict v && (Value.keys v).all (fun key => key ∈ keys.map Text.ofString) && keys.all fun key => Text.ofString key ∈ Value.keys v

def Value.field (v : Value F) (key : String) : Option (Value F) := v.get? (Text.ofString key)

def readInteger (minimum maximum : Nat) : Option (Value F) → Option Nat
  | some (.int n) => if minimum ≤ n ∧ n ≤ maximum then some n.toNat else none
  | _ => none

structure Receipt where
  uri : String
  sha256 : String
  deriving DecidableEq

def Receipt.value (r : Receipt) : Value F := Value.object [("uri", Value.text r.uri), ("sha256", Value.text r.sha256)]

def Receipt.exact (r : Receipt) : Bool := r.uri ≠ "" && Control.validHash r.sha256

def readScalars (t : Text) : Option String :=
  if t.all fun n => n < 0xD800 || (0xDFFF < n && n < 0x110000) then some (String.ofList (t.map Char.ofNat)) else none

def readText : Option (Value F) → Option String
  | some (.str t) => readScalars t
  | _ => none

def reference (v : Value F) : Except String Receipt :=
  if Value.hasKeys v ["uri", "sha256"] then
    match readText (Value.field v "uri"), readText (Value.field v "sha256") with
    | some uri, some sha256 => if Receipt.exact ⟨uri, sha256⟩ then .ok ⟨uri, sha256⟩ else .error Control.referenceFail
    | _, _ => .error Control.referenceFail
  else .error Control.referenceFail

def verified (codec : Codec F) (store : Store) (ref : Value F) (maxBytes : Nat) : Except String (List Char) := do
  let receipt ← reference ref
  match store receipt.uri with
  | none => .error ("Artifact missing or unreadable: " ++ receipt.uri)
  | some data =>
      if maxBytes < data.length then .error ("Artifact missing or unreadable: " ++ receipt.uri)
      else if codec.sha256 data ≠ receipt.sha256 then .error ("Artifact hash mismatch: " ++ receipt.uri)
      else .ok data

theorem ofString_inj {s t : String} (h : Text.ofString s = Text.ofString t) : s = t := by
  have hchars : s.toList = t.toList := List.map_injective_iff.2 (fun c d hcd => Char.toNat_inj.1 hcd) h
  exact String.toList_inj.1 hchars

theorem ofString_injective : Function.Injective Text.ofString := fun _ _ => ofString_inj

theorem scalar_of_char (c : Char) : (c.toNat < 0xD800 ∨ 0xDFFF < c.toNat ∧ c.toNat < 0x110000) := c.valid

theorem readScalars_ofString (s : String) : readScalars (Text.ofString s) = some s := by
  have hall : (Text.ofString s).all (fun n => n < 0xD800 || (0xDFFF < n && n < 0x110000)) = true := by
    refine List.all_eq_true.2 fun n hn => ?_
    obtain ⟨c, _, rfl⟩ := List.mem_map.1 hn
    simpa using scalar_of_char c
  have hchars : (Text.ofString s).map Char.ofNat = s.toList := by
    rw [Text.ofString, List.map_map]
    exact (List.map_congr_left fun c _ => Char.ofNat_toNat c).trans (List.map_id _)
  rw [readScalars, if_pos hall, hchars, String.ofList_toList]

theorem ofString_valid (s : String) : (Text.ofString s).Valid := by
  refine ⟨fun n hn => ?_, ?_⟩
  · obtain ⟨c, _, rfl⟩ := List.mem_map.1 hn
    obtain hlow | hhigh := scalar_of_char c <;> omega
  · refine List.Pairwise.isChain (List.pairwise_map.2 (List.pairwise_of_forall fun c d hboth => ?_))
    have hscalar := scalar_of_char c
    have hleading := hboth.1
    simp only [isLeading, Bool.and_eq_true, decide_eq_true_eq] at hleading
    omega

theorem object_keys (fields : List (String × Value F)) :
    (fields.map fun field => (Text.ofString field.1, field.2)).map Prod.fst = (fields.map Prod.fst).map Text.ofString := by
  rw [List.map_map, List.map_map]
  rfl

variable {fields : List (String × Value F)}

theorem object_nodup (h : (fields.map Prod.fst).Nodup) :
    ((fields.map fun field => (Text.ofString field.1, field.2)).map Prod.fst).Nodup := by
  rw [object_keys]
  exact h.map ofString_injective

theorem object_valid (hkeys : (fields.map Prod.fst).Nodup) (h : ∀ field ∈ fields, field.2.Valid) :
    (Value.object fields).Valid := by
  refine .dict (object_nodup hkeys) (fun field hfield => ?_) fun field hfield => ?_
  · obtain ⟨entry, _, rfl⟩ := List.mem_map.1 hfield
    exact ofString_valid entry.1
  · obtain ⟨entry, hentry, rfl⟩ := List.mem_map.1 hfield
    exact h entry hentry

theorem lookupEntry_object (fields : List (String × Value F)) (key : String) :
    IndexMap.lookupEntry (Text.ofString key) (fields.map fun field => (Text.ofString field.1, field.2)) = IndexMap.lookupEntry key fields := by
  induction fields with
  | nil => rfl
  | cons field rest ih =>
      rw [List.map_cons, IndexMap.lookupEntry, IndexMap.lookupEntry, ih]
      exact if_congr ofString_injective.eq_iff rfl rfl

theorem field_normal (hkeys : (fields.map Prod.fst).Nodup) (key : String) :
    Value.field (Value.object fields).normal key = (IndexMap.lookupEntry key fields).map Value.normal := by
  rw [Value.field, Value.object, get?_normal (object_nodup hkeys), lookupEntry_object]

theorem mem_keys_normal (fields : List (Text × Value F)) (key : Text) :
    key ∈ Value.keys (Value.dict fields).normal ↔ key ∈ fields.map Prod.fst := by
  have hmap : (normalFields fields).map Prod.fst = fields.map Prod.fst := by
    rw [normalFields_eq, List.map_map]
    rfl
  rw [Value.normal, Value.keys, ((Sorting.sortByKey_perm Prod.fst _).map Prod.fst).mem_iff, hmap]

theorem mem_keys_object (fields : List (String × Value F)) (key : String) :
    Text.ofString key ∈ Value.keys (Value.object fields).normal ↔ key ∈ fields.map Prod.fst := by
  rw [Value.object, mem_keys_normal, object_keys, List.mem_map_of_injective ofString_injective]

theorem hasKeys_normal {keys : List String} (h : ∀ key, key ∈ fields.map Prod.fst ↔ key ∈ keys) :
    Value.hasKeys (Value.object fields).normal keys = true := by
  have hdict : Value.isDict (Value.object fields).normal = true := by
    rw [Value.object, Value.normal]
    rfl
  rw [Value.hasKeys, hdict, Bool.true_and, Bool.and_eq_true, List.all_eq_true, List.all_eq_true]
  refine ⟨fun key hkey => ?_, fun key hkey => ?_⟩
  · rw [Value.object, mem_keys_normal, object_keys] at hkey
    obtain ⟨text, htext, rfl⟩ := List.mem_map.1 hkey
    exact decide_eq_true (List.mem_map_of_mem ((h text).1 htext))
  · exact decide_eq_true ((mem_keys_object fields key).2 ((h key).2 hkey))

theorem receipt_valid (r : Receipt) : (r.value : Value F).Valid := by
  refine object_valid (by simp) fun field hfield => ?_
  simp only [List.mem_cons, List.not_mem_nil, or_false] at hfield
  obtain rfl | rfl := hfield <;> exact .str (ofString_valid _)

theorem reference_normal {r : Receipt} (h : r.exact = true) : reference (r.value : Value F).normal = .ok r := by
  have huri : Value.field (r.value : Value F).normal "uri" = some (Value.text r.uri) := field_normal (by simp) "uri"
  have hsha : Value.field (r.value : Value F).normal "sha256" = some (Value.text r.sha256) := field_normal (by simp) "sha256"
  have hread : ∀ s, readText (some (Value.text s : Value F)) = some s := readScalars_ofString
  rw [reference, Receipt.value, if_pos (hasKeys_normal (by simp)), ← Receipt.value, huri, hsha, hread, hread]
  exact if_pos h

theorem verified_normal {codec : Codec F} {store : Store} {r : Receipt} {data : List Char} {maxBytes : Nat} (h : r.exact = true)
    (hstore : store r.uri = some data) (hsha : r.sha256 = codec.sha256 data) (hbytes : data.length ≤ maxBytes) :
    verified codec store r.value.normal maxBytes = .ok data := by
  rw [verified, reference_normal h, Except.bind_ok]
  rw [hstore]
  show (if _ then _ else if _ then _ else _) = _
  rw [if_neg (by omega), if_neg (by rw [hsha]; exact fun h => h rfl)]

/-! ### Cutting an input's rows into pieces

The rows of an input's tables and then its deferred records go in order into pieces, each within a bound of bytes and one of rows. The size of the piece being filled is counted as its rows are added, so the bytes are made only when it is full.
-/

open PythonJson

variable {F : Type}

abbrev Row (F : Type) := List (Text × Value F)

structure Pending (F : Type) where
  tables : IndexMap Text (List (Row F))
  deferred : List (Row F)

/-- What an item goes into: a table, or, without one, the deferred records. -/
abbrev Item (F : Type) := Option Text × Row F

def Pending.fresh (names : List Text) : Pending F := ⟨.ofList (names.map fun name => (name, [])), []⟩

def Pending.target (p : Pending F) : Option Text → List (Row F)
  | some name => (p.tables.get? name).getD []
  | none => p.deferred

def Pending.append (p : Pending F) : Item F → Pending F
  | (some name, row) => { p with tables := p.tables.insert name (p.target (some name) ++ [row]) }
  | (none, row) => { p with deferred := p.deferred ++ [row] }

def rowsValue (rows : List (Row F)) : Value F := .list (rows.map .dict)

def Pending.value (p : Pending F) : Value F :=
  Value.object [
    ("version", .int 1),
    ("tables", .dict (p.tables.entries.map fun entry => (entry.1, rowsValue entry.2))),
    ("deferred", rowsValue p.deferred)]

/-- A piece as the index names it. -/
structure Part where
  receipt : Receipt
  firstOrdinal : Nat
  recordCount : Nat
  bytes : Nat
  deriving DecidableEq

def Part.value (part : Part) : Value F :=
  Value.object [
    ("receipt", part.receipt.value),
    ("first_ordinal", .int part.firstOrdinal),
    ("record_count", .int part.recordCount),
    ("bytes", .int part.bytes)]

/-- Where the cutting of an input stands: the parts made, what was handed on of them, the ordinal of the next row, and the piece being filled with its rows and its bytes counted. -/
structure Cutting (F : Type) where
  parts : List Part
  handed : List (Receipt × List Char)
  ordinal : Nat
  pending : Pending F
  count : Nat
  size : Nat

/-- An input: the receipts of its evidence, and what was read of it. -/
structure Input (F : Type) where
  input : Receipt
  context : Option Receipt
  lookups : Option Receipt
  tables : IndexMap Text (List (Row F))
  deferred : List (Row F)
  names : List Text
  inputBytes : Nat

def Input.evidence (i : Input F) : List (String × Value F) :=
  ("input", i.input.value) ::
    ((i.context.map fun r => ("context", r.value)).toList ++ (i.lookups.map fun r => ("lookups", r.value)).toList)

def Input.items (i : Input F) : List (Item F) :=
  (i.names.flatMap fun name => ((i.tables.get? name).getD []).map fun row => (some name, row)) ++
    i.deferred.map fun row => (none, row)

section

variable (codec : Codec F) (outputUri : String) (sink : Receipt → List Char → Except String Unit) (names : List Text)

def receiptOf (data : List Char) : Receipt :=
  ⟨outputUri ++ ".parts/" ++ codec.sha256 data ++ ".json", codec.sha256 data⟩

def flush (c : Cutting F) : Except String (Cutting F) := do
  let data ← dumps codec.floats c.pending.value
  let receipt := receiptOf codec outputUri data
  sink receipt data
  return { c with
    parts := c.parts ++ [⟨receipt, c.ordinal, c.count, data.length⟩]
    handed := c.handed ++ [(receipt, data)]
    ordinal := c.ordinal + c.count }

/-- An item goes into the piece being filled unless it is too large for one. -/
def place (c : Cutting F) (item : Item F) (extra : Nat) : Except String (Cutting F) :=
  if partBytes < c.size + extra then .error "One source row exceeds the partition byte bound"
  else .ok { c with pending := c.pending.append item, size := c.size + extra, count := c.count + 1 }

def emptySize : Except String Nat := (dumps codec.floats (Pending.fresh names).value).map List.length

def addItem (empty : Nat) (c : Cutting F) (item : Item F) : Except String (Cutting F) := do
  let encoded ← dumps codec.floats (.dict item.2)
  let extra := encoded.length + if c.pending.target item.1 = [] then 0 else 1
  if c.count ≠ 0 ∧ (partBytes < c.size + extra ∨ c.count = partRows) then
    let flushed ← flush codec outputUri sink c
    place { flushed with pending := .fresh names, count := 0, size := empty } item encoded.length
  else place c item extra

def start (empty : Nat) : Cutting F := ⟨[], [], 1, .fresh names, 0, empty⟩

def finish (c : Cutting F) : Except String (Cutting F) := if c.count ≠ 0 then flush codec outputUri sink c else .ok c

end

def entryFields (i : Input F) (c : Cutting F) : List (String × Value F) :=
  i.evidence ++ [
    ("record_count", .int (c.ordinal - 1 : Nat)),
    ("expanded_bytes", .int (max 1 i.inputBytes : Nat)),
    ("table_names", .list (i.names.map .str)),
    ("partitions", .list (c.parts.map Part.value))]

def entryOf (i : Input F) (c : Cutting F) : Value F := Value.object (entryFields i c)

/-- An input's entry in the index, with what was handed on to be stored. -/
def pieces (codec : Codec F) (outputUri : String) (sink : Receipt → List Char → Except String Unit) (i : Input F) :
    Except String (Value F × Cutting F) := do
  let empty ← emptySize codec i.names
  let cut ← i.items.foldlM (addItem codec outputUri sink i.names empty) (start i.names empty)
  let cut ← finish codec outputUri sink cut
  return (entryOf i cut, cut)

/-! ### What a piece weighs

A piece weighs what its tables and its deferred records do, whatever the characters of its text weigh. Rows added to a list weigh what they do by themselves, and a comma before each that follows another.
-/

open PythonJson JsonText

variable {F : Type} {weight : Char → Nat} {spell : Text → List Piece} {floats : Floats F}

theorem weight_rowsValue (h : Marks weight) (rows : List (Row F)) :
    (rowsValue rows).weight weight spell floats =
      (rows.map fun row => (Value.dict row).weight weight spell floats).sum + (rows.length - 1) + 2 := by
  rw [rowsValue, weight_list h, List.map_map, List.length_map]
  rfl

def addedWeight (weight : Char → Nat) (spell : Text → List Piece) (floats : Floats F) (rows more : List (Row F)) : Nat :=
  (more.map fun row => (Value.dict row).weight weight spell floats).sum + if rows = [] then more.length - 1 else more.length

theorem weight_rowsValue_append (h : Marks weight) (rows more : List (Row F)) :
    (rowsValue (rows ++ more)).weight weight spell floats =
      (rowsValue rows).weight weight spell floats + addedWeight weight spell floats rows more := by
  rw [weight_rowsValue h, weight_rowsValue h, addedWeight, List.map_append, List.sum_append, List.length_append]
  cases rows with
  | nil =>
      rw [if_pos rfl, List.map_nil, List.sum_nil, List.length_nil]
      omega
  | cons first rest =>
      rw [if_neg (List.cons_ne_nil first rest), List.length_cons]
      omega

def tableWeight (weight : Char → Nat) (spell : Text → List Piece) (floats : Floats F) (name : Text) (rows : List (Row F)) : Nat :=
  keyWeight weight spell name + (rowsValue rows).weight weight spell floats

/-- What a piece weighs beside its tables and deferred records. -/
def frameWeight (weight : Char → Nat) (spell : Text → List Piece) (floats : Floats F) : Nat :=
  keyWeight weight spell (Text.ofString "version") + (Value.int 1 : Value F).weight weight spell floats +
    keyWeight weight spell (Text.ofString "tables") + keyWeight weight spell (Text.ofString "deferred") + 6

theorem weight_pending (h : Marks weight) (p : Pending F) :
    p.value.weight weight spell floats = frameWeight weight spell floats + p.tables.total (tableWeight weight spell floats) +
      (p.tables.size - 1) + (rowsValue p.deferred).weight weight spell floats := by
  rw [Pending.value, Value.object, weight_dict h]
  simp only [List.map_cons, List.map_nil, List.sum_cons, List.sum_nil, List.length_cons, List.length_nil, weight_dict h, List.map_map,
    List.length_map]
  have hsum : (p.tables.entries.map ((fun field : Text × Value F => keyWeight weight spell field.1 + field.2.weight weight spell floats) ∘
      fun entry : Text × List (Row F) => (entry.1, rowsValue entry.2))).sum =
        (p.tables.entries.map fun entry => tableWeight weight spell floats entry.1 entry.2).sum := rfl
  show _ = _ + (p.tables.entries.map fun entry => tableWeight weight spell floats entry.1 entry.2).sum + (p.tables.entries.length - 1) + _
  rw [hsum, frameWeight]
  omega

end EdgarPlatform.SourceReadings
