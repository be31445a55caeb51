import EdgarPlatform.SourceReadings.Receipts

/-!
# Reading an index back

A consumer reads a reading through its index. An index of the second version names the pieces of every artifact: their ranges are checked before any piece is read, every piece is compared with what the index says of it, and the pieces of an artifact are put together again. What it reads counts against the consumer's bounds of bytes and rows.
-/

namespace EdgarPlatform.SourceReadings

open PythonJson

variable {F : Type} (codec : Codec F) (store : Store) (maxBytes maxRows : Nat)

def isFirstOfName (n : Nat) : Bool := (65 ≤ n && n ≤ 90) || (97 ≤ n && n ≤ 122) || n = 95

def isNameChar (n : Nat) : Bool := isFirstOfName n || (48 ≤ n && n ≤ 57)

/-- A letter or an underscore and at most 63 of them and digits after it. -/
def isName : Text → Bool
  | [] => false
  | first :: rest => isFirstOfName first && rest.length ≤ 63 && rest.all isNameChar

def namesOf : List (Value F) → Option (List Text)
  | [] => some []
  | .str name :: rest => (namesOf rest).map (name :: ·)
  | _ :: _ => none

def areTableNames (names : List Text) : Bool := names.length ≤ 64 && names.all isName && names.Nodup

def tableNames (names : Option (Value F)) : Except String (List Text) :=
  match names with
  | some (.list values) =>
      match namesOf values with
      | some names => if areTableNames names then .ok names else .error "Streamed reading declares at most 64 distinct table names"
      | none => .error "Streamed reading declares at most 64 distinct table names"
  | _ => .error "Streamed reading declares at most 64 distinct table names"

/-- Lookup receipts are read only by a consumer that takes them. -/
def checkLookups (allow : Bool) (entry : Value F) : Except String Unit :=
  match Value.field entry "lookups" with
  | none => .ok ()
  | some lookups => do
      let _ ← reference lookups
      if allow then .ok () else .error "Consumer must explicitly bind lookup receipts into its output identity"

def listOf : Option (Value F) → Option (List (Value F))
  | some (.list items) => some items
  | _ => none

def index (ref : Value F) (allowLookupReceipts : Bool) : Except String (Value F × Nat) := do
  let data ← verified codec store ref maxBytes
  let body ← loads codec.floats data
  let version ← match readInteger 1 2 (Value.field body "version") with
    | some version => .ok version
    | none => .error "Consumer requires a version-1 or version-2 source reading"
  ((listOf (Value.field body "artifacts")).getD []).forM (checkLookups allowLookupReceipts)
  if version = 1 then
    .ok (body, data.length)
  else if ¬(Value.hasKeys body ["version", "contract", "artifacts"] ∧
      (listOf (Value.field body "artifacts")).any fun artifacts => 1 ≤ artifacts.length && artifacts.length ≤ maxArtifacts) then
    .error "Partitioned reading requires contract and 1..512 artifacts"
  else do
    let _ ← reference ((Value.field body "contract").getD .null)
    .ok (body, data.length)

/-- A part as the index names it: the receipt and the bytes it must have. -/
structure Named (F : Type) where
  receipt : Value F
  bytes : Nat

def rangesFail : String := "Partition source ranges must be bounded and contiguous"

/-- A part that begins at an ordinal, and the ordinal after it. -/
def checkPart (ordinal : Nat) (part : Value F) : Except String (Nat × Named F) :=
  if Value.hasKeys part ["receipt", "first_ordinal", "record_count", "bytes"] ∧
      readInteger 1 artifactRows (Value.field part "first_ordinal") = some ordinal then
    match readInteger 1 partRows (Value.field part "record_count"), readInteger 1 partBytes (Value.field part "bytes") with
    | some count, some bytes => do
        let _ ← reference ((Value.field part "receipt").getD .null)
        .ok (ordinal + count, ⟨(Value.field part "receipt").getD .null, bytes⟩)
    | _, _ => .error rangesFail
  else .error rangesFail

def checkParts : Nat → List (Value F) → Except String (Nat × List (Named F))
  | ordinal, [] => .ok (ordinal, [])
  | ordinal, part :: rest => do
      let (next, named) ← checkPart ordinal part
      let (last, more) ← checkParts next rest
      .ok (last, named :: more)

def optionalReference (artifact : Value F) (key : String) : Except String Unit :=
  match Value.field artifact key with
  | none => .ok ()
  | some value => (reference value).map fun _ => ()

def artifactKeys : List String := ["input", "record_count", "expanded_bytes", "table_names", "partitions"]

/-- The table names of an artifact and its parts, every check made that needs no part. -/
def checkArtifact (artifact : Value F) : Except String (List Text × List (Named F)) :=
  if Value.isDict artifact ∧ (artifactKeys.all fun key => Text.ofString key ∈ Value.keys artifact) ∧
      ((Value.keys artifact).all fun key => key ∈ (artifactKeys ++ ["context", "lookups"]).map Text.ofString) then do
    let _ ← reference ((Value.field artifact "input").getD .null)
    optionalReference artifact "context"
    optionalReference artifact "lookups"
    let names ← tableNames (Value.field artifact "table_names")
    match readInteger 0 artifactRows (Value.field artifact "record_count"),
        readInteger 1 artifactBytes (Value.field artifact "expanded_bytes"), listOf (Value.field artifact "partitions") with
    | some recordCount, some _, some parts => do
        let (last, named) ← checkParts 1 parts
        if last - 1 ≠ recordCount then .error "Partition record accounting differs from source EOF receipt" else .ok (names, named)
    | _, _, _ => .error "Partitioned artifact has invalid source accounting"
  else .error "Partitioned artifact has unknown or missing evidence"

/-- What has been read: its bytes and its rows. -/
structure Consumed where
  size : Nat
  rows : Nat

def objectRows : Value F → Option (List (Value F))
  | .list rows => if rows.all Value.isDict then some rows else none
  | _ => none

def countTable (rows : Nat) (table : Text × Value F) : Except String (Nat × Text × List (Value F)) :=
  match objectRows table.2 with
  | none => .error "Partition tables contain object rows"
  | some values =>
      if maxRows < rows + values.length then .error "Partitioned reading exceeds consumer row budget"
      else .ok (rows + values.length, table.1, values)

def countTables : Nat → List (Text × Value F) → Except String (Nat × List (Text × List (Value F)))
  | rows, [] => .ok (rows, [])
  | rows, table :: rest => do
      let (rows, counted) ← countTable maxRows rows table
      let (rows, more) ← countTables rows rest
      .ok (rows, counted :: more)

/-- A chunk as it is yielded: the place of its artifact in the index, the artifact, and what the piece holds. -/
structure Chunk (F : Type) where
  index : Nat
  artifact : Value F
  tables : List (Text × List (Value F))
  deferred : List (Value F)

def schemaFail : String := "Partition content differs from its declared table schema"

/-- The tables and deferred records of a piece, checked and counted. -/
def readChunk (names : List Text) (rows : Nat) (chunk : Value F) :
    Except String (Nat × List (Text × List (Value F)) × List (Value F)) :=
  if Value.hasKeys chunk ["version", "tables", "deferred"] ∧ readInteger 1 1 (Value.field chunk "version") = some 1 then
    match Value.field chunk "tables", (Value.field chunk "deferred").bind objectRows with
    | some (.dict tables), some deferred =>
        if (tables.map Prod.fst).all (fun name => name ∈ names) ∧ names.all (fun name => name ∈ tables.map Prod.fst) then do
          let (rows, counted) ← countTables maxRows rows tables
          if maxRows < rows + deferred.length then .error "Partitioned reading exceeds consumer row budget"
          else .ok (rows + deferred.length, counted, deferred)
        else .error schemaFail
    | _, _ => .error schemaFail
  else .error schemaFail

def readPart (names : List Text) (c : Consumed) (part : Named F) :
    Except String (Consumed × List (Text × List (Value F)) × List (Value F)) :=
  if maxBytes < c.size + part.bytes then .error "Partitioned reading exceeds consumer byte budget"
  else do
    let data ← verified codec store part.receipt part.bytes
    if data.length ≠ part.bytes then .error "Partition byte receipt differs from actual content"
    else do
      let chunk ← loads codec.floats data
      let (rows, tables, deferred) ← readChunk maxRows names c.rows chunk
      .ok (⟨c.size + data.length, rows⟩, tables, deferred)

def readParts (names : List Text) (at' : Nat) (artifact : Value F) : Consumed → List (Named F) → Except String (Consumed × List (Chunk F))
  | c, [] => .ok (c, [])
  | c, part :: rest => do
      let (c, tables, deferred) ← readPart codec store maxBytes maxRows names c part
      let (c, chunks) ← readParts names at' artifact c rest
      .ok (c, ⟨at', artifact, tables, deferred⟩ :: chunks)

/-- The chunks of an artifact, an empty one where it has no parts. -/
def artifactChunks (c : Consumed) (at' : Nat) (artifact : Value F) : Except String (Consumed × List (Chunk F)) := do
  let (names, parts) ← checkArtifact artifact
  if parts = [] then .ok (c, [⟨at', artifact, names.map fun name => (name, []), []⟩])
  else readParts codec store maxBytes maxRows names at' artifact c parts

def partitionChunks : Consumed → Nat → List (Value F) → Except String (Consumed × List (Chunk F))
  | c, _, [] => .ok (c, [])
  | c, at', artifact :: rest => do
      let (c, chunks) ← artifactChunks codec store maxBytes maxRows c at' artifact
      let (c, more) ← partitionChunks c (at' + 1) rest
      .ok (c, chunks ++ more)

/-- An artifact being put together. -/
structure Whole (F : Type) where
  artifact : Value F
  tables : List (Text × List (Value F))
  deferred : List (Value F)

def Whole.extend (w : Whole F) (chunk : Chunk F) : Whole F :=
  { w with
    tables := w.tables.map fun table => (table.1, table.2 ++ (IndexMap.lookupEntry table.1 chunk.tables).getD [])
    deferred := w.deferred ++ chunk.deferred }

def Whole.opened (chunk : Chunk F) : Whole F := ⟨chunk.artifact, chunk.tables.map fun table => (table.1, []), []⟩

/-- The artifacts put together, and the one being put together with its place. -/
structure Gathering (F : Type) where
  done : List (Whole F)
  current : Option (Nat × Whole F)

def gather (g : Gathering F) (chunk : Chunk F) : Gathering F :=
  match g.current with
  | some (at', whole) =>
      if chunk.index = at' then { g with current := some (at', whole.extend chunk) }
      else ⟨g.done ++ [whole], some (chunk.index, (Whole.opened chunk).extend chunk)⟩
  | none => { g with current := some (chunk.index, (Whole.opened chunk).extend chunk) }

def wholes (chunks : List (Chunk F)) : List (Whole F) :=
  let g := chunks.foldl gather ⟨[], none⟩
  g.done ++ (g.current.map Prod.snd).toList

def Value.with (v : Value F) (key : String) (value : Value F) : Value F :=
  match v with
  | .dict fields => .dict (IndexMap.setEntry (Text.ofString key) value fields)
  | other => other

def Whole.value (w : Whole F) : Value F :=
  Value.with (Value.with w.artifact "tables" (.dict (w.tables.map fun table => (table.1, .list table.2)))) "deferred" (.list w.deferred)

/-- The normalized reading a receipt names, and the bytes read for it. -/
def load (ref : Value F) (allowLookupReceipts : Bool) : Except String (Value F × Nat) := do
  let (body, size) ← index codec store maxBytes ref allowLookupReceipts
  if readInteger 1 1 (Value.field body "version") = some 1 then .ok (body, size)
  else do
    let artifacts := (listOf (Value.field body "artifacts")).getD []
    let (consumed, chunks) ← partitionChunks codec store maxBytes maxRows ⟨size, 0⟩ 0 artifacts
    .ok (Value.with (Value.with body "version" (.int 1)) "artifacts" (.list ((wholes chunks).map Whole.value)), consumed.size)

end EdgarPlatform.SourceReadings
