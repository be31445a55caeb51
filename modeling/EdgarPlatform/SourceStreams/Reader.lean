import EdgarPlatform.SourceStreams.Partitions

/-!
# Reading streamed partitions

A consumer checks the entries of an index before it reads a piece, and counts what it reads against its own bounds. The pieces are read from their bytes, whatever characters their texts hold.
-/

namespace EdgarPlatform.SourceStreams

open PythonJson SourceReadings

variable {F : Type}

abbrev Store := String → Option (List UInt8)

section

variable (codec : Codec F) (store : Store) (maxBytes maxRows : Nat)

def verified (ref : Value F) (bound : Nat) : Except String (List UInt8) := do
  let receipt ← reference ref
  match store receipt.uri with
  | none => .error ("Artifact missing or unreadable: " ++ receipt.uri)
  | some data =>
      if bound < data.length then .error ("Artifact missing or unreadable: " ++ receipt.uri)
      else if codec.sha256 data ≠ receipt.sha256 then .error ("Artifact hash mismatch: " ++ receipt.uri)
      else .ok data

def readPart (names : List Text) (c : Consumed) (part : Named F) :
    Except String (Consumed × List (Text × List (Value F)) × List (Value F)) :=
  if maxBytes < c.size + part.bytes then .error "Partitioned reading exceeds consumer byte budget"
  else do
    let data ← verified codec store part.receipt part.bytes
    if data.length ≠ part.bytes then .error "Partition byte receipt differs from actual content"
    else do
      let chunk ← jsonValue codec.floats data
      let (rows, tables, deferred) ← readChunk maxRows names c.rows chunk
      .ok (⟨c.size + data.length, rows⟩, tables, deferred)

def readParts (names : List Text) (at' : Nat) (artifact : Value F) : Consumed → List (Named F) → Except String (Consumed × List (Chunk F))
  | c, [] => .ok (c, [])
  | c, part :: rest => do
      let (c, tables, deferred) ← readPart codec store maxBytes maxRows names c part
      let (c, chunks) ← readParts names at' artifact c rest
      .ok (c, ⟨at', artifact, tables, deferred⟩ :: chunks)

/-- The chunks of an artifact, an empty one where it has no parts. -/
def artifactChunks (c : Consumed) (at' : Nat) (artifact : Value F) : Except String (Consumed × List (Chunk F)) := do
  let (names, parts) ← checkArtifact artifact
  if parts = [] then .ok (c, [⟨at', artifact, names.map fun name => (name, []), []⟩])
  else readParts codec store maxBytes maxRows names at' artifact c parts

def partitionChunks : Consumed → Nat → List (Value F) → Except String (Consumed × List (Chunk F))
  | c, _, [] => .ok (c, [])
  | c, at', artifact :: rest => do
      let (c, chunks) ← artifactChunks codec store maxBytes maxRows c at' artifact
      let (c, more) ← partitionChunks c (at' + 1) rest
      .ok (c, chunks ++ more)

end

def Reading.Valid (r : Reading F) : Prop := ∀ name, ∀ row ∈ r.target name, (Value.dict row).Valid

/-- What the traversal hands on: evidence by exact receipts, rows a document can hold, and no more records and bytes than declared. -/
structure Source.Sound (spec : Spec) (source : Source F) : Prop where
  input : source.input.exact = true
  context : ∀ r ∈ source.context, r.exact = true
  lookups : ∀ r ∈ source.lookups, r.exact = true
  rows : ∀ r ∈ source.readings, r.Valid
  records : source.readings.length ≤ spec.maxRecords
  bytes : ∀ n, source.expanded = .ok n → n ≤ spec.maxBytes

/-- A part and its text in the store: the piece of some readings, within the bounds. -/
structure Stored (codec : Codec F) (spec : Spec) (outputUri : String) (store : Store) (readings : List (Reading F)) (part : Part) : Prop where
  filled : readings ≠ []
  declared : ∀ r ∈ readings, Declared spec.names r
  most : readings.length ≤ spec.partitionRecords
  count : part.recordCount = readings.length
  data : ∃ data, encode codec.floats (pieceOf spec.names readings).value = .ok data ∧ part.receipt = receiptOf codec outputUri data ∧
    part.bytes = data.length ∧ data.length ≤ spec.partitionBytes ∧ store part.receipt.uri = some data

/-- A source with its entry in the index and the readings of each of its parts. -/
structure Streamed (F : Type) where
  source : Source F
  entry : Entry
  groups : List (List (Reading F))

/-- The parts of an entry hold the readings of its source, in order and each once, from the first ordinal on without a gap. -/
structure Streamed.Sound (codec : Codec F) (spec : Spec) (outputUri : String) (store : Store) (d : Streamed F) : Prop where
  source : d.source.Sound spec
  expanded : ∃ expanded parts, d.source.expanded = .ok expanded ∧ d.entry = entryOf spec d.source expanded parts
  parts : List.Forall₂ (Stored codec spec outputUri store) d.groups d.entry.parts
  contiguous : Contiguous 1 d.entry.parts
  readings : d.groups.flatten = d.source.readings

/-- The readings of each chunk a consumer is given of a source, one without any where the source has none. -/
def Streamed.chunks (d : Streamed F) : List (List (Reading F)) := if d.groups = [] then [[]] else d.groups

def chunksFrom : Nat → List (Streamed F) → List (Nat × Streamed F × List (Reading F))
  | _, [] => []
  | at', d :: rest => d.chunks.map (fun readings => (at', d, readings)) ++ chunksFrom (at' + 1) rest

/-- A chunk is what some readings hold: of every declared table their rows in order, and their deferred records. -/
structure Gives (names : List Text) (expected : Nat × Streamed F × List (Reading F)) (chunk : Chunk F) : Prop where
  index : chunk.index = expected.1
  artifact : chunk.artifact = expected.2.1.entry.value.normal
  tables : ∀ name, IndexMap.lookupEntry name chunk.tables =
    if name ∈ names then some ((expected.2.2.flatMap fun r => r.target (some name)).map normalRow) else none
  deferred : chunk.deferred = (expected.2.2.flatMap fun r => r.deferred).map normalRow

def Streamed.bytes (d : Streamed F) : Nat := (d.entry.parts.map Part.bytes).sum

def Streamed.rows (d : Streamed F) : Nat := (d.source.readings.map Reading.rows).sum

/-- The index is read as the entries of the sources, each cut into parts that hold its readings, and a consumer with room for all of it is given every part. -/
def Delivered (codec : Codec F) (spec : Spec) (outputUri : String) (store : Store) (sources : List (Except String (Source F)))
    (encoded : List UInt8) : Prop :=
  ∃ (delivered : List (Streamed F)) (body : Value F), sources = delivered.map (fun d => .ok d.source) ∧
    jsonValue codec.floats encoded = .ok body ∧
    Value.field body "artifacts" = some (.list (delivered.map fun d => d.entry.value.normal)) ∧
    (∀ d ∈ delivered, d.Sound codec spec outputUri store) ∧
    ∀ maxBytes maxRows, encoded.length + (delivered.map Streamed.bytes).sum ≤ maxBytes → (delivered.map Streamed.rows).sum ≤ maxRows →
      ∃ consumed chunks, partitionChunks codec store maxBytes maxRows ⟨encoded.length, 0⟩ 0 (delivered.map fun d => d.entry.value.normal) =
        .ok (consumed, chunks) ∧ List.Forall₂ (Gives spec.names) (chunksFrom 0 delivered) chunks

end EdgarPlatform.SourceStreams
