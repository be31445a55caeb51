import EdgarPlatform.Library.PythonJsonBytes
import EdgarPlatform.SourceReadings.Survival

/-!
# Streamed readings

A source too large to be held is read record by record. What each record becomes is added to the piece being filled, and a full piece goes to a private spool. Nothing is written where others see it before every source has been read to its end: then the spooled pieces are written, and the index that names them.
-/

namespace EdgarPlatform.SourceStreams

open PythonJson SourceReadings

variable {F : Type}

/-- The floats of the interpreter and the hash of bytes. -/
structure Codec (F : Type) where
  floats : Floats F
  sha256 : List UInt8 → String
  sha256_valid : ∀ data, Control.validHash (sha256 data) = true

/-- Why an output fails: a piece whose bytes were counted wrong, or a refusal, of a bound or of the surroundings. -/
inductive Failure where
  | size
  | refused (reason : String)
  deriving DecidableEq

def Failure.message : Failure → String
  | .size => "Projected partition size differs from incremental accounting"
  | .refused reason => reason

def outside {α : Type} (found : Except String α) : Except Failure α := found.mapError .refused

/-- What a contract declares of its stream, within the ceilings it is checked against: the names of its tables, and the bounds. -/
structure Spec where
  names : List Text
  partitionBytes : Nat
  partitionRecords : Nat
  maxRecords : Nat
  maxBytes : Nat
  maxPartitions : Nat
  maxSpoolBytes : Nat
  maxOutputRows : Nat
  names_ok : areTableNames names = true
  bytes_le : partitionBytes ≤ partBytes
  records_pos : 1 ≤ partitionRecords
  records_le : partitionRecords ≤ partRows
  maxRecords_le : maxRecords ≤ artifactRows
  maxBytes_le : maxBytes ≤ 2 ^ 40

/-- What one record of a source became: the rows of its tables, and the records put off. -/
structure Reading (F : Type) where
  tables : IndexMap Text (List (Row F))
  deferred : List (Row F)

def Reading.rows (r : Reading F) : Nat := (r.tables.entries.map fun entry => entry.2.length).sum + r.deferred.length

/-- A source as the traversal hands it on: its receipts, the readings of its records in their order, and the bytes it was expanded to, unless the traversal failed before its end. -/
structure Source (F : Type) where
  input : Receipt
  context : Option Receipt
  lookups : Option Receipt
  readings : List (Reading F)
  expanded : Except String Nat

def extend (p : Pending F) (r : Reading F) : Pending F where
  tables := r.tables.entries.foldl (fun tables entry => tables.insert entry.1 ((tables.get? entry.1).getD [] ++ entry.2)) p.tables
  deferred := p.deferred ++ r.deferred

/-- The lists of a piece a reading adds to, each with what is added. -/
def additions (p : Pending F) (r : Reading F) : Except String (List (List (Row F) × List (Row F))) := do
  let tables ← r.tables.entries.mapM fun entry =>
    match p.tables.get? entry.1 with
    | some current => .ok (current, entry.2)
    | none => .error "KeyError"
  return tables ++ [(p.deferred, r.deferred)]

def encodedSize (floats : Floats F) (rows : List (Row F)) : Except String Nat :=
  (rows.mapM fun row => encode floats (.dict row)).map fun encoded => (encoded.map List.length).sum

/-- What a reading adds to the bytes of a piece: its rows, and a comma before each that follows another. -/
def extraSize (additions : List (List (Row F) × List (Row F))) (sizes : List Nat) : Nat :=
  (List.zipWith (fun added size => size + if added.1.isEmpty then added.2.length - 1 else added.2.length) additions sizes).sum

/-- Where the output stands: the spool with what was staged in it, by offset, size and receipt; the rows so far; and of the source being read the parts, the piece being filled with its readings and its bytes counted, and the ordinal of its first reading. -/
structure Streaming (F : Type) where
  spool : List UInt8
  staged : List (Nat × Nat × Receipt)
  totalRows : Nat
  parts : List Part
  pending : Pending F
  count : Nat
  size : Nat
  first : Nat

section

variable (codec : Codec F) (spec : Spec) (outputUri : String)

def receiptOf (data : List UInt8) : Receipt := ⟨outputUri ++ ".parts/" ++ codec.sha256 data ++ ".json", codec.sha256 data⟩

/-- The piece being filled goes to the spool, if it holds a reading. -/
def flush (s : Streaming F) : Except Failure (Streaming F) :=
  if s.count = 0 then .ok s
  else do
    let data ← outside (encode codec.floats s.pending.value)
    if data.length ≠ s.size then .error .size
    else if spec.partitionBytes < data.length then .error (.refused "Projected record exceeds the partition byte bound")
    else if spec.maxPartitions ≤ s.staged.length ∨ spec.maxSpoolBytes < s.spool.length + data.length then
      .error (.refused "Stream projection exceeds partition or private spool bound")
    else do
      let receipt := receiptOf codec outputUri data
      let fresh := Pending.fresh s.pending.tables.keys
      let empty ← outside (encode codec.floats fresh.value)
      return { s with
        spool := s.spool ++ data
        staged := s.staged ++ [(s.spool.length, data.length, receipt)]
        parts := s.parts ++ [⟨receipt, s.first, s.count, data.length⟩]
        pending := fresh
        count := 0
        size := empty.length }

/-- A full piece is flushed before a reading, and the lists the reading adds to are those of the new piece then. -/
def turn (s : Streaming F) (result : Reading F) (added : List (List (Row F) × List (Row F))) (sizes : List Nat) :
    Except Failure (Streaming F × List (List (Row F) × List (Row F))) :=
  if s.count ≠ 0 ∧ (spec.partitionRecords ≤ s.count ∨ spec.partitionBytes < s.size + extraSize added sizes) then do
    let s ← flush codec spec outputUri s
    let added ← outside (additions s.pending result)
    return (s, added)
  else .ok (s, added)

/-- A reading goes into the piece being filled, or into the next one where it does not fit. -/
def project (s : Streaming F) (numbered : Reading F × Nat) : Except Failure (Streaming F) :=
  if spec.maxOutputRows < s.totalRows + numbered.1.rows then .error (.refused "Stream projection exceeds output row bound")
  else do
    let added ← outside (additions s.pending numbered.1)
    let sizes ← outside (added.mapM fun entry => encodedSize codec.floats entry.2)
    let (s, added) ← turn codec spec outputUri { s with totalRows := s.totalRows + numbered.1.rows } numbered.1 added sizes
    if spec.partitionBytes < s.size + extraSize added sizes then .error (.refused "Projected record exceeds the partition byte bound")
    else return { s with
      first := if s.count = 0 then numbered.2 + 1 else s.first
      pending := extend s.pending numbered.1
      size := s.size + extraSize added sizes
      count := s.count + 1 }

def entryOf (source : Source F) (expanded : Nat) (parts : List Part) : Entry where
  input := source.input
  context := source.context
  lookups := source.lookups
  recordCount := source.readings.length
  expandedBytes := expanded
  names := spec.names
  parts := parts

/-- A source is read to its end. The traversal numbers its records from zero. -/
def readSource (s : Streaming F) (source : Source F) : Except Failure (Streaming F × Entry) := do
  let fresh := Pending.fresh spec.names
  let empty ← outside (encode codec.floats fresh.value)
  let s ← source.readings.zipIdx.foldlM (project codec spec outputUri)
    { s with parts := [], pending := fresh, count := 0, size := empty.length, first := 0 }
  let expanded ← outside source.expanded
  let s ← flush codec spec outputUri s
  return (s, entryOf spec source expanded s.parts)

/-- The sources one after another, each prepared when its turn comes. -/
def readSources : Streaming F → List (Except String (Source F)) → Except Failure (Streaming F × List Entry)
  | s, [] => .ok (s, [])
  | s, prepared :: rest => do
      let source ← outside prepared
      let (s, entry) ← readSource codec spec outputUri s source
      let (s, entries) ← readSources s rest
      return (s, entry :: entries)

def opened : Streaming F := ⟨[], [], 0, [], .fresh [], 0, 0, 0⟩

def respool (spool : List UInt8) (offset size : Nat) : List UInt8 := (spool.drop offset).take size

/-- The bytes of the index, after every staged piece was handed on to be written or compared. -/
def output (contract : Receipt) (workers maxIndexBytes : Nat) (hand : Receipt → List UInt8 → Except String Unit)
    (sources : List (Except String (Source F))) : Except Failure (List UInt8) :=
  if workers ≠ 1 then .error (.refused "Streamed source.read uses one worker to bound private spool storage")
  else do
    let (s, entries) ← readSources codec spec outputUri opened sources
    let encoded ← outside (encode codec.floats (indexOf contract (entries.map Entry.value)))
    if maxIndexBytes < encoded.length then .error (.refused "Streamed reading index exceeds verifier byte budget")
    else do
      s.staged.forM fun (offset, size, receipt) => outside (hand receipt (respool s.spool offset size))
      return encoded

end

/-! ### The bytes counted

A reading adds its rows to the lists of a piece, and the bytes counted for the piece grow by what those rows add to its text, whichever lists they go to and whether these are empty or not.
-/

open PythonJson SourceReadings

variable {F : Type} {floats : Floats F} {names : List Text}

def addRows (tables : IndexMap Text (List (Row F))) (entries : List (Text × List (Row F))) : IndexMap Text (List (Row F)) :=
  entries.foldl (fun tables entry => tables.insert entry.1 ((tables.get? entry.1).getD [] ++ entry.2)) tables

section

variable {entries : List (Text × List (Row F))} {tables : IndexMap Text (List (Row F))}

theorem get?_addRows (hnodup : (entries.map Prod.fst).Nodup) (name : Text) :
    ((addRows tables entries).get? name).getD [] =
      (tables.get? name).getD [] ++ (IndexMap.lookupEntry name entries).getD [] := by
  induction entries generalizing tables with
  | nil => exact (List.append_nil _).symm
  | cons entry rest ih =>
      rw [List.map_cons, List.nodup_cons] at hnodup
      show ((addRows (tables.insert _ _) rest).get? name).getD [] = _
      rw [ih hnodup.2, IndexMap.get?_insert, IndexMap.lookupEntry]
      by_cases heq : entry.1 = name
      · have hnone : IndexMap.lookupEntry name rest = none := by
          cases hlookup : IndexMap.lookupEntry name rest with
          | none => rfl
          | some rows => exact absurd (heq ▸ List.mem_map_of_mem (IndexMap.lookupEntry_eq_some hlookup)) hnodup.1
        rw [if_pos heq.symm, if_pos heq, hnone, heq]
        exact List.append_nil _
      · rw [if_neg (Ne.symm heq), if_neg heq]

theorem keys_addRows (hknown : ∀ entry ∈ entries, entry.1 ∈ tables.keys) : (addRows tables entries).keys = tables.keys := by
  induction entries generalizing tables with
  | nil => rfl
  | cons entry rest ih =>
      have hkeys : (tables.insert entry.1 ((tables.get? entry.1).getD [] ++ entry.2)).keys = tables.keys := by
        rw [IndexMap.keys_insert, if_pos (hknown entry (List.mem_cons_self ..))]
      show (addRows (tables.insert _ _) rest).keys = _
      rw [ih fun other hother => hkeys ▸ hknown other (List.mem_cons_of_mem _ hother), hkeys]

theorem total_addRows {f : Text → List (Row F) → Nat} {grow : List (Row F) → List (Row F) → Nat}
    (hgrow : ∀ name rows more, f name (rows ++ more) = f name rows + grow rows more) (hnodup : (entries.map Prod.fst).Nodup)
    (hknown : ∀ entry ∈ entries, entry.1 ∈ tables.keys) :
    (addRows tables entries).total f =
      tables.total f + (entries.map fun entry => grow ((tables.get? entry.1).getD []) entry.2).sum := by
  induction entries generalizing tables with
  | nil => rfl
  | cons entry rest ih =>
      rw [List.map_cons, List.nodup_cons] at hnodup
      obtain ⟨rows, hrows⟩ := IndexMap.mem_keys_iff.1 (hknown entry (List.mem_cons_self ..))
      have htotal := IndexMap.total_insert f tables entry.1 (rows ++ entry.2)
      rw [hrows, Option.elim_some, hgrow] at htotal
      have hkeys : (tables.insert entry.1 (rows ++ entry.2)).keys = tables.keys := by
        rw [IndexMap.keys_insert, if_pos (hknown entry (List.mem_cons_self ..))]
      have hother : (rest.map fun other => grow (((tables.insert entry.1 (rows ++ entry.2)).get? other.1).getD []) other.2) =
          rest.map fun other => grow ((tables.get? other.1).getD []) other.2 := by
        refine List.map_congr_left fun other hother => ?_
        rw [IndexMap.get?_insert, if_neg]
        intro heq
        exact hnodup.1 (heq ▸ List.mem_map_of_mem hother)
      show (addRows (tables.insert _ ((tables.get? entry.1).getD [] ++ entry.2)) rest).total f = _
      rw [List.map_cons, List.sum_cons, hrows, Option.getD_some,
        ih hnodup.2 fun other hother => hkeys ▸ hknown other (List.mem_cons_of_mem _ hother), hother]
      omega

end

theorem extend_tables (p : Pending F) (r : Reading F) : (extend p r).tables = addRows p.tables r.tables.entries := rfl

def Known (p : Pending F) (r : Reading F) : Prop := ∀ entry ∈ r.tables.entries, entry.1 ∈ p.tables.keys

/-- What a reading adds to a table, or, without one, to the deferred records. -/
def Reading.target (r : Reading F) : Option Text → List (Row F)
  | some name => (r.tables.get? name).getD []
  | none => r.deferred

theorem keys_extend {p : Pending F} {r : Reading F} (h : Known p r) : (extend p r).tables.keys = p.tables.keys := keys_addRows h

theorem target_extend (p : Pending F) (r : Reading F) (name : Option Text) : (extend p r).target name = p.target name ++ r.target name := by
  cases name with
  | none => rfl
  | some name => exact get?_addRows r.tables.nodup name

theorem rows_extend {p : Pending F} {r : Reading F} (h : Known p r) : (extend p r).rows = p.rows + r.rows := by
  have hgrow : ∀ (_ : Text) (rows more : List (Row F)), (rows ++ more).length = rows.length + more.length := fun _ _ _ => List.length_append
  have htotal : (addRows p.tables r.tables.entries).total (fun _ rows => rows.length) = p.tables.total (fun _ rows => rows.length) +
      (r.tables.entries.map fun entry => entry.2.length).sum :=
    total_addRows (f := fun _ rows => rows.length) hgrow r.tables.nodup h
  rw [Pending.rows, extend_tables, htotal, Pending.rows, Reading.rows]
  show _ + _ + (p.deferred ++ r.deferred).length = _
  rw [List.length_append]
  omega

theorem size_of_keys {α : Type} {m n : IndexMap Text α} (h : m.keys = n.keys) : m.size = n.size := by
  rw [← IndexMap.length_keys, h, IndexMap.length_keys]

def addedBytes (floats : Floats F) (rows more : List (Row F)) : Nat := addedWeight Char.utf8Size spellPlain floats rows more

/-- The lists of a piece a reading adds to, where it has all of them. -/
def listsOf (p : Pending F) (r : Reading F) : List (List (Row F) × List (Row F)) :=
  (r.tables.entries.map fun entry => ((p.tables.get? entry.1).getD [], entry.2)) ++ [(p.deferred, r.deferred)]

theorem byteSize_extend {p : Pending F} {r : Reading F} (h : Known p r) : (extend p r).value.byteSize floats =
    p.value.byteSize floats + ((listsOf p r).map fun added => addedBytes floats added.1 added.2).sum := by
  have hgrow : ∀ name (rows more : List (Row F)), tableWeight Char.utf8Size spellPlain floats name (rows ++ more) =
      tableWeight Char.utf8Size spellPlain floats name rows + addedBytes floats rows more := by
    intro name rows more
    rw [tableWeight, tableWeight, weight_rowsValue_append marks_utf8, addedBytes, Nat.add_assoc]
  have htotal := total_addRows hgrow r.tables.nodup h
  have hsize : (extend p r).tables.size = p.tables.size := size_of_keys (keys_extend h)
  have hdeferred : (rowsValue (p.deferred ++ r.deferred)).weight Char.utf8Size spellPlain floats =
      (rowsValue p.deferred).weight Char.utf8Size spellPlain floats + addedBytes floats p.deferred r.deferred :=
    weight_rowsValue_append marks_utf8 p.deferred r.deferred
  rw [Value.byteSize, Value.byteSize, weight_pending marks_utf8, weight_pending marks_utf8, hsize, extend_tables, htotal, listsOf, List.map_append,
    List.sum_append, List.map_map, List.map_singleton, List.sum_singleton]
  show _ + _ + _ + (rowsValue (p.deferred ++ r.deferred)).weight _ _ _ =
    _ + ((r.tables.entries.map fun entry => addedBytes floats ((p.tables.get? entry.1).getD []) entry.2).sum +
      addedBytes floats p.deferred r.deferred)
  rw [hdeferred]
  omega

theorem additions_eq_ok {p : Pending F} {r : Reading F} {added : List (List (Row F) × List (Row F))} (h : additions p r = .ok added) :
    Known p r ∧ added = listsOf p r := by
  obtain ⟨tables, htables, hadded⟩ := Except.bind_eq_ok.1 h
  have hpaired : List.Forall₂ (fun entry found => entry.1 ∈ p.tables.keys ∧ found = ((p.tables.get? entry.1).getD [], entry.2))
      r.tables.entries tables := by
    refine (Runs.mapM_eq_ok.1 htables).imp fun entry found hfound => ?_
    cases hget : p.tables.get? entry.1 with
    | none =>
        rw [hget] at hfound
        cases hfound
    | some current =>
        rw [hget] at hfound
        exact ⟨IndexMap.mem_keys_of_get? hget, (Except.ok.inj hfound).symm⟩
  refine ⟨fun entry hentry => ?_, ?_⟩
  · obtain ⟨found, _, hknown, _⟩ := Runs.forall₂_exists_right hpaired hentry
    exact hknown
  · have hmap : tables = r.tables.entries.map fun entry => ((p.tables.get? entry.1).getD [], entry.2) := by
      refine (List.forall₂_eq_eq_eq ▸ List.forall₂_map_left_iff.2 (hpaired.imp fun entry found hfound => ?_)).symm
      exact hfound.2.symm
    rw [← Except.ok.inj hadded, hmap]
    rfl

def rowsBytes (floats : Floats F) (rows : List (Row F)) : Nat := (rows.map fun row => (Value.dict row).byteSize floats).sum

theorem encodedSize_eq_ok {rows : List (Row F)} {size : Nat} (h : encodedSize floats rows = .ok size) : size = rowsBytes floats rows := by
  rw [encodedSize] at h
  cases hencoded : rows.mapM fun row => encode floats (.dict row) with
  | error e =>
      rw [hencoded] at h
      cases h
  | ok encoded =>
      rw [hencoded] at h
      have hlengths : rows.map (fun row => (Value.dict row).byteSize floats) = encoded.map List.length := by
        refine List.forall₂_eq_eq_eq ▸ List.forall₂_map_left_iff.2 (List.forall₂_map_right_iff.2 ?_)
        exact (Runs.mapM_eq_ok.1 hencoded).imp fun row data hdata => (length_of_encode hdata).symm
      rw [rowsBytes, hlengths]
      exact (Except.ok.inj h).symm

theorem sizes_eq_ok {added : List (List (Row F) × List (Row F))} {sizes : List Nat}
    (h : (added.mapM fun entry => encodedSize floats entry.2) = .ok sizes) : sizes = (added.map Prod.snd).map (rowsBytes floats) := by
  rw [List.map_map]
  refine (List.forall₂_eq_eq_eq ▸ List.forall₂_map_left_iff.2 ((Runs.mapM_eq_ok.1 h).imp fun entry size hsize => ?_)).symm
  exact (encodedSize_eq_ok hsize).symm

theorem extraSize_eq (added : List (List (Row F) × List (Row F))) :
    extraSize added ((added.map Prod.snd).map (rowsBytes floats)) = (added.map fun entry => addedBytes floats entry.1 entry.2).sum := by
  rw [extraSize, List.map_map, List.zipWith_map_right, List.zipWith_self]
  refine congrArg List.sum (List.map_congr_left fun entry _ => ?_)
  rw [addedBytes, addedWeight, Function.comp_apply, rowsBytes]
  exact congrArg _ (if_congr List.isEmpty_iff rfl rfl)

theorem snd_listsOf (p q : Pending F) (r : Reading F) : (listsOf p r).map Prod.snd = (listsOf q r).map Prod.snd := by
  rw [listsOf, listsOf, List.map_append, List.map_append, List.map_map, List.map_map]
  rfl

end EdgarPlatform.SourceStreams
