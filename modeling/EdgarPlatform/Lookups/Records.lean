import EdgarPlatform.Lookups.Scope
import EdgarPlatform.Matching.Rules
import EdgarPlatform.Readings.Versions

/-!
# The index of source records

Of each record the newest reading is kept, with what matching asks of it: the entity it is bound to, its identifiers in their normal forms and the keys its names are found by. Each record is listed in a group for each of these. When readings arrive the groups are changed by the difference between what the records were listed in and what they are.
-/

namespace EdgarPlatform.Lookups

open Records (Json Object readText readObject readOptionalValue readString hasValue writeSortedJson)
open Matching (TextForms Contracts prepareIdentifierRules prepareIdentifierValue readIdentifierValues writeIdentifierValues)
open Readings (Version readRevision mappingVersion orderReadings)

/-- A part of a path into a reading. -/
inductive PathSegment
  | field (name : String)
  | index (place : Nat)
  deriving DecidableEq

abbrev Routes := SortedMap String (List PathSegment)

abbrev RecordMap := SortedMap String Object

structure RecordInputs where
  readings : List Object
  previous : RecordMap
  subjects : List String
  bindings : SortedMap String String
  quarantined : SortedMap String String
  policy : Object
  normalizers : IndexMap String Bool
  batchId : String
  occurrences : SortedMap String Object
  candidateRoutes : Routes

def PathSegment.toJson : PathSegment → Json
  | .field name => .str name
  | .index place => .num (toString place)

def routesText (routes : Routes) : String :=
  Records.writeJson false (.obj (routes.entries.map fun entry => (entry.1, .arr (entry.2.map PathSegment.toJson))))

def followPath (value : Option Json) (part : PathSegment) : Option Json :=
  match value, part with
  | some (.obj fields), .field name => (IndexMap.ofList fields).get? name
  | some (.arr items), .index place => items[place]?
  | _, _ => none

/-- What a path leads to. Its first part is a field of the reading. -/
def readPath (reading : Object) : List PathSegment → Option Json
  | .field name :: rest => rest.foldl followPath (reading.get? name)
  | _ => none

def candidateKey (reading : Object) (path : List PathSegment) : Option String :=
  match readPath reading path with
  | some (.str value) => if value = "" then none else some value
  | _ => none

def readCandidateKeys (reading : Object) (routes : Routes) : Object :=
  .ofList (routes.entries.filterMap fun entry => (candidateKey reading entry.2).map fun key => (entry.1, .str key))

def PathSegment.isEmpty : PathSegment → Bool
  | .field name => name = ""
  | .index _ => false

def checkRoute (entry : String × List PathSegment) : Except String Unit :=
  if entry.1 = "" ∨ entry.2 = [] ∨ entry.2.any PathSegment.isEmpty then
    .error "Candidate routes require names and nonempty paths"
  else .ok ()

def recordType : String := "source-record"

def recordKey (subject : String) : Key := toLex (recordType, subject)

def recordPointer (subject : String) : String := writeSortedJson (.obj [("subject", .str subject)])

def memberGroups (record : Object) : Except String (List String) :=
  if hasValue record "entity_id" then do
    let entity ← readText record "entity_id"
    .ok [lookupType "master_members" [entity]]
  else .ok []

def bindingState (record : Object) : String := if hasValue record "entity_id" then "bound" else "unbound"

def identifierGroup (record : Object) (idNamespace value : String) : Except String String := do
  let source ← readText record "source_code"
  .ok (lookupType "identifier_records" [idNamespace, value, source, bindingState record])

def identifierGroups (record : Object) (entry : String × Json) : Except String (List String) := do
  let values ← readIdentifierValues entry.2
  values.mapM (identifierGroup record entry.1)

def crossReferenceGroups (entry : String × Json) : Except String (List String) :=
  if entry.2 = .null then .ok []
  else do
    let value ← readString entry.2
    .ok [lookupType "cross_reference_records" [entry.1, value]]

def nameGroups (record : Object) (entry : String × Json) : Except String (List String) := do
  let source ← readText record "source_code"
  let value ← readString entry.2
  .ok [lookupType "name_candidates" [source, entry.1, value]]

def recordGroups (record : Object) : Except String (List String) := do
  let members ← memberGroups record
  let identifiers ← readObject record "normalized_identifiers"
  let byIdentifier ← identifiers.entries.mapM (identifierGroups record)
  let references ← readObject record "cross_references"
  let byReference ← references.entries.mapM crossReferenceGroups
  let names ← readObject record "matching_keys"
  let byName ← names.entries.mapM (nameGroups record)
  .ok (members ++ byIdentifier.flatten ++ byReference.flatten ++ byName.flatten)

def recordEntries (subject : String) (record : Object) : Except String (List (Key × String)) := do
  let groups ← recordGroups record
  .ok ((recordKey subject, writeSortedJson (Object.toJson record)) ::
    groups.map fun group => (toLex (group, subject), recordPointer subject))

def collectRecord (entries : Store) (record : String × Object) : Except String Store := do
  let written ← recordEntries record.1 record.2
  .ok (entries.extend written)

def collectEntries (records : RecordMap) : Except String Store := records.entries.foldlM collectRecord .empty

def copiedFields : List String :=
  ["subject", "source_code", "record_key", "kind", "revision", "publication_key", "assertion_id", "effective_at",
    "identifiers"]

def bronzeOf (occurrences : SortedMap String Object) (id : String) : Json :=
  match occurrences.get? id with
  | none => .null
  | some occurrence =>
      .obj (["object", "sha256", "locator"].map fun name => (name, readOptionalValue occurrence name))

def recordFields (batchId : String) (bronze : Json) (reading references : Object) : List (String × Json) :=
  (copiedFields.map fun name => (name, readOptionalValue reading name)) ++
    [("mapping_version", mappingVersion reading), ("cross_references", Object.toJson references),
      ("batch_id", .str batchId), ("bronze", bronze)]

def recordOf (batchId : String) (occurrences : SortedMap String Object) (reading : Object) (id : String) :
    Except String Object := do
  let references ← readObject reading "cross_references"
  .ok (.ofList (recordFields batchId (bronzeOf occurrences id) reading references))

/-- A reading is newer than the record held. One of the same version is the reading held, or a contradiction. -/
def isNewer (revision : Version) (id : String) (held : Object) : Except String Bool := do
  let before ← readRevision held
  if revision = before then
    let heldId ← readText held "assertion_id"
    if heldId ≠ id then .error "Source native revision has contradictory publications" else .ok false
  else .ok (decide (before < revision))

def replaces (revision : Version) (id : String) : Option Object → Except String Bool
  | none => .ok true
  | some held => isNewer revision id held

def addReading (input : RecordInputs) (current : RecordMap) (ordered : Version × Object) : Except String RecordMap := do
  let subject ← readText ordered.2 "subject"
  if subject ∉ input.subjects then .error "A reading lies outside its affected record scope"
  else
    let id ← readText ordered.2 "assertion_id"
    let newer ← replaces ordered.1 id (current.get? subject)
    if newer then
      let record ← recordOf input.batchId input.occurrences ordered.2 id
      .ok (current.insert subject record)
    else .ok current

def routedKeys (routes : Routes) (digest : String) (available : SortedMap String Object) (record : Object) :
    Except String Object := do
  let latestId ← readText record "assertion_id"
  match available.get? latestId with
  | some reading =>
      .ok ((record.insert "matching_keys" (Object.toJson (readCandidateKeys reading routes))).insert
        "matching_routes_sha256" (.str digest))
  | none =>
      if (readText record "matching_routes_sha256").toOption = some digest then .ok record
      else .error "Changed candidate routes require the retained latest reading"

def optionalText (value : Option String) : Json := value.elim .null .str

def normalizedIdentifier (forms : TextForms) (contracts : Contracts) (normalizers : IndexMap String Bool)
    (entry : String × Json) : Except String (List (String × Json)) := do
  let values ← readIdentifierValues entry.2
  let found ← values.mapM fun value => prepareIdentifierValue forms contracts entry.1 value normalizers
  .ok (if found = [] then [] else [(entry.1, writeIdentifierValues found entry.2)])

def normalizedIdentifiers (forms : TextForms) (contracts : Contracts) (normalizers : IndexMap String Bool)
    (record : Object) : Except String Object := do
  let identifiers ← readObject record "identifiers"
  let normalized ← identifiers.entries.mapM (normalizedIdentifier forms contracts normalizers)
  .ok (.ofList normalized.flatten)

/-- A record with what its subject is bound to, and by what it is quarantined. -/
def bindRecord (input : RecordInputs) (subject : String) (record : Object) : Object :=
  (record.insert "entity_id" (optionalText (input.bindings.get? subject))).insert "quarantined_id"
    (optionalText (input.quarantined.get? subject))

/-- A record with what is calculated of it: its keys, what its subject is bound to, and its identifiers' normal forms. -/
def deriveRecord (forms : TextForms) (contracts : Contracts) (digest : String) (available : SortedMap String Object)
    (input : RecordInputs) (subject : String) (record : Object) : Except String Object := do
  let routed ← routedKeys input.candidateRoutes digest available record
  let normalized ← normalizedIdentifiers forms contracts input.normalizers (bindRecord input subject routed)
  .ok ((bindRecord input subject routed).insert "normalized_identifiers" (Object.toJson normalized))

def availableReadings (readings : List Object) : Except String (SortedMap String Object) := do
  let entries ← readings.mapM fun reading => (readText reading "assertion_id").map fun id => (id, reading)
  .ok (.ofList entries)

def previousRecords (input : RecordInputs) : RecordMap :=
  input.previous.filter fun entry => entry.1 ∈ input.subjects

def currentRecords (forms : TextForms) (digest : String → String) (input : RecordInputs) : Except String RecordMap := do
  input.candidateRoutes.entries.forM checkRoute
  let contracts ← prepareIdentifierRules input.policy
  let available ← availableReadings input.readings
  let ordered ← orderReadings input.readings
  let current ← ordered.foldlM (addReading input) (previousRecords input)
  current.mapValuesM (deriveRecord forms contracts (digest (routesText input.candidateRoutes)) available input)

def prepareRecordLookups (forms : TextForms) (digest : String → String) (input : RecordInputs) :
    Except String (RecordMap × List Entry) := do
  let current ← currentRecords forms digest input
  let before ← collectEntries (previousRecords input)
  let after ← collectEntries current
  .ok (current, sortEntries (indexChanges before after))

end EdgarPlatform.Lookups
